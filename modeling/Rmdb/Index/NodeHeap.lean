import Rmdb.Index.IxIndexHandle

/-! What the node operations of the index do to the pages, field by field: `field φ p`
is the field `φ` of the node on page `p`, and each setter changes one field of one page. -/
namespace Rmdb.Index
open Lib
namespace IxIndexHandle
variable {K : Type} {α : Type}

def field (s : IxIndexHandle K) (φ : IxPage K → α) (p : Int) : Option α := (s.pages p).map φ

def Has (s : IxIndexHandle K) (p : Int) : Prop := ∃ x, s.pages p = some x

def upd (s : IxIndexHandle K) (p : Int) (change : IxPage K → IxPage K) : IxIndexHandle K :=
  {s with pages := Function.update s.pages p ((s.pages p).map change)}

@[simp] theorem updHdr (s : IxIndexHandle K) (p : Int) (change : IxPage K → IxPage K) :
    (s.upd p change).fileHdr = s.fileHdr := rfl

@[simp] theorem updNext (s : IxIndexHandle K) (p : Int) (change : IxPage K → IxPage K) :
    (s.upd p change).fd2pageno = s.fd2pageno := rfl

@[simp] theorem updFile (s : IxIndexHandle K) (p : Int) (change : IxPage K → IxPage K) :
    (s.upd p change).filePages = s.filePages := rfl

@[simp] theorem updMax (s : IxIndexHandle K) (p : Int) (change : IxPage K → IxPage K) :
    (s.upd p change).getMaxSize = s.getMaxSize := rfl

def withHdr (s : IxIndexHandle K) (change : IxFileHdr → IxFileHdr) : IxIndexHandle K :=
  {s with fileHdr := change s.fileHdr}

@[simp] theorem hdrField (s : IxIndexHandle K) (change : IxFileHdr → IxFileHdr) (φ : IxPage K → α) (p : Int) :
    (s.withHdr change).field φ p = s.field φ p := rfl

theorem setHdrRun (s : IxIndexHandle K) (change : IxFileHdr → IxFileHdr) :
    setHdr change s = .ok () (s.withHdr change) := rfl

theorem fieldSome {s : IxIndexHandle K} {φ : IxPage K → α} {p : Int} {v : α} (known : s.field φ p = some v) :
    ∃ x, s.pages p = some x ∧ φ x = v := Option.map_eq_some_iff.mp known

theorem fieldHas {s : IxIndexHandle K} {φ : IxPage K → α} {p : Int} {v : α} (known : s.field φ p = some v) :
    s.Has p := by
  obtain ⟨x,here,_⟩ := fieldSome known
  exact ⟨x,here⟩

@[simp] theorem updHas {s : IxIndexHandle K} {p q : Int} {change : IxPage K → IxPage K} :
    (s.upd p change).Has q ↔ s.Has q := by
  by_cases here : q = p
  · subst here; simp [Has,upd]
  · simp [Has,upd,here]

@[simp] theorem fieldKeep {s : IxIndexHandle K} {φ : IxPage K → α} {p q : Int} {change : IxPage K → IxPage K}
    (same : ∀ x, φ (change x) = φ x) : (s.upd p change).field φ q = s.field φ q := by
  by_cases here : q = p
  · subst here
    simp only [field,upd,Function.update_self,Option.map_map]
    congr 1
    funext x
    exact same x
  · simp [field,upd,here]

theorem fieldOther {s : IxIndexHandle K} {φ : IxPage K → α} {p q : Int} {change : IxPage K → IxPage K}
    (apart : q ≠ p) : (s.upd p change).field φ q = s.field φ q := by
  simp [field,upd,apart]

theorem fieldSet {s : IxIndexHandle K} {φ : IxPage K → α} {p : Int} {change : IxPage K → IxPage K} {v : α}
    (has : s.Has p) (value : ∀ x, φ (change x) = v) : (s.upd p change).field φ p = some v := by
  obtain ⟨x,here⟩ := has
  simp [field,upd,here,value]

theorem fieldUpd {s : IxIndexHandle K} {φ : IxPage K → α} {p q : Int} {change : IxPage K → IxPage K} :
    (s.upd p change).field φ q = if q = p then s.field (fun x => φ (change x)) p else s.field φ q := by
  by_cases here : q = p
  · subst here; simp [field,upd,Function.comp_def]
  · rw [if_neg here,fieldOther here]

theorem fieldConst {s : IxIndexHandle K} {p : Int} (has : s.Has p) (v : α) : s.field (fun _ => v) p = some v := by
  obtain ⟨x,here⟩ := has
  simp [field,here]

def setPairs (s : IxIndexHandle K) (p : Int) (l : List (K × Rid)) : IxIndexHandle K :=
  s.upd p fun x => {x with pairs := l}

theorem updPairs {s : IxIndexHandle K} {p : Int} {l : List (K × Rid)} {change : IxPage K → IxPage K}
    {next : List (K × Rid) → List (K × Rid)} (known : s.field IxPage.pairs p = some l)
    (shape : ∀ x, change x = {x with pairs := next x.pairs}) : s.upd p change = s.setPairs p (next l) := by
  obtain ⟨x,here,rfl⟩ := fieldSome known
  simp [setPairs,upd,here,shape]

section Pairs
variable {s : IxIndexHandle K} {p q : Int} {l : List (K × Rid)}

theorem pairsSet (has : s.Has p) : (s.setPairs p l).field IxPage.pairs p = some l := fieldSet has fun _ => rfl

theorem pairsOther (apart : q ≠ p) : (s.setPairs p l).field IxPage.pairs q = s.field IxPage.pairs q :=
  fieldOther apart

@[simp] theorem pairsLeaf : (s.setPairs p l).field IxPage.isLeaf q = s.field IxPage.isLeaf q := fieldKeep fun _ => rfl

@[simp] theorem pairsParent : (s.setPairs p l).field IxPage.parent q = s.field IxPage.parent q :=
  fieldKeep fun _ => rfl

@[simp] theorem pairsNext : (s.setPairs p l).field IxPage.nextLeaf q = s.field IxPage.nextLeaf q :=
  fieldKeep fun _ => rfl

@[simp] theorem pairsPrev : (s.setPairs p l).field IxPage.prevLeaf q = s.field IxPage.prevLeaf q :=
  fieldKeep fun _ => rfl

@[simp] theorem pairsHas : (s.setPairs p l).Has q ↔ s.Has q := updHas

@[simp] theorem pairsHdr : (s.setPairs p l).fileHdr = s.fileHdr := rfl

@[simp] theorem pairsPageno : (s.setPairs p l).fd2pageno = s.fd2pageno := rfl

@[simp] theorem pairsFile : (s.setPairs p l).filePages = s.filePages := rfl

end Pairs

def adopt (s : IxIndexHandle K) (v : Int) : List Int → IxIndexHandle K
  | [] => s
  | c :: cs => (s.upd c fun x => {x with parent := v}).adopt v cs

section Adopt
variable {v : Int} {cs : List Int}

theorem adoptKeep {φ : IxPage K → α} (same : ∀ x : IxPage K, φ {x with parent := v} = φ x) {s : IxIndexHandle K}
    {q : Int} : (s.adopt v cs).field φ q = s.field φ q := by
  induction cs generalizing s with
  | nil => rfl
  | cons c cs ih => rw [adopt,ih,fieldKeep same]

theorem adoptHdr {s : IxIndexHandle K} : (s.adopt v cs).fileHdr = s.fileHdr ∧
    (s.adopt v cs).fd2pageno = s.fd2pageno ∧ (s.adopt v cs).filePages = s.filePages := by
  induction cs generalizing s with
  | nil => exact ⟨rfl,rfl,rfl⟩
  | cons c cs ih => exact ih

theorem adoptOther {s : IxIndexHandle K} {q : Int} (apart : q ∉ cs) :
    (s.adopt v cs).field IxPage.parent q = s.field IxPage.parent q := by
  induction cs generalizing s with
  | nil => rfl
  | cons c cs ih =>
    rw [List.mem_cons,not_or] at apart
    rw [adopt,ih apart.2,fieldOther apart.1]

theorem adoptChild {s : IxIndexHandle K} {q w : Int} (known : s.field IxPage.parent q = some w) (mem : q ∈ cs) :
    (s.adopt v cs).field IxPage.parent q = some v := by
  induction cs generalizing s w with
  | nil => cases mem
  | cons c cs ih =>
    rw [adopt]
    by_cases here : q = c
    · subst here
      have set : (s.upd q fun x => {x with parent := v}).field IxPage.parent q = some v :=
        fieldSet (fieldHas known) fun _ => rfl
      by_cases again : q ∈ cs
      · exact ih set again
      · rw [adoptOther again,set]
    · have still : (s.upd c fun x => {x with parent := v}).field IxPage.parent q = some w := by
        rw [fieldOther here,known]
      exact ih still (List.mem_of_ne_of_mem here mem)

end Adopt

section Runs
variable {s : IxIndexHandle K} {p q : Int} {l a b : List (K × Rid)} {x : K × Rid}

theorem fetchNodeRun {node : IxPage K} (here : s.pages p = some node) : fetchNode p s = .ok node s := by
  simp only [fetchNode,getBind,here,pureRun]

theorem modifyNodeRun {change : IxPage K → IxPage K} (has : s.Has p) :
    modifyNode p change s = .ok () (s.upd p change) := by
  obtain ⟨node,here⟩ := has
  simp only [modifyNode]
  rw [bindEq (fetchNodeRun here)]
  simp [upd,here]

theorem pairAtRun {i : Nat} (known : s.field IxPage.pairs p = some l) (at_ : l[i]? = some x) :
    pairAt p i s = .ok x s := by
  obtain ⟨node,here,rfl⟩ := fieldSome known
  simp only [pairAt]
  rw [bindEq (fetchNodeRun here)]
  simp [at_]

theorem getKeyRun {i : Nat} (known : s.field IxPage.pairs p = some l) (at_ : l[i]? = some x) :
    getKey p i s = .ok x.1 s := by
  simp only [getKey]
  rw [bindEq (pairAtRun known at_)]
  rfl

theorem valueAtRun {i : Nat} (known : s.field IxPage.pairs p = some l) (at_ : l[i]? = some x) :
    valueAt p i s = .ok x.2.pageNo s := by
  simp only [valueAt]
  rw [bindEq (pairAtRun known at_)]
  rfl

theorem setKeyRun {key : K} (known : s.field IxPage.pairs p = some (a ++ x :: b)) :
    setKey p a.length key s = .ok () (s.setPairs p (a ++ (key,x.2) :: b)) := by
  have found : (a ++ x :: b)[a.length]? = some x := by simp
  simp only [setKey]
  rw [bindEq (pairAtRun known found),modifyNodeRun (fieldHas known)]
  have same := @updPairs _ _ _ _ (fun node => {node with pairs := node.pairs.set a.length (key,x.2)})
    (fun l => l.set a.length (key,x.2)) known (fun _ => rfl)
  rw [same]
  simp

theorem insertPairsRun {pos : Nat} {new : List (K × Rid)} (known : s.field IxPage.pairs p = some (a ++ b))
    (here : pos = a.length) (room : a.length+b.length+new.length ≤ s.getMaxSize) :
    insertPairs p pos new s = .ok () (s.setPairs p (a ++ new ++ b)) := by
  subst here
  obtain ⟨node,there,pairs⟩ := fieldSome known
  simp only [insertPairs,getBind]
  rw [bindEq (fetchNodeRun there),bindEq (assertRun (by simp [IxPage.size,pairs]) s),
    bindEq (assertRun (by simpa [IxPage.size,pairs] using room) s),modifyNodeRun (fieldHas known)]
  have same := @updPairs _ _ _ _ (fun node => {node with pairs := node.pairs.take a.length ++ new ++ node.pairs.drop a.length})
    (fun l => l.take a.length ++ new ++ l.drop a.length) known (fun _ => rfl)
  rw [same]
  simp

theorem erasePairRun {i : Nat} (known : s.field IxPage.pairs p = some (a ++ x :: b)) (here : i = a.length) :
    erasePair p i s = .ok () (s.setPairs p (a ++ b)) := by
  subst here
  obtain ⟨node,there,pairs⟩ := fieldSome known
  simp only [erasePair]
  rw [bindEq (fetchNodeRun there),bindEq (assertRun (by simp [IxPage.size,pairs]) s),modifyNodeRun (fieldHas known)]
  have same := @updPairs _ _ _ _ (fun node => {node with pairs := node.pairs.eraseIdx a.length})
    (fun l => l.eraseIdx a.length) known (fun _ => rfl)
  rw [same]
  simp [List.eraseIdx_append_of_length_le]

theorem findChildRun {c : Int} (known : s.field IxPage.pairs p = some (a ++ x :: b)) (child : x.2.pageNo = c)
    (before : ∀ e ∈ a, e.2.pageNo ≠ c) : findChild p c s = .ok a.length s := by
  obtain ⟨node,there,pairs⟩ := fieldSome known
  have idx : node.childIdx c = a.length := by
    rw [IxPage.childIdx,pairs,List.findIdx_append]
    have none : a.findIdx (fun e => decide (e.2.pageNo = c)) = a.length := by
      rw [List.findIdx_eq_length]
      simpa using before
    simp [none,child,List.findIdx_cons]
  simp only [findChild]
  rw [bindEq (fetchNodeRun there),idx]
  rw [bindEq (assertRun (by simp [IxPage.size,pairs]) s)]
  rfl

theorem maintainChildrenRun {is : List Nat} {cs : List Int} (leaf : s.field IxPage.isLeaf p = some false)
    (known : s.field IxPage.pairs p = some l)
    (children : List.Forall₂ (fun i c => ∃ e w, l[i]? = some e ∧ e.2.pageNo = c ∧ s.field IxPage.parent c = some w)
      is cs) : maintainChildren p is s = .ok () (s.adopt p cs) := by
  induction is generalizing s cs with
  | nil => cases children; rfl
  | cons i is ih =>
    obtain ⟨c,cs,head,tail,rfl⟩ := List.forall₂_cons_left_iff.mp children
    obtain ⟨e,w,at_,rfl,parent⟩ := head
    obtain ⟨node,there,isLeaf⟩ := fieldSome leaf
    simp only [maintainChildren]
    have one : maintainChild p i s = .ok () (s.upd e.2.pageNo fun x => {x with parent := p}) := by
      simp only [maintainChild]
      rw [bindEq (fetchNodeRun there)]
      simp only [isLeaf,Bool.false_eq_true,if_false]
      rw [bindEq (valueAtRun known at_)]
      exact modifyNodeRun (fieldHas parent)
    rw [bindEq one,adopt]
    refine ih ?_ ?_ ?_
    · simpa using leaf
    · simpa using known
    · refine tail.imp ?_
      intro j c ⟨f,v,at_,page,known⟩
      by_cases same : c = e.2.pageNo
      · exact ⟨f,p,at_,page,by rw [same]; exact fieldSet (fieldHas parent) fun _ => rfl⟩
      · exact ⟨f,v,at_,page,by rwa [fieldOther same]⟩

end Runs

def created (s : IxIndexHandle K) : IxIndexHandle K :=
  {s with
    fileHdr := {s.fileHdr with numPages := s.fileHdr.numPages+1}
    pages := Function.update s.pages s.fd2pageno (some ⟨0,false,0,0,[]⟩)
    fd2pageno := s.fd2pageno+1
    filePages := s.fd2pageno.toNat+1}

def counters (s : IxIndexHandle K) : Int × Nat := (s.fd2pageno,s.filePages)

/- The next number that `create_node` hands out is not the number of a page in the file. -/
def NextUnused (s : IxIndexHandle K) : Prop := s.filePages ≤ s.fd2pageno

theorem unusedSame {s t : IxIndexHandle K} (same : t.counters = s.counters) : t.NextUnused ↔ s.NextUnused := by
  obtain ⟨next,file⟩ := Prod.mk.inj same
  rw [NextUnused,NextUnused,next,file]

theorem adoptCounters {s : IxIndexHandle K} {v : Int} {cs : List Int} : (s.adopt v cs).counters = s.counters :=
  Prod.ext adoptHdr.2.1 adoptHdr.2.2

theorem createNodeRun {s : IxIndexHandle K} (unused : s.NextUnused) : createNode s = .ok s.fd2pageno s.created := by
  simp only [createNode,getBind]
  rw [if_neg (not_lt.mpr unused)]
  rfl

theorem createNodeFault {s : IxIndexHandle K} (used : ¬s.NextUnused) : createNode s = .error .outOfRange s := by
  simp only [createNode,getBind]
  rw [if_pos (not_le.mp used)]
  rfl

theorem createdUnused {s : IxIndexHandle K} (unused : s.NextUnused) : (s.created.filePages : Int) = s.fd2pageno+1 := by
  rw [NextUnused] at unused
  simp only [created]
  omega

theorem createdOther {s : IxIndexHandle K} {φ : IxPage K → α} {q : Int} (apart : q ≠ s.fd2pageno) :
    s.created.field φ q = s.field φ q := by
  simp [field,created,apart]

theorem createdHas (s : IxIndexHandle K) : s.created.Has s.fd2pageno := by
  simp [Has,created]

theorem createdHere (s : IxIndexHandle K) (φ : IxPage K → α) :
    s.created.field φ s.fd2pageno = some (φ ⟨0,false,0,0,[]⟩) := by
  simp [field,created]

end IxIndexHandle
end Rmdb.Index
