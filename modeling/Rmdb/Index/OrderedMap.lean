import Rmdb.Index.IxManager

/-! An index as a finite map from keys to record ids: what every call answers and does
after any sequence of calls, including closing the file and opening it again. -/
namespace Rmdb.Index
open Lib IxIndexHandle

section Map
variable {K : Type} [IxKey K] {s t : IxIndexHandle K} {m : K → Option Rid} {k : K} {r : Rid}

/- The tree that the pages hold, read as a map. -/
def Stores (s : IxIndexHandle K) (m : K → Option Rid) : Prop :=
  ∃ levels, WellFormed s levels ∧ asMap (entries levels) = m

def Represents (s : IxIndexHandle K) (m : K → Option Rid) : Prop := Stores s m ∧ s.NextUnused

/- What each call answers when the contents are `m`. That an insertion or deletion changes
nothing else is seen from the answers after it. -/
structure Behaves (s : IxIndexHandle K) (m : K → Option Rid) : Prop where
  get : ∀ k result, getValue k result s = .ok ((m k).isSome,result ++ (m k).toList) s
  insertNew : ∀ k r, m k = none → ∃ p t, insertEntry k r s = .ok p t ∧ findLeafPage k false t = .ok p t ∧
    ∃ node, t.pages p = some node ∧ node.isLeaf = true ∧ (k,r) ∈ node.pairs
  insertOld : ∀ k r, m k ≠ none →
    insertEntry k r s = .error (.error (.plain "Unique index constraint violated")) s
  delete : ∀ k, ∃ t, deleteEntry k s = .ok (m k).isSome t ∧ (m k = none → t = s)

omit [IxKey K] in
theorem sizedLeast {order : Nat} {lo : Level K} {ups : List (Level K)} (sized : Sized order (lo :: ups)) :
    ∀ n ∈ lo, n.pairs.length ≤ order := by
  intro n mem
  cases ups with
  | nil =>
    obtain ⟨r,rfl,fits⟩ := sized
    rw [List.mem_singleton.mp mem]
    exact fits.1
  | cons hi rest => exact (sized.1 n mem).2

theorem entriesFit {lo : Level K} {ups : List (Level K)} (wf : WellFormed s (lo :: ups)) :
    (flat lo).length ≤ lo.length*s.fileHdr.btreeOrder := by
  rw [flat,List.length_flatMap]
  refine (List.sum_le_card_nsmul _ _ fun x mem => ?_).trans (by rw [List.length_map,smul_eq_mul])
  obtain ⟨n,memn,rfl⟩ := List.mem_map.mp mem
  exact sizedLeast wf.sized n memn

theorem leavesFew {lo : Level K} {ups : List (Level K)} (wf : WellFormed s (lo :: ups)) : lo.length ≤ s.filePages := by
  have inside : (lo.map Node.page).toFinset ⊆ Finset.Ico (2 : Int) s.filePages := by
    intro p mem
    obtain ⟨n,memn,rfl⟩ := List.mem_map.mp (List.mem_toFinset.mp mem)
    exact Finset.mem_Ico.mpr (wf.tree.nodes.range n (List.mem_flatten.mpr ⟨lo,List.mem_cons_self,memn⟩))
  have pages := Finset.card_le_card inside
  rw [List.toFinset_card_of_nodup (show Tree s ([] ++ lo :: ups) from wf.tree).levelOnce,List.length_map,Int.card_Ico] at pages
  omega

theorem entriesFew {lo : Level K} {ups : List (Level K)} (wf : WellFormed s (lo :: ups)) :
    (flat lo).length ≤ s.filePages*s.fileHdr.btreeOrder :=
  (entriesFit wf).trans (Nat.mul_le_mul_right _ (leavesFew wf))

theorem leafFound {levels : List (Level K)} {n : Node K} (wf : WellFormed s levels) (mem : n ∈ levels.headD [])
    (pair : (k,r) ∈ n.pairs) : findLeafPage k false s = .ok n.page s ∧
      ∃ node, s.pages n.page = some node ∧ node.isLeaf = true ∧ (k,r) ∈ node.pairs := by
  obtain ⟨A,c,B,ups,rfl,covers,run⟩ := findLeafTree wf k
  obtain ⟨before,after⟩ := coversFlat wf.sorted covers
  have inside : ∀ {lv : Level K}, n ∈ lv → (k,r) ∈ flat lv := fun mem => List.mem_flatMap.mpr ⟨n,mem,pair⟩
  have same : n = c := by
    simp only [List.headD_cons,List.mem_append,List.mem_cons] at mem
    rcases mem with mem | same | mem
    · exact absurd (before _ (inside mem)) (lt_irrefl k)
    · exact same
    · exact absurd (after _ (inside mem)) (lt_irrefl k)
  subst same
  have known := wf.tree.nodes.pairs n (by simp)
  have leaf := wf.tree.nodes.leaf n (by simp)
  obtain ⟨node,here,pairs⟩ := fieldSome known
  rw [field,here,wf.tree.leaves n mem] at leaf
  exact ⟨run,node,here,Option.some.inj leaf,by rw [pairs]; exact pair⟩

theorem Stores.insertNew (holds : Stores s m) (absent : m k = none) :
    (∃ p t, insertEntry k r s = .ok p t ∧ Stores t (Function.update m k (some r)) ∧
      (findLeafPage k false t = .ok p t ∧ ∃ node, t.pages p = some node ∧ node.isLeaf = true ∧ (k,r) ∈ node.pairs) ∧
      (s.NextUnused ∧ t.NextUnused ∨ t.counters = s.counters) ∧ t.fileHdr.btreeOrder = s.fileHdr.btreeOrder) ∨
    ¬s.NextUnused ∧ ∃ t, insertEntry k r s = .error .outOfRange t := by
  obtain ⟨levels,wf,rfl⟩ := holds
  refine (insertEntryTree (v := r) wf absent).imp ?_ id
  rintro ⟨p,t,levels',run,done⟩
  obtain ⟨a,b,old,new⟩ := done.pairs
  obtain ⟨n,mem,rfl,pair⟩ := done.leaf
  have sorted : Ordered (a ++ (k,r) :: b) := new ▸ done.whole.sorted
  refine ⟨n.page,t,run,⟨levels',done.whole,?_⟩,leafFound done.whole mem pair,done.counter.imp id And.left,done.order⟩
  rw [new,old,asMapInsert sorted]

theorem Stores.insertOld (holds : Stores s m) (present : m k ≠ none) :
    insertEntry k r s = .error (.error (.plain "Unique index constraint violated")) s := by
  obtain ⟨levels,wf,rfl⟩ := holds
  obtain ⟨v,mapped⟩ := Option.ne_none_iff_exists'.mp present
  exact insertEntryMapped wf mapped

theorem Stores.delete (holds : Stores s m) (k : K) : ∃ t, deleteEntry k s = .ok (m k).isSome t ∧
    Stores t (Function.update m k none) ∧ (m k = none → t = s) ∧ t.counters = s.counters ∧
      t.fileHdr.btreeOrder = s.fileHdr.btreeOrder := by
  obtain ⟨levels,wf,rfl⟩ := holds
  cases found : asMap (entries levels) k with
  | none =>
    refine ⟨s,deleteEntryAbsent wf found,⟨levels,wf,?_⟩,fun _ => rfl,rfl,rfl⟩
    rw [← found,Function.update_eq_self]
  | some v =>
    obtain ⟨t,levels',run,wf',⟨a,b,old,new⟩,order,same⟩ := deleteEntryPresent wf found
    have sorted : Ordered (a ++ (k,v) :: b) := old ▸ wf.sorted
    refine ⟨t,run,⟨levels',wf',?_⟩,fun none => (by cases none),same,order⟩
    rw [new,old,asMapErase sorted]

theorem Stores.getValue (holds : Stores s m) (k : K) (result : List Rid) :
    getValue k result s = .ok ((m k).isSome,result ++ (m k).toList) s := by
  obtain ⟨levels,wf,rfl⟩ := holds
  rw [getValueTree wf k result]
  cases asMap (entries levels) k <;> simp

theorem Represents.insertNew (holds : Represents s m) (absent : m k = none) :
    ∃ p t, insertEntry k r s = .ok p t ∧ Represents t (Function.update m k (some r)) ∧
      findLeafPage k false t = .ok p t ∧ ∃ node, t.pages p = some node ∧ node.isLeaf = true ∧ (k,r) ∈ node.pairs := by
  obtain ⟨stores,unused⟩ := holds
  obtain ⟨p,t,run,next,leaf,counter,_⟩ | ⟨used,_⟩ := stores.insertNew (r := r) absent
  · exact ⟨p,t,run,⟨next,counter.elim And.right fun same => (unusedSame same).mpr unused⟩,leaf⟩
  · exact absurd unused used

theorem Represents.delete (holds : Represents s m) (k : K) : ∃ t, deleteEntry k s = .ok (m k).isSome t ∧
    Represents t (Function.update m k none) ∧ (m k = none → t = s) := by
  obtain ⟨t,run,next,still,same,_⟩ := holds.1.delete k
  exact ⟨t,run,⟨next,(unusedSame same).mpr holds.2⟩,still⟩

theorem Represents.behaves (holds : Represents s m) : Behaves s m := by
  refine ⟨holds.1.getValue,?_,fun k r present => holds.1.insertOld present,?_⟩
  · intro k r absent
    obtain ⟨p,t,run,_,leaf⟩ := holds.insertNew (r := r) absent
    exact ⟨p,t,run,leaf⟩
  · intro k
    obtain ⟨t,run,_,same⟩ := holds.delete k
    exact ⟨t,run,same⟩

end Map

inductive IxOp (K : Type) where
  | insertEntry (key : K) (value : Rid)
  | deleteEntry (key : K)
  | getValue (key : K)
  | reopen

namespace IxOp
variable {cols : List IxCol}

def onMap {K : Type} [DecidableEq K] (m : K → Option Rid) : IxOp K → K → Option Rid
  | insertEntry k r => if m k = none then Function.update m k (some r) else m
  | deleteEntry k => Function.update m k none
  | getValue _ => m
  | reopen => m

def after {α : Type} {K : Type} : EStateM.Result Fault (IxIndexHandle K) α → IxIndexHandle K
  | .ok _ t => t
  | .error _ t => t

/- The handle after a call that returned or threw an exception of the source. Elsewhere the session has ended. -/
def settled {α : Type} {K : Type} : EStateM.Result Fault (IxIndexHandle K) α → Except Fault (IxIndexHandle K)
  | .ok _ t => .ok t
  | .error (.error _) t => .ok t
  | .error fault _ => .error fault

def exec (s : IxIndexHandle (IxBytes cols)) : IxOp (IxBytes cols) → Except Fault (IxIndexHandle (IxBytes cols))
  | insertEntry k r => settled (IxIndexHandle.insertEntry k r s)
  | deleteEntry k => settled (IxIndexHandle.deleteEntry k s)
  | getValue k => settled (IxIndexHandle.getValue k [] s)
  | reopen => IxManager.openIndex (IxManager.closeIndex s)

end IxOp

section Sessions
variable {cols : List IxCol} {s t : IxIndexHandle (IxBytes cols)} {m : IxBytes cols → Option Rid} {filename : String}
  {file : IxFile (IxBytes cols)} {ops : List (IxOp (IxBytes cols))}

def session (file : IxFile (IxBytes cols)) (ops : List (IxOp (IxBytes cols))) :
    Except Fault (IxIndexHandle (IxBytes cols)) := do
  let s ← IxManager.openIndex file
  ops.foldlM IxOp.exec s

def mapAfter (ops : List (IxOp (IxBytes cols))) : IxBytes cols → Option Rid := ops.foldl IxOp.onMap fun _ => none

def ActsAsMap (file : IxFile (IxBytes cols)) (ops : List (IxOp (IxBytes cols))) : Prop :=
  ∃ s, session file ops = .ok s ∧ Behaves s (mapAfter ops)

/- Whenever the file is opened again it has less than 2^31 bytes. -/
def ReopensSmall (file : IxFile (IxBytes cols)) (ops : List (IxOp (IxBytes cols))) : Prop :=
  ∀ before after s, ops = before ++ .reopen :: after → session file before = .ok s → pageSize*s.filePages < 2^31

theorem sessionAppend (op : IxOp (IxBytes cols)) : session file (ops ++ [op]) = (session file ops >>= fun s => op.exec s) := by
  simp only [session,bind_assoc,List.foldlM_append,List.foldlM_cons,List.foldlM_nil,bind_pure]

theorem mapAfterAppend (op : IxOp (IxBytes cols)) : mapAfter (ops ++ [op]) = op.onMap (mapAfter ops) := by
  rw [mapAfter,List.foldl_append]
  rfl

theorem sessionNew (created : IxManager.createIndex filename cols = .ok file) :
    ∃ s, session file [] = .ok s ∧ Represents s (mapAfter []) ∧ s.fileHdr.btreeOrder = IxManager.btreeOrder cols := by
  obtain ⟨big,fits,rfl⟩ := IxManager.createdFile created
  refine ⟨_,?_,⟨⟨_,openFresh big,rfl⟩,(openUnused _).mpr (show pageSize*ixInitNumPages < 2^31 by decide)⟩,rfl⟩
  simp only [session,IxManager.openIndex,if_pos fits,List.foldlM_nil]
  rfl

/- Whatever a call does, the map stays in step; where it needs a page, the counter must name a new one. -/
theorem execStores (holds : Stores s m) (op : IxOp (IxBytes cols)) (done : op.exec s = .ok t) :
    Stores t (op.onMap m) ∧ t.fileHdr.btreeOrder = s.fileHdr.btreeOrder := by
  cases op with
  | insertEntry k r =>
    rw [IxOp.exec] at done
    rw [IxOp.onMap]
    split
    · rename_i absent
      obtain ⟨p,t',run,next,_,_,order⟩ | ⟨_,t',fault⟩ := holds.insertNew (r := r) absent
      · rw [run] at done
        cases done
        exact ⟨next,order⟩
      · rw [fault] at done
        cases done
    · rename_i present
      rw [holds.insertOld present] at done
      cases done
      exact ⟨holds,rfl⟩
  | deleteEntry k =>
    obtain ⟨t',run,next,_,_,order⟩ := holds.delete k
    rw [IxOp.exec,run] at done
    cases done
    exact ⟨next,order⟩
  | getValue k =>
    rw [IxOp.exec,holds.getValue k []] at done
    cases done
    exact ⟨holds,rfl⟩
  | reopen =>
    obtain ⟨levels,wf,same⟩ := holds
    rw [IxOp.exec,IxManager.openIndex] at done
    split at done
    · cases done
      exact ⟨⟨levels,reopen wf,same⟩,by rw [openHdr,IxManager.closeIndex]⟩
    · cases done

theorem execRepresents (holds : Represents s m) (fits : IxManager.totLen cols ≤ pageSize) (op : IxOp (IxBytes cols))
    (small : op = .reopen → pageSize*s.filePages < 2^31) : ∃ t, op.exec s = .ok t ∧ Represents t (op.onMap m) := by
  have both : ∃ t, op.exec s = .ok t ∧ t.NextUnused := by
    cases op with
    | insertEntry k r =>
      by_cases absent : m k = none
      · obtain ⟨p,t,run,next,_⟩ := holds.insertNew (r := r) absent
        exact ⟨t,by rw [IxOp.exec,run]; rfl,next.2⟩
      · exact ⟨s,by rw [IxOp.exec,holds.1.insertOld absent]; rfl,holds.2⟩
    | deleteEntry k =>
      obtain ⟨t,run,next,_⟩ := holds.delete k
      exact ⟨t,by rw [IxOp.exec,run]; rfl,next.2⟩
    | getValue k => exact ⟨s,by rw [IxOp.exec,holds.1.getValue k []]; rfl,holds.2⟩
    | reopen => exact ⟨_,if_pos fits,(openUnused _).mpr (small rfl)⟩
  obtain ⟨t,run,unused⟩ := both
  exact ⟨t,run,(execStores holds.1 op run).1,unused⟩

theorem sessionStores (created : IxManager.createIndex filename cols = .ok file) (run : session file ops = .ok s) :
    Stores s (mapAfter ops) ∧ s.fileHdr.btreeOrder = IxManager.btreeOrder cols := by
  induction ops using List.reverseRecOn generalizing s with
  | nil =>
    obtain ⟨t,new,holds,order⟩ := sessionNew created
    cases new.symm.trans run
    exact ⟨holds.1,order⟩
  | append_singleton ops op ih =>
    rw [sessionAppend] at run
    obtain ⟨t,before,done⟩ := exceptBind run
    obtain ⟨holds,order⟩ := ih before
    obtain ⟨next,same⟩ := execStores holds op done
    rw [mapAfterAppend]
    exact ⟨next,same.trans order⟩

theorem sessionRepresents (created : IxManager.createIndex filename cols = .ok file) (small : ReopensSmall file ops) :
    ∃ s, session file ops = .ok s ∧ Represents s (mapAfter ops) := by
  have fits := (IxManager.createdFile created).2.1
  induction ops using List.reverseRecOn with
  | nil =>
    obtain ⟨s,new,holds,_⟩ := sessionNew created
    exact ⟨s,new,holds⟩
  | append_singleton ops op ih =>
    have earlier : ReopensSmall file ops := fun before after s split run =>
      small before (after ++ [op]) s (by rw [split,List.append_assoc,List.cons_append]) run
    obtain ⟨s,run,holds⟩ := ih earlier
    obtain ⟨t,step,next⟩ := execRepresents holds fits op fun again => small ops [] s (by rw [again]) run
    refine ⟨t,?_,?_⟩
    · rw [sessionAppend,run]
      exact step
    · rw [mapAfterAppend]
      exact next

theorem indexIsMap (created : IxManager.createIndex filename cols = .ok file) (small : ReopensSmall file ops) :
    ActsAsMap file ops := by
  obtain ⟨s,run,holds⟩ := sessionRepresents created small
  exact ⟨s,run,holds.behaves⟩

def inserts (key : Nat → IxBytes cols) (a n : Nat) : List (IxOp (IxBytes cols)) :=
  (List.range' a n).map fun i => .insertEntry (key i) ⟨i,0⟩

theorem insertsStay {key : Nat → IxBytes cols} {a n : Nat} : .reopen ∉ inserts key a n := by simp [inserts]

theorem reopensOnce {front back : List (IxOp (IxBytes cols))} (early : .reopen ∉ front) (late : .reopen ∉ back)
    (small : ∀ s, session file front = .ok s → pageSize*s.filePages < 2^31) : ReopensSmall file (front ++ .reopen :: back) := by
  intro before after s split run
  obtain ⟨rfl,_⟩ := (List.append_cons_inj_of_notMem early late).mp split
  exact small s run

def noteKey : List IxCol := [⟨⟨"notes","n_text",.string,500,0⟩,by decide,trivial⟩]

def note (i : Nat) : IxBytes noteKey := ⟨leBytes 500 i,leBytesLength 500 i⟩

def pagesAfter (file : IxFile (IxBytes cols)) (ops : List (IxOp (IxBytes cols))) : Nat :=
  match session file ops with
  | .ok s => s.filePages
  | .error _ => 0

theorem tenNotes : pagesAfter (IxManager.newFile (IxBytes noteKey) 7) (inserts note 0 10) = 6 := by decide +kernel

theorem notesAsMap : ∃ file, IxManager.createIndex "notes" noteKey = .ok file ∧
    ActsAsMap file (inserts note 0 10 ++ .reopen :: (.deleteEntry (note 3) :: inserts note 10 20)) := by
  have created : IxManager.createIndex "notes" noteKey = .ok (IxManager.newFile (IxBytes noteKey) 7) := rfl
  refine ⟨IxManager.newFile (IxBytes noteKey) 7,created,?_⟩
  refine indexIsMap created (reopensOnce insertsStay (by simp [inserts]) fun s run => ?_)
  have pages := tenNotes
  rw [pagesAfter,run] at pages
  dsimp only at pages
  rw [pages]
  decide

end Sessions

section Large
variable {cols : List IxCol} {key : Nat → IxBytes cols} {bound n a : Nat} {s t : IxIndexHandle (IxBytes cols)}
  {levels : List (Level (IxBytes cols))} {m : IxBytes cols → Option Rid} {ops : List (IxOp (IxBytes cols))}
  {filename : String} {file : IxFile (IxBytes cols)}

def Distinct (key : Nat → IxBytes cols) (bound : Nat) : Prop := ∀ i < bound, ∀ j < bound, key i = key j → i = j

theorem insertsSucc : inserts key a (n+1) = inserts key a n ++ [.insertEntry (key (a+n)) ⟨(a+n : Nat),0⟩] := by
  rw [inserts,List.range'_concat,List.map_append]
  simp [inserts]

theorem contentsInserts (x : IxBytes cols) :
    mapAfter (ops ++ inserts key a n) x ≠ none ↔ mapAfter ops x ≠ none ∨ ∃ i, a ≤ i ∧ i < a+n ∧ key i = x := by
  induction n with
  | zero =>
    have empty : ¬∃ i, a ≤ i ∧ i < a+0 ∧ key i = x := by
      rintro ⟨i,low,high,_⟩
      omega
    rw [show inserts key a 0 = [] from rfl,List.append_nil]
    exact (or_iff_left empty).symm
  | succ n ih =>
    have one : (∃ i, a ≤ i ∧ i < a+(n+1) ∧ key i = x) ↔ (∃ i, a ≤ i ∧ i < a+n ∧ key i = x) ∨ key (a+n) = x := by
      constructor
      · rintro ⟨i,low,high,same⟩
        rcases Nat.lt_or_ge i (a+n) with less | more
        · exact .inl ⟨i,low,less,same⟩
        · exact .inr (by rwa [show a+n = i by omega])
      · rintro (⟨i,low,high,same⟩ | same)
        · exact ⟨i,low,by omega,same⟩
        · exact ⟨a+n,by omega,by omega,same⟩
    rw [insertsSucc,← List.append_assoc,mapAfterAppend,one,← or_assoc,← ih,IxOp.onMap]
    split
    · rename_i absent
      by_cases here : x = key (a+n)
      · simp [here]
      · simp [Function.update_of_ne here,Ne.symm here]
    · rename_i present
      by_cases here : key (a+n) = x
      · subst here
        exact iff_of_true present (.inr rfl)
      · simp [here]

theorem entriesPresent (wf : WellFormed s levels) (same : asMap (entries levels) = m) (x : IxBytes cols) :
    x ∈ (entries levels).map Prod.fst ↔ m x ≠ none := by
  rw [← same,Option.ne_none_iff_exists',List.mem_map]
  constructor
  · rintro ⟨⟨k,r⟩,mem,rfl⟩
    exact ⟨r,(lookupMem wf.sorted).mpr mem⟩
  · rintro ⟨r,found⟩
    exact ⟨(x,r),(lookupMem wf.sorted).mp found,rfl⟩

theorem entriesMany (wf : WellFormed s levels) (same : asMap (entries levels) = m) (apart : Distinct key n)
    (there : ∀ x, m x ≠ none ↔ ∃ i < n, key i = x) : (entries levels).length = n := by
  have sorted : Ordered (entries levels) := wf.sorted
  have once : ((entries levels).map Prod.fst).Nodup := List.pairwise_map.mpr (sorted.imp ne_of_lt)
  have names : ((List.range n).map key).Nodup := by
    refine (List.nodup_map_iff_inj_on List.nodup_range).mpr fun i memi j memj equal => ?_
    exact apart i (List.mem_range.mp memi) j (List.mem_range.mp memj) equal
  have perm : ((entries levels).map Prod.fst).Perm ((List.range n).map key) := by
    refine (List.perm_ext_iff_of_nodup once names).mpr fun x => ?_
    rw [entriesPresent wf same,there,List.mem_map]
    simp only [List.mem_range]
  have lengths := perm.length_eq
  rwa [List.length_map,List.length_map,List.length_range] at lengths

def Stuck (s : IxIndexHandle (IxBytes cols)) (m : IxBytes cols → Option Rid) (leaves : Nat) : Prop :=
  ∃ levels, WellFormed s levels ∧ asMap (entries levels) = m ∧ (levels.headD []).length = leaves ∧ ¬s.NextUnused ∧
    s.fileHdr.btreeOrder = IxManager.btreeOrder cols

theorem stuckInsert {leaves : Nat} {k : IxBytes cols} {r : Rid} (stuck : Stuck s m leaves) (absent : m k = none) :
    (IxOp.insertEntry k r).exec s = .error .outOfRange ∨
      ∃ t, (IxOp.insertEntry k r).exec s = .ok t ∧ Stuck t ((IxOp.insertEntry k r).onMap m) leaves := by
  obtain ⟨levels,wf,rfl,count,used,order⟩ := stuck
  rw [IxOp.exec,IxOp.onMap,if_pos absent]
  rcases insertEntryTree (v := r) wf absent with ⟨p,t,levels',run,done⟩ | ⟨_,t,fault⟩
  · obtain ⟨x,y,old,new⟩ := done.pairs
    have sorted : Ordered (x ++ (k,r) :: y) := new ▸ done.whole.sorted
    obtain ⟨counters,same⟩ := done.counter.resolve_left fun both => used both.1
    refine .inr ⟨t,by rw [run]; rfl,levels',done.whole,?_,same.trans count,fun unused => used ?_,done.order.trans order⟩
    · rw [new,old,asMapInsert sorted]
    · exact (unusedSame counters).mp unused
  · exact .inl (by rw [fault]; rfl)

theorem stuckFull {leaves : Nat} (stuck : Stuck s m leaves) (apart : Distinct key n) (there : ∀ x, m x ≠ none ↔ ∃ i < n, key i = x) :
    n ≤ leaves*IxManager.btreeOrder cols := by
  obtain ⟨levels,wf,same,rfl,_,order⟩ := stuck
  cases levels with
  | nil => exact wf.sized.elim
  | cons lo ups =>
    rw [← entriesMany wf same apart there,← order]
    exact entriesFit wf

theorem leavesLeast {lo : Level (IxBytes cols)} {ups : List (Level (IxBytes cols))} (wf : WellFormed s (lo :: ups)) :
    lo.length ≤ max 1 (flat lo).length := by
  cases ups with
  | nil =>
    obtain ⟨r,rfl,_⟩ := wf.sized
    exact le_max_left ..
  | cons hi rest =>
    have filled := sizedFilled wf.order wf.sized (.inl (by simp))
    refine le_max_of_le_right ?_
    rw [flat,List.length_flatMap]
    have one : ∀ x ∈ lo.map fun n => n.pairs.length, 1 ≤ x := by
      intro x mem
      obtain ⟨n,memn,rfl⟩ := List.mem_map.mp mem
      exact List.length_pos_iff.mpr (filled n memn)
    have sum := List.card_nsmul_le_sum _ 1 one
    rwa [List.length_map,smul_eq_mul,mul_one] at sum

theorem contentsGrown (x : IxBytes cols) :
    mapAfter (inserts key 0 a ++ .reopen :: inserts key a n) x ≠ none ↔ ∃ i < a+n, key i = x := by
  have split : inserts key 0 a ++ .reopen :: inserts key a n = (inserts key 0 a ++ [.reopen]) ++ inserts key a n := by simp
  have front : mapAfter (inserts key 0 a ++ [.reopen]) = mapAfter ([] ++ inserts key 0 a) := by
    rw [mapAfterAppend,List.nil_append]
    rfl
  rw [split,contentsInserts,front,contentsInserts]
  constructor
  · rintro ((none | ⟨i,_,high,same⟩) | ⟨i,_,high,same⟩)
    · exact absurd rfl none
    · exact ⟨i,by omega,same⟩
    · exact ⟨i,high,same⟩
  · rintro ⟨i,high,same⟩
    rcases Nat.lt_or_ge i a with less | more
    · exact .inl (.inr ⟨i,Nat.zero_le i,by omega,same⟩)
    · exact .inr ⟨i,more,high,same⟩

/- With enough keys the file is so long that opening it again takes the counter back among its pages. -/
theorem reopenedStuck (created : IxManager.createIndex filename cols = .ok file) (apart : Distinct key a)
    (many : 2^19*IxManager.btreeOrder cols < a) :
    ∃ t leaves, session file (inserts key 0 a ++ [.reopen]) = .ok t ∧ leaves ≤ a ∧
      Stuck t (mapAfter (inserts key 0 a ++ [.reopen])) leaves := by
  have small : ReopensSmall file (inserts key 0 a) := by
    intro before after s split _
    exact absurd (split ▸ List.mem_append_right before List.mem_cons_self) insertsStay
  obtain ⟨s,run,_⟩ := sessionRepresents created small
  obtain ⟨⟨levels,wf,same⟩,order⟩ := sessionStores created run
  have there : ∀ x, mapAfter (inserts key 0 a) x ≠ none ↔ ∃ i < a, key i = x := by
    intro x
    rw [← List.nil_append (inserts key 0 a),contentsInserts]
    simp [mapAfter]
  have count := entriesMany wf same apart there
  obtain ⟨fits,_⟩ := (IxManager.createdFile created).2
  refine ⟨IxManager.openFile (IxManager.closeIndex s),(levels.headD []).length,?_,?_,levels,reopen wf,?_,rfl,?_,?_⟩
  · rw [sessionAppend,run]
    exact if_pos fits
  · cases levels with
    | nil => exact Nat.zero_le _
    | cons lo ups =>
      have least := leavesLeast wf
      have some : 1 ≤ a := by omega
      rw [entries,List.headD_cons] at count
      rw [count,max_eq_right some] at least
      exact least
  · rw [mapAfterAppend]
    exact same
  · rw [openUnused,not_lt]
    cases levels with
    | nil => exact wf.sized.elim
    | cons lo ups =>
      have few := entriesFew wf
      rw [entries,List.headD_cons] at count
      rw [count,order] at few
      have pages : 2^19 < s.filePages := Nat.lt_of_mul_lt_mul_right (many.trans_le few)
      rw [IxManager.closeIndex,pageSize]
      dsimp only
      omega
  · rw [openHdr,IxManager.closeIndex]
    exact order

theorem grownStuck (created : IxManager.createIndex filename cols = .ok file) (apart : Distinct key (a+n))
    (many : 2^19*IxManager.btreeOrder cols < a) :
    session file (inserts key 0 a ++ .reopen :: inserts key a n) = .error .outOfRange ∨
      ∃ t leaves, session file (inserts key 0 a ++ .reopen :: inserts key a n) = .ok t ∧ leaves ≤ a ∧
        Stuck t (mapAfter (inserts key 0 a ++ .reopen :: inserts key a n)) leaves := by
  induction n with
  | zero => exact .inr (reopenedStuck created apart many)
  | succ n ih =>
    have fewer : Distinct key (a+n) := fun i lessi j lessj => apart i (by omega) j (by omega)
    have shape : inserts key 0 a ++ .reopen :: inserts key a (n+1) =
        (inserts key 0 a ++ .reopen :: inserts key a n) ++ [.insertEntry (key (a+n)) ⟨(a+n : Nat),0⟩] := by
      rw [insertsSucc,List.append_assoc,List.cons_append]
    rw [shape,sessionAppend,mapAfterAppend]
    rcases ih fewer with fault | ⟨t,leaves,run,most,stuck⟩
    · exact .inl (by rw [fault]; rfl)
    · have absent : mapAfter (inserts key 0 a ++ .reopen :: inserts key a n) (key (a+n)) = none := by
        by_contra present
        obtain ⟨i,less,same⟩ := (contentsGrown _).mp present
        have equal := apart i (by omega) (a+n) (by omega) same
        omega
      rw [run]
      rcases stuckInsert stuck absent with fault | ⟨u,step,next⟩
      · exact .inl fault
      · exact .inr ⟨u,leaves,step,most,next⟩

theorem grownFails (created : IxManager.createIndex filename cols = .ok file)
    (apart : Distinct key (a+a*IxManager.btreeOrder cols)) (many : 2^19*IxManager.btreeOrder cols < a) :
    session file (inserts key 0 a ++ .reopen :: inserts key a (a*IxManager.btreeOrder cols)) = .error .outOfRange := by
  rcases grownStuck created apart many with fault | ⟨t,leaves,_,most,stuck⟩
  · exact fault
  · have full := stuckFull stuck apart contentsGrown
    have fits := Nat.mul_le_mul_right (IxManager.btreeOrder cols) most
    omega

end Large

def warehouseKey : List IxCol := [⟨⟨"warehouse","w_id",.int,4,0⟩,by decide,rfl⟩,⟨⟨"warehouse","w_name",.string,8,4⟩,by decide,trivial⟩]

def numbered (i : Nat) : IxBytes warehouseKey := ⟨leBytes 12 i,leBytesLength 12 i⟩

theorem numberedApart {bound : Nat} (small : bound ≤ 256^12) : Distinct numbered bound := by
  intro i lessi j lessj same
  have values := congrArg (fun k : IxBytes warehouseKey => (leNat k.1 : Int)) same
  simp only [numbered,leNatBytes] at values
  omega

theorem largeIndexFails : ∃ file, IxManager.createIndex "warehouse" warehouseKey = .ok file ∧
    ¬ActsAsMap file (inserts numbered 0 105906177 ++ .reopen :: inserts numbered 105906177 (105906177*202)) := by
  refine ⟨_,rfl,?_⟩
  rintro ⟨s,run,_⟩
  have order : IxManager.btreeOrder warehouseKey = 202 := by decide
  have fails := @grownFails warehouseKey numbered 105906177 "warehouse" _ rfl (numberedApart (by rw [order]; norm_num))
    (by rw [order]; norm_num)
  rw [order] at run fails
  rw [run] at fails
  cases fails

end Rmdb.Index
