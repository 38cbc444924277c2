import Rmdb.Index.OrderedMap

/-! The shape of an index, stated on its pages: a tree of one depth with separators,
parents and sizes as they should be, and the circular list of its leaves. -/
namespace Rmdb.Index
open Lib IxIndexHandle

section Shape
variable {K : Type} [IxKey K]

structure NodeAt (s : IxIndexHandle K) (leaf : Bool) (least : Nat) (parent p : Int) (pairs : List (K × Rid)) : Prop where
  pairsAt : s.field IxPage.pairs p = some pairs
  leafAt : s.field IxPage.isLeaf p = some leaf
  parentAt : s.field IxPage.parent p = some parent
  least : least ≤ pairs.length
  most : pairs.length ≤ s.fileHdr.btreeOrder

def Separated (keys : List K) (below : List (List K)) : Prop :=
  ∀ i key left right, keys[i+1]? = some key → below[i]? = some left → below[i+1]? = some right →
    (∀ x ∈ left, x < key) ∧ ∀ x ∈ right, key ≤ x

/- The tree of the given height on the page `p`, the pages of its leaves and the keys in them, in order. -/
def Subtree (s : IxIndexHandle K) : Nat → Nat → Int → Int → List Int → List K → Prop
  | 0,least,parent,p,leaves,keys => ∃ pairs, NodeAt s true least parent p pairs ∧
    (pairs.map Prod.fst).Pairwise (· < ·) ∧ leaves = [p] ∧ keys = pairs.map Prod.fst
  | height+1,least,parent,p,leaves,keys => ∃ pairs parts, NodeAt s false least parent p pairs ∧ p ≠ ixNoPage ∧
    (pairs.map Prod.fst).tail.Pairwise (· < ·) ∧
    List.Forall₂ (fun e part => Subtree s height s.getMinSize p e.2.pageNo part.1 part.2) pairs parts ∧
    Separated (pairs.map Prod.fst) (parts.map Prod.snd) ∧ leaves = parts.flatMap Prod.fst ∧ keys = parts.flatMap Prod.snd

structure Invariant (s : IxIndexHandle K) (height : Nat) (leaves : List Int) (keys : List K) : Prop where
  tree : Subtree s height (if height = 0 then 0 else 2) ixNoPage s.fileHdr.rootPage leaves keys
  ascending : keys.Pairwise (· < ·)
  once : (ixLeafHeaderPage :: leaves).Nodup
  links : Links s leaves

end Shape

section Span
variable {K : Type} [IxKey K] {s : IxIndexHandle K} {height : Nat}

def Spans (s : IxIndexHandle K) (height : Nat) (n : Node K) (part : List Int × List K) : Prop :=
  ∀ least parent, least ≤ n.pairs.length → s.field IxPage.parent n.page = some parent →
    Subtree s height least parent n.page part.1 part.2

def Heads (n : Node K) (part : List Int × List K) : Prop := part.2.head? = n.first

theorem separatedOf {es : List (K × Rid)} {ns : Level K} {ps : List (List Int × List K)}
    (exact_ : List.Forall₂ Exact es.tail ns.tail) (heads : List.Forall₂ Heads ns.tail ps.tail)
    (ascending : (ps.flatMap Prod.snd).Pairwise (· < ·)) : Separated (es.map Prod.fst) (ps.map Prod.snd) := by
  intro i key left right isKey isLeft isRight
  rw [List.getElem?_map,Option.map_eq_some_iff] at isKey isLeft isRight
  obtain ⟨e,ate,rfl⟩ := isKey
  obtain ⟨p,atp,rfl⟩ := isLeft
  obtain ⟨q,atq,rfl⟩ := isRight
  have first : q.2.head? = some e.1 := by
    rw [← List.getElem?_tail] at ate atq
    obtain ⟨n,atn,named⟩ := forall₂At exact_ ate
    obtain ⟨q',atq',head⟩ := forall₂At heads atn
    cases atq.symm.trans atq'
    rw [head,named.2]
  obtain ⟨rest,tail⟩ := List.head?_eq_some_iff.mp first
  obtain ⟨before,after,rfl⟩ : ∃ before after, ps = before ++ p :: q :: after := by
    obtain ⟨small,rfl⟩ := List.getElem?_eq_some_iff.mp atp
    obtain ⟨smaller,rfl⟩ := List.getElem?_eq_some_iff.mp atq
    exact ⟨ps.take i,ps.drop (i+2),by simp⟩
  simp only [List.flatMap_append,List.flatMap_cons,List.pairwise_append,tail,List.cons_append,List.pairwise_cons] at ascending
  obtain ⟨_,⟨_,⟨later,_⟩,across⟩,_⟩ := ascending
  refine ⟨fun x mem => across x mem e.1 List.mem_cons_self,?_⟩
  intro x mem
  rw [tail] at mem
  rcases List.mem_cons.mp mem with rfl | mem
  · exact le_rfl
  · exact (later x (List.mem_append_left _ mem)).le

theorem spansNode {u : Node K} {ns : Level K} {ps : List (List Int × List K)} {nodes : List (Node K)}
    (holds : Nodes s nodes) (mem : u ∈ nodes) (inner : u.leaf = false) (most : u.pairs.length ≤ s.fileHdr.btreeOrder)
    (sorted : Ordered u.pairs.tail) (ptrs : List.Forall₂ (fun e n => e.2 = n.ptr) u.pairs ns)
    (exact_ : List.Forall₂ Exact u.pairs.tail ns.tail) (below : List.Forall₂ (Spans s height) ns ps)
    (fits : ∀ n ∈ ns, s.getMinSize ≤ n.pairs.length) (heads : List.Forall₂ Heads ns.tail ps.tail)
    (ascending : (ps.flatMap Prod.snd).Pairwise (· < ·)) :
    Spans s (height+1) u (ps.flatMap Prod.fst,ps.flatMap Prod.snd) := by
  intro least parent enough known
  have low := (holds.range u mem).1
  refine ⟨u.pairs,ps,⟨holds.pairs u mem,by rw [holds.leaf u mem,inner],known,enough,most⟩,?_,?_,?_,
    separatedOf exact_ heads ascending,rfl,rfl⟩
  · simp only [ixNoPage]; omega
  · rw [← List.map_tail,List.pairwise_map]
    exact sorted
  · have kids := holds.parent u mem inner
    clear sorted exact_ heads ascending enough most
    generalize u.pairs = es at ptrs kids
    induction ptrs generalizing ps with
    | nil => cases below; exact .nil
    | @cons e n es ns head tail ih =>
      obtain ⟨p,ps,spans,rest,rfl⟩ := List.forall₂_cons_left_iff.mp below
      have page : e.2.pageNo = n.page := by rw [head]; rfl
      refine .cons ?_ (ih rest (fun m mem => fits m (List.mem_cons_of_mem _ mem))
        fun c child => kids c (List.mem_cons_of_mem _ child))
      rw [page]
      exact spans _ _ (fits n List.mem_cons_self) (by rw [← page]; exact kids _ List.mem_cons_self)

structure Inner (s : IxIndexHandle K) (nodes : List (Node K)) (u : Node K) : Prop where
  mem : u ∈ nodes
  inner : u.leaf = false
  most : u.pairs.length ≤ s.fileHdr.btreeOrder
  filled : u.pairs ≠ []
  sorted : Ordered u.pairs.tail

section Level
variable {hi ns : Level K} {ps : List (List Int × List K)} {nodes : List (Node K)}

theorem spansExact (holds : Nodes s nodes) (known : ∀ u ∈ hi, Inner s nodes u) (exact_ : List.Forall₂ Exact (flat hi) ns)
    (below : List.Forall₂ (Spans s height) ns ps) (fits : ∀ n ∈ ns, s.getMinSize ≤ n.pairs.length)
    (heads : List.Forall₂ Heads ns ps) (ascending : (ps.flatMap Prod.snd).Pairwise (· < ·)) :
    ∃ qs, List.Forall₂ (Spans s (height+1)) hi qs ∧ List.Forall₂ Heads hi qs ∧
      qs.flatMap Prod.fst = ps.flatMap Prod.fst ∧ qs.flatMap Prod.snd = ps.flatMap Prod.snd := by
  induction hi generalizing ns ps with
  | nil => cases exact_; cases below; exact ⟨[],.nil,.nil,rfl,rfl⟩
  | cons u hi ih =>
    rw [flatCons] at exact_
    obtain ⟨ns1,ns2,rfl,exact1,exact2⟩ := forall₂Split exact_
    obtain ⟨ps1,ps2,rfl,below1,below2⟩ := forall₂Split below
    have lengths := below1.length_eq
    obtain ⟨heads1,heads2⟩ := (forall₂Append lengths).mp heads
    simp only [List.flatMap_append,List.pairwise_append] at ascending
    obtain ⟨qs,spans,head,leaves,keys⟩ := ih (fun v mem => known v (List.mem_cons_of_mem _ mem)) exact2 below2
      (fun n mem => fits n (List.mem_append_right _ mem)) heads2 ascending.2.1
    obtain ⟨mem,inner,most,filled,sorted⟩ := known u List.mem_cons_self
    have tails : List.Forall₂ Exact u.pairs.tail ns1.tail := forall₂Tail exact1
    have one := spansNode holds mem inner most sorted (exact1.imp fun _ _ named => named.1) tails below1
      (fun n mem => fits n (List.mem_append_left _ mem)) (forall₂Tail heads1) ascending.1
    refine ⟨(ps1.flatMap Prod.fst,ps1.flatMap Prod.snd) :: qs,.cons one spans,.cons ?_ head,by simp [leaves],by simp [keys]⟩
    obtain ⟨e,es,shape⟩ := List.exists_cons_of_ne_nil filled
    rw [shape] at exact1
    obtain ⟨n,ns1,named,_,rfl⟩ := List.forall₂_cons_left_iff.mp exact1
    obtain ⟨p,ps1,first,_,rfl⟩ := List.forall₂_cons_left_iff.mp heads1
    rw [Heads,named.2] at first
    simp only [Heads,List.flatMap_cons,List.head?_append,first,Node.first,shape]
    rfl

theorem spansLevel (holds : Nodes s nodes) (known : ∀ u ∈ hi, Inner s nodes u) (front : Front (flat hi) ns)
    (below : List.Forall₂ (Spans s height) ns ps) (fits : ∀ n ∈ ns, s.getMinSize ≤ n.pairs.length)
    (heads : List.Forall₂ Heads ns.tail ps.tail) (ascending : (ps.flatMap Prod.snd).Pairwise (· < ·)) :
    ∃ qs, List.Forall₂ (Spans s (height+1)) hi qs ∧ List.Forall₂ Heads hi.tail qs.tail ∧
      qs.flatMap Prod.fst = ps.flatMap Prod.fst ∧ qs.flatMap Prod.snd = ps.flatMap Prod.snd := by
  cases hi with
  | nil =>
    cases (frontNonempty front).mp rfl
    cases below
    exact ⟨[],.nil,.nil,rfl,rfl⟩
  | cons u hi =>
    obtain ⟨mem,inner,most,filled,sorted⟩ := known u List.mem_cons_self
    obtain ⟨e,es,shape⟩ := List.exists_cons_of_ne_nil filled
    rw [flatCons,shape] at front
    cases ns with
    | nil => cases front
    | cons n ns =>
      obtain ⟨ptr,exact_⟩ := front
      obtain ⟨p,ps,spans,others,rfl⟩ := List.forall₂_cons_left_iff.mp below
      obtain ⟨ns1,ns2,rfl,exact1,exact2⟩ := forall₂Split exact_
      obtain ⟨ps1,ps2,rfl,below1,below2⟩ := forall₂Split others
      obtain ⟨heads1,heads2⟩ := (forall₂Append below1.length_eq).mp heads
      rw [← List.cons_append,List.flatMap_append,List.pairwise_append] at ascending
      obtain ⟨qs,rest,head,leaves,keys⟩ := spansExact holds (fun v mem => known v (List.mem_cons_of_mem _ mem)) exact2
        below2 (fun n mem => fits n (by simp [mem])) heads2 ascending.2.1
      have one := @spansNode _ _ _ _ _ (n :: ns1) (p :: ps1) _ holds mem inner most sorted
        (by rw [shape]; exact .cons ptr (exact1.imp fun _ _ named => named.1)) (by rw [shape]; exact exact1)
        (.cons spans below1) (fun m mem => fits m (by rcases List.mem_cons.mp mem with rfl | mem <;> simp [*])) heads1
        ascending.1
      exact ⟨((p :: ps1).flatMap Prod.fst,(p :: ps1).flatMap Prod.snd) :: qs,.cons one rest,head,by simp [leaves],
        by simp [keys]⟩

theorem spansUp {rest : List (Level K)} (holds : Nodes s nodes) : ∀ {height : Nat} {lo : Level K}
    {ps : List (List Int × List K)}, (lo :: rest).IsChain Linked → (∀ lv ∈ rest, ∀ u ∈ lv, Inner s nodes u) →
    Sized s.fileHdr.btreeOrder (lo :: rest) → Root s (lo :: rest) → (height ≠ 0 → ∀ n ∈ lo, n.leaf = false) →
    List.Forall₂ (Spans s height) lo ps → List.Forall₂ Heads lo.tail ps.tail →
    (ps.flatMap Prod.snd).Pairwise (· < ·) →
    ∃ top, Subtree s top (if top = 0 then 0 else 2) ixNoPage s.fileHdr.rootPage (ps.flatMap Prod.fst)
      (ps.flatMap Prod.snd) := by
  induction rest with
  | nil =>
    intro height lo ps _ _ sized root kind below _ _
    obtain ⟨r,rfl,fits⟩ := sized
    obtain ⟨r',last,page,none⟩ := root
    cases last
    obtain ⟨p,ps,spans,empty,rfl⟩ := List.forall₂_cons_left_iff.mp below
    cases empty
    have whole := spans (if height = 0 then 0 else 2) ixNoPage (by
      split
      · exact Nat.zero_le _
      · rename_i up; exact fits.2 (kind up r List.mem_cons_self)) none
    refine ⟨height,?_⟩
    rw [page]
    simpa using whole
  | cons hi rest ih =>
    intro height lo ps chain known sized root _ below heads ascending
    obtain ⟨link,above⟩ := List.isChain_cons_cons.mp chain
    have nodesHi := known hi List.mem_cons_self
    obtain ⟨qs,spans,head,leaves,keys⟩ := spansLevel holds nodesHi link below (fun n mem => (sized.1 n mem).1) heads
      ascending
    obtain ⟨top,whole⟩ := @ih (height+1) hi qs above (fun lv mem => known lv (List.mem_cons_of_mem _ mem)) sized.2 root.tail
      (fun _ u mem => (nodesHi u mem).inner) spans head (by rw [keys]; exact ascending)
    refine ⟨top,?_⟩
    rw [← leaves,← keys]
    exact whole

end Level
end Span

section Reachable
variable {K : Type} [IxKey K] {s : IxIndexHandle K} {levels : List (Level K)}

theorem innerNodes (wf : WellFormed s levels) : ∀ lv ∈ levels.tail, ∀ u ∈ lv, Inner s levels.flatten u := by
  intro lv mem u memu
  obtain ⟨sorted,filled⟩ := wf.ordered lv mem
  have inside := List.mem_of_mem_tail mem
  refine ⟨List.mem_flatten_of_mem inside memu,wf.tree.inner lv mem u memu,?_,filled u memu,?_⟩
  · obtain ⟨below,rest,rfl⟩ := List.append_of_mem inside
    exact sizedMem ((sizedAppend (by simp)).mp wf.sized).2 memu
  · obtain ⟨e,es,shape⟩ := List.exists_cons_of_ne_nil (filled u memu)
    obtain ⟨U,W,rfl⟩ := List.append_of_mem memu
    rw [flatAppend,flatCons,shape] at sorted
    rw [shape]
    exact tailOrdered sorted

theorem invariantOf (wf : WellFormed s levels) : ∃ height leaves keys, Invariant s height leaves keys := by
  cases levels with
  | nil => exact wf.sized.elim
  | cons lo rest =>
    have known : ∀ n ∈ lo, n ∈ (lo :: rest).flatten := fun n mem => by simp [mem]
    have keysOf : (lo.map fun n => ([n.page],n.pairs.map Prod.fst)).flatMap Prod.snd = (flat lo).map Prod.fst := by
      simp [flat,List.flatMap_map,List.map_flatMap]
    have pagesOf : (lo.map fun n => ([n.page],n.pairs.map Prod.fst)).flatMap Prod.fst = lo.map Node.page := by
      rw [List.flatMap_map,List.map_eq_flatMap]
    have ascending : ((lo.map fun n => ([n.page],n.pairs.map Prod.fst)).flatMap Prod.snd).Pairwise (· < ·) := by
      rw [keysOf,List.pairwise_map]
      exact wf.sorted
    have below : List.Forall₂ (Spans s 0) lo (lo.map fun n => ([n.page],n.pairs.map Prod.fst)) := by
      rw [List.forall₂_map_right_iff,List.forall₂_same]
      intro n mem least parent enough isParent
      refine ⟨n.pairs,⟨wf.tree.nodes.pairs n (known n mem),?_,isParent,enough,sizedMem wf.sized mem⟩,?_,rfl,rfl⟩
      · rw [wf.tree.nodes.leaf n (known n mem),wf.tree.leaves n mem]
      · obtain ⟨A,B,rfl⟩ := List.append_of_mem mem
        rw [List.pairwise_map]
        exact nodeOrdered wf.sorted
    have heads : List.Forall₂ Heads lo (lo.map fun n => ([n.page],n.pairs.map Prod.fst)) := by
      rw [List.forall₂_map_right_iff,List.forall₂_same]
      intro n _
      rw [Heads,Node.first,List.head?_map]
    obtain ⟨top,whole⟩ := spansUp wf.tree.nodes wf.linked (innerNodes wf) wf.sized wf.root (by simp) below
      (forall₂Tail heads) ascending
    refine ⟨top,_,_,whole,ascending,?_,?_⟩
    · rw [pagesOf]; exact wf.tree.headerOnce
    · rw [pagesOf]; exact wf.tree.links

inductive Reached (btreeOrder : Nat) : IxIndexHandle K → Prop where
  | fresh : Reached btreeOrder (IxManager.openFile (IxManager.newFile K btreeOrder))
  | insertEntry (key : K) (value : Rid) {s : IxIndexHandle K} (before : Reached btreeOrder s) :
    Reached btreeOrder (IxOp.after (IxIndexHandle.insertEntry key value s))
  | deleteEntry (key : K) {s : IxIndexHandle K} (before : Reached btreeOrder s) :
    Reached btreeOrder (IxOp.after (IxIndexHandle.deleteEntry key s))

theorem reachedMap {btreeOrder : Nat} (big : 2 < btreeOrder) (reached : Reached btreeOrder s) : ∃ m, Represents s m := by
  induction reached with
  | fresh => exact ⟨_,⟨_,openFresh big,rfl⟩,(openUnused _).mpr (show pageSize*ixInitNumPages < 2^31 by decide)⟩
  | @insertEntry k r s _ ih =>
    obtain ⟨m,holds⟩ := ih
    by_cases absent : m k = none
    · obtain ⟨p,t,run,next,_⟩ := holds.insertNew (r := r) absent
      rw [run]
      exact ⟨_,next⟩
    · rw [holds.1.insertOld absent]
      exact ⟨m,holds⟩
  | @deleteEntry k s _ ih =>
    obtain ⟨m,holds⟩ := ih
    obtain ⟨t,run,next,_⟩ := holds.delete k
    rw [run]
    exact ⟨_,next⟩

/- No assertion fails, since every call returns but for the insertion of a key that is there. -/
theorem reachedInvariant {btreeOrder : Nat} (big : 2 < btreeOrder) (reached : Reached btreeOrder s) :
    (∃ height leaves keys, Invariant s height leaves keys) ∧
    (∀ k r fault t, insertEntry k r s = .error fault t → fault = .error (.plain "Unique index constraint violated")) ∧
    ∀ k, ∃ b t, deleteEntry k s = .ok b t := by
  obtain ⟨m,holds⟩ := reachedMap big reached
  refine ⟨?_,?_,?_⟩
  · obtain ⟨levels,wf,_⟩ := holds.1
    exact invariantOf wf
  · intro k r fault t failed
    by_cases absent : m k = none
    · obtain ⟨p,t',run,_⟩ := holds.insertNew (r := r) absent
      rw [run] at failed
      cases failed
    · rw [holds.1.insertOld absent] at failed
      cases failed
      rfl
  · intro k
    obtain ⟨t,run,_⟩ := holds.delete k
    exact ⟨_,t,run⟩

def grownTo : Nat → IxIndexHandle (IxBytes noteKey)
  | 0 => IxManager.openFile (IxManager.newFile (IxBytes noteKey) 3)
  | n+1 => IxOp.after (insertEntry (note n) ⟨n,0⟩ (grownTo n))

def shrunkBy : Nat → IxIndexHandle (IxBytes noteKey)
  | 0 => grownTo 10
  | n+1 => IxOp.after (deleteEntry (note n) (shrunkBy n))

theorem grownReached (n : Nat) : Reached 3 (grownTo n) := by
  induction n with
  | zero => exact .fresh
  | succ n ih => exact .insertEntry (note n) ⟨n,0⟩ ih

theorem shrunkReached (n : Nat) : Reached 3 (shrunkBy n) := by
  induction n with
  | zero => exact grownReached 10
  | succ n ih => exact .deleteEntry (note n) ih

theorem rootsMoved : (grownTo 0).fileHdr.rootPage = 2 ∧ (grownTo 4).fileHdr.rootPage = 5 ∧
    (grownTo 10).fileHdr.rootPage = 9 ∧ (shrunkBy 3).fileHdr.rootPage = 5 ∧ (shrunkBy 7).fileHdr.rootPage = 2 := by
  decide +kernel

theorem mergedInvariant : (grownTo 10).fileHdr.rootPage = 9 ∧ (shrunkBy 7).fileHdr.rootPage = 2 ∧
    (∃ height leaves keys, Invariant (shrunkBy 7) height leaves keys) ∧ ∀ k, ∃ b t, deleteEntry k (shrunkBy 7) = .ok b t := by
  have kept := reachedInvariant (by decide : 2 < 3) (shrunkReached 7)
  exact ⟨rootsMoved.2.2.1,rootsMoved.2.2.2.2,kept.1,kept.2.2⟩

end Reachable
end Rmdb.Index
