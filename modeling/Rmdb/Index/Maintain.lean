import Rmdb.Index.Entry

/-! `maintain_parent`: the entry of a changed node is brought up to date in its parent, and
so on upwards until an entry is found to be right already. Above the point reached every
entry is right, so stopping early loses nothing. -/
namespace Rmdb.Index
open Lib IxIndexHandle
variable {K : Type} {s t : IxIndexHandle K}

def Alike (u v : Node K) : Prop := u.page = v.page ∧ u.leaf = v.leaf ∧ u.pairs.length = v.pairs.length

abbrev SameShape (ups ups' : List (Level K)) : Prop := List.Forall₂ (List.Forall₂ Alike) ups ups'

theorem alikeRefl (lv : Level K) : List.Forall₂ Alike lv lv := List.forall₂_same.mpr fun _ _ => ⟨rfl,rfl,rfl⟩

theorem sameShapeRefl (ups : List (Level K)) : SameShape ups ups := List.forall₂_same.mpr fun lv _ => alikeRefl lv

theorem alikeReplace {U W : Level K} {u v : Node K} (alike : Alike u v) :
    List.Forall₂ Alike (U ++ u :: W) (U ++ v :: W) :=
  (forall₂Append rfl).mpr ⟨alikeRefl U,.cons alike (alikeRefl W)⟩

theorem alikeFits {order : Nat} {lv lv' : Level K} (same : List.Forall₂ Alike lv lv')
    (fits : ∀ n ∈ lv, Fits order n) : ∀ n ∈ lv', Fits order n := by
  induction same with
  | nil => simp
  | @cons u v lv lv' head tail ih =>
    intro n mem
    rcases List.mem_cons.mp mem with rfl | mem
    · have old := fits u List.mem_cons_self
      rw [Fits,head.2.2] at old
      exact old
    · exact ih (fun m mem => fits m (List.mem_cons_of_mem _ mem)) n mem

theorem sizedSame {order : Nat} {levels levels' : List (Level K)} (same : SameShape levels levels')
    (sized : Sized order levels) : Sized order levels' := by
  induction same with
  | nil => exact sized
  | @cons lv lv' rest rest' head tail ih =>
    cases tail with
    | nil =>
      obtain ⟨r,rfl,fits⟩ := sized
      obtain ⟨v,rest,alike,none,rfl⟩ := List.forall₂_cons_left_iff.mp head
      cases none
      refine ⟨v,rfl,alike.2.2 ▸ fits.1,?_⟩
      intro inner
      rw [← alike.2.2]
      exact fits.2 (alike.2.1.trans inner)
    | cons next others => exact ⟨alikeFits head sized.1,ih sized.2⟩

section Parent
variable {below rest : List (Level K)} {A B U W : Level K} {n u : Node K} {a b : List (K × Rid)} {x : K × Rid}

theorem Tree.parentNode {lo : Level K} (tree : Tree s (below ++ lo :: (U ++ u :: W) :: rest))
    (pairs : u.pairs = a ++ x :: b) (ptr : x.2 = n.ptr) :
    u.leaf = false ∧ s.field IxPage.parent n.page = some u.page ∧ u.page ≠ ixNoPage ∧
      s.field IxPage.pairs u.page = some (a ++ x :: b) := by
  have mem : u ∈ (below ++ lo :: (U ++ u :: W) :: rest).flatten := by simp
  have inner : u.leaf = false := by
    refine tree.inner (U ++ u :: W) ?_ u (by simp)
    cases below <;> simp
  have low := (tree.nodes.range u mem).1
  refine ⟨inner,tree.nodes.parent u mem inner n.page ?_,?_,by rw [tree.nodes.pairs u mem,pairs]⟩
  · rw [pairs]; simp [ptr,Node.ptr]
  · simp only [ixNoPage]; omega

theorem Tree.levelOnce {lo : Level K} {ups : List (Level K)} (tree : Tree s (below ++ lo :: ups)) :
    (lo.map Node.page).Nodup := by
  have once := tree.nodes.once
  simp only [List.flatten_append,List.flatten_cons,List.map_append,List.nodup_append] at once
  exact once.2.1.1

theorem frontBefore (left : Front (flat U ++ a) A) (once : ((A ++ n :: B).map Node.page).Nodup) :
    ∀ e ∈ a, e.2.pageNo ≠ n.page := by
  intro e mem same
  have inside : n.page ∈ A.map Node.page := by
    rw [← frontPages left,← same]
    exact List.mem_map_of_mem (List.mem_append_right _ mem)
  rw [List.map_append,List.map_cons,List.nodup_append] at once
  exact once.2.2 _ inside _ List.mem_cons_self rfl

theorem rekeyTree {l : List (K × Rid)} {ups : List (Level K)} (tree : Tree s (below ++ (A ++ n :: B) :: ups))
    (same : childPages l = childPages n.pairs) :
    Tree (s.setPairs n.page l) (below ++ (A ++ {n with pairs := l} :: B) :: ups) := by
  refine tree.setPairs ?_
  intro inner c child
  rw [same] at child
  exact ⟨tree.nodes.parent n focusMem inner c child,tree.nodes.kids n focusMem inner c child⟩

end Parent

section Maintain
variable [IxKey K]

/- The levels above a node whose own entry may be out of date. -/
def Stale (A : Level K) (n : Node K) (B : Level K) : List (Level K) → Prop
  | [] => A = [] ∧ B = []
  | hi :: rest => Nonempty (Focus A n B hi) ∧ (hi :: rest).IsChain Linked

omit [IxKey K] in
theorem staleUp {U W : Level K} {u v : Node K} {rest : List (Level K)} (above : ((U ++ u :: W) :: rest).IsChain Linked)
    (root : Root s ((U ++ v :: W) :: rest)) (page : v.page = u.page) : Stale U v W rest := by
  cases rest with
  | nil =>
    obtain ⟨r,last,_⟩ := root
    simp only [List.getLast?_singleton,Option.some.injEq] at last
    obtain ⟨rfl,_,rfl⟩ := onlyOne last
    exact ⟨rfl,rfl⟩
  | cons hi rest =>
    obtain ⟨up,higher⟩ := List.isChain_cons_cons.mp above
    obtain ⟨⟨U2,u2,W2,a2,x2,b2,level,pairs2,left2,ptr2,right2⟩,_⟩ := focus up
    exact ⟨⟨U2,u2,W2,a2,x2,b2,level,pairs2,left2,by rw [ptr2,Node.ptr,Node.ptr,page],right2⟩,higher⟩

theorem maintainTree {ups : List (Level K)} : ∀ {below : List (Level K)} {A B : Level K} {n : Node K}
    {s : IxIndexHandle K} {fuel : Nat}, ups.length < fuel → Tree s (below ++ (A ++ n :: B) :: ups) → Stale A n B ups →
    Root s ((A ++ n :: B) :: ups) → n.pairs ≠ [] →
    ∃ t ups', maintainParent fuel n.page s = .ok () t ∧ Tree t (below ++ (A ++ n :: B) :: ups') ∧
      ((A ++ n :: B) :: ups').IsChain Linked ∧ Root t ((A ++ n :: B) :: ups') ∧ SameShape ups ups' ∧
      t.fileHdr = s.fileHdr ∧ t.counters = s.counters := by
  induction ups with
  | nil =>
    intro below A B n s fuel enough tree stale root filled
    obtain ⟨fuel,rfl⟩ := Nat.exists_eq_succ_of_ne_zero (Nat.ne_zero_of_lt enough)
    obtain ⟨rfl,rfl⟩ := stale
    refine ⟨s,[],?_,tree,List.isChain_singleton _,root,.nil,rfl,rfl⟩
    obtain ⟨r,last,_,none⟩ := root
    cases last
    obtain ⟨node,here,parent⟩ := fieldSome none
    simp only [maintainParent]
    rw [bindEq (fetchNodeRun here),if_pos parent]
    rfl
  | cons hi rest ih =>
    intro below A B n s fuel enough tree stale root filled
    obtain ⟨fuel,rfl⟩ := Nat.exists_eq_succ_of_ne_zero (Nat.ne_zero_of_lt enough)
    obtain ⟨⟨U,u,W,a,x,b,rfl,pairs,left,ptr,right⟩,above⟩ := stale
    obtain ⟨inner,parent,inside,known⟩ := tree.parentNode pairs ptr
    obtain ⟨⟨f,r⟩,others,npairs⟩ := List.exists_cons_of_ne_nil filled
    have first : n.first = some f := by rw [Node.first,npairs]; rfl
    have rank := findChildRun known (by rw [ptr]; rfl) (frontBefore left tree.levelOnce)
    have parentKey : getKey u.page a.length s = .ok x.1 s := getKeyRun known (by simp)
    have childKey : getKey n.page 0 s = .ok f s := by
      have known := tree.nodes.pairs n focusMem
      rw [npairs] at known
      exact @getKeyRun _ s n.page _ (f,r) 0 known rfl
    obtain ⟨node,here,isParent⟩ := fieldSome parent
    have flatShape : ∀ e : K × Rid, flat (U ++ {u with pairs := a ++ e :: b} :: W) = (flat U ++ a) ++ e :: (b ++ flat W) := by
      intro e; simp
    simp only [maintainParent]
    rw [bindEq (fetchNodeRun here),isParent,if_neg inside,bindEq rank,bindEq parentKey,bindEq childKey]
    by_cases same : x.1 = f
    · rw [if_pos same]
      refine ⟨s,(U ++ u :: W) :: rest,rfl,tree,List.IsChain.cons_cons ?_ above,root,sameShapeRefl _,rfl,rfl⟩
      have shape := flatShape x
      rw [← pairs] at shape
      rw [Linked,shape]
      exact frontJoin left ptr (fun _ => by rw [first,same]) right
    · rw [if_neg same,bindEq (setKeyRun known)]
      have shape : below ++ (A ++ n :: B) :: (U ++ u :: W) :: rest = (below ++ [A ++ n :: B]) ++ (U ++ u :: W) :: rest := by
        simp
      have alike : Alike u {u with pairs := a ++ (f,x.2) :: b} := ⟨rfl,rfl,by rw [pairs]; simp⟩
      have tree' := @rekeyTree _ _ _ _ _ _ (a ++ (f,x.2) :: b) _ (shape ▸ tree) (by rw [pairs]; simp)
      have link : Linked (A ++ n :: B) (U ++ {u with pairs := a ++ (f,x.2) :: b} :: W) := by
        rw [Linked,flatShape]
        exact frontJoin left ptr (fun _ => first) right
      have root' : Root (s.setPairs u.page (a ++ (f,x.2) :: b))
          ((U ++ {u with pairs := a ++ (f,x.2) :: b} :: W) :: rest) :=
        root.tail.replace rfl rfl fun q _ none => by rw [pairsParent]; exact none
      have stale' := staleUp above root' rfl
      obtain ⟨t,ups',run,treeT,linked,rootT,shapeT,hdr,counters⟩ := @ih _ _ _ _ _ fuel (by simpa using enough) tree' stale' root'
        (by simp)
      refine ⟨t,(U ++ {u with pairs := a ++ (f,x.2) :: b} :: W) :: ups',run,by simpa using treeT,
        List.IsChain.cons_cons link linked,rootT.cons _,.cons (alikeReplace alike) shapeT,hdr,counters⟩

end Maintain
end Rmdb.Index
