import Rmdb.Index.Coalesce

/-! `coalesce_or_redistribute` climbs from a node that lost a pair, and `delete_entry`. -/
namespace Rmdb.Index
open Lib IxIndexHandle
variable {K : Type} {s t : IxIndexHandle K}

section Levels
variable {below ups ups' : List (Level K)} {lo lo' : Level K} {n : Node K}

theorem chainRelevel (chain : (below ++ lo :: ups).IsChain Linked) (same : flat lo' = flat lo)
    (upper : (lo' :: ups').IsChain Linked) : (below ++ lo' :: ups').IsChain Linked := by
  rw [List.isChain_append] at chain ⊢
  refine ⟨chain.1,upper,?_⟩
  intro lv last hi head
  cases head
  have link := chain.2.2 lv last lo rfl
  rw [Linked] at link ⊢
  rw [same]
  exact link

theorem Root.lift (root : Root s (lo :: ups)) : Root s (below ++ lo :: ups) := by
  obtain ⟨r,last,page,parent⟩ := root
  exact ⟨r,by rw [List.getLast?_append,last]; rfl,page,parent⟩

theorem Tree.kidsOnce (tree : Tree s (below ++ lo :: ups)) (chain : (below ++ lo :: ups).IsChain Linked) (mem : n ∈ lo)
    (inner : n.leaf = false) : (childPages n.pairs).Nodup := by
  rcases List.eq_nil_or_concat below with rfl | ⟨lower,lv,rfl⟩
  · have leaf := tree.leaves n mem
    rw [inner] at leaf
    cases leaf
  · rw [List.concat_eq_append,List.append_assoc,List.singleton_append] at tree chain
    exact (tree.children (List.isChain_cons_cons.mp (List.isChain_append.mp chain).2.1).1 mem).1

theorem Tree.sameKind {m : Node K} (tree : Tree s (below ++ lo :: ups)) (memn : n ∈ lo) (memm : m ∈ lo) :
    n.leaf = m.leaf := by
  cases below with
  | nil => rw [tree.leaves n memn,tree.leaves m memm]
  | cons lv below => rw [tree.inner lo (by simp) n memn,tree.inner lo (by simp) m memm]

theorem sizedTwo {order : Nat} {U W : Level K} {u : Node K} (big : 2 < order) (sized : Sized order ((U ++ u :: W) :: ups))
    (inner : u.leaf = false) : 2 ≤ u.pairs.length := by
  cases ups with
  | nil =>
    obtain ⟨r,top,fits⟩ := sized
    obtain ⟨rfl,rfl,rfl⟩ := onlyOne top
    exact fits.2 inner
  | cons next rest =>
    have least := (sized.1 u (by simp)).1
    omega

end Levels

section Root
variable {order : Nat}

/- A tree of the right shape that holds the same entries as `old`. -/
structure Restored (order : Nat) (counters : Int × Nat) (t : IxIndexHandle K) (old levels : List (Level K)) : Prop where
  tree : Tree t levels
  linked : levels.IsChain Linked
  root : Root t levels
  sized : Sized order levels
  order : t.fileHdr.btreeOrder = order
  same : flat (levels.headD []) = flat (old.headD [])
  kept : t.counters = counters

structure Short (order : Nat) (A : Level K) (n : Node K) (B : Level K) (ups : List (Level K)) : Prop where
  others : ∀ m ∈ A ++ B, Fits order m
  above : SizedUp order ups
  most : n.pairs.length ≤ order
  least : ups ≠ [] → (order+1)/2 ≤ n.pairs.length+1
  top : n.leaf = false → 1 ≤ n.pairs.length

theorem fitsTop {m : Node K} (big : 2 < order) (fits : Fits order m) : FitsTop order m :=
  ⟨fits.2,fun _ => by have least := fits.1; omega⟩

theorem dropRoot {lower : List (Level K)} {c n : Node K} {x : K × Rid} (tree : Tree s (lower ++ [[c],[n]]))
    (inner : n.leaf = false) (pairs : n.pairs = [x]) (ptr : x.2 = c.ptr) :
    Tree ((s.adopt ixNoPage [c.page]).withHdr fun hdr => {hdr with rootPage := c.page}) (lower ++ [[c]]) := by
  have holds : Nodes s (n :: (lower ++ [[c]]).flatten) := by
    refine tree.nodes.perm ?_
    have shape : (lower ++ [[c],[n]]).flatten = (lower ++ [[c]]).flatten ++ [n] := by simp
    rw [shape]
    exact List.perm_append_singleton _ _
  have rest := holds.subset (List.sublist_cons_self _ _)
  have adopted : Nodes (s.adopt ixNoPage [c.page]) (lower ++ [[c]]).flatten := by
    refine rest.reparent ?_
    intro u mem innerU d child inside
    have same := holds.oneParent (List.mem_cons_of_mem _ mem) List.mem_cons_self innerU inner child (by
      rw [pairs,List.mem_singleton.mp inside]
      simp [ptr,Node.ptr])
    exact absurd (congrArg Node.page same) (holds.apart mem)
  refine ⟨adopted.congr (fun _ => rfl) (fun _ => rfl) (fun _ => rfl) rfl,?_,?_,?_⟩
  · have links := tree.links.congr (t := (s.adopt ixNoPage [c.page]).withHdr fun hdr => {hdr with rootPage := c.page})
      (fun q _ => by rw [hdrField,adoptKeep fun _ => rfl]) (fun q _ => by rw [hdrField,adoptKeep fun _ => rfl]) rfl rfl
    cases lower <;> exact links
  · intro m mem
    refine tree.leaves m ?_
    cases lower <;> exact mem
  · intro lv mem m memm
    refine tree.inner lv ?_ m memm
    cases lower with
    | nil => simp at mem
    | cons bottom lower =>
      simp only [List.cons_append,List.tail_cons,List.mem_append,List.mem_singleton] at mem
      rcases mem with mem | rfl <;> simp [*]

theorem adjustRootTree (big : 2 < order) {below : List (Level K)} {n : Node K} (isOrder : s.fileHdr.btreeOrder = order)
    (tree : Tree s (below ++ [[n]])) (chain : (below ++ [[n]]).IsChain Linked) (root : Root s [[n]])
    (fits : ∀ lv ∈ below, ∀ m ∈ lv, Fits order m) (most : n.pairs.length ≤ order)
    (least : n.leaf = false → 1 ≤ n.pairs.length) :
    ∃ b t levels, adjustRoot n.page s = .ok b t ∧ Restored order s.counters t (below ++ [[n]]) levels := by
  obtain ⟨node,here,pairs⟩ := fieldSome (tree.nodes.pairs n (by simp))
  have leaf : node.isLeaf = n.leaf := by
    have known := tree.nodes.leaf n (by simp)
    rw [field,here] at known
    exact Option.some.inj known
  have size : node.size = n.pairs.length := by rw [IxPage.size,pairs]
  simp only [adjustRoot]
  rw [bindEq (fetchNodeRun here),leaf,size]
  by_cases single : n.leaf = false ∧ n.pairs.length = 1
  · obtain ⟨inner,one⟩ := single
    obtain ⟨x,only⟩ := List.length_eq_one_iff.mp one
    obtain ⟨lower,c,ptr,rfl⟩ : ∃ lower c, x.2 = c.ptr ∧ below = lower ++ [[c]] := by
      rcases List.eq_nil_or_concat below with rfl | ⟨lower,lv,rfl⟩
      · have bottom := tree.leaves n (by simp)
        rw [inner] at bottom
        cases bottom
      · rw [List.concat_eq_append,List.append_assoc,List.singleton_append] at chain
        have link := (List.isChain_cons_cons.mp (List.isChain_append.mp chain).2.1).1
        rw [Linked,flatCons,flatNil,List.append_nil,only] at link
        cases lv with
        | nil => cases link
        | cons c lv =>
          cases link.2
          exact ⟨lower,c,link.1,by rw [List.concat_eq_append]⟩
    rw [List.append_assoc,List.singleton_append] at tree
    have memc : c ∈ (lower ++ [[c],[n]]).flatten := by simp
    have known : s.field IxPage.parent c.page = some n.page :=
      tree.nodes.parent n (by simp) inner c.page (by rw [only]; simp [ptr,Node.ptr])
    have child : valueAt n.page 0 s = .ok c.page s := by
      have done := @valueAtRun _ s n.page [x] x 0 (by rw [tree.nodes.pairs n (by simp),only]) rfl
      rw [done,ptr]
      rfl
    have moved : setParentPageNo c.page ixNoPage s = .ok () (s.adopt ixNoPage [c.page]) := modifyNodeRun (fieldHas known)
    rw [if_pos ⟨inner,one⟩,bindEq child,bindEq moved,bindEq (setHdrRun _ _)]
    refine ⟨true,_,lower ++ [[c]],rfl,dropRoot tree inner only ptr,(List.isChain_append.mp chain).1,
      ⟨c,by simp,rfl,?_⟩,?_,isOrder,?_,adoptCounters⟩
    · rw [hdrField]
      exact adoptChild known List.mem_cons_self
    · rw [sizedAppend (by simp)]
      refine ⟨fun lv mem => fits lv (by simp [mem]),c,rfl,fitsTop big (fits [c] (by simp) c (by simp))⟩
    · cases lower <;> rfl
  · rw [if_neg single]
    by_cases empty : n.leaf = true ∧ n.pairs.length = 0
    · rw [if_pos empty,bindEq (setHdrRun _ _)]
      cases (Tree.kind (A := []) (B := []) tree).mp empty.1
      have first : n.page = s.fileHdr.firstLeaf := Option.some.inj tree.links.first
      have last : n.page = s.fileHdr.lastLeaf := Option.some.inj tree.links.last
      have top : s.fileHdr.rootPage = n.page := by
        obtain ⟨r,isLast,page,_⟩ := root
        cases isLast
        exact page
      have same : (s.withHdr fun hdr => {hdr with rootPage := n.page, firstLeaf := n.page, lastLeaf := n.page}) = s := by
        obtain ⟨hdr,pages,fd2pageno,filePages⟩ := s
        obtain ⟨numPages,rootPage,btreeOrder,firstLeaf,lastLeaf⟩ := hdr
        dsimp only at first last top
        simp only [withHdr,first,← last,top]
      rw [same]
      refine ⟨false,s,[[n]],rfl,tree,chain,root,⟨n,rfl,most,?_⟩,isOrder,rfl,rfl⟩
      intro inner
      rw [empty.1] at inner
      cases inner
    · rw [if_neg empty]
      refine ⟨false,s,_,rfl,tree,chain,root.lift,?_,isOrder,rfl,rfl⟩
      rw [sizedAppend (by simp)]
      refine ⟨fits,n,rfl,most,?_⟩
      intro inner
      have one := least inner
      have notOne : n.pairs.length ≠ 1 := fun one => single ⟨inner,one⟩
      omega

end Root
section Climb
variable {order : Nat} {below rest rest' : List (Level K)} {A B U W lo lo' : Level K} {n u v : Node K}

theorem Repaired.restored (fixed : Repaired s t below lo' U u v W rest rest')
    (chain : (below ++ lo :: (U ++ u :: W) :: rest).IsChain Linked) (same : flat lo' = flat lo)
    (fits : ∀ lv ∈ below, ∀ m ∈ lv, Fits order m) (fitsLo : ∀ m ∈ lo', Fits order m)
    (sized : Sized order ((U ++ u :: W) :: rest)) (size : v.pairs.length = u.pairs.length)
    (isOrder : s.fileHdr.btreeOrder = order) :
    Restored order s.counters t (below ++ lo :: (U ++ u :: W) :: rest) (below ++ lo' :: (U ++ v :: W) :: rest') := by
  refine ⟨fixed.tree,chainRelevel chain same fixed.linked,(fixed.root.cons lo').lift,?_,fixed.order.trans isOrder,?_,
    fixed.counters⟩
  · rw [sizedAppend (by simp)]
    refine ⟨fits,fitsLo,sizedSame (.cons (alikeReplace ⟨?_,?_,?_⟩) fixed.shape) sized⟩
    · exact fixed.page.symm
    · exact fixed.leaf.symm
    · exact size.symm
  · cases below with
    | nil => exact same
    | cons lv below => rfl

theorem Repaired.short (fixed : Repaired s t below lo' U u v W rest rest') (big : 2 < order)
    (inner : u.leaf = false) (sized : Sized order ((U ++ u :: W) :: rest)) (size : v.pairs.length+1 = u.pairs.length) :
    Short order U v W rest' := by
  have two := sizedTwo big sized inner
  have most := sizedMem sized (by simp : u ∈ U ++ u :: W)
  refine ⟨fun m mem => sizedOthers sized (List.mem_append.mp mem),?_,by omega,?_,fun _ => by omega⟩
  · cases rest' with
    | nil => trivial
    | cons next rest' =>
      cases rest with
      | nil => cases fixed.shape
      | cons old rest => exact sizedSame fixed.shape sized.2
  · intro more
    cases rest with
    | nil => cases fixed.shape; exact absurd rfl more
    | cons old rest =>
      have least := (sized.1 u (by simp)).1
      omega

variable [IxKey K]

/- What a call on a node of the tree is to achieve, if at most `height` levels lie above it. -/
def Rebalances (order : Nat) (call : Int → M (IxIndexHandle K) Bool) (height : Nat) : Prop :=
  ∀ {ups below : List (Level K)} {A B : Level K} {n : Node K} {s : IxIndexHandle K}, ups.length < height →
    s.fileHdr.btreeOrder = order → Tree s (below ++ (A ++ n :: B) :: ups) →
    (below ++ (A ++ n :: B) :: ups).IsChain Linked → Root s ((A ++ n :: B) :: ups) →
    (∀ lv ∈ below, ∀ m ∈ lv, Fits order m) → Short order A n B ups →
    ∃ b t levels, call n.page s = .ok b t ∧ Restored order s.counters t (below ++ (A ++ n :: B) :: ups) levels

section Step
variable {again : Int → M (IxIndexHandle K) Bool} {height : Nat} {l r : Node K} {a b : List (K × Rid)}

theorem mergeStep (climbs : Rebalances order again height) (enough : rest.length < height) (big : 2 < order)
    (isOrder : s.fileHdr.btreeOrder = order) (w : Window A l r B U u W a b)
    (tree : Tree s (below ++ (A ++ l :: r :: B) :: (U ++ u :: W) :: rest))
    (chain : (below ++ (A ++ l :: r :: B) :: (U ++ u :: W) :: rest).IsChain Linked) (root : Root s ((U ++ u :: W) :: rest))
    (fits : ∀ lv ∈ below, ∀ m ∈ lv, Fits order m) (others : ∀ m ∈ A ++ B, Fits order m)
    (sized : Sized order ((U ++ u :: W) :: rest)) (inner : u.leaf = false)
    (least : (order+1)/2 ≤ l.pairs.length+r.pairs.length) (most : l.pairs.length+r.pairs.length ≤ order) :
    ∃ b t levels, (absorb l.page r.page >>= fun _ => dropEntry again s.filePages l.page u.page (a.length+1)) s = .ok b t ∧
      Restored order s.counters t (below ++ (A ++ l :: r :: B) :: (U ++ u :: W) :: rest) levels := by
  have deep := tree.depth chain
  simp only [List.length_append,List.length_cons] at deep
  have above := (List.isChain_cons_cons.mp (List.isChain_append.mp chain).2.1).2
  have filled : l.pairs ++ r.pairs ≠ [] := by
    rw [ne_eq,← List.length_eq_zero_iff,List.length_append]
    omega
  obtain ⟨t,rest',v,run,fixed,size⟩ := coalesceTree (f := again) w tree (by rw [getMaxSize,isOrder]; omega) filled
    above root (by omega)
  have same : flat (A ++ {l with pairs := l.pairs ++ r.pairs} :: B) = flat (A ++ l :: r :: B) := by simp
  have shape : below ++ (A ++ {l with pairs := l.pairs ++ r.pairs} :: B) :: (U ++ v :: W) :: rest' =
      (below ++ [A ++ {l with pairs := l.pairs ++ r.pairs} :: B]) ++ (U ++ v :: W) :: rest' := by simp
  have linked := chainRelevel chain same fixed.linked
  have treeT := fixed.tree
  rw [shape] at linked treeT
  obtain ⟨done,t2,levels,call,restored⟩ := climbs (by rw [← fixed.shape.length_eq]; exact enough)
    (fixed.order.trans isOrder) treeT linked fixed.root (by
      intro lv mem m memm
      rcases List.mem_append.mp mem with mem | mem
      · exact fits lv mem m memm
      · rw [List.mem_singleton.mp mem,List.mem_append,List.mem_cons] at memm
        rcases memm with memm | rfl | memm
        · exact others m (by simp [memm])
        · exact ⟨by simpa using least,by simpa using most⟩
        · exact others m (by simp [memm])) (fixed.short big inner sized size)
  refine ⟨done,t2,levels,?_,restored.tree,restored.linked,restored.root,restored.sized,restored.order,?_,
    restored.kept.trans fixed.counters⟩
  · rw [run,← fixed.page]
    exact call
  · rw [restored.same]
    cases below with
    | nil => exact same
    | cons lv below => rfl

theorem leftStep (climbs : Rebalances order again height) (enough : rest.length < height) (big : 2 < order)
    (isOrder : s.fileHdr.btreeOrder = order) (w : Window A l r B U u W [] b)
    (tree : Tree s (below ++ (A ++ l :: r :: B) :: (U ++ u :: W) :: rest))
    (chain : (below ++ (A ++ l :: r :: B) :: (U ++ u :: W) :: rest).IsChain Linked) (root : Root s ((U ++ u :: W) :: rest))
    (fits : ∀ lv ∈ below, ∀ m ∈ lv, Fits order m) (others : ∀ m ∈ A ++ r :: B, Fits order m)
    (sized : Sized order ((U ++ u :: W) :: rest)) (inner : u.leaf = false) (few : l.pairs.length+1 = (order+1)/2) :
    ∃ b t levels, (if 2*((order+1)/2) ≤ r.pairs.length+l.pairs.length then
        redistribute r.page l.page u.page 0 >>= fun _ => pure false
      else coalesce again r.page l.page u.page 0) s = .ok b t ∧
      Restored order s.counters t (below ++ (A ++ l :: r :: B) :: (U ++ u :: W) :: rest) levels := by
  have fitsr := others r (by simp)
  have rest' : ∀ m ∈ A ++ B, Fits order m := by
    intro m mem
    refine others m ?_
    rcases List.mem_append.mp mem with mem | mem <;> simp [mem]
  have deep := tree.depth chain
  simp only [List.length_append,List.length_cons] at deep
  have above := (List.isChain_cons_cons.mp (List.isChain_append.mp chain).2.1).2
  obtain ⟨leastr,mostr⟩ := fitsr
  split
  · rename_i plenty
    obtain ⟨e,more,give⟩ : ∃ e more, r.pairs = e :: more :=
      List.exists_cons_of_ne_nil (by rw [← List.length_pos_iff]; omega)
    have length : r.pairs.length = more.length+1 := by rw [give]; rfl
    have kind : l.leaf = r.leaf := tree.sameKind (by simp) (by simp)
    obtain ⟨t,rest',v,run,fixed,size⟩ := redistributeLeft w tree kind (tree.kidsOnce chain (by simp)) give
      (by rw [← List.length_pos_iff]; omega) (by rw [getMaxSize,isOrder]; omega) above root (by omega)
    refine ⟨false,t,_,by rw [bindEq run]; rfl,fixed.restored chain (by simp [give]) fits ?_ sized size isOrder⟩
    intro m mem
    simp only [List.mem_append,List.mem_cons] at mem
    rcases mem with mem | rfl | rfl | mem
    · exact others m (by simp [mem])
    · simp only [Fits,List.length_append,List.length_singleton]; omega
    · simp only [Fits]; omega
    · exact others m (by simp [mem])
  · rw [coalesceEq,if_pos rfl]
    exact mergeStep climbs enough big isOrder w tree chain root fits rest' sized inner (by omega) (by omega)

theorem rightStep (climbs : Rebalances order again height) (enough : rest.length < height) (big : 2 < order)
    (isOrder : s.fileHdr.btreeOrder = order) (w : Window A l r B U u W a b)
    (tree : Tree s (below ++ (A ++ l :: r :: B) :: (U ++ u :: W) :: rest))
    (chain : (below ++ (A ++ l :: r :: B) :: (U ++ u :: W) :: rest).IsChain Linked) (root : Root s ((U ++ u :: W) :: rest))
    (fits : ∀ lv ∈ below, ∀ m ∈ lv, Fits order m) (others : ∀ m ∈ (A ++ [l]) ++ B, Fits order m)
    (sized : Sized order ((U ++ u :: W) :: rest)) (inner : u.leaf = false) (few : r.pairs.length+1 = (order+1)/2) :
    ∃ b t levels, (if 2*((order+1)/2) ≤ l.pairs.length+r.pairs.length then
        redistribute l.page r.page u.page (a.length+1) >>= fun _ => pure false
      else coalesce again l.page r.page u.page (a.length+1)) s = .ok b t ∧
      Restored order s.counters t (below ++ (A ++ l :: r :: B) :: (U ++ u :: W) :: rest) levels := by
  have fitsl := others l (by simp)
  have rest' : ∀ m ∈ A ++ B, Fits order m := by
    intro m mem
    refine others m ?_
    rcases List.mem_append.mp mem with mem | mem <;> simp [mem]
  have deep := tree.depth chain
  simp only [List.length_append,List.length_cons] at deep
  have above := (List.isChain_cons_cons.mp (List.isChain_append.mp chain).2.1).2
  obtain ⟨leastl,mostl⟩ := fitsl
  split
  · rename_i plenty
    obtain ⟨more,e,give⟩ : ∃ more e, l.pairs = more ++ [e] := by
      rcases List.eq_nil_or_concat l.pairs with none | ⟨more,e,give⟩
      · rw [none,List.length_nil] at leastl
        omega
      · exact ⟨more,e,by rw [give,List.concat_eq_append]⟩
    have length : l.pairs.length = more.length+1 := by rw [give]; simp
    have kind : r.leaf = l.leaf := tree.sameKind (by simp) (by simp)
    obtain ⟨t,rest',v,run,fixed,size⟩ := redistributeRight w tree kind (tree.kidsOnce chain (by simp)) give
      (by rw [← List.length_pos_iff]; omega) (by rw [getMaxSize,isOrder]; omega) above root (by omega)
      (Nat.succ_ne_zero a.length)
    refine ⟨false,t,_,by rw [bindEq run]; rfl,fixed.restored chain (by simp [give]) fits ?_ sized size isOrder⟩
    intro m mem
    simp only [List.mem_append,List.mem_cons] at mem
    rcases mem with mem | rfl | rfl | mem
    · exact others m (by simp [mem])
    · simp only [Fits]; omega
    · simp only [Fits,List.length_cons]; omega
    · exact others m (by simp [mem])
  · rw [coalesceEq,if_neg (Nat.succ_ne_zero a.length)]
    exact mergeStep climbs enough big isOrder w tree chain root fits rest' sized inner (by omega) (by omega)

end Step

theorem coalesceOrRedistributeTree (big : 2 < order) (fuel : Nat) :
    Rebalances order (coalesceOrRedistribute (K := K) fuel) fuel := by
  induction fuel with
  | zero =>
    intro ups below A B n s enough
    cases enough
  | succ fuel ih =>
    intro ups below A B n s enough isOrder tree chain root fits short
    have minSize : s.getMinSize = (order+1)/2 := by rw [getMinSize,getMaxSize,isOrder]
    obtain ⟨node,here,pairsn⟩ := fieldSome (tree.nodes.pairs n focusMem)
    have size : node.size = n.pairs.length := by rw [IxPage.size,pairsn]
    simp only [coalesceOrRedistribute,getBind]
    rw [bindEq (fetchNodeRun here),minSize,size]
    cases ups with
    | nil =>
      obtain ⟨r,last,_,none⟩ := id root
      simp only [List.getLast?_singleton,Option.some.injEq] at last
      obtain ⟨rfl,rfl,rfl⟩ := onlyOne last
      rw [field,here] at none
      rw [if_pos (Option.some.inj none)]
      exact adjustRootTree big isOrder tree chain root fits short.most short.top
    | cons hi rest =>
      obtain ⟨link,above⟩ := List.isChain_cons_cons.mp (List.isChain_append.mp chain).2.1
      obtain ⟨⟨U,u,W,a,x,b,rfl,pairs,left,ptr,right⟩,_⟩ := focus link
      obtain ⟨inner,parent,inside,known⟩ := tree.parentNode pairs ptr
      rw [field,here] at parent
      have isParent : node.parent = u.page := Option.some.inj parent
      rw [isParent,if_neg inside]
      have sizedUps : Sized order ((U ++ u :: W) :: rest) := short.above
      by_cases enoughPairs : (order+1)/2 ≤ n.pairs.length
      · rw [if_pos enoughPairs]
        refine ⟨false,s,_,rfl,tree,chain,root.lift,?_,isOrder,rfl,rfl⟩
        rw [sizedAppend (by simp)]
        refine ⟨fits,?_,sizedUps⟩
        intro m mem
        simp only [List.mem_append,List.mem_cons] at mem
        rcases mem with mem | rfl | mem
        · exact short.others m (by simp [mem])
        · exact ⟨enoughPairs,short.most⟩
        · exact short.others m (by simp [mem])
      · rw [if_neg enoughPairs]
        have index := findChildRun known (by rw [ptr]; rfl) (frontBefore left tree.levelOnce)
        have two := sizedTwo big sizedUps inner
        have few : n.pairs.length+1 = (order+1)/2 := by
          have least := short.least (by simp)
          omega
        have enough' : rest.length < fuel := by simpa using enough
        rw [bindEq index]
        rcases List.eq_nil_or_concat a with rfl | ⟨a,y,rfl⟩
        · rw [List.nil_append] at pairs known
          rw [List.append_nil] at left
          obtain ⟨r,B,b,rfl,w⟩ := windowRight pairs two left ptr right
          obtain ⟨i,j,wpairs⟩ := w.pairs
          obtain ⟨other,there,pairsr⟩ := fieldSome (tree.nodes.pairs r (by simp))
          have next : valueAt u.page 1 s = .ok r.page s :=
            valueAtRun (x := (j,r.ptr)) (by rw [known,← pairs,wpairs]) rfl
          rw [if_pos List.length_nil,bindEq next,bindEq (fetchNodeRun there),IxPage.size,pairsr]
          exact leftStep ih enough' big isOrder w tree chain root.tail fits short.others sizedUps inner few
        · rw [List.concat_eq_append] at pairs left known ⊢
          obtain ⟨l,A,rfl,w⟩ := windowLeft pairs left ptr right
          obtain ⟨i,j,wpairs⟩ := w.pairs
          obtain ⟨other,there,pairsl⟩ := fieldSome (tree.nodes.pairs l (by simp))
          have prev : valueAt u.page a.length s = .ok l.page s :=
            valueAtRun (x := (i,l.ptr)) (by rw [known,← pairs,wpairs]) (by simp)
          rw [List.length_append,List.length_singleton,if_neg (Nat.succ_ne_zero _),Nat.add_sub_cancel,bindEq prev,
            bindEq (fetchNodeRun there),IxPage.size,pairsl]
          have shape : A ++ [l] ++ n :: B = A ++ l :: n :: B := by simp
          rw [shape] at tree chain root ⊢
          exact rightStep ih enough' big isOrder w tree chain root.tail fits short.others sizedUps inner few

end Climb
section Delete
variable [IxKey K] {levels : List (Level K)} {k : K} {v : Rid}

theorem removeAbsent {l : List (K × Rid)} {p : Int} (pairs : s.field IxPage.pairs p = some l) (sorted : Ordered l)
    (absent : asMap l k = none) : remove p k s = .ok () s := by
  obtain ⟨node,here,rfl⟩ := fieldSome pairs
  obtain ⟨a,b,split,_,_,bound⟩ := lowerBoundSpec sorted k
  simp only [remove]
  rw [bindEq (fetchNodeRun here),bound]
  cases found : node.pairs[a.length]? with
  | none => rfl
  | some e =>
    have differ : ixCompare e.1 k ≠ 0 := by
      rw [ne_eq,IxKey.compareEq]
      intro same
      have inside : (k,e.2) ∈ node.pairs := by rw [← same]; exact List.mem_of_getElem? found
      rw [asMap,(lookupMem sorted).mpr inside] at absent
      cases absent
    dsimp only
    rw [if_neg differ]
    rfl

theorem removePresent {l : List (K × Rid)} {p : Int} (pairs : s.field IxPage.pairs p = some l) (sorted : Ordered l)
    (present : asMap l k = some v) : ∃ a b, l = a ++ (k,v) :: b ∧ remove p k s = .ok () (s.setPairs p (a ++ b)) := by
  obtain ⟨node,here,rfl⟩ := fieldSome pairs
  obtain ⟨a,b,split,small,large,bound⟩ := lowerBoundSpec sorted k
  have mem : (k,v) ∈ a ++ b := by rw [← split]; exact (lookupMem sorted).mp present
  have inb : (k,v) ∈ b := (List.mem_append.mp mem).resolve_left fun early => lt_irrefl k (small _ early)
  cases b with
  | nil => cases inb
  | cons e b =>
    have head : e = (k,v) := by
      rcases List.mem_cons.mp inb with same | later
      · exact same.symm
      · have order := (orderedMid.mp (split ▸ sorted)).2.2 (k,v) later
        exact absurd order (not_lt.mpr (large e List.mem_cons_self))
    subst head
    refine ⟨a,b,split,?_⟩
    rw [split] at pairs
    have same : ixCompare k k = 0 := (IxKey.compareEq k k).mpr rfl
    simp only [remove]
    rw [bindEq (fetchNodeRun here),bound,split]
    simp only [List.getElem?_append_right (le_refl _),Nat.sub_self,List.getElem?_cons_zero,same,if_true]
    exact erasePairRun pairs rfl

def deleteTail (leaf : Int) : M (IxIndexHandle K) Bool := do
  let node ← fetchNode leaf
  let s ← get
  if node.parent ≠ ixNoPage ∧ 0 < node.size then maintainParent s.filePages leaf
  let _ ← coalesceOrRedistribute s.filePages leaf
  pure true

theorem deleteTailTree {A B : Level K} {n : Node K} {ups : List (Level K)} {l : List (K × Rid)}
    (wf : WellFormed s ((A ++ n :: B) :: ups)) (size : l.length+1 = n.pairs.length) :
    ∃ t levels, deleteTail n.page (s.setPairs n.page l) = .ok true t ∧
      Restored s.fileHdr.btreeOrder s.counters t ((A ++ {n with pairs := l} :: B) :: ups) levels := by
  have leaf : n.leaf = true := wf.tree.leaves n (by simp)
  have most : n.pairs.length ≤ s.fileHdr.btreeOrder := sizedMem wf.sized (by simp)
  have deep := wf.tree.depth wf.linked
  have big := wf.order
  have tree := @Tree.setPairs _ s [] ups A B n l wf.tree (by rw [leaf]; simp)
  rw [List.nil_append] at tree
  have root := wf.root.replace (m := {n with pairs := l}) (t := s.setPairs n.page l) rfl rfl
    fun q _ none => by rw [pairsParent]; exact none
  have others : ∀ m ∈ A ++ B, Fits s.fileHdr.btreeOrder m := fun m mem => sizedOthers wf.sized (List.mem_append.mp mem)
  obtain ⟨node,here,pairs⟩ := fieldSome (tree.nodes.pairs {n with pairs := l} (by simp))
  have nodeSize : node.size = l.length := by rw [IxPage.size,pairs]
  have finish : ∀ {t ups'}, Tree t ((A ++ {n with pairs := l} :: B) :: ups') →
      ((A ++ {n with pairs := l} :: B) :: ups').IsChain Linked → Root t ((A ++ {n with pairs := l} :: B) :: ups') →
      SameShape ups ups' → t.fileHdr = s.fileHdr → t.counters = s.counters → ∃ t' levels,
        (coalesceOrRedistribute s.filePages n.page >>= fun _ => pure true) t = .ok true t' ∧
        Restored s.fileHdr.btreeOrder s.counters t' ((A ++ {n with pairs := l} :: B) :: ups) levels := by
    intro t ups' treeT linked rootT shape hdr counters
    have short : Short s.fileHdr.btreeOrder A {n with pairs := l} B ups' := by
      refine ⟨others,?_,by dsimp only; omega,?_,by rw [leaf]; simp⟩
      · cases shape with
        | nil => trivial
        | cons head tail => exact sizedSame (.cons head tail) wf.sized.2
      · intro more
        cases shape with
        | nil => exact absurd rfl more
        | cons head tail =>
          have least := (wf.sized.1 n (by simp)).1
          dsimp only
          omega
    obtain ⟨b,t',levels,run,done⟩ := @coalesceOrRedistributeTree _ _ _ big s.filePages ups' [] A B {n with pairs := l} t
      (by rw [← shape.length_eq]; rw [List.length_cons] at deep; omega) (by rw [hdr]) treeT linked rootT (by simp) short
    exact ⟨t',levels,by rw [bindEq run]; rfl,done.tree,done.linked,done.root,done.sized,done.order,done.same,done.kept.trans counters⟩
  simp only [deleteTail]
  rw [bindEq (fetchNodeRun here)]
  simp only [getBind,pairsFile,nodeSize]
  cases ups with
  | nil =>
    obtain ⟨r,last,_,none⟩ := id root
    simp only [List.getLast?_singleton,Option.some.injEq] at last
    obtain ⟨rfl,rfl,rfl⟩ := onlyOne last
    rw [field,here] at none
    rw [if_neg fun both => both.1 (Option.some.inj none)]
    exact finish tree (List.isChain_singleton _) root .nil rfl rfl
  | cons hi rest =>
    have least := (wf.sized.1 n (by simp)).1
    obtain ⟨link,above⟩ := List.isChain_cons_cons.mp wf.linked
    obtain ⟨⟨U,u,W,a,x,b,rfl,upairs,left,ptr,right⟩,_⟩ := focus link
    obtain ⟨_,parent,inside,_⟩ := Tree.parentNode (n := {n with pairs := l}) (show Tree _ ([] ++ _) from tree) upairs ptr
    rw [field,here] at parent
    have isParent : node.parent = u.page := Option.some.inj parent
    obtain ⟨t,ups',run,treeT,linked,rootT,shape,hdr,counters⟩ := @maintainTree _ _ _ [] A B {n with pairs := l} _ s.filePages
      (by rw [List.length_cons] at deep; omega) tree (staleUp wf.linked root rfl) root
      (by rw [← List.length_pos_iff]; dsimp only; omega)
    rw [if_pos ⟨by rw [isParent]; exact inside,by omega⟩]
    have maintained : maintainParent s.filePages n.page (s.setPairs n.page l) = .ok () t := run
    rw [bindEq maintained]
    exact finish treeT linked rootT shape (hdr.trans rfl) counters

theorem deleteEntryAbsent (wf : WellFormed s levels) (absent : asMap (entries levels) k = none) :
    deleteEntry k s = .ok false s := by
  obtain ⟨A,n,B,ups,rfl,covers,run⟩ := findLeafTree wf k
  have sorted : Ordered (flat (A ++ n :: B)) := wf.sorted
  have known := wf.tree.nodes.pairs n (by simp)
  obtain ⟨node,here,_⟩ := fieldSome known
  have noPair : asMap n.pairs k = none := by rw [← coversLookup sorted covers]; exact absent
  simp only [deleteEntry]
  rw [bindEq run,bindEq (fetchNodeRun here),bindEq (removeAbsent known (nodeOrdered sorted) noPair),
    bindEq (fetchNodeRun here),if_pos rfl]
  rfl

theorem deleteEntryPresent (wf : WellFormed s levels) (present : asMap (entries levels) k = some v) :
    ∃ t levels', deleteEntry k s = .ok true t ∧ WellFormed t levels' ∧
      (∃ a b, entries levels = a ++ (k,v) :: b ∧ entries levels' = a ++ b) ∧
      t.fileHdr.btreeOrder = s.fileHdr.btreeOrder ∧ t.counters = s.counters := by
  obtain ⟨A,n,B,ups,rfl,covers,run⟩ := findLeafTree wf k
  have sorted : Ordered (flat (A ++ n :: B)) := wf.sorted
  have known := wf.tree.nodes.pairs n (by simp)
  obtain ⟨node,here,pairs⟩ := fieldSome known
  have pair : asMap n.pairs k = some v := by rw [← coversLookup sorted covers]; exact present
  obtain ⟨a,b,split,removed⟩ := removePresent known (nodeOrdered sorted) pair
  have size : (a ++ b).length+1 = n.pairs.length := by rw [split]; simp only [List.length_append,List.length_cons]; omega
  obtain ⟨t,levels',done,restored⟩ := deleteTailTree wf size
  have oldFlat : flat (A ++ n :: B) = (flat A ++ a) ++ (k,v) :: (b ++ flat B) := by simp [split]
  have newFlat : flat (levels'.headD []) = (flat A ++ a) ++ (b ++ flat B) := by
    rw [restored.same]
    simp
  obtain ⟨now,there,nowPairs⟩ := fieldSome (@pairsSet _ s n.page (a ++ b) (fieldHas known))
  refine ⟨t,levels',?_,⟨restored.tree,restored.linked,restored.root,by rw [restored.order]; exact wf.order,
    by rw [restored.order]; exact restored.sized,?_⟩,⟨flat A ++ a,b ++ flat B,oldFlat,newFlat⟩,restored.order,
    restored.kept⟩
  · simp only [deleteEntry]
    rw [bindEq run,bindEq (fetchNodeRun here),bindEq removed,bindEq (fetchNodeRun there)]
    have fewer : now.size ≠ node.size := by
      rw [IxPage.size,IxPage.size,nowPairs,pairs]
      omega
    rw [if_neg fewer]
    simp only [deleteTail] at done
    rw [bindEq (fetchNodeRun there)] at done
    exact done
  · rw [newFlat]
    rw [oldFlat] at sorted
    exact (orderedMid.mp sorted).1

end Delete
end Rmdb.Index
