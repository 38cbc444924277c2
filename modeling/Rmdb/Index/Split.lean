import Rmdb.Index.Tree

/-! `split`: the right half of a node moves to a new page. -/
namespace Rmdb.Index
open Lib IxIndexHandle
variable {K : Type} {s t : IxIndexHandle K} {p : Int} {l : List (K × Rid)}

def halved (s : IxIndexHandle K) (p : Int) (parent : Int) (leaf : Bool) (l : List (K × Rid)) : IxIndexHandle K :=
  (((s.created.upd s.fd2pageno fun _ => ⟨parent,leaf,ixNoPage,ixNoPage,[]⟩).setPairs s.fd2pageno
    (l.drop (l.length/2))).setPairs p (l.take (l.length/2)))

structure Halved (s t : IxIndexHandle K) (p : Int) (l : List (K × Rid)) : Prop where
  pairs : ∀ q, t.field IxPage.pairs q = if q = p then some (l.take (l.length/2)) else
    if q = s.fd2pageno then some (l.drop (l.length/2)) else s.field IxPage.pairs q
  leaf : ∀ q, t.field IxPage.isLeaf q = if q = s.fd2pageno then s.field IxPage.isLeaf p else s.field IxPage.isLeaf q
  rootPage : t.fileHdr.rootPage = s.fileHdr.rootPage
  order : t.fileHdr.btreeOrder = s.fileHdr.btreeOrder
  firstLeaf : t.fileHdr.firstLeaf = s.fileHdr.firstLeaf
  next : t.fd2pageno = s.fd2pageno+1
  file : (t.filePages : Int) = s.fd2pageno+1

theorem Halved.unused (half : Halved s t p l) : t.NextUnused := by
  rw [NextUnused,half.file,half.next]

theorem halvedFields {parent : Int} {leaf : Bool} (unused : s.NextUnused) (old : p ≠ s.fd2pageno) (pairs : s.field IxPage.pairs p = some l)
    (isLeaf : s.field IxPage.isLeaf p = some leaf) :
    Halved s (halved s p parent leaf l) p l ∧
    (∀ q, (halved s p parent leaf l).field IxPage.parent q =
      if q = s.fd2pageno then some parent else s.field IxPage.parent q) ∧
    (∀ q, (halved s p parent leaf l).field IxPage.nextLeaf q =
      if q = s.fd2pageno then some ixNoPage else s.field IxPage.nextLeaf q) ∧
    ∀ q, (halved s p parent leaf l).field IxPage.prevLeaf q =
      if q = s.fd2pageno then some ixNoPage else s.field IxPage.prevLeaf q := by
  have fresh : ∀ {α : Type} (w : α), s.created.field (fun _ => w) s.fd2pageno = some w := fun w => createdHere s _
  have there : ∀ {α : Type} (w : α), s.created.field (fun _ => w) p = some w := fun w =>
    (createdOther old).trans (fieldConst (fieldHas pairs) w)
  refine ⟨⟨?_,?_,rfl,rfl,rfl,rfl,createdUnused unused⟩,?_,?_,?_⟩ <;> intro q <;>
    simp only [halved,setPairs,fieldUpd,old,if_false,fresh,there] <;>
    by_cases here : q = p <;> by_cases new : q = s.fd2pageno <;> simp_all [createdOther]

section Run
variable {node : IxPage K}

theorem splitHalves (unused : s.NextUnused) (here : s.pages p = some node) (old : p ≠ s.fd2pageno)
    (room : node.pairs.length-node.pairs.length/2 ≤ s.getMaxSize) :
    split p s = (do
      if node.isLeaf then
        setPrevLeaf s.fd2pageno p
        setNextLeaf s.fd2pageno node.nextLeaf
        setPrevLeaf node.nextLeaf s.fd2pageno
        setNextLeaf p s.fd2pageno
        setHdr fun hdr => if hdr.lastLeaf = p then {hdr with lastLeaf := s.fd2pageno} else hdr
      else
        maintainChildren s.fd2pageno (List.range (node.size-node.size/2))
      pure (s.fd2pageno : Int) : M (IxIndexHandle K) Int) (halved s p node.parent node.isLeaf node.pairs) := by
  have still : s.created.pages p = some node := by simpa [created,old] using here
  have fresh := createdHas s
  have blank : (s.created.upd s.fd2pageno fun _ => ⟨node.parent,node.isLeaf,ixNoPage,ixNoPage,[]⟩).field
      IxPage.pairs s.fd2pageno = some ([] ++ []) := fieldSet fresh fun _ => rfl
  have copied : insertPairs s.fd2pageno 0 (node.pairs.drop (node.size/2)) _ = .ok () _ :=
    insertPairsRun blank rfl (by simpa [created,getMaxSize,IxPage.size] using room)
  simp only [split]
  rw [bindEq (createNodeRun unused),bindEq (fetchNodeRun still),bindEq (modifyNodeRun fresh),bindEq copied]
  have known : (((s.created.upd s.fd2pageno fun _ => ⟨node.parent,node.isLeaf,ixNoPage,ixNoPage,[]⟩).setPairs
      s.fd2pageno ([] ++ node.pairs.drop (node.size/2) ++ []))).field IxPage.pairs p = some node.pairs := by
    rw [pairsOther old,fieldOther old,createdOther old]
    simp [field,here]
  rw [bindEq (modifyNodeRun (fieldHas known))]
  have same := @updPairs _ _ _ _ (fun x => {x with pairs := x.pairs.take (node.size/2)})
    (fun l => l.take (node.size/2)) known (fun _ => rfl)
  rw [same,halved]
  simp only [List.nil_append,List.append_nil,IxPage.size]

theorem splitLeafRun (unused : s.NextUnused) (here : s.pages p = some node) (old : p ≠ s.fd2pageno) (isLeaf : node.isLeaf = true)
    (room : node.pairs.length-node.pairs.length/2 ≤ s.getMaxSize) (later : node.nextLeaf ≠ s.fd2pageno)
    {w : Int} (next : s.field IxPage.prevLeaf node.nextLeaf = some w) :
    ∃ t, split p s = .ok (s.fd2pageno : Int) t ∧ Halved s t p node.pairs ∧
      (∀ q, t.field IxPage.parent q = if q = s.fd2pageno then some node.parent else s.field IxPage.parent q) ∧
      (∀ q, t.field IxPage.nextLeaf q = if q = p then some (s.fd2pageno : Int) else
        if q = s.fd2pageno then some node.nextLeaf else s.field IxPage.nextLeaf q) ∧
      (∀ q, t.field IxPage.prevLeaf q = if q = node.nextLeaf then some (s.fd2pageno : Int) else
        if q = s.fd2pageno then some p else s.field IxPage.prevLeaf q) ∧
      t.fileHdr.lastLeaf = if s.fileHdr.lastLeaf = p then (s.fd2pageno : Int) else s.fileHdr.lastLeaf := by
  have pairs : s.field IxPage.pairs p = some node.pairs := by simp [field,here]
  have leaf : s.field IxPage.isLeaf p = some node.isLeaf := by simp [field,here]
  obtain ⟨half,parent,nexts,prevs⟩ := @halvedFields _ _ _ _ node.parent node.isLeaf unused old pairs leaf
  generalize state : halved s p node.parent node.isLeaf node.pairs = t0 at half parent nexts prevs
  have hasNew : t0.Has s.fd2pageno := fieldHas (by rw [prevs,if_pos rfl])
  have hasP : t0.Has p := by
    have known := nexts p
    rw [if_neg old] at known
    have kept : s.field IxPage.nextLeaf p = some node.nextLeaf := by simp [field,here]
    exact fieldHas (known.trans kept)
  have hasNext : t0.Has node.nextLeaf := fieldHas (by rw [prevs,if_neg later,next])
  rw [splitHalves unused here old room,state]
  simp only [isLeaf,if_true,setPrevLeaf,setNextLeaf]
  rw [bindEq (modifyNodeRun hasNew),bindEq (modifyNodeRun (by simpa using hasNew)),
    bindEq (modifyNodeRun (by simpa using hasNext)),bindEq (modifyNodeRun (by simpa using hasP))]
  rw [bindEq (setHdrRun _ _)]
  have constNew : ∀ v : Int, t0.field (fun _ => v) s.fd2pageno = some v := fieldConst hasNew
  have constNext : ∀ v : Int, t0.field (fun _ => v) node.nextLeaf = some v := fieldConst hasNext
  have constP : ∀ v : Int, t0.field (fun _ => v) p = some v := fieldConst hasP
  refine ⟨_,rfl,⟨?_,?_,?_,?_,?_,half.next,half.file⟩,?_,?_,?_,?_⟩
  · simpa using half.pairs
  · simpa using half.leaf
  · by_cases tail : t0.fileHdr.lastLeaf = p <;> simp [withHdr,tail,half.rootPage]
  · by_cases tail : t0.fileHdr.lastLeaf = p <;> simp [withHdr,tail,half.order]
  · by_cases tail : t0.fileHdr.lastLeaf = p <;> simp [withHdr,tail,half.firstLeaf]
  · simpa using parent
  · intro q
    by_cases atP : q = p <;> by_cases atNew : q = s.fd2pageno <;>
      simp_all [fieldUpd]
  · intro q
    by_cases atNext : q = node.nextLeaf <;> by_cases atNew : q = s.fd2pageno <;>
      simp_all [fieldUpd]
  · have last : t0.fileHdr.lastLeaf = s.fileHdr.lastLeaf := by rw [← state]; rfl
    simp only [withHdr,updHdr,last]
    split <;> simp_all

theorem splitInnerRun (unused : s.NextUnused) (here : s.pages p = some node) (old : p ≠ s.fd2pageno) (inner : node.isLeaf = false)
    (room : node.pairs.length-node.pairs.length/2 ≤ s.getMaxSize)
    (kids : ∀ c ∈ childPages node.pairs, c ≠ s.fd2pageno ∧ s.field IxPage.parent c = some p) :
    ∃ t, split p s = .ok (s.fd2pageno : Int) t ∧ Halved s t p node.pairs ∧
      (∀ q, q ∉ childPages (node.pairs.drop (node.pairs.length/2)) → t.field IxPage.parent q =
        if q = s.fd2pageno then some node.parent else s.field IxPage.parent q) ∧
      (∀ q ∈ childPages (node.pairs.drop (node.pairs.length/2)), t.field IxPage.parent q = some (s.fd2pageno : Int)) ∧
      (∀ q : Int, q ≠ s.fd2pageno → t.field IxPage.nextLeaf q = s.field IxPage.nextLeaf q) ∧
      (∀ q : Int, q ≠ s.fd2pageno → t.field IxPage.prevLeaf q = s.field IxPage.prevLeaf q) ∧
      t.fileHdr.lastLeaf = s.fileHdr.lastLeaf := by
  have pairs : s.field IxPage.pairs p = some node.pairs := by simp [field,here]
  have leaf : s.field IxPage.isLeaf p = some node.isLeaf := by simp [field,here]
  obtain ⟨half,parent,nexts,prevs⟩ := @halvedFields _ _ _ _ node.parent node.isLeaf unused old pairs leaf
  have last : (halved s p node.parent node.isLeaf node.pairs).fileHdr.lastLeaf = s.fileHdr.lastLeaf := rfl
  rw [splitHalves unused here old room]
  generalize halved s p node.parent node.isLeaf node.pairs = t0 at half parent nexts prevs last
  have right : ∀ c ∈ childPages (node.pairs.drop (node.pairs.length/2)), c ∈ childPages node.pairs := by
    intro c mem
    exact List.map_subset _ (List.drop_subset _ _) mem
  have moved : maintainChildren s.fd2pageno (List.range (node.size-node.size/2)) t0 =
      .ok () (t0.adopt s.fd2pageno (childPages (node.pairs.drop (node.pairs.length/2)))) := by
    refine @maintainChildrenRun _ _ _ (node.pairs.drop (node.pairs.length/2)) _ _ ?_ ?_ ?_
    · rw [half.leaf,if_pos rfl,leaf,inner]
    · rw [half.pairs,if_neg (Ne.symm old),if_pos rfl]
    · rw [List.forall₂_iff_get]
      refine ⟨by simp [IxPage.size],?_⟩
      intro i small smaller
      have bound : i < (node.pairs.drop (node.pairs.length/2)).length := by simpa using smaller
      refine ⟨(node.pairs.drop (node.pairs.length/2))[i],p,by simp,by simp,?_⟩
      obtain ⟨new,known⟩ := kids _ (right _ (List.get_mem _ ⟨i,smaller⟩))
      rw [parent,if_neg new,known]
  simp only [inner,Bool.false_eq_true,if_false]
  rw [bindEq moved]
  obtain ⟨hdr,next,file⟩ := @adoptHdr _ (s.fd2pageno : Int) (childPages (node.pairs.drop (node.pairs.length/2))) t0
  refine ⟨_,rfl,⟨?_,?_,?_,?_,?_,?_,?_⟩,?_,?_,?_,?_,?_⟩
  · intro q; rw [adoptKeep fun _ => rfl]; exact half.pairs q
  · intro q; rw [adoptKeep fun _ => rfl]; exact half.leaf q
  · rw [hdr]; exact half.rootPage
  · rw [hdr]; exact half.order
  · rw [hdr]; exact half.firstLeaf
  · rw [next]; exact half.next
  · rw [file]; exact half.file
  · intro q away; rw [adoptOther away]; exact parent q
  · intro q mem
    obtain ⟨new,known⟩ := kids q (right q mem)
    have before : t0.field IxPage.parent q = some p := by rw [parent,if_neg new,known]
    exact adoptChild before mem
  · intro q new; rw [adoptKeep fun _ => rfl,nexts,if_neg new]
  · intro q new; rw [adoptKeep fun _ => rfl,prevs,if_neg new]
  · rw [hdr]; exact last

end Run

section Split
variable {nodes : List (Node K)} {n : Node K}

def leftHalf (n : Node K) : Node K := {n with pairs := n.pairs.take (n.pairs.length/2)}

def rightHalf (n : Node K) (new : Int) : Node K := ⟨new,n.leaf,n.pairs.drop (n.pairs.length/2)⟩

theorem Nodes.halve (holds : Nodes s (n :: nodes)) (unused : s.NextUnused) (half : Halved s t n.page n.pairs)
    (moved : n.leaf = false → ∀ c ∈ childPages (rightHalf n s.fd2pageno).pairs,
      t.field IxPage.parent c = some (s.fd2pageno : Int))
    (kept : ∀ c : Int, c ≠ s.fd2pageno → (n.leaf = false → c ∉ childPages (rightHalf n s.fd2pageno).pairs) →
      t.field IxPage.parent c = s.field IxPage.parent c)
    (kidsOnce : n.leaf = false → (childPages n.pairs).Nodup) :
    Nodes t (leftHalf n :: rightHalf n s.fd2pageno :: nodes) := by
  rw [NextUnused] at unused
  have here := holds.range n List.mem_cons_self
  have low : 2 ≤ s.fd2pageno := by omega
  have less : ∀ {c : Int}, c < s.filePages → c ≠ s.fd2pageno ∧ c < t.filePages := by
    intro c small
    rw [half.file]
    omega
  have halves : ∀ c, c ∈ childPages (leftHalf n).pairs → c ∈ childPages n.pairs :=
    fun c mem => List.map_subset _ (List.take_subset _ _) mem
  have rights : ∀ c, c ∈ childPages (rightHalf n s.fd2pageno).pairs → c ∈ childPages n.pairs :=
    fun c mem => List.map_subset _ (List.drop_subset _ _) mem
  -- the halves name different children, and no other node names any of them
  have leftAway : n.leaf = false → ∀ c ∈ childPages (leftHalf n).pairs,
      c ∉ childPages (rightHalf n s.fd2pageno).pairs := by
    intro inner c left right
    have once := kidsOnce inner
    rw [← List.take_append_drop (n.pairs.length/2) n.pairs,childPages,List.map_append] at once
    exact List.disjoint_of_nodup_append once left right
  have otherAway : ∀ u ∈ nodes, u.leaf = false → ∀ c ∈ childPages u.pairs, n.leaf = false →
      c ∉ childPages (rightHalf n s.fd2pageno).pairs := by
    intro u mem inner c child innerN right
    have same := holds.oneParent (List.mem_cons_of_mem _ mem) List.mem_cons_self inner innerN child (rights c right)
    exact holds.apart mem (by rw [same])
  refine ⟨?_,?_,?_,?_,?_,?_⟩
  · intro m mem
    rw [half.pairs]
    rcases List.mem_cons.mp mem with rfl | mem
    · simp [leftHalf]
    · rcases List.mem_cons.mp mem with rfl | mem
      · rw [rightHalf,if_neg (Ne.symm (less here.2).1),if_pos rfl]
      · rw [if_neg (holds.apart mem),if_neg (less (holds.range m (List.mem_cons_of_mem _ mem)).2).1]
        exact holds.pairs m (List.mem_cons_of_mem _ mem)
  · intro m mem
    rw [half.leaf]
    rcases List.mem_cons.mp mem with rfl | mem
    · rw [leftHalf,if_neg (less here.2).1]
      exact holds.leaf n List.mem_cons_self
    · rcases List.mem_cons.mp mem with rfl | mem
      · rw [rightHalf,if_pos rfl]
        exact holds.leaf n List.mem_cons_self
      · rw [if_neg (less (holds.range m (List.mem_cons_of_mem _ mem)).2).1]
        exact holds.leaf m (List.mem_cons_of_mem _ mem)
  · intro u mem inner c child
    rcases List.mem_cons.mp mem with rfl | mem
    · have old := holds.kids n List.mem_cons_self inner c (halves c child)
      rw [kept c (less old).1 fun _ => leftAway inner c child]
      exact holds.parent n List.mem_cons_self inner c (halves c child)
    · rcases List.mem_cons.mp mem with rfl | mem
      · exact moved inner c child
      · have old := holds.kids u (List.mem_cons_of_mem _ mem) inner c child
        rw [kept c (less old).1 (otherAway u mem inner c child)]
        exact holds.parent u (List.mem_cons_of_mem _ mem) inner c child
  · intro u mem inner c child
    rcases List.mem_cons.mp mem with rfl | mem
    · exact (less (holds.kids n List.mem_cons_self inner c (halves c child))).2
    · rcases List.mem_cons.mp mem with rfl | mem
      · exact (less (holds.kids n List.mem_cons_self inner c (rights c child))).2
      · exact (less (holds.kids u (List.mem_cons_of_mem _ mem) inner c child)).2
  · have once := holds.once
    rw [List.map_cons,List.nodup_cons] at once
    rw [List.map_cons,List.map_cons,List.nodup_cons,List.nodup_cons]
    refine ⟨?_,?_,once.2⟩
    · rw [List.mem_cons,not_or]
      exact ⟨(less here.2).1,once.1⟩
    · intro mem
      obtain ⟨m,mem,same⟩ := List.mem_map.mp mem
      exact (less (holds.range m (List.mem_cons_of_mem _ mem)).2).1 same
  · intro m mem
    rcases List.mem_cons.mp mem with rfl | mem
    · exact ⟨here.1,(less here.2).2⟩
    · rcases List.mem_cons.mp mem with rfl | mem
      · rw [half.file]
        exact ⟨low,lt_add_one _⟩
      · obtain ⟨low,high⟩ := holds.range m (List.mem_cons_of_mem _ mem)
        exact ⟨low,(less high).2⟩

variable {below ups : List (Level K)} {A B : Level K}

theorem halvesPerm (below ups : List (Level K)) (A B : Level K) (l r : Node K) :
    (below ++ (A ++ l :: r :: B) :: ups).flatten.Perm (l :: r :: (below ++ (A ++ B) :: ups).flatten) :=
  (focusPerm below ups A (r :: B) l).trans ((focusPerm below ups A B r).cons l)

structure SplitOff (s t : IxIndexHandle K) (p : Int) : Prop where
  root : t.fileHdr.rootPage = s.fileHdr.rootPage
  order : t.fileHdr.btreeOrder = s.fileHdr.btreeOrder
  unused : t.NextUnused
  parent : ∀ q : Int, q ≠ s.fd2pageno → s.field IxPage.parent q ≠ some p →
    t.field IxPage.parent q = s.field IxPage.parent q
  own : t.field IxPage.parent p = s.field IxPage.parent p
  sibling : t.field IxPage.parent s.fd2pageno = s.field IxPage.parent p

theorem splitTree (tree : Tree s (below ++ (A ++ n :: B) :: ups)) (unused : s.NextUnused)
    (room : n.pairs.length-n.pairs.length/2 ≤ s.getMaxSize) (kidsOnce : n.leaf = false → (childPages n.pairs).Nodup)
    (self : n.leaf = false → n.page ∉ childPages n.pairs) :
    ∃ t, split n.page s = .ok (s.fd2pageno : Int) t ∧
      Tree t (below ++ (A ++ leftHalf n :: rightHalf n s.fd2pageno :: B) :: ups) ∧ SplitOff s t n.page := by
  have holds := tree.focus
  obtain ⟨low,high⟩ := holds.range n List.mem_cons_self
  have old : n.page ≠ s.fd2pageno := by
    rw [NextUnused] at unused
    omega
  obtain ⟨node,here,pairs⟩ := fieldSome (holds.pairs n List.mem_cons_self)
  have kind : node.isLeaf = n.leaf := by
    have leaf := holds.leaf n List.mem_cons_self
    simpa [field,here] using leaf
  have rebuilt : ∀ t, Nodes t (leftHalf n :: rightHalf n s.fd2pageno :: (below ++ (A ++ B) :: ups).flatten) →
      Nodes t (below ++ (A ++ leftHalf n :: rightHalf n s.fd2pageno :: B) :: ups).flatten :=
    fun t nodes => nodes.perm (halvesPerm below ups A B _ _).symm
  cases below with
  | nil =>
    have isLeaf : n.leaf = true := tree.kind.mpr rfl
    have links := tree.links
    simp only [List.nil_append,List.headD_cons,List.map_append,List.map_cons] at links
    have once := tree.headerOnce
    simp only [List.map_append,List.map_cons] at once
    obtain ⟨nextP,prevNext⟩ := (links.around).choose_spec.2.2.1
    have follow : node.nextLeaf = follower (B.map Node.page) := by simpa [field,here] using nextP
    have fresh : (s.fd2pageno : Int) ∉ ixLeafHeaderPage :: (A.map Node.page ++ n.page :: B.map Node.page) := by
      intro mem
      exact tree.linkOld unused focusMem (by simpa using mem) rfl
    have later : node.nextLeaf ≠ s.fd2pageno := by
      rw [follow]
      intro same
      obtain ⟨rest,tail,_⟩ := followerCons (B.map Node.page)
      have mem : follower (B.map Node.page) ∈ B.map Node.page ++ [ixLeafHeaderPage] := by simp [tail]
      apply fresh
      rw [← same]
      simp only [List.mem_append,List.mem_cons] at mem ⊢
      tauto
    obtain ⟨t,run,half,parent,next,prev,last⟩ := splitLeafRun unused here old (kind.trans isLeaf) (by rwa [pairs]) later
      (by rw [follow]; exact prevNext)
    rw [pairs] at half
    refine ⟨t,run,⟨?_,?_,?_,tree.inner⟩,⟨half.rootPage,half.order,half.unused,?_,?_,?_⟩⟩
    · refine rebuilt t (holds.halve unused half ?_ ?_ ?_)
      · intro inner; rw [isLeaf] at inner; cases inner
      · intro c new _; rw [parent,if_neg new]
      · intro inner; rw [isLeaf] at inner; cases inner
    · simp only [List.nil_append,List.headD_cons,List.map_append,List.map_cons]
      rw [follow] at next prev
      exact links.insert once fresh next prev half.firstLeaf last
    · intro m mem
      simp only [List.nil_append,List.headD_cons,List.mem_append,List.mem_cons] at mem
      rcases mem with mem | rfl | rfl | mem
      · exact tree.leaves m (by simp [mem])
      · exact isLeaf
      · exact isLeaf
      · exact tree.leaves m (by simp [mem])
    · intro q new _; rw [parent,if_neg new]
    · rw [parent,if_neg old]
    · rw [parent,if_pos rfl]
      simp [field,here]
  | cons lv below =>
    have inner : n.leaf = false := by
      have kindOf := tree.kind
      cases leaf : n.leaf with
      | false => rfl
      | true => exact absurd (kindOf.mp leaf) (by simp)
    have kids : ∀ c ∈ childPages node.pairs, c ≠ s.fd2pageno ∧ s.field IxPage.parent c = some n.page := by
      intro c mem
      rw [pairs] at mem
      have less := holds.kids n List.mem_cons_self inner c mem
      exact ⟨(less.trans_le unused).ne,holds.parent n List.mem_cons_self inner c mem⟩
    obtain ⟨t,run,half,kept,moved,next,prev,last⟩ := splitInnerRun unused here old (kind.trans inner) (by rwa [pairs]) kids
    rw [pairs] at half kept moved
    refine ⟨t,run,⟨?_,?_,tree.leaves,?_⟩,⟨half.rootPage,half.order,half.unused,?_,?_,?_⟩⟩
    · refine rebuilt t (holds.halve unused half (fun _ => moved) ?_ kidsOnce)
      intro c new away
      rw [kept c (away inner),if_neg new]
    · refine tree.links.congr ?_ ?_ half.firstLeaf last
      · intro q mem
        exact next q (tree.linkOld unused focusMem mem)
      · intro q mem
        refine prev q (tree.linkOld unused focusMem ?_)
        rw [List.mem_append,List.mem_singleton] at mem
        exact List.mem_cons.mpr mem.symm
    · intro lv' mem m memm
      simp only [List.cons_append,List.tail_cons,List.mem_append,List.mem_cons] at mem
      rcases mem with mem | rfl | mem
      · exact tree.inner lv' (by simp [mem]) m memm
      · simp only [List.mem_append,List.mem_cons] at memm
        rcases memm with memm | rfl | rfl | memm
        · exact tree.inner (A ++ n :: B) (by simp) m (by simp [memm])
        · exact inner
        · exact inner
        · exact tree.inner (A ++ n :: B) (by simp) m (by simp [memm])
      · exact tree.inner lv' (by simp [mem]) m memm
    · intro q new away
      refine (kept q ?_).trans (if_neg new)
      intro mem
      have child := kids q (by rw [pairs]; exact List.map_subset _ (List.drop_subset _ _) mem)
      exact away child.2
    · have own : n.page ∉ childPages (n.pairs.drop (n.pairs.length/2)) :=
        fun mem => self inner (List.map_subset _ (List.drop_subset _ _) mem)
      rw [kept _ own,if_neg old]
    · have new : (s.fd2pageno : Int) ∉ childPages (n.pairs.drop (n.pairs.length/2)) := by
        intro mem
        exact (kids _ (by rw [pairs]; exact List.map_subset _ (List.drop_subset _ _) mem)).1 rfl
      rw [kept _ new,if_pos rfl]
      simp [field,here]

end Split
end Rmdb.Index
