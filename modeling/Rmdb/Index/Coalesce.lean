import Rmdb.Index.Redistribute

/-! `coalesce`: the right one of two neighbours is emptied into the left one and its entry
leaves the parent. Its page stays allocated but is no longer part of the tree. -/
namespace Rmdb.Index
open Lib IxIndexHandle
variable {K : Type} {s t : IxIndexHandle K}

/- `coalesce` cut in two: what happens on the level of the neighbours, and in the parent. -/
def absorb (left right : Int) : M (IxIndexHandle K) Unit := do
  let leftNode ← fetchNode left
  let rightNode ← fetchNode right
  insertPairs left leftNode.size rightNode.pairs
  if leftNode.isLeaf then
    setHdr fun hdr => if hdr.lastLeaf = right then {hdr with lastLeaf := left} else hdr
    eraseLeaf right
  else
    maintainChildren left (List.range' leftNode.size rightNode.size)

theorem iteBind {α β : Type} {p : Prop} [Decidable p] (x y : M (IxIndexHandle K) α) (f : α → M (IxIndexHandle K) β) :
    (if p then x else y) >>= f = if p then x >>= f else y >>= f := by
  split <;> rfl

section Bridge
variable {p q r : Int}

def bridged (s : IxIndexHandle K) (p q : Int) : IxIndexHandle K :=
  (s.upd p fun x => {x with nextLeaf := q}).upd q fun x => {x with prevLeaf := p}

@[simp] theorem bridgedHdr : (bridged s p q).fileHdr = s.fileHdr := rfl

theorem bridgedCounters : (bridged s p q).counters = s.counters := rfl

@[simp] theorem bridgedFile : (bridged s p q).filePages = s.filePages := rfl

theorem bridgedKeep {α : Type} {φ : IxPage K → α} (next : ∀ x v, φ {x with nextLeaf := v} = φ x)
    (prev : ∀ x v, φ {x with prevLeaf := v} = φ x) : (bridged s p q).field φ r = s.field φ r := by
  rw [bridged,fieldKeep fun x => prev x p,fieldKeep fun x => next x q]

theorem bridgedNext (has : s.Has p) :
    (bridged s p q).field IxPage.nextLeaf r = if r = p then some q else s.field IxPage.nextLeaf r := by
  have same : (bridged s p q).field IxPage.nextLeaf r = (s.upd p fun x => {x with nextLeaf := q}).field IxPage.nextLeaf r :=
    fieldKeep fun _ => rfl
  rw [same,fieldUpd,fieldConst has]

theorem bridgedPrev (has : s.Has q) :
    (bridged s p q).field IxPage.prevLeaf r = if r = q then some p else s.field IxPage.prevLeaf r := by
  have same : (s.upd p fun x => {x with nextLeaf := q}).field IxPage.prevLeaf r = s.field IxPage.prevLeaf r :=
    fieldKeep fun _ => rfl
  rw [bridged,fieldUpd,fieldConst (updHas.mpr has),same]

theorem bridgeRun (hasp : s.Has p) (hasq : s.Has q) :
    (setNextLeaf p q >>= fun _ => setPrevLeaf q p) s = .ok () (bridged s p q) := by
  simp only [setNextLeaf,setPrevLeaf]
  rw [bindEq (modifyNodeRun hasp)]
  exact modifyNodeRun (updHas.mpr hasq)

end Bridge

section Absorb
variable {below ups : List (Level K)} {A B : Level K} {l r : Node K}

/- What the rest of the index sees of a merge. -/
structure Absorbed (s t : IxIndexHandle K) : Prop where
  root : t.fileHdr.rootPage = s.fileHdr.rootPage
  order : t.fileHdr.btreeOrder = s.fileHdr.btreeOrder
  counters : t.counters = s.counters
  parent : ∀ q, s.field IxPage.parent q = some ixNoPage → t.field IxPage.parent q = some ixNoPage

theorem mergedKind {n : Node K} (mem : n ∈ A ++ {l with pairs := l.pairs ++ r.pairs} :: B) :
    ∃ m ∈ A ++ l :: r :: B, n.leaf = m.leaf := by
  simp only [List.mem_append,List.mem_cons] at mem
  rcases mem with mem | rfl | mem
  · exact ⟨n,by simp [mem],rfl⟩
  · exact ⟨l,by simp,rfl⟩
  · exact ⟨n,by simp [mem],rfl⟩

theorem absorbInner {lv : Level K} (tree : Tree s (lv :: below ++ (A ++ l :: r :: B) :: ups)) (kind : l.leaf = false)
    (same : r.leaf = false) (room : l.pairs.length+r.pairs.length ≤ s.getMaxSize) :
    ∃ t, absorb l.page r.page s = .ok () t ∧
      Tree t (lv :: below ++ (A ++ {l with pairs := l.pairs ++ r.pairs} :: B) :: ups) ∧ Absorbed s t := by
  have holds := (tree.nodes.perm (halvesPerm (lv :: below) ups A B l r)).perm (List.Perm.swap r l _)
  obtain ⟨nodel,atl,pairsl⟩ := fieldSome (tree.nodes.pairs l (by simp))
  obtain ⟨noder,atr,pairsr⟩ := fieldSome (tree.nodes.pairs r (by simp))
  have known := tree.nodes.pairs l (by simp)
  have kids := holds.parent r List.mem_cons_self same
  have low := (holds.range r List.mem_cons_self).1
  have isLeaf : nodel.isLeaf = false := by
    have leaf := tree.nodes.leaf l (by simp)
    rw [field,atl,kind] at leaf
    exact Option.some.inj leaf
  have put := @insertPairsRun _ s l.page l.pairs [] l.pairs.length r.pairs (by rw [known,List.append_nil]) rfl
    (by simpa using room)
  rw [List.append_nil] at put
  have moved : maintainChildren l.page (List.range' l.pairs.length r.pairs.length)
      (s.setPairs l.page (l.pairs ++ r.pairs)) =
      .ok () ((s.setPairs l.page (l.pairs ++ r.pairs)).adopt l.page (childPages r.pairs)) := by
    refine @maintainChildrenRun _ _ _ (l.pairs ++ r.pairs) _ _ ?_ (pairsSet (fieldHas known)) ?_
    · rw [pairsLeaf,tree.nodes.leaf l (by simp),kind]
    · rw [List.forall₂_iff_get]
      refine ⟨by simp,?_⟩
      intro i small smaller
      have bound : i < r.pairs.length := by simpa using smaller
      refine ⟨r.pairs[i],r.page,by simp [List.getElem?_append_right],by simp,?_⟩
      rw [pairsParent]
      exact kids _ (List.get_mem _ ⟨i,smaller⟩)
  have nodes := @Nodes.absorb _ _ _ (childPages r.pairs) _ _ holds (kind.trans same.symm) (by simp [same]) (fun _ => rfl)
  have hdr := (@adoptHdr _ l.page (childPages r.pairs) (s.setPairs l.page (l.pairs ++ r.pairs))).1
  refine ⟨_,?_,tree.relevel (nodes.perm (focusPerm (lv :: below) ups A B _).symm) (fun n mem => mergedKind mem) ?_,
    ⟨by rw [hdr,pairsHdr],by rw [hdr,pairsHdr],adoptCounters,?_⟩⟩
  · simp only [absorb]
    rw [bindEq (fetchNodeRun atl),bindEq (fetchNodeRun atr),IxPage.size,IxPage.size,pairsl,pairsr,bindEq put,isLeaf]
    exact moved
  · refine tree.links.congr ?_ ?_ (by rw [hdr,pairsHdr]) (by rw [hdr,pairsHdr])
    · intro q _; rw [adoptKeep fun _ => rfl,pairsNext]
    · intro q _; rw [adoptKeep fun _ => rfl,pairsPrev]
  · intro q none
    have away : q ∉ childPages r.pairs := by
      intro child
      have same := Option.some.inj (none.symm.trans (kids q child))
      simp only [ixNoPage] at same
      omega
    rw [adoptOther away,pairsParent]
    exact none

theorem absorbLeaf (tree : Tree s ((A ++ l :: r :: B) :: ups)) (room : l.pairs.length+r.pairs.length ≤ s.getMaxSize) :
    ∃ t, absorb l.page r.page s = .ok () t ∧
      Tree t ((A ++ {l with pairs := l.pairs ++ r.pairs} :: B) :: ups) ∧ Absorbed s t := by
  have holds := (tree.nodes.perm (halvesPerm [] ups A B l r)).perm (List.Perm.swap r l _)
  have kind : l.leaf = true := tree.leaves l (by simp)
  have same : r.leaf = true := tree.leaves r (by simp)
  obtain ⟨nodel,atl,pairsl⟩ := fieldSome (tree.nodes.pairs l (by simp))
  obtain ⟨noder,atr,pairsr⟩ := fieldSome (tree.nodes.pairs r (by simp))
  have known := tree.nodes.pairs l (by simp)
  have isLeafl : nodel.isLeaf = true := by
    have leaf := tree.nodes.leaf l (by simp)
    rw [field,atl,kind] at leaf
    exact Option.some.inj leaf
  have isLeafr : noder.isLeaf = true := by
    have leaf := tree.nodes.leaf r (by simp)
    rw [field,atr,same] at leaf
    exact Option.some.inj leaf
  have put := @insertPairsRun _ s l.page l.pairs [] l.pairs.length r.pairs (by rw [known,List.append_nil]) rfl
    (by simpa using room)
  rw [List.append_nil] at put
  have links := tree.links
  simp only [List.headD_cons,List.map_append,List.map_cons] at links
  have once := tree.headerOnce
  simp only [List.map_append,List.map_cons] at once
  obtain ⟨_,_,_,leftLink,_⟩ := links.around
  obtain ⟨prevr,nextr,prevf⟩ : s.field IxPage.prevLeaf r.page = some l.page ∧
      s.field IxPage.nextLeaf r.page = some (follower (B.map Node.page)) ∧
      s.field IxPage.prevLeaf (follower (B.map Node.page)) = some r.page := by
    have shape : A.map Node.page ++ l.page :: r.page :: B.map Node.page =
        (A.map Node.page ++ [l.page]) ++ r.page :: B.map Node.page := by simp
    obtain ⟨_,_,_,rightLink,_⟩ := (shape ▸ links : Links s _).around
    exact ⟨leftLink.2,rightLink.1,rightLink.2⟩
  have prevIs : noder.prevLeaf = l.page := by
    rw [field,atr] at prevr
    exact Option.some.inj prevr
  have nextIs : noder.nextLeaf = follower (B.map Node.page) := by
    rw [field,atr] at nextr
    exact Option.some.inj nextr
  have apart : r.page ≠ l.page := Ne.symm (holds.apart List.mem_cons_self)
  have nodes := @Nodes.absorb _ s _ [] l r holds (kind.trans same.symm) (fun _ => rfl) (by simp [same])
  generalize hdrIs : (fun hdr : IxFileHdr => if hdr.lastLeaf = r.page then {hdr with lastLeaf := l.page} else hdr) = change
  have atr' : ((s.setPairs l.page (l.pairs ++ r.pairs)).withHdr change).pages r.page = some noder := by
    simpa [withHdr,setPairs,upd,apart] using atr
  have hasl : ((s.setPairs l.page (l.pairs ++ r.pairs)).withHdr change).Has l.page := by
    obtain ⟨x,here⟩ := (pairsHas (p := l.page) (l := l.pairs ++ r.pairs)).mpr (fieldHas known)
    exact ⟨x,here⟩
  have hasf : ((s.setPairs l.page (l.pairs ++ r.pairs)).withHdr change).Has (follower (B.map Node.page)) := by
    obtain ⟨x,here⟩ := (pairsHas (p := l.page) (l := l.pairs ++ r.pairs)).mpr (fieldHas prevf)
    exact ⟨x,here⟩
  have kept : ∀ hdr, (change hdr).rootPage = hdr.rootPage ∧ (change hdr).btreeOrder = hdr.btreeOrder ∧
      (change hdr).firstLeaf = hdr.firstLeaf ∧
      (change hdr).lastLeaf = if hdr.lastLeaf = r.page then l.page else hdr.lastLeaf := by
    intro hdr
    rw [← hdrIs]
    by_cases last : hdr.lastLeaf = r.page <;> simp [last]
  generalize base : (s.setPairs l.page (l.pairs ++ r.pairs)).withHdr change = s2 at atr' hasl hasf
  have fields : ∀ {α : Type} (φ : IxPage K → α) (q : Int),
      s2.field φ q = (s.setPairs l.page (l.pairs ++ r.pairs)).field φ q := by
    intro α φ q; rw [← base,hdrField]
  have hdr2 : s2.fileHdr = change s.fileHdr := by rw [← base]; rfl
  refine ⟨bridged s2 l.page (follower (B.map Node.page)),?_,@Tree.relevel _ _ _ [] _ _ _ tree ?_ (fun n mem => mergedKind mem) ?_,
    ⟨?_,?_,by rw [bridgedCounters,← base]; rfl,?_⟩⟩
  · simp only [absorb]
    rw [bindEq (fetchNodeRun atl),bindEq (fetchNodeRun atr),IxPage.size,IxPage.size,pairsl,pairsr,bindEq put,isLeafl,
      if_pos rfl,hdrIs,bindEq (setHdrRun _ _),base]
    simp only [eraseLeaf]
    rw [bindEq (fetchNodeRun atr'),bindEq (assertRun isLeafr _),prevIs,nextIs]
    exact bridgeRun hasl hasf
  · refine (nodes.congr ?_ ?_ ?_ ?_).perm (focusPerm [] ups A B _).symm
    · intro q; rw [bridgedKeep (fun _ _ => rfl) (fun _ _ => rfl),fields]; rfl
    · intro q; rw [bridgedKeep (fun _ _ => rfl) (fun _ _ => rfl),fields]; rfl
    · intro q; rw [bridgedKeep (fun _ _ => rfl) (fun _ _ => rfl),fields]; rfl
    · rw [bridgedFile,← base]; rfl
  · have shorter := @Links.erase _ s (bridged s2 l.page (follower (B.map Node.page))) _ _ _ _ links once ?_ ?_
      (by rw [bridgedHdr,hdr2]; exact (kept s.fileHdr).2.2.1) (by rw [bridgedHdr,hdr2]; exact (kept s.fileHdr).2.2.2)
    · simpa using shorter
    · intro q; rw [bridgedNext hasl,fields,pairsNext]
    · intro q; rw [bridgedPrev hasf,fields,pairsPrev]
  · rw [bridgedHdr,hdr2]; exact (kept s.fileHdr).1
  · rw [bridgedHdr,hdr2]; exact (kept s.fileHdr).2.1
  · intro q none
    rw [bridgedKeep (fun _ _ => rfl) (fun _ _ => rfl),fields,pairsParent]
    exact none

end Absorb

variable [IxKey K]

def dropEntry (again : Int → M (IxIndexHandle K) Bool) (fuel : Nat) (left parent : Int) (index : Nat) :
    M (IxIndexHandle K) Bool := do
  erasePair parent index
  let parentNode ← fetchNode parent
  if 0 < parentNode.size then
    let leftIdx ← findChild parent left
    let leftKey ← getKey left 0
    setKey parent leftIdx leftKey
    maintainParent fuel parent
  again parent

theorem coalesceEq (again : Int → M (IxIndexHandle K) Bool) (neighbor node parent : Int) (index : Nat) :
    coalesce again neighbor node parent index s = if index = 0 then
      (absorb node neighbor >>= fun _ => dropEntry again s.filePages node parent 1) s else
      (absorb neighbor node >>= fun _ => dropEntry again s.filePages neighbor parent index) s := by
  cases index with
  | zero => simp only [coalesce,getBind,absorb,dropEntry,if_true,bind_assoc,iteBind]
  | succ i => simp only [coalesce,getBind,absorb,dropEntry,Nat.succ_ne_zero,if_false,bind_assoc,iteBind]

section Coalesce
variable {below rest : List (Level K)} {A B U W : Level K} {l r u : Node K} {a b : List (K × Rid)}

omit [IxKey K] in
theorem absorbTree {ups : List (Level K)} (tree : Tree s (below ++ (A ++ l :: r :: B) :: ups))
    (room : l.pairs.length+r.pairs.length ≤ s.getMaxSize) :
    ∃ t, absorb l.page r.page s = .ok () t ∧
      Tree t (below ++ (A ++ {l with pairs := l.pairs ++ r.pairs} :: B) :: ups) ∧ Absorbed s t := by
  cases below with
  | nil => exact absorbLeaf tree room
  | cons lv below =>
    have inner := tree.inner (A ++ l :: r :: B) (by simp)
    exact absorbInner tree (inner l (by simp)) (inner r (by simp)) room

theorem coalesceTree {f : Int → M (IxIndexHandle K) Bool} (w : Window A l r B U u W a b)
    (tree : Tree s (below ++ (A ++ l :: r :: B) :: (U ++ u :: W) :: rest))
    (room : l.pairs.length+r.pairs.length ≤ s.getMaxSize) (filled : l.pairs ++ r.pairs ≠ [])
    (above : ((U ++ u :: W) :: rest).IsChain Linked) (root : Root s ((U ++ u :: W) :: rest))
    (enough : rest.length < s.filePages) :
    ∃ t rest' v, (absorb l.page r.page >>= fun _ => dropEntry f s.filePages l.page u.page (a.length+1)) s =
        f u.page t ∧
      Repaired s t below (A ++ {l with pairs := l.pairs ++ r.pairs} :: B) U u v W rest rest' ∧
      v.pairs.length+1 = u.pairs.length := by
  obtain ⟨⟨i,j,pairs⟩,left,right⟩ := w
  obtain ⟨s1,absorbed,tree1,off⟩ := absorbTree tree room
  obtain ⟨e,es,isFirst⟩ := List.exists_cons_of_ne_nil filled
  rw [isFirst] at tree1 ⊢
  have memu : u ∈ (below ++ (A ++ {l with pairs := e :: es} :: B) :: (U ++ u :: W) :: rest).flatten := by simp
  have known : s1.field IxPage.pairs u.page = some (a ++ (i,l.ptr) :: (j,r.ptr) :: b) := by
    rw [tree1.nodes.pairs u memu,pairs]
  have first := tree1.nodes.pairs {l with pairs := e :: es} (by simp)
  have apart : l.page ≠ u.page := by
    have all := tree1.nodes.once
    simp only [List.flatten_append,List.flatten_cons,List.map_append,List.map_cons,List.nodup_append] at all
    exact all.2.1.2.2 l.page (by simp) u.page (by simp)
  have before : ∀ e ∈ a, e.2.pageNo ≠ l.page := frontBefore (n := {l with pairs := e :: es}) left tree1.levelOnce
  have erased : erasePair u.page (a.length+1) s1 = .ok () (s1.setPairs u.page (a ++ (i,l.ptr) :: b)) := by
    have pick : a ++ (i,l.ptr) :: (j,r.ptr) :: b = (a ++ [(i,l.ptr)]) ++ (j,r.ptr) :: b := by simp
    have done := erasePairRun (pick ▸ known) (i := a.length+1) (by simp)
    simpa using done
  have now := @pairsSet _ s1 u.page (a ++ (i,l.ptr) :: b) (fieldHas known)
  obtain ⟨node,here,nodePairs⟩ := fieldSome now
  have stays : 0 < node.size := by rw [IxPage.size,nodePairs]; simp
  have kids : ∀ c ∈ childPages (a ++ (e.1,l.ptr) :: b), c ∈ childPages u.pairs := by
    intro c child
    rw [pairs]
    simp only [childPages,List.map_append,List.map_cons,List.mem_append,List.mem_cons] at child ⊢
    tauto
  have shape : below ++ (A ++ {l with pairs := e :: es} :: B) :: (U ++ u :: W) :: rest =
      (below ++ [A ++ {l with pairs := e :: es} :: B]) ++ (U ++ u :: W) :: rest := by simp
  have shorter := @Tree.setPairs _ _ _ _ _ _ _ (a ++ (e.1,l.ptr) :: b) (shape ▸ tree1) (fun inner c child =>
    ⟨tree1.nodes.parent u memu inner c (kids c child),tree1.nodes.kids u memu inner c (kids c child)⟩)
  have tree2 : Tree (s1.setPairs u.page (a ++ (e.1,l.ptr) :: b)) (below ++ (A ++ {l with pairs := e :: es} :: B) ::
      (U ++ {u with pairs := a ++ (e.1,l.ptr) :: b} :: W) :: rest) := by simpa using shorter
  have link : Linked (A ++ {l with pairs := e :: es} :: B) (U ++ {u with pairs := a ++ (e.1,l.ptr) :: b} :: W) := by
    have flatShape : flat (U ++ {u with pairs := a ++ (e.1,l.ptr) :: b} :: W) =
        (flat U ++ a) ++ (e.1,l.ptr) :: (b ++ flat W) := by simp
    rw [Linked,flatShape]
    exact frontJoin left rfl (fun _ => rfl) right
  have root2 := root.replace (m := {u with pairs := a ++ (e.1,l.ptr) :: b})
    (t := s1.setPairs u.page (a ++ (e.1,l.ptr) :: b)) rfl off.root (fun q _ none => by rw [pairsParent]; exact off.parent _ none)
  obtain ⟨t,rest',run,done⟩ := settleTree (u := u) tree2 rfl rfl link above root2 enough (by simp)
  refine ⟨t,rest',_,?_,⟨done.tree,done.linked,done.root,rfl,rfl,done.shape,done.order.trans off.order,
    done.counters.trans off.counters⟩,?_⟩
  · rw [bindEq absorbed]
    simp only [dropEntry]
    rw [bindEq erased,bindEq (fetchNodeRun here),if_pos stays,
      refreshRun (c := l.page) now rfl before ((pairsOther apart).trans first),setPairsTwice,bindEq run]
  · rw [pairs]
    simp only [List.length_append,List.length_cons]
    omega

end Coalesce
end Rmdb.Index
