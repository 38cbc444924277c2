import Rmdb.Index.Siblings

/-! `redistribute`: one pair moves between two neighbours, both entries in the parent are
rewritten, and `maintain_parent` passes a changed first key on. -/
namespace Rmdb.Index
open Lib IxIndexHandle
variable {K : Type} {s t : IxIndexHandle K}

section Runs
variable {α : Type} {p c : Int} {a b : List (K × Rid)} {x e : K × Rid} {rest : List (K × Rid)}
  {cont : M (IxIndexHandle K) α}

theorem setPairsTwice (s : IxIndexHandle K) (p : Int) (l l' : List (K × Rid)) :
    (s.setPairs p l).setPairs p l' = s.setPairs p l' := by
  simp only [setPairs,upd,Function.update_self,Function.update_idem,Option.map_map]
  rfl

theorem refreshRun (known : s.field IxPage.pairs p = some (a ++ x :: b)) (child : x.2.pageNo = c)
    (before : ∀ e ∈ a, e.2.pageNo ≠ c) (first : s.field IxPage.pairs c = some (e :: rest)) :
    (findChild p c >>= fun i => getKey c 0 >>= fun key => setKey p i key >>= fun _ => cont) s =
      cont (s.setPairs p (a ++ (e.1,x.2) :: b)) := by
  have key : getKey c 0 s = .ok e.1 s := getKeyRun first rfl
  rw [bindEq (findChildRun known child before),bindEq key,bindEq (setKeyRun known)]

def movedChild (leaf : Bool) (c : Int) : List Int := if leaf then [] else [c]

theorem movedMem {leaf : Bool} {d : Int} : d ∈ movedChild leaf c ↔ leaf = false ∧ d = c := by
  cases leaf <;> simp [movedChild]

theorem adoptRun {node : IxPage K} {leaf : Bool} {i : Nat} {l : List (K × Rid)} {w : Int} (kind : node.isLeaf = leaf)
    (isLeaf : s.field IxPage.isLeaf p = some leaf) (known : s.field IxPage.pairs p = some l) (at_ : l[i]? = some e)
    (parent : leaf = false → s.field IxPage.parent e.2.pageNo = some w) :
    (if node.isLeaf = false then maintainChild p i >>= fun _ => cont else cont) s =
      cont (s.adopt p (movedChild leaf e.2.pageNo)) := by
  rw [kind]
  cases leaf with
  | true => rfl
  | false =>
    have children : maintainChildren p [i] s = .ok () (s.adopt p [e.2.pageNo]) :=
      maintainChildrenRun isLeaf known (.cons ⟨e,w,at_,rfl,parent rfl⟩ .nil)
    have one : maintainChild p i s = .ok () (s.adopt p [e.2.pageNo]) := by
      simp only [maintainChildren] at children
      obtain ⟨_,_,run,done⟩ := bindOk.mp children
      cases done
      exact run
    rw [if_pos rfl,bindEq one]
    rfl

end Runs

section Shift
variable {nodes : List (Node K)} {giver taker : Node K} {gp tp : List (K × Rid)} {e : K × Rid}

def shifted (s : IxIndexHandle K) (giver taker : Node K) (gp tp : List (K × Rid)) (e : K × Rid) : IxIndexHandle K :=
  ((s.setPairs taker.page tp).setPairs giver.page gp).adopt taker.page (movedChild giver.leaf e.2.pageNo)

theorem shiftedHdr : (shifted s giver taker gp tp e).fileHdr = s.fileHdr := adoptHdr.1

theorem shiftedCounters : (shifted s giver taker gp tp e).counters = s.counters := adoptCounters

theorem shiftedNext {q : Int} : (shifted s giver taker gp tp e).field IxPage.nextLeaf q = s.field IxPage.nextLeaf q := by
  rw [shifted,adoptKeep fun _ => rfl,pairsNext,pairsNext]

theorem shiftedPrev {q : Int} : (shifted s giver taker gp tp e).field IxPage.prevLeaf q = s.field IxPage.prevLeaf q := by
  rw [shifted,adoptKeep fun _ => rfl,pairsPrev,pairsPrev]

theorem Nodes.shift (holds : Nodes s (giver :: taker :: nodes)) (kind : taker.leaf = giver.leaf)
    (kidsOnce : giver.leaf = false → (childPages giver.pairs).Nodup) (give : giver.pairs.Perm (e :: gp))
    (take : tp.Perm (e :: taker.pairs)) :
    Nodes (shifted s giver taker gp tp e) ({taker with pairs := tp} :: {giver with pairs := gp} :: nodes) := by
  have given : (childPages giver.pairs).Perm (e.2.pageNo :: childPages gp) := give.map _
  have taken : (childPages tp).Perm (e.2.pageNo :: childPages taker.pairs) := take.map _
  have less : ∀ c ∈ childPages gp, c ∈ childPages giver.pairs :=
    fun c child => given.mem_iff.mpr (List.mem_cons_of_mem _ child)
  refine holds.exchange kind less ?_ ?_ ?_ (by intro leaf; rw [leaf]; rfl)
  · intro c child inside
    obtain ⟨inner,rfl⟩ := movedMem.mp inside
    have once := given.nodup_iff.mp (kidsOnce inner)
    rw [List.nodup_cons] at once
    exact once.1 child
  · intro _ c inside
    obtain ⟨_,rfl⟩ := movedMem.mp inside
    exact given.mem_iff.mpr List.mem_cons_self
  · intro inner c child
    rcases List.mem_cons.mp (taken.mem_iff.mp child) with rfl | child
    · exact .inr (movedMem.mpr ⟨inner,rfl⟩)
    · exact .inl child

theorem Nodes.shiftRoot (holds : Nodes s (giver :: nodes)) (give : giver.pairs.Perm (e :: gp)) {q : Int}
    (none : s.field IxPage.parent q = some ixNoPage) :
    (shifted s giver taker gp tp e).field IxPage.parent q = some ixNoPage := by
  have away : q ∉ movedChild giver.leaf e.2.pageNo := by
    intro inside
    obtain ⟨inner,rfl⟩ := movedMem.mp inside
    have given : (childPages giver.pairs).Perm (e.2.pageNo :: childPages gp) := give.map _
    have known := holds.parent giver List.mem_cons_self inner _ (given.mem_iff.mpr List.mem_cons_self)
    have low := (holds.range giver List.mem_cons_self).1
    have same := Option.some.inj (none.symm.trans known)
    simp only [ixNoPage] at same
    omega
  rw [shifted,adoptOther away,pairsParent,pairsParent]
  exact none

variable {ga gb ta tb : List (K × Rid)} {node : IxPage K} {α : Type} {cont : M (IxIndexHandle K) α} {i pos : Nat}

theorem Nodes.giveRun (holds : Nodes s (giver :: taker :: nodes)) (kind : taker.leaf = giver.leaf)
    (isLeaf : node.isLeaf = giver.leaf) (give : giver.pairs = ga ++ e :: gb) (take : taker.pairs = ta ++ tb)
    (isAt : i = ga.length) (isPos : pos = ta.length) (room : taker.pairs.length < s.getMaxSize) :
    (pairAt giver.page i >>= fun e => insertPairs taker.page pos [e] >>= fun _ => erasePair giver.page i >>= fun _ =>
      if node.isLeaf = false then maintainChild taker.page pos >>= fun _ => cont else cont) s =
      cont (shifted s giver taker (ga ++ gb) (ta ++ e :: tb) e) := by
  subst isAt isPos
  have memTaker : taker ∈ giver :: taker :: nodes := by simp
  have apart : giver.page ≠ taker.page := Ne.symm (holds.apart List.mem_cons_self)
  have knownGiver := holds.pairs giver List.mem_cons_self
  have knownTaker := holds.pairs taker memTaker
  rw [give] at knownGiver
  rw [take] at knownTaker room
  rw [List.length_append] at room
  have taken : pairAt giver.page ga.length s = .ok e s := pairAtRun knownGiver (by simp)
  have put := @insertPairsRun _ s taker.page ta tb ta.length [e] knownTaker rfl (by simp only [List.length_singleton]; omega)
  rw [List.append_assoc,List.singleton_append] at put
  have erased := @erasePairRun _ (s.setPairs taker.page (ta ++ e :: tb)) giver.page ga gb e ga.length
    ((pairsOther apart).trans knownGiver) rfl
  rw [bindEq taken,bindEq put,bindEq erased]
  refine adoptRun (l := ta ++ e :: tb) (w := giver.page) isLeaf ?_ ?_ (by simp) ?_
  · rw [pairsLeaf,pairsLeaf,holds.leaf taker memTaker,kind]
  · rw [pairsOther (Ne.symm apart)]
    exact pairsSet (fieldHas knownTaker)
  · intro inner
    rw [pairsParent,pairsParent]
    exact holds.parent giver List.mem_cons_self inner _ (by rw [give]; simp)

end Shift

section Refresh
variable {below rest : List (Level K)} {A B U W : Level K} {l r u : Node K} {a b : List (K × Rid)} {el er : K × Rid}
  {ls rs : List (K × Rid)}

variable [IxKey K]

def refreshKeys (fuel : Nat) (parent node neighbor : Int) : M (IxIndexHandle K) Unit := do
  let nodeIdx ← findChild parent node
  let nodeKey ← getKey node 0
  setKey parent nodeIdx nodeKey
  let neighborIdx ← findChild parent neighbor
  let neighborKey ← getKey neighbor 0
  setKey parent neighborIdx neighborKey
  maintainParent fuel parent

theorem refreshBoth (fuel : Nat) (w : Window A l r B U u W a b) (tree : Tree s (below ++ (A ++ l :: r :: B) :: (U ++ u :: W) :: rest))
    (pl : l.pairs = el :: ls) (pr : r.pairs = er :: rs) :
    refreshKeys fuel u.page l.page r.page s =
      maintainParent fuel u.page (s.setPairs u.page (a ++ (el.1,l.ptr) :: (er.1,r.ptr) :: b)) ∧
    refreshKeys fuel u.page r.page l.page s =
      maintainParent fuel u.page (s.setPairs u.page (a ++ (el.1,l.ptr) :: (er.1,r.ptr) :: b)) := by
  obtain ⟨⟨i,j,pairs⟩,left,right⟩ := w
  have once := tree.levelOnce
  have memu : u ∈ (below ++ (A ++ l :: r :: B) :: (U ++ u :: W) :: rest).flatten := by simp
  have known : s.field IxPage.pairs u.page = some (a ++ (i,l.ptr) :: (j,r.ptr) :: b) := by
    rw [tree.nodes.pairs u memu,pairs]
  have firstl := tree.nodes.pairs l (by simp)
  have firstr := tree.nodes.pairs r (by simp)
  rw [pl] at firstl
  rw [pr] at firstr
  have hasu : s.Has u.page := fieldHas known
  obtain ⟨pagel,pager⟩ : l.page ≠ u.page ∧ r.page ≠ u.page := by
    have all := tree.nodes.once
    simp only [List.flatten_append,List.flatten_cons,List.map_append,List.map_cons,List.nodup_append] at all
    have across := all.2.1.2.2
    exact ⟨across l.page (by simp) u.page (by simp),across r.page (by simp) u.page (by simp)⟩
  have members : ∀ e ∈ a, e.2.pageNo ∈ A.map Node.page := by
    intro e mem
    rw [← frontPages left]
    exact List.mem_map_of_mem (List.mem_append_right _ mem)
  simp only [List.map_append,List.map_cons,List.nodup_append,List.nodup_cons,List.mem_cons,not_or] at once
  obtain ⟨_,⟨⟨apart,_⟩,_⟩,across⟩ := once
  have beforel : ∀ e ∈ a, e.2.pageNo ≠ l.page := fun e mem => across _ (members e mem) _ (.inl rfl)
  have beforer : ∀ k : K, ∀ e ∈ a ++ [(k,l.ptr)], e.2.pageNo ≠ r.page := by
    intro k e mem
    rcases List.mem_append.mp mem with mem | mem
    · exact across _ (members e mem) _ (.inr (.inl rfl))
    · rw [List.mem_singleton.mp mem]
      exact apart
  have pick : ∀ k : K, a ++ (k,l.ptr) :: (j,r.ptr) :: b = (a ++ [(k,l.ptr)]) ++ (j,r.ptr) :: b := by simp
  refine ⟨?_,?_⟩
  · rw [refreshKeys,refreshRun (c := l.page) known rfl beforel firstl,pick]
    rw [refreshRun (c := r.page) (pairsSet hasu) rfl (beforer _) ((pairsOther pager).trans firstr),setPairsTwice]
    simp
  · rw [pick] at known
    rw [refreshKeys,refreshRun (c := r.page) known rfl (beforer _) firstr,List.append_assoc,List.singleton_append]
    rw [refreshRun (c := l.page) (pairsSet hasu) rfl beforel ((pairsOther pagel).trans firstl),setPairsTwice]

theorem refreshTree {fuel : Nat} (w : Window A l r B U u W a b)
    (tree : Tree s (below ++ (A ++ l :: r :: B) :: (U ++ u :: W) :: rest)) (pl : l.pairs = el :: ls)
    (pr : r.pairs = er :: rs) (above : ((U ++ u :: W) :: rest).IsChain Linked) (root : Root s ((U ++ u :: W) :: rest))
    (enough : rest.length < fuel) :
    ∃ t rest' v, maintainParent fuel u.page (s.setPairs u.page (a ++ (el.1,l.ptr) :: (er.1,r.ptr) :: b)) = .ok () t ∧
      Repaired s t below (A ++ l :: r :: B) U u v W rest rest' ∧ v.pairs.length = u.pairs.length := by
  obtain ⟨⟨i,j,pairs⟩,left,right⟩ := w
  have shape : below ++ (A ++ l :: r :: B) :: (U ++ u :: W) :: rest =
      (below ++ [A ++ l :: r :: B]) ++ (U ++ u :: W) :: rest := by simp
  have rekeyed := @rekeyTree _ _ _ _ _ _ (a ++ (el.1,l.ptr) :: (er.1,r.ptr) :: b) _ (shape ▸ tree) (by rw [pairs]; simp)
  have again := root.replace (m := {u with pairs := a ++ (el.1,l.ptr) :: (er.1,r.ptr) :: b})
    (t := s.setPairs u.page (a ++ (el.1,l.ptr) :: (er.1,r.ptr) :: b)) rfl rfl
    (fun q _ none => by rw [pairsParent]; exact none)
  have link : Linked (A ++ l :: r :: B) (U ++ {u with pairs := a ++ (el.1,l.ptr) :: (er.1,r.ptr) :: b} :: W) := by
    have flatShape : flat (U ++ {u with pairs := a ++ (el.1,l.ptr) :: (er.1,r.ptr) :: b} :: W) =
        (flat U ++ a) ++ (el.1,l.ptr) :: ((er.1,r.ptr) :: (b ++ flat W)) := by simp
    rw [Linked,flatShape]
    refine frontJoin left rfl ?_ (.cons ⟨rfl,?_⟩ right)
    · intro _; rw [Node.first,pl]; rfl
    · rw [Node.first,pr]; rfl
  have treeU : Tree (s.setPairs u.page (a ++ (el.1,l.ptr) :: (er.1,r.ptr) :: b)) (below ++ (A ++ l :: r :: B) ::
      (U ++ {u with pairs := a ++ (el.1,l.ptr) :: (er.1,r.ptr) :: b} :: W) :: rest) := by simpa using rekeyed
  obtain ⟨t,rest',run,done⟩ := settleTree (u := u) treeU rfl rfl link above again enough (by simp)
  refine ⟨t,rest',_,run,⟨done.tree,done.linked,done.root,rfl,rfl,done.shape,done.order,done.counters⟩,?_⟩
  rw [pairs]
  simp

end Refresh

section Redistribute
variable [IxKey K] {below rest : List (Level K)} {A B U W : Level K} {l r u : Node K} {a b : List (K × Rid)}
  {e : K × Rid} {more : List (K × Rid)}

theorem shiftedTree {giver taker l' r' : Node K} {gp tp : List (K × Rid)} (w : Window A l r B U u W a b)
    (tree : Tree s (below ++ (A ++ l :: r :: B) :: (U ++ u :: W) :: rest))
    (nodes : Nodes (shifted s giver taker gp tp e) (l' :: r' :: (below ++ (A ++ B) :: (U ++ u :: W) :: rest).flatten))
    (pagel : l'.page = l.page) (pager : r'.page = r.page) (leafl : l'.leaf = l.leaf) (leafr : r'.leaf = r.leaf)
    (kept : ∀ q, s.field IxPage.parent q = some ixNoPage →
      (shifted s giver taker gp tp e).field IxPage.parent q = some ixNoPage)
    (filledl : l'.pairs ≠ []) (filledr : r'.pairs ≠ []) (above : ((U ++ u :: W) :: rest).IsChain Linked)
    (root : Root s ((U ++ u :: W) :: rest)) (enough : rest.length < s.filePages) :
    ∃ t rest' v, (refreshKeys s.filePages u.page l.page r.page (shifted s giver taker gp tp e) = .ok () t ∧
      refreshKeys s.filePages u.page r.page l.page (shifted s giver taker gp tp e) = .ok () t) ∧
      Repaired s t below (A ++ l' :: r' :: B) U u v W rest rest' ∧ v.pairs.length = u.pairs.length := by
  have treeM := tree.pair pagel pager leafl leafr nodes (fun _ => shiftedNext) (fun _ => shiftedPrev) shiftedHdr
  have rootM := root.replace (m := u) rfl (congrArg IxFileHdr.rootPage shiftedHdr) fun q _ none => kept _ none
  obtain ⟨f,others,npairs⟩ := List.exists_cons_of_ne_nil filledl
  obtain ⟨g,last,mpairs⟩ := List.exists_cons_of_ne_nil filledr
  obtain ⟨t,rest',v,run,done,size⟩ := refreshTree (w.pages pagel pager rfl) treeM npairs mpairs above rootM enough
  have both := refreshBoth s.filePages (w.pages pagel pager rfl) treeM npairs mpairs
  rw [pagel,pager] at both
  exact ⟨t,rest',v,⟨both.1.trans run,both.2.trans run⟩,⟨done.tree,done.linked,done.root,done.page,done.leaf,done.shape,
    done.order.trans (congrArg IxFileHdr.btreeOrder shiftedHdr),done.counters.trans shiftedCounters⟩,size⟩

theorem redistributeLeft (w : Window A l r B U u W a b)
    (tree : Tree s (below ++ (A ++ l :: r :: B) :: (U ++ u :: W) :: rest)) (kind : l.leaf = r.leaf)
    (kidsOnce : r.leaf = false → (childPages r.pairs).Nodup) (give : r.pairs = e :: more) (left : more ≠ [])
    (room : l.pairs.length < s.getMaxSize) (above : ((U ++ u :: W) :: rest).IsChain Linked)
    (root : Root s ((U ++ u :: W) :: rest)) (enough : rest.length < s.filePages) :
    ∃ t rest' v, redistribute r.page l.page u.page 0 s = .ok () t ∧
      Repaired s t below (A ++ {l with pairs := l.pairs ++ [e]} :: {r with pairs := more} :: B) U u v W rest rest' ∧
      v.pairs.length = u.pairs.length := by
  have holds := (tree.nodes.perm (halvesPerm below _ A B l r)).perm (List.Perm.swap r l _)
  have moved := holds.shift kind kidsOnce (by rw [give]) (List.perm_append_singleton e l.pairs)
  obtain ⟨t,rest',v,run,done⟩ := shiftedTree w tree moved rfl rfl rfl rfl
    (fun q none => holds.shiftRoot (by rw [give]) none) (by simp) left above root enough
  obtain ⟨here,atl,pairsl⟩ := fieldSome (tree.nodes.pairs l (by simp))
  obtain ⟨other,atr,_⟩ := fieldSome (tree.nodes.pairs r (by simp))
  have isLeaf : here.isLeaf = r.leaf := by
    have known := tree.nodes.leaf l (by simp)
    rw [field,atl] at known
    exact (Option.some.inj known).trans kind
  refine ⟨t,rest',v,?_,done⟩
  simp only [redistribute,getBind]
  rw [bindEq (fetchNodeRun atl),bindEq (fetchNodeRun atr),if_pos trivial]
  have here' : here.size = l.pairs.length := by rw [IxPage.size,pairsl]
  have moving := @Nodes.giveRun _ s _ r l e [] more l.pairs [] here _ (refreshKeys s.filePages u.page l.page r.page)
    0 here.size holds kind isLeaf give (by simp) rfl here' room
  exact moving.trans run.1

theorem redistributeRight {index : Nat} (w : Window A l r B U u W a b)
    (tree : Tree s (below ++ (A ++ l :: r :: B) :: (U ++ u :: W) :: rest)) (kind : r.leaf = l.leaf)
    (kidsOnce : l.leaf = false → (childPages l.pairs).Nodup) (give : l.pairs = more ++ [e]) (left : more ≠ [])
    (room : r.pairs.length < s.getMaxSize) (above : ((U ++ u :: W) :: rest).IsChain Linked)
    (root : Root s ((U ++ u :: W) :: rest)) (enough : rest.length < s.filePages) (positive : index ≠ 0) :
    ∃ t rest' v, redistribute l.page r.page u.page index s = .ok () t ∧
      Repaired s t below (A ++ {l with pairs := more} :: {r with pairs := e :: r.pairs} :: B) U u v W rest rest' ∧
      v.pairs.length = u.pairs.length := by
  have holds := tree.nodes.perm (halvesPerm below _ A B l r)
  have permuted : l.pairs.Perm (e :: more) := by rw [give]; exact List.perm_append_singleton e more
  have moved := holds.shift kind kidsOnce permuted (List.Perm.refl (e :: r.pairs))
  obtain ⟨t,rest',v,run,done⟩ := shiftedTree w tree (moved.perm (List.Perm.swap _ _ _)) rfl rfl rfl rfl
    (fun q none => holds.shiftRoot permuted none) left (by simp) above root enough
  obtain ⟨here,atr,_⟩ := fieldSome (tree.nodes.pairs r (by simp))
  obtain ⟨other,atl,pairsl⟩ := fieldSome (tree.nodes.pairs l (by simp))
  have isLeaf : here.isLeaf = l.leaf := by
    have known := tree.nodes.leaf r (by simp)
    rw [field,atr] at known
    exact (Option.some.inj known).trans kind
  have last : other.size-1 = more.length := by rw [IxPage.size,pairsl,give]; simp
  refine ⟨t,rest',v,?_,done⟩
  simp only [redistribute,getBind]
  rw [bindEq (fetchNodeRun atr),bindEq (fetchNodeRun atl),if_neg positive]
  have moving := @Nodes.giveRun _ s _ l r e more [] [] r.pairs here _ (refreshKeys s.filePages u.page r.page l.page)
    (other.size-1) 0 holds kind isLeaf give rfl last rfl room
  rw [List.append_nil] at moving
  exact moving.trans run.2

end Redistribute
end Rmdb.Index
