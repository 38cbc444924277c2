import Rmdb.Index.Maintain

/-! Two neighbouring nodes below one parent: `redistribute` moves a pair from one to the
other, `coalesce` appends the right one to the left one. What is read off their level
stays the same. -/
namespace Rmdb.Index
open Lib IxIndexHandle
variable {K : Type} {s t : IxIndexHandle K}

section Nodes
variable {nodes : List (Node K)} {giver taker : Node K} {gp tp : List (K × Rid)} {cs : List Int}

theorem Nodes.exchange (holds : Nodes s (giver :: taker :: nodes)) (kind : taker.leaf = giver.leaf)
    (less : ∀ c ∈ childPages gp, c ∈ childPages giver.pairs) (gone : ∀ c ∈ childPages gp, c ∉ cs)
    (moved : giver.leaf = false → ∀ c ∈ cs, c ∈ childPages giver.pairs)
    (more : giver.leaf = false → ∀ c ∈ childPages tp, c ∈ childPages taker.pairs ∨ c ∈ cs)
    (leaf : giver.leaf = true → cs = []) :
    Nodes (((s.setPairs taker.page tp).setPairs giver.page gp).adopt taker.page cs)
      ({taker with pairs := tp} :: {giver with pairs := gp} :: nodes) := by
  have apart : taker.page ≠ giver.page := holds.apart List.mem_cons_self
  have hasTaker := holds.present (List.mem_cons_of_mem giver List.mem_cons_self)
  have given := @Nodes.setPairs _ s (taker :: nodes) giver holds gp (fun inner c child =>
    ⟨holds.parent giver List.mem_cons_self inner c (less c child),
      holds.kids giver List.mem_cons_self inner c (less c child)⟩)
  have adopted : Nodes ((s.setPairs giver.page gp).adopt taker.page cs)
      ({giver with pairs := gp} :: taker :: nodes) := by
    refine given.reparent ?_
    intro u mem inner c child inside
    rcases List.mem_cons.mp mem with rfl | mem
    · exact absurd inside (gone c child)
    · have innerGiver : giver.leaf = false := by
        cases kindGiver : giver.leaf with
        | false => rfl
        | true => rw [leaf kindGiver] at inside; cases inside
      have same := holds.oneParent List.mem_cons_self (List.mem_cons_of_mem _ mem) innerGiver inner
        (moved innerGiver c inside) child
      exact absurd (congrArg Node.page same).symm (holds.apart mem)
  obtain ⟨hdr,next,file⟩ := @adoptHdr _ taker.page cs (s.setPairs giver.page gp)
  have taken := @Nodes.setPairs _ _ _ taker (adopted.perm (List.Perm.swap _ _ _)) tp (by
    intro inner c child
    have innerGiver : giver.leaf = false := kind ▸ inner
    rw [file]
    by_cases inside : c ∈ cs
    · have old := holds.parent giver List.mem_cons_self innerGiver c (moved innerGiver c inside)
      exact ⟨adoptChild (by rw [pairsParent]; exact old) inside,
        holds.kids giver List.mem_cons_self innerGiver c (moved innerGiver c inside)⟩
    · have child := (more innerGiver c child).resolve_right inside
      rw [adoptOther inside,pairsParent]
      have mem : taker ∈ giver :: taker :: nodes := by simp
      exact ⟨holds.parent taker mem inner c child,holds.kids taker mem inner c child⟩)
  obtain ⟨hdr',next',file'⟩ := @adoptHdr _ taker.page cs ((s.setPairs taker.page tp).setPairs giver.page gp)
  refine taken.congr ?_ ?_ ?_ (by rw [file',pairsFile,pairsFile,pairsFile,file,pairsFile])
  · intro q
    rw [adoptKeep fun _ => rfl]
    by_cases here : q = taker.page
    · rw [here,pairsOther apart,pairsSet hasTaker,pairsSet (fieldHas (adopted.pairs taker (by simp)))]
    · rw [pairsOther here,adoptKeep fun _ => rfl]
      by_cases there : q = giver.page
      · have hasGiver := holds.present (List.mem_cons_self : giver ∈ giver :: taker :: nodes)
        rw [there,pairsSet (by simpa using hasGiver),pairsSet hasGiver]
      · rw [pairsOther there,pairsOther here,pairsOther there]
  · intro q
    rw [adoptKeep fun _ => rfl,pairsLeaf,pairsLeaf,pairsLeaf,adoptKeep fun _ => rfl,pairsLeaf]
  · intro q
    rw [pairsParent]
    by_cases inside : q ∈ cs
    · have innerGiver : giver.leaf = false := by
        cases kindGiver : giver.leaf with
        | false => rfl
        | true => rw [leaf kindGiver] at inside; cases inside
      have old := holds.parent giver List.mem_cons_self innerGiver q (moved innerGiver q inside)
      rw [adoptChild (w := giver.page) (by simpa using old) inside,adoptChild (w := giver.page) (by simpa using old) inside]
    · rw [adoptOther inside,adoptOther inside,pairsParent,pairsParent,pairsParent]

theorem Nodes.absorb {l r : Node K} (holds : Nodes s (r :: l :: nodes)) (kind : l.leaf = r.leaf)
    (leaf : r.leaf = true → cs = []) (moved : r.leaf = false → cs = childPages r.pairs) :
    Nodes ((s.setPairs l.page (l.pairs ++ r.pairs)).adopt l.page cs)
      ({l with pairs := l.pairs ++ r.pairs} :: nodes) := by
  have rest : Nodes s (l :: nodes) := holds.subset (List.sublist_cons_self _ _)
  have adopted : Nodes (s.adopt l.page cs) (l :: nodes) := by
    refine rest.reparent ?_
    intro u mem inner c child inside
    cases kindR : r.leaf with
    | true => rw [leaf kindR] at inside; cases inside
    | false =>
      rw [moved kindR] at inside
      have same := holds.oneParent List.mem_cons_self (List.mem_cons_of_mem _ mem) kindR inner inside child
      exact absurd (congrArg Node.page same).symm (holds.apart mem)
  obtain ⟨hdr,next,file⟩ := @adoptHdr _ l.page cs s
  have taken := @Nodes.setPairs _ _ _ l adopted (l.pairs ++ r.pairs) (by
    intro inner c child
    have kindR : r.leaf = false := kind ▸ inner
    rw [file,moved kindR]
    by_cases inside : c ∈ childPages r.pairs
    · exact ⟨adoptChild (holds.parent r List.mem_cons_self kindR c inside) inside,
        holds.kids r List.mem_cons_self kindR c inside⟩
    · rw [childPages,List.map_append,List.mem_append] at child
      have child := child.resolve_right inside
      rw [adoptOther inside]
      exact ⟨rest.parent l List.mem_cons_self inner c child,rest.kids l List.mem_cons_self inner c child⟩)
  obtain ⟨hdr',next',file'⟩ := @adoptHdr _ l.page cs (s.setPairs l.page (l.pairs ++ r.pairs))
  refine taken.congr ?_ ?_ ?_ (by rw [file',pairsFile,pairsFile,file])
  · intro q
    rw [adoptKeep fun _ => rfl]
    by_cases here : q = l.page
    · rw [here,pairsSet (rest.present List.mem_cons_self),pairsSet (adopted.present List.mem_cons_self)]
    · rw [pairsOther here,pairsOther here,adoptKeep fun _ => rfl]
  · intro q
    rw [adoptKeep fun _ => rfl,pairsLeaf,pairsLeaf,adoptKeep fun _ => rfl]
  · intro q
    rw [pairsParent]
    by_cases inside : q ∈ cs
    · have kindR : r.leaf = false := by
        cases kindR : r.leaf with
        | false => rfl
        | true => rw [leaf kindR] at inside; cases inside
      have old := holds.parent r List.mem_cons_self kindR q (moved kindR ▸ inside)
      rw [adoptChild (w := r.page) (by simpa using old) inside,adoptChild (w := r.page) old inside]
    · rw [adoptOther inside,adoptOther inside,pairsParent]

end Nodes

section Levels
variable {below ups : List (Level K)} {A B lo lo' : Level K} {l r l' r' : Node K}

theorem Tree.relevel (tree : Tree s (below ++ lo :: ups)) (nodes : Nodes t (below ++ lo' :: ups).flatten)
    (kind : ∀ n ∈ lo', ∃ m ∈ lo, n.leaf = m.leaf)
    (links : Links t (((below ++ lo' :: ups).headD []).map Node.page)) : Tree t (below ++ lo' :: ups) := by
  refine ⟨nodes,links,?_,?_⟩
  · intro n mem
    cases below with
    | nil =>
      obtain ⟨m,memm,same⟩ := kind n mem
      rw [same]
      exact tree.leaves m memm
    | cons lv below => exact tree.leaves n mem
  · intro lv mem n memn
    cases below with
    | nil => exact tree.inner lv mem n memn
    | cons bottom below =>
      simp only [List.cons_append,List.tail_cons,List.mem_append,List.mem_cons] at mem
      rcases mem with mem | rfl | mem
      · exact tree.inner lv (by simp [mem]) n memn
      · obtain ⟨m,memm,same⟩ := kind n memn
        rw [same]
        exact tree.inner lo (by simp) m memm
      · exact tree.inner lv (by simp [mem]) n memn

theorem Tree.pair (tree : Tree s (below ++ (A ++ l :: r :: B) :: ups)) (pagel : l'.page = l.page)
    (pager : r'.page = r.page) (leafl : l'.leaf = l.leaf) (leafr : r'.leaf = r.leaf)
    (nodes : Nodes t (l' :: r' :: (below ++ (A ++ B) :: ups).flatten))
    (next : ∀ q, t.field IxPage.nextLeaf q = s.field IxPage.nextLeaf q)
    (prev : ∀ q, t.field IxPage.prevLeaf q = s.field IxPage.prevLeaf q) (hdr : t.fileHdr = s.fileHdr) :
    Tree t (below ++ (A ++ l' :: r' :: B) :: ups) := by
  refine tree.relevel (nodes.perm (halvesPerm below ups A B l' r').symm) ?_ ?_
  · intro n mem
    simp only [List.mem_append,List.mem_cons] at mem
    rcases mem with mem | rfl | rfl | mem
    · exact ⟨n,by simp [mem],rfl⟩
    · exact ⟨l,by simp,leafl⟩
    · exact ⟨r,by simp,leafr⟩
    · exact ⟨n,by simp [mem],rfl⟩
  · have links := tree.links.congr (fun q _ => next q) (fun q _ => prev q) (by rw [hdr]) (by rw [hdr])
    cases below with
    | nil => simpa [pagel,pager] using links
    | cons lv below => simpa using links

structure Window (A : Level K) (l r : Node K) (B U : Level K) (u : Node K) (W : Level K) (a b : List (K × Rid)) :
    Prop where
  pairs : ∃ i j, u.pairs = a ++ (i,l.ptr) :: (j,r.ptr) :: b
  left : Front (flat U ++ a) A
  right : List.Forall₂ Exact (b ++ flat W) B

section Windows
variable {U W : Level K} {u : Node K} {n : Node K} {a b : List (K × Rid)} {x : K × Rid}

theorem windowRight (pairs : u.pairs = x :: b) (two : 2 ≤ u.pairs.length) (left : Front (flat U) A) (ptr : x.2 = n.ptr)
    (right : List.Forall₂ Exact (b ++ flat W) B) : ∃ r B' b', B = r :: B' ∧ Window A n r B' U u W [] b' := by
  cases b with
  | nil =>
    rw [pairs] at two
    simp at two
  | cons y b =>
    rw [List.cons_append] at right
    obtain ⟨r,B',head,tail,rfl⟩ := List.forall₂_cons_left_iff.mp right
    refine ⟨r,B',b,rfl,⟨⟨x.1,y.1,?_⟩,by simpa using left,tail⟩⟩
    rw [pairs,← ptr,← head.1]
    rfl

theorem windowLeft {y : K × Rid} (pairs : u.pairs = (a ++ [y]) ++ x :: b) (left : Front (flat U ++ (a ++ [y])) A)
    (ptr : x.2 = n.ptr) (right : List.Forall₂ Exact (b ++ flat W) B) :
    ∃ l A', A = A' ++ [l] ∧ Window A' l n B U u W a b := by
  rw [← List.append_assoc] at left
  obtain ⟨A',l,rest,rfl,front,ptrl,_,none⟩ := frontSplitLeft left
  cases none
  refine ⟨l,A',rfl,⟨⟨y.1,x.1,?_⟩,front,right⟩⟩
  rw [pairs,← ptr,← ptrl]
  simp

theorem Window.pages {l' r' v : Node K} (w : Window A l r B U u W a b) (pagel : l'.page = l.page) (pager : r'.page = r.page)
    (same : v.pairs = u.pairs) : Window A l' r' B U v W a b := by
  obtain ⟨⟨i,j,pairs⟩,left,right⟩ := w
  refine ⟨⟨i,j,?_⟩,left,right⟩
  rw [same,pairs,Node.ptr,Node.ptr,Node.ptr,Node.ptr,pagel,pager]

end Windows
end Levels

section Settle
variable [IxKey K] {below rest : List (Level K)} {U W lo : Level K} {u v : Node K}

structure Repaired (s t : IxIndexHandle K) (below : List (Level K)) (lo U : Level K) (u v : Node K) (W : Level K)
    (rest rest' : List (Level K)) : Prop where
  tree : Tree t (below ++ lo :: (U ++ v :: W) :: rest')
  linked : (lo :: (U ++ v :: W) :: rest').IsChain Linked
  root : Root t ((U ++ v :: W) :: rest')
  page : v.page = u.page
  leaf : v.leaf = u.leaf
  shape : SameShape rest rest'
  order : t.fileHdr.btreeOrder = s.fileHdr.btreeOrder
  counters : t.counters = s.counters

theorem settleTree {fuel : Nat} (tree : Tree s (below ++ lo :: (U ++ v :: W) :: rest)) (page : v.page = u.page)
    (leaf : v.leaf = u.leaf) (link : Linked lo (U ++ v :: W)) (above : ((U ++ u :: W) :: rest).IsChain Linked)
    (root : Root s ((U ++ v :: W) :: rest)) (enough : rest.length < fuel) (filled : v.pairs ≠ []) :
    ∃ t rest', maintainParent fuel u.page s = .ok () t ∧ Repaired s t below lo U u v W rest rest' := by
  have shape : below ++ lo :: (U ++ v :: W) :: rest = (below ++ [lo]) ++ (U ++ v :: W) :: rest := by simp
  obtain ⟨t,rest',run,treeT,linked,rootT,same,hdr,counters⟩ := maintainTree enough (shape ▸ tree) (staleUp above root page)
    root filled
  exact ⟨t,rest',page ▸ run,by simpa using treeT,List.IsChain.cons_cons link linked,rootT,page,leaf,same,by rw [hdr],counters⟩

end Settle
end Rmdb.Index
