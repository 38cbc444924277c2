import Rmdb.Index.Levels
import Rmdb.Index.NodeHeap

/-! The pages that hold a tree given by its levels. `Nodes` speaks of the nodes as a set,
so that it can be restated whenever a level is rearranged; `Links` is the list of leaves. -/
namespace Rmdb.Index
open Lib IxIndexHandle
variable {K : Type}

abbrev childPages (l : List (K × Rid)) : List Int := l.map fun e => e.2.pageNo

theorem exactPages {es : List (K × Rid)} {ns : Level K} (all : List.Forall₂ Exact es ns) :
    childPages es = ns.map Node.page := by
  induction all with
  | nil => rfl
  | cons head _ ih => rw [childPages,List.map_cons,List.map_cons,head.1,Node.ptr,← ih]

theorem frontPages {es : List (K × Rid)} {ns : Level K} (front : Front es ns) : childPages es = ns.map Node.page := by
  cases es with
  | nil => cases ns with
    | nil => rfl
    | cons n ns => cases front
  | cons e es => cases ns with
    | nil => cases front
    | cons n ns => rw [childPages,List.map_cons,List.map_cons,front.1,Node.ptr,← exactPages front.2]

structure Nodes (s : IxIndexHandle K) (nodes : List (Node K)) : Prop where
  pairs : ∀ n ∈ nodes, s.field IxPage.pairs n.page = some n.pairs
  leaf : ∀ n ∈ nodes, s.field IxPage.isLeaf n.page = some n.leaf
  parent : ∀ u ∈ nodes, u.leaf = false → ∀ c ∈ childPages u.pairs, s.field IxPage.parent c = some u.page
  kids : ∀ u ∈ nodes, u.leaf = false → ∀ c ∈ childPages u.pairs, c < s.filePages
  once : (nodes.map Node.page).Nodup
  range : ∀ n ∈ nodes, 2 ≤ n.page ∧ n.page < s.filePages

def NextTo (s : IxIndexHandle K) (p q : Int) : Prop :=
  s.field IxPage.nextLeaf p = some q ∧ s.field IxPage.prevLeaf q = some p

structure Links (s : IxIndexHandle K) (ps : List Int) : Prop where
  chain : List.Forall₂ (NextTo s) (ixLeafHeaderPage :: ps) (ps ++ [ixLeafHeaderPage])
  first : ps.head? = some s.fileHdr.firstLeaf
  last : ps.getLast? = some s.fileHdr.lastLeaf

structure Tree (s : IxIndexHandle K) (levels : List (Level K)) : Prop where
  nodes : Nodes s levels.flatten
  links : Links s ((levels.headD []).map Node.page)
  leaves : ∀ n ∈ levels.headD [], n.leaf = true
  inner : ∀ lv ∈ levels.tail, ∀ n ∈ lv, n.leaf = false

def Root (s : IxIndexHandle K) (levels : List (Level K)) : Prop :=
  ∃ r, levels.getLast? = some [r] ∧ s.fileHdr.rootPage = r.page ∧ s.field IxPage.parent r.page = some ixNoPage

section Nodes
variable {s t : IxIndexHandle K} {nodes X Y : List (Node K)} {n u : Node K}

theorem Nodes.unique (holds : Nodes s nodes) {m : Node K} (memn : n ∈ nodes) (memm : m ∈ nodes)
    (same : n.page = m.page) : n = m := List.inj_on_of_nodup_map holds.once memn memm same

theorem Nodes.present (holds : Nodes s nodes) (mem : n ∈ nodes) : s.Has n.page :=
  fieldHas (holds.pairs n mem)

theorem Nodes.congr (holds : Nodes s nodes) (pairs : ∀ q, t.field IxPage.pairs q = s.field IxPage.pairs q)
    (leaf : ∀ q, t.field IxPage.isLeaf q = s.field IxPage.isLeaf q)
    (parent : ∀ q, t.field IxPage.parent q = s.field IxPage.parent q)
    (file : t.filePages = s.filePages) : Nodes t nodes := by
  refine ⟨?_,?_,?_,?_,holds.once,?_⟩
  · intro n mem; rw [pairs]; exact holds.pairs n mem
  · intro n mem; rw [leaf]; exact holds.leaf n mem
  · intro u mem inner c child; rw [parent]; exact holds.parent u mem inner c child
  · intro u mem inner c child; rw [file]; exact holds.kids u mem inner c child
  · intro n mem; rw [file]; exact holds.range n mem

theorem Nodes.subset (holds : Nodes s nodes) {rest : List (Node K)} (sub : rest.Sublist nodes) : Nodes s rest :=
  ⟨fun n mem => holds.pairs n (sub.subset mem),fun n mem => holds.leaf n (sub.subset mem),
    fun u mem => holds.parent u (sub.subset mem),fun u mem => holds.kids u (sub.subset mem),holds.once.sublist (sub.map _),
    fun n mem => holds.range n (sub.subset mem)⟩

theorem Nodes.perm (holds : Nodes s nodes) {others : List (Node K)} (same : nodes.Perm others) : Nodes s others :=
  ⟨fun n mem => holds.pairs n (same.mem_iff.mpr mem),fun n mem => holds.leaf n (same.mem_iff.mpr mem),
    fun u mem => holds.parent u (same.mem_iff.mpr mem),fun u mem => holds.kids u (same.mem_iff.mpr mem),
    (same.map _).nodup_iff.mp holds.once,fun n mem => holds.range n (same.mem_iff.mpr mem)⟩

theorem Nodes.oneParent (holds : Nodes s nodes) {v : Node K} (memu : u ∈ nodes) (memv : v ∈ nodes)
    (inu : u.leaf = false) (inv : v.leaf = false) {c : Int} (childu : c ∈ childPages u.pairs)
    (childv : c ∈ childPages v.pairs) : u = v := by
  have same := (holds.parent u memu inu c childu).symm.trans (holds.parent v memv inv c childv)
  exact holds.unique memu memv (Option.some.inj same)

theorem Nodes.apart (holds : Nodes s (n :: nodes)) {m : Node K} (mem : m ∈ nodes) : m.page ≠ n.page := by
  have once := holds.once
  rw [List.map_cons,List.nodup_cons] at once
  exact fun same => once.1 (same ▸ List.mem_map_of_mem mem)

theorem Nodes.setPairs (holds : Nodes s (n :: nodes)) {l : List (K × Rid)}
    (kids : n.leaf = false → ∀ c ∈ childPages l, s.field IxPage.parent c = some n.page ∧ c < s.filePages) :
    Nodes (s.setPairs n.page l) ({n with pairs := l} :: nodes) := by
  have here := holds.pairs n List.mem_cons_self
  refine ⟨?_,?_,?_,?_,by simpa using holds.once,?_⟩
  · intro m mem
    rcases List.mem_cons.mp mem with rfl | mem
    · exact pairsSet (fieldHas here)
    · rw [pairsOther (holds.apart mem)]
      exact holds.pairs m (List.mem_cons_of_mem _ mem)
  · intro m mem
    rw [pairsLeaf]
    rcases List.mem_cons.mp mem with rfl | mem
    · exact holds.leaf n List.mem_cons_self
    · exact holds.leaf m (List.mem_cons_of_mem _ mem)
  · intro u mem inner c child
    rw [pairsParent]
    rcases List.mem_cons.mp mem with rfl | mem
    · exact (kids inner c child).1
    · exact holds.parent u (List.mem_cons_of_mem _ mem) inner c child
  · intro u mem inner c child
    rcases List.mem_cons.mp mem with rfl | mem
    · exact (kids inner c child).2
    · exact holds.kids u (List.mem_cons_of_mem _ mem) inner c child
  · intro m mem
    rcases List.mem_cons.mp mem with rfl | mem
    · exact holds.range n List.mem_cons_self
    · exact holds.range m (List.mem_cons_of_mem _ mem)

theorem Nodes.reparent (holds : Nodes s nodes) {cs : List Int} {v : Int}
    (away : ∀ u ∈ nodes, u.leaf = false → ∀ c ∈ childPages u.pairs, c ∈ cs → u.page = v) :
    Nodes (s.adopt v cs) nodes := by
  obtain ⟨hdr,next,file⟩ := @adoptHdr _ v cs s
  refine ⟨?_,?_,?_,?_,holds.once,?_⟩
  · intro n mem; rw [adoptKeep fun _ => rfl]; exact holds.pairs n mem
  · intro n mem; rw [adoptKeep fun _ => rfl]; exact holds.leaf n mem
  · intro u mem inner c child
    have old := holds.parent u mem inner c child
    by_cases moved : c ∈ cs
    · rw [adoptChild old moved,away u mem inner c child moved]
    · rw [adoptOther moved]; exact old
  · intro u mem inner c child; rw [file]; exact holds.kids u mem inner c child
  · intro n mem; rw [file]; exact holds.range n mem

end Nodes

section Links
variable {s t : IxIndexHandle K} {A B : List Int} {p q : Int}

theorem Links.congr {ps : List Int} (links : Links s ps)
    (next : ∀ q ∈ ixLeafHeaderPage :: ps, t.field IxPage.nextLeaf q = s.field IxPage.nextLeaf q)
    (prev : ∀ q ∈ ps ++ [ixLeafHeaderPage], t.field IxPage.prevLeaf q = s.field IxPage.prevLeaf q)
    (first : t.fileHdr.firstLeaf = s.fileHdr.firstLeaf) (last : t.fileHdr.lastLeaf = s.fileHdr.lastLeaf) :
    Links t ps := by
  refine ⟨forall₂ImpMem links.chain ?_,by rw [first]; exact links.first,by rw [last]; exact links.last⟩
  intro a mema b memb old
  exact ⟨(next a mema).trans old.1,(prev b memb).trans old.2⟩

def follower (B : List Int) : Int := B.headD ixLeafHeaderPage

theorem followerCons (B : List Int) : ∃ rest, B ++ [ixLeafHeaderPage] = follower B :: rest ∧
    rest.length = B.length := by
  cases B with
  | nil => exact ⟨[],rfl,rfl⟩
  | cons b B => exact ⟨B ++ [ixLeafHeaderPage],rfl,by simp⟩

theorem Links.around (links : Links s (A ++ p :: B)) : ∃ rest, B ++ [ixLeafHeaderPage] = follower B :: rest ∧
    List.Forall₂ (NextTo s) (ixLeafHeaderPage :: A) (A ++ [p]) ∧ NextTo s p (follower B) ∧
    List.Forall₂ (NextTo s) B rest := by
  obtain ⟨rest,tail,_⟩ := followerCons B
  have chain := links.chain
  rw [List.append_assoc,List.cons_append,tail,← List.cons_append,
    show A ++ p :: follower B :: rest = (A ++ [p]) ++ follower B :: rest by simp,
    forall₂Append (by simp)] at chain
  obtain ⟨here,later⟩ := List.forall₂_cons.mp chain.2
  exact ⟨rest,tail,chain.1,here,later⟩

theorem onceAround {rest : List Int} (once : (ixLeafHeaderPage :: (A ++ p :: B)).Nodup)
    (tail : B ++ [ixLeafHeaderPage] = follower B :: rest) :
    (∀ a ∈ ixLeafHeaderPage :: A, a ≠ p) ∧ (∀ b ∈ A ++ [p], b ≠ follower B) ∧
    (∀ a ∈ B, a ≠ p) ∧ (∀ b ∈ rest, b ≠ follower B) ∧ (∀ b ∈ follower B :: rest, b = ixLeafHeaderPage ∨ b ∈ B) := by
  have members : ∀ b, b ∈ follower B :: rest ↔ b = ixLeafHeaderPage ∨ b ∈ B := by
    intro b
    rw [← tail,List.mem_append,List.mem_singleton,or_comm]
  have second : (A ++ [p] ++ (B ++ [ixLeafHeaderPage])).Nodup := by
    have rotated : (A ++ [p] ++ (B ++ [ixLeafHeaderPage])).Perm (ixLeafHeaderPage :: (A ++ p :: B)) := by
      simpa using (List.perm_append_singleton ixLeafHeaderPage (A ++ p :: B))
    exact rotated.nodup_iff.mpr once
  rw [tail] at second
  obtain ⟨_,after,across⟩ := List.nodup_append.mp second
  rw [List.nodup_cons] at after
  rw [← List.cons_append] at once
  obtain ⟨_,here,apart⟩ := List.nodup_append.mp once
  rw [List.nodup_cons] at here
  refine ⟨fun a mem => apart a mem p List.mem_cons_self,fun b mem => across b mem _ List.mem_cons_self,
    fun a mem same => here.1 (same ▸ mem),fun b mem same => after.1 (same ▸ mem),fun b mem => (members b).mp mem⟩

theorem Links.insert (links : Links s (A ++ p :: B)) (once : (ixLeafHeaderPage :: (A ++ p :: B)).Nodup)
    (new : q ∉ ixLeafHeaderPage :: (A ++ p :: B))
    (next : ∀ r, t.field IxPage.nextLeaf r = if r = p then some q else
      if r = q then some (follower B) else s.field IxPage.nextLeaf r)
    (prev : ∀ r, t.field IxPage.prevLeaf r = if r = follower B then some q else
      if r = q then some p else s.field IxPage.prevLeaf r)
    (first : t.fileHdr.firstLeaf = s.fileHdr.firstLeaf)
    (last : t.fileHdr.lastLeaf = if s.fileHdr.lastLeaf = p then q else s.fileHdr.lastLeaf) :
    Links t (A ++ p :: q :: B) := by
  obtain ⟨rest,tail,front,here,back⟩ := links.around
  obtain ⟨beforeP,beforeF,afterP,afterF,members⟩ := onceAround once tail
  have newA : ∀ a ∈ ixLeafHeaderPage :: A, a ≠ q := by
    intro a mem same
    subst same
    exact new (by simp only [List.mem_cons,List.mem_append] at mem ⊢; tauto)
  have newA' : ∀ b ∈ A ++ [p], b ≠ q := by
    intro b mem same
    subst same
    exact new (by simp only [List.mem_cons,List.mem_append,List.not_mem_nil,or_false] at mem ⊢; tauto)
  have newB : ∀ a ∈ B, a ≠ q := by
    intro a mem same
    subst same
    exact new (by simp only [List.mem_cons,List.mem_append]; tauto)
  have newF : ∀ b ∈ follower B :: rest, b ≠ q := by
    intro b mem same
    subst same
    rcases members b mem with rfl | mem
    · exact new List.mem_cons_self
    · exact newB b mem rfl
  refine ⟨?_,?_,?_⟩
  · rw [List.append_assoc,List.cons_append,List.cons_append,tail,← List.cons_append,
      show A ++ p :: q :: follower B :: rest = (A ++ [p]) ++ q :: follower B :: rest by simp,
      forall₂Append (by simp)]
    refine ⟨forall₂ImpMem front ?_,.cons ⟨?_,?_⟩ (.cons ⟨?_,?_⟩ (forall₂ImpMem back ?_))⟩
    · intro a mema b memb old
      exact ⟨by rw [next,if_neg (beforeP a mema),if_neg (newA a mema)]; exact old.1,
        by rw [prev,if_neg (beforeF b memb),if_neg (newA' b memb)]; exact old.2⟩
    · rw [next,if_pos rfl]
    · rw [prev,if_neg (Ne.symm (newF _ List.mem_cons_self)),if_pos rfl]
    · rw [next,if_neg (Ne.symm (newA' p (by simp))),if_pos rfl]
    · rw [prev,if_pos rfl]
    · intro a mema b memb old
      exact ⟨by rw [next,if_neg (afterP a mema),if_neg (newB a mema)]; exact old.1,
        by rw [prev,if_neg (afterF b memb),if_neg (newF b (List.mem_cons_of_mem _ memb))]; exact old.2⟩
  · rw [first,← links.first]
    cases A <;> rfl
  · have old := links.last
    rw [last]
    cases B with
    | nil =>
      rw [List.getLast?_append,List.getLast?_singleton] at old
      simp only [Option.some_or,Option.some.injEq] at old
      simp [← old]
    | cons b B =>
      have mem : s.fileHdr.lastLeaf ∈ b :: B := by
        rw [List.getLast?_append,List.getLast?_cons_cons] at old
        exact List.mem_of_getLast? (by simpa [List.getLast?_cons] using old)
      rw [if_neg (afterP _ mem),← old]
      simp [List.getLast?_append,List.getLast?_cons_cons]

theorem Links.erase (links : Links s (A ++ p :: q :: B)) (once : (ixLeafHeaderPage :: (A ++ p :: q :: B)).Nodup)
    (next : ∀ r, t.field IxPage.nextLeaf r = if r = p then some (follower B) else s.field IxPage.nextLeaf r)
    (prev : ∀ r, t.field IxPage.prevLeaf r = if r = follower B then some p else s.field IxPage.prevLeaf r)
    (first : t.fileHdr.firstLeaf = s.fileHdr.firstLeaf)
    (last : t.fileHdr.lastLeaf = if s.fileHdr.lastLeaf = q then p else s.fileHdr.lastLeaf) :
    Links t (A ++ p :: B) := by
  have fewer : (ixLeafHeaderPage :: (A ++ p :: B)).Nodup :=
    once.sublist ((List.Sublist.append_left (List.Sublist.cons_cons p (List.sublist_cons_self q B)) A).cons_cons _)
  obtain ⟨later,step,front,_,back⟩ := links.around
  obtain ⟨rest,tail,_⟩ := followerCons B
  rw [List.cons_append,List.cons.injEq,tail] at step
  rw [← step.2] at back
  obtain ⟨here,back⟩ := List.forall₂_cons.mp back
  obtain ⟨beforeP,beforeF,afterP,afterF,_⟩ := onceAround fewer tail
  refine ⟨?_,?_,?_⟩
  · rw [List.append_assoc,List.cons_append,tail,← List.cons_append,
      show A ++ p :: follower B :: rest = (A ++ [p]) ++ follower B :: rest by simp,forall₂Append (by simp)]
    refine ⟨forall₂ImpMem front ?_,.cons ⟨?_,?_⟩ (forall₂ImpMem back ?_)⟩
    · intro a mema b memb old
      exact ⟨by rw [next,if_neg (beforeP a mema)]; exact old.1,by rw [prev,if_neg (beforeF b memb)]; exact old.2⟩
    · rw [next,if_pos rfl]
    · rw [prev,if_pos rfl]
    · intro a mema b memb old
      exact ⟨by rw [next,if_neg (afterP a mema)]; exact old.1,by rw [prev,if_neg (afterF b memb)]; exact old.2⟩
  · rw [first,← links.first]
    cases A <;> rfl
  · have old := links.last
    rw [last]
    cases B with
    | nil =>
      simp only [List.getLast?_append,List.getLast?_cons_cons,List.getLast?_singleton,Option.some_or,
        Option.some.injEq] at old
      simp [← old]
    | cons b B =>
      have mem : s.fileHdr.lastLeaf ∈ b :: B := by
        rw [List.getLast?_append,List.getLast?_cons_cons,List.getLast?_cons_cons] at old
        exact List.mem_of_getLast? (by simpa [List.getLast?_cons] using old)
      have different : s.fileHdr.lastLeaf ≠ q := by
        intro same
        rw [List.nodup_cons,List.nodup_append,List.nodup_cons,List.nodup_cons] at once
        exact once.2.2.1.2.1 (same ▸ mem)
      rw [if_neg different,← old]
      simp [List.getLast?_append,List.getLast?_cons_cons]

end Links

section Levels
variable {s : IxIndexHandle K} {below ups : List (Level K)} {A B : Level K} {n : Node K}

theorem focusPerm (below ups : List (Level K)) (A B : Level K) (n : Node K) :
    (below ++ (A ++ n :: B) :: ups).flatten.Perm (n :: (below ++ (A ++ B) :: ups).flatten) := by
  have shape : (below ++ (A ++ n :: B) :: ups).flatten = (below.flatten ++ A) ++ n :: (B ++ ups.flatten) := by simp
  have rest : (below ++ (A ++ B) :: ups).flatten = (below.flatten ++ A) ++ (B ++ ups.flatten) := by simp
  rw [shape,rest]
  exact List.perm_middle

theorem focusMem : n ∈ (below ++ (A ++ n :: B) :: ups).flatten := by simp

theorem Tree.focus (tree : Tree s (below ++ (A ++ n :: B) :: ups)) :
    Nodes s (n :: (below ++ (A ++ B) :: ups).flatten) := tree.nodes.perm (focusPerm below ups A B n)

theorem Tree.kind (tree : Tree s (below ++ (A ++ n :: B) :: ups)) : n.leaf = true ↔ below = [] := by
  cases below with
  | nil => simp [tree.leaves n (by simp)]
  | cons lv below =>
    have inner := tree.inner (A ++ n :: B) (by simp) n (by simp)
    simp [inner]

theorem Tree.linkOld {levels : List (Level K)} (tree : Tree s levels) (unused : s.NextUnused) (mem : n ∈ levels.flatten)
    {q : Int} (link : q ∈ ixLeafHeaderPage :: (levels.headD []).map Node.page) : q ≠ s.fd2pageno := by
  rw [NextUnused] at unused
  have range := tree.nodes.range n mem
  rcases List.mem_cons.mp link with rfl | link
  · simp only [ixLeafHeaderPage]; omega
  · obtain ⟨m,memm,rfl⟩ := List.mem_map.mp link
    cases levels with
    | nil => simp at memm
    | cons leaves ups =>
      have here := tree.nodes.range m (by simpa using .inl memm)
      omega

theorem Tree.children {lo hi : Level K} {u : Node K} (tree : Tree s (below ++ lo :: hi :: ups)) (linked : Linked lo hi)
    (mem : u ∈ hi) : (childPages u.pairs).Nodup ∧ u.page ∉ childPages u.pairs ∧
      ∀ c ∈ childPages u.pairs, ∃ m ∈ lo, m.page = c := by
  have pages : childPages (flat hi) = lo.map Node.page := frontPages linked
  have sub : (childPages u.pairs).Sublist (lo.map Node.page) := by
    rw [← pages]
    obtain ⟨U,W,rfl⟩ := List.append_of_mem mem
    simp only [flatAppend,flatCons,childPages]
    exact ((List.sublist_append_left _ _).trans (List.sublist_append_right _ _)).map _
  have once : ((lo ++ hi).map Node.page).Nodup := by
    refine tree.nodes.once.sublist (List.Sublist.map _ ?_)
    have shape : (below ++ lo :: hi :: ups).flatten = below.flatten ++ ((lo ++ hi) ++ ups.flatten) := by simp
    rw [shape]
    exact (List.sublist_append_left _ _).trans (List.sublist_append_right _ _)
  rw [List.map_append,List.nodup_append] at once
  refine ⟨once.1.sublist sub,?_,?_⟩
  · intro self
    exact once.2.2 _ (sub.subset self) _ (List.mem_map_of_mem mem) rfl
  · intro c child
    exact List.mem_map.mp (sub.subset child)

theorem Tree.headerOnce {leaves : Level K} (tree : Tree s (leaves :: ups)) :
    (ixLeafHeaderPage :: leaves.map Node.page).Nodup := by
  have once := tree.nodes.once
  rw [List.flatten_cons,List.map_append] at once
  rw [List.nodup_cons]
  refine ⟨?_,(List.nodup_append.mp once).1⟩
  intro mem
  obtain ⟨m,mem,same⟩ := List.mem_map.mp mem
  have low := (tree.nodes.range m (by simp [mem])).1
  rw [same] at low
  exact absurd low (by decide)

theorem Tree.congr {t : IxIndexHandle K} {levels : List (Level K)} (tree : Tree s levels)
    (nodes : Nodes t levels.flatten)
    (next : ∀ q, t.field IxPage.nextLeaf q = s.field IxPage.nextLeaf q)
    (prev : ∀ q, t.field IxPage.prevLeaf q = s.field IxPage.prevLeaf q)
    (first : t.fileHdr.firstLeaf = s.fileHdr.firstLeaf) (last : t.fileHdr.lastLeaf = s.fileHdr.lastLeaf) :
    Tree t levels :=
  ⟨nodes,tree.links.congr (fun q _ => next q) (fun q _ => prev q) first last,tree.leaves,tree.inner⟩

theorem Tree.replace {t : IxIndexHandle K} {m : Node K} (tree : Tree s (below ++ (A ++ n :: B) :: ups))
    (page : m.page = n.page) (leaf : m.leaf = n.leaf) (nodes : Nodes t (m :: (below ++ (A ++ B) :: ups).flatten))
    (next : ∀ q, t.field IxPage.nextLeaf q = s.field IxPage.nextLeaf q)
    (prev : ∀ q, t.field IxPage.prevLeaf q = s.field IxPage.prevLeaf q)
    (first : t.fileHdr.firstLeaf = s.fileHdr.firstLeaf) (last : t.fileHdr.lastLeaf = s.fileHdr.lastLeaf) :
    Tree t (below ++ (A ++ m :: B) :: ups) := by
  refine ⟨nodes.perm (focusPerm below ups A B m).symm,?_,?_,?_⟩
  · have links := tree.links.congr (fun q _ => next q) (fun q _ => prev q) first last
    cases below with
    | nil => simpa [page] using links
    | cons lv below => simpa using links
  · intro k mem
    cases below with
    | nil =>
      simp only [List.nil_append,List.headD_cons,List.mem_append,List.mem_cons] at mem
      rcases mem with mem | rfl | mem
      · exact tree.leaves k (by simp [mem])
      · rw [leaf]; exact tree.leaves n (by simp)
      · exact tree.leaves k (by simp [mem])
    | cons lv below => exact tree.leaves k (by simpa using mem)
  · intro lv mem k memk
    cases below with
    | nil => exact tree.inner lv (by simpa using mem) k memk
    | cons bottom below =>
      simp only [List.cons_append,List.tail_cons,List.mem_append,List.mem_cons] at mem
      rcases mem with mem | rfl | mem
      · exact tree.inner lv (by simp [mem]) k memk
      · simp only [List.mem_append,List.mem_cons] at memk
        rcases memk with memk | rfl | memk
        · exact tree.inner (A ++ n :: B) (by simp) k (by simp [memk])
        · rw [leaf]; exact tree.inner (A ++ n :: B) (by simp) n (by simp)
        · exact tree.inner (A ++ n :: B) (by simp) k (by simp [memk])
      · exact tree.inner lv (by simp [mem]) k memk

theorem Tree.setPairs {l : List (K × Rid)} (tree : Tree s (below ++ (A ++ n :: B) :: ups))
    (kids : n.leaf = false → ∀ c ∈ childPages l, s.field IxPage.parent c = some n.page ∧ c < s.filePages) :
    Tree (s.setPairs n.page l) (below ++ (A ++ {n with pairs := l} :: B) :: ups) :=
  tree.replace rfl rfl (tree.focus.setPairs kids) (fun _ => pairsNext) (fun _ => pairsPrev) rfl rfl

end Levels
end Rmdb.Index
