import Rmdb.Index.Split

/-! `insert_into_parent` climbs from a split node to the root. `lo` is the level that has
just been split; the levels above still describe it without the new node. -/
namespace Rmdb.Index
open Lib IxIndexHandle
variable {K : Type} {s t : IxIndexHandle K}

theorem onlyOne {A B : Level K} {n r : Node K} (single : A ++ n :: B = [r]) : A = [] ∧ n = r ∧ B = [] := by
  cases A with
  | nil => simpa using single
  | cons a A => simp at single

section Root
variable {below ups : List (Level K)} {lo : Level K}

theorem Root.cons (root : Root s (lo :: ups)) (lv : Level K) : Root s (lv :: lo :: ups) := by
  obtain ⟨r,last,page,parent⟩ := root
  exact ⟨r,by rw [List.getLast?_cons_cons]; exact last,page,parent⟩

theorem Root.tail {lv : Level K} (root : Root s (lv :: lo :: ups)) : Root s (lo :: ups) := by
  obtain ⟨r,last,page,parent⟩ := root
  exact ⟨r,by rw [List.getLast?_cons_cons] at last; exact last,page,parent⟩

theorem Root.replace {A B : Level K} {n m : Node K} (root : Root s ((A ++ n :: B) :: ups)) (page : m.page = n.page)
    (same : t.fileHdr.rootPage = s.fileHdr.rootPage)
    (parent : ∀ k ∈ ((A ++ n :: B) :: ups).flatten, s.field IxPage.parent k.page = some ixNoPage →
      t.field IxPage.parent k.page = some ixNoPage) : Root t ((A ++ m :: B) :: ups) := by
  obtain ⟨r,last,head,none⟩ := root
  have inside : r ∈ ((A ++ n :: B) :: ups).flatten :=
    List.mem_flatten_of_mem (List.mem_of_getLast? last) (by simp)
  cases ups with
  | nil =>
    simp only [List.getLast?_singleton,Option.some.injEq] at last
    obtain ⟨rfl,rfl,rfl⟩ := onlyOne last
    exact ⟨m,rfl,by rw [same,head,page],by rw [page]; exact parent n inside none⟩
  | cons next ups => exact ⟨r,by simpa using last,by rw [same,head],parent r inside none⟩

end Root

section Parent
variable {below rest : List (Level K)} {A B U W : Level K} {l r u : Node K} {a b : List (K × Rid)} {x y : K × Rid}

theorem attachTree {lo : Level K} (tree : Tree s (below ++ lo :: (U ++ u :: W) :: rest)) (pairs : u.pairs = a ++ x :: b)
    (mem : r ∈ lo) (ptr : y.2 = r.ptr) (sibling : s.field IxPage.parent r.page = some u.page) :
    Tree ((s.setPairs u.page (a ++ x :: y :: b)).upd r.page fun node => {node with parent := u.page})
      (below ++ lo :: (U ++ {u with pairs := a ++ x :: y :: b} :: W) :: rest) := by
  have shape : below ++ lo :: (U ++ u :: W) :: rest = (below ++ [lo]) ++ (U ++ u :: W) :: rest := by simp
  rw [shape] at tree
  have memu : u ∈ ((below ++ [lo]) ++ (U ++ u :: W) :: rest).flatten := focusMem
  have attached := @Tree.setPairs _ _ _ _ _ _ _ (a ++ x :: y :: b) tree (by
    intro inner c child
    simp only [childPages,List.map_append,List.map_cons,List.mem_append,List.mem_cons] at child
    have old : c ∈ childPages u.pairs → s.field IxPage.parent c = some u.page ∧ c < s.filePages :=
      fun child => ⟨tree.nodes.parent u memu inner c child,tree.nodes.kids u memu inner c child⟩
    rw [pairs] at old
    simp only [childPages,List.map_append,List.map_cons,List.mem_append,List.mem_cons] at old
    rcases child with child | child | child | child
    · exact old (.inl child)
    · exact old (.inr (.inl child))
    · rw [child,ptr]
      exact ⟨sibling,(tree.nodes.range r (by simp [mem])).2⟩
    · exact old (.inr (.inr child)))
  have same : ∀ q, ((s.setPairs u.page (a ++ x :: y :: b)).upd r.page fun node => {node with parent := u.page}).field
      IxPage.parent q = (s.setPairs u.page (a ++ x :: y :: b)).field IxPage.parent q := by
    intro q
    by_cases here : q = r.page
    · subst here
      rw [pairsParent,sibling]
      exact fieldSet (by simpa using fieldHas sibling) fun _ => rfl
    · rw [fieldOther here]
  have final := attached.congr
    (attached.nodes.congr (by simp) (by simp) same rfl) (by simp) (by simp) rfl rfl
  simpa using final

end Parent

section Grow
variable {nodes : List (Node K)} {l r : Node K} {kids : List (K × Rid)}

theorem Nodes.grow (holds : Nodes s nodes) (unused : s.NextUnused)
    (pairs : ∀ q, t.field IxPage.pairs q = if q = s.fd2pageno then some kids else s.field IxPage.pairs q)
    (leaf : ∀ q, t.field IxPage.isLeaf q = if q = s.fd2pageno then some false else s.field IxPage.isLeaf q)
    (moved : ∀ c ∈ childPages kids, t.field IxPage.parent c = some (s.fd2pageno : Int) ∧ c < s.filePages)
    (kept : ∀ u ∈ nodes, u.leaf = false → ∀ c ∈ childPages u.pairs, t.field IxPage.parent c = s.field IxPage.parent c)
    (file : (t.filePages : Int) = s.fd2pageno+1) (used : 2 ≤ s.fd2pageno) : Nodes t (⟨s.fd2pageno,false,kids⟩ :: nodes) := by
  rw [NextUnused] at unused
  have less : ∀ {c : Int}, c < s.filePages → c ≠ s.fd2pageno ∧ c < t.filePages := by
    intro c small
    rw [file]
    omega
  refine ⟨?_,?_,?_,?_,?_,?_⟩
  · intro m mem
    rw [pairs]
    rcases List.mem_cons.mp mem with rfl | mem
    · rw [if_pos rfl]
    · rw [if_neg (less (holds.range m mem).2).1]
      exact holds.pairs m mem
  · intro m mem
    rw [leaf]
    rcases List.mem_cons.mp mem with rfl | mem
    · rw [if_pos rfl]
    · rw [if_neg (less (holds.range m mem).2).1]
      exact holds.leaf m mem
  · intro u mem inner c child
    rcases List.mem_cons.mp mem with rfl | mem
    · exact (moved c child).1
    · rw [kept u mem inner c child]
      exact holds.parent u mem inner c child
  · intro u mem inner c child
    rcases List.mem_cons.mp mem with rfl | mem
    · exact (less (moved c child).2).2
    · exact (less (holds.kids u mem inner c child)).2
  · rw [List.map_cons,List.nodup_cons]
    refine ⟨?_,holds.once⟩
    intro mem
    obtain ⟨m,mem,same⟩ := List.mem_map.mp mem
    exact (less (holds.range m mem).2).1 same
  · intro m mem
    rcases List.mem_cons.mp mem with rfl | mem
    · dsimp only
      rw [file]
      omega
    · obtain ⟨low,high⟩ := holds.range m mem
      exact ⟨low,(less high).2⟩

structure Rooted (s t : IxIndexHandle K) (kids : List (K × Rid)) : Prop where
  pairs : ∀ q, t.field IxPage.pairs q = if q = s.fd2pageno then some kids else s.field IxPage.pairs q
  leaf : ∀ q, t.field IxPage.isLeaf q = if q = s.fd2pageno then some false else s.field IxPage.isLeaf q
  none : t.field IxPage.parent s.fd2pageno = some ixNoPage
  moved : ∀ c ∈ childPages kids, t.field IxPage.parent c = some (s.fd2pageno : Int)
  kept : ∀ q : Int, q ≠ s.fd2pageno → q ∉ childPages kids → t.field IxPage.parent q = s.field IxPage.parent q
  nextLeaf : ∀ q : Int, q ≠ s.fd2pageno → t.field IxPage.nextLeaf q = s.field IxPage.nextLeaf q
  prevLeaf : ∀ q : Int, q ≠ s.fd2pageno → t.field IxPage.prevLeaf q = s.field IxPage.prevLeaf q
  root : t.fileHdr.rootPage = s.fd2pageno
  order : t.fileHdr.btreeOrder = s.fileHdr.btreeOrder
  first : t.fileHdr.firstLeaf = s.fileHdr.firstLeaf
  last : t.fileHdr.lastLeaf = s.fileHdr.lastLeaf
  file : (t.filePages : Int) = s.fd2pageno+1
  unused : t.NextUnused

def rootBlank (s : IxIndexHandle K) : IxIndexHandle K :=
  s.created.upd s.fd2pageno fun _ => ⟨ixNoPage,false,ixNoPage,ixNoPage,[]⟩

theorem rootBlankHere {α : Type} (φ : IxPage K → α) :
    (rootBlank s).field φ s.fd2pageno = some (φ ⟨ixNoPage,false,ixNoPage,ixNoPage,[]⟩) :=
  fieldSet (createdHas s) fun _ => rfl

theorem rootBlankOther {α : Type} {φ : IxPage K → α} {q : Int} (new : q ≠ s.fd2pageno) :
    (rootBlank s).field φ q = s.field φ q := by
  rw [rootBlank,fieldOther new,createdOther new]

variable {p q : Int} {key : K} {e : K × Rid} {rest : List (K × Rid)}

theorem newRootRun {fuel : Nat} (unused : s.NextUnused) (order : 2 < s.fileHdr.btreeOrder) (newp : p ≠ s.fd2pageno) (newq : q ≠ s.fd2pageno)
    (apart : p ≠ q) (parent : s.field IxPage.parent p = some ixNoPage) (has : s.Has q)
    (pairs : s.field IxPage.pairs p = some (e :: rest)) :
    ∃ t, insertIntoParent (fuel+1) p key q s = .ok () t ∧ Rooted s t [(e.1,⟨p,-1⟩),(key,⟨q,-1⟩)] := by
  obtain ⟨node,here,none⟩ := fieldSome parent
  have hasRoot : (rootBlank s).Has s.fd2pageno := fieldHas (rootBlankHere IxPage.parent)
  have hasp : (rootBlank s).Has p := fieldHas ((rootBlankOther newp).trans parent)
  have hasq : (rootBlank s).Has q := by
    obtain ⟨x,there⟩ := has
    have known : s.field IxPage.parent q = some x.parent := by simp [field,there]
    exact fieldHas ((rootBlankOther newq).trans known)
  have keyAt : getKey p 0 (rootBlank s) = .ok e.1 (rootBlank s) := getKeyRun ((rootBlankOther newp).trans pairs) rfl
  have put1 : insertPairs s.fd2pageno 0 [(e.1,⟨p,-1⟩)] (rootBlank s) =
      .ok () ((rootBlank s).setPairs s.fd2pageno [(e.1,⟨p,-1⟩)]) :=
    @insertPairsRun _ _ _ [] [] _ _ (rootBlankHere IxPage.pairs) rfl (by simp [getMaxSize])
  have put2 : insertPairs s.fd2pageno 1 [(key,⟨q,-1⟩)] ((rootBlank s).setPairs s.fd2pageno [(e.1,⟨p,-1⟩)]) =
      .ok () (((rootBlank s).setPairs s.fd2pageno [(e.1,⟨p,-1⟩)]).setPairs s.fd2pageno
        [(e.1,⟨p,-1⟩),(key,⟨q,-1⟩)]) := by
    refine @insertPairsRun _ _ _ [(e.1,⟨p,-1⟩)] [] _ _ (pairsSet hasRoot) rfl ?_
    have same : (rootBlank s).fileHdr.btreeOrder = s.fileHdr.btreeOrder := rfl
    simp only [List.length_singleton,List.length_nil,getMaxSize,pairsHdr,same]
    omega
  generalize state : ((rootBlank s).setPairs s.fd2pageno [(e.1,⟨p,-1⟩)]).setPairs s.fd2pageno
    [(e.1,⟨p,-1⟩),(key,⟨q,-1⟩)] = s4 at put2
  have has4 : ∀ {r}, (rootBlank s).Has r → s4.Has r := by
    intro r known; rw [← state]; simpa using known
  have fields : ∀ {α : Type} (φ : IxPage K → α) (r : Int), r ≠ s.fd2pageno → s4.field φ r = s.field φ r := by
    intro α φ r new
    rw [← state,setPairs,setPairs,fieldOther new,fieldOther new,rootBlankOther new]
  obtain ⟨hdr,next,file⟩ := @adoptHdr _ s.fd2pageno [p,q] s4
  have base : s4.fileHdr = {s.fileHdr with numPages := s.fileHdr.numPages+1} ∧ s4.counters = s.created.counters := by
    rw [← state]; exact ⟨rfl,rfl⟩
  have last : (s4.filePages : Int) = s.fd2pageno+1 ∧ s4.fd2pageno = s.fd2pageno+1 :=
    ⟨(congrArg (fun c => (c.2 : Int)) base.2).trans (createdUnused unused),congrArg Prod.fst base.2⟩
  refine ⟨(s4.adopt s.fd2pageno [p,q]).withHdr fun hdr => {hdr with rootPage := s.fd2pageno},?_,?_⟩
  · simp only [insertIntoParent]
    rw [bindEq (fetchNodeRun here),if_pos none,bindEq (createNodeRun unused),bindEq (modifyNodeRun (createdHas s)),
      ← rootBlank,bindEq keyAt,bindEq put1,bindEq put2]
    simp only [setParentPageNo]
    rw [bindEq (modifyNodeRun (has4 hasp)),bindEq (modifyNodeRun (by simpa using has4 hasq)),setHdrRun]
    rfl
  · refine ⟨?_,?_,?_,?_,?_,?_,?_,rfl,?_,?_,?_,?_,?_⟩
    · intro r
      rw [hdrField,adoptKeep fun _ => rfl]
      split
      · rename_i same; rw [same,← state]; exact pairsSet (by simpa using hasRoot)
      · rename_i new; exact fields _ r new
    · intro r
      rw [hdrField,adoptKeep fun _ => rfl]
      split
      · rename_i same; rw [same,← state,pairsLeaf,pairsLeaf,rootBlankHere]
      · rename_i new; exact fields _ r new
    · rw [hdrField,adoptOther (by simp [Ne.symm newp,Ne.symm newq]),← state,pairsParent,pairsParent,rootBlankHere]
    · intro c child
      have inside : c ∈ [p,q] := by simpa [childPages] using child
      have hasc : s4.Has c := by
        rcases List.mem_cons.mp inside with rfl | last
        · exact has4 hasp
        · rw [List.mem_singleton.mp last]; exact has4 hasq
      obtain ⟨x,there⟩ := hasc
      have known : s4.field IxPage.parent c = some x.parent := by simp [field,there]
      rw [hdrField]
      exact adoptChild known inside
    · intro r new away
      rw [hdrField,adoptOther (by simpa [childPages] using away)]
      exact fields _ r new
    · intro r new; rw [hdrField,adoptKeep fun _ => rfl]; exact fields _ r new
    · intro r new; rw [hdrField,adoptKeep fun _ => rfl]; exact fields _ r new
    · simp only [withHdr]; rw [hdr,base.1]
    · simp only [withHdr]; rw [hdr,base.1]
    · simp only [withHdr]; rw [hdr,base.1]
    · exact (congrArg Nat.cast file).trans last.1
    · exact ((congrArg Nat.cast file).trans last.1).le.trans (next.trans last.2).ge

variable {below : List (Level K)}

theorem newRootTree {fuel : Nat} (tree : Tree s (below ++ [[l,r]])) (unused : s.NextUnused) (order : 2 < s.fileHdr.btreeOrder)
    (parent : s.field IxPage.parent l.page = some ixNoPage) (sibling : s.field IxPage.parent r.page = some ixNoPage)
    (filled : l.pairs ≠ []) :
    ∃ t k, insertIntoParent (fuel+1) l.page key r.page s = .ok () t ∧
      Tree t (below ++ [[l,r],[⟨s.fd2pageno,false,[(k,l.ptr),(key,r.ptr)]⟩]]) ∧
      t.fileHdr.rootPage = s.fd2pageno ∧ t.field IxPage.parent s.fd2pageno = some ixNoPage ∧
      t.fileHdr.btreeOrder = s.fileHdr.btreeOrder ∧ t.NextUnused := by
  have meml : l ∈ (below ++ [[l,r]]).flatten := by simp
  have memr : r ∈ (below ++ [[l,r]]).flatten := by simp
  have bound := unused
  rw [NextUnused] at bound
  obtain ⟨lowl,highl⟩ := tree.nodes.range l meml
  obtain ⟨lowr,highr⟩ := tree.nodes.range r memr
  have apart : l.page ≠ r.page := by
    have once := tree.nodes.once
    simp only [List.flatten_append,List.flatten_cons,List.flatten_nil,List.append_nil,List.map_append,List.map_cons,
      List.map_nil,List.nodup_append,List.nodup_cons,List.mem_singleton] at once
    exact once.2.1.1
  obtain ⟨e,rest,pairs⟩ := List.exists_cons_of_ne_nil filled
  obtain ⟨t,run,rooted⟩ := @newRootRun _ s l.page r.page key e rest fuel unused order (by omega) (by omega) apart parent
    (fieldHas sibling) (by rw [tree.nodes.pairs l meml,pairs])
  -- nobody names the two halves yet: their parent field is that of a root
  have unnamed : ∀ u ∈ (below ++ [[l,r]]).flatten, u.leaf = false → ∀ c ∈ childPages u.pairs,
      c ∉ childPages [(e.1,l.ptr),(key,r.ptr)] := by
    intro u mem inner c child inside
    have known := tree.nodes.parent u mem inner c child
    have low := (tree.nodes.range u mem).1
    have orphan : s.field IxPage.parent c = some ixNoPage := by
      simp only [childPages,List.map_cons,List.map_nil,List.mem_cons,List.not_mem_nil,or_false,Node.ptr] at inside
      rcases inside with rfl | rfl
      · exact parent
      · exact sibling
    rw [orphan] at known
    have := Option.some.inj known
    simp only [ixNoPage] at this
    omega
  have grown : Nodes t (⟨s.fd2pageno,false,[(e.1,l.ptr),(key,r.ptr)]⟩ :: (below ++ [[l,r]]).flatten) := by
    refine tree.nodes.grow unused rooted.pairs rooted.leaf ?_ ?_ rooted.file (by omega)
    · intro c child
      refine ⟨rooted.moved c child,?_⟩
      simp only [childPages,List.map_cons,List.map_nil,List.mem_cons,List.not_mem_nil,or_false,Node.ptr] at child
      rcases child with rfl | rfl
      · exact highl
      · exact highr
    · intro u mem inner c child
      have small := tree.nodes.kids u mem inner c child
      exact rooted.kept c (by omega) (unnamed u mem inner c child)
  refine ⟨t,e.1,run,⟨?_,?_,?_,?_⟩,rooted.root,rooted.none,rooted.order,rooted.unused⟩
  · refine grown.perm ?_
    have shape : (below ++ [[l,r],[⟨s.fd2pageno,false,[(e.1,l.ptr),(key,r.ptr)]⟩]]).flatten =
        (below ++ [[l,r]]).flatten ++ [⟨s.fd2pageno,false,[(e.1,l.ptr),(key,r.ptr)]⟩] := by simp
    rw [shape]
    exact (List.perm_append_singleton _ _).symm
  · have same : (below ++ [[l,r],[⟨s.fd2pageno,false,[(e.1,l.ptr),(key,r.ptr)]⟩]]).headD [] =
        (below ++ [[l,r]]).headD [] := by cases below <;> rfl
    rw [same]
    refine tree.links.congr ?_ ?_ rooted.first rooted.last
    · intro q mem; exact rooted.nextLeaf q (tree.linkOld unused meml mem)
    · intro q mem
      refine rooted.prevLeaf q (tree.linkOld unused meml ?_)
      rw [List.mem_append,List.mem_singleton] at mem
      exact List.mem_cons.mpr mem.symm
  · intro m mem
    refine tree.leaves m ?_
    cases below <;> exact mem
  · intro lv mem m memm
    cases below with
    | nil =>
      simp only [List.nil_append,List.tail_cons,List.mem_singleton] at mem
      subst mem
      rw [List.mem_singleton.mp memm]
    | cons bottom below =>
      simp only [List.cons_append,List.tail_cons,List.mem_append,List.mem_cons,List.not_mem_nil,or_false] at mem
      rcases mem with mem | rfl | rfl
      · exact tree.inner lv (by simp [mem]) m memm
      · exact tree.inner [l,r] (by simp) m memm
      · rw [List.mem_singleton.mp memm]

end Grow

section Climb
variable {order : Nat}

structure Settled (order : Nat) (t : IxIndexHandle K) (below : List (Level K)) (lo : Level K)
    (ups : List (Level K)) : Prop where
  tree : Tree t (below ++ lo :: ups)
  linked : (lo :: ups).IsChain Linked
  root : Root t (lo :: ups)
  sized : Sized order ups
  order : t.fileHdr.btreeOrder = order
  unused : t.NextUnused

theorem firstTake {n : Node K} (k : Nat) (some : 0 < k) : Node.first {n with pairs := n.pairs.take k} = n.first := by
  simp only [Node.first]
  cases n.pairs with
  | nil => simp
  | cons e rest => obtain ⟨j,rfl⟩ := Nat.exists_eq_succ_of_ne_zero (Nat.pos_iff_ne_zero.mp some); rfl

theorem flatHalves (A B : Level K) (n : Node K) (new : Int) :
    flat (A ++ leftHalf n :: rightHalf n new :: B) = flat (A ++ n :: B) := by
  simp only [flatAppend,flatCons,leftHalf,rightHalf]
  rw [← List.append_assoc (n.pairs.take _),List.take_append_drop]

theorem halvesFit {n : Node K} {new : Int} (big : 2 < order) (full : n.pairs.length = order+1) :
    Fits order (leftHalf n) ∧ Fits order (rightHalf n new) := by
  simp only [Fits,leftHalf,rightHalf,List.length_take,List.length_drop,full]
  omega

theorem linkedAttach {A B hi : Level K} {l r : Node K} {key : K} (f : Focus A l B hi)
    (exact_ : A ≠ [] → l.first = some f.x.1) (first : r.first = some key) :
    Linked (A ++ l :: r :: B) (f.U ++ {f.u with pairs := f.a ++ f.x :: (key,r.ptr) :: f.b} :: f.W) := by
  have shape : flat (f.U ++ {f.u with pairs := f.a ++ f.x :: (key,r.ptr) :: f.b} :: f.W) =
      (flat f.U ++ f.a) ++ f.x :: ((key,r.ptr) :: (f.b ++ flat f.W)) := by simp
  rw [Linked,shape]
  exact frontJoin f.left f.ptr exact_ (.cons ⟨rfl,first⟩ f.right)

theorem attachRun {fuel : Nat} {p q u : Int} {key : K} {a b : List (K × Rid)} {x : K × Rid}
    (parent : s.field IxPage.parent p = some u) (inside : u ≠ ixNoPage)
    (pairs : s.field IxPage.pairs u = some (a ++ x :: b)) (child : x.2.pageNo = p)
    (before : ∀ e ∈ a, e.2.pageNo ≠ p) (room : a.length+b.length+2 ≤ s.getMaxSize) (has : s.Has q) :
    insertIntoParent (fuel+1) p key q s = (do
      if s.getMaxSize ≤ a.length+b.length+2 then
        let newParent ← split u
        let newKey ← getKey newParent 0
        insertIntoParent fuel u newKey newParent
      else pure () : M (IxIndexHandle K) Unit)
        ((s.setPairs u (a ++ x :: (key,⟨q,-1⟩) :: b)).upd q fun node => {node with parent := u}) := by
  obtain ⟨node,here,isParent⟩ := fieldSome parent
  have put : insertPairs u (a.length+1) [(key,⟨q,-1⟩)] s = .ok () (s.setPairs u (a ++ x :: (key,⟨q,-1⟩) :: b)) := by
    have split : a ++ x :: b = (a ++ [x]) ++ b := by simp
    rw [split] at pairs
    have done := @insertPairsRun _ s u (a ++ [x]) b (a.length+1) [(key,⟨q,-1⟩)] pairs (by simp)
      (by simp only [List.length_append,List.length_singleton]; omega)
    simpa using done
  have after : ((s.setPairs u (a ++ x :: (key,⟨q,-1⟩) :: b)).upd q fun node => {node with parent := u}).field
      IxPage.pairs u = some (a ++ x :: (key,⟨q,-1⟩) :: b) := by
    have set := @pairsSet _ s u (a ++ x :: (key,⟨q,-1⟩) :: b) (fieldHas pairs)
    simpa using set
  obtain ⟨pnode,there,ppairs⟩ := fieldSome after
  have size : pnode.size = a.length+b.length+2 := by
    rw [IxPage.size,ppairs]
    simp only [List.length_append,List.length_cons]
    omega
  simp only [insertIntoParent]
  rw [bindEq (fetchNodeRun here),isParent,if_neg inside,bindEq (findChildRun pairs child before),bindEq put]
  simp only [setParentPageNo]
  rw [bindEq (modifyNodeRun (by simpa using has)),bindEq (fetchNodeRun there)]
  simp only [getBind,size,getMaxSize,pairsHdr,updHdr]
  rfl

theorem chainReplace {A B : Level K} {n m : Node K} {rest : List (Level K)}
    (chain : ((A ++ n :: B) :: rest).IsChain Linked) (page : m.page = n.page) (first : A ≠ [] → m.first = n.first) :
    ((A ++ m :: B) :: rest).IsChain Linked := by
  cases rest with
  | nil => exact List.isChain_singleton _
  | cons hi rest =>
    obtain ⟨link,above⟩ := List.isChain_cons_cons.mp chain
    exact List.IsChain.cons_cons (frontReplace link page first) above

theorem sizedMem {lv : Level K} {rest : List (Level K)} {n : Node K} (sized : Sized order (lv :: rest)) (mem : n ∈ lv) :
    n.pairs.length ≤ order := by
  cases rest with
  | nil =>
    obtain ⟨r,rfl,fits⟩ := sized
    rw [List.mem_singleton.mp mem]
    exact fits.1
  | cons next rest => exact (sized.1 n mem).2

theorem sizedReplace {A B M : Level K} {n : Node K} {rest : List (Level K)} (sized : Sized order ((A ++ n :: B) :: rest))
    (fits : ∀ m ∈ M, Fits order m) (some : rest ≠ []) : Sized order ((A ++ M ++ B) :: rest) := by
  rw [sizedCons some] at sized ⊢
  refine ⟨?_,sized.2⟩
  intro m mem
  simp only [List.mem_append] at mem
  rcases mem with (mem | mem) | mem
  · exact sized.1 m (by simp [mem])
  · exact fits m mem
  · exact sized.1 m (by simp [mem])

theorem sizedGrow {U W : Level K} {u v : Node K} {rest : List (Level K)} (sized : Sized order ((U ++ u :: W) :: rest))
    (small : v.pairs.length ≤ order) (more : u.pairs.length ≤ v.pairs.length) (leaf : v.leaf = u.leaf) :
    Sized order ((U ++ v :: W) :: rest) := by
  cases rest with
  | nil =>
    obtain ⟨r,top,fits⟩ := sized
    obtain ⟨rfl,rfl,rfl⟩ := onlyOne top
    exact ⟨v,rfl,small,fun inner => (fits.2 (leaf ▸ inner)).trans more⟩
  | cons next rest =>
    have fits := sized.1 u (by simp)
    have done := @sizedReplace _ _ U W [v] u (next :: rest) sized (by
      intro m mem
      rw [List.mem_singleton.mp mem]
      exact ⟨fits.1.trans more,small⟩) (by simp)
    simpa using done

theorem sizedOthers {U W : Level K} {u m : Node K} {rest : List (Level K)} (sized : Sized order ((U ++ u :: W) :: rest))
    (mem : m ∈ U ∨ m ∈ W) : Fits order m := by
  cases rest with
  | nil =>
    obtain ⟨r,top,_⟩ := sized
    obtain ⟨rfl,rfl,rfl⟩ := onlyOne top
    simp at mem
  | cons next rest =>
    refine sized.1 m ?_
    rcases mem with mem | mem <;> simp [mem]

theorem insertIntoParentTree (big : 2 < order) {ups : List (Level K)} : ∀ {below : List (Level K)} {A B : Level K}
    {l r : Node K} {s : IxIndexHandle K} {fuel : Nat} {key : K}, ups.length < fuel →
    s.fileHdr.btreeOrder = order → Tree s (below ++ (A ++ l :: r :: B) :: ups) → s.NextUnused →
    ((A ++ l :: B) :: ups).IsChain Linked → Root s ((A ++ l :: B) :: ups) → SizedUp order ups →
    s.field IxPage.parent r.page = s.field IxPage.parent l.page → r.first = some key → l.pairs ≠ [] →
    ∃ t ups', insertIntoParent fuel l.page key r.page s = .ok () t ∧
      Settled order t below (A ++ l :: r :: B) ups' := by
  induction ups with
  | nil =>
    intro below A B l r s fuel key enough isOrder tree unused _ root _ sibling first filled
    obtain ⟨top,last,page,none⟩ := root
    simp only [List.getLast?_singleton,Option.some.injEq] at last
    obtain ⟨rfl,rfl,rfl⟩ := onlyOne last
    obtain ⟨fuel,rfl⟩ := Nat.exists_eq_succ_of_ne_zero (Nat.ne_zero_of_lt enough)
    obtain ⟨t,k,run,grown,rootPage,noParent,sameOrder,unused2⟩ := @newRootTree _ _ _ _ key _ fuel tree unused (by omega) none
      (sibling.trans none) filled
    refine ⟨t,[[⟨s.fd2pageno,false,[(k,l.ptr),(key,r.ptr)]⟩]],run,grown,?_,?_,?_,by omega,unused2⟩
    · refine List.IsChain.cons_cons ?_ (List.isChain_singleton _)
      exact ⟨rfl,.cons ⟨rfl,first⟩ .nil⟩
    · exact ⟨_,rfl,rootPage,noParent⟩
    · exact ⟨_,rfl,by simp only [List.length_cons,List.length_nil]; omega,by simp⟩
  | cons hi rest ih =>
    intro below A B l r s fuel key enough isOrder tree unused linked root sized sibling first filled
    obtain ⟨fuel,rfl⟩ := Nat.exists_eq_succ_of_ne_zero (Nat.ne_zero_of_lt enough)
    obtain ⟨link,above⟩ := List.isChain_cons_cons.mp linked
    obtain ⟨f,exact_⟩ := focus link
    obtain ⟨U,u,W,a,x,b,rfl,pairs,left,ptr,right⟩ := f
    have shape : below ++ (A ++ l :: r :: B) :: (U ++ u :: W) :: rest =
        (below ++ [A ++ l :: r :: B]) ++ (U ++ u :: W) :: rest := by simp
    have memu : u ∈ (below ++ (A ++ l :: r :: B) :: (U ++ u :: W) :: rest).flatten := by simp
    have inner : u.leaf = false := by
      have kind := (shape ▸ tree).kind
      cases leaf : u.leaf with
      | false => rfl
      | true => exact absurd (kind.mp leaf) (by simp)
    have child : x.2.pageNo = l.page := by rw [ptr]; rfl
    have parent : s.field IxPage.parent l.page = some u.page := by
      refine tree.nodes.parent u memu inner l.page ?_
      rw [pairs]; simp [child]
    have low := (tree.nodes.range u memu).1
    have before : ∀ e ∈ a, e.2.pageNo ≠ l.page := by
      intro e mem same
      have once := tree.nodes.once
      have inside : l.page ∈ A.map Node.page := by
        rw [← frontPages left,← same]
        exact List.mem_map_of_mem (List.mem_append_right _ mem)
      simp only [List.flatten_append,List.flatten_cons,List.map_append,List.map_cons,List.append_assoc,
        List.nodup_append] at once
      exact once.2.1.2.2 _ inside _ (by simp) rfl
    have small : u.pairs.length ≤ order := sizedMem sized (by simp)
    rw [pairs] at small
    simp only [List.length_append,List.length_cons] at small
    have memr : r ∈ (below ++ (A ++ l :: r :: B) :: (U ++ u :: W) :: rest).flatten := by simp
    have max : s.getMaxSize = order+1 := by rw [getMaxSize,isOrder]
    have run := @attachRun _ s fuel l.page r.page u.page key a b x parent (by simp only [ixNoPage]; omega)
      (by rw [tree.nodes.pairs u memu,pairs]) child before (by omega) (tree.nodes.present memr)
    have attached := @attachTree _ _ _ _ _ _ r _ _ _ _ (key,r.ptr) _ tree pairs (by simp) rfl (sibling.trans parent)
    have link' := linkedAttach ⟨U,u,W,a,x,b,rfl,pairs,left,ptr,right⟩ exact_ first
    dsimp only at link'
    have sameFirst : Node.first {u with pairs := a ++ x :: (key,r.ptr) :: b} = u.first := by
      rw [Node.first,Node.first,pairs]
      cases a <;> rfl
    generalize grown : ({u with pairs := a ++ x :: (key,r.ptr) :: b} : Node K) = v at attached link' sameFirst
    have page : v.page = u.page := by rw [← grown]
    have leaf : v.leaf = false := by rw [← grown]; exact inner
    have length : v.pairs.length = a.length+b.length+2 := by
      rw [← grown]
      simp only [List.length_append,List.length_cons]
      omega
    have above' : ((U ++ v :: W) :: rest).IsChain Linked := chainReplace above page fun _ => sameFirst
    generalize state : ((s.setPairs u.page (a ++ x :: (key,r.ptr) :: b)).upd r.page fun node =>
      {node with parent := u.page}) = s2 at attached
    have hdr : s2.fileHdr = s.fileHdr := by rw [← state]; rfl
    have unused2 : s2.NextUnused := by rw [← state]; exact unused
    have root2 : Root s2 ((U ++ v :: W) :: rest) := by
      refine root.tail.replace page (by rw [hdr]) ?_
      intro k _ none
      have apart : k.page ≠ r.page := by
        intro same
        rw [same,sibling,parent] at none
        have := Option.some.inj none
        simp only [ixNoPage] at this
        omega
      rw [← state,fieldOther apart,pairsParent]
      exact none
    simp only [Node.ptr] at state
    rw [state] at run
    rw [run]
    by_cases full : s.getMaxSize ≤ a.length+b.length+2
    · rw [if_pos full]
      have exactly : v.pairs.length = order+1 := by omega
      rw [show below ++ (A ++ l :: r :: B) :: (U ++ v :: W) :: rest =
        (below ++ [A ++ l :: r :: B]) ++ (U ++ v :: W) :: rest by simp] at attached
      have whole : Tree s2 (below ++ (A ++ l :: r :: B) :: (U ++ v :: W) :: rest) := by simpa using attached
      obtain ⟨once,self,_⟩ := @Tree.children _ _ _ _ _ _ v whole link' (by simp)
      have max2 : s2.getMaxSize = order+1 := by rw [getMaxSize,hdr,isOrder]
      obtain ⟨s3,splitRun,tree3,off⟩ := splitTree attached unused2 (by omega) (fun _ => once) fun _ => self
      obtain ⟨e,es,right3⟩ : ∃ e es, (rightHalf v s2.fd2pageno).pairs = e :: es := by
        apply List.exists_cons_of_ne_nil
        rw [← List.length_pos_iff,rightHalf,List.length_drop]
        omega
      have newKey : getKey s2.fd2pageno 0 s3 = .ok e.1 s3 :=
        getKeyRun ((tree3.nodes.pairs (rightHalf v s2.fd2pageno) (by simp)).trans (by rw [right3])) rfl
      have leftFirst : (leftHalf v).first = v.first := firstTake _ (by omega)
      have root3 : Root s3 ((U ++ leftHalf v :: W) :: rest) := by
        refine root2.replace rfl off.root ?_
        intro k mem none
        refine (off.parent k.page ?_ ?_).trans none
        · have old := (attached.nodes.range k (by
            rw [List.flatten_append]
            exact List.mem_append_right _ mem)).2
          rw [NextUnused] at unused2
          omega
        · rw [none]
          intro same
          have := Option.some.inj same
          simp only [ixNoPage] at this
          omega
      obtain ⟨t,ups',climb,done⟩ := @ih _ _ _ _ _ _ fuel e.1 (by simpa using enough)
        (by rw [off.order,hdr,isOrder]) tree3 off.unused (chainReplace above' rfl fun _ => leftFirst) root3
        (by cases rest with | nil => trivial | cons next rest => exact sized.2)
        (off.sibling.trans off.own.symm) (by rw [Node.first,right3]; rfl)
        (by rw [ne_eq,← List.length_eq_zero_iff,leftHalf,List.length_take]; omega)
      refine ⟨t,(U ++ leftHalf v :: rightHalf v s2.fd2pageno :: W) :: ups',?_,?_,?_,done.root.cons _,?_,done.order,done.unused⟩
      · rw [← page,bindEq splitRun,bindEq newKey]
        exact climb
      · simpa using done.tree
      · refine List.IsChain.cons_cons ?_ done.linked
        rw [Linked,flatHalves]
        exact link'
      · have higher : ups' ≠ [] := by
          rintro rfl
          exact done.sized
        obtain ⟨fitsLeft,fitsRight⟩ := @halvesFit _ order v s2.fd2pageno big exactly
        rw [sizedCons higher]
        refine ⟨?_,done.sized⟩
        intro m mem
        simp only [List.mem_append,List.mem_cons] at mem
        have others : m ∈ U ∨ m ∈ W → Fits order m := fun mem => sizedOthers sized mem
        rcases mem with mem | rfl | rfl | mem
        · exact others (.inl mem)
        · exact fitsLeft
        · exact fitsRight
        · exact others (.inr mem)
    · rw [if_neg full]
      refine ⟨s2,(U ++ v :: W) :: rest,rfl,attached,List.IsChain.cons_cons link' above',root2.cons _,?_,by rw [hdr,isOrder],unused2⟩
      have more : u.pairs.length ≤ v.pairs.length := by
        rw [length,pairs]
        simp only [List.length_append,List.length_cons]
        omega
      exact sizedGrow sized (by omega) more (leaf.trans inner.symm)

end Climb
end Rmdb.Index
