import Rmdb.Index.Search

/-! `get_value` and `insert_entry` on an index that satisfies the tree invariant. The
entries of the index are what is read off its leaves. -/
namespace Rmdb.Index
open Lib IxIndexHandle
variable {K : Type} [IxKey K]

structure WellFormed (s : IxIndexHandle K) (levels : List (Level K)) : Prop where
  tree : Tree s levels
  linked : levels.IsChain Linked
  root : Root s levels
  order : 2 < s.fileHdr.btreeOrder
  sized : Sized s.fileHdr.btreeOrder levels
  sorted : Ordered (flat (levels.headD []))

def entries (levels : List (Level K)) : List (K × Rid) := flat (levels.headD [])

section Shape
variable {s : IxIndexHandle K} {levels : List (Level K)}

omit [IxKey K] in
theorem sizedFilled {order : Nat} (big : 2 < order) {lv : Level K} {rest : List (Level K)}
    (sized : Sized order (lv :: rest)) (inner : rest ≠ [] ∨ ∀ n ∈ lv, n.leaf = false) : ∀ n ∈ lv, n.pairs ≠ [] := by
  intro n mem empty
  cases rest with
  | nil =>
    obtain ⟨r,rfl,fits⟩ := sized
    rcases inner with other | inner
    · exact other rfl
    · have two := fits.2 (inner r (by simp))
      rw [List.mem_singleton.mp mem] at empty
      rw [empty,List.length_nil] at two
      omega
  | cons next rest =>
    have least := (sized.1 n mem).1
    rw [empty,List.length_nil] at least
    omega

theorem orderAll {order : Nat} (big : 2 < order) {levels : List (Level K)} {lo : Level K}
    (inner : ∀ lv ∈ levels, ∀ n ∈ lv, n.leaf = false)
    (sorted : Ordered (flat lo).tail) (linked : (lo :: levels).IsChain Linked) (sized : Sized order (lo :: levels)) :
    ∀ lv ∈ levels, Ordered (flat lv).tail ∧ ∀ n ∈ lv, n.pairs ≠ [] := by
  induction levels generalizing lo with
  | nil => simp
  | cons hi rest ih =>
    obtain ⟨link,above⟩ := List.isChain_cons_cons.mp linked
    have filledLo := sizedFilled big sized (.inl (by simp))
    have sortedHi := orderUp sorted link filledLo
    have filledHi := sizedFilled big sized.2 (.inr (inner hi (by simp)))
    intro lv mem
    rcases List.mem_cons.mp mem with rfl | mem
    · exact ⟨sortedHi,filledHi⟩
    · exact ih (fun lv mem => inner lv (List.mem_cons_of_mem _ mem)) sortedHi above sized.2 lv mem

theorem WellFormed.ordered (wf : WellFormed s levels) :
    ∀ lv ∈ levels.tail, Ordered (flat lv).tail ∧ ∀ n ∈ lv, n.pairs ≠ [] := by
  cases levels with
  | nil => simp
  | cons leaves ups =>
    refine orderAll wf.order wf.tree.inner ?_ wf.linked wf.sized
    have sorted := wf.sorted
    rw [List.headD_cons] at sorted
    cases l : flat leaves with
    | nil => exact List.Pairwise.nil
    | cons e l' => rw [l] at sorted; exact (orderedCons.mp sorted).2

omit [IxKey K] in
theorem levelsNonempty {levels : List (Level K)} {lo : Level K} (linked : (lo :: levels).IsChain Linked) (filled : lo ≠ []) :
    ∀ lv ∈ lo :: levels, lv ≠ [] := by
  induction levels generalizing lo with
  | nil => simpa using filled
  | cons hi rest ih =>
    obtain ⟨link,above⟩ := List.isChain_cons_cons.mp linked
    have next : hi ≠ [] := by
      rintro rfl
      exact filled ((frontNonempty link).mp rfl)
    intro lv mem
    rcases List.mem_cons.mp mem with rfl | mem
    · exact filled
    · exact ih above next lv mem

omit [IxKey K] in
/- There are fewer levels than pages, so the loops that climb or descend never run out of steps. -/
theorem Tree.depth (tree : Tree s levels) (linked : levels.IsChain Linked) : levels.length < s.filePages := by
  have nonempty : ∀ lv ∈ levels, lv ≠ [] := by
    cases levels with
    | nil => simp
    | cons leaves ups =>
      refine levelsNonempty linked ?_
      rintro rfl
      have first := tree.links.first
      cases first
  have count : levels.length ≤ levels.flatten.length := by
    clear tree linked
    induction levels with
    | nil => simp
    | cons lv rest ih =>
      have one := List.length_pos_iff.mpr (nonempty lv List.mem_cons_self)
      have more := ih fun lv mem => nonempty lv (List.mem_cons_of_mem _ mem)
      rw [List.flatten_cons,List.length_append,List.length_cons]
      omega
  have inside : (levels.flatten.map Node.page).toFinset ⊆ Finset.Ico (2 : Int) s.filePages := by
    intro p mem
    obtain ⟨n,memn,rfl⟩ := List.mem_map.mp (List.mem_toFinset.mp mem)
    exact Finset.mem_Ico.mpr (tree.nodes.range n memn)
  have bound := Finset.card_le_card inside
  rw [List.toFinset_card_of_nodup tree.nodes.once,List.length_map,Int.card_Ico] at bound
  cases levels with
  | nil =>
    have first := tree.links.first
    cases first
  | cons leaves ups =>
    rw [List.length_cons] at count ⊢
    omega

theorem findLeafTree (wf : WellFormed s levels) (k : K) : ∃ A n B ups, levels = (A ++ n :: B) :: ups ∧ Covers A n B k ∧
    findLeafPage k false s = .ok n.page s := by
  obtain ⟨r,last,page,_⟩ := wf.root
  obtain ⟨below,rfl⟩ := List.getLast?_eq_some_iff.mp last
  have deep := wf.tree.depth wf.linked
  rw [List.length_append,List.length_singleton] at deep
  obtain ⟨A,n,B,head,covers,run⟩ := @descendTree _ _ s k below [] [] r [] s.filePages (by omega) wf.tree wf.linked
    wf.ordered ⟨by simp,by simp⟩
  obtain ⟨ups,shape⟩ := List.head?_eq_some_iff.mp head
  refine ⟨A,n,B,ups,shape,covers,?_⟩
  simp only [findLeafPage,getBind,page]
  exact run

end Shape

section Lookup
variable {s : IxIndexHandle K} {levels : List (Level K)} {A B : Level K} {n : Node K} {k : K}

theorem coversLookup (sorted : Ordered (flat (A ++ n :: B))) (covers : Covers A n B k) :
    asMap (flat (A ++ n :: B)) k = asMap n.pairs k := by
  obtain ⟨before,after⟩ := coversFlat sorted covers
  have none : List.lookup k (flat B) = none := lookupNone fun e mem => (after e mem).ne'
  rw [flatAppend,flatCons,asMap,lookupAppendNone fun e mem => (before e mem).ne,List.lookup_append,none]
  simp [asMap]

theorem nodeOrdered (sorted : Ordered (flat (A ++ n :: B))) : Ordered n.pairs := by
  simp only [flatAppend,flatCons,orderedAppend] at sorted
  exact sorted.2.1.1

theorem getValueTree (wf : WellFormed s levels) (k : K) (result : List Rid) :
    getValue k result s = .ok (match asMap (entries levels) k with
      | some v => (true,result ++ [v])
      | none => (false,result)) s := by
  obtain ⟨A,n,B,ups,rfl,covers,run⟩ := findLeafTree wf k
  have sorted : Ordered (flat (A ++ n :: B)) := wf.sorted
  obtain ⟨node,here,pairs⟩ := fieldSome (wf.tree.nodes.pairs n (by simp))
  have found : node.leafLookup k = asMap (flat (A ++ n :: B)) k := by
    rw [leafLookupSpec (by rw [pairs]; exact nodeOrdered sorted),pairs,coversLookup sorted covers]
  simp only [getValue]
  rw [bindEq run,bindEq (fetchNodeRun here),found]
  simp only [entries,List.headD_cons]
  cases asMap (flat (A ++ n :: B)) k <;> rfl

theorem insertEntryMapped (wf : WellFormed s levels) {v w : Rid} (mapped : asMap (entries levels) k = some w) :
    insertEntry k v s = .error (.error (.plain "Unique index constraint violated")) s := by
  have found := getValueTree wf k []
  rw [mapped] at found
  simp only [insertEntry]
  rw [bindEq found]
  rfl

theorem insertRun {l : List (K × Rid)} {p : Int} {v : Rid} (pairs : s.field IxPage.pairs p = some l) (sorted : Ordered l)
    (absent : asMap l k = none) (room : l.length < s.getMaxSize) :
    ∃ a b, l = a ++ b ∧ (∀ e ∈ a, e.1 < k) ∧ (∀ e ∈ b, k < e.1) ∧
      IxIndexHandle.insert p k v s = .ok () (s.setPairs p (a ++ (k,v) :: b)) := by
  obtain ⟨node,here,rfl⟩ := fieldSome pairs
  obtain ⟨a,b,split,small,large,bound⟩ := lowerBoundSpec sorted k
  have later : ∀ e ∈ b, k < e.1 := by
    intro e mem
    refine lt_of_le_of_ne (large e mem) ?_
    rintro rfl
    have inside : (e.1,e.2) ∈ node.pairs := by rw [split]; exact List.mem_append_right _ mem
    rw [asMap,(lookupMem sorted).mpr inside] at absent
    cases absent
  refine ⟨a,b,split,small,later,?_⟩
  rw [split] at pairs room
  rw [List.length_append] at room
  have put : insertPairs p a.length [(k,v)] s = .ok () (s.setPairs p (a ++ (k,v) :: b)) := by
    have done := @insertPairsRun _ s p a b a.length [(k,v)] pairs rfl (by simp only [List.length_singleton]; omega)
    simpa using done
  simp only [IxIndexHandle.insert]
  rw [bindEq (fetchNodeRun here),bound,split]
  cases b with
  | nil => simpa using put
  | cons e b =>
    have differ : ixCompare e.1 k ≠ 0 := by
      rw [ne_eq,IxKey.compareEq]
      exact (later e List.mem_cons_self).ne'
    simpa [differ] using put

end Lookup

section Insert
variable {s : IxIndexHandle K} {levels : List (Level K)} {k : K} {v : Rid}

def insertTail (leaf : Int) (key : K) : M (IxIndexHandle K) Int := do
  let node ← fetchNode leaf
  let s ← get
  if s.getMaxSize ≤ node.size then
    let newLeaf ← split leaf
    let newKey ← getKey newLeaf 0
    insertIntoParent s.filePages leaf newKey newLeaf
    pure (if 0 ≤ ixCompare key newKey then newLeaf else leaf)
  else pure leaf

omit [IxKey K] in
theorem sizedUp {order : Nat} {lo : Level K} {ups : List (Level K)} (sized : Sized order (lo :: ups)) :
    SizedUp order ups := by
  cases ups with
  | nil => trivial
  | cons hi ups => exact sized.2

theorem pickHalf {a b : List (K × Rid)} {e : K × Rid} (sorted : Ordered (a ++ e :: b)) (mem : (k,v) ∈ a ++ e :: b) :
    if 0 ≤ ixCompare k e.1 then (k,v) ∈ e :: b else (k,v) ∈ a := by
  obtain ⟨_,before,after⟩ := orderedMid.mp sorted
  have test : 0 ≤ ixCompare k e.1 ↔ e.1 ≤ k := by
    rw [← not_lt,IxKey.compareLt,not_lt]
  split
  · rename_i large
    rcases List.mem_append.mp mem with left | right
    · exact absurd (before _ left) (not_lt.mpr (test.mp large))
    · exact right
  · rename_i small
    rw [test,not_le] at small
    rcases List.mem_append.mp mem with left | right
    · exact left
    · rcases List.mem_cons.mp right with rfl | right
      · exact absurd small (lt_irrefl _)
      · exact absurd (after _ right) (not_lt.mpr small.le)

theorem insertTailTree {A B : Level K} {n : Node K} {ups : List (Level K)} (tree : Tree s ((A ++ n :: B) :: ups))
    (linked : ((A ++ n :: B) :: ups).IsChain Linked) (root : Root s ((A ++ n :: B) :: ups))
    (big : 2 < s.fileHdr.btreeOrder) (sized : Sized s.fileHdr.btreeOrder ((A ++ n :: B) :: ups) ∨
      s.NextUnused ∧ n.pairs.length = s.fileHdr.btreeOrder+1 ∧ SizedUp s.fileHdr.btreeOrder ups ∧
        ∀ m ∈ A ++ B, Fits s.fileHdr.btreeOrder m)
    (sorted : Ordered (flat (A ++ n :: B))) (mem : (k,v) ∈ n.pairs) :
    ∃ p t levels, insertTail n.page k s = .ok p t ∧ WellFormed t levels ∧ entries levels = flat (A ++ n :: B) ∧
      (∃ m ∈ levels.headD [], m.page = p ∧ (k,v) ∈ m.pairs) ∧ t.fileHdr.btreeOrder = s.fileHdr.btreeOrder ∧
      (s.NextUnused ∧ t.NextUnused ∨ t = s ∧ levels = (A ++ n :: B) :: ups) := by
  obtain ⟨node,here,pairs⟩ := fieldSome (tree.nodes.pairs n (by simp))
  have size : node.size = n.pairs.length := by rw [IxPage.size,pairs]
  simp only [insertTail]
  rw [bindEq (fetchNodeRun here)]
  simp only [getBind,size]
  rcases sized with fits | ⟨unused,exactly,sizedUps,others⟩
  · have small : n.pairs.length ≤ s.fileHdr.btreeOrder := sizedMem fits (by simp)
    rw [if_neg (by rw [getMaxSize]; omega)]
    exact ⟨n.page,s,(A ++ n :: B) :: ups,rfl,⟨tree,linked,root,big,fits,sorted⟩,rfl,⟨n,by simp,rfl,mem⟩,rfl,.inr ⟨rfl,rfl⟩⟩
  · rw [if_pos (by rw [getMaxSize]; omega)]
    have leaf : n.leaf = true := tree.leaves n (by simp)
    have depth := tree.depth linked
    obtain ⟨t,splitRun,tree2,off⟩ := @splitTree _ s n [] ups A B tree unused (by rw [getMaxSize]; omega)
      (by rw [leaf]; simp) (by rw [leaf]; simp)
    rw [List.nil_append] at tree2
    obtain ⟨e,es,right⟩ : ∃ e es, (rightHalf n s.fd2pageno).pairs = e :: es := by
      apply List.exists_cons_of_ne_nil
      rw [← List.length_pos_iff,rightHalf,List.length_drop]
      omega
    have newKey : getKey s.fd2pageno 0 t = .ok e.1 t :=
      getKeyRun ((tree2.nodes.pairs (rightHalf n s.fd2pageno) (by simp)).trans (by rw [right])) rfl
    have leftFirst : (leftHalf n).first = n.first := firstTake _ (by omega)
    have root2 : Root t ((A ++ leftHalf n :: B) :: ups) := by
      refine root.replace rfl off.root ?_
      intro m memm none
      refine (off.parent m.page ?_ ?_).trans none
      · have old := (tree.nodes.range m memm).2
        exact (old.trans_le unused).ne
      · rw [none]
        intro same
        have low := (tree.nodes.range n (by simp)).1
        have := Option.some.inj same
        simp only [ixNoPage] at this
        omega
    obtain ⟨t2,ups',climb,done⟩ := @insertIntoParentTree _ s.fileHdr.btreeOrder big ups [] A B (leftHalf n)
      (rightHalf n s.fd2pageno) t s.filePages e.1 (by rw [List.length_cons] at depth; omega) off.order tree2 off.unused
      (chainReplace linked rfl fun _ => leftFirst) root2 sizedUps (off.sibling.trans off.own.symm)
      (by rw [Node.first,right]; rfl) (by rw [ne_eq,← List.length_eq_zero_iff,leftHalf,List.length_take]; omega)
    have flatSame := flatHalves A B n (s.fd2pageno : Int)
    have order2 := done.order
    refine ⟨if 0 ≤ ixCompare k e.1 then (s.fd2pageno : Int) else n.page,t2,
      (A ++ leftHalf n :: rightHalf n s.fd2pageno :: B) :: ups',?_,
      ⟨done.tree,done.linked,done.root,by omega,?_,?_⟩,flatSame,?_,order2,.inl ⟨unused,done.unused⟩⟩
    · rw [bindEq splitRun,bindEq newKey]
      have step : insertIntoParent s.filePages n.page e.1 s.fd2pageno t = .ok () t2 := climb
      rw [bindEq step]
      rfl
    · have higher : ups' ≠ [] := by
        rintro rfl
        exact done.sized
      obtain ⟨fitsLeft,fitsRight⟩ := @halvesFit _ _ n s.fd2pageno big exactly
      rw [order2,sizedCons higher]
      refine ⟨?_,done.sized⟩
      intro m memm
      simp only [List.mem_append,List.mem_cons] at memm
      rcases memm with memm | rfl | rfl | memm
      · exact others m (by simp [memm])
      · exact fitsLeft
      · exact fitsRight
      · exact others m (by simp [memm])
    · rw [List.headD_cons,flatSame]
      exact sorted
    · have whole : n.pairs = (leftHalf n).pairs ++ e :: es := by
        rw [← right,leftHalf,rightHalf,List.take_append_drop]
      have half := @pickHalf _ _ k v (leftHalf n).pairs es e (whole ▸ nodeOrdered sorted) (whole ▸ mem)
      split at half
      · rename_i large
        exact ⟨rightHalf n s.fd2pageno,by simp,by rw [if_pos large]; rfl,by rw [right]; exact half⟩
      · rename_i small
        exact ⟨leftHalf n,by simp,by rw [if_neg small]; rfl,half⟩

theorem insertTailFault {n : Node K} (pairs : s.field IxPage.pairs n.page = some n.pairs)
    (full : s.getMaxSize ≤ n.pairs.length) (used : ¬s.NextUnused) : insertTail n.page k s = .error .outOfRange s := by
  obtain ⟨node,here,same⟩ := fieldSome pairs
  have size : node.size = n.pairs.length := by rw [IxPage.size,same]
  have stuck : split n.page s = .error .outOfRange s := by
    rw [split]
    exact bindError (createNodeFault used)
  simp only [insertTail]
  rw [bindEq (fetchNodeRun here)]
  simp only [getBind,size]
  rw [if_pos full]
  exact bindError stuck

structure Inserted (s t : IxIndexHandle K) (levels levels' : List (Level K)) (k : K) (v : Rid) (p : Int) : Prop where
  whole : WellFormed t levels'
  pairs : ∃ a b, entries levels = a ++ b ∧ entries levels' = a ++ (k,v) :: b
  leaf : ∃ m ∈ levels'.headD [], m.page = p ∧ (k,v) ∈ m.pairs
  order : t.fileHdr.btreeOrder = s.fileHdr.btreeOrder
  counter : s.NextUnused ∧ t.NextUnused ∨
    t.counters = s.counters ∧ (levels'.headD []).length = (levels.headD []).length

theorem insertEntryTree (wf : WellFormed s levels) (absent : asMap (entries levels) k = none) :
    (∃ p t levels', insertEntry k v s = .ok p t ∧ Inserted s t levels levels' k v p) ∨
      ¬s.NextUnused ∧ ∃ t, insertEntry k v s = .error .outOfRange t := by
  have notFound := getValueTree wf k []
  rw [absent] at notFound
  obtain ⟨A,n,B,ups,rfl,covers,run⟩ := findLeafTree wf k
  have sorted : Ordered (flat (A ++ n :: B)) := wf.sorted
  have small : n.pairs.length ≤ s.fileHdr.btreeOrder := sizedMem wf.sized (by simp)
  have noPair : asMap n.pairs k = none := by
    rw [← coversLookup sorted covers]
    exact absent
  obtain ⟨a,b,split,before,after,put⟩ := @insertRun _ _ s k n.pairs n.page v (wf.tree.nodes.pairs n (by simp))
    (nodeOrdered sorted) noPair (by rw [getMaxSize]; omega)
  have leaf : n.leaf = true := wf.tree.leaves n (by simp)
  have tree := @Tree.setPairs _ s [] ups A B n (a ++ (k,v) :: b) wf.tree (by rw [leaf]; simp)
  rw [List.nil_append] at tree
  obtain ⟨flatBefore,flatAfter⟩ := coversFlat sorted covers
  generalize new : ({n with pairs := a ++ (k,v) :: b} : Node K) = m at tree
  have page : m.page = n.page := by rw [← new]
  have mpairs : m.pairs = a ++ (k,v) :: b := by rw [← new]
  have length : m.pairs.length = n.pairs.length+1 := by
    rw [mpairs,split]
    simp only [List.length_append,List.length_cons]
    omega
  have first : A ≠ [] → m.first = n.first := by
    intro some
    obtain ⟨f,isFirst,less⟩ := covers.low some
    obtain ⟨r,rest,pairs⟩ := firstCons isFirst
    rw [Node.first,Node.first,mpairs,split]
    cases a with
    | nil =>
      rw [split,List.nil_append] at pairs
      have above := after (f,r) (by rw [pairs]; exact List.mem_cons_self)
      exact absurd above (not_lt.mpr less)
    | cons x a => rfl
  have oldFlat : flat (A ++ n :: B) = (flat A ++ a) ++ (b ++ flat B) := by simp [split]
  have newFlat : flat (A ++ m :: B) = (flat A ++ a) ++ (k,v) :: (b ++ flat B) := by simp [mpairs]
  have newSorted : Ordered (flat (A ++ m :: B)) := by
    rw [newFlat,orderedMid,← oldFlat]
    refine ⟨sorted,?_,?_⟩
    · intro e mem
      rcases List.mem_append.mp mem with mem | mem
      · exact flatBefore e mem
      · exact before e mem
    · intro e mem
      rcases List.mem_append.mp mem with mem | mem
      · exact after e mem
      · exact flatAfter e mem
  have inside : (k,v) ∈ m.pairs := by rw [mpairs]; simp
  have later : insertEntry k v s = insertTail n.page k (s.setPairs n.page (a ++ (k,v) :: b)) := by
    simp only [insertEntry]
    rw [bindEq notFound]
    simp only [Bool.false_eq_true,if_false]
    rw [bindEq run,bindEq put]
    rfl
  rw [later]
  by_cases stuck : s.NextUnused ∨ m.pairs.length ≤ s.fileHdr.btreeOrder
  · have sizes : Sized s.fileHdr.btreeOrder ((A ++ m :: B) :: ups) ∨ s.NextUnused ∧
        m.pairs.length = s.fileHdr.btreeOrder+1 ∧ SizedUp s.fileHdr.btreeOrder ups ∧
        ∀ x ∈ A ++ B, Fits s.fileHdr.btreeOrder x := by
      by_cases full : m.pairs.length ≤ s.fileHdr.btreeOrder
      · exact .inl (sizedGrow wf.sized full (by omega) (by rw [← new]))
      · refine .inr ⟨stuck.resolve_right full,by omega,sizedUp wf.sized,?_⟩
        intro x mem
        exact sizedOthers wf.sized (List.mem_append.mp mem)
    obtain ⟨p,t,levels',done,wf',same,holds,order,counter⟩ := @insertTailTree _ _ (s.setPairs n.page (a ++ (k,v) :: b)) _ _
      _ _ _ _ tree (chainReplace wf.linked page first)
      (wf.root.replace page rfl fun q _ none => by rw [pairsParent]; exact none) wf.order sizes newSorted inside
    refine .inl ⟨p,t,levels',?_,wf',⟨flat A ++ a,b ++ flat B,oldFlat,same.trans newFlat⟩,holds,order,?_⟩
    · rw [page] at done
      exact done
    · refine counter.imp id ?_
      rintro ⟨rfl,rfl⟩
      exact ⟨rfl,by simp⟩
  · obtain ⟨used,full⟩ := not_or.mp stuck
    have pairs : (s.setPairs n.page (a ++ (k,v) :: b)).field IxPage.pairs m.page = some m.pairs := tree.nodes.pairs m (by simp)
    have fault := insertTailFault (k := k) pairs (by rw [getMaxSize]; exact not_le.mp full) used
    rw [page] at fault
    exact .inr ⟨used,_,fault⟩

end Insert
end Rmdb.Index
