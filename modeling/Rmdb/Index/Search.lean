import Rmdb.Index.Insert

/-! The binary searches inside a node and the descent from the root. A node covers a key
when the key is not below its first key (unless it is the leftmost of its level) and is
below the first key of the node to its right. -/
namespace Rmdb.Index
open Lib IxIndexHandle
variable {K : Type} [IxKey K]

section Node
variable {node : IxPage K} {k : K}

theorem lowerBoundSpec (order : Ordered node.pairs) (k : K) : ∃ a b, node.pairs = a ++ b ∧
    (∀ e ∈ a, e.1 < k) ∧ (∀ e ∈ b, k ≤ e.1) ∧ node.lowerBound k = a.length := by
  obtain ⟨a,b,split,yes,no⟩ := orderedSplit order (fun x => decide (x < k)) (by
    intro x y less small
    simp only [decide_eq_true_eq] at small ⊢
    exact less.trans small)
  simp only [decide_eq_true_eq,decide_eq_false_iff_not,not_lt] at yes no
  refine ⟨a,b,split,yes,no,?_⟩
  rw [IxPage.lowerBound,IxPage.size,split]
  refine partitionPointEq (by omega) (Nat.zero_le _) (by simp) ?_ ?_
  · intro i _ small
    rw [List.getElem?_append_left small,List.getElem?_eq_getElem small]
    simpa [IxKey.compareLt] using yes _ (List.getElem_mem small)
  · intro i large small
    have inside : i-a.length < b.length := by rw [List.length_append] at small; omega
    rw [List.getElem?_append_right large,List.getElem?_eq_getElem inside]
    have least := no _ (List.getElem_mem inside)
    simpa [IxKey.compareLt] using least

theorem compareLe (a b : K) : ixCompare a b ≤ 0 ↔ a ≤ b := by
  rw [le_iff_lt_or_eq,le_iff_lt_or_eq,IxKey.compareLt,IxKey.compareEq]

theorem upperBoundSpec {c : K × Rid} {rest : List (K × Rid)} (pairs : node.pairs = c :: rest) (order : Ordered rest)
    (k : K) : ∃ a e b, node.pairs = a ++ e :: b ∧ (a ≠ [] → e.1 ≤ k) ∧ (∀ x ∈ b, k < x.1) ∧
      node.upperBound k-1 = a.length := by
  obtain ⟨a,b,split,yes,no⟩ := orderedSplit order (fun x => decide (x ≤ k)) (by
    intro x y less small
    simp only [decide_eq_true_eq] at small ⊢
    exact less.le.trans small)
  simp only [decide_eq_true_eq,decide_eq_false_iff_not,not_le] at yes no
  have bound : node.upperBound k = a.length+1 := by
    rw [IxPage.upperBound,IxPage.size,pairs,split]
    refine partitionPointEq (by omega) (by omega) (by simp) ?_ ?_
    · intro i positive small
      obtain ⟨j,rfl⟩ := Nat.exists_eq_succ_of_ne_zero (Nat.pos_iff_ne_zero.mp positive)
      have inside : j < a.length := by omega
      rw [List.getElem?_cons_succ,List.getElem?_append_left inside,List.getElem?_eq_getElem inside]
      simpa [compareLe] using yes _ (List.getElem_mem inside)
    · intro i large small
      obtain ⟨j,rfl⟩ : ∃ j, i = j+1 := Nat.exists_eq_succ_of_ne_zero (by omega)
      have inside : j-a.length < b.length := by
        rw [List.length_cons,List.length_append] at small; omega
      rw [List.getElem?_cons_succ,List.getElem?_append_right (by omega),List.getElem?_eq_getElem inside]
      have least := no _ (List.getElem_mem inside)
      simpa [compareLe] using least
  rw [pairs,split,bound]
  rcases List.eq_nil_or_concat a with rfl | ⟨a,e,rfl⟩
  · exact ⟨[],c,b,rfl,by simp,no,rfl⟩
  · exact ⟨c :: a,e,b,by simp,fun _ => yes e (by simp),no,by simp⟩

theorem leafLookupSpec (order : Ordered node.pairs) (k : K) : node.leafLookup k = asMap node.pairs k := by
  obtain ⟨a,b,split,small,large,bound⟩ := lowerBoundSpec order k
  have before : ∀ e ∈ a, e.1 ≠ k := fun e mem => (small e mem).ne
  rw [IxPage.leafLookup,bound,split,asMap,lookupAppendNone before]
  simp only [List.getElem?_append_right (le_refl _),Nat.sub_self]
  cases b with
  | nil => rfl
  | cons e b =>
    simp only [List.getElem?_cons_zero,ne_eq,IxKey.compareEq]
    obtain ⟨j,v⟩ := e
    by_cases same : j = k
    · subst same; simp
    · have later : ∀ x ∈ b, x.1 ≠ k := by
        intro x mem
        rw [split] at order
        have less := ((orderedMid.mp order).2.2) x mem
        exact ((lt_of_le_of_ne (large _ List.mem_cons_self) (Ne.symm same)).trans less).ne'
      have different : (k == j) = false := by simpa using Ne.symm same
      rw [if_pos same,List.lookup_cons,different]
      exact (lookupNone later).symm

end Node

omit [IxKey K] in
theorem firstCons {n : Node K} {f : K} (first : n.first = some f) : ∃ r rest, n.pairs = (f,r) :: rest := by
  rw [Node.first,Option.map_eq_some_iff] at first
  obtain ⟨⟨j,r⟩,head,rfl⟩ := first
  obtain ⟨rest,pairs⟩ := List.head?_eq_some_iff.mp head
  exact ⟨r,rest,pairs⟩

section Cover
variable {A B : Level K} {n : Node K} {k : K}

structure Covers (A : Level K) (n : Node K) (B : Level K) (k : K) : Prop where
  low : A ≠ [] → ∃ f, n.first = some f ∧ f ≤ k
  high : ∀ m ∈ B.head?, ∃ f, m.first = some f ∧ k < f

theorem coversFlat (order : Ordered (flat (A ++ n :: B))) (covers : Covers A n B k) :
    (∀ e ∈ flat A, e.1 < k) ∧ ∀ e ∈ flat B, k < e.1 := by
  simp only [flatAppend,flatCons,orderedAppend] at order
  obtain ⟨_,⟨_,orderB,_⟩,across⟩ := order
  refine ⟨?_,?_⟩
  · intro e mem
    have some : A ≠ [] := by rintro rfl; simp at mem
    obtain ⟨f,first,less⟩ := covers.low some
    obtain ⟨r,rest,pairs⟩ := firstCons first
    exact (across e mem (f,r) (by simp [pairs])).trans_le less
  · intro e mem
    cases B with
    | nil => simp at mem
    | cons m B =>
      obtain ⟨f,first,less⟩ := covers.high m (by simp)
      obtain ⟨r,rest,pairs⟩ := firstCons first
      rw [flatCons,pairs,List.cons_append] at mem orderB
      rcases List.mem_cons.mp mem with rfl | mem
      · exact less
      · exact less.trans ((orderedCons.mp orderB).1 e mem)

end Cover

section Order

omit [IxKey K] in
theorem frontSplitLeft {es1 es2 : List (K × Rid)} {e : K × Rid} {ns : Level K} (front : Front (es1 ++ e :: es2) ns) :
    ∃ A m B, ns = A ++ m :: B ∧ Front es1 A ∧ e.2 = m.ptr ∧ (A ≠ [] → m.first = some e.1) ∧
      List.Forall₂ Exact es2 B := by
  have length := frontLength front
  rw [List.length_append,List.length_cons] at length
  have inside : es1.length < ns.length := by omega
  have shape : ns = ns.take es1.length ++ ns[es1.length] :: ns.drop (es1.length+1) := by simp
  rw [shape] at front
  obtain ⟨fs,x,gs,same,left,ptr,key,right⟩ := frontSplit front
  have size : fs.length = es1.length := by
    have := frontLength left
    rw [List.length_take] at this
    omega
  obtain ⟨rfl,rest⟩ := List.append_inj same size.symm
  obtain ⟨rfl,rfl⟩ := List.cons.inj rest
  exact ⟨_,_,_,shape,left,ptr,key,right⟩

theorem firstsOrdered {es : List (K × Rid)} {ns : Level K} (all : List.Forall₂ Exact es ns) (order : Ordered (flat ns)) :
    Ordered es := by
  induction all with
  | nil => exact List.Pairwise.nil
  | @cons e n es ns head tail ih =>
    rw [flatCons,orderedAppend] at order
    obtain ⟨_,orderRest,across⟩ := order
    refine orderedCons.mpr ⟨?_,ih orderRest⟩
    obtain ⟨r,rest,pairs⟩ := firstCons head.2
    intro x mem
    clear ih
    induction tail with
    | nil => cases mem
    | @cons y m es ns first tail ih =>
      rw [flatCons] at across orderRest
      rcases List.mem_cons.mp mem with rfl | mem
      · obtain ⟨q,others,inside⟩ := firstCons first.2
        exact across (e.1,r) (by simp [pairs]) (x.1,q) (by simp [inside])
      · exact ih (orderedAppend.mp orderRest).2.1 (fun a ma b mb => across a ma b (List.mem_append_right _ mb)) mem

theorem orderUp {lo hi : Level K} (order : Ordered (flat lo).tail) (linked : Linked lo hi)
    (filled : ∀ n ∈ lo, n.pairs ≠ []) : Ordered (flat hi).tail := by
  rw [Linked] at linked
  cases es : flat hi with
  | nil => exact List.Pairwise.nil
  | cons e es' =>
    rw [es] at linked
    cases lo with
    | nil => cases linked
    | cons n ns =>
      refine firstsOrdered linked.2 ?_
      obtain ⟨x,rest,pairs⟩ := List.exists_cons_of_ne_nil (filled n List.mem_cons_self)
      rw [flatCons,pairs,List.cons_append,List.tail_cons,orderedAppend] at order
      exact order.2.1

end Order

section Descent
variable {s : IxIndexHandle K} {k : K}

theorem tailOrdered {l1 l2 rest : List (K × Rid)} {c : K × Rid} (order : Ordered (l1 ++ (c :: rest ++ l2)).tail) :
    Ordered rest := by
  cases l1 with
  | nil => exact (orderedAppend.mp order).1
  | cons x l1 =>
    rw [List.cons_append,List.tail_cons] at order
    exact (orderedCons.mp (orderedAppend.mp (orderedAppend.mp order).2.1).1).2

theorem coversDown {lo A B : Level K} {n : Node K} {a b : List (K × Rid)} {e : K × Rid} (covers : Covers A n B k)
    (linked : Linked lo (A ++ n :: B)) (pairs : n.pairs = a ++ e :: b) (low : a ≠ [] → e.1 ≤ k) (high : ∀ x ∈ b, k < x.1) :
    ∃ A' m B', lo = A' ++ m :: B' ∧ m.page = e.2.pageNo ∧ Covers A' m B' k := by
  have shape : flat (A ++ n :: B) = (flat A ++ a) ++ e :: (b ++ flat B) := by simp [pairs]
  rw [Linked,shape] at linked
  obtain ⟨A',m,B',rfl,left,ptr,key,right⟩ := frontSplitLeft linked
  refine ⟨A',m,B',rfl,by rw [ptr]; rfl,?_,?_⟩
  · intro some
    refine ⟨e.1,key some,?_⟩
    by_cases inside : a = []
    · subst inside
      rw [List.append_nil] at left
      have front : A ≠ [] := by
        rintro rfl
        exact some ((frontNonempty left).mp rfl)
      obtain ⟨f,first,less⟩ := covers.low front
      rw [Node.first,pairs] at first
      cases first
      exact less
    · exact low inside
  · intro m' mem
    cases B' with
    | nil => simp at mem
    | cons next B' =>
      cases mem
      obtain ⟨x,rest,head,_,es⟩ := List.forall₂_cons_right_iff.mp right
      refine ⟨x.1,head.2,?_⟩
      cases b with
      | cons y b =>
        obtain ⟨rfl,_⟩ := List.cons.inj es
        exact high y List.mem_cons_self
      | nil => cases B with
        | nil => simp at es
        | cons n' B =>
          obtain ⟨f,first,less⟩ := covers.high n' (by simp)
          obtain ⟨r,others,inside⟩ := firstCons first
          rw [List.nil_append,flatCons,inside,List.cons_append] at es
          obtain ⟨rfl,_⟩ := List.cons.inj es
          exact less

theorem descendTree {below : List (Level K)} : ∀ {A B : Level K} {n : Node K} {ups : List (Level K)} {fuel : Nat},
    below.length < fuel → Tree s (below ++ (A ++ n :: B) :: ups) → (below ++ (A ++ n :: B) :: ups).IsChain Linked →
    (∀ lv ∈ (below ++ (A ++ n :: B) :: ups).tail, Ordered (flat lv).tail ∧ ∀ m ∈ lv, m.pairs ≠ []) →
    Covers A n B k → ∃ A' leaf B', (below ++ [A ++ n :: B]).head? = some (A' ++ leaf :: B') ∧ Covers A' leaf B' k ∧
      descend k false fuel n.page s = .ok leaf.page s := by
  induction below using List.reverseRecOn with
  | nil =>
    intro A B n ups fuel enough tree _ _ covers
    obtain ⟨fuel,rfl⟩ := Nat.exists_eq_succ_of_ne_zero (Nat.ne_zero_of_lt enough)
    refine ⟨A,n,B,rfl,covers,?_⟩
    obtain ⟨node,here,leaf⟩ := fieldSome (tree.nodes.leaf n focusMem)
    simp only [descend]
    rw [bindEq (fetchNodeRun here),leaf,tree.kind.mpr rfl]
    rfl
  | append_singleton below lo ih =>
    intro A B n ups fuel enough tree linked ordered covers
    obtain ⟨fuel,rfl⟩ := Nat.exists_eq_succ_of_ne_zero (Nat.ne_zero_of_lt enough)
    have shape : below ++ [lo] ++ (A ++ n :: B) :: ups = below ++ lo :: (A ++ n :: B) :: ups := by simp
    have inner : n.leaf = false := by
      have kind := tree.kind
      cases leaf : n.leaf with
      | false => rfl
      | true => exact absurd (kind.mp leaf) (by simp)
    obtain ⟨node,here,pairs⟩ := fieldSome (tree.nodes.pairs n focusMem)
    have isLeaf : node.isLeaf = false := by
      have leaf := tree.nodes.leaf n focusMem
      simpa [field,here,inner] using leaf
    have memLevel : A ++ n :: B ∈ (below ++ [lo] ++ (A ++ n :: B) :: ups).tail := by
      rw [shape]; cases below <;> simp
    obtain ⟨order,filled⟩ := ordered _ memLevel
    obtain ⟨c,rest,cons⟩ := List.exists_cons_of_ne_nil (filled n (by simp))
    obtain ⟨a,e,b,split,low,high,bound⟩ := upperBoundSpec (pairs.trans cons)
      (by rw [flatAppend,flatCons,cons] at order; exact tailOrdered order) k
    rw [shape] at linked tree ordered
    have link : Linked lo (A ++ n :: B) := by
      have above := (List.isChain_append.mp linked).2.1
      exact (List.isChain_cons_cons.mp above).1
    obtain ⟨A',m,B',rfl,page,covers'⟩ := coversDown covers link (pairs.symm.trans split) low high
    obtain ⟨A2,leaf,B2,head,found,run⟩ := @ih A' B' m ((A ++ n :: B) :: ups) fuel (by simpa using enough) tree linked
      ordered covers'
    refine ⟨A2,leaf,B2,?_,found,?_⟩
    · rw [← head]
      cases below <;> rfl
    · have known : s.field IxPage.pairs n.page = some (a ++ e :: b) := by
        rw [← split]; simp [field,here]
      simp only [descend]
      rw [bindEq (fetchNodeRun here),isLeaf]
      simp only [Bool.false_eq_true,if_false,internalLookup]
      rw [bindEq (a := e.2.pageNo) (t := s) (by
        rw [bindEq (fetchNodeRun here),bound]
        exact valueAtRun known (by simp)),← page]
      exact run

end Descent
end Rmdb.Index
