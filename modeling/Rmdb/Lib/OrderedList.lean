import Mathlib

/-! Binary search over an index range, and lists of key/value pairs kept in strictly
ascending key order, read as finite maps. -/
namespace Rmdb.Lib

def partitionPoint (p : Nat → Bool) : Nat → Nat → Nat → Nat
  | 0,left,_ => left
  | fuel+1,left,right =>
    if left < right then
      let mid := left+(right-left)/2
      if p mid then partitionPoint p fuel (mid+1) right else partitionPoint p fuel left mid
    else left

theorem partitionPointSpec {p : Nat → Bool} {fuel left right : Nat} (enough : right-left ≤ fuel)
    (order : left ≤ right) (down : ∀ i j, left ≤ i → i ≤ j → j < right → p j = true → p i = true) :
    left ≤ partitionPoint p fuel left right ∧ partitionPoint p fuel left right ≤ right ∧
    (∀ i, left ≤ i → i < partitionPoint p fuel left right → p i = true) ∧
    ∀ i, partitionPoint p fuel left right ≤ i → i < right → p i = false := by
  induction fuel generalizing left right with
  | zero =>
    have same : left = right := by omega
    subst same
    simp only [partitionPoint]
    exact ⟨le_refl _,le_refl _,fun i a b => by omega,fun i a b => by omega⟩
  | succ fuel ih =>
    simp only [partitionPoint]
    split
    · rename_i less
      have inside : left ≤ left+(right-left)/2 ∧ left+(right-left)/2 < right := by omega
      generalize left+(right-left)/2 = mid at inside
      cases test : p mid with
      | true =>
        simp only [if_true]
        obtain ⟨low,high,yes,no⟩ := @ih (mid+1) right (by omega) (by omega)
          (fun i j a => down i j (by omega))
        refine ⟨by omega,high,?_,no⟩
        intro i a b
        by_cases before : i ≤ mid
        · exact down i mid a before inside.2 test
        · exact yes i (by omega) b
      | false =>
        simp only [Bool.false_eq_true,if_false]
        obtain ⟨low,high,yes,no⟩ := @ih left mid (by omega) inside.1
          (fun i j a b c => down i j a b (by omega))
        refine ⟨low,by omega,yes,?_⟩
        intro i a b
        by_cases before : i < mid
        · exact no i a before
        · cases later : p i with
          | false => rfl
          | true => rw [down mid i inside.1 (by omega) b later] at test; cases test
    · have same : left = right := by omega
      subst same
      exact ⟨le_refl _,le_refl _,fun i a b => by omega,fun i a b => by omega⟩

theorem partitionPointEq {p : Nat → Bool} {fuel left right mid : Nat} (enough : right-left ≤ fuel) (low : left ≤ mid)
    (high : mid ≤ right) (yes : ∀ i, left ≤ i → i < mid → p i = true) (no : ∀ i, mid ≤ i → i < right → p i = false) :
    partitionPoint p fuel left right = mid := by
  obtain ⟨above,below,before,after⟩ := @partitionPointSpec p fuel left right enough (low.trans high) (by
    intro i j a b c test
    by_cases small : i < mid
    · exact yes i a small
    · rw [no j (by omega) c] at test; cases test)
  rcases Nat.lt_trichotomy (partitionPoint p fuel left right) mid with less | same | more
  · have one := after _ (le_refl _) (by omega)
    rw [yes _ above less] at one; cases one
  · exact same
  · have one := before mid low more
    rw [no mid (le_refl _) (by omega)] at one; cases one

section Ordered
variable {K V : Type} [LinearOrder K]

def Ordered (l : List (K × V)) : Prop := l.Pairwise (fun a b => a.1 < b.1)

theorem orderedAppend {a b : List (K × V)} :
    Ordered (a ++ b) ↔ Ordered a ∧ Ordered b ∧ ∀ x ∈ a, ∀ y ∈ b, x.1 < y.1 := List.pairwise_append

theorem orderedCons {x : K × V} {l : List (K × V)} :
    Ordered (x :: l) ↔ (∀ y ∈ l, x.1 < y.1) ∧ Ordered l := List.pairwise_cons

theorem orderedMid {a b : List (K × V)} {x : K × V} :
    Ordered (a ++ x :: b) ↔ Ordered (a ++ b) ∧ (∀ y ∈ a, y.1 < x.1) ∧ ∀ y ∈ b, x.1 < y.1 := by
  simp only [orderedAppend,orderedCons,List.mem_cons]
  constructor
  · intro ⟨left,⟨after,right⟩,across⟩
    exact ⟨⟨left,right,fun y m z n => across y m z (.inr n)⟩,fun y m => across y m x (.inl rfl),after⟩
  · intro ⟨⟨left,right,across⟩,before,after⟩
    refine ⟨left,⟨after,right⟩,?_⟩
    intro y m z n
    rcases n with rfl | n
    · exact before y m
    · exact across y m z n

theorem orderedSplit {l : List (K × V)} (order : Ordered l) (p : K → Bool)
    (down : ∀ x y, x < y → p y = true → p x = true) :
    ∃ a b, l = a ++ b ∧ (∀ e ∈ a, p e.1 = true) ∧ ∀ e ∈ b, p e.1 = false := by
  induction l with
  | nil => exact ⟨[],[],rfl,by simp,by simp⟩
  | cons x l ih =>
    obtain ⟨after,rest⟩ := orderedCons.mp order
    cases test : p x.1 with
    | true =>
      obtain ⟨a,b,rfl,yes,no⟩ := ih rest
      refine ⟨x :: a,b,rfl,?_,no⟩
      intro e mem
      rcases List.mem_cons.mp mem with rfl | mem
      · exact test
      · exact yes e mem
    | false =>
      refine ⟨[],x :: l,rfl,by simp,?_⟩
      intro e mem
      rcases List.mem_cons.mp mem with rfl | mem
      · exact test
      · cases later : p e.1 with
        | false => rfl
        | true => rw [down x.1 e.1 (after e mem) later] at test; cases test

theorem lookupNone {l : List (K × V)} {k : K} (absent : ∀ e ∈ l, e.1 ≠ k) : l.lookup k = none := by
  rw [List.lookup_eq_none_iff]
  intro e mem
  simpa using fun same => absent e mem (by rw [same])

theorem lookupAppendNone {a b : List (K × V)} {k : K} (absent : ∀ e ∈ a, e.1 ≠ k) :
    (a ++ b).lookup k = b.lookup k := by
  rw [List.lookup_append,lookupNone absent]
  rfl

theorem lookupMid {a b : List (K × V)} {k : K} {v : V} (absent : ∀ e ∈ a, e.1 ≠ k) :
    (a ++ (k,v) :: b).lookup k = some v := by
  rw [lookupAppendNone absent,List.lookup_cons_self]

def asMap (l : List (K × V)) (k : K) : Option V := l.lookup k

theorem asMapInsert {a b : List (K × V)} {k : K} {v : V} (order : Ordered (a ++ (k,v) :: b)) :
    asMap (a ++ (k,v) :: b) = Function.update (asMap (a ++ b)) k (some v) := by
  obtain ⟨_,before,after⟩ := orderedMid.mp order
  funext j
  by_cases here : j = k
  · subst here
    rw [Function.update_self]
    exact lookupMid fun e mem => (before e mem).ne
  · have different : (j == k) = false := by simpa using here
    rw [Function.update_of_ne here,asMap,asMap,List.lookup_append,List.lookup_append,List.lookup_cons,different]

theorem asMapErase {a b : List (K × V)} {k : K} {v : V} (order : Ordered (a ++ (k,v) :: b)) :
    asMap (a ++ b) = Function.update (asMap (a ++ (k,v) :: b)) k none := by
  obtain ⟨_,before,after⟩ := orderedMid.mp order
  rw [asMapInsert order,Function.update_idem]
  symm
  apply Function.update_eq_self_iff.mpr
  refine (lookupNone ?_).symm
  intro e mem
  rcases List.mem_append.mp mem with mem | mem
  · exact (before e mem).ne
  · exact (after e mem).ne'

theorem lookupMem {l : List (K × V)} (order : Ordered l) {k : K} {v : V} : l.lookup k = some v ↔ (k,v) ∈ l := by
  induction l with
  | nil => simp
  | cons x l ih =>
    obtain ⟨after,rest⟩ := orderedCons.mp order
    obtain ⟨j,w⟩ := x
    rw [List.lookup_cons]
    by_cases here : k = j
    · subst here
      have absent : (k,v) ∉ l := fun mem => lt_irrefl k (after (k,v) mem)
      simp [absent,eq_comm]
    · have different : (k == j) = false := by simpa using here
      rw [different]
      simp [here,ih rest]

end Ordered

theorem flatMapSplit {α β : Type} {f : α → List β} {l : List α} {a b : List β} {x : β}
    (flat : l.flatMap f = a ++ x :: b) :
    ∃ l1 y l2 c d, l = l1 ++ y :: l2 ∧ f y = c ++ x :: d ∧ a = l1.flatMap f ++ c ∧ b = d ++ l2.flatMap f := by
  induction l generalizing a with
  | nil => simp at flat
  | cons y l ih =>
    rw [List.flatMap_cons,List.append_eq_append_iff] at flat
    rcases flat with ⟨c,rfl,rest⟩ | ⟨c,head,rest⟩
    · obtain ⟨l1,z,l2,c',d,rfl,inside,rfl,rfl⟩ := ih rest
      exact ⟨y :: l1,z,l2,c',d,rfl,inside,by simp,rfl⟩
    · cases c with
      | nil =>
        obtain ⟨l1,z,l2,c',d,rfl,inside,empty,rfl⟩ := ih (a := []) (by simpa using rest.symm)
        obtain ⟨none,rfl⟩ := List.append_eq_nil_iff.mp empty.symm
        refine ⟨y :: l1,z,l2,[],d,rfl,inside,?_,rfl⟩
        simp only [List.append_nil] at head
        simp [head,none]
      | cons z c =>
        simp only [List.cons_append,List.cons.injEq] at rest
        obtain ⟨rfl,rfl⟩ := rest
        exact ⟨[],y,l,a,c,rfl,head,by simp,rfl⟩

theorem forall₂ImpMem {α β : Type} {R R' : α → β → Prop} {l1 : List α} {l2 : List β} (all : List.Forall₂ R l1 l2)
    (imp : ∀ a ∈ l1, ∀ b ∈ l2, R a b → R' a b) : List.Forall₂ R' l1 l2 := by
  induction all with
  | nil => exact .nil
  | cons head tail ih =>
    refine .cons (imp _ List.mem_cons_self _ List.mem_cons_self head) (ih ?_)
    intro a mema b memb
    exact imp a (List.mem_cons_of_mem _ mema) b (List.mem_cons_of_mem _ memb)

theorem forall₂At {α β : Type} {R : α → β → Prop} {l1 : List α} {l2 : List β} (all : List.Forall₂ R l1 l2) {i : Nat} {a : α}
    (here : l1[i]? = some a) : ∃ b, l2[i]? = some b ∧ R a b := by
  induction all generalizing i with
  | nil => cases here
  | @cons x y l1 l2 head tail ih => cases i with
    | zero => cases here; exact ⟨y,rfl,head⟩
    | succ i => exact ih here

theorem forall₂Split {α β : Type} {R : α → β → Prop} {l1 m1 : List α} {l : List β} (all : List.Forall₂ R (l1 ++ m1) l) :
    ∃ l2 m2, l = l2 ++ m2 ∧ List.Forall₂ R l1 l2 ∧ List.Forall₂ R m1 m2 := by
  induction l1 generalizing l with
  | nil => exact ⟨[],l,rfl,.nil,all⟩
  | cons x l1 ih =>
    obtain ⟨y,rest,head,tail,rfl⟩ := List.forall₂_cons_left_iff.mp all
    obtain ⟨l2,m2,rfl,left,right⟩ := ih tail
    exact ⟨y :: l2,m2,rfl,.cons head left,right⟩

theorem forall₂Tail {α β : Type} {R : α → β → Prop} {l1 : List α} {l2 : List β} (all : List.Forall₂ R l1 l2) :
    List.Forall₂ R l1.tail l2.tail := by
  cases all with
  | nil => exact .nil
  | cons _ tail => exact tail

theorem forall₂Append {α β : Type} {R : α → β → Prop} {l1 m1 : List α} {l2 m2 : List β}
    (same : l1.length = l2.length) :
    List.Forall₂ R (l1 ++ m1) (l2 ++ m2) ↔ List.Forall₂ R l1 l2 ∧ List.Forall₂ R m1 m2 := by
  induction l1 generalizing l2 with
  | nil =>
    cases List.length_eq_zero_iff.mp same.symm
    simp
  | cons x l1 ih => cases l2 with
    | nil => cases same
    | cons y l2 =>
      simp only [List.cons_append,List.forall₂_cons,ih (Nat.succ.inj same),and_assoc]

end Rmdb.Lib
