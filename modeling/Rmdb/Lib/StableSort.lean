import Mathlib.Order.Defs.LinearOrder
import Mathlib.Data.List.Sort

/-! A stable sort whose comparison can throw, and the lexicographic combination of preorders by
which it sorts. -/
namespace Rmdb.Lib

section Sorting
variable {ε α : Type} {less : α → α → Except ε Bool} {le : α → α → Bool}

def insertStable (less : α → α → Except ε Bool) (x : α) : List α → Except ε (List α)
  | [] => .ok [x]
  | y :: ys => do
    if ← less y x then
      let rest ← insertStable less x ys
      pure (y :: rest)
    else pure (x :: y :: ys)

def stableSort (less : α → α → Except ε Bool) : List α → Except ε (List α)
  | [] => .ok []
  | x :: xs => do insertStable less x (← stableSort less xs)

theorem insertBetween {x : α} {front back : List α} (before : ∀ y ∈ front, less y x = .ok true)
    (behind : ∀ y ∈ back.head?, less y x = .ok false) : insertStable less x (front ++ back) = .ok (front ++ x :: back) := by
  induction front with
  | nil => cases back with
    | nil => rfl
    | cons y back =>
      simp only [List.nil_append,insertStable,behind y rfl]
      rfl
  | cons y front ih =>
    have rest := ih fun z mem => before z (List.mem_cons_of_mem y mem)
    simp only [List.cons_append,insertStable,before y List.mem_cons_self,rest]
    rfl

theorem stableSortMerge (trans : ∀ a b c, le a b → le b c → le a c) (total : ∀ a b, le a b || le b a) {xs : List α}
    (shown : ∀ a ∈ xs, ∀ b ∈ xs, less a b = .ok (!le b a)) : stableSort less xs = .ok (xs.mergeSort le) := by
  induction xs with
  | nil => simp [stableSort]
  | cons x xs ih =>
    obtain ⟨front,back,whole,tail,before⟩ := List.mergeSort_cons trans total x xs
    have sorted := List.pairwise_mergeSort trans total (x :: xs)
    rw [whole] at sorted
    have inside : ∀ y ∈ front ++ back, y ∈ xs := fun y mem => List.mem_mergeSort.mp (tail ▸ mem)
    have compares : ∀ y ∈ front ++ back, less y x = .ok (!le x y) := fun y mem =>
      shown y (List.mem_cons_of_mem x (inside y mem)) x List.mem_cons_self
    have rest := ih fun a memA b memB => shown a (List.mem_cons_of_mem x memA) b (List.mem_cons_of_mem x memB)
    rw [stableSort,rest,whole,tail]
    refine insertBetween (fun y mem => ?_) (fun y mem => ?_)
    · rw [compares y (List.mem_append_left back mem),before y mem]
    · have first := List.mem_of_mem_head? mem
      have ordered := (List.pairwise_cons.mp (List.pairwise_append.mp sorted).2.1).1 y first
      rw [compares y (List.mem_append_right front first),ordered]
      rfl

theorem insertStablePerm (compares : ∀ a b, ∃ before, less a b = .ok before) (x : α) (xs : List α) :
    ∃ ys, insertStable less x xs = .ok ys ∧ ys.Perm (x :: xs) := by
  induction xs with
  | nil => exact ⟨[x],rfl,.refl _⟩
  | cons y xs ih =>
    obtain ⟨before,compared⟩ := compares y x
    obtain ⟨ys,inserted,perm⟩ := ih
    rw [insertStable,compared]
    cases before with
    | false => exact ⟨_,rfl,.refl _⟩
    | true =>
      refine ⟨y :: ys,?_,(perm.cons y).trans (List.Perm.swap x y xs)⟩
      rw [inserted]
      rfl

theorem stableSortPerm (compares : ∀ a b, ∃ before, less a b = .ok before) (xs : List α) :
    ∃ ys, stableSort less xs = .ok ys ∧ ys.Perm xs := by
  induction xs with
  | nil => exact ⟨[],rfl,.refl _⟩
  | cons x xs ih =>
    obtain ⟨ys,sorted,perm⟩ := ih
    obtain ⟨zs,inserted,whole⟩ := insertStablePerm compares x ys
    refine ⟨zs,?_,whole.trans (perm.cons x)⟩
    rw [stableSort,sorted]
    exact inserted

theorem insertStableMem {x : α} {xs ys : List α} (inserted : insertStable less x xs = .ok ys) : ∀ y ∈ ys, y ∈ x :: xs := by
  induction xs generalizing ys with
  | nil =>
    cases Except.ok.inj inserted
    exact fun y mem => mem
  | cons z xs ih =>
    rw [insertStable] at inserted
    cases compared : less z x with
    | error e => rw [compared] at inserted; cases inserted
    | ok before =>
      rw [compared] at inserted
      cases before with
      | false =>
        cases Except.ok.inj inserted
        exact fun y mem => mem
      | true =>
        cases rest : insertStable less x xs with
        | error e => simp [bind,Except.bind,rest] at inserted
        | ok zs =>
          have whole : z :: zs = ys := by simpa [bind,Except.bind,rest,pure,Except.pure] using inserted
          rw [← whole]
          intro y mem
          rcases List.mem_cons.mp mem with rfl | later
          · simp
          · rcases List.mem_cons.mp (ih rest y later) with rfl | behind
            · simp
            · simp [behind]

theorem stableSortMem {xs ys : List α} (sorted : stableSort less xs = .ok ys) : ∀ y ∈ ys, y ∈ xs := by
  induction xs generalizing ys with
  | nil =>
    cases Except.ok.inj sorted
    exact fun y mem => mem
  | cons x xs ih =>
    rw [stableSort] at sorted
    cases rest : stableSort less xs with
    | error e => rw [rest] at sorted; cases sorted
    | ok zs =>
      rw [rest] at sorted
      intro y mem
      rcases List.mem_cons.mp (insertStableMem sorted y mem) with rfl | behind
      · exact List.mem_cons_self
      · exact List.mem_cons_of_mem x (ih rest y behind)

section Mapped
variable {β : Type} {g : β → α} {less' : β → β → Except ε Bool} {x : β} {xs : List β}

theorem insertStableMapped (same : ∀ y ∈ xs, less (g y) (g x) = less' y x) :
    insertStable less (g x) (xs.map g) = (insertStable less' x xs).map (List.map g) := by
  induction xs with
  | nil => rfl
  | cons y xs ih =>
    have rest := ih fun z mem => same z (List.mem_cons_of_mem y mem)
    rw [List.map_cons,insertStable,insertStable,same y List.mem_cons_self,rest]
    cases less' y x with
    | error e => rfl
    | ok before => cases before with
      | false => rfl
      | true => cases insertStable less' x xs <;> rfl

theorem stableSortMapped (same : ∀ a ∈ xs, ∀ b ∈ xs, less (g a) (g b) = less' a b) :
    stableSort less (xs.map g) = (stableSort less' xs).map (List.map g) := by
  induction xs with
  | nil => rfl
  | cons x xs ih =>
    have rest := ih fun a memA b memB => same a (List.mem_cons_of_mem x memA) b (List.mem_cons_of_mem x memB)
    rw [List.map_cons,stableSort,stableSort,rest]
    cases sorted : stableSort less' xs with
    | error e => rfl
    | ok ys =>
      exact insertStableMapped fun y mem =>
        same y (List.mem_cons_of_mem x (stableSortMem sorted y mem)) x List.mem_cons_self

end Mapped

theorem stableSortLevel (level : ∀ a b, less a b = .ok false) (xs : List α) : stableSort less xs = .ok xs := by
  induction xs with
  | nil => rfl
  | cons x xs ih =>
    rw [stableSort,ih]
    cases xs with
    | nil => rfl
    | cons y xs => exact @insertBetween ε α less x [] (y :: xs) (by simp) fun z _ => level z x

end Sorting

section Keys
variable {κ α β : Type} [LinearOrder β] {value : κ → α → β} {keys : List (κ × Bool)} {a b c : α}

def keysLe (value : κ → α → β) : List (κ × Bool) → α → α → Bool
  | [],_,_ => true
  | (key,backwards) :: keys,a,b =>
    if value key a = value key b then keysLe value keys a b
    else if backwards then decide (value key b < value key a) else decide (value key a < value key b)

theorem keysLeTotal (a b : α) : (keysLe value keys a b || keysLe value keys b a) = true := by
  induction keys with
  | nil => rfl
  | cons key keys ih =>
    obtain ⟨key,backwards⟩ := key
    rcases lt_trichotomy (value key a) (value key b) with less | same | more
    · cases backwards <;> simp [keysLe,less,less.ne,less.ne']
    · simpa [keysLe,same] using ih
    · cases backwards <;> simp [keysLe,more,more.ne,more.ne']

theorem keysLeTrans (a b c : α) (ab : keysLe value keys a b = true) (bc : keysLe value keys b c = true) :
    keysLe value keys a c = true := by
  induction keys with
  | nil => rfl
  | cons key keys ih =>
    obtain ⟨key,backwards⟩ := key
    rw [keysLe] at ab bc ⊢
    by_cases first : value key a = value key b
    · rw [if_pos first] at ab
      rw [first]
      split at bc
      · rename_i second
        rw [if_pos second]
        exact ih ab bc
      · rename_i second
        rw [if_neg second]
        exact bc
    · rw [if_neg first] at ab
      by_cases second : value key b = value key c
      · rwa [← second,if_neg first]
      · rw [if_neg second] at bc
        cases backwards with
        | true =>
          simp only [if_true,decide_eq_true_eq] at ab bc ⊢
          have far := bc.trans ab
          rw [if_neg far.ne']
          exact decide_eq_true far
        | false =>
          simp only [Bool.false_eq_true,if_false,decide_eq_true_eq] at ab bc ⊢
          have far := ab.trans bc
          rw [if_neg far.ne]
          exact decide_eq_true far

theorem mergeSortKeys {xs ys : List α} (perm : xs.Perm ys)
    (strict : ys.Pairwise fun a b => keysLe value keys a b = true ∧ keysLe value keys b a = false) :
    xs.mergeSort (keysLe value keys) = ys := by
  have apart : ∀ a ∈ ys, ∀ b ∈ ys, keysLe value keys a b = true → keysLe value keys b a = true → a = b := by
    refine List.Pairwise.forall_of_forall_of_flip (fun _ _ _ _ => rfl) (strict.imp ?_) (strict.imp ?_)
    · rintro a b ⟨_,back⟩ _ again
      rw [back] at again
      cases again
    · rintro a b ⟨_,back⟩ again
      rw [back] at again
      cases again
  refine List.Perm.eq_of_pairwise (fun a b memA memB => apart a ?_ b memB) (List.pairwise_mergeSort keysLeTrans keysLeTotal xs)
    (strict.imp And.left) ((List.mergeSort_perm xs _).trans perm)
  exact perm.mem_iff.mp (List.mem_mergeSort.mp memA)

end Keys

end Rmdb.Lib
