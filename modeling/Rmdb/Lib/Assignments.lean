import Mathlib

/-! Choices of one value for each key of a list: the cross product of a family, in which the order
of the keys does not matter. -/
namespace Rmdb.Lib

section Pairs
variable {α β γ : Type}

theorem flatMapSwap (xs : List α) (ys : List β) (g : α → β → List γ) :
    (xs.flatMap fun x => ys.flatMap fun y => g x y).Perm (ys.flatMap fun y => xs.flatMap fun x => g x y) := by
  rw [← Multiset.coe_eq_coe]
  simp only [← Multiset.coe_bind]
  exact Multiset.bind_bind ..

theorem productFilter (xs : List α) (ys : List β) (p : α → Bool) (q : β → Bool) :
    (xs.filter p) ×ˢ (ys.filter q) = (xs ×ˢ ys).filter fun pair => p pair.1 && q pair.2 := by
  induction xs with
  | nil => rfl
  | cons x xs ih =>
    rw [List.product_cons,List.filter_append,List.filter_map]
    cases passed : p x with
    | true =>
      rw [List.filter_cons_of_pos passed,List.product_cons,ih]
      congr 2
      exact List.filter_congr fun y _ => by simp [passed]
    | false =>
      rw [List.filter_cons_of_neg (by simp [passed]),ih]
      have none : ys.filter ((fun pair : α × β => p pair.1 && q pair.2) ∘ fun b => (x,b)) = [] :=
        List.filter_eq_nil_iff.mpr fun y _ => by simp [passed]
      rw [none]
      rfl

theorem productMap {δ : Type} (xs : List α) (ys : List β) (f : α → γ) (g : β → δ) :
    (xs.map f) ×ˢ (ys.map g) = (xs ×ˢ ys).map fun pair => (f pair.1,g pair.2) := by
  induction xs with
  | nil => rfl
  | cons x xs ih => simp [List.product_cons,ih,Function.comp_def]

theorem productAppend (xs xs' : List α) (ys : List β) : (xs ++ xs') ×ˢ ys = xs ×ˢ ys ++ xs' ×ˢ ys := List.flatMap_append

end Pairs

section Merge
variable {K V : Type} [DecidableEq K] {k : K} {ks : List K} {f g : K → V}

def merge (ks : List K) (f g : K → V) : K → V := fun k => if k ∈ ks then f k else g k

theorem mergeLeft (mem : k ∈ ks) : merge ks f g k = f k := if_pos mem

theorem mergeRight (absent : k ∉ ks) : merge ks f g k = g k := if_neg absent

end Merge

section Assignments
variable {K V : Type} [DecidableEq K] [Inhabited V] {rows : K → List V} {k : K} {ks js : List K} {f g : K → V}

def assignments (rows : K → List V) : List K → List (K → V)
  | [] => [fun _ => default]
  | k :: ks => (rows k).flatMap fun v => (assignments rows ks).map fun f => Function.update f k v

theorem assignmentsMem (once : ks.Nodup) :
    f ∈ assignments rows ks ↔ (∀ k ∈ ks, f k ∈ rows k) ∧ ∀ k, k ∉ ks → f k = default := by
  induction ks generalizing f with
  | nil =>
    rw [assignments,List.mem_singleton]
    exact ⟨fun same => by simp [same],fun held => funext fun k => held.2 k (by simp)⟩
  | cons k ks ih =>
    obtain ⟨fresh,once⟩ := List.nodup_cons.mp once
    simp only [assignments,List.mem_flatMap,List.mem_map]
    constructor
    · rintro ⟨v,value,g,mem,rfl⟩
      obtain ⟨inside,outside⟩ := (ih once).mp mem
      refine ⟨fun j memJ => ?_,fun j absent => ?_⟩
      · rcases List.mem_cons.mp memJ with rfl | later
        · rwa [Function.update_self]
        · have other : j ≠ k := fun same => fresh (same ▸ later)
          rw [Function.update_of_ne other]
          exact inside j later
      · obtain ⟨other,absent⟩ := not_or.mp fun or => absent (List.mem_cons.mpr or)
        rw [Function.update_of_ne other]
        exact outside j absent
    · rintro ⟨inside,outside⟩
      refine ⟨f k,inside k List.mem_cons_self,Function.update f k default,(ih once).mpr ⟨fun j memJ => ?_,fun j absent => ?_⟩,?_⟩
      · have other : j ≠ k := fun same => fresh (same ▸ memJ)
        rw [Function.update_of_ne other]
        exact inside j (List.mem_cons_of_mem k memJ)
      · by_cases same : j = k
        · rw [same,Function.update_self]
        · rw [Function.update_of_ne same]
          exact outside j (by simp [same,absent])
      · rw [Function.update_idem,Function.update_eq_self]

theorem assignmentsPerm (same : ks.Perm js) (once : ks.Nodup) : (assignments rows ks).Perm (assignments rows js) := by
  induction same with
  | nil => exact .refl _
  | @cons k ks js _ ih =>
    have tail := ih (List.nodup_cons.mp once).2
    exact List.Perm.flatMap_left _ fun v _ => tail.map _
  | @swap k j ks =>
    have apart : j ≠ k := fun equal => (List.nodup_cons.mp once).1 (equal ▸ List.mem_cons_self)
    simp only [assignments,List.map_flatMap,List.map_map,Function.comp_def]
    refine (flatMapSwap _ _ _).trans (.of_eq ?_)
    refine congrArg (List.flatMap · _) (funext fun v => congrArg (List.flatMap · _) (funext fun w => ?_))
    exact congrArg (List.map · _) (funext fun f => Function.update_comm apart.symm _ _ f)
  | trans first _ ih ih' => exact (ih once).trans (ih' (first.nodup_iff.mp once))

theorem assignmentsAppend (once : (ks ++ js).Nodup) :
    assignments rows (ks ++ js) = (assignments rows ks ×ˢ assignments rows js).map fun pair => merge ks pair.1 pair.2 := by
  induction ks with
  | nil =>
    simp only [List.nil_append,assignments,List.product_cons,List.nil_product,List.append_nil,List.map_map]
    exact (List.map_id'' (fun f => funext fun k => mergeRight List.not_mem_nil) _).symm
  | cons k ks ih =>
    obtain ⟨fresh,once⟩ := List.nodup_cons.mp once
    have absent : k ∉ js := fun mem => fresh (List.mem_append_right ks mem)
    rw [List.cons_append,assignments,ih once,assignments]
    generalize rows k = values
    induction values with
    | nil => rfl
    | cons v values next =>
      rw [List.flatMap_cons,List.flatMap_cons,next,productAppend,List.map_append]
      congr 1
      have mapped := productMap (assignments rows ks) (assignments rows js) (fun f => Function.update f k v) id
      rw [List.map_id] at mapped
      rw [mapped,List.map_map,List.map_map]
      refine List.map_congr_left fun pair mem => funext fun j => ?_
      simp only [Function.comp_apply,merge,id_eq,List.mem_cons]
      by_cases same : j = k
      · subst same
        simp
      · simp [same,merge]

theorem assignmentsRows {rows' : K → List V} (same : ∀ k ∈ ks, (rows k).Perm (rows' k)) :
    (assignments rows ks).Perm (assignments rows' ks) := by
  induction ks with
  | nil => exact .refl _
  | cons k ks ih =>
    have rest := ih fun j mem => same j (List.mem_cons_of_mem k mem)
    exact (same k List.mem_cons_self).flatMap fun v _ => rest.map _

def restrict (ks : List K) (f : K → V) : K → V := fun k => if k ∈ ks then f k else default

theorem restrictMem (once : ks.Nodup) (inside : ∀ k ∈ ks, f k ∈ rows k) : restrict ks f ∈ assignments rows ks :=
  (assignmentsMem once).mpr ⟨fun k mem => by rw [restrict,if_pos mem]; exact inside k mem,fun k absent => if_neg absent⟩

end Assignments
end Rmdb.Lib
