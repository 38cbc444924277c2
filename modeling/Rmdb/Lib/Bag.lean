import Rmdb.Lib.Assignments

/-! The bag of the values that a partial map with finitely many keys has, each as often as it is there. -/
namespace Rmdb.Lib

section Bag
variable {K V W : Type} {f f' : K → Option V} {bag bag' : Multiset V} {k : K} {v : V}

structure Keys (f : K → Option V) (ks : List K) : Prop where
  once : ks.Nodup
  all : ∀ k, k ∈ ks ↔ ∃ v, f k = some v

def IsBag (f : K → Option V) (bag : Multiset V) : Prop := ∃ ks, Keys f ks ∧ bag = ↑(ks.filterMap f)

theorem IsBag.unique (one : IsBag f bag) (two : IsBag f bag') : bag = bag' := by
  obtain ⟨ks,keys,rfl⟩ := one
  obtain ⟨ks',keys',rfl⟩ := two
  have same : ks.Perm ks' := (List.perm_ext_iff_of_nodup keys.once keys'.once).mpr fun k =>
    (keys.all k).trans (keys'.all k).symm
  exact Multiset.coe_eq_coe.mpr (same.filterMap f)

theorem IsBag.mem (is : IsBag f bag) : v ∈ bag ↔ ∃ k, f k = some v := by
  obtain ⟨ks,keys,rfl⟩ := is
  rw [Multiset.mem_coe,List.mem_filterMap]
  exact exists_congr fun k => and_iff_right_of_imp fun here => (keys.all k).mpr ⟨v,here⟩

theorem IsBag.add [DecidableEq K] (is : IsBag f bag) (free : f k = none) : IsBag (Function.update f k (some v)) (v ::ₘ bag) := by
  obtain ⟨ks,keys,rfl⟩ := is
  have fresh : k ∉ ks := fun mem => by
    obtain ⟨w,here⟩ := (keys.all k).mp mem
    rw [free] at here
    cases here
  have old : ∀ j ∈ ks, Function.update f k (some v) j = f j := fun j mem =>
    Function.update_of_ne (ne_of_mem_of_not_mem mem fresh) ..
  refine ⟨k :: ks,⟨List.nodup_cons.mpr ⟨fresh,keys.once⟩,fun j => ?_⟩,?_⟩
  · by_cases here : j = k
    · subst here
      simp
    · rw [Function.update_of_ne here,List.mem_cons,or_iff_right here]
      exact keys.all j
  · rw [List.filterMap_cons,Function.update_self,List.filterMap_congr old]
    rfl

theorem IsBag.filterMap {g : V → Option W} {h : K → Option W} (is : IsBag f bag) (each : ∀ k, h k = (f k).bind g) :
    IsBag h (bag.filterMap g) := by
  obtain ⟨ks,keys,rfl⟩ := is
  refine ⟨ks.filter fun k => (h k).isSome,⟨keys.once.filter _,fun k => ?_⟩,?_⟩
  · rw [List.mem_filter,← Option.isSome_iff_exists,keys.all,and_iff_right_of_imp]
    intro some
    rw [each] at some
    cases here : f k with
    | none =>
      rw [here] at some
      cases some
    | some v => exact ⟨v,rfl⟩
  · rw [Multiset.filterMap_coe,List.filterMap_filterMap,List.filterMap_filter]
    refine congrArg _ (List.filterMap_congr fun k _ => ?_)
    rw [← each]
    cases h k <;> rfl

theorem IsBag.apart {g : V → W} (is : IsBag f bag) :
    (bag.map g).Nodup ↔ ∀ j k v w, f j = some v → f k = some w → g v = g w → j = k := by
  obtain ⟨ks,keys,rfl⟩ := is
  rw [Multiset.map_coe,Multiset.coe_nodup,List.Nodup,List.pairwise_map,List.pairwise_filterMap]
  constructor
  · intro apart j k v w hereJ hereK same
    by_contra differ
    have : Std.Symm fun a b => ∀ v, f a = some v → ∀ w, f b = some w → g v ≠ g w :=
      ⟨fun _ _ holds v here w there same => holds w there v here same.symm⟩
    exact apart.forall ((keys.all j).mpr ⟨v,hereJ⟩) ((keys.all k).mpr ⟨w,hereK⟩) differ v hereJ w hereK same
  · intro same
    exact keys.once.imp fun {j k} differ v hereJ w hereK equal => differ (same j k v w hereJ hereK equal)

end Bag

section Product
variable {K V : Type} [DecidableEq K] [Inhabited V] {rows : K → List V}

def selections (bags : K → Multiset V) : List K → Multiset (K → V)
  | [] => {fun _ => default}
  | k :: ks => (bags k).bind fun v => (selections bags ks).map fun f => Function.update f k v

theorem selectionsRows (ks : List K) : selections (fun k => (rows k : Multiset V)) ks = (assignments rows ks : Multiset (K → V)) := by
  induction ks with
  | nil => rfl
  | cons k ks ih =>
    rw [selections,assignments,← Multiset.coe_bind]
    simp only [ih,Multiset.map_coe]

theorem selectionsCongr {bags bags' : K → Multiset V} {ks : List K} (same : ∀ k ∈ ks, bags k = bags' k) :
    selections bags ks = selections bags' ks := by
  induction ks with
  | nil => rfl
  | cons k ks ih =>
    rw [selections,selections,same k List.mem_cons_self,ih fun j mem => same j (List.mem_cons_of_mem k mem)]

end Product
end Rmdb.Lib
