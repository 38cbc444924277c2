import Mathlib

/-! Rigorous schedules: no operation touches what a transaction has written that has not ended, and
none writes what such a transaction has touched. Whatever is rolled back in between, the committed
transactions have done what they do one after the other in the order of their commits. -/
namespace Rmdb.Lib.Schedule

structure Operations (A K V O : Type) where
  touched : A → Set K
  written : A → Set K
  run : A → (K → V) → Option ((K → V) × O)
  part : ∀ a, written a ⊆ touched a
  frame : ∀ {a σ σ' o}, run a σ = some (σ',o) → ∀ k ∉ written a, σ' k = σ k
  near : ∀ {a σ τ σ' o}, run a σ = some (σ',o) → (∀ k ∈ touched a, τ k = σ k) →
    ∃ τ', run a τ = some (τ',o) ∧ ∀ k ∈ written a, τ' k = σ' k

inductive Replays {A K V O : Type} (ops : Operations A K V O) : List (A × O) → (K → V) → (K → V) → Prop
  | nil {σ : K → V} : Replays ops [] σ σ
  | cons {a : A} {o : O} {rest : List (A × O)} {σ σ' τ : K → V} (one : ops.run a σ = some (σ',o))
      (later : Replays ops rest σ' τ) : Replays ops ((a,o) :: rest) σ τ

section Replay
variable {A K V O : Type} {ops : Operations A K V O} {work later : List (A × O)} {a : A} {o : O} {σ σ' τ τ' : K → V} {D : Set K}

theorem Replays.append (first : Replays ops work σ τ) (second : Replays ops later τ τ') : Replays ops (work ++ later) σ τ' := by
  induction first with
  | nil => exact second
  | cons one _ ih => exact .cons one (ih second)

theorem Replays.one (run : ops.run a σ = some (τ,o)) : Replays ops [(a,o)] σ τ := .cons run .nil

theorem Replays.frame (replays : Replays ops work σ τ) (inside : ∀ e ∈ work, ops.written e.1 ⊆ D) : ∀ k ∉ D, τ k = σ k := by
  induction replays with
  | nil => exact fun k _ => rfl
  | @cons a o rest σ σ' τ one later ih =>
    intro k outside
    have here : σ' k = σ k := ops.frame one k fun mem => outside (inside (a,o) List.mem_cons_self mem)
    exact (ih (fun e mem => inside e (List.mem_cons_of_mem _ mem)) k outside).trans here

theorem Replays.near (replays : Replays ops work σ τ) (inside : ∀ e ∈ work, ops.touched e.1 ⊆ D)
    (same : ∀ k ∈ D, σ' k = σ k) : ∃ τ', Replays ops work σ' τ' ∧ ∀ k ∈ D, τ' k = τ k := by
  induction replays generalizing σ' with
  | nil => exact ⟨σ',.nil,same⟩
  | @cons a o rest σ σ₁ τ one later ih =>
    have looks := inside (a,o) List.mem_cons_self
    obtain ⟨σ₁',run,writes⟩ := ops.near one fun k mem => same k (looks mem)
    have still : ∀ k ∈ D, σ₁' k = σ₁ k := by
      intro k mem
      by_cases here : k ∈ ops.written a
      · exact writes k here
      · rw [ops.frame run k here,ops.frame one k here,same k mem]
    obtain ⟨τ',rest,ends⟩ := ih (fun e mem => inside e (List.mem_cons_of_mem _ mem)) still
    exact ⟨τ',.cons run rest,ends⟩

end Replay

-- `work` is `none` once an operation has failed
structure Txn (A K O : Type) where
  work : Option (List (A × O))
  saw : Set K
  wrote : Set K

/- `before t` is what a rollback of `t` puts back. -/
structure State (T A K V O : Type) where
  store : K → V
  live : T → Option (Txn A K O)
  before : T → K → V
  history : List (T × List (A × O))

section Steps
variable {T A K V O : Type} [DecidableEq T] {ops : Operations A K V O} {s s' : State T A K V O} {t u : T} {x y : Txn A K O}
  {looks writes : Set K} {done : Option (A × O)} {σ base : K → V}

def State.Clear (s : State T A K V O) (t : T) (looks writes : Set K) : Prop :=
  ∀ u y, u ≠ t → s.live u = some y → Disjoint looks y.wrote ∧ Disjoint writes y.saw

structure Ran (ops : Operations A K V O) (looks writes : Set K) (done : Option (A × O)) (σ σ' : K → V) : Prop where
  part : writes ⊆ looks
  frame : ∀ k ∉ writes, σ' k = σ k
  run : ∀ a o, done = some (a,o) → ops.run a σ = some (σ',o) ∧ looks = ops.touched a ∧ writes = ops.written a

def Txn.grown (x : Txn A K O) (looks writes : Set K) (done : Option (A × O)) : Txn A K O :=
  ⟨done.bind fun e => x.work.map (· ++ [e]),x.saw ∪ looks,x.wrote ∪ writes⟩

open scoped Classical in
noncomputable def State.did (s : State T A K V O) (t : T) (x : Txn A K O) (looks writes : Set K) (done : Option (A × O))
    (σ : K → V) : State T A K V O := {s with
  store := σ
  live := Function.update s.live t (some (x.grown looks writes done))
  before := Function.update s.before t (x.wrote.piecewise (s.before t) s.store)}

open scoped Classical in
inductive Step (ops : Operations A K V O) : State T A K V O → State T A K V O → Prop
  | begin {s : State T A K V O} {t : T} (fresh : s.live t = none) :
      Step ops s {s with live := Function.update s.live t (some ⟨some [],∅,∅⟩)}
  | act {s : State T A K V O} {t : T} {x : Txn A K O} {looks writes : Set K} {done : Option (A × O)} {σ : K → V}
      (active : s.live t = some x) (clear : s.Clear t looks writes) (ran : Ran ops looks writes done s.store σ) :
      Step ops s (s.did t x looks writes done σ)
  | commit {s : State T A K V O} {t : T} {x : Txn A K O} {work : List (A × O)} (active : s.live t = some x)
      (whole : x.work = some work) :
      Step ops s {s with live := Function.update s.live t none,history := s.history ++ [(t,work)]}
  | abort {s : State T A K V O} {t : T} {x : Txn A K O} (active : s.live t = some x) :
      Step ops s {s with live := Function.update s.live t none,store := x.wrote.piecewise (s.before t) s.store}

/- What holds of one transaction over the store `base` that the committed ones have left. -/
structure Own (ops : Operations A K V O) (base : K → V) (s : State T A K V O) (t : T) (x : Txn A K O) : Prop where
  back : ∀ k ∈ x.wrote, s.before t k = base k
  inside : ∀ work, x.work = some work → ∀ e ∈ work, ops.touched e.1 ⊆ x.saw ∧ ops.written e.1 ⊆ x.wrote
  done : ∀ work, x.work = some work → ∃ τ, Replays ops work base τ ∧ ∀ k ∈ x.wrote, τ k = s.store k

structure Over (ops : Operations A K V O) (base : K → V) (s : State T A K V O) : Prop where
  apart : ∀ t u x y, t ≠ u → s.live t = some x → s.live u = some y → Disjoint x.wrote y.wrote ∧ Disjoint x.wrote y.saw
  still : ∀ k, (∀ t x, s.live t = some x → k ∉ x.wrote) → s.store k = base k
  own : ∀ t x, s.live t = some x → Own ops base s t x

def Serializes (ops : Operations A K V O) (σ : K → V) (s : State T A K V O) : Prop :=
  ∃ base, Replays ops (s.history.flatMap Prod.snd) σ base ∧ Over ops base s

theorem updateCases {X : Type} {m : T → Option X} {v : Option X} {z : X} (live : Function.update m t v u = some z) :
    u = t ∧ v = some z ∨ u ≠ t ∧ m u = some z := by
  by_cases here : u = t
  · rw [here,Function.update_self] at live
    exact .inl ⟨here,live⟩
  · rw [Function.update_of_ne here] at live
    exact .inr ⟨here,live⟩

section Kept
variable (holds : Over ops base s)
include holds

theorem Over.untouched {k : K} (active : s.live t = some x) (own : k ∉ x.wrote)
    (others : ∀ u y, u ≠ t → s.live u = some y → k ∉ y.wrote) : s.store k = base k := by
  refine holds.still k fun u y live => ?_
  by_cases same : u = t
  · subst same
    obtain rfl := Option.some.inj (active.symm.trans live)
    exact own
  · exact others u y same live

theorem Over.seen (active : s.live t = some x) (clear : s.Clear t looks writes) :
    ∀ k ∈ looks, k ∉ x.wrote → s.store k = base k :=
  fun _ mem own => holds.untouched active own fun u y other live => Set.disjoint_left.mp (clear u y other live).1 mem

theorem Over.begin (fresh : s.live t = none) : Over ops base {s with live := Function.update s.live t (some ⟨some [],∅,∅⟩)} := by
  refine ⟨fun u v y z differ liveU liveV => ?_,fun k none => holds.still k fun u y live => none u y ?_,fun u y live => ?_⟩
  · rcases updateCases liveU with ⟨_,new⟩ | ⟨_,oldU⟩
    · obtain rfl := Option.some.inj new
      exact ⟨Set.empty_disjoint _,Set.empty_disjoint _⟩
    · rcases updateCases liveV with ⟨_,new⟩ | ⟨_,oldV⟩
      · obtain rfl := Option.some.inj new
        exact ⟨Set.disjoint_empty _,Set.disjoint_empty _⟩
      · exact holds.apart u v y z differ oldU oldV
  · have other : u ≠ t := fun same => by rw [same,fresh] at live; cases live
    exact (Function.update_of_ne other ..).trans live
  · rcases updateCases live with ⟨_,new⟩ | ⟨_,old⟩
    · obtain rfl := Option.some.inj new
      refine ⟨fun k mem => mem.elim,fun work same e mem => ?_,fun work same => ⟨base,?_,fun k mem => mem.elim⟩⟩
      · cases Option.some.inj same
        cases mem
      · cases Option.some.inj same
        exact .nil
    · exact ⟨(holds.own u y old).back,(holds.own u y old).inside,(holds.own u y old).done⟩

open scoped Classical in
theorem Own.did (active : s.live t = some x) (clear : s.Clear t looks writes) (ran : Ran ops looks writes done s.store σ) :
    Own ops base (s.did t x looks writes done σ) t (x.grown looks writes done) := by
  have mine := holds.own t x active
  refine ⟨fun k mem => ?_,fun work same => ?_,fun work same => ?_⟩
  · rw [State.did]
    dsimp only
    rw [Function.update_self]
    by_cases before : k ∈ x.wrote
    · rw [Set.piecewise_eq_of_mem _ _ _ before]
      exact mine.back k before
    · rw [Set.piecewise_eq_of_notMem _ _ _ before]
      exact holds.seen active clear k (ran.part (mem.resolve_left before)) before
  · obtain ⟨⟨a,o⟩,rfl,same⟩ := Option.bind_eq_some_iff.mp same
    obtain ⟨old,earlier,rfl⟩ := Option.map_eq_some_iff.mp same
    obtain ⟨_,rfl,rfl⟩ := ran.run a o rfl
    intro e mem
    rcases List.mem_append.mp mem with mem | mem
    · obtain ⟨looks,writes⟩ := mine.inside old earlier e mem
      exact ⟨looks.trans Set.subset_union_left,writes.trans Set.subset_union_left⟩
    · rw [List.mem_singleton.mp mem]
      exact ⟨Set.subset_union_right,Set.subset_union_right⟩
  · obtain ⟨⟨a,o⟩,rfl,same⟩ := Option.bind_eq_some_iff.mp same
    obtain ⟨old,earlier,rfl⟩ := Option.map_eq_some_iff.mp same
    obtain ⟨run,rfl,rfl⟩ := ran.run a o rfl
    obtain ⟨τ,replays,ends⟩ := mine.done old earlier
    have untouched := replays.frame fun e mem => (mine.inside old earlier e mem).2
    obtain ⟨τ',again,writes⟩ := @Operations.near _ _ _ _ ops a s.store τ σ o run fun k looks => by
      by_cases own : k ∈ x.wrote
      · exact ends k own
      · rw [untouched k own,holds.seen active clear k looks own]
    refine ⟨τ',replays.append (.one again),fun k mem => ?_⟩
    by_cases here : k ∈ ops.written a
    · exact writes k here
    · rw [ops.frame again k here,ends k (mem.resolve_right here)]
      exact (ran.frame k here).symm

theorem Over.did (active : s.live t = some x) (clear : s.Clear t looks writes) (ran : Ran ops looks writes done s.store σ) :
    Over ops base (s.did t x looks writes done σ) := by
  have aside {u : T} {y : Txn A K O} (other : u ≠ t) (live : s.live u = some y) : ∀ k ∈ y.wrote, σ k = s.store k := fun k mem =>
    ran.frame k fun written => Set.disjoint_left.mp (clear u y other live).1 (ran.part written) mem
  refine ⟨fun u v y z differ liveU liveV => ?_,fun k none => ?_,fun u y live => ?_⟩
  · rcases updateCases liveU with ⟨rfl,newU⟩ | ⟨otherU,oldU⟩ <;> rcases updateCases liveV with ⟨rfl,newV⟩ | ⟨otherV,oldV⟩
    · exact absurd rfl differ
    · obtain rfl := Option.some.inj newU
      obtain ⟨wrote,saw⟩ := holds.apart _ v x z differ active oldV
      obtain ⟨looks,writes⟩ := clear v z otherV oldV
      exact ⟨wrote.union_left (looks.mono_left ran.part),saw.union_left writes⟩
    · obtain rfl := Option.some.inj newV
      obtain ⟨wrote,saw⟩ := holds.apart u _ y x differ oldU active
      obtain ⟨looks,writes⟩ := clear u y otherU oldU
      exact ⟨wrote.union_right (looks.symm.mono_right ran.part),saw.union_right looks.symm⟩
    · exact holds.apart u v y z differ oldU oldV
  · have own := none t _ (Function.update_self ..)
    have here : σ k = s.store k := ran.frame k fun mem => own (.inr mem)
    refine here.trans (holds.untouched active (fun mem => own (.inl mem)) fun u y other live => ?_)
    exact none u y ((Function.update_of_ne other ..).trans live)
  · rcases updateCases live with ⟨rfl,new⟩ | ⟨other,old⟩
    · obtain rfl := Option.some.inj new
      exact Own.did holds active clear ran
    · have theirs := holds.own u y old
      refine ⟨fun k mem => ?_,theirs.inside,fun work same => ?_⟩
      · exact (congrFun (Function.update_of_ne other ..) k).trans (theirs.back k mem)
      · obtain ⟨τ,replays,ends⟩ := theirs.done work same
        exact ⟨τ,replays,fun k mem => (ends k mem).trans (aside other old k mem).symm⟩

theorem Over.commit {work : List (A × O)} (active : s.live t = some x) (whole : x.work = some work) :
    ∃ base', Replays ops work base base' ∧
      Over ops base' {s with live := Function.update s.live t none,history := s.history ++ [(t,work)]} := by
  have mine := holds.own t x active
  obtain ⟨τ,replays,ends⟩ := mine.done work whole
  have untouched := replays.frame fun e mem => (mine.inside work whole e mem).2
  have old {u : T} {y : Txn A K O} (live : Function.update s.live t none u = some y) : u ≠ t ∧ s.live u = some y :=
    (updateCases live).resolve_left fun gone => by cases gone.2
  refine ⟨τ,replays,fun u v y z differ liveU liveV => holds.apart u v y z differ (old liveU).2 (old liveV).2,fun k none => ?_,
    fun u y live => ?_⟩
  · by_cases own : k ∈ x.wrote
    · exact (ends k own).symm
    · rw [untouched k own]
      exact holds.untouched active own fun u y other live => none u y ((Function.update_of_ne other ..).trans live)
  · obtain ⟨other,live⟩ := old live
    have theirs := holds.own u y live
    obtain ⟨wrote,saw⟩ := holds.apart t u x y other.symm active live
    have same : ∀ k ∈ y.saw ∪ y.wrote, τ k = base k := fun k mem =>
      untouched k fun own => mem.elim (Set.disjoint_left.mp saw own) (Set.disjoint_left.mp wrote own)
    refine ⟨fun k mem => (theirs.back k mem).trans (same k (.inr mem)).symm,theirs.inside,fun work again => ?_⟩
    obtain ⟨τ₁,replays₁,ends₁⟩ := theirs.done work again
    have both : ∀ e ∈ work, ops.touched e.1 ⊆ y.saw ∪ y.wrote := fun e mem =>
      (theirs.inside work again e mem).1.trans Set.subset_union_left
    obtain ⟨τ₂,replays₂,ends₂⟩ := replays₁.near both same
    exact ⟨τ₂,replays₂,fun k mem => (ends₂ k (.inr mem)).trans (ends₁ k mem)⟩

open scoped Classical in
theorem Over.abort (active : s.live t = some x) :
    Over ops base {s with live := Function.update s.live t none,store := x.wrote.piecewise (s.before t) s.store} := by
  have mine := holds.own t x active
  have old {u : T} {y : Txn A K O} (live : Function.update s.live t none u = some y) : u ≠ t ∧ s.live u = some y :=
    (updateCases live).resolve_left fun gone => by cases gone.2
  refine ⟨fun u v y z differ liveU liveV => holds.apart u v y z differ (old liveU).2 (old liveV).2,fun k none => ?_,
    fun u y live => ?_⟩
  · dsimp only
    by_cases own : k ∈ x.wrote
    · rw [Set.piecewise_eq_of_mem _ _ _ own]
      exact mine.back k own
    · rw [Set.piecewise_eq_of_notMem _ _ _ own]
      exact holds.untouched active own fun u y other live => none u y ((Function.update_of_ne other ..).trans live)
  · obtain ⟨other,live⟩ := old live
    have theirs := holds.own u y live
    obtain ⟨wrote,_⟩ := holds.apart t u x y other.symm active live
    refine ⟨theirs.back,theirs.inside,fun work same => ?_⟩
    obtain ⟨τ,replays,ends⟩ := theirs.done work same
    refine ⟨τ,replays,fun k mem => ?_⟩
    dsimp only
    rw [Set.piecewise_eq_of_notMem _ _ _ fun own => Set.disjoint_left.mp wrote own mem]
    exact ends k mem

end Kept

theorem Serializes.step (holds : Serializes ops σ s) (step : Step ops s s') : Serializes ops σ s' := by
  obtain ⟨base,replays,kept⟩ := holds
  cases step with
  | begin fresh => exact ⟨base,replays,kept.begin fresh⟩
  | act active clear ran => exact ⟨base,replays,kept.did active clear ran⟩
  | commit active whole =>
    obtain ⟨base',own,kept'⟩ := kept.commit active whole
    refine ⟨base',?_,kept'⟩
    rw [List.flatMap_append]
    exact replays.append (by rwa [List.flatMap_singleton])
  | abort active => exact ⟨base,replays,kept.abort active⟩

theorem serialized (start : s.history = [] ∧ ∀ t, s.live t = none) (run : Relation.ReflTransGen (Step ops) s s') :
    Serializes ops s.store s' := by
  induction run with
  | refl =>
    refine ⟨s.store,by rw [start.1]; exact .nil,fun t u x y _ live => ?_,fun k _ => rfl,fun t x live => ?_⟩
    · rw [start.2 t] at live
      cases live
    · rw [start.2 t] at live
      cases live
  | tail _ step ih => exact ih.step step

omit [DecidableEq T] in
theorem Serializes.whole (holds : Serializes ops σ s) (none : ∀ t, s.live t = none) :
    Replays ops (s.history.flatMap Prod.snd) σ s.store := by
  obtain ⟨base,replays,kept⟩ := holds
  have same : s.store = base := funext fun k => kept.still k fun t x live => by rw [none t] at live; cases live
  rwa [same]

end Steps
end Rmdb.Lib.Schedule
