import Rmdb.Execution.ExecutorUtils

/-! `AbstractExecutor`: the cursor that every operator of a query plan is, and the loop with
which a parent runs a child from `beginTuple` to `is_end`. -/
namespace Rmdb

structure AbstractExecutor (σ : Type) where
  beginTuple : M σ Unit
  nextTuple : M σ Unit
  next : M σ (Option Bytes)
  isEnd : σ → Bool
  tupleLen : Nat
  cols : List ColMeta

namespace AbstractExecutor
variable {σ : Type}

def collect (ex : AbstractExecutor σ) : Nat → M σ (List Bytes)
  | 0 => throw .fuel
  | fuel+1 => do
    let s ← get
    if ex.isEnd s then pure [] else
      match ← ex.next with
      | none => throw .outOfRange
      | some record =>
        ex.nextTuple
        let rest ← collect ex fuel
        pure (record :: rest)

def drain (ex : AbstractExecutor σ) (fuel : Nat) : M σ (List Bytes) := do
  ex.beginTuple
  ex.collect fuel

/- `stands s rest` says that the cursor in state `s` has the records `rest` before it. -/
structure Positions (ex : AbstractExecutor σ) (stands : σ → List Bytes → Prop) : Prop where
  ended : ∀ s, stands s [] → ex.isEnd s = true
  going : ∀ s r rest, stands s (r :: rest) → ex.isEnd s = false
  record : ∀ s r rest, stands s (r :: rest) → ∃ t, ex.next s = .ok (some r) t ∧ stands t (r :: rest)
  step : ∀ s r rest, stands s (r :: rest) → ∃ t, ex.nextTuple s = .ok () t ∧ stands t rest

/- From every state that `ready` allows, the cursor can be put in front of the same records. -/
structure Restarts (ex : AbstractExecutor σ) (ready : σ → Prop) (stands : σ → List Bytes → Prop) (L : List Bytes) :
    Prop where
  positions : ex.Positions stands
  kept : ∀ s rest, stands s rest → ready s
  start : ∀ s, ready s → ∃ t, ex.beginTuple s = .ok () t ∧ stands t L
  size : ∀ r ∈ L, r.length = ex.tupleLen

variable {ex : AbstractExecutor σ} {ready : σ → Prop} {stands : σ → List Bytes → Prop} {L : List Bytes} {s : σ}

theorem collectRun (positions : ex.Positions stands) {fuel : Nat} (here : stands s L) (enough : L.length < fuel) :
    ∃ t, ex.collect fuel s = .ok L t ∧ stands t [] := by
  induction L generalizing s fuel with
  | nil =>
    obtain ⟨fuel,rfl⟩ := Nat.exists_eq_succ_of_ne_zero (Nat.ne_zero_of_lt enough)
    refine ⟨s,?_,here⟩
    rw [collect,getBind,if_pos (positions.ended s here)]
    rfl
  | cons r rest ih =>
    obtain ⟨fuel,rfl⟩ := Nat.exists_eq_succ_of_ne_zero (Nat.ne_zero_of_lt enough)
    obtain ⟨t,shown,still⟩ := positions.record s r rest here
    obtain ⟨u,stepped,later⟩ := positions.step t r rest still
    rw [List.length_cons] at enough
    obtain ⟨v,collected,last⟩ := @ih u fuel later (by omega)
    refine ⟨v,?_,last⟩
    have going := positions.going s r rest here
    rw [collect,getBind,going,if_neg Bool.false_ne_true,bindEq shown]
    dsimp only
    rw [bindEq stepped,bindEq collected]
    rfl

theorem drainRun (restarts : ex.Restarts ready stands L) (known : ready s) {fuel : Nat} (enough : L.length < fuel) :
    ∃ t, ex.drain fuel s = .ok L t ∧ stands t [] := by
  obtain ⟨t,started,here⟩ := restarts.start s known
  obtain ⟨u,collected,last⟩ := collectRun restarts.positions here enough
  exact ⟨u,by rw [drain,bindEq started,collected],last⟩

def ofRows (rows : List Bytes) (tupleLen : Nat) (cols : List ColMeta) : AbstractExecutor (List Bytes) :=
  ⟨modify fun _ => rows,modify List.tail,do pure (← get).head?,List.isEmpty,tupleLen,cols⟩

theorem ofRowsRestarts {rows : List Bytes} {tupleLen : Nat} {cols : List ColMeta} (size : ∀ r ∈ rows, r.length = tupleLen) :
    (ofRows rows tupleLen cols).Restarts (fun _ => True) Eq rows := by
  refine ⟨⟨?_,?_,?_,?_⟩,fun _ _ _ => trivial,fun s _ => ⟨rows,rfl,rfl⟩,size⟩
  · rintro s rfl
    rfl
  · rintro s r rest rfl
    rfl
  · rintro s r rest rfl
    exact ⟨_,rfl,rfl⟩
  · rintro s r rest rfl
    exact ⟨_,rfl,rfl⟩

end AbstractExecutor
end Rmdb
