import Rmdb.Transaction.LockSafety
import Mathlib.Order.Basic
import Mathlib.Data.Fintype.Defs

/-! Strength of lock modes. A mode is stronger the more modes it keeps other transactions from
taking, and what a transaction holds on an object is read off its first request there. -/
namespace Rmdb
open LockManager

instance : Fintype LockMode :=
  ⟨{.shared,.exclusive,.intentionShared,.intentionExclusive,.sIx},fun mode => by cases mode <;> decide⟩

-- IS < IX < SIX < X and IS < S < SIX < X
instance : LE LockMode :=
  ⟨fun a b => a = b ∨ a = .intentionShared ∨ b = .exclusive ∨ (b = .sIx ∧ a ≠ .exclusive)⟩

instance (a b : LockMode) : Decidable (a ≤ b) :=
  inferInstanceAs (Decidable (a = b ∨ a = .intentionShared ∨ b = .exclusive ∨ (b = .sIx ∧ a ≠ .exclusive)))

instance : PartialOrder LockMode where
  le_refl := by decide
  le_trans := by decide
  le_antisymm := by decide

theorem strongerConflicts : ∀ a b : LockMode,
    a ≤ b ↔ ∀ other, isCompatible other a = false → isCompatible other b = false := by
  decide

/- The requests for which `lock` neither finds the mode covered nor raises it: it stores the mode
asked for over the stronger or the incomparable one. -/
def LockMode.lowers (held mode : LockMode) : Bool :=
  (held = .shared ∧ mode = .intentionExclusive) ∨
    (held = .intentionExclusive ∧ (mode = .shared ∨ mode = .intentionShared))

theorem coversStronger : ∀ held mode : LockMode, covers held mode = true → mode ≤ held := by
  decide

namespace LockManager

def own (txnId : Int) (request : LockRequest) : Bool := request.txnId = txnId

def heldIn (l : List LockRequest) (txnId : Int) : Option LockMode :=
  (l.find? (own txnId)).bind fun request => if request.granted then some request.lockMode else none

def heldMode (s : LockManager) (txnId : Int) (id : LockDataId) : Option LockMode := heldIn (s.requests id) txnId

section Queue
variable {l : List LockRequest} {txnId t : Int} {mode : LockMode} {request : LockRequest}

theorem regrantOwn (found : l.find? (own txnId) = some request) : heldIn (regrant txnId mode l) txnId = some mode := by
  induction l with
  | nil => cases found
  | cons first l ih =>
    rw [regrant]
    split
    · rename_i same
      simp [heldIn,own,same]
    · rename_i apart
      have missed : ¬own txnId first = true := by simpa [own] using apart
      rw [List.find?_cons_of_neg missed] at found
      simpa only [heldIn,List.find?_cons_of_neg missed] using ih found

theorem regrantOther (apart : t ≠ txnId) : heldIn (regrant txnId mode l) t = heldIn l t := by
  induction l with
  | nil => rfl
  | cons first l ih =>
    rw [regrant]
    split
    · rename_i same
      have missed : own t first = false := by simpa [own,same] using apart.symm
      have missedNew : own t {first with lockMode := mode, granted := true} = false := missed
      simp only [heldIn,List.find?_cons,missed,missedNew]
    · cases hit : own t first with
      | true => simp only [heldIn,List.find?_cons,hit]
      | false => simpa only [heldIn,List.find?_cons,hit] using ih

theorem appendOwn (absent : l.find? (own txnId) = none) : heldIn (l ++ [⟨txnId,mode,true⟩]) txnId = some mode := by
  simp [heldIn,List.find?_append,absent,own]

theorem appendOther (apart : t ≠ txnId) : heldIn (l ++ [⟨txnId,mode,true⟩]) t = heldIn l t := by
  have missed : own t ⟨txnId,mode,true⟩ = false := by simpa [own] using apart.symm
  simp only [heldIn,List.find?_append,List.find?_cons,missed,List.find?_nil,Option.or_none]

theorem eraseOther (apart : t ≠ txnId) : heldIn (l.eraseP (own txnId)) t = heldIn l t := by
  induction l with
  | nil => rfl
  | cons first l ih =>
    rw [List.eraseP_cons]
    cases gone : own txnId first with
    | true =>
      have missed : own t first = false := by
        have same : first.txnId = txnId := by simpa [own] using gone
        simpa [own,same] using apart.symm
      simp only [heldIn,cond_true,List.find?_cons,missed]
    | false =>
      cases hit : own t first with
      | true => simp only [heldIn,cond_false,List.find?_cons,hit]
      | false => simpa only [heldIn,cond_false,List.find?_cons,hit] using ih

theorem Granted.other {new : List LockRequest} (grant : Granted txnId mode l new) (apart : t ≠ txnId) :
    heldIn new t = heldIn l t := by
  cases grant with
  | covered => rfl
  | upgraded => exact regrantOther apart
  | added => exact appendOther apart

end Queue

section Calls
variable {id : LockDataId} {mode : LockMode} {txn txn' : Transaction} {s s' : LockManager} {b : Bool}

def nextMode (held : Option LockMode) (mode : LockMode) : LockMode :=
  match held with
  | some held => if covers held mode then held else mode
  | none => mode

theorem lockHeld (run : lock id mode (txn,s) = .ok b (txn',s')) :
    s'.heldMode txn.txnId id = some (nextMode (s.heldMode txn.txnId id) mode) := by
  rw [lock,getBind] at run
  dsimp only at run
  split at run
  · cases run
  rw [setBind,requestsGetD] at run
  cases found : (s.requests id).find? fun request => request.txnId = txn.txnId with
  | none =>
    have first : (s.requests id).find? (own txn.txnId) = none := found
    have before : s.heldMode txn.txnId id = none := by simp only [heldMode,heldIn,first,Option.bind_none]
    rw [found] at run
    simp only [Option.any_none,Bool.false_eq_true,if_false,Option.isSome_none] at run
    split at run
    · cases run
    cases run
    rw [before]
    simp only [heldMode,requestsSet,Option.map_some,refreshRequests,Option.getD_some]
    exact appendOwn first
  | some request =>
    have first : (s.requests id).find? (own txn.txnId) = some request := found
    have before : s.heldMode txn.txnId id = if request.granted then some request.lockMode else none := by
      simp only [heldMode,heldIn,first,Option.bind_some]
    rw [found] at run
    simp only [Option.any_some,Option.isSome_some,if_true] at run
    split at run
    · rename_i covered
      obtain ⟨granted,covered⟩ := Bool.and_eq_true_iff.mp covered
      cases run
      rw [heldMode,congrFun requestsLookup id]
      change s.heldMode txn.txnId id = _
      rw [before,granted]
      simp only [if_true,nextMode,covered]
    · rename_i uncovered
      split at run
      · cases run
      cases run
      simp only [heldMode,requestsSet,Option.map_some,refreshRequests,Option.getD_some]
      rw [regrantOwn first]
      change _ = some (nextMode (s.heldMode txn.txnId id) mode)
      rw [before]
      cases granted : request.granted with
      | false => rfl
      | true =>
        rw [granted,Bool.true_and] at uncovered
        simp only [if_true,nextMode,uncovered,Bool.false_eq_true,if_false]

structure Strengthens (before : Option LockMode) (mode : LockMode) (now : Option LockMode) : Prop where
  granted : ∃ m ∈ now, mode ≤ m
  kept : ∀ held ∈ before, ∃ m ∈ now, held ≤ m
  refuses : ∀ m ∈ now, ∀ other, isCompatible other mode = false → isCompatible other m = false
  refused : ∀ held ∈ before, ∀ m ∈ now, ∀ other, isCompatible other held = false → isCompatible other m = false

theorem nextStronger (held : Option LockMode) (mode : LockMode) : mode ≤ nextMode held mode := by
  cases held with
  | none => exact le_refl mode
  | some held =>
    rw [nextMode]
    split
    · rename_i covered
      exact coversStronger held mode covered
    · exact le_refl mode

theorem nextKeeps : ∀ held mode : LockMode, held ≤ nextMode (some held) mode ↔ held.lowers mode = false := by
  decide

theorem strengthensIff (before : Option LockMode) (mode : LockMode) :
    Strengthens before mode (some (nextMode before mode)) ↔ ∀ held ∈ before, held.lowers mode = false := by
  constructor
  · intro strong held mem
    obtain ⟨m,here,above⟩ := strong.kept held mem
    obtain rfl := Option.mem_some_iff.mp here
    obtain rfl := Option.mem_def.mp mem
    exact (nextKeeps held mode).mp above
  · intro fine
    have kept : ∀ held ∈ before, held ≤ nextMode before mode := by
      intro held mem
      obtain rfl := Option.mem_def.mp mem
      exact (nextKeeps held mode).mpr (fine held rfl)
    have above := nextStronger before mode
    refine ⟨⟨_,rfl,above⟩,fun held mem => ⟨_,rfl,kept held mem⟩,?_,?_⟩
    · rintro m here other
      obtain rfl := Option.mem_some_iff.mp here
      exact (strongerConflicts _ _).mp above other
    · rintro held mem m here other
      obtain rfl := Option.mem_some_iff.mp here
      exact (strongerConflicts _ _).mp (kept held mem) other

theorem lockOthers (t : Int) (x : LockDataId) (apart : t ≠ txn.txnId ∨ x ≠ id) :
    (after (lock id mode (txn,s))).2.heldMode t x = s.heldMode t x := by
  have call := @lockRun id mode txn s
  generalize lock id mode (txn,s) = result at call ⊢
  cases call with
  | thrown same => simp only [after,heldMode,same]
  | done growing others here =>
    by_cases same : x = id
    · subst same
      exact here.other (apart.resolve_right (by simp))
    · simp only [after,heldMode,others x same]

theorem lockSame : (after (lock id mode (txn,s))).1.txnId = txn.txnId := by
  have call := @lockRun id mode txn s
  generalize lock id mode (txn,s) = result at call ⊢
  cases call <;> rfl

theorem lockRefused {e : Fault} (run : lock id mode (txn,s) = .error e (txn',s')) : s'.heldMode = s.heldMode := by
  have call := @lockRun id mode txn s
  rw [run] at call
  cases call with
  | thrown same => funext t x; simp only [heldMode,same]

theorem unlockOthers (t : Int) (x : LockDataId) (apart : t ≠ txn.txnId) :
    (after (unlock id (txn,s))).2.heldMode t x = s.heldMode t x := by
  have call := @unlockRun id txn s
  generalize unlock id (txn,s) = result at call ⊢
  cases call with
  | absent => rfl
  | done held others here =>
    by_cases same : x = id
    · subst same
      simp only [after,heldMode,here]
      exact eraseOther apart
    · simp only [after,heldMode,others x same]

end Calls

inductive Growth (fine : Option LockMode → LockMode → Prop) :
    Transaction × LockManager → Transaction × LockManager → Prop where
  | lock {txn : Transaction} {s : LockManager} {id : LockDataId} {mode : LockMode}
      (allowed : fine (s.heldMode txn.txnId id) mode) : Growth fine (txn,s) (after (lock id mode (txn,s)))
  | otherLock {txn other : Transaction} {s : LockManager} {id : LockDataId} {mode : LockMode}
      (apart : txn.txnId ≠ other.txnId) : Growth fine (txn,s) (txn,(after (lock id mode (other,s))).2)
  | otherUnlock {txn other : Transaction} {s : LockManager} {id : LockDataId}
      (apart : txn.txnId ≠ other.txnId) : Growth fine (txn,s) (txn,(after (unlock id (other,s))).2)

def Raising (held : Option LockMode) (mode : LockMode) : Prop := ∀ m ∈ held, m.lowers mode = false

def Above (p p' : Transaction × LockManager) : Prop :=
  p'.1.txnId = p.1.txnId ∧
    ∀ id, ∀ held ∈ p.2.heldMode p.1.txnId id, ∃ now ∈ p'.2.heldMode p.1.txnId id, held ≤ now

theorem Above.refl (p : Transaction × LockManager) : Above p p := ⟨rfl,fun _ held mem => ⟨held,mem,le_refl held⟩⟩

theorem Above.trans {p p' u : Transaction × LockManager} (one : Above p p') (two : Above p' u) : Above p u := by
  refine ⟨two.1.trans one.1,fun id held mem => ?_⟩
  obtain ⟨m,mid,below⟩ := one.2 id held mem
  rw [← one.1] at mid
  obtain ⟨now,last,above⟩ := two.2 id m mid
  rw [one.1] at last
  exact ⟨now,last,below.trans above⟩

theorem Above.same {p : Transaction × LockManager} {s : LockManager}
    (same : ∀ id, s.heldMode p.1.txnId id = p.2.heldMode p.1.txnId id) : Above p (p.1,s) :=
  ⟨rfl,fun id held mem => ⟨held,by rw [same]; exact mem,le_refl held⟩⟩

theorem Growth.above {p p' : Transaction × LockManager} (step : Growth Raising p p') : Above p p' := by
  cases step with
  | @lock txn s id mode allowed =>
    refine ⟨lockSame,fun x held mem => ?_⟩
    by_cases here : x = id
    · subst here
      cases run : LockManager.lock x mode (txn,s) with
      | ok b p' =>
        have now := lockHeld run
        obtain ⟨m,found,above⟩ := ((strengthensIff _ mode).mpr allowed).kept held mem
        exact ⟨m,now ▸ found,above⟩
      | error e p' =>
        refine ⟨held,?_,le_refl held⟩
        have same := lockRefused run
        change held ∈ p'.2.heldMode _ _
        rw [same]
        exact mem
    · exact ⟨held,by rw [lockOthers txn.txnId x (.inr here)]; exact mem,le_refl held⟩
  | otherLock apart => exact .same fun x => lockOthers _ x (.inl apart)
  | otherUnlock apart => exact .same fun x => unlockOthers _ x apart

theorem growthAbove {p p' : Transaction × LockManager} (run : Relation.ReflTransGen (Growth Raising) p p') : Above p p' := by
  induction run with
  | refl => exact .refl p
  | tail _ step ih => exact ih.trans step.above

theorem lockNeverWeakens (p p' : Transaction × LockManager) :
    (∀ id mode b, lock id mode p = .ok b p' →
      (Strengthens (p.2.heldMode p.1.txnId id) mode (p'.2.heldMode p.1.txnId id) ↔ Raising (p.2.heldMode p.1.txnId id) mode)) ∧
    (Relation.ReflTransGen (Growth Raising) p p' → Above p p') := by
  refine ⟨fun id mode b run => ?_,growthAbove⟩
  rw [lockHeld run]
  exact strengthensIff _ mode

def reading : Transaction × LockManager := after (lockSharedOnTable 3 (.new 1,⟨fun _ => none⟩))

theorem lockNeverWeakensOnce :
    Strengthens (reading.2.heldMode 1 (.onTable 3)) .exclusive
      ((after (lockExclusiveOnTable 3 reading)).2.heldMode 1 (.onTable 3)) :=
  ((lockNeverWeakens reading _).1 (.onTable 3) .exclusive true rfl).mpr (by unfold Raising; decide)

theorem readThenIntent : lockIXOnTable 3 reading = .ok true (after (lockIXOnTable 3 reading)) ∧
    ¬Strengthens (reading.2.heldMode 1 (.onTable 3)) .intentionExclusive
      ((after (lockIXOnTable 3 reading)).2.heldMode 1 (.onTable 3)) := by
  refine ⟨rfl,fun strong => ?_⟩
  have lost := strong.refused .shared rfl .intentionExclusive rfl .intentionExclusive rfl
  revert lost
  decide

end LockManager
end Rmdb
