import Rmdb.Transaction.LockSafety

/-! `client_handler`: the sessions of the server, the turns of their loops and the ways out of them,
and who owns the granted locks meanwhile. `exit(1)`, and an exception that nobody catches, end the
process and with it the run. -/
namespace Rmdb

namespace TransactionManager

def getTransaction (txnId : Int) : M TransactionManager (Option Transaction) :=
  if txnId = invalidTxnId then pure none else some <$> getTxn txnId

def beginImplicit : M TransactionManager Int := do
  let id ← begin none
  modifyTxn id fun object => {object with txnMode := false}
  pure id

-- `SetTransaction`: the id left in `txn_id`
def setTransaction (txnId : Int) : M TransactionManager Int := do
  match ← getTransaction txnId with
  | none => beginImplicit
  | some object => if ended object.state then beginImplicit else pure txnId

def commitSingle (txnId : Int) (order : List LockDataId) : M TransactionManager Unit := do
  let object ← getTxn txnId
  if object.txnMode = false then commit txnId order

end TransactionManager

open TransactionManager LockManager

/- Where a session stands in its loop. -/
inductive Place where
  | reading
  | running
  | thrown
  | writing
  | left
  deriving DecidableEq, Repr

structure Session where
  txnId : Int
  place : Place
  deriving DecidableEq, Repr

structure Server where
  manager : TransactionManager
  sessions : Nat → Option Session

namespace Server

def put (s : Server) (k : Nat) (x : Session) (m : TransactionManager) : Server :=
  ⟨m,Function.update s.sessions k (some x)⟩

structure Works (m m' : TransactionManager) : Prop where
  same : SameLocks m m'
  modes : ∀ t, (m'.txnMap t).map Transaction.txnMode = (m.txnMap t).map Transaction.txnMode

inductive Step : Server → Server → Prop where
  | accept {s : Server} {k : Nat} (free : s.sessions k = none) :
      Step s (s.put k ⟨invalidTxnId,.reading⟩ s.manager)
  -- `read` returns 0 or -1, or the request is "exit"
  | close {s : Server} {k : Nat} {t : Int} (here : s.sessions k = some ⟨t,.reading⟩) :
      Step s (s.put k ⟨t,.left⟩ s.manager)
  | request {s : Server} {k : Nat} {t u : Int} {m : TransactionManager} (here : s.sessions k = some ⟨t,.reading⟩)
      (run : setTransaction t s.manager = .ok u m) : Step s (s.put k ⟨u,.running⟩ m)
  | work {s : Server} {k : Nat} {t : Int} {m : TransactionManager} (here : s.sessions k = some ⟨t,.running⟩)
      (works : Works s.manager m) : Step s (s.put k ⟨t,.running⟩ m)
  | granted {s : Server} {k : Nat} {t : Int} {id : LockDataId} {mode : LockMode} {b : Bool} {m : TransactionManager}
      (here : s.sessions k = some ⟨t,.running⟩) (run : withLocks t (LockManager.lock id mode) s.manager = .ok b m) :
      Step s (s.put k ⟨t,.running⟩ m)
  | refused {s : Server} {k : Nat} {t a : Int} {id : LockDataId} {mode : LockMode} {reason : AbortReason}
      {m : TransactionManager} (here : s.sessions k = some ⟨t,.running⟩)
      (run : withLocks t (LockManager.lock id mode) s.manager = .error (.txnAbort a reason) m) :
      Step s (s.put k ⟨t,.thrown⟩ m)
  -- the statement has returned, or its `RMDBError` or the syntax error is in the reply
  | done {s : Server} {k : Nat} {t : Int} (here : s.sessions k = some ⟨t,.running⟩) :
      Step s (s.put k ⟨t,.writing⟩ s.manager)
  | explicit {s : Server} {k : Nat} {t : Int} {m : TransactionManager} (here : s.sessions k = some ⟨t,.running⟩)
      (run : modifyTxn t (fun object => {object with txnMode := true}) s.manager = .ok () m) :
      Step s (s.put k ⟨t,.writing⟩ m)
  | commit {s : Server} {k : Nat} {t : Int} {order : List LockDataId} {m : TransactionManager}
      (here : s.sessions k = some ⟨t,.running⟩) (reads : s.manager.Reads t order)
      (run : TransactionManager.commit t order s.manager = .ok () m) : Step s (s.put k ⟨t,.writing⟩ m)
  | abort {s : Server} {k : Nat} {t : Int} {p : Place} {order : List LockDataId} {m : TransactionManager}
      (here : s.sessions k = some ⟨t,p⟩) (inside : p = .running ∨ p = .thrown) (reads : s.manager.Reads t order)
      (run : TransactionManager.abort t order s.manager = .ok () m) : Step s (s.put k ⟨t,.writing⟩ m)
  -- the same calls when they throw: the error becomes the reply
  | abortFails {s : Server} {k : Nat} {t : Int} {p : Place} {order : List LockDataId} {e : RMDBError}
      {m : TransactionManager} (here : s.sessions k = some ⟨t,p⟩) (inside : p = .running ∨ p = .thrown)
      (reads : s.manager.Reads t order) (run : TransactionManager.abort t order s.manager = .error (.error e) m) :
      Step s (s.put k ⟨t,.writing⟩ m)
  | replied {s : Server} {k : Nat} {t : Int} {order : List LockDataId} {m : TransactionManager}
      (here : s.sessions k = some ⟨t,.writing⟩) (reads : s.manager.Reads t order)
      (run : commitSingle t order s.manager = .ok () m) : Step s (s.put k ⟨t,.reading⟩ m)
  -- `write` returns -1
  | unsent {s : Server} {k : Nat} {t : Int} (here : s.sessions k = some ⟨t,.writing⟩) :
      Step s (s.put k ⟨t,.left⟩ s.manager)

structure Fresh (s : Server) : Prop where
  manager : s.manager.Fresh
  counter : 0 ≤ s.manager.nextTxnId
  nobody : ∀ k, s.sessions k = none

def Connected (s : Server) (k : Nat) (x : Session) : Prop := s.sessions k = some x ∧ x.place ≠ .left

def LocksOwned (s : Server) : Prop :=
  ∀ id, ∀ r ∈ s.manager.lockManager.requests id, r.granted = true →
    s.manager.Live r.txnId ∧ ∃ k x, s.Connected k x ∧ x.txnId = r.txnId

def LeavesFree (s s' : Server) : Prop :=
  ∀ k x, s.Connected k x → (∀ y, ¬s'.Connected k y) → ∀ id, ¬s.manager.Has x.txnId id

/- What one session has done: the locks of the other transactions are as they were, and the session
keeps its transaction or has taken a new one when the old one held nothing. -/
structure Moves (m : TransactionManager) (x y : Session) (m' : TransactionManager) : Prop where
  safe : Safe m'
  others : ∀ u ≠ y.txnId, (m'.txnMap u).map locksOf = (m.txnMap u).map locksOf
  known : (m'.txnMap y.txnId).isSome
  active : y.place = .running ∨ y.place = .thrown → m'.Live y.txnId
  name : (y.txnId = x.txnId ∧ (m.txnMap x.txnId).isSome) ∨ (y.txnId = m.nextTxnId ∧ ∀ id, ¬m.Has x.txnId id)

inductive Effect (s : Server) : Server → Prop where
  | joins {k : Nat} (free : s.sessions k = none) : Effect s (s.put k ⟨invalidTxnId,.reading⟩ s.manager)
  | turns {k : Nat} {x y : Session} {m : TransactionManager} (here : s.Connected k x) (stays : y.place ≠ .left)
      (moves : Moves s.manager x y m) : Effect s (s.put k y m)
  | leaves {k : Nat} {x : Session} (here : s.Connected k x) : Effect s (s.put k {x with place := .left} s.manager)

structure Sound (s : Server) : Prop where
  safe : Safe s.manager
  counter : 0 ≤ s.manager.nextTxnId
  ids : ∀ t, (s.manager.txnMap t).isSome → 0 ≤ t
  known : ∀ k x, s.sessions k = some x → x.txnId = invalidTxnId ∨ (s.manager.txnMap x.txnId).isSome
  active : ∀ k x, s.sessions k = some x → x.place = .running ∨ x.place = .thrown → s.manager.Live x.txnId
  apart : ∀ j k x y, s.sessions j = some x → s.sessions k = some y → x.txnId = y.txnId →
    j = k ∨ x.txnId = invalidTxnId

section Calls
variable {s s' : Server} {m m' : TransactionManager} {t u : Int} {txn : Transaction}

theorem liveSome (live : m.Live t) : (m.txnMap t).isSome := by
  obtain ⟨txn,found,_⟩ := live
  exact Option.isSome_iff_exists.mpr ⟨txn,found⟩

theorem someSame (same : (m'.txnMap t).map locksOf = (m.txnMap t).map locksOf) :
    (m'.txnMap t).isSome = (m.txnMap t).isSome := by
  simpa only [Option.isSome_map] using congrArg Option.isSome same

theorem heldSame (safe : Safe m) (safe' : Safe m') (same : (m'.txnMap t).map locksOf = (m.txnMap t).map locksOf)
    {id : LockDataId} (has : m'.Has t id) : m.Has t id := by
  have ⟨r,mem,own,_⟩ := has
  obtain ⟨txn',found',_⟩ := safe'.owned id r mem
  rw [own] at found'
  rw [found'] at same
  obtain ⟨txn,found,view⟩ := Option.map_eq_some_iff.mp same.symm
  rw [safe.has found,viewLocks view,← safe'.has found']
  exact has

theorem hasLive (safe : Safe m) {id : LockDataId} (has : m.Has t id) : m.Live t := by
  obtain ⟨r,mem,own,_⟩ := has
  exact own ▸ safe.owned id r mem

theorem beginImplicitRun (m : TransactionManager) :
    ∃ m', beginImplicit m = .ok m.nextTxnId m' ∧ SameLocks m.addTxn m' := by
  obtain ⟨a,run,same⟩ := beginRun m
  have quiet : Quiet (modifyTxn m.nextTxnId fun object => {object with txnMode := false}) := quietModifyTxn fun _ => rfl
  refine ⟨_,?_,same.trans (quiet a)⟩
  rw [beginImplicit,bindEq run]
  rfl

inductive Current (m : TransactionManager) (t : Int) : Int → TransactionManager → Prop where
  | kept (live : m.Live t) : Current m t t m
  | fresh {m' : TransactionManager} (gone : t = invalidTxnId ∨ ∃ txn, m.txnMap t = some txn ∧ ended txn.state = true)
      (same : SameLocks m.addTxn m') : Current m t m.nextTxnId m'

theorem setTransactionRun (known : t = invalidTxnId ∨ (m.txnMap t).isSome) :
    ∃ u m', setTransaction t m = .ok u m' ∧ Current m t u m' := by
  obtain ⟨a,begun,same⟩ := beginImplicitRun m
  by_cases none : t = invalidTxnId
  · subst none
    exact ⟨_,a,begun,.fresh (.inl rfl) same⟩
  · obtain ⟨txn,found⟩ := Option.isSome_iff_exists.mp (known.resolve_left none)
    have asked : getTransaction t m = .ok (some txn) m := by
      rw [getTransaction,if_neg none,map_eq_pure_bind,bindEq (getTxnRun found)]
      rfl
    rw [setTransaction,bindEq asked]
    dsimp only
    split
    · rename_i gone
      exact ⟨_,a,begun,.fresh (.inr ⟨txn,found,gone⟩) same⟩
    · rename_i alive
      exact ⟨t,m,rfl,.kept ⟨txn,found,by simpa using alive⟩⟩

theorem Works.quiet (works : Works m m') (live : m.Live t) (safe : Safe m) : Moves m ⟨t,.running⟩ ⟨t,.running⟩ m' where
  safe := safe.same works.same
  others := fun u _ => works.same.txns u
  known := (someSame (works.same.txns t)).trans (liveSome live)
  active := fun _ => live.same (works.same.txns t)
  name := .inl ⟨rfl,liveSome live⟩

theorem Current.moves (safe : Safe m) (ids : ∀ t, (m.txnMap t).isSome → 0 ≤ t) (current : Current m t u m') :
    Moves m ⟨t,.reading⟩ ⟨u,.running⟩ m' := by
  cases current with
  | kept live => exact ⟨safe,fun _ _ => rfl,liveSome live,fun _ => live,.inl ⟨rfl,liveSome live⟩⟩
  | fresh gone same =>
    have new : m.addTxn.Live m.nextTxnId := ⟨_,Function.update_self ..,rfl⟩
    refine ⟨safe.addTxn.same same,fun u apart => ?_,?_,fun _ => ?_,.inr ⟨rfl,fun id has => ?_⟩⟩
    · refine (same.txns u).trans ?_
      simp only [addTxn,Function.update_of_ne apart]
    · exact liveSome (new.same (same.txns _))
    · exact new.same (same.txns _)
    · have live := hasLive safe has
      rcases gone with rfl | ⟨txn,found,last⟩
      · exact absurd (ids _ (liveSome live)) (by decide)
      · obtain ⟨txn',found',alive⟩ := live
        rw [Option.some.inj (found'.symm.trans found),last] at alive
        cases alive

theorem lockMoves {id : LockDataId} {mode : LockMode} {p : Place} (safe : Safe m) (live : m.Live t)
    (run : after (withLocks t (LockManager.lock id mode) m) = m') : Moves m ⟨t,.running⟩ ⟨t,p⟩ m' := by
  have others := @onlyWithLocks t Bool (LockManager.lock id mode) m
  rw [run] at others
  have known := liveSome live
  obtain ⟨txn,found,alive⟩ := live
  rcases @lockCases _ _ _ id mode safe found alive with ⟨e,lm,refused,same⟩ | ⟨lm,granted,_,safe',_⟩
  · rw [refused] at run
    subst run
    have live' : (m.putLocks t (txn,lm)).Live t := ⟨txn,Function.update_self ..,alive⟩
    exact ⟨putThrown found same safe,others,liveSome live',fun _ => live',.inl ⟨rfl,known⟩⟩
  · rw [granted] at run
    subst run
    have live' : (m.putLocks t (insertLock id txn,lm)).Live t := ⟨_,Function.update_self ..,alive⟩
    exact ⟨safe',others,liveSome live',fun _ => live',.inl ⟨rfl,known⟩⟩

theorem lastMoves {p q : Place} (safe' : Safe m') (others : ∀ u ≠ t, (m'.txnMap u).map locksOf = (m.txnMap u).map locksOf)
    (known : (m.txnMap t).isSome) (known' : (m'.txnMap t).isSome) (last : q = .writing ∨ q = .reading) :
    Moves m ⟨t,p⟩ ⟨t,q⟩ m' := by
  refine ⟨safe',others,known',fun inside => ?_,.inl ⟨rfl,known⟩⟩
  rcases last with rfl | rfl <;> rcases inside with h | h <;> cases h

theorem readsSome {order : List LockDataId} (reads : m.Reads t order) : (m.txnMap t).isSome := by
  obtain ⟨txn,found,_⟩ := reads
  exact Option.isSome_iff_exists.mpr ⟨txn,found⟩

theorem commitMoves {p q : Place} {order : List LockDataId} (safe : Safe m) (reads : m.Reads t order)
    (run : TransactionManager.commit t order m = .ok () m') (last : q = .writing ∨ q = .reading) :
    Moves m ⟨t,p⟩ ⟨t,q⟩ m' := by
  obtain ⟨m'',txn,ran,safe',found,_⟩ := commitRun safe reads
  rw [run] at ran
  cases ran
  have others := onlyCommit (t := t) order m
  rw [run] at others
  exact lastMoves safe' others (readsSome reads) (Option.isSome_iff_exists.mpr ⟨txn,found⟩) last

theorem abortMoves {p : Place} {order : List LockDataId} (safe : Safe m) (reads : m.Reads t order)
    (run : after (TransactionManager.abort t order m) = m') : Moves m ⟨t,p⟩ ⟨t,.writing⟩ m' := by
  have others := onlyAbort (t := t) order m
  rcases abortRun safe reads with ⟨e,u,thrown,same⟩ | ⟨u,txn,done,safe',found,_⟩
  · rw [thrown] at run others
    subst run
    exact lastMoves (safe.same same) others (readsSome reads) ((someSame (same.txns t)).trans (readsSome reads))
      (.inl rfl)
  · rw [done] at run others
    subst run
    exact lastMoves safe' others (readsSome reads) (Option.isSome_iff_exists.mpr ⟨txn,found⟩) (.inl rfl)

theorem Sound.effect (sound : Sound s) (step : Step s s') : Effect s s' := by
  have live {k : Nat} {t : Int} {p : Place} (here : s.sessions k = some ⟨t,p⟩) (inside : p = .running ∨ p = .thrown) :
      s.manager.Live t := sound.active k _ here inside
  cases step with
  | accept free => exact .joins free
  | close here => exact .leaves ⟨here,by simp⟩
  | request here run =>
    obtain ⟨u,m,ran,current⟩ := setTransactionRun (sound.known _ _ here)
    rw [run] at ran
    cases ran
    exact .turns ⟨here,by simp⟩ (by simp) (current.moves sound.safe sound.ids)
  | work here works => exact .turns ⟨here,by simp⟩ (by simp) (works.quiet (live here (.inl rfl)) sound.safe)
  | granted here run =>
    exact .turns ⟨here,by simp⟩ (by simp) (lockMoves sound.safe (live here (.inl rfl)) (congrArg after run))
  | refused here run =>
    exact .turns ⟨here,by simp⟩ (by simp) (lockMoves sound.safe (live here (.inl rfl)) (congrArg after run))
  | done here =>
    have known := liveSome (live here (.inl rfl))
    exact .turns ⟨here,by simp⟩ (by simp) (lastMoves sound.safe (fun _ _ => rfl) known known (.inl rfl))
  | @explicit k t m here run =>
    have known := liveSome (live here (.inl rfl))
    have quiet : Quiet (modifyTxn t fun object => {object with txnMode := true}) := quietModifyTxn fun _ => rfl
    have same := quiet s.manager
    rw [run] at same
    exact .turns ⟨here,by simp⟩ (by simp) (lastMoves (sound.safe.same same) (fun u _ => same.txns u) known
      ((someSame (same.txns t)).trans known) (.inl rfl))
  | commit here reads run => exact .turns ⟨here,by simp⟩ (by simp) (commitMoves sound.safe reads run (.inl rfl))
  | abort here inside reads run =>
    refine .turns ⟨here,?_⟩ (by simp) (abortMoves sound.safe reads (congrArg after run))
    rcases inside with rfl | rfl <;> simp
  | abortFails here inside reads run =>
    refine .turns ⟨here,?_⟩ (by simp) (abortMoves sound.safe reads (congrArg after run))
    rcases inside with rfl | rfl <;> simp
  | @replied k t order m here reads run =>
    refine .turns ⟨here,by simp⟩ (by simp) ?_
    have ⟨txn,found,_⟩ := reads
    rw [commitSingle,bindEq (getTxnRun found)] at run
    split at run
    · exact commitMoves sound.safe reads run (.inr rfl)
    · cases run
      exact lastMoves sound.safe (fun _ _ => rfl) (readsSome reads) (readsSome reads) (.inr rfl)
  | unsent here => exact .leaves ⟨here,by simp⟩

end Calls

section Runs
variable {s s' : Server} {k : Nat} {x y : Session} {m : TransactionManager}

theorem putHere : (s.put k x m).sessions k = some x := Function.update_self ..

theorem putOther {j : Nat} (apart : j ≠ k) : (s.put k x m).sessions j = s.sessions j := Function.update_of_ne apart ..

theorem putCases {j : Nat} {z : Session} (found : (s.put k x m).sessions j = some z) :
    (j = k ∧ z = x) ∨ (j ≠ k ∧ s.sessions j = some z) := by
  by_cases same : j = k
  · subst same
    rw [putHere] at found
    exact .inl ⟨rfl,(Option.some.inj found).symm⟩
  · rw [putOther same] at found
    exact .inr ⟨same,found⟩

theorem Sound.alone (sound : Sound s) (here : s.sessions k = some x) (moves : Moves s.manager x y m) {j : Nat}
    {z : Session} (other : j ≠ k) (there : s.sessions j = some z) :
    z.txnId ≠ y.txnId ∧ (s.manager.txnMap y.txnId = none → y.txnId = s.manager.nextTxnId) := by
  rcases moves.name with ⟨name,known⟩ | ⟨name,_⟩
  · refine ⟨fun same => ?_,fun none => ?_⟩
    · rcases sound.apart j k z x there here (same.trans name) with equal | invalid
      · exact other equal
      · have nonneg := sound.ids _ known
        rw [← name,← same,invalid] at nonneg
        exact absurd nonneg (by decide)
    · rw [name] at none
      rw [none] at known
      cases known
  · refine ⟨fun same => ?_,fun _ => name⟩
    rcases sound.known j z there with invalid | known
    · have counter := sound.counter
      rw [← name,← same,invalid] at counter
      exact absurd counter (by decide)
    · obtain ⟨txn,found⟩ := Option.isSome_iff_exists.mp known
      have below := (sound.safe.named _ txn found).2
      omega

theorem Moves.nonneg (sound : Sound s) (moves : Moves s.manager x y m) : 0 ≤ y.txnId := by
  rcases moves.name with ⟨name,known⟩ | ⟨name,_⟩
  · rw [name]
    exact sound.ids _ known
  · rw [name]
    exact sound.counter

theorem Sound.turns (sound : Sound s) (here : s.sessions k = some x) (moves : Moves s.manager x y m) :
    Sound (s.put k y m) where
  safe := moves.safe
  counter := by
    obtain ⟨txn,found⟩ := Option.isSome_iff_exists.mp moves.known
    have below := (moves.safe.named _ txn found).2
    have nonneg := moves.nonneg sound
    exact (nonneg.trans_lt below).le
  ids t known := by
    by_cases own : t = y.txnId
    · rw [own]
      exact moves.nonneg sound
    · exact sound.ids t ((someSame (moves.others t own)).symm.trans known)
  known j z found := by
    rcases putCases found with ⟨_,rfl⟩ | ⟨other,old⟩
    · exact .inr moves.known
    · have apart := (sound.alone here moves other old).1
      exact (sound.known j z old).imp_right fun known => (someSame (moves.others _ apart)).trans known
  active j z found inside := by
    rcases putCases found with ⟨_,rfl⟩ | ⟨other,old⟩
    · exact moves.active inside
    · have apart := (sound.alone here moves other old).1
      exact (sound.active j z old inside).same (moves.others _ apart)
  apart i j z w found found' same := by
    rcases putCases found with ⟨rfl,rfl⟩ | ⟨other,old⟩ <;> rcases putCases found' with ⟨rfl,rfl⟩ | ⟨other',old'⟩
    · exact .inl rfl
    · exact absurd same.symm (sound.alone here moves other' old').1
    · exact absurd same (sound.alone here moves other old).1
    · exact sound.apart i j z w old old' same

theorem Sound.joins (sound : Sound s) : Sound (s.put k ⟨invalidTxnId,.reading⟩ s.manager) where
  safe := sound.safe
  counter := sound.counter
  ids := sound.ids
  known j z found := by
    rcases putCases found with ⟨_,rfl⟩ | ⟨_,old⟩
    · exact .inl rfl
    · exact sound.known j z old
  active j z found inside := by
    rcases putCases found with ⟨_,rfl⟩ | ⟨_,old⟩
    · rcases inside with h | h <;> cases h
    · exact sound.active j z old inside
  apart i j z w found found' same := by
    rcases putCases found with ⟨_,rfl⟩ | ⟨_,old⟩
    · exact .inr rfl
    · rcases putCases found' with ⟨_,rfl⟩ | ⟨_,old'⟩
      · exact .inr same
      · exact sound.apart i j z w old old' same

theorem Sound.leaves (sound : Sound s) (here : s.sessions k = some x) :
    Sound (s.put k {x with place := .left} s.manager) where
  safe := sound.safe
  counter := sound.counter
  ids := sound.ids
  known j z found := by
    rcases putCases found with ⟨_,rfl⟩ | ⟨_,old⟩
    · exact sound.known k x here
    · exact sound.known j z old
  active j z found inside := by
    rcases putCases found with ⟨_,rfl⟩ | ⟨_,old⟩
    · rcases inside with h | h <;> cases h
    · exact sound.active j z old inside
  apart i j z w found found' same := by
    rcases putCases found with ⟨rfl,rfl⟩ | ⟨_,old⟩ <;> rcases putCases found' with ⟨rfl,rfl⟩ | ⟨_,old'⟩
    · exact .inl rfl
    · exact sound.apart i j x w here old' same
    · exact sound.apart i j z x old here same
    · exact sound.apart i j z w old old' same

theorem Sound.step (sound : Sound s) (step : Step s s') : Sound s' := by
  cases sound.effect step with
  | joins => exact sound.joins
  | turns here _ moves => exact sound.turns here.1 moves
  | leaves here => exact sound.leaves here.1

theorem Fresh.sound (fresh : Fresh s) : Sound s where
  safe := fresh.manager.safe
  counter := fresh.counter
  ids t known := by
    rw [fresh.manager.1] at known
    cases known
  known k x found := by
    rw [fresh.nobody] at found
    cases found
  active k x found := by
    rw [fresh.nobody] at found
    cases found
  apart j k x y found := by
    rw [fresh.nobody] at found
    cases found

def HoldersConnected (s : Server) : Prop :=
  ∀ t id, s.manager.Has t id → ∃ k x, s.Connected k x ∧ x.txnId = t

theorem Sound.locksOwned (sound : Sound s) : s.LocksOwned ↔ s.HoldersConnected := by
  constructor
  · intro owned t id has
    obtain ⟨r,mem,rfl,granted⟩ := has
    exact (owned id r mem granted).2
  · intro connected id r mem granted
    have has : s.manager.Has r.txnId id := ⟨r,mem,rfl,granted⟩
    exact ⟨hasLive sound.safe has,connected _ id has⟩

theorem Fresh.connected (fresh : Fresh s) : s.HoldersConnected := by
  intro t id has
  obtain ⟨txn,found,_⟩ := hasLive fresh.manager.safe has
  rw [fresh.manager.1] at found
  cases found

theorem HoldersConnected.turns (connected : s.HoldersConnected) (sound : Sound s) (here : s.Connected k x)
    (stays : y.place ≠ .left) (moves : Moves s.manager x y m) : (s.put k y m).HoldersConnected := by
  intro t id has
  by_cases own : t = y.txnId
  · exact ⟨k,y,⟨putHere,stays⟩,own.symm⟩
  · have before := heldSame sound.safe moves.safe (moves.others t own) has
    obtain ⟨j,z,there,name⟩ := connected t id before
    by_cases same : j = k
    · subst same
      obtain rfl : z = x := Option.some.inj (there.1.symm.trans here.1)
      rcases moves.name with ⟨kept,_⟩ | ⟨_,free⟩
      · exact absurd (name.symm.trans kept.symm) own
      · exact absurd (name ▸ before) (free id)
    · exact ⟨j,z,⟨(putOther same).trans there.1,there.2⟩,name⟩

theorem putFree (stays : y.place ≠ .left) : LeavesFree s (s.put k y m) := by
  intro j z there gone
  by_cases same : j = k
  · subst same
    exact absurd ⟨putHere,stays⟩ (gone y)
  · exact absurd ⟨(putOther same).trans there.1,there.2⟩ (gone z)

theorem Sound.stepOwned (sound : Sound s) (connected : s.HoldersConnected) (step : Step s s') :
    s'.HoldersConnected ↔ s.LeavesFree s' := by
  cases sound.effect step with
  | @joins k free =>
    have keeps (j : Nat) (z : Session) (there : s.Connected j z) :
        (s.put k ⟨invalidTxnId,.reading⟩ s.manager).Connected j z := by
      refine ⟨(putOther fun same => ?_).trans there.1,there.2⟩
      have found := there.1
      rw [same,free] at found
      cases found
    refine ⟨fun _ j z there gone => absurd (keeps j z there) (gone z),fun _ t id has => ?_⟩
    obtain ⟨j,z,there,name⟩ := connected t id has
    exact ⟨j,z,keeps j z there,name⟩
  | @turns k x y m here stays moves =>
    exact ⟨fun _ => putFree stays,fun _ => connected.turns sound here stays moves⟩
  | @leaves k x here =>
    have left (z : Session) : ¬(s.put k {x with place := .left} s.manager).Connected k z := by
      rintro ⟨found,stays⟩
      rw [putHere] at found
      obtain rfl := Option.some.inj found
      exact stays rfl
    constructor
    · intro after j z there gone id has
      obtain ⟨i,w,⟨found,stays⟩,name⟩ := after z.txnId id has
      rcases putCases found with ⟨rfl,rfl⟩ | ⟨other,old⟩
      · exact stays rfl
      · rcases sound.apart i j w z old there.1 name with rfl | invalid
        · exact gone w ⟨found,stays⟩
        · have known := sound.ids _ (liveSome (hasLive sound.safe has))
          rw [← name,invalid] at known
          exact absurd known (by decide)
    · intro free t id has
      obtain ⟨j,z,there,name⟩ := connected t id has
      by_cases same : j = k
      · subst same
        exact absurd (name ▸ has) (free j z there left id)
      · exact ⟨j,z,⟨(putOther same).trans there.1,there.2⟩,name⟩

/- All states of a run have their locks owned just when no session leaves with a lock in any of its
steps. The run is the list of its states. -/
theorem noLockOrphaned (s : Server) (run : List Server) (fresh : s.Fresh) (steps : List.IsChain Step (s :: run)) :
    (∀ s' ∈ s :: run, s'.LocksOwned) ↔ List.IsChain LeavesFree (s :: run) := by
  have general (run : List Server) : ∀ s : Server, Sound s → s.HoldersConnected → List.IsChain Step (s :: run) →
      ((∀ s' ∈ s :: run, s'.LocksOwned) ↔ List.IsChain LeavesFree (s :: run)) := by
    induction run with
    | nil =>
      intro s sound connected _
      simpa using sound.locksOwned.mpr connected
    | cons next run ih =>
      intro s sound connected steps
      obtain ⟨step,rest⟩ := List.isChain_cons_cons.mp steps
      have sound' := sound.step step
      have oneStep := sound.stepOwned connected step
      rw [List.isChain_cons_cons,List.forall_mem_cons,and_iff_right (sound.locksOwned.mpr connected)]
      constructor
      · intro owned
        have connected' := sound'.locksOwned.mp (owned next List.mem_cons_self)
        exact ⟨oneStep.mp connected',(ih next sound' connected' rest).mp owned⟩
      · rintro ⟨free,later⟩
        have connected' := oneStep.mpr free
        exact (ih next sound' connected' rest).mpr later
  exact general run s fresh.sound fresh.connected steps

def listening : Server := ⟨started,fun _ => none⟩
def accepted : Server := listening.put 7 ⟨invalidTxnId,.reading⟩ started
def beginning : Server := accepted.put 7 ⟨0,.running⟩ (after (setTransaction invalidTxnId started))
def begun : Server :=
  beginning.put 7 ⟨0,.writing⟩ (after (modifyTxn 0 (fun object => {object with txnMode := true}) beginning.manager))
def waiting : Server := begun.put 7 ⟨0,.reading⟩ begun.manager
def updating : Server := waiting.put 7 ⟨0,.running⟩ waiting.manager
def locking : Server :=
  updating.put 7 ⟨0,.running⟩ (after (withLocks 0 (LockManager.lock (.onTable 3) .exclusive) updating.manager))
def updated : Server := locking.put 7 ⟨0,.writing⟩ locking.manager
def idle : Server := updated.put 7 ⟨0,.reading⟩ updated.manager
def gone : Server := idle.put 7 ⟨0,.left⟩ idle.manager

def disconnected : List Server := [accepted,beginning,begun,waiting,updating,locking,updated,idle,gone]

theorem listeningFresh : listening.Fresh := ⟨⟨fun _ => rfl,fun _ => rfl⟩,by decide,fun _ => rfl⟩

theorem idleSteps {rest : List Server} (steps : List.IsChain Step (idle :: rest)) : List.IsChain Step
    (listening :: accepted :: beginning :: begun :: waiting :: updating :: locking :: updated :: idle :: rest) := by
  refine .cons_cons (.accept rfl) (.cons_cons (.request (t := invalidTxnId) rfl rfl) (.cons_cons (.explicit rfl rfl) ?_))
  refine .cons_cons (@Step.replied _ _ 0 [] _ rfl ⟨_,rfl,.refl _⟩ rfl) (.cons_cons (.request (t := 0) rfl rfl) ?_)
  refine .cons_cons (.granted (b := true) rfl rfl) (.cons_cons (.done rfl) ?_)
  exact .cons_cons (@Step.replied _ _ 0 [.onTable 3] _ rfl ⟨_,rfl,.refl _⟩ rfl) steps

theorem disconnectedSteps : List.IsChain Step (listening :: disconnected) :=
  idleSteps (.cons_cons (.close rfl) (.singleton _))

theorem goneOrphaned : ¬gone.LocksOwned := by
  intro owned
  obtain ⟨_,k,x,⟨found,stays⟩,_⟩ := owned (.onTable 3) ⟨0,.exclusive,true⟩ List.mem_cons_self rfl
  by_cases same : k = 7
  · subst same
    obtain rfl : _ = x := Option.some.inj found
    exact stays rfl
  · have nobody : gone.sessions k = none := by
      simp only [gone,idle,updated,locking,updating,waiting,begun,beginning,accepted,put,
        Function.update_of_ne same,listening]
    rw [nobody] at found
    cases found

theorem lockOrphaned : ¬∀ (s : Server) (run : List Server), s.Fresh → List.IsChain Step (s :: run) →
    ∀ s' ∈ s :: run, s'.LocksOwned := fun owned =>
  goneOrphaned (owned listening disconnected listeningFresh disconnectedSteps gone (by simp [disconnected]))

def ending : Server := idle.put 7 ⟨0,.running⟩ idle.manager
def committed : Server := ending.put 7 ⟨0,.writing⟩ (after (TransactionManager.commit 0 [.onTable 3] ending.manager))
def answered : Server := committed.put 7 ⟨0,.reading⟩ committed.manager
def finished : Server := answered.put 7 ⟨0,.left⟩ answered.manager

def served : List Server :=
  [accepted,beginning,begun,waiting,updating,locking,updated,idle,ending,committed,answered,finished]

theorem servedSteps : List.IsChain Step (listening :: served) := by
  refine idleSteps (.cons_cons (.request (t := 0) rfl rfl) ?_)
  refine .cons_cons (@Step.commit _ _ 0 [.onTable 3] _ rfl ⟨_,rfl,.refl _⟩ rfl) ?_
  exact .cons_cons (@Step.replied _ _ 0 [] _ rfl ⟨_,rfl,.refl _⟩ rfl) (.cons_cons (.close rfl) (.singleton _))

theorem answeredFree : LeavesFree answered finished := by
  rintro k x ⟨here,stays⟩ gone id ⟨r,mem,own,_⟩
  have sound : Sound ending := servedSteps.cons_induction Sound served (fun _ _ step sound => sound.step step)
    listeningFresh.sound ending (by simp [served])
  obtain ⟨m,_,run,_,_,_,none⟩ := @commitRun ending.manager 0 [.onTable 3] sound.safe ⟨_,rfl,.refl _⟩
  have last : answered.manager = m := congrArg after run
  rw [last] at mem
  by_cases same : k = 7
  · subst same
    obtain rfl : _ = x := Option.some.inj here
    exact none id r mem own
  · exact absurd ⟨(putOther same).trans here,stays⟩ (gone x)

theorem servedFree : List.IsChain LeavesFree (listening :: served) := by
  refine .cons_cons (putFree (by decide)) (.cons_cons (putFree (by decide)) (.cons_cons (putFree (by decide)) ?_))
  refine .cons_cons (putFree (by decide)) (.cons_cons (putFree (by decide)) (.cons_cons (putFree (by decide)) ?_))
  refine .cons_cons (putFree (by decide)) (.cons_cons (putFree (by decide)) (.cons_cons (putFree (by decide)) ?_))
  exact .cons_cons (putFree (by decide)) (.cons_cons (putFree (by decide)) (.cons_cons answeredFree (.singleton _)))

theorem servedOwned : (∀ s' ∈ listening :: served, s'.LocksOwned) ∧ ¬List.IsChain LeavesFree (listening :: disconnected) := by
  refine ⟨(noLockOrphaned listening served listeningFresh servedSteps).mpr servedFree,fun free => goneOrphaned ?_⟩
  exact (noLockOrphaned listening disconnected listeningFresh disconnectedSteps).mpr free gone (by simp [disconnected])

end Runs
end Server
end Rmdb
