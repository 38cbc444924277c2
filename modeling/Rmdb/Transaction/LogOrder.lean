import Rmdb.Transaction.TxnLog
import Rmdb.Recovery.Replay

/-! Sessions interleaved step by step: statements, and the commit and abort protocols with every
log call and every lock release a step of its own. -/
namespace Rmdb
open Recovery LockManager

def DataOn (r : LogRecord) (t : Int) (tab : String) : Prop := r.logTid = t ∧ ∃ rid, r.data.place = some (tab,rid)

def EndOf (r : LogRecord) (t : Int) : Prop := r.logTid = t ∧ (r.data = .commit ∨ r.data = .abort)

def Ordered (log : List LogRecord) : Prop :=
  ∀ front r mid r' back t t' tab, log = front ++ r :: (mid ++ r' :: back) → DataOn r t tab → DataOn r' t' tab → t ≠ t' →
    ∃ e ∈ mid, EndOf e t

def Unended (log : List LogRecord) (t : Int) (tab : String) : Prop :=
  ∃ front r back, log = front ++ r :: back ∧ DataOn r t tab ∧ ∀ e ∈ back, ¬EndOf e t

section Log
variable {log : List LogRecord} {r : LogRecord} {t : Int} {tab : String}

theorem unendedAppend (holds : Unended (log ++ [r]) t tab) : DataOn r t tab ∨ (Unended log t tab ∧ ¬EndOf r t) := by
  obtain ⟨front,x,back,split,here,none⟩ := holds
  rcases List.eq_nil_or_concat back with rfl | ⟨before,last,rfl⟩
  · obtain ⟨_,same⟩ := List.append_inj' split rfl
    obtain rfl := (List.cons.inj same).1
    exact .inl here
  · rw [List.concat_eq_append,← List.cons_append,← List.append_assoc] at split
    obtain ⟨shorter,same⟩ := List.append_inj' split rfl
    obtain rfl := (List.cons.inj same).1
    rw [List.concat_eq_append] at none
    refine .inr ⟨⟨front,x,before,shorter,here,fun e mem => none e (List.mem_append_left _ mem)⟩,?_⟩
    exact none r (List.mem_append_right _ List.mem_cons_self)

theorem orderedPrefix {file : List LogRecord} (ordered : Ordered log) (part : file <+: log) : Ordered file := by
  obtain ⟨rest,rfl⟩ := part
  intro front a mid b back t t' tab split
  exact ordered front a mid b (back ++ rest) t t' tab (by rw [split]; simp)

theorem orderedAppend (ordered : Ordered log) (closed : ∀ t' tab, DataOn r t' tab → ∀ t, t ≠ t' → ¬Unended log t tab) :
    Ordered (log ++ [r]) := by
  intro front a mid b back t t' tab split one two apart
  rcases List.eq_nil_or_concat back with rfl | ⟨before,last,rfl⟩
  · have whole : log ++ [r] = (front ++ a :: mid) ++ [b] := by rw [split]; simp
    obtain ⟨shorter,same⟩ := List.append_inj' whole rfl
    obtain rfl := (List.cons.inj same).1
    by_contra missing
    refine closed t' tab two t apart ⟨front,a,mid,shorter,one,fun e mem ends => missing ⟨e,mem,ends⟩⟩
  · have whole : log ++ [r] = (front ++ a :: (mid ++ b :: before)) ++ [last] := by rw [split]; simp
    obtain ⟨shorter,_⟩ := List.append_inj' whole rfl
    exact ordered front a mid b before t t' tab shorter one two apart

end Log

/- Where the thread of a transaction is. `writing` is inside an executor that has the table's
exclusive lock; `unlocking` holds what is left of the copy of the lock set. -/
inductive Phase where
  | running
  | writing (tab : String)
  | commitLogged
  | unlocking (aborting : Bool) (rest : List LockDataId)
  | abortLogged
  | done
  deriving DecidableEq, Repr

structure Sessions where
  mgr : TransactionManager
  phase : Int → Phase

inductive Act where
  | begin
  | lock (t : Int) (id : LockDataId) (mode : LockMode)
  | open_ (t : Int) (tab : String)
  | data (t : Int) (tab : String) (data : LogData)
  | leave (t : Int)
  | flush
  | logCommit (t : Int)
  | flushCommit (t : Int)
  | undo (t : Int)
  | unlock (t : Int)
  | finishCommit (t : Int)
  | logAbort (t : Int)
  | finishAbort (t : Int)
  | work
  deriving Repr

namespace Sessions
open TransactionManager Record

def at_ (s : Sessions) (t : Int) (phase : Phase) (mgr : TransactionManager) : Sessions :=
  ⟨mgr,Function.update s.phase t phase⟩

inductive Step (fdOf : String → Int) : Sessions → Act → Sessions → Prop where
  | begin {s : Sessions} : Step fdOf s .begin (s.at_ s.mgr.nextTxnId .running (after (begin none s.mgr)))
  | lock {s : Sessions} {t : Int} {id : LockDataId} {mode : LockMode} (live : s.mgr.Live t) (here : s.phase t = .running) :
      Step fdOf s (.lock t id mode) {s with mgr := after (withLocks t (LockManager.lock id mode) s.mgr)}
  | open_ {s : Sessions} {t : Int} {tab : String} {mgr : TransactionManager} (live : s.mgr.Live t)
      (here : s.phase t = .running) (locked : withLocks t (lockExclusiveOnTable (fdOf tab)) s.mgr = .ok true mgr) :
      Step fdOf s (.open_ t tab) (s.at_ t (.writing tab) mgr)
  | data {s : Sessions} {t : Int} {tab : String} {rid : Rid} {data : LogData} (live : s.mgr.Live t)
      (here : s.phase t = .writing tab) (place : data.place = some (tab,rid)) :
      Step fdOf s (.data t tab data) {s with mgr := after (appendLog t ⟨invalidLsn,t,invalidLsn,data⟩ s.mgr)}
  -- the statement ends, by return or by exception
  | leave {s : Sessions} {t : Int} {tab : String} (here : s.phase t = .writing tab) :
      Step fdOf s (.leave t) (s.at_ t .running s.mgr)
  | flush {s : Sessions} : Step fdOf s .flush {s with mgr := after (flushLog s.mgr)}
  | logCommit {s : Sessions} {t : Int} (live : s.mgr.Live t) (here : s.phase t = .running) :
      Step fdOf s (.logCommit t) (s.at_ t .commitLogged (after (appendLog t (.commitLogRecord t) s.mgr)))
  | flushCommit {s : Sessions} {t : Int} {order : List LockDataId} (here : s.phase t = .commitLogged)
      (reads : s.mgr.Reads t order) :
      Step fdOf s (.flushCommit t) (s.at_ t (.unlocking false order) (after ((do
        flushLog
        modifyTxn t fun object => {object with writeSet := []} : M TransactionManager Unit) s.mgr)))
  | undo {s : Sessions} {t : Int} {txn : Transaction} {order : List LockDataId} {mgr : TransactionManager}
      (found : s.mgr.txnMap t = some txn) (live : ended txn.state = false) (here : s.phase t = .running)
      (undone : undoWrites t txn.writeSet.reverse s.mgr = .ok () mgr) (reads : mgr.Reads t order) :
      Step fdOf s (.undo t) (s.at_ t (.unlocking true order) mgr)
  | unlock {s : Sessions} {t : Int} {aborting : Bool} {id : LockDataId} {rest : List LockDataId}
      (here : s.phase t = .unlocking aborting (id :: rest)) :
      Step fdOf s (.unlock t) (s.at_ t (.unlocking aborting rest) (after (withLocks t (LockManager.unlock id) s.mgr)))
  | finishCommit {s : Sessions} {t : Int} (here : s.phase t = .unlocking false []) :
      Step fdOf s (.finishCommit t) (s.at_ t .done (after (modifyTxn t (fun object =>
        {object with lockSet := [], state := .committed}) s.mgr)))
  | logAbort {s : Sessions} {t : Int} (here : s.phase t = .unlocking true []) :
      Step fdOf s (.logAbort t) (s.at_ t .abortLogged (after ((do
        modifyTxn t fun object => {object with lockSet := []}
        appendLog t (.abortLogRecord t) : M TransactionManager Unit) s.mgr)))
  | finishAbort {s : Sessions} {t : Int} (here : s.phase t = .abortLogged) :
      Step fdOf s (.finishAbort t) (s.at_ t .done (after ((do
        flushLog
        modifyTxn t fun object => {object with state := .aborted} : M TransactionManager Unit) s.mgr)))
  -- everything the statements do with tables, indexes and write sets
  | work {s : Sessions} {mgr : TransactionManager} (same : SameLocks s.mgr mgr) (log : mgr.logManager = s.mgr.logManager) :
      Step fdOf s .work {s with mgr := mgr}

def HoldsX (mgr : TransactionManager) (t fd : Int) : Prop :=
  ∃ r ∈ mgr.lockManager.requests (.onTable fd), r.txnId = t ∧ r.lockMode = .exclusive

def AtWork (phase : Phase) : Prop := phase = .running ∨ ∃ tab, phase = .writing tab

structure Own (fdOf : String → Int) (s : Sessions) (t : Int) : Prop where
  known : s.phase t ≠ .done → ∃ txn, s.mgr.txnMap t = some txn
  live : ∀ txn, s.mgr.txnMap t = some txn → ended txn.state = true → s.phase t = .done
  writing : ∀ tab, s.phase t = .writing tab → HoldsX s.mgr t (fdOf tab)
  covered : ∀ b rest txn, s.phase t = .unlocking b rest → s.mgr.txnMap t = some txn → ∀ id ∈ txn.lockSet, id ∈ rest
  emptied : ∀ txn, s.phase t = .abortLogged → s.mgr.txnMap t = some txn → txn.lockSet = []
  unended : ∀ tab, Unended s.mgr.log t tab →
    (AtWork (s.phase t) ∧ HoldsX s.mgr t (fdOf tab)) ∨ ∃ rest, s.phase t = .unlocking true rest

structure Inv (fdOf : String → Int) (s : Sessions) : Prop where
  safe : Safe s.mgr
  ids : ∀ r ∈ s.mgr.log, r.logTid < s.mgr.nextTxnId
  ordered : Ordered s.mgr.log
  own : ∀ t, Own fdOf s t

/- No aborting transaction with a data record on the table has given its lock up and still to log
its ABORT record. -/
def Clear (fdOf : String → Int) (s : Sessions) : Act → Prop
  | .data t tab _ => ∀ t', t' ≠ t → (∃ rest, s.phase t' = .unlocking true rest) → Unended s.mgr.log t' tab →
      HoldsX s.mgr t' (fdOf tab)
  | _ => True

section Invariant
variable {fdOf : String → Int} {s s' : Sessions} {t t' : Int} {tab : String}

theorem holdsOne {mgr : TransactionManager} {fd : Int} (safe : Safe mgr) (one : HoldsX mgr t fd) (two : HoldsX mgr t' fd) :
    t = t' := by
  obtain ⟨r,mem,own,strong⟩ := one
  obtain ⟨r',mem',own',strong'⟩ := two
  by_contra apart
  have conflict := (safe.queues _).apart r mem r' mem' (by rwa [own,own'])
  rw [strong,strong'] at conflict
  cases conflict

theorem HoldsX.same {mgr mgr' : TransactionManager} {fd : Int} (holds : HoldsX mgr t fd) (same : SameLocks mgr mgr') :
    HoldsX mgr' t fd := by
  rw [HoldsX,same.table]
  exact holds

theorem lockHolds {mgr : TransactionManager} {txn : Transaction} {id : LockDataId} {mode : LockMode} {u fd : Int}
    (safe : Safe mgr) (found : mgr.txnMap t = some txn) (live : ended txn.state = false) (holds : HoldsX mgr u fd) :
    HoldsX (after (withLocks t (LockManager.lock id mode) mgr)) u fd := by
  obtain ⟨r,mem,own,strong⟩ := holds
  rcases @lockCases _ _ _ id mode safe found live with ⟨e,lm,run,same⟩ | ⟨lm,run,_,_,others,here⟩
  · rw [run]
    exact ⟨r,by rw [← same] at mem; exact mem,own,strong⟩
  · rw [run]
    refine ⟨r,?_,own,strong⟩
    by_cases target : LockDataId.onTable fd = id
    · exact target ▸ here.exclusive (safe.queues id) (target ▸ mem) strong
    · rw [← others _ target] at mem
      exact mem

theorem unlockHolds {mgr : TransactionManager} {id : LockDataId} {u fd : Int} (safe : Safe mgr) (apart : u ≠ t)
    (holds : HoldsX mgr u fd) : HoldsX (after (withLocks t (LockManager.unlock id) mgr)) u fd := by
  cases found : mgr.txnMap t with
  | none =>
    simp only [withLocks,found]
    exact holds
  | some txn =>
    obtain ⟨r,mem,own,strong⟩ := holds
    rcases @unlockCases _ _ _ id safe found with ⟨b,run,_⟩ | ⟨lm,run,_,_,_,others⟩
    · rw [run]
      exact ⟨r,mem,own,strong⟩
    · rw [run]
      exact ⟨r,(others _ r (by rwa [own])).mpr mem,own,strong⟩

theorem Own.other (own : Own fdOf s t) (phase : s'.phase t = s.phase t)
    (view : (s'.mgr.txnMap t).map locksOf = (s.mgr.txnMap t).map locksOf)
    (holds : ∀ fd, HoldsX s.mgr t fd → HoldsX s'.mgr t fd)
    (unended : ∀ tab, Unended s'.mgr.log t tab → Unended s.mgr.log t tab) : Own fdOf s' t := by
  have back {txn' : Transaction} (found : s'.mgr.txnMap t = some txn') :
      ∃ txn, s.mgr.txnMap t = some txn ∧ locksOf txn = locksOf txn' := by
    rw [found] at view
    exact Option.map_eq_some_iff.mp view.symm
  refine ⟨?_,?_,?_,?_,?_,?_⟩
  · intro active
    obtain ⟨txn,found⟩ := own.known (phase ▸ active)
    rw [found] at view
    obtain ⟨txn',found',_⟩ := Option.map_eq_some_iff.mp view
    exact ⟨txn',found'⟩
  · intro txn' found gone
    obtain ⟨txn,old,same⟩ := back found
    rw [phase]
    exact own.live txn old (viewState same ▸ gone)
  · intro tab here
    exact holds _ (own.writing tab (phase ▸ here))
  · intro b rest txn' here found
    obtain ⟨txn,old,same⟩ := back found
    rw [← viewLocks same]
    exact own.covered b rest txn (phase ▸ here) old
  · intro txn' here found
    obtain ⟨txn,old,same⟩ := back found
    rw [← viewLocks same]
    exact own.emptied txn (phase ▸ here) old
  · intro tab still
    rw [phase]
    exact (own.unended tab (unended tab still)).imp (fun both => ⟨both.1,holds _ both.2⟩) id

theorem unendedOther {log : List LogRecord} {r : LogRecord} (apart : r.logTid ≠ t) (holds : Unended (log ++ [r]) t tab) :
    Unended log t tab := by
  rcases unendedAppend holds with ⟨here,_⟩ | ⟨old,_⟩
  · exact absurd here apart
  · exact old

theorem ended_none {log : List LogRecord} {r : LogRecord} (ends : EndOf r t) : ¬Unended (log ++ [r]) t tab := by
  intro holds
  rcases unendedAppend holds with ⟨_,rid,place⟩ | ⟨_,not⟩
  · rcases ends.2 with data | data
    · rw [data] at place
      cases place
    · rw [data] at place
      cases place
  · exact not ends

theorem Inv.act {mgr : TransactionManager} {phase : Phase} (inv : Inv fdOf s) (safe : Safe mgr)
    (next : s.mgr.nextTxnId ≤ mgr.nextTxnId)
    (views : ∀ u ≠ t, (mgr.txnMap u).map locksOf = (s.mgr.txnMap u).map locksOf)
    (holds : ∀ u ≠ t, ∀ fd, HoldsX s.mgr u fd → HoldsX mgr u fd)
    (log : mgr.log = s.mgr.log ∨ t < mgr.nextTxnId ∧ ∃ r, mgr.log = s.mgr.log ++ [r] ∧ r.logTid = t ∧
      ∀ tab, DataOn r t tab → ∀ u ≠ t, ¬Unended s.mgr.log u tab)
    (own : Own fdOf (s.at_ t phase mgr) t) : Inv fdOf (s.at_ t phase mgr) := by
  have others (unended : ∀ u ≠ t, ∀ tab, Unended mgr.log u tab → Unended s.mgr.log u tab) (u : Int) :
      Own fdOf (s.at_ t phase mgr) u := by
    by_cases here : u = t
    · exact here ▸ own
    · exact (inv.own u).other (Function.update_of_ne here _ _) (views u here) (holds u here) (unended u here)
  rcases log with same | ⟨low,r,more,name,closed⟩
  · refine ⟨safe,fun r mem => ?_,?_,others fun u _ tab => ?_⟩
    · have old := inv.ids r (same ▸ mem)
      exact lt_of_lt_of_le old next
    · change Ordered mgr.log
      rw [same]
      exact inv.ordered
    · rw [same]
      exact fun still => still
  · refine ⟨safe,fun x mem => ?_,?_,others fun u apart tab => ?_⟩
    · change x ∈ mgr.log at mem
      rw [more] at mem
      rcases List.mem_append.mp mem with old | new
      · exact lt_of_lt_of_le (inv.ids x old) next
      · rw [List.mem_singleton.mp new,name]
        exact low
    · change Ordered mgr.log
      rw [more]
      refine orderedAppend inv.ordered fun t' tab here u apart => ?_
      obtain rfl : t = t' := name.symm.trans here.1
      exact closed tab here u apart
    · rw [more]
      exact unendedOther (by rw [name]; exact Ne.symm apart)

theorem Inv.stay {mgr : TransactionManager} (inv : Inv fdOf (s.at_ t (s.phase t) mgr)) : Inv fdOf {s with mgr := mgr} := by
  have same : s.at_ t (s.phase t) mgr = {s with mgr := mgr} := by rw [at_,Function.update_eq_self]
  exact same ▸ inv

theorem Inv.quiet {mgr : TransactionManager} {phase : Phase} (inv : Inv fdOf s) (same : SameLocks s.mgr mgr)
    (log : mgr.log = s.mgr.log) (own : Own fdOf (s.at_ t phase mgr) t) : Inv fdOf (s.at_ t phase mgr) :=
  inv.act (inv.safe.same same) same.next.ge (fun u _ => same.txns u) (fun _ _ _ holds => holds.same same) (.inl log) own

theorem Inv.idle {mgr : TransactionManager} (inv : Inv fdOf s) (same : SameLocks s.mgr mgr) (log : mgr.log = s.mgr.log) :
    Inv fdOf {s with mgr := mgr} := by
  refine ⟨inv.safe.same same,?_,?_,fun t => (inv.own t).other rfl (same.txns t) (fun _ holds => holds.same same) ?_⟩
  · intro r mem
    rw [same.next]
    exact inv.ids r (log ▸ mem)
  · change Ordered mgr.log
    rw [log]
    exact inv.ordered
  · intro tab
    change Unended mgr.log t tab → _
    rw [log]
    exact fun still => still

theorem Inv.logged {mgr : TransactionManager} {phase : Phase} {data : LogData} (inv : Inv fdOf s)
    (known : ∃ txn, s.mgr.txnMap t = some txn) (logged : Logged s.mgr mgr t data)
    (closed : ∀ tab, (∃ rid, data.place = some (tab,rid)) → ∀ u ≠ t, ¬Unended s.mgr.log u tab)
    (own : Own fdOf (s.at_ t phase mgr) t) : Inv fdOf (s.at_ t phase mgr) := by
  obtain ⟨txn,found⟩ := known
  obtain ⟨r,more,name,kind⟩ := logged.log
  have same := logged.same
  refine inv.act (inv.safe.same same) same.next.ge (fun u _ => same.txns u) (fun _ _ _ holds => holds.same same)
    (.inr ⟨?_,r,more,name,fun tab here => closed tab (kind ▸ here.2)⟩) own
  rw [same.next]
  exact (inv.safe.named t txn found).2

theorem Own.running {mgr : TransactionManager} {phase : Phase} (atWork : AtWork phase)
    (live : ∃ txn, mgr.txnMap t = some txn ∧ ended txn.state = false)
    (writing : ∀ tab, phase = .writing tab → HoldsX mgr t (fdOf tab))
    (unended : ∀ tab, Unended mgr.log t tab → HoldsX mgr t (fdOf tab)) : Own fdOf (s.at_ t phase mgr) t := by
  have here : (s.at_ t phase mgr).phase t = phase := Function.update_self ..
  obtain ⟨txn,found,alive⟩ := live
  refine ⟨fun _ => ⟨txn,found⟩,?_,?_,?_,?_,?_⟩
  · intro x other gone
    obtain rfl := Option.some.inj (found.symm.trans other)
    rw [alive] at gone
    cases gone
  · intro tab writes
    exact writing tab (here ▸ writes)
  · intro b rest _ busy
    rw [here] at busy
    subst busy
    rcases atWork with no | ⟨_,no⟩ <;> cases no
  · intro _ busy
    rw [here] at busy
    subst busy
    rcases atWork with no | ⟨_,no⟩ <;> cases no
  · intro tab still
    rw [here]
    exact .inl ⟨atWork,unended tab still⟩

theorem Own.leaving {mgr : TransactionManager} {phase : Phase} {txn : Transaction} (found : mgr.txnMap t = some txn)
    (busy : ¬AtWork phase) (live : ended txn.state = true → phase = .done)
    (covered : ∀ b rest, phase = .unlocking b rest → ∀ id ∈ txn.lockSet, id ∈ rest)
    (emptied : phase = .abortLogged → txn.lockSet = [])
    (unended : ∀ tab, Unended mgr.log t tab → ∃ rest, phase = .unlocking true rest) : Own fdOf (s.at_ t phase mgr) t := by
  have here : (s.at_ t phase mgr).phase t = phase := Function.update_self ..
  refine ⟨fun _ => ⟨txn,found⟩,?_,?_,?_,?_,?_⟩
  · intro x other gone
    obtain rfl := Option.some.inj (found.symm.trans other)
    rw [here]
    exact live gone
  · intro tab writes
    rw [here] at writes
    exact absurd (.inr ⟨tab,writes⟩) busy
  · intro b rest x now other
    obtain rfl := Option.some.inj (found.symm.trans other)
    exact covered b rest (here ▸ now)
  · intro x now other
    obtain rfl := Option.some.inj (found.symm.trans other)
    exact emptied (here ▸ now)
  · intro tab still
    rw [here]
    exact .inr (unended tab still)

theorem undoKeepsLog (records : List WriteRecord) {mgr mgr' : TransactionManager}
    (run : undoWrites t records mgr = .ok () mgr') : mgr'.log = mgr.log := by
  induction records generalizing mgr with
  | nil =>
    cases run
    rfl
  | cons record records ih =>
    rw [undoWrites,modifyTxn,modifyBind] at run
    obtain ⟨_,u,one,rest⟩ := bindOk.mp run
    rw [ih rest]
    rw [onSm,zoom] at one
    split at one
    · cases one
      rfl
    · cases one

theorem notAtWork {phase : Phase} (closed : phase ≠ .running ∧ ∀ tab, phase ≠ .writing tab) : ¬AtWork phase := by
  rintro (here | ⟨tab,here⟩)
  · exact closed.1 here
  · exact closed.2 tab here

theorem Own.closed (own : Own fdOf s t) (busy : ¬AtWork (s.phase t)) (apart : ∀ rest, s.phase t ≠ .unlocking true rest) :
    ¬Unended s.mgr.log t tab := by
  intro still
  rcases own.unended tab still with ⟨atWork,_⟩ | ⟨rest,here⟩
  · exact busy atWork
  · exact apart rest here

theorem beginStep (inv : Inv fdOf s) : Inv fdOf (s.at_ s.mgr.nextTxnId .running (after (begin none s.mgr))) := by
  obtain ⟨mgr,run,logged⟩ := beginLogged s.mgr
  rw [run]
  change Inv fdOf (s.at_ s.mgr.nextTxnId .running mgr)
  have same := logged.same
  obtain ⟨r,more,name,kind⟩ := logged.log
  change mgr.log = s.mgr.log ++ [r] at more
  have next : mgr.nextTxnId = s.mgr.nextTxnId+1 := same.next
  have none (tab : String) : ¬Unended mgr.log s.mgr.nextTxnId tab := by
    intro still
    rw [more] at still
    rcases unendedAppend still with ⟨_,rid,place⟩ | ⟨⟨front,x,back,split,here,_⟩,_⟩
    · rw [kind] at place
      cases place
    · have low := inv.ids x (by rw [split]; simp)
      have own := here.1
      omega
  have found : s.mgr.addTxn.txnMap s.mgr.nextTxnId = some _ := Function.update_self ..
  obtain ⟨txn,found',view⟩ := same.forth found
  refine inv.act (inv.safe.addTxn.same same) (by omega) (fun u apart => ?_) (fun u _ fd holds => ?_)
    (.inr ⟨by omega,r,more,name,fun tab here => ?_⟩) (Own.running (.inl rfl) ⟨txn,found',?_⟩ nofun ?_)
  · rw [same.txns u]
    simp only [addTxn,Function.update_of_ne apart]
  · rw [HoldsX,same.table]
    exact holds
  · obtain ⟨_,rid,place⟩ := here
    rw [kind] at place
    cases place
  · rw [viewState view]
    rfl
  · exact fun tab still => absurd still (none tab)

theorem lockStep {id : LockDataId} {mode : LockMode} (inv : Inv fdOf s) (live : s.mgr.Live t) (here : s.phase t = .running) :
    Inv fdOf {s with mgr := after (withLocks t (LockManager.lock id mode) s.mgr)} := by
  obtain ⟨txn,found,alive⟩ := live
  have holds := fun u fd => @lockHolds t s.mgr txn id mode u fd inv.safe found alive
  have safe : Safe (after (withLocks t (LockManager.lock id mode) s.mgr)) := inv.safe.step (.lock ⟨txn,found,alive⟩)
  have same : (after (withLocks t (LockManager.lock id mode) s.mgr)).nextTxnId = s.mgr.nextTxnId ∧
      (after (withLocks t (LockManager.lock id mode) s.mgr)).log = s.mgr.log ∧
      ∃ txn', (after (withLocks t (LockManager.lock id mode) s.mgr)).txnMap t = some txn' ∧ ended txn'.state = false := by
    rcases @lockCases _ _ _ id mode inv.safe found alive with ⟨e,lm,run,_⟩ | ⟨lm,run,_⟩ <;> rw [run] <;>
      exact ⟨rfl,rfl,_,Function.update_self ..,alive⟩
  obtain ⟨next,log,alive'⟩ := same
  refine Inv.stay (t := t) (inv.act safe next.ge (fun u apart => onlyWithLocks _ s.mgr u apart) (fun u _ fd => holds u fd)
    (.inl log) ?_)
  rw [here]
  refine Own.running (.inl rfl) alive' nofun fun tab still => ?_
  rw [log] at still
  rcases (inv.own t).unended tab still with ⟨_,held⟩ | ⟨rest,busy⟩
  · exact holds t _ held
  · rw [here] at busy
    cases busy

theorem openStep {mgr : TransactionManager} (inv : Inv fdOf s) (live : s.mgr.Live t) (here : s.phase t = .running)
    (locked : withLocks t (lockExclusiveOnTable (fdOf tab)) s.mgr = .ok true mgr) : Inv fdOf (s.at_ t (.writing tab) mgr) := by
  obtain ⟨txn,found,alive⟩ := live
  have holds := fun u fd => @lockHolds t s.mgr txn (.onTable (fdOf tab)) .exclusive u fd inv.safe found alive
  rcases @lockCases _ _ _ (.onTable (fdOf tab)) .exclusive inv.safe found alive with ⟨e,lm,run,_⟩ | ⟨lm,run,_,safe,_,grant⟩
  · rw [lockExclusiveOnTable,run] at locked
    cases locked
  · rw [run] at holds
    rw [lockExclusiveOnTable,run] at locked
    cases locked
    refine inv.act safe (le_refl _) (fun u apart => ?_) (fun u _ fd => holds u fd) (.inl rfl)
      (Own.running (.inr ⟨tab,rfl⟩) ⟨_,Function.update_self ..,alive⟩ (fun tab' same => ?_) fun tab' still => ?_)
    · simp only [putLocks,Function.update_of_ne apart]
    · cases same
      exact grant.gets
    · rcases (inv.own t).unended tab' still with ⟨_,held⟩ | ⟨rest,busy⟩
      · exact holds t _ held
      · rw [here] at busy
        cases busy

theorem dataStep {data : LogData} {rid : Rid} (inv : Inv fdOf s) (live : s.mgr.Live t) (here : s.phase t = .writing tab)
    (place : data.place = some (tab,rid)) (clear : Clear fdOf s (.data t tab data)) :
    Inv fdOf {s with mgr := after (appendLog t ⟨invalidLsn,t,invalidLsn,data⟩ s.mgr)} := by
  obtain ⟨txn,found,alive⟩ := live
  have held := (inv.own t).writing tab here
  obtain ⟨mgr,run,logged⟩ := @appendLogged s.mgr t txn ⟨invalidLsn,t,invalidLsn,data⟩ found rfl
  rw [run]
  obtain ⟨txn',found',view⟩ := logged.same.forth found
  refine Inv.stay (t := t) (inv.logged ⟨txn,found⟩ logged (fun tab' there u apart still => ?_) ?_)
  · obtain ⟨rid',place'⟩ := there
    obtain rfl : tab = tab' := (Prod.ext_iff.mp (Option.some.inj (place.symm.trans place'))).1
    rcases (inv.own u).unended tab still with ⟨_,other⟩ | aborting
    · exact apart (holdsOne inv.safe other held)
    · exact apart (holdsOne inv.safe (clear u apart aborting still) held)
  · rw [here]
    refine Own.running (.inr ⟨tab,rfl⟩) ⟨txn',found',viewState view ▸ alive⟩ (fun tab' same => ?_) fun tab' still => ?_
    · cases same
      exact held.same logged.same
    · obtain ⟨r,more,_,kind⟩ := logged.log
      change Unended mgr.log t tab' at still
      rw [more] at still
      rcases unendedAppend still with ⟨_,rid',place'⟩ | ⟨old,_⟩
      · rw [kind,place] at place'
        cases place'
        exact held.same logged.same
      · rcases (inv.own t).unended tab' old with ⟨_,other⟩ | ⟨rest,busy⟩
        · exact other.same logged.same
        · rw [here] at busy
          cases busy

theorem Own.alive {txn : Transaction} (own : Own fdOf s t) (busy : s.phase t ≠ .done) (found : s.mgr.txnMap t = some txn) :
    ended txn.state = false := by
  cases gone : ended txn.state with
  | false => rfl
  | true => exact absurd (own.live txn found gone) busy

theorem leaveStep (inv : Inv fdOf s) (here : s.phase t = .writing tab) : Inv fdOf (s.at_ t .running s.mgr) := by
  have busy : s.phase t ≠ .done := by rw [here]; exact nofun
  obtain ⟨txn,found⟩ := (inv.own t).known busy
  refine inv.quiet (SameLocks.refl _) rfl
    (Own.running (.inl rfl) ⟨txn,found,(inv.own t).alive busy found⟩ nofun ?_)
  intro tab' still
  rcases (inv.own t).unended tab' still with ⟨_,held⟩ | ⟨rest,aborting⟩
  · exact held
  · rw [here] at aborting
    cases aborting

theorem logCommitStep (inv : Inv fdOf s) (live : s.mgr.Live t) :
    Inv fdOf (s.at_ t .commitLogged (after (appendLog t (.commitLogRecord t) s.mgr))) := by
  obtain ⟨txn,found,alive⟩ := live
  obtain ⟨mgr,run,logged⟩ := @appendLogged s.mgr t txn (.commitLogRecord t) found rfl
  rw [run]
  obtain ⟨txn',found',view⟩ := logged.same.forth found
  obtain ⟨r,more,name,kind⟩ := logged.log
  refine inv.logged ⟨txn,found⟩ logged nofun (Own.leaving found' (notAtWork ?_) ?_ ?_ ?_ ?_)
  · exact ⟨nofun,nofun⟩
  · rw [viewState view,alive]
    exact nofun
  · exact nofun
  · exact nofun
  · intro tab still
    change Unended mgr.log t tab at still
    rw [more] at still
    exact absurd still (ended_none ⟨name,.inl kind⟩)

theorem startUnlocking {mgr : TransactionManager} {order : List LockDataId} {aborting : Bool} (inv : Inv fdOf s)
    (same : SameLocks s.mgr mgr) (log : mgr.log = s.mgr.log) (busy : s.phase t ≠ .done) (reads : mgr.Reads t order)
    (unended : ∀ tab, Unended s.mgr.log t tab → aborting = true) : Inv fdOf (s.at_ t (.unlocking aborting order) mgr) := by
  obtain ⟨txn',found',perm⟩ := reads
  obtain ⟨txn,found,view⟩ := same.back found'
  refine inv.quiet same log (Own.leaving found' (notAtWork ?_) ?_ ?_ ?_ ?_)
  · exact ⟨nofun,nofun⟩
  · rw [← viewState view,(inv.own t).alive busy found]
    exact nofun
  · intro b rest phase id mem
    cases phase
    exact perm.mem_iff.mpr mem
  · exact nofun
  · intro tab still
    rw [log] at still
    rw [unended tab still]
    exact ⟨order,rfl⟩

theorem flushCommitStep {order : List LockDataId} (inv : Inv fdOf s) (here : s.phase t = .commitLogged)
    (reads : s.mgr.Reads t order) : Inv fdOf (s.at_ t (.unlocking false order) (after ((do
      flushLog
      modifyTxn t fun object => {object with writeSet := []} : M TransactionManager Unit) s.mgr))) := by
  obtain ⟨mgr,run,log,_,same⟩ := flushed s.mgr
  have clear := @quietModifyTxn t (fun object => {object with writeSet := []}) (fun _ => rfl) mgr
  rw [bindEq run]
  have busy : s.phase t ≠ .done := by rw [here]; exact nofun
  refine startUnlocking inv (same.trans clear) log busy ?_ fun tab still => ?_
  · obtain ⟨txn,found,perm⟩ := reads
    obtain ⟨txn',found',view⟩ := (same.trans clear).forth found
    exact ⟨txn',found',viewLocks view ▸ perm⟩
  · refine absurd still ((inv.own t).closed (notAtWork ⟨?_,fun _ => ?_⟩) fun _ => ?_) <;>
      · rw [here]
        exact nofun

theorem undoStep {records : List WriteRecord} {order : List LockDataId} {mgr : TransactionManager} (inv : Inv fdOf s)
    (here : s.phase t = .running) (undone : undoWrites t records s.mgr = .ok () mgr) (reads : mgr.Reads t order) :
    Inv fdOf (s.at_ t (.unlocking true order) mgr) := by
  have same := @quietUndoWrites t records s.mgr
  rw [undone] at same
  exact startUnlocking inv same (undoKeepsLog records undone) (by rw [here]; exact nofun) reads
    fun _ _ => rfl

theorem unlockStep {aborting : Bool} {id : LockDataId} {rest : List LockDataId} (inv : Inv fdOf s)
    (here : s.phase t = .unlocking aborting (id :: rest)) :
    Inv fdOf (s.at_ t (.unlocking aborting rest) (after (withLocks t (LockManager.unlock id) s.mgr))) := by
  have busy : s.phase t ≠ .done := by rw [here]; exact nofun
  obtain ⟨txn,found⟩ := (inv.own t).known busy
  have alive := (inv.own t).alive busy found
  have covered := (inv.own t).covered aborting _ txn here found
  have unended (tab : String) (still : Unended s.mgr.log t tab) : ∃ rest', Phase.unlocking aborting rest = .unlocking true rest' := by
    rcases (inv.own t).unended tab still with ⟨atWork,_⟩ | ⟨rest',same⟩
    · rw [here] at atWork
      rcases atWork with no | ⟨_,no⟩ <;> cases no
    · rw [here] at same
      cases same
      exact ⟨rest,rfl⟩
  have holds := fun u (apart : u ≠ t) fd => @unlockHolds t s.mgr id u fd inv.safe apart
  rcases @unlockCases _ _ _ id inv.safe found with ⟨b,run,absent⟩ | ⟨lm,run,_,_,safe,_⟩
  · rw [run]
    refine inv.quiet (SameLocks.refl _) rfl (Own.leaving found (notAtWork ?_) ?_ ?_ ?_ unended)
    · exact ⟨nofun,nofun⟩
    · rw [alive]
      exact nofun
    · intro b rest' phase x mem
      cases phase
      rcases List.mem_cons.mp (covered x mem) with rfl | later
      · exact absurd mem absent
      · exact later
    · exact nofun
  · rw [run] at holds ⊢
    refine inv.act safe (le_refl _) (fun u apart => ?_) holds (.inl rfl)
      (Own.leaving (Function.update_self ..) (notAtWork ?_) ?_ ?_ ?_ unended)
    · simp only [after,putLocks,Function.update_of_ne apart]
    · exact ⟨nofun,nofun⟩
    · cases state : txn.state <;> simp_all [TransactionManager.ended]
    · intro b rest' phase x mem
      cases phase
      obtain ⟨apart,old⟩ := (inv.safe.listed _ _ found).mem_erase_iff.mp mem
      exact (List.mem_cons.mp (covered x old)).resolve_left apart
    · exact nofun

theorem modifyStep {txn : Transaction} {f : Transaction → Transaction} {phase : Phase} (inv : Inv fdOf s)
    (found : s.mgr.txnMap t = some txn) (empty : txn.lockSet = []) (name : (f txn).txnId = txn.txnId)
    (begun : (f txn).state ≠ .default) (locks : (f txn).lockSet = [])
    (own : Own fdOf (s.at_ t phase (after (modifyTxn t f s.mgr))) t) :
    Inv fdOf (s.at_ t phase (after (modifyTxn t f s.mgr))) := by
  obtain ⟨mgr,run,safe,_,_⟩ := inv.safe.clear found empty f name begun locks
  refine inv.act ?_ (le_refl _) (onlyModifyTxn f s.mgr) (fun _ _ _ holds => holds) (.inl rfl) own
  rw [run]
  exact safe

theorem modifyFound {mgr : TransactionManager} {txn : Transaction} (f : Transaction → Transaction)
    (found : mgr.txnMap t = some txn) : (after (modifyTxn t f mgr)).txnMap t = some (f txn) := by
  change Function.update mgr.txnMap t ((mgr.txnMap t).map f) t = _
  rw [Function.update_self,found,Option.map_some]

theorem Own.released {aborting : Bool} {txn : Transaction} (own : Own fdOf s t) (here : s.phase t = .unlocking aborting [])
    (found : s.mgr.txnMap t = some txn) : txn.lockSet = [] :=
  List.eq_nil_iff_forall_not_mem.mpr fun id mem => nomatch own.covered aborting [] txn here found id mem

theorem finishCommitStep (inv : Inv fdOf s) (here : s.phase t = .unlocking false []) :
    Inv fdOf (s.at_ t .done (after (modifyTxn t (fun object =>
      {object with lockSet := [], state := .committed}) s.mgr))) := by
  obtain ⟨txn,found⟩ := (inv.own t).known (by rw [here]; nofun)
  have none (tab : String) : ¬Unended s.mgr.log t tab := by
    refine (inv.own t).closed (notAtWork ⟨?_,fun _ => ?_⟩) fun _ => ?_ <;>
      · rw [here]
        nofun
  refine modifyStep inv found ((inv.own t).released here found) rfl nofun rfl
    (Own.leaving (modifyFound _ found) (notAtWork ⟨nofun,nofun⟩) (fun _ => rfl) nofun nofun ?_)
  exact fun tab still => absurd still (none tab)

theorem logAbortStep (inv : Inv fdOf s) (here : s.phase t = .unlocking true []) :
    Inv fdOf (s.at_ t .abortLogged (after ((do
      modifyTxn t fun object => {object with lockSet := []}
      appendLog t (.abortLogRecord t) : M TransactionManager Unit) s.mgr))) := by
  have busy : s.phase t ≠ .done := by simp [here]
  obtain ⟨txn,found⟩ := (inv.own t).known busy
  have alive := (inv.own t).alive busy found
  let f : Transaction → Transaction := fun object => {object with lockSet := []}
  let mid := s.at_ t (.unlocking true []) (after (modifyTxn t f s.mgr))
  have cleared : mid.mgr.txnMap t = some (f txn) := modifyFound f found
  have between : Inv fdOf mid := by
    refine modifyStep inv found ((inv.own t).released here found) rfl (inv.safe.begun t txn found) rfl
      (Own.leaving cleared (notAtWork (by simp)) ?_ (by simp [f]) (by simp) fun _ _ => ⟨[],rfl⟩)
    rw [alive]
    simp
  obtain ⟨mgr,run,logged⟩ := @appendLogged mid.mgr t (f txn) (.abortLogRecord t) cleared rfl
  obtain ⟨txn',found',view⟩ := logged.same.forth cleared
  obtain ⟨r,more,name,kind⟩ := logged.log
  have whole : (do modifyTxn t f; appendLog t (.abortLogRecord t) : M TransactionManager Unit) s.mgr = .ok () mgr := by
    rw [modifyTxn,modifyBind]
    exact run
  have twice : s.at_ t .abortLogged mgr = mid.at_ t .abortLogged mgr := by
    simp only [at_,mid,Function.update_idem]
  rw [whole]
  change Inv fdOf (s.at_ t .abortLogged mgr)
  rw [twice]
  refine between.logged ⟨_,cleared⟩ logged (by simp [LogRecord.abortLogRecord,LogData.place])
    (Own.leaving found' (notAtWork (by simp)) ?_ (by simp) ?_ ?_)
  · rw [viewState view,alive]
    simp
  · exact fun _ => viewLocks view
  · intro tab still
    rw [more] at still
    exact absurd still (ended_none ⟨name,.inr kind⟩)

theorem finishAbortStep (inv : Inv fdOf s) (here : s.phase t = .abortLogged) :
    Inv fdOf (s.at_ t .done (after ((do
      flushLog
      modifyTxn t fun object => {object with state := .aborted} : M TransactionManager Unit) s.mgr))) := by
  obtain ⟨mgr,run,log,_,same⟩ := flushed s.mgr
  have between : Inv fdOf {s with mgr := mgr} := inv.idle same log
  obtain ⟨txn,found⟩ := (between.own t).known (by rw [here]; nofun)
  have empty := (between.own t).emptied txn here found
  have none (tab : String) : ¬Unended mgr.log t tab := by
    refine (between.own t).closed (notAtWork ⟨?_,fun _ => ?_⟩) fun _ => ?_ <;>
      · rw [here]
        nofun
  rw [bindEq run]
  refine modifyStep between found empty rfl nofun empty
    (Own.leaving (modifyFound _ found) (notAtWork ⟨nofun,nofun⟩) (fun _ => rfl) nofun nofun ?_)
  exact fun tab still => absurd still (none tab)

theorem Inv.step {act : Act} (inv : Inv fdOf s) (step : Step fdOf s act s') (clear : Clear fdOf s act) : Inv fdOf s' := by
  cases step with
  | begin => exact beginStep inv
  | lock live here => exact lockStep inv live here
  | open_ live here locked => exact openStep inv live here locked
  | data live here place => exact dataStep inv live here place clear
  | leave here => exact leaveStep inv here
  | flush =>
    obtain ⟨mgr,run,log,_,same⟩ := flushed s.mgr
    rw [run]
    exact inv.idle same log
  | logCommit live here => exact logCommitStep inv live
  | flushCommit here reads => exact flushCommitStep inv here reads
  | undo found live here undone reads => exact undoStep inv here undone reads
  | unlock here => exact unlockStep inv here
  | finishCommit here => exact finishCommitStep inv here
  | logAbort here => exact logAbortStep inv here
  | finishAbort here => exact finishAbortStep inv here
  | work same log => exact inv.idle same (congrArg LogManager.all log)

end Invariant

structure Started (s : Sessions) : Prop where
  fresh : Fresh s.mgr
  log : s.mgr.log = []
  phase : ∀ t, s.phase t = .done

theorem Started.inv {fdOf : String → Int} {s : Sessions} (start : Started s) : Inv fdOf s := by
  have none (t : Int) (tab : String) : ¬Unended s.mgr.log t tab := by
    rintro ⟨front,r,back,split,_⟩
    rw [start.log] at split
    exact List.append_ne_nil_of_right_ne_nil _ (List.cons_ne_nil _ _) split.symm
  refine ⟨start.fresh.safe,?_,?_,fun t => ⟨?_,?_,?_,?_,?_,?_⟩⟩
  · intro r mem
    rw [start.log] at mem
    cases mem
  · intro front r mid r' back t t' tab split
    rw [start.log] at split
    exact absurd split.symm (List.append_ne_nil_of_right_ne_nil _ (List.cons_ne_nil _ _))
  · exact fun busy => absurd (start.phase t) busy
  · exact fun _ _ _ => start.phase t
  · intro tab here
    rw [start.phase t] at here
    cases here
  · intro b rest txn here
    rw [start.phase t] at here
    cases here
  · intro txn here
    rw [start.phase t] at here
    cases here
  · exact fun tab still => absurd still (none t tab)

abbrev Moves (fdOf : String → Int) (s s' : Sessions) : Prop := ∃ act, Step fdOf s act s'

abbrev ClearMoves (fdOf : String → Int) (s s' : Sessions) : Prop := ∃ act, Step fdOf s act s' ∧ Clear fdOf s act

theorem logRespectsConflicts (fdOf : String → Int) (s₀ s : Sessions) (start : Started s₀)
    (run : Relation.ReflTransGen (ClearMoves fdOf) s₀ s) : Ordered s.mgr.logManager.logFile := by
  have inv : Inv fdOf s := by
    induction run with
    | refl => exact start.inv
    | tail _ move ih =>
      obtain ⟨act,step,clear⟩ := move
      exact ih.step step clear
  exact orderedPrefix inv.ordered (filePrefix s.mgr)

section Runs
variable {fdOf : String → Int} {s : Sessions} {t : Int}

theorem unlockMoves {aborting : Bool} {order : List LockDataId} {mgr : TransactionManager}
    (here : s.phase t = .unlocking aborting order)
    (run : (order.forM fun id => do
      let _ ← withLocks t (LockManager.unlock id)
      pure () : M TransactionManager Unit) s.mgr = .ok () mgr) :
    Relation.ReflTransGen (Moves fdOf) s (s.at_ t (.unlocking aborting []) mgr) := by
  induction order generalizing s with
  | nil =>
    cases run
    have same : s.at_ t (.unlocking aborting []) s.mgr = s := by rw [at_,← here,Function.update_eq_self]
    rw [same]
  | cons id order ih =>
    rw [List.forM,bind_assoc] at run
    obtain ⟨b,u,one,rest⟩ := bindOk.mp run
    have next := @Step.unlock fdOf _ _ _ _ _ here
    rw [one] at next
    have later := @ih (s.at_ t (.unlocking aborting order) u) (Function.update_self ..) rest
    simp only [at_,Function.update_idem] at later
    exact .head ⟨_,next⟩ later

theorem commitMoves {order : List LockDataId} {mgr : TransactionManager} (live : s.mgr.Live t)
    (here : s.phase t = .running) (reads : s.mgr.Reads t order) (run : commit t order s.mgr = .ok () mgr) :
    Relation.ReflTransGen (Moves fdOf) s (s.at_ t .done mgr) := by
  obtain ⟨txn,found,alive⟩ := live
  rw [commit,bindEq (getTxnRun found),alive] at run
  obtain ⟨_,u,logged,run⟩ := bindOk.mp run
  obtain ⟨_,v,flush,run⟩ := bindOk.mp run
  obtain ⟨_,w,clear,run⟩ := bindOk.mp run
  obtain ⟨_,x,release,last⟩ := bindOk.mp run
  rw [releaseLocks] at release
  obtain ⟨_,y,unlocks,empty⟩ := bindOk.mp release
  have one := @Step.logCommit fdOf _ _ ⟨txn,found,alive⟩ here
  rw [logged] at one
  have reads' : u.Reads t order := by
    obtain ⟨txn',found',perm⟩ := reads
    have same := @quietAppendLog t (.commitLogRecord t) s.mgr
    rw [logged] at same
    obtain ⟨txn'',found'',view⟩ := same.forth found'
    exact ⟨txn'',found'',viewLocks view ▸ perm⟩
  have two := @Step.flushCommit fdOf (s.at_ t .commitLogged u) t order (Function.update_self ..) reads'
  simp only [at_,Function.update_idem] at two
  rw [bindEq flush,clear] at two
  have three := @unlockMoves fdOf ⟨w,Function.update s.phase t (.unlocking false order)⟩ t false order y
    (Function.update_self ..) unlocks
  have four := @Step.finishCommit fdOf (s.at_ t (.unlocking false []) y) t (Function.update_self ..)
  have same : after (modifyTxn t (fun object => {object with lockSet := [], state := .committed}) y) = mgr := by
    cases empty
    cases last
    simp only [modifyTxn,modifyRun,after,Function.update_self,Option.map_map,Function.update_idem]
    rfl
  simp only [at_,Function.update_idem,same] at three four
  exact .head ⟨_,one⟩ (.head ⟨_,two⟩ (three.tail ⟨_,four⟩))

theorem abortMoves {txn : Transaction} {order : List LockDataId} {mgr : TransactionManager}
    (found : s.mgr.txnMap t = some txn) (alive : ended txn.state = false) (here : s.phase t = .running)
    (reads : s.mgr.Reads t order) (run : abort t order s.mgr = .ok () mgr) :
    Relation.ReflTransGen (Moves fdOf) s (s.at_ t .done mgr) := by
  rw [abort,bindEq (getTxnRun found),alive] at run
  obtain ⟨_,u,undone,run⟩ := bindOk.mp run
  obtain ⟨_,v,release,run⟩ := bindOk.mp run
  obtain ⟨_,w,logged,run⟩ := bindOk.mp run
  rw [releaseLocks] at release
  obtain ⟨_,y,unlocks,empty⟩ := bindOk.mp release
  have reads' : u.Reads t order := by
    obtain ⟨txn',found',perm⟩ := reads
    have same := @quietUndoWrites t txn.writeSet.reverse s.mgr
    rw [undone] at same
    obtain ⟨txn'',found'',view⟩ := same.forth found'
    exact ⟨txn'',found'',viewLocks view ▸ perm⟩
  have one := @Step.undo fdOf _ _ _ _ _ found alive here undone reads'
  have two := @unlockMoves fdOf (s.at_ t (.unlocking true order) u) t true order y (Function.update_self ..) unlocks
  have three := @Step.logAbort fdOf (s.at_ t (.unlocking true []) y) t (Function.update_self ..)
  have both : (do modifyTxn t fun object => {object with lockSet := []}
                  appendLog t (.abortLogRecord t) : M TransactionManager Unit) y = .ok () w :=
    bindOk.mpr ⟨_,_,empty,logged⟩
  have four := @Step.finishAbort fdOf (s.at_ t .abortLogged w) t (Function.update_self ..)
  simp only [at_,Function.update_idem] at two three four
  rw [both] at three
  rw [run] at four
  exact .head ⟨_,one⟩ ((two.tail ⟨_,three⟩).tail ⟨_,four⟩)

end Runs
def accounts : SmManager where
  db := ⟨"db",[("t",⟨"t",[⟨"t","c",.string,512,0⟩],[]⟩)]⟩
  fhs tab := if tab = "t" then some (RmManager.openFile "t" ⟨⟨512,1,RmManager.numRecordsPerPage 512,rmNoPage⟩,fun _ => none⟩)
    else none
  ihs _ := none

def fdOf (_ : String) : Int := 3

def account : Bytes := List.replicate 512 7

def idle : Sessions := ⟨⟨0,0,fun _ => none,⟨fun _ => none⟩,⟨0,[],invalidLsn,[]⟩,accounts⟩,fun _ => .done⟩

def enters (s : Sessions) (t : Int) : Sessions :=
  s.at_ t (.writing "t") (after (withLocks t (lockExclusiveOnTable 3) s.mgr))

def stores (s : Sessions) : Sessions :=
  {s with mgr := after (onSm (SmManager.onFile "t" (RmFileHandle.insertRecord account)) s.mgr)}

def logs (s : Sessions) (t slot : Int) : Sessions :=
  {s with mgr := after (appendLog t (.insertLogRecord t account ⟨1,slot⟩ "t") s.mgr)}

def flushes (s : Sessions) : Sessions := {s with mgr := after (flushLog s.mgr)}

def remembers (s : Sessions) (t slot : Int) : Sessions :=
  {s with mgr := after (modifyTxn t (fun object =>
    {object with writeSet := object.writeSet ++ [⟨.insertTuple,"t",⟨1,slot⟩,[]⟩]}) s.mgr)}

def leaves (s : Sessions) (t : Int) : Sessions := s.at_ t .running s.mgr

def inserts (s : Sessions) (t slot : Int) : Sessions :=
  leaves (remembers (flushes (logs (stores (enters s t)) t slot)) t slot) t

def begins (s : Sessions) : Sessions := s.at_ s.mgr.nextTxnId .running (after (begin none s.mgr))

theorem insertMoves {R : Sessions → Sessions → Prop} {s : Sessions} {t slot : Int} (live : s.mgr.Live t)
    (here : s.phase t = .running)
    (locked : withLocks t (lockExclusiveOnTable 3) s.mgr = .ok true (enters s t).mgr)
    (alive : (stores (enters s t)).mgr.Live t)
    (quiet : ∀ {u u' act}, Step fdOf u act u' → (∀ t tab d, act ≠ .data t tab d) → R u u')
    (data : ∀ {d}, Step fdOf (stores (enters s t)) (.data t "t" d) (logs (stores (enters s t)) t slot) →
      R (stores (enters s t)) (logs (stores (enters s t)) t slot)) : Relation.ReflTransGen R s (inserts s t slot) := by
  have writing (u : Sessions) (same : u.phase = (enters s t).phase) : u.phase t = .writing "t" := by
    rw [same]
    exact Function.update_self ..
  have one : R s (enters s t) := quiet (@Step.open_ fdOf _ _ "t" _ live here locked) (by simp)
  have two : R (enters s t) (stores (enters s t)) := by
    refine quiet (.work (quietOnSm _ _) ?_) (by simp)
    rw [onSm,zoom]
    split <;> rfl
  have three := data (@Step.data fdOf _ _ _ ⟨1,slot⟩ _ alive (writing _ rfl) rfl)
  have four : R (logs (stores (enters s t)) t slot) (flushes (logs (stores (enters s t)) t slot)) := quiet .flush (by simp)
  have five : R (flushes (logs (stores (enters s t)) t slot)) (remembers (flushes (logs (stores (enters s t)) t slot)) t slot) :=
    by
    refine quiet (.work (quietModifyTxn ?_ _) rfl) (by simp)
    exact fun _ => rfl
  have six : R (remembers (flushes (logs (stores (enters s t)) t slot)) t slot) (inserts s t slot) :=
    quiet (.leave (writing _ rfl)) (by simp)
  exact (((((Relation.ReflTransGen.single one).tail two).tail three).tail four).tail five).tail six

def undone : TransactionManager :=
  after (undoWrites 0 [⟨.insertTuple,"t",⟨1,0⟩,[]⟩] (inserts (begins idle) 0 0).mgr)

def undoes : Sessions := (inserts (begins idle) 0 0).at_ 0 (.unlocking true [.onTable 3]) undone

def overtaken : Sessions :=
  inserts (begins (undoes.at_ 0 (.unlocking true []) (after (withLocks 0 (LockManager.unlock (.onTable 3)) undoes.mgr)))) 1 0

theorem started : Started idle := ⟨⟨fun _ => rfl,fun _ => rfl⟩,rfl,fun _ => rfl⟩

theorem enteredOk {s : Sessions} {t : Int}
    (ok : (match withLocks t (lockExclusiveOnTable 3) s.mgr with | .ok b _ => b | .error _ _ => false) = true) :
    withLocks t (lockExclusiveOnTable 3) s.mgr = .ok true (enters s t).mgr := by
  rw [enters,at_]
  cases run : withLocks t (lockExclusiveOnTable 3) s.mgr with
  | ok b _ =>
    rw [run] at ok
    rw [show b = true from ok]
    rfl
  | error _ _ =>
    rw [run] at ok
    cases ok

theorem freeOfData {u u' : Sessions} {act : Act} (step : Step fdOf u act u') (other : ∀ t tab d, act ≠ .data t tab d) :
    ClearMoves fdOf u u' := by
  refine ⟨act,step,?_⟩
  cases act <;> first | trivial | exact absurd rfl (other _ _ _)

def Calm (s : Sessions) : Prop := ∀ t rest, s.phase t ≠ .unlocking true rest

theorem Calm.at_ {s : Sessions} {t : Int} {phase : Phase} {mgr : TransactionManager} (calm : Calm s)
    (other : ∀ rest, phase ≠ .unlocking true rest) : Calm (s.at_ t phase mgr) := by
  intro u rest here
  rw [Sessions.at_] at here
  simp only [Function.update_apply] at here
  split at here
  · exact other rest here
  · exact calm u rest here

theorem Calm.enters {s : Sessions} (calm : Calm s) (t : Int) : Calm (stores (enters s t)) := Calm.at_ calm nofun

theorem Calm.inserts {s : Sessions} (calm : Calm s) (t slot : Int) : Calm (inserts s t slot) :=
  Calm.at_ (calm.enters t) nofun

theorem freeOfUndo {u u' : Sessions} {t : Int} {tab : String} {d : LogData} (step : Step fdOf u (.data t tab d) u')
    (calm : Calm u) : ClearMoves fdOf u u' := ⟨_,step,fun t' _ ⟨rest,here⟩ => absurd here (calm t' rest)⟩

theorem calmBegins {s : Sessions} (calm : Calm s) : Calm (begins s) := calm.at_ nofun

theorem calmIdle : Calm idle := nofun

theorem firstInsert : Relation.ReflTransGen (ClearMoves fdOf) idle (inserts (begins idle) 0 0) :=
  .head ⟨_,.begin,trivial⟩ (insertMoves (liveOf (by decide +kernel)) rfl (enteredOk (by decide +kernel))
    (liveOf (by decide +kernel)) freeOfData fun step => freeOfUndo step ((calmBegins calmIdle).enters 0))

theorem abortLogsLate : Started idle ∧ Relation.ReflTransGen (Moves fdOf) idle overtaken ∧
    ¬Ordered overtaken.mgr.logManager.logFile := by
  refine ⟨started,?_,fun ordered => ?_⟩
  · have first : Relation.ReflTransGen (Moves fdOf) idle (inserts (begins idle) 0 0) :=
      firstInsert.lift id fun _ _ move => ⟨_,move.choose_spec.1⟩
    obtain ⟨txn,found,look⟩ : ∃ txn, (inserts (begins idle) 0 0).mgr.txnMap 0 = some txn ∧
        (txn.writeSet,txn.state) = ([⟨.insertTuple,"t",⟨1,0⟩,[]⟩],.growing) :=
      Option.map_eq_some_iff.mp (by decide +kernel)
    obtain ⟨writes,state⟩ := Prod.mk.inj look
    obtain ⟨txn',found',locks⟩ : ∃ txn, undone.txnMap 0 = some txn ∧ txn.lockSet = [.onTable 3] :=
      Option.map_eq_some_iff.mp (by decide +kernel)
    have undo : Moves fdOf (inserts (begins idle) 0 0) undoes := by
      have run : undoWrites 0 txn.writeSet.reverse (inserts (begins idle) 0 0).mgr = .ok () undone := by
        rw [writes,List.reverse_singleton,undone]
        exact isOkUnit (by decide +kernel)
      have reads : undone.Reads 0 [.onTable 3] := ⟨txn',found',locks ▸ .refl _⟩
      exact ⟨.undo 0,Step.undo found (by rw [state]; rfl) (by decide +kernel) run reads⟩
    have unlock : Moves fdOf undoes _ := ⟨_,@Step.unlock fdOf undoes 0 true (.onTable 3) [] (by decide +kernel)⟩
    refine (((first.tail undo).tail unlock).tail ⟨_,.begin⟩).trans (insertMoves (liveOf (by decide +kernel)) (by decide +kernel)
      (enteredOk (by decide +kernel)) (liveOf (by decide +kernel)) (fun step _ => ⟨_,step⟩) fun step => ⟨_,step⟩)
  · have log : (overtaken.mgr.logManager.logFile.map fun r => (r.logTid,r.data)) =
        [(0,.begin),(0,.insert account ⟨1,0⟩ "t"),(1,.begin),(1,.insert account ⟨1,0⟩ "t")] := by decide +kernel
    obtain ⟨a,rest,file,_,log⟩ := List.map_eq_cons_iff.mp log
    obtain ⟨b,rest,rfl,first,log⟩ := List.map_eq_cons_iff.mp log
    obtain ⟨c,rest,rfl,begun,log⟩ := List.map_eq_cons_iff.mp log
    obtain ⟨d,rest,rfl,second,log⟩ := List.map_eq_cons_iff.mp log
    obtain ⟨tb,db⟩ := Prod.mk.inj first
    obtain ⟨td,dd⟩ := Prod.mk.inj second
    obtain ⟨e,mem,ends⟩ := ordered [a] b [c] d rest 0 1 "t" file ⟨tb,⟨1,0⟩,by rw [db]; rfl⟩ ⟨td,⟨1,0⟩,by rw [dd]; rfl⟩
      (by decide)
    rw [List.mem_singleton.mp mem,EndOf,(Prod.mk.inj begun).1] at ends
    exact absurd ends.1 (by decide)

def commitLogs : Sessions :=
  let s := inserts (begins idle) 0 0
  s.at_ 0 .commitLogged (after (appendLog 0 (.commitLogRecord 0) s.mgr))

def commitFlushes : Sessions :=
  commitLogs.at_ 0 (.unlocking false [.onTable 3]) (after ((do
    flushLog
    modifyTxn 0 fun object => {object with writeSet := []} : M TransactionManager Unit) commitLogs.mgr))

def commitUnlocks : Sessions :=
  commitFlushes.at_ 0 (.unlocking false []) (after (withLocks 0 (LockManager.unlock (.onTable 3)) commitFlushes.mgr))

def commits : Sessions :=
  commitUnlocks.at_ 0 .done
    (after (modifyTxn 0 (fun object => {object with lockSet := [], state := .committed}) commitUnlocks.mgr))

theorem commitsInTurn : Ordered (inserts (begins commits) 1 1).mgr.logManager.logFile := by
  refine logRespectsConflicts fdOf idle _ started ?_
  obtain ⟨txn,found,locks⟩ : ∃ txn, commitLogs.mgr.txnMap 0 = some txn ∧ txn.lockSet = [.onTable 3] :=
    Option.map_eq_some_iff.mp (by decide +kernel)
  have one : ClearMoves fdOf (inserts (begins idle) 0 0) commitLogs :=
    ⟨_,.logCommit (liveOf (by decide +kernel)) (by decide +kernel),trivial⟩
  have two : ClearMoves fdOf commitLogs commitFlushes :=
    ⟨_,.flushCommit (by decide +kernel) ⟨txn,found,locks ▸ .refl _⟩,trivial⟩
  have three : ClearMoves fdOf commitFlushes commitUnlocks := ⟨_,.unlock (by decide +kernel),trivial⟩
  have four : ClearMoves fdOf commitUnlocks commits := ⟨_,.finishCommit (by decide +kernel),trivial⟩
  have five : ClearMoves fdOf commits (begins commits) := ⟨_,.begin,trivial⟩
  have calm : Calm commits := by
    have logged : Calm commitLogs := ((calmBegins calmIdle).inserts 0 0).at_ nofun
    have flushed : Calm commitFlushes := logged.at_ nofun
    have unlocked : Calm commitUnlocks := flushed.at_ nofun
    exact unlocked.at_ nofun
  refine (((((firstInsert.tail one).tail two).tail three).tail four).tail five).trans
    (insertMoves (liveOf (by decide +kernel)) (by decide +kernel) (enteredOk (by decide +kernel))
      (liveOf (by decide +kernel)) freeOfData fun step => freeOfUndo step ((calmBegins calm).enters 1))

end Sessions
end Rmdb
