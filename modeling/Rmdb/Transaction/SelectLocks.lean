import Rmdb.Optimizer.DmlPlan
import Rmdb.Optimizer.SelectPlan
import Rmdb.Transaction.DatabaseRuns

/-! The table locks of a statement, from the constructors of the scans of a `SELECT` and from the
executors that write. -/
namespace Rmdb
open Record Recovery TransactionManager LockManager Planner
open Sessions (HoldsX)

namespace Portal

-- what the constructor of a scan reads before it asks for the lock
def opens (sm : SmManager) (x : ScanPlan) : Except Fault Unit := do
  let tab ← sm.db.getTable x.tabName
  if x.tag = .seqScan then .ok () else
    let index ← tab.getIndexMeta x.indexColNames
    let _ ← sm.indexHandle x.tabName index
  let _ ← sm.fileHandle x.tabName
  let _ ← tupleLenOf tab.cols
  .ok ()

def lockPlan (fdOf : String → Int) (txn : Int) : Plan → M TransactionManager Unit
  | .scan x => do
    let s ← get
    ofExcept (opens s.smManager x)
    let _ ← withLocks txn (lockSharedOnTable (fdOf x.tabName))
    pure ()
  | .join _ left right _ => do
    lockPlan fdOf txn left
    lockPlan fdOf txn right

end Portal

def QlManager.lockSelect [FloatOps] (fdOf : String → Int) (txn : Int) (methods : JoinMethods) (x : Ast.Select) :
    M TransactionManager Unit := do
  let s ← get
  let query ← ofExcept (Analyze.doAnalyze s.smManager.db x)
  let plan ← ofExcept (generateSelectPlan s.smManager.db methods query x.sort)
  Portal.lockPlan fdOf txn plan.subplan

def Asked (s : TransactionManager) (t : Int) (id : LockDataId) : Prop := ∃ r ∈ s.lockManager.requests id, r.txnId = t

section Requests
variable {s s' : TransactionManager} {t u fd : Int} {id : LockDataId} {mode : LockMode} {l new : List LockRequest}

theorem holdsAsked (holds : HoldsX s t fd) : Asked s t (.onTable fd) := by
  obtain ⟨r,mem,own,_⟩ := holds
  exact ⟨r,mem,own⟩

theorem holdsAlone (safe : Safe s) (holds : HoldsX s t fd) (asked : Asked s u (.onTable fd)) : t = u := by
  obtain ⟨r,mem,own,strong⟩ := holds
  obtain ⟨r',mem',own'⟩ := asked
  by_contra apart
  have conflict := (safe.queues _).apart r mem r' mem' (by rwa [own,own'])
  rw [strong,isCompatible,if_pos (.inl rfl)] at conflict
  cases conflict

theorem askedOther (safe : Safe s) (safe' : Safe s') (same : (s'.txnMap u).map locksOf = (s.txnMap u).map locksOf)
    (asked : Asked s u id) : Asked s' u id := by
  obtain ⟨r,mem,own⟩ := asked
  obtain ⟨txn,found,_⟩ := safe.owned id r mem
  rw [own] at found
  rw [found] at same
  obtain ⟨txn',found',view⟩ := Option.map_eq_some_iff.mp same
  rw [Asked,← safe'.held u txn' found',viewLocks view,safe.held u txn found]
  exact ⟨r,mem,own⟩

theorem grantedAsked {txnId : Int} (grant : Granted txnId mode l new) (asked : ∃ r ∈ l, r.txnId = u) : ∃ r ∈ new, r.txnId = u := by
  cases grant with
  | covered => exact asked
  | upgraded =>
    have ids : u ∈ (regrant txnId mode l).map LockRequest.txnId := by
      rw [regrantIds]
      exact List.mem_map.mpr asked
    exact List.mem_map.mp ids
  | added =>
    obtain ⟨r,mem,own⟩ := asked
    exact ⟨r,List.mem_append_left _ mem,own⟩

end Requests

structure Grows (s s' : TransactionManager) (t : Int) : Prop where
  aside : Aside s s'
  kept : LocksKept s s' t
  asked : ∀ u id, Asked s u id → Asked s' u id

section Calls
variable {s s' s'' : TransactionManager} {t : Int} {id : LockDataId} {mode : LockMode} {fdOf : String → Int} {α β : Type}

theorem Grows.refl (safe : Safe s) (live : s.Live t) : Grows s s t :=
  ⟨.refl s,locksSame safe live (.refl s),fun _ _ asked => asked⟩

theorem Grows.trans (one : Grows s s' t) (two : Grows s' s'' t) : Grows s s'' t :=
  ⟨one.aside.trans two.aside,one.kept.trans two.kept,fun u id asked => two.asked u id (one.asked u id asked)⟩

theorem lockGrows (safe : Safe s) (live : s.Live t) : Grows s (after (withLocks t (lock id mode) s)) t ∧
    ∀ b s', withLocks t (lock id mode) s = .ok b s' → Asked s' t id := by
  have kept := @lockKept s t id mode safe live
  have aside := asideLock (t := t) id mode s
  obtain ⟨txn,found,alive⟩ := live
  rcases @lockCases _ _ _ id mode safe found alive with ⟨e,lm,run,same⟩ | ⟨lm,run,_,_,others,grant⟩
  · rw [run] at kept aside ⊢
    refine ⟨⟨aside,kept,fun u x asked => ?_⟩,fun b s' done => by cases done⟩
    exact (same ▸ asked : ∃ r ∈ lm.requests x, r.txnId = u)
  · rw [run] at kept aside ⊢
    refine ⟨⟨aside,kept,fun u x asked => ?_⟩,fun b s' done => ?_⟩
    · change ∃ r ∈ lm.requests x, r.txnId = u
      by_cases here : x = id
      · subst here
        exact grantedAsked grant asked
      · rw [others x here]
        exact asked
    · cases done
      exact grant.holds

theorem lockPlanGrows (p : Plan) (safe : Safe s) (live : s.Live t) : Grows s (after (Portal.lockPlan fdOf t p s)) t ∧
    ∀ s', Portal.lockPlan fdOf t p s = .ok () s' → ∀ u ∈ p.tables, Asked s' t (.onTable (fdOf u)) := by
  induction p generalizing s with
  | scan x =>
    rw [Portal.lockPlan,getBind]
    cases opened : Portal.opens s.smManager x with
    | error e => exact ⟨.refl safe live,fun s' done => by cases done⟩
    | ok _ =>
      rw [bindEq (ofExceptOk _ s)]
      obtain ⟨grows,asked⟩ := @lockGrows s t (.onTable (fdOf x.tabName)) .shared safe live
      cases run : withLocks t (lockSharedOnTable (fdOf x.tabName)) s with
      | error e s₁ =>
        rw [bindError run]
        rw [lockSharedOnTable] at run
        rw [run] at grows
        exact ⟨grows,fun s' done => by cases done⟩
      | ok b s₁ =>
        rw [bindEq run]
        rw [lockSharedOnTable] at run
        rw [run] at grows
        refine ⟨grows,fun s' done u mem => ?_⟩
        cases done
        rw [List.mem_singleton.mp mem]
        exact asked b s₁ run
  | join tag left right conds ihl ihr =>
    rw [Portal.lockPlan]
    obtain ⟨growsL,askedL⟩ := ihl safe live
    cases run : Portal.lockPlan fdOf t left s with
    | error e s₁ =>
      rw [run] at growsL
      rw [bindError run]
      exact ⟨growsL,fun s' done => by cases done⟩
    | ok _ s₁ =>
      rw [run] at growsL
      rw [bindEq run]
      obtain ⟨growsR,askedR⟩ := @ihr s₁ growsL.kept.safe growsL.kept.live
      refine ⟨growsL.trans growsR,fun s' done u mem => ?_⟩
      rcases List.mem_append.mp mem with inL | inR
      · rw [done] at growsR
        exact growsR.asked t _ (askedL s₁ run u inL)
      · exact askedR s' done u inR

theorem lockSelectGrows [FloatOps] {methods : JoinMethods} {x : Ast.Select} (safe : Safe s) (live : s.Live t) :
    Grows s (after (QlManager.lockSelect fdOf t methods x s)) t ∧ ∀ s', QlManager.lockSelect fdOf t methods x s = .ok () s' →
      ∃ query plan, Analyze.doAnalyze s.smManager.db x = .ok query ∧
        makeOneRel s.smManager.db methods query.tables query.conds = .ok plan ∧
        ∀ u ∈ plan.tables, Asked s' t (.onTable (fdOf u)) := by
  rw [QlManager.lockSelect,getBind]
  cases analyzed : Analyze.doAnalyze s.smManager.db x with
  | error e => exact ⟨.refl safe live,fun s' done => by cases done⟩
  | ok query =>
    rw [bindEq (ofExceptOk _ s)]
    cases generated : generateSelectPlan s.smManager.db methods query x.sort with
    | error e => exact ⟨.refl safe live,fun s' done => by cases done⟩
    | ok plan =>
      rw [bindEq (ofExceptOk _ s)]
      obtain ⟨grows,asked⟩ := @lockPlanGrows s t fdOf plan.subplan safe live
      obtain ⟨subplan,made,generated⟩ := exceptBind generated
      obtain ⟨sort,_,generated⟩ := exceptBind generated
      cases Except.ok.inj generated
      exact ⟨grows,fun s' done => ⟨query,subplan,rfl,made,asked s' done⟩⟩

def KeepsAsked (x : M TransactionManager α) : Prop := ∀ s u id, Asked s u id → Asked (after (x s)) u id

theorem askedBind {x : M TransactionManager α} {f : α → M TransactionManager β} (first : KeepsAsked x)
    (next : ∀ a, KeepsAsked (f a)) : KeepsAsked (x >>= f) := by
  intro s u id asked
  have one := first s u id asked
  cases run : x s with
  | ok a s' =>
    rw [run] at one
    rw [bindEq run]
    exact next a s' u id one
  | error e s' =>
    rw [run] at one
    rw [bindError run]
    exact one

theorem askedQuiet {x : M TransactionManager α} (quiet : Quiet x) : KeepsAsked x := by
  intro s u id asked
  rw [Asked,(quiet s).table]
  exact asked

theorem askedLock (id : LockDataId) (mode : LockMode) : KeepsAsked (withLocks t (lock id mode)) := by
  intro s u x asked
  cases found : s.txnMap t with
  | none =>
    simp only [withLocks,found]
    exact asked
  | some txn =>
    have locked := @lockRun id mode txn s.lockManager
    generalize run : lock id mode (txn,s.lockManager) = r at locked
    cases locked with
    | @thrown e lm same =>
      rw [withLocksError found run]
      exact (same ▸ asked : ∃ r ∈ lm.requests x, r.txnId = u)
    | @done lm _ others here =>
      rw [withLocksOk found run]
      change ∃ r ∈ lm.requests x, r.txnId = u
      by_cases same : x = id
      · subst same
        exact grantedAsked here asked
      · rw [others x same]
        exact asked

theorem askedTable {tabName : String} : KeepsAsked (lockTable fdOf t tabName) :=
  askedBind (askedQuiet quietTableFile) fun _ => askedBind (askedLock _ _) fun _ => askedQuiet fun s => SameLocks.refl s

theorem askedRows {f : Rid → M TransactionManager Unit} (quiet : ∀ rid, Quiet (f rid)) (rids : List Rid) :
    KeepsAsked (rids.forM f) := askedQuiet (quietRows quiet rids)

theorem quietCollect (scan : SmManager → Visited) : Quiet (Dml.collect scan) := by
  refine quietBind quietGet fun s => ?_
  obtain ⟨rids,fault⟩ := scan s.smManager
  cases fault <;> exact fun s => SameLocks.refl s

theorem quietTableMeta {tabName : String} : Quiet (tableMeta tabName) := quietBind quietGet fun _ => quietOfExcept _

theorem askedDml [FloatOps] (stmt : Dml) : KeepsAsked (stmt.run fdOf t) := by
  cases stmt with
  | insert tabName values =>
    refine askedBind (askedBind (askedQuiet quietTableMeta) fun tab => ?_) fun tab => askedQuiet (quietInsert values)
    split
    · exact askedQuiet fun s => SameLocks.refl s
    · exact askedBind askedTable fun _ => askedQuiet fun s => SameLocks.refl s
  | delete tabName scan =>
    refine askedBind askedTable fun _ => askedBind (askedQuiet (quietCollect scan)) fun rids => askedBind ?_ fun tab =>
      askedRows (fun _ => quietDelete) rids
    exact askedBind (askedQuiet quietTableMeta) fun tab => askedBind askedTable fun _ => askedQuiet fun s => SameLocks.refl s
  | update tabName setClauses scan =>
    refine askedBind askedTable fun _ => askedBind (askedQuiet (quietCollect scan)) fun rids => askedBind ?_ fun tab =>
      askedRows (fun _ => quietUpdate setClauses) rids
    exact askedBind (askedQuiet quietTableMeta) fun tab => askedBind askedTable fun _ => askedQuiet fun s => SameLocks.refl s

theorem askedModify [FloatOps] (x : Ast.DmlStmt) : KeepsAsked (QlManager.modify fdOf t x) :=
  askedBind (askedQuiet quietGet) fun _ => askedBind (askedQuiet (quietOfExcept _)) fun _ =>
    askedBind (askedQuiet (quietOfExcept _)) fun _ => askedDml _

theorem dmlNamed [FloatOps] {db : DbMeta} {x : Ast.DmlStmt} {query : DmlQuery} {plan : DmlPlan}
    (analyzed : Analyze.doAnalyzeDml db x = .ok query) (planned : doPlannerDml db query = .ok plan) :
    (Portal.dml plan).tabName = x.tabName := by
  cases x with
  | insert tabName vals =>
    obtain ⟨_,_,last⟩ := exceptBind analyzed
    cases Except.ok.inj last
    cases Except.ok.inj planned
    rfl
  | delete tabName conds =>
    obtain ⟨_,_,rest⟩ := exceptBind analyzed
    obtain ⟨_,_,last⟩ := exceptBind rest
    cases Except.ok.inj last
    obtain ⟨_,_,last⟩ := exceptBind planned
    cases Except.ok.inj last
    rfl
  | update tabName setClauses conds =>
    obtain ⟨_,_,rest⟩ := exceptBind analyzed
    obtain ⟨_,_,rest⟩ := exceptBind rest
    obtain ⟨_,_,last⟩ := exceptBind rest
    cases Except.ok.inj last
    obtain ⟨_,_,last⟩ := exceptBind planned
    cases Except.ok.inj last
    rfl

theorem modifyOutcome [FloatOps] (x : Ast.DmlStmt) (safe : Safe s) (live : s.Live t) (agreed : s.smManager.Agreed) :
    Dml.Outcome fdOf s t x.tabName (after (QlManager.modify fdOf t x s)) := by
  have stays : Dml.Outcome fdOf s t x.tabName s := .nothing agreed (.refl s) (locksSame safe live (.refl s))
  rw [QlManager.modify,getBind]
  cases analyzed : Analyze.doAnalyzeDml s.smManager.db x with
  | error e => exact stays
  | ok query =>
    rw [bindEq (ofExceptOk _ s)]
    cases planned : doPlannerDml s.smManager.db query with
    | error e => exact stays
    | ok plan =>
      rw [bindEq (ofExceptOk _ s),← dmlNamed analyzed planned]
      exact (Portal.dml plan).outcome safe live agreed

end Calls

end Rmdb
