import Rmdb.Execution.Statements
import Rmdb.System.DdlEffect

/-! A transaction that runs any statements and is rolled back leaves the database as it found it. -/
namespace Rmdb
open Record Index Recovery TransactionManager

def SameIndexes (sm sm' : SmManager) : Prop := ∀ tabName tab, sm.db.getTable tabName = .ok tab → ∀ index ∈ tab.indexes,
  ∃ ih ih' m, sm.HasIndex tabName index ih m ∧ sm'.HasIndex tabName index ih' m

theorem sameIndexes {sm sm' : SmManager} (agreed : sm.Agreed) (agreed' : sm'.Agreed) (db : sm'.db = sm.db)
    (same : contents sm' = contents sm) : SameIndexes sm sm' := by
  intro tabName tab listed index mem
  obtain ⟨fh,table,agree⟩ := agreed.tables _ _ listed
  obtain ⟨fh',table',agree'⟩ := agreed'.tables _ _ (db ▸ listed)
  obtain ⟨ih,m,has,agrees⟩ := agree index mem
  obtain ⟨ih',m',has',agrees'⟩ := agree' index mem
  have records : fh'.records = fh.records := by
    rw [← SmManager.tableContents table.handle,← SmManager.tableContents table'.handle,same]
  have keys : m' = m := by
    funext key
    refine Option.ext fun rid => ?_
    rw [agrees key rid,agrees' key rid,records]
  exact ⟨ih,ih',m,has,keys ▸ has'⟩

def runAll [FloatOps] (fdOf : String → Int) (t : Int) (stmts : List Dml) (s : TransactionManager) : TransactionManager :=
  stmts.foldl (fun s stmt => after (stmt.run fdOf t s)) s

section Runs
variable {s s' : TransactionManager} {t : Int} {fdOf : String → Int}

theorem runAllLed [FloatOps] (stmts : List Dml) (safe : Safe s) (live : s.Live t) (agreed : s.smManager.Agreed) :
    ∃ new, Led s (runAll fdOf t stmts s) t new ∧ LocksKept s (runAll fdOf t stmts s) t := by
  induction stmts generalizing s with
  | nil => exact ⟨[],.refl agreed,locksSame safe live (.refl s)⟩
  | cons stmt stmts ih =>
    obtain ⟨⟨new,did,_⟩,kept⟩ := @Dml.outcome s t fdOf _ stmt safe live agreed
    obtain ⟨new',led,kept'⟩ := ih kept.safe kept.live did.agreed
    exact ⟨new ++ new',did.toLed.trans led,kept.trans kept'⟩

theorem beginFresh (s : TransactionManager) : ∃ s', begin none s = .ok s.nextTxnId s' ∧ SameLocks s.addTxn s' ∧
    s'.smManager = s.smManager ∧ s'.writesOf = Function.update s.writesOf s.nextTxnId (some []) := by
  obtain ⟨s',run,same⟩ := beginRun s
  have sm := beginSm s
  rw [run] at sm
  refine ⟨s',run,same,sm,?_⟩
  have aside := asideAppendLog (t := s.nextTxnId) (.beginLogRecord s.nextTxnId) s.stampTxn
  rw [beginCall] at run
  obtain ⟨_,u,appended,last⟩ := bindOk.mp run
  cases last
  rw [appended] at aside
  refine aside.writes.trans (funext fun u => ?_)
  by_cases own : u = s.nextTxnId
  · subst own
    simp only [writesOf,stampTxn,addTxn,Function.update_self]
    rfl
  · simp only [writesOf,stampTxn,addTxn,Function.update_of_ne own]

theorem beginReady (safe : Safe s) : ∃ s', begin none s = .ok s.nextTxnId s' ∧ Safe s' ∧ s'.Live s.nextTxnId ∧
    s'.smManager = s.smManager ∧ s'.writesOf = Function.update s.writesOf s.nextTxnId (some []) := by
  obtain ⟨s',run,same,sm,writes⟩ := beginFresh s
  obtain ⟨txn,found,view⟩ := same.forth (t := s.nextTxnId) (Function.update_self ..)
  exact ⟨s',run,safe.addTxn.same same,⟨txn,found,by rw [viewState view]; rfl⟩,sm,writes⟩

theorem abortInverse [FloatOps] (fdOf : String → Int) (s s₁ : TransactionManager) (t : Int) (stmts : List Dml)
    (order : List LockDataId) (reached : s.Reached) (agreed : s.smManager.Agreed) (begun : begin none s = .ok t s₁)
    (reads : (runAll fdOf t stmts s₁).Reads t order) : ∃ s' txn, abort t order (runAll fdOf t stmts s₁) = .ok () s' ∧
    contents s'.smManager = contents s.smManager ∧ SameIndexes s.smManager s'.smManager ∧ s'.txnMap t = some txn ∧
    txn.state = .aborted ∧ txn.writeSet = [] ∧ txn.lockSet = [] := by
  obtain ⟨u,run,safe,live,sm,writes⟩ := beginReady reached.safe
  rw [begun] at run
  cases run
  obtain ⟨new,led,kept⟩ := @runAllLed _ _ fdOf _ stmts safe live (by rw [sm]; exact agreed)
  obtain ⟨txn,found,alive⟩ := kept.live
  have own : txn.writeSet = new := by
    have all := congrFun led.writes s.nextTxnId
    rw [Function.update_self,writes,Function.update_self,writesOf,found] at all
    simpa using all
  obtain ⟨s',txn',ran,found',state,empty,free,_,_,agreed',back,tables,_⟩ := abortRestores kept.safe reads found alive
    led.agreed (by rw [own]; exact led.traced) (by rw [own]; exact led.apart)
  rw [own,led.undone,sm] at back
  refine ⟨s',txn',ran,back,?_,found',state,empty,free⟩
  exact sameIndexes agreed agreed' ((tables.db.trans led.same.db).trans (by rw [sm])) back

def indexed : TransactionManager := {started with smManager := DbDir.oneIndex.sm}
def someStatements : List Dml :=
  [.insert "t" [⟨.int 1,none⟩],.insert "t" [⟨.int 1,none⟩],.delete "t" fun sm => @SeqScanExecutor.visited FloatOps.whole sm "t" []]

theorem abortInverseOnce : ∃ s' txn,
    abort 0 [.onTable 3] (@runAll FloatOps.whole (fun _ => 3) 0 someStatements (after (begin none indexed))) = .ok () s' ∧
    contents s'.smManager = contents indexed.smManager ∧ SameIndexes indexed.smManager s'.smManager ∧
    s'.txnMap 0 = some txn ∧ txn.state = .aborted ∧ txn.writeSet = [] ∧ txn.lockSet = [] := by
  refine @abortInverse FloatOps.whole (fun _ => 3) indexed _ 0 someStatements [.onTable 3]
    ⟨indexed,⟨fun _ => rfl,fun _ => rfl⟩,.refl⟩ DbDir.oneIndexSound.agreed ?_ ?_
  · obtain ⟨s',run,_⟩ := beginRun indexed
    rw [run]
    rfl
  · have locks : ((@runAll FloatOps.whole (fun _ => 3) 0 someStatements (after (begin none indexed))).txnMap 0).map
        Transaction.lockSet = some [.onTable 3] := by decide +kernel
    obtain ⟨txn,found,held⟩ := Option.map_eq_some_iff.mp locks
    exact ⟨txn,found,by rw [held]⟩

end Runs
end Rmdb
