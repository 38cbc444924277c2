import Rmdb.Execution.Executors
import Rmdb.Recovery.Replay
import Rmdb.Record.RmRun
import Rmdb.Transaction.TxnLog

/-! What one turn of an executor does to the record file and to the log. -/
namespace Rmdb
open Record Index Recovery RecoveryManager TransactionManager

def insertRow (txn : Int) (tabName : String) (record : Bytes) : M TransactionManager Unit := do
  let rid ← onSm (SmManager.onFile tabName (RmFileHandle.insertRecord record))
  logRecord txn (.insertLogRecord txn record rid tabName)

def deleteRow (txn : Int) (tabName : String) (rid : Rid) : M TransactionManager Unit := do
  let fh ← tableFile tabName
  let record ← ofExcept (fh.getRecord rid)
  logRecord txn (.deleteLogRecord txn record rid tabName)
  onSm (SmManager.onFile tabName (RmFileHandle.deleteRecord rid))

def updateRow (txn : Int) (tabName : String) (rid : Rid) (newRecord : Bytes) : M TransactionManager Unit := do
  let fh ← tableFile tabName
  let oldRecord ← ofExcept (fh.getRecord rid)
  logRecord txn (.updateLogRecord txn oldRecord newRecord rid tabName)
  onSm (SmManager.onFile tabName (RmFileHandle.updateRecord rid newRecord))

structure RowWritten (s s' : TransactionManager) (t : Int) (r : LogRecord) : Prop where
  log : s'.log = s.log ++ [r]
  flushed : s'.logManager.logFile = s'.log
  own : r.logTid = t
  same : SameLocks s s'
  grown : Grown s.smManager s'.smManager
  row : ∃ k, r.data.place = some k ∧ contents s.smManager k = r.data.beforeImage ∧
    contents s'.smManager = Function.update (contents s.smManager) k r.data.afterImage ∧ Placed s'.smManager (k,none)

section Rows
variable {s : TransactionManager} {t : Int} {txn : Transaction} {tabName : String} {lost : String → Set Int}
  {record : LogRecord} {fh : RmFileHandle} {rid : Rid}

theorem logRecordRun (found : s.txnMap t = some txn) (own : record.logTid = t) : ∃ s' r, logRecord t record s = .ok () s' ∧
    s'.log = s.log ++ [r] ∧ r.logTid = t ∧ r.data = record.data ∧ s'.logManager.logFile = s'.log ∧ SameLocks s s' ∧
    s'.smManager = s.smManager := by
  obtain ⟨lm,added,_,all,_⟩ := LogManager.addRun {record with prevLsn := txn.prevLsn} s.logManager
  have append : appendLog t record s = .ok () {s with
      logManager := lm
      txnMap := Function.update s.txnMap t ((s.txnMap t).map fun object => {object with prevLsn := s.logManager.globalLsn})} := by
    rw [appendLog,bindEq (getTxnRun found),bindEq (onLogOk added)]
    rfl
  have quiet := @quietAppendLog t record s
  rw [append] at quiet
  obtain ⟨lm',flush,_,all',file⟩ := LogManager.flushRun lm
  have run : logRecord t record s = .ok () {s with
      logManager := lm'
      txnMap := Function.update s.txnMap t ((s.txnMap t).map fun object => {object with prevLsn := s.logManager.globalLsn})} := by
    rw [logRecord,bindEq append]
    exact onLogOk flush
  refine ⟨_,_,run,all'.trans all,own,rfl,file.trans all'.symm,?_,rfl⟩
  exact ⟨quiet.next,quiet.table,quiet.txns⟩

theorem onSmOk {α : Type} {x : M SmManager α} {a : α} {sm : SmManager} (run : x s.smManager = .ok a sm) :
    onSm x s = .ok a {s with smManager := sm} := zoomOk run

theorem onSmError {α : Type} {x : M SmManager α} {e : Fault} {sm : SmManager} (run : x s.smManager = .error e sm) :
    onSm x s = .error e {s with smManager := sm} := zoomError run

theorem tableFileRun (found : s.smManager.fhs tabName = some fh) : tableFile tabName s = .ok fh s := by
  rw [tableFile,getBind,SmManager.fileHandle,found]
  rfl

theorem tableFileMissing (none : s.smManager.fhs tabName = none) : tableFile tabName s = .error .mapAt s := by
  rw [tableFile,getBind,SmManager.fileHandle,none]
  rfl

theorem onFileMissing {α : Type} {x : M RmFileHandle α} {sm : SmManager} (none : sm.fhs tabName = none) :
    SmManager.onFile tabName x sm = .error .mapAt sm := by
  simp only [SmManager.onFile,none]

theorem recordsPlaced {sm : SmManager} {b : Bytes} (files : WellFiles sm lost) (found : sm.fhs tabName = some fh)
    (present : fh.records rid = some b) : Placed sm ((tabName,rid),none) := by
  obtain ⟨has,low,page,here,slot⟩ := RmFileHandle.recordsSome.mp present
  obtain ⟨chain,well⟩ := files tabName fh found
  obtain ⟨page',same,counted⟩ := well.page _ has
  obtain rfl := Option.some.inj (here.symm.trans same)
  have high := (List.getElem?_eq_some_iff.mp slot).1
  rw [counted.length] at high
  exact ⟨fh,found,has.1,low,show rid.slotNo < _ by omega⟩

theorem putSameWell {sm : SmManager} {fh' : RmFileHandle} (files : WellFiles sm lost) (well : fh'.WellUpTo (lost tabName)) :
    WellFiles {sm with fhs := Function.update sm.fhs tabName (some fh')} lost := by
  have put := @putWell sm tabName fh' lost (lost tabName) files well
  rwa [Function.update_eq_self] at put

inductive RowResult (s : TransactionManager) (t : Int) (lost : String → Set Int) :
    EStateM.Result Fault TransactionManager Unit → Prop where
  | done {s' : TransactionManager} {r : LogRecord} (written : RowWritten s s' t r) (files : WellFiles s'.smManager lost) :
      RowResult s t lost (.ok () s')
  | refused {e : Fault} : RowResult s t lost (.error e s)

theorem insertRowRun {buf : Bytes} (files : WellFiles s.smManager lost) (known : s.txnMap t = some txn) :
    RowResult s t lost (insertRow t tabName buf s) := by
  cases found : s.smManager.fhs tabName with
  | none =>
    rw [insertRow,bindError (onSmError (onFileMissing found))]
    exact .refused
  | some fh =>
    obtain ⟨rid,fh',inserted,well,fresh,records,extended⟩ := @RmFileHandle.insertRecordWell _ _ buf (files _ _ found)
    obtain ⟨s',r,logged,log,own,data,flushed,same,sm⟩ := @logRecordRun
      {s with smManager := {s.smManager with fhs := Function.update s.smManager.fhs tabName (some fh')}} t txn
      (.insertLogRecord t buf rid tabName) known rfl
    rw [insertRow,bindEq (onSmOk (onFileOk found inserted)),logged]
    have files' := putSameWell files well
    refine .done ⟨log,flushed,own,⟨same.next,same.table,same.txns⟩,?_,(tabName,rid),?_,?_,?_,?_⟩ (by rw [sm]; exact files')
    · rw [sm]
      exact putGrown found extended
    · rw [data]
      rfl
    · rw [data,contents,found,Option.bind_some,fresh]
      rfl
    · rw [data,sm]
      exact contentsPut found records
    · rw [sm]
      exact recordsPlaced (b := buf) files' (Function.update_self ..) (by rw [records,Function.update_self])

theorem deleteRowRun (files : WellFiles s.smManager lost) (known : s.txnMap t = some txn) :
    RowResult s t lost (deleteRow t tabName rid s) := by
  cases found : s.smManager.fhs tabName with
  | none =>
    rw [deleteRow,bindError (tableFileMissing found)]
    exact .refused
  | some fh =>
    rw [deleteRow,bindEq (tableFileRun found)]
    cases read : fh.getRecord rid with
    | error e => exact .refused
    | ok buf =>
      have present := RmFileHandle.getRecordSome.mp read
      obtain ⟨s',r,logged,log,own,data,flushed,same,sm⟩ := @logRecordRun s t txn (.deleteLogRecord t buf rid tabName) known rfl
      obtain ⟨fh',deleted,well,records,extended⟩ := RmFileHandle.deleteRecordWell (files _ _ found) present
      have last := onSmOk (onFileOk (sm.symm ▸ found : s'.smManager.fhs tabName = some fh) deleted)
      rw [bindEq (ofExceptOk buf s),bindEq logged,last]
      refine .done ⟨log,flushed,own,⟨same.next,same.table,same.txns⟩,?_,(tabName,rid),?_,?_,?_,?_⟩ ?_
      · rw [sm]
        exact putGrown found extended
      · rw [data]
        rfl
      · rw [data,contents,found,Option.bind_some,present]
        rfl
      · rw [data,sm]
        exact contentsPut found records
      · rw [sm]
        exact (recordsPlaced files found present).grown (putGrown found extended)
      · rw [sm]
        exact putSameWell files well

theorem updateRowRun {buf : Bytes} (files : WellFiles s.smManager lost) (known : s.txnMap t = some txn) :
    RowResult s t lost (updateRow t tabName rid buf s) := by
  cases found : s.smManager.fhs tabName with
  | none =>
    rw [updateRow,bindError (tableFileMissing found)]
    exact .refused
  | some fh =>
    rw [updateRow,bindEq (tableFileRun found)]
    cases read : fh.getRecord rid with
    | error e => exact .refused
    | ok old =>
      have present := RmFileHandle.getRecordSome.mp read
      obtain ⟨s',r,logged,log,own,data,flushed,same,sm⟩ :=
        @logRecordRun s t txn (.updateLogRecord t old buf rid tabName) known rfl
      obtain ⟨fh',updated,well,records,extended⟩ := @RmFileHandle.updateRecordWell _ _ _ _ buf (files _ _ found) present
      have last := onSmOk (onFileOk (sm.symm ▸ found : s'.smManager.fhs tabName = some fh) updated)
      rw [bindEq (ofExceptOk old s),bindEq logged,last]
      refine .done ⟨log,flushed,own,⟨same.next,same.table,same.txns⟩,?_,(tabName,rid),?_,?_,?_,?_⟩ ?_
      · rw [sm]
        exact putGrown found extended
      · rw [data]
        rfl
      · rw [data,contents,found,Option.bind_some,present]
        rfl
      · rw [data,sm]
        exact contentsPut found records
      · rw [sm]
        exact (recordsPlaced files found present).grown (putGrown found extended)
      · rw [sm]
        exact putSameWell files well

end Rows

structure Beside (s s' : TransactionManager) : Prop where
  next : s'.nextTxnId = s.nextTxnId
  log : s'.logManager = s.logManager
  db : s'.smManager.db = s.smManager.db
  files : s'.smManager.fhs = s.smManager.fhs
  ends : ∀ t, (s'.txnMap t).map (fun txn => ended txn.state) = (s.txnMap t).map fun txn => ended txn.state

def IndexOnly {α : Type} (x : M SmManager α) : Prop := ∀ sm, (after (x sm)).db = sm.db ∧ (after (x sm)).fhs = sm.fhs

section Frame
variable {α β : Type} {s s' s'' : TransactionManager} {t : Int} {txn : Transaction} {tabName : String} {tab : TabMeta}

theorem Beside.refl (s : TransactionManager) : Beside s s := ⟨rfl,rfl,rfl,rfl,fun _ => rfl⟩

theorem Beside.trans (one : Beside s s') (two : Beside s' s'') : Beside s s'' :=
  ⟨two.next.trans one.next,two.log.trans one.log,two.db.trans one.db,two.files.trans one.files,
    fun t => (two.ends t).trans (one.ends t)⟩

theorem indexOnlyBind {x : M SmManager α} {f : α → M SmManager β} (first : IndexOnly x) (next : ∀ a, IndexOnly (f a)) :
    IndexOnly (x >>= f) := by
  intro sm
  obtain ⟨db,fhs⟩ := first sm
  simp only [bind,EStateM.bind]
  cases run : x sm with
  | ok a sm' =>
    rw [run] at db fhs
    obtain ⟨db',fhs'⟩ := next a sm'
    exact ⟨db'.trans db,fhs'.trans fhs⟩
  | error e sm' =>
    rw [run] at db fhs
    exact ⟨db,fhs⟩

theorem indexOnlyRead {x : M SmManager α} (same : ∀ sm, after (x sm) = sm) : IndexOnly x := fun sm => by
  rw [same sm]
  exact ⟨rfl,rfl⟩

theorem indexOnlyOfExcept (x : Except Fault α) : IndexOnly (ofExcept x) := indexOnlyRead fun sm => by cases x <;> rfl

theorem indexOnlyOnIndex (index : IndexMeta) (x : M IxHandle Unit) : IndexOnly (SmManager.onIndex tabName index x) := by
  intro sm
  rw [SmManager.onIndex]
  cases sm.ihs (IxManager.getIndexName tabName (ranks index.cols)) with
  | none => exact ⟨rfl,rfl⟩
  | some ih =>
    simp only [zoom]
    cases x ih <;> exact ⟨rfl,rfl⟩

theorem indexOnlyForM {f : IndexMeta → M SmManager Unit} (each : ∀ index, IndexOnly (f index)) (l : List IndexMeta) :
    IndexOnly (l.forM f) := by
  induction l with
  | nil => exact fun _ => ⟨rfl,rfl⟩
  | cons index l ih => exact indexOnlyBind (each index) fun _ => ih

theorem indexOnlyInsert (record : Bytes) (rid : Rid) : IndexOnly (InsertExecutor.insertEntries tab tabName record rid) :=
  indexOnlyForM (fun _ => indexOnlyBind (indexOnlyRead fun _ => rfl) fun _ =>
    indexOnlyBind (indexOnlyOfExcept _) fun _ => indexOnlyOnIndex _ _) _

theorem indexOnlyDelete (record : Bytes) : IndexOnly (deleteIndexEntries tab tabName record) :=
  indexOnlyForM (fun _ => indexOnlyOnIndex _ _) _

theorem indexOnlyReplace (rid : Rid) (oldRecord newRecord : Bytes) :
    IndexOnly (UpdateExecutor.replaceEntries tab tabName rid oldRecord newRecord) := by
  refine indexOnlyForM (fun index => ?_) _
  split
  · exact indexOnlyOnIndex _ _
  · exact fun _ => ⟨rfl,rfl⟩

theorem besideOnSm {x : M SmManager α} {a : α} (only : IndexOnly x) (run : onSm x s = .ok a s') : Beside s s' := by
  obtain ⟨db,fhs⟩ := only s.smManager
  rw [onSm,zoom] at run
  split at run
  · rename_i here
    cases run
    rw [here] at db fhs
    exact ⟨rfl,rfl,db,fhs,fun _ => rfl⟩
  · cases run

theorem besideModify {f : Transaction → Transaction} (same : ∀ txn, ended (f txn).state = ended txn.state) :
    Beside s (after (modifyTxn t f s)) := by
  refine ⟨rfl,rfl,rfl,rfl,fun u => ?_⟩
  change (Function.update s.txnMap t _ u).map _ = _
  by_cases here : u = t
  · subst here
    rw [Function.update_self,Option.map_map]
    exact congrArg (Option.map · _) (funext same)
  · rw [Function.update_of_ne here]

theorem besideWrite {writeRecord : WriteRecord} (run : appendWriteRecord t writeRecord s = .ok () s') : Beside s s' := by
  have here := @besideModify s t (fun object => {object with writeSet := object.writeSet ++ [writeRecord]}) fun _ => rfl
  rw [appendWriteRecord] at run
  rwa [run] at here

theorem besideWithLocks {x : M (Transaction × LockManager) α} (same : ∀ txn lm, ended (after (x (txn,lm))).1.state = ended txn.state) :
    Beside s (after (withLocks t x s)) := by
  cases found : s.txnMap t with
  | none =>
    simp only [withLocks,found]
    exact Beside.refl s
  | some txn =>
    have kept := same txn s.lockManager
    have ends {txn' : Transaction} (same : ended txn'.state = ended txn.state) (u : Int) :
        (Function.update s.txnMap t (some txn') u).map (fun txn => ended txn.state) =
          (s.txnMap u).map fun txn => ended txn.state := by
      by_cases here : u = t
      · rw [here,Function.update_self,found,Option.map_some,Option.map_some,same]
      · rw [Function.update_of_ne here]
    cases run : x (txn,s.lockManager) with
    | ok a p =>
      rw [run] at kept
      rw [withLocksOk found run]
      exact ⟨rfl,rfl,rfl,rfl,ends kept⟩
    | error e p =>
      rw [run] at kept
      rw [withLocksError found run]
      exact ⟨rfl,rfl,rfl,rfl,ends kept⟩

theorem besideLock {id : LockDataId} {mode : LockMode} : Beside s (after (withLocks t (LockManager.lock id mode) s)) := by
  refine besideWithLocks fun txn lm => ?_
  generalize run : LockManager.lock id mode (txn,lm) = r
  have locked := @LockManager.lockRun id mode txn lm
  rw [run] at locked
  cases locked <;> rfl

theorem besideUnlock {id : LockDataId} : Beside s (after (withLocks t (LockManager.unlock id) s)) := by
  refine besideWithLocks fun txn lm => ?_
  generalize run : LockManager.unlock id (txn,lm) = r
  have unlocked := @LockManager.unlockRun id txn lm
  rw [run] at unlocked
  cases unlocked with
  | absent _ => rfl
  | done _ _ _ => cases state : txn.state <;> simp [after,ended]

theorem unlockReturns {id : LockDataId} (found : s.txnMap t = some txn) :
    ∃ b s', withLocks t (LockManager.unlock id) s = .ok b s' ∧ Beside s s' ∧ ∃ txn', s'.txnMap t = some txn' := by
  have beside := @besideUnlock s t id
  generalize run : LockManager.unlock id (txn,s.lockManager) = r
  have unlocked := @LockManager.unlockRun id txn s.lockManager
  rw [run] at unlocked
  cases unlocked with
  | absent _ =>
    rw [withLocksOk found run] at beside ⊢
    exact ⟨_,_,rfl,beside,_,Function.update_self ..⟩
  | done _ _ _ =>
    rw [withLocksOk found run] at beside ⊢
    exact ⟨_,_,rfl,beside,_,Function.update_self ..⟩

theorem releaseReturns (order : List LockDataId) (found : s.txnMap t = some txn) :
    ∃ s', releaseLocks t order s = .ok () s' ∧ Beside s s' := by
  have loop : ∃ s₁, (order.forM fun id => do
      let _ ← withLocks t (LockManager.unlock id)
      pure () : M TransactionManager Unit) s = .ok () s₁ ∧ Beside s s₁ := by
    induction order generalizing s txn with
    | nil => exact ⟨s,rfl,Beside.refl s⟩
    | cons id order ih =>
      obtain ⟨b,u,run,beside,txn',found'⟩ := @unlockReturns s t txn id found
      obtain ⟨s₁,rest,later⟩ := ih found'
      refine ⟨s₁,?_,beside.trans later⟩
      rw [List.forM,bind_assoc,bindEq run]
      exact rest
  obtain ⟨s₁,run,beside⟩ := loop
  rw [releaseLocks,bindEq run]
  exact ⟨_,rfl,beside.trans (besideModify fun _ => rfl)⟩

theorem commitRecorded (order : List LockDataId) (found : s.txnMap t = some txn) (live : ended txn.state = false) :
    ∃ s₁ s₂, logRecord t (.commitLogRecord t) s = .ok () s₁ ∧ Beside s₁ s₂ ∧
      commit t order s = modifyTxn t (fun object => {object with state := .committed}) s₂ := by
  obtain ⟨s₁,_,logged,_,_,_,_,same,_⟩ := @logRecordRun s t txn (.commitLogRecord t) found rfl
  obtain ⟨txn₁,found₁,_⟩ := same.forth found
  let u := after (modifyTxn t (fun object => {object with writeSet := []}) s₁)
  have emptied : Beside s₁ u := besideModify fun _ => rfl
  have found₂ : ∃ txn₂, u.txnMap t = some txn₂ := by
    change ∃ txn₂, Function.update s₁.txnMap t ((s₁.txnMap t).map _) t = some txn₂
    rw [Function.update_self,found₁]
    exact ⟨_,rfl⟩
  obtain ⟨txn₂,found₂⟩ := found₂
  obtain ⟨s₂,released,beside⟩ := releaseReturns order found₂
  refine ⟨s₁,s₂,logged,emptied.trans beside,?_⟩
  have flushes : (do appendLog t (.commitLogRecord t); flushLog : M TransactionManager Unit) s = .ok () s₁ := logged
  obtain ⟨_,v,appended,flush⟩ := bindOk.mp flushes
  rw [commit,bindEq (getTxnRun found),live]
  change (appendLog t (.commitLogRecord t) >>= _) s = _
  rw [bindEq appended,bindEq flush,modifyTxn,modifyBind]
  exact bindEq released

theorem ofExceptDone {σ : Type} {x : Except Fault α} {a : α} {u v : σ} (run : (ofExcept x : M σ α) u = .ok a v) :
    x = .ok a ∧ u = v := by
  cases x with
  | error e => cases run
  | ok b =>
    cases run
    exact ⟨rfl,rfl⟩

theorem tableFileDone {fh : RmFileHandle} (run : tableFile tabName s = .ok fh s') : s.smManager.fhs tabName = some fh ∧ s = s' := by
  rw [tableFile,getBind] at run
  obtain ⟨found,same⟩ := ofExceptDone run
  rw [SmManager.fileHandle] at found
  split at found
  · cases found
    exact ⟨‹_›,same⟩
  · cases found

theorem onSmDone {x : M SmManager α} {a : α} (run : onSm x s = .ok a s') :
    ∃ sm, x s.smManager = .ok a sm ∧ s' = {s with smManager := sm} := by
  rw [onSm,zoom] at run
  split at run
  · cases run
    exact ⟨_,‹_›,rfl⟩
  · cases run

theorem onFileDone {x : M RmFileHandle α} {a : α} {sm sm' : SmManager} (run : SmManager.onFile tabName x sm = .ok a sm') :
    ∃ fh fh', sm.fhs tabName = some fh ∧ x fh = .ok a fh' ∧
      sm' = {sm with fhs := Function.update sm.fhs tabName (some fh')} := by
  rw [SmManager.onFile] at run
  split at run
  · cases run
  · rename_i fh found
    rw [zoom] at run
    split at run
    · cases run
      exact ⟨fh,_,found,‹_›,rfl⟩
    · cases run

theorem insertTurn [FloatOps] {values : List Value} (run : InsertExecutor.next t tab tabName values s = .ok () s') :
    ∃ record s₁, insertRow t tabName record s = .ok () s₁ ∧ Beside s₁ s' := by
  rw [InsertExecutor.next] at run
  obtain ⟨fh,_,file,run⟩ := bindOk.mp run
  obtain ⟨_,rfl⟩ := tableFileDone file
  obtain ⟨record,_,made,run⟩ := bindOk.mp run
  obtain ⟨_,rfl⟩ := ofExceptDone made
  rw [getBind] at run
  obtain ⟨_,_,checked,run⟩ := bindOk.mp run
  obtain ⟨_,rfl⟩ := ofExceptDone checked
  obtain ⟨rid,s₁,inserted,run⟩ := bindOk.mp run
  obtain ⟨_,s₂,logged,run⟩ := bindOk.mp run
  obtain ⟨_,s₃,noted,entries⟩ := bindOk.mp run
  refine ⟨record,s₂,?_,(besideWrite noted).trans (besideOnSm (indexOnlyInsert record rid) entries)⟩
  rw [insertRow,bindEq inserted]
  exact logged

theorem deleteTurn {rid : Rid} (run : DeleteExecutor.deleteRow t tab tabName rid s = .ok () s') :
    ∃ s₁, deleteRow t tabName rid s = .ok () s₁ ∧ Beside s₁ s' := by
  rw [DeleteExecutor.deleteRow] at run
  obtain ⟨fh,_,file,run⟩ := bindOk.mp run
  obtain ⟨found,rfl⟩ := tableFileDone file
  obtain ⟨record,_,read,run⟩ := bindOk.mp run
  obtain ⟨same,rfl⟩ := ofExceptDone read
  obtain ⟨_,s₁,logged,run⟩ := bindOk.mp run
  obtain ⟨_,s₂,noted,run⟩ := bindOk.mp run
  obtain ⟨_,s₃,entries,deleted⟩ := bindOk.mp run
  have between := (besideWrite noted).trans (besideOnSm (indexOnlyDelete record) entries)
  obtain ⟨_,last,rfl⟩ := onSmDone deleted
  obtain ⟨fh₁,fh₂,found₁,removed,rfl⟩ := onFileDone last
  rw [between.files] at found₁
  have first := onSmOk (onFileOk found₁ removed)
  refine ⟨{s₁ with smManager := {s₁.smManager with fhs := Function.update s₁.smManager.fhs tabName (some fh₂)}},?_,
    ⟨between.next,between.log,between.db,?_,between.ends⟩⟩
  · rw [deleteRow,bindEq file,bindEq read,bindEq logged]
    exact first
  · change Function.update _ _ _ = Function.update _ _ _
    rw [between.files]

theorem updateTurn [FloatOps] {setClauses : List SetClause} {rid : Rid}
    (run : UpdateExecutor.updateRow t tab tabName setClauses rid s = .ok () s') :
    ∃ record s₁, Beside s s₁ ∧ updateRow t tabName rid record s₁ = .ok () s' := by
  rw [UpdateExecutor.updateRow] at run
  obtain ⟨fh,_,file,run⟩ := bindOk.mp run
  obtain ⟨found,rfl⟩ := tableFileDone file
  obtain ⟨old,_,read,run⟩ := bindOk.mp run
  obtain ⟨present,rfl⟩ := ofExceptDone read
  obtain ⟨_,s₁,noted,run⟩ := bindOk.mp run
  obtain ⟨new,_,made,run⟩ := bindOk.mp run
  obtain ⟨_,rfl⟩ := ofExceptDone made
  rw [getBind] at run
  obtain ⟨_,_,checked,run⟩ := bindOk.mp run
  obtain ⟨_,rfl⟩ := ofExceptDone checked
  obtain ⟨_,s₂,entries,run⟩ := bindOk.mp run
  have before := (besideWrite noted).trans (besideOnSm (indexOnlyReplace rid old new) entries)
  refine ⟨new,s₂,before,?_⟩
  rw [updateRow,bindEq (tableFileRun (before.files ▸ found)),present]
  exact run

end Frame

inductive Turn (t : Int) : TransactionManager → TransactionManager → Prop where
  | insert {s : TransactionManager} {tabName : String} {record : Bytes} : Turn t s (after (insertRow t tabName record s))
  | delete {s : TransactionManager} {tabName : String} {rid : Rid} : Turn t s (after (deleteRow t tabName rid s))
  | update {s : TransactionManager} {tabName : String} {rid : Rid} {record : Bytes} :
      Turn t s (after (updateRow t tabName rid record s))
  | beside {s s' : TransactionManager} (beside : Beside s s') : Turn t s s'

section Statements
variable {s s' : TransactionManager} {t : Int} {tab : TabMeta} {tabName : String} {fdOf : String → Int}

theorem loopTurns {f : Rid → M TransactionManager Unit} (rids : List Rid)
    (each : ∀ rid {s s'}, f rid s = .ok () s' → Relation.ReflTransGen (Turn t) s s') (run : rids.forM f s = .ok () s') :
    Relation.ReflTransGen (Turn t) s s' := by
  induction rids generalizing s with
  | nil =>
    cases run
    exact .refl
  | cons rid rids ih =>
    rw [List.forM] at run
    obtain ⟨_,s₁,one,rest⟩ := bindOk.mp run
    exact (each rid one).trans (ih rest)

theorem lockTurns (run : lockTable fdOf t tabName s = .ok () s') : Beside s s' := by
  rw [lockTable] at run
  obtain ⟨_,_,file,run⟩ := bindOk.mp run
  obtain ⟨_,rfl⟩ := tableFileDone file
  obtain ⟨b,s₁,locked,last⟩ := bindOk.mp run
  cases last
  have here := @besideLock s t (.onTable (fdOf tabName)) .exclusive
  rw [LockManager.lockExclusiveOnTable] at locked
  rwa [locked] at here

theorem scanRead {scan : SmManager → Visited} {rids : List Rid} (run : Dml.collect scan s = .ok rids s') : s = s' := by
  rw [Dml.collect,getBind] at run
  generalize scan s.smManager = visited at run
  obtain ⟨visited,fault⟩ := visited
  cases fault with
  | none =>
    cases run
    rfl
  | some e => cases run

theorem newTurns (run : (do
    let tab ← tableMeta tabName
    lockTable fdOf t tabName
    pure tab : M TransactionManager TabMeta) s = .ok tab s') : Beside s s' := by
  obtain ⟨_,_,listed,run⟩ := bindOk.mp run
  rw [tableMeta,getBind] at listed
  obtain ⟨_,rfl⟩ := ofExceptDone listed
  obtain ⟨_,_,locked,last⟩ := bindOk.mp run
  cases last
  exact lockTurns locked

theorem dmlTurns [FloatOps] (stmt : Dml) (run : stmt.run fdOf t s = .ok () s') : Relation.ReflTransGen (Turn t) s s' := by
  cases stmt with
  | insert tabName values =>
    rw [Dml.run,InsertExecutor.new] at run
    obtain ⟨tab,s₁,opened,run⟩ := bindOk.mp run
    obtain ⟨_,_,listed,opened⟩ := bindOk.mp opened
    rw [tableMeta,getBind] at listed
    obtain ⟨_,rfl⟩ := ofExceptDone listed
    split at opened
    · cases opened
    · obtain ⟨_,_,locked,last⟩ := bindOk.mp opened
      cases last
      obtain ⟨record,s₂,row,rest⟩ := insertTurn run
      have here := @Turn.insert t s₁ tabName record
      rw [row] at here
      exact .head (.beside (lockTurns locked)) (.head here (.single (.beside rest)))
  | delete tabName scan =>
    rw [Dml.run] at run
    obtain ⟨_,s₁,locked,run⟩ := bindOk.mp run
    obtain ⟨rids,_,scanned,run⟩ := bindOk.mp run
    obtain rfl := scanRead scanned
    obtain ⟨tab,s₂,opened,run⟩ := bindOk.mp run
    refine .head (.beside ((lockTurns locked).trans (newTurns opened))) (loopTurns rids (fun rid u u' turn => ?_) run)
    obtain ⟨u₁,row,rest⟩ := deleteTurn turn
    have here := @Turn.delete t u tabName rid
    rw [row] at here
    exact .head here (.single (.beside rest))
  | update tabName setClauses scan =>
    rw [Dml.run] at run
    obtain ⟨_,s₁,locked,run⟩ := bindOk.mp run
    obtain ⟨rids,_,scanned,run⟩ := bindOk.mp run
    obtain rfl := scanRead scanned
    obtain ⟨tab,s₂,opened,run⟩ := bindOk.mp run
    refine .head (.beside ((lockTurns locked).trans (newTurns opened))) (loopTurns rids (fun rid u u' turn => ?_) run)
    obtain ⟨record,u₁,before,row⟩ := updateTurn turn
    have here := @Turn.update t u₁ tabName rid record
    rw [row] at here
    exact .head (.beside before) (.single here)

end Statements
end Rmdb
