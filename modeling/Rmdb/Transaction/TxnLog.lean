import Rmdb.Transaction.LockSafety

/-! What the transaction manager writes to the log. -/
namespace Rmdb.TransactionManager
open Recovery

variable {s s' : TransactionManager} {t : Int} {txn : Transaction} {record : LogRecord}

def log (s : TransactionManager) : List LogRecord := s.logManager.all

structure Logged (s s' : TransactionManager) (t : Int) (data : LogData) : Prop where
  log : ∃ r, s'.log = s.log ++ [r] ∧ r.logTid = t ∧ r.data = data
  file : s.logManager.logFile <+: s'.logManager.logFile
  same : SameLocks s s'

theorem appendLogged (found : s.txnMap t = some txn) (own : record.logTid = t) :
    ∃ s', appendLog t record s = .ok () s' ∧ Logged s s' t record.data := by
  obtain ⟨lm,run,_,all,file⟩ := LogManager.addRun {record with prevLsn := txn.prevLsn} s.logManager
  have same := @quietAppendLog t record s
  rw [appendLog,bindEq (getTxnRun found),bindEq (onLogOk run)] at same ⊢
  exact ⟨_,rfl,⟨_,all,own,rfl⟩,file,same⟩

theorem flushed (s : TransactionManager) : ∃ s', flushLog s = .ok () s' ∧ s'.log = s.log ∧
    s'.logManager.logFile = s.log ∧ SameLocks s s' := by
  obtain ⟨lm,run,_,all,file⟩ := LogManager.flushRun s.logManager
  have same := quietOnLog LogManager.flushLogToDisk s
  rw [onLogOk run] at same
  exact ⟨_,onLogOk run,all,file,same⟩

theorem beginLogged (s : TransactionManager) : ∃ s', begin none s = .ok s.nextTxnId s' ∧
    Logged s.addTxn s' s.nextTxnId .begin := by
  obtain ⟨txn,found⟩ := stampFound s
  obtain ⟨s',run,logged⟩ := @appendLogged s.stampTxn _ _ (.beginLogRecord s.nextTxnId) found rfl
  refine ⟨s',?_,logged.log,logged.file,logged.same.next,logged.same.table,logged.same.txns⟩
  rw [beginCall,bindEq run]
  rfl

theorem appendSm : (after (appendLog t record s)).smManager = s.smManager := by
  cases found : s.txnMap t with
  | none =>
    have missing : getTxn t s = .error .mapAt s := by
      rw [getTxn,getBind]
      simp only [found,throwRun]
    rw [appendLog,bindError missing]
    rfl
  | some txn =>
    obtain ⟨lm,added,_⟩ := LogManager.addRun {record with prevLsn := txn.prevLsn} s.logManager
    rw [appendLog,bindEq (getTxnRun found),bindEq (onLogOk added)]
    rfl

theorem beginSm (s : TransactionManager) : (after (begin none s)).smManager = s.smManager := by
  obtain ⟨txn,found⟩ := stampFound s
  obtain ⟨s',run⟩ := appendLogRun (.beginLogRecord s.nextTxnId) found
  have kept := @appendSm s.stampTxn s.nextTxnId (.beginLogRecord s.nextTxnId)
  rw [run] at kept
  rw [beginCall,bindEq run]
  exact kept

theorem bufferMem {file file' buffer buffer' : List LogRecord} {r x : LogRecord} (part : file <+: file')
    (all : file' ++ buffer' = file ++ buffer ++ [x]) (mem : r ∈ buffer') : r ∈ buffer ∨ r = x := by
  obtain ⟨moved,rfl⟩ := part
  rw [List.append_assoc,List.append_assoc] at all
  have same := List.append_cancel_left all
  have here : r ∈ buffer ++ [x] := same ▸ List.mem_append_right moved mem
  simpa using here

theorem filePrefix (s : TransactionManager) : s.logManager.logFile <+: s.log := List.prefix_append _ _

end Rmdb.TransactionManager
