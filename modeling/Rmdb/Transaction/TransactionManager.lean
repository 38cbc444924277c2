import Rmdb.System.SmManager
import Rmdb.Recovery.LogManager
import Rmdb.Transaction.LockManager

/-! `TransactionManager`, with the managers it works on. A transaction pointer is the id under
which `begin` put the object into `txn_map`. -/
namespace Rmdb
open Record Index Recovery

structure TransactionManager where
  nextTxnId : Int
  nextTimestamp : Int
  txnMap : Int → Option Transaction
  lockManager : LockManager
  logManager : LogManager
  smManager : SmManager

def deleteIndexEntries (tab : TabMeta) (tableName : String) (record : Bytes) : M SmManager Unit :=
  tab.indexes.forM fun index => SmManager.onIndex tableName index do
    let _ ← IxHandle.deleteEntry (buildIndexKey index record)
    pure ()

def insertIndexEntries (tab : TabMeta) (tableName : String) (record : Bytes) (rid : Rid) : M SmManager Unit :=
  tab.indexes.forM fun index => SmManager.onIndex tableName index do
    IxHandle.insertEntry (buildIndexKey index record) rid

namespace TransactionManager

def withLocks {α : Type} (txn : Int) (x : M (Transaction × LockManager) α) : M TransactionManager α := fun s =>
  match s.txnMap txn with
  | none => .error .mapAt s
  | some object => zoom (fun s => (object,s.lockManager))
      (fun p s => {s with txnMap := Function.update s.txnMap txn (some p.1), lockManager := p.2}) x s

def modifyTxn (txn : Int) (f : Transaction → Transaction) : M TransactionManager Unit :=
  modify fun s => {s with txnMap := Function.update s.txnMap txn ((s.txnMap txn).map f)}

def getTxn (txn : Int) : M TransactionManager Transaction := do
  let s ← get
  match s.txnMap txn with
  | some object => pure object
  | none => throw .mapAt

def onSm {α : Type} (x : M SmManager α) : M TransactionManager α :=
  zoom smManager (fun sm s => {s with smManager := sm}) x

def onLog {α : Type} (x : M LogManager α) : M TransactionManager α :=
  zoom logManager (fun lm s => {s with logManager := lm}) x

def appendLog (txn : Int) (record : LogRecord) : M TransactionManager Unit := do
  let object ← getTxn txn
  let lsn ← onLog (LogManager.addLogToBuffer {record with prevLsn := object.prevLsn})
  modifyTxn txn fun object => {object with prevLsn := lsn}

def flushLog : M TransactionManager Unit := onLog LogManager.flushLogToDisk

def begin (txn : Option Int) : M TransactionManager Int := do
  let id ← match txn with
    | some id => pure id
    | none => do
      let s ← get
      set {s with
        nextTxnId := s.nextTxnId+1
        txnMap := Function.update s.txnMap s.nextTxnId (some (Transaction.new s.nextTxnId))}
      pure s.nextTxnId
  let s ← get
  set {s with nextTimestamp := s.nextTimestamp+1}
  modifyTxn id fun object => {object with startTs := s.nextTimestamp, state := .growing}
  appendLog id (.beginLogRecord id)
  pure id

/- `std::vector<LockDataId> locks(lock_set->begin(), lock_set->end())` and the loop over it. The
order in which an `unordered_set` is read is the argument `order`. -/
def releaseLocks (txn : Int) (order : List LockDataId) : M TransactionManager Unit := do
  order.forM fun id => do
    let _ ← withLocks txn (LockManager.unlock id)
    pure ()
  modifyTxn txn fun object => {object with lockSet := []}

def ended (state : TransactionState) : Bool := state = .committed ∨ state = .aborted

def commit (txn : Int) (order : List LockDataId) : M TransactionManager Unit := do
  let object ← getTxn txn
  if ended object.state then pure () else
    appendLog txn (.commitLogRecord txn)
    flushLog
    modifyTxn txn fun object => {object with writeSet := []}
    releaseLocks txn order
    modifyTxn txn fun object => {object with state := .committed}

-- one turn of the loop of `abort`, for a record already taken off the write set
def undoWrite (writeRecord : WriteRecord) : M SmManager Unit := do
  let sm ← get
  let tableName := writeRecord.tabName
  let tab ← ofExcept (sm.db.getTable tableName)
  let fh ← ofExcept (sm.fileHandle tableName)
  match writeRecord.wtype with
  | .insertTuple => do
    if ← ofExcept (fh.isRecord writeRecord.rid) then
      let record ← ofExcept (fh.getRecord writeRecord.rid)
      deleteIndexEntries tab tableName record
      SmManager.onFile tableName (RmFileHandle.deleteRecord writeRecord.rid)
  | .deleteTuple => do
    SmManager.onFile tableName (RmFileHandle.insertRecordAt writeRecord.rid writeRecord.record)
    insertIndexEntries tab tableName writeRecord.record writeRecord.rid
  | .updateTuple => do
    if ← ofExcept (fh.isRecord writeRecord.rid) then
      let currentRecord ← ofExcept (fh.getRecord writeRecord.rid)
      tab.indexes.forM fun index => do
        let oldKey := buildIndexKey index writeRecord.record
        let currentKey := buildIndexKey index currentRecord
        if oldKey ≠ currentKey then
          SmManager.onIndex tableName index do
            let _ ← IxHandle.deleteEntry currentKey
            IxHandle.insertEntry oldKey writeRecord.rid
      SmManager.onFile tableName (RmFileHandle.updateRecord writeRecord.rid writeRecord.record)

def undoWrites (txn : Int) : List WriteRecord → M TransactionManager Unit
  | [] => pure ()
  | writeRecord :: before => do
    modifyTxn txn fun object => {object with writeSet := object.writeSet.dropLast}
    onSm (undoWrite writeRecord)
    undoWrites txn before

def abort (txn : Int) (order : List LockDataId) : M TransactionManager Unit := do
  let object ← getTxn txn
  if ended object.state then pure () else
    undoWrites txn object.writeSet.reverse
    releaseLocks txn order
    appendLog txn (.abortLogRecord txn)
    flushLog
    modifyTxn txn fun object => {object with state := .aborted}

end TransactionManager
end Rmdb
