import Rmdb.Execution.SeqScan
import Rmdb.Transaction.TransactionManager

/-! `InsertExecutor`, `DeleteExecutor` and `UpdateExecutor`, and how a session runs them. `fdOf` is
the file descriptor of a table, the transaction is the one of the context. -/
namespace Rmdb
open Record Index Recovery TransactionManager

def copyInto (record : Bytes) (offset : Nat) (src : Bytes) : Bytes :=
  record.take offset ++ src ++ record.drop (offset+src.length)

-- one column of a new record: `cast_value_to_col_type`, `init_raw`, `memcpy`
def setColumn [FloatOps] (record : Bytes) (col : ColMeta) (value : Value) : Except Fault Bytes := do
  let val ← castValueToColType value col
  let val ← val.initRaw col.len
  .ok (copyInto record col.offset (val.raw.getD []))

def ensureIndexKeyUnique (ih : IxHandle) (key : Bytes) (selfRid : Option Rid) : Except Fault Unit := do
  let hits ← eval (IxHandle.getValue key) ih
  match hits with
  | [] => .ok ()
  | hit :: _ => if selfRid = some hit then .ok () else .error (.error (.plain "Unique index constraint violated"))

def logRecord (txn : Int) (record : LogRecord) : M TransactionManager Unit := do
  appendLog txn record
  flushLog

def appendWriteRecord (txn : Int) (writeRecord : WriteRecord) : M TransactionManager Unit :=
  modifyTxn txn fun object => {object with writeSet := object.writeSet ++ [writeRecord]}

def tableFile (tabName : String) : M TransactionManager RmFileHandle := do
  let s ← get
  ofExcept (s.smManager.fileHandle tabName)

def tableMeta (tabName : String) : M TransactionManager TabMeta := do
  let s ← get
  ofExcept (s.smManager.db.getTable tabName)

def lockTable (fdOf : String → Int) (txn : Int) (tabName : String) : M TransactionManager Unit := do
  let _ ← tableFile tabName
  let _ ← withLocks txn (LockManager.lockExclusiveOnTable (fdOf tabName))
  pure ()

namespace InsertExecutor

def new (fdOf : String → Int) (txn : Int) (tabName : String) (values : List Value) : M TransactionManager TabMeta := do
  let tab ← tableMeta tabName
  if values.length ≠ tab.cols.length then raise .invalidValueCount else
    lockTable fdOf txn tabName
    pure tab

/- `RmRecord rec(record_size)` is not initialised; the columns of a table cover its records. -/
def makeRecord [FloatOps] (tab : TabMeta) (values : List Value) (recordSize : Nat) : Except Fault Bytes :=
  (values.zip tab.cols).foldlM (fun record (value,col) => setColumn record col value) (List.replicate recordSize 0)

def checkUnique (sm : SmManager) (tab : TabMeta) (tabName : String) (record : Bytes) : Except Fault Unit :=
  tab.indexes.forM fun index => do
    let ih ← sm.indexHandle tabName index
    ensureIndexKeyUnique ih (buildIndexKey index record) none

def insertEntries (tab : TabMeta) (tabName : String) (record : Bytes) (rid : Rid) : M SmManager Unit :=
  tab.indexes.forM fun index => do
    let sm ← get
    let _ ← ofExcept (sm.indexHandle tabName index)
    SmManager.onIndex tabName index (IxHandle.insertEntry (buildIndexKey index record) rid)

def next [FloatOps] (txn : Int) (tab : TabMeta) (tabName : String) (values : List Value) : M TransactionManager Unit := do
  let fh ← tableFile tabName
  let record ← ofExcept (makeRecord tab values fh.fileHdr.recordSize)
  let s ← get
  ofExcept (checkUnique s.smManager tab tabName record)
  let rid ← onSm (SmManager.onFile tabName (RmFileHandle.insertRecord record))
  logRecord txn (.insertLogRecord txn record rid tabName)
  appendWriteRecord txn ⟨.insertTuple,tabName,rid,[]⟩
  onSm (insertEntries tab tabName record rid)

end InsertExecutor

namespace DeleteExecutor

def new (fdOf : String → Int) (txn : Int) (tabName : String) : M TransactionManager TabMeta := do
  let tab ← tableMeta tabName
  lockTable fdOf txn tabName
  pure tab

def deleteRow (txn : Int) (tab : TabMeta) (tabName : String) (rid : Rid) : M TransactionManager Unit := do
  let fh ← tableFile tabName
  let record ← ofExcept (fh.getRecord rid)
  logRecord txn (.deleteLogRecord txn record rid tabName)
  appendWriteRecord txn ⟨.deleteTuple,tabName,rid,record⟩
  onSm (deleteIndexEntries tab tabName record)
  onSm (SmManager.onFile tabName (RmFileHandle.deleteRecord rid))

def next (txn : Int) (tab : TabMeta) (tabName : String) (rids : List Rid) : M TransactionManager Unit :=
  rids.forM (deleteRow txn tab tabName)

end DeleteExecutor

namespace UpdateExecutor

def new (fdOf : String → Int) (txn : Int) (tabName : String) : M TransactionManager TabMeta := do
  let tab ← tableMeta tabName
  lockTable fdOf txn tabName
  pure tab

def newRecord [FloatOps] (tab : TabMeta) (setClauses : List SetClause) (oldRecord : Bytes) : Except Fault Bytes :=
  setClauses.foldlM (fun record setClause => do
    let col ← tab.getCol setClause.lhs.colName
    setColumn record col setClause.rhs) oldRecord

def checkUnique (sm : SmManager) (tab : TabMeta) (tabName : String) (rid : Rid) (oldRecord newRecord : Bytes) :
    Except Fault Unit :=
  tab.indexes.forM fun index =>
    match sm.ihs (IxManager.getIndexName tabName (ranks index.cols)) with
    | none => .ok ()
    | some ih =>
      if buildIndexKey index oldRecord ≠ buildIndexKey index newRecord then
        ensureIndexKeyUnique ih (buildIndexKey index newRecord) (some rid)
      else .ok ()

def replaceEntries (tab : TabMeta) (tabName : String) (rid : Rid) (oldRecord newRecord : Bytes) : M SmManager Unit :=
  tab.indexes.forM fun index =>
    if buildIndexKey index oldRecord ≠ buildIndexKey index newRecord then
      SmManager.onIndex tabName index do
        let _ ← IxHandle.deleteEntry (buildIndexKey index oldRecord)
        IxHandle.insertEntry (buildIndexKey index newRecord) rid
    else pure ()

def updateRow [FloatOps] (txn : Int) (tab : TabMeta) (tabName : String) (setClauses : List SetClause) (rid : Rid) :
    M TransactionManager Unit := do
  let fh ← tableFile tabName
  let oldRecord ← ofExcept (fh.getRecord rid)
  appendWriteRecord txn ⟨.updateTuple,tabName,rid,oldRecord⟩
  let newRecord ← ofExcept (newRecord tab setClauses oldRecord)
  let s ← get
  ofExcept (checkUnique s.smManager tab tabName rid oldRecord newRecord)
  onSm (replaceEntries tab tabName rid oldRecord newRecord)
  logRecord txn (.updateLogRecord txn oldRecord newRecord rid tabName)
  onSm (SmManager.onFile tabName (RmFileHandle.updateRecord rid newRecord))

def next [FloatOps] (txn : Int) (tab : TabMeta) (tabName : String) (setClauses : List SetClause) (rids : List Rid) :
    M TransactionManager Unit :=
  rids.forM (updateRow txn tab tabName setClauses)

end UpdateExecutor

/- A statement as the portal gets it. `scan` is the executor of the plan below it. -/
inductive Dml where
  | insert (tabName : String) (values : List Value)
  | delete (tabName : String) (scan : SmManager → Visited)
  | update (tabName : String) (setClauses : List SetClause) (scan : SmManager → Visited)

namespace Dml

def collect (scan : SmManager → Visited) : M TransactionManager (List Rid) := do
  let s ← get
  match scan s.smManager with
  | (rids,none) => pure rids
  | (_,some e) => throw e

def run [FloatOps] (fdOf : String → Int) (txn : Int) : Dml → M TransactionManager Unit
  | .insert tabName values => do
    let tab ← InsertExecutor.new fdOf txn tabName values
    InsertExecutor.next txn tab tabName values
  | .delete tabName scan => do
    lockTable fdOf txn tabName
    let rids ← collect scan
    let tab ← DeleteExecutor.new fdOf txn tabName
    DeleteExecutor.next txn tab tabName rids
  | .update tabName setClauses scan => do
    lockTable fdOf txn tabName
    let rids ← collect scan
    let tab ← UpdateExecutor.new fdOf txn tabName
    UpdateExecutor.next txn tab tabName setClauses rids

end Dml

end Rmdb
