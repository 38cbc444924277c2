import Rmdb.System.SmManager
import Rmdb.Recovery.LogManager

/-! `RecoveryManager`: the two passes over the records that `read_all_logs` returns. -/
namespace Rmdb.Recovery
open Record Index

def recordExists (fh : RmFileHandle) (rid : Rid) : Bool :=
  if rid.pageNo < rmFirstRecordPage ∨ fh.fileHdr.numPages ≤ rid.pageNo ∨ rid.slotNo < 0 ∨
      fh.fileHdr.numRecordsPerPage ≤ rid.slotNo then false
  else match fh.isRecord rid with
    | .ok exists_ => exists_
    | .error _ => false

def ensurePageExists (rid : Rid) : Nat → M RmFileHandle Unit
  | 0 => throw .fuel
  | fuel+1 => do
    let fh ← get
    if fh.fileHdr.numPages ≤ rid.pageNo then
      let _ ← RmFileHandle.createNewPageHandle
      ensurePageExists rid fuel
    else pure ()

def putRecordAt (rid : Rid) (record : Bytes) : M RmFileHandle Unit := do
  let fh ← get
  ensurePageExists rid ((rid.pageNo-fh.fd2pageno).toNat+2)
  let fh ← get
  if recordExists fh rid then RmFileHandle.updateRecord rid record
  else RmFileHandle.insertRecordAt rid record

def removeRecordAt (rid : Rid) : M RmFileHandle Unit := do
  let fh ← get
  if recordExists fh rid then RmFileHandle.deleteRecord rid

namespace RecoveryManager

def committedTxns (logs : List LogRecord) : List Int := (logs.filter fun log => log.data = .commit).map LogRecord.logTid

def redoRecord (committed : List Int) (log : LogRecord) : M SmManager Unit :=
  if log.logTid ∉ committed then pure () else
    match log.data with
    | .insert value rid tab => SmManager.onFile tab (putRecordAt rid value)
    | .delete _ rid tab => SmManager.onFile tab (removeRecordAt rid)
    | .update _ value rid tab => SmManager.onFile tab (putRecordAt rid value)
    | .begin | .commit | .abort => pure ()

def redo (logs : List LogRecord) : M SmManager Unit := logs.forM (redoRecord (committedTxns logs))

def allTxns (logs : List LogRecord) : List Int := (logs.map LogRecord.logTid).filter fun tid => tid ≠ invalidTxnId

def finishedTxns (logs : List LogRecord) : List Int :=
  (logs.filter fun log => log.data = .commit ∨ log.data = .abort).map LogRecord.logTid

def undoRecord (all finished : List Int) (log : LogRecord) : M SmManager Unit :=
  if log.logTid ∉ all ∨ log.logTid ∈ finished then pure () else
    match log.data with
    | .insert _ rid tab => SmManager.onFile tab (removeRecordAt rid)
    | .delete value rid tab => SmManager.onFile tab (putRecordAt rid value)
    | .update value _ rid tab => SmManager.onFile tab (putRecordAt rid value)
    | .begin | .commit | .abort => pure ()

def undoRecords (logs : List LogRecord) : M SmManager Unit :=
  logs.reverse.forM (undoRecord (allTxns logs) (finishedTxns logs))

def recoverRecords (logs : List LogRecord) : M SmManager Unit := do
  redo logs
  undoRecords logs

end RecoveryManager
end Rmdb.Recovery
