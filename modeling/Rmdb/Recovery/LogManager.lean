import Rmdb.Defs

/-! Log records and `LogManager`. A record is the object that `serialize` writes; the buffer and
the file `db.log` are the records whose bytes they hold, in order. -/
namespace Rmdb.Recovery

inductive LogData where
  | update (oldValue newValue : Bytes) (rid : Rid) (tableName : String)
  | insert (insertValue : Bytes) (rid : Rid) (tableName : String)
  | delete (deleteValue : Bytes) (rid : Rid) (tableName : String)
  | begin
  | commit
  | abort
  deriving DecidableEq, Repr

structure LogRecord where
  lsn : Int
  logTid : Int
  prevLsn : Int
  data : LogData
  deriving DecidableEq, Repr

def logHeaderSize : Nat := 20
def logBufferSize : Nat := 1024*pageSize

namespace LogRecord

-- the constructors of the source: no number yet, and the fields each kind adds
def beginLogRecord (txnId : Int) : LogRecord := ⟨invalidLsn,txnId,invalidLsn,.begin⟩
def commitLogRecord (txnId : Int) : LogRecord := ⟨invalidLsn,txnId,invalidLsn,.commit⟩
def abortLogRecord (txnId : Int) : LogRecord := ⟨invalidLsn,txnId,invalidLsn,.abort⟩

def insertLogRecord (txnId : Int) (insertValue : Bytes) (rid : Rid) (tableName : String) : LogRecord :=
  ⟨invalidLsn,txnId,invalidLsn,.insert insertValue rid tableName⟩

def deleteLogRecord (txnId : Int) (deleteValue : Bytes) (rid : Rid) (tableName : String) : LogRecord :=
  ⟨invalidLsn,txnId,invalidLsn,.delete deleteValue rid tableName⟩

def updateLogRecord (txnId : Int) (oldValue newValue : Bytes) (rid : Rid) (tableName : String) : LogRecord :=
  ⟨invalidLsn,txnId,invalidLsn,.update oldValue newValue rid tableName⟩

def logTotLen (record : LogRecord) : Nat :=
  match record.data with
  | .update old new _ tab => logHeaderSize+(4+old.length)+(4+new.length)+8+(8+tab.utf8ByteSize)
  | .insert value _ tab => logHeaderSize+4+value.length+8+(8+tab.utf8ByteSize)
  | .delete value _ tab => logHeaderSize+(4+value.length+8)+(8+tab.utf8ByteSize)
  | .begin | .commit | .abort => logHeaderSize

end LogRecord

structure LogManager where
  globalLsn : Int
  logBuffer : List LogRecord
  persistLsn : Int
  logFile : List LogRecord

namespace LogManager

def offset (s : LogManager) : Nat := (s.logBuffer.map LogRecord.logTotLen).sum

def isFull (s : LogManager) (appendSize : Nat) : Bool := s.offset+appendSize > logBufferSize

def writeLog (s : LogManager) : LogManager := {s with logFile := s.logFile ++ s.logBuffer, logBuffer := []}

def addLogToBuffer (logRecord : LogRecord) : M LogManager Int := do
  let s ← get
  if s.isFull logRecord.logTotLen then
    let persistLsn := if logRecord.lsn ≠ invalidLsn then logRecord.lsn-1 else s.persistLsn
    set {s.writeLog with persistLsn := persistLsn}
  let s ← get
  set {s with
    globalLsn := s.globalLsn+1
    logBuffer := s.logBuffer ++ [{logRecord with lsn := s.globalLsn}]}
  pure s.globalLsn

def flushLogToDisk : M LogManager Unit := do
  let s ← get
  match s.logBuffer.getLast? with
  | none => pure ()
  | some last => set {s.writeLog with persistLsn := last.lsn}

def all (s : LogManager) : List LogRecord := s.logFile ++ s.logBuffer

theorem addRun (logRecord : LogRecord) (s : LogManager) : ∃ t,
    addLogToBuffer logRecord s = .ok s.globalLsn t ∧ t.globalLsn = s.globalLsn+1 ∧
    t.all = s.all ++ [{logRecord with lsn := s.globalLsn}] ∧ s.logFile <+: t.logFile := by
  rw [addLogToBuffer,getBind]
  split
  · refine ⟨_,rfl,rfl,?_,List.prefix_append _ _⟩
    simp [all,writeLog]
  · refine ⟨_,rfl,rfl,?_,List.prefix_rfl⟩
    simp [all]

theorem flushRun (s : LogManager) : ∃ t, flushLogToDisk s = .ok () t ∧ t.globalLsn = s.globalLsn ∧
    t.all = s.all ∧ t.logFile = s.all := by
  rw [flushLogToDisk,getBind]
  cases last : s.logBuffer.getLast? with
  | none =>
    have empty : s.logBuffer = [] := List.getLast?_eq_none_iff.mp last
    exact ⟨s,rfl,rfl,rfl,by simp [all,empty]⟩
  | some record => exact ⟨_,rfl,rfl,by simp [all,writeLog],rfl⟩

end LogManager
end Rmdb.Recovery
