import Rmdb.Common.RawData

/-! Log records as bytes: what the constructors set, what `serialize` writes and what
`parse_log_record` reads. The fields have the widths of the source. -/
namespace Rmdb.Recovery.Codec

-- a buffer whose size is kept in an `int`, and one whose size is kept in a `size_t`
abbrev RmRecord := {bytes : Bytes // bytes.length < 2^31}
abbrev TableName := {bytes : Bytes // bytes.length < 2^64}

structure Rid where
  pageNo : Int32
  slotNo : Int32
  deriving DecidableEq, Repr

inductive LogData where
  | update (oldValue newValue : RmRecord) (rid : Rid) (tableName : TableName)
  | insert (insertValue : RmRecord) (rid : Rid) (tableName : TableName)
  | delete (deleteValue : RmRecord) (rid : Rid) (tableName : TableName)
  | begin
  | commit
  | abort
  deriving DecidableEq, Repr

structure LogRecord where
  lsn : Int32
  logTotLen : UInt32
  logTid : Int32
  prevLsn : Int32
  data : LogData
  deriving DecidableEq, Repr

def LogData.logType : LogData → Int
  | .update .. => 0
  | .insert .. => 1
  | .delete .. => 2
  | .begin => 3
  | .commit => 4
  | .abort => 5

def logHeaderSize : Nat := 20
def offsetLogTotLen : Nat := 8

section Constructors
variable (txnId : Int32) (oldValue newValue value : RmRecord) (rid : Rid) (tableName : TableName)

def header (txnId : Int32) (data : LogData) : LogRecord := ⟨-1,20,txnId,-1,data⟩

def LogRecord.lengthen (record : LogRecord) (size : Nat) : LogRecord :=
  {record with logTotLen := record.logTotLen+UInt32.ofNat size}

def beginLogRecord : LogRecord := header txnId .begin
def commitLogRecord : LogRecord := header txnId .commit
def abortLogRecord : LogRecord := header txnId .abort

def insertLogRecord : LogRecord :=
  ((((header txnId (.insert value rid tableName)).lengthen 4).lengthen value.val.length).lengthen 8).lengthen
    (8+tableName.val.length)

def deleteLogRecord : LogRecord :=
  ((header txnId (.delete value rid tableName)).lengthen (4+value.val.length+8)).lengthen (8+tableName.val.length)

def updateLogRecord : LogRecord :=
  ((((header txnId (.update oldValue newValue rid tableName)).lengthen (4+oldValue.val.length)).lengthen
    (4+newValue.val.length)).lengthen 8).lengthen (8+tableName.val.length)

end Constructors

inductive Made : LogRecord → Prop
  | begin (lsn prevLsn txnId : Int32) : Made {beginLogRecord txnId with lsn := lsn, prevLsn := prevLsn}
  | commit (lsn prevLsn txnId : Int32) : Made {commitLogRecord txnId with lsn := lsn, prevLsn := prevLsn}
  | abort (lsn prevLsn txnId : Int32) : Made {abortLogRecord txnId with lsn := lsn, prevLsn := prevLsn}
  | insert (lsn prevLsn txnId : Int32) (value : RmRecord) (rid : Rid) (tableName : TableName) :
    Made {insertLogRecord txnId value rid tableName with lsn := lsn, prevLsn := prevLsn}
  | delete (lsn prevLsn txnId : Int32) (value : RmRecord) (rid : Rid) (tableName : TableName) :
    Made {deleteLogRecord txnId value rid tableName with lsn := lsn, prevLsn := prevLsn}
  | update (lsn prevLsn txnId : Int32) (oldValue newValue : RmRecord) (rid : Rid) (tableName : TableName) :
    Made {updateLogRecord txnId oldValue newValue rid tableName with lsn := lsn, prevLsn := prevLsn}

section Serialize

def intPiece (v : Int32) : Bytes := leBytes 4 v.toInt

def valuePieces (value : RmRecord) : List Bytes := [leBytes 4 value.val.length,value.val]

def ridPieces (rid : Rid) : List Bytes := [intPiece rid.pageNo,intPiece rid.slotNo]

def namePieces (tableName : TableName) : List Bytes := [leBytes 8 tableName.val.length,tableName.val]

def LogData.pieces : LogData → List Bytes
  | .update old new rid name => valuePieces old ++ valuePieces new ++ ridPieces rid ++ namePieces name
  | .insert value rid name => valuePieces value ++ ridPieces rid ++ namePieces name
  | .delete value rid name => valuePieces value ++ ridPieces rid ++ namePieces name
  | .begin | .commit | .abort => []

def LogRecord.pieces (record : LogRecord) : List Bytes :=
  [leBytes 4 record.data.logType,intPiece record.lsn,leBytes 4 record.logTotLen.toNat,intPiece record.logTid,
    intPiece record.prevLsn] ++ record.data.pieces

def copyPieces : Nat → List Bytes → Except Fault Bytes
  | _,[] => .ok []
  | offset,piece :: pieces =>
    if offset < 2^31 then (copyPieces (offset+piece.length) pieces).map (piece ++ ·) else .error .outOfRange

def LogRecord.serialize (record : LogRecord) : Except Fault Bytes := copyPieces 0 record.pieces

def LogRecord.bytes (record : LogRecord) : Bytes := record.pieces.flatten

end Serialize

section Deserialize

/- The position in the source's data: the running `offset` and what is left from there on. -/
structure Cursor where
  offset : Nat
  rest : Bytes
  deriving DecidableEq, Repr

def read (n : Nat) : M Cursor Bytes := fun c =>
  if c.offset < 2^31 ∧ n ≤ c.rest.length then .ok (c.rest.take n) ⟨c.offset+n,c.rest.drop n⟩ else .error .outOfRange c

def readInt : M Cursor Int := do pure (leInt (← read 4))

def readInt32 : M Cursor Int32 := do pure (Int32.ofInt (← readInt))

def readRid : M Cursor Rid := do
  let pageNo ← readInt32
  let slotNo ← readInt32
  pure ⟨pageNo,slotNo⟩

def sized (bound : Nat) (bytes : Bytes) : M Cursor {bytes : Bytes // bytes.length < bound} :=
  if fits : bytes.length < bound then pure ⟨bytes,fits⟩ else throw .outOfRange

/- `RmRecord::Deserialize`; `new char[size]` throws for a negative size. -/
def readValue : M Cursor RmRecord := do
  let size ← readInt
  if size < 0 then throw .outOfRange
  let bytes ← read size.toNat
  sized _ bytes

def readName : M Cursor TableName := do
  let size ← read 8
  let bytes ← read (leNat size)
  sized _ bytes

def readData (logType : Int) : Option (M Cursor LogData) :=
  if logType = 0 then some do
    let oldValue ← readValue
    let newValue ← readValue
    let rid ← readRid
    pure (.update oldValue newValue rid (← readName))
  else if logType = 1 then some do
    let value ← readValue
    let rid ← readRid
    pure (.insert value rid (← readName))
  else if logType = 2 then some do
    let value ← readValue
    let rid ← readRid
    pure (.delete value rid (← readName))
  else if logType = 3 then some (pure .begin)
  else if logType = 4 then some (pure .commit)
  else if logType = 5 then some (pure .abort)
  else none

def deserialize (data : M Cursor LogData) : M Cursor LogRecord := do
  let lsn ← readInt32
  let logTotLen ← read 4
  let logTid ← readInt32
  let prevLsn ← readInt32
  pure ⟨lsn,UInt32.ofNat (leNat logTotLen),logTid,prevLsn,← data⟩

def parseLogRecord (data : Bytes) : Except Fault (Option LogRecord) :=
  eval (do
    match readData (← readInt) with
    | none => pure none
    | some reader => some <$> deserialize reader) ⟨0,data⟩

end Deserialize

section RoundTrip
variable {c : Cursor} {o : Nat} {rest : Bytes}

theorem readRun (piece : Bytes) (fits : o < 2^31) : read piece.length ⟨o,piece ++ rest⟩ = .ok piece ⟨o+piece.length,rest⟩ := by
  rw [read,if_pos ⟨fits,by simp⟩,List.take_left,List.drop_left]

theorem readIntRun {v : Int} (low : -2^31 ≤ v) (high : v < 2^31) (fits : o < 2^31) :
    readInt ⟨o,leBytes 4 v ++ rest⟩ = .ok v ⟨o+4,rest⟩ := by
  have part := @readRun o rest (leBytes 4 v) fits
  rw [leBytesLength] at part
  rw [readInt,bindEq part,leIntBytes (by norm_num; omega) (by norm_num; omega)]
  rfl

theorem readInt32Run (v : Int32) (fits : o < 2^31) : readInt32 ⟨o,intPiece v ++ rest⟩ = .ok v ⟨o+4,rest⟩ := by
  have part := @readIntRun o rest v.toInt v.le_toInt v.toInt_lt fits
  rw [readInt32,intPiece,bindEq part,Int32.ofInt_toInt]
  rfl

theorem readRidRun (rid : Rid) (fits : o+8 < 2^31) :
    readRid ⟨o,(ridPieces rid).flatten ++ rest⟩ = .ok rid ⟨o+8,rest⟩ := by
  have page := @readInt32Run o (intPiece rid.slotNo ++ rest) rid.pageNo (by omega)
  have slot := @readInt32Run (o+4) rest rid.slotNo (by omega)
  simp only [ridPieces,List.flatten_cons,List.flatten_nil,List.append_nil,List.append_assoc]
  rw [readRid,bindEq page,bindEq slot]
  rfl

theorem sizedRun {bound : Nat} (v : {bytes : Bytes // bytes.length < bound}) : sized bound v.val c = .ok v c := by
  rw [sized,dif_pos v.property]
  rfl

theorem readValueRun (value : RmRecord) (fits : o+4 < 2^31) : readValue ⟨o,(valuePieces value).flatten ++ rest⟩ =
    .ok value ⟨o+4+value.val.length,rest⟩ := by
  have small := value.property
  have size := @readIntRun o (value.val ++ rest) value.val.length (by omega) (by omega) (by omega)
  have bytes := @readRun (o+4) rest value.val fits
  simp only [valuePieces,List.flatten_cons,List.flatten_nil,List.append_nil,List.append_assoc]
  rw [readValue,bindEq size,if_neg (by omega)]
  rw [Int.toNat_natCast]
  exact (bindEq bytes).trans (sizedRun value)

theorem readNameRun (name : TableName) (fits : o+8 < 2^31) : readName ⟨o,(namePieces name).flatten ++ rest⟩ =
    .ok name ⟨o+8+name.val.length,rest⟩ := by
  have small := name.property
  have size := @readRun o (name.val ++ rest) (leBytes 8 name.val.length) (by omega)
  have length : leNat (leBytes 8 name.val.length) = name.val.length := by
    have value := leNatBytes 8 name.val.length
    rw [Int.emod_eq_of_lt (by omega) (by norm_num; omega)] at value
    exact_mod_cast value
  have bytes := @readRun (o+8) rest name.val fits
  rw [leBytesLength] at size
  simp only [namePieces,List.flatten_cons,List.flatten_nil,List.append_nil,List.append_assoc]
  rw [readName,bindEq size,length]
  exact (bindEq bytes).trans (sizedRun name)

def LogData.bytes (data : LogData) : Bytes := data.pieces.flatten

theorem valueLength (value : RmRecord) : (valuePieces value).flatten.length = 4+value.val.length := by
  simp [valuePieces,leBytesLength]

theorem ridLength (rid : Rid) : (ridPieces rid).flatten.length = 8 := by
  simp [ridPieces,intPiece,leBytesLength]

theorem nameLength (name : TableName) : (namePieces name).flatten.length = 8+name.val.length := by
  simp [namePieces,leBytesLength]

theorem readDataRun (data : LogData) (fits : o+data.bytes.length < 2^31) : ∃ reader, readData data.logType = some reader ∧
    reader ⟨o,data.bytes ++ rest⟩ = .ok data ⟨o+data.bytes.length,rest⟩ := by
  cases data with
  | begin => exact ⟨_,rfl,rfl⟩
  | commit => exact ⟨_,rfl,rfl⟩
  | abort => exact ⟨_,rfl,rfl⟩
  | insert value rid name =>
    refine ⟨_,rfl,?_⟩
    simp only [LogData.bytes,LogData.pieces,List.flatten_append,List.length_append,valueLength,ridLength,nameLength,
      List.append_assoc] at fits ⊢
    rw [bindEq (readValueRun value (by omega)),bindEq (readRidRun rid (by omega)),bindEq (readNameRun name (by omega))]
    simp only [← Nat.add_assoc]
    rfl
  | delete value rid name =>
    refine ⟨_,rfl,?_⟩
    simp only [LogData.bytes,LogData.pieces,List.flatten_append,List.length_append,valueLength,ridLength,nameLength,
      List.append_assoc] at fits ⊢
    rw [bindEq (readValueRun value (by omega)),bindEq (readRidRun rid (by omega)),bindEq (readNameRun name (by omega))]
    simp only [← Nat.add_assoc]
    rfl
  | update old new rid name =>
    refine ⟨_,rfl,?_⟩
    simp only [LogData.bytes,LogData.pieces,List.flatten_append,List.length_append,valueLength,ridLength,nameLength,
      List.append_assoc] at fits ⊢
    rw [bindEq (readValueRun old (by omega)),bindEq (readValueRun new (by omega)),bindEq (readRidRun rid (by omega)),
      bindEq (readNameRun name (by omega))]
    simp only [← Nat.add_assoc]
    rfl

theorem bytesHeader (record : LogRecord) : record.bytes = leBytes 4 record.data.logType ++ (intPiece record.lsn ++
    (leBytes 4 record.logTotLen.toNat ++ (intPiece record.logTid ++ (intPiece record.prevLsn ++ record.data.bytes)))) := by
  simp [LogRecord.bytes,LogRecord.pieces,LogData.bytes]

theorem bytesLength (record : LogRecord) : record.bytes.length = 20+record.data.bytes.length := by
  simp only [bytesHeader,List.length_append,leBytesLength,intPiece]
  omega

theorem logTypeRange (data : LogData) : -2^31 ≤ data.logType ∧ data.logType < 2^31 := by
  cases data <;> simp [LogData.logType]

theorem parseRun (record : LogRecord) (fits : record.bytes.length < 2^31) (rest : Bytes) :
    parseLogRecord (record.bytes ++ rest) = .ok (some record) := by
  rw [bytesLength] at fits
  obtain ⟨low,high⟩ := logTypeRange record.data
  obtain ⟨reader,known,data⟩ := @readDataRun 20 rest record.data (by omega)
  have total : UInt32.ofNat (leNat (leBytes 4 record.logTotLen.toNat)) = record.logTotLen := by
    have small := record.logTotLen.toNat_lt
    have value := leNatBytes 4 record.logTotLen.toNat
    rw [Int.emod_eq_of_lt (by omega) (by norm_num; omega)] at value
    rw [show leNat (leBytes 4 record.logTotLen.toNat) = record.logTotLen.toNat by exact_mod_cast value]
    exact UInt32.ofNat_toNat
  have total4 := @readRun 8 (intPiece record.logTid ++ (intPiece record.prevLsn ++ (record.data.bytes ++ rest)))
    (leBytes 4 record.logTotLen.toNat) (by omega)
  rw [leBytesLength] at total4
  have run : deserialize reader ⟨4,intPiece record.lsn ++ (leBytes 4 record.logTotLen.toNat ++ (intPiece record.logTid ++
      (intPiece record.prevLsn ++ (record.data.bytes ++ rest))))⟩ = .ok record ⟨20+record.data.bytes.length,rest⟩ := by
    rw [deserialize,bindEq (readInt32Run record.lsn (by omega)),bindEq total4,
      bindEq (readInt32Run record.logTid (by omega)),bindEq (readInt32Run record.prevLsn (by omega)),bindEq data,total]
    rfl
  have split : record.bytes ++ rest = leBytes 4 record.data.logType ++ (intPiece record.lsn ++
      (leBytes 4 record.logTotLen.toNat ++ (intPiece record.logTid ++ (intPiece record.prevLsn ++
        (record.data.bytes ++ rest))))) := by
    rw [bytesHeader]
    simp only [List.append_assoc]
  have first := @readIntRun 0 (intPiece record.lsn ++ (leBytes 4 record.logTotLen.toNat ++ (intPiece record.logTid ++
    (intPiece record.prevLsn ++ (record.data.bytes ++ rest))))) _ low high (by omega)
  rw [parseLogRecord,split]
  have found : (match readData record.data.logType with
      | none => pure none
      | some reader => some <$> deserialize reader : M Cursor (Option LogRecord))
      ⟨4,intPiece record.lsn ++ (leBytes 4 record.logTotLen.toNat ++ (intPiece record.logTid ++ (intPiece record.prevLsn ++
        (record.data.bytes ++ rest))))⟩ = .ok (some record) ⟨20+record.data.bytes.length,rest⟩ := by
    rw [known]
    exact bindEq run
  exact evalOk ((bindEq first).trans found)

end RoundTrip

section Lengths
variable {c c' : Cursor} {record : LogRecord}

theorem copyPiecesOk {offset : Nat} {pieces : List Bytes} (fits : offset+pieces.flatten.length < 2^31) :
    copyPieces offset pieces = .ok pieces.flatten := by
  induction pieces generalizing offset with
  | nil => rfl
  | cons piece pieces ih =>
    rw [List.flatten_cons,List.length_append] at fits
    rw [copyPieces,if_pos (by omega),ih (by omega)]
    rfl

theorem copyPiecesSame {offset : Nat} {pieces : List Bytes} {bytes : Bytes} (done : copyPieces offset pieces = .ok bytes) :
    bytes = pieces.flatten := by
  induction pieces generalizing offset bytes with
  | nil => exact (Except.ok.inj done).symm
  | cons piece pieces ih =>
    rw [copyPieces] at done
    split at done
    · cases rest : copyPieces (offset+piece.length) pieces with
      | error e => rw [rest] at done; cases done
      | ok tail =>
        rw [rest] at done
        cases Except.ok.inj done
        rw [ih rest]
        rfl
    · cases done

theorem madeLength (made : Made record) : record.logTotLen = UInt32.ofNat record.bytes.length := by
  rw [bytesLength]
  cases made with
  | begin => rfl
  | commit => rfl
  | abort => rfl
  | insert =>
    simp only [insertLogRecord,header,LogRecord.lengthen,LogData.bytes,LogData.pieces,List.flatten_append,
      List.length_append,valueLength,ridLength,nameLength,UInt32.ofNat_add,UInt32.add_assoc]
    rfl
  | delete =>
    simp only [deleteLogRecord,header,LogRecord.lengthen,LogData.bytes,LogData.pieces,List.flatten_append,
      List.length_append,valueLength,ridLength,nameLength,UInt32.ofNat_add,UInt32.add_assoc]
    rfl
  | update =>
    simp only [updateLogRecord,header,LogRecord.lengthen,LogData.bytes,LogData.pieces,List.flatten_append,
      List.length_append,valueLength,ridLength,nameLength,UInt32.ofNat_add,UInt32.add_assoc]
    rfl

end Lengths

end Rmdb.Recovery.Codec
