import Rmdb.Recovery.ReadAllLogs
import Rmdb.Lib.Block

/-! `LogManager` on bytes: `buffer_` with its `offset_`, and the file that `write_log` appends to. -/
namespace Rmdb.Recovery.Codec
open Lib

def logBufferSize : Nat := 1024*pageSize

structure LogManager where
  globalLsn : Int32
  buffer : Block UInt8 (logBufferSize+1)
  offset : Nat
  persistLsn : Int32
  logFile : Bytes

inductive Call where
  | add (logRecord : LogRecord)
  | flush

namespace LogManager

def cleared : Block UInt8 (logBufferSize+1) := ⟨List.replicate (logBufferSize+1) 0,List.length_replicate⟩

def initial : LogManager := ⟨0,cleared,0,-1,[]⟩

def isFull (s : LogManager) (appendSize : Int) : Bool := s.offset+appendSize > logBufferSize

def held (s : LogManager) : Bytes := s.buffer.peek 0 s.offset

def writeLog (s : LogManager) : LogManager := {s with logFile := s.logFile ++ s.held, buffer := cleared, offset := 0}

-- the part of `add_log_to_buffer` after the test for room
def append (logRecord : LogRecord) : M LogManager Int32 := do
  let s ← get
  let bytes ← ofExcept {logRecord with lsn := s.globalLsn}.serialize
  match s.buffer.poke s.offset bytes with
  | none => throw .outOfRange
  | some buffer =>
    set {s with globalLsn := s.globalLsn+1, buffer := buffer, offset := s.offset+logRecord.logTotLen.toNat}
    pure s.globalLsn

def addLogToBuffer (logRecord : LogRecord) : M LogManager Int32 := do
  let s ← get
  if s.isFull (narrow logRecord.logTotLen.toNat) then
    let persistLsn := if logRecord.lsn ≠ -1 then logRecord.lsn-1 else s.persistLsn
    set {s.writeLog with persistLsn := persistLsn}
  append logRecord

def lsnField (data : Bytes) (offset : Nat) : Int32 := Int32.ofInt (leInt ((data.drop (offset+4)).take 4))

def lastLsn (data : Bytes) (limit : Nat) : Nat → Int → Int32 → Except Fault Int32
  | 0,_,_ => .error .fuel
  | fuel+1,offset,last =>
    if offset+logHeaderSize ≤ limit then
      if offset < 0 then .error .outOfRange else
        let logLen := lengthField data offset.toNat
        if logLen = 0 ∨ offset+narrow logLen > limit then .ok last
        else lastLsn data limit fuel (offset+narrow logLen) (lsnField data offset.toNat)
    else .ok last

def flushLogToDisk : M LogManager Unit := do
  let s ← get
  if s.offset = 0 then pure ()
  else
    let last ← ofExcept (lastLsn s.buffer.val s.offset (s.offset+1) 0 (lsnField s.buffer.val 0))
    set {s.writeLog with persistLsn := last}

def runCalls : List Call → M LogManager (List Int32)
  | [] => pure []
  | .add logRecord :: calls => do
    let lsn ← addLogToBuffer logRecord
    let lsns ← runCalls calls
    pure (lsn :: lsns)
  | .flush :: calls => do
    flushLogToDisk
    runCalls calls

end LogManager

def added : List Call → List LogRecord
  | [] => []
  | .add logRecord :: calls => logRecord :: added calls
  | .flush :: calls => added calls

def numbered : Nat → List LogRecord → List LogRecord
  | _,[] => []
  | k,record :: records => {record with lsn := Int32.ofNat k} :: numbered (k+1) records

namespace LogManager

structure Holds (s : LogManager) (records : List LogRecord) : Prop where
  lsn : s.globalLsn = Int32.ofNat records.length
  room : s.offset ≤ logBufferSize
  whole : s.logFile ++ s.held = image records
  buffered : ∃ front back, records = front ++ back ∧ s.held = image back ∧
    ∀ record ∈ back, record.logTotLen.toNat = record.bytes.length

section Steps
variable {s : LogManager} {records : List LogRecord} {record : LogRecord}

theorem initialHolds : initial.Holds [] :=
  ⟨rfl,Nat.zero_le _,rfl,[],[],rfl,rfl,fun _ mem => nomatch mem⟩

theorem heldLength (room : s.offset ≤ logBufferSize) : s.held.length = s.offset :=
  Block.peekLength (by omega)

theorem writeLogHolds (holds : s.Holds records) (lsn : Int32) :
    {s.writeLog with persistLsn := lsn}.Holds records ∧ s.writeLog.logFile = image records := by
  have all : s.writeLog.logFile = image records := holds.whole
  have empty : ({s.writeLog with persistLsn := lsn} : LogManager).held = [] := rfl
  refine ⟨⟨holds.lsn,Nat.zero_le _,?_,records,[],(List.append_nil _).symm,empty,fun _ mem => nomatch mem⟩,all⟩
  rw [empty,List.append_nil]
  exact all

theorem numberedLength (record : LogRecord) (lsn : Int32) : ({record with lsn := lsn} : LogRecord).bytes.length =
    record.bytes.length := by
  rw [bytesLength,bytesLength]

theorem totLenExact (made : Made record) (fits : record.bytes.length ≤ logBufferSize) :
    record.logTotLen.toNat = record.bytes.length := by
  have size : logBufferSize = 4194304 := rfl
  rw [madeLength made,UInt32.toNat_ofNat',Nat.mod_eq_of_lt (by omega)]

theorem pokeHeld {bytes : Bytes} {buffer : Block UInt8 (logBufferSize+1)} (poked : s.buffer.poke s.offset bytes = some buffer) :
    buffer.peek 0 (s.offset+bytes.length) = s.held ++ bytes := by
  have before := @Block.peekApart _ _ _ _ _ 0 s.offset _ poked (.inl (by omega))
  have here := Block.peekSame poked
  rw [Block.peek,List.drop_zero] at before ⊢
  rw [Block.peek] at here
  rw [List.take_add,before,here]
  rfl

theorem placeRun (holds : s.Holds records) {bytes : Bytes} (exact : record.logTotLen.toNat = record.bytes.length)
    (written : record.bytes = bytes) (room : s.offset+record.bytes.length ≤ logBufferSize) :
    ∃ buffer, s.buffer.poke s.offset bytes = some buffer ∧
    ({s with globalLsn := s.globalLsn+1, buffer := buffer, offset := s.offset+record.logTotLen.toNat} : LogManager).Holds
      (records ++ [record]) := by
  subst written
  obtain ⟨buffer,poked⟩ := @Block.pokeInside _ _ s.offset record.bytes s.buffer (by omega)
  refine ⟨buffer,poked,?_⟩
  obtain ⟨front,back,split,buffered,small⟩ := holds.buffered
  have held := pokeHeld poked
  have last : image (records ++ [record]) = image records ++ record.bytes := by simp [image]
  refine ⟨?_,?_,?_,front,back ++ [record],?_,?_,?_⟩
  · rw [holds.lsn,List.length_append]
    exact (Int32.ofNat_add ..).symm
  · rw [exact]
    exact room
  · show s.logFile ++ buffer.peek 0 (s.offset+record.logTotLen.toNat) = _
    rw [exact,held,← List.append_assoc,holds.whole,last]
  · rw [split,List.append_assoc]
  · show buffer.peek 0 (s.offset+record.logTotLen.toNat) = _
    rw [exact,held,buffered]
    simp [image]
  · intro r mem
    rcases List.mem_append.mp mem with old | new
    · exact small r old
    · rw [List.mem_singleton.mp new,exact]

theorem appendRun (holds : s.Holds records) (made : Made record) (room : s.offset+record.bytes.length ≤ logBufferSize) :
    ∃ t, append record s = .ok (Int32.ofNat records.length) t ∧
      t.Holds (records ++ [{record with lsn := Int32.ofNat records.length}]) := by
  have size : logBufferSize = 4194304 := rfl
  have exact := totLenExact made (by omega)
  rw [← holds.lsn]
  have written : ({record with lsn := s.globalLsn} : LogRecord).serialize =
      .ok ({record with lsn := s.globalLsn} : LogRecord).bytes :=
    copyPiecesOk (by rw [← LogRecord.bytes,numberedLength]; omega)
  obtain ⟨buffer,poked,after⟩ := @placeRun s records {record with lsn := s.globalLsn} holds _
    (by rw [numberedLength]; exact exact) rfl (by rw [numberedLength]; exact room)
  refine ⟨_,?_,after⟩
  rw [append,getBind,written,bindEq (ofExceptOk _ s)]
  dsimp only
  rw [poked]
  rfl

theorem offsetCleared (lsn : Int32) : ({s.writeLog with persistLsn := lsn} : LogManager).offset = 0 := rfl

theorem addRun (holds : s.Holds records) (made : Made record) (fits : record.bytes.length ≤ logBufferSize) :
    ∃ t, addLogToBuffer record s = .ok (Int32.ofNat records.length) t ∧
      t.Holds (records ++ [{record with lsn := Int32.ofNat records.length}]) := by
  have exact := totLenExact made fits
  have size : logBufferSize = 4194304 := rfl
  have width : narrow record.logTotLen.toNat = record.bytes.length := by
    rw [exact]
    exact narrowSmall (by omega) (by omega)
  rw [addLogToBuffer,getBind,width]
  by_cases full : s.isFull record.bytes.length = true
  · rw [if_pos full]
    exact appendRun (writeLogHolds holds _).1 made (by rw [offsetCleared]; omega)
  · rw [if_neg full]
    simp only [isFull,decide_eq_true_eq,not_lt] at full
    exact appendRun holds made (by omega)

theorem lsnFieldRun (record : LogRecord) (front rest : Bytes) :
    lsnField (front ++ (record.bytes ++ rest)) front.length = record.lsn := by
  have length : (intPiece record.lsn).length = 4 := leBytesLength ..
  have second : ((record.bytes ++ rest).drop 4).take 4 = intPiece record.lsn := by
    rw [bytesHeader,List.append_assoc,List.append_assoc,List.drop_left' (leBytesLength ..),List.take_left' length]
  have low := record.lsn.le_toInt
  have high := record.lsn.toInt_lt
  rw [lsnField,← List.drop_drop,List.drop_left,second,intPiece,leIntBytes (by norm_num; omega) (by norm_num; omega),
    Int32.ofInt_toInt]

theorem lastLsnRun {back : List LogRecord} (exact : ∀ record ∈ back, record.logTotLen.toNat = record.bytes.length)
    (front rest : Bytes) {fuel : Nat} (last : Int32) (enough : (image back).length < fuel)
    (small : front.length+(image back).length < 2^31) :
    lastLsn (front ++ image back ++ rest) (front.length+(image back).length) fuel front.length last =
      .ok ((back.getLast?.map LogRecord.lsn).getD last) := by
  induction back generalizing front fuel last with
  | nil =>
    obtain ⟨fuel,rfl⟩ := Nat.exists_eq_succ_of_ne_zero (Nat.ne_zero_of_lt enough)
    have header : logHeaderSize = 20 := rfl
    have none : (image []).length = 0 := rfl
    rw [lastLsn,if_neg (by omega)]
    rfl
  | cons record back ih =>
    obtain ⟨fuel,rfl⟩ := Nat.exists_eq_succ_of_ne_zero (Nat.ne_zero_of_lt enough)
    have long := bytesLong record
    have header : logHeaderSize = 20 := rfl
    have split : image (record :: back) = record.bytes ++ image back := rfl
    have length : (image (record :: back)).length = record.bytes.length+(image back).length := List.length_append
    have field := @lengthFieldRun record (exact record List.mem_cons_self) front (image back ++ rest)
      (record.bytes ++ (image back ++ rest)).length (by rw [List.length_append]; omega)
    rw [List.take_length] at field
    have shape : front ++ image (record :: back) ++ rest = front ++ (record.bytes ++ (image back ++ rest)) := by
      rw [split,List.append_assoc,List.append_assoc]
    have later := ih (fun r mem => exact r (List.mem_cons_of_mem record mem)) (front ++ record.bytes) record.lsn
      (show _ < fuel by omega) (by rw [List.length_append]; omega)
    rw [List.length_append,List.append_assoc front,List.append_assoc front,List.append_assoc record.bytes] at later
    push_cast at later
    rw [lastLsn,shape,length,if_pos (by omega),if_neg (by omega),Int.toNat_natCast]
    dsimp only
    rw [field,lsnFieldRun,narrowSmall (by omega) (by omega),if_neg (by omega),← Nat.add_assoc,later,List.getLast?_cons]
    cases back.getLast? <;> rfl

theorem flushRun (holds : s.Holds records) : ∃ t, flushLogToDisk s = .ok () t ∧ t.Holds records ∧ t.logFile = image records := by
  rw [flushLogToDisk,getBind]
  by_cases empty : s.offset = 0
  · have none : s.held = [] := List.length_eq_zero_iff.mp ((heldLength holds.room).trans empty)
    have all := holds.whole
    rw [none,List.append_nil] at all
    exact ⟨s,congrFun (if_pos empty) s,holds,all⟩
  · obtain ⟨front,back,split,buffered,exact⟩ := holds.buffered
    have size : logBufferSize = 4194304 := rfl
    have room := holds.room
    have length : (image back).length = s.offset := by rw [← buffered,heldLength room]
    have content : s.buffer.val = [] ++ image back ++ s.buffer.val.drop s.offset := by
      rw [← buffered,held,Block.peek,List.drop_zero,List.nil_append,List.take_append_drop]
    have found := @lastLsnRun back exact [] (s.buffer.val.drop s.offset) (s.offset+1) (lsnField s.buffer.val 0)
      (by omega) (by rw [List.length_nil]; omega)
    rw [← content,length,List.length_nil,Nat.zero_add,Nat.cast_zero] at found
    obtain ⟨after,file⟩ := writeLogHolds holds ((back.getLast?.map LogRecord.lsn).getD (lsnField s.buffer.val 0))
    refine ⟨_,?_,after,file⟩
    rw [if_neg empty,found,bindEq (ofExceptOk _ s)]
    rfl

end Steps

def Fits (record : LogRecord) : Prop := Made record ∧ record.bytes.length ≤ logBufferSize

theorem runHolds {s : LogManager} {records : List LogRecord} (holds : s.Holds records) {calls : List Call}
    (fits : ∀ record ∈ added calls, Fits record) :
    ∃ t, runCalls calls s = .ok ((List.range' records.length (added calls).length).map Int32.ofNat) t ∧
      t.Holds (records ++ numbered records.length (added calls)) := by
  induction calls generalizing s records with
  | nil => exact ⟨s,rfl,(List.append_nil records).symm ▸ holds⟩
  | cons call calls ih => cases call with
    | add record =>
      obtain ⟨made,small⟩ := fits record List.mem_cons_self
      obtain ⟨t,answered,later⟩ := addRun holds made small
      obtain ⟨u,rest,last⟩ := ih later fun r mem => fits r (List.mem_cons_of_mem record mem)
      rw [List.length_append,List.length_singleton] at rest last
      refine ⟨u,?_,?_⟩
      · rw [runCalls,bindEq answered,bindEq rest,added,List.length_cons,List.range'_succ]
        rfl
      · rw [List.append_assoc] at last
        exact last
    | flush =>
      obtain ⟨t,flushed,later,_⟩ := flushRun holds
      obtain ⟨u,rest,last⟩ := ih later fits
      exact ⟨u,by rw [runCalls,bindEq flushed,rest]; rfl,last⟩

/- Numbers are 32 bits wide; otherwise nothing is lost, repeated or reordered. -/
theorem logKept {calls : List Call} (fits : ∀ record ∈ added calls, Fits record) :
    ∃ t, runCalls calls initial = .ok ((List.range (added calls).length).map Int32.ofNat) t ∧
      t.logFile ++ t.buffer.peek 0 t.offset = image (numbered 0 (added calls)) ∧ t.offset ≤ logBufferSize ∧
      ∃ u, flushLogToDisk t = .ok () u ∧ u.logFile = image (numbered 0 (added calls)) := by
  obtain ⟨t,run,holds⟩ := runHolds initialHolds fits
  rw [List.length_nil,← List.range_eq_range'] at run
  obtain ⟨u,flushed,_,all⟩ := flushRun holds
  exact ⟨t,run,holds.whole,holds.room,u,flushed,all⟩

theorem shortLogKept : ∃ t, runCalls [.add (beginLogRecord 7),.flush,.add (commitLogRecord 7)] initial = .ok [0,1] t ∧
    t.logFile ++ t.buffer.peek 0 t.offset = image shortLog := by
  have fits : ∀ record ∈ added [.add (beginLogRecord 7),.flush,.add (commitLogRecord 7)], Fits record := by
    intro record mem
    rcases List.mem_cons.mp mem with rfl | last
    · exact ⟨.begin (-1) (-1) 7,by decide⟩
    · cases List.mem_singleton.mp last
      exact ⟨.commit (-1) (-1) 7,by decide⟩
  obtain ⟨t,run,whole,_⟩ := logKept fits
  exact ⟨t,run,whole⟩

theorem addedReplicate (n : Nat) (record : LogRecord) : added (List.replicate n (.add record)) = List.replicate n record := by
  induction n with
  | zero => rfl
  | succ n ih => rw [List.replicate_succ,added,ih,List.replicate_succ]

theorem numbersWrap : ∃ t lsns, runCalls (List.replicate (2^31+1) (.add (beginLogRecord 7))) initial = .ok lsns t ∧
    (lsns[2^31]?).map Int32.toInt = some (-2^31) ∧ (lsns[2^31]?).map Int32.toInt ≠ some (2^31) := by
  have fits : ∀ record ∈ added (List.replicate (2^31+1) (.add (beginLogRecord 7))), Fits record := by
    intro record mem
    rw [addedReplicate] at mem
    cases List.eq_of_mem_replicate mem
    exact ⟨.begin (-1) (-1) 7,by decide⟩
  obtain ⟨t,run,_⟩ := runHolds initialHolds fits
  have wrapped : ((List.range' 0 (2^31+1)).map Int32.ofNat)[2^31]? = some (Int32.ofNat (2^31)) := by
    rw [List.getElem?_map,List.getElem?_range' (by norm_num)]
    rfl
  rw [addedReplicate,List.length_replicate,List.length_nil] at run
  refine ⟨t,_,run,?_,?_⟩
  · rw [wrapped]
    decide
  · rw [wrapped]
    decide

end LogManager

end Rmdb.Recovery.Codec
