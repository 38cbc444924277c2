import Rmdb.Recovery.LogCodec

/-! `read_all_logs` on a log file that may be cut anywhere. -/
namespace Rmdb.Recovery.Codec

/- The loop over the bytes read. Where an `int` sum leaves its range the source has no meaning. -/
def readLogs (data : Bytes) : Nat → Int → Except Fault (List LogRecord)
  | 0,_ => .error .fuel
  | fuel+1,offset =>
    if 2^31 ≤ offset+logHeaderSize then .error .outOfRange
    else if offset+logHeaderSize ≤ data.length then
      if offset < 0 then .error .outOfRange else
        let logLen := leNat ((data.drop (offset.toNat+offsetLogTotLen)).take 4)
        if logLen < logHeaderSize then .ok []
        else if 2^31 ≤ offset+narrow logLen then .error .outOfRange
        else if offset+narrow logLen > data.length then .ok []
        else do
          match ← parseLogRecord (data.drop offset.toNat) with
          | none => .ok []
          | some record =>
            let logs ← readLogs data fuel (offset+narrow logLen)
            .ok (record :: logs)
    else .ok []

-- what one read() on Linux transfers at most
def readMax : Nat := 0x7ffff000

def readLog (file : Bytes) (size : Nat) : Except Fault Bytes :=
  let logData := file.take (min size readMax)
  if logData.length = size then .ok logData else .error (.assertion "bytes_read == size")

def readAllLogs (file : Bytes) : Except Fault (List LogRecord) :=
  let fileSize := narrow file.length
  if fileSize ≤ 0 then .ok []
  else do
    let data ← readLog file fileSize.toNat
    readLogs data (data.length+1) 0

def image (records : List LogRecord) : Bytes := records.flatMap LogRecord.bytes

def inside : Nat → List LogRecord → List LogRecord
  | _,[] => []
  | n,record :: records => if record.bytes.length ≤ n then record :: inside (n-record.bytes.length) records else []

theorem narrowRange (v : Int) : narrow v < 2^31 := by
  rw [narrow,Int.bmod_def]
  split <;> omega

theorem readLogTake {file : Bytes} {size : Nat} (stored : size ≤ file.length) (fits : size ≤ readMax) :
    readLog file size = .ok (file.take size) := by
  rw [readLog,min_eq_left fits]
  exact if_pos (List.length_take_of_le stored)

theorem readLogShort {file : Bytes} {size : Nat} (large : readMax < size) :
    readLog file size = .error (.assertion "bytes_read == size") := by
  have short : (file.take (min size readMax)).length < size := by
    rw [List.length_take]
    omega
  rw [readLog]
  exact if_neg short.ne

section Loop
variable {data : Bytes} {fuel : Nat} {offset : Int} {logs records : List LogRecord}

def totalLength (records : List LogRecord) : Nat := (records.map fun record => record.bytes.length).sum

theorem imageLength (records : List LogRecord) : (image records).length = totalLength records := by
  rw [image,List.length_flatMap]
  rfl

theorem narrowSmall {v : Int} (low : 0 ≤ v) (high : v < 2^31) : narrow v = v := by
  rw [narrow,Int.bmod_def,Int.emod_eq_of_lt low (by omega),if_pos (by omega)]

def lengthField (data : Bytes) (offset : Nat) : Nat := leNat ((data.drop (offset+offsetLogTotLen)).take 4)

theorem bytesLong (record : LogRecord) : logHeaderSize ≤ record.bytes.length := by
  rw [bytesLength,logHeaderSize]
  omega

theorem lengthFieldRun {record : LogRecord} (exact : record.logTotLen.toNat = record.bytes.length) {front back : Bytes} {n : Nat}
    (header : logHeaderSize ≤ n) : lengthField (front ++ (record.bytes ++ back).take n) front.length = record.bytes.length := by
  have third : ((record.bytes ++ back).drop offsetLogTotLen).take 4 = leBytes 4 record.logTotLen.toNat := by
    rw [bytesHeader,List.append_assoc,List.append_assoc,List.append_assoc,← List.append_assoc (leBytes 4 _),
      List.drop_left' (by simp [intPiece,leBytesLength,offsetLogTotLen]),List.take_left' (leBytesLength _ _)]
  have small := record.logTotLen.toNat_lt
  have value := leNatBytes 4 record.logTotLen.toNat
  rw [Int.emod_eq_of_lt (by omega) (by norm_num; omega)] at value
  rw [lengthField,List.drop_append,List.drop_of_length_le (by omega),List.nil_append,Nat.add_sub_cancel_left,List.drop_take,
    List.take_take,Nat.min_eq_left (by rw [logHeaderSize] at header; rw [offsetLogTotLen]; omega),third,← exact]
  exact_mod_cast value

theorem readLogsPrefix (exact : ∀ record ∈ records, record.logTotLen.toNat = record.bytes.length) (front : Bytes) (n : Nat)
    (enough : ((image records).take n).length < fuel) (fits : front.length+totalLength records+logHeaderSize < 2^31) :
    readLogs (front ++ (image records).take n) fuel front.length = .ok (inside n records) := by
  induction records generalizing front n fuel with
  | nil =>
    obtain ⟨fuel,rfl⟩ := Nat.exists_eq_succ_of_ne_zero (Nat.ne_zero_of_lt enough)
    have none : image [] = [] := rfl
    rw [readLogs,if_neg (by omega),none,List.take_nil,List.append_nil,if_neg (by rw [logHeaderSize]; omega)]
    rfl
  | cons record records ih =>
    obtain ⟨fuel,rfl⟩ := Nat.exists_eq_succ_of_ne_zero (Nat.ne_zero_of_lt enough)
    have long := bytesLong record
    have here := exact record List.mem_cons_self
    have whole : totalLength (record :: records) = record.bytes.length+totalLength records := by simp [totalLength]
    have split : image (record :: records) = record.bytes ++ image records := rfl
    have length := imageLength (record :: records)
    have size : (front ++ (image (record :: records)).take n).length =
        front.length+min n (record.bytes.length+totalLength records) := by
      rw [List.length_append,List.length_take,length,whole]
    rw [readLogs,if_neg (by omega),inside]
    by_cases header : logHeaderSize ≤ n
    · have field := @lengthFieldRun record here front (image records) n header
      rw [← split,lengthField] at field
      rw [if_pos (by omega),if_neg (by omega),Int.toNat_natCast]
      dsimp only
      rw [field,if_neg (by omega),narrowSmall (by omega) (by omega),if_neg (by omega)]
      by_cases fully : record.bytes.length ≤ n
      · have rest : front ++ (image (record :: records)).take n =
            (front ++ record.bytes) ++ (image records).take (n-record.bytes.length) := by
          rw [split,List.take_append,List.take_of_length_le fully,List.append_assoc]
        have parsed := parseRun record (by omega) ((image records).take (n-record.bytes.length))
        have size' : ((image records).take (n-record.bytes.length)).length < fuel := by
          have all := imageLength records
          rw [split,List.length_take,List.length_append] at enough
          rw [List.length_take]
          rw [logHeaderSize] at long
          omega
        have later := ih (fun r mem => exact r (List.mem_cons_of_mem record mem)) (front ++ record.bytes)
          (n-record.bytes.length) size' (by rw [List.length_append]; omega)
        rw [if_neg (by omega),if_pos fully,rest,List.append_assoc,List.drop_left,parsed]
        rw [List.length_append] at later
        push_cast at later
        rw [List.append_assoc] at later
        dsimp only [bind,Except.bind]
        rw [later]
      · rw [if_pos (by omega),if_neg fully]
    · rw [if_neg (by omega),if_neg (by omega)]

theorem insideAll (records : List LogRecord) : inside (image records).length records = records := by
  induction records with
  | nil => rfl
  | cons record records ih =>
    have split : (image (record :: records)).length = record.bytes.length+(image records).length := List.length_append
    rw [inside,if_pos (by omega),split,Nat.add_sub_cancel_left,ih]

theorem insideNone {n : Nat} (empty : n = 0 ∨ records = []) : inside n records = [] := by
  cases records with
  | nil => rfl
  | cons record records =>
    have long := bytesLong record
    have none : n = 0 := empty.resolve_right fun none => nomatch none
    rw [inside,if_neg]
    rw [logHeaderSize] at long
    omega

end Loop

theorem logsReadBack {records : List LogRecord} (made : ∀ record ∈ records, Made record) :
    ((∀ record ∈ records, ∃ bytes, record.serialize = .ok bytes ∧ bytes.length = record.logTotLen.toNat ∧
        parseLogRecord bytes = .ok (some record)) ∧
      ∀ n, readAllLogs ((image records).take n) = .ok (inside n records)) ↔
    totalLength records ≤ readMax := by
  constructor
  · rintro ⟨_,torn⟩
    by_contra large
    have max : readMax = 2147479552 := rfl
    have size : ((image records).take (readMax+1)).length = readMax+1 := by
      rw [List.length_take,imageLength]
      omega
    have cut := torn (readMax+1)
    rw [readAllLogs,size,narrowSmall (by omega) (by omega)] at cut
    rw [if_neg (by omega),Int.toNat_natCast,readLogShort (Nat.lt_succ_self readMax)] at cut
    cases cut
  · intro fits
    have header : logHeaderSize = 20 := rfl
    have max : readMax = 2147479552 := rfl
    have exact : ∀ record ∈ records, record.bytes.length < 2^31 ∧ record.logTotLen.toNat = record.bytes.length := by
      intro record mem
      have part := List.single_le_sum (fun _ _ => Nat.zero_le _) _ (List.mem_map_of_mem (f := fun record => record.bytes.length) mem)
      rw [← totalLength] at part
      refine ⟨by omega,?_⟩
      rw [madeLength (made record mem),UInt32.toNat_ofNat',Nat.mod_eq_of_lt (by omega)]
    refine ⟨fun record mem => ?_,fun n => ?_⟩
    · obtain ⟨small,same⟩ := exact record mem
      refine ⟨record.bytes,copyPiecesOk ?_,same.symm,?_⟩
      · rw [← LogRecord.bytes]
        omega
      · have parsed := parseRun record small []
        rwa [List.append_nil] at parsed
    · have length := imageLength records
      have size : ((image records).take n).length = min n (totalLength records) := by rw [List.length_take,length]
      rw [readAllLogs,size,narrowSmall (by omega) (by omega)]
      split
      · rename_i empty
        rw [insideNone]
        cases records with
        | nil => exact .inr rfl
        | cons record records =>
          have long := bytesLong record
          have whole : totalLength (record :: records) = record.bytes.length+totalLength records := by simp [totalLength]
          exact .inl (by omega)
      · have run := readLogsPrefix (fun record mem => (exact record mem).2) [] n (Nat.lt_succ_self _)
          (by rw [List.length_nil]; omega)
        rw [List.nil_append] at run
        rw [Int.toNat_natCast,← size,readLogTake (le_refl _) (by omega),List.take_length]
        exact run

def shortLog : List LogRecord := [{beginLogRecord 7 with lsn := 0},{commitLogRecord 7 with lsn := 1}]

theorem shortLogReadBack : readAllLogs ((image shortLog).take 33) = .ok [{beginLogRecord 7 with lsn := 0}] := by
  have made : ∀ record ∈ shortLog, Made record := by
    intro record mem
    rcases List.mem_cons.mp mem with rfl | last
    · exact .begin 0 (-1) 7
    · cases List.mem_singleton.mp last
      exact .commit 1 (-1) 7
  exact ((logsReadBack made).mpr (by decide)).2 33

theorem largeLogLost : ¬ ∀ n, readAllLogs ((image (List.replicate 107374183 (beginLogRecord 7))).take n) =
    .ok (inside n (List.replicate 107374183 (beginLogRecord 7))) := by
  intro all
  have total : totalLength (List.replicate 107374183 (beginLogRecord 7)) = 2147483660 := by
    rw [totalLength,List.map_replicate,List.sum_replicate]
    rfl
  have whole := all (image (List.replicate 107374183 (beginLogRecord 7))).length
  rw [List.take_length,insideAll,readAllLogs,imageLength,total] at whole
  have negative : narrow (2147483660 : Nat) ≤ 0 := by decide
  rw [if_pos negative] at whole
  have lengths := congrArg List.length (Except.ok.inj whole)
  rw [List.length_replicate] at lengths
  cases lengths

end Rmdb.Recovery.Codec
