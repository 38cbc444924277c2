import Rmdb.Lib.Reading
import Rmdb.Recovery.ReadAllLogs

/-! `read_all_logs` on any content of the log file: which bytes it reads and where its loop goes. -/
namespace Rmdb.Recovery.Codec.LogReads
open Lib Reading

/- `new` refuses a size, or the source has no meaning: a byte outside of the buffer, a sum outside of `int`. -/
inductive Stop where
  | thrown
  | undefined
  deriving DecidableEq, Repr

abbrev Reads (α : Type) := Reading Stop α

def readBytes (data : Bytes) (start : Int) (len : Nat) : Reads Bytes := readAt data .undefined start len

def readInt (data : Bytes) (start : Int) : Reads Int := do pure (leInt (← readBytes data start 4))

def readInt32 (data : Bytes) (start : Int) : Reads Int32 := do pure (Int32.ofInt (← readInt data start))

def newChar (size : Int) : Reads Unit := if size < 0 ∨ 2^63 ≤ size then throw .thrown else pure ()

def sized (bound : Nat) (bytes : Bytes) : Reads {bytes : Bytes // bytes.length < bound} :=
  if fits : bytes.length < bound then pure ⟨bytes,fits⟩ else throw .undefined

def readValue (data : Bytes) (start : Int) : Reads RmRecord := do
  let size ← readInt data start
  newChar size
  let bytes ← readBytes data (start+4) size.toNat
  sized _ bytes

def readRid (data : Bytes) (start : Int) : Reads Rid := do
  let rid ← readBytes data start 8
  pure ⟨Int32.ofInt (leInt (rid.take 4)),Int32.ofInt (leInt (rid.drop 4))⟩

def readName (data : Bytes) (start : Int) : Reads TableName := do
  let size ← readBytes data start 8
  newChar (leNat size)
  let bytes ← readBytes data (start+8) (leNat size)
  sized _ bytes

/- What has been read lies in a buffer whose size is an `int`, so the offsets are of that type. -/
def insertData (data : Bytes) (src : Int) : Reads LogData := do
  let value ← readValue data (src+20)
  let offset : Nat := 20+value.val.length+4
  let rid ← readRid data (src+offset)
  let offset := offset+8
  let name ← readName data (src+offset)
  pure (.insert value rid name)

def deleteData (data : Bytes) (src : Int) : Reads LogData := do
  let value ← readValue data (src+20)
  let offset : Nat := 20+4+value.val.length
  let rid ← readRid data (src+offset)
  let offset := offset+8
  let name ← readName data (src+offset)
  pure (.delete value rid name)

def updateData (data : Bytes) (src : Int) : Reads LogData := do
  let offset : Nat := 20
  let oldValue ← readValue data (src+offset)
  let offset := offset+(4+oldValue.val.length)
  let newValue ← readValue data (src+offset)
  let offset := offset+(4+newValue.val.length)
  let rid ← readRid data (src+offset)
  let offset := offset+8
  let name ← readName data (src+offset)
  pure (.update oldValue newValue rid name)

def readData (data : Bytes) (src logType : Int) : Option (Reads LogData) :=
  if logType = 0 then some (updateData data src)
  else if logType = 1 then some (insertData data src)
  else if logType = 2 then some (deleteData data src)
  else if logType = 3 then some (pure .begin)
  else if logType = 4 then some (pure .commit)
  else if logType = 5 then some (pure .abort)
  else none

def deserialize (data : Bytes) (src : Int) (rest : Reads LogData) : Reads LogRecord := do
  let _ ← readInt data src
  let lsn ← readInt32 data (src+4)
  let logTotLen ← readBytes data (src+8) 4
  let logTid ← readInt32 data (src+12)
  let prevLsn ← readInt32 data (src+16)
  pure ⟨lsn,UInt32.ofNat (leNat logTotLen),logTid,prevLsn,← rest⟩

def parseLogRecord (data : Bytes) (src : Int) : Reads (Option LogRecord) := do
  match readData data src (← readInt data src) with
  | none => pure none
  | some rest => some <$> deserialize data src rest

def isInt (v : Int) : Prop := -2^31 ≤ v ∧ v < 2^31
instance (v : Int) : Decidable (isInt v) := inferInstanceAs (Decidable (_ ∧ _))

def turn (data : Bytes) (offset : Int) : Reads (Option (LogRecord × Int)) :=
  if ¬isInt (offset+logHeaderSize) then throw .undefined
  else if offset+logHeaderSize ≤ data.length then do
    let logLen := leNat (← readBytes data (offset+offsetLogTotLen) 4)
    if logLen < logHeaderSize then pure none
    else if ¬isInt (offset+narrow logLen) then throw .undefined
    else if offset+narrow logLen > data.length then pure none
    else
      match ← parseLogRecord data offset with
      | none => pure none
      | some record => pure (some (record,offset+narrow logLen))
  else pure none

def readLogs (data : Bytes) : Nat → Int → Reads (Option (List LogRecord))
  | 0,_ => pure none
  | fuel+1,offset => do
    match ← turn data offset with
    | none => pure (some [])
    | some (record,next) =>
      let logs ← readLogs data fuel next
      pure (logs.map (record :: ·))

def contents (file : Bytes) : Bytes := file.take (narrow file.length).toNat

inductive Reached (data : Bytes) : Int → Prop
  | start : Reached data 0
  | next {offset offset' : Int} {record : LogRecord} (before : Reached data offset)
      (step : (turn data offset).result = .ok (some (record,offset'))) : Reached data offset'

section Sizes

def intAt (record : Bytes) (k : Nat) : Int := leInt ((record.drop k).take 4)

def sizeAt (record : Bytes) (k : Nat) : Nat := leNat ((record.drop k).take 8)

def ValueFits (refused : Prop) (record : Bytes) (k : Nat) (rest : Nat → Prop) : Prop :=
  k+4 ≤ record.length ∧ (intAt record k < 0 → refused) ∧
    (0 ≤ intAt record k → k+4+(intAt record k).toNat ≤ record.length ∧ rest (k+4+(intAt record k).toNat))

def NameFits (refused : Prop) (record : Bytes) (k : Nat) : Prop :=
  k+16 ≤ record.length ∧ (2^63 ≤ sizeAt record (k+8) → refused) ∧
    (sizeAt record (k+8) < 2^63 → k+16+sizeAt record (k+8) ≤ record.length)

def Known (record : Bytes) : Prop := 0 ≤ intAt record 0 ∧ intAt record 0 ≤ 5
instance (record : Bytes) : Decidable (Known record) := inferInstanceAs (Decidable (_ ∧ _))

def SizesFit (refused : Prop) (record : Bytes) : Prop :=
  if intAt record 0 = 0 then ValueFits refused record 20 fun k => ValueFits refused record k (NameFits refused record)
  else if intAt record 0 = 1 ∨ intAt record 0 = 2 then ValueFits refused record 20 (NameFits refused record)
  else True

end Sizes

/- The computation stays between `low` and `high` if and only if `fits`; then it comes to an end if and
only if `whole`, and is otherwise thrown out. -/
structure Judged {α : Type} (x : Reads α) (low high : Int) (fits whole : Prop) : Prop where
  within : x.Within low high ↔ fits
  settled : fits → (whole ∧ ∃ a, x.result = .ok a) ∨ (¬whole ∧ x.result = .error .thrown)

section Judgements
variable {data : Bytes} {o size : Nat} {k n : Nat} {α β : Type} {fits whole fits' whole' : Prop}

theorem Judged.congr {x : Reads α} {low high : Int} (judged : Judged x low high fits whole) (same : fits ↔ fits')
    (same' : whole ↔ whole') : Judged x low high fits' whole' := by
  rw [← propext same,← propext same']
  exact judged

theorem judgedPure {low high : Int} (a : α) : Judged (pure a : Reads α) low high True True :=
  ⟨iff_of_true (withinPure a) trivial,fun _ => .inl ⟨trivial,a,rfl⟩⟩

theorem judgedNew {x : Reads α} {low high : Int} {v : Int} (judged : 0 ≤ v ∧ v < 2^63 → Judged x low high fits whole) :
    Judged (newChar v >>= fun _ => x) low high (0 ≤ v ∧ v < 2^63 → fits) ((0 ≤ v ∧ v < 2^63) ∧ whole) := by
  rw [newChar]
  by_cases refused : v < 0 ∨ 2^63 ≤ v
  · rw [if_pos refused]
    have no : ¬(0 ≤ v ∧ v < 2^63) := by omega
    refine ⟨iff_of_true (fun _ mem => absurd mem List.not_mem_nil) fun yes => absurd yes no,fun _ => .inr ⟨?_,rfl⟩⟩
    exact fun both => no both.1
  · rw [if_neg refused]
    have yes : 0 ≤ v ∧ v < 2^63 := by omega
    exact (judged yes).congr ⟨fun done _ => done,fun all => all yes⟩ ⟨fun done => ⟨yes,done⟩,And.right⟩

theorem readDone (inside : o+size ≤ data.length) (room : k+n ≤ size) :
    (readBytes data (o+k : Nat) n).result = .ok ((((data.drop o).take size).drop k).take n) := by
  have bytes : (((data.drop o).take size).drop k).take n = (data.drop (o+k)).take n := by
    rw [List.drop_take,List.take_take,List.drop_drop,Nat.min_eq_left (by omega)]
  rw [bytes]
  exact readAtInside (by omega)

theorem judgedRead {f : Bytes → Reads α} (inside : o+size ≤ data.length)
    (judged : k+n ≤ size → Judged (f ((((data.drop o).take size).drop k).take n)) o (o+size : Nat) fits whole) :
    Judged (readBytes data (o+k : Nat) n >>= f) o (o+size : Nat) (k+n ≤ size ∧ fits) (k+n ≤ size ∧ whole) := by
  by_cases room : k+n ≤ size
  · have done := readDone inside room
    obtain ⟨within,settled⟩ := judged room
    constructor
    · rw [withinBind,readBytes,readAtWithin,← readBytes,done]
      constructor
      · rintro ⟨-,rest⟩
        exact ⟨room,within.mp (rest _ rfl)⟩
      · rintro ⟨-,rest⟩
        refine ⟨⟨by omega,by omega⟩,fun a same => ?_⟩
        cases same
        exact within.mpr rest
    · rintro ⟨-,rest⟩
      rw [Reading.bindOk f done]
      exact (settled rest).imp (fun ⟨all,last⟩ => ⟨⟨room,all⟩,last⟩) fun ⟨part,last⟩ => ⟨fun all => part all.2,last⟩
  · constructor
    · rw [withinBind,readBytes,readAtWithin]
      exact iff_of_false (fun all => by omega) fun all => room all.1
    · exact fun all => absurd all.1 room

theorem sliceLength (inside : o+size ≤ data.length) : ((data.drop o).take size).length = size := by
  rw [List.length_take,List.length_drop]
  omega

theorem judgedBlock {bound : Nat} {f : {bytes : Bytes // bytes.length < bound} → Reads α} {fits whole : Prop}
    (sizeOf : Bytes → Int) {v : Int} (sizeIs : sizeOf ((((data.drop o).take size).drop k).take n) = v)
    (inside : o+size ≤ data.length) (small : data.length < bound)
    (judged : ∀ b, b.val.length = v.toNat → Judged (f b) o (o+size : Nat) fits whole) :
    Judged (readBytes data (o+k : Nat) n >>= fun s => newChar (sizeOf s) >>= fun _ =>
        readBytes data ((o+k : Nat)+n) (sizeOf s).toNat >>= fun bytes => sized bound bytes >>= f) o (o+size : Nat)
      (k+n ≤ size ∧ (0 ≤ v ∧ v < 2^63 → k+n+v.toNat ≤ size ∧ fits))
      (k+n ≤ size ∧ (0 ≤ v ∧ v < 2^63) ∧ k+n+v.toNat ≤ size ∧ whole) := by
  have after : ((o+k : Nat) : Int)+n = (o+(k+n) : Nat) := by push_cast; omega
  refine judgedRead inside fun room => ?_
  rw [sizeIs,after]
  refine judgedNew fun allowed => judgedRead inside fun more => ?_
  have length : ((((data.drop o).take size).drop (k+n)).take v.toNat).length = v.toNat := by
    rw [List.length_take,List.length_drop,sliceLength inside]
    omega
  rw [sized,dif_pos (by omega),pure_bind]
  exact judged _ length

theorem judgedValue {f : RmRecord → Reads α} {fits whole : Nat → Prop} (inside : o+size ≤ data.length)
    (small : data.length < 2^31)
    (judged : ∀ v : RmRecord, Judged (f v) o (o+size : Nat) (fits (k+4+v.val.length)) (whole (k+4+v.val.length))) :
    Judged (readValue data (o+k : Nat) >>= f) o (o+size : Nat) (ValueFits True ((data.drop o).take size) k fits)
      (ValueFits False ((data.drop o).take size) k whole) := by
  have length := @sliceLength data o size inside
  have block := @judgedBlock data o size k 4 α (2^31) f _ _ leInt _ rfl inside small fun b same => same ▸ judged b
  have high : k+4 ≤ size → leInt ((((data.drop o).take size).drop k).take 4) < 2^63 := by
    intro room
    have four : ((((data.drop o).take size).drop k).take 4).length = 4 := by
      rw [List.length_take,List.length_drop,length]
      omega
    have high := @leIntHigh ((((data.drop o).take size).drop k).take 4)
    rw [four] at high
    norm_num at high
    omega
  simp only [readValue,readInt,bind_assoc,pure_bind]
  refine block.congr ?_ ?_ <;> rw [ValueFits,length,intAt]
  · constructor
    · rintro ⟨room,rest⟩
      exact ⟨room,fun _ => trivial,fun nonneg => rest ⟨nonneg,high room⟩⟩
    · rintro ⟨room,-,rest⟩
      exact ⟨room,fun allowed => rest allowed.1⟩
  · constructor
    · rintro ⟨room,allowed,rest⟩
      exact ⟨room,fun negative => absurd allowed.1 (not_le.mpr negative),fun _ => rest⟩
    · rintro ⟨room,nonneg,rest⟩
      have allowed := not_lt.mp nonneg
      exact ⟨room,⟨allowed,high room⟩,rest allowed⟩

theorem judgedName {f : Rid → TableName → Reads α} (inside : o+size ≤ data.length) (small : data.length < 2^31)
    (judged : ∀ rid name, Judged (f rid name) o (o+size : Nat) True True) :
    Judged (readRid data (o+k : Nat) >>= fun rid => readName data (o+(k+8) : Nat) >>= f rid) o (o+size : Nat)
      (NameFits True ((data.drop o).take size) k) (NameFits False ((data.drop o).take size) k) := by
  have length := @sliceLength data o size inside
  have block := fun rid => @judgedBlock data o size (k+8) 8 α (2^64) (f rid) True True (fun bytes => leNat bytes) _ rfl inside
    (by omega) fun name _ => judged rid name
  simp only [Int.toNat_natCast] at block
  simp only [readRid,readName,bind_assoc,pure_bind]
  refine (judgedRead inside fun _ => block _).congr ?_ ?_ <;> rw [NameFits,length,sizeAt]
  · constructor
    · rintro ⟨-,room,rest⟩
      exact ⟨by omega,fun _ => trivial,fun allowed => (rest ⟨by omega,by omega⟩).1⟩
    · rintro ⟨room,-,rest⟩
      exact ⟨by omega,by omega,fun allowed => ⟨rest (by omega),trivial⟩⟩
  · constructor
    · rintro ⟨-,room,allowed,inside,-⟩
      exact ⟨by omega,by omega,fun _ => inside⟩
    · rintro ⟨room,allowed,rest⟩
      have taken := not_le.mp allowed
      exact ⟨by omega,by omega,⟨by omega,by omega⟩,rest taken,trivial⟩

theorem judgedThen {x : Reads α} {f : α → Reads β} {low high : Int} (judged : Judged x low high fits whole)
    (next : ∀ a, Judged (f a) low high True True) : Judged (x >>= f) low high fits whole := by
  refine ⟨?_,fun all => ?_⟩
  · rw [withinBind,judged.within]
    exact ⟨And.left,fun all => ⟨all,fun a _ => (next a).within.mpr trivial⟩⟩
  · rcases judged.settled all with ⟨yes,a,done⟩ | ⟨no,thrown⟩
    · obtain ⟨-,b,last⟩ | ⟨no,-⟩ := (next a).settled trivial
      · exact .inl ⟨yes,b,by rw [Reading.bindOk f done]; exact last⟩
      · exact absurd trivial no
    · exact .inr ⟨no,by rw [Reading.bindError f thrown]⟩

theorem insertRead (data : Bytes) (o : Nat) : insertData data o = (do
    let value ← readValue data (o+20 : Nat)
    let rid ← readRid data (o+(20+4+value.val.length) : Nat)
    let name ← readName data (o+(20+4+value.val.length+8) : Nat)
    pure (.insert value rid name)) := by
  rw [insertData]
  refine congrArg _ (funext fun value => ?_)
  have rid : (o : Int)+(20+value.val.length+4 : Nat) = (o+(20+4+value.val.length) : Nat) := by push_cast; omega
  have name : (o : Int)+(20+value.val.length+4+8 : Nat) = (o+(20+4+value.val.length+8) : Nat) := by push_cast; omega
  dsimp only
  rw [rid,name]

theorem judgedOne (make : RmRecord → Rid → TableName → LogData) (inside : o+size ≤ data.length) (small : data.length < 2^31) :
    Judged (do
        let value ← readValue data (o+20 : Nat)
        let rid ← readRid data (o+(20+4+value.val.length) : Nat)
        let name ← readName data (o+(20+4+value.val.length+8) : Nat)
        pure (make value rid name)) o (o+size : Nat)
      (ValueFits True ((data.drop o).take size) 20 (NameFits True ((data.drop o).take size)))
      (ValueFits False ((data.drop o).take size) 20 (NameFits False ((data.drop o).take size))) :=
  judgedValue inside small fun _ => judgedName inside small fun _ _ => judgedPure _

theorem judgedUpdate (inside : o+size ≤ data.length) (small : data.length < 2^31) :
    Judged (updateData data o) o (o+size : Nat)
      (ValueFits True ((data.drop o).take size) 20 fun k =>
        ValueFits True ((data.drop o).take size) k (NameFits True ((data.drop o).take size)))
      (ValueFits False ((data.drop o).take size) 20 fun k =>
        ValueFits False ((data.drop o).take size) k (NameFits False ((data.drop o).take size))) := by
  refine judgedValue inside small fun old => ?_
  have next : (o : Int)+(20+(4+old.val.length) : Nat) = (o+(20+4+old.val.length) : Nat) := by push_cast; omega
  dsimp only
  rw [next]
  refine judgedValue inside small fun new => ?_
  have rid : (o : Int)+(20+(4+old.val.length)+(4+new.val.length) : Nat) =
      (o+(20+4+old.val.length+4+new.val.length) : Nat) := by push_cast; omega
  have name : (o : Int)+(20+(4+old.val.length)+(4+new.val.length)+8 : Nat) =
      (o+(20+4+old.val.length+4+new.val.length+8) : Nat) := by push_cast; omega
  rw [rid,name]
  exact judgedName inside small fun _ _ => judgedPure _

theorem judgedHeader {f : Bytes → Reads α} (inside : o+size ≤ data.length) (room : k+n ≤ size)
    (judged : Judged (f ((((data.drop o).take size).drop k).take n)) o (o+size : Nat) fits whole) :
    Judged (readBytes data (o+k : Nat) n >>= f) o (o+size : Nat) fits whole :=
  (judgedRead inside fun _ => judged).congr (and_iff_right room) (and_iff_right room)

theorem judgedDeserialize {rest : Reads LogData} (inside : o+size ≤ data.length) (room : 20 ≤ size)
    (judged : Judged rest o (o+size : Nat) fits whole) : Judged (deserialize data o rest) o (o+size : Nat) fits whole := by
  simp only [deserialize,readInt32,readInt,bind_assoc,pure_bind]
  refine @judgedHeader data o size 0 _ _ _ _ _ inside (by omega) ?_
  refine @judgedHeader data o size 4 _ _ _ _ _ inside (by omega) ?_
  refine @judgedHeader data o size 8 _ _ _ _ _ inside (by omega) ?_
  refine @judgedHeader data o size 12 _ _ _ _ _ inside (by omega) ?_
  refine @judgedHeader data o size 16 _ _ _ _ _ inside (by omega) ?_
  exact judgedThen judged fun _ => judgedPure _

theorem judgedData {logType : Int} (inside : o+size ≤ data.length) (small : data.length < 2^31)
    (typeIs : intAt ((data.drop o).take size) 0 = logType) {rest : Reads LogData}
    (found : readData data o logType = some rest) :
    Judged rest o (o+size : Nat) (SizesFit True ((data.drop o).take size)) (SizesFit False ((data.drop o).take size)) := by
  rw [readData] at found
  rw [SizesFit,SizesFit,typeIs]
  split at found
  · rename_i update
    cases found
    rw [if_pos update,if_pos update]
    exact judgedUpdate inside small
  · rename_i notUpdate
    rw [if_neg notUpdate,if_neg notUpdate]
    split at found
    · rename_i insert
      cases found
      rw [if_pos (.inl insert),if_pos (.inl insert)]
      rw [insertRead]
      exact judgedOne .insert inside small
    · rename_i notInsert
      split at found
      · rename_i delete
        cases found
        rw [if_pos (.inr delete),if_pos (.inr delete)]
        exact judgedOne .delete inside small
      · rename_i notDelete
        have plain : ¬(logType = 1 ∨ logType = 2) := by omega
        rw [if_neg plain,if_neg plain]
        split at found
        · cases found; exact judgedPure _
        · split at found
          · cases found; exact judgedPure _
          · split at found
            · cases found; exact judgedPure _
            · cases found

theorem readDataNone {src logType : Int} : readData data src logType = none ↔ ¬(0 ≤ logType ∧ logType ≤ 5) := by
  rw [readData]
  split_ifs <;> simp only [false_iff,true_iff,not_not] <;> omega

theorem judgedParse (inside : o+size ≤ data.length) (small : data.length < 2^31) (room : 20 ≤ size) :
    Judged (parseLogRecord data o) o (o+size : Nat) (Known ((data.drop o).take size) → SizesFit True ((data.drop o).take size))
      (Known ((data.drop o).take size) → SizesFit False ((data.drop o).take size)) ∧
    ∀ p, (parseLogRecord data o).result = .ok p → (p = none ↔ ¬Known ((data.drop o).take size)) := by
  have head := @readDone data o size 0 4 inside (by omega)
  simp only [parseLogRecord,readInt,bind_assoc,pure_bind]
  cases found : readData data o (intAt ((data.drop o).take size) 0) with
  | none =>
    have unknown : ¬Known ((data.drop o).take size) := readDataNone.mp found
    rw [iff_true_intro unknown]
    constructor
    · refine @judgedHeader data o size 0 _ _ _ _ _ inside (by omega) ?_
      rw [← intAt,found]
      exact (judgedPure none).congr (iff_of_true trivial fun known => absurd known unknown)
        (iff_of_true trivial fun known => absurd known unknown)
    · intro p done
      rw [show (o : Int) = (o+0 : Nat) from rfl,Reading.bindOk _ head,← intAt,Nat.add_zero,found] at done
      cases done
      exact iff_of_true rfl trivial
  | some rest =>
    have known : Known ((data.drop o).take size) :=
      not_not.mp fun unknown => Option.some_ne_none rest (found.symm.trans (readDataNone.mpr unknown))
    rw [iff_false_intro (not_not_intro known)]
    constructor
    · refine @judgedHeader data o size 0 _ _ _ _ _ inside (by omega) ?_
      rw [← intAt,found]
      dsimp only
      rw [map_eq_pure_bind]
      refine (judgedThen (judgedDeserialize inside room (judgedData inside small rfl found)) fun _ => judgedPure _).congr ?_ ?_
      · exact ⟨fun all _ => all,fun all => all known⟩
      · exact ⟨fun all _ => all,fun all => all known⟩
    · intro p done
      rw [show (o : Int) = (o+0 : Nat) from rfl,Reading.bindOk _ head,← intAt,Nat.add_zero,found] at done
      dsimp only at done
      rw [map_eq_pure_bind] at done
      cases rest' : (deserialize data o rest).result with
      | error e => rw [Reading.bindError _ rest'] at done; cases done
      | ok record =>
        rw [Reading.bindOk _ rest'] at done
        cases done
        exact iff_of_false (Option.some_ne_none record) id

end Judgements

def recordAt (data : Bytes) (o : Nat) : Bytes := (data.drop o).take (lengthField data o)

structure SafeTurn (data : Bytes) (offset : Int) : Prop where
  inside : (turn data offset).Within offset
    (min (offset+(max logHeaderSize (lengthField data offset.toNat) : Nat)) data.length)
  defined : (turn data offset).result ≠ .error .undefined
  forward : ∀ record next, (turn data offset).result = .ok (some (record,next)) → offset < next

def WellSized (data : Bytes) (o : Nat) : Prop :=
  o+logHeaderSize < 2^31 ∧ (o+logHeaderSize ≤ data.length → logHeaderSize ≤ lengthField data o →
    if lengthField data o < 2^31 then
      o+lengthField data o < 2^31 ∧ (o+lengthField data o ≤ data.length → SizesFit True (recordAt data o))
    else SizesFit True (recordAt data o) ∧ ¬(Known (recordAt data o) ∧ SizesFit False (recordAt data o)))

def turnTail (data : Bytes) (offset : Int) : Reads (Option (LogRecord × Int)) :=
  let logLen := lengthField data offset.toNat
  if logLen < logHeaderSize then pure none
  else if ¬isInt (offset+narrow logLen) then throw .undefined
  else if offset+narrow logLen > data.length then pure none
  else do
    match ← parseLogRecord data offset with
    | none => pure none
    | some record => pure (some (record,offset+narrow logLen))

section Turns
variable {data : Bytes} {o : Nat}

theorem fitUnknown {refused : Prop} {record : Bytes} (unknown : ¬Known record) : SizesFit refused record := by
  rw [Known] at unknown
  rw [SizesFit,if_neg (by omega),if_neg (by omega)]
  trivial

theorem lengthBound (data : Bytes) (o : Nat) : lengthField data o < 2^32 := by
  have bound := leNatBound ((data.drop (o+offsetLogTotLen)).take 4)
  have short : ((data.drop (o+offsetLogTotLen)).take 4).length ≤ 4 := List.length_take_le ..
  calc lengthField data o < 256^((data.drop (o+offsetLogTotLen)).take 4).length := bound
    _ ≤ 256^4 := Nat.pow_le_pow_right (by decide) short
    _ = 2^32 := by norm_num

theorem narrowLarge {n : Nat} (low : 2^31 ≤ n) (high : n < 2^32) : narrow n = (n : Int)-2^32 := by
  rw [narrow,Int.bmod]
  norm_num
  omega

theorem turnAtEnd (fits : o+logHeaderSize < 2^31) (ends : data.length < o+logHeaderSize) : turn data o = pure none := by
  have int : isInt (o+logHeaderSize) := ⟨by omega,by omega⟩
  rw [turn,if_neg (not_not_intro int),if_neg (by omega)]

theorem turnAtHeader (small : data.length < 2^31) (header : o+logHeaderSize ≤ data.length) :
    turn data o = ⟨⟨(o+8 : Nat),4⟩ :: (turnTail data o).reads,(turnTail data o).result⟩ := by
  have twenty : logHeaderSize = 20 := rfl
  have int : isInt (o+logHeaderSize) := ⟨by omega,by omega⟩
  have done := @readDone data o 20 8 4 (by omega) (by omega)
  rw [List.drop_take,List.take_take,List.drop_drop] at done
  rw [turn,if_neg (not_not_intro int),if_pos (by omega),show (o : Int)+offsetLogTotLen = (o+8 : Nat) from rfl,
    Reading.bindOk _ done]
  rfl

theorem tailSafe (small : data.length < 2^31) (header : o+logHeaderSize ≤ data.length) : SafeTurn data o ↔
    (turnTail data o).Within o (o+min (max logHeaderSize (lengthField data o)) (data.length-o) : Nat) ∧
      (turnTail data o).result ≠ .error .undefined ∧
        ∀ record next, (turnTail data o).result = .ok (some (record,next)) → (o : Int) < next := by
  have twenty : logHeaderSize = 20 := rfl
  have run := turnAtHeader small header
  have high : min ((o : Int)+(max logHeaderSize (lengthField data (o : Int).toNat) : Nat)) data.length =
      (o+min (max logHeaderSize (lengthField data o)) (data.length-o) : Nat) := by
    rw [Int.toNat_natCast]
    omega
  constructor
  · rintro ⟨inside,defined,forward⟩
    rw [run] at inside defined forward
    rw [high] at inside
    exact ⟨fun s mem => inside s (List.mem_cons_of_mem _ mem),defined,forward⟩
  · rintro ⟨inside,defined,forward⟩
    refine ⟨?_,by rw [run]; exact defined,by rw [run]; exact forward⟩
    rw [run,high]
    rintro s mem
    rcases List.mem_cons.mp mem with rfl | mem
    · exact ⟨by dsimp only; omega,by dsimp only; omega⟩
    · exact inside s mem

theorem endSafe {low high : Int} : (pure none : Reads (Option (LogRecord × Int))).Within low high ∧
    (pure none : Reads (Option (LogRecord × Int))).result ≠ .error .undefined ∧
      ∀ record next, (pure none : Reads (Option (LogRecord × Int))).result = .ok (some (record,next)) → (o : Int) < next := by
  refine ⟨withinPure _,?_,?_⟩
  · intro undefined
    cases undefined
  · intro record next done
    cases done

def Continues (data : Bytes) (o : Nat) : Prop :=
  o+logHeaderSize ≤ data.length ∧ logHeaderSize ≤ lengthField data o ∧ o+lengthField data o ≤ data.length ∧
    Known (recordAt data o) ∧ SizesFit False (recordAt data o)

theorem tailParses (small : data.length < 2^31) (header : o+logHeaderSize ≤ data.length)
    (long : logHeaderSize ≤ lengthField data o) (int : isInt (o+narrow (lengthField data o)))
    (inFile : o+narrow (lengthField data o) ≤ data.length) :
    Judged (turnTail data o) o (o+min (max logHeaderSize (lengthField data o)) (data.length-o) : Nat)
      (SizesFit True (recordAt data o)) (Known (recordAt data o) → SizesFit False (recordAt data o)) ∧
    ∀ q, (turnTail data o).result = .ok q → (q = none ↔ ¬Known (recordAt data o)) ∧
      ∀ record next, q = some (record,next) → next = o+narrow (lengthField data o) := by
  have twenty : logHeaderSize = 20 := rfl
  have size : min (max logHeaderSize (lengthField data o)) (data.length-o) = min (lengthField data o) (data.length-o) := by
    omega
  have slice : (data.drop o).take (min (lengthField data o) (data.length-o)) = recordAt data o := by
    rw [recordAt,← List.length_drop,← List.take_take,List.take_length]
  obtain ⟨judged,result⟩ := @judgedParse data o (min (lengthField data o) (data.length-o)) (by omega) small (by omega)
  rw [slice] at judged result
  have tail : turnTail data o = (parseLogRecord data o >>= fun p => match p with
      | none => pure none
      | some record => pure (some (record,o+narrow (lengthField data o)))) := by
    simp only [turnTail,Int.toNat_natCast]
    rw [if_neg (by omega),if_neg (not_not_intro int),if_neg (by omega)]
  rw [size,tail]
  constructor
  · refine (judgedThen judged fun p => ?_).congr ⟨fun all => ?_,fun all _ => all⟩ Iff.rfl
    · cases p with
      | none => exact judgedPure _
      | some record => exact judgedPure _
    · by_cases known : Known (recordAt data o)
      · exact all known
      · exact fitUnknown known
  · intro q done
    cases parsed : (parseLogRecord data o).result with
    | error e => rw [Reading.bindError _ parsed] at done; cases done
    | ok p =>
      have kind := result p parsed
      rw [Reading.bindOk _ parsed] at done
      cases p with
      | none =>
        cases done
        exact ⟨iff_of_true rfl (kind.mp rfl),fun _ _ same => by cases same⟩
      | some record =>
        cases done
        refine ⟨iff_of_false (Option.some_ne_none _) fun unknown => Option.some_ne_none _ (kind.mpr unknown),?_⟩
        intro r n same
        cases same
        rfl

theorem turnWhole (small : data.length < 2^31) (header : o+logHeaderSize ≤ data.length)
    (long : logHeaderSize ≤ lengthField data o) (int : isInt (o+narrow (lengthField data o)))
    (inFile : o+narrow (lengthField data o) ≤ data.length) (fits : SizesFit True (recordAt data o))
    (known : Known (recordAt data o)) (whole : SizesFit False (recordAt data o)) :
    ∃ record, (turn data o).result = .ok (some (record,o+narrow (lengthField data o))) := by
  obtain ⟨judged,result⟩ := tailParses small header long int inFile
  rw [turnAtHeader small header]
  rcases judged.settled fits with ⟨-,q,done⟩ | ⟨part,-⟩
  · obtain ⟨kind,after⟩ := result q done
    cases q with
    | none => exact absurd known (kind.mp rfl)
    | some pair => exact ⟨pair.1,by rw [← after pair.1 pair.2 rfl]; exact done⟩
  · exact absurd (fun _ => whole) part

theorem turnShort (small : data.length < 2^31) (header : o+logHeaderSize ≤ data.length)
    (long : logHeaderSize ≤ lengthField data o) (short : lengthField data o < 2^31) : SafeTurn data o ↔
      o+lengthField data o < 2^31 ∧ (o+lengthField data o ≤ data.length → SizesFit True (recordAt data o)) := by
  have twenty : logHeaderSize = 20 := rfl
  have width : narrow (lengthField data o) = lengthField data o := narrowSmall (by omega) (by omega)
  rw [tailSafe small header]
  by_cases sum : o+lengthField data o < 2^31
  · have int : isInt (o+narrow (lengthField data o)) := by rw [width]; exact ⟨by omega,by omega⟩
    rw [and_iff_right sum]
    by_cases inFile : o+lengthField data o ≤ data.length
    · obtain ⟨judged,result⟩ := tailParses small header long int (by rw [width]; omega)
      rw [judged.within]
      constructor
      · rintro ⟨fits,-⟩ -
        exact fits
      · intro fits
        refine ⟨fits inFile,fun undefined => ?_,fun record next done => ?_⟩
        · rcases judged.settled (fits inFile) with ⟨-,a,done⟩ | ⟨-,thrown⟩
          · rw [undefined] at done; cases done
          · rw [undefined] at thrown; cases thrown
        · rw [(result _ done).2 record next rfl,width]
          omega
    · have out : turnTail data o = pure none := by
        simp only [turnTail,Int.toNat_natCast]
        rw [if_neg (by omega),if_neg (not_not_intro int),if_pos (by rw [width]; omega)]
      rw [out]
      exact iff_of_true endSafe fun inside => absurd inside inFile
  · have out : turnTail data o = throw .undefined := by
      simp only [turnTail,Int.toNat_natCast]
      rw [if_neg (by omega),if_pos (fun int => sum (by rw [width] at int; have high := int.2; omega))]
    rw [out]
    exact iff_of_false (fun safe => safe.2.1 rfl) fun all => sum all.1

theorem turnLong (small : data.length < 2^31) (header : o+logHeaderSize ≤ data.length)
    (large : 2^31 ≤ lengthField data o) : SafeTurn data o ↔
      SizesFit True (recordAt data o) ∧ ¬(Known (recordAt data o) ∧ SizesFit False (recordAt data o)) := by
  have twenty : logHeaderSize = 20 := rfl
  have width := narrowLarge large (lengthBound data o)
  have bound := lengthBound data o
  have int : isInt (o+narrow (lengthField data o)) := by rw [width]; exact ⟨by omega,by omega⟩
  obtain ⟨judged,result⟩ := tailParses small header (by omega) int (by rw [width]; omega)
  rw [tailSafe small header,judged.within]
  constructor
  · rintro ⟨fits,-,forward⟩
    refine ⟨fits,fun ⟨known,whole⟩ => ?_⟩
    rcases judged.settled fits with ⟨-,q,done⟩ | ⟨no,-⟩
    · obtain ⟨kind,next⟩ := result q done
      cases q with
      | none => exact kind.mp rfl known
      | some pair =>
        have later := forward pair.1 pair.2 done
        rw [next pair.1 pair.2 rfl,width] at later
        omega
    · exact no fun _ => whole
  · rintro ⟨fits,part⟩
    refine ⟨fits,fun undefined => ?_,fun record next done => ?_⟩
    · rcases judged.settled fits with ⟨-,a,done⟩ | ⟨-,thrown⟩
      · rw [undefined] at done; cases done
      · rw [undefined] at thrown; cases thrown
    · obtain ⟨kind,-⟩ := result _ done
      have known := not_not.mp (mt kind.mpr (Option.some_ne_none _))
      rcases judged.settled fits with ⟨whole,-⟩ | ⟨-,thrown⟩
      · exact absurd ⟨known,whole known⟩ part
      · rw [done] at thrown; cases thrown

theorem turnSafe (small : data.length < 2^31) : SafeTurn data o ↔ WellSized data o := by
  have twenty : logHeaderSize = 20 := rfl
  rw [WellSized]
  by_cases fits : o+logHeaderSize < 2^31
  · rw [and_iff_right fits]
    by_cases header : o+logHeaderSize ≤ data.length
    · by_cases long : logHeaderSize ≤ lengthField data o
      · by_cases short : lengthField data o < 2^31
        · rw [turnShort small header long short,if_pos short]
          exact ⟨fun all _ _ => all,fun all => all header long⟩
        · rw [turnLong small header (by omega),if_neg short]
          exact ⟨fun all _ _ => all,fun all => all header long⟩
      · have out : turnTail data o = pure none := by
          simp only [turnTail,Int.toNat_natCast]
          rw [if_pos (by omega)]
        rw [tailSafe small header,out]
        exact iff_of_true endSafe fun _ inside => absurd inside long
    · obtain ⟨-,defined,forward⟩ := @endSafe o 0 0
      have out := @turnAtEnd data o fits (by omega)
      refine iff_of_true ⟨?_,?_,?_⟩ fun inside => absurd inside header
      · rw [out]
        exact withinPure _
      · rw [out]
        exact defined
      · rw [out]
        exact forward
  · refine iff_of_false (fun safe => safe.defined ?_) fun all => fits all.1
    rw [turn,if_pos (fun int => fits (by have high := int.2; omega))]
    rfl

theorem turnNext (small : data.length < 2^31) (sized : WellSized data o) {next : Int} :
    (∃ record, (turn data o).result = .ok (some (record,next))) ↔
      Continues data o ∧ next = (o+lengthField data o : Nat) := by
  have twenty : logHeaderSize = 20 := rfl
  have safe := (turnSafe small).mpr sized
  by_cases header : o+logHeaderSize ≤ data.length
  · have run : (turn data o).result = (turnTail data o).result := by rw [turnAtHeader small header]
    rw [run]
    by_cases long : logHeaderSize ≤ lengthField data o
    · by_cases short : lengthField data o < 2^31
      · obtain ⟨sum,fits⟩ := (turnShort small header long short).mp safe
        have width : narrow (lengthField data o) = lengthField data o := narrowSmall (by omega) (by omega)
        have int : isInt (o+narrow (lengthField data o)) := by rw [width]; exact ⟨by omega,by omega⟩
        by_cases inFile : o+lengthField data o ≤ data.length
        · obtain ⟨judged,result⟩ := tailParses small header long int (by rw [width]; omega)
          have settled := judged.settled (fits inFile)
          constructor
          · rintro ⟨record,done⟩
            obtain ⟨kind,after⟩ := result _ done
            have known := not_not.mp (mt kind.mpr (Option.some_ne_none _))
            refine ⟨⟨header,long,inFile,known,?_⟩,by rw [after record next rfl,width]; rfl⟩
            rcases settled with ⟨whole,-⟩ | ⟨-,thrown⟩
            · exact whole known
            · rw [done] at thrown; cases thrown
          · rintro ⟨⟨-,-,-,known,whole⟩,rfl⟩
            obtain ⟨record,done⟩ := turnWhole small header long int (by rw [width]; omega) (fits inFile) known whole
            exact ⟨record,by rw [← run,done,width,Nat.cast_add]⟩
        · have out : turnTail data o = pure none := by
            simp only [turnTail,Int.toNat_natCast]
            rw [if_neg (by omega),if_neg (not_not_intro int),if_pos (by rw [width]; omega)]
          rw [out]
          exact iff_of_false (fun ⟨_,done⟩ => by cases done) fun all => inFile all.1.2.2.1
      · refine iff_of_false (fun ⟨record,done⟩ => ?_) fun all => short (by have inFile := all.1.2.2.1; omega)
        have width := narrowLarge (not_lt.mp short) (lengthBound data o)
        have bound := lengthBound data o
        obtain ⟨-,result⟩ := tailParses small header long (by rw [width]; exact ⟨by omega,by omega⟩) (by rw [width]; omega)
        have after := (result _ done).2 record next rfl
        have later := safe.forward record next (by rw [run,done])
        omega
    · have out : turnTail data o = pure none := by
        simp only [turnTail,Int.toNat_natCast]
        rw [if_pos (by omega)]
      rw [out]
      exact iff_of_false (fun ⟨_,done⟩ => by cases done) fun all => long all.1.2.1
  · rw [@turnAtEnd data o sized.1 (by omega)]
    exact iff_of_false (fun ⟨_,done⟩ => by cases done) fun all => header all.1.1

end Turns

inductive Framed (data : Bytes) : Nat → Prop
  | start : Framed data 0
  | next {o : Nat} (before : Framed data o) (continues : Continues data o) : Framed data (o+lengthField data o)

def ReadsSafely (file : Bytes) : Prop :=
  (∀ offset, Reached (contents file) offset → SafeTurn (contents file) offset) ∧
    ∃ fuel, (readLogs (contents file) fuel 0).result ≠ .ok none

section Loop
variable {data : Bytes} {o : Nat}

theorem framedInside (framed : Framed data o) : o ≤ data.length := by
  cases framed with
  | start => exact Nat.zero_le _
  | next before continues => exact continues.2.2.1

theorem framedReached (small : data.length < 2^31) (safe : ∀ offset, Reached data offset → SafeTurn data offset)
    (framed : Framed data o) : Reached data o := by
  induction framed with
  | start => exact .start
  | next before continues found =>
    obtain ⟨record,step⟩ := (turnNext small ((turnSafe small).mp (safe _ found))).mpr ⟨continues,rfl⟩
    exact .next found step

theorem reachedFramed (small : data.length < 2^31) (sized : ∀ o, Framed data o → WellSized data o) {offset : Int}
    (reached : Reached data offset) : ∃ o : Nat, offset = o ∧ Framed data o := by
  induction reached with
  | start => exact ⟨0,rfl,.start⟩
  | next before step found =>
    obtain ⟨o,rfl,framed⟩ := found
    obtain ⟨continues,rfl⟩ := (turnNext small (sized o framed)).mp ⟨_,step⟩
    exact ⟨_,rfl,.next framed continues⟩

theorem loopEnds (small : data.length < 2^31) (sized : ∀ o, Framed data o → WellSized data o) {fuel : Nat}
    (framed : Framed data o) (enough : data.length < o+fuel) : (readLogs data fuel o).result ≠ .ok none := by
  induction fuel generalizing o with
  | zero => exact absurd (framedInside framed) (by omega)
  | succ fuel ends =>
    rw [readLogs]
    cases step : (turn data o).result with
    | error e =>
      rw [Reading.bindError _ step]
      exact fun done => by cases done
    | ok p => cases p with
      | none =>
        rw [Reading.bindOk _ step]
        exact fun done => by cases done
      | some pair =>
        obtain ⟨continues,next⟩ := (turnNext small (sized o framed)).mp ⟨pair.1,step⟩
        have long : logHeaderSize ≤ lengthField data o := continues.2.1
        have rest := ends (framed.next continues) (by simp only [logHeaderSize] at long; omega)
        rw [← next] at rest
        rw [Reading.bindOk _ step]
        cases last : (readLogs data fuel pair.2).result with
        | error e =>
          dsimp only
          rw [Reading.bindError _ last]
          exact fun done => by cases done
        | ok logs => cases logs with
          | none => exact absurd last rest
          | some logs =>
            dsimp only
            rw [Reading.bindOk _ last]
            exact fun done => by cases done

end Loop

theorem contentsSmall (file : Bytes) : (contents file).length < 2^31 := by
  have short : (contents file).length ≤ (narrow file.length).toNat := List.length_take_le ..
  have range := narrowRange file.length
  omega

section Agreement
variable {data : Bytes} {o k n : Nat}

def cursorAt (data : Bytes) (o k : Nat) : Cursor := ⟨k,data.drop (o+k)⟩

theorem readInside {start : Nat} {b : Bytes} (done : (readBytes data start n).result = .ok b) :
    start+n ≤ data.length ∧ b = (data.drop start).take n := by
  rw [readBytes,readAt] at done
  dsimp only at done
  split at done
  · rename_i inside
    cases done
    exact ⟨by omega,by rw [Int.toNat_natCast]⟩
  · cases done

theorem readSame {b : Bytes} (small : data.length < 2^31) (done : (readBytes data (o+k : Nat) n).result = .ok b) :
    b.length = n ∧ read n (cursorAt data o k) = .ok b (cursorAt data o (k+n)) := by
  obtain ⟨inside,rfl⟩ := readInside done
  have room : n ≤ (data.drop (o+k)).length := by rw [List.length_drop]; omega
  refine ⟨by rw [List.length_take]; omega,?_⟩
  rw [read,cursorAt,if_pos ⟨by dsimp only; omega,room⟩,List.drop_drop,cursorAt,Nat.add_assoc]

theorem readIntSame {v : Int} (small : data.length < 2^31) (done : (readInt data (o+k : Nat)).result = .ok v) :
    Codec.readInt (cursorAt data o k) = .ok v (cursorAt data o (k+4)) := by
  obtain ⟨b,first,last⟩ := bindDone.mp done
  cases last
  exact bindEq (readSame small first).2

theorem readInt32Same {v : Int32} (small : data.length < 2^31) (done : (readInt32 data (o+k : Nat)).result = .ok v) :
    Codec.readInt32 (cursorAt data o k) = .ok v (cursorAt data o (k+4)) := by
  obtain ⟨b,first,last⟩ := bindDone.mp done
  cases last
  exact bindEq (readIntSame small first)

theorem sizedSame {bound : Nat} {b : Bytes} {c : Cursor} {v : {bytes : Bytes // bytes.length < bound}}
    (done : (sized bound b).result = .ok v) : v.val = b ∧ Codec.sized bound b c = .ok v c := by
  rw [sized] at done
  split at done
  · rename_i fits
    cases done
    exact ⟨rfl,by rw [Codec.sized,dif_pos fits]; rfl⟩
  · cases done

theorem newDone {v : Int} {u : Unit} (done : (newChar v).result = .ok u) : 0 ≤ v := by
  rw [newChar] at done
  split at done
  · cases done
  · omega

theorem readValueSame {v : RmRecord} (small : data.length < 2^31) (done : (readValue data (o+k : Nat)).result = .ok v) :
    Codec.readValue (cursorAt data o k) = .ok v (cursorAt data o (k+4+v.val.length)) := by
  obtain ⟨size,first,done⟩ := bindDone.mp done
  obtain ⟨_,allowed,done⟩ := bindDone.mp done
  obtain ⟨b,second,last⟩ := bindDone.mp done
  have nonneg := newDone allowed
  rw [show ((o+k : Nat) : Int)+4 = (o+(k+4) : Nat) by push_cast; omega] at second
  obtain ⟨length,same⟩ := readSame small second
  obtain ⟨is,sized⟩ := @sizedSame _ _ (cursorAt data o (k+4+size.toNat)) _ last
  rw [Codec.readValue,bindEq (readIntSame small first),if_neg (by omega),is,length]
  exact (bindEq same).trans sized

theorem readNameSame {name : TableName} (small : data.length < 2^31) (done : (readName data (o+k : Nat)).result = .ok name) :
    ∃ c, Codec.readName (cursorAt data o k) = .ok name c := by
  obtain ⟨size,first,done⟩ := bindDone.mp done
  obtain ⟨_,_,done⟩ := bindDone.mp done
  obtain ⟨b,second,last⟩ := bindDone.mp done
  rw [show ((o+k : Nat) : Int)+8 = (o+(k+8) : Nat) by push_cast; omega] at second
  refine ⟨cursorAt data o (k+8+leNat size),?_⟩
  rw [Codec.readName,bindEq (readSame small first).2,bindEq (readSame small second).2]
  exact (sizedSame last).2

theorem readRidSame {rid : Rid} (small : data.length < 2^31) (done : (readRid data (o+k : Nat)).result = .ok rid) :
    Codec.readRid (cursorAt data o k) = .ok rid (cursorAt data o (k+8)) := by
  obtain ⟨b,first,last⟩ := bindDone.mp done
  cases last
  obtain ⟨inside,rfl⟩ := readInside first
  have page : (readInt32 data (o+k : Nat)).result = .ok (Int32.ofInt (leInt ((data.drop (o+k)).take 4))) :=
    bindDone.mpr ⟨_,bindDone.mpr ⟨_,readAtInside (by omega),rfl⟩,rfl⟩
  have slot : (readInt32 data (o+(k+4) : Nat)).result = .ok (Int32.ofInt (leInt ((data.drop (o+(k+4))).take 4))) :=
    bindDone.mpr ⟨_,bindDone.mpr ⟨_,readAtInside (by omega),rfl⟩,rfl⟩
  rw [Codec.readRid,bindEq (readInt32Same small page),bindEq (readInt32Same small slot),List.take_take,List.drop_take,
    List.drop_drop]
  rfl

theorem valueSame {make : RmRecord → Rid → TableName → LogData} {found : LogData} (small : data.length < 2^31)
    (done : (do
      let value ← readValue data (o+20 : Nat)
      let rid ← readRid data (o+(20+4+value.val.length) : Nat)
      let name ← readName data (o+(20+4+value.val.length+8) : Nat)
      pure (make value rid name)).result = .ok found) :
    ∃ c, (do
      let value ← Codec.readValue
      let rid ← Codec.readRid
      pure (make value rid (← Codec.readName)) : M Cursor LogData) (cursorAt data o 20) = .ok found c := by
  obtain ⟨value,first,done⟩ := bindDone.mp done
  obtain ⟨rid,second,done⟩ := bindDone.mp done
  obtain ⟨name,third,last⟩ := bindDone.mp done
  cases last
  obtain ⟨c,last⟩ := readNameSame small third
  refine ⟨c,?_⟩
  rw [bindEq (readValueSame small first),bindEq (readRidSame small second),bindEq last]
  rfl

theorem dataSame {logType : Int} {rest : Reads LogData} {found : LogData} (small : data.length < 2^31)
    (kind : readData data o logType = some rest) (done : rest.result = .ok found) :
    ∃ reader c, Codec.readData logType = some reader ∧ reader (cursorAt data o 20) = .ok found c := by
  rw [readData] at kind
  rw [Codec.readData]
  split at kind
  · rename_i update
    cases kind
    rw [if_pos update]
    obtain ⟨old,first,done⟩ := bindDone.mp done
    obtain ⟨new,second,done⟩ := bindDone.mp done
    obtain ⟨rid,third,done⟩ := bindDone.mp done
    obtain ⟨name,fourth,last⟩ := bindDone.mp done
    cases last
    rw [show (o : Int)+(20+(4+old.val.length) : Nat) = (o+(20+4+old.val.length) : Nat) by push_cast; omega] at second
    rw [show (o : Int)+(20+(4+old.val.length)+(4+new.val.length) : Nat) =
      (o+(20+4+old.val.length+4+new.val.length) : Nat) by push_cast; omega] at third
    rw [show (o : Int)+(20+(4+old.val.length)+(4+new.val.length)+8 : Nat) =
      (o+(20+4+old.val.length+4+new.val.length+8) : Nat) by push_cast; omega] at fourth
    obtain ⟨c,last⟩ := readNameSame small fourth
    refine ⟨_,c,rfl,?_⟩
    rw [bindEq (readValueSame small first),bindEq (readValueSame small second),bindEq (readRidSame small third),bindEq last]
    rfl
  · rename_i notUpdate
    rw [if_neg notUpdate]
    split at kind
    · rename_i insert
      cases kind
      rw [if_pos insert]
      rw [insertRead] at done
      obtain ⟨c,last⟩ := valueSame small done
      exact ⟨_,c,rfl,last⟩
    · rename_i notInsert
      rw [if_neg notInsert]
      split at kind
      · rename_i delete
        cases kind
        rw [if_pos delete]
        obtain ⟨c,last⟩ := valueSame small done
        exact ⟨_,c,rfl,last⟩
      · rename_i notDelete
        rw [if_neg notDelete]
        split_ifs at kind ⊢ <;> cases kind <;> exact ⟨_,_,rfl,by cases done; rfl⟩

theorem deserializeSame {rest : Reads LogData} {record : LogRecord} (small : data.length < 2^31)
    (done : (deserialize data o rest).result = .ok record) : ∃ found, rest.result = .ok found ∧
      ∀ (reader : M Cursor LogData) c, reader (cursorAt data o 20) = .ok found c →
        Codec.deserialize reader (cursorAt data o 4) = .ok record c := by
  obtain ⟨_,-,done⟩ := bindDone.mp done
  obtain ⟨lsn,first,done⟩ := bindDone.mp done
  obtain ⟨len,second,done⟩ := bindDone.mp done
  obtain ⟨tid,third,done⟩ := bindDone.mp done
  obtain ⟨prev,fourth,done⟩ := bindDone.mp done
  obtain ⟨found,fifth,last⟩ := bindDone.mp done
  cases last
  refine ⟨found,fifth,fun reader c last => ?_⟩
  rw [Codec.deserialize,bindEq (@readInt32Same data o 4 lsn small first),bindEq (@readSame data o 8 4 len small second).2,
    bindEq (@readInt32Same data o 12 tid small third),bindEq (@readInt32Same data o 16 prev small fourth),bindEq last]
  rfl

theorem parseSame {p : Option LogRecord} (small : data.length < 2^31) (done : (parseLogRecord data o).result = .ok p) :
    Codec.parseLogRecord (data.drop o) = .ok p := by
  obtain ⟨logType,first,done⟩ := bindDone.mp done
  have head := @readIntSame data o 0 logType small first
  cases kind : readData data o logType with
  | none =>
    have unknown : Codec.readData logType = none := by
      have range := readDataNone.mp kind
      rw [Codec.readData]
      split_ifs <;> first | rfl | omega
    rw [kind] at done
    cases done
    refine @evalOk _ _ _ _ (cursorAt data o 4) _ ((bindEq head).trans ?_)
    rw [unknown]
    rfl
  | some rest =>
    rw [kind] at done
    dsimp only at done
    rw [map_eq_pure_bind] at done
    obtain ⟨record,second,last⟩ := bindDone.mp done
    cases last
    obtain ⟨found,third,whole⟩ := deserializeSame small second
    obtain ⟨reader,c,known,last⟩ := dataSame small kind third
    refine @evalOk _ _ _ _ c _ ((bindEq head).trans ?_)
    rw [known]
    exact bindEq (whole reader c last)

theorem loopSame {fuel : Nat} {logs : List LogRecord} (small : data.length < 2^31)
    (sized : ∀ o, Framed data o → WellSized data o) (framed : Framed data o)
    (done : (readLogs data fuel o).result = .ok (some logs)) : Codec.readLogs data fuel o = .ok logs := by
  induction fuel generalizing o logs with
  | zero => cases done
  | succ fuel same =>
    have fits := (sized o framed).1
    have field : leNat ((data.drop ((o : Int).toNat+offsetLogTotLen)).take 4) = lengthField data o := rfl
    obtain ⟨q,step,done⟩ := bindDone.mp done
    rw [Codec.readLogs,if_neg (by omega)]
    by_cases header : o+logHeaderSize ≤ data.length
    · have next := fun record after (is : q = some (record,after)) =>
        (turnNext small (sized o framed)).mp ⟨record,by rw [step,is]⟩
      rw [turnAtHeader small header] at step
      dsimp only [turnTail] at step
      rw [Int.toNat_natCast] at step
      rw [if_pos (by omega),if_neg (by omega)]
      dsimp only
      rw [field]
      by_cases short : lengthField data o < logHeaderSize
      · rw [if_pos short] at step ⊢
        cases step
        cases done
        rfl
      · rw [if_neg short] at step ⊢
        split at step
        · cases step
        · rename_i int
          have high := (not_not.mp int).2
          rw [if_neg (by omega)]
          split at step
          · rename_i out
            cases step
            cases done
            rw [if_pos out]
          · rename_i inFile
            rw [if_neg inFile]
            obtain ⟨p,parsed,last⟩ := bindDone.mp step
            rw [Int.toNat_natCast,parseSame small parsed]
            cases p with
            | none =>
              cases last
              cases done
              rfl
            | some record =>
              cases last
              obtain ⟨rest,more,last⟩ := bindDone.mp done
              obtain ⟨continues,place⟩ := next _ _ rfl
              rw [place] at more
              cases rest with
              | none => cases last
              | some rest =>
                cases last
                have again := same (framed.next continues) more
                rw [← place] at again
                dsimp only
                rw [again]
                rfl
    · rw [@turnAtEnd data o fits (by omega)] at step
      cases step
      cases done
      rw [if_neg (by omega)]

theorem narrowLe (n : Nat) : narrow n ≤ n := by
  rw [narrow,Int.bmod_def]
  split <;> omega

theorem safeLogsSame {file : Bytes} {logs : List LogRecord} (oneRead : narrow file.length ≤ readMax) (safe : ReadsSafely file)
    (done : (readLogs (contents file) ((contents file).length+1) 0).result = .ok (some logs)) :
    readAllLogs file = .ok logs := by
  have small := contentsSmall file
  have same := @loopSame (contents file) 0 _ logs small
    (fun _ framed => (turnSafe small).mp (safe.1 _ (framedReached small safe.1 framed))) .start done
  rw [Nat.cast_zero] at same
  rw [readAllLogs]
  by_cases empty : narrow file.length ≤ 0
  · have none : contents file = [] := by rw [contents,Int.toNat_of_nonpos empty,List.take_zero]
    rw [none] at same
    rw [if_pos empty]
    exact same
  · have whole := readLogTake (Int.toNat_le.mpr (narrowLe file.length)) (Int.toNat_le.mpr oneRead)
    rw [← contents] at whole
    rw [if_neg empty,whole]
    exact (pure_bind (m := Except Fault) (contents file) _).trans same

end Agreement

theorem damagedLogSafe (file : Bytes) :
    ReadsSafely file ↔ ∀ o, Framed (contents file) o → WellSized (contents file) o := by
  have small := contentsSmall file
  constructor
  · rintro ⟨safe,-⟩ o framed
    exact (turnSafe small).mp (safe o (framedReached small safe framed))
  · intro sized
    refine ⟨fun offset reached => ?_,_,@loopEnds _ 0 small sized ((contents file).length+1) .start (by omega)⟩
    obtain ⟨o,rfl,framed⟩ := reachedFramed small sized reached
    exact (turnSafe small).mpr (sized o framed)

section Damaged

def headerBytes (logType logLen : Int) : Bytes :=
  leBytes 4 logType ++ leBytes 4 0 ++ leBytes 4 logLen ++ leBytes 4 7 ++ leBytes 4 (-1)

def turningBack : Bytes := headerBytes 3 20 ++ headerBytes 3 (-20)

def longValue : Bytes := headerBytes 1 44 ++ leBytes 4 1000 ++ List.replicate 20 0

theorem unsizedUnsafe {file : Bytes} {o : Nat} (framed : Framed (contents file) o) (unsized : ¬WellSized (contents file) o) :
    ¬ReadsSafely file := fun ⟨safe,_⟩ =>
  unsized ((turnSafe (contentsSmall file)).mp (safe o (framedReached (contentsSmall file) safe framed)))

theorem plainFit {refused : Prop} {record : Bytes} (plain : 3 ≤ intAt record 0) : SizesFit refused record := by
  rw [SizesFit,if_neg (by omega),if_neg (by omega)]
  trivial

theorem turningBackFramed : Framed (contents turningBack) 20 :=
  Framed.next .start ⟨by decide,by decide,by decide,by decide,plainFit (by decide)⟩

theorem turnsAgain : (∃ record, (turn (contents turningBack) 0).result = .ok (some (record,20))) ∧
    ∃ record, (turn (contents turningBack) 20).result = .ok (some (record,0)) := by
  have forth : (0 : Nat)+narrow (lengthField (contents turningBack) 0) = 20 := by decide
  have back : (20 : Nat)+narrow (lengthField (contents turningBack) 20) = 0 := by decide
  have first := @turnWhole (contents turningBack) 0 (by decide) (by decide) (by decide) (by rw [forth]; decide)
    (by rw [forth]; decide) (plainFit (by decide)) (by decide) (plainFit (by decide))
  have second := @turnWhole (contents turningBack) 20 (by decide) (by decide) (by decide) (by rw [back]; decide)
    (by rw [back]; decide) (plainFit (by decide)) (by decide) (plainFit (by decide))
  rw [forth] at first
  rw [back] at second
  exact ⟨first,second⟩

theorem neverEnds (fuel : Nat) : (readLogs (contents turningBack) fuel 0).result = .ok none ∧
    (readLogs (contents turningBack) fuel 20).result = .ok none := by
  obtain ⟨⟨first,forth⟩,⟨second,back⟩⟩ := turnsAgain
  generalize contents turningBack = data at *
  induction fuel with
  | zero => exact ⟨rfl,rfl⟩
  | succ fuel ends =>
    rw [readLogs,readLogs,Reading.bindOk _ forth,Reading.bindOk _ back]
    dsimp only
    rw [Reading.bindOk _ ends.1,Reading.bindOk _ ends.2]
    exact ⟨rfl,rfl⟩

theorem damagedLogUnsafe : (∀ fuel, (readLogs (contents turningBack) fuel 0).result = .ok none) ∧
    ¬ReadsSafely turningBack ∧ ¬ReadsSafely longValue := by
  refine ⟨fun fuel => (neverEnds fuel).1,?_,?_⟩
  · refine unsizedUnsafe turningBackFramed fun sized => ?_
    have back := sized.2 (by decide) (by decide)
    rw [if_neg (by decide)] at back
    exact back.2 ⟨by decide,plainFit (by decide)⟩
  · refine unsizedUnsafe .start fun sized => ?_
    have sizes := sized.2 (by decide) (by decide)
    rw [if_pos (by decide)] at sizes
    have fits := sizes.2 (by decide)
    rw [SizesFit,if_neg (by decide),if_pos (by decide)] at fits
    have room := (fits.2.2 (by decide)).1
    exact absurd room (by decide)

end Damaged

end Rmdb.Recovery.Codec.LogReads
