import Rmdb.Recovery.LogBuffer

/-! `persist_lsn_` after every call. Of the two ways to the file one looks for the last record in
the buffer, and the other takes the number of a record that has none yet. -/
namespace Rmdb.Recovery.Codec.LogManager
open Lib

def Persisted (records : List LogRecord) (s : LogManager) : Prop :=
  ∃ front back, records = front ++ back ∧ s.logFile = image front ∧
    s.persistLsn = (front.getLast?.map LogRecord.lsn).getD (-1)

/- Whenever the buffer is written for want of room, it is empty or the new record has come with the
number it is going to get. -/
def Timely : Nat → Nat → List Call → Prop
  | _,_,[] => True
  | n,_,.flush :: calls => Timely n 0 calls
  | n,offset,.add record :: calls =>
    if offset+record.bytes.length > logBufferSize then
      (if record.lsn = -1 then offset = 0 else record.lsn = Int32.ofNat n) ∧ Timely (n+1) record.bytes.length calls
    else Timely (n+1) (offset+record.bytes.length) calls

structure Keeps (s : LogManager) (front back : List LogRecord) : Prop where
  lsn : s.globalLsn = Int32.ofNat (front ++ back).length
  file : s.logFile = image front
  held : s.held = image back
  room : s.offset ≤ logBufferSize+1
  exact : ∀ record ∈ back, record.logTotLen.toNat = record.bytes.length
  numbers : ∀ i record, (front ++ back)[i]? = some record → record.lsn = Int32.ofNat i

section Prefixes
variable {s t : LogManager} {front back records : List LogRecord} {record : LogRecord}

theorem lastNumber {l : List LogRecord} (numbers : ∀ i record, l[i]? = some record → record.lsn = Int32.ofNat i) :
    (l.getLast?.map LogRecord.lsn).getD (-1) = Int32.ofNat l.length-1 := by
  cases l with
  | nil => rfl
  | cons record l =>
    have last := List.getLast?_eq_some_getLast (List.cons_ne_nil record l)
    have number := numbers l.length _ ((List.getLast?_eq_getElem? ..).symm.trans last)
    rw [last,Option.map_some,Option.getD_some,number,List.length_cons,Int32.ofNat_add,show Int32.ofNat 1 = 1 from rfl,
      Int32.add_sub_cancel]

theorem imageLong (records : List LogRecord) : 20*records.length ≤ (image records).length := by
  induction records with
  | nil => exact Nat.zero_le _
  | cons record records ih =>
    have long := bytesLong record
    have split : (image (record :: records)).length = record.bytes.length+(image records).length := List.length_append
    rw [logHeaderSize] at long
    rw [split,List.length_cons]
    omega

theorem imageEmpty (none : (image records).length = 0) : records = [] := by
  have long := imageLong records
  exact List.length_eq_zero_iff.mp (by omega)

theorem samePrefix {f g b c : List LogRecord} (split : f ++ b = g ++ c) (same : image f = image g) : f = g := by
  rcases List.append_eq_append_iff.mp split with ⟨d,rfl,-⟩ | ⟨d,rfl,-⟩
  · rw [image,image,List.flatMap_append] at same
    rw [imageEmpty (List.length_eq_zero_iff.mpr (List.self_eq_append_right.mp same)),List.append_nil]
  · rw [image,image,List.flatMap_append] at same
    rw [imageEmpty (List.length_eq_zero_iff.mpr (List.self_eq_append_right.mp same.symm)),List.append_nil]

theorem keepsOffset (keeps : Keeps s front back) : (image back).length = s.offset := by
  rw [← keeps.held]
  exact Block.peekLength (by have room := keeps.room; omega)

theorem keepsLast (keeps : Keeps s front back) :
    (front.getLast?.map LogRecord.lsn).getD (-1) = Int32.ofNat front.length-1 :=
  lastNumber fun i record here => keeps.numbers i record
    ((List.getElem?_append_left (List.getElem?_eq_some_iff.mp here).choose).trans here)

theorem persistedIff (keeps : Keeps s front back) :
    Persisted (front ++ back) s ↔ s.persistLsn = Int32.ofNat front.length-1 := by
  constructor
  · rintro ⟨f,b,split,file,persist⟩
    cases samePrefix split (keeps.file.symm.trans file)
    rw [persist,keepsLast keeps]
  · intro persist
    exact ⟨front,back,rfl,keeps.file,persist.trans (keepsLast keeps).symm⟩

end Prefixes

section Steps
variable {s t : LogManager} {front back : List LogRecord} {record : LogRecord} {lsn : Int32}

theorem keepsEmptied (keeps : Keeps s front back) (persistLsn : Int32) :
    Keeps {s.writeLog with persistLsn} (front ++ back) [] := by
  have file : s.logFile ++ s.held = image (front ++ back) := by rw [keeps.file,keeps.held,image,image,image,List.flatMap_append]
  refine ⟨?_,file,rfl,Nat.zero_le _,fun r mem => absurd mem List.not_mem_nil,?_⟩ <;> rw [List.append_nil]
  · exact keeps.lsn
  · exact keeps.numbers

theorem keepsAppended (keeps : Keeps s front back) (made : Made record) (done : append record s = .ok lsn t) :
    Keeps t front (back ++ [{record with lsn := Int32.ofNat (front ++ back).length}]) ∧ t.persistLsn = s.persistLsn ∧
      t.offset = s.offset+record.bytes.length ∧ record.logTotLen.toNat = record.bytes.length ∧
      record.bytes.length ≤ logBufferSize+1 := by
  have size : logBufferSize = 4194304 := rfl
  rw [append,getBind] at done
  cases serialized : ({record with lsn := s.globalLsn} : LogRecord).serialize with
  | error e => rw [serialized] at done; cases done
  | ok bytes =>
  rw [serialized,bindEq (ofExceptOk bytes s)] at done
  cases poked : s.buffer.poke s.offset bytes with
  | none => rw [poked] at done; cases done
  | some buffer =>
    rw [poked] at done
    cases done
    have same : bytes = ({record with lsn := s.globalLsn} : LogRecord).bytes := copyPiecesSame serialized
    obtain ⟨inside,-⟩ := Block.poked poked
    have length : bytes.length = record.bytes.length := by rw [same,numberedLength]
    have exact : record.logTotLen.toNat = record.bytes.length := by
      rw [madeLength made,UInt32.toNat_ofNat',Nat.mod_eq_of_lt (by omega)]
    have held := pokeHeld poked
    rw [← keeps.lsn]
    refine ⟨⟨?_,keeps.file,?_,?_,?_,?_⟩,rfl,congrArg (s.offset+·) exact,exact,by omega⟩
    · rw [← List.append_assoc,List.length_append,Int32.ofNat_add,← keeps.lsn]
      rfl
    · rw [length,← exact] at held
      rw [LogManager.held,held,keeps.held,same]
      simp [image]
    · dsimp only
      omega
    · intro r mem
      rcases List.mem_append.mp mem with old | new
      · exact keeps.exact r old
      · rw [List.mem_singleton.mp new,numberedLength]
        exact exact
    · intro i r here
      rw [← List.append_assoc] at here
      rcases lt_or_ge i (front ++ back).length with old | new
      · rw [List.getElem?_append_left old] at here
        exact keeps.numbers i r here
      · rw [List.getElem?_append_right new,List.getElem?_singleton] at here
        split at here
        · rename_i first
          cases here
          rw [show i = (front ++ back).length by omega]
          exact keeps.lsn
        · cases here

theorem keepsFlushed (keeps : Keeps s front back) (accurate : s.persistLsn = Int32.ofNat front.length-1)
    (done : flushLogToDisk s = .ok () t) :
    Keeps t (front ++ back) [] ∧ t.offset = 0 ∧ t.persistLsn = Int32.ofNat (front ++ back).length-1 := by
  have size : logBufferSize = 4194304 := rfl
  have length := keepsOffset keeps
  have room := keeps.room
  rw [flushLogToDisk,getBind] at done
  by_cases empty : s.offset = 0
  · rw [if_pos empty] at done
    cases done
    cases imageEmpty (length.trans empty)
    rw [List.append_nil]
    exact ⟨keeps,empty,accurate⟩
  · have content : s.buffer.val = [] ++ image back ++ s.buffer.val.drop s.offset := by
      rw [← keeps.held,held,Block.peek,List.drop_zero,List.nil_append,List.take_append_drop]
    have found := @lastLsnRun back keeps.exact [] (s.buffer.val.drop s.offset) (s.offset+1) (lsnField s.buffer.val 0)
      (by omega) (by rw [List.length_nil]; omega)
    rw [← content,length,List.length_nil,Nat.zero_add,Nat.cast_zero] at found
    rw [if_neg empty,found,bindEq (ofExceptOk _ s)] at done
    cases done
    refine ⟨keepsEmptied keeps _,rfl,?_⟩
    rw [← lastNumber keeps.numbers]
    cases last : back.getLast? with
    | none =>
      rw [List.getLast?_eq_none_iff.mp last] at length
      exact absurd length.symm empty
    | some record => rw [List.getLast?_append,last]; rfl

theorem staleIff (keeps : Keeps s front back) :
    Int32.ofNat front.length-1 = Int32.ofNat (front ++ back).length-1 ↔ s.offset = 0 := by
  have size : logBufferSize = 4194304 := rfl
  have room := keeps.room
  have length := keepsOffset keeps
  have long := imageLong back
  constructor
  · intro same
    have zero : Int32.ofNat back.length = 0 := by
      rw [List.length_append,Int32.ofNat_add] at same
      have sum := congrArg (· + 1-Int32.ofNat front.length) same
      simpa [Int32.sub_add_cancel,Int32.sub_self,Int32.add_comm,Int32.add_sub_cancel] using sum.symm
    have count := congrArg Int32.toInt zero
    rw [Int32.toInt_ofNat_of_lt (by omega)] at count
    have none : back = [] := List.length_eq_zero_iff.mp (Int.ofNat.inj count)
    rw [none] at length
    exact length.symm
  · intro zero
    rw [imageEmpty (length.trans zero),List.append_nil]

theorem keepsAdded (keeps : Keeps s front back) (accurate : s.persistLsn = Int32.ofNat front.length-1) (made : Made record)
    (done : addLogToBuffer record s = .ok lsn t) : ∃ front' back', Keeps t front' back' ∧
      front' ++ back' = front ++ back ++ [{record with lsn := Int32.ofNat (front ++ back).length}] ∧
      t.offset = (if s.offset+record.bytes.length > logBufferSize then 0 else s.offset)+record.bytes.length ∧
      (t.persistLsn = Int32.ofNat front'.length-1 ↔ (s.offset+record.bytes.length > logBufferSize →
        if record.lsn = -1 then s.offset = 0 else record.lsn = Int32.ofNat (front ++ back).length)) := by
  have size : logBufferSize = 4194304 := rfl
  have width : record.logTotLen.toNat = record.bytes.length → record.bytes.length ≤ logBufferSize+1 →
      narrow record.logTotLen.toNat = record.bytes.length := by
    intro exact small
    rw [exact]
    exact narrowSmall (by omega) (by omega)
  rw [addLogToBuffer,getBind] at done
  by_cases full : s.isFull (narrow record.logTotLen.toNat) = true
  · rw [if_pos full] at done
    have emptied := keepsEmptied keeps (if record.lsn ≠ -1 then record.lsn-1 else s.persistLsn)
    obtain ⟨after,persist,offset,exact,small⟩ := keepsAppended emptied made done
    rw [isFull,width exact small,decide_eq_true_eq] at full
    have beyond : s.offset+record.bytes.length > logBufferSize := by omega
    rw [List.append_nil,List.nil_append] at after
    refine ⟨front ++ back,_,after,rfl,?_,?_⟩
    · rw [if_pos beyond,offset]
      rfl
    · rw [persist,iff_true_intro beyond,true_imp_iff]
      by_cases fresh : record.lsn = -1
      · rw [if_neg (not_not_intro fresh),if_pos fresh,accurate,staleIff keeps]
      · rw [if_pos fresh,if_neg fresh]
        constructor
        · intro same
          have sum := congrArg (· + 1) same
          simpa [Int32.sub_add_cancel] using sum
        · rintro same
          rw [same]
  · rw [if_neg full] at done
    obtain ⟨after,persist,offset,exact,small⟩ := keepsAppended keeps made done
    rw [isFull,width exact small,decide_eq_true_eq] at full
    have within : ¬s.offset+record.bytes.length > logBufferSize := by omega
    refine ⟨front,_,after,by rw [List.append_assoc],?_,?_⟩
    · rw [if_neg within,offset]
    · rw [persist]
      exact ⟨fun _ beyond => absurd beyond within,fun _ => accurate⟩

end Steps

section Runs
variable {s t : LogManager} {front back : List LogRecord} {calls : List Call} {lsns : List Int32}

def AlwaysPersisted (s : LogManager) (records : List LogRecord) (calls : List Call) : Prop :=
  ∀ k lsns t, runCalls (calls.take k) s = .ok lsns t →
    Persisted (records ++ numbered records.length (added (calls.take k))) t

theorem alwaysFlush {records : List LogRecord} {u : LogManager} (now : Persisted records s)
    (done : flushLogToDisk s = .ok () u) : AlwaysPersisted s records (.flush :: calls) ↔ AlwaysPersisted u records calls := by
  constructor
  · intro all k lsns t run
    refine all (k+1) lsns t ?_
    rw [List.take_succ_cons,runCalls,bindEq done,run]
  · intro all k lsns t run
    cases k with
    | zero =>
      cases run
      rw [List.take_zero,added,numbered,List.append_nil]
      exact now
    | succ k =>
      rw [List.take_succ_cons,runCalls,bindEq done] at run
      exact all k lsns t run

theorem alwaysAdd {records : List LogRecord} {record : LogRecord} {lsn : Int32} {u : LogManager} (now : Persisted records s)
    (done : addLogToBuffer record s = .ok lsn u) : AlwaysPersisted s records (.add record :: calls) ↔
      AlwaysPersisted u (records ++ [{record with lsn := Int32.ofNat records.length}]) calls := by
  have shift : ∀ k, records ++ [{record with lsn := Int32.ofNat records.length}] ++
      numbered (records ++ [{record with lsn := Int32.ofNat records.length}]).length (added (calls.take k)) =
      records ++ numbered records.length (added ((Call.add record :: calls).take (k+1))) := by
    intro k
    rw [List.take_succ_cons,added,numbered,List.append_assoc,List.length_append,List.length_singleton]
    rfl
  constructor
  · intro all k lsns t run
    rw [shift]
    refine all (k+1) (lsn :: lsns) t ?_
    rw [List.take_succ_cons,runCalls,bindEq done,bindEq run]
    rfl
  · intro all k lsns t run
    cases k with
    | zero =>
      cases run
      rw [List.take_zero,added,numbered,List.append_nil]
      exact now
    | succ k =>
      rw [List.take_succ_cons,runCalls,bindEq done] at run
      obtain ⟨later,v,rest,last⟩ := bindOk.mp run
      cases last
      have there := all k later _ rest
      rwa [shift] at there

/- By induction on the calls: at the first that is not timely the number is wrong at once. -/
theorem runPersisted (keeps : Keeps s front back) (accurate : s.persistLsn = Int32.ofNat front.length-1)
    (made : ∀ record ∈ added calls, Made record) (run : runCalls calls s = .ok lsns t) :
    AlwaysPersisted s (front ++ back) calls ↔ Timely (front ++ back).length s.offset calls := by
  have now := (persistedIff keeps).mpr accurate
  induction calls generalizing s t front back lsns with
  | nil =>
    refine iff_of_true ?_ trivial
    intro k lsns t run
    rw [List.take_nil] at run ⊢
    cases run
    rw [added,numbered,List.append_nil]
    exact now
  | cons call calls ih => cases call with
    | flush =>
      obtain ⟨_,u,done,rest⟩ := bindOk.mp run
      obtain ⟨after,offset,persist⟩ := keepsFlushed keeps accurate done
      have later := ih after persist made rest ((persistedIff after).mpr persist)
      rw [List.append_nil] at later
      rw [offset] at later
      exact (alwaysFlush now done).trans later
    | add record =>
      obtain ⟨lsn,u,done,rest⟩ := bindOk.mp run
      obtain ⟨later,v,others,last⟩ := bindOk.mp rest
      obtain ⟨front',back',after,split,offset,timely⟩ := keepsAdded keeps accurate (made record List.mem_cons_self) done
      have length : (front' ++ back').length = (front ++ back).length+1 := by rw [split,List.length_append]; rfl
      refine (alwaysAdd now done).trans ?_
      rw [← split,Timely]
      by_cases persist : u.persistLsn = Int32.ofNat front'.length-1
      · have later := ih after persist (fun r mem => made r (List.mem_cons_of_mem record mem)) others
          ((persistedIff after).mpr persist)
        rw [length,offset] at later
        refine later.trans ?_
        have condition := timely.mp persist
        split
        · rename_i beyond
          rw [Nat.zero_add]
          exact ⟨fun rest => ⟨condition beyond,rest⟩,And.right⟩
        · exact Iff.rfl
      · refine iff_of_false (fun all => ?_) (fun rest => persist (timely.mpr fun beyond => ?_))
        · have here := all 0 [] u rfl
          rw [List.take_zero,added,numbered,List.append_nil] at here
          exact persist ((persistedIff after).mp here)
        · rw [if_pos beyond] at rest
          exact rest.1

theorem initialKeeps : Keeps initial [] [] :=
  ⟨rfl,rfl,rfl,Nat.zero_le _,fun r mem => absurd mem List.not_mem_nil,fun i r here => absurd here (by simp)⟩

theorem persistLsnAccurate (made : ∀ record ∈ added calls, Made record) (run : runCalls calls initial = .ok lsns t) :
    (∀ k lsns t, runCalls (calls.take k) initial = .ok lsns t → Persisted (numbered 0 (added (calls.take k))) t) ↔
      Timely 0 0 calls :=
  runPersisted initialKeeps rfl made run

def shortRun : List Call := [.add (beginLogRecord 7),.flush,.add (commitLogRecord 7)]

theorem shortRunPersisted : (∃ lsns t, runCalls shortRun initial = .ok lsns t) ∧
    ∀ k lsns t, runCalls (shortRun.take k) initial = .ok lsns t → Persisted (numbered 0 (added (shortRun.take k))) t := by
  have fits : ∀ record ∈ added shortRun, Fits record := by
    intro record mem
    rcases List.mem_cons.mp mem with rfl | last
    · exact ⟨.begin (-1) (-1) 7,by decide⟩
    · cases List.mem_singleton.mp last
      exact ⟨.commit (-1) (-1) 7,by decide⟩
  obtain ⟨t,run,-⟩ := runHolds initialHolds fits
  refine ⟨⟨_,t,run⟩,(persistLsnAccurate (fun record mem => (fits record mem).1) run).mpr ?_⟩
  rw [shortRun,Timely,if_neg (by decide),Timely,Timely,if_neg (by decide)]
  trivial

theorem fullUntimely {record : LogRecord} (fresh : record.lsn = -1) {j n offset : Nat} (used : 0 < offset)
    (room : offset+record.bytes.length*j ≤ logBufferSize) (full : logBufferSize < offset+record.bytes.length*(j+1)) :
    ¬Timely n offset (List.replicate (j+1) (.add record)) := by
  induction j generalizing n offset with
  | zero =>
    rw [List.replicate_succ,Timely,if_pos (by omega),if_pos fresh]
    exact fun timely => used.ne' timely.1
  | succ j ih =>
    rw [Nat.mul_succ] at room full
    rw [List.replicate_succ,Timely,if_neg (by rw [Nat.mul_succ] at full; omega)]
    exact ih (by omega) (by omega) (by omega)

theorem staleRun {m : Nat} (room : 20*(m+1) ≤ logBufferSize) (full : logBufferSize < 20*(m+2)) {n : Nat} (count : n = m+2) :
    ∃ k lsns t, runCalls ((List.replicate n (.add (beginLogRecord 7))).take k) initial = .ok lsns t ∧
      ¬Persisted (numbered 0 (added ((List.replicate n (.add (beginLogRecord 7))).take k))) t := by
  have made : ∀ record ∈ added (List.replicate n (.add (beginLogRecord 7))), record = beginLogRecord 7 := by
    intro record mem
    rw [addedReplicate] at mem
    exact List.eq_of_mem_replicate mem
  obtain ⟨t,run,-⟩ := runHolds initialHolds fun record mem => made record mem ▸ ⟨.begin (-1) (-1) 7,by decide⟩
  have always := runPersisted initialKeeps rfl (fun record mem => made record mem ▸ .begin (-1) (-1) 7) run
  have length : (beginLogRecord 7).bytes.length = 20 := by decide
  have late : ¬Timely 0 0 (List.replicate n (.add (beginLogRecord 7))) := by
    rw [count,List.replicate_succ,Timely,if_neg (by omega)]
    exact fullUntimely rfl (by omega) (by rw [length]; omega) (by rw [length]; omega)
  have wrong := mt always.mp late
  simp only [AlwaysPersisted,not_forall] at wrong
  obtain ⟨k,lsns,t,run,stale⟩ := wrong
  exact ⟨k,lsns,t,run,stale⟩

theorem persistLsnStale : ∃ k lsns t,
    runCalls ((List.replicate 209716 (.add (beginLogRecord 7))).take k) initial = .ok lsns t ∧
    ¬Persisted (numbered 0 (added ((List.replicate 209716 (.add (beginLogRecord 7))).take k))) t :=
  @staleRun 209714 (by decide) (by decide) 209716 rfl

end Runs
end Rmdb.Recovery.Codec.LogManager
