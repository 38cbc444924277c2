import Rmdb.Lib.Calendar
import Rmdb.Lib.Decimal
import Rmdb.Index.IxCompare

/-! `datetime_utils.h`: the texts that parse are the moments of the calendar, and their integers
stand in the order of time. -/
namespace Rmdb
open Lib Lib.Decimal Lib.Calendar

def printPadded (width : Nat) (v : Int) : Bytes :=
  if v < 0 then 45 :: (decimal (-v).toNat).leftpad (width-1) 48 else (decimal v.toNat).leftpad width 48

/- `snprintf` leaves room for 19 characters. -/
def formatDatetimeValue (encoded : Int) : Bytes :=
  let second := encoded.tmod 100
  let encoded := encoded.tdiv 100
  let minute := encoded.tmod 100
  let encoded := encoded.tdiv 100
  let hour := encoded.tmod 100
  let encoded := encoded.tdiv 100
  let day := encoded.tmod 100
  let encoded := encoded.tdiv 100
  let month := encoded.tmod 100
  let encoded := encoded.tdiv 100
  let year := encoded.tmod 10000
  (printPadded 4 year ++ 45 :: (printPadded 2 month ++ 45 :: (printPadded 2 day ++ 32 :: (printPadded 2 hour ++
    58 :: (printPadded 2 minute ++ 58 :: printPadded 2 second))))).take 19

section Components
variable {s text : Bytes} {r : Nat} {v v' : Int}

def readDigits (text : Bytes) (result : Int) (s : Bytes) : Except Fault Int :=
  s.foldlM (fun result ch =>
    if 48 ≤ ch.toNat ∧ ch.toNat ≤ 57 then .ok (result*10+(ch.toNat-48)) else .error (.error (.invalidDateTime text))) result

theorem readCons (ch : UInt8) : readDigits text v (ch :: s) =
    if IsDigit ch then readDigits text (v*10+(ch.toNat-48)) s else .error (.error (.invalidDateTime text)) := by
  rw [readDigits,List.foldlM_cons]
  by_cases digit : IsDigit ch
  · rw [if_pos digit,if_pos (show 48 ≤ ch.toNat ∧ ch.toNat ≤ 57 from digit)]
    rfl
  · rw [if_neg digit,if_neg (show ¬(48 ≤ ch.toNat ∧ ch.toNat ≤ 57) from digit)]
    rfl

theorem digitsRead (digits : ∀ ch ∈ s, IsDigit ch) :
    readDigits text r s = .ok (s.foldl (fun result ch => result*10+(ch.toNat-48)) r : Nat) := by
  induction s generalizing r with
  | nil => rfl
  | cons ch s ih =>
    have first := digits ch List.mem_cons_self
    have rest := @ih (r*10+(ch.toNat-48)) fun c mem => digits c (List.mem_cons_of_mem _ mem)
    have next : (r*10+(ch.toNat-48) : Int) = (r*10+(ch.toNat-48) : Nat) := by rw [IsDigit] at first; omega
    rw [readCons,if_pos first,next,rest,List.foldl_cons]

theorem readIsDigits (read : readDigits text v s = .ok v') : ∀ ch ∈ s, IsDigit ch := by
  induction s generalizing v with
  | nil => exact fun ch mem => absurd mem List.not_mem_nil
  | cons ch s ih =>
    rw [readCons] at read
    split at read
    · rename_i first
      exact List.forall_mem_cons.mpr ⟨first,ih read⟩
    · cases read

theorem componentRead {begin len : Nat} (digits : ∀ ch ∈ (text.drop begin).take len, IsDigit ch) :
    parseDatetimeComponent text begin len = .ok (value ((text.drop begin).take len) : Nat) :=
  @digitsRead _ text 0 digits

theorem componentDigits {begin len : Nat} (read : parseDatetimeComponent text begin len = .ok v) :
    (∀ ch ∈ (text.drop begin).take len, IsDigit ch) ∧ v = (value ((text.drop begin).take len) : Nat) := by
  have digits := readIsDigits read
  exact ⟨digits,Except.ok.inj (read.symm.trans (componentRead digits))⟩

end Components

section Calendar

theorem leapYear (year : Nat) : isLeapYear year = decide (Leap year) := by
  rw [isLeapYear,Bool.eq_iff_iff,decide_eq_true_iff,Leap]
  simp only [Bool.or_eq_true,Bool.and_eq_true,decide_eq_true_eq,ne_eq]
  omega

theorem daysMonth {year month : Nat} (first : 1 ≤ month) (last : month ≤ 12) :
    daysInMonth year month = monthLength year month := by
  rw [daysInMonth,leapYear]
  interval_cases month <;> by_cases leap : Leap year <;> simp [monthLength,leap]

end Calendar

section Printing

theorem printedFixed {width n : Nat} (positive : 0 < width) (small : n < 10^width) :
    printPadded width n = fixed width n := by
  rw [printPadded,if_neg (by omega),Int.toNat_natCast,decimalPadded positive small]

theorem lastTwo {a : Int} {x : Nat} (nonneg : 0 ≤ a) (small : x < 100) : (a*100+x).tmod 100 = x := by
  rw [Int.tmod_eq_emod_of_nonneg (by omega)]
  omega

theorem frontOf {a : Int} {x : Nat} (nonneg : 0 ≤ a) (small : x < 100) : (a*100+x).tdiv 100 = a := by
  rw [Int.tdiv_eq_ediv_of_nonneg (by omega)]
  omega

end Printing

namespace Lib.Calendar.Moment
variable {s t : Moment}

def text (t : Moment) : Bytes :=
  fixed 4 t.year ++ 45 :: (fixed 2 t.month ++ 45 :: (fixed 2 t.day ++ 32 :: (fixed 2 t.hour ++ 58 ::
    (fixed 2 t.minute ++ 58 :: fixed 2 t.second))))

def encoded (t : Moment) : Int := ((((t.year*100+t.month)*100+t.day)*100+t.hour)*100+t.minute)*100+t.second

def Encodable (t : Moment) : Prop := 1000 ≤ t.year ∧ t.year ≤ 9999

theorem encodedMono : StrictMono encoded := by
  intro s t earlier
  have range := s.ranges
  rw [encoded,encoded]
  rcases before.mp earlier with year | ⟨year,rest⟩
  · omega
  · rw [year]
    omega

theorem formatEncoded (encodable : t.Encodable) : formatDatetimeValue t.encoded = t.text := by
  have range := t.ranges
  obtain ⟨low,high⟩ := encodable
  have year : (t.year : Int).tmod 10000 = t.year := Int.tmod_eq_of_lt (Int.natCast_nonneg _) (by omega)
  rw [formatDatetimeValue,encoded]
  simp (disch := omega) only [lastTwo,frontOf,year,printedFixed]
  exact List.take_of_length_le (Nat.le_of_eq rfl)

theorem parseText (encodable : t.Encodable) : parseDatetimeString t.text = .ok t.encoded := by
  have part : ∀ begin len n, (t.text.drop begin).take len = fixed len n → n < 10^len →
      parseDatetimeComponent t.text begin len = .ok (n : Nat) := by
    intro begin len n here small
    rw [componentRead (by rw [here]; exact fixedDigits len n),here,valueFixed small]
  have range := t.ranges
  obtain ⟨low,high⟩ := encodable
  have shape : ¬(t.text.length ≠ 19 ∨ t.text[4]? ≠ some 45 ∨ t.text[7]? ≠ some 45 ∨ t.text[10]? ≠ some 32 ∨
      t.text[13]? ≠ some 58 ∨ t.text[16]? ≠ some 58) := by
    simp only [not_or,not_not]
    exact ⟨rfl,rfl,rfl,rfl,rfl,rfl⟩
  rw [parseDatetimeString,if_neg shape,part 0 4 t.year rfl (by omega),part 5 2 t.month rfl (by omega),
    part 8 2 t.day rfl (by omega),part 11 2 t.hour rfl (by omega),part 14 2 t.minute rfl (by omega),
    part 17 2 t.second rfl (by omega)]
  dsimp only [bind,Except.bind]
  have days := t.days
  rw [daysMonth t.months.1 t.months.2,if_neg (by omega)]
  rfl

end Lib.Calendar.Moment

section Parsing
variable {s : Bytes} {e : Int}

theorem pieceOf (n width : Nat) {c : UInt8} (here : s[n+width]? = some c) :
    (s.drop n).take width ++ c :: s.drop (n+width+1) = s.drop n := by
  obtain ⟨small,rfl⟩ := List.getElem?_eq_some_iff.mp here
  rw [← List.drop_eq_getElem_cons small,← List.drop_drop,List.take_append_drop]

theorem parsedMoment (parsed : parseDatetimeString s = .ok e) : ∃ t : Moment, t.Encodable ∧ s = t.text ∧ e = t.encoded := by
  rw [parseDatetimeString] at parsed
  split at parsed
  · cases parsed
  · rename_i shape
    simp only [not_or,not_not] at shape
    obtain ⟨length,dash,dash',blank,colon,colon'⟩ := shape
    obtain ⟨year,readYear,parsed⟩ := exceptBind parsed
    obtain ⟨month,readMonth,parsed⟩ := exceptBind parsed
    obtain ⟨day,readDay,parsed⟩ := exceptBind parsed
    obtain ⟨hour,readHour,parsed⟩ := exceptBind parsed
    obtain ⟨minute,readMinute,parsed⟩ := exceptBind parsed
    obtain ⟨second,readSecond,parsed⟩ := exceptBind parsed
    obtain ⟨yearDigits,rfl⟩ := componentDigits readYear
    obtain ⟨monthDigits,rfl⟩ := componentDigits readMonth
    obtain ⟨dayDigits,rfl⟩ := componentDigits readDay
    obtain ⟨hourDigits,rfl⟩ := componentDigits readHour
    obtain ⟨minuteDigits,rfl⟩ := componentDigits readMinute
    obtain ⟨secondDigits,rfl⟩ := componentDigits readSecond
    split at parsed
    · cases parsed
    · rename_i range
      simp only [not_or,not_lt] at range
      obtain ⟨lowYear,highYear,lowMonth,highMonth,lowDay,highDay,-,highHour,-,highMinute,-,highSecond⟩ := range
      have months : 1 ≤ value ((s.drop 5).take 2) ∧ value ((s.drop 5).take 2) ≤ 12 := by omega
      rw [daysMonth months.1 months.2] at highDay
      let t : Moment := ⟨value ((s.drop 0).take 4),value ((s.drop 5).take 2),value ((s.drop 8).take 2),
        value ((s.drop 11).take 2),value ((s.drop 14).take 2),value ((s.drop 17).take 2),months,by omega,by omega,by omega,by omega⟩
      have back : ∀ begin len, begin+len ≤ 19 → (∀ ch ∈ (s.drop begin).take len, IsDigit ch) →
          fixed len (value ((s.drop begin).take len)) = (s.drop begin).take len := by
        intro begin len inside digits
        have whole := fixedValue digits
        rwa [List.length_take_of_le (by rw [List.length_drop]; omega)] at whole
      have years : 1000 ≤ value ((s.drop 0).take 4) ∧ value ((s.drop 0).take 4) ≤ 9999 := by omega
      refine ⟨t,years,?_,(Except.ok.inj parsed).symm⟩
      rw [Moment.text,back 0 4 (by omega) yearDigits,back 5 2 (by omega) monthDigits,back 8 2 (by omega) dayDigits,
        back 11 2 (by omega) hourDigits,back 14 2 (by omega) minuteDigits,back 17 2 (by omega) secondDigits]
      have fields5 : (s.drop 14).take 2 ++ 58 :: s.drop 17 = s.drop 14 := pieceOf 14 2 colon'
      have fields4 : (s.drop 11).take 2 ++ 58 :: s.drop 14 = s.drop 11 := pieceOf 11 2 colon
      have fields3 : (s.drop 8).take 2 ++ 32 :: s.drop 11 = s.drop 8 := pieceOf 8 2 blank
      have fields2 : (s.drop 5).take 2 ++ 45 :: s.drop 8 = s.drop 5 := pieceOf 5 2 dash'
      have fields1 : (s.drop 0).take 4 ++ 45 :: s.drop 5 = s.drop 0 := pieceOf 0 4 dash
      rw [List.take_of_length_le (show (s.drop 17).length ≤ 2 by rw [List.length_drop]; omega),fields5,fields4,fields3,
        fields2,fields1,List.drop_zero]

end Parsing

section Stored
variable {s t : Moment}

theorem storedBack (encodable : t.Encodable) : leInt ((leBytes 8 t.encoded).take 8) = t.encoded := by
  have range := t.ranges
  obtain ⟨low,high⟩ := encodable
  rw [List.take_of_length_le (leBytesLength ..).le,Moment.encoded]
  exact leIntBytes (by norm_num; omega) (by norm_num; omega)

theorem storedCompare {col : IxCol} (datetime : col.type = .datetime) (left : s.Encodable) (right : t.Encodable) :
    col.compare (leBytes 8 s.encoded) (leBytes 8 t.encoded) = IxCol.compareInt s.encoded t.encoded := by
  rw [IxCol.compare,datetime]
  dsimp only
  rw [storedBack left,storedBack right]

end Stored

theorem datetimeOrder :
    (∀ s, (∃ e, parseDatetimeString s = .ok e) ↔ ∃ t : Moment, t.Encodable ∧ s = t.text) ∧
    (∀ s e, parseDatetimeString s = .ok e → formatDatetimeValue e = s ∧
      parseDatetimeString (formatDatetimeValue e) = .ok e) ∧
    (∀ s t : Moment, s.Encodable → t.Encodable → ∃ e f, parseDatetimeString s.text = .ok e ∧
      parseDatetimeString t.text = .ok f ∧ (e < f ↔ s.elapsed < t.elapsed) ∧ (e = f ↔ s.text = t.text) ∧
      ∀ col : IxCol, col.type = .datetime → (col.compare (leBytes 8 e) (leBytes 8 f) < 0 ↔ s.elapsed < t.elapsed) ∧
        (col.compare (leBytes 8 e) (leBytes 8 f) = 0 ↔ s.text = t.text)) := by
  refine ⟨?_,?_,?_⟩
  · intro s
    constructor
    · rintro ⟨e,parsed⟩
      obtain ⟨t,encodable,text,-⟩ := parsedMoment parsed
      exact ⟨t,encodable,text⟩
    · rintro ⟨t,encodable,rfl⟩
      exact ⟨_,Moment.parseText encodable⟩
  · intro s e parsed
    obtain ⟨t,encodable,rfl,rfl⟩ := parsedMoment parsed
    rw [Moment.formatEncoded encodable]
    exact ⟨rfl,parsed⟩
  · intro s t left right
    have less : s.encoded < t.encoded ↔ s.elapsed < t.elapsed :=
      Moment.encodedMono.lt_iff_lt.trans Moment.elapsedMono.lt_iff_lt.symm
    have same : s.encoded = t.encoded ↔ s.text = t.text := by
      refine ⟨fun equal => by rw [Moment.encodedMono.injective equal],fun equal => ?_⟩
      rw [← Except.ok.injEq,← Moment.parseText left,← Moment.parseText right,equal]
    refine ⟨_,_,Moment.parseText left,Moment.parseText right,less,same,fun col datetime => ?_⟩
    rw [storedCompare datetime left right,← less,← same]
    rcases lt_trichotomy s.encoded t.encoded with below | equal | above
    · simp [IxCol.compareInt,below,below.ne]
    · simp [IxCol.compareInt,equal]
    · simp [IxCol.compareInt,above.asymm,above,above.ne']

end Rmdb
