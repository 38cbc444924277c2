import Rmdb.Defs

/-! Column values as bytes: integers in two's complement with the least byte first, and
`DATETIME` values packed into one integer. -/
namespace Rmdb

def leNat : Bytes → Nat
  | [] => 0
  | b :: rest => b.toNat+256*leNat rest

def leInt (bytes : Bytes) : Int :=
  if 2*leNat bytes < 256^bytes.length then leNat bytes else leNat bytes-256^bytes.length

def memcmp : Bytes → Bytes → Int
  | a :: as,b :: bs => if a = b then memcmp as bs else (a.toNat : Int)-b.toNat
  | _,_ => 0

def leBytes : Nat → Int → Bytes
  | 0,_ => []
  | width+1,v => UInt8.ofNat (v%256).toNat :: leBytes width (v/256)

def narrow (value : Int) : Int := value.bmod (2^32)

def isLeapYear (year : Int) : Bool := (year%4 = 0 && year%100 ≠ 0) || year%400 = 0

def daysInMonth (year month : Int) : Int :=
  if month = 2 && isLeapYear year then 29
  else [31,28,31,30,31,30,31,31,30,31,30,31].getD (month-1).toNat 0

def parseDatetimeComponent (value : Bytes) (begin len : Nat) : Except Fault Int :=
  ((value.drop begin).take len).foldlM (fun result ch =>
    if 48 ≤ ch.toNat ∧ ch.toNat ≤ 57 then .ok (result*10+(ch.toNat-48)) else .error (.error (.invalidDateTime value))) 0

def parseDatetimeString (value : Bytes) : Except Fault Int := do
  if value.length ≠ 19 ∨ value[4]? ≠ some 45 ∨ value[7]? ≠ some 45 ∨ value[10]? ≠ some 32 ∨ value[13]? ≠ some 58 ∨
      value[16]? ≠ some 58 then .error (.error (.invalidDateTime value))
  else
    let year ← parseDatetimeComponent value 0 4
    let month ← parseDatetimeComponent value 5 2
    let day ← parseDatetimeComponent value 8 2
    let hour ← parseDatetimeComponent value 11 2
    let minute ← parseDatetimeComponent value 14 2
    let second ← parseDatetimeComponent value 17 2
    if year < 1000 ∨ 9999 < year ∨ month < 1 ∨ 12 < month ∨ day < 1 ∨ daysInMonth year month < day ∨
        hour < 0 ∨ 23 < hour ∨ minute < 0 ∨ 59 < minute ∨ second < 0 ∨ 59 < second then
      .error (.error (.invalidDateTime value))
    else .ok (((((year*100+month)*100+day)*100+hour)*100+minute)*100+second)

section Bytes

theorem leNatBound (a : Bytes) : leNat a < 256^a.length := by
  induction a with
  | nil => simp [leNat]
  | cons b a ih =>
    have byte := b.toNat_lt
    rw [leNat,List.length_cons,pow_succ]
    omega

theorem leNatInj {a b : Bytes} (length : a.length = b.length) (same : leNat a = leNat b) : a = b := by
  induction a generalizing b with
  | nil => exact (List.length_eq_zero_iff.mp length.symm).symm
  | cons x a ih => cases b with
    | nil => cases length
    | cons y b =>
      have bytex := x.toNat_lt
      have bytey := y.toNat_lt
      rw [leNat,leNat] at same
      have head : x = y := UInt8.toNat_inj.mp (by omega)
      rw [head,ih (Nat.succ.inj length) (by omega)]

theorem leIntInj {a b : Bytes} (length : a.length = b.length) (same : leInt a = leInt b) : a = b := by
  have bounda := leNatBound a
  have boundb := leNatBound b
  rw [leInt,leInt,length] at same
  rw [length] at bounda
  refine leNatInj length ?_
  have power : ((256^b.length : Nat) : Int) = 256^b.length := by push_cast; rfl
  rw [← power] at same
  generalize 256^b.length = base at same bounda boundb
  split at same <;> split at same <;> omega

theorem bytesInj {a b : Bytes} (same : (a.map fun x => (x.toNat : Int)) = b.map fun x => (x.toNat : Int)) : a = b := by
  refine List.map_injective_iff.mpr ?_ same
  intro x y equal
  exact UInt8.toNat_inj.mp (Int.ofNat.inj equal)

theorem leIntLow {a : Bytes} : -(256^a.length : Int) ≤ 2*leInt a := by
  have bound := leNatBound a
  have power : ((256^a.length : Nat) : Int) = 256^a.length := by push_cast; rfl
  rw [leInt,← power]
  split <;> omega

theorem leIntHigh {a : Bytes} : 2*leInt a < 256^a.length := by
  have bound := leNatBound a
  have power : ((256^a.length : Nat) : Int) = 256^a.length := by push_cast; rfl
  rw [leInt,← power]
  split <;> omega

theorem leBytesLength (width : Nat) (v : Int) : (leBytes width v).length = width := by
  induction width generalizing v with
  | zero => rfl
  | succ width ih => rw [leBytes,List.length_cons,ih]

theorem leNatBytes (width : Nat) (v : Int) : (leNat (leBytes width v) : Int) = v%256^width := by
  induction width generalizing v with
  | zero => simp [leBytes,leNat]
  | succ width ih =>
    have byte : (UInt8.ofNat (v%256).toNat).toNat = (v%256).toNat := by
      rw [UInt8.toNat_ofNat']
      omega
    have rest := ih (v/256)
    have positive : (0 : Int) < 256^width := by positivity
    have whole := Int.emod_add_mul_ediv (v/256) (256^width)
    have low := Int.emod_nonneg (v/256) (ne_of_gt positive)
    have high := Int.emod_lt_of_pos (v/256) positive
    rw [leBytes,leNat,byte,pow_succ']
    push_cast
    rw [rest]
    refine (((@Int.ediv_emod_unique _ _ _ (v/256/256^width) (by omega)).mpr ⟨?_,by omega,by omega⟩).2).symm
    rw [mul_assoc]
    omega

theorem leIntBytes {width : Nat} {v : Int} (low : -(256^width : Int) ≤ 2*v) (high : 2*v < 256^width) :
    leInt (leBytes width v) = v := by
  have power : ((256^width : Nat) : Int) = 256^width := by push_cast; rfl
  have positive : (0 : Int) < 256^width := by positivity
  have nat := leNatBytes width v
  rw [leInt,leBytesLength,nat]
  by_cases nonneg : 0 ≤ v
  · rw [Int.emod_eq_of_lt nonneg (by omega)] at nat ⊢
    rw [if_pos (by omega)]
  · have wrapped : v%256^width = v+256^width := by
      rw [← Int.add_emod_right,Int.emod_eq_of_lt (by omega) (by omega)]
    rw [wrapped] at nat ⊢
    rw [if_neg (by omega)]
    omega

end Bytes

end Rmdb
