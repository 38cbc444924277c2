import Mathlib.Data.Nat.Basic
import Mathlib.Algebra.BigOperators.Group.Finset.Basic
import Mathlib.Algebra.Order.BigOperators.Group.Finset
import Mathlib.Data.List.Lex
import Mathlib.Tactic

/-! The Gregorian calendar to the second, and the seconds that went before a moment. -/
namespace Rmdb.Lib.Calendar
open Finset

def Leap (year : Nat) : Prop := 4 ∣ year ∧ (100 ∣ year → 400 ∣ year)
instance (year : Nat) : Decidable (Leap year) := inferInstanceAs (Decidable (_ ∧ _))

def monthLength (year month : Nat) : Nat :=
  match month with
  | 2 => if Leap year then 29 else 28
  | 4 | 6 | 9 | 11 => 30
  | _ => 31

structure Moment where
  year : Nat
  month : Nat
  day : Nat
  hour : Nat
  minute : Nat
  second : Nat
  months : 1 ≤ month ∧ month ≤ 12
  days : 1 ≤ day ∧ day ≤ monthLength year month
  hours : hour < 24
  minutes : minute < 60
  seconds : second < 60
  deriving DecidableEq, Repr

def daysBeforeMonth (year month : Nat) : Nat := ∑ m ∈ range (month-1), monthLength year (m+1)

def yearLength (year : Nat) : Nat := ∑ m ∈ range 12, monthLength year (m+1)

def daysBeforeYear (year : Nat) : Nat := ∑ y ∈ range year, yearLength y

theorem monthWithin {year month next : Nat} (first : 1 ≤ month) (later : month < next) :
    daysBeforeMonth year month+monthLength year month ≤ daysBeforeMonth year next := by
  obtain ⟨m,rfl⟩ := Nat.exists_eq_add_of_le' first
  rw [daysBeforeMonth,Nat.add_sub_cancel,← sum_range_succ fun m => monthLength year (m+1)]
  exact sum_le_sum_of_subset (range_subset_range.mpr (by omega))

theorem yearWithin {year next : Nat} (later : year < next) : daysBeforeYear year+yearLength year ≤ daysBeforeYear next := by
  rw [daysBeforeYear,← sum_range_succ]
  exact sum_le_sum_of_subset (range_subset_range.mpr (by omega))

theorem monthLengthLe (year month : Nat) : monthLength year month ≤ 31 := by
  unfold monthLength
  split
  · split <;> omega
  all_goals omega

namespace Moment
variable {s t : Moment}

def fields (t : Moment) : List Nat := [t.year,t.month,t.day,t.hour,t.minute,t.second]

def elapsed (t : Moment) : Nat :=
  (((daysBeforeYear t.year+daysBeforeMonth t.year t.month+(t.day-1))*24+t.hour)*60+t.minute)*60+t.second

theorem fieldsInj (same : s.fields = t.fields) : s = t := by
  cases s
  cases t
  simp only [fields,List.cons.injEq,and_true] at same
  obtain ⟨rfl,rfl,rfl,rfl,rfl,rfl⟩ := same
  rfl

instance : LinearOrder Moment := LinearOrder.lift' fields fun _ _ => fieldsInj

theorem before : s < t ↔ s.year < t.year ∨ s.year = t.year ∧ (s.month < t.month ∨ s.month = t.month ∧
    (s.day < t.day ∨ s.day = t.day ∧ (s.hour < t.hour ∨ s.hour = t.hour ∧ (s.minute < t.minute ∨ s.minute = t.minute ∧
      s.second < t.second)))) := by
  change s.fields < t.fields ↔ _
  simp [fields,List.cons_lt_cons_iff]

theorem ranges (t : Moment) :
    (1 ≤ t.month ∧ t.month ≤ 12) ∧ (1 ≤ t.day ∧ t.day ≤ 31) ∧ t.hour < 24 ∧ t.minute < 60 ∧ t.second < 60 :=
  ⟨t.months,⟨t.days.1,t.days.2.trans (monthLengthLe ..)⟩,t.hours,t.minutes,t.seconds⟩

theorem dayWithin (t : Moment) : daysBeforeMonth t.year t.month+t.day ≤ yearLength t.year := by
  have whole := @monthWithin t.year t.month 13 t.months.1 (by have last := t.months.2; omega)
  have day := t.days.2
  have sum : daysBeforeMonth t.year 13 = yearLength t.year := rfl
  omega

theorem elapsedMono : StrictMono elapsed := by
  intro s t earlier
  have hour := s.hours
  have minute := s.minutes
  have second := s.seconds
  have first := s.days.1
  have first' := t.days.1
  rw [elapsed,elapsed]
  rcases before.mp earlier with year | ⟨year,month | ⟨month,rest⟩⟩
  · have years := yearWithin year
    have day := s.dayWithin
    omega
  · have months := @monthWithin s.year s.month t.month s.months.1 month
    have day := s.days.2
    rw [← year]
    omega
  · rw [← year,← month]
    omega

end Moment
end Rmdb.Lib.Calendar
