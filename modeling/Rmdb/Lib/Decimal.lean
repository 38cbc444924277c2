import Mathlib.Data.List.Basic
import Mathlib.Tactic

/-! Decimal numerals as bytes, as short as possible or in a fixed width with leading zeros. -/
namespace Rmdb.Lib.Decimal

def IsDigit (ch : UInt8) : Prop := 48 ≤ ch.toNat ∧ ch.toNat ≤ 57
instance (ch : UInt8) : Decidable (IsDigit ch) := inferInstanceAs (Decidable (_ ∧ _))

def digit (d : Nat) : UInt8 := UInt8.ofNat (48+d)

def value (s : List UInt8) : Nat := s.foldl (fun result ch => result*10+(ch.toNat-48)) 0

def fixed : Nat → Nat → List UInt8
  | 0,_ => []
  | width+1,n => fixed width (n/10) ++ [digit (n%10)]

def decimal (n : Nat) : List UInt8 := (Nat.toDigits 10 n).map fun c => UInt8.ofNat c.toNat

section Digits
variable {d n width : Nat} {ch : UInt8} {s : List UInt8}

theorem digitNat (small : d < 10) : (digit d).toNat = 48+d := by
  rw [digit,UInt8.toNat_ofNat']
  omega

theorem digitIs (small : d < 10) : IsDigit (digit d) := by
  rw [IsDigit,digitNat small]
  omega

theorem digitBack (is : IsDigit ch) : digit (ch.toNat-48) = ch := by
  obtain ⟨low,high⟩ := is
  refine UInt8.toNat_inj.mp ?_
  rw [digitNat (by omega)]
  omega

theorem valueSnoc : value (s ++ [ch]) = value s*10+(ch.toNat-48) := by
  rw [value,List.foldl_append]
  rfl

end Digits

section Fixed
variable {n width : Nat} {s : List UInt8}

theorem fixedDigits (width n : Nat) : ∀ ch ∈ fixed width n, IsDigit ch := by
  induction width generalizing n with
  | zero => exact fun ch mem => absurd mem List.not_mem_nil
  | succ width ih =>
    intro ch mem
    rcases List.mem_append.mp mem with front | last
    · exact ih (n/10) ch front
    · rw [List.mem_singleton.mp last]
      exact digitIs (Nat.mod_lt n (by decide))

theorem valueFixed (small : n < 10^width) : value (fixed width n) = n := by
  induction width generalizing n with
  | zero => rw [Nat.lt_one_iff.mp small]; rfl
  | succ width ih =>
    rw [pow_succ] at small
    rw [fixed,valueSnoc,ih (by omega),digitNat (by omega)]
    omega

theorem fixedValue (digits : ∀ ch ∈ s, IsDigit ch) : fixed s.length (value s) = s := by
  induction s using List.reverseRecOn with
  | nil => rfl
  | append_singleton s ch ih =>
    have front := ih fun c mem => digits c (List.mem_append_left _ mem)
    have last := digits ch (List.mem_append_right _ List.mem_cons_self)
    have unit : ch.toNat-48 < 10 := by rw [IsDigit] at last; omega
    rw [List.length_append,List.length_singleton,fixed,valueSnoc,show (value s*10+(ch.toNat-48))/10 = value s by omega,
      show (value s*10+(ch.toNat-48))%10 = ch.toNat-48 by omega,front,digitBack last]

theorem fixedZero (width : Nat) : fixed width 0 = List.replicate width 48 := by
  induction width with
  | zero => rfl
  | succ width ih => rw [fixed,Nat.zero_div,ih,List.replicate_succ']; rfl

end Fixed

section Shortest
variable {n width : Nat}

theorem decimalSmall (small : n < 10) : decimal n = [digit n] := by
  rw [decimal,Nat.toDigits_of_lt_base small,List.map_singleton,Nat.toNat_digitChar_of_lt_ten small,digit]

theorem decimalStep (big : 10 ≤ n) : decimal n = decimal (n/10) ++ [digit (n%10)] := by
  have small : n%10 < 10 := Nat.mod_lt n (by decide)
  rw [decimal,Nat.toDigits_of_base_le (by decide) big,List.map_append,List.map_singleton,Nat.toNat_digitChar_of_lt_ten small,
    digit,decimal]

theorem decimalNonempty (n : Nat) : decimal n ≠ [] := by
  rw [decimal,ne_eq,List.map_eq_nil_iff]
  exact Nat.toDigits_ne_nil

theorem decimalDigits (n : Nat) : ∀ ch ∈ decimal n, IsDigit ch := by
  induction n using Nat.strong_induction_on with
  | h n ih =>
    by_cases small : n < 10
    · rw [decimalSmall small]
      intro ch mem
      rw [List.mem_singleton.mp mem]
      exact digitIs small
    · rw [decimalStep (by omega)]
      intro ch mem
      rcases List.mem_append.mp mem with front | last
      · exact ih (n/10) (by omega) ch front
      · rw [List.mem_singleton.mp last]
        exact digitIs (Nat.mod_lt n (by decide))

theorem valueDecimal (n : Nat) : value (decimal n) = n := by
  induction n using Nat.strong_induction_on with
  | h n ih =>
    by_cases small : n < 10
    · rw [decimalSmall small,value,List.foldl_cons,List.foldl_nil,digitNat small]
      omega
    · rw [decimalStep (by omega),valueSnoc,ih (n/10) (by omega),digitNat (by omega)]
      omega

theorem decimalPadded (positive : 0 < width) (small : n < 10^width) : (decimal n).leftpad width 48 = fixed width n := by
  induction width generalizing n with
  | zero => cases positive
  | succ width ih =>
    rw [pow_succ] at small
    by_cases short : n < 10
    · rw [decimalSmall short,fixed,Nat.div_eq_of_lt short,Nat.mod_eq_of_lt short,fixedZero]
      rfl
    · have more : 0 < width := by
        rcases Nat.eq_zero_or_pos width with zero | more
        · rw [zero,pow_zero] at small
          omega
        · exact more
      rw [decimalStep (by omega),fixed,← ih more (by omega),List.leftpad,List.leftpad,List.append_assoc,List.length_append,
        List.length_singleton,Nat.add_sub_add_right]

end Shortest
end Rmdb.Lib.Decimal
