import Rmdb.Execution.RawOrder

/-! `compare_raw_data`, `ix_compare` and `compare_composite_key` follow one order. The values of a
family of types have a rank in a linear order, a shorter string padded with zeros, and the
sign of a comparison is the order of the ranks. -/
namespace Rmdb
open Index IndexScanExecutor

section Rank
variable {L : Type} [LinearOrder L] {x y z : L} {r q p : Int}

def FollowsRanks (r : Int) (x y : L) : Prop := (r < 0 ↔ x < y) ∧ (r = 0 ↔ x = y)

theorem ranksLe (forth : FollowsRanks r x y) : r ≤ 0 ↔ x ≤ y := by
  rw [le_iff_lt_or_eq,le_iff_lt_or_eq,forth.1,forth.2]

theorem ranksOpposite (forth : FollowsRanks r x y) (back : FollowsRanks q y x) : r.sign = -q.sign := by
  rcases lt_trichotomy x y with less | rfl | more
  · have negative := forth.1.mpr less
    have nonzero : q ≠ 0 := fun zero => less.ne' (back.2.mp zero)
    have nonneg : ¬q < 0 := fun neg => less.asymm (back.1.mp neg)
    rw [Int.sign_eq_neg_one_of_neg negative,Int.sign_eq_one_of_pos (by omega)]
  · rw [forth.2.mpr rfl,back.2.mpr rfl]
    rfl
  · have negative := back.1.mpr more
    have nonzero : r ≠ 0 := fun zero => more.ne' (forth.2.mp zero)
    have nonneg : ¬r < 0 := fun neg => more.asymm (forth.1.mp neg)
    rw [Int.sign_eq_neg_one_of_neg negative,Int.sign_eq_one_of_pos (by omega)]
    rfl

theorem ranksTrans (first : FollowsRanks r x y) (second : FollowsRanks q y z) (whole : FollowsRanks p x z)
    (le : r ≤ 0) (le' : q ≤ 0) : p ≤ 0 :=
  (ranksLe whole).mpr (((ranksLe first).mp le).trans ((ranksLe second).mp le'))

end Rank

section Padding
variable {a b : Bytes} {x y : UInt8}

/- A string with zeros after it for ever, in the lexicographic order of unsigned bytes. -/
def zeroPadded (a : Bytes) : Lex (ℕ → ℤ) := toLex fun i => ((a.getD i 0).toNat : ℤ)

theorem paddedCons : zeroPadded (x :: a) = zeroPadded (y :: b) ↔ x = y ∧ zeroPadded a = zeroPadded b := by
  refine ⟨fun same => ?_,fun ⟨head,tail⟩ => ?_⟩
  · have at' := fun i => congrFun (toLex.injective same) i
    exact ⟨UInt8.toNat_inj.mp (Int.ofNat.inj (at' 0)),congrArg toLex (funext fun i => at' (i+1))⟩
  · subst head
    refine congrArg toLex (funext fun i => ?_)
    cases i with
    | zero => rfl
    | succ i => exact congrFun (toLex.injective tail) i

theorem paddedConsLt : zeroPadded (x :: a) < zeroPadded (y :: b) ↔
    x.toNat < y.toNat ∨ x = y ∧ zeroPadded a < zeroPadded b := by
  constructor
  · rintro ⟨i,same,less⟩
    cases i with
    | zero => exact .inl (Int.ofNat_lt.mp less)
    | succ i =>
      refine .inr ⟨UInt8.toNat_inj.mp (Int.ofNat.inj (same 0 (Nat.zero_lt_succ i))),i,fun j lower => ?_,less⟩
      exact same (j+1) (Nat.succ_lt_succ lower)
  · rintro (less | ⟨rfl,i,same,less⟩)
    · exact ⟨0,fun j lower => absurd lower (Nat.not_lt_zero j),Int.ofNat_lt.mpr less⟩
    · refine ⟨i+1,fun j lower => ?_,less⟩
      cases j with
      | zero => rfl
      | succ j => exact same j (Nat.lt_of_succ_lt_succ lower)

theorem paddedNil : zeroPadded [] = zeroPadded [0] := by
  refine congrArg toLex (funext fun i => ?_)
  cases i <;> rfl

theorem paddedZeros (b : Bytes) : zeroPadded [] = zeroPadded b ↔ b.any (· ≠ 0) = false := by
  induction b with
  | nil => simp
  | cons y b ih =>
    rw [paddedNil,paddedCons,ih,List.any_cons,Bool.or_eq_false_iff,decide_eq_false_iff_not,not_not,eq_comm]

theorem paddedLeast (b : Bytes) : zeroPadded [] ≤ zeroPadded b :=
  Pi.toLex_monotone fun i => Int.ofNat_le.mpr (Nat.zero_le (b.getD i 0).toNat)

end Padding

section Strings
variable {x y : UInt8}

theorem compareStringsCons {a b : Bytes} : compareStrings (x :: a) (a.length+1) (y :: b) (b.length+1) =
    if x = y then compareStrings a a.length b b.length else (x.toNat : Int)-y.toNat := by
  simp only [compareStrings,Nat.add_min_add_right,List.take_succ_cons,List.drop_succ_cons,memcmp,Nat.add_right_cancel_iff,
    gt_iff_lt,Nat.add_lt_add_iff_right]
  by_cases same : x = y
  · rw [if_pos same,if_pos same]
  · have apart : x.toNat ≠ y.toNat := fun equal => same (UInt8.toNat_inj.mp equal)
    rw [if_neg same,if_neg same,if_pos (by omega)]

theorem compareStringsLeft (b : Bytes) : compareStrings [] 0 b b.length = if b.any (· ≠ 0) then -1 else 0 := by
  cases b <;> simp [compareStrings,memcmp]

theorem compareStringsRight (a : Bytes) : compareStrings a a.length [] 0 = if a.any (· ≠ 0) then 1 else 0 := by
  cases a <;> simp [compareStrings,memcmp]

theorem compareStringsTake (a b : Bytes) (m n : Nat) :
    compareStrings (a.take m) m (b.take n) n = compareStrings a m b n := by
  simp only [compareStrings,List.take_take,min_self,min_eq_left (min_le_left m n),min_eq_left (min_le_right m n)]

theorem stringsRanks (a b : Bytes) : FollowsRanks (compareStrings a a.length b b.length) (zeroPadded a) (zeroPadded b) := by
  induction a generalizing b with
  | nil =>
    rw [List.length_nil,compareStringsLeft]
    cases nonzero : b.any (· ≠ 0) with
    | true =>
      have differ : zeroPadded [] ≠ zeroPadded b := by rw [ne_eq,paddedZeros,nonzero]; decide
      simp [FollowsRanks,differ,lt_of_le_of_ne (paddedLeast b) differ]
    | false => simp [FollowsRanks,(paddedZeros b).mpr nonzero]
  | cons x a ih => cases b with
    | nil =>
      rw [List.length_nil,compareStringsRight]
      cases nonzero : (x :: a).any (· ≠ 0) with
      | true =>
        have differ : zeroPadded [] ≠ zeroPadded (x :: a) := by rw [ne_eq,paddedZeros,nonzero]; decide
        simp [FollowsRanks,differ.symm,not_lt.mpr (paddedLeast (x :: a))]
      | false => simp [FollowsRanks,(paddedZeros (x :: a)).mpr nonzero]
    | cons y b =>
      rw [List.length_cons,List.length_cons,compareStringsCons]
      refine ⟨Iff.trans ?_ paddedConsLt.symm,Iff.trans ?_ paddedCons.symm⟩ <;> by_cases same : x = y
      · subst same
        rw [if_pos rfl]
        have tail : x.toNat < x.toNat ∨ x = x ∧ zeroPadded a < zeroPadded b ↔ zeroPadded a < zeroPadded b := by simp
        exact (ih b).1.trans tail.symm
      · simp [same]
      · simpa [same] using (ih b).2
      · have apart : x.toNat ≠ y.toNat := fun equal => same (UInt8.toNat_inj.mp equal)
        simp [same]
        omega

end Strings

structure Operand where
  type : ColType
  len : Nat
  data : Bytes
  room : len ≤ data.length
  fixed : match type with
    | .int => len = 4
    | .bigint => len = 8
    | .datetime => len = 8
    | .string => True
    | .float => False

namespace Operand
variable (a b c : Operand)

def value : Bytes := a.data.take a.len

def Comparable : Prop := isIntegralType a.type ∧ isIntegralType b.type ∨ a.type = b.type ∧ ¬isNumericType a.type

theorem Comparable.symm {a b : Operand} (same : a.Comparable b) : b.Comparable a := by
  rcases same with ⟨left,right⟩ | ⟨equal,kind⟩
  · exact .inl ⟨right,left⟩
  · exact .inr ⟨equal.symm,equal ▸ kind⟩

theorem Comparable.trans {a b c : Operand} (first : a.Comparable b) (second : b.Comparable c) : a.Comparable c := by
  rcases first with ⟨left,middle⟩ | ⟨equal,kind⟩ <;> rcases second with ⟨middle',right⟩ | ⟨equal',kind'⟩
  · exact .inl ⟨left,right⟩
  · exact .inl ⟨left,equal' ▸ middle⟩
  · exact .inl ⟨equal ▸ middle',right⟩
  · exact .inr ⟨equal.trans equal',kind⟩

def compare [FloatOps] : Except Fault Int := compareRawData a.data a.type a.len b.data b.type b.len

def rank : Lex (ℕ → ℤ) :=
  match a.type with
  | .int => toLex fun _ => leInt (a.data.take 4)
  | .bigint => toLex fun _ => leInt (a.data.take 8)
  | .datetime => toLex fun _ => leInt (a.data.take 8)
  | .string => zeroPadded a.value
  | .float => toLex fun _ => 0

end Operand

section Integers

theorem constRanks (p q : Int) :
    FollowsRanks (signOf (p < q) (p > q)) (toLex fun _ => p : Lex (ℕ → ℤ)) (toLex fun _ => q) := by
  have same : (toLex fun _ => p : Lex (ℕ → ℤ)) = toLex (fun _ => q) ↔ p = q :=
    ⟨fun same => congrFun (toLex.injective same) 0,fun same => by rw [same]⟩
  have less : (toLex fun _ => p : Lex (ℕ → ℤ)) < toLex (fun _ => q) ↔ p < q :=
    ⟨fun ⟨_,_,less⟩ => less,fun less => ⟨0,fun j lower => absurd lower (Nat.not_lt_zero j),less⟩⟩
  refine ⟨Iff.trans ?_ less.symm,Iff.trans ?_ same.symm⟩ <;> rcases lt_trichotomy p q with below | rfl | above
  · simp [signOf,below]
  · simp [signOf]
  · simp [signOf,above,not_lt.mpr above.le]
  · simp [signOf,below,below.ne]
  · simp [signOf]
  · simp [signOf,above,above.ne',not_lt.mpr above.le]

theorem integralRank {a : Operand} (integral : isIntegralType a.type) : a.rank = toLex fun _ => rawInt a.type a.data := by
  obtain ⟨type,len,data,room,fixed⟩ := a
  cases type with
  | int => rfl
  | bigint => rfl
  | _ => cases integral

theorem Operand.stringRank {a : Operand} (string : a.type = .string) : a.rank = zeroPadded a.value := by
  rw [rank,string]

theorem integralNumeric {type : ColType} (integral : isIntegralType type) : isNumericType type := by
  cases type with
  | int => rfl
  | bigint => rfl
  | _ => cases integral

theorem Operand.compareRanks [FloatOps] {a b : Operand} (same : a.Comparable b) :
    ∃ r, a.compare b = .ok r ∧ FollowsRanks r a.rank b.rank := by
  rcases same with ⟨left,right⟩ | ⟨equal,kind⟩
  · rw [integralRank left,integralRank right,Operand.compare,compareRawData,integralNumeric left,integralNumeric right,left,
      right]
    exact ⟨_,rfl,constRanks ..⟩
  · obtain ⟨type,alen,adata,aroom,afixed⟩ := a
    obtain ⟨btype,blen,bdata,broom,bfixed⟩ := b
    cases equal
    cases type with
    | datetime => exact ⟨_,rfl,constRanks ..⟩
    | string =>
      refine ⟨compareStrings adata alen bdata blen,rfl,?_⟩
      have strings := stringsRanks (adata.take alen) (bdata.take blen)
      rwa [List.length_take_of_le aroom,List.length_take_of_le broom,compareStringsTake] at strings
    | _ => exact absurd rfl kind

end Integers

section Keys
variable {cols : List IxCol}

theorem keysIdentical (a b : IxBytes cols) : compareCols cols a.1 b.1 = 0 ↔ a.1 = b.1 := by
  rw [(compareSigns a.2.ge b.2.ge).2]
  exact ⟨keyDigitsInj a.2 b.2,fun same => by rw [same]⟩

theorem bytesIdentical {a b : Bytes} (length : a.length = b.length) : memcmp a b = 0 ↔ a = b := by
  rw [(signsMemcmp length).2]
  exact ⟨bytesInj,fun same => by rw [same]⟩

end Keys

theorem comparisonOrder [FloatOps] :
    (∀ a b : Operand, a.Comparable b → ∃ r q, a.compare b = .ok r ∧ b.compare a = .ok q ∧ r.sign = -q.sign) ∧
    (∀ a b c : Operand, a.Comparable b → b.Comparable c → ∃ r q p, a.compare b = .ok r ∧ b.compare c = .ok q ∧
      a.compare c = .ok p ∧ (r ≤ 0 → q ≤ 0 → p ≤ 0)) ∧
    (∀ a b : Operand, a.type = .string → b.type = .string → ∃ r, a.compare b = .ok r ∧
      (r < 0 ↔ zeroPadded a.value < zeroPadded b.value) ∧ (r = 0 ↔ zeroPadded a.value = zeroPadded b.value)) ∧
    (∀ (cols : List IxCol) (a b : IxBytes cols), ∃ r, compareCompositeKey cols a.1 b.1 = .ok r ∧
      r.sign = (compareCols cols a.1 b.1).sign ∧ (r = 0 ↔ a.1 = b.1) ∧ (compareCols cols a.1 b.1 = 0 ↔ a.1 = b.1) ∧
      (memcmp a.1 b.1 = 0 ↔ a.1 = b.1)) := by
  refine ⟨?_,?_,?_,?_⟩
  · intro a b same
    obtain ⟨r,forth,ordered⟩ := Operand.compareRanks same
    obtain ⟨q,back,opposite⟩ := Operand.compareRanks same.symm
    exact ⟨r,q,forth,back,ranksOpposite ordered opposite⟩
  · intro a b c first second
    obtain ⟨r,left,lower⟩ := Operand.compareRanks first
    obtain ⟨q,right,upper⟩ := Operand.compareRanks second
    obtain ⟨p,whole,both⟩ := Operand.compareRanks (first.trans second)
    exact ⟨r,q,p,left,right,whole,ranksTrans lower upper both⟩
  · intro a b left right
    obtain ⟨r,compared,ordered⟩ := Operand.compareRanks (.inr ⟨left.trans right.symm,by rw [left]; decide⟩)
    rw [Operand.stringRank left,Operand.stringRank right] at ordered
    exact ⟨r,compared,ordered⟩
  · intro cols a b
    exact ⟨_,compositeCompare ..,rfl,keysIdentical a b,keysIdentical a b,bytesIdentical (a.2.trans b.2.symm)⟩
end Rmdb
