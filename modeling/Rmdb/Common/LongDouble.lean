import Rmdb.Common.Value

/-! The arithmetic behind `FloatOps`: `float` is the 32-bit format, `long double` keeps 64
significant bits and rounds to the nearest value, to the even one where two are as near. Every
value that occurs is a quotient by a power of two, far inside the range of the exponent. -/
namespace Rmdb

section Rounding

def roundHalfEven (n d : Nat) : Nat := if 2*(n%d) < d ∨ (2*(n%d) = d ∧ n/d%2 = 0) then n/d else n/d+1

def roundNat (p n : Nat) : Nat := if n < 2^p then n else roundHalfEven n (2^(n.log2+1-p))*2^(n.log2+1-p)

def roundInt (p : Nat) (n : Int) : Int := n.sign*roundNat p n.natAbs

theorem roundHalfEvenMultiple {n d : Nat} (positive : 0 < d) (divides : d ∣ n) : roundHalfEven n d = n/d := by
  rw [roundHalfEven,Nat.mod_eq_zero_of_dvd divides,if_pos (.inl (by omega))]

theorem roundNatMultiple {p n : Nat} (divides : n < 2^p ∨ 2^(n.log2+1-p) ∣ n) : roundNat p n = n := by
  rw [roundNat]
  split
  · rfl
  · rename_i large
    have divides := divides.resolve_left large
    rw [roundHalfEvenMultiple (by positivity) divides,Nat.div_mul_cancel divides]

theorem roundNatSmall {p n : Nat} (small : n ≤ 2^p) (wide : 0 < p) : roundNat p n = n := by
  rcases Nat.lt_or_eq_of_le small with less | rfl
  · exact roundNatMultiple (.inl less)
  · refine roundNatMultiple (.inr ?_)
    rw [Nat.log2_two_pow,Nat.add_sub_cancel_left]
    exact Nat.pow_dvd_pow 2 wide

theorem roundIntSmall {p : Nat} {n : Int} (small : n.natAbs ≤ 2^p) (wide : 0 < p) : roundInt p n = n := by
  rw [roundInt,roundNatSmall small wide,Int.sign_mul_natAbs]

end Rounding

inductive LongDouble where
  | finite (q : Rat)
  | inf (negative : Bool)
  | nan
  deriving DecidableEq

namespace LongDouble

def significandBits : Nat := 64

def trunc (q : Rat) : Int := if 0 ≤ q then ⌊q⌋ else ⌈q⌉

def less : LongDouble → LongDouble → Bool
  | .finite a,.finite b => a < b
  | .finite _,.inf negative => !negative
  | .inf negative,.finite _ => negative
  | .inf negative,.inf other => negative && !other
  | _,_ => false

def ofFloat (bits : UInt32) : LongDouble :=
  let negative := 2^31 ≤ bits.toNat
  let exponent := bits.toNat/2^23%2^8
  let fraction := bits.toNat%2^23
  if exponent = 255 then if fraction = 0 then .inf negative else .nan else
    let significand : Nat := if exponent = 0 then fraction else fraction+2^23
    let shift : Nat := if exponent = 0 then 1 else exponent
    let magnitude : Rat := (significand*2^shift : Nat)/2^150
    .finite (if negative then -magnitude else magnitude)

def encode (magnitude : Rat) : Nat :=
  if magnitude = 0 then 0 else
    let leading := (magnitude*2^149).floor.toNat.log2
    let shift := leading-23
    let significand := roundHalfEven (magnitude.num.natAbs*2^149) (magnitude.den*2^shift)
    let bits := if significand < 2^23 then significand else significand-2^23+(shift+1)*2^23
    if 255*2^23 ≤ bits then 255*2^23 else bits

def toFloat : LongDouble → UInt32
  | .finite q => UInt32.ofNat (encode |q|+if q < 0 then 2^31 else 0)
  | .inf negative => UInt32.ofNat (255*2^23+if negative then 2^31 else 0)
  | .nan => UInt32.ofNat (255*2^23+2^22)

def toInt : LongDouble → Int
  | .finite q => trunc q
  | _ => 0

-- `static_cast<int64_t>`: what does not fit is undefined in the language, the least value on x86
def toInt64 : LongDouble → Int
  | .finite q => if -2^63 ≤ trunc q ∧ trunc q < 2^63 then trunc q else -2^63
  | _ => -2^63

def add : LongDouble → LongDouble → LongDouble
  | .finite a,.finite b => .finite (roundInt significandBits (a+b).num/(a+b).den)
  | .finite _,b => b
  | a,.finite _ => a
  | .inf negative,.inf other => if negative = other then .inf negative else .nan
  | _,_ => .nan

theorem addInts (a b : Int) : add (.finite a) (.finite b) = .finite (roundInt significandBits (a+b)) := by
  have sum : ((a : Rat)+b) = ((a+b : Int) : Rat) := by push_cast; rfl
  simp only [add,sum,Rat.num_intCast,Rat.den_intCast,Nat.cast_one,div_one]

theorem truncInt (n : Int) : trunc n = n := by
  rw [trunc,Int.floor_intCast,Int.ceil_intCast,ite_self]

theorem toInt64Int (n : Int) : toInt64 (.finite n) = if -2^63 ≤ n ∧ n < 2^63 then n else -2^63 := by
  rw [toInt64,truncInt]

section Rank

def floatRank (bits : Nat) : Int := if bits < 2^31 then bits else 2^31-bits

def isNan (bits : Nat) : Prop := 255*2^23 < bits%2^31

def scaled (n : Nat) : Nat := (if n/2^23 = 0 then n%2^23 else n%2^23+2^23)*2^(if n/2^23 = 0 then 1 else n/2^23)

theorem scaledMono {a b : Nat} (less : a < b) : scaled a < scaled b := by
  have own := Nat.div_add_mod a (2^23)
  have other := Nat.div_add_mod b (2^23)
  have low := Nat.mod_lt a (show 0 < 2^23 by norm_num)
  have high := Nat.mod_lt b (show 0 < 2^23 by norm_num)
  have order : a/2^23 ≤ b/2^23 := Nat.div_le_div_right less.le
  rw [scaled,scaled]
  generalize a/2^23 = d at *
  generalize b/2^23 = e at *
  generalize a%2^23 = f at *
  generalize b%2^23 = g at *
  rcases order.lt_or_eq with apart | rfl
  · rw [if_neg (by omega : ¬e = 0),if_neg (by omega : ¬e = 0)]
    have reach : 2^23*2^e ≤ (g+2^23)*2^e := Nat.mul_le_mul_right _ (by omega)
    refine lt_of_lt_of_le ?_ reach
    by_cases zero : d = 0
    · rw [if_pos zero,if_pos zero]
      have step : 2^1 ≤ 2^e := Nat.pow_le_pow_right (by norm_num) (by omega)
      omega
    · rw [if_neg zero,if_neg zero]
      have step : 2^(d+1) ≤ 2^e := Nat.pow_le_pow_right (by norm_num) apart
      calc (f+2^23)*2^d < 2^24*2^d := Nat.mul_lt_mul_of_pos_right (by omega) (by positivity)
        _ = 2^23*2^(d+1) := by ring
        _ ≤ 2^23*2^e := Nat.mul_le_mul_left _ step
  · split
    · omega
    · exact Nat.mul_lt_mul_of_pos_right (by omega) (by positivity)

def signedScaled (rank : Int) : Int := if 0 ≤ rank then scaled rank.toNat else -scaled (-rank).toNat

theorem signedScaledMono {p q : Int} (less : p < q) : signedScaled p < signedScaled q := by
  have zero : scaled 0 = 0 := by decide
  rw [signedScaled,signedScaled]
  by_cases positive : 0 ≤ p
  · rw [if_pos positive,if_pos (by omega)]
    exact_mod_cast scaledMono (by omega : p.toNat < q.toNat)
  · rw [if_neg positive]
    have below : scaled 0 < scaled (-p).toNat := scaledMono (by omega)
    split
    · omega
    · have mono := scaledMono (by omega : (-q).toNat < (-p).toNat)
      omega

theorem signedScaledLess {p q : Int} : signedScaled p < signedScaled q ↔ p < q := by
  refine ⟨fun less => ?_,signedScaledMono⟩
  by_contra back
  rcases (not_lt.mp back).lt_or_eq with more | rfl
  · exact absurd (signedScaledMono more) (by omega)
  · exact absurd less (lt_irrefl _)

theorem ofFloatRank {bits : UInt32} (number : ¬isNan bits.toNat) :
    (floatRank bits.toNat).natAbs ≤ 255*2^23 ∧ ofFloat bits =
      if (floatRank bits.toNat).natAbs = 255*2^23 then .inf (decide (floatRank bits.toNat < 0))
      else .finite (signedScaled (floatRank bits.toNat)/2^150) := by
  have width := bits.toNat_lt
  rw [isNan,not_lt] at number
  generalize size : bits.toNat%2^31 = m at number
  have rank : floatRank bits.toNat = if 2^31 ≤ bits.toNat then -(m : Int) else m := by
    rw [floatRank]
    split <;> split <;> omega
  have exponent : bits.toNat/2^23%2^8 = m/2^23 := by omega
  have fraction : bits.toNat%2^23 = m%2^23 := by omega
  have abs : (floatRank bits.toNat).natAbs = m := by
    rw [rank]
    split <;> omega
  refine ⟨abs ▸ number,?_⟩
  have unfolded : ofFloat bits = if m/2^23 = 255 then if m%2^23 = 0 then .inf (decide (2^31 ≤ bits.toNat)) else .nan
      else .finite (if 2^31 ≤ bits.toNat then -((scaled m : Rat)/2^150) else (scaled m : Rat)/2^150) := by
    simp only [ofFloat,exponent,fraction,scaled]
  rw [unfolded,abs]
  by_cases infinite : m = 255*2^23
  · rw [if_pos (by omega),if_pos (by omega),if_pos infinite,rank]
    refine congrArg LongDouble.inf (decide_eq_decide.mpr ?_)
    split <;> omega
  · rw [if_neg (by omega),if_neg infinite,rank]
    refine congrArg LongDouble.finite ?_
    by_cases negative : 2^31 ≤ bits.toNat
    · rw [if_pos negative,if_pos negative,signedScaled]
      split
      · obtain rfl : m = 0 := by omega
        have zero : scaled 0 = 0 := by decide
        simp [zero]
      · rw [Int.neg_neg,Int.toNat_natCast]
        push_cast
        ring
    · rw [if_neg negative,if_neg negative,signedScaled,if_pos (Int.natCast_nonneg m),Int.toNat_natCast]
      push_cast
      rfl

theorem lessRank {a b : UInt32} (numbera : ¬isNan a.toNat) (numberb : ¬isNan b.toNat) :
    less (ofFloat a) (ofFloat b) = decide (floatRank a.toNat < floatRank b.toNat) := by
  obtain ⟨bounda,vala⟩ := ofFloatRank numbera
  obtain ⟨boundb,valb⟩ := ofFloatRank numberb
  rw [vala,valb]
  generalize floatRank a.toNat = p at *
  generalize floatRank b.toNat = q at *
  split <;> split <;> rename_i left right <;> simp only [less]
  · by_cases below : p < 0 <;> by_cases low : q < 0 <;> simp [below,low] <;> omega
  · by_cases below : p < 0 <;> simp [below] <;> omega
  · by_cases low : q < 0 <;> simp [low] <;> omega
  · have scale : ((signedScaled p : Rat)/2^150 < signedScaled q/2^150) ↔ p < q := by
      rw [div_lt_div_iff_of_pos_right (by positivity),Int.cast_lt,signedScaledLess]
    exact decide_eq_decide.mpr scale

end Rank

example : ofFloat 0x40200000 = .finite (5/2) ∧ toFloat (.finite (5/2)) = 0x40200000 ∧
    toFloat (.finite (-1/2^149)) = 0x80000001 := by decide +kernel

theorem lessAsymm (a b : LongDouble) (lt : less a b = true) : less b a = false := by
  cases a with
  | nan => exact Bool.noConfusion lt
  | finite p => cases b with
    | nan => rfl
    | finite q => exact decide_eq_false (of_decide_eq_true lt).not_gt
    | inf negative => cases negative <;> first | rfl | exact Bool.noConfusion lt
  | inf negative => cases b with
    | nan => cases negative <;> rfl
    | finite q => cases negative <;> first | rfl | exact Bool.noConfusion lt
    | inf other => cases negative <;> cases other <;> first | rfl | exact Bool.noConfusion lt

end LongDouble

@[reducible] def FloatOps.x87 : FloatOps :=
  ⟨Rmdb.LongDouble,fun n => .finite n,Rmdb.LongDouble.ofFloat,Rmdb.LongDouble.less,Rmdb.LongDouble.toInt,
    Rmdb.LongDouble.toFloat,Rmdb.LongDouble.lessAsymm⟩

end Rmdb
