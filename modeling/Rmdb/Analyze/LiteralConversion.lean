import Rmdb.Common.LongDouble
import Rmdb.Analyze.Analyze
import Rmdb.Execution.ExecutorUtils

/-! A numeric literal of a WHERE clause, from `convert_sv_value` to the comparison with the values of
an integer column. The literal is cut off toward zero on the way. -/
namespace Rmdb

def CompOp.Holds (a b : Rat) : CompOp → Prop
  | .eq => a = b
  | .ne => a ≠ b
  | .lt => a < b
  | .gt => b < a
  | .le => a ≤ b
  | .ge => b ≤ a

namespace Analyze
open LongDouble (trunc)

inductive NumericLit where
  | int (val : Int)
  | float (val : UInt32)
  deriving DecidableEq, Repr

def convertSvValue : NumericLit → Value
  | .int val => ⟨.bigint val,none⟩
  | .float val => ⟨.float val,none⟩

def NumericLit.Denotes (q : Rat) : NumericLit → Prop
  | .int val => (-2^63 ≤ val ∧ val < 2^63) ∧ q = val
  | .float val => LongDouble.ofFloat val = .finite q

/- The comparisons that cutting off a fraction decides the other way: those with the integer it leaves. -/
def Misjudged (op : CompOp) (v : Int) (q : Rat) : Prop :=
  q.den ≠ 1 ∧ v = trunc q ∧
    (op = .eq ∨ op = .ne ∨ (0 < q ∧ (op = .lt ∨ op = .ge)) ∨ (q < 0 ∧ (op = .gt ∨ op = .le)))

section Numbers
variable {q : Rat} {v t : Int} {op : CompOp}

theorem evaluateSign (v t : Int) (op : CompOp) :
    evaluateCompareResult (signOf (v < t) (v > t)) op = true ↔ op.Holds v t := by
  rcases lt_trichotomy v t with less | same | more
  · have apart : ¬t < v := by omega
    have castLess : (v : Rat) < t := Int.cast_lt.mpr less
    cases op <;> simp [signOf,less,evaluateCompareResult,CompOp.Holds,castLess.ne,castLess,castLess.le,castLess.not_gt]
  · subst same
    cases op <;> simp [signOf,evaluateCompareResult,CompOp.Holds]
  · have apart : ¬v < t := by omega
    have castMore : (t : Rat) < v := Int.cast_lt.mpr more
    cases op <;> simp [signOf,more,apart,evaluateCompareResult,CompOp.Holds,castMore.ne',castMore,castMore.le,castMore.not_gt]

theorem truncWhole (whole : q.den = 1) : (trunc q : Rat) = q := by
  have exact : (q.num : Rat) = q := (Rat.den_eq_one_iff q).mp whole
  rw [← exact,trunc]
  split
  · simp
  · simp

theorem notWhole (part : q.den ≠ 1) (v : Int) : (v : Rat) ≠ q := by
  intro same
  rw [← same] at part
  exact part (Rat.den_intCast v)

theorem holdsPositive (part : q.den ≠ 1) (positive : 0 < q) : op.Holds v q ↔ match op with
    | .eq => False
    | .ne => True
    | .lt => v ≤ trunc q
    | .gt => trunc q < v
    | .le => v ≤ trunc q
    | .ge => trunc q < v := by
  have apart := notWhole part v
  have floor : trunc q = ⌊q⌋ := if_pos positive.le
  cases op with
  | eq => exact iff_false_intro apart
  | ne => exact iff_true_intro apart
  | lt => rw [floor,Int.le_floor]; exact ⟨le_of_lt,fun below => lt_of_le_of_ne below apart⟩
  | gt => rw [floor,Int.floor_lt]; exact Iff.rfl
  | le => rw [floor,Int.le_floor]; exact Iff.rfl
  | ge => rw [floor,Int.floor_lt]; exact ⟨fun above => lt_of_le_of_ne above apart.symm,le_of_lt⟩

theorem holdsNegative (part : q.den ≠ 1) (negative : q < 0) : op.Holds v q ↔ match op with
    | .eq => False
    | .ne => True
    | .lt => v < trunc q
    | .gt => trunc q ≤ v
    | .le => v < trunc q
    | .ge => trunc q ≤ v := by
  have apart := notWhole part v
  have ceil : trunc q = ⌈q⌉ := if_neg (not_le.mpr negative)
  cases op with
  | eq => exact iff_false_intro apart
  | ne => exact iff_true_intro apart
  | lt => rw [ceil,Int.lt_ceil]; exact Iff.rfl
  | gt => rw [ceil,Int.ceil_le]; exact ⟨le_of_lt,fun above => lt_of_le_of_ne above apart.symm⟩
  | le => rw [ceil,Int.lt_ceil]; exact ⟨fun below => lt_of_le_of_ne below apart,le_of_lt⟩
  | ge => rw [ceil,Int.ceil_le]; exact Iff.rfl

theorem truncJudges (op : CompOp) (v : Int) (q : Rat) :
    (op.Holds v (trunc q) ↔ op.Holds v q) ↔ ¬Misjudged op v q := by
  have integers : op.Holds v (trunc q) ↔ match op with
      | .eq => v = trunc q
      | .ne => v ≠ trunc q
      | .lt => v < trunc q
      | .gt => trunc q < v
      | .le => v ≤ trunc q
      | .ge => trunc q ≤ v := by
    cases op <;> simp [CompOp.Holds]
  by_cases whole : q.den = 1
  · rw [truncWhole whole]
    exact iff_of_true Iff.rfl fun misjudged => misjudged.1 whole
  rcases lt_trichotomy q 0 with negative | zero | positive
  · rw [integers,holdsNegative whole negative]
    cases op <;> simp [Misjudged,whole,negative,negative.not_gt] <;> omega
  · rw [zero] at whole
    exact absurd rfl whole
  · rw [integers,holdsPositive whole positive]
    cases op <;> simp [Misjudged,whole,positive,positive.not_gt] <;> omega

end Numbers

section Conversion
variable {db : DbMeta} {allCols : List ColMeta} {lhsCol : TabCol} {op : CompOp} {lit : NumericLit} {q : Rat}

def intScalar (type : ColType) (v : Int) : Scalar := if type = .int then .int v else .bigint v

def intWidth (type : ColType) : Nat := if type = .int then 4 else 8

theorem integralCases {type : ColType} (integral : isIntegralType type = true) : type = .int ∨ type = .bigint := by
  cases type <;> simp_all [isIntegralType]

theorem truncBounds {low high : Int} (above : ¬q < low) (below : ¬(high : Rat) < q) : low ≤ trunc q ∧ trunc q ≤ high := by
  rw [not_lt] at above below
  rw [trunc]
  split
  · exact ⟨Int.le_floor.mpr above,Int.cast_le.mp ((Int.floor_le q).trans below)⟩
  · exact ⟨Int.cast_le.mp (above.trans (Int.le_ceil q)),Int.ceil_le.mpr below⟩

theorem castNumericInt {value cast : Value} {type : ColType} (integral : isIntegralType type = true)
    (done : @castNumeric FloatOps.x87 value (.finite q) type = .ok cast) :
    cast = {value with scalar := intScalar type (trunc q)} ∧
      -(256^intWidth type : Int) ≤ 2*trunc q ∧ 2*trunc q < 256^intWidth type := by
  rcases integralCases integral with rfl | rfl
  · simp only [castNumeric,Bool.or_eq_true] at done
    split at done
    · cases done
    · rename_i within
      rw [not_or] at within
      obtain ⟨low,high⟩ := @truncBounds q (-2^31) (2^31-1) (fun less => within.1 (decide_eq_true less))
        fun less => within.2 (decide_eq_true less)
      cases done
      refine ⟨rfl,?_,?_⟩ <;> simp only [intWidth,if_true] <;> omega
  · simp only [castNumeric,Bool.or_eq_true] at done
    split at done
    · cases done
    · rename_i within
      rw [not_or] at within
      obtain ⟨low,high⟩ := @truncBounds q (-2^63) (2^63-1) (fun less => within.1 (decide_eq_true less))
        fun less => within.2 (decide_eq_true less)
      cases done
      refine ⟨rfl,?_,?_⟩ <;> simp only [intWidth,reduceCtorEq,if_false] <;> omega

theorem castLiteral {cast : Value} {type : ColType} (integral : isIntegralType type = true) (denotes : lit.Denotes q)
    (done : @castValueToType FloatOps.x87 (convertSvValue lit) type = .ok cast) :
    cast = ⟨intScalar type (trunc q),none⟩ ∧
      -(256^intWidth type : Int) ≤ 2*trunc q ∧ 2*trunc q < 256^intWidth type := by
  cases lit with
  | int val =>
    obtain ⟨⟨low,high⟩,rfl⟩ := denotes
    have whole : trunc (val : Rat) = val := Int.cast_injective (truncWhole (Rat.den_intCast val))
    rcases integralCases integral with rfl | rfl
    · exact @castNumericInt (val : Rat) (convertSvValue (.int val)) cast .int integral done
    · cases done
      rw [whole]
      refine ⟨rfl,?_,?_⟩ <;> simp only [intWidth,reduceCtorEq,if_false] <;> omega
  | float val =>
    have numeric : (LongDouble.ofFloat val) = .finite q := denotes
    rcases integralCases integral with rfl | rfl
    · have done : @castNumeric FloatOps.x87 (convertSvValue (.float val)) (LongDouble.ofFloat val) .int = .ok cast := done
      rw [numeric] at done
      exact castNumericInt integral done
    · have done : @castNumeric FloatOps.x87 (convertSvValue (.float val)) (LongDouble.ofFloat val) .bigint = .ok cast := done
      rw [numeric] at done
      exact castNumericInt integral done

theorem initRawInt {type : ColType} {len : Nat} {v : Int} {stored : Value} (integral : isIntegralType type = true)
    (done : Value.initRaw ⟨intScalar type v,none⟩ len = .ok stored) :
    stored = ⟨intScalar type v,some (leBytes (intWidth type) v)⟩ := by
  rcases integralCases integral with rfl | rfl
  · simp only [Value.initRaw,intScalar,ne_eq,not_true_eq_false,if_false,if_true] at done
    split at done
    · cases done
      rfl
    · cases done
  · simp only [Value.initRaw,intScalar,ne_eq,not_true_eq_false,if_false,reduceCtorEq] at done
    split at done
    · cases done
      rfl
    · cases done

theorem intScalarType {type : ColType} {v : Int} {raw : Option Bytes} (integral : isIntegralType type = true) :
    Value.type ⟨intScalar type v,raw⟩ = type := by
  rcases integralCases integral with rfl | rfl <;> rfl

theorem rawIntWidth {type : ColType} {data : Bytes} (integral : isIntegralType type = true) :
    rawInt type data = leInt (data.take (intWidth type)) := by
  rcases integralCases integral with rfl | rfl
  · rw [rawInt,if_pos rfl,intWidth,if_pos rfl]
  · rw [rawInt,if_neg (by decide),intWidth,if_neg (by decide)]

theorem compareLiteral {type : ColType} {v : Int} (data : Bytes) (len rhsLen : Nat) (integral : isIntegralType type = true)
    (low : -(256^intWidth type : Int) ≤ 2*v) (high : 2*v < 256^intWidth type) :
    @compareRawData FloatOps.x87 data type len (leBytes (intWidth type) v) type rhsLen =
      .ok (signOf (rawInt type data < v) (rawInt type data > v)) := by
  have numeric : isNumericType type = true := by rcases integralCases integral with rfl | rfl <;> rfl
  have read : rawInt type (leBytes (intWidth type) v) = v := by
    rw [rawIntWidth integral,List.take_of_length_le (leBytesLength _ v).le]
    exact leIntBytes low high
  simp only [compareRawData,numeric,integral,Bool.and_self,if_true,read]

theorem checkedLiteral {checked : Condition} {tab : TabMeta} {col : ColMeta} (denotes : lit.Denotes q)
    (accepted : @checkCondition FloatOps.x87 db allCols ⟨lhsCol,op,.val (convertSvValue lit)⟩ = .ok checked)
    (tabFound : db.getTable checked.lhsCol.tabName = .ok tab) (colFound : tab.getCol checked.lhsCol.colName = .ok col)
    (integral : isIntegralType col.type = true) :
    checked.op = op ∧
    checked.rhs = .val ⟨intScalar col.type (trunc q),some (leBytes (intWidth col.type) (trunc q))⟩ ∧
      -(256^intWidth col.type : Int) ≤ 2*trunc q ∧ 2*trunc q < 256^intWidth col.type := by
  unfold checkCondition at accepted
  obtain ⟨target,_,accepted⟩ := exceptBind accepted
  obtain ⟨rhs,sameRhs,accepted⟩ := exceptBind accepted
  cases sameRhs
  obtain ⟨tab',found,accepted⟩ := exceptBind accepted
  obtain ⟨col',foundCol,accepted⟩ := exceptBind accepted
  obtain ⟨cast,castDone,accepted⟩ := exceptBind accepted
  obtain ⟨raw,rawDone,accepted⟩ := exceptBind accepted
  obtain ⟨_,typed,accepted⟩ := exceptBind accepted
  cases typed
  dsimp only at accepted
  split at accepted
  · cases accepted
  · cases accepted
    obtain rfl := Except.ok.inj (found.symm.trans tabFound)
    obtain rfl := Except.ok.inj (foundCol.symm.trans colFound)
    obtain ⟨rfl,bounds⟩ := castLiteral integral denotes castDone
    rw [initRawInt integral rawDone]
    exact ⟨rfl,rfl,bounds⟩

end Conversion

def judges (data : Bytes) (col : ColMeta) (cond : Condition) : Except Fault Bool := do
  match cond.rhs with
  | .val ⟨scalar,some raw⟩ =>
    let cmp ← @compareRawData FloatOps.x87 data col.type col.len raw (Value.type ⟨scalar,some raw⟩) raw.length
    .ok (evaluateCompareResult cmp cond.op)
  | .val ⟨_,none⟩ => .error (.error (.internal "Condition raw value is not initialized"))
  | .col _ => .error (.error (.internal "Unexpected sv value type"))

theorem literalCompares {db : DbMeta} {allCols : List ColMeta} {lhsCol : TabCol} {op : CompOp} {lit : NumericLit} {q : Rat}
    {checked : Condition} {tab : TabMeta} {col : ColMeta} (denotes : lit.Denotes q)
    (accepted : @checkCondition FloatOps.x87 db allCols ⟨lhsCol,op,.val (convertSvValue lit)⟩ = .ok checked)
    (tabFound : db.getTable checked.lhsCol.tabName = .ok tab) (colFound : tab.getCol checked.lhsCol.colName = .ok col)
    (integral : isIntegralType col.type = true) (data : Bytes) :
    ∃ answer, judges data col checked = .ok answer ∧
      ((answer = true ↔ op.Holds (rawInt col.type data) q) ↔ ¬Misjudged op (rawInt col.type data) q) := by
  obtain ⟨sameOp,rhs,low,high⟩ := checkedLiteral denotes accepted tabFound colFound integral
  refine ⟨evaluateCompareResult (signOf (rawInt col.type data < trunc q) (rawInt col.type data > trunc q)) op,?_,?_⟩
  · rw [judges,rhs]
    simp only [intScalarType integral,compareLiteral data col.len _ integral low high,sameOp]
    rfl
  · rw [evaluateSign]
    exact truncJudges op _ q

def oneIntTable : DbMeta := ⟨"db",[("t",⟨"t",[⟨"t","a",.int,4,0⟩],[]⟩)]⟩

def oneIntCol : ColMeta := ⟨"t","a",.int,4,0⟩

def belowHalf : Condition := ⟨⟨"t","a"⟩,.lt,.val ⟨.int 2,some [2,0,0,0]⟩⟩

theorem belowHalfAccepted : @checkCondition FloatOps.x87 oneIntTable [oneIntCol]
    ⟨⟨"","a"⟩,.lt,.val (convertSvValue (.float 0x40200000))⟩ = .ok belowHalf := by decide +kernel

theorem belowHalfDenotes : NumericLit.Denotes (5/2) (.float 0x40200000) := by
  unfold NumericLit.Denotes
  decide +kernel

theorem oneBelowHalf : ∃ answer, judges (leBytes 4 1) oneIntCol belowHalf = .ok answer ∧
    ((answer = true ↔ CompOp.lt.Holds (rawInt .int (leBytes 4 1)) (5/2)) ↔
      ¬Misjudged .lt (rawInt .int (leBytes 4 1)) (5/2)) :=
  literalCompares belowHalfDenotes belowHalfAccepted (rfl : oneIntTable.getTable "t" = .ok ⟨"t",[oneIntCol],[]⟩) rfl rfl
    (leBytes 4 1)

theorem twoNotBelowHalf : @checkCondition FloatOps.x87 oneIntTable [oneIntCol]
      ⟨⟨"","a"⟩,.lt,.val (convertSvValue (.float 0x40200000))⟩ = .ok belowHalf ∧
    judges (leBytes 4 2) oneIntCol belowHalf = .ok false ∧ CompOp.lt.Holds (rawInt .int (leBytes 4 2)) (5/2) := by
  refine ⟨belowHalfAccepted,by decide +kernel,?_⟩
  have value : rawInt .int (leBytes 4 2) = 2 := by decide
  rw [value,CompOp.Holds]
  norm_num

end Analyze
end Rmdb
