import Rmdb.Common.RawData
import Rmdb.System.SmMeta

/-! Literals, conditions and SET clauses, and the conversion of a literal to the type of its
column. Floating-point arithmetic is not part of the source: `FloatOps` stands for it. -/
namespace Rmdb

class FloatOps where
  LongDouble : Type
  -- a `float` is given by its bit pattern
  ofInt : Int → LongDouble
  ofFloat : UInt32 → LongDouble
  less : LongDouble → LongDouble → Bool
  toInt : LongDouble → Int
  toFloat : LongDouble → UInt32
  asymm : ∀ a b, less a b = true → less b a = false

@[reducible] def FloatOps.whole : FloatOps :=
  ⟨Int,id,fun _ => 0,fun a b => decide (a < b),id,fun _ => 0,fun _ _ lt => decide_eq_false (of_decide_eq_true lt).not_gt⟩

inductive Scalar where
  | int (v : Int)
  | bigint (v : Int)
  | datetime (v : Int)
  | float (v : UInt32)
  | str (v : Bytes)
  deriving DecidableEq, Repr

structure Value where
  scalar : Scalar
  raw : Option Bytes
  deriving DecidableEq, Repr

inductive CompOp where
  | eq
  | ne
  | lt
  | gt
  | le
  | ge
  deriving DecidableEq, Repr

inductive Rhs where
  | val (v : Value)
  | col (c : TabCol)
  deriving DecidableEq, Repr

structure Condition where
  lhsCol : TabCol
  op : CompOp
  rhs : Rhs
  deriving DecidableEq, Repr

structure SetClause where
  lhs : TabCol
  rhs : Value
  deriving DecidableEq, Repr

def isNumericType (type : ColType) : Bool := type = .int || type = .bigint || type = .float

def isIntegralType (type : ColType) : Bool := type = .int || type = .bigint

namespace Value

def type (value : Value) : ColType :=
  match value.scalar with
  | .int _ => .int
  | .bigint _ => .bigint
  | .datetime _ => .datetime
  | .float _ => .float
  | .str _ => .string

def initRaw (value : Value) (len : Nat) : Except Fault Value :=
  if value.raw ≠ none then .error (.assertion "raw == nullptr") else
    let fixed (width : Nat) (text : String) (bytes : Bytes) : Except Fault Value :=
      if len = width then .ok {value with raw := some bytes} else .error (.assertion text)
    match value.scalar with
    | .int v => fixed 4 "len == static_cast<int>(sizeof(int32_t))" (leBytes 4 v)
    | .bigint v => fixed 8 "len == static_cast<int>(sizeof(int64_t))" (leBytes 8 v)
    | .float v => fixed 4 "len == sizeof(float)" (leBytes 4 v.toNat)
    | .str v => if len < v.length then .error (.error .stringOverflow)
      else .ok {value with raw := some (v ++ List.replicate (len-v.length) 0)}
    | .datetime v => fixed 8 "len == static_cast<int>(sizeof(int64_t))" (leBytes 8 v)

end Value

section Casts
variable [FloatOps]

def valueAsLongDouble (value : Value) : Except Fault FloatOps.LongDouble :=
  match value.scalar with
  | .int v => .ok (FloatOps.ofInt v)
  | .bigint v => .ok (FloatOps.ofInt v)
  | .float v => .ok (FloatOps.ofFloat v)
  | _ => .error (.error (.incompatibleType "NUMERIC" (coltype2str value.type)))

def incompatible (target source : ColType) : Fault :=
  .error (.incompatibleType (coltype2str target) (coltype2str source))

def castNumeric (value : Value) (numeric : FloatOps.LongDouble) (target : ColType) : Except Fault Value :=
  let within (low high : Int) (result : Scalar) : Except Fault Value :=
    if FloatOps.less numeric (FloatOps.ofInt low) || FloatOps.less (FloatOps.ofInt high) numeric then
      .error (.error (.numericOverflow (coltype2str target)))
    else .ok {value with scalar := result}
  match target with
  | .float => .ok {value with scalar := .float (FloatOps.toFloat numeric)}
  | .int => within (-2^31) (2^31-1) (.int (FloatOps.toInt numeric))
  | .bigint => within (-2^63) (2^63-1) (.bigint (FloatOps.toInt numeric))
  | _ => .error (incompatible target value.type)

def castToDatetime (value : Value) : Except Fault Value :=
  match value.scalar with
  | .str v => do
    let encoded ← parseDatetimeString v
    .ok {value with scalar := .datetime encoded}
  | _ => .error (incompatible .datetime value.type)

def castValueToColType (value : Value) (col : ColMeta) : Except Fault Value :=
  if value.type = col.type then .ok value
  else if col.type = .datetime then castToDatetime value
  else if !isNumericType value.type || !isNumericType col.type then .error (incompatible col.type value.type)
  else do
    let numeric ← valueAsLongDouble value
    castNumeric value numeric col.type

end Casts
end Rmdb
