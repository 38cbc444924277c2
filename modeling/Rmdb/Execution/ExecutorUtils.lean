import Rmdb.Common.Value

/-! `executor_utils.h`: comparing column values, testing a record against conditions and
building index keys. A pointer into a record is what is left of the record from there on. -/
namespace Rmdb

def rawInt (type : ColType) (data : Bytes) : Int := if type = .int then leInt (data.take 4) else leInt (data.take 8)

def signOf (less more : Bool) : Int := if less then -1 else if more then 1 else 0

def rawLongDouble [FloatOps] (type : ColType) (data : Bytes) : FloatOps.LongDouble :=
  if type = .float then FloatOps.ofFloat (UInt32.ofNat (leNat (data.take 4))) else FloatOps.ofInt (rawInt type data)

def compareStrings (lhs : Bytes) (lhsLen : Nat) (rhs : Bytes) (rhsLen : Nat) : Int :=
  let commonLen := min lhsLen rhsLen
  let cmp := memcmp (lhs.take commonLen) (rhs.take commonLen)
  if cmp ≠ 0 then cmp
  else if lhsLen = rhsLen then 0
  else if lhsLen > rhsLen then if ((lhs.take lhsLen).drop commonLen).any (· ≠ 0) then 1 else 0
  else if ((rhs.take rhsLen).drop commonLen).any (· ≠ 0) then -1 else 0

def compareRawData [FloatOps] (lhs : Bytes) (lhsType : ColType) (lhsLen : Nat) (rhs : Bytes) (rhsType : ColType)
    (rhsLen : Nat) : Except Fault Int :=
  if isNumericType lhsType && isNumericType rhsType then
    if isIntegralType lhsType && isIntegralType rhsType then
      .ok (signOf (rawInt lhsType lhs < rawInt rhsType rhs) (rawInt lhsType lhs > rawInt rhsType rhs))
    else
      let lhsValue := rawLongDouble lhsType lhs
      let rhsValue := rawLongDouble rhsType rhs
      .ok (signOf (FloatOps.less lhsValue rhsValue) (FloatOps.less rhsValue lhsValue))
  else if lhsType ≠ rhsType then .error (incompatible lhsType rhsType)
  else if lhsType = .datetime then
    .ok (signOf (leInt (lhs.take 8) < leInt (rhs.take 8)) (leInt (lhs.take 8) > leInt (rhs.take 8)))
  -- equal types that are neither numeric nor `DATETIME`; what follows in the source is not reached
  else .ok (compareStrings lhs lhsLen rhs rhsLen)

theorem compareSame [FloatOps] (a b : Bytes) (type : ColType) (len : Nat) :
    ∃ cmp, compareRawData a type len b type len = .ok cmp := by
  rw [compareRawData]
  split
  · split <;> exact ⟨_,rfl⟩
  · rw [if_neg (not_not_intro rfl)]
    split <;> exact ⟨_,rfl⟩

def evaluateCompareResult (cmp : Int) : CompOp → Bool
  | .eq => cmp = 0
  | .ne => cmp ≠ 0
  | .lt => cmp < 0
  | .gt => cmp > 0
  | .le => cmp ≤ 0
  | .ge => cmp ≥ 0

def findColMeta (cols : List ColMeta) (target : TabCol) : Except Fault ColMeta :=
  match cols.find? fun col => col.tabName = target.tabName ∧ col.name = target.colName with
  | some col => .ok col
  | none => .error (.error (.columnNotFound (target.tabName ++ "." ++ target.colName)))

def rhsOperand (record : Bytes) (cols : List ColMeta) : Rhs → Except Fault (Bytes × ColType × Nat)
  | .val v => match v.raw with
    | none => .error (.error (.internal "Condition raw value is not initialized"))
    | some raw => .ok (raw,v.type,raw.length)
  | .col c => do
    let col ← findColMeta cols c
    .ok (record.drop col.offset,col.type,col.len)

def recordSatisfiesConditions [FloatOps] (record : Bytes) (cols : List ColMeta) : List Condition → Except Fault Bool
  | [] => .ok true
  | cond :: conds => do
    let col ← findColMeta cols cond.lhsCol
    let (rhs,rhsType,rhsLen) ← rhsOperand record cols cond.rhs
    let cmp ← compareRawData (record.drop col.offset) col.type col.len rhs rhsType rhsLen
    if evaluateCompareResult cmp cond.op then recordSatisfiesConditions record cols conds else .ok false

def buildIndexKey (index : IndexMeta) (record : Bytes) : Bytes :=
  index.cols.flatMap fun col => (record.drop col.offset).take col.len

end Rmdb
