import Rmdb.Common.Value

/-! `Analyze`: columns of a statement are resolved against the catalog and the literals of the
WHERE clause converted to the type of the column they are compared with. -/
namespace Rmdb.Analyze

def isCompatibleType (lhsType rhsType : ColType) : Bool :=
  if lhsType = rhsType then true
  else if (lhsType = .datetime && rhsType = .string) || (lhsType = .string && rhsType = .datetime) then true
  else isNumericType lhsType && isNumericType rhsType

def castValueToType [FloatOps] (value : Value) (targetType : ColType) : Except Fault Value :=
  if value.type = targetType then .ok value
  else if targetType = .datetime then castToDatetime value
  else if !isCompatibleType value.type targetType then .error (incompatible targetType value.type)
  else match value.scalar with
    | .int v => castNumeric value (FloatOps.ofInt v) targetType
    | .bigint v => castNumeric value (FloatOps.ofInt v) targetType
    | .float v => castNumeric value (FloatOps.ofFloat v) targetType
    -- a `DATETIME` value for a `STRING` column passes the test above and falls through to the last `else`
    | _ => .error (incompatible targetType value.type)

/- The loop that infers the table of an unqualified column. -/
def inferTable (colName : String) : List ColMeta → String → Except Fault String
  | [],tabName => .ok tabName
  | col :: cols,tabName =>
    if col.name = colName then
      if tabName ≠ "" then .error (.error (.ambiguousColumn colName)) else inferTable colName cols col.tabName
    else inferTable colName cols tabName

def checkColumn (allCols : List ColMeta) (target : TabCol) : Except Fault TabCol :=
  if target.tabName = "" then do
    let tabName ← inferTable target.colName allCols ""
    if tabName = "" then .error (.error (.columnNotFound target.colName)) else .ok {target with tabName := tabName}
  else if allCols.any fun col => col.tabName = target.tabName ∧ col.name = target.colName then .ok target
  else .error (.error (.columnNotFound (target.tabName ++ "." ++ target.colName)))

def getAllCols (db : DbMeta) : List String → Except Fault (List ColMeta)
  | [] => .ok []
  | tabName :: tabNames => do
    let tab ← db.getTable tabName
    let rest ← getAllCols db tabNames
    .ok (tab.cols ++ rest)

def checkCondition [FloatOps] (db : DbMeta) (allCols : List ColMeta) (cond : Condition) : Except Fault Condition := do
  let lhsTarget ← checkColumn allCols cond.lhsCol
  let rhsTarget ← match cond.rhs with
    | .val v => .ok (.val v)
    | .col c => (checkColumn allCols c).map Rhs.col
  let lhsTab ← db.getTable lhsTarget.tabName
  let lhsCol ← lhsTab.getCol lhsTarget.colName
  let (rhs,rhsType) ← match rhsTarget with
    | .val v => do
      let cast ← castValueToType v lhsCol.type
      let raw ← cast.initRaw lhsCol.len
      .ok (Rhs.val raw,raw.type)
    | .col c => do
      let rhsTab ← db.getTable c.tabName
      let rhsCol ← rhsTab.getCol c.colName
      .ok (Rhs.col c,rhsCol.type)
  if !isCompatibleType lhsCol.type rhsType then .error (incompatible lhsCol.type rhsType)
  else .ok ⟨lhsTarget,cond.op,rhs⟩

def checkClause [FloatOps] (db : DbMeta) (tabNames : List String) (conds : List Condition) :
    Except Fault (List Condition) := do
  let allCols ← getAllCols db tabNames
  conds.mapM (checkCondition db allCols)

end Rmdb.Analyze
