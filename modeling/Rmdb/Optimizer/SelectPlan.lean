import Rmdb.Execution.ProjectionExecutor
import Rmdb.Index.DatetimeOrder
import Rmdb.Optimizer.AggregatePlan
import Rmdb.Optimizer.PlanMeaning
import Rmdb.Transaction.ReplyBuffer

/-! A `SELECT` without aggregates from the syntax tree to its answer: `do_analyze`,
`generate_select_plan`, `Portal::start` and `select_from`. -/
namespace Rmdb

namespace Ast

structure Select where
  cols : List TabCol
  tabs : List String
  conds : List Condition
  sort : SelectStmt

end Ast

structure Query where
  tables : List String
  cols : List TabCol
  conds : List Condition
  deriving DecidableEq, Repr

structure SelectPlan where
  subplan : Plan
  sort : Option SortPlan
  selCols : List TabCol
  deriving DecidableEq, Repr

section
variable [FloatOps]

namespace Analyze

omit [FloatOps] in
def targetList (allCols : List ColMeta) (cols : List TabCol) : Except Fault (List TabCol) :=
  if cols.isEmpty then .ok (allCols.map fun col => ⟨col.tabName,col.name⟩) else cols.mapM (checkColumn allCols)

def doAnalyze (db : DbMeta) (x : Ast.Select) : Except Fault Query := do
  let _ ← x.tabs.mapM db.getTable
  let allCols ← getAllCols db x.tabs
  let cols ← targetList allCols x.cols
  let conds ← checkClause db x.tabs x.conds
  .ok ⟨x.tabs,cols,conds⟩

end Analyze

omit [FloatOps] in
def Planner.generateSelectPlan (db : DbMeta) (methods : Planner.JoinMethods) (query : Query) (x : Ast.SelectStmt) :
    Except Fault SelectPlan := do
  let subplan ← makeOneRel db methods query.tables query.conds
  let sort ← generateSortPlan db query.tables x
  .ok ⟨subplan,sort,query.cols⟩

namespace Portal

def start (sm : SmManager) (fuel : Nat) (plan : SelectPlan) : Except Fault Executor := do
  let rel ← convertPlanExecutor sm fuel plan.subplan
  match (do
    let below ← convertSortPlan rel.run fuel plan.sort
    ProjectionExecutor.new below plan.selCols) with
  | .error e => .error e
  | .ok ex => .ok ⟨_,⟨rel.init,[],0⟩,ex.executor⟩

end Portal

namespace QlManager

-- the text of a cell; `floatText` is `std::to_string` of a `float`
def cellText (floatText : UInt32 → Bytes) (col : ColMeta) (recBuf : Bytes) : Bytes :=
  match col.type with
  | .int => decimalInt (leInt (recBuf.take 4))
  | .bigint => decimalInt (leInt (recBuf.take 8))
  | .float => floatText (UInt32.ofNat (leNat (recBuf.take 4)))
  | .datetime => formatDatetimeValue (leInt (recBuf.take 8))
  | .string => (recBuf.take col.len).takeWhile (· ≠ 0)

def selectFrom {σ : Type} (floatText : UInt32 → Bytes) (ex : AbstractExecutor σ) (fuel : Nat) : M σ (List (List Bytes)) := do
  let rows ← ex.drain fuel
  pure (rows.map fun tuple => ex.cols.map fun col => cellText floatText col (tuple.drop col.offset))

def select (floatText : UInt32 → Bytes) (sm : SmManager) (methods : Planner.JoinMethods) (x : Ast.Select) (fuel : Nat) :
    Except Fault (List String × List (List Bytes)) := do
  let query ← Analyze.doAnalyze sm.db x
  let plan ← Planner.generateSelectPlan sm.db methods query x.sort
  match Portal.start sm fuel plan with
  | .error e => .error e
  | .ok ex => do
    let rows ← eval (selectFrom floatText ex.run fuel) ex.init
    .ok (plan.selCols.map fun c => c.colName,rows)

end QlManager
end
end Rmdb
