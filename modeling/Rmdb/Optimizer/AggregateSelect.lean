import Rmdb.Optimizer.SelectPlan

/-! A `SELECT` with aggregates from the syntax tree to the rows that `select_from` prints: the
branches of `do_analyze`, `generate_select_plan` and `Portal::start` for `has_aggregate`. -/
namespace Rmdb

namespace Ast

-- in the grammar the `*` is the argument of `COUNT` only
structure AggFunc where
  aggType : AggType
  isCountStar : Bool
  col : TabCol
  aliasName : String
  counts : isCountStar = true → aggType = .count

structure AggregateSelect where
  aggs : List AggFunc
  tabs : List String
  conds : List Condition
  sort : SelectStmt

end Ast

structure AggregateQuery where
  tables : List String
  aggregates : List AggregateExpr
  cols : List TabCol
  conds : List Condition
  deriving DecidableEq, Repr

-- the aggregate node over the sort node over the joins
structure AggregatePlan where
  subplan : Plan
  sort : Option SortPlan
  aggregates : List AggregateExpr
  selCols : List TabCol
  deriving DecidableEq, Repr

namespace Analyze

def isSumSupportedType (type : ColType) : Bool := type = .int || type = .bigint || type = .float

def defaultAggregateAlias (type : AggType) (col : TabCol) (isCountStar : Bool) : String :=
  match type with
  | .count => if isCountStar then "COUNT(*)" else "COUNT(" ++ col.colName ++ ")"
  | .max => "MAX(" ++ col.colName ++ ")"
  | .min => "MIN(" ++ col.colName ++ ")"
  | .sum => "SUM(" ++ col.colName ++ ")"

def aggregateCol (db : DbMeta) (allCols : List ColMeta) (x : Ast.AggFunc) : Except Fault TabCol :=
  if x.isCountStar then .ok ⟨"",""⟩ else do
    let target ← checkColumn allCols x.col
    let tab ← db.getTable target.tabName
    let col ← tab.getCol target.colName
    if x.aggType = .sum ∧ !isSumSupportedType col.type then .error (.error (.incompatibleType "SUM" (coltype2str col.type)))
    else .ok target

def aggregate (db : DbMeta) (allCols : List ColMeta) (x : Ast.AggFunc) : Except Fault AggregateExpr := do
  let target ← aggregateCol db allCols x
  .ok ⟨x.aggType,x.isCountStar,target,
    if x.aliasName.isEmpty then defaultAggregateAlias x.aggType target x.isCountStar else x.aliasName⟩

def doAnalyzeAggregates [FloatOps] (db : DbMeta) (x : Ast.AggregateSelect) : Except Fault AggregateQuery := do
  let _ ← x.tabs.mapM db.getTable
  let allCols ← getAllCols db x.tabs
  let aggregates ← x.aggs.mapM (aggregate db allCols)
  let conds ← checkClause db x.tabs x.conds
  .ok ⟨x.tabs,aggregates,aggregates.map fun agg => ⟨"",agg.aliasName⟩,conds⟩

end Analyze

def Planner.generateAggregatePlan (db : DbMeta) (methods : Planner.JoinMethods) (query : AggregateQuery) (x : Ast.SelectStmt) :
    Except Fault AggregatePlan := do
  let subplan ← makeOneRel db methods query.tables query.conds
  let sort ← generateSortPlan db query.tables x
  .ok ⟨subplan,sort,query.aggregates,query.cols⟩

section
variable [FloatOps]

def Portal.startAggregates (sm : SmManager) (fuel : Nat) (plan : AggregatePlan) : Except Fault Executor := do
  let rel ← convertPlanExecutor sm fuel plan.subplan
  match (do
    let below ← convertSortPlan rel.run fuel plan.sort
    AggregateExecutor.new below plan.aggregates) with
  | .error e => .error e
  | .ok ex => .ok ⟨_,⟨⟨rel.init,[],0⟩,[],true⟩,ex.executor fuel⟩

def QlManager.selectAggregates (sm : SmManager) (methods : Planner.JoinMethods) (x : Ast.AggregateSelect) (fuel : Nat) :
    Except Fault (List ColMeta × List Bytes) := do
  let query ← Analyze.doAnalyzeAggregates sm.db x
  let plan ← Planner.generateAggregatePlan sm.db methods query x.sort
  match Portal.startAggregates sm fuel plan with
  | .error e => .error e
  | .ok ex => do
    let rows ← eval (ex.run.drain fuel) ex.init
    .ok (ex.run.cols,rows)

end
end Rmdb
