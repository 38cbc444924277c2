import Rmdb.Execution.Executors
import Rmdb.Execution.IndexScan
import Rmdb.Optimizer.Planner
import Rmdb.Analyze.Analyze

/-! `INSERT`, `DELETE` and `UPDATE` from the syntax tree to the executors: `do_analyze`,
`do_planner` and `Portal::start`. -/
namespace Rmdb
open TransactionManager

namespace Ast

-- with the conditions as `get_clause` copies them
inductive DmlStmt where
  | insert (tabName : String) (vals : List Value)
  | delete (tabName : String) (conds : List Condition)
  | update (tabName : String) (setClauses : List (String × Value)) (conds : List Condition)

def DmlStmt.tabName : DmlStmt → String
  | .insert tabName _ | .delete tabName _ | .update tabName _ _ => tabName

end Ast

inductive DmlQuery where
  | insert (tabName : String) (values : List Value)
  | delete (tabName : String) (conds : List Condition)
  | update (tabName : String) (setClauses : List SetClause) (conds : List Condition)
  deriving DecidableEq, Repr

def DmlQuery.conds : DmlQuery → List Condition
  | .insert _ _ => []
  | .delete _ conds | .update _ _ conds => conds

inductive DmlPlan where
  | insert (tabName : String) (values : List Value)
  | delete (subplan : ScanPlan) (tabName : String)
  | update (subplan : ScanPlan) (tabName : String) (setClauses : List SetClause)
  deriving DecidableEq, Repr

section
variable [FloatOps]

namespace Analyze

def setClause (db : DbMeta) (tabName : String) (svSetClause : String × Value) : Except Fault SetClause := do
  let allCols ← getAllCols db [tabName]
  let lhs ← checkColumn allCols ⟨tabName,svSetClause.1⟩
  let tab ← db.getTable tabName
  let col ← tab.getCol lhs.colName
  let rhs ← castValueToType svSetClause.2 col.type
  .ok ⟨lhs,rhs⟩

def doAnalyzeDml (db : DbMeta) : Ast.DmlStmt → Except Fault DmlQuery
  | .insert tabName vals => do
    let _ ← db.getTable tabName
    .ok (.insert tabName vals)
  | .delete tabName conds => do
    let _ ← db.getTable tabName
    let conds ← checkClause db [tabName] conds
    .ok (.delete tabName conds)
  | .update tabName svSetClauses conds => do
    let _ ← db.getTable tabName
    let setClauses ← svSetClauses.mapM (setClause db tabName)
    let conds ← checkClause db [tabName] conds
    .ok (.update tabName setClauses conds)

end Analyze

namespace Planner

omit [FloatOps] in
def tableScan (db : DbMeta) (tabName : String) (conds : List Condition) : Except Fault ScanPlan := do
  let (indexExist,indexColNames) ← getIndexCols db tabName conds
  .ok (if indexExist then ⟨.indexScan,tabName,conds,indexColNames⟩ else ⟨.seqScan,tabName,conds,[]⟩)

omit [FloatOps] in
def doPlannerDml (db : DbMeta) : DmlQuery → Except Fault DmlPlan
  | .insert tabName values => .ok (.insert tabName values)
  | .delete tabName conds => do
    let scan ← tableScan db tabName conds
    .ok (.delete scan tabName)
  | .update tabName setClauses conds => do
    let scan ← tableScan db tabName conds
    .ok (.update scan tabName setClauses)

end Planner

namespace Portal

-- the Rids that the loop over the scan collects
def scanRids (x : ScanPlan) (sm : SmManager) : Visited :=
  if x.tag = .seqScan then SeqScanExecutor.visited sm x.tabName x.conds
  else IndexScanExecutor.visited sm x.tabName x.conds x.indexColNames

def dml : DmlPlan → Dml
  | .insert tabName values => .insert tabName values
  | .delete subplan tabName => .delete tabName (scanRids subplan)
  | .update subplan tabName setClauses => .update tabName setClauses (scanRids subplan)

end Portal

def QlManager.modify (fdOf : String → Int) (txn : Int) (x : Ast.DmlStmt) : M TransactionManager Unit := do
  let s ← get
  let query ← ofExcept (Analyze.doAnalyzeDml s.smManager.db x)
  let plan ← ofExcept (Planner.doPlannerDml s.smManager.db query)
  (Portal.dml plan).run fdOf txn

end
end Rmdb
