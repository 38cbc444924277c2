import Rmdb.Execution.IndexScan

/-! `Planner::make_one_rel`: the conditions of a query are handed out to the scans of its tables
and to the joins over them. -/
namespace Rmdb

inductive PlanTag where
  | seqScan
  | indexScan
  | nestLoop
  | sortMerge
  deriving DecidableEq, Repr

structure ScanPlan where
  tag : PlanTag
  tabName : String
  conds : List Condition
  indexColNames : List String
  deriving DecidableEq, Repr

inductive Plan where
  | scan (x : ScanPlan)
  | join (tag : PlanTag) (left right : Plan) (conds : List Condition)
  deriving DecidableEq, Repr

def Rhs.tabName : Rhs → String
  | .val _ => ""
  | .col c => c.tabName

def Rhs.isVal : Rhs → Bool
  | .val _ => true
  | .col _ => false

namespace Planner
open IndexScanExecutor

structure JoinMethods where
  enableNestedloopJoin : Bool := true
  enableSortmergeJoin : Bool := false
  deriving DecidableEq, Repr

def hasEqCondForCol (conds : List Condition) (tabName colName : String) : Bool :=
  conds.any fun cond => cond.rhs.isVal && cond.lhsCol.tabName = tabName && cond.lhsCol.colName = colName && cond.op = .eq

def hasRangeCondForCol (conds : List Condition) (tabName colName : String) : Bool :=
  conds.any fun cond => cond.rhs.isVal && cond.lhsCol.tabName = tabName && cond.lhsCol.colName = colName && cond.op ≠ .eq &&
    cond.op ≠ .ne

def calcIndexPrefixMatch (conds : List Condition) (tabName : String) : List KeyCol → Nat
  | [] => 0
  | col :: cols =>
    if hasEqCondForCol conds tabName col.name then calcIndexPrefixMatch conds tabName cols+1
    else if hasRangeCondForCol conds tabName col.name then 1
    else 0

def betterIndex (tabName : String) (conds : List Condition) (best : Nat × List String) (index : IndexMeta) : Nat × List String :=
  let prefixLen := calcIndexPrefixMatch conds tabName index.cols
  if prefixLen > best.1 then (prefixLen,index.cols.map fun col => col.name) else best

def getIndexCols (db : DbMeta) (tabName : String) (conds : List Condition) : Except Fault (Bool × List String) := do
  let tab ← db.getTable tabName
  let best := tab.indexes.foldl (betterIndex tabName conds) (0,[])
  .ok (decide (best.1 > 0),best.2)

-- the test in the loop of `pop_conds`
def popped (tabName : String) (cond : Condition) : Bool :=
  (tabName = cond.lhsCol.tabName && cond.rhs.isVal) || cond.lhsCol.tabName = cond.rhs.tabName

def popConds (conds : List Condition) (tabName : String) : List Condition × List Condition := conds.partition (popped tabName)

def swapSides (cond : Condition) : Condition :=
  match cond.rhs with
  | .col c => ⟨c,swapOp cond.op,.col cond.lhsCol⟩
  | .val _ => cond

/- The answer is 1 or 2 where the left or the right column is below, 3 where the condition went in. -/
def pushConds (cond : Condition) : Plan → Nat × Plan
  | .scan x =>
    if x.tabName = cond.lhsCol.tabName then (1,.scan x)
    else if x.tabName = cond.rhs.tabName then (2,.scan x)
    else (0,.scan x)
  | .join tag left right conds =>
    let leftRes := pushConds cond left
    if leftRes.1 = 3 then (3,.join tag leftRes.2 right conds)
    else
      let rightRes := pushConds cond right
      if rightRes.1 = 3 then (3,.join tag left rightRes.2 conds)
      else if leftRes.1 = 0 ∨ rightRes.1 = 0 then (leftRes.1+rightRes.1,.join tag left right conds)
      else (3,.join tag left right (conds ++ [if leftRes.1 = 2 then swapSides cond else cond]))

structure Joining where
  scantbl : List Int
  joinedTables : List String
  deriving DecidableEq, Repr

def popScan (table : String) (plans : List ScanPlan) (j : Joining) : Option ScanPlan × Joining :=
  match plans.findIdx? fun x => x.tabName = table with
  | some i => (plans[i]?,⟨j.scantbl.set i 1,j.joinedTables ++ [table]⟩)
  | none => (none,j)

-- the first loop of `make_one_rel`
def tableScans (db : DbMeta) : List String → List Condition → Except Fault (List ScanPlan × List Condition)
  | [],conds => .ok ([],conds)
  | table :: tables,conds => do
    let (currConds,conds) := popConds conds table
    let (indexExist,indexColNames) ← getIndexCols db table currConds
    let x : ScanPlan := if indexExist then ⟨.indexScan,table,currConds,indexColNames⟩ else ⟨.seqScan,table,currConds,[]⟩
    let (plans,conds) ← tableScans db tables conds
    .ok (x :: plans,conds)

def joinTag (methods : JoinMethods) : Except Fault PlanTag :=
  if methods.enableNestedloopJoin then .ok .nestLoop
  else if methods.enableSortmergeJoin then .ok .sortMerge
  else .error (.error (.plain "No join executor selected!"))

-- the join over the tables of the first condition; a child that is `nullptr` is not followed further
def firstJoin (methods : JoinMethods) (plans : List ScanPlan) (cond : Condition) (j : Joining) :
    Except Fault (Joining × Plan) := do
  let (left,j) := popScan cond.lhsCol.tabName plans j
  let (right,j) := popScan cond.rhs.tabName plans j
  let tag ← joinTag methods
  match left,right with
  | some left,some right => .ok (j,.join tag (.scan left) (.scan right) [cond])
  | _,_ => .error .outOfRange

-- the turn of the loop for a later condition
def nextJoin (plans : List ScanPlan) (cond : Condition) (j : Joining) (plan : Plan) : Except Fault (Joining × Plan) :=
  let (left,j) := if cond.lhsCol.tabName ∉ j.joinedTables then popScan cond.lhsCol.tabName plans j else (none,j)
  let isneedreverse : Bool := cond.rhs.tabName ∉ j.joinedTables
  let (right,j) := if isneedreverse then popScan cond.rhs.tabName plans j else (none,j)
  match left,right with
  | some left,some right => .ok (j,.join .nestLoop (.join .nestLoop (.scan left) (.scan right) [cond]) plan [])
  | none,none => .ok (j,(pushConds cond plan).2)
  | left,right =>
    match if isneedreverse then right else left with
    | some x => .ok (j,.join .nestLoop (.scan x) plan [if isneedreverse then swapSides cond else cond])
    | none => .error .outOfRange

def nextJoins (plans : List ScanPlan) : List Condition → Joining → Plan → Except Fault (Joining × Plan)
  | [],j,plan => .ok (j,plan)
  | cond :: conds,j,plan => do
    let (j,plan) ← nextJoin plans cond j plan
    nextJoins plans conds j plan

-- the loop over the tables that are in no join yet
def joinRest : List ScanPlan → List Int → Plan → Plan
  | x :: plans,joined :: scantbl,plan => joinRest plans scantbl (if joined = -1 then .join .nestLoop (.scan x) plan [] else plan)
  | _,_,plan => plan

def makeOneRel (db : DbMeta) (methods : JoinMethods) (tables : List String) (conds : List Condition) : Except Fault Plan := do
  let (plans,conds) ← tableScans db tables conds
  let fresh : Joining := ⟨List.replicate tables.length (-1),List.replicate tables.length ""⟩
  match plans,conds with
  | [],_ => .error .outOfRange
  | [x],_ => .ok (.scan x)
  | x :: _,[] => .ok (joinRest plans (fresh.scantbl.set 0 1) (.scan x))
  | _,cond :: conds => do
    let (j,plan) ← firstJoin methods plans cond fresh
    let (j,plan) ← nextJoins plans conds j plan
    .ok (joinRest plans j.scantbl plan)

end Planner
end Rmdb
