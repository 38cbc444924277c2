import Rmdb.Execution.SeqScan

/-! `IndexScanExecutor`: the conditions on the key columns are gathered into bounds, the bounds
into a lower and an upper key, and these into two positions of the index. -/
namespace Rmdb
open Record Index

structure ColumnBound where
  eq : Option Value
  lower : Option Value
  lowerInclusive : Bool
  upper : Option Value
  upperInclusive : Bool
  deriving DecidableEq, Repr

structure ScanKeys where
  lowerKey : Bytes
  upperKey : Bytes
  lowerInclusive : Bool
  upperInclusive : Bool
  usedPrefix : Bool
  rangeConsumed : Bool
  deriving DecidableEq, Repr

namespace IndexScanExecutor

def swapOp : CompOp → CompOp
  | .eq => .eq
  | .ne => .ne
  | .lt => .gt
  | .gt => .lt
  | .le => .ge
  | .ge => .le

/- The loop of the constructor: the column of this table goes to the left. -/
def orient (tabName : String) (cond : Condition) : Except Fault Condition :=
  if cond.lhsCol.tabName ≠ tabName then
    match cond.rhs with
    | .col c => if c.tabName = tabName then .ok ⟨c,swapOp cond.op,.col cond.lhsCol⟩
      else .error (.assertion "!cond.is_rhs_val && cond.rhs_col.tab_name == tab_name_")
    | .val _ => .error (.assertion "!cond.is_rhs_val && cond.rhs_col.tab_name == tab_name_")
  else .ok cond

def fillMinValue (col : IxCol) : Bytes :=
  match col.type with
  | .int => leBytes 4 (-2^31)
  | .bigint => leBytes 8 (-2^63)
  | .datetime => leBytes 8 (-2^63)
  | .string => List.replicate col.len 0
  | .float => []

def fillMaxValue (col : IxCol) : Bytes :=
  match col.type with
  | .int => leBytes 4 (2^31-1)
  | .bigint => leBytes 8 (2^63-1)
  | .datetime => leBytes 8 (2^63-1)
  | .string => List.replicate col.len 255
  | .float => []

def rawData (value : Value) : Except Fault Bytes :=
  match value.raw with
  | some raw => .ok raw
  | none => .error .outOfRange

section Bounds
variable [FloatOps]

def compareBoundValue (lhs rhs : Value) (col : ColMeta) : Except Fault Int := do
  let a ← rawData lhs
  let b ← rawData rhs
  compareRawData a col.type col.len b col.type col.len

def compareCompositeKey : List IxCol → Bytes → Bytes → Except Fault Int
  | [],_,_ => .ok 0
  | col :: cols,lhs,rhs => do
    let cmp ← compareRawData lhs col.type col.len rhs col.type col.len
    if cmp ≠ 0 then .ok cmp else compareCompositeKey cols (lhs.drop col.len) (rhs.drop col.len)

def tighten (bound : ColumnBound) (op : CompOp) (value : Value) (col : ColMeta) : Except Fault ColumnBound :=
  match op with
  | .eq => .ok ⟨some value,some value,true,some value,true⟩
  | .gt | .ge => do
    let inclusive : Bool := op = .ge
    match bound.lower with
    | none => .ok {bound with lower := some value, lowerInclusive := inclusive}
    | some lower =>
      let cmp ← compareBoundValue value lower col
      if cmp > 0 ∨ (cmp = 0 ∧ !inclusive ∧ bound.lowerInclusive) then
        .ok {bound with lower := some value, lowerInclusive := inclusive}
      else .ok bound
  | .lt | .le => do
    let inclusive : Bool := op = .le
    match bound.upper with
    | none => .ok {bound with upper := some value, upperInclusive := inclusive}
    | some upper =>
      let cmp ← compareBoundValue value upper col
      if cmp < 0 ∨ (cmp = 0 ∧ !inclusive ∧ bound.upperInclusive) then
        .ok {bound with upper := some value, upperInclusive := inclusive}
      else .ok bound
  | .ne => .ok bound

def addBound (tabName : String) (cond : Condition) (value : Value) :
    List IxCol → List ColumnBound → Except Fault (List ColumnBound)
  | col :: cols,bound :: bounds =>
    if cond.lhsCol.tabName ≠ tabName ∨ cond.lhsCol.colName ≠ col.name then do
      let rest ← addBound tabName cond value cols bounds
      .ok (bound :: rest)
    else do
      let bound' ← tighten bound cond.op value col.toColMeta
      .ok (bound' :: bounds)
  | _,bounds => .ok bounds

def collectBounds (tabName : String) (cols : List IxCol) (conds : List Condition) : Except Fault (List ColumnBound) :=
  conds.foldlM (fun bounds cond => match cond.rhs with
    | .val value => if cond.op = .ne then .ok bounds else addBound tabName cond value cols bounds
    | .col _ => .ok bounds) (cols.map fun _ => ⟨none,none,true,none,true⟩)

/- The first loop of `build_scan_range`; it also returns the columns it leaves for the second. -/
def scanPrefix (keys : ScanKeys) : List IxCol → List ColumnBound → Except Fault (ScanKeys × List IxCol)
  | col :: cols,bound :: bounds =>
    match bound.eq with
    | some value => do
      let raw ← rawData value
      scanPrefix {keys with
        lowerKey := keys.lowerKey ++ raw.take col.len
        upperKey := keys.upperKey ++ raw.take col.len
        usedPrefix := true} cols bounds
    | none =>
      if bound.lower ≠ none ∨ bound.upper ≠ none then do
        let low ← match bound.lower with
          | some value => do
            let raw ← rawData value
            .ok (raw.take col.len,bound.lowerInclusive)
          | none => .ok (fillMinValue col,true)
        let high ← match bound.upper with
          | some value => do
            let raw ← rawData value
            .ok (raw.take col.len,bound.upperInclusive)
          | none => .ok (fillMaxValue col,true)
        .ok (⟨keys.lowerKey ++ low.1,keys.upperKey ++ high.1,low.2,high.2,true,true⟩,cols)
      else .ok (keys,col :: cols)
  | cols,_ => .ok (keys,cols)

def padKeys (keys : ScanKeys) : List IxCol → ScanKeys
  | [] => keys
  | col :: cols => padKeys {keys with
      lowerKey := keys.lowerKey ++ (if keys.rangeConsumed ∧ !keys.lowerInclusive then fillMaxValue col else fillMinValue col)
      upperKey := keys.upperKey ++ (if keys.rangeConsumed ∧ !keys.upperInclusive then fillMinValue col else fillMaxValue col)}
      cols

/- A range of `FLOAT` keys is left out. -/
def buildScanRange (tabName : String) (ih : IxHandle) (conds : List Condition) : Except Fault (Iid × Iid) :=
  if ih.cols.any fun col => col.type = .float then .error .outOfRange else do
  let bounds ← collectBounds tabName (ranks ih.cols) conds
  let (started,rest) ← scanPrefix ⟨[],[],true,true,false,false⟩ (ranks ih.cols) bounds
  if started.usedPrefix then
    let keys := padKeys started rest
    let cmp ← compareCompositeKey (ranks ih.cols) keys.lowerKey keys.upperKey
    if cmp > 0 ∨ (cmp = 0 ∧ (!keys.lowerInclusive ∨ !keys.upperInclusive)) then
      let empty ← eval IxIndexHandle.leafBegin ih.tree
      .ok (empty,empty)
    else if fits : keys.lowerKey.length = colTotLen (ranks ih.cols) ∧ keys.upperKey.length = colTotLen (ranks ih.cols) then
      let low := keyOf keys.lowerKey fits.1
      let high := keyOf keys.upperKey fits.2
      let lower ← eval (if keys.lowerInclusive then IxIndexHandle.lowerBound low else IxIndexHandle.upperBound low) ih.tree
      let upper ← eval (if keys.upperInclusive then IxIndexHandle.upperBound high else IxIndexHandle.lowerBound high) ih.tree
      .ok (lower,upper)
    else .error .outOfRange
  else
    let lower ← eval IxIndexHandle.leafBegin ih.tree
    let upper ← eval IxIndexHandle.leafEnd ih.tree
    .ok (lower,upper)

end Bounds

section Scan
variable [FloatOps]

def steps (ih : IxHandle) : Nat := ih.tree.filePages*ih.tree.fileHdr.btreeOrder+1

def visited (sm : SmManager) (tabName : String) (conds : List Condition) (indexColNames : List String) : Visited :=
  match (do
    let tab ← sm.db.getTable tabName
    let index ← tab.getIndexMeta indexColNames
    let ih ← sm.indexHandle tabName index
    let fh ← sm.fileHandle tabName
    let fedConds ← conds.mapM (orient tabName)
    let (lower,upper) ← buildScanRange tabName ih fedConds
    .ok (tab,ih,fh,fedConds,lower,upper) :
      Except Fault (TabMeta × IxHandle × RmFileHandle × List Condition × Iid × Iid)) with
  | .error e => ([],some e)
  | .ok (tab,ih,fh,fedConds,lower,upper) =>
    let scan := IxScan.scan ih.tree upper
    scan.visit (satisfies fh tab.cols fedConds) (endRid fh) (steps ih) (steps ih)
      (scan.advanceToMatch (satisfies fh tab.cols fedConds) (endRid fh) (steps ih) lower)

end Scan
end IndexScanExecutor
end Rmdb
