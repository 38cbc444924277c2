import Rmdb.Analyze.AcceptedConditions
import Rmdb.Execution.CompareOrder
import Rmdb.Execution.ScanExecutors
import Rmdb.Optimizer.JoinOrder

/-! What a condition says about the records of its tables, and that the executors find the same in
the records of any tables laid side by side. -/
namespace Rmdb.Planner
open Analyze IndexScanExecutor

def FixedLen (col : ColMeta) : Prop :=
  match col.type with
  | .int => col.len = 4
  | .bigint => col.len = 8
  | .datetime => col.len = 8
  | .string => True
  | .float => col.len = 4

theorem FixedLen.plain {col : ColMeta} (fixed : FixedLen col) (plain : col.type ≠ .float) : match col.type with
    | .int => col.len = 4
    | .bigint => col.len = 8
    | .datetime => col.len = 8
    | .string => True
    | .float => False := by
  obtain ⟨_,_,type,_,_⟩ := col
  cases type <;> first | exact fixed | exact plain rfl

structure Shaped (t : String) (tab : TabMeta) : Prop where
  stacked : ∃ colDefs, colDefs ≠ [] ∧ tab.cols = newCols t 0 colDefs
  fixed : ∀ col ∈ tab.cols, FixedLen col

def rowSize (tab : TabMeta) : Nat := (tab.cols.map ColMeta.len).sum

section Shape
variable {t : String} {tab : TabMeta} {col : ColMeta} {colDefs : List ColDef} {offset : Nat}

theorem newColsInside (mem : col ∈ newCols t offset colDefs) :
    offset ≤ col.offset ∧ col.offset+col.len ≤ offset+((newCols t offset colDefs).map ColMeta.len).sum := by
  induction colDefs generalizing offset with
  | nil => cases mem
  | cons colDef colDefs ih =>
    rw [newCols,List.map_cons,List.sum_cons]
    rcases List.mem_cons.mp mem with rfl | later
    · exact ⟨le_refl _,by dsimp only; omega⟩
    · obtain ⟨low,high⟩ := ih later
      exact ⟨by omega,by dsimp only at *; omega⟩

theorem newColsLast (some : colDefs ≠ []) :
    tupleLenOf (newCols t offset colDefs) = .ok (offset+((newCols t offset colDefs).map ColMeta.len).sum) := by
  induction colDefs generalizing offset with
  | nil => exact absurd rfl some
  | cons colDef colDefs ih => cases colDefs with
    | nil => simp [newCols,tupleLenOf]
    | cons next colDefs =>
      have later := @ih (offset+colDef.len) (by simp)
      rw [newCols,tupleLenOf,List.getLast?_cons_of_ne_nil (by simp [newCols]),List.map_cons,List.sum_cons,← Nat.add_assoc]
      exact later

theorem Shaped.owned (shaped : Shaped t tab) (mem : col ∈ tab.cols) : col.tabName = t := by
  obtain ⟨_,_,cols⟩ := shaped.stacked
  exact DbMeta.newColsOwned (cols ▸ mem)

theorem Shaped.inside (shaped : Shaped t tab) (mem : col ∈ tab.cols) : col.offset+col.len ≤ rowSize tab := by
  obtain ⟨_,_,cols⟩ := shaped.stacked
  have bound := (newColsInside (cols ▸ mem)).2
  rwa [← cols,Nat.zero_add] at bound

theorem Shaped.tupleLen (shaped : Shaped t tab) : tupleLenOf tab.cols = .ok (rowSize tab) := by
  obtain ⟨_,some,cols⟩ := shaped.stacked
  have last := @newColsLast t _ 0 some
  rwa [← cols,Nat.zero_add] at last

end Shape

section Meaning
variable [FloatOps]

def fieldOf (tab : String → TabMeta) (f : String → Bytes) (c : TabCol) : Except Fault (ColType × Bytes) := do
  let col ← (tab c.tabName).getCol c.colName
  .ok (col.type,((f c.tabName).drop col.offset).take col.len)

def rhsField (tab : String → TabMeta) (f : String → Bytes) : Rhs → Except Fault (ColType × Bytes)
  | .val v => .ok (v.type,v.raw.getD [])
  | .col c => fieldOf tab f c

def holds (tab : String → TabMeta) (f : String → Bytes) (cond : Condition) : Except Fault Bool := do
  let lhs ← fieldOf tab f cond.lhsCol
  let rhs ← rhsField tab f cond.rhs
  let cmp ← compareRawData lhs.2 lhs.1 lhs.2.length rhs.2 rhs.1 rhs.2.length
  .ok (evaluateCompareResult cmp cond.op)

def passes (tab : String → TabMeta) (f : String → Bytes) (cond : Condition) : Bool :=
  match holds tab f cond with
  | .ok b => b
  | .error _ => false

end Meaning

def layout (ts : List String) (f : String → Bytes) : Bytes := ts.flatMap f

inductive Sane (tab : String → TabMeta) (cond : Condition) : Prop
  | val {v : Value} {col : ColMeta} {raw : Bytes} (value : cond.rhs = .val v)
      (left : (tab cond.lhsCol.tabName).getCol cond.lhsCol.colName = .ok col) (type : v.type = col.type)
      (known : v.raw = some raw) (length : raw.length = col.len) : Sane tab cond
  | col {c : TabCol} {lhs rhs : ColMeta} (column : cond.rhs = .col c)
      (left : (tab cond.lhsCol.tabName).getCol cond.lhsCol.colName = .ok lhs)
      (right : (tab c.tabName).getCol c.colName = .ok rhs) (compatible : isCompatibleType lhs.type rhs.type = true)
      (agree : disagree lhs.type rhs.type = false) : Sane tab cond

theorem Sane.turned {tab : String → TabMeta} {cond other : Condition} (sane : Sane tab cond) (same : SameTest cond other) :
    Sane tab other := by
  rcases same with rfl | rfl
  · exact sane
  · cases sane with
    | val value left type known length =>
      have kept : swapSides cond = cond := by rw [swapSides,value]
      rw [kept]
      exact .val value left type known length
    | @col c lhs rhs column left right compatible agree =>
      have turned : swapSides cond = ⟨c,swapOp cond.op,.col cond.lhsCol⟩ := by rw [swapSides,column]
      rw [turned]
      refine .col rfl right left ?_ ?_
      · revert compatible
        cases lhs.type <;> cases rhs.type <;> decide
      · revert agree
        cases lhs.type <;> cases rhs.type <;> decide

def About (ts : List String) (cond : Condition) : Prop :=
  cond.lhsCol.tabName ∈ ts ∧ ∀ c, cond.rhs = .col c → c.tabName ∈ ts

section Local
variable [FloatOps] {tab : String → TabMeta} {f g : String → Bytes} {cond : Condition} {ts : List String}

omit [FloatOps] in
theorem fieldCongr {c : TabCol} (same : f c.tabName = g c.tabName) : fieldOf tab f c = fieldOf tab g c := by
  rw [fieldOf,fieldOf,same]

theorem passesCongr (about : About ts cond) (same : ∀ t ∈ ts, f t = g t) : passes tab f cond = passes tab g cond := by
  have left := @fieldCongr tab f g cond.lhsCol (same _ about.1)
  have right : rhsField tab f cond.rhs = rhsField tab g cond.rhs := by
    cases column : cond.rhs with
    | val v => rfl
    | col c => exact fieldCongr (same _ (about.2 c column))
  rw [passes,passes,holds,holds,left,right]

theorem compareLocal {a b : Bytes} {lhs rhs : ColMeta} (fixedL : FixedLen lhs) (fixedR : FixedLen rhs) :
    compareRawData a lhs.type lhs.len b rhs.type rhs.len =
      compareRawData (a.take lhs.len) lhs.type lhs.len (b.take rhs.len) rhs.type rhs.len := by
  obtain ⟨_,_,ta,la,_⟩ := lhs
  obtain ⟨_,_,tb,lb,_⟩ := rhs
  cases ta <;> cases tb <;>
    simp_all [FixedLen,compareRawData,isNumericType,isIntegralType,rawInt,rawLongDouble,List.take_take,compareStringsTake]

end Local

section Turned
variable [FloatOps] {tab : String → TabMeta} {f : String → Bytes} {cond : Condition} {lhs rhs : ColMeta} {a b : Bytes}

omit [FloatOps] in
theorem comparableTypes {l r : ColType} (compatible : isCompatibleType l r = true) (agree : disagree l r = false) :
    (isIntegralType l ∧ isIntegralType r ∨ l = r ∧ ¬isNumericType l) ∨
      (isNumericType l && isNumericType r) = true ∧ (isIntegralType l && isIntegralType r) = false := by
  cases l <;> cases r <;> simp_all [isCompatibleType,disagree,isIntegralType,isNumericType]

theorem signsOpposite (a b : FloatOps.LongDouble) : (signOf (FloatOps.less a b) (FloatOps.less b a)).sign =
    -(signOf (FloatOps.less b a) (FloatOps.less a b)).sign := by
  have ab := FloatOps.asymm a b
  cases below : FloatOps.less a b with
  | true =>
    rw [ab below]
    rfl
  | false => cases FloatOps.less b a <;> rfl

theorem compareBoth (fixedL : FixedLen lhs) (fixedR : FixedLen rhs) (compatible : isCompatibleType lhs.type rhs.type = true)
    (agree : disagree lhs.type rhs.type = false) (roomL : a.length = lhs.len) (roomR : b.length = rhs.len) : ∃ r q,
    compareRawData a lhs.type lhs.len b rhs.type rhs.len = .ok r ∧
    compareRawData b rhs.type rhs.len a lhs.type lhs.len = .ok q ∧ r.sign = -q.sign := by
  rcases comparableTypes compatible agree with comparable | ⟨numeric,mixed⟩
  · have plain : lhs.type ≠ .float ∧ rhs.type ≠ .float := by
      constructor <;> intro float <;> rw [float] at comparable <;>
        simp [isIntegralType,isNumericType] at comparable
      simp [← comparable.1] at comparable
    let left : Operand := ⟨lhs.type,lhs.len,a,roomL.ge,fixedL.plain plain.1⟩
    let right : Operand := ⟨rhs.type,rhs.len,b,roomR.ge,fixedR.plain plain.2⟩
    have same : left.Comparable right := comparable
    obtain ⟨r,forth,ordered⟩ := Operand.compareRanks same
    obtain ⟨q,back,opposite⟩ := Operand.compareRanks same.symm
    exact ⟨r,q,forth,back,ranksOpposite ordered opposite⟩
  · refine ⟨_,_,?_,?_,signsOpposite (rawLongDouble lhs.type a) (rawLongDouble rhs.type b)⟩
    · rw [compareRawData,numeric,if_pos rfl,mixed,if_neg Bool.false_ne_true]
    · rw [compareRawData,Bool.and_comm,numeric,if_pos rfl,Bool.and_comm,mixed,if_neg Bool.false_ne_true]

omit [FloatOps] in
theorem evaluateTurned {r q : Int} (opposite : r.sign = -q.sign) (op : CompOp) :
    evaluateCompareResult r op = evaluateCompareResult q (swapOp op) := by
  rcases lt_trichotomy r 0 with less | rfl | more
  · rw [Int.sign_eq_neg_one_of_neg less] at opposite
    have positive : 0 < q := Int.sign_eq_one_iff_pos.mp (by omega)
    cases op <;> simp [evaluateCompareResult,swapOp] <;> omega
  · have zero : q = 0 := Int.sign_eq_zero_iff_zero.mp (by simpa using opposite.symm)
    subst zero
    cases op <;> rfl
  · rw [Int.sign_eq_one_of_pos more] at opposite
    have negative : q < 0 := Int.sign_eq_neg_one_iff_neg.mp (by omega)
    cases op <;> simp [evaluateCompareResult,swapOp] <;> omega

end Turned

section Laid
variable [FloatOps] {tab : String → TabMeta} {f : String → Bytes} {cond : Condition} {conds : List Condition}
  {ts : List String} {t c : String} {col : ColMeta}

omit [FloatOps] in
theorem findInLayout (once : ts.Nodup) (mem : t ∈ ts) (shaped : ∀ u ∈ ts, Shaped u (tab u))
    (sized : ∀ u ∈ ts, (f u).length = rowSize (tab u)) (found : (tab t).getCol c = .ok col) (offset : Nat) :
    ∃ front back, layout ts f = front ++ f t ++ back ∧
      findColMeta (laidCols offset (ts.map tab)) ⟨t,c⟩ = .ok {col with offset := col.offset+(offset+front.length)} := by
  induction ts generalizing offset with
  | nil => cases mem
  | cons u ts ih =>
    obtain ⟨fresh,once⟩ := List.nodup_cons.mp once
    have ownU : ∀ col ∈ (tab u).cols, col.tabName = u := fun col mem => (shaped u List.mem_cons_self).owned mem
    by_cases same : u = t
    · subst same
      refine ⟨[],layout ts f,rfl,?_⟩
      rw [List.map_cons,laidCols,findColMeta,List.find?_append,findShifted ownU found]
      rfl
    · have later := (List.mem_cons.mp mem).resolve_left (Ne.symm same)
      obtain ⟨front,back,whole,search⟩ := ih once later (fun x memX => shaped x (List.mem_cons_of_mem u memX))
        (fun x memX => sized x (List.mem_cons_of_mem u memX)) (offset+rowSize (tab u))
      refine ⟨f u ++ front,back,?_,?_⟩
      · rw [layout,List.flatMap_cons,← layout,whole]
        simp
      · have absent : (((tab u).cols.map fun col => {col with offset := col.offset+offset}).find?
            fun col => decide (col.tabName = t ∧ col.name = c)) = none := by
          rw [List.find?_eq_none]
          intro x inside
          obtain ⟨y,memY,rfl⟩ := List.mem_map.mp inside
          simp [ownU y memY,same]
        rw [findColMeta] at search ⊢
        rw [List.map_cons,laidCols,List.find?_append,absent,Option.none_or]
        rw [List.length_append,sized u List.mem_cons_self,← Nat.add_assoc offset]
        exact search

omit [FloatOps] in
theorem layoutField (shaped : Shaped t (tab t)) (sized : (f t).length = rowSize (tab t)) (mem : col ∈ (tab t).cols)
    (front back : Bytes) :
    ((front ++ f t ++ back).drop (col.offset+(0+front.length))).take col.len = ((f t).drop col.offset).take col.len := by
  have inside := shaped.inside mem
  rw [Nat.zero_add,Nat.add_comm,← List.drop_drop,List.append_assoc,List.drop_left,List.drop_append_of_le_length (by omega),
    List.take_append_of_le_length (by rw [List.length_drop]; omega)]

theorem conditionLaid (once : ts.Nodup) (shaped : ∀ u ∈ ts, Shaped u (tab u))
    (sized : ∀ u ∈ ts, (f u).length = rowSize (tab u)) (about : About ts cond) (sane : Sane tab cond) :
    recordSatisfiesConditions (layout ts f) (laidCols 0 (ts.map tab)) (cond :: conds) =
      if passes tab f cond then recordSatisfiesConditions (layout ts f) (laidCols 0 (ts.map tab)) conds else .ok false := by
  have inside {t c : String} {col : ColMeta} (mem : t ∈ ts) (found : (tab t).getCol c = .ok col) :
      (((f t).drop col.offset).take col.len).length = col.len := by
    have bound := (shaped t mem).inside (getColMem found).1
    rw [List.length_take,List.length_drop,sized t mem]
    omega
  cases sane with
  | @val v col raw value left type known length =>
    have memCol := (getColMem left).1
    have fixed := (shaped _ about.1).fixed col memCol
    obtain ⟨front,back,whole,search⟩ := findInLayout once about.1 shaped sized left 0
    have room := inside about.1 left
    have agree : disagree col.type col.type = false := disagreeSelf _
    obtain ⟨r,_,forth,_⟩ := compareBoth fixed fixed (by simp [isCompatibleType]) agree room length
    have own : holds tab f cond = .ok (evaluateCompareResult r cond.op) := by
      simp only [holds,fieldOf,left,value,rhsField,known,type,bind,Except.bind,room,Option.getD_some,length,forth]
    have run : compareRawData ((layout ts f).drop (col.offset+(0+front.length))) col.type col.len raw v.type raw.length = .ok r := by
      rw [type,length,compareLocal fixed fixed,whole,layoutField (shaped _ about.1) (sized _ about.1) memCol,
        List.take_of_length_le length.le]
      exact forth
    rw [recordSatisfiesConditions,search]
    simp only [bind,Except.bind,value,rhsOperand,known,run,passes,own]
  | @col c lhs rhs column left right compatible agree =>
    have memR := about.2 c column
    have memLhs := (getColMem left).1
    have memRhs := (getColMem right).1
    have fixedL := (shaped _ about.1).fixed lhs memLhs
    have fixedR := (shaped _ memR).fixed rhs memRhs
    obtain ⟨front,back,whole,search⟩ := findInLayout once about.1 shaped sized left 0
    obtain ⟨front',back',whole',search'⟩ := findInLayout once memR shaped sized right 0
    have roomL := inside about.1 left
    have roomR := inside memR right
    obtain ⟨r,_,forth,_⟩ := compareBoth fixedL fixedR compatible agree roomL roomR
    have own : holds tab f cond = .ok (evaluateCompareResult r cond.op) := by
      simp only [holds,fieldOf,left,column,rhsField,right,bind,Except.bind,roomL,roomR,forth]
    have run : compareRawData ((layout ts f).drop (lhs.offset+(0+front.length))) lhs.type lhs.len
        ((layout ts f).drop (rhs.offset+(0+front'.length))) rhs.type rhs.len = .ok r := by
      rw [compareLocal fixedL fixedR]
      nth_rewrite 1 [whole]
      rw [whole',layoutField (shaped _ about.1) (sized _ about.1) memLhs,layoutField (shaped _ memR) (sized _ memR) memRhs]
      exact forth
    rw [recordSatisfiesConditions,search]
    simp only [bind,Except.bind,column,rhsOperand,search',run,passes,own]

theorem conditionsLaid (once : ts.Nodup) (shaped : ∀ u ∈ ts, Shaped u (tab u))
    (sized : ∀ u ∈ ts, (f u).length = rowSize (tab u)) (about : ∀ cond ∈ conds, About ts cond)
    (sane : ∀ cond ∈ conds, Sane tab cond) :
    recordSatisfiesConditions (layout ts f) (laidCols 0 (ts.map tab)) conds = .ok (conds.all (passes tab f)) := by
  induction conds with
  | nil => rfl
  | cons cond conds ih =>
    rw [conditionLaid once shaped sized (about cond List.mem_cons_self) (sane cond List.mem_cons_self),
      ih (fun x mem => about x (List.mem_cons_of_mem cond mem)) (fun x mem => sane x (List.mem_cons_of_mem cond mem)),List.all_cons]
    cases passes tab f cond <;> rfl

theorem passesTurned {other : Condition} (shaped : ∀ u ∈ ts, Shaped u (tab u))
    (sized : ∀ u ∈ ts, (f u).length = rowSize (tab u)) (about : About ts cond) (sane : Sane tab cond)
    (same : SameTest cond other) : passes tab f other = passes tab f cond := by
  rcases same with rfl | rfl
  · rfl
  · cases sane with
    | val value left type known length => rw [swapSides,value]
    | @col c lhs rhs column left right compatible agree =>
      have memR := about.2 c column
      have turned : swapSides cond = ⟨c,swapOp cond.op,.col cond.lhsCol⟩ := by rw [swapSides,column]
      have fixedL := (shaped _ about.1).fixed lhs (getColMem left).1
      have fixedR := (shaped _ memR).fixed rhs (getColMem right).1
      have insideL := (shaped _ about.1).inside (getColMem left).1
      have insideR := (shaped _ memR).inside (getColMem right).1
      have roomL : (((f cond.lhsCol.tabName).drop lhs.offset).take lhs.len).length = lhs.len := by
        rw [List.length_take,List.length_drop,sized _ about.1]
        omega
      have roomR : (((f c.tabName).drop rhs.offset).take rhs.len).length = rhs.len := by
        rw [List.length_take,List.length_drop,sized _ memR]
        omega
      obtain ⟨r,q,forth,back,opposite⟩ := compareBoth fixedL fixedR compatible agree roomL roomR
      rw [turned]
      simp only [passes,holds,fieldOf,rhsField,column,left,right,bind,Except.bind,roomL,roomR,forth,back]
      exact (evaluateTurned opposite cond.op).symm

end Laid
end Rmdb.Planner
