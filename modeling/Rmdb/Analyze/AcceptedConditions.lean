import Rmdb.Analyze.Analyze
import Rmdb.Execution.ExecutorUtils
import Rmdb.System.Catalog

/-! What the analyser accepts and what the executor can evaluate: a `DATETIME` column against a
`CHAR` column is the one pairing they disagree on. -/
namespace Rmdb.Analyze

def laidCols : Nat → List TabMeta → List ColMeta
  | _,[] => []
  | offset,tab :: tabs =>
    (tab.cols.map fun col => {col with offset := col.offset+offset}) ++
      laidCols (offset+(tab.cols.map ColMeta.len).sum) tabs

theorem mapMOk {α β : Type} {f : α → Except Fault β} {xs : List α} {ys : List β} (done : xs.mapM f = .ok ys) :
    ∀ y ∈ ys, ∃ x ∈ xs, f x = .ok y := by
  induction xs generalizing ys with
  | nil => cases Except.ok.inj done; exact fun y mem => nomatch mem
  | cons x xs ih =>
    rw [List.mapM_cons] at done
    obtain ⟨y,head,done⟩ := exceptBind done
    obtain ⟨rest,tail,done⟩ := exceptBind done
    cases Except.ok.inj done
    intro z mem
    rcases List.mem_cons.mp mem with rfl | later
    · exact ⟨x,List.mem_cons_self,head⟩
    · obtain ⟨w,memW,same⟩ := ih tail z later
      exact ⟨w,List.mem_cons_of_mem x memW,same⟩

section Lookup
variable {db : DbMeta} {tabNames : List String} {tabs : List TabMeta} {allCols : List ColMeta} {tab : TabMeta}
  {t c : String} {col : ColMeta}

theorem getAllColsListed (listed : tabNames.mapM db.getTable = .ok tabs) :
    getAllCols db tabNames = .ok (tabs.flatMap TabMeta.cols) := by
  induction tabNames generalizing tabs with
  | nil => cases Except.ok.inj listed; rfl
  | cons t tabNames ih =>
    rw [List.mapM_cons] at listed
    obtain ⟨tab,found,listed⟩ := exceptBind listed
    obtain ⟨others,rest,listed⟩ := exceptBind listed
    cases Except.ok.inj listed
    rw [getAllCols,found,ih rest]
    rfl

theorem findShifted {offset : Nat} (owned : ∀ col ∈ tab.cols, col.tabName = t) (found : tab.getCol c = .ok col) :
    ((tab.cols.map fun col => {col with offset := col.offset+offset}).find? fun col => col.tabName = t ∧ col.name = c) =
      some {col with offset := col.offset+offset} := by
  have same : (tab.cols.find? fun col => decide (col.tabName = t ∧ col.name = c)) =
      tab.cols.find? fun col => decide (col.name = c) :=
    List.find?_congr fun col mem => by simp [owned col mem]
  rw [TabMeta.getCol] at found
  split at found
  · rename_i x here
    cases Except.ok.inj found
    rw [List.find?_map,Function.comp_def,same,here]
    rfl
  · cases found

theorem findLaid (each : ∀ tab ∈ tabs, db.Lists tab)
    (mem : ∃ col ∈ tabs.flatMap TabMeta.cols, col.tabName = t ∧ col.name = c) (named : db.getTable t = .ok tab)
    (found : tab.getCol c = .ok col) (offset : Nat) :
    ∃ shift, findColMeta (laidCols offset tabs) ⟨t,c⟩ = .ok {col with offset := col.offset+shift} := by
  suffices search : ∃ shift, ((laidCols offset tabs).find? fun col => col.tabName = t ∧ col.name = c) =
      some {col with offset := col.offset+shift} by
    obtain ⟨shift,here⟩ := search
    exact ⟨shift,by rw [findColMeta,here]⟩
  induction tabs generalizing offset with
  | nil => obtain ⟨x,inside,_⟩ := mem; cases inside
  | cons first tabs ih =>
    obtain ⟨u,filed,carried⟩ := each first List.mem_cons_self
    rw [laidCols,List.find?_append]
    by_cases same : u = t
    · subst same
      cases Except.ok.inj (filed.symm.trans named)
      exact ⟨offset,by rw [findShifted carried found]; rfl⟩
    · have absent : ((first.cols.map fun col => {col with offset := col.offset+offset}).find?
          fun col => decide (col.tabName = t ∧ col.name = c)) = none := by
        rw [List.find?_eq_none]
        rintro x inside
        obtain ⟨y,memY,rfl⟩ := List.mem_map.mp inside
        simp [carried y memY,same]
      rw [absent]
      refine ih (fun x later => each x (List.mem_cons_of_mem first later)) ?_ _
      obtain ⟨x,inside,table,name⟩ := mem
      rcases List.mem_append.mp (List.flatMap_cons ▸ inside) with here | later
      · exact absurd ((carried x here).symm.trans table) same
      · exact ⟨x,later,table,name⟩

theorem inferTableMem {start : String} (inferred : inferTable c allCols start = .ok t) :
    t = start ∨ ∃ col ∈ allCols, col.tabName = t ∧ col.name = c := by
  induction allCols generalizing start with
  | nil => exact .inl (Except.ok.inj inferred).symm
  | cons first allCols ih =>
    rw [inferTable] at inferred
    split at inferred
    · rename_i named
      split at inferred
      · cases inferred
      · rcases ih inferred with rfl | ⟨col,mem,both⟩
        · exact .inr ⟨first,List.mem_cons_self,rfl,named⟩
        · exact .inr ⟨col,List.mem_cons_of_mem first mem,both⟩
    · rcases ih inferred with same | ⟨col,mem,both⟩
      · exact .inl same
      · exact .inr ⟨col,List.mem_cons_of_mem first mem,both⟩

theorem checkColumnMem {target resolved : TabCol} (checked : checkColumn allCols target = .ok resolved) :
    ∃ col ∈ allCols, col.tabName = resolved.tabName ∧ col.name = resolved.colName := by
  rw [checkColumn] at checked
  split at checked
  · cases inferred : inferTable target.colName allCols "" with
    | error e => rw [inferred] at checked; cases checked
    | ok tabName =>
      rw [inferred] at checked
      dsimp only [bind,Except.bind] at checked
      split at checked
      · cases checked
      · rename_i nonempty
        cases Except.ok.inj checked
        exact (inferTableMem inferred).resolve_left nonempty
  · split at checked
    · rename_i present
      cases Except.ok.inj checked
      obtain ⟨col,mem,both⟩ := List.any_eq_true.mp present
      exact ⟨col,mem,of_decide_eq_true both⟩
    · cases checked

end Lookup

section Accepted
variable [FloatOps] {db : DbMeta} {allCols cols : List ColMeta} {cond checked : Condition} {record : Bytes}

theorem castNumericType {value cast : Value} {numeric : FloatOps.LongDouble} {target : ColType}
    (done : castNumeric value numeric target = .ok cast) : cast.type = target := by
  cases target with
  | int =>
    simp only [castNumeric] at done
    split at done
    · cases done
    · cases Except.ok.inj done; rfl
  | bigint =>
    simp only [castNumeric] at done
    split at done
    · cases done
    · cases Except.ok.inj done; rfl
  | float => cases Except.ok.inj done; rfl
  | string => cases done
  | datetime => cases done

theorem castValueType {value cast : Value} {target : ColType} (done : castValueToType value target = .ok cast) :
    cast.type = target := by
  rw [castValueToType] at done
  split at done
  · rename_i same
    cases Except.ok.inj done
    exact same
  · split at done
    · rename_i datetime
      rw [castToDatetime] at done
      split at done
      · rename_i v _
        cases parsed : parseDatetimeString v with
        | error e => rw [parsed] at done; cases done
        | ok encoded =>
          rw [parsed] at done
          cases Except.ok.inj done
          exact datetime.symm
      · cases done
    · split at done
      · cases done
      · split at done
        · exact castNumericType done
        · exact castNumericType done
        · exact castNumericType done
        · cases done

omit [FloatOps] in
theorem initRawType {value filled : Value} {len : Nat} (done : value.initRaw len = .ok filled) :
    filled.type = value.type ∧ ∃ raw, filled.raw = some raw := by
  obtain ⟨scalar,raw⟩ := value
  rw [Value.initRaw] at done
  split at done
  · cases done
  · dsimp only at done
    split at done
    all_goals
      split at done
      all_goals first
        | contradiction
        | cases Except.ok.inj done
          exact ⟨rfl,_,rfl⟩

def disagree (a b : ColType) : Bool := (a = .datetime && b = .string) || (a = .string && b = .datetime)

omit [FloatOps] in
theorem disagreeSelf (a : ColType) : disagree a a = false := by cases a <;> rfl

theorem compareAgrees {a b : ColType} (compatible : isCompatibleType a b = true) (lhs rhs : Bytes) (lhsLen rhsLen : Nat) :
    if disagree a b then compareRawData lhs a lhsLen rhs b rhsLen = .error (incompatible a b)
    else ∃ cmp, compareRawData lhs a lhsLen rhs b rhsLen = .ok cmp := by
  cases a <;> cases b <;>
    simp [disagree,compareRawData,isCompatibleType,isNumericType,isIntegralType] at compatible ⊢

structure Operands (cols : List ColMeta) (cond : Condition) (record : Bytes) : Prop where
  left : ∃ lhs, findColMeta cols cond.lhsCol = .ok lhs
  right : ∃ rhs, rhsOperand record cols cond.rhs = .ok rhs
  compatible : ∀ lhs rhs, findColMeta cols cond.lhsCol = .ok lhs → rhsOperand record cols cond.rhs = .ok rhs →
    isCompatibleType lhs.type rhs.2.1 = true
  value : ∀ lhs v, findColMeta cols cond.lhsCol = .ok lhs → cond.rhs = .val v → v.type = lhs.type

structure CheckedLeft (db : DbMeta) (allCols : List ColMeta) (cond checked : Condition) (tab : TabMeta) (col : ColMeta) : Prop where
  target : checkColumn allCols cond.lhsCol = .ok checked.lhsCol
  filed : db.getTable checked.lhsCol.tabName = .ok tab
  found : tab.getCol checked.lhsCol.colName = .ok col

inductive CheckedRight (db : DbMeta) (allCols : List ColMeta) (left : ColMeta) : Rhs → Rhs → Prop
  | val {v cast raw : Value} (casted : castValueToType v left.type = .ok cast) (filled : cast.initRaw left.len = .ok raw)
      (compatible : isCompatibleType left.type raw.type = true) : CheckedRight db allCols left (.val v) (.val raw)
  | col {c d : TabCol} {tab : TabMeta} {col : ColMeta} (target : checkColumn allCols c = .ok d)
      (filed : db.getTable d.tabName = .ok tab) (found : tab.getCol d.colName = .ok col)
      (compatible : isCompatibleType left.type col.type = true) : CheckedRight db allCols left (.col c) (.col d)

theorem checkConditionSteps (accepted : checkCondition db allCols cond = .ok checked) : ∃ tab col,
    CheckedLeft db allCols cond checked tab col ∧ CheckedRight db allCols col cond.rhs checked.rhs := by
  rw [checkCondition] at accepted
  obtain ⟨lhsTarget,leftChecked,accepted⟩ := exceptBind accepted
  cases target : cond.rhs with
  | val v =>
    rw [target] at accepted
    obtain ⟨rhsTarget,given,accepted⟩ := exceptBind accepted
    cases Except.ok.inj given
    obtain ⟨lhsTab,filed,accepted⟩ := exceptBind accepted
    obtain ⟨lhsCol,found,accepted⟩ := exceptBind accepted
    obtain ⟨cast,casted,accepted⟩ := exceptBind accepted
    obtain ⟨raw,filled,accepted⟩ := exceptBind accepted
    dsimp only [bind,Except.bind] at accepted
    split at accepted
    · cases accepted
    · rename_i compatible
      rw [Bool.not_eq_true,Bool.not_eq_false'] at compatible
      cases Except.ok.inj accepted
      exact ⟨lhsTab,lhsCol,⟨leftChecked,filed,found⟩,.val casted filled compatible⟩
  | col c =>
    rw [target] at accepted
    obtain ⟨rhsTarget,mapped,accepted⟩ := exceptBind accepted
    obtain ⟨lhsTab,filed,accepted⟩ := exceptBind accepted
    obtain ⟨lhsCol,found,accepted⟩ := exceptBind accepted
    cases resolved : checkColumn allCols c with
    | error e => rw [resolved] at mapped; cases mapped
    | ok d =>
      rw [resolved] at mapped
      cases Except.ok.inj mapped
      obtain ⟨rhsTab,rightFiled,accepted⟩ := exceptBind accepted
      obtain ⟨rhsCol,rightFound,accepted⟩ := exceptBind accepted
      dsimp only [bind,Except.bind] at accepted
      split at accepted
      · cases accepted
      · rename_i compatible
        rw [Bool.not_eq_true,Bool.not_eq_false'] at compatible
        cases Except.ok.inj accepted
        exact ⟨lhsTab,lhsCol,⟨leftChecked,filed,found⟩,.col resolved rightFiled rightFound compatible⟩

theorem acceptedOperands {tabs : List TabMeta} (each : ∀ tab ∈ tabs, db.Lists tab)
    (accepted : checkCondition db (tabs.flatMap TabMeta.cols) cond = .ok checked) (record : Bytes) :
    Operands (laidCols 0 tabs) checked record := by
  obtain ⟨lhsTab,lhsCol,first,second⟩ := checkConditionSteps accepted
  obtain ⟨shift,left⟩ := findLaid each (checkColumnMem first.target) first.filed first.found 0
  generalize cond.rhs = source at second
  generalize made : checked.rhs = result at second
  cases second with
  | @val v cast raw casted filled compatible =>
    obtain ⟨same,bytes,here⟩ := initRawType filled
    have right : rhsOperand record (laidCols 0 tabs) checked.rhs = .ok (bytes,raw.type,bytes.length) := by
      rw [made,rhsOperand,here]
    refine ⟨⟨_,left⟩,⟨_,right⟩,?_,?_⟩
    · intro lhs rhs found operand
      cases Except.ok.inj (left.symm.trans found)
      cases Except.ok.inj (right.symm.trans operand)
      exact compatible
    · intro lhs v found value
      cases Except.ok.inj (left.symm.trans found)
      cases made.symm.trans value
      exact same.trans (castValueType casted)
  | @col c d rhsTab rhsCol target filed found compatible =>
    obtain ⟨shift',right⟩ := findLaid each (checkColumnMem target) filed found 0
    have operand : rhsOperand record (laidCols 0 tabs) checked.rhs =
        .ok (record.drop (rhsCol.offset+shift'),rhsCol.type,rhsCol.len) := by
      rw [made,rhsOperand,right]
      rfl
    refine ⟨⟨_,left⟩,⟨_,operand⟩,?_,fun _ _ _ value => nomatch made.symm.trans value⟩
    intro lhs rhs found other
    cases Except.ok.inj (left.symm.trans found)
    cases Except.ok.inj (operand.symm.trans other)
    exact compatible

/- A `DATETIME` column against a `CHAR` column, either way round. -/
def Mixed (cols : List ColMeta) (cond : Condition) : Prop :=
  ∃ c lhs rhs, cond.rhs = .col c ∧ findColMeta cols cond.lhsCol = .ok lhs ∧ findColMeta cols c = .ok rhs ∧
    disagree lhs.type rhs.type = true

def FalseOf (record : Bytes) (cols : List ColMeta) (cond : Condition) : Prop :=
  ∃ lhs rhs cmp, findColMeta cols cond.lhsCol = .ok lhs ∧ rhsOperand record cols cond.rhs = .ok rhs ∧
    compareRawData (record.drop lhs.offset) lhs.type lhs.len rhs.1 rhs.2.1 rhs.2.2 = .ok cmp ∧
    evaluateCompareResult cmp cond.op = false

omit [FloatOps] in
theorem mixedDisagree (operands : Operands cols cond record) {lhs : ColMeta} {rhs : Bytes × ColType × Nat}
    (left : findColMeta cols cond.lhsCol = .ok lhs) (right : rhsOperand record cols cond.rhs = .ok rhs) :
    Mixed cols cond ↔ disagree lhs.type rhs.2.1 = true := by
  constructor
  · rintro ⟨c,lhs',rhs',column,found,other,clash⟩
    cases Except.ok.inj (left.symm.trans found)
    rw [column,rhsOperand,other] at right
    cases Except.ok.inj right
    exact clash
  · intro clash
    cases column : cond.rhs with
    | val v =>
      have same := operands.value lhs v left column
      rw [column,rhsOperand] at right
      split at right
      · cases right
      · cases Except.ok.inj right
        rw [same,disagreeSelf] at clash
        cases clash
    | col c =>
      rw [column,rhsOperand] at right
      obtain ⟨rhsCol,found,right⟩ := exceptBind right
      cases Except.ok.inj right
      exact ⟨c,lhs,rhsCol,column,left,found,clash⟩

theorem conditionStep (operands : Operands cols cond record) :
    (Mixed cols cond ∧ ∀ conds, ∃ e, recordSatisfiesConditions record cols (cond :: conds) = .error (.error e)) ∨
    (¬ Mixed cols cond ∧ ∃ b, (FalseOf record cols cond ↔ b = false) ∧ ∀ conds,
      recordSatisfiesConditions record cols (cond :: conds) =
        if b then recordSatisfiesConditions record cols conds else .ok false) := by
  obtain ⟨lhs,left⟩ := operands.left
  obtain ⟨rhs,right⟩ := operands.right
  have agrees := compareAgrees (operands.compatible lhs rhs left right) (record.drop lhs.offset) rhs.1 lhs.len rhs.2.2
  have run : ∀ conds, recordSatisfiesConditions record cols (cond :: conds) = (do
      let cmp ← compareRawData (record.drop lhs.offset) lhs.type lhs.len rhs.1 rhs.2.1 rhs.2.2
      if evaluateCompareResult cmp cond.op then recordSatisfiesConditions record cols conds else .ok false) := by
    intro conds
    rw [recordSatisfiesConditions,left,right]
    rfl
  rw [mixedDisagree operands left right]
  cases clash : disagree lhs.type rhs.2.1 with
  | true =>
    rw [clash,if_pos rfl] at agrees
    exact .inl ⟨rfl,fun conds => ⟨_,by rw [run,agrees]; rfl⟩⟩
  | false =>
    rw [clash,if_neg Bool.false_ne_true] at agrees
    obtain ⟨cmp,compared⟩ := agrees
    refine .inr ⟨Bool.false_ne_true,evaluateCompareResult cmp cond.op,?_,fun conds => by rw [run,compared]; rfl⟩
    constructor
    · rintro ⟨lhs',rhs',cmp',found,other,result,failed⟩
      cases Except.ok.inj (left.symm.trans found)
      cases Except.ok.inj (right.symm.trans other)
      cases Except.ok.inj (compared.symm.trans result)
      exact failed
    · exact fun failed => ⟨lhs,rhs,cmp,left,right,compared,failed⟩

theorem conditionsRun {conds : List Condition} (operands : ∀ cond ∈ conds, Operands cols cond record) :
    (∃ b, recordSatisfiesConditions record cols conds = .ok b) ↔ ∀ front cond back, conds = front ++ cond :: back →
      Mixed cols cond → ∃ earlier ∈ front, FalseOf record cols earlier := by
  induction conds with
  | nil => exact iff_of_true ⟨true,rfl⟩ fun front cond back split => absurd split.symm (by simp)
  | cons first conds ih =>
    have rest := ih fun cond mem => operands cond (List.mem_cons_of_mem first mem)
    rcases conditionStep (operands first List.mem_cons_self) with ⟨mixed,throws⟩ | ⟨plain,b,false_,run⟩
    · refine iff_of_false ?_ fun all => ?_
      · rintro ⟨b,done⟩
        obtain ⟨e,thrown⟩ := throws conds
        cases thrown.symm.trans done
      · obtain ⟨earlier,mem,_⟩ := all [] first conds rfl mixed
        cases mem
    · rw [run]
      cases b with
      | false =>
        refine iff_of_true ⟨false,rfl⟩ fun front cond back split mixed => ?_
        cases front with
        | nil =>
          cases (List.cons.inj split).1
          exact absurd mixed plain
        | cons x front =>
          cases (List.cons.inj split).1
          exact ⟨first,List.mem_cons_self,false_.mpr rfl⟩
      | true =>
        rw [if_pos rfl,rest]
        constructor
        · intro all front cond back split mixed
          cases front with
          | nil =>
            cases (List.cons.inj split).1
            exact absurd mixed plain
          | cons x front =>
            obtain ⟨earlier,mem,failed⟩ := all front cond back (List.cons.inj split).2 mixed
            exact ⟨earlier,List.mem_cons_of_mem x mem,failed⟩
        · intro all front cond back split mixed
          obtain ⟨earlier,mem,failed⟩ := all (first :: front) cond back (congrArg (first :: ·) split) mixed
          rcases List.mem_cons.mp mem with rfl | later
          · cases false_.mp failed
          · exact ⟨earlier,later,failed⟩

theorem conditionsNever {conds : List Condition} (operands : ∀ cond ∈ conds, Operands cols cond record)
    (mixed : ∃ cond ∈ conds, Mixed cols cond) : recordSatisfiesConditions record cols conds = .ok false ∨
      ∃ e, recordSatisfiesConditions record cols conds = .error (.error e) := by
  induction conds with
  | nil =>
    obtain ⟨cond,mem,_⟩ := mixed
    cases mem
  | cons first conds ih =>
    rcases conditionStep (operands first List.mem_cons_self) with ⟨_,throws⟩ | ⟨plain,b,_,run⟩
    · exact .inr (throws conds)
    · rw [run]
      cases b with
      | false => exact .inl rfl
      | true =>
        refine ih (fun cond mem => operands cond (List.mem_cons_of_mem first mem)) ?_
        obtain ⟨cond,mem,mixed⟩ := mixed
        rcases List.mem_cons.mp mem with rfl | later
        · exact absurd mixed plain
        · exact ⟨cond,later,mixed⟩

omit [FloatOps] in
theorem laidOne {tab : TabMeta} : laidCols 0 [tab] = tab.cols := by simp [laidCols]

theorem acceptedLiteral (accepted : checkCondition db allCols cond = .ok checked) {v : Value} (value : checked.rhs = .val v) :
    ∃ tab col, db.getTable checked.lhsCol.tabName = .ok tab ∧ tab.getCol checked.lhsCol.colName = .ok col ∧
      ∃ cast : Value, cast.initRaw col.len = .ok v := by
  obtain ⟨tab,col,left,right⟩ := checkConditionSteps accepted
  generalize cond.rhs = source at right
  rw [value] at right
  cases right with
  | val _ filled _ => exact ⟨tab,col,left.filed,left.found,_,filled⟩

theorem acceptedConditionsRun {tabNames : List String} {tabs : List TabMeta} {conds accepted : List Condition}
    (built : db.Built) (listed : tabNames.mapM db.getTable = .ok tabs)
    (checked : checkClause db tabNames conds = .ok accepted) (record : Bytes) :
    (∃ b, recordSatisfiesConditions record (laidCols 0 tabs) accepted = .ok b) ↔
      ∀ front cond back, accepted = front ++ cond :: back → Mixed (laidCols 0 tabs) cond →
        ∃ earlier ∈ front, FalseOf record (laidCols 0 tabs) earlier := by
  obtain ⟨allCols,whole,checked⟩ := exceptBind checked
  cases Except.ok.inj ((getAllColsListed listed).symm.trans whole)
  have each : ∀ tab ∈ tabs, db.Lists tab := fun tab mem => by
    obtain ⟨t,_,filed⟩ := mapMOk listed tab mem
    exact ⟨t,filed,(DbMeta.builtOwned built _ (DbMeta.getTableMem filed)).2⟩
  refine conditionsRun fun cond mem => ?_
  obtain ⟨given,_,here⟩ := mapMOk checked cond mem
  exact acceptedOperands each here record

end Accepted

def datedTable : DbMeta := ⟨"db",[("t",⟨"t",newCols "t" 0 [⟨"d",.datetime,8⟩,⟨"s",.string,8⟩,⟨"a",.int,4⟩],[]⟩)]⟩

theorem datedTableBuilt : datedTable.Built :=
  @DbMeta.Built.create _ _ "t" [⟨"d",.datetime,8⟩,⟨"s",.string,8⟩,⟨"a",.int,4⟩] (.empty "db") rfl

theorem integerConditionRuns : ∃ b, @recordSatisfiesConditions FloatOps.whole (List.replicate 20 0)
    (laidCols 0 (datedTable.tabs.map Prod.snd)) [⟨⟨"t","a"⟩,.eq,.val ⟨.int 5,some [5,0,0,0]⟩⟩] = .ok b := by
  let _ := FloatOps.whole
  have checked : checkClause datedTable ["t"] [⟨⟨"","a"⟩,.eq,.val ⟨.int 5,none⟩⟩] =
      .ok [⟨⟨"t","a"⟩,.eq,.val ⟨.int 5,some [5,0,0,0]⟩⟩] := by decide +kernel
  refine (acceptedConditionsRun datedTableBuilt rfl checked _).mpr fun front cond back split mixed => ?_
  obtain ⟨c,_,_,column,_⟩ := mixed
  have mem : cond ∈ [(⟨⟨"t","a"⟩,.eq,.val ⟨.int 5,some [5,0,0,0]⟩⟩ : Condition)] := by
    rw [split]
    exact List.mem_append_right front List.mem_cons_self
  cases List.mem_singleton.mp mem
  cases column

theorem datetimeCharFails : @checkClause FloatOps.whole datedTable ["t"] [⟨⟨"","d"⟩,.eq,.col ⟨"","s"⟩⟩] =
      .ok [⟨⟨"t","d"⟩,.eq,.col ⟨"t","s"⟩⟩] ∧
    @recordSatisfiesConditions FloatOps.whole (List.replicate 20 0) (laidCols 0 (datedTable.tabs.map Prod.snd))
      [⟨⟨"t","d"⟩,.eq,.col ⟨"t","s"⟩⟩] = .error (.error (.incompatibleType "DATETIME" "STRING")) := by
  decide +kernel

end Rmdb.Analyze
