import Rmdb.Optimizer.PlanRun

/-! `make_one_rel` preserves the meaning of a query: its plan yields the rows of the cross product
that satisfy the conditions. A comparison of two columns of a table other than the first goes to
the scan of the first table, where it fails. -/
namespace Rmdb.Planner
open Lib Analyze Portal Plan Record

def TypesCompare (tab : String → TabMeta) (cond : Condition) : Prop :=
  ∀ c lhs rhs, cond.rhs = .col c → (tab cond.lhsCol.tabName).getCol cond.lhsCol.colName = .ok lhs →
    (tab c.tabName).getCol c.colName = .ok rhs → disagree lhs.type rhs.type = false

section Accepted
variable [FloatOps] {sm : SmManager} {tab : String → TabMeta} {fh : String → RmFileHandle} {tables : List String}
  {conds accepted : List Condition} {cond : Condition}

omit [FloatOps] in
theorem checkColumnNamed {allCols : List ColMeta} {target resolved : TabCol}
    (checked : checkColumn allCols target = .ok resolved) : resolved.tabName ≠ "" := by
  rw [checkColumn] at checked
  split at checked
  · obtain ⟨tabName,_,checked⟩ := exceptBind checked
    split at checked
    · cases checked
    · rename_i some
      cases Except.ok.inj checked
      exact some
  · rename_i some
    split at checked
    · cases Except.ok.inj checked
      exact some
    · cases checked

omit [FloatOps] in
theorem listedTables (usable : ∀ u ∈ tables, Usable sm u (tab u) (fh u)) : tables.mapM sm.db.getTable = .ok (tables.map tab) := by
  induction tables with
  | nil => rfl
  | cons u tables ih =>
    rw [List.mapM_cons,(usable u List.mem_cons_self).table.listed,ih fun x mem => usable x (List.mem_cons_of_mem u mem)]
    rfl

theorem acceptedSane (usable : ∀ u ∈ tables, Usable sm u (tab u) (fh u))
    (checked : checkClause sm.db tables conds = .ok accepted) (compare : ∀ cond ∈ accepted, TypesCompare tab cond) :
    ∀ cond ∈ accepted, About tables cond ∧ Sane tab cond ∧ cond.lhsCol.tabName ≠ "" ∧
      ∀ c, cond.rhs = .col c → c.tabName ≠ "" := by
  intro cond mem
  obtain ⟨allCols,whole,checked⟩ := exceptBind checked
  cases Except.ok.inj ((getAllColsListed (listedTables usable)).symm.trans whole)
  obtain ⟨given,_,here⟩ := mapMOk checked cond mem
  obtain ⟨lhsTab,lhs,first,second⟩ := checkConditionSteps here
  have table {t c : String} (found : ∃ col ∈ (tables.map tab).flatMap TabMeta.cols, col.tabName = t ∧ col.name = c) :
      t ∈ tables := by
    obtain ⟨col,inside,named,_⟩ := found
    obtain ⟨_,memTab,memCol⟩ := List.mem_flatMap.mp inside
    obtain ⟨u,memU,rfl⟩ := List.mem_map.mp memTab
    exact named ▸ (usable u memU).shaped.owned memCol ▸ memU
  have own {t : String} {other : TabMeta} (memT : t ∈ tables) (filed : sm.db.getTable t = .ok other) : tab t = other :=
    Except.ok.inj ((usable t memT).table.listed.symm.trans filed)
  have inL := table (checkColumnMem first.target)
  have foundL := first.found
  rw [← own inL first.filed] at foundL
  generalize given.rhs = source at second
  generalize made : cond.rhs = result at second
  cases second with
  | @val v cast raw casted filled compatible =>
    obtain ⟨same,bytes,known⟩ := initRawType filled
    have length := initRawLength filled
    rw [known,Option.getD_some] at length
    refine ⟨⟨inL,fun c column => by cases made.symm.trans column⟩,.val made foundL (same.trans (castValueType casted)) known length,
      checkColumnNamed first.target,fun c column => by cases column⟩
  | @col c d rhsTab rhs target filed found compatible =>
    have inR := table (checkColumnMem target)
    rw [← own inR filed] at found
    refine ⟨⟨inL,fun x column => ?_⟩,.col made foundL found compatible (compare cond mem d lhs rhs made foundL found),
      checkColumnNamed first.target,fun x column => ?_⟩
    · cases made.symm.trans column
      exact inR
    · cases column
      exact checkColumnNamed target

end Accepted

/- A comparison of two columns of one table that is not the first. -/
def Misplaced (t : String) (cond : Condition) : Prop :=
  ∃ c, cond.rhs = .col c ∧ c.tabName = cond.lhsCol.tabName ∧ cond.lhsCol.tabName ≠ t

instance (t : String) (cond : Condition) : Decidable (Misplaced t cond) :=
  match made : cond.rhs with
  | .val v => isFalse (by rintro ⟨c,column,_⟩; cases made.symm.trans column)
  | .col c => decidable_of_iff (c.tabName = cond.lhsCol.tabName ∧ cond.lhsCol.tabName ≠ t)
    ⟨fun both => ⟨c,made,both⟩,by rintro ⟨d,column,both⟩; cases made.symm.trans column; exact both⟩

def testedBefore (t : String) (accepted : List Condition) : List Condition :=
  (accepted.takeWhile fun cond => !decide (Misplaced t cond)).filter (popped t)

def Reached [FloatOps] (fh : RmFileHandle) (tab : TabMeta) (t : String) (accepted : List Condition) : Prop :=
  ∃ record ∈ tableRows fh, recordSatisfiesConditions record tab.cols (testedBefore t accepted) = .ok true

def within (group : List String) (accepted : List Condition) : List Condition :=
  accepted.filter fun cond => cond.lhsCol.tabName ∈ group &&
    (cond.rhs.isVal || (cond.rhs.tabName ∈ group && cond.lhsCol.tabName ≠ cond.rhs.tabName))

def Fillable [FloatOps] (rows : String → List Bytes) (tab : String → TabMeta) (accepted : List Condition) (group : List String) :
    Prop :=
  ∃ f, (∀ u ∈ group, f u ∈ rows u) ∧
    recordSatisfiesConditions (layout group f) (laidCols 0 (group.map tab)) (within group accepted) = .ok true

def StartsIn (fillable : List String → Prop) (t : String) : List (List String) → Prop
  | [] => False
  | group :: groups => if t ∈ group then fillable (group.takeWhile (· ≠ t)) else fillable group ∧ StartsIn fillable t groups

def UsesIndex (tab : TabMeta) (t : String) (accepted : List Condition) : Prop :=
  ∃ index ∈ tab.indexes, 0 < calcIndexPrefixMatch accepted t index.cols

def crossRows [FloatOps] (rows : String → List Bytes) (tab : String → TabMeta) (tables : List String) (accepted : List Condition)
    (order : List String) : List Bytes :=
  ((assignments rows tables).filter fun f =>
    decide (recordSatisfiesConditions (layout tables f) (laidCols 0 (tables.map tab)) accepted = .ok true)).map (layout order)

def YieldsCross [FloatOps] (sm : SmManager) (rows : String → List Bytes) (tab : String → TabMeta) (tables : List String)
    (accepted : List Condition) (plan : Plan) : Prop :=
  ∃ order enough, order.Perm tables ∧ ∀ fuel, enough ≤ fuel → ∃ ex, convertPlanExecutor sm fuel plan = .ok ex ∧
    ex.run.cols = laidCols 0 (order.map tab) ∧ ∀ steps, enough ≤ steps →
      ∃ out s, ex.run.drain steps ex.init = .ok out s ∧ out.Perm (crossRows rows tab tables accepted order)

section Index
variable {t : String} {tab : TabMeta} {accepted : List Condition}

theorem prefixPopped (cols : List KeyCol) :
    calcIndexPrefixMatch (accepted.filter (popped t)) t cols = calcIndexPrefixMatch accepted t cols := by
  have eqSame (c : String) : hasEqCondForCol (accepted.filter (popped t)) t c = hasEqCondForCol accepted t c := by
    rw [hasEqCondForCol,List.any_filter,hasEqCondForCol]
    congr 1
    funext cond
    by_cases own : cond.lhsCol.tabName = t <;> cases value : cond.rhs <;> simp [popped,own,value,Rhs.isVal]
  have rangeSame (c : String) : hasRangeCondForCol (accepted.filter (popped t)) t c = hasRangeCondForCol accepted t c := by
    rw [hasRangeCondForCol,List.any_filter,hasRangeCondForCol]
    congr 1
    funext cond
    by_cases own : cond.lhsCol.tabName = t <;> cases value : cond.rhs <;> simp [popped,own,value,Rhs.isVal]
  induction cols with
  | nil => rfl
  | cons col cols ih => rw [calcIndexPrefixMatch,calcIndexPrefixMatch,eqSame,rangeSame,ih]

theorem bestGrows {conds : List Condition} {best : Nat × List String} (indexes : List IndexMeta) :
    0 < (indexes.foldl (betterIndex t conds) best).1 ↔
      0 < best.1 ∨ ∃ index ∈ indexes, 0 < calcIndexPrefixMatch conds t index.cols := by
  induction indexes generalizing best with
  | nil => simp
  | cons index indexes ih =>
    have step : 0 < (betterIndex t conds best index).1 ↔ 0 < best.1 ∨ 0 < calcIndexPrefixMatch conds t index.cols := by
      simp only [betterIndex]
      split
      · rename_i better
        simp only
        omega
      · omega
    rw [List.foldl_cons,ih,step,or_assoc]
    simp

theorem usesIndexChosen :
    UsesIndex tab t accepted ↔ 0 < (tab.indexes.foldl (betterIndex t (accepted.filter (popped t))) (0,[])).1 := by
  rw [bestGrows,UsesIndex]
  simp [prefixPopped]

end Index

structure Planned (sm : SmManager) (tab : String → TabMeta) (fh : String → RmFileHandle) (t : String) (ts : List String)
    (accepted : List Condition) (x : ScanPlan) (plans : List ScanPlan) (plan : Plan) : Prop where
  usable : ∀ u ∈ t :: ts, Usable sm u (tab u) (fh u)
  once : (t :: ts).Nodup
  sane : ∀ cond ∈ accepted, About (t :: ts) cond ∧ Sane tab cond ∧ cond.lhsCol.tabName ≠ "" ∧
    ∀ c, cond.rhs = .col c → c.tabName ≠ ""
  first : IsScan sm.db t (accepted.filter (popped t)) x
  names : plans.map ScanPlan.tabName = ts
  others : ∀ y ∈ plans, IsScan sm.db y.tabName (accepted.filter (ownValue y.tabName)) y
  joins : Joins (x :: plans) (t :: ts) (betweenTables accepted) plan

section Plans
variable [FloatOps] {sm : SmManager} {tab : String → TabMeta} {fh : String → RmFileHandle} {t : String} {ts : List String}
  {accepted : List Condition} {x y : ScanPlan} {plans : List ScanPlan} {plan : Plan} {cond : Condition} {f : String → Bytes}

def rowsOf (fh : String → RmFileHandle) (u : String) : List Bytes := tableRows (fh u)

omit [FloatOps] in
theorem rowsSized {u : String} {record : Bytes} (usable : Usable sm u (tab u) (fh u)) (mem : record ∈ rowsOf fh u) :
    record.length = rowSize (tab u) := by
  obtain ⟨rid,inside,rfl⟩ := List.mem_map.mp mem
  exact rowSized usable (recordThere inside)

omit [FloatOps] in
theorem Planned.sized (planned : Planned sm tab fh t ts accepted x plans plan) (inside : ∀ u ∈ t :: ts, f u ∈ rowsOf fh u) :
    ∀ u ∈ t :: ts, (f u).length = rowSize (tab u) := fun u mem => rowsSized (planned.usable u mem) (inside u mem)

omit [FloatOps] in
theorem betweenMem : cond ∈ betweenTables accepted ↔
    cond ∈ accepted ∧ ∃ c, cond.rhs = .col c ∧ cond.lhsCol.tabName ≠ c.tabName := by
  rw [betweenTables,List.mem_filter]
  refine and_congr_right fun _ => ?_
  cases made : cond.rhs with
  | val v => simp [Rhs.isVal]
  | col c =>
    simp only [Rhs.isVal,Bool.not_false,Bool.true_and,Rhs.tabName]
    refine ⟨fun apart => ⟨c,rfl,of_decide_eq_true apart⟩,?_⟩
    rintro ⟨d,same,apart⟩
    cases same
    exact decide_eq_true apart

omit [FloatOps] in
theorem scanCondsMem {p : Plan} : cond ∈ scanConds p ↔ ∃ y ∈ p.scans, cond ∈ scanConds (.scan y) := by
  induction p with
  | scan y => simp [scans]
  | join tag left right conds ihl ihr =>
    rw [scanConds,List.mem_append,ihl,ihr,scans]
    simp [or_and_right,exists_or]

omit [FloatOps] in
theorem Planned.scans (planned : Planned sm tab fh t ts accepted x plans plan) : y ∈ plan.scans ↔ y ∈ x :: plans := by
  refine ⟨planned.joins.known y,fun mem => ?_⟩
  have named : (x :: plans).map ScanPlan.tabName = t :: ts := by
    rw [List.map_cons,planned.names,(isScanFields planned.first).1]
  have there : y.tabName ∈ plan.tables := planned.joins.perm.mem_iff.mpr (named ▸ List.mem_map_of_mem mem)
  rw [← scansTables] at there
  obtain ⟨z,inside,same⟩ := List.mem_map.mp there
  have unique : ((x :: plans).map ScanPlan.tabName).Nodup := named ▸ planned.once
  rwa [List.inj_on_of_nodup_map unique (planned.joins.known z inside) mem same] at inside

omit [FloatOps] in
theorem Planned.firstConds (planned : Planned sm tab fh t ts accepted x plans plan) : cond ∈ scanConds (.scan x) ↔
    cond ∈ accepted ∧ cond.lhsCol.tabName = t ∧ (cond.rhs.isVal = true ∨ cond.rhs.tabName = t) := by
  obtain ⟨name,conds⟩ := isScanFields planned.first
  rw [scanConds,List.mem_filter,conds,List.mem_filter,name,decide_eq_true_eq,and_assoc]
  refine and_congr_right fun _ => ⟨fun both => ⟨both.2,?_⟩,fun both => ⟨?_,both.1⟩⟩
  · have taken := both.1
    simp only [popped,both.2,Bool.or_eq_true,Bool.and_eq_true,decide_eq_true_eq] at taken
    exact taken.imp And.right Eq.symm
  · simp only [popped,both.1,Bool.or_eq_true,Bool.and_eq_true,decide_eq_true_eq]
    exact both.2.imp (fun value => ⟨trivial,value⟩) Eq.symm

omit [FloatOps] in
theorem Planned.otherConds (planned : Planned sm tab fh t ts accepted x plans plan) (mem : y ∈ plans) :
    cond ∈ scanConds (.scan y) ↔ cond ∈ accepted ∧ cond.lhsCol.tabName = y.tabName ∧ cond.rhs.isVal = true := by
  obtain ⟨_,conds⟩ := isScanFields (planned.others y mem)
  rw [scanConds,List.mem_filter,conds,List.mem_filter,decide_eq_true_eq,and_assoc]
  refine and_congr_right fun _ => ⟨fun both => ⟨both.2,?_⟩,fun both => ⟨?_,both.1⟩⟩
  · have taken := both.1
    simp only [ownValue,Bool.and_eq_true] at taken
    exact taken.2
  · simp [ownValue,both.1,both.2]

omit [FloatOps] in
theorem Planned.leafAbout (planned : Planned sm tab fh t ts accepted x plans plan) (mem : y ∈ x :: plans) :
    ∀ cond ∈ scanConds (.scan y), About [y.tabName] cond ∧ Sane tab cond := by
  intro cond inside
  rcases List.mem_cons.mp mem with rfl | later
  · obtain ⟨known,own,kind⟩ := planned.firstConds.mp inside
    obtain ⟨_,sane,_⟩ := planned.sane cond known
    rw [(isScanFields planned.first).1]
    refine ⟨⟨List.mem_singleton.mpr own,fun c column => ?_⟩,sane⟩
    rw [column] at kind
    exact List.mem_singleton.mpr (kind.resolve_left (by simp [Rhs.isVal]))
  · obtain ⟨known,own,value⟩ := (planned.otherConds later).mp inside
    obtain ⟨_,sane,_⟩ := planned.sane cond known
    refine ⟨⟨List.mem_singleton.mpr own,fun c column => ?_⟩,sane⟩
    rw [column] at value
    cases value

omit [FloatOps] in
theorem Planned.fit (planned : Planned sm tab fh t ts accepted x plans plan) : Fit tab (rowsOf fh) plan := by
  have inside {u : String} (mem : u ∈ plan.tables) : u ∈ t :: ts := planned.joins.perm.mem_iff.mp mem
  refine ⟨planned.joins.perm.nodup_iff.mpr planned.once,fun u mem => (planned.usable u (inside mem)).shaped,
    fun u mem record => rowsSized (planned.usable u (inside mem)),planned.joins.straddles,fun y mem cond memC => ?_,
    fun other mem => ?_⟩
  · exact (planned.leafAbout (planned.scans.mp mem) cond memC).1
  · obtain ⟨cond,known,same⟩ := planned.joins.carries.2 other mem
    obtain ⟨about,sane,_⟩ := planned.sane cond (betweenMem.mp known).1
    exact sane.turned same

theorem Planned.tests (planned : Planned sm tab fh t ts accepted x plans plan) (inside : ∀ u ∈ t :: ts, f u ∈ rowsOf fh u) :
    (∀ cond ∈ planConds plan, passes tab f cond = true) ↔
      ∀ cond ∈ accepted, ¬Misplaced t cond → passes tab f cond = true := by
  have sized := planned.sized inside
  have shaped : ∀ u ∈ t :: ts, Shaped u (tab u) := fun u mem => (planned.usable u mem).shaped
  have turned {cond other : Condition} (known : cond ∈ accepted) (same : SameTest cond other) :
      passes tab f other = passes tab f cond := by
    obtain ⟨about,sane,_⟩ := planned.sane cond known
    exact passesTurned shaped sized about sane same
  constructor
  · intro all cond known placed
    obtain ⟨about,_,named,_⟩ := planned.sane cond known
    by_cases between : ∃ c, cond.rhs = .col c ∧ cond.lhsCol.tabName ≠ c.tabName
    · obtain ⟨other,mem,same⟩ := planned.joins.carries.1 cond (betweenMem.mpr ⟨known,between⟩)
      rw [← turned known same]
      exact all other (List.mem_append_right _ mem)
    · refine all cond (List.mem_append_left _ (scanCondsMem.mpr ?_))
      by_cases own : cond.lhsCol.tabName = t
      · refine ⟨x,planned.scans.mpr List.mem_cons_self,planned.firstConds.mpr ⟨known,own,?_⟩⟩
        cases made : cond.rhs with
        | val v => exact .inl rfl
        | col c =>
          have same : cond.lhsCol.tabName = c.tabName := not_not.mp fun apart => between ⟨c,made,apart⟩
          exact .inr (same.symm.trans own)
      · have value : cond.rhs.isVal = true := by
          cases made : cond.rhs with
          | val v => rfl
          | col c =>
            have same : cond.lhsCol.tabName = c.tabName := not_not.mp fun apart => between ⟨c,made,apart⟩
            exact absurd ⟨c,made,same.symm,own⟩ placed
        have later := (List.mem_cons.mp about.1).resolve_left own
        rw [← planned.names] at later
        obtain ⟨y,memY,same⟩ := List.mem_map.mp later
        exact ⟨y,planned.scans.mpr (List.mem_cons_of_mem x memY),(planned.otherConds memY).mpr ⟨known,same.symm,value⟩⟩
  · intro all cond mem
    rcases List.mem_append.mp mem with scanned | joined
    · obtain ⟨y,memY,own⟩ := scanCondsMem.mp scanned
      rcases List.mem_cons.mp (planned.scans.mp memY) with rfl | later
      · obtain ⟨known,left,kind⟩ := planned.firstConds.mp own
        refine all cond known ?_
        rintro ⟨_,_,_,other⟩
        exact other left
      · obtain ⟨known,_,value⟩ := (planned.otherConds later).mp own
        refine all cond known ?_
        rintro ⟨c,column,_⟩
        rw [column] at value
        cases value
    · obtain ⟨given,known,same⟩ := planned.joins.carries.2 cond joined
      obtain ⟨member,c,column,apart⟩ := betweenMem.mp known
      rw [turned member same]
      refine all given member ?_
      rintro ⟨d,column',equal,_⟩
      cases column.symm.trans column'
      exact apart equal.symm

theorem Planned.crossTests (planned : Planned sm tab fh t ts accepted x plans plan) (inside : ∀ u ∈ t :: ts, f u ∈ rowsOf fh u) :
    decide (recordSatisfiesConditions (layout (t :: ts) f) (laidCols 0 ((t :: ts).map tab)) accepted = .ok true) =
      accepted.all (passes tab f) := by
  rw [conditionsLaid planned.once (fun u mem => (planned.usable u mem).shaped) (planned.sized inside)
    (fun cond mem => (planned.sane cond mem).1) fun cond mem => (planned.sane cond mem).2.1]
  cases accepted.all (passes tab f) <;> rfl

theorem Planned.rows (planned : Planned sm tab fh t ts accepted x plans plan)
    (same : ∀ f, (∀ u ∈ t :: ts, f u ∈ rowsOf fh u) →
      ((∀ cond ∈ planConds plan, passes tab f cond = true) ↔ ∀ cond ∈ accepted, passes tab f cond = true)) :
    (planRows (rowsOf fh) tab plan).Perm (crossRows (rowsOf fh) tab (t :: ts) accepted plan.tables) := by
  have once := planned.joins.perm.nodup_iff.mpr planned.once
  rw [planRows,crossRows,choices]
  refine (((assignmentsPerm planned.joins.perm once).filter _).trans (.of_eq ?_)).map _
  refine List.filter_congr fun f mem => ?_
  have inside := ((assignmentsMem planned.once).mp mem).1
  rw [planned.crossTests inside,Bool.eq_iff_iff,List.all_eq_true,List.all_eq_true]
  exact same f inside

theorem Planned.crossEmpty (planned : Planned sm tab fh t ts accepted x plans plan) (order : List String)
    (none : ∀ f, (∀ u ∈ t :: ts, f u ∈ rowsOf fh u) → ¬∀ cond ∈ accepted, passes tab f cond = true) :
    crossRows (rowsOf fh) tab (t :: ts) accepted order = [] := by
  rw [crossRows,List.map_eq_nil_iff,List.filter_eq_nil_iff]
  intro f mem
  have inside := ((assignmentsMem planned.once).mp mem).1
  rw [planned.crossTests inside,List.all_eq_true]
  exact none f inside

def RunsCross (sm : SmManager) (tab : String → TabMeta) (fh : String → RmFileHandle) (tables : List String)
    (accepted : List Condition) (plan : Plan) : Prop :=
  ∃ enough, ∀ fuel, enough ≤ fuel → ∃ ex, Cursor sm tab fuel plan ex ∧
    ∃ out, out.Perm (crossRows (rowsOf fh) tab tables accepted plan.tables) ∧ Yields ex out

theorem Planned.crosses (planned : Planned sm tab fh t ts accepted x plans plan)
    (runs : RunsCross sm tab fh (t :: ts) accepted plan) : YieldsCross sm (rowsOf fh) tab (t :: ts) accepted plan := by
  obtain ⟨enough,run⟩ := runs
  refine ⟨plan.tables,max enough ((crossRows (rowsOf fh) tab (t :: ts) accepted plan.tables).length+1),planned.joins.perm,
    fun fuel many => ?_⟩
  obtain ⟨ex,cursor,out,perm,stands,restarts⟩ := run fuel (max_le_iff.mp many).1
  refine ⟨ex,cursor.made,cursor.cols,fun steps few => ?_⟩
  have short : out.length < steps := by
    rw [perm.length_eq]
    exact (max_le_iff.mp few).2
  obtain ⟨s,drained,_⟩ := AbstractExecutor.drainRun restarts (s := ex.init) trivial short
  exact ⟨out,s,drained,perm⟩

omit [FloatOps] in
theorem ownConds (about : ∀ cond ∈ y.conds, About [y.tabName] cond) : scanConds (.scan y) = y.conds :=
  List.filter_eq_self.mpr fun cond mem => decide_eq_true (List.mem_singleton.mp (about cond mem).1)

omit [FloatOps] in
theorem scanCols (u : String) : (tab u).cols = laidCols 0 ([u].map tab) ∧ rowSize (tab u) = totalSize tab [u] := by
  rw [List.map_singleton,laidOne,totalSize,List.map_singleton,List.sum_singleton]
  exact ⟨rfl,rfl⟩

theorem leafYields {conds : List Condition} (usable : Usable sm y.tabName (tab y.tabName) (fh y.tabName))
    (is : IsScan sm.db y.tabName conds y) (fine : ∀ cond ∈ conds, About [y.tabName] cond ∧ Sane tab cond) :
    LeafYields sm tab (rowsOf fh) y := by
  obtain rfl := (isScanFields is).2
  have about : ∀ cond ∈ y.conds, About [y.tabName] cond := fun cond mem => (fine cond mem).1
  have own := ownConds about
  intro fuel
  obtain ⟨ex,made,cols,len,out,perm,yields⟩ := scanYields usable is about (fun cond mem => (fine cond mem).2) fuel
  refine ⟨ex,⟨made,cols.trans (scanCols _).1,len.trans (scanCols _).2⟩,out,?_,yields⟩
  rw [scanRows y (own ▸ about),own]
  exact perm

theorem Planned.otherLeaf (planned : Planned sm tab fh t ts accepted x plans plan) (mem : y ∈ plans) :
    LeafYields sm tab (rowsOf fh) y := by
  have there : y.tabName ∈ t :: ts := List.mem_cons_of_mem t (planned.names ▸ List.mem_map_of_mem mem)
  refine leafYields (planned.usable _ there) (planned.others y mem) fun cond inside => ?_
  refine planned.leafAbout (List.mem_cons_of_mem x mem) cond ((planned.otherConds mem).mpr ?_)
  obtain ⟨known,own⟩ := List.mem_filter.mp inside
  simp only [ownValue,Bool.and_eq_true,decide_eq_true_eq] at own
  exact ⟨known,own.1.symm,own.2⟩

theorem Planned.placedRuns (planned : Planned sm tab fh t ts accepted x plans plan)
    (placed : ∀ cond ∈ accepted, ¬Misplaced t cond) : RunsCross sm tab fh (t :: ts) accepted plan := by
  have name := (isScanFields planned.first).1
  have first : LeafYields sm tab (rowsOf fh) x := by
    have is := planned.first
    rw [← name] at is
    refine leafYields (planned.usable _ (by simp [name])) is fun cond inside => ?_
    refine planned.leafAbout List.mem_cons_self cond (planned.firstConds.mpr ?_)
    obtain ⟨known,taken⟩ := List.mem_filter.mp inside
    obtain ⟨_,_,named,_⟩ := planned.sane cond known
    have fine := placed cond known
    simp only [popped,name,Bool.or_eq_true,Bool.and_eq_true,decide_eq_true_eq] at taken
    refine ⟨known,?_⟩
    cases made : cond.rhs with
    | val v =>
      rw [made] at taken
      have own := taken.resolve_right named
      exact ⟨own.1.symm,.inl rfl⟩
    | col c =>
      rw [made] at taken
      have same : cond.lhsCol.tabName = c.tabName := taken.resolve_left fun both => by cases both.2
      have own : cond.lhsCol.tabName = t := not_not.mp fun other => fine ⟨c,made,same.symm,other⟩
      exact ⟨own,.inr (same.symm.trans own)⟩
  have leaves : ∀ y ∈ plan.scans, LeafYields sm tab (rowsOf fh) y := by
    intro y mem
    rcases List.mem_cons.mp (planned.scans.mp mem) with rfl | later
    · exact first
    · exact planned.otherLeaf later
  obtain ⟨enough,run⟩ := planYields planned.fit leaves
  have perm := planned.rows fun f inside => (planned.tests inside).trans
    ⟨fun all cond mem => all cond mem (placed cond mem),fun all cond mem _ => all cond mem⟩
  refine ⟨enough,fun fuel many => ?_⟩
  obtain ⟨ex,cursor,out,same,yields⟩ := run fuel many
  exact ⟨ex,cursor,out,same.trans perm,yields⟩

theorem Planned.placed (planned : Planned sm tab fh t ts accepted x plans plan) (placed : ∀ cond ∈ accepted, ¬Misplaced t cond) :
    YieldsCross sm (rowsOf fh) tab (t :: ts) accepted plan := planned.crosses (planned.placedRuns placed)

end Plans
end Rmdb.Planner
