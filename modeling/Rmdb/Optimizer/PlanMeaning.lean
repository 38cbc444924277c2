import Rmdb.Optimizer.MisplacedConditions

/-! The plan of `make_one_rel` yields what the query says exactly where no misplaced condition is in
the way. -/
namespace Rmdb.Planner
open Lib Analyze Portal Plan Record

section Whole
variable [FloatOps] {sm : SmManager} {tab : String → TabMeta} {fh : String → RmFileHandle} {t : String} {ts : List String}
  {conds accepted : List Condition} {x y : ScanPlan} {plans : List ScanPlan} {plan : Plan} {cond : Condition} {f : String → Bytes}

theorem convertFails (mem : y ∈ plan.scans) (fails : ∀ fuel ex, convertPlanExecutor sm fuel (.scan y) ≠ .ok ex) :
    ∀ fuel ex, convertPlanExecutor sm fuel plan ≠ .ok ex := by
  induction plan with
  | scan z => exact List.mem_singleton.mp mem ▸ fails
  | join tag left right conds ihl ihr =>
    intro fuel ex made
    rw [convertPlanExecutor] at made
    cases madeL : convertPlanExecutor sm fuel left with
    | error e => rw [madeL] at made; cases made
    | ok l =>
      cases madeR : convertPlanExecutor sm fuel right with
      | error e => rw [madeL,madeR] at made; cases made
      | ok r =>
        rcases List.mem_append.mp mem with inL | inR
        · exact ihl inL fuel l madeL
        · exact ihr inR fuel r madeR

theorem orientFails {names : List String} (mem : cond ∈ conds) (foreign : Foreign t cond)
    (inside : ∀ c, cond.rhs = .col c → c.tabName = cond.lhsCol.tabName) {ex : Executor} :
    IndexScanExecutor.new sm t conds names ≠ .ok ex := by
  have thrown (fed : Condition) : IndexScanExecutor.orient t cond ≠ .ok fed := by
    intro oriented
    rw [IndexScanExecutor.orient,if_pos (show cond.lhsCol.tabName ≠ t from foreign)] at oriented
    split at oriented
    · rename_i c column
      rw [if_neg (inside c column ▸ foreign : ¬c.tabName = t)] at oriented
      cases oriented
    · cases oriented
  have stuck (fed : List Condition) : conds.mapM (IndexScanExecutor.orient t) ≠ .ok fed := by
    induction conds generalizing fed with
    | nil => cases mem
    | cons first conds ih =>
      intro done
      rw [List.mapM_cons] at done
      obtain ⟨a,head,done⟩ := exceptBind done
      obtain ⟨b,tail,_⟩ := exceptBind done
      rcases List.mem_cons.mp mem with rfl | later
      · exact thrown a head
      · exact ih later b tail
  intro made
  rw [IndexScanExecutor.new] at made
  split at made
  · cases made
  · rename_i steps
    obtain ⟨_,_,steps⟩ := exceptBind steps
    obtain ⟨_,_,steps⟩ := exceptBind steps
    obtain ⟨_,_,steps⟩ := exceptBind steps
    obtain ⟨_,_,steps⟩ := exceptBind steps
    obtain ⟨_,_,steps⟩ := exceptBind steps
    obtain ⟨fed,oriented,_⟩ := exceptBind steps
    exact stuck fed oriented

omit [FloatOps] in
theorem Planned.misplaced (planned : Planned sm tab fh t ts accepted x plans plan) (some : ∃ cond ∈ accepted, Misplaced t cond) :
    ∃ cond back, accepted.filter (popped t) = testedBefore t accepted ++ cond :: back ∧ Misplaced t cond ∧
      ∀ own ∈ testedBefore t accepted, own ∈ accepted ∧ About [t] own ∧ Sane tab own := by
  obtain ⟨given,mem,wrong⟩ := some
  obtain ⟨front,cond,back,whole,before,here⟩ :=
    splitFirst (p := fun cond => decide (Misplaced t cond)) ⟨given,mem,decide_eq_true wrong⟩
  have misplaced := of_decide_eq_true here
  obtain ⟨c,column,inside,foreign⟩ := misplaced
  have taken : popped t cond = true := by simp [popped,column,Rhs.tabName,inside]
  have first : testedBefore t accepted = front.filter (popped t) := by
    rw [testedBefore,whole,List.takeWhile_append_of_pos fun y memY => by simp [before y memY],
      List.takeWhile_cons_of_neg (by simp [here]),List.append_nil]
  refine ⟨cond,back.filter (popped t),?_,⟨c,column,inside,foreign⟩,fun own memOwn => ?_⟩
  · rw [first,whole,List.filter_append,List.filter_cons_of_pos taken]
  · rw [first] at memOwn
    obtain ⟨memF,takenF⟩ := List.mem_filter.mp memOwn
    have known : own ∈ accepted := whole ▸ List.mem_append_left _ memF
    obtain ⟨_,sane,named,_⟩ := planned.sane own known
    have placed : ¬Misplaced t own := of_decide_eq_false (before own memF)
    refine ⟨known,?_,sane⟩
    simp only [popped,Bool.or_eq_true,Bool.and_eq_true,decide_eq_true_eq] at takenF
    cases made : own.rhs with
    | val v =>
      rw [made] at takenF
      refine ⟨List.mem_singleton.mpr (takenF.resolve_right named).1.symm,fun d column => by cases made.symm.trans column⟩
    | col d =>
      rw [made] at takenF
      have same : own.lhsCol.tabName = d.tabName := takenF.resolve_left fun both => by cases both.2
      have here : own.lhsCol.tabName = t := not_not.mp fun other => placed ⟨d,made,same.symm,other⟩
      refine ⟨List.mem_singleton.mpr here,fun e column => ?_⟩
      cases made.symm.trans column
      exact List.mem_singleton.mpr (same.symm.trans here)

omit [FloatOps] in
theorem Planned.kind (planned : Planned sm tab fh t ts accepted x plans plan) :
    (UsesIndex (tab t) t accepted → x.tag = .indexScan) ∧
      (¬UsesIndex (tab t) t accepted → x = ⟨.seqScan,t,accepted.filter (popped t),[]⟩) := by
  obtain ⟨indexExist,names,chosen,rfl⟩ := planned.first
  rw [getIndexColsListed (planned.usable t List.mem_cons_self).table.listed,Except.ok.injEq,Prod.mk.injEq] at chosen
  obtain ⟨rfl,_⟩ := chosen
  rw [usesIndexChosen]
  refine ⟨fun some => ?_,fun none => ?_⟩
  · rw [if_pos (decide_eq_true some)]
  · rw [if_neg (by simpa using none)]

theorem Planned.indexed (planned : Planned sm tab fh t ts accepted x plans plan) (some : ∃ cond ∈ accepted, Misplaced t cond)
    (uses : UsesIndex (tab t) t accepted) : ∀ fuel ex, convertPlanExecutor sm fuel plan ≠ .ok ex := by
  obtain ⟨cond,back,whole,⟨c,column,inside,foreign⟩,_⟩ := planned.misplaced some
  obtain ⟨name,own⟩ := isScanFields planned.first
  refine convertFails (planned.scans.mpr List.mem_cons_self) fun fuel ex => ?_
  rw [convertPlanExecutor,planned.kind.1 uses,if_neg (by decide),name,own]
  refine @orientFails _ _ _ _ cond _ ?_ foreign (fun d columnD => ?_) ex
  · rw [whole]
    exact List.mem_append_right _ List.mem_cons_self
  · cases column.symm.trans columnD
    exact inside

theorem Planned.scanned (planned : Planned sm tab fh t ts accepted x plans plan) (some : ∃ cond ∈ accepted, Misplaced t cond)
    (plain : ¬UsesIndex (tab t) t accepted) : ∀ fuel, ∃ ex, Cursor sm tab fuel (.scan x) ex ∧
      (Reached (fh t) (tab t) t accepted → Throws ex) ∧ (¬Reached (fh t) (tab t) t accepted → Yields ex []) := by
  obtain ⟨cond,back,whole,⟨_,_,_,foreign⟩,front⟩ := planned.misplaced some
  have usable := planned.usable t List.mem_cons_self
  obtain ⟨ex,made,cols,len,outcome⟩ := foreignScan usable (fun own mem => (front own mem).2.1)
    (fun own mem => (front own mem).2.2) foreign
  have reached : Reached (fh t) (tab t) t accepted ↔
      ∃ record ∈ tableRows (fh t), selects tab (testedBefore t accepted) record = true := by
    refine exists_congr fun record => and_congr_right fun mem => ?_
    rw [recordSelected usable (fun own mem => (front own mem).2.1) (fun own mem => (front own mem).2.2) (rowsSized usable mem),
      Except.ok.injEq]
  intro fuel
  rw [planned.kind.2 plain]
  refine ⟨ex,⟨?_,cols.trans (scanCols t).1,len.trans (scanCols t).2⟩,?_⟩
  · rw [convertPlanExecutor,if_pos rfl,whole]
    exact made
  · rw [reached]
    refine ⟨fun there => ?_,fun never => ?_⟩
    · rwa [if_pos there] at outcome
    · rwa [if_neg never] at outcome

theorem Planned.unreached (planned : Planned sm tab fh t ts accepted x plans plan) (some : ∃ cond ∈ accepted, Misplaced t cond)
    (never : ¬Reached (fh t) (tab t) t accepted) (f : String → Bytes) (inside : f t ∈ rowsOf fh t) :
    ∃ own ∈ accepted, own ∈ scanConds (.scan x) ∧ passes tab f own = false := by
  obtain ⟨_,_,whole,_,front⟩ := planned.misplaced some
  have usable := planned.usable t List.mem_cons_self
  have failed : selects tab (testedBefore t accepted) (f t) = false := by
    rw [Bool.eq_false_iff]
    intro passed
    refine never ⟨f t,inside,?_⟩
    rw [recordSelected usable (fun own mem => (front own mem).2.1) (fun own mem => (front own mem).2.2) (rowsSized usable inside),
      passed]
  obtain ⟨own,mem,fails⟩ := List.all_eq_false.mp failed
  obtain ⟨known,about,_⟩ := front own mem
  refine ⟨own,known,?_,?_⟩
  · obtain ⟨name,conds⟩ := isScanFields planned.first
    refine List.mem_filter.mpr ⟨?_,decide_eq_true ((aboutOwn about).trans name.symm)⟩
    rw [conds,whole]
    exact List.mem_append_left _ mem
  · rw [passesCongr about (g := fun _ => f t) fun u memU => by rw [List.mem_singleton.mp memU]]
    exact Bool.eq_false_iff.mpr fails

theorem Planned.quiet (planned : Planned sm tab fh t ts accepted x plans plan) (some : ∃ cond ∈ accepted, Misplaced t cond)
    (plain : ¬UsesIndex (tab t) t accepted) (never : ¬Reached (fh t) (tab t) t accepted) :
    RunsCross sm tab fh (t :: ts) accepted plan := by
  have name := (isScanFields planned.first).1
  have none : planRows (rowsOf fh) tab (.scan x) = [] := by
    rw [scanRows x fun cond mem => (planned.leafAbout List.mem_cons_self cond mem).1,List.filter_eq_nil_iff]
    intro record mem passed
    rw [name] at mem
    obtain ⟨own,_,scanned,failed⟩ := planned.unreached some never (fun _ => record) mem
    exact absurd (List.all_eq_true.mp passed own scanned) (Bool.eq_false_iff.mp failed)
  have first : LeafYields sm tab (rowsOf fh) x := by
    intro fuel
    obtain ⟨ex,cursor,outcome⟩ := planned.scanned some plain fuel
    exact ⟨ex,cursor,[],by rw [none],outcome.2 never⟩
  have leaves : ∀ y ∈ plan.scans, LeafYields sm tab (rowsOf fh) y := by
    intro y mem
    rcases List.mem_cons.mp (planned.scans.mp mem) with rfl | later
    · exact first
    · exact planned.otherLeaf later
  obtain ⟨enough,run⟩ := planYields planned.fit leaves
  have perm := planned.rows fun f inside => by
    obtain ⟨own,known,scanned,failed⟩ := planned.unreached some never f (inside t List.mem_cons_self)
    refine iff_of_false (fun all => ?_) fun all => Bool.eq_false_iff.mp failed (all own known)
    refine Bool.eq_false_iff.mp failed (all own (List.mem_append_left _ (scanCondsMem.mpr ⟨x,?_,scanned⟩)))
    exact planned.scans.mpr List.mem_cons_self
  refine ⟨enough,fun fuel many => ?_⟩
  obtain ⟨ex,cursor,out,same,yields⟩ := run fuel many
  exact ⟨ex,cursor,out,same.trans perm,yields⟩

theorem Planned.thrown (planned : Planned sm tab fh t ts accepted x plans plan) (some : ∃ cond ∈ accepted, Misplaced t cond)
    (plain : ¬UsesIndex (tab t) t accepted) (reached : Reached (fh t) (tab t) t accepted) :
    ((StartsIn (Fillable (rowsOf fh) tab accepted) t (startOrder (t :: ts) (betweenTables accepted))) →
      ∃ enough, ∀ fuel, enough ≤ fuel → ∃ ex, Cursor sm tab fuel plan ex ∧ Throws ex) ∧
    (¬StartsIn (Fillable (rowsOf fh) tab accepted) t (startOrder (t :: ts) (betweenTables accepted)) →
      RunsCross sm tab fh (t :: ts) accepted plan) := by
  have mem : t ∈ plan.tables := planned.joins.perm.mem_iff.mpr List.mem_cons_self
  have name := (isScanFields planned.first).1
  rw [← planned.whole.starts planned planned.joins.layered mem]
  have unique {y : ScanPlan} (inside : y ∈ plan.scans) (same : y.tabName = t) : y = x := by
    rcases List.mem_cons.mp (planned.scans.mp inside) with rfl | later
    · rfl
    · exact absurd (planned.names ▸ List.mem_map_of_mem later) (same ▸ (List.nodup_cons.mp planned.once).1)
  have throws : ∀ y ∈ plan.scans, y.tabName = t → ∀ fuel, ∃ ex, Cursor sm tab fuel (.scan y) ex ∧ Throws ex := by
    intro y inside same fuel
    obtain ⟨ex,cursor,outcome⟩ := planned.scanned some plain fuel
    rw [unique inside same]
    exact ⟨ex,cursor,outcome.1 reached⟩
  have leaves : ∀ y ∈ plan.scans, y.tabName ≠ t → LeafYields sm tab (rowsOf fh) y := by
    intro y inside other
    rcases List.mem_cons.mp (planned.scans.mp inside) with rfl | later
    · exact absurd name other
    · exact planned.otherLeaf later
  obtain ⟨enough,run⟩ := planThrows planned.fit mem throws leaves
  refine ⟨fun started => ⟨enough,fun fuel many => ?_⟩,fun never => ⟨enough,fun fuel many => ?_⟩⟩
  · obtain ⟨ex,cursor,fails,_⟩ := run fuel many
    exact ⟨ex,cursor,fails started⟩
  · have empty : crossRows (rowsOf fh) tab (t :: ts) accepted plan.tables = [] := by
      refine planned.crossEmpty plan.tables fun f inside all => never ?_
      have there : ∀ u ∈ plan.tables, f u ∈ rowsOf fh u := fun u memU => inside u (planned.joins.perm.mem_iff.mp memU)
      exact startedWhole planned.fit mem there ((planned.tests inside).mpr fun cond memC _ => all cond memC)
    obtain ⟨ex,cursor,_,quiet⟩ := run fuel many
    exact ⟨ex,cursor,[],by rw [empty],quiet never⟩

def RunsNot (sm : SmManager) (plan : Plan) : Prop :=
  ∃ enough, ∀ fuel, enough ≤ fuel → ∀ ex, convertPlanExecutor sm fuel plan = .ok ex → Throws ex

theorem RunsNot.never {tables : List String} (fails : RunsNot sm plan) : ¬YieldsCross sm (rowsOf fh) tab tables accepted plan := by
  rintro ⟨order,many,_,run⟩
  obtain ⟨enough,fails⟩ := fails
  obtain ⟨ex,made,_,drained⟩ := run (max enough many) (le_max_right ..)
  obtain ⟨out,s,done,_⟩ := drained many (le_refl _)
  obtain ⟨e,u,thrown⟩ := fails _ (le_max_left ..) ex made ex.init
  rw [AbstractExecutor.drain,bindError thrown] at done
  cases done

/- What decides whether the plan yields what the query says. -/
def InTheWay (fh : String → RmFileHandle) (tab : String → TabMeta) (t : String) (ts : List String) (accepted : List Condition) :
    Prop := (∃ cond ∈ accepted, Misplaced t cond) ∧ (UsesIndex (tab t) t accepted ∨ Reached (fh t) (tab t) t accepted ∧
  StartsIn (Fillable (rowsOf fh) tab accepted) t (startOrder (t :: ts) (betweenTables accepted)))

theorem Planned.ends (planned : Planned sm tab fh t ts accepted x plans plan) :
    (InTheWay fh tab t ts accepted → RunsNot sm plan) ∧
      (¬InTheWay fh tab t ts accepted → RunsCross sm tab fh (t :: ts) accepted plan) := by
  refine ⟨?_,fun free => ?_⟩
  · rintro ⟨some,blocked⟩
    by_cases uses : UsesIndex (tab t) t accepted
    · exact ⟨0,fun fuel _ ex made => absurd made (planned.indexed some uses fuel ex)⟩
    · obtain ⟨reached,starts⟩ := blocked.resolve_left uses
      obtain ⟨enough,run⟩ := (planned.thrown some uses reached).1 starts
      refine ⟨enough,fun fuel many ex made => ?_⟩
      obtain ⟨ex',cursor,throws⟩ := run fuel many
      exact Except.ok.inj (cursor.made.symm.trans made) ▸ throws
  · by_cases placed : ∀ cond ∈ accepted, ¬Misplaced t cond
    · exact planned.placedRuns placed
    · have some : ∃ cond ∈ accepted, Misplaced t cond := by
        obtain ⟨cond,wrong⟩ := not_forall.mp placed
        obtain ⟨mem,wrong⟩ := Classical.not_imp.mp wrong
        exact ⟨cond,mem,not_not.mp wrong⟩
      have plain : ¬UsesIndex (tab t) t accepted := fun uses => free ⟨some,.inl uses⟩
      by_cases reached : Reached (fh t) (tab t) t accepted
      · exact (planned.thrown some plain reached).2 fun starts => free ⟨some,.inr ⟨reached,starts⟩⟩
      · exact planned.quiet some plain reached

theorem Planned.meaning (planned : Planned sm tab fh t ts accepted x plans plan) :
    YieldsCross sm (rowsOf fh) tab (t :: ts) accepted plan ↔ (∀ cond ∈ accepted, ¬Misplaced t cond) ∨
      ¬UsesIndex (tab t) t accepted ∧ ¬(Reached (fh t) (tab t) t accepted ∧
        StartsIn (Fillable (rowsOf fh) tab accepted) t (startOrder (t :: ts) (betweenTables accepted))) := by
  have free : YieldsCross sm (rowsOf fh) tab (t :: ts) accepted plan ↔ ¬InTheWay fh tab t ts accepted :=
    ⟨fun yields blocked => (planned.ends.1 blocked).never yields,fun free => planned.crosses (planned.ends.2 free)⟩
  rw [free,InTheWay,not_and_or,not_or]
  refine or_congr_left ?_
  simp only [not_exists,not_and]

omit [FloatOps] in
theorem makeOneRelPlanned {methods : JoinMethods}
    (enabled : methods.enableNestedloopJoin = true ∨ methods.enableSortmergeJoin = true)
    (usable : ∀ u ∈ t :: ts, Usable sm u (tab u) (fh u)) (once : (t :: ts).Nodup)
    (sane : ∀ cond ∈ accepted, About (t :: ts) cond ∧ Sane tab cond ∧ cond.lhsCol.tabName ≠ "" ∧
      ∀ c, cond.rhs = .col c → c.tabName ≠ "") :
    ∃ x plans plan, makeOneRel sm.db methods (t :: ts) accepted = .ok plan ∧ Planned sm tab fh t ts accepted x plans plan := by
  obtain ⟨x,plans,plan,made,first,names,others,joins⟩ := makeOneRelRun enabled (fun u mem => ⟨_,(usable u mem).table.listed⟩) once
    (fun cond mem => (sane cond mem).1.1) (fun cond mem => (sane cond mem).2.2.1) fun cond mem => by
      obtain ⟨known,c,column,apart⟩ := betweenMem.mp mem
      obtain ⟨about,_,named,namedR⟩ := sane cond known
      exact ⟨c,column,about.1,about.2 c column,apart,named,namedR c column⟩
  exact ⟨x,plans,plan,made,usable,once,sane,first,names,others,joins⟩

/- The conditions that `check_clause` accepts, the plan that `make_one_rel` makes of them and the
executors that the portal makes of the plan. -/
theorem makeOneRelMeaning {methods : JoinMethods}
    (enabled : methods.enableNestedloopJoin = true ∨ methods.enableSortmergeJoin = true)
    (usable : ∀ u ∈ t :: ts, Usable sm u (tab u) (fh u)) (once : (t :: ts).Nodup)
    (checked : checkClause sm.db (t :: ts) conds = .ok accepted) (compare : ∀ cond ∈ accepted, TypesCompare tab cond) :
    ∃ plan, makeOneRel sm.db methods (t :: ts) accepted = .ok plan ∧
      (YieldsCross sm (rowsOf fh) tab (t :: ts) accepted plan ↔ (∀ cond ∈ accepted, ¬Misplaced t cond) ∨
        ¬UsesIndex (tab t) t accepted ∧ ¬(Reached (fh t) (tab t) t accepted ∧
          StartsIn (Fillable (rowsOf fh) tab accepted) t (startOrder (t :: ts) (betweenTables accepted)))) := by
  obtain ⟨_,_,plan,made,planned⟩ := makeOneRelPlanned enabled usable once (acceptedSane usable checked compare)
  exact ⟨plan,made,planned.meaning⟩

end Whole

section Pair

def pairTab (u : String) : TabMeta := ⟨u,newCols u 0 [⟨"a",.int,4⟩,⟨"b",.int,4⟩],[]⟩
def pairDb : DbMeta := ⟨"db",[("t",pairTab "t"),("u",pairTab "u")]⟩

def pairSm (fh : String → RmFileHandle) : SmManager := ⟨pairDb,fun u => some (fh u),fun _ => none⟩

def pairRow (a b : Int) : Bytes := leBytes 4 a ++ leBytes 4 b
def pairRows (u : String) : List Bytes := if u = "t" then [pairRow 1 5,pairRow 2 6] else [pairRow 1 3,pairRow 2 7,pairRow 2 2]

theorem insertedRows {fh fh' : RmFileHandle} {rid : Rid} {record : Bytes} (free : fh.records rid = none)
    (records : fh'.records = Function.update fh.records rid (some record)) :
    (tableRows fh').Perm (record :: tableRows fh) := by
  have fresh : rid ∉ RmScan.rids fh := by
    rw [RmScan.ridsMem,free]
    simp
  have rids : (RmScan.rids fh').Perm (rid :: RmScan.rids fh) := by
    refine (List.perm_ext_iff_of_nodup (RmScan.ridsNodup fh') (List.nodup_cons.mpr ⟨fresh,RmScan.ridsNodup fh⟩)).mpr fun r => ?_
    rw [RmScan.ridsMem,List.mem_cons,RmScan.ridsMem,records]
    by_cases own : r = rid
    · simp [own]
    · simp [own]
  have kept : (RmScan.rids fh).map (recordAt fh') = tableRows fh := by
    refine List.map_congr_left fun r mem => ?_
    have other : r ≠ rid := ne_of_mem_of_not_mem mem fresh
    rw [recordAt,recordAt,records,Function.update_of_ne other]
  have first : recordAt fh' rid = record := by rw [recordAt,records,Function.update_self,Option.getD_some]
  rw [← kept,← first]
  exact rids.map (recordAt fh')

theorem rowsStored (rows : List Bytes) :
    ∃ fh : RmFileHandle, fh.fileHdr.recordSize = 8 ∧ fh.WellUpTo ∅ ∧ (tableRows fh).Perm rows := by
  induction rows with
  | nil =>
    have file : RmManager.createFile 8 = .ok ⟨⟨8,1,RmManager.numRecordsPerPage 8,rmNoPage⟩,fun _ => none⟩ := rfl
    have none : RmScan.rids (RmManager.openFile "t" ⟨⟨8,1,RmManager.numRecordsPerPage 8,rmNoPage⟩,fun _ => none⟩) = [] := by
      refine List.eq_nil_iff_forall_not_mem.mpr fun r mem => ?_
      obtain ⟨record,there⟩ := RmScan.ridsMem.mp mem
      rw [RmManager.createdEmpty file "t"] at there
      cases there
    refine ⟨_,rfl,RmManager.createdWell file "t",?_⟩
    rw [tableRows,none]
    exact .nil
  | cons record rows ih =>
    obtain ⟨fh,size,well,perm⟩ := ih
    obtain ⟨rid,fh',_,well',free,records,extended⟩ := @RmFileHandle.insertRecordWell fh ∅ record well
    exact ⟨fh',extended.recordSize.trans size,well',(insertedRows free records).trans (perm.cons record)⟩

theorem pairStored : ∃ fh : String → RmFileHandle, (∀ u, (tableRows (fh u)).Perm (pairRows u)) ∧
    ∀ u ∈ ["t","u"], Usable (pairSm fh) u (pairTab u) (fh u) := by
  choose fh size well perm using fun u => rowsStored (pairRows u)
  refine ⟨fh,perm,fun u mem => ?_⟩
  have listed : pairDb.getTable u = .ok (pairTab u) := by
    rcases List.mem_cons.mp mem with rfl | mem
    · rfl
    · rw [List.mem_singleton.mp mem]
      rfl
  have fixed : ∀ col ∈ (pairTab u).cols, FixedLen col := by
    intro col own
    rcases List.mem_cons.mp own with rfl | own
    · rfl
    · rw [List.mem_singleton.mp own]
      rfl
  refine ⟨⟨listed,rfl,rfl,?_,⟨∅,well u⟩,fun rid record there => ?_⟩,⟨⟨_,by simp,rfl⟩,fixed⟩,size u,by simp [pairTab],
    by simp [pairTab]⟩
  · rw [size u]
    exact ⟨by simp [pairTab,newCols],by simp [pairTab,newCols],by simp [pairTab]⟩
  · have mem : recordAt (fh u) rid ∈ pairRows u := (perm u).mem_iff.mp (List.mem_map_of_mem (RmScan.ridsMem.mpr ⟨record,there⟩))
    rw [recordAt,there,Option.getD_some] at mem
    rw [size u]
    revert mem
    rw [pairRows]
    split <;> intro mem <;> simp only [List.mem_cons,List.not_mem_nil,or_false] at mem
    · rcases mem with rfl | rfl <;> rfl
    · rcases mem with rfl | rfl | rfl <;> rfl

def sameInU : Condition := ⟨⟨"u","a"⟩,.eq,.col ⟨"u","b"⟩⟩

theorem sameInUNever : ∃ (sm : SmManager) (fh : String → RmFileHandle) (plan : Plan), sm.db = pairDb ∧
    (∀ u, (tableRows (fh u)).Perm (pairRows u)) ∧ makeOneRel sm.db {} ["t","u"] [sameInU] = .ok plan ∧
    ¬@YieldsCross .whole sm (rowsOf fh) pairTab ["t","u"] [sameInU] plan := by
  let _ := FloatOps.whole
  obtain ⟨fh,rows,usable⟩ := pairStored
  have checked : checkClause pairDb ["t","u"] [sameInU] = .ok [sameInU] := by decide +kernel
  have compare : ∀ cond ∈ [sameInU], TypesCompare pairTab cond := by
    intro cond mem c lhs rhs column left right
    rw [List.mem_singleton.mp mem] at column left
    cases column
    cases Except.ok.inj (show Except.ok _ = Except.ok lhs from left)
    cases Except.ok.inj (show Except.ok _ = Except.ok rhs from right)
    rfl
  obtain ⟨plan,made,meaning⟩ := @makeOneRelMeaning _ (pairSm fh) pairTab fh "t" ["u"] _ [sameInU] {} (.inl rfl) usable
    (by decide) checked compare
  refine ⟨pairSm fh,fh,plan,rfl,rows,made,?_⟩
  rw [meaning]
  have misplaced : Misplaced "t" sameInU := ⟨⟨"u","b"⟩,rfl,rfl,by decide⟩
  have inT : pairRow 1 5 ∈ rowsOf fh "t" := (rows "t").mem_iff.mpr List.mem_cons_self
  have inU : pairRow 1 3 ∈ rowsOf fh "u" := (rows "u").mem_iff.mpr List.mem_cons_self
  rintro (placed | ⟨_,never⟩)
  · exact placed sameInU List.mem_cons_self misplaced
  · refine never ⟨⟨_,inT,rfl⟩,?_⟩
    have order : startOrder ["t","u"] (betweenTables [sameInU]) = [["u"],["t"]] := by decide
    rw [order]
    refine ⟨⟨fun _ => pairRow 1 3,fun u mem => ?_,rfl⟩,?_⟩
    · rw [List.mem_singleton.mp mem]
      exact inU
    · exact fillableNone _

end Pair

end Rmdb.Planner
