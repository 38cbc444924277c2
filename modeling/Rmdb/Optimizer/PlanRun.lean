import Rmdb.Execution.JoinComplete
import Rmdb.Lib.Assignments
import Rmdb.Optimizer.PlanScans

/-! A plan yields one row for each choice of a record from every table that satisfies the
conditions of the plan. -/
namespace Rmdb.Planner
open Lib Analyze Portal Plan

section Rows
variable [FloatOps]

def scanConds : Plan → List Condition
  | .scan x => x.conds.filter fun cond => cond.lhsCol.tabName = x.tabName
  | .join _ left right _ => scanConds left ++ scanConds right

def planConds (p : Plan) : List Condition := scanConds p ++ p.joinConds

def choices (rows : String → List Bytes) (tab : String → TabMeta) (ts : List String) (conds : List Condition) :
    List (String → Bytes) :=
  (assignments rows ts).filter fun f => conds.all (passes tab f)

def planRows (rows : String → List Bytes) (tab : String → TabMeta) (p : Plan) : List Bytes :=
  (choices rows tab p.tables (planConds p)).map (layout p.tables)

end Rows

section Laid
variable {tab : String → TabMeta} {f g : String → Bytes} {ts us : List String}

def totalSize (tab : String → TabMeta) (ts : List String) : Nat := (ts.map fun t => rowSize (tab t)).sum

theorem layoutLength (sized : ∀ t ∈ ts, (f t).length = rowSize (tab t)) : (layout ts f).length = totalSize tab ts := by
  rw [layout,List.length_flatMap,totalSize]
  exact congrArg List.sum (List.map_congr_left sized)

theorem layoutAppend : layout (ts ++ us) f = layout ts f ++ layout us f := List.flatMap_append

theorem layoutCongr (same : ∀ t ∈ ts, f t = g t) : layout ts f = layout ts g := by
  rw [layout,layout]
  exact List.flatMap_congr same

theorem layoutMerge (once : (ts ++ us).Nodup) : layout (ts ++ us) (merge ts f g) = layout ts f ++ layout us g := by
  obtain ⟨_,_,apart⟩ := List.nodup_append.mp once
  rw [layoutAppend,layoutCongr fun t mem => mergeLeft mem,
    layoutCongr fun t mem => mergeRight fun here => apart t here t mem rfl]

theorem laidShift (tabs : List TabMeta) (offset shift : Nat) :
    laidCols (offset+shift) tabs = (laidCols offset tabs).map fun col => {col with offset := col.offset+shift} := by
  induction tabs generalizing offset with
  | nil => rfl
  | cons t tabs ih =>
    rw [laidCols,laidCols,List.map_append,List.map_map]
    refine congrArg₂ List.append (List.map_congr_left fun col _ => ?_) ?_
    · simp [Nat.add_assoc]
    · rw [Nat.add_right_comm]
      exact ih _

theorem laidAppend (tabs more : List TabMeta) (offset : Nat) :
    laidCols offset (tabs ++ more) = laidCols offset tabs ++ laidCols (offset+(tabs.map rowSize).sum) more := by
  induction tabs generalizing offset with
  | nil => rfl
  | cons t tabs ih =>
    rw [List.cons_append,laidCols,laidCols,ih,List.append_assoc,List.map_cons,List.sum_cons,← Nat.add_assoc]
    rfl

theorem joinedCols (ts us : List String) : laidCols 0 (ts.map tab) ++
    (laidCols 0 (us.map tab)).map (fun col => {col with offset := col.offset+totalSize tab ts}) =
      laidCols 0 ((ts ++ us).map tab) := by
  rw [List.map_append,laidAppend,laidShift,List.map_map]
  rfl

end Laid

section Begin
variable [FloatOps] {σ τ : Type} {j : NestedLoopJoinExecutor σ τ} {readyL : σ → Prop} {standsL : σ → List Bytes → Prop}
  {L : List Bytes} {s : JoinState σ τ} {fuel : Nat} {e : Fault}

theorem beginEmpty (left : j.left.Restarts readyL standsL []) (known : readyL s.left) :
    ∃ t, j.beginTuple fuel s = .ok () t ∧ t.isEnd = true := by
  obtain ⟨u,begun,here⟩ := left.start _ known
  have started : NestedLoopJoinExecutor.onLeft j.left.beginTuple {s with isEnd := false} =
      .ok () {s with isEnd := false, left := u} := zoomOk begun
  obtain ⟨v,loaded,_⟩ := @NestedLoopJoinExecutor.loadRun _ _ j _ {s with isEnd := false, left := u} left.positions [] here
  rw [List.take_nil,List.isEmpty_nil] at loaded
  refine ⟨⟨v,s.right,true,[],0,s.rightTuple⟩,?_,rfl⟩
  rw [NestedLoopJoinExecutor.beginTuple,modifyBind,bindEq started,bindEq loaded]
  rfl

theorem beginFailsLeft {u : σ} (thrown : j.left.beginTuple s.left = .error e u) : ∃ t, j.beginTuple fuel s = .error e t := by
  have started : NestedLoopJoinExecutor.onLeft j.left.beginTuple {s with isEnd := false} =
      .error e {s with isEnd := false, left := u} := zoomError thrown
  exact ⟨{s with isEnd := false, left := u},by rw [NestedLoopJoinExecutor.beginTuple,modifyBind,bindError started]⟩

theorem beginFailsRight (left : j.left.Restarts readyL standsL L) (known : readyL s.left) (some : L ≠ []) {u : τ}
    (thrown : j.right.beginTuple s.right = .error e u) : ∃ t, j.beginTuple fuel s = .error e t := by
  obtain ⟨u',begun,here⟩ := left.start _ known
  have started : NestedLoopJoinExecutor.onLeft j.left.beginTuple {s with isEnd := false} =
      .ok () {s with isEnd := false, left := u'} := zoomOk begun
  obtain ⟨v,loaded,_⟩ := @NestedLoopJoinExecutor.loadRun _ _ j _ {s with isEnd := false, left := u'} left.positions L here
  have nonempty : (L.take j.leftBlockCapacity).isEmpty = false := by
    rw [List.isEmpty_eq_false_iff,ne_eq,List.take_eq_nil_iff,not_or]
    exact ⟨Nat.ne_of_gt j.positive,some⟩
  rw [nonempty] at loaded
  have ended : NestedLoopJoinExecutor.onRight j.right.beginTuple
      ⟨v,s.right,false,L.take j.leftBlockCapacity,0,s.rightTuple⟩ =
        .error e ⟨v,u,false,L.take j.leftBlockCapacity,0,s.rightTuple⟩ := zoomError thrown
  refine ⟨⟨v,u,false,L.take j.leftBlockCapacity,0,s.rightTuple⟩,?_⟩
  rw [NestedLoopJoinExecutor.beginTuple,modifyBind,bindEq started,bindEq loaded]
  exact bindError ended

end Begin

section Runs
variable [FloatOps] {sm : SmManager} {tab : String → TabMeta} {fh : String → RmFileHandle} {rows : String → List Bytes}
  {ts us : List String} {conds : List Condition} {f : String → Bytes} {p left right : Plan} {tag : PlanTag}

theorem choicesMem (once : ts.Nodup) : f ∈ choices rows tab ts conds ↔
    ((∀ t ∈ ts, f t ∈ rows t) ∧ ∀ t, t ∉ ts → f t = default) ∧ ∀ cond ∈ conds, passes tab f cond = true := by
  rw [choices,List.mem_filter,assignmentsMem once,List.all_eq_true]

theorem allCongr {g : String → Bytes} (about : ∀ cond ∈ conds, About ts cond) (same : ∀ t ∈ ts, f t = g t) :
    conds.all (passes tab f) = conds.all (passes tab g) := by
  induction conds with
  | nil => rfl
  | cons cond conds ih =>
    rw [List.all_cons,List.all_cons,passesCongr (about cond List.mem_cons_self) same,
      ih fun x mem => about x (List.mem_cons_of_mem cond mem)]

theorem choicesJoin (once : (ts ++ us).Nodup) {first second between : List Condition}
    (aboutL : ∀ cond ∈ first, About ts cond) (aboutR : ∀ cond ∈ second, About us cond) :
    choices rows tab (ts ++ us) (first ++ second ++ between) =
      ((choices rows tab ts first ×ˢ choices rows tab us second).filter fun pair =>
        between.all (passes tab (merge ts pair.1 pair.2))).map fun pair => merge ts pair.1 pair.2 := by
  obtain ⟨_,_,apart⟩ := List.nodup_append.mp once
  rw [choices,choices,choices,assignmentsAppend once,productFilter,List.filter_map,List.filter_filter]
  refine congrArg (List.map _) (List.filter_congr fun pair _ => ?_)
  rw [Function.comp_apply,List.all_append,List.all_append,allCongr aboutL fun t mem => mergeLeft mem,
    allCongr aboutR fun t mem => mergeRight fun here => apart t here t mem rfl,Bool.and_comm]

structure Cursor (sm : SmManager) (tab : String → TabMeta) (fuel : Nat) (p : Plan) (ex : Executor) : Prop where
  made : convertPlanExecutor sm fuel p = .ok ex
  cols : ex.run.cols = laidCols 0 (p.tables.map tab)
  len : ex.run.tupleLen = totalSize tab p.tables

def joinExecutor (conds : List Condition) (fuel : Nat) (l r : Executor) : Executor :=
  ⟨_,⟨l.init,r.init,true,[],0,none⟩,(NestedLoopJoinExecutor.new l.run r.run conds).executor fuel⟩

theorem joinCursor {fuel : Nat} {l r : Executor} (cursorL : Cursor sm tab fuel left l) (cursorR : Cursor sm tab fuel right r) :
    Cursor sm tab fuel (.join tag left right conds) (joinExecutor conds fuel l r) := by
  refine ⟨?_,?_,?_⟩
  · simp only [convertPlanExecutor,cursorL.made,cursorR.made,bind,Except.bind]
    rfl
  · refine Eq.trans ?_ (joinedCols left.tables right.tables)
    rw [← cursorL.cols,← cursorR.cols,← cursorL.len]
    rfl
  · refine (congrArg₂ Nat.add cursorL.len cursorR.len).trans ?_
    rw [totalSize,totalSize,totalSize,tables,List.map_append,List.sum_append]
    rfl

theorem joinYields {fuel : Nat} {l r : Executor} {L R : List Bytes} {pass : Bytes × Bytes → Bool} (yieldsL : Yields l L)
    (yieldsR : Yields r R) (enough : (L.length+1)*(R.length+2) < fuel)
    (total : ∀ pair ∈ L ×ˢ R, recordSatisfiesConditions (pair.1 ++ pair.2) (joinExecutor conds fuel l r).run.cols conds =
      .ok (pass pair)) :
    ∃ rows, rows.Perm (((L ×ˢ R).filter pass).map fun pair => pair.1 ++ pair.2) ∧ Yields (joinExecutor conds fuel l r) rows := by
  obtain ⟨standsL,restartsL⟩ := yieldsL
  obtain ⟨standsR,restartsR⟩ := yieldsR
  let j := NestedLoopJoinExecutor.new l.run r.run conds
  have left : j.left.Restarts (fun _ => True) standsL L := restartsL
  have right : j.right.Restarts (fun _ => True) standsR R := restartsR
  have known : ∀ pair ∈ L ×ˢ R, j.satisfies pair = .ok (pass pair) := fun pair mem =>
    (NestedLoopJoinExecutor.satisfiesWhole left right mem).trans (total pair mem)
  have restarts := NestedLoopJoinExecutor.joinRestarts left right enough known
  refine ⟨_,?_,_,⟨restarts.positions,fun _ _ _ => trivial,fun s _ => restarts.start s ⟨trivial,trivial⟩,restarts.size⟩⟩
  have perm := j.orderPerm L R
  refine ((perm.filter pass).map _).trans (.of_eq ?_)
  exact List.map_congr_left fun pair mem => NestedLoopJoinExecutor.joinedWhole left right (List.mem_of_mem_filter mem)

theorem emptyLeft {fuel : Nat} {l r : Executor} (yields : Yields l []) : Yields (joinExecutor conds fuel l r) [] := by
  obtain ⟨stands,restarts⟩ := yields
  refine ⟨fun s rest => rest = [] ∧ s.isEnd = true,⟨fun s here => here.2,?_,?_,?_⟩,fun _ _ _ => trivial,fun s _ => ?_,by simp⟩
  · intro s r rest here
    cases here.1
  · intro s r rest here
    cases here.1
  · intro s r rest here
    cases here.1
  · obtain ⟨t,begun,ended⟩ := @beginEmpty _ _ _ (NestedLoopJoinExecutor.new l.run r.run conds) _ _ s fuel restarts trivial
    exact ⟨t,begun,rfl,ended⟩

theorem throwsLeft {fuel : Nat} {l r : Executor} (throws : Throws l) : Throws (joinExecutor conds fuel l r) := by
  intro s
  obtain ⟨e,u,thrown⟩ := throws s.left
  exact ⟨e,@beginFailsLeft _ _ _ (NestedLoopJoinExecutor.new l.run r.run conds) s fuel e u thrown⟩

theorem throwsRight {fuel : Nat} {l r : Executor} {L : List Bytes} (yields : Yields l L) (some : L ≠ []) (throws : Throws r) :
    Throws (joinExecutor conds fuel l r) := by
  intro s
  obtain ⟨stands,restarts⟩ := yields
  obtain ⟨e,u,thrown⟩ := throws s.right
  exact ⟨e,@beginFailsRight _ _ _ (NestedLoopJoinExecutor.new l.run r.run conds) _ _ L s fuel e restarts trivial some u thrown⟩

theorem scanRows (x : ScanPlan) (about : ∀ cond ∈ scanConds (.scan x), About [x.tabName] cond) :
    planRows rows tab (.scan x) = (rows x.tabName).filter (selects tab (scanConds (.scan x))) := by
  rw [planRows,choices,planConds,joinConds,List.append_nil]
  generalize scanConds (.scan x) = conds at *
  have one (v : Bytes) : conds.all (passes tab (Function.update (fun _ => default) x.tabName v)) = selects tab conds v :=
    allCongr about fun t mem => by rw [List.mem_singleton.mp mem,Function.update_self]
  simp only [tables,assignments,List.map_singleton]
  induction rows x.tabName with
  | nil => rfl
  | cons v values next =>
    rw [List.flatMap_cons,List.filter_append,List.map_append,next,List.filter_cons]
    cases passed : selects tab conds v with
    | true => simp [one,passed,layout]
    | false => simp [one,passed]

def LeafYields (sm : SmManager) (tab : String → TabMeta) (rows : String → List Bytes) (x : ScanPlan) : Prop :=
  ∀ fuel, ∃ ex, Cursor sm tab fuel (.scan x) ex ∧ ∃ out, out.Perm (planRows rows tab (.scan x)) ∧ Yields ex out

structure Fit (tab : String → TabMeta) (rows : String → List Bytes) (p : Plan) : Prop where
  once : p.tables.Nodup
  shaped : ∀ t ∈ p.tables, Shaped t (tab t)
  sized : ∀ t ∈ p.tables, ∀ record ∈ rows t, record.length = rowSize (tab t)
  straddles : p.Straddles
  scans : ∀ x ∈ p.scans, ∀ cond ∈ scanConds (.scan x), About [x.tabName] cond
  joins : ∀ cond ∈ p.joinConds, Sane tab cond

omit [FloatOps] in
theorem Fit.children (fit : Fit tab rows (.join tag left right conds)) : Fit tab rows left ∧ Fit tab rows right := by
  obtain ⟨once,shaped,sized,straddles,scans,joins⟩ := fit
  obtain ⟨onceL,onceR,_⟩ := List.nodup_append.mp once
  refine ⟨⟨onceL,fun t mem => shaped t ?_,fun t mem => sized t ?_,straddles.1,fun x mem => scans x ?_,fun c mem => joins c ?_⟩,
    ⟨onceR,fun t mem => shaped t ?_,fun t mem => sized t ?_,straddles.2.1,fun x mem => scans x ?_,fun c mem => joins c ?_⟩⟩
  · exact List.mem_append_left _ mem
  · exact List.mem_append_left _ mem
  · exact List.mem_append_left _ mem
  · exact List.mem_append_left _ (List.mem_append_left _ mem)
  · exact List.mem_append_right _ mem
  · exact List.mem_append_right _ mem
  · exact List.mem_append_right _ mem
  · exact List.mem_append_left _ (List.mem_append_right _ mem)

omit [FloatOps] in
theorem Fit.about (fit : Fit tab rows p) : ∀ cond ∈ planConds p, About p.tables cond := by
  have wider {ts us : List String} {cond : Condition} (about : About ts cond) (part : ∀ t ∈ ts, t ∈ us) : About us cond :=
    ⟨part _ about.1,fun c column => part _ (about.2 c column)⟩
  have scanned : ∀ cond ∈ scanConds p, About p.tables cond := by
    induction p with
    | scan x => exact fit.scans x (List.mem_singleton.mpr rfl)
    | join tag left right conds ihl ihr =>
      obtain ⟨fitL,fitR⟩ := fit.children
      intro cond mem
      rcases List.mem_append.mp mem with inside | inside
      · exact wider (ihl fitL cond inside) fun t => List.mem_append_left _
      · exact wider (ihr fitR cond inside) fun t => List.mem_append_right _
  intro cond mem
  rcases List.mem_append.mp mem with inside | inside
  · exact scanned cond inside
  · obtain ⟨c,column,a,b⟩ := straddlesInside fit.straddles inside
    exact ⟨a,fun d same => by cases column.symm.trans same; exact b⟩

theorem joinTested (fit : Fit tab rows (.join tag left right conds)) {g : String → Bytes} (memF : ∀ t ∈ left.tables, f t ∈ rows t)
    (memG : ∀ t ∈ right.tables, g t ∈ rows t) :
    recordSatisfiesConditions (layout left.tables f ++ layout right.tables g)
      (laidCols 0 ((left.tables ++ right.tables).map tab)) conds =
        .ok (conds.all (passes tab (merge left.tables f g))) := by
  have once : (left.tables ++ right.tables).Nodup := fit.once
  obtain ⟨_,_,apart⟩ := List.nodup_append.mp once
  have own : ∀ cond ∈ conds, cond ∈ (Plan.join tag left right conds).joinConds := fun cond mem => List.mem_append_right _ mem
  rw [← layoutMerge once]
  refine conditionsLaid once fit.shaped (fun t mem => ?_) (fun cond mem => ?_) fun cond mem => fit.joins cond (own cond mem)
  · rcases List.mem_append.mp mem with inL | inR
    · rw [mergeLeft inL]
      exact fit.sized t mem _ (memF t inL)
    · rw [mergeRight fun inL => apart t inL t inR rfl]
      exact fit.sized t mem _ (memG t inR)
  · exact fit.about cond (List.mem_append_right _ (own cond mem))

theorem choicesCongr {conds' : List Condition} (same : ∀ cond, cond ∈ conds ↔ cond ∈ conds') :
    choices rows tab ts conds = choices rows tab ts conds' := by
  refine List.filter_congr fun f _ => ?_
  rw [Bool.eq_iff_iff,List.all_eq_true,List.all_eq_true]
  exact forall_congr' fun cond => imp_congr_left (same cond)

theorem joinRows (fit : Fit tab rows (.join tag left right conds)) {pass : Bytes × Bytes → Bool}
    (total : ∀ f g, (∀ t ∈ left.tables, f t ∈ rows t) → (∀ t ∈ right.tables, g t ∈ rows t) →
      pass (layout left.tables f,layout right.tables g) = conds.all (passes tab (merge left.tables f g))) :
    planRows rows tab (.join tag left right conds) =
      ((planRows rows tab left ×ˢ planRows rows tab right).filter pass).map fun pair => pair.1 ++ pair.2 := by
  have once : (left.tables ++ right.tables).Nodup := fit.once
  obtain ⟨onceL,onceR,_⟩ := List.nodup_append.mp once
  obtain ⟨fitL,fitR⟩ := fit.children
  have regrouped : choices rows tab (left.tables ++ right.tables) (planConds (.join tag left right conds)) =
      choices rows tab (left.tables ++ right.tables) (planConds left ++ planConds right ++ conds) := by
    refine choicesCongr fun cond => ?_
    simp only [planConds,scanConds,joinConds,List.mem_append]
    tauto
  have whole : planRows rows tab (.join tag left right conds) =
      (choices rows tab (left.tables ++ right.tables) (planConds (.join tag left right conds))).map
        (layout (left.tables ++ right.tables)) := rfl
  rw [whole,regrouped,choicesJoin once fitL.about fitR.about,List.map_map]
  rw [planRows,planRows,productMap,List.filter_map,List.map_map]
  have tests : ∀ pair ∈ choices rows tab left.tables (planConds left) ×ˢ choices rows tab right.tables (planConds right),
      conds.all (passes tab (merge left.tables pair.1 pair.2)) =
        (pass ∘ fun pair => (layout left.tables pair.1,layout right.tables pair.2)) pair := by
    rintro pair mem
    obtain ⟨memL,memR⟩ := List.mem_product.mp mem
    exact (total pair.1 pair.2 ((choicesMem onceL).mp memL).1.1 ((choicesMem onceR).mp memR).1.1).symm
  rw [List.filter_congr tests]
  exact List.map_congr_left fun pair _ => layoutMerge once

def joinPass (tab : String → TabMeta) (ts : List String) (conds : List Condition) (pair : Bytes × Bytes) : Bool :=
  decide (recordSatisfiesConditions (pair.1 ++ pair.2) (laidCols 0 (ts.map tab)) conds = .ok true)

theorem joinPassed (fit : Fit tab rows (.join tag left right conds)) {g : String → Bytes} (memF : ∀ t ∈ left.tables, f t ∈ rows t)
    (memG : ∀ t ∈ right.tables, g t ∈ rows t) :
    joinPass tab (left.tables ++ right.tables) conds (layout left.tables f,layout right.tables g) =
      conds.all (passes tab (merge left.tables f g)) := by
  rw [joinPass,joinTested fit memF memG]
  cases conds.all (passes tab (merge left.tables f g)) <;> rfl

theorem rowsChosen {record : Bytes} (once : p.tables.Nodup) (mem : record ∈ planRows rows tab p) :
    ∃ f, (∀ t ∈ p.tables, f t ∈ rows t) ∧ record = layout p.tables f := by
  obtain ⟨f,inside,rfl⟩ := List.mem_map.mp mem
  exact ⟨f,((choicesMem once).mp inside).1.1,rfl⟩

theorem joinOutput (fit : Fit tab rows (.join tag left right conds)) {fuel : Nat} {l r : Executor} {L R : List Bytes}
    (cursorL : Cursor sm tab fuel left l) (cursorR : Cursor sm tab fuel right r) (permL : L.Perm (planRows rows tab left))
    (permR : R.Perm (planRows rows tab right)) (yieldsL : Yields l L) (yieldsR : Yields r R)
    (enough : ((planRows rows tab left).length+1)*((planRows rows tab right).length+2) < fuel) :
    ∃ out, out.Perm (planRows rows tab (.join tag left right conds)) ∧ Yields (joinExecutor conds fuel l r) out := by
  have once : (left.tables ++ right.tables).Nodup := fit.once
  obtain ⟨onceL,onceR,_⟩ := List.nodup_append.mp once
  have cols := (@joinCursor _ sm tab conds left right tag fuel l r cursorL cursorR).cols
  rw [← permL.length_eq,← permR.length_eq] at enough
  obtain ⟨out,perm,yields⟩ := @joinYields _ conds fuel l r L R (joinPass tab (left.tables ++ right.tables) conds) yieldsL yieldsR
    enough fun pair mem => by
      obtain ⟨memL,memR⟩ := List.mem_product.mp mem
      obtain ⟨f,memF,sameF⟩ := rowsChosen onceL (permL.mem_iff.mp memL)
      obtain ⟨g,memG,sameG⟩ := rowsChosen onceR (permR.mem_iff.mp memR)
      obtain ⟨a,b⟩ := pair
      dsimp only at sameF sameG
      rw [cols,tables,sameF,sameG,joinPassed fit memF memG]
      exact joinTested fit memF memG
  refine ⟨out,perm.trans ?_,yields⟩
  rw [joinRows fit fun f g memF memG => joinPassed fit memF memG]
  exact ((permL.product permR).filter _).map _

theorem planYields (fit : Fit tab rows p) (leaves : ∀ x ∈ p.scans, LeafYields sm tab rows x) : ∃ enough, ∀ fuel, enough ≤ fuel →
    ∃ ex, Cursor sm tab fuel p ex ∧ ∃ out, out.Perm (planRows rows tab p) ∧ Yields ex out := by
  induction p with
  | scan x => exact ⟨0,fun fuel _ => leaves x (List.mem_singleton.mpr rfl) fuel⟩
  | join tag left right conds ihl ihr =>
    obtain ⟨fitL,fitR⟩ := fit.children
    obtain ⟨enoughL,runL⟩ := ihl fitL fun x mem => leaves x (List.mem_append_left _ mem)
    obtain ⟨enoughR,runR⟩ := ihr fitR fun x mem => leaves x (List.mem_append_right _ mem)
    refine ⟨max (max enoughL enoughR) (((planRows rows tab left).length+1)*((planRows rows tab right).length+2)+1),
      fun fuel enough => ?_⟩
    obtain ⟨both,own⟩ := max_le_iff.mp enough
    obtain ⟨forL,forR⟩ := max_le_iff.mp both
    obtain ⟨l,cursorL,L,permL,yieldsL⟩ := runL fuel forL
    obtain ⟨r,cursorR,R,permR,yieldsR⟩ := runR fuel forR
    exact ⟨_,joinCursor cursorL cursorR,joinOutput fit cursorL cursorR permL permR yieldsL yieldsR own⟩

/- The scan of the table is started by a run of the plan: what comes before it is not empty. -/
def Started (rows : String → List Bytes) (tab : String → TabMeta) (t : String) : Plan → Prop
  | .scan _ => True
  | .join _ left right _ =>
    if t ∈ left.tables then Started rows tab t left else planRows rows tab left ≠ [] ∧ Started rows tab t right

theorem planThrows {t : String} (fit : Fit tab rows p) (mem : t ∈ p.tables)
    (throws : ∀ x ∈ p.scans, x.tabName = t → ∀ fuel, ∃ ex, Cursor sm tab fuel (.scan x) ex ∧ Throws ex)
    (leaves : ∀ x ∈ p.scans, x.tabName ≠ t → LeafYields sm tab rows x) : ∃ enough, ∀ fuel, enough ≤ fuel →
    ∃ ex, Cursor sm tab fuel p ex ∧ (Started rows tab t p → Throws ex) ∧ (¬Started rows tab t p → Yields ex []) := by
  induction p with
  | scan x =>
    refine ⟨0,fun fuel _ => ?_⟩
    obtain ⟨ex,cursor,fails⟩ := throws x (List.mem_singleton.mpr rfl) (List.mem_singleton.mp mem).symm fuel
    exact ⟨ex,cursor,fun _ => fails,fun never => absurd trivial never⟩
  | join tag left right conds ihl ihr =>
    have once : (left.tables ++ right.tables).Nodup := fit.once
    obtain ⟨_,_,apart⟩ := List.nodup_append.mp once
    obtain ⟨fitL,fitR⟩ := fit.children
    have named {q : Plan} {x : ScanPlan} (inside : x ∈ q.scans) : x.tabName ∈ q.tables :=
      scansTables q ▸ List.mem_map_of_mem inside
    by_cases inL : t ∈ left.tables
    · have absent : t ∉ right.tables := fun inR => apart t inL t inR rfl
      obtain ⟨enoughL,runL⟩ := ihl fitL inL (fun x inside => throws x (List.mem_append_left _ inside))
        fun x inside => leaves x (List.mem_append_left _ inside)
      obtain ⟨enoughR,runR⟩ := @planYields _ sm tab rows right fitR fun x inside =>
        leaves x (List.mem_append_right _ inside) fun same => absent (same ▸ named inside)
      refine ⟨max enoughL enoughR,fun fuel enough => ?_⟩
      obtain ⟨l,cursorL,fails,empty⟩ := runL fuel (max_le_iff.mp enough).1
      obtain ⟨r,cursorR,_⟩ := runR fuel (max_le_iff.mp enough).2
      refine ⟨_,joinCursor cursorL cursorR,fun started => ?_,fun never => ?_⟩
      · rw [Started,if_pos inL] at started
        exact throwsLeft (fails started)
      · rw [Started,if_pos inL] at never
        exact emptyLeft (empty never)
    · have inR := (List.mem_append.mp mem).resolve_left inL
      obtain ⟨enoughL,runL⟩ := @planYields _ sm tab rows left fitL fun x inside =>
        leaves x (List.mem_append_left _ inside) fun same => inL (same ▸ named inside)
      obtain ⟨enoughR,runR⟩ := ihr fitR inR (fun x inside => throws x (List.mem_append_right _ inside))
        fun x inside => leaves x (List.mem_append_right _ inside)
      refine ⟨max (max enoughL enoughR) (((planRows rows tab left).length+1)*2+1),fun fuel enough => ?_⟩
      obtain ⟨both,own⟩ := max_le_iff.mp enough
      obtain ⟨l,cursorL,L,permL,yieldsL⟩ := runL fuel (max_le_iff.mp both).1
      obtain ⟨r,cursorR,fails,empty⟩ := runR fuel (max_le_iff.mp both).2
      refine ⟨_,joinCursor cursorL cursorR,fun started => ?_,fun never => ?_⟩
      · rw [Started,if_neg inL] at started
        exact throwsRight yieldsL (fun none => started.1 (permL.symm.trans (.of_eq none)).eq_nil) (fails started.2)
      · rw [Started,if_neg inL] at never
        by_cases none : planRows rows tab left = []
        · rw [none] at permL
          rw [permL.eq_nil] at yieldsL
          exact emptyLeft yieldsL
        · have quiet := empty fun started => never ⟨none,started⟩
          obtain ⟨out,perm,yields⟩ := @joinYields _ conds fuel l r L [] (fun _ => false) yieldsL quiet
            (by rw [permL.length_eq]; exact own) (by simp)
          rw [List.product_nil,List.filter_nil,List.map_nil] at perm
          rwa [perm.eq_nil] at yields

end Runs
end Rmdb.Planner
