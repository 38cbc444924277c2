import Rmdb.Lib.Bag
import Rmdb.Optimizer.SelectMeaning

/-! What every answer of a `SELECT` is: no condition, misplaced or not, and no key makes it answer
anything else than the rows of the query. -/
namespace Rmdb.Planner
open Lib Analyze Portal Plan Record QlManager SortExecutor

section Columns
variable {tab : String → TabMeta} {ts : List String} {c : TabCol} {col : ColMeta} {k : Nat}

theorem laidMem (mem : col ∈ laidCols k (ts.map tab)) :
    ∃ u ∈ ts, ∃ own ∈ (tab u).cols, own.tabName = col.tabName ∧ own.name = col.name := by
  induction ts generalizing k with
  | nil => cases mem
  | cons u ts ih =>
    rw [List.map_cons,laidCols] at mem
    rcases List.mem_append.mp mem with here | later
    · obtain ⟨own,inside,rfl⟩ := List.mem_map.mp here
      exact ⟨u,List.mem_cons_self,own,inside,rfl,rfl⟩
    · obtain ⟨v,memV,own⟩ := ih later
      exact ⟨v,List.mem_cons_of_mem u memV,own⟩

theorem foundResolved (shaped : ∀ u ∈ ts, Shaped u (tab u)) (found : findColMeta (laidCols k (ts.map tab)) c = .ok col) :
    Resolved tab ts c := by
  rw [findColMeta] at found
  split at found
  · rename_i first here
    have both : first.tabName = c.tabName ∧ first.name = c.colName := by simpa using List.find?_some here
    obtain ⟨tabled,named⟩ := both
    obtain ⟨u,mem,own,inside,sameTab,sameName⟩ := laidMem (List.mem_of_find?_eq_some here)
    have resolved := ownResolved shaped mem inside
    rw [sameTab,sameName,tabled,named] at resolved
    exact resolved
  · cases found

end Columns

section Whole
variable [FloatOps] {sm : SmManager} {tab : String → TabMeta} {fh : String → RmFileHandle} {t : String} {ts : List String}
  {x : Ast.Select} {query : Query} {methods : JoinMethods} {orders : List Ast.OrderBy} {keys : List SortKey} {plan : Plan}
  {sort : Option SortPlan} {selCols : List TabCol} {fuel : Nat} {value : Int} {a : List String × List (List Bytes)}
  {floatText : UInt32 → Bytes}

omit [FloatOps] in
theorem mapMAll {α β : Type} {f : α → Except Fault β} {xs : List α} {ys : List β} (done : xs.mapM f = .ok ys) :
    ∀ x ∈ xs, ∃ y, f x = .ok y := by
  induction xs generalizing ys with
  | nil => exact fun x mem => absurd mem List.not_mem_nil
  | cons first xs ih =>
    rw [List.mapM_cons] at done
    obtain ⟨y,here,done⟩ := exceptBind done
    obtain ⟨_,later,_⟩ := exceptBind done
    intro x mem
    rcases List.mem_cons.mp mem with rfl | mem
    · exact ⟨y,here⟩
    · exact ih later x mem

theorem selectSteps (analyzed : doAnalyze sm.db x = .ok query)
    (made : makeOneRel sm.db methods query.tables query.conds = .ok plan) (answered : select floatText sm methods x fuel = .ok a) : ∃ sort, generateSortPlan sm.db query.tables x.sort = .ok sort ∧
      ∃ ex, Portal.start sm fuel ⟨plan,sort,query.cols⟩ = .ok ex ∧
        ∃ rows s, selectFrom floatText ex.run fuel ex.init = .ok rows s := by
  rw [select,analyzed] at answered
  obtain ⟨_,same,answered⟩ := exceptBind answered
  cases Except.ok.inj same
  obtain ⟨selectPlan,generated,answered⟩ := exceptBind answered
  obtain ⟨_,made',generated⟩ := exceptBind generated
  obtain rfl := Except.ok.inj (made.symm.trans made')
  obtain ⟨sort,sorted,generated⟩ := exceptBind generated
  cases Except.ok.inj generated
  refine ⟨sort,sorted,?_⟩
  split at answered
  · cases answered
  · rename_i ex started
    refine ⟨ex,started,?_⟩
    obtain ⟨rows,shown,_⟩ := exceptBind answered
    rw [eval] at shown
    split at shown
    · rename_i out s run
      exact ⟨out,s,run⟩
    · cases shown

omit [FloatOps] in
theorem projectedPrev {σ : Type} {below : AbstractExecutor σ} {ex : ProjectionExecutor σ}
    (projected : ProjectionExecutor.new below selCols = .ok ex) : ex.prev = below := by
  rw [ProjectionExecutor.new] at projected
  obtain ⟨_,_,projected⟩ := exceptBind projected
  rw [← Except.ok.inj projected]

theorem beginThrows {σ : Type} {ex : SortExecutor σ} {s : SortState σ} {e : Fault} {u : σ}
    (thrown : ex.prev.beginTuple s.prev = .error e u) : ex.beginTuple fuel s = .error e ⟨u,[],0⟩ := by
  have failed : onPrev ex.prev.beginTuple {s with records := [],cursor := 0} = .error e ⟨u,[],0⟩ := zoomError thrown
  rw [SortExecutor.beginTuple,modifyBind,bindError failed]

theorem sortThrows {σ : Type} {child : AbstractExecutor σ} {below : AbstractExecutor (SortState σ)}
    (throws : ∀ s, ∃ e u, child.beginTuple s = .error e u) (converted : convertSortPlan child fuel sort = .ok below) :
    ∀ s, ∃ e u, below.beginTuple s = .error e u := by
  intro s
  obtain ⟨e,u,thrown⟩ := throws s.prev
  cases sort with
  | none =>
    cases Except.ok.inj converted
    have failed : onPrev child.beginTuple s = .error e {s with prev := u} := zoomError thrown
    exact ⟨e,_,failed⟩
  | some plan =>
    obtain ⟨ex,made,converted⟩ := exceptBind converted
    obtain ⟨_,_,made⟩ := exceptBind made
    cases Except.ok.inj converted
    cases Except.ok.inj made
    exact ⟨e,_,beginThrows thrown⟩

omit [FloatOps] in
theorem unshown {σ : Type} {ex : AbstractExecutor σ} {s s' : σ} {rows : List (List Bytes)}
    (thrown : ∃ e u, ex.beginTuple s = .error e u) : selectFrom floatText ex fuel s ≠ .ok rows s' := by
  obtain ⟨e,u,thrown⟩ := thrown
  intro shown
  rw [selectFrom,AbstractExecutor.drain,bindError (bindError thrown)] at shown
  cases shown

theorem throwsShown (fails : ∀ ex, convertPlanExecutor sm fuel plan = .ok ex → Throws ex) {ex : Executor}
    (started : Portal.start sm fuel ⟨plan,sort,selCols⟩ = .ok ex) {rows : List (List Bytes)} {s : ex.State} :
    selectFrom floatText ex.run fuel ex.init ≠ .ok rows s := by
  simp only [Portal.start,bind,Except.bind] at started
  split at started
  · cases started
  · rename_i rel made
    split at started
    · cases started
    · rename_i projected built
      cases Except.ok.inj started
      obtain ⟨below,converted,built⟩ := exceptBind built
      refine unshown ?_
      rw [ProjectionExecutor.executor,projectedPrev built]
      exact sortThrows (fails rel made) converted _

theorem keysFound {rel : Executor} {below : AbstractExecutor (SortState rel.State)} (shaped : ∀ u ∈ ts, Shaped u (tab u))
    (listed : query.tables.mapM sm.db.getTable = .ok (query.tables.map tab)) (cols : rel.run.cols = laidCols 0 (ts.map tab))
    (planned : generateSortPlan sm.db query.tables (.new orders value) = .ok sort)
    (converted : convertSortPlan rel.run fuel sort = .ok below) :
    ∃ keys, sortKeys sm.db query.tables orders = .ok keys ∧ ∀ key ∈ keys, Resolved tab ts key.col := by
  rw [generateSortPlan] at planned
  split at planned
  · rename_i plain
    have none : orders = [] := by simpa [Ast.SelectStmt.new] using (Bool.and_eq_true_iff.mp plain).1
    refine ⟨[],?_,by simp⟩
    rw [none,sortKeys,getAllColsListed listed]
    rfl
  · obtain ⟨keys,resolved,planned⟩ := exceptBind planned
    cases Except.ok.inj planned
    obtain ⟨ex,made,_⟩ := exceptBind converted
    obtain ⟨found,each,_⟩ := exceptBind made
    refine ⟨keys,resolved,fun key mem => ?_⟩
    obtain ⟨col,here⟩ := mapMAll each key mem
    rw [cols] at here
    exact foundResolved shaped here

omit [FloatOps] in
theorem plainResolved {tables : List String} (plain : ∀ u ∈ tables, ∀ col ∈ (tab u).cols, col.type ≠ .float)
    (resolved : ∀ key ∈ keys, Resolved tab tables key.col) : PlainKeys tab keys :=
  fun key mem col own => plain _ (resolved key mem).1 col (getColMem own).1

theorem enabledRight (enabled : methods.enableNestedloopJoin = true ∨ methods.enableSortmergeJoin = true)
    (tables : x.tabs = t :: ts) (usable : ∀ u ∈ x.tabs, Usable sm u (tab u) (fh u))
    (plain : ∀ u ∈ x.tabs, ∀ col ∈ (tab u).cols, col.type ≠ .float) (once : x.tabs.Nodup) (analyzed : doAnalyze sm.db x = .ok query)
    (compare : ∀ cond ∈ query.conds, TypesCompare tab cond) (sorted : x.sort = .new orders value)
    (answers : ∃ enough, ∀ fuel, enough ≤ fuel → select floatText sm methods x fuel = .ok a) :
    ∃ keys, ∃ fs : List (String → Bytes), fs.Perm (choices (rowsOf fh) tab x.tabs query.conds) ∧
      a = (query.cols.map fun c => c.colName,
        (upTo (narrow value) (fs.mergeSort (orderedBy tab keys))).map fun f => query.cols.map (cellOf tab f floatText)) := by
  obtain ⟨enough,answered⟩ := answers
  obtain ⟨sameTables,_,checked⟩ := analyzedColumns usable analyzed
  have listed := listedTables usable
  rw [tables] at usable plain once checked
  obtain ⟨_,_,plan,made,planned⟩ := makeOneRelPlanned enabled usable once (acceptedSane usable checked compare)
  have plans : makeOneRel sm.db methods query.tables query.conds = .ok plan := by rw [sameTables,tables]; exact made
  by_cases blocked : InTheWay fh tab t ts query.conds
  · obtain ⟨many,fails⟩ := planned.ends.1 blocked
    obtain ⟨_,_,ex,started,_,_,shown⟩ := selectSteps analyzed plans (answered (max enough many) (le_max_left ..))
    exact absurd shown (throwsShown (fails _ (le_max_right ..)) started)
  · have runs := planned.ends.2 blocked
    obtain ⟨many,run⟩ := runs
    obtain ⟨sort,sorts,ex,started,_⟩ := selectSteps analyzed plans (answered (max enough many) (le_max_left ..))
    obtain ⟨rel,cursor,_⟩ := run (max enough many) (le_max_right ..)
    obtain ⟨below,converted⟩ : ∃ below, convertSortPlan rel.run (max enough many) sort = .ok below := by
      simp only [Portal.start,cursor.made,bind,Except.bind] at started
      cases converted : convertSortPlan rel.run (max enough many) sort with
      | error e => simp only [converted] at started; cases started
      | ok below => exact ⟨below,rfl⟩
    have order := planned.joins.perm
    have shaped : ∀ u ∈ plan.tables, Shaped u (tab u) := fun u mem => (usable u (order.mem_iff.mp mem)).shaped
    rw [sorted] at sorts
    obtain ⟨keys,resolvedKeys,resolved⟩ := keysFound shaped (sameTables ▸ listed) cursor.cols sorts converted
    rw [sameTables,tables] at resolvedKeys
    have moved : ∀ key ∈ keys, Resolved tab (t :: ts) key.col := fun key mem =>
      ⟨order.mem_iff.mp (resolved key mem).1,(resolved key mem).2⟩
    obtain ⟨lots,answer⟩ := crossAnswer floatText planned ⟨many,run⟩ made tables analyzed sorted resolvedKeys moved
      (plainResolved plain moved)
    obtain ⟨fs,perm,shown⟩ := answer (max enough lots) (le_max_right ..)
    refine ⟨keys,fs,by rwa [tables],?_⟩
    exact Except.ok.inj ((answered _ (le_max_left ..)).symm.trans shown)

omit [FloatOps] in
theorem firstJoinOff (off : ¬(methods.enableNestedloopJoin = true ∨ methods.enableSortmergeJoin = true)) {plans : List ScanPlan}
    {cond : Condition} {j : Joining} {y : Joining × Plan} : firstJoin methods plans cond j ≠ .ok y := by
  obtain ⟨offN,offS⟩ := not_or.mp off
  intro joined
  rw [firstJoin,joinTag,if_neg offN,if_neg offS] at joined
  cases joined

omit [FloatOps] in
theorem makeOneRelOff {db : DbMeta} {tables : List String} {conds : List Condition}
    (off : ¬(methods.enableNestedloopJoin = true ∨ methods.enableSortmergeJoin = true))
    (made : makeOneRel db methods tables conds = .ok plan) : makeOneRel db {} tables conds = .ok plan := by
  rw [makeOneRel] at made ⊢
  obtain ⟨⟨plans,left⟩,scanned,made⟩ := exceptBind made
  rw [scanned]
  cases plans with
  | nil => cases made
  | cons x plans =>
    cases plans with
    | nil => exact made
    | cons y plans =>
      cases left with
      | nil => exact made
      | cons cond left =>
        obtain ⟨_,joined,_⟩ := exceptBind made
        exact absurd joined (firstJoinOff off)

theorem methodsAny (answered : select floatText sm methods x fuel = .ok a) :
    (methods.enableNestedloopJoin = true ∨ methods.enableSortmergeJoin = true) ∨
      ∀ fuel, select floatText sm methods x fuel = select floatText sm {} x fuel := by
  by_cases on : methods.enableNestedloopJoin = true ∨ methods.enableSortmergeJoin = true
  · exact .inl on
  · refine .inr fun fuel => ?_
    rw [select] at answered
    obtain ⟨query,analyzed,answered⟩ := exceptBind answered
    obtain ⟨_,generated,_⟩ := exceptBind answered
    obtain ⟨plan,made,_⟩ := exceptBind generated
    have same : generateSelectPlan sm.db methods query x.sort = generateSelectPlan sm.db {} query x.sort := by
      rw [generateSelectPlan,generateSelectPlan,made,makeOneRelOff on made]
    simp only [select,analyzed,bind,Except.bind,same]

theorem selectRight (tables : x.tabs ≠ []) (usable : ∀ u ∈ x.tabs, Usable sm u (tab u) (fh u))
    (plain : ∀ u ∈ x.tabs, ∀ col ∈ (tab u).cols, col.type ≠ .float) (once : x.tabs.Nodup)
    (analyzed : doAnalyze sm.db x = .ok query) (compare : ∀ cond ∈ query.conds, TypesCompare tab cond)
    (sorted : x.sort = .new orders value)
    (answers : ∃ enough, ∀ fuel, enough ≤ fuel → select floatText sm methods x fuel = .ok a) :
    ∃ keys, ∃ fs : List (String → Bytes), fs.Perm (choices (rowsOf fh) tab x.tabs query.conds) ∧
      a = (query.cols.map fun c => c.colName,
        (upTo (narrow value) (fs.mergeSort (orderedBy tab keys))).map fun f => query.cols.map (cellOf tab f floatText)) := by
  obtain ⟨t,ts,named⟩ := List.exists_cons_of_ne_nil tables
  obtain ⟨enough,answered⟩ := answers
  rcases methodsAny (answered enough (le_refl _)) with on | same
  · exact enabledRight on named usable plain once analyzed compare sorted ⟨enough,answered⟩
  · have on : ({} : JoinMethods).enableNestedloopJoin = true ∨ ({} : JoinMethods).enableSortmergeJoin = true := .inl rfl
    refine enabledRight on named usable plain once analyzed compare sorted ⟨enough,fun fuel many => ?_⟩
    rw [← same]
    exact answered fuel many

end Whole
end Rmdb.Planner
