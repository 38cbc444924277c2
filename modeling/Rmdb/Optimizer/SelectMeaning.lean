import Rmdb.Optimizer.SelectPlan

/-! What a `SELECT` answers: its cells for each choice of one record from every table that
satisfies the conditions, in the order of the keys and as far as the limit goes. -/
namespace Rmdb.Planner
open Lib Analyze Portal Plan Record QlManager SortExecutor

section Meaning
variable (tab : String → TabMeta) (f : String → Bytes)

def keyValue (c : TabCol) : List Int :=
  match (tab c.tabName).getCol c.colName with
  | .ok col => columnValue col (f c.tabName)
  | .error _ => []

def cellOf (floatText : UInt32 → Bytes) (c : TabCol) : Bytes :=
  match (tab c.tabName).getCol c.colName with
  | .ok col => cellText floatText col ((f c.tabName).drop col.offset)
  | .error _ => []

def orderedBy (keys : List SortKey) : (String → Bytes) → (String → Bytes) → Bool :=
  keysLe (fun c f => keyValue tab f c) (keys.map fun key => (key.col,key.isDesc))

end Meaning

def upTo {α : Type} (limit : Int) (xs : List α) : List α := if limit < 0 then xs else xs.take limit.toNat

def PlainKeys (tab : String → TabMeta) (keys : List SortKey) : Prop :=
  ∀ key ∈ keys, ∀ col, (tab key.col.tabName).getCol key.col.colName = .ok col → col.type ≠ .float

def Resolved (tab : String → TabMeta) (tables : List String) (c : TabCol) : Prop :=
  c.tabName ∈ tables ∧ ∃ col, (tab c.tabName).getCol c.colName = .ok col

section Columns
variable {tab : String → TabMeta} {f : String → Bytes} {ts : List String} {c : TabCol} {col : ColMeta} {k : Nat} {r : Bytes}
  {floatText : UInt32 → Bytes}

theorem ownResolved {u : String} (shaped : ∀ v ∈ ts, Shaped v (tab v)) (mem : u ∈ ts) (memCol : col ∈ (tab u).cols) :
    Resolved tab ts ⟨col.tabName,col.name⟩ := by
  rw [(shaped u mem).owned memCol]
  refine ⟨mem,?_⟩
  cases found : (tab u).getCol col.name with
  | ok other => exact ⟨other,rfl⟩
  | error e =>
    rw [TabMeta.getCol] at found
    split at found
    · cases found
    · rename_i none
      have absent := List.find?_eq_none.mp none col memCol
      simp at absent

theorem columnValueLocal (fixed : FixedLen col) (plain : col.type ≠ .float) :
    columnValue col r = columnValue {col with offset := 0} ((r.drop col.offset).take col.len) := by
  obtain ⟨_,_,type,len,_⟩ := col
  cases type <;> simp_all [FixedLen,columnValue,List.take_take]

theorem cellTextLocal (fixed : FixedLen col) : cellText floatText col r = cellText floatText col (r.take col.len) := by
  obtain ⟨_,_,type,len,_⟩ := col
  cases type <;> simp_all [FixedLen,cellText,List.take_take]

structure Laid (tab : String → TabMeta) (ts : List String) (c : TabCol) (col : ColMeta) (k : Nat) : Prop where
  own : (tab c.tabName).getCol c.colName = .ok col
  fixed : FixedLen col
  found : findColMeta (laidCols 0 (ts.map tab)) c = .ok {col with offset := k}
  inside : k+col.len ≤ totalSize tab ts
  field : ∀ f : String → Bytes, (∀ u ∈ ts, (f u).length = rowSize (tab u)) →
    ((layout ts f).drop k).take col.len = ((f c.tabName).drop col.offset).take col.len

theorem laidColumn (once : ts.Nodup) (shaped : ∀ u ∈ ts, Shaped u (tab u)) (resolved : Resolved tab ts c) :
    ∃ col k, Laid tab ts c col k := by
  obtain ⟨mem,col,own⟩ := resolved
  have memCol := (getColMem own).1
  have place (f : String → Bytes) (sized : ∀ u ∈ ts, (f u).length = rowSize (tab u)) := findInLayout once mem shaped sized own 0
  obtain ⟨front,back,whole,found⟩ := place (fun u => List.replicate (rowSize (tab u)) 0) fun u _ => List.length_replicate
  refine ⟨col,_,own,(shaped _ mem).fixed col memCol,found,?_,fun f sized => ?_⟩
  · have size := @layoutLength tab (fun u => List.replicate (rowSize (tab u)) 0) ts fun u _ => List.length_replicate
    have inside := (shaped _ mem).inside memCol
    rw [whole,List.length_append,List.length_append,List.length_replicate] at size
    omega
  · obtain ⟨front',back',whole',found'⟩ := place f sized
    have same := congrArg ColMeta.offset (Except.ok.inj (found.symm.trans found'))
    dsimp only at same
    rw [same,whole']
    exact layoutField (shaped _ mem) (sized _ mem) memCol front' back'

theorem Laid.value (laid : Laid tab ts c col k) (plain : col.type ≠ .float) (sized : ∀ u ∈ ts, (f u).length = rowSize (tab u)) :
    columnValue {col with offset := k} (layout ts f) = keyValue tab f c := by
  have fixed : FixedLen {col with offset := k} := laid.fixed
  rw [columnValueLocal fixed plain,keyValue,laid.own]
  dsimp only
  rw [laid.field f sized,← columnValueLocal laid.fixed plain]

theorem Laid.cell (laid : Laid tab ts c col k) (sized : ∀ u ∈ ts, (f u).length = rowSize (tab u)) {s : Selected} {row : Bytes}
    (source : s.prevCol = {col with offset := k}) (placed : ∃ j, s.currCol = {s.prevCol with offset := j})
    (field : (row.drop s.currCol.offset).take s.currCol.len = ProjectionExecutor.column (layout ts f) s) :
    cellText floatText s.currCol (row.drop s.currCol.offset) = cellOf tab f floatText c := by
  obtain ⟨j,there⟩ := placed
  have fixed : FixedLen s.currCol := by
    rw [there,source]
    exact laid.fixed
  rw [cellTextLocal fixed,field,ProjectionExecutor.column,source]
  dsimp only
  rw [laid.field f sized,cellOf,laid.own,there,source]
  dsimp only
  rw [cellTextLocal laid.fixed]
  rfl

end Columns

section Lists
variable {α β : Type}

theorem permMapped {g : α → β} {xs : List α} {ys : List β} (perm : ys.Perm (xs.map g)) :
    ∃ zs : List α, zs.Perm xs ∧ ys = zs.map g := by
  generalize made : xs.map g = mapped at perm
  induction perm generalizing xs with
  | nil => exact ⟨[],by rw [List.map_eq_nil_iff.mp made],rfl⟩
  | cons y _ ih =>
    obtain ⟨x,rest,rfl,rfl,same⟩ := List.map_eq_cons_iff.mp made
    obtain ⟨zs,later,rfl⟩ := ih same
    exact ⟨x :: zs,later.cons x,rfl⟩
  | swap y y' _ =>
    obtain ⟨x,rest,rfl,rfl,later⟩ := List.map_eq_cons_iff.mp made
    obtain ⟨x',rest,rfl,rfl,rfl⟩ := List.map_eq_cons_iff.mp later
    exact ⟨x' :: x :: rest,.swap ..,rfl⟩
  | trans _ _ ih ih' =>
    obtain ⟨zs,first,rfl⟩ := ih' made
    obtain ⟨zs',second,rfl⟩ := ih rfl
    exact ⟨zs',second.trans first,rfl⟩

theorem mapMEach {f : α → Except Fault β} {xs : List α} (each : ∀ x ∈ xs, ∃ y, f x = .ok y) :
    ∃ ys, xs.mapM f = .ok ys ∧ List.Forall₂ (fun x y => f x = .ok y) xs ys := by
  induction xs with
  | nil => exact ⟨[],rfl,.nil⟩
  | cons x xs ih =>
    obtain ⟨y,here⟩ := each x List.mem_cons_self
    obtain ⟨ys,rest,later⟩ := ih fun z mem => each z (List.mem_cons_of_mem x mem)
    refine ⟨y :: ys,?_,.cons here later⟩
    rw [List.mapM_cons,here]
    simp only [bind,Except.bind,rest]
    rfl

theorem cutOffMapped {g : α → Bytes} {limit : Int} {xs : List α} : cutOff limit (xs.map g) = (upTo limit xs).map g := by
  rw [cutOff,upTo]
  split
  · rfl
  · exact List.map_take.symm

theorem upToSubset {limit : Int} {xs : List α} {x : α} (mem : x ∈ upTo limit xs) : x ∈ xs := by
  rw [upTo] at mem
  split at mem
  · exact mem
  · exact List.mem_of_mem_take mem

theorem upToShorter (limit : Int) (xs : List α) : (upTo limit xs).length ≤ xs.length := by
  rw [upTo]
  split
  · exact le_refl _
  · exact List.length_take_le' _ _

end Lists

section Order
variable {tab : String → TabMeta} {f g : String → Bytes} {ts : List String} {keys : List SortKey} {cols : List ColMeta}

theorem sortLaid (once : ts.Nodup) (shaped : ∀ u ∈ ts, Shaped u (tab u)) (resolved : ∀ key ∈ keys, Resolved tab ts key.col)
    (plainKeys : PlainKeys tab keys)
    (found : List.Forall₂ (fun key col => findColMeta (laidCols 0 (ts.map tab)) key.col = .ok col) keys cols) :
    (∀ key ∈ keys.zip cols, key.2.type ≠ .float) ∧
      ((∀ u ∈ ts, (f u).length = rowSize (tab u)) → (∀ u ∈ ts, (g u).length = rowSize (tab u)) →
        sortOrder (keys.zip cols) (layout ts f) (layout ts g) = orderedBy tab keys f g) := by
  induction found with
  | nil => exact ⟨by simp,fun _ _ => rfl⟩
  | @cons key col keys cols here _ ih =>
    obtain ⟨plain,order⟩ := ih (fun x mem => resolved x (List.mem_cons_of_mem key mem))
      fun x mem => plainKeys x (List.mem_cons_of_mem key mem)
    obtain ⟨own,k,laid⟩ := laidColumn once shaped (resolved key List.mem_cons_self)
    obtain rfl := Except.ok.inj (laid.found.symm.trans here)
    have first : own.type ≠ .float := plainKeys key List.mem_cons_self own laid.own
    refine ⟨fun x mem => ?_,fun sizedF sizedG => ?_⟩
    · rw [List.zip_cons_cons] at mem
      rcases List.mem_cons.mp mem with rfl | later
      · exact first
      · exact plain x later
    · have rest := order sizedF sizedG
      rw [sortOrder,orderedBy] at rest ⊢
      rw [List.zip_cons_cons,List.map_cons,List.map_cons,keysLe,keysLe,laid.value first sizedF,laid.value first sizedG,rest]

end Order

section Nodes
variable [FloatOps] {tab : String → TabMeta} {fh : String → RmFileHandle} {ts : List String} {keys : List SortKey}
  {sm : SmManager} {selCols : List TabCol} {f : String → Bytes} {floatText : UInt32 → Bytes}

omit [FloatOps] in
theorem cellsShown {selected : List Selected} (once : ts.Nodup) (shaped : ∀ u ∈ ts, Shaped u (tab u))
    (sized : ∀ u ∈ ts, (f u).length = rowSize (tab u)) (resolved : ∀ c ∈ selCols, Resolved tab ts c) {row : Bytes}
    (each : List.Forall₂ (fun c s => findColMeta (laidCols 0 (ts.map tab)) c = .ok s.prevCol) selCols selected)
    (placed : ∀ s ∈ selected, (∃ j, s.currCol = {s.prevCol with offset := j}) ∧
      (row.drop s.currCol.offset).take s.currCol.len = ProjectionExecutor.column (layout ts f) s) :
    (selected.map Selected.currCol).map (fun col => cellText floatText col (row.drop col.offset)) =
      selCols.map (cellOf tab f floatText) := by
  induction each with
  | nil => rfl
  | @cons c s selCols selected here _ ih =>
    obtain ⟨col,k,laid⟩ := laidColumn once shaped (resolved c List.mem_cons_self)
    obtain ⟨place,field⟩ := placed s List.mem_cons_self
    have source := Except.ok.inj (here.symm.trans laid.found)
    rw [List.map_cons,List.map_cons,List.map_cons,laid.cell sized source place field,
      ih (fun x mem => resolved x (List.mem_cons_of_mem c mem)) fun x mem => placed x (List.mem_cons_of_mem s mem)]

omit [FloatOps] in
theorem abutMoved {k : Nat} {selected : List Selected} (abut : ProjectionExecutor.Abut k selected) :
    ∀ s ∈ selected, ∃ j, s.currCol = {s.prevCol with offset := j} := by
  induction selected generalizing k with
  | nil => simp
  | cons first selected ih =>
    intro s mem
    rcases List.mem_cons.mp mem with rfl | later
    · exact ⟨k,abut.1⟩
    · exact ih abut.2 s later

omit [FloatOps] in
theorem foundInside {selected : List Selected} (once : ts.Nodup) (shaped : ∀ u ∈ ts, Shaped u (tab u))
    (resolved : ∀ c ∈ selCols, Resolved tab ts c)
    (each : List.Forall₂ (fun c s => findColMeta (laidCols 0 (ts.map tab)) c = .ok s.prevCol) selCols selected) :
    ∀ s ∈ selected, s.prevCol.offset+s.prevCol.len ≤ totalSize tab ts := by
  induction each with
  | nil => simp
  | @cons c s selCols selected here _ ih =>
    intro x mem
    rcases List.mem_cons.mp mem with rfl | later
    · obtain ⟨col,k,laid⟩ := laidColumn once shaped (resolved c List.mem_cons_self)
      rw [← Except.ok.inj (laid.found.symm.trans here)]
      exact laid.inside
    · exact ih (fun y memY => resolved y (List.mem_cons_of_mem c memY)) x later

theorem sortRows {ex : Executor} {fs : List (String → Bytes)} {orders : List Ast.OrderBy} {db : DbMeta} {tables : List String}
    (once : ts.Nodup) (shaped : ∀ u ∈ ts, Shaped u (tab u)) (cols : ex.run.cols = laidCols 0 (ts.map tab))
    (sized : ∀ f ∈ fs, ∀ u ∈ ts, (f u).length = rowSize (tab u)) (yields : Yields ex (fs.map (layout ts)))
    (resolvedKeys : sortKeys db tables orders = .ok keys) (resolved : ∀ key ∈ keys, Resolved tab ts key.col)
    (plainKeys : PlainKeys tab keys) (value : Int) {fuel : Nat} (enough : fs.length < fuel) : ∃ sort below stands, generateSortPlan db tables (.new orders value) = .ok sort ∧
      convertSortPlan ex.run fuel sort = .ok below ∧ below.cols = ex.run.cols ∧ below.tupleLen = ex.run.tupleLen ∧
      below.Restarts (fun _ => True) stands ((upTo (narrow value) (fs.mergeSort (orderedBy tab keys))).map (layout ts)) := by
  obtain ⟨stands,restarts⟩ := yields
  have found : ∀ key ∈ keys, ∃ col, findColMeta (laidCols 0 (ts.map tab)) key.col = .ok col := fun key mem => by
    obtain ⟨col,k,laid⟩ := laidColumn once shaped (resolved key mem)
    exact ⟨_,laid.found⟩
  obtain ⟨keyCols,all,each⟩ := mapMEach found
  rw [← cols] at all
  obtain ⟨sort,below,ordered,stands',planned,made,belowCols,belowLen,result,perm,runs⟩ := plannedRows restarts resolvedKeys all
    (show (fs.map (layout ts)).length < fuel by rwa [List.length_map]) value
  refine ⟨sort,below,stands',planned,made,belowCols,belowLen,?_⟩
  have plain := (sortLaid (f := fun _ => []) (g := fun _ => []) once shaped resolved plainKeys each).1
  rw [sortedMerge plain restarts.size,Except.ok.injEq] at result
  rw [← result,limitedCutOff] at runs
  have merged : (fs.map (layout ts)).mergeSort (sortOrder (keys.zip keyCols)) =
      (fs.mergeSort (orderedBy tab keys)).map (layout ts) :=
    (List.map_mergeSort fun f memF g memG => ((sortLaid once shaped resolved plainKeys each).2 (sized f memF) (sized g memG)).symm).symm
  dsimp only at runs
  rwa [merged,cutOffMapped] at runs

end Nodes

section Whole
variable [FloatOps] {sm : SmManager} {tab : String → TabMeta} {fh : String → RmFileHandle} {t : String} {ts : List String}
  {x : Ast.Select} {query : Query} {methods : JoinMethods} {orders : List Ast.OrderBy} {keys : List SortKey}

theorem analyzedColumns (usable : ∀ u ∈ x.tabs, Usable sm u (tab u) (fh u)) (analyzed : doAnalyze sm.db x = .ok query) :
    query.tables = x.tabs ∧ (∀ c ∈ query.cols, Resolved tab x.tabs c) ∧ checkClause sm.db x.tabs x.conds = .ok query.conds := by
  obtain ⟨_,_,analyzed⟩ := exceptBind analyzed
  obtain ⟨allCols,whole,analyzed⟩ := exceptBind analyzed
  obtain ⟨cols,resolved,analyzed⟩ := exceptBind analyzed
  obtain ⟨conds,checked,analyzed⟩ := exceptBind analyzed
  cases Except.ok.inj analyzed
  cases Except.ok.inj ((getAllColsListed (listedTables usable)).symm.trans whole)
  have known {col : ColMeta} (mem : col ∈ (x.tabs.map tab).flatMap TabMeta.cols) : Resolved tab x.tabs ⟨col.tabName,col.name⟩ := by
    obtain ⟨_,memTab,memCol⟩ := List.mem_flatMap.mp mem
    obtain ⟨u,memU,rfl⟩ := List.mem_map.mp memTab
    exact ownResolved (fun v memV => (usable v memV).shaped) memU memCol
  refine ⟨rfl,fun c mem => ?_,checked⟩
  rw [targetList] at resolved
  split at resolved
  · cases Except.ok.inj resolved
    obtain ⟨col,memCol,rfl⟩ := List.mem_map.mp mem
    exact known memCol
  · obtain ⟨given,_,here⟩ := mapMOk resolved c mem
    obtain ⟨col,memCol,tabled,named⟩ := checkColumnMem here
    have same : (⟨col.tabName,col.name⟩ : TabCol) = c := by rw [tabled,named]
    exact same ▸ known memCol

theorem Planned.chosen {conds : List Condition} {scan : ScanPlan} {plans : List ScanPlan} {plan : Plan}
    (planned : Planned sm tab fh t ts conds scan plans plan) (runs : RunsCross sm tab fh (t :: ts) conds plan) :
    ∃ enough, ∀ fuel, enough ≤ fuel → ∃ rel, ∃ fs : List (String → Bytes), Cursor sm tab fuel plan rel ∧
      fs.Perm (choices (rowsOf fh) tab (t :: ts) conds) ∧ Yields rel (fs.map (layout plan.tables)) ∧
      ∀ f ∈ fs, ∀ u ∈ plan.tables, (f u).length = rowSize (tab u) := by
  obtain ⟨enough,run⟩ := runs
  refine ⟨enough,fun fuel many => ?_⟩
  obtain ⟨rel,cursor,out,perm,yields⟩ := run fuel many
  have chosen : crossRows (rowsOf fh) tab (t :: ts) conds plan.tables =
      (choices (rowsOf fh) tab (t :: ts) conds).map (layout plan.tables) := by
    rw [crossRows,choices]
    refine congrArg (List.map _) (List.filter_congr fun f mem => ?_)
    exact planned.crossTests ((assignmentsMem planned.once).mp mem).1
  rw [chosen] at perm
  obtain ⟨fs,same,rfl⟩ := permMapped perm
  refine ⟨rel,fs,cursor,same,yields,fun f mem u memU => ?_⟩
  have inside := ((choicesMem planned.once).mp (same.mem_iff.mp mem)).1.1
  exact planned.sized inside u (planned.joins.perm.mem_iff.mp memU)

theorem crossAnswer {scan : ScanPlan} {plans : List ScanPlan} {plan : Plan} (floatText : UInt32 → Bytes)
    (planned : Planned sm tab fh t ts query.conds scan plans plan) (runs : RunsCross sm tab fh (t :: ts) query.conds plan)
    (made : makeOneRel sm.db methods (t :: ts) query.conds = .ok plan) (tables : x.tabs = t :: ts)
    (analyzed : doAnalyze sm.db x = .ok query) {value : Int} (sorted : x.sort = .new orders value)
    (resolvedKeys : sortKeys sm.db (t :: ts) orders = .ok keys) (resolved : ∀ key ∈ keys, Resolved tab (t :: ts) key.col)
    (plainKeys : PlainKeys tab keys) : ∃ enough, ∀ fuel, enough ≤ fuel →
      ∃ fs : List (String → Bytes), fs.Perm (choices (rowsOf fh) tab (t :: ts) query.conds) ∧
        select floatText sm methods x fuel = .ok (query.cols.map fun c => c.colName,
          (upTo (narrow value) (fs.mergeSort (orderedBy tab keys))).map fun f => query.cols.map (cellOf tab f floatText)) := by
  have once := planned.once
  have usable := planned.usable
  obtain ⟨sameTables,columns,_⟩ := analyzedColumns (tables ▸ usable) analyzed
  rw [tables] at columns
  obtain ⟨enough,run⟩ := planned.chosen runs
  refine ⟨max enough ((choices (rowsOf fh) tab (t :: ts) query.conds).length+1),fun fuel many => ?_⟩
  obtain ⟨rel,fs,cursor,same,yields,sized⟩ := run fuel (max_le_iff.mp many).1
  have order := planned.joins.perm
  have onceP := order.nodup_iff.mpr once
  have shaped : ∀ u ∈ plan.tables, Shaped u (tab u) := fun u mem => (usable u (order.mem_iff.mp mem)).shaped
  have moved {c : TabCol} (here : Resolved tab (t :: ts) c) : Resolved tab plan.tables c := ⟨order.mem_iff.mpr here.1,here.2⟩
  obtain ⟨sort,below,stands,planSort,madeSort,belowCols,belowLen,restarts⟩ := sortRows onceP shaped cursor.cols
    sized yields resolvedKeys (fun key mem => moved (resolved key mem)) plainKeys value
    (show fs.length < fuel by rw [same.length_eq]; exact (max_le_iff.mp many).2)
  have found : ∀ c ∈ query.cols, ∃ col, findColMeta below.cols c = .ok col := fun c mem => by
    obtain ⟨col,k,laid⟩ := laidColumn onceP shaped (moved (columns c mem))
    exact ⟨_,by rw [belowCols,cursor.cols]; exact laid.found⟩
  obtain ⟨selected,len,laid⟩ := ProjectionExecutor.selectMade found 0
  have projected : ProjectionExecutor.new below query.cols = .ok ⟨below,selected,len⟩ := by
    rw [ProjectionExecutor.new,laid]
    rfl
  obtain ⟨abut,_,each⟩ := ProjectionExecutor.selectAbut laid
  rw [belowCols,cursor.cols] at each
  have inside := foundInside onceP shaped (fun c mem => moved (columns c mem)) each
  have runs := ProjectionExecutor.projectionRestarts restarts projected (by rw [belowLen,cursor.len]; exact inside)
  have shown : ∀ f ∈ upTo (narrow value) (fs.mergeSort (orderedBy tab keys)), f ∈ fs := fun f mem =>
    List.mem_mergeSort.mp (upToSubset mem)
  have fits : ∀ f ∈ fs, ∀ s ∈ selected, s.prevCol.offset+s.prevCol.len ≤ (layout plan.tables f).length := fun f mem s memS => by
    rw [layoutLength (sized f mem)]
    exact inside s memS
  have short : (((upTo (narrow value) (fs.mergeSort (orderedBy tab keys))).map (layout plan.tables)).map
      (ProjectionExecutor.project selected)).length < fuel := by
    have fewer := upToShorter (narrow value) (fs.mergeSort (orderedBy tab keys))
    have count := same.length_eq
    rw [List.length_mergeSort] at fewer
    rw [List.length_map,List.length_map]
    have := (max_le_iff.mp many).2
    omega
  obtain ⟨s,drained,_⟩ := @AbstractExecutor.drainRun _ _ _ _ _ (⟨rel.init,[],0⟩ : SortState rel.State) runs trivial fuel short
  have started : Portal.start sm fuel ⟨plan,sort,query.cols⟩ =
      .ok ⟨_,⟨rel.init,[],0⟩,ProjectionExecutor.executor ⟨below,selected,len⟩⟩ := by
    simp only [Portal.start,cursor.made,madeSort,projected,bind,Except.bind]
  have generated : generateSelectPlan sm.db methods query x.sort = .ok ⟨plan,sort,query.cols⟩ := by
    simp only [generateSelectPlan,sameTables,tables,made,sorted,planSort,bind,Except.bind]
  have printed : selectFrom floatText (ProjectionExecutor.executor ⟨below,selected,len⟩) fuel ⟨rel.init,[],0⟩ =
      .ok ((upTo (narrow value) (fs.mergeSort (orderedBy tab keys))).map fun f => query.cols.map (cellOf tab f floatText)) s := by
    rw [selectFrom,bindEq drained,pureRun,List.map_map,List.map_map]
    refine congrArg (EStateM.Result.ok · s) (List.map_congr_left fun f mem => ?_)
    have here := shown f mem
    refine cellsShown onceP shaped (sized f here) (fun c memC => moved (columns c memC)) each
      fun col memCol => ⟨abutMoved abut col memCol,?_⟩
    exact @ProjectionExecutor.projectColumn selected _ (fits f here) [] abut col memCol
  refine ⟨fs,same,?_⟩
  simp only [select,analyzed,generated,started,bind,Except.bind,evalOk printed]

theorem selectMeaning (floatText : UInt32 → Bytes)
    (enabled : methods.enableNestedloopJoin = true ∨ methods.enableSortmergeJoin = true) (tables : x.tabs = t :: ts)
    (usable : ∀ u ∈ x.tabs, Usable sm u (tab u) (fh u)) (once : x.tabs.Nodup) (analyzed : doAnalyze sm.db x = .ok query)
    (compare : ∀ cond ∈ query.conds, TypesCompare tab cond) (placed : ∀ cond ∈ query.conds, ¬Misplaced t cond) {value : Int}
    (sorted : x.sort = .new orders value) (resolvedKeys : sortKeys sm.db x.tabs orders = .ok keys)
    (resolved : ∀ key ∈ keys, Resolved tab x.tabs key.col) (plainKeys : PlainKeys tab keys) : ∃ enough, ∀ fuel, enough ≤ fuel →
      ∃ fs : List (String → Bytes), fs.Perm (choices (rowsOf fh) tab x.tabs query.conds) ∧
        select floatText sm methods x fuel = .ok (query.cols.map fun c => c.colName,
          (upTo (narrow value) (fs.mergeSort (orderedBy tab keys))).map fun f => query.cols.map (cellOf tab f floatText)) := by
  obtain ⟨_,_,checked⟩ := analyzedColumns usable analyzed
  rw [tables] at usable once resolvedKeys resolved checked
  obtain ⟨_,_,plan,made,planned⟩ := makeOneRelPlanned enabled usable once (acceptedSane usable checked compare)
  rw [tables]
  exact crossAnswer floatText planned (planned.placedRuns placed) made tables analyzed sorted resolvedKeys resolved plainKeys

end Whole

section Pair

def joinedPair : Ast.Select := ⟨[⟨"u","b"⟩,⟨"t","a"⟩],["t","u"],[⟨⟨"t","a"⟩,.eq,.col ⟨"u","a"⟩⟩],.new [⟨⟨"u","b"⟩,.desc⟩] 2⟩

def pick (inT inU : Bytes) : String → Bytes := Function.update (Function.update (fun _ => default) "u" inU) "t" inT

def met : List (String → Bytes) :=
  [pick (pairRow 2 6) (pairRow 2 7),pick (pairRow 1 5) (pairRow 1 3),pick (pairRow 2 6) (pairRow 2 2)]

theorem metChosen {fh : String → RmFileHandle} (rows : ∀ u, (tableRows (fh u)).Perm (pairRows u)) :
    (@choices .whole (rowsOf fh) pairTab ["t","u"] joinedPair.conds).Perm met := by
  let _ := FloatOps.whole
  have there : choices pairRows pairTab ["t","u"] joinedPair.conds =
      [pick (pairRow 1 5) (pairRow 1 3),pick (pairRow 2 6) (pairRow 2 7),pick (pairRow 2 6) (pairRow 2 2)] := by rfl
  have same : (choices (rowsOf fh) pairTab ["t","u"] joinedPair.conds).Perm (choices pairRows pairTab ["t","u"] joinedPair.conds) :=
    (assignmentsRows fun u _ => rows u).filter _
  rw [there] at same
  exact same.trans (.swap ..)

def keyB : SortKey := ⟨⟨"u","b"⟩,true⟩

theorem metStrict : met.Pairwise fun a b => orderedBy pairTab [keyB] a b = true ∧ orderedBy pairTab [keyB] b a = false := by
  refine .cons ?_ (.cons ?_ (List.pairwise_singleton ..)) <;> simp only [List.forall_mem_cons] <;> decide

theorem keyBResolved : sortKeys pairDb ["t","u"] [⟨⟨"u","b"⟩,.desc⟩] = .ok [keyB] ∧
    ∀ key ∈ [keyB], Resolved pairTab ["t","u"] key.col := by
  refine ⟨by decide +kernel,fun key mem => ?_⟩
  rw [List.mem_singleton.mp mem]
  exact ⟨by decide,_,rfl⟩

theorem joinedCompare : ∀ cond ∈ joinedPair.conds, TypesCompare pairTab cond := by
  intro cond mem c lhs rhs column left right
  rw [List.mem_singleton.mp mem] at column left
  cases column
  cases Except.ok.inj (show Except.ok _ = Except.ok lhs from left)
  cases Except.ok.inj (show Except.ok _ = Except.ok rhs from right)
  rfl

theorem joinedPairAnswer : ∃ (fh : String → RmFileHandle) (enough : Nat), (∀ u, (tableRows (fh u)).Perm (pairRows u)) ∧
    ∀ fuel, enough ≤ fuel → @select .whole (fun _ => []) (pairSm fh) {} joinedPair fuel =
      .ok (["b","a"],[[text "7",text "2"],[text "3",text "1"]]) := by
  let _ := FloatOps.whole
  obtain ⟨fh,rows,usable⟩ := pairStored
  have analyzed : doAnalyze pairDb joinedPair = .ok ⟨joinedPair.tabs,joinedPair.cols,joinedPair.conds⟩ := by decide +kernel
  have placed : ∀ cond ∈ joinedPair.conds, ¬Misplaced "t" cond := by decide
  have plainKeys : PlainKeys pairTab [keyB] := by
    intro key mem col own
    rw [List.mem_singleton.mp mem] at own
    cases Except.ok.inj (show Except.ok _ = Except.ok col from own)
    decide
  have enabled : ({} : JoinMethods).enableNestedloopJoin = true ∨ ({} : JoinMethods).enableSortmergeJoin = true := .inl rfl
  obtain ⟨enough,run⟩ := @selectMeaning _ (pairSm fh) pairTab fh "t" ["u"] joinedPair _ {} _ _ (fun _ => []) enabled rfl
    usable (by decide) analyzed joinedCompare placed 2 rfl keyBResolved.1 keyBResolved.2 plainKeys
  refine ⟨fh,enough,rows,fun fuel many => ?_⟩
  obtain ⟨fs,perm,answer⟩ := run fuel many
  have order : fs.mergeSort (orderedBy pairTab [keyB]) = met := mergeSortKeys (perm.trans (metChosen rows)) metStrict
  rw [answer,order]
  rfl

end Pair

end Rmdb.Planner
