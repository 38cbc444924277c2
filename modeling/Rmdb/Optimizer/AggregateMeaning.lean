import Rmdb.Optimizer.AggregateSelect
import Rmdb.Optimizer.SelectAnswer

/-! What a `SELECT` with aggregates answers. The limit cuts off rows under the aggregate node: the
answer is over all choices of one record from every table that satisfy the conditions exactly where
the rows that are left are enough for it. -/
namespace Rmdb.Planner
open Lib Analyze Portal Plan Record QlManager SortExecutor

section Meaning
variable [FloatOps] (tab : String → TabMeta)

def fieldIn (c : TabCol) (col : ColMeta) (f : String → Bytes) : Bytes := ((f c.tabName).drop col.offset).take col.len

def Best (agg : AggregateExpr) (fs : List (String → Bytes)) (best : Bytes) : Prop :=
  ∃ col, (tab agg.col.tabName).getCol agg.col.colName = .ok col ∧ best ∈ fs.map (fieldIn agg.col col) ∧
    ∀ f ∈ fs, ∃ cmp, compareRawData (fieldIn agg.col col f) col.type col.len best col.type col.len = .ok cmp ∧
      if agg.type = .max then cmp ≤ 0 else 0 ≤ cmp

def Shows (agg : AggregateExpr) (fs : List (String → Bytes)) (shown : Bytes) : Prop :=
  match agg.type with
  | .count => leInt shown = fs.length
  | .sum => True
  | .max => fs ≠ [] → Best tab agg fs shown
  | .min => fs ≠ [] → Best tab agg fs shown

def Candidate (agg : AggregateExpr) (fs : List (String → Bytes)) (value : Bytes) : Prop :=
  ∃ col, (tab agg.col.tabName).getCol agg.col.colName = .ok col ∧
    value ∈ if fs = [] then [List.replicate col.len 0] else fs.map (fieldIn agg.col col)

/- The choices that the limit leaves are enough for the aggregate over all of them: all of them for
a `COUNT`, for `MIN` and `MAX` one with the best value. -/
def Spared (agg : AggregateExpr) (limit : Int) (fs ordered : List (String → Bytes)) : Prop :=
  match agg.type with
  | .count => (limit < 0 ∨ (fs.length : Int) ≤ limit) ∧ fs.length < 2^63
  | .sum => True
  | .max => fs ≠ [] → ∃ value, Candidate tab agg (upTo limit ordered) value ∧ Best tab agg fs value
  | .min => fs ≠ [] → ∃ value, Candidate tab agg (upTo limit ordered) value ∧ Best tab agg fs value

def keyBefore : List SortKey → (String → Bytes) → (String → Bytes) → Except Fault Bool
  | [],_,_ => .ok false
  | key :: keys,f,g => do
    let lhs ← fieldOf tab f key.col
    let rhs ← fieldOf tab g key.col
    let cmp ← compareRawData lhs.2 lhs.1 lhs.2.length rhs.2 rhs.1 rhs.2.length
    if cmp = 0 then keyBefore keys f g else .ok (if key.isDesc then decide (cmp > 0) else decide (cmp < 0))

end Meaning

section Statement
variable [FloatOps]

/- The choices as the joins of the plan yield them. -/
def Joined (sm : SmManager) (methods : JoinMethods) (tables : List String) (conds : List Condition) (fuel : Nat)
    (fs : List (String → Bytes)) : Prop :=
  ∃ plan rel s, makeOneRel sm.db methods tables conds = .ok plan ∧ convertPlanExecutor sm fuel plan = .ok rel ∧
    rel.run.drain fuel rel.init = .ok (fs.map (layout plan.tables)) s

end Statement

section Columns
variable {tab : String → TabMeta} {ts : List String} {c : TabCol} {col : ColMeta} {k : Nat} {f g : String → Bytes}

theorem laidInside (shaped : ∀ u ∈ ts, Shaped u (tab u)) (mem : col ∈ laidCols k (ts.map tab)) :
    col.offset+col.len ≤ k+totalSize tab ts := by
  induction ts generalizing k with
  | nil => cases mem
  | cons u ts ih =>
    rw [List.map_cons,laidCols] at mem
    have total : totalSize tab (u :: ts) = rowSize (tab u)+totalSize tab ts := rfl
    rcases List.mem_append.mp mem with here | later
    · obtain ⟨own,inside,rfl⟩ := List.mem_map.mp here
      have bound := (shaped u List.mem_cons_self).inside inside
      dsimp only
      omega
    · have bound : col.offset+col.len ≤ k+rowSize (tab u)+totalSize tab ts :=
        ih (fun v memV => shaped v (List.mem_cons_of_mem u memV)) later
      omega

theorem fieldLength (shaped : ∀ u ∈ ts, Shaped u (tab u)) (sized : ∀ u ∈ ts, (f u).length = rowSize (tab u)) (mem : c.tabName ∈ ts)
    (own : (tab c.tabName).getCol c.colName = .ok col) : (fieldIn c col f).length = col.len := by
  have bound := (shaped _ mem).inside (getColMem own).1
  rw [fieldIn,List.length_take,List.length_drop,sized _ mem]
  omega

variable [FloatOps]

theorem compareFields {a b : Bytes} {lhs rhs : ColMeta} (fixedL : FixedLen lhs) (fixedR : FixedLen rhs)
    {x y : Bytes} (left : a.take lhs.len = x.take lhs.len) (right : b.take rhs.len = y.take rhs.len) :
    compareRawData a lhs.type lhs.len b rhs.type rhs.len = compareRawData x lhs.type lhs.len y rhs.type rhs.len := by
  rw [compareLocal fixedL fixedR,left,right,← compareLocal fixedL fixedR]

theorem precedesLaid {keys : List SortKey} {cols : List ColMeta} (once : ts.Nodup) (shaped : ∀ u ∈ ts, Shaped u (tab u))
    (resolved : ∀ key ∈ keys, Resolved tab ts key.col)
    (found : List.Forall₂ (fun key col => findColMeta (laidCols 0 (ts.map tab)) key.col = .ok col) keys cols)
    (sizedF : ∀ u ∈ ts, (f u).length = rowSize (tab u)) (sizedG : ∀ u ∈ ts, (g u).length = rowSize (tab u)) :
    precedes (keys.zip cols) (layout ts f) (layout ts g) = keyBefore tab keys f g := by
  induction found with
  | nil => rfl
  | @cons key col keys cols here _ ih =>
    obtain ⟨own,k,laid⟩ := laidColumn once shaped (resolved key List.mem_cons_self)
    obtain rfl := Except.ok.inj (laid.found.symm.trans here)
    have mem := (resolved key List.mem_cons_self).1
    have lengthF := fieldLength shaped sizedF mem laid.own
    have lengthG := fieldLength shaped sizedG mem laid.own
    have compared : compareRawData ((layout ts f).drop k) own.type own.len ((layout ts g).drop k) own.type own.len =
        compareRawData (fieldIn key.col own f) own.type (fieldIn key.col own f).length (fieldIn key.col own g) own.type
          (fieldIn key.col own g).length := by
      rw [lengthF,lengthG]
      refine compareFields laid.fixed laid.fixed ?_ ?_
      · rw [laid.field f sizedF,fieldIn,List.take_take,min_self]
      · rw [laid.field g sizedG,fieldIn,List.take_take,min_self]
    have rest := ih fun x memX => resolved x (List.mem_cons_of_mem key memX)
    rw [List.zip_cons_cons,precedes,keyBefore,fieldOf,fieldOf,laid.own]
    dsimp only [bind,Except.bind]
    rw [compared,rest]
    rfl

theorem sortedLaid {σ : Type} {child : AbstractExecutor σ} {keys : List SortKey} {cols : List ColMeta} {limit : Int}
    {fs : List (String → Bytes)} {rows : List Bytes} (once : ts.Nodup) (shaped : ∀ u ∈ ts, Shaped u (tab u))
    (resolved : ∀ key ∈ keys, Resolved tab ts key.col)
    (found : List.Forall₂ (fun key col => findColMeta (laidCols 0 (ts.map tab)) key.col = .ok col) keys cols)
    (sized : ∀ f ∈ fs, ∀ u ∈ ts, (f u).length = rowSize (tab u))
    (result : sorted ⟨child,keys,cols,limit⟩ (fs.map (layout ts)) = .ok rows) :
    ∃ ordered, stableSort (keyBefore tab keys) fs = .ok ordered ∧ rows = ordered.map (layout ts) := by
  rw [sorted] at result
  split at result
  · rename_i none
    cases Except.ok.inj result
    have empty : keys = [] := List.isEmpty_iff.mp none
    subst empty
    exact ⟨fs,stableSortLevel (fun _ _ => rfl) fs,rfl⟩
  · rw [stableSortMapped fun f memF g memG => precedesLaid once shaped resolved found (sized f memF) (sized g memG)] at result
    cases ordered : stableSort (keyBefore tab keys) fs with
    | error e => rw [ordered] at result; cases result
    | ok gs =>
      rw [ordered] at result
      exact ⟨gs,rfl,(Except.ok.inj result).symm⟩

end Columns

section Slots
variable [FloatOps] {tab : String → TabMeta} {ts : List String} {agg : AggregateExpr} {slot : AggSlot} {col : ColMeta} {k : Nat}
  {fs gs : List (String → Bytes)} {b : Bytes}

structure Reads (tab : String → TabMeta) (ts : List String) (agg : AggregateExpr) (slot : AggSlot) : Prop where
  same : slot.agg = agg
  width : agg.type = .max ∨ agg.type = .min → slot.outCol.len = slot.sourceCol.len
  sums : agg.type = .sum → isNumericType slot.sourceCol.type = true
  column : agg.type = .count ∨ ∃ col k, Laid tab ts agg.col col k ∧ slot.sourceCol = {col with offset := k}

omit [FloatOps] in
theorem columnLaid (laid : Laid tab ts agg.col col k) (source : slot.sourceCol = {col with offset := k})
    (sized : ∀ f ∈ fs, ∀ u ∈ ts, (f u).length = rowSize (tab u)) :
    (fs.map (layout ts)).map slot.columnIn = fs.map (fieldIn agg.col col) := by
  rw [List.map_map]
  refine List.map_congr_left fun f mem => ?_
  rw [Function.comp_apply,AggSlot.columnIn,source]
  exact laid.field f (sized f mem)

theorem extremeLaid (laid : Laid tab ts agg.col col k) (source : slot.sourceCol = {col with offset := k}) (same : slot.agg = agg)
    (sized : ∀ f ∈ fs, ∀ u ∈ ts, (f u).length = rowSize (tab u)) :
    slot.Extreme (fs.map (layout ts)) b ↔ Best tab agg fs b := by
  have one : Best tab agg fs b ↔ b ∈ fs.map (fieldIn agg.col col) ∧
      ∀ f ∈ fs, ∃ cmp, compareRawData (fieldIn agg.col col f) col.type col.len b col.type col.len = .ok cmp ∧
        if agg.type = .max then cmp ≤ 0 else 0 ≤ cmp := by
    refine ⟨?_,fun best => ⟨col,laid.own,best⟩⟩
    rintro ⟨other,own,best⟩
    cases Except.ok.inj (laid.own.symm.trans own)
    exact best
  rw [one,AggSlot.Extreme,columnLaid laid source sized,List.forall_mem_map,same,source]
  refine and_congr_right fun _ => forall₂_congr fun f mem => ?_
  have compared : compareRawData ((layout ts f).drop k) col.type col.len b col.type col.len =
      compareRawData (fieldIn agg.col col f) col.type col.len b col.type col.len := by
    refine compareFields laid.fixed laid.fixed ?_ rfl
    rw [laid.field f (sized f mem),fieldIn,List.take_take,min_self]
  exact exists_congr fun cmp => by rw [compared]

omit [FloatOps] in
theorem candidateLaid (laid : Laid tab ts agg.col col k) (source : slot.sourceCol = {col with offset := k})
    (width : slot.outCol.len = slot.sourceCol.len) (sized : ∀ f ∈ fs, ∀ u ∈ ts, (f u).length = rowSize (tab u)) :
    b ∈ slot.candidates (fs.map (layout ts)) ↔ Candidate tab agg fs b := by
  have one : Candidate tab agg fs b ↔
      b ∈ if fs = [] then [List.replicate col.len 0] else fs.map (fieldIn agg.col col) := by
    refine ⟨?_,fun here => ⟨col,laid.own,here⟩⟩
    rintro ⟨other,own,here⟩
    cases Except.ok.inj (laid.own.symm.trans own)
    exact here
  rw [one,AggSlot.candidates,columnLaid laid source sized,width,source]
  simp only [List.map_eq_nil_iff]

theorem Reads.shows (reads : Reads tab ts agg slot) (sized : ∀ f ∈ fs, ∀ u ∈ ts, (f u).length = rowSize (tab u)) :
    slot.Shows (fs.map (layout ts)) b ↔ Shows tab agg fs b := by
  have best (kind : agg.type ≠ .count) :
      (fs.map (layout ts) ≠ [] → slot.Extreme (fs.map (layout ts)) b) ↔ (fs ≠ [] → Best tab agg fs b) := by
    obtain ⟨col,k,laid,source⟩ := reads.column.resolve_left kind
    rw [extremeLaid laid source reads.same sized,ne_eq,List.map_eq_nil_iff]
  rw [AggSlot.Shows,Shows,reads.same]
  cases kind : agg.type with
  | count =>
    dsimp only
    rw [List.length_map]
  | sum => exact Iff.rfl
  | max => exact best (by rw [kind]; decide)
  | min => exact best (by rw [kind]; decide)

theorem Reads.spared (reads : Reads tab ts agg slot) (sized : ∀ f ∈ fs, ∀ u ∈ ts, (f u).length = rowSize (tab u))
    (part : gs ⊆ fs) (limit : Int) :
    SlotSpared slot limit (fs.map (layout ts)) (gs.map (layout ts)) ↔ Spared tab agg limit fs gs := by
  have sizedG : ∀ f ∈ upTo limit gs, ∀ u ∈ ts, (f u).length = rowSize (tab u) := fun f mem => sized f (part (upToSubset mem))
  have best (kind : agg.type = .max ∨ agg.type = .min) :
      (fs.map (layout ts) ≠ [] → ∃ c ∈ slot.candidates (cutOff limit (gs.map (layout ts))), slot.Extreme (fs.map (layout ts)) c) ↔
        (fs ≠ [] → ∃ value, Candidate tab agg (upTo limit gs) value ∧ Best tab agg fs value) := by
    have counts : agg.type ≠ .count := fun same => by
      rw [same] at kind
      simp at kind
    obtain ⟨col,k,laid,source⟩ := reads.column.resolve_left counts
    rw [cutOffMapped,ne_eq,List.map_eq_nil_iff]
    refine imp_congr_right fun _ => exists_congr fun value => ?_
    rw [candidateLaid laid source (reads.width kind) sizedG,extremeLaid laid source reads.same sized]
  rw [SlotSpared,Spared,reads.same]
  cases kind : agg.type with
  | count =>
    dsimp only
    rw [List.length_map]
  | sum => exact Iff.rfl
  | max => exact best (.inl kind)
  | min => exact best (.inr kind)

end Slots

section Run
variable [FloatOps] {sm : SmManager} {tab : String → TabMeta} {fh : String → RmFileHandle} {t : String} {ts : List String}
  {x : Ast.AggregateSelect} {query : AggregateQuery} {methods : JoinMethods} {orders : List Ast.OrderBy} {keys : List SortKey}
  {agg : AggregateExpr} {fs gs : List (String → Bytes)} {b : Bytes}

inductive Analyzed (tab : String → TabMeta) (tables : List String) (agg : AggregateExpr) : Prop
  | star (star : agg.isCountStar = true) (counts : agg.type = .count)
  | column (plain : agg.isCountStar = false) (resolved : Resolved tab tables agg.col) (sums : agg.type = .sum →
      ∀ col, (tab agg.col.tabName).getCol agg.col.colName = .ok col → isSumSupportedType col.type = true)

theorem aggregatesAnalyzed (usable : ∀ u ∈ x.tabs, Usable sm u (tab u) (fh u)) (analyzed : doAnalyzeAggregates sm.db x = .ok query) :
    query.tables = x.tabs ∧ checkClause sm.db x.tabs x.conds = .ok query.conds ∧
      ∀ agg ∈ query.aggregates, Analyzed tab x.tabs agg := by
  obtain ⟨_,_,analyzed⟩ := exceptBind analyzed
  obtain ⟨allCols,whole,analyzed⟩ := exceptBind analyzed
  obtain ⟨aggregates,made,analyzed⟩ := exceptBind analyzed
  obtain ⟨conds,checked,analyzed⟩ := exceptBind analyzed
  cases Except.ok.inj analyzed
  cases Except.ok.inj ((getAllColsListed (listedTables usable)).symm.trans whole)
  refine ⟨rfl,checked,fun agg mem => ?_⟩
  obtain ⟨given,_,here⟩ := mapMOk made agg mem
  obtain ⟨target,targeted,here⟩ := exceptBind here
  cases Except.ok.inj here
  cases star : given.isCountStar with
  | true => exact .star rfl (given.counts star)
  | false =>
    rw [aggregateCol,star,if_neg Bool.false_ne_true] at targeted
    obtain ⟨_,found,targeted⟩ := exceptBind targeted
    obtain ⟨_,listed,targeted⟩ := exceptBind targeted
    obtain ⟨col,own,targeted⟩ := exceptBind targeted
    obtain ⟨colMeta,memCol,tabled,named⟩ := checkColumnMem found
    obtain ⟨_,memTab,memCol⟩ := List.mem_flatMap.mp memCol
    obtain ⟨u,memU,rfl⟩ := List.mem_map.mp memTab
    have resolved := ownResolved (fun v memV => (usable v memV).shaped) memU memCol
    rw [tabled,named] at resolved
    split at targeted
    · cases targeted
    · rename_i allowed
      cases Except.ok.inj targeted
      refine .column rfl resolved fun sum other own' => ?_
      cases Except.ok.inj ((usable _ resolved.1).table.listed.symm.trans listed)
      cases Except.ok.inj (own.symm.trans own')
      by_contra refused
      exact allowed ⟨sum,by simpa using refused⟩

omit [FloatOps] in
theorem aggregatesLaid {aggregates : List AggregateExpr} (once : ts.Nodup) (shaped : ∀ u ∈ ts, Shaped u (tab u))
    (analyzed : ∀ agg ∈ aggregates, Analyzed tab ts agg) :
    ∃ slots len, AggregateExecutor.layOut (laidCols 0 (ts.map tab)) aggregates 0 = .ok (slots,len) ∧
      List.Forall₂ (Reads tab ts) aggregates slots := by
  have found : ∀ agg ∈ aggregates, ∃ source, AggSlot.sourceOf (laidCols 0 (ts.map tab)) agg = .ok source := fun agg mem => by
    cases analyzed agg mem with
    | star star _ => exact ⟨_,if_pos star⟩
    | column plain resolved _ =>
      obtain ⟨col,k,laid⟩ := laidColumn once shaped resolved
      exact ⟨_,by rw [AggSlot.sourceOf,plain]; exact laid.found⟩
  obtain ⟨slots,len,laid⟩ := AggregateExecutor.layOutSome found 0
  have each := (List.forall₂_and_left _ _).mpr ⟨analyzed,AggregateExecutor.layOutEach laid⟩
  refine ⟨slots,len,laid,each.imp fun agg slot both => ?_⟩
  obtain ⟨analyzed,offset,made⟩ := both
  have width : agg.type = .max ∨ agg.type = .min → slot.outCol.len = slot.sourceCol.len := fun kind => by
    rw [made.out,AggSlot.outOf]
    rcases kind with kind | kind <;> rw [kind]
  have source := made.source
  cases analyzed with
  | star _ counts =>
    exact ⟨made.same,width,fun sum => absurd (counts.symm.trans sum) (by decide),.inl counts⟩
  | column plain resolved sums =>
    obtain ⟨col,k,laid⟩ := laidColumn once shaped resolved
    rw [AggSlot.sourceOf,plain,if_neg Bool.false_ne_true] at source
    have same := Except.ok.inj (source.symm.trans laid.found)
    refine ⟨made.same,width,fun sum => ?_,.inr ⟨col,k,laid,same⟩⟩
    rw [same]
    exact sums sum col laid.own

def PlainExtremes (tab : String → TabMeta) (aggregates : List AggregateExpr) : Prop :=
  ∀ agg ∈ aggregates, agg.type = .max ∨ agg.type = .min →
    ∀ col, (tab agg.col.tabName).getCol agg.col.colName = .ok col → col.type ≠ .float

omit [FloatOps] in
theorem Reads.typed {slot : AggSlot} (reads : Reads tab ts agg slot) (kind : agg.type = .max ∨ agg.type = .min)
    (plain : ∀ col, (tab agg.col.tabName).getCol agg.col.colName = .ok col → col.type ≠ .float) :
    ∃ col, slot.ReadsAs col := by
  have counts : agg.type ≠ .count := fun same => by
    rw [same] at kind
    simp at kind
  obtain ⟨col,k,laid,source⟩ := reads.column.resolve_left counts
  refine ⟨⟨⟨"","key",col.type,col.len,0⟩,show "key" ≠ "" by decide,laid.fixed.plain (plain col laid.own)⟩,?_,?_⟩ <;> rw [source]

theorem Planned.aggregates {scan : ScanPlan} {plans : List ScanPlan} {plan : Plan}
    (planned : Planned sm tab fh t ts query.conds scan plans plan) (runs : RunsCross sm tab fh (t :: ts) query.conds plan)
    (made : makeOneRel sm.db methods (t :: ts) query.conds = .ok plan) (tables : x.tabs = t :: ts)
    (analyzed : doAnalyzeAggregates sm.db x = .ok query) (plain : PlainExtremes tab query.aggregates) {value : Int}
    (sorts : x.sort = .new orders value) (resolvedKeys : sortKeys sm.db (t :: ts) orders = .ok keys)
    (resolved : ∀ key ∈ keys, Resolved tab (t :: ts) key.col) : ∃ enough, ∀ fuel, enough ≤ fuel →
      ∃ fs ordered cols row, fs.Perm (choices (rowsOf fh) tab (t :: ts) query.conds) ∧
        Joined sm methods (t :: ts) query.conds fuel fs ∧ stableSort (keyBefore tab keys) fs = .ok ordered ∧
        selectAggregates sm methods x fuel = .ok (cols,[row]) ∧
        List.Forall₂ (fun agg col => Shows tab agg fs ((row.drop col.offset).take col.len) ↔ Spared tab agg (narrow value) fs ordered)
          query.aggregates cols := by
  have usable := planned.usable
  obtain ⟨sameTables,_,each⟩ := aggregatesAnalyzed (tables ▸ usable) analyzed
  obtain ⟨enough,run⟩ := planned.chosen runs
  refine ⟨max enough ((choices (rowsOf fh) tab (t :: ts) query.conds).length+2),fun fuel many => ?_⟩
  obtain ⟨rel,fs,cursor,same,⟨stands,restarts⟩,sized⟩ := run fuel (max_le_iff.mp many).1
  have few : (fs.map (layout plan.tables)).length+1 < fuel := by
    have := (max_le_iff.mp many).2
    rw [List.length_map,same.length_eq]
    omega
  have order := planned.joins.perm
  have once := order.nodup_iff.mpr planned.once
  have shaped : ∀ u ∈ plan.tables, Shaped u (tab u) := fun u mem => (usable u (order.mem_iff.mp mem)).shaped
  have moved {c : TabCol} (here : Resolved tab (t :: ts) c) : Resolved tab plan.tables c := ⟨order.mem_iff.mpr here.1,here.2⟩
  have movedKeys : ∀ key ∈ keys, Resolved tab plan.tables key.col := fun key mem => moved (resolved key mem)
  have movedAggs : ∀ agg ∈ query.aggregates, Analyzed tab plan.tables agg := fun agg mem => by
    cases tables ▸ each agg mem with
    | star star counts => exact .star star counts
    | column plain resolved sums => exact .column plain (moved resolved) sums
  have found : ∀ key ∈ keys, ∃ col, findColMeta (laidCols 0 (plan.tables.map tab)) key.col = .ok col := fun key mem => by
    obtain ⟨col,k,laid⟩ := laidColumn once shaped (movedKeys key mem)
    exact ⟨_,laid.found⟩
  obtain ⟨keyCols,all,foundEach⟩ := mapMEach found
  obtain ⟨slots,len,laid,reads⟩ := aggregatesLaid once shaped movedAggs
  have readsOf : ∀ slot ∈ slots, ∃ agg ∈ query.aggregates, Reads tab plan.tables agg slot := AggregateExecutor.relatedLeft reads
  rw [← cursor.cols] at all laid
  have placed : ∀ col ∈ rel.run.cols, col.offset+col.len ≤ rel.run.tupleLen := fun col mem => by
    have inside := laidInside shaped (cursor.cols ▸ mem)
    rwa [Nat.zero_add,← cursor.len] at inside
  have supported : ∀ slot ∈ slots, AggregateExecutor.Supported slot := fun slot mem sum => by
    obtain ⟨agg,_,reads⟩ := readsOf slot mem
    exact reads.sums (reads.same ▸ sum)
  have typed : ∀ slot ∈ slots, slot.agg.type = .max ∨ slot.agg.type = .min → ∃ col, slot.ReadsAs col := fun slot mem kind => by
    obtain ⟨agg,memAgg,reads⟩ := readsOf slot mem
    exact reads.typed (reads.same ▸ kind) (plain agg memAgg (reads.same ▸ kind))
  obtain ⟨sort,below,laidOrdered,row,s,planSort,converted,built,result,perm,drained,shown⟩ :=
    aggregatesShown restarts resolvedKeys all placed laid supported typed few (s := ⟨⟨rel.init,[],0⟩,[],true⟩) trivial value
  obtain ⟨ordered,sortedFs,rfl⟩ := sortedLaid once shaped movedKeys foundEach sized result
  obtain ⟨u,yielded,_⟩ := AbstractExecutor.drainRun restarts (s := rel.init) trivial (show _ < fuel by omega)
  refine ⟨fs,ordered,slots.map AggSlot.outCol,row,same,⟨plan,rel,u,made,cursor.made,yielded⟩,sortedFs,?_,?_⟩
  · have started : startAggregates sm fuel ⟨plan,sort,query.aggregates,query.cols⟩ =
        .ok ⟨_,⟨⟨rel.init,[],0⟩,[],true⟩,AggregateExecutor.executor ⟨below,slots,len⟩ fuel⟩ := by
      simp only [startAggregates,cursor.made,converted,built,bind,Except.bind]
    have generated : generateAggregatePlan sm.db methods query x.sort = .ok ⟨plan,sort,query.aggregates,query.cols⟩ := by
      simp only [generateAggregatePlan,sameTables,tables,made,sorts,planSort,bind,Except.bind]
    simp only [selectAggregates,analyzed,generated,started,bind,Except.bind,evalOk drained]
    rfl
  · rw [List.forall₂_map_right_iff]
    have both := (List.forall₂_and_left _ _).mpr ⟨shown,List.Forall₂.flip reads⟩
    refine List.Forall₂.flip (both.imp fun slot agg both => ?_)
    obtain ⟨shown,reads⟩ := both
    have part : ordered ⊆ fs := fun f mem => stableSortMem sortedFs f mem
    exact (reads.shows sized).symm.trans (shown.trans (reads.spared sized part (narrow value)))

end Run

section Whole
variable [FloatOps] {sm : SmManager} {tab : String → TabMeta} {fh : String → RmFileHandle} {t : String} {ts : List String}
  {x : Ast.AggregateSelect} {query : AggregateQuery} {methods : JoinMethods} {orders : List Ast.OrderBy} {keys : List SortKey}

end Whole

section Pair

end Pair

end Rmdb.Planner
