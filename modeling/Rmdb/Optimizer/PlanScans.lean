import Rmdb.Execution.IndexScanExact
import Rmdb.Optimizer.ConditionMeaning

/-! The scans of a plan as cursors: a scan over conditions on its table yields the records that
satisfy them, through an index or not. A scan that also has a condition on another table fails at
the first record that gets there. -/
namespace Rmdb.Planner
open Record Index Analyze IndexScanExecutor Portal

def Yields (ex : Executor) (rows : List Bytes) : Prop := ∃ stands, ex.run.Restarts (fun _ => True) stands rows

def Throws (ex : Executor) : Prop := ∀ s, ∃ e t, ex.run.beginTuple s = .error e t

/- A table of the query. Its indexes agree with it, and no key has a `FLOAT` column. -/
structure Usable (sm : SmManager) (t : String) (tab : TabMeta) (fh : RmFileHandle) : Prop where
  table : sm.HasTable t tab fh
  shaped : Shaped t tab
  size : fh.fileHdr.recordSize = rowSize tab
  indexed : ∀ index ∈ tab.indexes, ∃ ih m, sm.HasIndex t index ih m ∧ Agrees fh.records index m
  plainKeys : ∀ index ∈ tab.indexes, ∀ col ∈ index.cols, col.type ≠ .float

def recordAt (fh : RmFileHandle) (rid : Rid) : Bytes := (fh.records rid).getD []

def tableRows (fh : RmFileHandle) : List Bytes := (RmScan.rids fh).map (recordAt fh)

section Scans
variable [FloatOps] {sm : SmManager} {tab : String → TabMeta} {fh : RmFileHandle} {t : String} {conds front back : List Condition}
  {cond : Condition} {rid : Rid} {record : Bytes}

def selects (tab : String → TabMeta) (conds : List Condition) (record : Bytes) : Bool := conds.all (passes tab fun _ => record)

omit [FloatOps] in
theorem recordThere (mem : rid ∈ RmScan.rids fh) : fh.records rid = some (recordAt fh rid) := by
  obtain ⟨record,there⟩ := RmScan.ridsMem.mp mem
  rw [recordAt,there,Option.getD_some]

omit [FloatOps] in
theorem rowSized (usable : Usable sm t (tab t) fh) (there : fh.records rid = some record) : record.length = rowSize (tab t) :=
  (usable.table.sized rid record there).trans usable.size

theorem recordSelected (usable : Usable sm t (tab t) fh) (about : ∀ cond ∈ conds, About [t] cond)
    (sane : ∀ cond ∈ conds, Sane tab cond) (sized : record.length = rowSize (tab t)) :
    recordSatisfiesConditions record (tab t).cols conds = .ok (selects tab conds record) := by
  have laid := @conditionsLaid _ tab (fun _ => record) conds [t] (List.nodup_singleton t)
    (fun u mem => List.mem_singleton.mp mem ▸ usable.shaped) (fun u mem => List.mem_singleton.mp mem ▸ sized) about sane
  rwa [List.map_singleton,laidOne,layout,List.flatMap_singleton] at laid

theorem satisfiesSelected (usable : Usable sm t (tab t) fh) (about : ∀ cond ∈ conds, About [t] cond)
    (sane : ∀ cond ∈ conds, Sane tab cond) (there : fh.records rid = some record) :
    satisfies fh (tab t).cols conds rid = .ok (selects tab conds record) := by
  rw [testRecord there]
  exact recordSelected usable about sane (rowSized usable there)

theorem seqScanMade (usable : Usable sm t (tab t) fh) (conds : List Condition) :
    SeqScanExecutor.new sm t conds = .ok ⟨_,none,scanExecutor fh (satisfies fh (tab t).cols conds) (SeqScanExecutor.steps fh)
      (SeqScanExecutor.begun fh (tab t).cols conds) (rowSize (tab t)) (tab t).cols⟩ := by
  simp only [SeqScanExecutor.new,usable.table.listed,SmManager.fileHandle,usable.table.handle,usable.shaped.tupleLen,bind,
    Except.bind]

omit [FloatOps] in
theorem bindMap {α β : Type} (x : Except Fault α) (g : α → β) : (do let a ← x; .ok (g a)) = x.map g := by cases x <;> rfl

theorem seqScanBegun (usable : Usable sm t (tab t) fh) (conds : List Condition) : ∃ start,
    (RmScan.scan fh).Enumerates start (RmScan.rids fh) ∧ (RmScan.rids fh).length < SeqScanExecutor.steps fh ∧
    SeqScanExecutor.begun fh (tab t).cols conds =
      ((RmScan.scan fh).advanceToMatch (satisfies fh (tab t).cols conds) (endRid fh) (SeqScanExecutor.steps fh) start).map
        fun reached => ⟨RmScan.scan fh,reached.1,reached.2⟩ := by
  obtain ⟨lost,well⟩ := usable.table.usable
  obtain ⟨start,begun,enumerates⟩ := RmScan.scanEnumerates well
  obtain ⟨chain,chained⟩ := well
  refine ⟨start,enumerates,Nat.lt_succ_of_le (RmScan.ridsLength chained),?_⟩
  rw [SeqScanExecutor.begun,SeqScanExecutor.beginTuple,begun]
  exact bindMap ..

theorem seqScanYields (usable : Usable sm t (tab t) fh) (about : ∀ cond ∈ conds, About [t] cond)
    (sane : ∀ cond ∈ conds, Sane tab cond) : ∃ ex, SeqScanExecutor.new sm t conds = .ok ex ∧ ex.run.cols = (tab t).cols ∧
      ex.run.tupleLen = rowSize (tab t) ∧ Yields ex ((tableRows fh).filter (selects tab conds)) := by
  obtain ⟨start,enumerates,few,begun⟩ := seqScanBegun usable conds
  refine ⟨_,seqScanMade usable conds,rfl,rfl,?_⟩
  have restarts := @scanRestarts _ fh _ _ _ (rowSize (tab t)) _ (tab t).cols _ _ (recordAt fh) start begun enumerates few
    (fun rid mem => satisfiesSelected usable about sane (recordThere mem))
    (fun rid mem => RmFileHandle.getRecordSome.mpr (recordThere mem)) fun rid mem => rowSized usable (recordThere mem)
  rw [tableRows,List.filter_map]
  exact ⟨_,restarts⟩

def Foreign (t : String) (cond : Condition) : Prop := cond.lhsCol.tabName ≠ t

theorem foreignRun (usable : Usable sm t (tab t) fh) (about : ∀ cond ∈ front, About [t] cond)
    (sane : ∀ cond ∈ front, Sane tab cond) (foreign : Foreign t cond) (there : fh.records rid = some record) :
    satisfies fh (tab t).cols (front ++ cond :: back) rid = if selects tab front record
      then .error (.error (.columnNotFound (cond.lhsCol.tabName ++ "." ++ cond.lhsCol.colName))) else .ok false := by
  rw [testRecord there]
  have sized := rowSized usable there
  induction front with
  | nil =>
    have absent : findColMeta (tab t).cols cond.lhsCol =
        .error (.error (.columnNotFound (cond.lhsCol.tabName ++ "." ++ cond.lhsCol.colName))) := by
      rw [findColMeta]
      split
      · rename_i col found
        have own := usable.shaped.owned (List.mem_of_find?_eq_some found)
        have named := List.find?_some found
        rw [decide_eq_true_eq] at named
        exact absurd (named.1.symm.trans own) foreign
      · rfl
    rw [List.nil_append,recordSatisfiesConditions,absent]
    rfl
  | cons first front ih =>
    have step := @conditionLaid _ tab (fun _ => record) first (front ++ cond :: back) [t] (List.nodup_singleton t)
      (fun u mem => List.mem_singleton.mp mem ▸ usable.shaped) (fun u mem => List.mem_singleton.mp mem ▸ sized)
      (about first List.mem_cons_self) (sane first List.mem_cons_self)
    rw [List.map_singleton,laidOne,layout,List.flatMap_singleton] at step
    rw [List.cons_append,step,ih (fun x mem => about x (List.mem_cons_of_mem first mem))
      fun x mem => sane x (List.mem_cons_of_mem first mem)]
    rw [show selects tab (first :: front) record = (passes tab (fun _ => record) first && selects tab front record) from rfl]
    cases passes tab (fun _ => record) first <;> rfl

omit [FloatOps] in
theorem splitFirst {α : Type} {p : α → Bool} {xs : List α} (some : ∃ x ∈ xs, p x = true) :
    ∃ front x back, xs = front ++ x :: back ∧ (∀ y ∈ front, p y = false) ∧ p x = true := by
  induction xs with
  | nil => obtain ⟨x,mem,_⟩ := some; cases mem
  | cons x xs ih =>
    cases passed : p x with
    | true => exact ⟨[],x,xs,rfl,by simp,passed⟩
    | false =>
      obtain ⟨y,mem,found⟩ := some
      have later : y ∈ xs := by
        rcases List.mem_cons.mp mem with rfl | later
        · rw [passed] at found
          cases found
        · exact later
      obtain ⟨front,z,back,whole,before,here⟩ := ih ⟨y,later,found⟩
      refine ⟨x :: front,z,back,by rw [whole]; rfl,fun w memW => ?_,here⟩
      rcases List.mem_cons.mp memW with rfl | memW
      · exact passed
      · exact before w memW

theorem foreignScan (usable : Usable sm t (tab t) fh) (about : ∀ cond ∈ front, About [t] cond)
    (sane : ∀ cond ∈ front, Sane tab cond) (foreign : Foreign t cond) :
    ∃ ex, SeqScanExecutor.new sm t (front ++ cond :: back) = .ok ex ∧ ex.run.cols = (tab t).cols ∧
      ex.run.tupleLen = rowSize (tab t) ∧
      (if ∃ record ∈ tableRows fh, selects tab front record = true then Throws ex else Yields ex []) := by
  obtain ⟨start,enumerates,few,begun⟩ := seqScanBegun usable (front ++ cond :: back)
  have tests (rid : Rid) (mem : rid ∈ RmScan.rids fh) := @foreignRun _ sm tab fh t front back cond rid _ usable about sane foreign
    (recordThere mem)
  refine ⟨_,seqScanMade usable _,rfl,rfl,?_⟩
  split
  · rename_i reached
    obtain ⟨record,mem,passed⟩ := reached
    obtain ⟨rid,memRid,rfl⟩ := List.mem_map.mp mem
    obtain ⟨before,r,after,whole,none,here⟩ := @splitFirst Rid (fun rid => selects tab front (recordAt fh rid)) _ ⟨rid,memRid,passed⟩
    have inside : ∀ x ∈ before ++ r :: after, x ∈ RmScan.rids fh := fun x mem => whole ▸ mem
    intro s
    rw [whole] at enumerates few
    have failed : ∀ x ∈ before, satisfies fh (tab t).cols (front ++ cond :: back) x = .ok false := by
      intro x mem
      rw [tests x (inside x (List.mem_append_left _ mem)),none x mem]
      rfl
    have thrown := tests r (inside r (List.mem_append_right _ List.mem_cons_self))
    rw [here,if_pos rfl] at thrown
    exact ⟨_,s,scanThrows begun enumerates few failed thrown s⟩
  · rename_i never
    have failed : ∀ rid ∈ RmScan.rids fh, satisfies fh (tab t).cols (front ++ cond :: back) rid = .ok ((fun _ => false) rid) := by
      intro rid mem
      rw [tests rid mem,if_neg]
      exact fun passed => never ⟨_,List.mem_map_of_mem mem,passed⟩
    have restarts := @scanRestarts _ fh _ _ _ (rowSize (tab t)) _ (tab t).cols _ _ (recordAt fh) start begun enumerates few failed
      (fun rid mem => RmFileHandle.getRecordSome.mpr (recordThere mem)) fun rid mem => rowSized usable (recordThere mem)
    rw [List.filter_false,List.map_nil] at restarts
    exact ⟨_,restarts⟩

end Scans

section Indexed
variable [FloatOps] {sm : SmManager} {tab : String → TabMeta} {fh : RmFileHandle} {t : String} {conds : List Condition}
  {cond : Condition} {names : List String} {index : IndexMeta} {ih : IxHandle} {m : Bytes → Option Rid} {x : ScanPlan}

omit [FloatOps] in
theorem aboutOwn (about : About [t] cond) : cond.lhsCol.tabName = t := List.mem_singleton.mp about.1

omit [FloatOps] in
theorem saneSound (usable : Usable sm t (tab t) fh) (about : About [t] cond) (sane : Sane tab cond) : Sound sm t (tab t) cond := by
  have own := aboutOwn about
  have named := usable.table.named
  have looked {c : TabCol} {col : ColMeta} (mem : c.tabName = t) (found : (tab c.tabName).getCol c.colName = .ok col) :
      findColMeta (tab t).cols c = .ok col := by
    obtain ⟨table,name⟩ := c
    subst mem
    have there := findColMetaGetCol usable.table.valid name found
    rwa [named] at there
  cases sane with
  | @val v col raw value left type known length =>
    have found := looked own left
    refine ⟨fun record => ?_,own,fun w same => ?_⟩
    · have right : rhsOperand record (tab t).cols cond.rhs = .ok (raw,v.type,raw.length) := by rw [value,rhsOperand,known]
      refine ⟨⟨_,found⟩,⟨_,right⟩,fun lhs rhs found' right' => ?_,fun lhs w found' same => ?_⟩
      · cases Except.ok.inj (found.symm.trans found')
        cases Except.ok.inj (right.symm.trans right')
        simp [isCompatibleType,type]
      · cases Except.ok.inj (found.symm.trans found')
        cases value.symm.trans same
        exact type
    · cases value.symm.trans same
      exact ⟨col,raw,by rw [← own]; exact left,known,length⟩
  | @col c lhs rhs column left right compatible _ =>
    have foundL := looked own left
    have foundR := looked (List.mem_singleton.mp (about.2 c column)) right
    refine ⟨fun record => ?_,own,fun w same => by cases column.symm.trans same⟩
    have operand : rhsOperand record (tab t).cols cond.rhs = .ok (record.drop rhs.offset,rhs.type,rhs.len) := by
      rw [column,rhsOperand,foundR]
      rfl
    refine ⟨⟨_,foundL⟩,⟨_,operand⟩,fun l r found' operand' => ?_,fun _ w _ same => by cases column.symm.trans same⟩
    cases Except.ok.inj (foundL.symm.trans found')
    cases Except.ok.inj (operand.symm.trans operand')
    exact compatible

theorem indexRange (usable : Usable sm t (tab t) fh) (mem : index ∈ (tab t).indexes) (has : sm.HasIndex t index ih m)
    (agrees : Agrees fh.records index m) (about : ∀ cond ∈ conds, About [t] cond) (sane : ∀ cond ∈ conds, Sane tab cond) :
    ∃ lower upper rids, buildScanRange t ih conds = .ok (lower,upper) ∧ (IxScan.scan ih.tree upper).Enumerates lower rids ∧
      rids.length < steps ih ∧ rids.Nodup ∧ (∀ rid ∈ rids, rid ∈ RmScan.rids fh) ∧
      ∀ rid ∈ RmScan.rids fh, selects tab conds (recordAt fh rid) = true → rid ∈ rids := by
  have sound : ∀ cond ∈ conds, Sound sm t (tab t) cond := fun cond mem => saneSound usable (about cond mem) (sane cond mem)
  obtain ⟨lower,upper,rids,built,enumerates,few,once,inside,complete⟩ :=
    rangeCovers usable.table mem has agrees (usable.plainKeys index mem) sound
  refine ⟨lower,upper,rids,built,enumerates,few,once,fun rid mem => RmScan.ridsMem.mpr (inside rid mem),fun rid mem passed => ?_⟩
  have there := recordThere mem
  have done := recordSelected usable about sane (rowSized usable there)
  rw [passed] at done
  exact complete rid _ there done

theorem indexScanYields (usable : Usable sm t (tab t) fh) (found : (tab t).getIndexMeta names = .ok index)
    (about : ∀ cond ∈ conds, About [t] cond) (sane : ∀ cond ∈ conds, Sane tab cond) :
    ∃ ex, IndexScanExecutor.new sm t conds names = .ok ex ∧ ex.run.cols = (tab t).cols ∧ ex.run.tupleLen = rowSize (tab t) ∧
      ∃ rows, rows.Perm ((tableRows fh).filter (selects tab conds)) ∧ Yields ex rows := by
  have mem := indexMetaMem found
  obtain ⟨ih,m,has,agrees⟩ := usable.indexed index mem
  obtain ⟨lower,upper,rids,built,enumerates,few,once,inside,complete⟩ := indexRange usable mem has agrees about sane
  have oriented := @soundOriented sm t (tab t) conds fun cond mem => saneSound usable (about cond mem) (sane cond mem)
  have begun : IndexScanExecutor.begun t ih fh (tab t).cols conds =
      ((IxScan.scan ih.tree upper).advanceToMatch (satisfies fh (tab t).cols conds) (endRid fh) (steps ih) lower).map
        fun reached => ⟨IxScan.scan ih.tree upper,reached.1,reached.2⟩ := by
    rw [IndexScanExecutor.begun,built]
    exact bindMap ..
  have restarts := @scanRestarts _ fh _ _ _ (rowSize (tab t)) _ (tab t).cols _ _ (recordAt fh) lower begun enumerates few
    (fun rid mem => satisfiesSelected usable about sane (recordThere (inside rid mem)))
    (fun rid mem => RmFileHandle.getRecordSome.mpr (recordThere (inside rid mem)))
    fun rid mem => rowSized usable (recordThere (inside rid mem))
  refine ⟨⟨_,none,scanExecutor fh (satisfies fh (tab t).cols conds) (steps ih) (IndexScanExecutor.begun t ih fh (tab t).cols conds)
    (rowSize (tab t)) (tab t).cols⟩,?_,rfl,rfl,_,?_,⟨_,restarts⟩⟩
  · simp only [IndexScanExecutor.new,usable.table.listed,found,SmManager.indexHandle,has.handle,SmManager.fileHandle,
      usable.table.handle,usable.shaped.tupleLen,oriented,bind,Except.bind]
  · rw [tableRows,List.filter_map]
    refine ((List.perm_ext_iff_of_nodup (once.filter _) ((RmScan.ridsNodup fh).filter _)).mpr fun rid => ?_).map _
    rw [List.mem_filter,List.mem_filter]
    exact and_congr_left fun passed => ⟨inside rid,fun mem => complete rid mem passed⟩

omit [FloatOps] in
theorem chosenIndex {best : Nat × List String} (indexes : List IndexMeta) (start : best.1 = 0 ∨ (tab t).indexes.any (fun index =>
      (index.cols.map fun col => col.name) = best.2)) (within : ∀ index ∈ indexes, index ∈ (tab t).indexes)
    (some : 0 < (indexes.foldl (betterIndex t conds) best).1) :
    (tab t).indexes.any fun index => (index.cols.map fun col => col.name) = (indexes.foldl (betterIndex t conds) best).2 := by
  induction indexes generalizing best with
  | nil =>
    rcases start with zero | known
    · rw [List.foldl_nil,zero] at some
      exact absurd some (lt_irrefl 0)
    · exact known
  | cons index indexes next =>
    refine next ?_ (fun x mem => within x (List.mem_cons_of_mem index mem)) some
    rw [betterIndex]
    split
    · exact .inr (List.any_eq_true.mpr ⟨index,within index List.mem_cons_self,by simp⟩)
    · exact start

omit [FloatOps] in
theorem chosenListed (some : 0 < ((tab t).indexes.foldl (betterIndex t conds) (0,[])).1) :
    ∃ index, (tab t).getIndexMeta ((tab t).indexes.foldl (betterIndex t conds) (0,[])).2 = .ok index := by
  have listed := @chosenIndex tab t conds (0,[]) (tab t).indexes (.inl rfl) (fun _ mem => mem) some
  rw [List.any_eq_true] at listed
  rw [TabMeta.getIndexMeta]
  split
  · exact ⟨_,rfl⟩
  · rename_i none
    rw [List.find?_eq_none] at none
    obtain ⟨index,mem,same⟩ := listed
    exact absurd same (none index mem)

theorem scanYields (usable : Usable sm t (tab t) fh) (is : IsScan sm.db t conds x) (about : ∀ cond ∈ conds, About [t] cond)
    (sane : ∀ cond ∈ conds, Sane tab cond) (fuel : Nat) :
    ∃ ex, convertPlanExecutor sm fuel (.scan x) = .ok ex ∧ ex.run.cols = (tab t).cols ∧ ex.run.tupleLen = rowSize (tab t) ∧
      ∃ rows, rows.Perm ((tableRows fh).filter (selects tab conds)) ∧ Yields ex rows := by
  obtain ⟨indexExist,names,chosen,rfl⟩ := is
  rw [getIndexColsListed usable.table.listed,Except.ok.injEq,Prod.mk.injEq] at chosen
  obtain ⟨exist,rfl⟩ := chosen
  cases indexExist with
  | false =>
    obtain ⟨ex,made,cols,len,yields⟩ := seqScanYields usable about sane
    exact ⟨ex,made,cols,len,_,.refl _,yields⟩
  | true =>
    obtain ⟨index,found⟩ := @chosenListed tab t conds (of_decide_eq_true exist)
    exact indexScanYields usable found about sane

end Indexed
end Rmdb.Planner
