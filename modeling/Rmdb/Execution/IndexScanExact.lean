import Rmdb.Analyze.AcceptedConditions
import Rmdb.Execution.AbortInverse
import Rmdb.Execution.ScanKeys
import Rmdb.Index.RangeScan

/-! `IndexScanExecutor` steps over the records that `SeqScanExecutor` steps over. The range leaves
out no record that satisfies the conditions, and the others are tested as they are met. -/
namespace Rmdb
open Record Index Lib IndexScanExecutor

section Range
variable [FloatOps] {ih : IxHandle} {m : Bytes → Option Rid} {conds : List Condition} {tabName : String} {record : Bytes}
  {rid : Rid}

omit [FloatOps] in
theorem startIid {K : Type} [IxKey K] (inclusive : Bool) (k : K) :
    (startBound inclusive k).iid = if inclusive then IxIndexHandle.lowerBound k else IxIndexHandle.upperBound k := by
  cases inclusive <;> rfl

omit [FloatOps] in
theorem endIid {K : Type} [IxKey K] (inclusive : Bool) (k : K) :
    (endBound inclusive k).iid = if inclusive then IxIndexHandle.upperBound k else IxIndexHandle.lowerBound k := by
  cases inclusive <;> rfl

omit [FloatOps] in
theorem betweenRange {cols : List IxCol} {low high : IxBytes cols} {li ui : Bool} {key : IxBytes cols}
    (same : key.1 = rowKey cols record) (between : Between cols low.1 high.1 li ui record) :
    inRange li ui low high key = true := by
  rw [Between,← same] at between
  obtain ⟨above,below⟩ := between
  have first : (if li then decide (ixCompare low key ≤ 0) else decide (ixCompare low key < 0)) = true := by
    cases li with
    | true => exact decide_eq_true ((compareLe ..).mpr above)
    | false => exact decide_eq_true ((IxKey.compareLt ..).mpr above)
  have second : (if ui then decide (ixCompare key high ≤ 0) else decide (ixCompare key high < 0)) = true := by
    cases ui with
    | true => exact decide_eq_true ((compareLe ..).mpr below)
    | false => exact decide_eq_true ((IxKey.compareLt ..).mpr below)
  rw [inRange,first,second]
  rfl

omit [FloatOps] in
theorem betweenNone {cols : List IxCol} {low high : IxBytes cols} {li ui : Bool}
    (crossed : ixCompare low high > 0 ∨ (ixCompare low high = 0 ∧ ((!li) = true ∨ (!ui) = true))) :
    ¬Between cols low.1 high.1 li ui record := by
  rintro ⟨above,below⟩
  rcases crossed with wrong | ⟨point,outside⟩
  · have more : keyDigits cols high.1 < keyDigits cols low.1 := by
      rw [gt_iff_lt,← not_le,compareLe] at wrong
      exact not_le.mp wrong
    have first : keyDigits cols low.1 ≤ keyDigits cols (rowKey cols record) := by
      cases li with
      | true => exact above
      | false => exact le_of_lt above
    have second : keyDigits cols (rowKey cols record) ≤ keyDigits cols high.1 := by
      cases ui with
      | true => exact below
      | false => exact le_of_lt below
    exact absurd (first.trans second) (not_le.mpr more)
  · rw [IxKey.compareEq] at point
    subst point
    cases li with
    | false => cases ui with
      | false => exact lt_irrefl _ (lt_trans above below)
      | true => exact lt_irrefl _ (lt_of_lt_of_le above below)
    | true => cases ui with
      | false => exact lt_irrefl _ (lt_of_le_of_lt above below)
      | true => simp at outside

structure Hands (ih : IxHandle) (m : Bytes → Option Rid) (first last : Iid) (entries : List (IxBytes (ranks ih.cols) × Rid)) : Prop where
  enumerates : (IxScan.scan ih.tree last).Enumerates first (entries.map Prod.snd)
  once : entries.Nodup
  few : entries.length < steps ih
  held : ∀ e ∈ entries, m e.1.1 = some e.2

def Wanted (ih : IxHandle) (conds : List Condition) (record : Bytes) : Prop :=
  Covered (ranks ih.cols) record ∧ ∀ cond ∈ conds, ∀ v, cond.rhs = .val v → Says (ranks ih.cols) cond v record

section Contents
variable {lo : Level (IxBytes (ranks ih.cols))} {ups : List (Level (IxBytes (ranks ih.cols)))}

omit [FloatOps] in
theorem boundsHand (wf : WellFormed ih.tree (lo :: ups)) (same : (asMap (flat lo)) = fun k => m k.1)
    {b c : Bound (IxBytes (ranks ih.cols))} (order : ∀ k, c.admits k = true → b.admits k = true) : ∃ first last,
    b.iid ih.tree = .ok first ih.tree ∧ c.iid ih.tree = .ok last ih.tree ∧
    Hands ih m first last ((flat lo).filter fun e => b.admits e.1 && !c.admits e.1) := by
  obtain ⟨first,last,start,stop,enumerates⟩ := rangeEnumerates wf order
  have sorted : Lib.Ordered (flat lo) := wf.sorted
  refine ⟨first,last,start,stop,enumerates,?_,?_,fun e mem => ?_⟩
  · exact (sorted.imp fun less same => absurd (congrArg Prod.fst same) less.ne).filter _
  · exact Nat.lt_succ_of_le ((List.length_filter_le ..).trans (entriesFew wf))
  · exact (congrFun same e.1).symm.trans ((lookupMem sorted).mpr (List.mem_of_mem_filter mem))

end Contents

theorem buildScanRangeRun (plain : ∀ col ∈ ih.cols, col.type ≠ .float) (maps : ih.Maps m)
    (typed : ∀ cond ∈ conds, Typed (ranks ih.cols) cond) : ∃ first last entries,
    buildScanRange tabName ih conds = .ok (first,last) ∧ Hands ih m first last entries ∧
    ∀ record rid, Wanted ih conds record → m (rowKey (ranks ih.cols) record) = some rid → rid ∈ entries.map Prod.snd := by
  obtain ⟨levels,wf,same⟩ := maps.2.1
  cases levels with
  | nil => exact absurd wf.tree.links.first (by simp)
  | cons lo ups =>
    have held {record : Bytes} {rid : Rid} (found : m (rowKey (ranks ih.cols) record) = some rid) :
        ∃ key : IxBytes (ranks ih.cols), key.1 = rowKey (ranks ih.cols) record ∧ (key,rid) ∈ flat lo := by
      have sized := maps.1 _ (by rw [found]; exact Option.some_ne_none rid)
      refine ⟨keyOf _ sized,rfl,(lookupMem wf.sorted).mp ?_⟩
      exact (congrFun same (keyOf _ sized)).trans found
    obtain ⟨bounds,collected,shaped,admits⟩ := @collectBoundsRun _ (ranks ih.cols) tabName conds typed
    obtain ⟨started,rest,low,high,run,bracketed⟩ := @scanPrefixRun (ranks ih.cols) bounds ⟨[],[],true,true,false,false⟩ shaped rfl rfl
    have passed : ¬(ih.cols.any fun col => decide (col.type = .float)) = true := by
      simpa using plain
    rw [buildScanRange,if_neg passed,collected]
    simp only [bind,Except.bind,run]
    split
    · have padded := bracketed.padded
      rw [List.nil_append,List.nil_append] at padded
      simp only [padded,compositeCompare]
      split
      · rename_i crossed
        refine ⟨_,_,[],rfl,⟨by simp [RecScan.Enumerates,IxScan.scan],List.nodup_nil,Nat.succ_pos _,
          by simp⟩,fun record rid wanted _ => ?_⟩
        have between := bracketed.between record wanted.1 (admits record wanted.1 wanted.2)
        exact absurd between (@betweenNone record (ranks ih.cols) (keyOf low bracketed.lowLength) (keyOf high bracketed.highLength)
          _ _ crossed)
      · rename_i straight
        let lowKey : IxBytes (ranks ih.cols) := keyOf low bracketed.lowLength
        let highKey : IxBytes (ranks ih.cols) := keyOf high bracketed.highLength
        obtain ⟨order,point⟩ := not_or.mp straight
        have ordered : ixCompare lowKey highKey ≤ 0 := not_lt.mp order
        have both (zero : ixCompare lowKey highKey = 0) : started.lowerInclusive = true ∧ started.upperInclusive = true := by
          have none := fun outside => point ⟨zero,outside⟩
          simpa using none
        obtain ⟨first,last,start,stop,hands⟩ := boundsHand wf same (rangeOrder ordered both)
        rw [startIid] at start
        rw [endIid] at stop
        have begun := evalOk start
        have ended := evalOk stop
        rw [dif_pos ⟨bracketed.lowLength,bracketed.highLength⟩]
        simp only [lowKey,highKey] at begun ended
        simp only [begun,ended]
        refine ⟨first,last,_,rfl,hands,fun record rid wanted found => ?_⟩
        obtain ⟨key,named,mem⟩ := held found
        have between := bracketed.between record wanted.1 (admits record wanted.1 wanted.2)
        have inside := @betweenRange record (ranks ih.cols) lowKey highKey _ _ key named between
        rw [← rangeAdmits] at inside
        exact List.mem_map.mpr ⟨_,List.mem_filter.mpr ⟨mem,inside⟩,rfl⟩
    · obtain ⟨first,last,start,stop,hands⟩ := @boundsHand ih m lo ups wf same .leafBegin .leafEnd (fun _ inside => by cases inside)
      have begun : eval IxIndexHandle.leafBegin ih.tree = .ok first := evalOk start
      have ended : eval IxIndexHandle.leafEnd ih.tree = .ok last := evalOk stop
      simp only [begun,ended]
      refine ⟨first,last,_,rfl,hands,fun record rid _ found => ?_⟩
      obtain ⟨key,_,mem⟩ := held found
      exact List.mem_map.mpr ⟨_,List.mem_filter.mpr ⟨mem,rfl⟩,rfl⟩

end Range

section Conditions
variable [FloatOps] {sm : SmManager} {tabName : String} {tab : TabMeta} {fh : RmFileHandle} {index : IndexMeta} {ih : IxHandle}
  {m : Bytes → Option Rid} {conds accepted : List Condition} {names : List String} {record : Bytes} {rid : Rid}

structure Sound (sm : SmManager) (tabName : String) (tab : TabMeta) (cond : Condition) : Prop where
  operands : ∀ record, Analyze.Operands tab.cols cond record
  own : cond.lhsCol.tabName = tabName
  literal : ∀ v, cond.rhs = .val v → ∃ col raw, tab.getCol cond.lhsCol.colName = .ok col ∧ v.raw = some raw ∧ raw.length = col.len

theorem acceptedSound (table : sm.HasTable tabName tab fh) (checked : Analyze.checkClause sm.db [tabName] conds = .ok accepted) :
    ∀ cond ∈ accepted, Sound sm tabName tab cond := by
  intro cond mem
  have listed : [tabName].mapM sm.db.getTable = .ok [tab] := by
    simp only [List.mapM_cons,List.mapM_nil,table.listed]
    rfl
  have each : ∀ t ∈ [tab], sm.db.Lists t := by
    intro t mem
    obtain rfl := List.mem_singleton.mp mem
    exact ⟨tabName,table.listed,fun col mem => table.named ▸ table.valid.owned col mem⟩
  obtain ⟨allCols,whole,checked⟩ := exceptBind checked
  cases Except.ok.inj ((Analyze.getAllColsListed listed).symm.trans whole)
  obtain ⟨given,_,here⟩ := Analyze.mapMOk checked cond mem
  have own : cond.lhsCol.tabName = tabName := by
    obtain ⟨_,_,left,_⟩ := Analyze.checkConditionSteps here
    obtain ⟨col,memCol,name,_⟩ := Analyze.checkColumnMem left.target
    rw [List.flatMap_singleton] at memCol
    rw [← name,table.valid.owned col memCol,table.named]
  refine ⟨fun record => ?_,own,fun v value => ?_⟩
  · rw [← Analyze.laidOne]
    exact Analyze.acceptedOperands each here record
  · obtain ⟨tab',col,filed,found,cast,filled⟩ := Analyze.acceptedLiteral here value
    rw [own] at filed
    cases Except.ok.inj (table.listed.symm.trans filed)
    obtain ⟨_,raw,known⟩ := Analyze.initRawType filled
    have length := initRawLength filled
    rw [known,Option.getD_some] at length
    exact ⟨col,raw,found,known,length⟩

omit [FloatOps] in
theorem soundOriented (sound : ∀ cond ∈ accepted, Sound sm tabName tab cond) :
    accepted.mapM (orient tabName) = .ok accepted := by
  induction accepted with
  | nil => rfl
  | cons cond conds ih =>
    have here : orient tabName cond = .ok cond := by
      rw [orient,if_neg (not_not_intro (sound cond List.mem_cons_self).own)]
    rw [List.mapM_cons,here,ih fun c mem => sound c (List.mem_cons_of_mem _ mem)]
    rfl

theorem satisfiedEach {cols : List ColMeta} (done : recordSatisfiesConditions record cols conds = .ok true) :
    ∀ cond ∈ conds, ∃ lhs rhs cmp, findColMeta cols cond.lhsCol = .ok lhs ∧ rhsOperand record cols cond.rhs = .ok rhs ∧
      compareRawData (record.drop lhs.offset) lhs.type lhs.len rhs.1 rhs.2.1 rhs.2.2 = .ok cmp ∧
      evaluateCompareResult cmp cond.op = true := by
  induction conds with
  | nil => exact fun _ mem => nomatch mem
  | cons first conds ih =>
    rw [recordSatisfiesConditions] at done
    obtain ⟨lhs,left,done⟩ := exceptBind done
    obtain ⟨rhs,right,done⟩ := exceptBind done
    obtain ⟨cmp,compared,done⟩ := exceptBind done
    split at done
    · rename_i holds
      intro cond mem
      rcases List.mem_cons.mp mem with rfl | later
      · exact ⟨lhs,rhs,cmp,left,right,compared,holds⟩
      · exact ih done cond later
    · cases Except.ok.inj done

omit [FloatOps] in
theorem meetsField {col : IxCol} {op : CompOp} {raw : Bytes} :
    Meets col op (field col record) raw ↔ Meets col op (record.drop col.offset) raw := by
  have same : col.digits (field col record) = col.digits (record.drop col.offset) := digitsTake col
  cases op <;> simp only [Meets,same]

theorem passedWanted (table : sm.HasTable tabName tab fh) (mem : index ∈ tab.indexes) (cols : ih.cols = index.cols)
    (plain : ∀ col ∈ index.cols, col.type ≠ .float) (sound : ∀ cond ∈ accepted, Sound sm tabName tab cond) (sized : record.length = fh.fileHdr.recordSize)
    (passed : recordSatisfiesConditions record tab.cols accepted = .ok true) : Wanted ih accepted record := by
  have listed (col : IxCol) (memCol : col ∈ ranks ih.cols) : tab.getCol col.name = .ok col.toColMeta := by
    rw [cols] at memCol
    obtain ⟨key,own,same⟩ := ranksPlain plain memCol
    exact same ▸ table.valid.indexed index mem key own
  have within (col : IxCol) (memCol : col ∈ ranks ih.cols) : col.offset+col.len ≤ record.length := by
    rw [sized]
    exact table.valid.inside _ (getColMem (listed col memCol)).1
  refine ⟨fun col memCol => ?_,fun cond memCond v value col memCol named raw known => ?_⟩
  · have inside := within col memCol
    rw [field,List.length_take,List.length_drop]
    omega
  · obtain ⟨lhs,rhs,cmp,left,right,compared,holds⟩ := satisfiedEach passed cond memCond
    have sure := sound cond memCond
    have listed := listed col memCol
    have found := findColMetaGetCol table.valid col.name listed
    have target : cond.lhsCol = ⟨tab.name,col.name⟩ := by
      rw [table.named,← sure.own,named]
    rw [target,found] at left
    cases Except.ok.inj left
    obtain ⟨col',raw',there,known',length⟩ := sure.literal v value
    rw [← named] at there
    cases Except.ok.inj (listed.symm.trans there)
    cases Option.some.inj (known'.symm.trans known)
    have type := (sure.operands record).value _ v (target ▸ found) value
    rw [value,rhsOperand,known] at right
    cases Except.ok.inj right
    rw [type,length,rawCompare col] at compared
    cases Except.ok.inj compared
    have inside := within col memCol
    refine meetsField.mpr (meetsCompare ?_ length.ge holds)
    rw [List.length_drop]
    omega

theorem testRecord (there : fh.records rid = some record) :
    satisfies fh tab.cols accepted rid = recordSatisfiesConditions record tab.cols accepted := by
  rw [satisfies,RmFileHandle.getRecordSome.mpr there]
  rfl

theorem plainTest (sound : ∀ cond ∈ accepted, Sound sm tabName tab cond)
    (plain : ¬∃ cond ∈ accepted, Analyze.Mixed tab.cols cond) (there : fh.records rid = some record) :
    ∃ b, satisfies fh tab.cols accepted rid = .ok b := by
  rw [testRecord there]
  refine (Analyze.conditionsRun fun cond mem => (sound cond mem).operands record).mpr fun front cond back split mixed => ?_
  exact absurd ⟨cond,split ▸ List.mem_append_right front List.mem_cons_self,mixed⟩ plain

theorem mixedTest (sound : ∀ cond ∈ accepted, Sound sm tabName tab cond)
    (mixed : ∃ cond ∈ accepted, Analyze.Mixed tab.cols cond) (there : fh.records rid = some record) :
    satisfies fh tab.cols accepted rid = .ok false ∨
      ∃ e, satisfies fh tab.cols accepted rid = .error e ∧ ∃ err, e = .error err := by
  rw [testRecord there]
  rcases Analyze.conditionsNever (fun cond mem => (sound cond mem).operands record) mixed with failed | ⟨e,thrown⟩
  · exact .inl failed
  · exact .inr ⟨_,thrown,e,rfl⟩

end Conditions

section Scans
variable [FloatOps] {sm : SmManager} {tabName : String} {tab : TabMeta} {fh : RmFileHandle} {index : IndexMeta} {ih : IxHandle}
  {m : Bytes → Option Rid} {conds accepted : List Condition} {names : List String} {rid : Rid}

theorem rangeCovers (table : sm.HasTable tabName tab fh) (mem : index ∈ tab.indexes) (has : sm.HasIndex tabName index ih m)
    (agrees : Agrees fh.records index m) (plain : ∀ col ∈ index.cols, col.type ≠ .float)
    (sound : ∀ cond ∈ accepted, Sound sm tabName tab cond) : ∃ first last rids,
    buildScanRange tabName ih accepted = .ok (first,last) ∧ (IxScan.scan ih.tree last).Enumerates first rids ∧
    rids.length < steps ih ∧ rids.Nodup ∧ (∀ rid ∈ rids, ∃ record, fh.records rid = some record) ∧
    ∀ rid record, fh.records rid = some record → recordSatisfiesConditions record tab.cols accepted = .ok true → rid ∈ rids := by
  have typed : ∀ cond ∈ accepted, Typed (ranks ih.cols) cond := by
    intro cond memCond v value col memCol named
    obtain ⟨col',raw,there,known,length⟩ := (sound cond memCond).literal v value
    rw [has.cols] at memCol
    obtain ⟨key,own,same⟩ := ranksPlain plain memCol
    have listed : tab.getCol col.name = .ok col.toColMeta := same ▸ table.valid.indexed index mem key own
    rw [← named] at there
    cases Except.ok.inj (listed.symm.trans there)
    exact ⟨raw,known,length⟩
  obtain ⟨first,last,entries,built,hands,complete⟩ :=
    @buildScanRangeRun _ ih m accepted tabName (has.cols ▸ plain) has.maps typed
  have keyed : ∀ e ∈ entries, ∃ record, fh.records e.2 = some record ∧ indexKey index record = e.1.1 :=
    fun e memE => (agrees _ _).mp (hands.held e memE)
  have few := hands.few
  rw [← List.length_map Prod.snd] at few
  refine ⟨first,last,entries.map Prod.snd,built,hands.enumerates,few,?_,?_,fun rid record there passed => ?_⟩
  · refine hands.once.map_on fun a memA b memB same => ?_
    obtain ⟨ra,therea,keya⟩ := keyed a memA
    obtain ⟨rb,thereb,keyb⟩ := keyed b memB
    rw [same,thereb] at therea
    cases Option.some.inj therea
    exact Prod.ext (Subtype.ext (keya.symm.trans keyb)) same
  · intro rid inside
    obtain ⟨e,memE,rfl⟩ := List.mem_map.mp inside
    obtain ⟨record,there,_⟩ := keyed e memE
    exact ⟨record,there⟩
  · have sized := table.sized rid record there
    refine complete record rid (passedWanted table mem has.cols plain sound sized passed) ?_
    have key : rowKey (ranks index.cols) record = indexKey index record := by
      rw [indexKeyPlain table.valid mem sized plain,rowKey,ranks,List.flatMap_map]
      rfl
    rw [has.cols,key]
    exact agrees.keyed there

omit [FloatOps] in
theorem indexMetaMem {tab : TabMeta} (found : tab.getIndexMeta names = .ok index) : index ∈ tab.indexes := by
  rw [TabMeta.getIndexMeta] at found
  split at found
  · rename_i x here
    cases Except.ok.inj found
    exact List.mem_of_find?_eq_some here
  · cases found

theorem indexVisited (table : sm.HasTable tabName tab fh) (found : tab.getIndexMeta names = .ok index)
    (has : sm.HasIndex tabName index ih m) (agrees : Agrees fh.records index m) (plain : ∀ col ∈ index.cols, col.type ≠ .float)
    (sound : ∀ cond ∈ accepted, Sound sm tabName tab cond) : ∃ rids, rids.Nodup ∧
    (∀ rid ∈ rids, ∃ record, fh.records rid = some record) ∧
    (∀ rid, satisfies fh tab.cols accepted rid = .ok true → rid ∈ rids) ∧
    IndexScanExecutor.visited sm tabName accepted names = RecScan.sift (satisfies fh tab.cols accepted) rids := by
  obtain ⟨first,last,rids,built,enumerates,few,once,inside,complete⟩ :=
    rangeCovers table (indexMetaMem found) has agrees plain sound
  refine ⟨rids,once,inside,fun rid passed => ?_,?_⟩
  · cases got : fh.getRecord rid with
    | error e =>
      rw [satisfies,got] at passed
      cases passed
    | ok record =>
      have there := RmFileHandle.getRecordSome.mp got
      rw [testRecord there] at passed
      exact complete rid record there passed
  · rw [IndexScanExecutor.visited,table.listed]
    simp only [bind,Except.bind,found,SmManager.indexHandle,has.handle,SmManager.fileHandle,table.handle,
      soundOriented sound,built]
    exact RecScan.visitSift enumerates few few few

/- `IndexScanExecutor` steps over exactly the records of `SeqScanExecutor`, each once. It ends
normally, or in the exception of a condition that compares a `DATETIME` column with a `CHAR` column. -/
theorem indexScanExact (table : sm.HasTable tabName tab fh) (found : tab.getIndexMeta names = .ok index)
    (has : sm.HasIndex tabName index ih m) (agrees : Agrees fh.records index m) (plain : ∀ col ∈ index.cols, col.type ≠ .float)
    (checked : Analyze.checkClause sm.db [tabName] conds = .ok accepted) :
    (IndexScanExecutor.visited sm tabName accepted names).1.Nodup ∧
    (∀ rid, rid ∈ (IndexScanExecutor.visited sm tabName accepted names).1 ↔
      rid ∈ (SeqScanExecutor.visited sm tabName accepted).1) ∧
    ∀ e, (IndexScanExecutor.visited sm tabName accepted names).2 = some e →
      (∃ err, e = .error err) ∧ ∃ cond ∈ accepted, Analyze.Mixed tab.cols cond := by
  have sound := acceptedSound table checked
  obtain ⟨rids,once,present,complete,run⟩ := indexVisited table found has agrees plain sound
  have all := fun rid (mem : rid ∈ RmScan.rids fh) => RmScan.ridsMem.mp mem
  rw [run,seqVisited table]
  by_cases mixed : ∃ cond ∈ accepted, Analyze.Mixed tab.cols cond
  · have never (l : List Rid) (known : ∀ rid ∈ l, ∃ record, fh.records rid = some record) :=
      RecScan.siftNone fun rid mem => mixedTest sound mixed (known rid mem).choose_spec
    obtain ⟨none,ends⟩ := never rids present
    rw [none,(never _ all).1]
    exact ⟨List.nodup_nil,fun rid => Iff.rfl,fun e there => ⟨ends e there,mixed⟩⟩
  · have decided (l : List Rid) (known : ∀ rid ∈ l, ∃ record, fh.records rid = some record) :
        RecScan.sift (satisfies fh tab.cols accepted) l =
          (l.filter fun rid => decide (satisfies fh tab.cols accepted rid = .ok true),none) := by
      refine RecScan.siftFilter fun rid mem => ?_
      obtain ⟨b,run⟩ := plainTest sound mixed (known rid mem).choose_spec
      cases b <;> simp [run]
    rw [decided rids present,decided _ all]
    refine ⟨once.filter _,fun rid => ?_,fun e there => nomatch there⟩
    rw [List.mem_filter,List.mem_filter,decide_eq_true_eq]
    refine and_congr_left fun passed => ⟨fun mem => RmScan.ridsMem.mpr (present rid mem),fun _ => complete rid passed⟩

end Scans

section Four
open TransactionManager

def fourRows : TransactionManager := @runAll .whole (fun _ => 3) 0 ([7,-2,40,12].map fun n => .insert "t" [⟨.int n,none⟩])
  (after (begin none indexed))

def twoBounds : List Condition :=
  [⟨⟨"t","a"⟩,.gt,.val ⟨.int (-2),some [254,255,255,255]⟩⟩,⟨⟨"t","a"⟩,.le,.val ⟨.int 12,some [12,0,0,0]⟩⟩]

def indexOnA : IndexMeta := ⟨"t",[⟨⟨"t","a",.int,4,0⟩,by decide,rfl⟩]⟩
def indexedTab : TabMeta := ⟨"t",[⟨"t","a",.int,4,0⟩],[indexOnA]⟩

theorem fourRowsAgreed : fourRows.smManager.Agreed ∧ fourRows.smManager.db.getTable "t" = .ok indexedTab := by
  let _ := FloatOps.whole
  obtain ⟨u,run,safe,live,sm,_⟩ := beginReady (Reached.safe ⟨indexed,⟨fun _ => rfl,fun _ => rfl⟩,.refl⟩)
  have agreed : u.smManager.Agreed := by
    rw [sm]
    exact DbDir.oneIndexSound.agreed
  have led := (@runAllLed _ _ (fun _ => 3) _ ([7,-2,40,12].map fun n => .insert "t" [⟨.int n,none⟩]) safe live agreed).choose_spec.1
  have same : after (begin none indexed) = u := by rw [run]; rfl
  have db := led.same.db
  rw [sm] at db
  rw [fourRows,same]
  exact ⟨led.agreed,congrArg (DbMeta.getTable · "t") db⟩

theorem fourRowsScanned : (@SeqScanExecutor.visited .whole fourRows.smManager "t" twoBounds).1 = [⟨1,0⟩,⟨1,3⟩] := by
  decide +kernel

theorem twoRowsScanned :
    (@IndexScanExecutor.visited .whole fourRows.smManager "t" twoBounds ["a"]).1.Perm [⟨1,0⟩,⟨1,3⟩] := by
  let _ := FloatOps.whole
  obtain ⟨agreed,listed⟩ := fourRowsAgreed
  obtain ⟨fh,table,agree⟩ := agreed.tables "t" indexedTab listed
  obtain ⟨ih,m,has,agrees⟩ := agree indexOnA List.mem_cons_self
  have found : indexedTab.getIndexMeta ["a"] = .ok indexOnA := rfl
  have checked : Analyze.checkClause fourRows.smManager.db ["t"] [⟨⟨"","a"⟩,.gt,.val ⟨.int (-2),none⟩⟩,
      ⟨⟨"t","a"⟩,.le,.val ⟨.int 12,none⟩⟩] = .ok twoBounds := by decide +kernel
  have exact_ := indexScanExact table found has agrees (by simp [indexOnA]) checked
  refine (List.perm_ext_iff_of_nodup exact_.1 (by decide)).mpr fun rid => ?_
  rw [exact_.2.1 rid,fourRowsScanned]

end Four

end Rmdb
