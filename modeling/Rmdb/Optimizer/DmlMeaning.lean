import Rmdb.Execution.DmlRows
import Rmdb.Lib.Bag
import Rmdb.Optimizer.DmlPlan
import Rmdb.Optimizer.PlanExact

/-! What `INSERT`, `DELETE` and `UPDATE` make of the bag of records of their table, in whatever order the
executors come to the rows. -/
namespace Rmdb
open Lib Record Index Recovery RecoveryManager TransactionManager Analyze Planner

abbrev Bags := String → Multiset Bytes

def bagsOf (sm : SmManager) : Bags := fun t =>
  match sm.fhs t with
  | some fh => ↑(tableRows fh)
  | none => 0

def tabOf (db : DbMeta) (t : String) : TabMeta :=
  match db.getTable t with
  | .ok tab => tab
  | .error _ => ⟨t,[],[]⟩

section Meaning
variable [FloatOps]

omit [FloatOps] in
def keyed (tab : TabMeta) (bag : Multiset Bytes) : Option (Multiset Bytes) :=
  if ∀ index ∈ tab.indexes, (bag.map (indexKey index)).Nodup then some bag else none

def insertedRow (tab : TabMeta) (values : List Value) (bag : Multiset Bytes) : Option (Multiset Bytes) :=
  if values.length ≠ tab.cols.length then none
  else (made (InsertExecutor.makeRecord tab values (rowSize tab))).bind fun record => keyed tab (record ::ₘ bag)

def setSelected (tabs : String → TabMeta) (t : String) (setClauses : List SetClause) (conds : List Condition) (record : Bytes) :
    Option Bytes :=
  if selects tabs conds record then made (UpdateExecutor.newRecord (tabs t) setClauses record) else some record

def updatedRows (tabs : String → TabMeta) (t : String) (setClauses : List SetClause) (conds : List Condition)
    (bag : Multiset Bytes) : Option (Multiset Bytes) :=
  if ∀ record ∈ bag, (setSelected tabs t setClauses conds record).isSome then
    keyed (tabs t) (bag.filterMap (setSelected tabs t setClauses conds))
  else none

def rowsAfter (tabs : String → TabMeta) : DmlQuery → Multiset Bytes → Option (Multiset Bytes)
  | .insert t values,bag => insertedRow (tabs t) values bag
  | .delete _ conds,bag => some (bag.filter fun record => ¬selects tabs conds record)
  | .update t setClauses conds,bag => updatedRows tabs t setClauses conds bag

def dmlTarget (db : DbMeta) (x : Ast.DmlStmt) (bag : Multiset Bytes) : Option (Multiset Bytes) :=
  (made (doAnalyzeDml db x)).bind fun query => rowsAfter (tabOf db) query bag

def dmlMeaning (db : DbMeta) (x : Ast.DmlStmt) (bags : Bags) : Option Bags :=
  (dmlTarget db x (bags x.tabName)).map fun bag => Function.update bags x.tabName bag

end Meaning

section Bags
variable {sm sm' : SmManager} {t : String} {fh : RmFileHandle} {rows : Rid → Option Bytes} {tab : TabMeta} {bag : Multiset Bytes}

theorem tableBag (fh : RmFileHandle) : IsBag fh.records (tableRows fh : Multiset Bytes) := by
  refine ⟨RmScan.rids fh,⟨RmScan.ridsNodup fh,fun rid => RmScan.ridsMem⟩,congrArg _ ?_⟩
  rw [tableRows,← List.filterMap_eq_map]
  exact List.filterMap_congr fun rid mem => (recordThere mem).symm

theorem bagsIs (sm : SmManager) (t : String) : IsBag (tableOf (contents sm) t) (bagsOf sm t) := by
  cases handle : sm.fhs t with
  | none =>
    have none : tableOf (contents sm) t = fun _ => none := by
      funext rid
      simp only [tableOf,contents,handle,Option.bind_none]
    rw [none,bagsOf,handle]
    exact ⟨[],⟨List.nodup_nil,by simp⟩,rfl⟩
  | some fh =>
    rw [SmManager.tableContents handle,bagsOf,handle]
    exact tableBag fh

theorem bagsSame (same : tableOf (contents sm') t = tableOf (contents sm) t) : bagsOf sm' t = bagsOf sm t :=
  (same ▸ bagsIs sm' t).unique (bagsIs sm t)

theorem keyedUnique (is : IsBag rows bag) : (∀ index ∈ tab.indexes, (bag.map (indexKey index)).Nodup) ↔
    ∀ index ∈ tab.indexes, UniqueKeys rows index :=
  forall₂_congr fun _ _ => is.apart

end Bags

section Scan
variable [FloatOps] {sm : SmManager} {tab : String → TabMeta} {t : String} {fh : RmFileHandle} {conds : List Condition}
  {x : ScanPlan}

omit [FloatOps] in
theorem tableScanIs (planned : Planner.tableScan sm.db t conds = .ok x) : IsScan sm.db t conds x := by
  rw [Planner.tableScan] at planned
  obtain ⟨⟨indexExist,names⟩,chosen,planned⟩ := exceptBind planned
  exact ⟨indexExist,names,chosen,(Except.ok.inj planned).symm⟩

theorem scanCollects (usable : Usable sm t (tab t) fh) (is : IsScan sm.db t conds x) (about : ∀ cond ∈ conds, About [t] cond)
    (sane : ∀ cond ∈ conds, Sane tab cond) :
    ∃ rids, Portal.scanRids x sm = (rids,none) ∧ TransactionManager.Collected (contents sm) t (selects tab conds) rids := by
  have rows := SmManager.tableContents usable.table.handle
  have tests (rid : Rid) (mem : ∃ record, fh.records rid = some record) : satisfies fh (tab t).cols conds rid =
      .ok ((fun rid => selects tab conds (recordAt fh rid)) rid) :=
    satisfiesSelected usable about sane (recordThere (RmScan.ridsMem.mpr mem))
  have collects (rids : List Rid) (once : rids.Nodup) (inside : ∀ rid ∈ rids, ∃ record, fh.records rid = some record)
      (complete : ∀ rid, satisfies fh (tab t).cols conds rid = .ok true → rid ∈ rids) : ∃ found,
      RecScan.sift (satisfies fh (tab t).cols conds) rids = (found,none) ∧
        TransactionManager.Collected (contents sm) t (selects tab conds) found := by
    refine ⟨_,RecScan.siftFilter fun rid mem => tests rid (inside rid mem),once.filter _,fun rid => ?_⟩
    rw [List.mem_filter,show contents sm (t,rid) = fh.records rid from congrFun rows rid]
    constructor
    · rintro ⟨mem,passed⟩
      exact ⟨_,recordThere (RmScan.ridsMem.mpr (inside rid mem)),passed⟩
    · rintro ⟨record,there,passed⟩
      have whole : recordAt fh rid = record := by rw [recordAt,there,Option.getD_some]
      have here := tests rid ⟨record,there⟩
      dsimp only at here ⊢
      rw [whole,passed] at here
      exact ⟨complete rid here,by rw [whole,passed]⟩
  obtain ⟨indexExist,names,chosen,rfl⟩ := is
  rw [getIndexColsListed usable.table.listed,Except.ok.injEq,Prod.mk.injEq] at chosen
  obtain ⟨exist,rfl⟩ := chosen
  cases indexExist with
  | false =>
    have complete : ∀ rid, satisfies fh (tab t).cols conds rid = .ok true → rid ∈ RmScan.rids fh := by
      intro rid passed
      rw [RmScan.ridsMem]
      cases read : fh.getRecord rid with
      | ok record => exact ⟨record,RmFileHandle.getRecordSome.mp read⟩
      | error e =>
        rw [satisfies,read] at passed
        cases passed
    obtain ⟨found,sifted,collected⟩ := collects _ (RmScan.ridsNodup fh) (fun rid mem => RmScan.ridsMem.mp mem) complete
    exact ⟨found,(seqVisited usable.table).trans sifted,collected⟩
  | true =>
    obtain ⟨index,found⟩ := @chosenListed tab t conds (of_decide_eq_true exist)
    have mem := indexMetaMem found
    obtain ⟨ih,m,has,agrees⟩ := usable.indexed index mem
    obtain ⟨rids,once,inside,complete,run⟩ := indexVisited usable.table found has agrees (usable.plainKeys _ mem)
      fun cond mem => saneSound usable (about cond mem) (sane cond mem)
    obtain ⟨found,sifted,collected⟩ := collects rids once inside complete
    exact ⟨found,run.trans sifted,collected⟩

end Scan

open Sessions (HoldsX)

inductive DmlEnd (fdOf : String → Int) (s : TransactionManager) (t : Int) (tabName : String) (target : Option (Multiset Bytes)) :
    EStateM.Result Fault TransactionManager Unit → Prop where
  | done {s' : TransactionManager} {bag : Multiset Bytes} (meant : target = some bag)
      (bags : bagsOf s'.smManager = Function.update (bagsOf s.smManager) tabName bag) (holds : HoldsX s' t (fdOf tabName)) :
      DmlEnd fdOf s t tabName target (.ok () s')
  | refused {txn : Int} {reason : AbortReason} {s' : TransactionManager} (same : s'.smManager = s.smManager) :
      DmlEnd fdOf s t tabName target (.error (.txnAbort txn reason) s')
  | failed {e : Fault} {s' : TransactionManager} (none : target = none) : DmlEnd fdOf s t tabName target (.error e s')

section Ends
variable {s : TransactionManager} {t : Int} {tab : TabMeta} {tabName : String} {fdOf : String → Int}
  {target : Option (Multiset Bytes)} {result : EStateM.Result Fault TransactionManager Unit}
  {change : Bytes → Except Fault (Option Bytes)} {sel : Bytes → Bool}

theorem bagsMoved {sm sm' : SmManager} {bag : Multiset Bytes} (now : IsBag (tableOf (contents sm') tabName) bag)
    (others : ∀ u, u ≠ tabName → tableOf (contents sm') u = tableOf (contents sm) u) :
    bagsOf sm' = Function.update (bagsOf sm) tabName bag := by
  funext u
  by_cases here : u = tabName
  · rw [here,Function.update_self]
    exact (bagsIs sm' tabName).unique now
  · rw [Function.update_of_ne here,bagsSame (others u here)]

theorem loopDml (ends : LoopEnd fdOf s t tab tabName change sel result)
    (yes : Fine tab tabName change sel (contents s.smManager) →
      target = some ((bagsOf s.smManager tabName).filterMap (changed change sel)))
    (no : ¬Fine tab tabName change sel (contents s.smManager) → target = none) : DmlEnd fdOf s t tabName target result := by
  cases ends with
  | done fine rows others holds =>
    exact .done (yes fine) (bagsMoved ((bagsIs s.smManager tabName).filterMap rows) others) holds
  | refused same => exact .refused same
  | failed never => exact .failed (no never)

theorem deletePasses {recordSize : Nat} : Passes tab (fun _ => .ok none) recordSize := by
  intro index mem old old' new value sized sized' deleted
  cases Except.ok.inj deleted

theorem updatePasses [FloatOps] {setClauses : List SetClause} {recordSize : Nat} (valid : tab.Valid recordSize)
    (plain : ∀ index ∈ tab.indexes, ∀ col ∈ index.cols, col.type ≠ .float) : Passes tab (setRow tab setClauses) recordSize := by
  intro index mem old old' new value sized sized' first second same
  cases set : UpdateExecutor.newRecord tab setClauses old with
  | error e => rw [setRow,set] at first; cases first
  | ok x =>
    rw [setRow,set] at first
    cases Except.ok.inj first
    cases set' : UpdateExecutor.newRecord tab setClauses old' with
    | error e => rw [setRow,set'] at second; cases second
    | ok new' =>
      rw [setRow,set'] at second
      have raw {record : Bytes} (whole : record.length = recordSize) := indexKeyPlain valid mem whole (plain index mem)
      have sizedNew := newRecordLength valid sized set
      rw [raw sizedNew,raw sized'] at same
      refine ⟨new',(Except.ok.inj second).symm,?_⟩
      rw [raw sizedNew,raw (newRecordLength valid sized' set')]
      exact keySettled valid mem sized sized' set set' same

theorem deletedKeyed {rows : Rid → Option Bytes} {index : IndexMeta} (unique : UniqueKeys rows index) :
    UniqueKeys (fun rid => (rows rid).bind (changed (fun _ => .ok none) sel)) index := by
  have kept {rid : Rid} {r : Bytes} (here : (rows rid).bind (changed (fun _ => .ok none) sel) = some r) : rows rid = some r := by
    obtain ⟨old,there,left⟩ := Option.bind_eq_some_iff.mp here
    rw [changed] at left
    split at left
    · cases left
    · rwa [← Option.some.inj left]
  intro a b ra rb hereA hereB same
  exact unique a b ra rb (kept hereA) (kept hereB) same

theorem changedDeleted (bag : Multiset Bytes) :
    bag.filterMap (changed (fun _ => .ok none) sel) = bag.filter fun record => ¬sel record := by
  rw [← Multiset.filterMap_eq_filter]
  congr 1
  funext record
  rw [changed,Option.guard]
  cases sel record <;> rfl

variable [FloatOps] {tabs : String → TabMeta} {setClauses : List SetClause} {conds : List Condition}

theorem changedSet :
    changed (setRow (tabs tabName) setClauses) (selects tabs conds) = setSelected tabs tabName setClauses conds := by
  funext record
  rw [changed,setSelected,setRow]
  cases UpdateExecutor.newRecord (tabs tabName) setClauses record <;> rfl

theorem updateFine (sm : SmManager) :
    (Fine (tabs tabName) tabName (setRow (tabs tabName) setClauses) (selects tabs conds) (contents sm) →
      updatedRows tabs tabName setClauses conds (bagsOf sm tabName) =
        some ((bagsOf sm tabName).filterMap (changed (setRow (tabs tabName) setClauses) (selects tabs conds)))) ∧
    (¬Fine (tabs tabName) tabName (setRow (tabs tabName) setClauses) (selects tabs conds) (contents sm) →
      updatedRows tabs tabName setClauses conds (bagsOf sm tabName) = none) := by
  have is := bagsIs sm tabName
  have all : (∀ record ∈ bagsOf sm tabName, (setSelected tabs tabName setClauses conds record).isSome) ↔
      ∀ rid record, contents sm (tabName,rid) = some record → selects tabs conds record = true →
        ∃ value, setRow (tabs tabName) setClauses record = .ok value := by
    have one (record : Bytes) : (setSelected tabs tabName setClauses conds record).isSome ↔
        (selects tabs conds record = true → ∃ value, setRow (tabs tabName) setClauses record = .ok value) := by
      rw [setSelected,setRow]
      cases selects tabs conds record <;> cases UpdateExecutor.newRecord (tabs tabName) setClauses record <;>
        simp [made,Except.map]
    simp only [is.mem,one]
    refine ⟨fun holds rid record there => holds record ⟨rid,there⟩,?_⟩
    rintro holds record ⟨rid,there⟩
    exact holds rid record there
  have unique := @keyedUnique _ (tabs tabName) _ (is.filterMap (g := setSelected tabs tabName setClauses conds) fun _ => rfl)
  rw [updatedRows,keyed,changedSet]
  refine ⟨fun fine => ?_,fun refused => ?_⟩
  · rw [if_pos (all.mpr fine.1),if_pos (unique.mpr (changedSet ▸ fine.2))]
  · split
    · rename_i every
      rw [if_neg fun keys => refused ⟨all.mp every,changedSet.symm ▸ unique.mp keys⟩]
    · rfl

end Ends

def Plain (sm : SmManager) : Prop := ∀ t tab, sm.db.getTable t = .ok tab →
  Planner.Shaped t tab ∧ (∀ col ∈ tab.cols, col.type ≠ .float) ∧ ∀ fh, sm.fhs t = some fh → fh.fileHdr.recordSize = rowSize tab

section Whole
variable {s : TransactionManager} {t : Int} {tab : TabMeta} {tabName : String} {fdOf : String → Int}

theorem plainUsable (agreed : s.smManager.Agreed) (plain : Plain s.smManager)
    (listed : s.smManager.db.getTable tabName = .ok tab) :
    ∃ fh, Usable s.smManager tabName (tabOf s.smManager.db tabName) fh := by
  obtain ⟨fh,table,agree⟩ := agreed.tables tabName tab listed
  obtain ⟨shaped,noFloat,size⟩ := plain tabName tab listed
  have known : tabOf s.smManager.db tabName = tab := by rw [tabOf,listed]
  rw [known]
  exact ⟨fh,table,shaped,size fh table.handle,agree,fun index mem col memCol =>
    noFloat _ (getColMem (table.valid.indexed index mem col memCol)).1⟩

variable [FloatOps]

theorem insertEnds {values : List Value} (safe : Safe s) (live : s.Live t) (agreed : s.smManager.Agreed)
    (plain : Plain s.smManager) (listed : s.smManager.db.getTable tabName = .ok tab) :
    DmlEnd fdOf s t tabName (insertedRow (tabOf s.smManager.db tabName) values (bagsOf s.smManager tabName))
      ((Dml.insert tabName values).run fdOf t s) := by
  have known : tabOf s.smManager.db tabName = tab := by rw [tabOf,listed]
  obtain ⟨fh,usable⟩ := plainUsable agreed plain listed
  rw [known] at usable ⊢
  have rows := SmManager.tableContents usable.table.handle
  have is := bagsIs s.smManager tabName
  rw [rows] at is
  have read : tableMeta tabName s = .ok tab s := by
    rw [tableMeta,getBind,listed]
    rfl
  rw [Dml.run,InsertExecutor.new,bind_assoc,bindEq read]
  by_cases count : values.length ≠ tab.cols.length
  · rw [if_pos count]
    exact .failed (by rw [insertedRow,if_pos count])
  rw [if_neg count,bind_assoc]
  have locked := @lockTableEnd s t tabName fdOf fh safe live usable.table.handle
  cases run : lockTable fdOf t tabName s with
  | error e s₁ =>
    rw [run] at locked
    rw [bindError run]
    cases locked with
    | refused same => exact .refused same
  | ok _ s₁ =>
    rw [run] at locked
    rw [bindEq run,pure_bind]
    cases locked with
    | done same safe₁ live₁ holds =>
      obtain ⟨txn,found,_⟩ := live₁
      rcases @insertRowEnd _ s₁ t txn tab tabName fh values found (by rwa [same]) (by rw [same]; exact usable.table) with
        ⟨record,rid,s₂,ran,made_,free,change⟩ | ⟨e,s₂,ran,never⟩
      · rw [ran]
        have quiet := @quietInsert t tab tabName _ values s₁
        rw [ran] at quiet
        have now : tableOf (contents s₂.smManager) tabName = Function.update fh.records rid (some record) := by
          rw [change.contents,SmManager.tableUpdate,same,rows]
        have added := now ▸ is.add free (v := record)
        refine .done ?_ (bagsMoved added fun u apart => ?_) (holds.same quiet)
        · rw [insertedRow,if_neg count,← usable.size,made_]
          refine if_pos ((keyedUnique added).mpr fun index mem => ?_)
          obtain ⟨fh',table',agree⟩ := change.agreed.tables tabName tab (by rw [change.db,same]; exact listed)
          obtain ⟨_,_,_,agrees⟩ := agree index mem
          rw [SmManager.tableContents table'.handle]
          exact agrees.unique
        · rw [change.contents,Database.otherUpdate apart,same]
      · rw [ran]
        refine .failed ?_
        rw [insertedRow,if_neg count,← usable.size]
        cases made_ : InsertExecutor.makeRecord tab values fh.fileHdr.recordSize with
        | error e => rfl
        | ok record =>
          obtain ⟨lost,well⟩ := usable.table.usable
          obtain ⟨rid,_,_,_,free,_⟩ := @RmFileHandle.insertRecordWell _ _ record well
          exact if_neg fun keys => never record rid made_ free ((keyedUnique (is.add free)).mp keys)

theorem deleteEnds {conds accepted : List Condition} {scan : ScanPlan} (safe : Safe s) (live : s.Live t)
    (agreed : s.smManager.Agreed) (plain : Plain s.smManager) (listed : s.smManager.db.getTable tabName = .ok tab)
    (checked : checkClause s.smManager.db [tabName] conds = .ok accepted)
    (compare : ∀ cond ∈ accepted, TypesCompare (tabOf s.smManager.db) cond)
    (planned : Planner.tableScan s.smManager.db tabName accepted = .ok scan) :
    DmlEnd fdOf s t tabName (some ((bagsOf s.smManager tabName).filter fun record =>
      ¬selects (tabOf s.smManager.db) accepted record)) ((Dml.delete tabName (Portal.scanRids scan)).run fdOf t s) := by
  obtain ⟨fh,usable⟩ := plainUsable agreed plain listed
  have usables : ∀ u ∈ [tabName], Usable s.smManager u (tabOf s.smManager.db u) fh := fun u mem =>
    List.mem_singleton.mp mem ▸ usable
  have sane := acceptedSane usables checked compare
  obtain ⟨rids,scanned,collected⟩ := scanCollects usable (tableScanIs planned) (fun cond mem => (sane cond mem).1)
    fun cond mem => (sane cond mem).2.1
  have ends : LoopEnd fdOf s t _ tabName _ _ ((Dml.delete tabName (Portal.scanRids scan)).run fdOf t s) := loopEnd
    (f := fun tab rid => DeleteExecutor.deleteRow t tab tabName rid) safe live agreed usable.table (fun _ _ => quietDelete) rfl
    (fun _ _ _ found agreed listed => deleteRowEnd found agreed listed) deletePasses scanned collected
  refine loopDml ends (fun _ => by rw [changedDeleted]) fun refused => ?_
  refine (refused ⟨fun _ _ _ _ => ⟨none,rfl⟩,fun index mem => ?_⟩).elim
  obtain ⟨_,_,_,agrees⟩ := usable.indexed index mem
  rw [SmManager.tableContents usable.table.handle]
  exact deletedKeyed agrees.unique

theorem updateEnds {conds accepted : List Condition} {setClauses : List SetClause} {scan : ScanPlan} (safe : Safe s)
    (live : s.Live t) (agreed : s.smManager.Agreed) (plain : Plain s.smManager) (listed : s.smManager.db.getTable tabName = .ok tab)
    (checked : checkClause s.smManager.db [tabName] conds = .ok accepted)
    (compare : ∀ cond ∈ accepted, TypesCompare (tabOf s.smManager.db) cond)
    (planned : Planner.tableScan s.smManager.db tabName accepted = .ok scan) :
    DmlEnd fdOf s t tabName (updatedRows (tabOf s.smManager.db) tabName setClauses accepted (bagsOf s.smManager tabName))
      ((Dml.update tabName setClauses (Portal.scanRids scan)).run fdOf t s) := by
  obtain ⟨fh,usable⟩ := plainUsable agreed plain listed
  have usables : ∀ u ∈ [tabName], Usable s.smManager u (tabOf s.smManager.db u) fh := fun u mem =>
    List.mem_singleton.mp mem ▸ usable
  have sane := acceptedSane usables checked compare
  obtain ⟨rids,scanned,collected⟩ := scanCollects usable (tableScanIs planned) (fun cond mem => (sane cond mem).1)
    fun cond mem => (sane cond mem).2.1
  have ends : LoopEnd fdOf s t _ tabName _ _ ((Dml.update tabName setClauses (Portal.scanRids scan)).run fdOf t s) := loopEnd
    (f := fun tab rid => UpdateExecutor.updateRow t tab tabName setClauses rid) safe live agreed usable.table
    (fun _ _ => quietUpdate setClauses) rfl (fun _ _ _ found agreed listed => updateRowEnd found agreed listed)
    (updatePasses usable.table.valid usable.plainKeys) scanned collected
  exact loopDml ends (updateFine s.smManager).1 (updateFine s.smManager).2

def TypesCompareIn (db : DbMeta) (x : Ast.DmlStmt) : Prop :=
  ∀ query, doAnalyzeDml db x = .ok query → ∀ cond ∈ query.conds, TypesCompare (tabOf db) cond

omit [FloatOps] in
theorem tableScanMade {db : DbMeta} {conds : List Condition} (listed : db.getTable tabName = .ok tab) :
    ∃ scan, Planner.tableScan db tabName conds = .ok scan := by
  rw [Planner.tableScan,getIndexColsListed listed]
  exact ⟨_,rfl⟩

theorem modifyEnds (x : Ast.DmlStmt) (safe : Safe s) (live : s.Live t) (agreed : s.smManager.Agreed) (plain : Plain s.smManager)
    (compare : TypesCompareIn s.smManager.db x) :
    DmlEnd fdOf s t x.tabName (dmlTarget s.smManager.db x (bagsOf s.smManager x.tabName)) (QlManager.modify fdOf t x s) := by
  rw [QlManager.modify,getBind,dmlTarget]
  cases analyzed : doAnalyzeDml s.smManager.db x with
  | error e => exact .failed rfl
  | ok query =>
    have compare := compare query analyzed
    rw [bindEq (ofExceptOk query s)]
    cases x with
    | insert tabName vals =>
      obtain ⟨tab,listed,last⟩ := exceptBind analyzed
      cases Except.ok.inj last
      exact insertEnds safe live agreed plain listed
    | delete tabName conds =>
      obtain ⟨tab,listed,rest⟩ := exceptBind analyzed
      obtain ⟨accepted,checked,last⟩ := exceptBind rest
      cases Except.ok.inj last
      obtain ⟨scan,planned⟩ := @tableScanMade _ _ _ accepted listed
      have plan : Planner.doPlannerDml s.smManager.db (.delete tabName accepted) = .ok (.delete scan tabName) := by
        rw [Planner.doPlannerDml,planned]
        rfl
      rw [plan,bindEq (ofExceptOk _ s)]
      exact deleteEnds safe live agreed plain listed checked compare planned
    | update tabName svSetClauses conds =>
      obtain ⟨tab,listed,rest⟩ := exceptBind analyzed
      obtain ⟨setClauses,_,rest⟩ := exceptBind rest
      obtain ⟨accepted,checked,last⟩ := exceptBind rest
      cases Except.ok.inj last
      obtain ⟨scan,planned⟩ := @tableScanMade _ _ _ accepted listed
      have plan : Planner.doPlannerDml s.smManager.db (.update tabName setClauses accepted) =
          .ok (.update scan tabName setClauses) := by
        rw [Planner.doPlannerDml,planned]
        rfl
      rw [plan,bindEq (ofExceptOk _ s)]
      exact updateEnds safe live agreed plain listed checked compare planned

theorem modifyMeaning (fdOf : String → Int) (x : Ast.DmlStmt) (s : TransactionManager) (t : Int) (safe : Safe s) (live : s.Live t)
    (agreed : s.smManager.Agreed) (plain : Plain s.smManager) (compare : TypesCompareIn s.smManager.db x) :
    (∀ s', QlManager.modify fdOf t x s = .ok () s' →
      dmlMeaning s.smManager.db x (bagsOf s.smManager) = some (bagsOf s'.smManager)) ∧
    (∀ e s', QlManager.modify fdOf t x s = .error e s' →
      (∃ txn reason, e = .txnAbort txn reason) ∧ s'.smManager = s.smManager ∨
        dmlMeaning s.smManager.db x (bagsOf s.smManager) = none) := by
  have ends := @modifyEnds s t fdOf _ x safe live agreed plain compare
  refine ⟨fun s' ran => ?_,fun e s' ran => ?_⟩
  · rw [ran] at ends
    cases ends with
    | done meant bags _ =>
      rw [dmlMeaning,meant,Option.map_some]
      exact congrArg some bags.symm
  · rw [ran] at ends
    cases ends with
    | refused same => exact .inl ⟨⟨_,_,rfl⟩,same⟩
    | failed none => exact .inr (by rw [dmlMeaning,none,Option.map_none])

end Whole

namespace Dml

def setSecond : Ast.DmlStmt := .update "t" [("a",⟨.int 5,none⟩)] [⟨⟨"t","a"⟩,.eq,.val ⟨.int 2,none⟩⟩]

theorem singlePlain {sm : SmManager} (tabs : sm.db.tabs.map (fun e => (e.1,e.2.cols)) = [("t",[⟨"t","a",.int,4,0⟩])])
    (file : (sm.fhs "t").map (fun fh => fh.fileHdr.recordSize) = some 4) : Plain sm := by
  obtain ⟨entry,one,same⟩ := List.map_eq_singleton_iff.mp tabs
  obtain ⟨name,cols⟩ := Prod.ext_iff.mp same
  intro t tab listed
  rw [DbMeta.getTable,one] at listed
  obtain ⟨name',tab'⟩ := entry
  dsimp only at name cols
  subst name
  by_cases here : t = "t"
  · subst here
    rw [List.lookup_cons_self] at listed
    cases Except.ok.inj listed
    refine ⟨⟨⟨[⟨"a",.int,4⟩],by simp,cols⟩,fun col mem => ?_⟩,fun col mem => ?_,fun fh handle => ?_⟩
    · rw [cols,List.mem_singleton] at mem
      rw [mem]
      rfl
    · rw [cols,List.mem_singleton] at mem
      rw [mem]
      decide
    · rw [handle] at file
      have size : fh.fileHdr.recordSize = 4 := Option.some.inj file
      rw [size,rowSize,cols]
      rfl
  · rw [List.lookup_cons,beq_false_of_ne here] at listed
    cases listed

theorem twoRowsPlain : Plain twoRows.smManager := singlePlain (by decide +kernel) (by decide +kernel)

theorem secondTyped : @TypesCompareIn .whole twoRows.smManager.db setSecond := by
  let _ := FloatOps.whole
  intro query analyzed cond mem c lhs rhs column
  have conds : (made (doAnalyzeDml twoRows.smManager.db setSecond)).map DmlQuery.conds =
      some [⟨⟨"t","a"⟩,.eq,.val ⟨.int 2,some [2,0,0,0]⟩⟩] := by decide +kernel
  rw [analyzed,made,Option.map_some,Option.some.injEq] at conds
  rw [conds,List.mem_singleton] at mem
  rw [mem] at column
  cases column

theorem secondRuns : @isOk _ _ (@QlManager.modify .whole (fun _ => 3) 1 setSecond twoRows) = true := by decide +kernel

theorem secondTarget : @dmlTarget .whole twoRows.smManager.db setSecond (bagsOf twoRows.smManager "t") =
    some {[1,0,0,0],[5,0,0,0]} := by
  decide +kernel

theorem secondBags : @dmlMeaning .whole twoRows.smManager.db setSecond (bagsOf twoRows.smManager) =
    some (Function.update (bagsOf twoRows.smManager) "t" {[1,0,0,0],[5,0,0,0]}) := by
  let _ := FloatOps.whole
  have name : setSecond.tabName = "t" := rfl
  rw [dmlMeaning,name,secondTarget,Option.map_some]

theorem secondSet : ∃ s', @QlManager.modify .whole (fun _ => 3) 1 setSecond twoRows = .ok () s' ∧
    bagsOf s'.smManager "t" = {[1,0,0,0],[5,0,0,0]} := by
  obtain ⟨safe,live,agreed⟩ := twoRowsReady
  have ran := secondRuns
  cases run : @QlManager.modify .whole (fun _ => 3) 1 setSecond twoRows with
  | error e s' =>
    rw [run] at ran
    cases ran
  | ok _ s' =>
    have meant := (@modifyMeaning .whole (fun _ => 3) setSecond twoRows 1 safe live agreed twoRowsPlain secondTyped).1 s' run
    rw [secondBags] at meant
    refine ⟨s',rfl,?_⟩
    rw [← Option.some.inj meant,Function.update_self]

end Dml
end Rmdb
