import Rmdb.Execution.RowWrites
import Rmdb.Transaction.LogOrder
import Rmdb.Transaction.Rollback

/-! What INSERT, DELETE and UPDATE leave behind, whether they return or throw: tables that their
indexes agree with, and write records that undo what was done. -/
namespace Rmdb
open Record Index Recovery TransactionManager

section Lengths
variable {record record' : Bytes} {tab : TabMeta} {recordSize : Nat}

theorem initRawLength {value val : Value} {len : Nat} (ok : value.initRaw len = .ok val) : (val.raw.getD []).length = len := by
  obtain ⟨scalar,raw⟩ := value
  rw [Value.initRaw] at ok
  split at ok
  · cases ok
  · have fixed {width : Nat} {text : String} {bytes : Bytes} {scalar : Scalar} (sized : bytes.length = width)
        (ok : (if len = width then Except.ok ⟨scalar,some bytes⟩ else .error (Fault.assertion text)) = .ok val) :
        (val.raw.getD []).length = len := by
      split at ok
      · rename_i same
        cases ok
        exact sized.trans same.symm
      · cases ok
    cases scalar with
    | int v => exact fixed (leBytesLength 4 v) ok
    | bigint v => exact fixed (leBytesLength 8 v) ok
    | datetime v => exact fixed (leBytesLength 8 v) ok
    | float v => exact fixed (leBytesLength 4 v.toNat) ok
    | str v =>
      dsimp only at ok
      split at ok
      · cases ok
      · rename_i fits
        cases ok
        simp only [Option.getD_some,List.length_append,List.length_replicate]
        omega

theorem setColumnLength [FloatOps] {col : ColMeta} {value : Value} (inside : col.offset+col.len ≤ record.length)
    (ok : setColumn record col value = .ok record') : record'.length = record.length := by
  rw [setColumn] at ok
  obtain ⟨_,_,ok⟩ := exceptBind ok
  obtain ⟨val,raw,ok⟩ := exceptBind ok
  have length := initRawLength raw
  cases ok
  simp only [copyInto,List.length_append,List.length_take,List.length_drop]
  omega

theorem foldColumnsLength {α : Type} {step : Bytes → α → Except Fault Bytes} {l : List α}
    (each : ∀ x ∈ l, ∀ r r', r.length = recordSize → step r x = .ok r' → r'.length = recordSize)
    (sized : record.length = recordSize) (ok : l.foldlM step record = .ok record') : record'.length = recordSize := by
  induction l generalizing record with
  | nil =>
    cases ok
    exact sized
  | cons x l ih =>
    rw [List.foldlM_cons] at ok
    obtain ⟨r,one,rest⟩ := exceptBind ok
    exact ih (fun y mem => each y (List.mem_cons_of_mem _ mem)) (each x List.mem_cons_self _ _ sized one) rest

theorem makeRecordLength [FloatOps] {values : List Value} (valid : tab.Valid recordSize)
    (ok : InsertExecutor.makeRecord tab values recordSize = .ok record) : record.length = recordSize := by
  refine foldColumnsLength (fun x mem r r' sized step => ?_) List.length_replicate ok
  have inside := valid.inside x.2 (List.of_mem_zip mem).2
  exact (setColumnLength (sized ▸ inside) step).trans sized

theorem newRecordLength [FloatOps] {setClauses : List SetClause} (valid : tab.Valid recordSize)
    (sized : record.length = recordSize) (ok : UpdateExecutor.newRecord tab setClauses record = .ok record') :
    record'.length = recordSize := by
  refine foldColumnsLength (fun clause mem r r' sized step => ?_) sized ok
  obtain ⟨col,found,set⟩ := exceptBind step
  have inside := valid.inside col (getColMem found).1
  exact (setColumnLength (sized ▸ inside) set).trans sized

end Lengths

section Checks
variable {sm : SmManager} {tabName : String} {tab : TabMeta} {index : IndexMeta} {ih : IxHandle} {m : Bytes → Option Rid}
  {records : Rid → Option Bytes} {record old : Bytes} {rid : Rid} {self : Option Rid}

theorem forMEach {l : List IndexMeta} {f : IndexMeta → Except Fault Unit} (ok : l.forM f = .ok ()) : ∀ x ∈ l, f x = .ok () := by
  induction l with
  | nil => exact fun x mem => nomatch mem
  | cons x l ih =>
    rw [List.forM] at ok
    obtain ⟨_,one,rest⟩ := exceptBind ok
    intro y mem
    rcases List.mem_cons.mp mem with rfl | later
    · exact one
    · exact ih rest y later

section Own
variable (cols : ih.cols = index.cols) (maps : ih.Maps m)
  (fits : (buildIndexKey index record).length = colTotLen (ranks index.cols))
include cols maps fits

theorem ensureUniqueRun : ensureIndexKeyUnique ih (buildIndexKey index record) self = .ok () ↔
    ∀ rid, m (indexKey index record) = some rid → self = some rid := by
  rw [ensureIndexKeyUnique,evalOk (getKey cols maps fits)]
  cases held : m (indexKey index record) with
  | none => exact iff_of_true rfl fun rid never => nomatch never
  | some hit =>
    change (if self = some hit then Except.ok () else .error _) = _ ↔ _
    split
    · rename_i own
      exact iff_of_true rfl fun rid same => same ▸ own
    · rename_i other
      exact iff_of_false (fun never => nomatch never) fun all => other (all hit rfl)

end Own

theorem insertUnique (valid : tab.Valid record.length) (agree : sm.IndexesAgree tabName tab.indexes records)
    (free : records rid = none) (ok : InsertExecutor.checkUnique sm tab tabName record = .ok ()) :
    ∀ index ∈ tab.indexes, UniqueKeys (Function.update records rid (some record)) index := by
  intro index mem
  obtain ⟨ih,m,has,agrees⟩ := agree index mem
  have one := forMEach ok index mem
  rw [SmManager.indexHandle,has.handle] at one
  have mine := (ensureUniqueRun has.cols has.maps (buildIndexKeyLength valid mem rfl)).mp one
  refine (agrees.added free ?_).unique
  cases held : m (indexKey index record) with
  | none => rfl
  | some rid' => cases mine rid' held

theorem updateUnique (valid : tab.Valid record.length) (agree : sm.IndexesAgree tabName tab.indexes records)
    (present : records rid = some old) (ok : UpdateExecutor.checkUnique sm tab tabName rid old record = .ok ()) :
    ∀ index ∈ tab.indexes, UniqueKeys (Function.update records rid (some record)) index := by
  intro index mem
  obtain ⟨ih,m,has,agrees⟩ := agree index mem
  by_cases same : indexKey index old = indexKey index record
  · exact (agrees.kept present same).unique
  · have one := forMEach ok index mem
    have differs : buildIndexKey index old ≠ buildIndexKey index record := fun equal => same (congrArg (rankKey index.cols) equal)
    simp only [has.handle,ne_eq,differs,not_false_eq_true,if_true] at one
    have absent : m (indexKey index record) = none := by
      cases held : m (indexKey index record) with
      | none => rfl
      | some rid' =>
        cases (ensureUniqueRun has.cols has.maps (buildIndexKeyLength valid mem rfl)).mp one rid' held
        obtain ⟨r,there,equal⟩ := (agrees _ _).mp held
        rw [present] at there
        cases there
        exact absurd equal same
    have removed := agrees.removed present
    have added := @Agrees.added _ _ _ rid record removed (Function.update_self ..)
      ((Function.update_of_ne (Ne.symm same) ..).trans absent)
    rw [Function.update_idem] at added
    exact added.unique

theorem forMOk {l : List IndexMeta} {f : IndexMeta → Except Fault Unit} (each : ∀ x ∈ l, f x = .ok ()) : l.forM f = .ok () := by
  induction l with
  | nil => rfl
  | cons x l ih =>
    rw [List.forM,each x List.mem_cons_self]
    exact ih fun y mem => each y (List.mem_cons_of_mem _ mem)

theorem updateChecked (valid : tab.Valid record.length) (agree : sm.IndexesAgree tabName tab.indexes records)
    (unique : ∀ index ∈ tab.indexes, UniqueKeys (Function.update records rid (some record)) index) :
    UpdateExecutor.checkUnique sm tab tabName rid old record = .ok () := by
  refine forMOk fun index mem => ?_
  obtain ⟨ih,m,has,agrees⟩ := agree index mem
  simp only [has.handle]
  split
  · -- two keys that differ only in the sign of a zero are one key of the tree, which is the record's own
    refine (ensureUniqueRun has.cols has.maps (buildIndexKeyLength valid mem rfl)).mpr fun r held => ?_
    obtain ⟨there,here,equal⟩ := (agrees _ _).mp held
    by_contra other
    have apart : r ≠ rid := fun same => other (same ▸ rfl)
    exact absurd (unique index mem r rid there record (by rw [Function.update_of_ne apart,here]) (Function.update_self ..)
      equal) apart
  · rfl

end Checks

namespace TransactionManager

structure Led (s s' : TransactionManager) (t : Int) (new : List WriteRecord) : Prop where
  agreed : s'.smManager.Agreed
  same : s.smManager.SameTables s'.smManager
  writes : s'.writesOf = Function.update s.writesOf t ((s.writesOf t).map (· ++ new))
  traced : s'.smManager.Traced new.reverse (contents s'.smManager)
  apart : SmManager.KeysApart s'.smManager.db new.reverse (contents s'.smManager)
  undone : undoneAll new.reverse (contents s'.smManager) = contents s.smManager

structure Did (s s' : TransactionManager) (t : Int) (tabName : String) (new : List WriteRecord) : Prop extends
    Led s s' t new where
  there : ∀ w ∈ new, w.tabName = tabName

section Did
variable {s s' s'' : TransactionManager} {t : Int} {tabName : String} {new new' : List WriteRecord} {sm : SmManager}
  {c : Contents} {ws ws' : List WriteRecord} {db : DbMeta}

theorem tracedAppend : sm.Traced (ws ++ ws') c ↔ sm.Traced ws c ∧ sm.Traced ws' (undoneAll ws c) := by
  induction ws generalizing c with
  | nil => simp [SmManager.Traced,undoneAll]
  | cons w ws ih =>
    rw [List.cons_append,SmManager.Traced,SmManager.Traced,ih,undoneAll,undoneAll,List.foldl_cons]
    simp only [and_assoc]

theorem apartAppend : SmManager.KeysApart db (ws ++ ws') c ↔
    SmManager.KeysApart db ws c ∧ SmManager.KeysApart db ws' (undoneAll ws c) := by
  induction ws generalizing c with
  | nil => simp [SmManager.KeysApart,undoneAll]
  | cons w ws ih =>
    rw [List.cons_append,SmManager.KeysApart,SmManager.KeysApart,ih,undoneAll,undoneAll,List.foldl_cons]
    simp only [and_assoc]

theorem undoneAppend : undoneAll (ws ++ ws') c = undoneAll ws' (undoneAll ws c) := List.foldl_append

theorem Led.refl (agreed : s.smManager.Agreed) : Led s s t [] := by
  refine ⟨agreed,.refl _,?_,trivial,trivial,rfl⟩
  have same : (s.writesOf t).map (· ++ []) = s.writesOf t := by
    cases s.writesOf t <;> simp
  rw [same,Function.update_eq_self]

theorem Led.trans (one : Led s s' t new) (two : Led s' s'' t new') : Led s s'' t (new ++ new') := by
  refine ⟨two.agreed,one.same.trans two.same,?_,?_,?_,?_⟩
  · rw [two.writes,one.writes,Function.update_idem,Function.update_self,Option.map_map]
    congr 2
    funext ws
    exact List.append_assoc ..
  · rw [List.reverse_append,tracedAppend,two.undone]
    exact ⟨two.traced,one.traced.keep two.same⟩
  · rw [List.reverse_append,apartAppend,two.undone,two.same.db]
    exact ⟨two.same.db ▸ two.apart,one.apart⟩
  · rw [List.reverse_append,undoneAppend,two.undone,one.undone]

theorem Led.after (led : Led s s' t new) (aside : Aside s' s'') : Led s s'' t new := by
  refine ⟨?_,?_,aside.writes.trans led.writes,?_,?_,?_⟩ <;> rw [aside.sm]
  · exact led.agreed
  · exact led.same
  · exact led.traced
  · exact led.apart
  · exact led.undone

theorem Led.before (aside : Aside s s') (led : Led s' s'' t new) : Led s s'' t new := by
  refine ⟨led.agreed,?_,?_,led.traced,led.apart,?_⟩
  · rw [← aside.sm]
    exact led.same
  · rw [← aside.writes]
    exact led.writes
  · rw [← aside.sm]
    exact led.undone

theorem Did.refl (agreed : s.smManager.Agreed) : Did s s t tabName [] := ⟨.refl agreed,fun _ mem => (nomatch mem)⟩

theorem Did.trans (one : Did s s' t tabName new) (two : Did s' s'' t tabName new') : Did s s'' t tabName (new ++ new') := by
  refine ⟨one.toLed.trans two.toLed,fun w mem => ?_⟩
  rcases List.mem_append.mp mem with mem | mem
  · exact one.there w mem
  · exact two.there w mem

end Did

/- One turn of an executor. When it throws, the tables, the indexes and the log are as they were. -/
inductive Turned (s : TransactionManager) (t : Int) (tabName : String) : EStateM.Result Fault TransactionManager Unit → Prop where
  | done {s' : TransactionManager} {w : WriteRecord} (did : Did s s' t tabName [w]) : Turned s t tabName (.ok () s')
  | failed {e : Fault} {s' : TransactionManager} {new : List WriteRecord} (did : Did s s' t tabName new)
      (same : s'.smManager = s.smManager) (log : s'.log = s.log) : Turned s t tabName (.error e s')

section Rows
variable {s s' : TransactionManager} {t : Int} {txn : Transaction} {tabName : String} {tab : TabMeta} {fh : RmFileHandle}
  {rid : Rid} {record old : Bytes} {value : Option Bytes} {w : WriteRecord}

def noted (s : TransactionManager) (t : Int) (w : WriteRecord) : TransactionManager := {s with
  txnMap := Function.update s.txnMap t ((s.txnMap t).map fun object => {object with writeSet := object.writeSet ++ [w]})}

theorem appendWriteRun (w : WriteRecord) : appendWriteRecord t w s = .ok () (s.noted t w) := rfl

theorem notedWrites : (s.noted t w).writesOf = Function.update s.writesOf t ((s.writesOf t).map (· ++ [w])) := by
  funext u
  by_cases here : u = t
  · subst here
    simp only [noted,writesOf,Function.update_self,Option.map_map,Function.comp_def]
  · simp only [noted,writesOf,Function.update_of_ne here]

theorem notedFound (found : s.txnMap t = some txn) : (s.noted t w).txnMap t = some {txn with writeSet := txn.writeSet ++ [w]} := by
  simp only [noted,Function.update_self,found,Option.map_some]

theorem logRecordAside {r : LogRecord} (found : s.txnMap t = some txn) (own : r.logTid = t) :
    ∃ s' txn', logRecord t r s = .ok () s' ∧ Aside s s' ∧ s'.txnMap t = some txn' ∧
      ∃ r', s'.log = s.log ++ [r'] ∧ r'.data = r.data := by
  obtain ⟨s',r',run,log,_,data,_,same,_⟩ := logRecordRun found own
  have frame : Aside s (after (logRecord t r s)) := asideBind (asideAppendLog r) (fun _ => asideOnLog _) s
  rw [run] at frame
  obtain ⟨txn',found',_⟩ := same.forth found
  exact ⟨s',txn',run,frame,found',r',log,data⟩

theorem presentLocated (usable : fh.Usable) (present : fh.records rid = some record) : fh.HasPage rid.pageNo ∧
    0 ≤ rid.slotNo ∧ rid.slotNo < fh.fileHdr.numRecordsPerPage := by
  obtain ⟨lost,chain,well⟩ := usable
  obtain ⟨has,low,page,here,slot⟩ := RmFileHandle.recordsSome.mp present
  obtain ⟨_,same,counted⟩ := well.page _ has
  obtain rfl := Option.some.inj (here.symm.trans same)
  have high := (List.getElem?_eq_some_iff.mp slot).1
  rw [counted.length] at high
  exact ⟨has,low,by omega⟩

theorem rowDid (agreed : s.smManager.Agreed) (change : s.smManager.RowChange w.tabName w.rid value s'.smManager)
    (located : s'.smManager.Located w) (free : w.wtype = .deleteTuple → value = none)
    (back : w.undone (Function.update (contents s.smManager) w.place value) = contents s.smManager)
    (writes : s'.writesOf = Function.update s.writesOf t ((s.writesOf t).map (· ++ [w]))) : Did s s' t w.tabName [w] := by
  have now : contents s'.smManager = Function.update (contents s.smManager) w.place value := change.contents
  refine ⟨⟨change.agreed,change.sameTables,writes,⟨located,fun kind => ?_,trivial⟩,
    ⟨fun tab listed index mem => ?_,trivial⟩,?_⟩,fun x mem => by rw [List.mem_singleton.mp mem]⟩
  · rw [now,Function.update_self,free kind]
  · rw [now,back]
    rw [change.db] at listed
    obtain ⟨fh,table,agree⟩ := agreed.tables _ _ listed
    obtain ⟨_,_,_,agrees⟩ := agree index mem
    rw [SmManager.tableContents table.handle]
    exact agrees.unique
  · rw [List.reverse_singleton,now]
    exact back

theorem tableMetaListed (run : tableMeta tabName s = .ok tab s') : s.smManager.db.getTable tabName = .ok tab ∧ s = s' := by
  rw [tableMeta,getBind] at run
  exact ofExceptDone run

theorem insertTurned [FloatOps] {values : List Value} (found : s.txnMap t = some txn) (agreed : s.smManager.Agreed)
    (listed : s.smManager.db.getTable tabName = .ok tab) :
    Turned s t tabName (InsertExecutor.next t tab tabName values s) := by
  obtain ⟨fh,table,agree⟩ := agreed.tables _ _ listed
  have unchanged : Did s s t tabName [] := Did.refl agreed
  rw [InsertExecutor.next,bindEq (tableFileRun table.handle)]
  cases made : InsertExecutor.makeRecord tab values fh.fileHdr.recordSize with
  | error e => exact .failed unchanged rfl rfl
  | ok record =>
    rw [bindEq (ofExceptOk record s),getBind]
    cases checked : InsertExecutor.checkUnique s.smManager tab tabName record with
    | error e => exact .failed unchanged rfl rfl
    | ok _ =>
      rw [bindEq (ofExceptOk () s)]
      have sized := makeRecordLength table.valid made
      obtain ⟨lost,well⟩ := table.usable
      obtain ⟨rid,fh',put,well',free,records,extended⟩ := @RmFileHandle.insertRecordWell _ _ record well
      have unique := insertUnique (sized ▸ table.valid) agree free checked
      obtain ⟨sm',run,change⟩ := SmManager.addRow (f := fun index => do
          let sm ← get
          let _ ← ofExcept (sm.indexHandle tabName index)
          SmManager.onIndex tabName index (IxHandle.insertEntry (buildIndexKey index record) rid))
        agreed table ⟨lost,well'⟩ free records extended sized fun index mem => by
          rw [records]
          intro sm ih m has agrees
          have turned := SmManager.insertTurns table.valid mem sized free (unique index mem) sm ih m has agrees
          rw [getBind,SmManager.indexHandle,has.handle,bindEq (ofExceptOk ih sm)]
          exact turned
      let placed : TransactionManager := {s with
        smManager := {s.smManager with fhs := Function.update s.smManager.fhs tabName (some fh')}}
      have inserted : onSm (SmManager.onFile tabName (RmFileHandle.insertRecord record)) s = .ok rid placed :=
        onSmOk (onFileOk table.handle put)
      obtain ⟨u,txn',logged,aside,found',_⟩ := @logRecordAside placed t txn (.insertLogRecord t record rid tabName) found rfl
      let w : WriteRecord := ⟨.insertTuple,tabName,rid,[]⟩
      let s' : TransactionManager := {u.noted t w with smManager := sm'}
      have entries : onSm (InsertExecutor.insertEntries tab tabName record rid) (u.noted t w) = .ok () s' := by
        refine onSmOk ?_
        rw [show (u.noted t w).smManager = u.smManager from rfl,aside.sm]
        exact run
      rw [bindEq inserted,bindEq logged,bindEq (appendWriteRun w),entries]
      refine .done (w := w) (@rowDid _ _ _ (some record) w agreed change ?_ (by simp [w]) ?_ ?_)
      · obtain ⟨fh₁,fh₂,one,two,records₂,_⟩ := change.file
        obtain rfl := table.open one
        have present : fh₂.records rid = some record := by rw [records₂,Function.update_self]
        obtain ⟨fh₃,table₃,_⟩ := change.agreed.tables tabName tab (by rw [change.db]; exact listed)
        have handle : sm'.fhs tabName = some fh₂ := by rw [two,Function.update_self]
        obtain rfl := table₃.open handle
        obtain ⟨has,low,high⟩ := presentLocated table₃.usable present
        exact ⟨⟨tab,table₃.listed⟩,fh₂,handle,has,low,high,fun kind => absurd rfl kind⟩
      · have before : contents s.smManager (tabName,rid) = none :=
          (congrFun (SmManager.tableContents table.handle) rid).trans free
        simp only [WriteRecord.undone,w,Function.update_idem]
        rw [WriteRecord.place,← before,Function.update_eq_self]
      · exact notedWrites.trans (by rw [aside.writes]; rfl)

theorem rowLocated {sm : SmManager} {record : Bytes} (table : sm.HasTable w.tabName tab fh)
    (change : sm.RowChange w.tabName w.rid value s'.smManager) (present : fh.records w.rid = some record)
    (own : w.record = record) : s'.smManager.Located w := by
  obtain ⟨has,low,high⟩ := presentLocated table.usable present
  have located : sm.Located w := ⟨⟨tab,table.listed⟩,fh,table.handle,has,low,high,fun _ => by
    rw [own]
    exact table.sized _ _ present⟩
  exact located.keep change.sameTables

structure Accepts (tab : TabMeta) (tabName : String) (change : Bytes → Except Fault (Option Bytes)) (c : Contents) (rid : Rid)
    (old : Bytes) (value : Option Bytes) : Prop where
  there : c (tabName,rid) = some old
  made : change old = .ok value
  unique : ∀ index ∈ tab.indexes, UniqueKeys (tableOf (Function.update c (tabName,rid) value) tabName) index

structure RowDone (s s' : TransactionManager) (t : Int) (w : WriteRecord) (value : Option Bytes) : Prop where
  change : s.smManager.RowChange w.tabName w.rid value s'.smManager
  writes : s'.writesOf = Function.update s.writesOf t ((s.writesOf t).map (· ++ [w]))
  log : ∃ r, s'.log = s.log ++ [r] ∧ r.data.place = some w.place ∧ r.data.afterImage = value

inductive RowEnd (s : TransactionManager) (t : Int) (tab : TabMeta) (tabName : String)
    (change : Bytes → Except Fault (Option Bytes)) (wtype : WType) (rid : Rid) :
    EStateM.Result Fault TransactionManager Unit → Prop where
  | done {s' : TransactionManager} {old : Bytes} {value : Option Bytes}
      (accepts : Accepts tab tabName change (contents s.smManager) rid old value)
      (row : RowDone s s' t ⟨wtype,tabName,rid,old⟩ value) : RowEnd s t tab tabName change wtype rid (.ok () s')
  | refused {e : Fault} {s' : TransactionManager} {new : List WriteRecord}
      (never : ∀ old value, ¬Accepts tab tabName change (contents s.smManager) rid old value) (did : Did s s' t tabName new)
      (same : s'.smManager = s.smManager) (log : s'.log = s.log) : RowEnd s t tab tabName change wtype rid (.error e s')

def Leaves (wtype : WType) (value : Option Bytes) : Prop :=
  match wtype with
  | .insertTuple => False
  | .deleteTuple => value = none
  | .updateTuple => value ≠ none

theorem RowEnd.turned {change : Bytes → Except Fault (Option Bytes)} {wtype : WType}
    {result : EStateM.Result Fault TransactionManager Unit} (agreed : s.smManager.Agreed)
    (listed : s.smManager.db.getTable tabName = .ok tab) (leaves : ∀ old value, change old = .ok value → Leaves wtype value)
    (end_ : RowEnd s t tab tabName change wtype rid result) : Turned s t tabName result := by
  cases end_ with
  | refused _ did same log => exact .failed did same log
  | @done s' old value accepts row =>
    obtain ⟨fh,table,_⟩ := agreed.tables _ _ listed
    have left := leaves old value accepts.made
    have present : fh.records rid = some old := (congrFun (SmManager.tableContents table.handle) rid).symm.trans accepts.there
    let w : WriteRecord := ⟨wtype,tabName,rid,old⟩
    have before : contents s.smManager w.place = some w.record := accepts.there
    refine .done (w := w) (rowDid (w := w) agreed row.change (rowLocated (w := w) table row.change present rfl) ?_ ?_ row.writes)
    · intro kind
      rw [show wtype = .deleteTuple from kind] at left
      exact left
    · have back : Function.update (Function.update (contents s.smManager) w.place value) w.place (some w.record) =
          contents s.smManager := by rw [Function.update_idem,← before,Function.update_eq_self]
      cases wtype with
      | insertTuple => exact left.elim
      | deleteTuple => exact back
      | updateTuple =>
        have some_ : value.isSome = true := Option.isSome_iff_ne_none.mpr left
        rw [WriteRecord.undone]
        simp only [w,Function.update_self,some_,if_true]
        exact back

theorem deleteRowEnd (found : s.txnMap t = some txn) (agreed : s.smManager.Agreed)
    (listed : s.smManager.db.getTable tabName = .ok tab) : RowEnd s t tab tabName (fun _ => .ok none) .deleteTuple rid
      (DeleteExecutor.deleteRow t tab tabName rid s) := by
  obtain ⟨fh,table,agree⟩ := agreed.tables _ _ listed
  have rows := SmManager.tableContents table.handle
  rw [DeleteExecutor.deleteRow,bindEq (tableFileRun table.handle)]
  cases read : fh.getRecord rid with
  | error e =>
    refine .refused (fun old value accepts => ?_) (Did.refl agreed) rfl rfl
    have there := (congrFun rows rid).symm.trans accepts.there
    rw [RmFileHandle.getRecordSome.mpr there] at read
    cases read
  | ok record =>
    have present := RmFileHandle.getRecordSome.mp read
    rw [bindEq (ofExceptOk record s)]
    let w : WriteRecord := ⟨.deleteTuple,tabName,rid,record⟩
    obtain ⟨u,txn',logged,aside,_,r,log,data⟩ := @logRecordAside s t txn (.deleteLogRecord t record rid tabName) found rfl
    obtain ⟨sm₁,sm',deleted,removed,change⟩ := SmManager.removeRow agreed table present
    have entries : onSm (deleteIndexEntries tab tabName record) (u.noted t w) = .ok () {u.noted t w with smManager := sm₁} := by
      refine onSmOk ?_
      rw [show (u.noted t w).smManager = u.smManager from rfl,aside.sm]
      exact deleted
    let s' : TransactionManager := {u.noted t w with smManager := sm'}
    have file : onSm (SmManager.onFile tabName (RmFileHandle.deleteRecord rid)) {u.noted t w with smManager := sm₁} =
        .ok () s' := onSmOk removed
    rw [bindEq logged,bindEq (appendWriteRun w),bindEq entries,file]
    refine .done ⟨(congrFun rows rid).trans present,rfl,fun index mem => ?_⟩
      ⟨change,notedWrites.trans (by rw [aside.writes]),r,log,by rw [data]; rfl,by rw [data]; rfl⟩
    obtain ⟨_,_,_,agrees⟩ := agree index mem
    rw [SmManager.tableUpdate,rows]
    exact (agrees.removed present).unique

theorem deleteTurned (found : s.txnMap t = some txn) (agreed : s.smManager.Agreed)
    (listed : s.smManager.db.getTable tabName = .ok tab) :
    Turned s t tabName (DeleteExecutor.deleteRow t tab tabName rid s) := by
  refine (deleteRowEnd found agreed listed).turned agreed listed fun old value made => ?_
  exact (Except.ok.inj made).symm

def setRow [FloatOps] (tab : TabMeta) (setClauses : List SetClause) (old : Bytes) : Except Fault (Option Bytes) :=
  (UpdateExecutor.newRecord tab setClauses old).map some

theorem updateRowEnd [FloatOps] {setClauses : List SetClause} (found : s.txnMap t = some txn) (agreed : s.smManager.Agreed)
    (listed : s.smManager.db.getTable tabName = .ok tab) : RowEnd s t tab tabName (setRow tab setClauses) .updateTuple rid
      (UpdateExecutor.updateRow t tab tabName setClauses rid s) := by
  obtain ⟨fh,table,agree⟩ := agreed.tables _ _ listed
  have rows := SmManager.tableContents table.handle
  rw [UpdateExecutor.updateRow,bindEq (tableFileRun table.handle)]
  cases read : fh.getRecord rid with
  | error e =>
    refine .refused (fun old value accepts => ?_) (Did.refl agreed) rfl rfl
    have there := (congrFun rows rid).symm.trans accepts.there
    rw [RmFileHandle.getRecordSome.mpr there] at read
    cases read
  | ok old =>
    have present := RmFileHandle.getRecordSome.mp read
    let w : WriteRecord := ⟨.updateTuple,tabName,rid,old⟩
    have before : contents s.smManager w.place = some old := (congrFun rows rid).trans present
    have kept : Did s (s.noted t w) t tabName [w] := by
      obtain ⟨has,low,high⟩ := presentLocated table.usable present
      have back : w.undone (contents s.smManager) = contents s.smManager := by
        simp only [WriteRecord.undone,before,Option.isSome_some,if_true]
        rw [show some w.record = contents s.smManager w.place from before.symm,Function.update_eq_self]
      refine ⟨⟨agreed,.refl _,notedWrites,⟨⟨⟨tab,listed⟩,fh,table.handle,has,low,high,fun _ => ?_⟩,?_,trivial⟩,
        ⟨fun tab' listed' index mem => ?_,trivial⟩,back⟩,fun x mem => by rw [List.mem_singleton.mp mem]⟩
      · exact table.sized _ _ present
      · simp [w]
      · rw [show contents (s.noted t w).smManager = contents s.smManager from rfl,back]
        obtain rfl := Except.ok.inj (listed.symm.trans listed')
        obtain ⟨_,_,_,agrees⟩ := agree index mem
        rw [SmManager.tableContents table.handle]
        exact agrees.unique
    rw [bindEq (ofExceptOk old s),bindEq (appendWriteRun w)]
    cases made : UpdateExecutor.newRecord tab setClauses old with
    | error e =>
      refine .refused (fun old' value accepts => ?_) kept rfl rfl
      cases Option.some.inj (before.symm.trans accepts.there)
      have set := accepts.made
      rw [setRow,made] at set
      cases set
    | ok new =>
      have sized := newRecordLength table.valid (table.sized _ _ present) made
      have valid : tab.Valid new.length := by
        rw [sized]
        exact table.valid
      rw [bindEq (ofExceptOk new _),getBind]
      cases checked : UpdateExecutor.checkUnique (s.noted t w).smManager tab tabName rid old new with
      | error e =>
        refine .refused (fun old' value accepts => ?_) kept rfl rfl
        cases Option.some.inj (before.symm.trans accepts.there)
        have set := accepts.made
        rw [setRow,made] at set
        cases Except.ok.inj set
        have free : UpdateExecutor.checkUnique s.smManager tab tabName rid old new = .ok () :=
            updateChecked valid agree fun index mem => by
          have unique := accepts.unique index mem
          rwa [SmManager.tableUpdate,rows] at unique
        cases checked.symm.trans free
      | ok _ =>
        rw [bindEq (ofExceptOk () _)]
        have unique := updateUnique valid agree present checked
        obtain ⟨sm₁,replaced,files,sm',updated,change⟩ := SmManager.changeRow agreed table present sized fun index mem =>
          SmManager.changeTurns table.valid mem Iff.rfl (table.sized _ _ present) sized present (unique index mem)
        have entries : onSm (UpdateExecutor.replaceEntries tab tabName rid old new) (s.noted t w) =
            .ok () {s.noted t w with smManager := sm₁} := onSmOk replaced
        obtain ⟨u,txn',logged,aside,_,r,log,data⟩ := @logRecordAside {s.noted t w with smManager := sm₁} t _
          (.updateLogRecord t old new rid tabName) (notedFound found) rfl
        let s' : TransactionManager := {u with smManager := sm'}
        have file : onSm (SmManager.onFile tabName (RmFileHandle.updateRecord rid new)) u = .ok () s' := by
          refine onSmOk ?_
          rw [aside.sm]
          exact updated
        rw [bindEq entries,bindEq logged,file]
        refine .done ⟨before,by rw [setRow,made]; rfl,fun index mem => ?_⟩
          ⟨change,aside.writes.trans notedWrites,r,log,by rw [data]; rfl,by rw [data]; rfl⟩
        rw [SmManager.tableUpdate,rows]
        exact unique index mem

theorem updateTurned [FloatOps] {setClauses : List SetClause} (found : s.txnMap t = some txn) (agreed : s.smManager.Agreed)
    (listed : s.smManager.db.getTable tabName = .ok tab) :
    Turned s t tabName (UpdateExecutor.updateRow t tab tabName setClauses rid s) := by
  refine (updateRowEnd found agreed listed).turned agreed listed fun old value made => ?_
  rw [setRow] at made
  cases set : UpdateExecutor.newRecord tab setClauses old with
  | error e =>
    rw [set] at made
    cases made
  | ok new =>
    rw [set] at made
    cases Except.ok.inj made
    exact Option.some_ne_none new

end Rows

section Quiet
variable {α : Type} {t : Int} {tab : TabMeta} {tabName : String} {rid : Rid}

theorem quietOfExcept (x : Except Fault α) : Quiet (ofExcept x) := fun s => by cases x <;> exact SameLocks.refl s

theorem quietGet : Quiet (get : M TransactionManager TransactionManager) := fun s => SameLocks.refl s

theorem quietTableFile : Quiet (tableFile tabName) := quietBind quietGet fun _ => quietOfExcept _

theorem quietLogRecord (r : LogRecord) : Quiet (logRecord t r) := quietBind (quietAppendLog r) fun _ => quietOnLog _

theorem quietAppendWrite (w : WriteRecord) : Quiet (appendWriteRecord t w) := quietModifyTxn fun _ => rfl

theorem quietInsert [FloatOps] (values : List Value) : Quiet (InsertExecutor.next t tab tabName values) :=
  quietBind quietTableFile fun _ => quietBind (quietOfExcept _) fun _ => quietBind quietGet fun _ =>
    quietBind (quietOfExcept _) fun _ => quietBind (quietOnSm _) fun _ => quietBind (quietLogRecord _) fun _ =>
      quietBind (quietAppendWrite _) fun _ => quietOnSm _

theorem quietDelete : Quiet (DeleteExecutor.deleteRow t tab tabName rid) :=
  quietBind quietTableFile fun _ => quietBind (quietOfExcept _) fun _ => quietBind (quietLogRecord _) fun _ =>
    quietBind (quietAppendWrite _) fun _ => quietBind (quietOnSm _) fun _ => quietOnSm _

theorem quietUpdate [FloatOps] (setClauses : List SetClause) : Quiet (UpdateExecutor.updateRow t tab tabName setClauses rid) :=
  quietBind quietTableFile fun _ => quietBind (quietOfExcept _) fun _ => quietBind (quietAppendWrite _) fun _ =>
    quietBind (quietOfExcept _) fun _ => quietBind quietGet fun _ => quietBind (quietOfExcept _) fun _ =>
      quietBind (quietOnSm _) fun _ => quietBind (quietLogRecord _) fun _ => quietOnSm _

end Quiet

open Sessions (HoldsX holdsOne lockHolds)

structure LocksKept (s s' : TransactionManager) (t : Int) : Prop where
  safe : Safe s'
  live : s'.Live t
  holds : ∀ u fd, HoldsX s u fd → HoldsX s' u fd
  others : ∀ u ≠ t, (s'.txnMap u).map locksOf = (s.txnMap u).map locksOf

section Statement
variable {s s' s'' : TransactionManager} {t : Int} {txn : Transaction} {tabName : String} {tab : TabMeta}
  {fdOf : String → Int}

theorem LocksKept.trans (one : LocksKept s s' t) (two : LocksKept s' s'' t) : LocksKept s s'' t :=
  ⟨two.safe,two.live,fun u fd holds => two.holds u fd (one.holds u fd holds),
    fun u apart => (two.others u apart).trans (one.others u apart)⟩

theorem locksSame (safe : Safe s) (live : s.Live t) (same : SameLocks s s') : LocksKept s s' t :=
  ⟨safe.same same,live.same (same.txns t),fun _ _ holds => holds.same same,fun u _ => same.txns u⟩

theorem rowsDid {f : Rid → M TransactionManager Unit} (quiet : ∀ rid, Quiet (f rid))
    (each : ∀ rid (s : TransactionManager) txn, s.txnMap t = some txn → s.smManager.Agreed →
      s.smManager.db.getTable tabName = .ok tab → Turned s t tabName (f rid s))
    (rids : List Rid) (found : s.txnMap t = some txn) (agreed : s.smManager.Agreed)
    (listed : s.smManager.db.getTable tabName = .ok tab) : ∃ new, Did s (after (rids.forM f s)) t tabName new := by
  induction rids generalizing s txn with
  | nil => exact ⟨[],Did.refl agreed⟩
  | cons rid rids ih =>
    have kept := quiet rid s
    have turned := each rid s txn found agreed listed
    rw [List.forM]
    cases run : f rid s with
    | error e s' =>
      rw [run] at turned
      cases turned with
      | failed did =>
        rw [bindError run]
        exact ⟨_,did⟩
    | ok _ s' =>
      rw [run] at turned kept
      have same : SameLocks s s' := kept
      cases turned with
      | done did =>
        obtain ⟨txn',found',_⟩ := same.forth found
        obtain ⟨new,rest⟩ := ih found' did.agreed (by rw [did.same.db]; exact listed)
        rw [bindEq run]
        exact ⟨_,did.trans rest⟩

theorem quietRows {f : Rid → M TransactionManager Unit} (quiet : ∀ rid, Quiet (f rid)) (rids : List Rid) :
    Quiet (rids.forM f) := by
  induction rids with
  | nil => exact fun s => SameLocks.refl s
  | cons rid rids ih => exact quietBind (quiet rid) fun _ => ih

inductive TableLocked (s : TransactionManager) (t fd : Int) : EStateM.Result Fault TransactionManager Unit → Prop where
  | refused {e : Fault} {s' : TransactionManager} (aside : Aside s s') (kept : LocksKept s s' t) :
      TableLocked s t fd (.error e s')
  | done {s' : TransactionManager} (aside : Aside s s') (kept : LocksKept s s' t) (holds : HoldsX s' t fd) :
      TableLocked s t fd (.ok () s')

theorem lockKept {id : LockDataId} {mode : LockMode} (safe : Safe s) (live : s.Live t) :
    LocksKept s (after (withLocks t (LockManager.lock id mode) s)) t := by
  have step := @Step.lock s t id mode live
  have others := onlyWithLocks (t := t) (LockManager.lock id mode) s
  obtain ⟨txn,found,alive⟩ := live
  refine ⟨safe.step step,?_,fun u fd => lockHolds safe found alive,others⟩
  rcases @lockCases _ _ _ id mode safe found alive with ⟨e,lm,run,_⟩ | ⟨lm,run,_,_,_,_⟩
  · rw [run]
    exact ⟨txn,Function.update_self ..,alive⟩
  · rw [run]
    exact ⟨_,Function.update_self ..,alive⟩

theorem lockTableRun (safe : Safe s) (live : s.Live t) : TableLocked s t (fdOf tabName) (lockTable fdOf t tabName s) := by
  rw [lockTable]
  cases file : s.smManager.fhs tabName with
  | none =>
    rw [bindError (tableFileMissing file)]
    exact .refused (.refl s) (locksSame safe live (.refl s))
  | some fh =>
    rw [bindEq (tableFileRun file),LockManager.lockExclusiveOnTable]
    have kept := @lockKept s t (.onTable (fdOf tabName)) .exclusive safe live
    have aside := asideLock (t := t) (.onTable (fdOf tabName)) .exclusive s
    obtain ⟨txn,found,alive⟩ := live
    rcases @lockCases _ _ _ (.onTable (fdOf tabName)) .exclusive safe found alive with
      ⟨e,lm,run,_⟩ | ⟨lm,run,_,_,_,grant⟩
    · rw [run] at kept aside
      rw [bindError run]
      exact .refused aside kept
    · rw [run] at kept aside
      rw [bindEq run]
      obtain ⟨r,mem,own,strong⟩ := grant.gets
      exact .done aside kept ⟨r,mem,own,strong⟩

end Statement
end TransactionManager

namespace Dml
open TransactionManager
open Sessions (HoldsX)

def tabName : Dml → String
  | .insert tabName _ | .delete tabName _ | .update tabName _ _ => tabName

structure Outcome (fdOf : String → Int) (s : TransactionManager) (t : Int) (tabName : String) (s' : TransactionManager) : Prop where
  did : ∃ new, Did s s' t tabName new ∧ (new ≠ [] → HoldsX s' t (fdOf tabName))
  kept : LocksKept s s' t

section Run
variable {s s' : TransactionManager} {t : Int} {tabName : String} {tab : TabMeta} {fdOf : String → Int}

theorem Outcome.nothing (agreed : s.smManager.Agreed) (aside : Aside s s') (kept : LocksKept s s' t) :
    Outcome fdOf s t tabName s' := ⟨⟨[],⟨(Led.refl agreed).after aside,fun _ mem => (nomatch mem)⟩,fun some => absurd rfl some⟩,kept⟩

theorem Outcome.rows (aside : Aside s s') (kept : LocksKept s s' t) (holds : HoldsX s' t (fdOf tabName))
    {s'' : TransactionManager} {new : List WriteRecord} (did : Did s' s'' t tabName new) (same : SameLocks s' s'') :
    Outcome fdOf s t tabName s'' :=
  ⟨⟨new,⟨did.toLed.before aside,did.there⟩,fun _ => holds.same same⟩,kept.trans (locksSame kept.safe kept.live same)⟩

theorem loopOutcome {scan : SmManager → Visited} {new : M TransactionManager TabMeta} {f : TabMeta → Rid → M TransactionManager Unit}
    (safe : Safe s) (live : s.Live t) (agreed : s.smManager.Agreed) (quiet : ∀ tab rid, Quiet (f tab rid))
    (opens : new = do
      let tab ← tableMeta tabName
      lockTable fdOf t tabName
      pure tab)
    (each : ∀ tab rid (s : TransactionManager) txn, s.txnMap t = some txn → s.smManager.Agreed →
      s.smManager.db.getTable tabName = .ok tab → Turned s t tabName (f tab rid s)) :
    Outcome fdOf s t tabName (after ((do
      lockTable fdOf t tabName
      let rids ← collect scan
      let tab ← new
      rids.forM (f tab) : M TransactionManager Unit) s)) := by
  have locked := @lockTableRun s t tabName fdOf safe live
  cases run : lockTable fdOf t tabName s with
  | error e s₁ =>
    rw [run] at locked
    rw [bindError run]
    cases locked with
    | refused aside kept => exact .nothing agreed aside kept
  | ok _ s₁ =>
    rw [run] at locked
    rw [bindEq run]
    cases locked with
    | done aside kept _ =>
      cases scanned : collect scan s₁ with
      | error e s₂ =>
        have same : s₂ = s₁ := by
          rw [collect,getBind] at scanned
          generalize scan s₁.smManager = visited at scanned
          obtain ⟨rids,fault⟩ := visited
          cases fault <;> cases scanned
          rfl
        rw [bindError scanned,same]
        exact .nothing agreed aside kept
      | ok rids s₂ =>
        obtain rfl := scanRead scanned
        have agreed₁ : s₁.smManager.Agreed := by
          rw [aside.sm]
          exact agreed
        rw [bindEq scanned,opens,bind_assoc]
        cases listed : s₁.smManager.db.getTable tabName with
        | error e =>
          have failed : tableMeta tabName s₁ = .error e s₁ := by
            rw [tableMeta,getBind,listed]
            rfl
          rw [bindError failed]
          exact .nothing agreed aside kept
        | ok tab =>
          have read : tableMeta tabName s₁ = .ok tab s₁ := by
            rw [tableMeta,getBind,listed]
            rfl
          rw [bindEq read,bind_assoc]
          have again := @lockTableRun s₁ t tabName fdOf kept.safe kept.live
          cases run₂ : lockTable fdOf t tabName s₁ with
          | error e s₂ =>
            rw [run₂] at again
            rw [bindError run₂]
            cases again with
            | refused aside₂ kept₂ => exact .nothing agreed (aside.trans aside₂) (kept.trans kept₂)
          | ok _ s₂ =>
            rw [run₂] at again
            rw [bindEq run₂,pure_bind]
            cases again with
            | done aside₂ kept₂ holds =>
              obtain ⟨txn,found,_⟩ := kept₂.live
              obtain ⟨new,did⟩ := rowsDid (quiet tab) (each tab) rids found (by rw [aside₂.sm]; exact agreed₁)
                (by rw [aside₂.sm]; exact listed)
              exact .rows (aside.trans aside₂) (kept.trans kept₂) holds did (quietRows (quiet tab) rids s₂)

theorem outcome [FloatOps] (stmt : Dml) (safe : Safe s) (live : s.Live t) (agreed : s.smManager.Agreed) :
    Outcome fdOf s t stmt.tabName (after (stmt.run fdOf t s)) := by
  cases stmt with
  | insert tabName values =>
    have stays : Outcome fdOf s t tabName s := .nothing agreed (.refl s) (locksSame safe live (.refl s))
    rw [Dml.run,InsertExecutor.new,bind_assoc]
    change Outcome fdOf s t tabName _
    cases listed : s.smManager.db.getTable tabName with
    | error e =>
      have failed : tableMeta tabName s = .error e s := by
        rw [tableMeta,getBind,listed]
        rfl
      rw [bindError failed]
      exact stays
    | ok tab =>
      have read : tableMeta tabName s = .ok tab s := by
        rw [tableMeta,getBind,listed]
        rfl
      rw [bindEq read]
      by_cases count : values.length ≠ tab.cols.length
      · rw [if_pos count]
        exact stays
      · rw [if_neg count,bind_assoc]
        have locked := @lockTableRun s t tabName fdOf safe live
        cases run : lockTable fdOf t tabName s with
        | error e s₁ =>
          rw [run] at locked
          rw [bindError run]
          cases locked with
          | refused aside kept => exact .nothing agreed aside kept
        | ok _ s₁ =>
          rw [run] at locked
          rw [bindEq run,pure_bind]
          cases locked with
          | done aside kept holds =>
            obtain ⟨txn,found,_⟩ := kept.live
            have turned := @insertTurned s₁ t txn tabName tab _ values found (by rw [aside.sm]; exact agreed)
              (by rw [aside.sm]; exact listed)
            have same := @quietInsert t tab tabName _ values s₁
            cases ran : InsertExecutor.next t tab tabName values s₁ with
            | ok _ s₂ =>
              rw [ran] at turned same
              cases turned with
              | done did => exact .rows aside kept holds did same
            | error e s₂ =>
              rw [ran] at turned same
              cases turned with
              | failed did _ => exact .rows aside kept holds did same
  | delete tabName scan =>
    exact loopOutcome (f := fun tab rid => DeleteExecutor.deleteRow t tab tabName rid) safe live agreed
      (fun _ _ => quietDelete) rfl fun _ _ _ _ found agreed listed => deleteTurned found agreed listed
  | update tabName setClauses scan =>
    exact loopOutcome (f := fun tab rid => UpdateExecutor.updateRow t tab tabName setClauses rid) safe live agreed
      (fun _ _ => quietUpdate setClauses) rfl fun _ _ _ _ found agreed listed => updateTurned found agreed listed

end Run
end Dml
end Rmdb
