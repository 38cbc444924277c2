import Rmdb.System.Agreement
import Rmdb.Transaction.TxnLog

/-! What `abort` undoes: each write record put back in turn, last one first, with the indexes
following, and what the end of a transaction leaves of it. -/
namespace Rmdb
open Record Index Recovery TransactionManager

abbrev Contents := String × Rid → Option Bytes

namespace WriteRecord

def place (w : WriteRecord) : String × Rid := (w.tabName,w.rid)

def undone (w : WriteRecord) (c : Contents) : Contents :=
  match w.wtype with
  | .insertTuple => Function.update c w.place none
  | .deleteTuple => Function.update c w.place (some w.record)
  | .updateTuple => if (c w.place).isSome then Function.update c w.place (some w.record) else c

end WriteRecord

def tableOf (c : Contents) (tabName : String) (rid : Rid) : Option Bytes := c (tabName,rid)

namespace SmManager

structure Located (sm : SmManager) (w : WriteRecord) : Prop where
  listed : ∃ tab, sm.db.getTable w.tabName = .ok tab
  file : ∃ fh, sm.fhs w.tabName = some fh ∧ fh.HasPage w.rid.pageNo ∧ 0 ≤ w.rid.slotNo ∧
    w.rid.slotNo < fh.fileHdr.numRecordsPerPage ∧
    (w.wtype ≠ .insertTuple → w.record.length = fh.fileHdr.recordSize)

/- Write records that fit the contents: where a deleted record goes back nothing is. -/
def Traced (sm : SmManager) : List WriteRecord → Contents → Prop
  | [],_ => True
  | w :: rest,c => sm.Located w ∧ (w.wtype = .deleteTuple → c w.place = none) ∧ Traced sm rest (w.undone c)

def KeysApart (db : DbMeta) : List WriteRecord → Contents → Prop
  | [],_ => True
  | w :: rest,c => (∀ tab, db.getTable w.tabName = .ok tab → ∀ index ∈ tab.indexes,
      UniqueKeys (tableOf (w.undone c) w.tabName) index) ∧ KeysApart db rest (w.undone c)

structure SameTables (sm sm' : SmManager) : Prop where
  db : sm'.db = sm.db
  files : ∀ tab, Option.Rel RmFileHandle.Extends (sm.fhs tab) (sm'.fhs tab)
  handles : ∀ name, (sm'.ihs name).isSome = (sm.ihs name).isSome

section Undo
variable {sm sm' sm'' : SmManager} {w : WriteRecord} {c : Contents} {ws : List WriteRecord} {tabName : String} {rid : Rid}
  {value : Option Bytes} {fh : RmFileHandle} {record old : Bytes} {index : IndexMeta} {tab : TabMeta}

theorem SameTables.refl (sm : SmManager) : SameTables sm sm :=
  ⟨rfl,(Grown.refl sm).files,fun _ => rfl⟩

theorem SameTables.trans (one : SameTables sm sm') (two : SameTables sm' sm'') : SameTables sm sm'' := by
  refine ⟨two.db.trans one.db,fun tab => ?_,fun name => (two.handles name).trans (one.handles name)⟩
  have first := one.files tab
  have second := two.files tab
  generalize sm.fhs tab = a at first
  generalize sm'.fhs tab = b at first second
  generalize sm''.fhs tab = d at second
  cases first with
  | none => exact second
  | some extended =>
    cases second with
    | some extended' => exact .some (extended.trans extended')

theorem RowChange.sameTables (change : RowChange sm tabName rid value sm') : SameTables sm sm' := by
  obtain ⟨fh,fh',found,files,_,extended⟩ := change.file
  refine ⟨change.db,fun tab => ?_,change.handles⟩
  rw [files]
  by_cases here : tab = tabName
  · subst here
    rw [found,Function.update_self]
    exact .some extended
  · rw [Function.update_of_ne here]
    exact (SameTables.refl sm).files tab

theorem Located.keep (located : sm.Located w) (same : SameTables sm sm') : sm'.Located w := by
  obtain ⟨listed,fh,found,has,low,high,sized⟩ := located
  refine ⟨by rw [same.db]; exact listed,?_⟩
  have files := same.files w.tabName
  rw [found] at files
  generalize there : sm'.fhs w.tabName = x at files
  cases files with
  | @some _ fh' extended =>
    refine ⟨fh',rfl,⟨has.1,has.2.trans_le extended.numPages⟩,low,?_,fun kind => ?_⟩
    · rw [extended.perPage]
      exact high
    · rw [extended.recordSize]
      exact sized kind

theorem Traced.keep (traced : sm.Traced ws c) (same : SameTables sm sm') : sm'.Traced ws c := by
  induction ws generalizing c with
  | nil => exact traced
  | cons w ws ih => exact ⟨traced.1.keep same,traced.2.1,ih traced.2.2⟩

theorem tableUpdate : tableOf (Function.update c (tabName,rid) value) tabName =
    Function.update (tableOf c tabName) rid value := by
  funext r
  by_cases same : r = rid
  · rw [tableOf,same,Function.update_self,Function.update_self]
  · have apart : (tabName,r) ≠ (tabName,rid) := fun equal => same (Prod.ext_iff.mp equal).2
    rw [tableOf,Function.update_of_ne apart,Function.update_of_ne same,tableOf]

theorem tableContents (found : sm.fhs tabName = some fh) : tableOf (contents sm) tabName = fh.records := by
  funext r
  simp only [tableOf,contents,found,Option.bind_some]

theorem isRecordRun (usable : fh.Usable) (has : fh.HasPage rid.pageNo) (low : 0 ≤ rid.slotNo)
    (high : rid.slotNo < fh.fileHdr.numRecordsPerPage) : fh.isRecord rid = .ok (fh.records rid).isSome := by
  obtain ⟨lost,chain,well⟩ := usable
  obtain ⟨page,here,counted⟩ := well.page _ has
  have within : rid.slotNo.toNat < page.slots.length := by
    rw [counted.length]
    omega
  have slot := RmFileHandle.slotAt low (List.getElem?_eq_getElem within)
  rw [RmFileHandle.recordsRead,if_pos ⟨has,low⟩,here,RmFileHandle.isRecord,RmFileHandle.fetchHeld has here]
  simp only [bind,Except.bind,slot,Option.map_some,Option.bind_some,List.getElem?_eq_getElem within,Option.join_some]

theorem undoWriteRun (agreed : sm.Agreed) (located : sm.Located w)
    (free : w.wtype = .deleteTuple → contents sm w.place = none)
    (unique : ∀ tab, sm.db.getTable w.tabName = .ok tab → ∀ index ∈ tab.indexes,
      UniqueKeys (tableOf (w.undone (contents sm)) w.tabName) index) :
    ∃ sm', undoWrite w sm = .ok () sm' ∧ sm'.Agreed ∧ contents sm' = w.undone (contents sm) ∧ SameTables sm sm' := by
  obtain ⟨⟨tab,listed⟩,fh,found,has,low,high,sized⟩ := located
  obtain ⟨fh₂,table,_⟩ := agreed.tables _ _ listed
  obtain rfl := table.open found
  have unique := unique tab listed
  have here : contents sm w.place = fh.records w.rid := congrFun (tableContents found) w.rid
  have asked : (ofExcept (fh.isRecord w.rid) : M SmManager Bool) sm = .ok (fh.records w.rid).isSome sm := by
    rw [isRecordRun table.usable has low high]
    rfl
  simp only [undoWrite,getBind,listed,bindEq (ofExceptOk tab sm),fileHandle,found,bindEq (ofExceptOk fh sm)]
  cases kind : w.wtype with
  | insertTuple =>
    simp only [WriteRecord.undone,kind]
    rw [bindEq asked]
    cases present : fh.records w.rid with
    | none =>
      refine ⟨sm,rfl,agreed,?_,SameTables.refl sm⟩
      rw [← present,← here,Function.update_eq_self]
    | some record =>
      obtain ⟨sm₁,sm',deleted,removed,change⟩ := removeRow agreed table present
      refine ⟨sm',?_,change.agreed,change.contents,change.sameTables⟩
      rw [Option.isSome_some,if_pos rfl,RmFileHandle.getRecordSome.mpr present,bindEq (ofExceptOk record sm),bindEq deleted]
      exact removed
  | deleteTuple =>
    simp only [WriteRecord.undone,kind] at unique ⊢
    have free : fh.records w.rid = none := here.symm.trans (free kind)
    have sized := sized (by rw [kind]; simp)
    obtain ⟨lost,well⟩ := table.usable
    obtain ⟨fh',put,well',records,extended⟩ := @RmFileHandle.insertRecordAtWell _ _ _ w.record well has low high
    rw [WriteRecord.place,tableUpdate,tableContents found] at unique
    obtain ⟨sm',run,change⟩ := addRow agreed table ⟨lost,well'⟩ free records extended sized (fun index mem => by
      rw [records]
      exact insertTurns table.valid mem sized free (unique index mem))
    refine ⟨sm',?_,change.agreed,change.contents,change.sameTables⟩
    rw [bindEq (onFileOk found put)]
    exact run
  | updateTuple =>
    have sized := sized (by rw [kind]; simp)
    simp only [WriteRecord.undone,kind] at unique ⊢
    rw [bindEq asked]
    cases present : fh.records w.rid with
    | none =>
      rw [here,present]
      exact ⟨sm,rfl,agreed,rfl,SameTables.refl sm⟩
    | some current =>
      rw [here,present,Option.isSome_some,if_pos rfl,WriteRecord.place] at unique ⊢
      rw [tableUpdate,tableContents found] at unique
      obtain ⟨sm₁,replaced,_,sm',updated,change⟩ := changeRow agreed table present sized fun index mem =>
        changeTurns table.valid mem ne_comm (sizedRow table present) sized present (unique index mem)
      refine ⟨sm',?_,change.agreed,change.contents,change.sameTables⟩
      rw [RmFileHandle.getRecordSome.mpr present,bindEq (ofExceptOk current sm),bindEq replaced]
      exact updated

end Undo
end SmManager

namespace TransactionManager

def writesOf (s : TransactionManager) (t : Int) : Option (List WriteRecord) := (s.txnMap t).map Transaction.writeSet

structure Aside (s s' : TransactionManager) : Prop where
  sm : s'.smManager = s.smManager
  writes : s'.writesOf = s.writesOf

section Frames
variable {α β : Type} {s s' s'' : TransactionManager} {t : Int} {txn : Transaction} {c : Contents} {ws : List WriteRecord}

theorem Aside.refl (s : TransactionManager) : Aside s s := ⟨rfl,rfl⟩

theorem Aside.trans (one : Aside s s') (two : Aside s' s'') : Aside s s'' :=
  ⟨two.sm.trans one.sm,two.writes.trans one.writes⟩

def KeepsAside (x : M TransactionManager α) : Prop := ∀ s, Aside s (after (x s))

theorem asideBind {x : M TransactionManager α} {f : α → M TransactionManager β} (first : KeepsAside x)
    (next : ∀ a, KeepsAside (f a)) : KeepsAside (x >>= f) := by
  intro s
  have one := first s
  simp only [bind,EStateM.bind]
  cases run : x s with
  | ok a u =>
    rw [run] at one
    exact one.trans (next a u)
  | error e u =>
    rw [run] at one
    exact one

theorem asidePure (a : α) : KeepsAside (pure a : M TransactionManager α) := Aside.refl

theorem asideGetTxn : KeepsAside (getTxn t) := by
  intro s
  rw [getTxn,getBind]
  cases s.txnMap t <;> exact Aside.refl s

theorem asideOnLog (x : M LogManager α) : KeepsAside (onLog x) := by
  intro s
  rw [onLog,zoom]
  cases x s.logManager <;> exact ⟨rfl,rfl⟩

theorem updateWrites (found : s.txnMap t = some txn) {txn' : Transaction} (same : txn'.writeSet = txn.writeSet) (u : Int) :
    (Function.update s.txnMap t (some txn') u).map Transaction.writeSet = s.writesOf u := by
  by_cases here : u = t
  · subst here
    rw [Function.update_self,writesOf,found,Option.map_some,Option.map_some,same]
  · rw [Function.update_of_ne here,writesOf]

theorem asideModifyTxn {f : Transaction → Transaction} (same : ∀ txn, (f txn).writeSet = txn.writeSet) :
    KeepsAside (modifyTxn t f) := by
  intro s
  refine ⟨rfl,funext fun u => ?_⟩
  change (Function.update s.txnMap t _ u).map _ = _
  by_cases here : u = t
  · subst here
    rw [Function.update_self,Option.map_map,writesOf]
    exact congrArg (Option.map · _) (funext same)
  · rw [Function.update_of_ne here,writesOf]

theorem asideAppendLog (record : LogRecord) : KeepsAside (appendLog t record) :=
  asideBind asideGetTxn fun _ => asideBind (asideOnLog _) fun _ => asideModifyTxn fun _ => rfl

theorem asideWithLocks {x : M (Transaction × LockManager) α} (same : ∀ txn lm, (after (x (txn,lm))).1.writeSet = txn.writeSet) :
    KeepsAside (withLocks t x) := by
  intro s
  cases found : s.txnMap t with
  | none =>
    simp only [withLocks,found]
    exact Aside.refl s
  | some txn =>
    have kept := same txn s.lockManager
    cases run : x (txn,s.lockManager) with
    | ok a p =>
      rw [run] at kept
      rw [withLocksOk found run]
      exact ⟨rfl,funext (updateWrites found kept)⟩
    | error e p =>
      rw [run] at kept
      rw [withLocksError found run]
      exact ⟨rfl,funext (updateWrites found kept)⟩

theorem asideLock (id : LockDataId) (mode : LockMode) : KeepsAside (withLocks t (LockManager.lock id mode)) := by
  refine asideWithLocks fun txn lm => ?_
  generalize run : LockManager.lock id mode (txn,lm) = r
  have locked := @LockManager.lockRun id mode txn lm
  rw [run] at locked
  cases locked <;> rfl

theorem asideUnlock (id : LockDataId) : KeepsAside (withLocks t (LockManager.unlock id)) := by
  refine asideWithLocks fun txn lm => ?_
  generalize run : LockManager.unlock id (txn,lm) = r
  have unlocked := @LockManager.unlockRun id txn lm
  rw [run] at unlocked
  cases unlocked <;> rfl

theorem asideRelease (order : List LockDataId) : KeepsAside (releaseLocks t order) := by
  refine asideBind ?_ fun _ => asideModifyTxn fun _ => rfl
  induction order with
  | nil => exact asidePure ()
  | cons id order ih => exact asideBind (asideBind (asideUnlock id) fun _ => asidePure ()) fun _ => ih

theorem asideFinish (order : List LockDataId) : KeepsAside (do
    releaseLocks t order
    appendLog t (.abortLogRecord t)
    flushLog
    modifyTxn t fun object => {object with state := .aborted}) :=
  asideBind (asideRelease order) fun _ => asideBind (asideAppendLog _) fun _ => asideBind (asideOnLog _) fun _ =>
    asideModifyTxn fun _ => rfl

end Frames

section Abort
variable {s s' : TransactionManager} {t : Int} {txn : Transaction} {c : Contents} {ws : List WriteRecord}

def undoneAll (ws : List WriteRecord) (c : Contents) : Contents := ws.foldl (fun c w => w.undone c) c

theorem undoWritesRun (agreed : s.smManager.Agreed) (writes : s.writesOf t = some ws.reverse)
    (traced : s.smManager.Traced ws (contents s.smManager))
    (apart : SmManager.KeysApart s.smManager.db ws (contents s.smManager)) :
    ∃ s', undoWrites t ws s = .ok () s' ∧ s'.smManager.Agreed ∧ contents s'.smManager = undoneAll ws (contents s.smManager) ∧
      s.smManager.SameTables s'.smManager ∧ s'.writesOf = Function.update s.writesOf t (some []) := by
  induction ws generalizing s with
  | nil =>
    refine ⟨s,rfl,agreed,rfl,SmManager.SameTables.refl _,?_⟩
    rw [List.reverse_nil] at writes
    rw [← writes,Function.update_eq_self]
  | cons w ws ih =>
    obtain ⟨located,free,rest⟩ := traced
    obtain ⟨unique,later⟩ := apart
    obtain ⟨sm',undo,agreed',contents',same⟩ := SmManager.undoWriteRun agreed located free unique
    obtain ⟨txn,found,own⟩ := Option.map_eq_some_iff.mp writes
    let taken : TransactionManager := {s with
      txnMap := Function.update s.txnMap t ((s.txnMap t).map fun object => {object with writeSet := object.writeSet.dropLast})}
    let popped : TransactionManager := {taken with smManager := sm'}
    have turn : onSm (undoWrite w) taken = .ok () popped := zoomOk undo
    have writes' : popped.writesOf = Function.update s.writesOf t (some ws.reverse) := by
      funext u
      by_cases here : u = t
      · subst here
        simp only [popped,taken,writesOf,Function.update_self,found,Option.map_some,own,List.reverse_cons,List.dropLast_concat]
      · simp only [popped,taken,writesOf,Function.update_of_ne here]
    obtain ⟨s',run,agreed'',contents'',same',writes''⟩ := @ih popped agreed' (by rw [writes',Function.update_self])
      (by rw [contents']; exact rest.keep same) (by rw [contents',same.db]; exact later)
    refine ⟨s',?_,agreed'',?_,same.trans same',?_⟩
    · rw [undoWrites,modifyTxn,modifyBind,bindEq turn]
      exact run
    · rw [contents'',contents']
      rfl
    · rw [writes'',writes',Function.update_idem]

theorem abortRestores {order : List LockDataId} (safe : Safe s) (reads : s.Reads t order) (found : s.txnMap t = some txn)
    (live : ended txn.state = false) (agreed : s.smManager.Agreed)
    (traced : s.smManager.Traced txn.writeSet.reverse (contents s.smManager))
    (apart : SmManager.KeysApart s.smManager.db txn.writeSet.reverse (contents s.smManager)) :
    ∃ s' txn', abort t order s = .ok () s' ∧ s'.txnMap t = some txn' ∧ txn'.state = .aborted ∧ txn'.writeSet = [] ∧
      txn'.lockSet = [] ∧ s'.NoRequest t ∧ Safe s' ∧ s'.smManager.Agreed ∧
      contents s'.smManager = undoneAll txn.writeSet.reverse (contents s.smManager) ∧
      s.smManager.SameTables s'.smManager ∧ s'.writesOf = Function.update s.writesOf t (some []) := by
  obtain ⟨txn₀,found₀,perm⟩ := reads
  obtain rfl := Option.some.inj (found₀.symm.trans found)
  have writes : s.writesOf t = some txn₀.writeSet.reverse.reverse := by
    rw [writesOf,found,Option.map_some,List.reverse_reverse]
  obtain ⟨u,undone,agreed',contents',same,writes'⟩ := undoWritesRun agreed writes traced apart
  have quiet := @quietUndoWrites t txn₀.writeSet.reverse s
  rw [undone] at quiet
  obtain ⟨x,here,view⟩ := quiet.forth found
  obtain ⟨s',y,run,safe',last,state,none⟩ := finishRun (x := do appendLog t (.abortLogRecord t); flushLog)
    .aborted (by decide) (safe.same quiet) here (fun id mem => perm.mem_iff.mpr (viewLocks view ▸ mem))
    (quietBind (quietAppendLog (t := t) (.abortLogRecord t)) fun _ => quietOnLog LogManager.flushLogToDisk)
    (logRun (.abortLogRecord t))
  have finish : (do
      releaseLocks t order
      appendLog t (.abortLogRecord t)
      flushLog
      modifyTxn t fun object => {object with state := .aborted} : M TransactionManager Unit) u = .ok () s' := by
    rw [← run]
    simp only [bind_assoc]
    rfl
  have aside : Aside u s' := by
    have frame := asideFinish (t := t) order u
    rw [finish] at frame
    exact frame
  have kept : s'.writesOf = Function.update s.writesOf t (some []) := aside.writes.trans writes'
  have empty := congrFun kept t
  rw [Function.update_self,writesOf,last,Option.map_some,Option.some.injEq] at empty
  refine ⟨s',y,?_,last,state,empty,?_,none,safe',?_,?_,?_,kept⟩
  · rw [abort,bindEq (getTxnRun found),live]
    change (undoWrites t txn₀.writeSet.reverse >>= _) s = _
    rw [bindEq undone]
    exact finish
  · refine List.eq_nil_iff_forall_not_mem.mpr fun id mem => ?_
    obtain ⟨r,memr,own⟩ := (safe'.held t y last id).mp mem
    exact none id r memr own
  · rw [aside.sm]
    exact agreed'
  · rw [aside.sm]
    exact contents'
  · rw [aside.sm]
    exact same

end Abort
end TransactionManager
end Rmdb
