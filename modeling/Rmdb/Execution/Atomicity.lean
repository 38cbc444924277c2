import Rmdb.Transaction.DatabaseRuns
import Rmdb.Recovery.SecondRecovery

/-! What a statement that ends in an `RMDBError` leaves of itself, before and after the commit that
`client_handler` issues for it. -/
namespace Rmdb
open Record Index Recovery RecoveryManager TransactionManager Lib

section Settled
variable {record record' : Bytes} {tab : TabMeta} {recordSize : Nat}

def byteAt (record : Bytes) (i : Nat) : Option UInt8 := record[i]?

def pieceAt : Nat → Bytes → List (Nat × Option UInt8)
  | _,[] => []
  | offset,b :: src => (offset,some b) :: pieceAt (offset+1) src

theorem copyIntoCons {b : UInt8} {src : Bytes} {offset : Nat} (inside : offset < record.length) :
    copyInto record offset (b :: src) = copyInto (record.set offset b) (offset+1) src := by
  have front : (record.set offset b).take (offset+1) = record.take offset ++ [b] := by
    rw [List.take_set,List.take_succ_eq_append_getElem inside,List.set_append_right _ _ (by simp)]
    simp [Nat.min_eq_left inside.le]
  have back : (record.set offset b).drop (offset+1+src.length) = record.drop (offset+(src.length+1)) := by
    rw [List.drop_set_of_lt (by omega),Nat.add_right_comm,Nat.add_assoc]
  rw [copyInto,copyInto,front,back]
  simp only [List.append_assoc,List.cons_append,List.nil_append,List.length_cons]

theorem copyIntoBytes {src : Bytes} {offset : Nat} (inside : offset+src.length ≤ record.length) :
    byteAt (copyInto record offset src) = overwrite (byteAt record) (pieceAt offset src) := by
  induction src generalizing record offset with
  | nil =>
    rw [copyInto,List.append_nil,List.length_nil,Nat.add_zero,List.take_append_drop]
    rfl
  | cons b src ih =>
    rw [List.length_cons] at inside
    have here : offset < record.length := by omega
    have set : byteAt (record.set offset b) = Function.update (byteAt record) offset (some b) := by
      funext i
      by_cases same : i = offset
      · subst same
        rw [Function.update_self,byteAt,List.getElem?_set_self here]
      · rw [Function.update_of_ne same,byteAt,byteAt,List.getElem?_set_ne (Ne.symm same)]
    rw [copyIntoCons here,ih (by rw [List.length_set]; omega),set]
    rfl

theorem setColumnWrites [FloatOps] {col : ColMeta} {value : Value} (ok : setColumn record col value = .ok record') :
    ∃ raw : Bytes, raw.length = col.len ∧ ∀ old, setColumn old col value = .ok (copyInto old col.offset raw) := by
  rw [setColumn] at ok
  obtain ⟨cast,casts,ok⟩ := exceptBind ok
  obtain ⟨val,raw,_⟩ := exceptBind ok
  refine ⟨val.raw.getD [],initRawLength raw,fun old => ?_⟩
  simp only [setColumn,casts,bind,Except.bind,raw]

theorem newRecordWrites [FloatOps] {setClauses : List SetClause} (valid : tab.Valid recordSize)
    (ok : UpdateExecutor.newRecord tab setClauses record = .ok record') : ∃ writes, ∀ old : Bytes, old.length = recordSize →
      ∃ new, UpdateExecutor.newRecord tab setClauses old = .ok new ∧ byteAt new = overwrite (byteAt old) writes := by
  induction setClauses generalizing record with
  | nil => exact ⟨[],fun old _ => ⟨old,rfl,rfl⟩⟩
  | cons clause setClauses ih =>
    obtain ⟨_,one,rest⟩ := exceptBind ok
    obtain ⟨col,found,set⟩ := exceptBind one
    obtain ⟨raw,length,sets⟩ := setColumnWrites set
    obtain ⟨writes,all⟩ := ih rest
    have inside := valid.inside col (getColMem found).1
    refine ⟨pieceAt col.offset raw ++ writes,fun old sized => ?_⟩
    have fits : col.offset+raw.length ≤ old.length := by omega
    obtain ⟨new,made,bytes⟩ := all (copyInto old col.offset raw) (by rw [setColumnLength (by omega) (sets old),sized])
    refine ⟨new,?_,?_⟩
    · rw [UpdateExecutor.newRecord,List.foldlM_cons,found]
      change setColumn old col clause.rhs >>= _ = _
      rw [sets]
      exact made
    · rw [bytes,copyIntoBytes fits,overwriteAppend]

theorem newRecordTwice [FloatOps] {setClauses : List SetClause} (valid : tab.Valid recordSize)
    (sized : record.length = recordSize) (ok : UpdateExecutor.newRecord tab setClauses record = .ok record') :
    UpdateExecutor.newRecord tab setClauses record' = .ok record' := by
  obtain ⟨writes,all⟩ := newRecordWrites valid ok
  obtain ⟨new,made,bytes⟩ := all record sized
  obtain rfl := Except.ok.inj (ok.symm.trans made)
  obtain ⟨again,made',bytes'⟩ := all record' (newRecordLength valid sized ok)
  rw [bytes,overwriteTwice,← bytes] at bytes'
  rw [made',List.ext_getElem? fun i => congrFun bytes' i]

end Settled

namespace TransactionManager

section Walk
variable {tab : TabMeta} {tabName : String} {change : Bytes → Except Fault (Option Bytes)} {c c' : Contents} {rid : Rid}
  {rids front back : List Rid} {recordSize : Nat} {old old' : Bytes} {value value' : Option Bytes}

inductive Walked (tab : TabMeta) (tabName : String) (change : Bytes → Except Fault (Option Bytes)) :
    Contents → List Rid → Contents → Prop where
  | nil {c : Contents} : Walked tab tabName change c [] c
  | cons {c c' : Contents} {rid : Rid} {rids : List Rid} {old : Bytes} {value : Option Bytes}
      (accepts : Accepts tab tabName change c rid old value)
      (rest : Walked tab tabName change (Function.update c (tabName,rid) value) rids c') :
      Walked tab tabName change c (rid :: rids) c'

def KeepsUntil (tab : TabMeta) (tabName : String) (change : Bytes → Except Fault (Option Bytes)) (c : Contents)
    (rids : List Rid) : Prop :=
  ∃ front rid back, rids = front ++ rid :: back ∧ (∀ r ∈ front, ∃ old, Accepts tab tabName change c r old (some old)) ∧
    ∀ old value, ¬Accepts tab tabName change c rid old value

def Settles (change : Bytes → Except Fault (Option Bytes)) (recordSize : Nat) : Prop :=
  ∀ old new, old.length = recordSize → change old = .ok (some new) → change new = .ok (some new)

theorem Accepts.same (one : Accepts tab tabName change c rid old value) (two : Accepts tab tabName change c rid old' value') :
    old = old' ∧ value = value' := by
  obtain rfl := Option.some.inj (one.there.symm.trans two.there)
  exact ⟨rfl,Except.ok.inj (one.made.symm.trans two.made)⟩

theorem Accepts.kept (accepts : Accepts tab tabName change c rid old (some old)) :
    Function.update c (tabName,rid) (some old) = c := by rw [← accepts.there,Function.update_eq_self]

theorem Walked.settled {k : String × Rid} (walked : Walked tab tabName change c rids c')
    (settled : ∀ old, c k = some old → change old = .ok (some old)) : c' k = c k := by
  induction walked with
  | nil => rfl
  | @cons c c' rid rids old value accepts rest ih =>
    have here : Function.update c (tabName,rid) value k = c k := by
      by_cases own : k = (tabName,rid)
      · subst own
        have value_ : value = some old := Except.ok.inj (accepts.made.symm.trans (settled old accepts.there))
        rw [Function.update_self,value_,accepts.there]
      · exact Function.update_of_ne own ..
    rw [here] at ih
    exact ih settled

theorem Walked.unchanged (walked : Walked tab tabName change c rids c') (settles : Settles change recordSize)
    (sized : ∀ rid old, c (tabName,rid) = some old → old.length = recordSize) (same : c' = c) :
    ∀ r ∈ rids, ∃ old, Accepts tab tabName change c r old (some old) := by
  induction walked with
  | nil => exact fun r mem => nomatch mem
  | @cons c c' rid rids old value accepts rest ih =>
    have final := rest.settled (k := (tabName,rid)) fun new there => by
      rw [Function.update_self] at there
      rw [there] at accepts
      exact settles old new (sized rid old accepts.there) accepts.made
    rw [Function.update_self,same,accepts.there] at final
    subst final
    rw [accepts.kept] at ih
    intro r mem
    rcases List.mem_cons.mp mem with rfl | later
    · exact ⟨old,accepts⟩
    · exact ih sized same r later

theorem Walked.keeps (walked : Walked tab tabName change c front c') (settles : Settles change recordSize)
    (sized : ∀ rid old, c (tabName,rid) = some old → old.length = recordSize)
    (never : ∀ old value, ¬Accepts tab tabName change c' rid old value) :
    c' = c ↔ KeepsUntil tab tabName change c (front ++ rid :: back) := by
  constructor
  · intro same
    exact ⟨front,rid,back,rfl,walked.unchanged settles sized same,same ▸ never⟩
  · rintro ⟨front',rid',back',split,keep,refused⟩
    clear settles sized never
    induction walked generalizing front' with
    | nil => rfl
    | @cons c c' r front old value accepts rest ih =>
      cases front' with
      | nil =>
        obtain rfl := (List.cons.inj split).1
        exact absurd accepts (refused _ _)
      | cons r' front' =>
        obtain ⟨rfl,later⟩ := List.cons.inj split
        obtain ⟨old',own⟩ := keep r List.mem_cons_self
        obtain ⟨rfl,rfl⟩ := accepts.same own
        rw [own.kept] at ih
        exact ih front' later (fun x mem => keep x (List.mem_cons_of_mem _ mem)) refused

end Walk

def Recorded (s s' : TransactionManager) : Prop :=
  ∃ later, s'.log = s.log ++ later ∧ contents s'.smManager = overwrite (contents s.smManager) (allWrites later)

section Rows
variable {s s' s'' : TransactionManager} {t : Int} {txn : Transaction} {tab : TabMeta} {tabName : String}
  {change : Bytes → Except Fault (Option Bytes)} {wtype : WType} {e : Fault}

theorem Recorded.same (log : s'.log = s.log) (sm : s'.smManager = s.smManager) : Recorded s s' := by
  refine ⟨[],by rw [log,List.append_nil],?_⟩
  rw [sm]
  rfl

theorem Recorded.trans (one : Recorded s s') (two : Recorded s' s'') : Recorded s s'' := by
  obtain ⟨later,log,rows⟩ := one
  obtain ⟨later',log',rows'⟩ := two
  refine ⟨later ++ later',by rw [log',log,List.append_assoc],?_⟩
  have all : allWrites (later ++ later') = allWrites later ++ allWrites later' := List.filterMap_append
  rw [rows',rows,all,overwriteAppend]

theorem RowDone.recorded {w : WriteRecord} {value : Option Bytes} (row : RowDone s s' t w value) : Recorded s s' := by
  obtain ⟨r,log,place,image⟩ := row.log
  refine ⟨[r],log,row.change.contents.trans ?_⟩
  simp only [allWrites,List.filterMap_cons,List.filterMap_nil,writeOf,if_true,place,image,Option.map_some]
  rfl

theorem rowsWalked {f : Rid → M TransactionManager Unit} (quiet : ∀ rid, Quiet (f rid))
    (each : ∀ rid (s : TransactionManager) txn, s.txnMap t = some txn → s.smManager.Agreed →
      s.smManager.db.getTable tabName = .ok tab → RowEnd s t tab tabName change wtype rid (f rid s))
    (rids : List Rid) (found : s.txnMap t = some txn) (agreed : s.smManager.Agreed)
    (listed : s.smManager.db.getTable tabName = .ok tab) (run : rids.forM f s = .error e s') :
    ∃ front rid back, rids = front ++ rid :: back ∧
      Walked tab tabName change (contents s.smManager) front (contents s'.smManager) ∧
      (∀ old value, ¬Accepts tab tabName change (contents s'.smManager) rid old value) ∧ Recorded s s' := by
  induction rids generalizing s txn with
  | nil => cases run
  | cons rid rids ih =>
    have kept := quiet rid s
    have turned := each rid s txn found agreed listed
    rw [List.forM] at run
    cases first : f rid s with
    | error e' u =>
      rw [bindError first] at run
      cases run
      rw [first] at turned
      cases turned with
      | refused never did same log =>
        rw [← same] at never
        refine ⟨[],rid,rids,rfl,?_,never,.same log same⟩
        rw [same]
        exact .nil
    | ok _ u =>
      rw [bindEq first] at run
      rw [first] at turned kept
      have same : SameLocks s u := kept
      cases turned with
      | done accepts row =>
        obtain ⟨txn',found',_⟩ := same.forth found
        have listed' : u.smManager.db.getTable tabName = .ok tab := by
          rw [row.change.db]
          exact listed
        obtain ⟨front,last,back,split,walked,never,recorded⟩ := ih found' row.change.agreed listed' run
        refine ⟨rid :: front,last,back,by rw [split,List.cons_append],.cons accepts ?_,never,row.recorded.trans recorded⟩
        rw [row.change.contents] at walked
        exact walked

end Rows

section Locks
variable {s s' : TransactionManager} {t : Int} {tabName : String} {fdOf : String → Int} {e : RMDBError} {α β : Type}

theorem bindFails {x : M TransactionManager α} {f : α → M TransactionManager β} {e : Fault} (run : (x >>= f) s = .error e s') :
    x s = .error e s' ∨ ∃ a u, x s = .ok a u ∧ f a u = .error e s' := by
  cases first : x s with
  | ok a u =>
    rw [bindEq first] at run
    exact .inr ⟨a,u,rfl,run⟩
  | error e' u =>
    rw [bindError first] at run
    cases run
    exact .inl rfl

theorem lockNoError {id : LockDataId} {mode : LockMode} {p p' : Transaction × LockManager} :
    LockManager.lock id mode p ≠ .error (.error e) p' := by
  intro run
  rw [LockManager.lock,getBind] at run
  dsimp only at run
  split at run
  · cases run
  · rw [setBind] at run
    split at run
    · cases run
    · split at run <;> cases run

theorem lockTableNoError : lockTable fdOf t tabName s ≠ .error (.error e) s' := by
  intro run
  rw [lockTable] at run
  rcases bindFails run with file | ⟨fh,u,_,run⟩
  · rw [tableFile,getBind,SmManager.fileHandle] at file
    split at file <;> cases file
  · rcases bindFails run with locked | ⟨_,_,_,last⟩
    · rw [withLocks] at locked
      split at locked
      · cases locked
      · rw [zoom] at locked
        split at locked
        · cases locked
        · cases locked
          exact lockNoError ‹_›
    · cases last

theorem lockedRead (safe : Safe s) (live : s.Live t) (run : lockTable fdOf t tabName s = .ok () s') :
    s'.smManager = s.smManager ∧ s'.log = s.log ∧ Safe s' ∧ s'.Live t := by
  have locked := @lockTableRun s t tabName fdOf safe live
  have log := congrArg LogManager.all (lockTurns run).log
  rw [run] at locked
  cases locked with
  | done aside kept _ => exact ⟨aside.sm,log,kept.safe,kept.live⟩

theorem commitAdds (order : List LockDataId) (live : s.Live t) : ∃ s' later, commit t order s = .ok () s' ∧
    s'.logManager.logFile = s.log ++ later ∧ allWrites later = [] := by
  obtain ⟨txn,found,alive⟩ := live
  obtain ⟨s₁,s₂,logged,beside,run⟩ := commitRecorded order found alive
  obtain ⟨s₁',r,again,log,_,data,flushed,_,_⟩ := @logRecordRun s t txn (.commitLogRecord t) found rfl
  rw [again] at logged
  cases logged
  refine ⟨_,[r],run,?_,?_⟩
  · change s₂.logManager.logFile = _
    rw [beside.log,flushed,log]
  · simp only [allWrites,List.filterMap_cons,List.filterMap_nil,writeOf,if_true,data]
    rfl

end Locks

end TransactionManager

namespace Dml
open TransactionManager

def KeepsRows (change : TabMeta → Bytes → Except Fault (Option Bytes)) (tabName : String) (scan : SmManager → Visited)
    (sm : SmManager) : Prop :=
  ∀ tab rids, sm.db.getTable tabName = .ok tab → scan sm = (rids,none) → KeepsUntil tab tabName (change tab) (contents sm) rids

def Harmless [FloatOps] (stmt : Dml) (sm : SmManager) : Prop :=
  match stmt with
  | .insert _ _ => True
  | .delete tabName scan => KeepsRows (fun _ _ => .ok none) tabName scan sm
  | .update tabName setClauses scan => KeepsRows (fun tab => setRow tab setClauses) tabName scan sm

/- Of what came between `s` and `failed` the tables and indexes hold nothing, and nothing that `ended` has on
disk brings any of it back. -/
structure Traceless (s failed ended : TransactionManager) : Prop where
  rows : contents failed.smManager = contents s.smManager
  indexes : SameIndexes s.smManager failed.smManager
  log : ∃ later, ended.logManager.logFile = s.log ++ later ∧
    overwrite (contents s.smManager) (allWrites later) = contents s.smManager

section Failed
variable {s s' : TransactionManager} {t : Int} {tabName : String} {fdOf : String → Int} {e : RMDBError}

theorem loopFailed {change : TabMeta → Bytes → Except Fault (Option Bytes)} {wtype : WType} {scan : SmManager → Visited}
    {new : M TransactionManager TabMeta} {f : TabMeta → Rid → M TransactionManager Unit} (safe : Safe s) (live : s.Live t)
    (agreed : s.smManager.Agreed) (quiet : ∀ tab rid, Quiet (f tab rid))
    (settles : ∀ tab recordSize, tab.Valid recordSize → Settles (change tab) recordSize)
    (opens : new = do
      let tab ← tableMeta tabName
      lockTable fdOf t tabName
      pure tab)
    (each : ∀ tab rid (s : TransactionManager) txn, s.txnMap t = some txn → s.smManager.Agreed →
      s.smManager.db.getTable tabName = .ok tab → RowEnd s t tab tabName (change tab) wtype rid (f tab rid s))
    (failed : (do
      lockTable fdOf t tabName
      let rids ← collect scan
      let tab ← new
      rids.forM (f tab) : M TransactionManager Unit) s = .error (.error e) s') :
    Recorded s s' ∧ (contents s'.smManager = contents s.smManager ↔ KeepsRows change tabName scan s.smManager) := by
  have early {u : TransactionManager} (sm : u.smManager = s.smManager) (log : u.log = s.log)
      (vacuous : KeepsRows change tabName scan s.smManager) : Recorded s u ∧
        (contents u.smManager = contents s.smManager ↔ KeepsRows change tabName scan s.smManager) :=
    ⟨.same log sm,fun _ => vacuous,fun _ => by rw [sm]⟩
  rcases bindFails failed with locked | ⟨_,s₁,locked,failed⟩
  · exact absurd locked lockTableNoError
  obtain ⟨sm₁,log₁,safe₁,live₁⟩ := lockedRead safe live locked
  rcases bindFails failed with scanned | ⟨rids,s₂,scanned,failed⟩
  · rw [collect,getBind] at scanned
    cases visited : scan s₁.smManager with
    | mk rids fault =>
      rw [visited] at scanned
      cases fault with
      | none => cases scanned
      | some e' =>
        cases scanned
        refine early sm₁ log₁ fun tab rids' _ all => ?_
        rw [sm₁,all] at visited
        cases visited
  obtain rfl := scanRead scanned
  have visited : scan s.smManager = (rids,none) := by
    rw [collect,getBind,sm₁] at scanned
    cases all : scan s.smManager with
    | mk rids' fault =>
      rw [all] at scanned
      cases fault <;> cases scanned
      rfl
  rw [opens] at failed
  rcases bindFails failed with opened | ⟨tab,s₃,opened,failed⟩
  · rcases bindFails opened with listed | ⟨tab,u,_,opened⟩
    · rw [tableMeta,getBind,sm₁] at listed
      cases found : s.smManager.db.getTable tabName with
      | error e' =>
        rw [found] at listed
        cases listed
        refine early sm₁ log₁ fun tab rids' listed' _ => ?_
        rw [found] at listed'
        cases listed'
      | ok tab =>
        rw [found] at listed
        cases listed
    · rcases bindFails opened with locked | ⟨_,_,_,last⟩
      · exact absurd locked lockTableNoError
      · cases last
  obtain ⟨tab',u,asked,opened⟩ := bindOk.mp opened
  obtain ⟨listed,rfl⟩ := tableMetaListed asked
  obtain ⟨_,u,locked',last⟩ := bindOk.mp opened
  cases last
  obtain ⟨sm₃,log₃,_,live₃⟩ := lockedRead safe₁ live₁ locked'
  obtain ⟨txn,found,_⟩ := live₃
  rw [sm₁] at listed
  rw [sm₁] at sm₃
  obtain ⟨front,rid,back,split,walked,never,recorded⟩ := rowsWalked (quiet tab) (each tab) rids found
    (by rw [sm₃]; exact agreed) (by rw [sm₃]; exact listed) failed
  rw [sm₃] at walked
  obtain ⟨fh,table,_⟩ := agreed.tables _ _ listed
  have sized : ∀ rid old, contents s.smManager (tabName,rid) = some old → old.length = fh.fileHdr.recordSize :=
    fun rid old there => table.sized rid old ((congrFun (SmManager.tableContents table.handle) rid).symm.trans there)
  rw [split] at visited
  refine ⟨(Recorded.same (log₃.trans log₁) sm₃).trans recorded,
    (@Walked.keeps _ _ _ _ _ rid front back _ walked (settles tab _ table.valid) sized never).trans
      ⟨fun keeps tab' rids' listed' visited' => ?_,fun keeps => ?_⟩⟩
  · obtain rfl := Except.ok.inj (listed.symm.trans listed')
    obtain rfl := (Prod.ext_iff.mp (visited.symm.trans visited')).1
    exact keeps
  · exact keeps tab _ listed visited

theorem insertFailed [FloatOps] {values : List Value} (safe : Safe s) (live : s.Live t) (agreed : s.smManager.Agreed)
    (failed : (Dml.insert tabName values).run fdOf t s = .error (.error e) s') :
    Recorded s s' ∧ contents s'.smManager = contents s.smManager := by
  have early {u : TransactionManager} (sm : u.smManager = s.smManager) (log : u.log = s.log) :
      Recorded s u ∧ contents u.smManager = contents s.smManager := ⟨.same log sm,by rw [sm]⟩
  rw [Dml.run] at failed
  rcases bindFails failed with opened | ⟨tab,s₁,opened,failed⟩
  · rw [InsertExecutor.new] at opened
    rcases bindFails opened with listed | ⟨tab,u,asked,opened⟩
    · rw [tableMeta,getBind] at listed
      cases found : s.smManager.db.getTable tabName with
      | error e' =>
        rw [found] at listed
        cases listed
        exact early rfl rfl
      | ok tab =>
        rw [found] at listed
        cases listed
    · obtain ⟨_,rfl⟩ := tableMetaListed asked
      split at opened
      · cases opened
        exact early rfl rfl
      · rcases bindFails opened with locked | ⟨_,_,_,last⟩
        · exact absurd locked lockTableNoError
        · cases last
  · rw [InsertExecutor.new] at opened
    obtain ⟨tab',u,asked,opened⟩ := bindOk.mp opened
    obtain ⟨listed,rfl⟩ := tableMetaListed asked
    split at opened
    · cases opened
    · obtain ⟨_,u,locked,last⟩ := bindOk.mp opened
      cases last
      obtain ⟨sm₁,log₁,_,live₁⟩ := lockedRead safe live locked
      obtain ⟨txn,found,_⟩ := live₁
      have turned := @insertTurned s₁ t txn tabName tab _ values found (by rw [sm₁]; exact agreed) (by rw [sm₁]; exact listed)
      rw [failed] at turned
      cases turned with
      | failed did same log => exact early (same.trans sm₁) (log.trans log₁)

theorem stmtFailed [FloatOps] (stmt : Dml) (safe : Safe s) (live : s.Live t) (agreed : s.smManager.Agreed)
    (failed : stmt.run fdOf t s = .error (.error e) s') :
    Recorded s s' ∧ (contents s'.smManager = contents s.smManager ↔ stmt.Harmless s.smManager) := by
  cases stmt with
  | insert tabName values =>
    obtain ⟨recorded,same⟩ := insertFailed safe live agreed failed
    exact ⟨recorded,fun _ => trivial,fun _ => same⟩
  | delete tabName scan =>
    refine @loopFailed s s' t tabName fdOf e (fun _ _ => .ok none) .deleteTuple scan _
      (fun tab rid => DeleteExecutor.deleteRow t tab tabName rid) safe live agreed (fun _ _ => quietDelete)
      (fun _ _ _ old new _ made => ?_) rfl
      (fun _ _ _ _ found agreed listed => deleteRowEnd found agreed listed) failed
    cases Except.ok.inj made
  | update tabName setClauses scan =>
    refine @loopFailed s s' t tabName fdOf e (fun tab => setRow tab setClauses) .updateTuple scan _
      (fun tab rid => UpdateExecutor.updateRow t tab tabName setClauses rid) safe live agreed
      (fun _ _ => quietUpdate setClauses) (fun tab recordSize valid old new sized made => ?_) rfl
      (fun _ _ _ _ found agreed listed => updateRowEnd found agreed listed) failed
    rw [setRow] at made ⊢
    cases set : UpdateExecutor.newRecord tab setClauses old with
    | error e =>
      rw [set] at made
      cases made
    | ok new' =>
      rw [set] at made
      cases Except.ok.inj made
      rw [newRecordTwice valid sized set]
      rfl

theorem failureUndone [FloatOps] (fdOf : String → Int) (stmt : Dml) (s s' : TransactionManager) (t : Int) (e : RMDBError)
    (order : List LockDataId) (safe : Safe s) (live : s.Live t) (agreed : s.smManager.Agreed)
    (failed : stmt.run fdOf t s = .error (.error e) s') :
    ∃ ended, commit t order s' = .ok () ended ∧ (Traceless s s' ended ↔ stmt.Harmless s.smManager) := by
  obtain ⟨⟨later,log,rows⟩,harmless⟩ := stmtFailed stmt safe live agreed failed
  obtain ⟨⟨new,did,_⟩,kept⟩ := @Dml.outcome s t fdOf _ stmt safe live agreed
  rw [failed] at did kept
  have live' : s'.Live t := kept.live
  obtain ⟨ended,last,run,file,none⟩ := commitAdds order live'
  refine ⟨ended,run,fun traceless => harmless.mp traceless.rows,fun holds => ?_⟩
  have same := harmless.mpr holds
  have all : allWrites (later ++ last) = allWrites later ++ allWrites last := List.filterMap_append
  refine ⟨same,sameIndexes agreed did.agreed did.same.db same,later ++ last,?_,?_⟩
  · rw [file,log,List.append_assoc]
  · rw [all,none,List.append_nil,← rows,same]

theorem begunRun [FloatOps] (stmts : List Dml) (safe : Safe s) (agreed : s.smManager.Agreed) :
    Safe (runAll fdOf s.nextTxnId stmts (after (begin none s))) ∧
      (runAll fdOf s.nextTxnId stmts (after (begin none s))).smManager.Agreed := by
  obtain ⟨s₁,begun,safe₁,live₁,sm₁,_⟩ := beginReady safe
  obtain ⟨_,led,kept⟩ := @runAllLed s₁ s.nextTxnId fdOf _ stmts safe₁ live₁ (by rw [sm₁]; exact agreed)
  rw [begun]
  exact ⟨kept.safe,led.agreed⟩

theorem endedBegun {order : List LockDataId} (safe : Safe s) (agreed : s.smManager.Agreed) (reads : s.Reads t order) :
    Safe (after (begin none (after (commit t order s)))) ∧
      (after (begin none (after (commit t order s)))).Live (after (commit t order s)).nextTxnId ∧
      (after (begin none (after (commit t order s)))).smManager.Agreed := by
  obtain ⟨s₁,_,committed,safe₁,_⟩ := commitRun safe reads
  have sm₁ := (@Database.commitAside t order s).1
  rw [committed] at sm₁ ⊢
  obtain ⟨s₂,begun,safe₂,live₂,sm₂,_⟩ := beginReady safe₁
  have sm₁ : s₁.smManager = s.smManager := sm₁
  rw [show after (EStateM.Result.ok () s₁ : EStateM.Result Fault TransactionManager Unit) = s₁ from rfl,begun]
  refine ⟨safe₂,live₂,?_⟩
  rw [show after (EStateM.Result.ok s₁.nextTxnId s₂ : EStateM.Result Fault TransactionManager Int) = s₂ from rfl,sm₂,sm₁]
  exact agreed

end Failed

def bothRows : List Dml := [.insert "t" [⟨.int 1,none⟩],.insert "t" [⟨.int 2,none⟩]]
def inserted : TransactionManager := @runAll FloatOps.whole (fun _ => 3) 0 bothRows (after (begin none indexed))
def twoRows : TransactionManager := after (begin none (after (commit 0 [.onTable 3] inserted)))
def setBoth : Dml := .update "t" [⟨⟨"t","a"⟩,⟨.int 5,none⟩⟩] fun sm => @SeqScanExecutor.visited FloatOps.whole sm "t" []
def sameAgain : Dml := .insert "t" [⟨.int 1,none⟩]

def notUnique : RMDBError := .plain "Unique index constraint violated"

def endsIn (result : EStateM.Result Fault TransactionManager Unit) (e : RMDBError) : Bool :=
  match result with
  | .ok _ _ => false
  | .error fault _ => fault = .error e

theorem endsInError {result : EStateM.Result Fault TransactionManager Unit} {e : RMDBError} (ends : endsIn result e = true) :
    result = .error (.error e) (after result) := by
  cases result with
  | ok _ _ => cases ends
  | error fault s =>
    obtain rfl := of_decide_eq_true ends
    rfl

theorem twoRowsReady : Safe twoRows ∧ twoRows.Live 1 ∧ twoRows.smManager.Agreed := by
  have safe₀ : Safe indexed := TransactionManager.Reached.safe ⟨indexed,⟨fun _ => rfl,fun _ => rfl⟩,.refl⟩
  have locks : (inserted.txnMap 0).map Transaction.lockSet = some [.onTable 3] := by decide +kernel
  have reads : inserted.Reads 0 [.onTable 3] := by
    obtain ⟨txn,found,held⟩ := Option.map_eq_some_iff.mp locks
    exact ⟨txn,found,by rw [held]⟩
  have next : (after (commit 0 [.onTable 3] inserted)).nextTxnId = 1 := by decide +kernel
  have ready := @endedBegun inserted 0 [.onTable 3]
    (@begunRun indexed (fun _ => 3) FloatOps.whole bothRows safe₀ DbDir.oneIndexSound.agreed).1
    (@begunRun indexed (fun _ => 3) FloatOps.whole bothRows safe₀ DbDir.oneIndexSound.agreed).2 reads
  rw [next] at ready
  exact ready

theorem duplicateTraceless : ∃ s' ended, @Dml.run FloatOps.whole (fun _ => 3) 1 sameAgain twoRows = .error (.error notUnique) s' ∧
    commit 1 [.onTable 3] s' = .ok () ended ∧ Traceless twoRows s' ended := by
  obtain ⟨safe,live,agreed⟩ := twoRowsReady
  have failed := @endsInError (@Dml.run FloatOps.whole (fun _ => 3) 1 sameAgain twoRows) notUnique (by decide +kernel)
  obtain ⟨ended,run,holds⟩ := @failureUndone FloatOps.whole (fun _ => 3) sameAgain twoRows _ 1 notUnique [.onTable 3] safe live
    agreed failed
  exact ⟨_,ended,failed,run,holds.mpr trivial⟩

theorem firstRowStays : ∃ s' ended, (Safe twoRows ∧ twoRows.Live 1 ∧ twoRows.smManager.Agreed) ∧
    @Dml.run FloatOps.whole (fun _ => 3) 1 setBoth twoRows = .error (.error notUnique) s' ∧
    commit 1 [.onTable 3] s' = .ok () ended ∧ ¬Traceless twoRows s' ended ∧
    ∃ r ∈ ended.logManager.logFile, r.data.place = some ("t",⟨1,0⟩) ∧ r.data.beforeImage = some [1,0,0,0] ∧
      r.data.afterImage = some [5,0,0,0] := by
  have failed := @endsInError (@Dml.run FloatOps.whole (fun _ => 3) 1 setBoth twoRows) notUnique (by decide +kernel)
  have before : contents twoRows.smManager ("t",⟨1,0⟩) = some [1,0,0,0] := by decide +kernel
  have now : contents (after (@Dml.run FloatOps.whole (fun _ => 3) 1 setBoth twoRows)).smManager ("t",⟨1,0⟩) = some [5,0,0,0] := by
    decide +kernel
  have disk : ∃ r ∈ (after (commit 1 [.onTable 3] (after (@Dml.run FloatOps.whole (fun _ => 3) 1 setBoth
      twoRows)))).logManager.logFile, r.data.place = some ("t",⟨1,0⟩) ∧ r.data.beforeImage = some [1,0,0,0] ∧
        r.data.afterImage = some [5,0,0,0] := by decide +kernel
  have live : (after (@Dml.run FloatOps.whole (fun _ => 3) 1 setBoth twoRows)).Live 1 :=
    (@Dml.outcome twoRows 1 (fun _ => 3) FloatOps.whole setBoth twoRowsReady.1 twoRowsReady.2.1 twoRowsReady.2.2).kept.live
  obtain ⟨ended,_,run,_⟩ := commitAdds [.onTable 3] live
  rw [run] at disk
  refine ⟨_,ended,twoRowsReady,failed,run,fun traceless => ?_,disk⟩
  have same := congrFun traceless.rows ("t",⟨1,0⟩)
  rw [now,before] at same
  cases same

end Dml
end Rmdb
