import Rmdb.Execution.RowWrites

/-! Recovery at a later start: the log still has the records that an earlier recovery has undone. -/
namespace Rmdb.Recovery
open Record RecoveryManager TransactionManager Lib

/- The process after the first recovery, with ids that no record in the log has. -/
structure Booted (s : TransactionManager) (sm : SmManager) (logs : List LogRecord) : Prop where
  tables : s.smManager = sm
  file : s.logManager.logFile = logs
  buffer : s.logManager.logBuffer = []
  txns : ∀ t, s.txnMap t = none
  ids : ∀ r ∈ logs, r.logTid < s.nextTxnId

inductive LaterStep : TransactionManager → TransactionManager → Prop where
  | begin {s : TransactionManager} : LaterStep s (after (begin none s))
  | turn {s s' : TransactionManager} {t : Int} (live : s.Live t) (turn : Turn t s s') : LaterStep s s'
  | commit {s : TransactionManager} {t : Int} {order : List LockDataId} (live : s.Live t) :
      LaterStep s (after (commit t order s))

def allWrites (logs : List LogRecord) : List Write := logs.filterMap (writeOf (fun _ => True) LogData.afterImage)

def endsOf (s : TransactionManager) (t : Int) : Option Bool := (s.txnMap t).map fun txn => ended txn.state

structure Later (old : List LogRecord) (start : (String × Rid) → Option Bytes) (n : Int) (lost : String → Set Int)
    (s : TransactionManager) : Prop where
  files : WellFiles s.smManager lost
  formed : WellFormedLogs s.smManager s.log
  keys : ∀ t, endsOf s t ≠ none → n ≤ t ∧ t < s.nextTxnId
  low : n ≤ s.nextTxnId
  new : ∃ later, s.log = old ++ later ∧ contents s.smManager = overwrite start (allWrites later) ∧
    ∀ r ∈ later, endsOf s r.logTid ≠ none
  gone : ∀ t, endsOf s t = some true → ∃ r ∈ s.logManager.logFile, r.logTid = t ∧ r.data = .commit
  buffered : ∀ r ∈ s.logManager.logBuffer, endsOf s r.logTid = some false

section Later
variable {old : List LogRecord} {start : (String × Rid) → Option Bytes} {n t : Int} {lost : String → Set Int}
  {s s' : TransactionManager}

theorem sameEnds (same : SameLocks s s') : endsOf s' = endsOf s := by
  funext t
  have view := congrArg (Option.map fun (v : Int × TransactionState × List LockDataId) => ended v.2.1) (same.txns t)
  rwa [Option.map_map,Option.map_map] at view

theorem emptyBuffer {lm : LogManager} (flushed : lm.logFile = lm.all) : lm.logBuffer = [] := by
  have all : lm.logFile ++ lm.logBuffer = lm.all := rfl
  rw [← flushed] at all
  exact List.append_right_eq_self.mp all

theorem contentsFiles {sm sm' : SmManager} (same : sm'.fhs = sm.fhs) : contents sm' = contents sm := by
  funext place
  rw [contents,contents,same]

theorem Later.beside (holds : Later old start n lost s) (beside : Beside s s') : Later old start n lost s' := by
  have ends : endsOf s' = endsOf s := funext beside.ends
  have log : s'.log = s.log := congrArg LogManager.all beside.log
  obtain ⟨later,split,rows,known⟩ := holds.new
  refine ⟨?_,?_,?_,?_,⟨later,log.trans split,(contentsFiles beside.files).trans rows,ends ▸ known⟩,?_,?_⟩
  · intro tab fh found
    exact holds.files tab fh (beside.files ▸ found)
  · intro r mem place named
    obtain ⟨fh,found,inside⟩ := holds.formed r (log ▸ mem) place named
    exact ⟨fh,by rw [beside.files]; exact found,inside⟩
  · rw [ends,beside.next]
    exact holds.keys
  · rw [beside.next]
    exact holds.low
  · rw [ends,beside.log]
    exact holds.gone
  · rw [ends,beside.log]
    exact holds.buffered

theorem Later.recorded {r : LogRecord} (holds : Later old start n lost s) (live : endsOf s t = some false)
    (log : s'.log = s.log ++ [r]) (flushed : s'.logManager.logFile = s'.log) (own : r.logTid = t) (same : SameLocks s s')
    (files : WellFiles s'.smManager lost) (grown : Grown s.smManager s'.smManager)
    (place : ∀ place ∈ r.data.place, Placed s'.smManager (place,none))
    (rows : contents s'.smManager = overwrite (contents s.smManager) (allWrites [r])) : Later old start n lost s' := by
  have ends := sameEnds same
  obtain ⟨later,split,before,known⟩ := holds.new
  refine ⟨files,?_,?_,?_,⟨later ++ [r],?_,?_,?_⟩,?_,?_⟩
  · intro x mem p named
    rw [log] at mem
    rcases List.mem_append.mp mem with old_ | new
    · exact (holds.formed x old_ p named).grown grown
    · rw [List.mem_singleton.mp new] at named
      exact place p named
  · rw [ends,same.next]
    exact holds.keys
  · rw [same.next]
    exact holds.low
  · rw [log,split,List.append_assoc]
  · rw [rows,before,allWrites,allWrites,allWrites,List.filterMap_append,overwriteAppend]
  · intro x mem
    rw [ends]
    rcases List.mem_append.mp mem with old_ | new
    · exact known x old_
    · rw [List.mem_singleton.mp new,own,live]
      exact Option.some_ne_none _
  · intro u over_
    rw [ends] at over_
    obtain ⟨x,mem,here⟩ := holds.gone u over_
    refine ⟨x,?_,here⟩
    rw [flushed,log]
    exact List.mem_append_left _ (List.mem_append_left _ mem)
  · intro x mem
    rw [emptyBuffer flushed] at mem
    cases mem

theorem liveEnds (live : s.Live t) : endsOf s t = some false := by
  obtain ⟨txn,found,alive⟩ := live
  rw [endsOf,found,Option.map_some,alive]

theorem Later.row {r : LogRecord} (holds : Later old start n lost s) (live : s.Live t) (written : RowWritten s s' t r)
    (files : WellFiles s'.smManager lost) : Later old start n lost s' := by
  obtain ⟨k,place,_,rows,placed⟩ := written.row
  refine holds.recorded (liveEnds live) written.log written.flushed written.own written.same files written.grown ?_ ?_
  · intro p named
    rw [place] at named
    cases named
    exact placed
  · have one : allWrites [r] = [(k,r.data.afterImage)] := by
      simp only [allWrites,List.filterMap_cons,List.filterMap_nil,writeOf,if_true,place,Option.map_some]
    rw [rows,one]
    rfl

theorem Later.turn (holds : Later old start n lost s) (live : s.Live t) (turn : Turn t s s') : Later old start n lost s' := by
  have known := live.choose_spec.1
  have step {x : M TransactionManager Unit} (result : RowResult s t lost (x s)) : Later old start n lost (after (x s)) := by
    generalize x s = r at result
    cases result with
    | done written files => exact holds.row live written files
    | refused => exact holds
  cases turn with
  | insert => exact step (insertRowRun holds.files known)
  | delete => exact step (deleteRowRun holds.files known)
  | update => exact step (updateRowRun holds.files known)
  | beside beside => exact holds.beside beside

theorem Later.begin (holds : Later old start n lost s) : Later old start n lost (after (begin none s)) := by
  have sm := beginSm s
  obtain ⟨s',run,logged⟩ := beginLogged s
  rw [run] at sm ⊢
  change s'.smManager = s.smManager at sm
  change Later old start n lost s'
  obtain ⟨r,log,own,data⟩ := logged.log
  have next : s'.nextTxnId = s.nextTxnId+1 := logged.same.next
  have ends : endsOf s' = Function.update (endsOf s) s.nextTxnId (some false) := by
    rw [sameEnds logged.same]
    funext t
    by_cases here : t = s.nextTxnId
    · subst here
      simp only [endsOf,addTxn,Function.update_self]
      rfl
    · simp only [endsOf,addTxn,Function.update_of_ne here]
  have kept {t : Int} (known : endsOf s t ≠ none) : endsOf s' t = endsOf s t := by
    rw [ends,Function.update_of_ne (ne_of_lt (holds.keys t known).2)]
  obtain ⟨later,split,rows,known⟩ := holds.new
  refine ⟨sm ▸ holds.files,?_,?_,?_,⟨later ++ [r],?_,?_,?_⟩,?_,?_⟩
  · intro x mem place named
    rw [log] at mem
    rcases List.mem_append.mp mem with old_ | new
    · rw [sm]
      exact holds.formed x old_ place named
    · rw [List.mem_singleton.mp new,data] at named
      cases named
  · intro u present
    rw [ends,Function.update_apply] at present
    split at present
    · rename_i here
      rw [here,next]
      exact ⟨holds.low,lt_add_one _⟩
    · obtain ⟨low,high⟩ := holds.keys u present
      exact ⟨low,by omega⟩
  · rw [next]
    exact le_trans holds.low (by omega)
  · rw [log]
    change s.log ++ [r] = _
    rw [split,List.append_assoc]
  · have nothing : allWrites [r] = [] := by
      simp only [allWrites,List.filterMap_cons,List.filterMap_nil,writeOf,if_true,data]
      rfl
    rw [sm,rows,allWrites,allWrites,List.filterMap_append]
    change _ = overwrite start (_ ++ allWrites [r])
    rw [nothing,List.append_nil]
  · intro x mem
    rcases List.mem_append.mp mem with old_ | new
    · rw [kept (known x old_)]
      exact known x old_
    · rw [List.mem_singleton.mp new,own,ends,Function.update_self]
      exact Option.some_ne_none _
  · intro u over_
    have before : endsOf s u = some true := by
      rw [ends,Function.update_apply] at over_
      split at over_
      · cases over_
      · exact over_
    obtain ⟨x,mem,here⟩ := holds.gone u before
    exact ⟨x,logged.file.subset mem,here⟩
  · intro x mem
    rcases bufferMem logged.file log mem with old_ | rfl
    · have live := holds.buffered x old_
      rw [kept (by rw [live]; exact Option.some_ne_none _),live]
    · rw [own,ends,Function.update_self]

theorem Later.commit {order : List LockDataId} (holds : Later old start n lost s) (live : s.Live t) :
    Later old start n lost (after (commit t order s)) := by
  obtain ⟨txn,found,alive⟩ := live
  obtain ⟨s₁,s₂,logged,beside,run⟩ := commitRecorded order found alive
  obtain ⟨s₁',r,again,log,own,data,flushed,same,sm⟩ := @logRecordRun s t txn (.commitLogRecord t) found rfl
  obtain rfl : s₁ = s₁' := by
    rw [logged] at again
    cases again
    rfl
  have nothing : allWrites [r] = [] := by
    simp only [allWrites,List.filterMap_cons,List.filterMap_nil,writeOf,if_true,data]
    rfl
  have first : Later old start n lost s₁ := by
    refine holds.recorded (liveEnds ⟨txn,found,alive⟩) log flushed own same (sm ▸ holds.files) (sm ▸ Grown.refl _) ?_ ?_
    · intro place named
      rw [data] at named
      cases named
    · rw [nothing,sm]
      rfl
  have second := first.beside beside
  rw [run]
  have ends : endsOf (after (modifyTxn t (fun object => {object with state := .committed}) s₂)) =
      Function.update (endsOf s₂) t (some true) := by
    have known : ∃ txn₂, s₂.txnMap t = some txn₂ := by
      have there := beside.ends t
      rw [show (s₁.txnMap t).map (fun txn => ended txn.state) = some false from (congrFun (sameEnds same) t).trans
        (liveEnds ⟨txn,found,alive⟩)] at there
      obtain ⟨txn₂,found₂,_⟩ := Option.map_eq_some_iff.mp there
      exact ⟨txn₂,found₂⟩
    obtain ⟨txn₂,found₂⟩ := known
    funext u
    change (Function.update s₂.txnMap t _ u).map _ = _
    by_cases here : u = t
    · rw [here,Function.update_self,Function.update_self,found₂]
      rfl
    · rw [Function.update_of_ne here,Function.update_of_ne here]
      rfl
  have file : s₂.logManager.logFile = s₂.log := by
    rw [TransactionManager.log,beside.log]
    exact flushed
  have there {x : LogRecord} (known : endsOf s₂ x.logTid ≠ none) :
      endsOf (after (modifyTxn t (fun object => {object with state := .committed}) s₂)) x.logTid ≠ none := by
    rw [ends,Function.update_apply]
    split
    · exact Option.some_ne_none _
    · exact known
  obtain ⟨later,split,rows,known⟩ := second.new
  refine ⟨second.files,second.formed,?_,second.low,⟨later,split,rows,fun x mem => there (known x mem)⟩,?_,?_⟩
  · intro u present
    rw [ends,Function.update_apply] at present
    split at present
    · rename_i here
      rw [here]
      refine second.keys t ?_
      rw [show endsOf s₂ t = endsOf s₁ t from beside.ends t,sameEnds same,liveEnds ⟨txn,found,alive⟩]
      exact Option.some_ne_none _
    · exact second.keys u present
  · intro u over_
    rw [ends,Function.update_apply] at over_
    split at over_
    · rename_i here
      refine ⟨r,?_,own.trans here.symm,data⟩
      change r ∈ s₂.logManager.logFile
      rw [file,TransactionManager.log,beside.log]
      change r ∈ s₁.log
      rw [log]
      exact List.mem_append_right _ List.mem_cons_self
    · exact second.gone u over_
  · intro x mem
    have empty := emptyBuffer file
    change x ∈ s₂.logManager.logBuffer at mem
    rw [empty] at mem
    cases mem

theorem Later.step (holds : Later old start n lost s) (step : LaterStep s s') : Later old start n lost s' := by
  cases step with
  | begin => exact holds.begin
  | turn live turn => exact holds.turn live turn
  | commit live => exact holds.commit live

theorem Booted.later {sm : SmManager} (booted : Booted s sm old) (files : WellFiles sm lost) (formed : WellFormedLogs sm old) :
    Later old (contents sm) s.nextTxnId lost s := by
  have log : s.log = old := by
    rw [TransactionManager.log,LogManager.all,booted.file,booted.buffer,List.append_nil]
  have none (t : Int) : endsOf s t = none := by rw [endsOf,booted.txns t]; rfl
  refine ⟨booted.tables ▸ files,?_,fun t known => absurd (none t) known,le_refl _,⟨[],?_,?_,by simp⟩,?_,?_⟩
  · rw [booted.tables,log]
    exact formed
  · rw [log,List.append_nil]
  · rw [booted.tables]
    rfl
  · intro t over_
    rw [none t] at over_
    cases over_
  · intro r mem
    rw [booted.buffer] at mem
    cases mem

end Later
section Classify
variable {logs later : List LogRecord} {t : Int} {k : String × Rid}

theorem committedAppend : Committed (logs ++ later) t ↔ Committed logs t ∨ Committed later t := by
  simp only [Committed,committedTxns,List.filter_append,List.map_append,List.mem_append]

theorem finishedAppend : t ∈ finishedTxns (logs ++ later) ↔ t ∈ finishedTxns logs ∨ t ∈ finishedTxns later := by
  simp only [finishedTxns,List.filter_append,List.map_append,List.mem_append]

theorem committedFinished (done : Committed logs t) : t ∈ finishedTxns logs := by
  simp only [Committed,committedTxns,finishedTxns,List.mem_map,List.mem_filter,decide_eq_true_eq] at done ⊢
  obtain ⟨r,⟨mem,kind⟩,own⟩ := done
  exact ⟨r,⟨mem,.inl kind⟩,own⟩

theorem finishedOwn (done : t ∈ finishedTxns logs) : ∃ r ∈ logs, r.logTid = t := by
  simp only [finishedTxns,List.mem_map,List.mem_filter] at done
  obtain ⟨r,⟨mem,_⟩,own⟩ := done
  exact ⟨r,mem,own⟩

structure Apart (logs later : List LogRecord) : Prop where
  ids : ∀ r ∈ logs, ∀ r' ∈ later, r.logTid ≠ r'.logTid
  done : ∀ r ∈ later, Committed later r.logTid

theorem Apart.committedOld {r : LogRecord} (apart : Apart logs later) (mem : r ∈ logs) :
    Committed (logs ++ later) r.logTid ↔ Committed logs r.logTid := by
  rw [committedAppend]
  refine or_iff_left fun done => ?_
  obtain ⟨r',mem',own⟩ := finishedOwn (committedFinished done)
  exact apart.ids r mem r' mem' own.symm

theorem Apart.unfinishedOld {r : LogRecord} (apart : Apart logs later) (mem : r ∈ logs) :
    Unfinished (logs ++ later) r.logTid ↔ Unfinished logs r.logTid := by
  have all : r.logTid ∈ allTxns (logs ++ later) ↔ r.logTid ∈ allTxns logs := by
    simp only [allTxns,List.map_append,List.filter_append,List.mem_append]
    refine or_iff_left fun other => ?_
    obtain ⟨r',mem',own⟩ := List.mem_map.mp (List.mem_filter.mp other).1
    exact apart.ids r mem r' mem' own.symm
  rw [Unfinished,Unfinished,all,finishedAppend]
  refine and_congr_right fun _ => not_congr (or_iff_left fun done => ?_)
  obtain ⟨r',mem',own⟩ := finishedOwn done
  exact apart.ids r mem r' mem' own.symm

theorem Apart.undone (apart : Apart logs later) (k : String × Rid) :
    recordsAt (Unfinished (logs ++ later)) (logs ++ later) k = recordsAt (Unfinished logs) logs k := by
  rw [recordsAt,List.filter_append,recordsAt]
  have none : later.filter (fun r => Unfinished (logs ++ later) r.logTid ∧ r.data.place = some k) = [] := by
    refine List.filter_eq_nil_iff.mpr fun r mem chosen => ?_
    obtain ⟨⟨_,open_⟩,_⟩ := of_decide_eq_true chosen
    exact open_ (finishedAppend.mpr (.inr (committedFinished (apart.done r mem))))
  rw [none,List.append_nil]
  refine List.filter_congr fun r mem => ?_
  rw [decide_eq_decide,apart.unfinishedOld mem]

theorem Apart.redone (apart : Apart logs later) (k : String × Rid) :
    recordsAt (Committed (logs ++ later)) (logs ++ later) k =
      recordsAt (Committed logs) logs k ++ recordsAt (fun _ => True) later k := by
  rw [recordsAt,List.filter_append,recordsAt,recordsAt]
  congr 1
  · refine List.filter_congr fun r mem => ?_
    rw [decide_eq_decide,apart.committedOld mem]
  · refine List.filter_congr fun r mem => ?_
    rw [decide_eq_decide]
    exact and_congr_left fun _ => iff_true_intro (committedAppend.mpr (.inr (apart.done r mem)))

end Classify

def blankTable : RmFileHandle := RmManager.openFile "t" ⟨⟨512,1,RmManager.numRecordsPerPage 512,rmNoPage⟩,fun _ => none⟩

def blank : SmManager := ⟨⟨"db",[]⟩,fun tab => if tab = "t" then some blankTable else none,fun _ => none⟩

def someRow : Bytes := List.replicate 512 7

def rebooted (logs : List LogRecord) (n : Int) : TransactionManager :=
  ⟨n,0,fun _ => none,⟨fun _ => none⟩,⟨0,[],invalidLsn,logs⟩,after (recoverRecords logs blank)⟩

def begun (logs : List LogRecord) (n : Int) : TransactionManager := after (begin none (rebooted logs n))

end Rmdb.Recovery
