import Rmdb.Recovery.SecondRecovery

/-! Sessions inside their executors, call by call, with the write-backs of the buffer pool. -/
namespace Rmdb
open Record Recovery TransactionManager

abbrev Change := Int × LogData

namespace WriteAhead

/- Where the executor of a transaction is: the record is in the page and not yet logged; the log
record is in the buffer, and the page is changed before (an insert) or after it; the log record is
flushed and the page still to be changed. -/
inductive Phase where
  | idle
  | unlogged (data : LogData)
  | buffered (changesLater : Bool) (data : LogData)
  | logged (data : LogData)
  deriving DecidableEq

structure Server where
  mgr : TransactionManager
  phase : Int → Phase
  disk : String → Int → Option RmPage
  -- every change an executor has made, and those that a page on disk contains
  made : List Change
  onDisk : String → Int → List Change

def changeOf (log : List LogRecord) : List Change := log.map fun r => (r.logTid,r.data)

def isOnPage (tab : String) (pageNo : Int) (data : LogData) : Bool :=
  match data.place with
  | some (tab',rid) => tab' = tab ∧ rid.pageNo = pageNo
  | none => false

namespace Server

def file (s : Server) : List LogRecord := s.mgr.logManager.logFile

def changeRow : LogData → M SmManager Unit
  | .delete _ rid tab => SmManager.onFile tab (RmFileHandle.deleteRecord rid)
  | .update _ newValue rid tab => SmManager.onFile tab (RmFileHandle.updateRecord rid newValue)
  | _ => pure ()

inductive Act where
  | insertRecord (t : Int)
  | logInsert (t : Int)
  | logChange (t : Int)
  | flush (t : Int)
  | change (t : Int)
  | leave (t : Int)
  | writeBack (tab : String) (pageNo : Int)
  | other

def at_ (s : Server) (t : Int) (phase : Phase) (mgr : TransactionManager) : Server :=
  {s with mgr := mgr, phase := Function.update s.phase t phase}

inductive Step : Server → Act → Server → Prop where
  | insertRecord {s : Server} {t : Int} {tab : String} {buf : Bytes} {rid : Rid} {mgr : TransactionManager}
      (here : s.phase t = .idle) (run : onSm (SmManager.onFile tab (RmFileHandle.insertRecord buf)) s.mgr = .ok rid mgr) :
      Step s (.insertRecord t) {s.at_ t (.unlogged (.insert buf rid tab)) mgr with
        made := s.made ++ [(t,.insert buf rid tab)]}
  | logInsert {s : Server} {t : Int} {data : LogData} (live : s.mgr.Live t) (here : s.phase t = .unlogged data) :
      Step s (.logInsert t) (s.at_ t (.buffered false data) (after (appendLog t ⟨invalidLsn,t,invalidLsn,data⟩ s.mgr)))
  | logChange {s : Server} {t : Int} {tab : String} {fh : RmFileHandle} {rid : Rid} {old : Bytes} {data : LogData}
      (live : s.mgr.Live t) (here : s.phase t = .idle) (found : s.mgr.smManager.fhs tab = some fh)
      (read : fh.getRecord rid = .ok old) (kind : data = .delete old rid tab ∨ ∃ new, data = .update old new rid tab) :
      Step s (.logChange t) (s.at_ t (.buffered true data) (after (appendLog t ⟨invalidLsn,t,invalidLsn,data⟩ s.mgr)))
  | flush {s : Server} {t : Int} {later : Bool} {data : LogData} (here : s.phase t = .buffered later data) :
      Step s (.flush t) (s.at_ t (if later then .logged data else .idle) (after (flushLog s.mgr)))
  | change {s : Server} {t : Int} {data : LogData} {mgr : TransactionManager} (here : s.phase t = .logged data)
      (run : onSm (changeRow data) s.mgr = .ok () mgr) :
      Step s (.change t) {s.at_ t .idle mgr with made := s.made ++ [(t,data)]}
  -- an exception between the flush and the change
  | leave {s : Server} {t : Int} {data : LogData} (here : s.phase t = .logged data) :
      Step s (.leave t) (s.at_ t .idle s.mgr)
  -- `update_page` in `fetch_page` or `new_page`
  | writeBack {s : Server} {tab : String} {pageNo : Int} {fh : RmFileHandle} (found : s.mgr.smManager.fhs tab = some fh) :
      Step s (.writeBack tab pageNo) {s with
        disk := Function.update s.disk tab (Function.update (s.disk tab) pageNo (fh.pages pageNo))
        onDisk := Function.update s.onDisk tab (Function.update (s.onDisk tab) pageNo
          (s.made.filter fun change => isOnPage tab pageNo change.2))}
  /- Everything else: locks, indexes, the beginning and the ends of transactions. No data record is
  logged outside the executors. -/
  | other {s : Server} {mgr : TransactionManager} {new : List LogRecord} (log : mgr.log = s.mgr.log ++ new)
      (file : s.file <+: mgr.logManager.logFile) (ends : ∀ r ∈ new, r.data.place = none) :
      Step s .other {s with mgr := mgr}

/- No record that `insert_record` has put into the page waits for its log record, be it not yet
logged or still in the log buffer. -/
def Clear (s : Server) : Act → Prop
  | .writeBack tab pageNo => ∀ t data, isOnPage tab pageNo data = true → s.phase t ≠ .unlogged data ∧
      (s.phase t = .buffered false data → (t,data) ∉ changeOf s.mgr.logManager.logBuffer)
  | _ => True

def Ahead (s : Server) : Prop :=
  ∀ tab pageNo change, (s.onDisk tab pageNo).count change ≤ (changeOf s.file).count change

def owed : Phase → LogData → Nat
  | .buffered true x,data => if x = data then 1 else 0
  | .logged x,data => if x = data then 1 else 0
  | _,_ => 0

def lacking : Phase → LogData → Nat
  | .unlogged x,data => if x = data then 1 else 0
  | _,_ => 0

def waiting : Phase → LogData → Nat
  | .buffered _ x,data => if x = data then 1 else 0
  | _,_ => 0

structure Inv (s : Server) : Prop where
  covered : ∀ t data, s.made.count (t,data)+owed (s.phase t) data ≤
    (changeOf s.mgr.log).count (t,data)+lacking (s.phase t) data
  buffered : ∀ t data, data.place ≠ none →
    (changeOf s.mgr.logManager.logBuffer).count (t,data) ≤ waiting (s.phase t) data
  ahead : s.Ahead

section Steps
variable {s s' : Server} {mgr : TransactionManager} {phase : Phase} {t : Int} {made : List Change} {new : List LogRecord}

theorem changeAppend (log new : List LogRecord) : changeOf (log ++ new) = changeOf log ++ changeOf new := List.map_append

theorem countGrows {file : List LogRecord} (part : file <+: new) (change : Change) :
    (changeOf file).count change ≤ (changeOf new).count change := by
  obtain ⟨rest,rfl⟩ := part
  rw [changeAppend,List.count_append]
  exact Nat.le_add_right _ _

theorem allCount (lm : LogManager) (change : Change) : (changeOf lm.all).count change =
    (changeOf lm.logFile).count change+(changeOf lm.logBuffer).count change := by
  rw [LogManager.all,changeAppend,List.count_append]

theorem bufferCount {lm lm' : LogManager} (part : lm.logFile <+: lm'.logFile) (all : lm'.all = lm.all ++ new)
    (change : Change) : (changeOf lm'.logBuffer).count change ≤
      (changeOf lm.logBuffer).count change+(changeOf new).count change := by
  have total : (changeOf lm'.all).count change = (changeOf lm.all).count change+(changeOf new).count change := by
    rw [all,changeAppend,List.count_append]
  rw [allCount,allCount] at total
  have grows := countGrows part change
  omega

theorem Ahead.grows {file : List LogRecord} (ahead : s.Ahead) (part : s.file <+: file) (tab : String) (pageNo : Int)
    (change : Change) : (s.onDisk tab pageNo).count change ≤ (changeOf file).count change :=
  le_trans (ahead tab pageNo change) (countGrows part change)

theorem Inv.act (inv : Inv s) (part : s.file <+: mgr.logManager.logFile) (log : mgr.log = s.mgr.log ++ new)
    (own : ∀ r ∈ new, r.logTid = t)
    (others : ∀ u ≠ t, ∀ data, made.count (u,data) = s.made.count (u,data))
    (covered : ∀ data, made.count (t,data)+owed phase data ≤ (changeOf mgr.log).count (t,data)+lacking phase data)
    (buffered : ∀ data, data.place ≠ none → (changeOf mgr.logManager.logBuffer).count (t,data) ≤ waiting phase data) :
    Inv {s.at_ t phase mgr with made := made} := by
  have none {u : Int} (apart : u ≠ t) (data : LogData) : (changeOf new).count (u,data) = 0 := by
    refine List.count_eq_zero.mpr fun mem => ?_
    obtain ⟨r,memr,same⟩ := List.mem_map.mp mem
    exact apart ((Prod.mk.inj same).1.symm.trans (own r memr))
  refine ⟨fun u data => ?_,fun u data place => ?_,fun tab pageNo change => inv.ahead.grows part tab pageNo change⟩
  · by_cases here : u = t
    · subst here
      simp only [at_,Function.update_self]
      exact covered data
    · simp only [at_,Function.update_of_ne here]
      rw [others u here,log,changeAppend,List.count_append,none here,Nat.add_zero]
      exact inv.covered u data
  · by_cases here : u = t
    · subst here
      simp only [at_,Function.update_self]
      exact buffered data place
    · simp only [at_,Function.update_of_ne here]
      have grows := bufferCount part log (u,data)
      rw [none here] at grows
      exact le_trans grows (inv.buffered u data place)

theorem countOne (t : Int) (data x : LogData) (made : List Change) :
    (made ++ [(t,data)]).count (t,x) = made.count (t,x)+if data = x then 1 else 0 := by
  rw [List.count_append,List.count_singleton]
  congr 1
  simp

theorem countOther {u : Int} (apart : u ≠ t) (data x : LogData) (made : List Change) :
    (made ++ [(t,data)]).count (u,x) = made.count (u,x) := by
  rw [List.count_append,List.count_singleton,if_neg (by simpa using fun same => absurd same.symm apart),Nat.add_zero]

theorem Inv.still (inv : Inv s) (log : mgr.logManager = s.mgr.logManager)
    (others : ∀ u ≠ t, ∀ data, made.count (u,data) = s.made.count (u,data))
    (covered : ∀ data, made.count (t,data)+owed phase data ≤ (changeOf s.mgr.log).count (t,data)+lacking phase data)
    (buffered : ∀ data, waiting (s.phase t) data ≤ waiting phase data) : Inv {s.at_ t phase mgr with made := made} := by
  have all : mgr.log = s.mgr.log := congrArg LogManager.all log
  refine inv.act (by rw [log]; exact List.prefix_rfl) (show mgr.log = s.mgr.log ++ [] by rw [all,List.append_nil]) nofun others ?_ ?_
  · rw [all]
    exact covered
  · intro data place
    rw [log]
    exact le_trans (inv.buffered t data place) (buffered data)

theorem onSmLog {α : Type} {x : M SmManager α} {a : α} (run : onSm x s.mgr = .ok a mgr) :
    mgr.logManager = s.mgr.logManager := by
  obtain ⟨sm,_,rfl⟩ := onSmDone run
  rfl

theorem changeSingle {r : LogRecord} {data : LogData} (own : r.logTid = t) (kind : r.data = data) :
    changeOf [r] = [(t,data)] := by rw [changeOf,List.map_singleton,own,kind]

theorem countSame (t : Int) (data x : LogData) : [((t,data) : Change)].count (t,x) = if data = x then 1 else 0 := by
  have one := countOne t data x []
  simpa using one

theorem Inv.append {data : LogData} (inv : Inv s) (live : s.mgr.Live t) (empty : ∀ x, waiting (s.phase t) x = 0)
    (balance : ∀ x, owed phase x+lacking (s.phase t) x ≤ owed (s.phase t) x+lacking phase x+if data = x then 1 else 0)
    (now : ∀ x, (if data = x then 1 else 0) ≤ waiting phase x) :
    Inv (s.at_ t phase (after (appendLog t ⟨invalidLsn,t,invalidLsn,data⟩ s.mgr))) := by
  obtain ⟨txn,found,_⟩ := live
  obtain ⟨mgr,run,logged⟩ := @appendLogged s.mgr t txn ⟨invalidLsn,t,invalidLsn,data⟩ found rfl
  obtain ⟨r,log,own,kind⟩ := logged.log
  have kind : r.data = data := kind
  rw [run]
  refine inv.act (show s.file <+: mgr.logManager.logFile from logged.file) log (fun x mem => List.mem_singleton.mp mem ▸ own)
    (fun _ _ _ => rfl) ?_ ?_
  · intro x
    have before := inv.covered t x
    have change := balance x
    rw [log,changeAppend,List.count_append,changeSingle own kind,countSame]
    omega
  · intro x place
    have grows := bufferCount logged.file log (t,x)
    have before := inv.buffered t x place
    have after_ := now x
    rw [empty x] at before
    rw [changeSingle own kind,countSame] at grows
    omega

theorem Inv.written (inv : Inv s) {tab : String} {pageNo : Int} (clear : Clear s (.writeBack tab pageNo)) (change : Change) :
    (s.made.filter fun change => isOnPage tab pageNo change.2).count change ≤ (changeOf s.file).count change := by
  obtain ⟨t,data⟩ := change
  by_cases here : isOnPage tab pageNo data = true
  · rw [List.count_filter (by exact here)]
    obtain ⟨logged,flushed⟩ := clear t data here
    have place : data.place ≠ none := by
      intro none
      rw [isOnPage,none] at here
      cases here
    have covered := inv.covered t data
    have buffered := inv.buffered t data place
    have all := allCount s.mgr.logManager (t,data)
    change _ ≤ (changeOf s.mgr.logManager.logFile).count (t,data)
    change _ ≤ (changeOf s.mgr.logManager.all).count (t,data)+_ at covered
    generalize s.phase t = phase at logged flushed covered buffered
    cases phase with
    | idle => simp only [owed,lacking,waiting] at covered buffered; omega
    | unlogged x =>
      have apart : x ≠ data := fun same => logged (same ▸ rfl)
      simp only [owed,lacking,waiting,if_neg apart] at covered buffered
      omega
    | logged x => simp only [owed,lacking,waiting] at covered buffered; omega
    | buffered later x =>
      by_cases same : x = data
      · subst same
        cases later with
        | true => simp only [owed,lacking,waiting,if_true] at covered buffered; omega
        | false =>
          have none := List.count_eq_zero.mpr (flushed rfl)
          simp only [owed,lacking] at covered
          omega
      · simp only [waiting,if_neg same] at buffered
        cases later <;> simp only [owed,lacking,if_neg same] at covered <;> omega
  · have none : (s.made.filter fun change => isOnPage tab pageNo change.2).count (t,data) = 0 :=
      List.count_eq_zero.mpr fun mem => here (List.mem_filter.mp mem).2
    rw [none]
    exact Nat.zero_le _

theorem Inv.step {act : Act} (inv : Inv s) (step : Step s act s') (clear : Clear s act) : Inv s' := by
  cases step with
  | @insertRecord t tab buf rid mgr here run =>
    refine inv.still (onSmLog run) (fun u apart data => countOther apart _ _ _) (fun data => ?_) fun data => ?_
    · have before := inv.covered t data
      rw [here] at before
      rw [countOne]
      simp only [owed,lacking] at before ⊢
      omega
    · rw [here]
      exact Nat.zero_le _
  | logInsert live here =>
    refine inv.append live (fun x => by rw [here]; rfl) (fun x => ?_) fun x => le_refl _
    rw [here]
    simp [owed,lacking]
  | logChange live here found read kind =>
    refine inv.append live (fun x => by rw [here]; rfl) (fun x => ?_) fun x => le_refl _
    rw [here]
    simp [owed,lacking]
  | @flush t later data here =>
    obtain ⟨mgr,run,log,file,same⟩ := flushed s.mgr
    have empty : mgr.logManager.logBuffer = [] := by
      have all : mgr.logManager.logFile ++ mgr.logManager.logBuffer = mgr.log := rfl
      rw [log,file] at all
      exact List.append_right_eq_self.mp all
    rw [run]
    refine inv.act (show s.file <+: mgr.logManager.logFile by rw [file]; exact filePrefix s.mgr)
      (show mgr.log = s.mgr.log ++ [] by rw [log,List.append_nil]) nofun
      (fun _ _ _ => rfl) ?_ fun x place => by rw [empty]; exact Nat.zero_le _
    intro x
    have before := inv.covered t x
    rw [here] at before
    rw [log]
    cases later <;> simpa [owed,lacking] using before
  | @change t data mgr here run =>
    refine inv.still (onSmLog run) (fun u apart data => countOther apart _ _ _) (fun x => ?_) fun x => ?_
    · have before := inv.covered t x
      rw [here] at before
      rw [countOne]
      simp only [owed,lacking] at before ⊢
      omega
    · rw [here]
      exact Nat.zero_le _
  | @leave t data here =>
    refine inv.still rfl (fun _ _ _ => rfl) (fun x => ?_) fun x => ?_
    · have before := inv.covered t x
      rw [here] at before
      simp only [owed,lacking] at before ⊢
      omega
    · rw [here]
      exact Nat.zero_le _
  | @writeBack tab pageNo fh found =>
    refine ⟨inv.covered,inv.buffered,fun tab' pageNo' change => ?_⟩
    simp only [Function.update_apply]
    split
    · rename_i table
      subst table
      rw [Function.update_apply]
      split
      · rename_i page
        subst page
        exact inv.written clear change
      · exact inv.ahead _ pageNo' change
    · exact inv.ahead tab' pageNo' change
  | @other mgr new log file ends =>
    refine ⟨fun t data => ?_,fun t data place => ?_,fun tab pageNo change => inv.ahead.grows file tab pageNo change⟩
    · have before := inv.covered t data
      change _ ≤ (changeOf mgr.log).count (t,data)+lacking (s.phase t) data
      rw [log,changeAppend,List.count_append]
      exact le_trans before (by omega)
    · have grows := bufferCount file log (t,data)
      have none : (changeOf new).count (t,data) = 0 := by
        refine List.count_eq_zero.mpr fun mem => ?_
        obtain ⟨r,memr,same⟩ := List.mem_map.mp mem
        have kind := (Prod.mk.inj same).2
        exact place (kind ▸ ends r memr)
      rw [none] at grows
      exact le_trans grows (inv.buffered t data place)

end Steps
structure Started (s : Server) : Prop where
  idle : ∀ t, s.phase t = .idle
  buffer : s.mgr.logManager.logBuffer = []
  made : s.made = []
  onDisk : ∀ tab pageNo, s.onDisk tab pageNo = []

theorem Started.inv {s : Server} (start : Started s) : Inv s := by
  refine ⟨fun t data => ?_,fun t data _ => ?_,fun tab pageNo change => ?_⟩
  · rw [start.made,start.idle t]
    exact Nat.zero_le _
  · rw [start.buffer]
    exact Nat.zero_le _
  · rw [start.onDisk]
    exact Nat.zero_le _

theorem logsAhead (s₀ s : Server) (start : Started s₀)
    (run : Relation.ReflTransGen (fun s s' => ∃ act, Step s act s' ∧ Clear s act) s₀ s) : s.Ahead := by
  have inv : Inv s := by
    induction run with
    | refl => exact start.inv
    | tail _ move ih =>
      obtain ⟨act,step,clear⟩ := move
      exact ih.step step clear
  exact inv.ahead

abbrev Moves (s s' : Server) : Prop := ∃ act, Step s act s'

section Turns
variable {s : Server} {mgr : TransactionManager} {t : Int} {tab : String} {rid : Rid} {buf : Bytes}

theorem insertMoves (live : s.mgr.Live t) (idle : s.phase t = .idle) (run : insertRow t tab buf s.mgr = .ok () mgr) :
    ∃ rid, Relation.ReflTransGen Moves s {s.at_ t .idle mgr with made := s.made ++ [(t,.insert buf rid tab)]} := by
  rw [insertRow] at run
  obtain ⟨rid,mgr₁,inserted,run⟩ := bindOk.mp run
  rw [logRecord] at run
  obtain ⟨_,mgr₂,appended,flush⟩ := bindOk.mp run
  have live₁ : mgr₁.Live t := by
    obtain ⟨sm,_,rfl⟩ := onSmDone inserted
    exact live
  have one := @Step.insertRecord s t tab buf rid mgr₁ idle inserted
  have two := @Step.logInsert {s.at_ t (.unlogged (.insert buf rid tab)) mgr₁ with
    made := s.made ++ [(t,.insert buf rid tab)]} t (.insert buf rid tab) live₁ (Function.update_self ..)
  have append : appendLog t ⟨invalidLsn,t,invalidLsn,.insert buf rid tab⟩ mgr₁ = .ok () mgr₂ := appended
  simp only [at_,append,after,Function.update_idem] at two
  have three := @Step.flush {s.at_ t (.buffered false (.insert buf rid tab)) mgr₂ with
    made := s.made ++ [(t,.insert buf rid tab)]} t false _ (Function.update_self ..)
  simp only [at_,flush,after,Function.update_idem] at three
  exact ⟨rid,.head ⟨_,one⟩ (.head ⟨_,two⟩ (.single ⟨_,three⟩))⟩

theorem changeMoves {fh : RmFileHandle} {old : Bytes} {data : LogData} {mgr₁ : TransactionManager} (live : s.mgr.Live t)
    (idle : s.phase t = .idle) (found : s.mgr.smManager.fhs tab = some fh) (read : fh.getRecord rid = .ok old)
    (kind : data = .delete old rid tab ∨ ∃ new, data = .update old new rid tab)
    (logged : logRecord t ⟨invalidLsn,t,invalidLsn,data⟩ s.mgr = .ok () mgr₁)
    (changed : onSm (changeRow data) mgr₁ = .ok () mgr) :
    Relation.ReflTransGen Moves s {s.at_ t .idle mgr with made := s.made ++ [(t,data)]} := by
  rw [logRecord] at logged
  obtain ⟨_,mgr₂,appended,flush⟩ := bindOk.mp logged
  have one := Step.logChange live idle found read kind
  rw [appended] at one
  have two := @Step.flush (s.at_ t (.buffered true data) mgr₂) t true data (Function.update_self ..)
  have three := @Step.change (s.at_ t (.logged data) mgr₁) t data mgr (Function.update_self ..) changed
  simp only [at_,flush,after,Function.update_idem,if_true] at two three
  exact .head ⟨_,one⟩ (.head ⟨_,two⟩ (.single ⟨_,three⟩))

theorem deleteMoves (live : s.mgr.Live t) (idle : s.phase t = .idle) (run : deleteRow t tab rid s.mgr = .ok () mgr) :
    ∃ data, Relation.ReflTransGen Moves s {s.at_ t .idle mgr with made := s.made ++ [(t,data)]} := by
  rw [deleteRow] at run
  obtain ⟨fh,_,file,run⟩ := bindOk.mp run
  obtain ⟨found,rfl⟩ := tableFileDone file
  obtain ⟨old,_,read,run⟩ := bindOk.mp run
  obtain ⟨same,rfl⟩ := ofExceptDone read
  obtain ⟨_,mgr₁,logged,changed⟩ := bindOk.mp run
  exact ⟨_,changeMoves live idle found same (.inl rfl) logged changed⟩

theorem updateMoves (live : s.mgr.Live t) (idle : s.phase t = .idle) (run : updateRow t tab rid buf s.mgr = .ok () mgr) :
    ∃ data, Relation.ReflTransGen Moves s {s.at_ t .idle mgr with made := s.made ++ [(t,data)]} := by
  rw [updateRow] at run
  obtain ⟨fh,_,file,run⟩ := bindOk.mp run
  obtain ⟨found,rfl⟩ := tableFileDone file
  obtain ⟨old,_,read,run⟩ := bindOk.mp run
  obtain ⟨same,rfl⟩ := ofExceptDone read
  obtain ⟨_,mgr₁,logged,changed⟩ := bindOk.mp run
  exact ⟨_,changeMoves live idle found same (.inr ⟨buf,rfl⟩) logged changed⟩

end Turns

def start : Server := ⟨⟨0,0,fun _ => none,⟨fun _ => none⟩,⟨0,[],invalidLsn,[]⟩,blank⟩,fun _ => .idle,fun _ _ => none,[],
  fun _ _ => []⟩

def opened : TransactionManager := after (begin none start.mgr)

def data : LogData := .insert someRow ⟨1,0⟩ "t"

def inserted : Server :=
  {({start with mgr := opened} : Server).at_ 0 (.unlogged data)
      (after (onSm (SmManager.onFile "t" (RmFileHandle.insertRecord someRow)) opened)) with made := [(0,data)]}

def evicts (s : Server) : Server := {s with
  disk := Function.update s.disk "t" (Function.update (s.disk "t") 1
    (((s.mgr.smManager.fhs "t").bind fun fh => fh.pages 1)))
  onDisk := Function.update s.onDisk "t" (Function.update (s.onDisk "t") 1
    (s.made.filter fun change => isOnPage "t" 1 change.2))}

def logged : Server :=
  inserted.at_ 0 (.buffered false data) (after (appendLog 0 ⟨invalidLsn,0,invalidLsn,data⟩ inserted.mgr))

def flushedLog : Server := logged.at_ 0 .idle (after (flushLog logged.mgr))

theorem startStarted : Started start := ⟨fun _ => rfl,rfl,rfl,fun _ _ => rfl⟩

theorem evictStep {s : Server} (open_ : (s.mgr.smManager.fhs "t").isSome = true) : Step s (.writeBack "t" 1) (evicts s) := by
  obtain ⟨fh,found⟩ := Option.isSome_iff_exists.mp open_
  have step := @Step.writeBack s "t" 1 fh found
  rw [evicts,found]
  exact step

theorem openedStep : Step start .other {start with mgr := opened} := by
  obtain ⟨mgr,run,logged⟩ := beginLogged start.mgr
  obtain ⟨r,log,_,data⟩ := logged.log
  have same : opened = mgr := by rw [opened,run]; rfl
  refine @Step.other start opened [r] (same ▸ log) (same ▸ logged.file) fun x mem => ?_
  rw [List.mem_singleton.mp mem,data]
  rfl

theorem ridOf {x : EStateM.Result Fault TransactionManager Rid} {rid : Rid}
    (here : (match x with | .ok a _ => some a | .error _ _ => none) = some rid) : x = .ok rid (after x) := by
  cases x with
  | ok a _ =>
    cases here
    rfl
  | error _ _ => cases here

theorem insertedStep : Step {start with mgr := opened} (.insertRecord 0) inserted :=
  .insertRecord rfl (ridOf (by decide +kernel))

theorem evictedTooEarly : Started start ∧ Relation.ReflTransGen Moves start (evicts inserted) ∧ ¬(evicts inserted).Ahead := by
  refine ⟨startStarted,.head ⟨_,openedStep⟩ (.head ⟨_,insertedStep⟩ (.single ⟨_,evictStep (by decide +kernel)⟩)),?_⟩
  intro ahead
  have here := ahead "t" 1 (0,data)
  exact absurd here (by decide +kernel)

theorem evictedInTime : (evicts flushedLog).Ahead ∧ (evicts flushedLog).onDisk "t" 1 = [(0,data)] := by
  refine ⟨logsAhead start _ startStarted ?_,by decide +kernel⟩
  have append : Step inserted (.logInsert 0) logged := .logInsert (liveOf (by decide +kernel)) (by decide +kernel)
  have flush : Step logged (.flush 0) flushedLog := @Step.flush logged 0 false data (by decide +kernel)
  refine .head ⟨_,openedStep,trivial⟩ (.head ⟨_,insertedStep,trivial⟩ (.head ⟨_,append,trivial⟩
    (.head ⟨_,flush,trivial⟩ (.single ⟨_,evictStep (by decide +kernel),fun t x _ => ?_⟩))))
  have phase : flushedLog.phase t = .idle := by
    change Function.update (Function.update (Function.update (fun _ => Phase.idle) 0 _) 0 _) 0 Phase.idle t = _
    simp only [Function.update_apply]
    split <;> rfl
  rw [phase]
  exact ⟨nofun,nofun⟩

end Server
end WriteAhead
end Rmdb
