import Rmdb.Recovery.RecoveryManager
import Rmdb.Record.RmRun
import Rmdb.Lib.Overwrite

/-! What recovery does to the records: each log record it replays is one write, so both passes
together are a list of writes that only the log determines. -/
namespace Rmdb.Recovery
open Record Lib RmFileHandle

section File
variable {s : RmFileHandle} {rid : Rid} {lost : Set Int}

theorem recordExistsSome (usable : s.WellUpTo lost) : recordExists s rid = (s.records rid).isSome := by
  obtain ⟨chain,well⟩ := usable
  rw [recordExists]
  split
  · rename_i outside
    cases value : s.records rid with
    | none => rfl
    | some b =>
      obtain ⟨has,nonneg,page,here,slot⟩ := recordsSome.mp value
      obtain ⟨_,same,counted⟩ := well.page _ has
      obtain rfl := Option.some.inj (here.symm.trans same)
      obtain ⟨inside,_⟩ := List.getElem?_eq_some_iff.mp slot
      have length := counted.length
      simp only [HasPage,rmFirstRecordPage] at has outside
      omega
  · rename_i inside
    have has : s.HasPage rid.pageNo := by
      simp only [HasPage]
      omega
    obtain ⟨page,here,counted⟩ := well.page _ has
    have within : rid.slotNo.toNat < page.slots.length := by
      rw [counted.length]
      omega
    have nonneg : 0 ≤ rid.slotNo := by omega
    have slot := slotAt nonneg (List.getElem?_eq_getElem within)
    rw [recordsRead,if_pos ⟨has,nonneg⟩,here,isRecord,fetchHeld has here]
    simp only [bind,Except.bind,slot,Option.map_some,Option.bind_some,List.getElem?_eq_getElem within,Option.join_some]

-- a page that has to be added is the next one, and no page has a free slot
def Tight (s : RmFileHandle) (rid : Rid) : Prop :=
  s.fileHdr.numPages ≤ rid.pageNo → rid.pageNo = s.fileHdr.numPages ∧ ∀ p, ¬s.HasRoom p

theorem ensurePageRun {fuel : Nat} (usable : s.WellUpTo lost) (enough : (rid.pageNo-s.fd2pageno+1).toNat < fuel) :
    ∃ t lost', ensurePageExists rid fuel s = .ok () t ∧ t.WellUpTo lost' ∧ t.records = s.records ∧ s.Extends t ∧
      t.fileHdr.numPages = max s.fileHdr.numPages (rid.pageNo+1) ∧ (Tight s rid → lost' = lost) := by
  induction fuel generalizing s lost with
  | zero => omega
  | succ fuel ih =>
    rw [ensurePageExists,getBind]
    split
    · rename_i missing
      obtain ⟨chain,well⟩ := usable
      have counter := well.counter
      obtain ⟨page,t,made,well',_,records,extended,pages⟩ := createNewPageHandleWell well
      have counter' := well'.counter
      obtain ⟨u,lost',run,usable',records',extended',pages',same⟩ := ih ⟨_,well'⟩ (by omega)
      refine ⟨u,lost',?_,usable',records'.trans records,extended.trans extended',by omega,fun tight => ?_⟩
      · rw [bindEq made]
        exact run
      · obtain ⟨next,full⟩ := tight missing
        have empty : {p | p ∈ chain} = (∅ : Set Int) :=
          Set.eq_empty_iff_forall_notMem.mpr fun p mem => full p (well.free p mem)
        rw [same fun later => by omega,empty,Set.union_empty]
    · rename_i present
      exact ⟨s,lost,rfl,usable,rfl,Extends.refl s,by omega,fun _ => rfl⟩

structure InFile (s : RmFileHandle) (rid : Rid) : Prop where
  page : rmFirstRecordPage ≤ rid.pageNo
  low : 0 ≤ rid.slotNo
  high : rid.slotNo < s.fileHdr.numRecordsPerPage

theorem InFile.extends {t : RmFileHandle} (place : InFile s rid) (extended : s.Extends t) : InFile t rid :=
  ⟨place.page,place.low,by rw [extended.perPage]; exact place.high⟩

theorem putRecordAtRun {record : Bytes} (usable : s.WellUpTo lost) (place : InFile s rid) : ∃ t lost',
    putRecordAt rid record s = .ok () t ∧ t.WellUpTo lost' ∧ t.records = Function.update s.records rid (some record) ∧
    s.Extends t ∧ t.fileHdr.numPages = max s.fileHdr.numPages (rid.pageNo+1) ∧ (Tight s rid → lost' = lost) := by
  obtain ⟨t,lost',ensured,usable',records,extended,pages,same⟩ :=
    @ensurePageRun s rid lost ((rid.pageNo-s.fd2pageno).toNat+2) usable (by omega)
  have place' := place.extends extended
  have has : t.HasPage rid.pageNo := ⟨place'.page,by omega⟩
  rw [putRecordAt,getBind,bindEq ensured,getBind,recordExistsSome usable']
  cases present : t.records rid with
  | none =>
    obtain ⟨u,run,usable'',records',extended'⟩ := @insertRecordAtWell _ _ _ record usable' has place'.low place'.high
    have kept := keepsInsertAt rid record t
    rw [run] at kept
    exact ⟨u,lost',run,usable'',by rw [records',records],extended.trans extended',kept.trans pages,same⟩
  | some b =>
    obtain ⟨u,run,usable'',records',extended'⟩ := @updateRecordWell _ _ _ _ record usable' present
    have kept := keepsUpdate rid record t
    rw [run] at kept
    exact ⟨u,lost',run,usable'',by rw [records',records],extended.trans extended',kept.trans pages,same⟩

theorem removeRecordAtRun (usable : s.WellUpTo lost) : ∃ t, removeRecordAt rid s = .ok () t ∧ t.WellUpTo lost ∧
    t.records = Function.update s.records rid none ∧ s.Extends t ∧ t.fileHdr.numPages = s.fileHdr.numPages := by
  rw [removeRecordAt,getBind,recordExistsSome usable]
  cases present : s.records rid with
  | none =>
    refine ⟨s,rfl,usable,?_,Extends.refl s,rfl⟩
    rw [← present,Function.update_eq_self]
  | some b =>
    obtain ⟨t,run,usable',records,extended⟩ := deleteRecordWell usable present
    have kept := keepsDelete rid s
    rw [run] at kept
    exact ⟨t,run,usable',records,extended,kept⟩

end File

def LogData.place : LogData → Option (String × Rid)
  | .update _ _ rid tab | .insert _ rid tab | .delete _ rid tab => some (tab,rid)
  | .begin | .commit | .abort => none

def LogData.afterImage : LogData → Option Bytes
  | .update _ new _ _ => some new
  | .insert value _ _ => some value
  | _ => none

def LogData.beforeImage : LogData → Option Bytes
  | .update old _ _ _ => some old
  | .delete value _ _ => some value
  | _ => none

abbrev Write := (String × Rid) × Option Bytes

def replay (write : Write) : M SmManager Unit :=
  SmManager.onFile write.1.1 (match write.2 with
    | some record => putRecordAt write.1.2 record
    | none => removeRecordAt write.1.2)

section Files
variable {sm : SmManager} {tab : String} {rid : Rid} {fh fh' : RmFileHandle} {lost : String → Set Int} {write : Write}

def contents (sm : SmManager) (place : String × Rid) : Option Bytes := (sm.fhs place.1).bind fun fh => fh.records place.2

theorem onFileOk {α : Type} {x : M RmFileHandle α} {a : α} (found : sm.fhs tab = some fh) (run : x fh = .ok a fh') :
    SmManager.onFile tab x sm = .ok a {sm with fhs := Function.update sm.fhs tab (some fh')} := by
  simp only [SmManager.onFile,found]
  exact zoomOk run

theorem contentsPut {v : Option Bytes} (found : sm.fhs tab = some fh)
    (records : fh'.records = Function.update fh.records rid v) :
    contents {sm with fhs := Function.update sm.fhs tab (some fh')} = Function.update (contents sm) (tab,rid) v := by
  funext place
  obtain ⟨name,at_⟩ := place
  by_cases here : name = tab
  · subst here
    simp only [contents,Function.update_self,Option.bind_some,records]
    by_cases same : at_ = rid
    · subst same
      simp
    · have apart : (name,at_) ≠ (name,rid) := fun equal => same (Prod.ext_iff.mp equal).2
      rw [Function.update_of_ne same,Function.update_of_ne apart]
      simp [contents,found]
  · have apart : (name,at_) ≠ (tab,rid) := fun equal => here (Prod.ext_iff.mp equal).1
    rw [Function.update_of_ne apart]
    simp only [contents,Function.update_of_ne here]

def WellFiles (sm : SmManager) (lost : String → Set Int) : Prop :=
  ∀ tab fh, sm.fhs tab = some fh → fh.WellUpTo (lost tab)

def Placed (sm : SmManager) (write : Write) : Prop := ∃ fh, sm.fhs write.1.1 = some fh ∧ InFile fh write.1.2

def TightWrite (sm : SmManager) (write : Write) : Prop :=
  write.2 ≠ none → ∀ fh, sm.fhs write.1.1 = some fh → Tight fh write.1.2

def numPages (sm : SmManager) (tab : String) : Option Int := (sm.fhs tab).map fun fh => fh.fileHdr.numPages

def grow (pages : String → Option Int) (write : Write) : String → Option Int :=
  if write.2 = none then pages
  else Function.update pages write.1.1 ((pages write.1.1).map fun n => max n (write.1.2.pageNo+1))

structure Grown (sm sm' : SmManager) : Prop where
  db : sm'.db = sm.db
  ihs : sm'.ihs = sm.ihs
  files : ∀ tab, Option.Rel Extends (sm.fhs tab) (sm'.fhs tab)

theorem Grown.refl (sm : SmManager) : Grown sm sm := by
  refine ⟨rfl,rfl,fun tab => ?_⟩
  cases sm.fhs tab with
  | none => exact .none
  | some fh => exact .some (Extends.refl fh)

theorem Grown.trans {sm₁ sm₂ : SmManager} (one : Grown sm sm₁) (two : Grown sm₁ sm₂) : Grown sm sm₂ := by
  refine ⟨two.db.trans one.db,two.ihs.trans one.ihs,fun tab => ?_⟩
  have first := one.files tab
  have second := two.files tab
  generalize sm.fhs tab = a at first
  generalize sm₁.fhs tab = b at first second
  generalize sm₂.fhs tab = c at second
  cases first with
  | none => exact second
  | some here =>
    cases second with
    | some there => exact .some (here.trans there)

theorem Grown.back {sm' : SmManager} (grown : Grown sm sm') (found : sm'.fhs tab = some fh') :
    ∃ fh, sm.fhs tab = some fh ∧ Extends fh fh' := by
  have here := grown.files tab
  rw [found] at here
  cases old : sm.fhs tab with
  | none =>
    rw [old] at here
    cases here
  | some fh =>
    rw [old] at here
    cases here with
    | some extended => exact ⟨fh,rfl,extended⟩

theorem Grown.forth {sm' : SmManager} (grown : Grown sm sm') (found : sm.fhs tab = some fh) :
    ∃ fh', sm'.fhs tab = some fh' ∧ Extends fh fh' := by
  have here := grown.files tab
  rw [found] at here
  cases new : sm'.fhs tab with
  | none =>
    rw [new] at here
    cases here
  | some fh' =>
    rw [new] at here
    cases here with
    | some extended => exact ⟨fh',rfl,extended⟩

theorem Placed.grown {sm' : SmManager} (placed : Placed sm write) (grown : Grown sm sm') : Placed sm' write := by
  obtain ⟨fh,found,inside⟩ := placed
  obtain ⟨fh',found',extended⟩ := grown.forth found
  exact ⟨fh',found',inside.extends extended⟩

theorem putGrown (found : sm.fhs tab = some fh) (extended : Extends fh fh') :
    Grown sm {sm with fhs := Function.update sm.fhs tab (some fh')} := by
  refine ⟨rfl,rfl,fun name => ?_⟩
  by_cases here : name = tab
  · subst here
    simp only [Function.update_self,found]
    exact .some extended
  · simp only [Function.update_of_ne here]
    exact (Grown.refl sm).files name

theorem putWell {wide : Set Int} (files : WellFiles sm lost) (usable : fh'.WellUpTo wide) :
    WellFiles {sm with fhs := Function.update sm.fhs tab (some fh')} (Function.update lost tab wide) := by
  intro name fh found
  by_cases here : name = tab
  · subst here
    simp only [Function.update_self,Option.some.injEq] at found ⊢
    exact found ▸ usable
  · simp only [Function.update_of_ne here] at found ⊢
    exact files name fh found

theorem numPagesPut (found : sm.fhs tab = some fh) {n : Int} (pages : fh'.fileHdr.numPages = n) :
    numPages {sm with fhs := Function.update sm.fhs tab (some fh')} = Function.update (numPages sm) tab (some n) := by
  funext name
  by_cases here : name = tab
  · subst here
    simp [numPages,pages]
  · simp [numPages,here]

theorem replayRun (files : WellFiles sm lost) (placed : Placed sm write) : ∃ sm' lost', replay write sm = .ok () sm' ∧
    WellFiles sm' lost' ∧ contents sm' = Function.update (contents sm) write.1 write.2 ∧ Grown sm sm' ∧
    numPages sm' = grow (numPages sm) write ∧ (TightWrite sm write → lost' = lost) := by
  obtain ⟨⟨tab,rid⟩,v⟩ := write
  obtain ⟨fh,found,inside⟩ := placed
  have known : numPages sm tab = some fh.fileHdr.numPages := by
    simp only [numPages,found,Option.map_some]
  cases v with
  | none =>
    obtain ⟨fh',run,usable,records,extended,pages⟩ := @removeRecordAtRun fh rid (lost tab) (files tab fh found)
    refine ⟨_,_,onFileOk found run,putWell files usable,contentsPut found records,putGrown found extended,?_,fun _ => ?_⟩
    · rw [numPagesPut found pages,← known,Function.update_eq_self,grow,if_pos rfl]
    · rw [Function.update_eq_self]
  | some record =>
    obtain ⟨fh',wide,run,usable,records,extended,pages,same⟩ :=
      @putRecordAtRun fh rid (lost tab) record (files tab fh found) inside
    refine ⟨_,_,onFileOk found run,putWell files usable,contentsPut found records,putGrown found extended,?_,
      fun tight => ?_⟩
    · rw [numPagesPut found pages,grow,if_neg (Option.some_ne_none record),known]
      rfl
    · rw [same (tight (Option.some_ne_none record) fh found),Function.update_eq_self]

/- Every write of the list adds no page while another one has a free slot, told from the contents
and the page counts before the list. -/
def Orderly (perPage : String → Option Nat) (rows : (String × Rid) → Option Bytes) (pages : String → Option Int) :
    List Write → Prop
  | [] => True
  | write :: later =>
    (write.2 ≠ none → ∀ n ∈ pages write.1.1, n ≤ write.1.2.pageNo → write.1.2.pageNo = n ∧
      ∀ p slot : Int, rmFirstRecordPage ≤ p → p < n → 0 ≤ slot → (∃ m ∈ perPage write.1.1, slot < m) →
        rows (write.1.1,⟨p,slot⟩) ≠ none) ∧
    Orderly perPage (Function.update rows write.1 write.2) (grow pages write) later

def perPage (sm : SmManager) (tab : String) : Option Nat := (sm.fhs tab).map fun fh => fh.fileHdr.numRecordsPerPage

theorem hasRoomRow {lost : Set Int} {p : Int} (well : fh.WellUpTo lost) (room : fh.HasRoom p) : ∃ slot : Int, 0 ≤ slot ∧
    slot < fh.fileHdr.numRecordsPerPage ∧ fh.records ⟨p,slot⟩ = none := by
  obtain ⟨chain,well⟩ := well
  obtain ⟨has,page,here,mem⟩ := room
  obtain ⟨_,same,counted⟩ := well.page p has
  obtain rfl := Option.some.inj (here.symm.trans same)
  obtain ⟨i,inside,free⟩ := List.getElem_of_mem mem
  have length := counted.length
  refine ⟨i,by omega,by omega,?_⟩
  rw [recordsRead,if_pos ⟨has,by simp⟩,here]
  simp [inside,free]

theorem orderlyTight {later : List Write} (files : WellFiles sm lost)
    (orderly : Orderly (perPage sm) (contents sm) (numPages sm) (write :: later)) : TightWrite sm write := by
  intro put fh found beyond
  have known : numPages sm write.1.1 = some fh.fileHdr.numPages := by simp only [numPages,found,Option.map_some]
  obtain ⟨next,full⟩ := orderly.1 put _ known beyond
  refine ⟨next,fun p room => ?_⟩
  obtain ⟨slot,low,high,free⟩ := hasRoomRow (files _ fh found) room
  refine full p slot room.1.1 room.1.2 low ⟨_,by simp [perPage,found],high⟩ ?_
  simp only [contents,found,Option.bind_some,free]

theorem Grown.perPage {sm' : SmManager} (grown : Grown sm sm') : perPage sm' = perPage sm := by
  funext tab
  cases found : sm.fhs tab with
  | none =>
    have here := grown.files tab
    rw [found] at here
    generalize other : sm'.fhs tab = x at here
    cases here
    simp [Recovery.perPage,found,other]
  | some fh =>
    obtain ⟨fh',found',extended⟩ := grown.forth found
    simp [Recovery.perPage,found,found',extended.perPage]

theorem replayAll {writes : List Write} (files : WellFiles sm lost) (placed : ∀ write ∈ writes, Placed sm write) :
    ∃ sm' lost', writes.forM replay sm = .ok () sm' ∧ WellFiles sm' lost' ∧
      contents sm' = overwrite (contents sm) writes ∧ Grown sm sm' ∧
      (Orderly (perPage sm) (contents sm) (numPages sm) writes → lost' = lost) := by
  induction writes generalizing sm lost with
  | nil => exact ⟨sm,lost,rfl,files,rfl,Grown.refl sm,fun _ => rfl⟩
  | cons write writes ih =>
    obtain ⟨sm₁,lost₁,one,files₁,contents₁,grown₁,pages₁,same₁⟩ := replayRun files (placed write List.mem_cons_self)
    obtain ⟨sm',lost',rest,files',contents',grown',same'⟩ := ih files₁ fun later mem =>
      (placed later (List.mem_cons_of_mem _ mem)).grown grown₁
    refine ⟨sm',lost',?_,files',?_,grown₁.trans grown',fun orderly => ?_⟩
    · rw [List.forM,bindEq one]
      exact rest
    · rw [contents',contents₁]
      rfl
    · rw [grown₁.perPage,contents₁,pages₁] at same'
      rw [same' orderly.2,same₁ (orderlyTight files orderly)]

end Files

namespace RecoveryManager
variable {logs : List LogRecord} {sm : SmManager} {lost : String → Set Int} {k : String × Rid}

def Committed (logs : List LogRecord) (tid : Int) : Prop := tid ∈ committedTxns logs

def Unfinished (logs : List LogRecord) (tid : Int) : Prop := tid ∈ allTxns logs ∧ tid ∉ finishedTxns logs

instance (logs : List LogRecord) (tid : Int) : Decidable (Committed logs tid) := inferInstanceAs (Decidable (_ ∈ _))

instance (logs : List LogRecord) (tid : Int) : Decidable (Unfinished logs tid) := inferInstanceAs (Decidable (_ ∧ _))

def writeOf (P : Int → Prop) [DecidablePred P] (image : LogData → Option Bytes) (log : LogRecord) : Option Write :=
  if P log.logTid then log.data.place.map fun place => (place,image log.data) else none

def writes (logs : List LogRecord) : List Write :=
  logs.filterMap (writeOf (Committed logs) LogData.afterImage) ++
    logs.reverse.filterMap (writeOf (Unfinished logs) LogData.beforeImage)

theorem forMWrites {f : LogRecord → M SmManager Unit} {g : LogRecord → Option Write}
    (each : ∀ log, f log = match g log with
      | some write => replay write
      | none => pure ()) (logs : List LogRecord) : logs.forM f = (logs.filterMap g).forM replay := by
  induction logs with
  | nil => rfl
  | cons log logs ih =>
    rw [List.forM,each log,ih]
    cases write : g log with
    | none =>
      rw [List.filterMap_cons_none write]
      exact pure_bind _ _
    | some w =>
      rw [List.filterMap_cons_some write]
      rfl

theorem recoverWrites (logs : List LogRecord) : recoverRecords logs = (writes logs).forM replay := by
  have first : redo logs = (logs.filterMap (writeOf (Committed logs) LogData.afterImage)).forM replay := by
    refine forMWrites (fun log => ?_) logs
    rw [redoRecord,writeOf]
    by_cases done : Committed logs log.logTid
    · have keep : ¬log.logTid ∉ committedTxns logs := not_not.mpr done
      rw [if_neg keep,if_pos done]
      cases log.data <;> rfl
    · have skip : log.logTid ∉ committedTxns logs := done
      rw [if_pos skip,if_neg done]
  have second : undoRecords logs = (logs.reverse.filterMap (writeOf (Unfinished logs) LogData.beforeImage)).forM replay := by
    refine forMWrites (fun log => ?_) logs.reverse
    rw [undoRecord,writeOf]
    by_cases loser : Unfinished logs log.logTid
    · have keep : ¬(log.logTid ∉ allTxns logs ∨ log.logTid ∈ finishedTxns logs) :=
        not_or.mpr ⟨not_not.mpr loser.1,loser.2⟩
      rw [if_neg keep,if_pos loser]
      cases log.data <;> rfl
    · have skip : log.logTid ∉ allTxns logs ∨ log.logTid ∈ finishedTxns logs := by
        rwa [Unfinished,not_and_or,not_not] at loser
      rw [if_pos skip,if_neg loser]
  rw [recoverRecords,first,second,writes]
  exact (List.forM_append ..).symm

def WellFormedLogs (sm : SmManager) (logs : List LogRecord) : Prop :=
  ∀ log ∈ logs, ∀ place ∈ log.data.place, Placed sm (place,none)

theorem writesMem {write : Write} (mem : write ∈ writes logs) : ∃ log ∈ logs,
    (Committed logs log.logTid ∨ Unfinished logs log.logTid) ∧ log.data.place = some write.1 := by
  have named {P : Int → Prop} [DecidablePred P] {image : LogData → Option Bytes} {l : List LogRecord}
      (mem : write ∈ l.filterMap (writeOf P image)) : ∃ log ∈ l, P log.logTid ∧ log.data.place = some write.1 := by
    obtain ⟨log,memLog,here⟩ := List.mem_filterMap.mp mem
    rw [writeOf] at here
    split at here
    · rename_i chosen
      obtain ⟨place,found,rfl⟩ := Option.map_eq_some_iff.mp here
      exact ⟨log,memLog,chosen,found⟩
    · cases here
  rcases List.mem_append.mp mem with redone | undone
  · obtain ⟨log,memLog,chosen,place⟩ := named redone
    exact ⟨log,memLog,.inl chosen,place⟩
  · obtain ⟨log,memLog,chosen,place⟩ := named undone
    exact ⟨log,List.mem_reverse.mp memLog,.inr chosen,place⟩

theorem writesPlaced (formed : WellFormedLogs sm logs) : ∀ write ∈ writes logs, Placed sm write := by
  intro write mem
  obtain ⟨log,memLog,_,place⟩ := writesMem mem
  exact formed log memLog write.1 place

theorem recoverRun (files : WellFiles sm lost) (formed : WellFormedLogs sm logs) : ∃ sm' lost',
    recoverRecords logs sm = .ok () sm' ∧ WellFiles sm' lost' ∧ contents sm' = overwrite (contents sm) (writes logs) ∧
    Grown sm sm' ∧ (Orderly (perPage sm) (contents sm) (numPages sm) (writes logs) → lost' = lost) := by
  rw [recoverWrites]
  exact replayAll files (writesPlaced formed)

def recordsAt (P : Int → Prop) [DecidablePred P] (logs : List LogRecord) (k : String × Rid) : List LogRecord :=
  logs.filter fun log => P log.logTid ∧ log.data.place = some k

theorem writesAt {P : Int → Prop} [DecidablePred P] {image : LogData → Option Bytes} (l : List LogRecord) :
    (l.filterMap (writeOf P image)).filter (fun write => write.1 = k) =
      (recordsAt P l k).map fun log => (k,image log.data) := by
  induction l with
  | nil => rfl
  | cons log l ih =>
    have skip (none : writeOf P image log = none ∨ ∃ write, writeOf P image log = some write ∧ write.1 ≠ k)
        (other : ¬(P log.logTid ∧ log.data.place = some k)) :
        ((log :: l).filterMap (writeOf P image)).filter (fun write => write.1 = k) =
          (recordsAt P (log :: l) k).map fun log => (k,image log.data) := by
      rw [recordsAt,List.filter_cons_of_neg (by simpa using other)]
      rcases none with none | ⟨write,found,apart⟩
      · rw [List.filterMap_cons_none none]
        exact ih
      · rw [List.filterMap_cons_some found,List.filter_cons_of_neg (by simpa using apart)]
        exact ih
    by_cases chosen : P log.logTid
    · cases place : log.data.place with
      | none => exact skip (.inl (by simp [writeOf,place])) (by simp [place])
      | some at_ =>
        have found : writeOf P image log = some (at_,image log.data) := by simp [writeOf,chosen,place]
        by_cases here : at_ = k
        · subst here
          rw [List.filterMap_cons_some found,List.filter_cons_of_pos (by simp),ih,recordsAt,recordsAt,
            List.filter_cons_of_pos (by simp [chosen,place]),List.map_cons]
        · exact skip (.inr ⟨_,found,here⟩) (by simp [place,here])
    · exact skip (.inl (by simp [writeOf,chosen])) (by simp [chosen])

/- What recovery leaves at a place: the record before the earliest unfinished operation there, or
else the one after the last committed operation. -/
def recovered (logs : List LogRecord) (initial : (String × Rid) → Option Bytes) (k : String × Rid) : Option Bytes :=
  match (recordsAt (Unfinished logs) logs k).head? with
  | some log => log.data.beforeImage
  | none => match (recordsAt (Committed logs) logs k).getLast? with
    | some log => log.data.afterImage
    | none => initial k

theorem overwriteRecovered (initial : (String × Rid) → Option Bytes) :
    overwrite initial (writes logs) = recovered logs initial := by
  funext k
  have undone : lastWrite k (logs.reverse.filterMap (writeOf (Unfinished logs) LogData.beforeImage)) =
      (recordsAt (Unfinished logs) logs k).head?.map fun log => log.data.beforeImage := by
    rw [lastWrite,writesAt,recordsAt,List.filter_reverse,List.map_reverse,List.getLast?_reverse,List.head?_map,Option.map_map]
    rfl
  have redone : lastWrite k (logs.filterMap (writeOf (Committed logs) LogData.afterImage)) =
      (recordsAt (Committed logs) logs k).getLast?.map fun log => log.data.afterImage := by
    rw [lastWrite,writesAt,List.getLast?_map,Option.map_map]
    rfl
  rw [overwriteAt,writes,lastWriteAppend,undone,redone,recovered]
  cases (recordsAt (Unfinished logs) logs k).head? with
  | some log => rfl
  | none => cases (recordsAt (Committed logs) logs k).getLast? <;> rfl

def Named (logs : List LogRecord) (k : String × Rid) : Prop :=
  ∃ log ∈ logs, (Committed logs log.logTid ∨ Unfinished logs log.logTid) ∧ log.data.place = some k

theorem recoveredNamed (named : Named logs k) (initial other : (String × Rid) → Option Bytes) :
    recovered logs initial k = recovered logs other k := by
  obtain ⟨log,mem,chosen,place⟩ := named
  rw [recovered,recovered]
  cases first : (recordsAt (Unfinished logs) logs k).head? with
  | some _ => rfl
  | none =>
    cases last : (recordsAt (Committed logs) logs k).getLast? with
    | some _ => rfl
    | none =>
      have noLoser := List.head?_eq_none_iff.mp first
      have noWinner := List.getLast?_eq_none_iff.mp last
      rw [recordsAt,List.filter_eq_nil_iff] at noLoser noWinner
      rcases chosen with done | loser
      · exact absurd (decide_eq_true ⟨done,place⟩) (noWinner log mem)
      · exact absurd (decide_eq_true ⟨loser,place⟩) (noLoser log mem)

theorem recoveredOutside (outside : ¬Named logs k) (initial : (String × Rid) → Option Bytes) :
    recovered logs initial k = initial k := by
  rw [← overwriteRecovered]
  refine overwriteOutside fun write mem here => outside ?_
  obtain ⟨log,memLog,chosen,place⟩ := writesMem mem
  exact ⟨log,memLog,chosen,here ▸ place⟩

def UsableFiles (sm : SmManager) : Prop := ∀ tab fh, sm.fhs tab = some fh → fh.Usable

theorem UsableFiles.well (files : UsableFiles sm) : ∃ lost, WellFiles sm lost := by
  classical
  refine ⟨fun tab => if open_ : ∃ fh, sm.fhs tab = some fh then (files tab _ open_.choose_spec).choose else ∅,?_⟩
  intro tab fh found
  have open_ : ∃ fh, sm.fhs tab = some fh := ⟨fh,found⟩
  simp only [open_,dif_pos]
  have same : open_.choose = fh := Option.some.inj (open_.choose_spec.symm.trans found)
  have well := (files tab _ open_.choose_spec).choose_spec
  exact same ▸ well

theorem WellFormedLogs.grown {sm' : SmManager} (formed : WellFormedLogs sm logs) (grown : Grown sm sm') :
    WellFormedLogs sm' logs := fun log mem place named => (formed log mem place named).grown grown

theorem recoverTwice (sm : SmManager) (logs : List LogRecord) (files : UsableFiles sm) (formed : WellFormedLogs sm logs) :
    ∃ once twice, recoverRecords logs sm = .ok () once ∧ recoverRecords logs once = .ok () twice ∧
      contents twice = contents once ∧
      (∀ k, Named logs k → ∀ initial, contents once k = recovered logs initial k) ∧
      ∀ k, ¬Named logs k → contents once k = contents sm k := by
  obtain ⟨lost,well⟩ := files.well
  obtain ⟨once,lost',run,well',written,grown,_⟩ := recoverRun well formed
  obtain ⟨twice,_,again,_,rewritten,_⟩ := recoverRun well' (formed.grown grown)
  refine ⟨once,twice,run,again,?_,?_,?_⟩
  · rw [rewritten,written,overwriteTwice]
  · intro k named initial
    rw [written,overwriteRecovered]
    exact recoveredNamed named _ _
  · intro k outside
    rw [written,overwriteRecovered]
    exact recoveredOutside outside _

def crashed : SmManager where
  db := ⟨"db",[]⟩
  fhs tab := if tab = "t" then some (RmManager.openFile "t" ⟨⟨4,1,RmManager.numRecordsPerPage 4,rmNoPage⟩,fun _ => none⟩)
    else none
  ihs _ := none

def crashLog : List LogRecord := [.beginLogRecord 0,.insertLogRecord 0 [1,0,0,0] ⟨1,0⟩ "t",.commitLogRecord 0,
  .beginLogRecord 1,.updateLogRecord 1 [1,0,0,0] [2,0,0,0] ⟨1,0⟩ "t",.insertLogRecord 1 [3,0,0,0] ⟨1,1⟩ "t"]

theorem crashedTwice : ∃ once twice, recoverRecords crashLog crashed = .ok () once ∧
    recoverRecords crashLog once = .ok () twice ∧ contents twice = contents once ∧
    (∀ k, Named crashLog k → ∀ initial, contents once k = recovered crashLog initial k) ∧
    ∀ k, ¬Named crashLog k → contents once k = contents crashed k := by
  refine recoverTwice crashed crashLog ?_ ?_
  · intro tab fh found
    simp only [crashed] at found
    split at found
    · cases found
      exact ⟨∅,@RmManager.createdWell 4 _ rfl "t"⟩
    · cases found
  · have slot (n : Int) (low : 0 ≤ n) (high : n < 2) : Placed crashed (("t",⟨1,n⟩),none) := by
      have found : crashed.fhs "t" =
          some (RmManager.openFile "t" ⟨⟨4,1,RmManager.numRecordsPerPage 4,rmNoPage⟩,fun _ => none⟩) := by
        simp [crashed]
      have many : (2 : Int) ≤ RmManager.numRecordsPerPage 4 := by decide
      exact ⟨_,found,le_refl _,low,lt_of_lt_of_le high many⟩
    have first := slot 0 (by decide) (by decide)
    have second := slot 1 (by decide) (by decide)
    intro log mem place named
    simp only [crashLog,List.mem_cons,List.not_mem_nil,or_false] at mem
    rcases mem with rfl | rfl | rfl | rfl | rfl | rfl <;> cases named
    · exact first
    · exact first
    · exact second

end RecoveryManager
end Rmdb.Recovery
