import Rmdb.Recovery.Replay

/-! The chain of pages with a free slot after a crash. The header on disk is the one of the last
`close_file`, the pages are of any moments since. -/
namespace Rmdb.Recovery
open Record Lib RmFileHandle RecoveryManager

def ChainFits (s : RmFileHandle) : Prop :=
  ∃ chain, Linked s.nextFree rmNoPage s.fileHdr.firstFreePageNo chain ∧ chain.Nodup ∧ ∀ p, p ∈ chain ↔ s.HasRoom p

/- A file as `open_file` finds it: the handle that was closed last, the handles the operations
since then went through, and each page as one of them had it. -/
structure CrashImage (s : RmFileHandle) (closed : RmFileHandle) (states : List RmFileHandle) : Prop where
  well : closed.Well
  run : List.IsChain FileStep (closed :: states)
  header : s.fileHdr = closed.fileHdr
  counter : s.fd2pageno = s.fileHdr.numPages
  pages : ∀ p, ∃ t ∈ closed :: states, s.pages p = t.pages p

section Image
variable {s closed : RmFileHandle} {states : List RmFileHandle}

theorem runWell (well : closed.Well) (run : List.IsChain FileStep (closed :: states)) :
    ∀ t ∈ closed :: states, t.Well ∧ closed.Extends t := by
  induction states generalizing closed with
  | nil =>
    intro t mem
    obtain rfl := List.mem_singleton.mp mem
    exact ⟨well,Extends.refl t⟩
  | cons next states ih =>
    obtain ⟨step,rest⟩ := List.isChain_cons_cons.mp run
    obtain ⟨well',extended⟩ := stepWell well step
    intro t mem
    rcases List.mem_cons.mp mem with rfl | later
    · exact ⟨well,Extends.refl t⟩
    · obtain ⟨wellt,more⟩ := ih well' rest t later
      exact ⟨wellt,extended.trans more⟩

theorem CrashImage.counted (image : CrashImage s closed states) (p : Int) (has : s.HasPage p) :
    ∃ page, s.pages p = some page ∧ page.Counted s.fileHdr.numRecordsPerPage := by
  obtain ⟨t,mem,same⟩ := image.pages p
  obtain ⟨⟨chain,well⟩,extended⟩ := runWell image.well image.run t mem
  have there : t.HasPage p := by
    refine ⟨has.1,lt_of_lt_of_le ?_ extended.numPages⟩
    rw [← image.header]
    exact has.2
  obtain ⟨page,here,counted⟩ := well.page p there
  refine ⟨page,same.trans here,?_⟩
  rw [image.header,← extended.perPage]
  exact counted

theorem CrashImage.whole (image : CrashImage s closed states) (fits : ChainFits s) : s.Well := by
  obtain ⟨chain,linked,nodup,exact_⟩ := fits
  obtain ⟨_,well⟩ := image.well
  refine ⟨chain,image.counter,?_,?_,image.counted,linked,nodup,fun p mem => (exact_ p).mp mem,fun p room _ => (exact_ p).mpr room⟩
  · rw [image.header]
    exact well.header
  · rw [image.header]
    exact well.room

theorem wellFits (well : s.Well) : ChainFits s := by
  obtain ⟨chain,well⟩ := well
  exact ⟨chain,well.linked,well.nodup,fun p => ⟨well.free p,fun room => well.listed p room (Set.notMem_empty p)⟩⟩

end Image

/- What is asked of the files once recovery is done: the chain is right, and stays so whatever
operations follow, none of which finds it broken. -/
def ChainsHold (sm : SmManager) : Prop :=
  ∀ tab fh, sm.fhs tab = some fh → ∀ t, Relation.ReflTransGen FileStep fh t → ChainFits t ∧
    ∀ buf, ∃ rid u, insertRecord buf t = .ok rid u

def RecoversChains (logs : List LogRecord) (sm : SmManager) : Prop :=
  ∃ sm', recoverRecords logs sm = .ok () sm' ∧ ChainsHold sm'

def Crashed (sm : SmManager) : Prop :=
  ∀ tab fh, sm.fhs tab = some fh → ∃ closed states, CrashImage fh closed states

theorem chainsAfterRecovery (logs : List LogRecord) (sm : SmManager) (crashed : Crashed sm)
    (formed : WellFormedLogs sm logs) (fits : ∀ tab fh, sm.fhs tab = some fh → ChainFits fh)
    (orderly : Orderly (perPage sm) (contents sm) (numPages sm) (writes logs)) : RecoversChains logs sm := by
  have files : WellFiles sm fun _ => ∅ := by
    intro tab fh found
    obtain ⟨closed,states,image⟩ := crashed tab fh found
    exact image.whole (fits tab fh found)
  obtain ⟨sm',lost,run,files',_,_,same⟩ := recoverRun files formed
  obtain rfl := same orderly
  refine ⟨sm',run,fun tab fh found t steps => ?_⟩
  obtain ⟨well,_⟩ := stepsWell (files' tab fh found) steps
  refine ⟨wellFits well,fun buf => ?_⟩
  obtain ⟨rid,u,inserted,_⟩ := @insertRecordWell _ _ buf well
  exact ⟨rid,u,inserted⟩

def row : Bytes := List.replicate 512 7

def inserted (s : RmFileHandle) : RmFileHandle := after ((RmOp.insert row).exec s)

def emptyTable : RmFileHandle := RmManager.openFile "t" ⟨⟨512,1,RmManager.numRecordsPerPage 512,rmNoPage⟩,fun _ => none⟩

def sixRows : RmFileHandle := inserted (inserted (inserted (inserted (inserted (inserted emptyTable)))))

def oneTable (fh : RmFileHandle) : SmManager := ⟨⟨"db",[]⟩,fun tab => if tab = "t" then some fh else none,fun _ => none⟩

def lastRowLog : List LogRecord := [.beginLogRecord 0,.insertLogRecord 0 row ⟨1,6⟩ "t",.commitLogRecord 0]

theorem insertStep (s : RmFileHandle) : FileStep s (inserted s) := ⟨.insert row,trivial,rfl⟩

theorem sixRowsWell : sixRows.Well := by
  have empty : emptyTable.Well := @RmManager.createdWell 512 _ rfl "t"
  have steps : Relation.ReflTransGen FileStep emptyTable sixRows :=
    (((((Relation.ReflTransGen.single (insertStep _)).tail (insertStep _)).tail (insertStep _)).tail
      (insertStep _)).tail (insertStep _)).tail (insertStep _)
  exact (stepsWell empty steps).1

theorem oneTableFound {fh fh' : RmFileHandle} {tab : String} (found : (oneTable fh).fhs tab = some fh') :
    tab = "t" ∧ fh = fh' := by
  simp only [oneTable] at found
  split at found
  · exact ⟨‹_›,Option.some.inj found⟩
  · cases found

theorem lastRowFormed {fh : RmFileHandle} (header : fh.fileHdr = ⟨512,2,7,1⟩) : WellFormedLogs (oneTable fh) lastRowLog := by
  intro log mem place named
  simp only [lastRowLog,List.mem_cons,List.not_mem_nil,or_false] at mem
  rcases mem with rfl | rfl | rfl <;> cases named
  exact ⟨fh,by simp [oneTable],le_refl _,by decide,by rw [header]; decide⟩

theorem sixRowsRecover : RecoversChains lastRowLog (oneTable sixRows) := by
  have header : sixRows.fileHdr = ⟨512,2,7,1⟩ := by decide +kernel
  refine chainsAfterRecovery lastRowLog (oneTable sixRows) ?_ (lastRowFormed header) ?_ ?_
  · intro tab fh found
    obtain ⟨_,rfl⟩ := oneTableFound found
    exact ⟨sixRows,[],sixRowsWell,List.isChain_singleton _,rfl,by decide +kernel,fun p => ⟨sixRows,List.mem_cons_self,rfl⟩⟩
  · intro tab fh found
    obtain ⟨_,rfl⟩ := oneTableFound found
    exact wellFits sixRowsWell
  · have only : writes lastRowLog = [(("t",⟨1,6⟩),some row)] := by decide +kernel
    rw [only]
    refine ⟨fun _ n known beyond => ?_,trivial⟩
    have two : n = 2 := by
      simpa [numPages,oneTable,header] using known.symm
    simp only at beyond
    omega

def staleHeader : RmFileHandle := {inserted sixRows with fileHdr := sixRows.fileHdr, fd2pageno := sixRows.fd2pageno}

theorem staleHeaderBreaks : Crashed (oneTable staleHeader) ∧ WellFormedLogs (oneTable staleHeader) lastRowLog ∧
    ¬RecoversChains lastRowLog (oneTable staleHeader) := by
  refine ⟨?_,lastRowFormed (by decide +kernel),?_⟩
  · intro tab fh found
    obtain ⟨_,rfl⟩ := oneTableFound found
    refine ⟨sixRows,[inserted sixRows],sixRowsWell,?_,rfl,by decide +kernel,fun p => ⟨inserted sixRows,by simp,rfl⟩⟩
    exact List.isChain_cons_cons.mpr ⟨insertStep sixRows,List.isChain_singleton _⟩
  · rintro ⟨sm',run,holds⟩
    have same : after (recoverRecords lastRowLog (oneTable staleHeader)) = sm' := by rw [run]; rfl
    have full : ((after (recoverRecords lastRowLog (oneTable staleHeader))).fhs "t").map (fun fh =>
        match insertRecord row fh with
        | .ok _ _ => false
        | .error e _ => decide (e = .error (.internal "RmFileHandle::insert_record Error"))) = some true := by
      decide +kernel
    rw [same] at full
    obtain ⟨fh,found,refused⟩ := Option.map_eq_some_iff.mp full
    obtain ⟨_,inserts⟩ := holds "t" fh found fh .refl
    obtain ⟨rid,u,ok⟩ := inserts row
    rw [ok] at refused
    cases refused

end Rmdb.Recovery
