import Rmdb.Storage.FrameInvariant

/-! The buffer pool over a disk that can fail: `write_page` and `read_page` throw when `lseek`,
`write` or `read` does not do all it was asked for. -/
namespace Rmdb.Storage
open Replacer (FrameId LRUReplacer)

/- Which calls fail, with the exception they throw. A write that fails can leave any bytes behind,
and so can a read in the page it was to fill. -/
structure IoFaults where
  write : PageId → Option (RMDBError × DiskManager)
  read : PageId → Option (RMDBError × PageData)

def IoFaults.none : IoFaults := ⟨fun _ => .none,fun _ => .none⟩

namespace BufferPoolManager

def writePageOr (io : IoFaults) (pid : PageId) (data : PageData) : M BufferPoolManager Unit := do
  match io.write pid with
  | some (e,disk) =>
    modify fun s => {s with diskManager := disk}
    raise e
  | none => diskWrite pid data

def readPageOr (io : IoFaults) (pid : PageId) (f : FrameId) : M BufferPoolManager Unit := do
  match io.read pid with
  | some (e,data) =>
    setPage f fun p => {p with data := data}
    raise e
  | none =>
    let data ← diskRead pid
    setPage f fun p => {p with data := data}

def updatePageOr (io : IoFaults) (f : FrameId) (newPageId : PageId) : M BufferPoolManager Unit := do
  let s ← get
  let page := s.pages f
  if page.id.pageNo ≠ invalidPageId then
    if page.isDirty then
      writePageOr io page.id page.data
      setPage f fun p => {p with isDirty := false}
    modify fun s => {s with pageTable := s.pageTable.erase page.id}
  setPage f fun _ => ⟨newPageId,zeroPage,false,0⟩
  if newPageId.pageNo ≠ invalidPageId then
    modify fun s => {s with pageTable := s.pageTable.insert newPageId f}

def fetchPageOr (io : IoFaults) (pid : PageId) : M BufferPoolManager (Option FrameId) := do
  let s ← get
  match s.pageTable.lookup pid with
  | some f =>
    setPage f fun p => {p with pinCount := p.pinCount+1}
    replacerPin f
    pure (some f)
  | none =>
    match ← findVictimPage with
    | none => pure none
    | some f =>
      updatePageOr io f pid
      readPageOr io pid f
      setPage f fun p => {p with pinCount := 1}
      replacerPin f
      pure (some f)

def newPageOr (io : IoFaults) (fd : Int) : M BufferPoolManager (Option (PageId × FrameId)) := do
  match ← findVictimPage with
  | none => pure none
  | some f =>
    let no ← allocatePage fd
    let pid : PageId := ⟨fd,no⟩
    updatePageOr io f pid
    setPage f fun p => {p with pinCount := 1}
    replacerPin f
    pure (some (pid,f))

def releaseFrameOr (io : IoFaults) (f : FrameId) (fd : Int) : M BufferPoolManager Unit := do
  replacerPin f
  updatePageOr io f ⟨fd,invalidPageId⟩
  modify fun s => {s with freeList := s.freeList ++ [f]}

def deletePageOr (io : IoFaults) (pid : PageId) : M BufferPoolManager Bool := do
  let s ← get
  match s.pageTable.lookup pid with
  | none => pure true
  | some f =>
    if (s.pages f).pinCount ≠ 0 then pure false else
      releaseFrameOr io f pid.fd
      pure true

def releaseAllOr (io : IoFaults) (fd : Int) : List PageId → M BufferPoolManager Unit
  | [] => pure ()
  | pid :: rest => do
    let s ← get
    match s.pageTable.lookup pid with
    | none => releaseAllOr io fd rest
    | some f =>
      releaseFrameOr io f fd
      releaseAllOr io fd rest

def deleteAllPagesOr (io : IoFaults) (fd : Int) : M BufferPoolManager Bool := do
  let s ← get
  let pageIds := s.fileIds fd
  if pageIds.all s.unpinned then
    releaseAllOr io fd pageIds
    pure true
  else pure false

section NoFaults
variable {f : FrameId} {pid new : PageId} {fd : Int}

theorem updatePageNone : updatePageOr .none f new = updatePage f new := rfl

theorem fetchPageNone : fetchPageOr .none pid = fetchPage pid := by
  simp only [fetchPageOr,fetchPage,readPageOr,IoFaults.none,bind_assoc]
  rfl

theorem newPageNone : newPageOr .none fd = newPage fd := rfl

theorem deletePageNone : deletePageOr .none pid = deletePage pid := rfl

theorem releaseAllNone (ids : List PageId) : releaseAllOr .none fd ids = releaseAll fd ids := by
  induction ids with
  | nil => rfl
  | cons pid rest ih =>
    simp only [releaseAllOr,releaseAll,ih]
    rfl

theorem deleteAllPagesNone : deleteAllPagesOr .none fd = deleteAllPages fd := by
  simp only [deleteAllPagesOr,deleteAllPages,releaseAllNone]

end NoFaults
def Lost (s : BufferPoolManager) (f : FrameId) : Prop :=
  f < s.poolSize ∧ f ∉ s.freeList ∧ f ∉ s.replacer.frames ∧ (s.pages f).pinCount = 0

section Updates
variable {io : IoFaults} {s t : BufferPoolManager} {f : FrameId} {pid new : PageId} {e : Fault}

theorem writePageOrOk {data : PageData} {u : Unit} (ok : writePageOr io pid data s = .ok u t) :
    diskWrite pid data s = .ok u t := by
  cases failed : io.write pid with
  | none =>
    simp only [writePageOr,failed] at ok
    exact ok
  | some fault =>
    simp only [writePageOr,failed] at ok
    cases ok

theorem writePageOrError {data : PageData} (thrown : writePageOr io pid data s = .error e t) :
    ∃ d, t = {s with diskManager := d} := by
  cases failed : io.write pid with
  | none =>
    simp only [writePageOr,failed] at thrown
    cases wrote : s.diskManager.writePage pid data with
    | ok d =>
      simp only [diskWrite,getBind,wrote] at thrown
      cases thrown
    | error e' =>
      simp only [diskWrite,getBind,wrote,raiseRun,EStateM.Result.error.injEq] at thrown
      exact ⟨s.diskManager,thrown.2.symm⟩
  | some fault =>
    simp only [writePageOr,failed] at thrown
    cases thrown
    exact ⟨_,rfl⟩

theorem updatePageOrOk (ok : updatePageOr io f new s = .ok () t) : updatePage f new s = .ok () t := by
  simp only [updatePageOr,getBind] at ok
  simp only [updatePage,getBind]
  by_cases valid : (s.pages f).id.pageNo ≠ invalidPageId
  · rw [if_pos valid] at ok ⊢
    by_cases dirty : (s.pages f).isDirty = true
    · rw [if_pos dirty] at ok ⊢
      obtain ⟨_,s1,wrote,rest⟩ := bindOk.mp ok
      rw [bindEq (writePageOrOk wrote)]
      exact rest
    · rw [if_neg dirty] at ok ⊢
      exact ok
  · rw [if_neg valid] at ok ⊢
    exact ok

theorem updatePageOrError (thrown : updatePageOr io f new s = .error e t) : ∃ d, t = {s with diskManager := d} := by
  simp only [updatePageOr,getBind] at thrown
  by_cases valid : (s.pages f).id.pageNo ≠ invalidPageId
  · by_cases dirty : (s.pages f).isDirty = true
    · rw [if_pos valid,if_pos dirty] at thrown
      cases wrote : writePageOr io (s.pages f).id (s.pages f).data s with
      | error e' s1 =>
        rw [bindError wrote] at thrown
        cases thrown
        exact writePageOrError wrote
      | ok u s1 =>
        rw [bindEq wrote] at thrown
        split at thrown <;> cases thrown
    · rw [if_pos valid,if_neg dirty] at thrown
      split at thrown <;> cases thrown
  · rw [if_neg valid] at thrown
    split at thrown <;> cases thrown

theorem lostDetached (det : Detached s f) (zero : (s.pages f).pinCount = 0) (size : t.poolSize = s.poolSize)
    (free : t.freeList = s.freeList) (lru : t.replacer = s.replacer) (pins : (t.pages f).pinCount = (s.pages f).pinCount) :
    Lost t f :=
  ⟨by rw [size]; exact det.range,by rw [free]; exact det.unfree,by rw [lru]; exact det.unlisted,pins.trans zero⟩

theorem updateLoses (det : Detached s f) (zero : (s.pages f).pinCount = 0)
    (thrown : updatePageOr io f new s = .error e t) : Lost t f := by
  obtain ⟨d,rfl⟩ := updatePageOrError thrown
  exact lostDetached det zero rfl rfl rfl rfl

theorem readPageOrError (thrown : readPageOr io pid f s = .error e t) :
    ∃ data, t = {s with pages := Function.update s.pages f {s.pages f with data := data}} := by
  cases failed : io.read pid with
  | none =>
    simp only [readPageOr,failed,diskRead] at thrown
    have whole : {s with pages := Function.update s.pages f {s.pages f with data := (s.pages f).data}} = s := by
      rw [show ({s.pages f with data := (s.pages f).data} : Page) = s.pages f from rfl,Function.update_eq_self]
    cases read : s.diskManager.readPage pid with
    | ok data => simp [bind,EStateM.bind,read,setPage] at thrown
    | error e' =>
      simp only [bind,EStateM.bind,getRun,read,raiseRun,EStateM.Result.error.injEq] at thrown
      exact ⟨_,(thrown.2.symm.trans whole.symm)⟩
  | some fault =>
    simp only [readPageOr,failed] at thrown
    cases thrown
    exact ⟨_,rfl⟩

theorem findVictimReturns (thrown : findVictimPage s = .error e t) : False := by
  cases free : s.freeList with
  | nil => rw [takeVictim free] at thrown; cases thrown
  | cons g rest => rw [takeFree free] at thrown; cases thrown

theorem fetchLoses (inv : FrameInv s) (thrown : fetchPageOr io pid s = .error e t) : ∃ f, Lost t f := by
  cases cached : s.pageTable.lookup pid with
  | some f =>
    simp only [fetchPageOr,getBind,cached] at thrown
    cases thrown
  | none =>
    simp only [fetchPageOr,getBind,cached] at thrown
    cases taken : findVictimPage s with
    | error e' s1 => exact (findVictimReturns taken).elim
    | ok found s1 =>
      rw [bindEq taken] at thrown
      cases found with
      | none => cases thrown
      | some f =>
        obtain ⟨det,zero,_,table,_⟩ := takeSome inv taken
        dsimp only at thrown
        cases updated : updatePageOr io f pid s1 with
        | error e' s2 =>
          rw [bindError updated] at thrown
          cases thrown
          exact ⟨f,updateLoses det zero updated⟩
        | ok u s2 =>
          rw [bindEq updated] at thrown
          obtain ⟨det2,page,_⟩ := updateDetached det (fun _ => by rw [table]; exact cached) (updatePageOrOk updated)
          cases read : readPageOr io pid f s2 with
          | ok v s3 =>
            rw [bindEq read] at thrown
            cases thrown
          | error e' s3 =>
            rw [bindError read] at thrown
            cases thrown
            obtain ⟨data,rfl⟩ := readPageOrError read
            exact ⟨f,lostDetached det2 (by rw [page]) rfl rfl rfl (by simp)⟩

theorem newPageLoses (inv : FrameInv s) {fd : Int} {e : RMDBError} (thrown : newPageOr io fd s = .error (.error e) t) :
    ∃ f, Lost t f := by
  simp only [newPageOr] at thrown
  cases taken : findVictimPage s with
  | error e' s1 => exact (findVictimReturns taken).elim
  | ok found s1 =>
    rw [bindEq taken] at thrown
    cases found with
    | none => cases thrown
    | some f =>
      obtain ⟨det,zero,_⟩ := takeSome inv taken
      dsimp only at thrown
      by_cases isOpen : 0 ≤ fd ∧ fd < DiskManager.maxFd
      · have allocated : allocatePage fd s1 = .ok (s1.diskManager.fd2pageno fd)
            {s1 with diskManager := (s1.diskManager.allocatePage fd).2} := by
          rw [allocatePage,bindEq (assertRun isOpen s1)]
          rfl
        rw [bindEq allocated] at thrown
        have det1 : Detached {s1 with diskManager := (s1.diskManager.allocatePage fd).2} f :=
          ⟨det.toCore.sameShape rfl rfl rfl rfl fun _ => rfl,det.range,det.unfree,det.unlisted,det.classes⟩
        cases updated : updatePageOr io f ⟨fd,s1.diskManager.fd2pageno fd⟩
            {s1 with diskManager := (s1.diskManager.allocatePage fd).2} with
        | error e' s2 =>
          rw [bindError updated] at thrown
          cases thrown
          exact ⟨f,updateLoses det1 zero updated⟩
        | ok u s2 =>
          rw [bindEq updated] at thrown
          cases thrown
      · have refused : allocatePage fd s1 = .error (.assertion "fd >= 0 && fd < MAX_FD") s1 := by
          rw [allocatePage]
          simp only [assert,if_neg isOpen,throwBind]
        rw [bindError refused] at thrown
        cases thrown

theorem releaseLoses (inv : FrameInv s) {fd : Int} (cached : s.pageTable.lookup pid = some f)
    (zero : (s.pages f).pinCount = 0) (thrown : releaseFrameOr io f fd s = .error e t) : Lost t f := by
  simp only [releaseFrameOr,replacerPin,modifyBind] at thrown
  cases updated : updatePageOr io f ⟨fd,invalidPageId⟩ {s with replacer := s.replacer.pin f} with
  | ok u s1 =>
    rw [bindEq updated] at thrown
    cases thrown
  | error e' s1 =>
    rw [bindError updated] at thrown
    cases thrown
    exact updateLoses (pinDetached inv cached) zero updated

theorem releaseFrameOrOk {fd : Int} {u : Unit} (ok : releaseFrameOr io f fd s = .ok u t) : releaseFrame f fd s = .ok u t := by
  simp only [releaseFrameOr,replacerPin,modifyBind] at ok
  obtain ⟨_,s1,updated,last⟩ := bindOk.mp ok
  simp only [releaseFrame,replacerPin,modifyBind]
  rw [bindEq (updatePageOrOk updated)]
  exact last

theorem deleteLoses (inv : FrameInv s) (thrown : deletePageOr io pid s = .error e t) : ∃ f, Lost t f := by
  simp only [deletePageOr,getBind] at thrown
  cases cached : s.pageTable.lookup pid with
  | none =>
    rw [cached] at thrown
    cases thrown
  | some f =>
    rw [cached] at thrown
    dsimp only at thrown
    split at thrown
    · cases thrown
    · rename_i unpinned
      cases released : releaseFrameOr io f pid.fd s with
      | ok u s1 =>
        rw [bindEq released] at thrown
        cases thrown
      | error e' s1 =>
        rw [bindError released] at thrown
        cases thrown
        exact ⟨f,releaseLoses inv cached (not_not.mp unpinned) released⟩

theorem releaseUnpinned (inv : FrameInv s) {fd : Int} {u : Unit} (cached : s.pageTable.lookup pid = some f)
    (ok : releaseFrame f fd s = .ok u t) {other : PageId} (free : s.unpinned other = true) : t.unpinned other = true := by
  obtain ⟨s1,updated,rfl⟩ := releaseOk ok
  obtain ⟨d,_,rfl⟩ := updatePageOk updated
  have det := pinDetached inv cached
  simp only [unpinned]
  cases found : (retable s.pageTable (s.pages f).id ⟨fd,invalidPageId⟩ f).lookup other with
  | none => rfl
  | some g =>
    obtain ⟨small,named,valid⟩ := (retableLookup det.toCore det.range (fun valid => absurd rfl valid) other g).mp found
    by_cases same : g = f
    · rw [if_pos same] at named
      exact absurd rfl (named ▸ valid)
    · rw [if_neg same] at named
      have before := (inv.table other g).mpr ⟨small,named,valid⟩
      simp only [unpinned,before] at free
      simpa only [Function.update_of_ne same] using free

theorem releaseAllLoses {fd : Int} {ids : List PageId} (inv : FrameInv s) (free : ∀ pid ∈ ids, s.unpinned pid = true)
    (thrown : releaseAllOr io fd ids s = .error e t) : ∃ f, Lost t f := by
  induction ids generalizing s with
  | nil => cases thrown
  | cons pid rest ih =>
    simp only [releaseAllOr,getBind] at thrown
    cases cached : s.pageTable.lookup pid with
    | none =>
      rw [cached] at thrown
      exact ih inv (fun x mem => free x (List.mem_cons_of_mem pid mem)) thrown
    | some f =>
      rw [cached] at thrown
      have zero : (s.pages f).pinCount = 0 := by
        have first := free pid List.mem_cons_self
        simpa only [unpinned,cached,decide_eq_true_eq] using first
      dsimp only at thrown
      cases released : releaseFrameOr io f fd s with
      | error e' s1 =>
        rw [bindError released] at thrown
        cases thrown
        exact ⟨f,releaseLoses inv cached zero released⟩
      | ok u s1 =>
        rw [bindEq released] at thrown
        have done := releaseFrameOrOk released
        exact ih (releaseInv inv cached done)
          (fun x mem => releaseUnpinned inv cached done (free x (List.mem_cons_of_mem pid mem))) thrown

theorem deleteAllLoses (inv : FrameInv s) {fd : Int} (thrown : deleteAllPagesOr io fd s = .error e t) : ∃ f, Lost t f := by
  simp only [deleteAllPagesOr,getBind] at thrown
  split at thrown
  · rename_i free
    cases released : releaseAllOr io fd (s.fileIds fd) s with
    | ok u s1 =>
      rw [bindEq released] at thrown
      cases thrown
    | error e' s1 =>
      rw [bindError released] at thrown
      cases thrown
      exact releaseAllLoses inv (List.all_eq_true.mp free) released
  · cases thrown

end Updates

inductive EvictOp where
  | fetchPage (pid : PageId)
  | newPage (fd : Int)
  | deletePage (pid : PageId)
  | deleteAllPages (fd : Int)
  deriving DecidableEq, Repr

def EvictOp.exec (io : IoFaults) : EvictOp → M BufferPoolManager Unit
  | .fetchPage pid => do let _ ← fetchPageOr io pid
  | .newPage fd => do let _ ← newPageOr io fd
  | .deletePage pid => do let _ ← deletePageOr io pid
  | .deleteAllPages fd => do let _ ← deleteAllPagesOr io fd

structure Intact (op : EvictOp) (s t : BufferPoolManager) : Prop where
  frames : ∀ f < t.poolSize, f ∈ t.freeList ∨ f ∈ t.replacer.frames ∨ 0 < (t.pages f).pinCount
  bytes : ∀ pid f, s.pageTable.lookup pid = some f → (s.pages f).isDirty = true →
    (∃ g, t.pageTable.lookup pid = some g ∧ (t.pages g).isDirty = true ∧ (t.pages g).data = (s.pages f).data) ∨
      t.diskManager.readPage pid = .ok (s.pages f).data
  unread : ∀ pid, op = .fetchPage pid → t.pageTable.lookup pid = none

theorem failedIoLosesFrame {io : IoFaults} {op : EvictOp} {s t : BufferPoolManager} {e : RMDBError} (inv : FrameInv s)
    (thrown : op.exec io s = .error (.error e) t) : ¬Intact op s t := by
  have lost : ∃ f, Lost t f := by
    cases op with
    | fetchPage pid =>
      cases run : fetchPageOr io pid s with
      | ok r s1 => rw [EvictOp.exec,bindEq run] at thrown; cases thrown
      | error e' s1 => rw [EvictOp.exec,bindError run] at thrown; cases thrown; exact fetchLoses inv run
    | newPage fd =>
      cases run : newPageOr io fd s with
      | ok r s1 => rw [EvictOp.exec,bindEq run] at thrown; cases thrown
      | error e' s1 => rw [EvictOp.exec,bindError run] at thrown; cases thrown; exact newPageLoses inv run
    | deletePage pid =>
      cases run : deletePageOr io pid s with
      | ok r s1 => rw [EvictOp.exec,bindEq run] at thrown; cases thrown
      | error e' s1 => rw [EvictOp.exec,bindError run] at thrown; cases thrown; exact deleteLoses inv run
    | deleteAllPages fd =>
      cases run : deleteAllPagesOr io fd s with
      | ok r s1 => rw [EvictOp.exec,bindEq run] at thrown; cases thrown
      | error e' s1 => rw [EvictOp.exec,bindError run] at thrown; cases thrown; exact deleteAllLoses inv run
  intro intact
  obtain ⟨f,range,free,listed,zero⟩ := lost
  rcases intact.frames f range with mem | mem | pinned
  · exact free mem
  · exact listed mem
  · omega

def unreadPool : BufferPoolManager := after (fetchPage ⟨3,0⟩ (init 1 blankDisk))

theorem failedReadServesZeros :
    EvictOp.exec .none (.fetchPage ⟨3,0⟩) (init 1 blankDisk) =
      .error (.error (.internal "DiskManager::read_page Error")) unreadPool ∧
    ¬Intact (.fetchPage ⟨3,0⟩) (init 1 blankDisk) unreadPool ∧
    ∃ u, fetchPage ⟨3,0⟩ unreadPool = .ok (some 0) u ∧ (u.pages 0).data = zeroPage := by
  refine ⟨rfl,fun intact => ?_,_,rfl,rfl⟩
  have gone := intact.unread ⟨3,0⟩ rfl
  cases gone

theorem failedReadLosesFrame : ¬Intact (.fetchPage ⟨3,0⟩) (init 1 blankDisk) unreadPool :=
  failedIoLosesFrame (initInv 1 blankDisk)
    (rfl : EvictOp.exec .none (.fetchPage ⟨3,0⟩) (init 1 blankDisk) =
      .error (.error (.internal "DiskManager::read_page Error")) unreadPool)

end BufferPoolManager
end Rmdb.Storage
