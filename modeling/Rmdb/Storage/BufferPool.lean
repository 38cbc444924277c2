import Rmdb.Storage.DiskManager
import Rmdb.Replacer.LruReplacer

/-! `BufferPoolManager`. `page_table_` is an `unordered_map`, whose iteration order
is unspecified; the association list fixes one such order. -/
namespace Rmdb.Storage
open Replacer (FrameId LRUReplacer)

structure Page where
  id : PageId
  data : PageData
  isDirty : Bool
  pinCount : Int

structure BufferPoolManager where
  poolSize : Nat
  pages : FrameId → Page
  pageTable : AList (fun _ : PageId => FrameId)
  freeList : List FrameId
  diskManager : DiskManager
  replacer : LRUReplacer

namespace BufferPoolManager

/-- A frame before its first use; its `fd` is never read. -/
def emptyPage : Page := ⟨⟨invalidPageId,invalidPageId⟩,zeroPage,false,0⟩

def init (poolSize : Nat) (disk : DiskManager) : BufferPoolManager :=
  ⟨poolSize,fun _ => emptyPage,∅,List.range poolSize,disk,LRUReplacer.init poolSize⟩

def setPage (f : FrameId) (change : Page → Page) : M BufferPoolManager Unit :=
  modify fun s => {s with pages := Function.update s.pages f (change (s.pages f))}

def diskWrite (pid : PageId) (data : PageData) : M BufferPoolManager Unit := do
  let s ← get
  match s.diskManager.writePage pid data with
  | .ok d => set {s with diskManager := d}
  | .error e => raise e

def diskRead (pid : PageId) : M BufferPoolManager PageData := do
  let s ← get
  match s.diskManager.readPage pid with
  | .ok data => pure data
  | .error e => raise e

def allocatePage (fd : Int) : M BufferPoolManager Int := do
  assert (0 ≤ fd ∧ fd < DiskManager.maxFd) "fd >= 0 && fd < MAX_FD"
  let s ← get
  let (no,d) := s.diskManager.allocatePage fd
  set {s with diskManager := d}
  pure no

def replacerPin (f : FrameId) : M BufferPoolManager Unit :=
  modify fun s => {s with replacer := s.replacer.pin f}

def replacerUnpin (f : FrameId) : M BufferPoolManager Unit :=
  modify fun s => {s with replacer := s.replacer.unpin f}

def findVictimPage : M BufferPoolManager (Option FrameId) := do
  let s ← get
  match s.freeList with
  | f :: rest =>
    set {s with freeList := rest}
    pure (some f)
  | [] =>
    let (found,r) := s.replacer.victim
    set {s with replacer := r}
    pure found

def updatePage (f : FrameId) (newPageId : PageId) : M BufferPoolManager Unit := do
  let s ← get
  let page := s.pages f
  if page.id.pageNo ≠ invalidPageId then
    if page.isDirty then
      diskWrite page.id page.data
      setPage f fun p => {p with isDirty := false}
    modify fun s => {s with pageTable := s.pageTable.erase page.id}
  setPage f fun _ => ⟨newPageId,zeroPage,false,0⟩
  if newPageId.pageNo ≠ invalidPageId then
    modify fun s => {s with pageTable := s.pageTable.insert newPageId f}

def fetchPage (pid : PageId) : M BufferPoolManager (Option FrameId) := do
  let s ← get
  match s.pageTable.lookup pid with
  | some f =>
    setPage f fun p => {p with pinCount := p.pinCount+1}
    replacerPin f
    pure (some f)
  | none =>
    match ← findVictimPage with
    | none => pure none
    | some f =>
      updatePage f pid
      let data ← diskRead pid
      setPage f fun p => {p with data := data}
      setPage f fun p => {p with pinCount := 1}
      replacerPin f
      pure (some f)

def unpinPage (pid : PageId) (isDirty : Bool) : M BufferPoolManager Bool := do
  let s ← get
  match s.pageTable.lookup pid with
  | none => pure false
  | some f =>
    if (s.pages f).pinCount ≤ 0 then pure false else
      setPage f fun p => {p with pinCount := p.pinCount-1}
      setPage f fun p => {p with isDirty := p.isDirty || isDirty}
      if (s.pages f).pinCount-1 = 0 then replacerUnpin f
      pure true

def flushPage (pid : PageId) : M BufferPoolManager Bool := do
  let s ← get
  match s.pageTable.lookup pid with
  | none => pure false
  | some f =>
    diskWrite pid (s.pages f).data
    setPage f fun p => {p with isDirty := false}
    pure true

def newPage (fd : Int) : M BufferPoolManager (Option (PageId × FrameId)) := do
  match ← findVictimPage with
  | none => pure none
  | some f =>
    let no ← allocatePage fd
    let pid : PageId := ⟨fd,no⟩
    updatePage f pid
    setPage f fun p => {p with pinCount := 1}
    replacerPin f
    pure (some (pid,f))

def releaseFrame (f : FrameId) (fd : Int) : M BufferPoolManager Unit := do
  replacerPin f
  updatePage f ⟨fd,invalidPageId⟩
  modify fun s => {s with freeList := s.freeList ++ [f]}

/-- `deallocate_page` has an empty body. -/
def deletePage (pid : PageId) : M BufferPoolManager Bool := do
  let s ← get
  match s.pageTable.lookup pid with
  | none => pure true
  | some f =>
    if (s.pages f).pinCount ≠ 0 then pure false else
      releaseFrame f pid.fd
      pure true

def releaseAll (fd : Int) : List PageId → M BufferPoolManager Unit
  | [] => pure ()
  | pid :: rest => do
    let s ← get
    match s.pageTable.lookup pid with
    | none => releaseAll fd rest
    | some f =>
      releaseFrame f fd
      releaseAll fd rest

def fileIds (s : BufferPoolManager) (fd : Int) : List PageId :=
  s.pageTable.keys.filter (fun pid => pid.fd = fd)

def unpinned (s : BufferPoolManager) (pid : PageId) : Bool :=
  match s.pageTable.lookup pid with
  | none => true
  | some f => (s.pages f).pinCount = 0

def deleteAllPages (fd : Int) : M BufferPoolManager Bool := do
  let s ← get
  let pageIds := s.fileIds fd
  if pageIds.all s.unpinned then
    releaseAll fd pageIds
    pure true
  else pure false

def flushEntries (fd : Int) : List (Σ _ : PageId, FrameId) → M BufferPoolManager Unit
  | [] => pure ()
  | ⟨pid,f⟩ :: rest => do
    if pid.fd ≠ fd then flushEntries fd rest else
      let s ← get
      diskWrite ⟨fd,pid.pageNo⟩ (s.pages f).data
      setPage f fun p => {p with isDirty := false}
      flushEntries fd rest

def flushAllPages (fd : Int) : M BufferPoolManager Unit := do
  let s ← get
  flushEntries fd s.pageTable.entries

def storeData (f : FrameId) (data : PageData) : M BufferPoolManager Unit :=
  setPage f fun p => {p with data := data}

end BufferPoolManager
end Rmdb.Storage
