import Rmdb.Defs

/-! `RmFileHandle` and `RmScan`: the record file of one table. As for the index, a page
handle is the number of its page and the pool is the coherent map `pages`; the bitmap and
the slots of a page are read together. -/
namespace Rmdb.Record

def rmNoPage : Int := -1
def rmFirstRecordPage : Int := 1

structure RmFileHdr where
  recordSize : Nat
  numPages : Int
  numRecordsPerPage : Nat
  firstFreePageNo : Int
  deriving DecidableEq, Repr

structure RmPage where
  nextFreePageNo : Int
  numRecords : Int
  -- `none` where the bitmap has a zero
  slots : List (Option Bytes)
  deriving DecidableEq, Repr

structure RmFileHandle where
  fileName : String
  fileHdr : RmFileHdr
  pages : Int → Option RmPage
  fd2pageno : Int

namespace RmPage

def slot (page : RmPage) (slotNo : Int) : Except Fault (Option Bytes) :=
  if slotNo < 0 then .error .outOfRange else
    match page.slots[slotNo.toNat]? with
    | some x => .ok x
    | none => .error .outOfRange

def store (page : RmPage) (slotNo : Int) (x : Option Bytes) : RmPage := {page with slots := page.slots.set slotNo.toNat x}

def nextRecord (page : RmPage) (curr : Int) : Nat :=
  (curr+1).toNat+(page.slots.drop (curr+1).toNat).findIdx Option.isSome

def firstFree (page : RmPage) : Nat := page.slots.findIdx Option.isNone

end RmPage

namespace RmFileHandle

def fetchPageHandle (s : RmFileHandle) (pageNo : Int) : Except Fault RmPage :=
  if pageNo < rmFirstRecordPage ∨ s.fileHdr.numPages ≤ pageNo then .error (.error (.pageNotExist s.fileName pageNo))
  else match s.pages pageNo with
    | some page => .ok page
    | none => .error (.error (.internal "RmFileHandle::fetch_page_handle Error"))

def getRecord (s : RmFileHandle) (rid : Rid) : Except Fault Bytes := do
  let page ← s.fetchPageHandle rid.pageNo
  match ← page.slot rid.slotNo with
  | some record => .ok record
  | none => .error (.error (.recordNotFound rid.pageNo rid.slotNo))

def isRecord (s : RmFileHandle) (rid : Rid) : Except Fault Bool := do
  let page ← s.fetchPageHandle rid.pageNo
  let x ← page.slot rid.slotNo
  .ok x.isSome

def fetch (pageNo : Int) : M RmFileHandle RmPage := do
  let s ← get
  ofExcept (s.fetchPageHandle pageNo)

def setPage (pageNo : Int) (page : RmPage) : M RmFileHandle Unit :=
  modify fun s => {s with pages := Function.update s.pages pageNo (some page)}

def setFirstFree (pageNo : Int) : M RmFileHandle Unit :=
  modify fun s => {s with fileHdr := {s.fileHdr with firstFreePageNo := pageNo}}

def createNewPageHandle : M RmFileHandle (Int × RmPage) := do
  let s ← get
  let pageNo := s.fd2pageno
  let page : RmPage := ⟨rmNoPage,0,List.replicate s.fileHdr.numRecordsPerPage none⟩
  set {s with
    fileHdr := {s.fileHdr with numPages := pageNo+1, firstFreePageNo := pageNo}
    pages := Function.update s.pages pageNo (some page)
    fd2pageno := pageNo+1}
  pure (pageNo,page)

def createPageHandle : M RmFileHandle (Int × RmPage) := do
  let s ← get
  if s.fileHdr.firstFreePageNo = rmNoPage then createNewPageHandle
  else
    let page ← fetch s.fileHdr.firstFreePageNo
    pure (s.fileHdr.firstFreePageNo,page)

def insertRecord (buf : Bytes) : M RmFileHandle Rid := do
  let (pageNo,page) ← createPageHandle
  let s ← get
  let slotNo := page.firstFree
  if slotNo = s.fileHdr.numRecordsPerPage then raise (.internal "RmFileHandle::insert_record Error") else
    let filled : RmPage := {page.store slotNo (some buf) with numRecords := page.numRecords+1}
    if filled.numRecords = s.fileHdr.numRecordsPerPage then
      setFirstFree filled.nextFreePageNo
      setPage pageNo {filled with nextFreePageNo := rmNoPage}
    else setPage pageNo filled
    pure ⟨pageNo,slotNo⟩

def unlink (target : Int) : Nat → Int → M RmFileHandle Unit
  | 0,_ => throw .fuel
  | fuel+1,prevPageNo => do
    if prevPageNo = rmNoPage then pure () else
      let prev ← fetch prevPageNo
      if prev.nextFreePageNo = target then
        let page ← fetch target
        setPage prevPageNo {prev with nextFreePageNo := page.nextFreePageNo}
        setPage target {page with nextFreePageNo := rmNoPage}
      else unlink target fuel prev.nextFreePageNo

def insertRecordAt (rid : Rid) (buf : Bytes) : M RmFileHandle Unit := do
  let page ← fetch rid.pageNo
  let old ← ofExcept (page.slot rid.slotNo)
  let filled : RmPage := {page.store rid.slotNo (some buf) with
    numRecords := if old = none then page.numRecords+1 else page.numRecords}
  setPage rid.pageNo filled
  let s ← get
  if filled.numRecords = s.fileHdr.numRecordsPerPage then
    if s.fileHdr.firstFreePageNo = rid.pageNo then
      setFirstFree filled.nextFreePageNo
      setPage rid.pageNo {filled with nextFreePageNo := rmNoPage}
    else unlink rid.pageNo (s.fileHdr.numPages.toNat+1) s.fileHdr.firstFreePageNo
  else pure ()

def deleteRecord (rid : Rid) : M RmFileHandle Unit := do
  let page ← fetch rid.pageNo
  match ← ofExcept (page.slot rid.slotNo) with
  | none => raise (.recordNotFound rid.pageNo rid.slotNo)
  | some _ =>
    let s ← get
    let emptied : RmPage := {page.store rid.slotNo none with numRecords := page.numRecords-1}
    if page.numRecords = s.fileHdr.numRecordsPerPage then
      setPage rid.pageNo {emptied with nextFreePageNo := s.fileHdr.firstFreePageNo}
      setFirstFree rid.pageNo
    else setPage rid.pageNo emptied

def updateRecord (rid : Rid) (buf : Bytes) : M RmFileHandle Unit := do
  let page ← fetch rid.pageNo
  match ← ofExcept (page.slot rid.slotNo) with
  | none => raise (.recordNotFound rid.pageNo rid.slotNo)
  | some _ => setPage rid.pageNo (page.store rid.slotNo (some buf))

end RmFileHandle

namespace RmScan

def isEnd (s : RmFileHandle) (rid : Rid) : Bool := s.fileHdr.numPages ≤ rid.pageNo

def seek (s : RmFileHandle) : Nat → Int → Int → Except Fault Rid
  | 0,_,_ => .error .fuel
  | fuel+1,pageNo,slotNo =>
    if pageNo < s.fileHdr.numPages then do
      let page ← s.fetchPageHandle pageNo
      let nextSlot := page.nextRecord slotNo
      if nextSlot < s.fileHdr.numRecordsPerPage then .ok ⟨pageNo,nextSlot⟩
      else seek s fuel (pageNo+1) (-1)
    else .ok ⟨s.fileHdr.numPages,-1⟩

def next (s : RmFileHandle) (rid : Rid) : Except Fault Rid :=
  if isEnd s rid then .ok rid else seek s (s.fileHdr.numPages.toNat+1) rid.pageNo rid.slotNo

def begin (s : RmFileHandle) : Except Fault Rid :=
  if s.fileHdr.numPages ≤ rmFirstRecordPage then .ok ⟨s.fileHdr.numPages,-1⟩
  else next s ⟨rmFirstRecordPage,-1⟩

end RmScan
end Rmdb.Record
