import Rmdb.Record.RmPageHandle
import Rmdb.Record.RmRun
import Rmdb.Record.RmScan

/-! The record file as the source keeps it: `RmFileHandle`, `RmManager` and `RmScan` over the
bytes of the pages. The buffer pool is again the coherent map `pages`. -/
namespace Rmdb.Record.Paged
open Storage (PageData zeroPage)
open RmPageHandle
open RmManager (rmMaxRecordSize rmFileHdrSize bitmapWidth numRecordsPerPage)

structure RmFileHandle where
  fileName : String
  fileHdr : RmFileHdr
  pages : Int → Option PageData
  fd2pageno : Int

namespace RmFileHandle

def fetchPageHandle (s : RmFileHandle) (pageNo : Int) : Except Fault PageData :=
  if pageNo < rmFirstRecordPage ∨ s.fileHdr.numPages ≤ pageNo then .error (.error (.pageNotExist s.fileName pageNo))
  else match s.pages pageNo with
    | some page => .ok page
    | none => .error (.error (.internal "RmFileHandle::fetch_page_handle Error"))

def getRecord (s : RmFileHandle) (rid : Rid) : Except Fault Bytes := do
  let page ← s.fetchPageHandle rid.pageNo
  if ← Bitmap.isSet page rid.slotNo then readSlot s.fileHdr page rid.slotNo
  else .error (.error (.recordNotFound rid.pageNo rid.slotNo))

def isRecord (s : RmFileHandle) (rid : Rid) : Except Fault Bool := do
  let page ← s.fetchPageHandle rid.pageNo
  Bitmap.isSet page rid.slotNo

def fetch (pageNo : Int) : M RmFileHandle PageData := do
  let s ← get
  ofExcept (s.fetchPageHandle pageNo)

def setPage (pageNo : Int) (page : PageData) : M RmFileHandle Unit :=
  modify fun s => {s with pages := Function.update s.pages pageNo (some page)}

def setFirstFree (pageNo : Int) : M RmFileHandle Unit :=
  modify fun s => {s with fileHdr := {s.fileHdr with firstFreePageNo := pageNo}}

def createNewPageHandle : M RmFileHandle (Int × PageData) := do
  let s ← get
  let pageNo := s.fd2pageno
  set {s with fd2pageno := pageNo+1, fileHdr := {s.fileHdr with numPages := pageNo+1}}
  let linked ← ofExcept (setNextFreePageNo zeroPage rmNoPage)
  let counted ← ofExcept (setNumRecords linked 0)
  let page ← ofExcept (Bitmap.init counted s.fileHdr.bitmapSize)
  setPage pageNo page
  setFirstFree pageNo
  pure (pageNo,page)

def createPageHandle : M RmFileHandle (Int × PageData) := do
  let s ← get
  if s.fileHdr.firstFreePageNo = rmNoPage then createNewPageHandle
  else
    let page ← fetch s.fileHdr.firstFreePageNo
    pure (s.fileHdr.firstFreePageNo,page)

def insertRecord (buf : Bytes) : M RmFileHandle Rid := do
  let (pageNo,page) ← createPageHandle
  let s ← get
  let slotNo ← ofExcept (Bitmap.firstBit false page s.fileHdr.numRecordsPerPage)
  if slotNo = s.fileHdr.numRecordsPerPage then raise (.internal "RmFileHandle::insert_record Error") else
    let written ← ofExcept (writeSlot s.fileHdr page slotNo buf)
    let marked ← ofExcept (Bitmap.set written slotNo)
    let filled ← ofExcept (setNumRecords marked (numRecords marked+1))
    if numRecords filled = s.fileHdr.numRecordsPerPage then
      setFirstFree (nextFreePageNo filled)
      let unlinked ← ofExcept (setNextFreePageNo filled rmNoPage)
      setPage pageNo unlinked
    else setPage pageNo filled
    pure ⟨pageNo,slotNo⟩

def unlink (target : Int) : Nat → Int → M RmFileHandle Unit
  | 0,_ => throw .fuel
  | fuel+1,prevPageNo => do
    if prevPageNo = rmNoPage then pure () else
      let prev ← fetch prevPageNo
      if nextFreePageNo prev = target then
        let page ← fetch target
        let relinked ← ofExcept (setNextFreePageNo prev (nextFreePageNo page))
        setPage prevPageNo relinked
        let unlinked ← ofExcept (setNextFreePageNo page rmNoPage)
        setPage target unlinked
      else unlink target fuel (nextFreePageNo prev)

-- a slot that was empty gets its bit and is counted
def useSlot (page : PageData) (slotNo : Int) : Except Fault PageData := do
  if ← Bitmap.isSet page slotNo then .ok page else
    let marked ← Bitmap.set page slotNo
    setNumRecords marked (numRecords marked+1)

def insertRecordAt (rid : Rid) (buf : Bytes) : M RmFileHandle Unit := do
  let page ← fetch rid.pageNo
  let counted ← ofExcept (useSlot page rid.slotNo)
  let s ← get
  let filled ← ofExcept (writeSlot s.fileHdr counted rid.slotNo buf)
  setPage rid.pageNo filled
  if numRecords filled = s.fileHdr.numRecordsPerPage then
    if s.fileHdr.firstFreePageNo = rid.pageNo then
      setFirstFree (nextFreePageNo filled)
      let unlinked ← ofExcept (setNextFreePageNo filled rmNoPage)
      setPage rid.pageNo unlinked
    else unlink rid.pageNo (s.fileHdr.numPages.toNat+1) s.fileHdr.firstFreePageNo
  else pure ()

def deleteRecord (rid : Rid) : M RmFileHandle Unit := do
  let page ← fetch rid.pageNo
  let isSet ← ofExcept (Bitmap.isSet page rid.slotNo)
  if isSet then
    let s ← get
    let unmarked ← ofExcept (Bitmap.reset page rid.slotNo)
    let cleared ← ofExcept (writeSlot s.fileHdr unmarked rid.slotNo (List.replicate s.fileHdr.recordSize 0))
    let emptied ← ofExcept (setNumRecords cleared (numRecords cleared-1))
    -- `was_full`, and `release_page_handle`
    if numRecords page = s.fileHdr.numRecordsPerPage then
      let released ← ofExcept (setNextFreePageNo emptied s.fileHdr.firstFreePageNo)
      setPage rid.pageNo released
      setFirstFree rid.pageNo
    else setPage rid.pageNo emptied
  else raise (.recordNotFound rid.pageNo rid.slotNo)

def updateRecord (rid : Rid) (buf : Bytes) : M RmFileHandle Unit := do
  let page ← fetch rid.pageNo
  let isSet ← ofExcept (Bitmap.isSet page rid.slotNo)
  if isSet then
    let s ← get
    let written ← ofExcept (writeSlot s.fileHdr page rid.slotNo buf)
    setPage rid.pageNo written
  else raise (.recordNotFound rid.pageNo rid.slotNo)

end RmFileHandle

structure RmFile where
  fileHdr : Bytes
  pages : Int → Option PageData

namespace RmFileHdr

def bytes (hdr : RmFileHdr) : Bytes :=
  leBytes 4 hdr.recordSize ++ leBytes 4 hdr.numPages ++ leBytes 4 hdr.numRecordsPerPage ++
    leBytes 4 hdr.firstFreePageNo ++ leBytes 4 hdr.bitmapSize

def field (stored : Bytes) (i : Nat) : Int := leInt ((stored.drop (4*i)).take 4)

def ofBytes (stored : Bytes) : RmFileHdr :=
  ⟨(field stored 0).toNat,field stored 1,(field stored 2).toNat,field stored 3,(field stored 4).toNat⟩

end RmFileHdr

namespace RmManager

def createFile (recordSize : Int) : Except Fault RmFile :=
  if recordSize < 1 ∨ recordSize > rmMaxRecordSize then .error (.error (.invalidRecordSize recordSize))
  else
    let perPage := numRecordsPerPage recordSize.toNat
    .ok ⟨RmFileHdr.bytes ⟨recordSize.toNat,1,perPage,rmNoPage,(perPage+bitmapWidth-1)/bitmapWidth⟩,fun _ => none⟩

def openFile (filename : String) (file : RmFile) : RmFileHandle :=
  let hdr := RmFileHdr.ofBytes file.fileHdr
  ⟨filename,hdr,file.pages,hdr.numPages⟩

def closeFile (s : RmFileHandle) : RmFile := ⟨s.fileHdr.bytes,s.pages⟩

end RmManager

namespace RmScan

def isEnd (s : RmFileHandle) (rid : Rid) : Bool := s.fileHdr.numPages ≤ rid.pageNo

def seek (s : RmFileHandle) : Nat → Int → Int → Except Fault Rid
  | 0,_,_ => .error .fuel
  | fuel+1,pageNo,slotNo =>
    if pageNo < s.fileHdr.numPages then do
      let page ← s.fetchPageHandle pageNo
      let nextSlot ← Bitmap.nextBit true page s.fileHdr.numRecordsPerPage slotNo
      if nextSlot < s.fileHdr.numRecordsPerPage then .ok ⟨pageNo,nextSlot⟩
      else seek s fuel (pageNo+1) (-1)
    else .ok ⟨s.fileHdr.numPages,-1⟩

def next (s : RmFileHandle) (rid : Rid) : Except Fault Rid :=
  if isEnd s rid then .ok rid else seek s (s.fileHdr.numPages.toNat+1) rid.pageNo rid.slotNo

def begin (s : RmFileHandle) : Except Fault Rid :=
  if s.fileHdr.numPages ≤ rmFirstRecordPage then .ok ⟨s.fileHdr.numPages,-1⟩
  else next s ⟨rmFirstRecordPage,-1⟩

def scan (s : RmFileHandle) : RecScan Rid where
  isEnd := isEnd s
  rid := .ok
  next := next s

end RmScan

end Rmdb.Record.Paged
