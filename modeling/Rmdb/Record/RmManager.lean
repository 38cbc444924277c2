import Rmdb.Record.RmRecords

/-! `RmManager`: creating, opening and closing a record file. -/
namespace Rmdb.Record
open RmFileHandle

structure RmFile where
  fileHdr : RmFileHdr
  pages : Int → Option RmPage

namespace RmManager

def rmMaxRecordSize : Int := 512
def bitmapWidth : Nat := 8
def rmFileHdrSize : Nat := 20

def numRecordsPerPage (recordSize : Nat) : Nat :=
  (bitmapWidth*(pageSize-1-rmFileHdrSize)+1)/(1+recordSize*bitmapWidth)

def createFile (recordSize : Int) : Except Fault RmFile :=
  if recordSize < 1 ∨ recordSize > rmMaxRecordSize then .error (.error (.invalidRecordSize recordSize))
  else .ok ⟨⟨recordSize.toNat,1,numRecordsPerPage recordSize.toNat,rmNoPage⟩,fun _ => none⟩

def openFile (filename : String) (file : RmFile) : RmFileHandle := ⟨filename,file.fileHdr,file.pages,file.fileHdr.numPages⟩

def closeFile (s : RmFileHandle) : RmFile := ⟨s.fileHdr,s.pages⟩

variable {recordSize : Int} {file : RmFile} {s : RmFileHandle} {lost : Set Int}

theorem created (ok : createFile recordSize = .ok file) : 1 ≤ recordSize ∧ recordSize ≤ 512 ∧
    file = ⟨⟨recordSize.toNat,1,numRecordsPerPage recordSize.toNat,rmNoPage⟩,fun _ => none⟩ := by
  rw [createFile] at ok
  split at ok
  · cases ok
  · rename_i accepted
    simp only [rmMaxRecordSize] at accepted
    exact ⟨by omega,by omega,(Except.ok.inj ok).symm⟩

theorem numRecordsPositive {n : Nat} (small : n ≤ 512) : 0 < numRecordsPerPage n := by
  rw [numRecordsPerPage,bitmapWidth,pageSize,rmFileHdrSize]
  exact Nat.div_pos (by omega) (by omega)

theorem createdWell (ok : createFile recordSize = .ok file) (filename : String) : (openFile filename file).Well := by
  obtain ⟨low,high,rfl⟩ := created ok
  have nothing (p : Int) : ¬(openFile filename ⟨⟨recordSize.toNat,1,numRecordsPerPage recordSize.toNat,rmNoPage⟩,
      fun _ => none⟩).HasPage p := by
    intro has
    obtain ⟨above,below⟩ := has
    simp only [openFile,rmFirstRecordPage] at above below
    omega
  refine ⟨[],rfl,le_refl _,numRecordsPositive (by omega),fun p has => absurd has (nothing p),rfl,List.nodup_nil,?_,?_⟩
  · intro p mem
    cases mem
  · exact fun p room => absurd room.1 (nothing p)

theorem createdEmpty (ok : createFile recordSize = .ok file) (filename : String) (rid : Rid) :
    (openFile filename file).records rid = none := by
  obtain ⟨_,_,rfl⟩ := created ok
  rw [recordsRead,if_neg]
  rintro ⟨⟨above,below⟩,_⟩
  simp only [openFile,rmFirstRecordPage] at above below
  omega

theorem reopened (well : s.WellUpTo lost) : openFile s.fileName (closeFile s) = s := by
  obtain ⟨chain,well⟩ := well
  have counter := well.counter
  cases s
  simp only [openFile,closeFile] at counter ⊢
  rw [counter]

end RmManager
end Rmdb.Record
