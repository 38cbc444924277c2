import Rmdb.Defs

/-! `DiskManager::write_page`, `read_page` and `allocate_page` over the bytes of
the open files. A write past the end of a file leaves a hole that reads as zeros;
a read that does not find a whole page fails. -/
namespace Rmdb.Storage

abbrev PageData := {bytes : Bytes // bytes.length = pageSize}

def zeroPage : PageData := ⟨List.replicate pageSize 0,by simp⟩

structure DiskManager where
  files : Int → Bytes
  /-- `fd2pageno_`: the number the next allocated page of the file gets. -/
  fd2pageno : Int → Nat

namespace DiskManager

def maxFd : Int := 8192

def writeAt (file : Bytes) (pos : Nat) (data : Bytes) : Bytes :=
  (file ++ List.replicate (pos-file.length) 0).take pos ++ data ++ file.drop (pos+data.length)

def writePage (d : DiskManager) (pid : PageId) (data : PageData) : Except RMDBError DiskManager :=
  if pid.pageNo < 0 then .error (.unix "Invalid argument") else
    let file := writeAt (d.files pid.fd) (pid.pageNo.toNat*pageSize) data.val
    .ok {d with files := Function.update d.files pid.fd file}

def readPage (d : DiskManager) (pid : PageId) : Except RMDBError PageData :=
  if pid.pageNo < 0 then .error (.unix "Invalid argument") else
    let bytes := ((d.files pid.fd).drop (pid.pageNo.toNat*pageSize)).take pageSize
    if whole : bytes.length = pageSize then .ok ⟨bytes,whole⟩
    else .error (.internal "DiskManager::read_page Error")

def allocatePage (d : DiskManager) (fd : Int) : Nat × DiskManager :=
  (d.fd2pageno fd,{d with fd2pageno := Function.update d.fd2pageno fd (d.fd2pageno fd+1)})

theorem writeAtHead (file : Bytes) (pos : Nat) :
    ((file ++ List.replicate (pos-file.length) 0).take pos).length = pos := by
  simp only [List.length_take,List.length_append,List.length_replicate]
  omega

theorem writeAtSame (file : Bytes) (pos : Nat) (data : Bytes) :
    ((writeAt file pos data).drop pos).take data.length = data := by
  have head := writeAtHead file pos
  have split : (writeAt file pos data).drop pos = data ++ file.drop (pos+data.length) := by
    simp only [writeAt,List.append_assoc]
    rw [List.drop_append_of_le_length (by omega),List.drop_of_length_le (by omega),List.nil_append]
  rw [split,List.take_left]

theorem writeAtOther {file : Bytes} {pos off n : Nat} {data : Bytes}
    (whole : off+n ≤ file.length) (apart : off+n ≤ pos ∨ pos+data.length ≤ off) :
    ((writeAt file pos data).drop off).take n = (file.drop off).take n := by
  have head := writeAtHead file pos
  apply List.ext_getElem?
  intro i
  simp only [List.getElem?_take,List.getElem?_drop]
  split
  · rename_i inside
    rcases apart with before | after
    · rw [writeAt,List.append_assoc,List.getElem?_append_left (by omega),List.getElem?_take,
        if_pos (by omega),List.getElem?_append_left (by omega)]
    · rw [writeAt,List.getElem?_append_right (by simp only [List.length_append]; omega),
        List.getElem?_drop]
      congr 1
      simp only [List.length_append,head]
      omega
  · rfl

theorem readNonneg {d : DiskManager} {pid : PageId} {data : PageData}
    (ok : d.readPage pid = .ok data) : 0 ≤ pid.pageNo := by
  unfold readPage at ok
  split at ok
  · simp at ok
  · omega

theorem readIff {d : DiskManager} {pid : PageId} {data : PageData} :
    d.readPage pid = .ok data ↔ 0 ≤ pid.pageNo ∧
      ((d.files pid.fd).drop (pid.pageNo.toNat*pageSize)).take pageSize = data.val := by
  unfold readPage
  split
  · rename_i negative
    simp only [reduceCtorEq,false_iff,not_and]
    intro h; omega
  · rename_i nonneg
    have sign : 0 ≤ pid.pageNo := by omega
    dsimp only
    split
    · rename_i whole
      simp only [Except.ok.injEq,sign,true_and]
      exact ⟨fun h => by rw [← h],fun h => Subtype.ext h⟩
    · rename_i short
      simp only [reduceCtorEq,false_iff,not_and,sign,true_implies]
      intro same
      exact short (by rw [same]; exact data.property)

theorem readWriteSame {d e : DiskManager} {pid : PageId} {data : PageData}
    (ok : d.writePage pid data = .ok e) : e.readPage pid = .ok data := by
  unfold writePage at ok
  split at ok
  · simp at ok
  · rename_i nonneg
    cases ok
    rw [readIff]
    refine ⟨by omega,?_⟩
    simp only [Function.update_self]
    have same := writeAtSame (d.files pid.fd) (pid.pageNo.toNat*pageSize) data.val
    rwa [data.property] at same

theorem readWriteOther {d e : DiskManager} {pid other : PageId} {data old : PageData}
    (ok : d.writePage pid data = .ok e) (different : other ≠ pid)
    (before : d.readPage other = .ok old) : e.readPage other = .ok old := by
  unfold writePage at ok
  split at ok
  · simp at ok
  · rename_i nonneg
    cases ok
    rw [readIff] at before ⊢
    refine ⟨before.1,?_⟩
    by_cases file : other.fd = pid.fd
    · have pages : other.pageNo ≠ pid.pageNo := by
        intro same
        exact different (by cases other; cases pid; simp_all)
      have length := congrArg List.length before.2
      simp only [List.length_take,List.length_drop,old.property] at length
      rw [file] at before length ⊢
      simp only [Function.update_self]
      rw [writeAtOther,before.2]
      · have size : 0 < pageSize := by decide
        omega
      · rw [data.property]
        have apart : other.pageNo.toNat+1 ≤ pid.pageNo.toNat ∨ pid.pageNo.toNat+1 ≤ other.pageNo.toNat := by
          have := before.1; omega
        rcases apart with h | h
        · left; calc
            other.pageNo.toNat*pageSize+pageSize = (other.pageNo.toNat+1)*pageSize := by ring
            _ ≤ pid.pageNo.toNat*pageSize := Nat.mul_le_mul_right _ h
        · right; calc
            pid.pageNo.toNat*pageSize+pageSize = (pid.pageNo.toNat+1)*pageSize := by ring
            _ ≤ other.pageNo.toNat*pageSize := Nat.mul_le_mul_right _ h
    · simpa only [Function.update_of_ne file] using before.2

@[simp] theorem allocateFiles (d : DiskManager) (fd : Int) : (d.allocatePage fd).2.files = d.files := rfl

theorem allocateRead (d : DiskManager) (fd : Int) (pid : PageId) :
    (d.allocatePage fd).2.readPage pid = d.readPage pid := rfl

end DiskManager
end Rmdb.Storage
