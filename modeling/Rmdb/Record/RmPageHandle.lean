import Rmdb.Lib.Block
import Rmdb.Common.RawData
import Rmdb.Storage.DiskManager
import Rmdb.Record.RmManager

/-! `RmPageHandle` and `Bitmap`: a record page as its bytes. The page header stands behind the
log sequence number, the bitmap behind the header and the slots behind the bitmap. -/
namespace Rmdb.Record.Paged
open Lib Lib.Block
open Storage (PageData)
open RmManager (bitmapWidth)

structure RmFileHdr where
  recordSize : Nat
  numPages : Int
  numRecordsPerPage : Nat
  firstFreePageNo : Int
  bitmapSize : Nat
  deriving DecidableEq, Repr

def offsetPageHdr : Nat := 4
def rmPageHdrSize : Nat := 8

-- what a pointer into the page reads and writes; there is nothing to read outside it
def load (page : PageData) (off len : Nat) : Except Fault Bytes :=
  if off+len ≤ pageSize then .ok (peek page off len) else .error .outOfRange

def write (page : PageData) (off : Nat) (data : Bytes) : Except Fault PageData :=
  match poke page off data with
  | some page => .ok page
  | none => .error .outOfRange

namespace RmPageHandle

def nextFreePageNo (page : PageData) : Int := leInt (peek page offsetPageHdr 4)
def numRecords (page : PageData) : Int := leInt (peek page (offsetPageHdr+4) 4)

def setNextFreePageNo (page : PageData) (pageNo : Int) : Except Fault PageData :=
  write page offsetPageHdr (leBytes 4 pageNo)

def setNumRecords (page : PageData) (count : Int) : Except Fault PageData :=
  write page (offsetPageHdr+4) (leBytes 4 count)

def bitmap : Nat := offsetPageHdr+rmPageHdrSize

def slots (hdr : RmFileHdr) : Nat := bitmap+hdr.bitmapSize

def getSlot (hdr : RmFileHdr) (slotNo : Int) : Nat := slots hdr+slotNo.toNat*hdr.recordSize

def readSlot (hdr : RmFileHdr) (page : PageData) (slotNo : Int) : Except Fault Bytes :=
  load page (getSlot hdr slotNo) hdr.recordSize

def writeSlot (hdr : RmFileHdr) (page : PageData) (slotNo : Int) (buf : Bytes) : Except Fault PageData :=
  if buf.length < hdr.recordSize then .error .outOfRange
  else write page (getSlot hdr slotNo) (buf.take hdr.recordSize)

end RmPageHandle

namespace Bitmap
open RmPageHandle (bitmap)

def getBucket (pos : Nat) : Nat := pos/bitmapWidth

def getBit (pos : Nat) : UInt8 := 0x80 >>> UInt8.ofNat (pos%bitmapWidth)

def bucket (page : PageData) (pos : Int) : Except Fault UInt8 :=
  if pos < 0 then .error .outOfRange else do
    let bytes ← load page (bitmap+getBucket pos.toNat) 1
    .ok (bytes.headD 0)

def isSet (page : PageData) (pos : Int) : Except Fault Bool := do
  let byte ← bucket page pos
  .ok (byte &&& getBit pos.toNat != 0)

def set (page : PageData) (pos : Int) : Except Fault PageData := do
  let byte ← bucket page pos
  write page (bitmap+getBucket pos.toNat) [byte ||| getBit pos.toNat]

def reset (page : PageData) (pos : Int) : Except Fault PageData := do
  let byte ← bucket page pos
  write page (bitmap+getBucket pos.toNat) [byte &&& ~~~getBit pos.toNat]

def init (page : PageData) (size : Nat) : Except Fault PageData := write page bitmap (List.replicate size 0)

def findBit (bit : Bool) (page : PageData) (maxN : Nat) : Nat → Nat → Except Fault Nat
  | 0,_ => .ok maxN
  | left+1,i => do
    if (← isSet page i) = bit then .ok i else findBit bit page maxN left (i+1)

def nextBit (bit : Bool) (page : PageData) (maxN : Nat) (curr : Int) : Except Fault Nat :=
  findBit bit page maxN (maxN-(curr+1).toNat) (curr+1).toNat

def firstBit (bit : Bool) (page : PageData) (maxN : Nat) : Except Fault Nat := nextBit bit page maxN (-1)

end Bitmap

open RmPageHandle

section Bits

theorem bitsApart {i j : Nat} (apart : i%8 ≠ j%8) : Bitmap.getBit i &&& Bitmap.getBit j = 0 ∧
    ~~~Bitmap.getBit i &&& Bitmap.getBit j = Bitmap.getBit j := by
  have all : ∀ a b : Fin 8, a ≠ b → (0x80 >>> UInt8.ofNat a.val : UInt8) &&& 0x80 >>> UInt8.ofNat b.val = 0 ∧
      ~~~(0x80 >>> UInt8.ofNat a.val : UInt8) &&& 0x80 >>> UInt8.ofNat b.val = 0x80 >>> UInt8.ofNat b.val := by decide
  exact all ⟨i%8,by omega⟩ ⟨j%8,by omega⟩ fun same => apart (Fin.mk.inj same)

theorem orMasked (byte mask other : UInt8) : (byte ||| mask) &&& other = byte &&& other ||| mask &&& other := by
  apply UInt8.toBitVec_inj.mp
  ext k inside
  simp [Bool.and_or_distrib_right]

theorem bitSet (i : Nat) : Bitmap.getBit i ≠ 0 := by
  have all : ∀ a : Fin 8, (0x80 >>> UInt8.ofNat a.val : UInt8) ≠ 0 := by decide
  exact all ⟨i%8,by omega⟩

end Bits

structure Laid (hdr : RmFileHdr) : Prop where
  bits : hdr.numRecordsPerPage ≤ 8*hdr.bitmapSize
  inside : slots hdr+hdr.numRecordsPerPage*hdr.recordSize ≤ pageSize

def bit (page : PageData) (i : Nat) : Bool := (peek page (bitmap+i/8) 1).headD 0 &&& Bitmap.getBit i != 0

def cell (hdr : RmFileHdr) (page : PageData) (i : Nat) : Bytes := peek page (slots hdr+i*hdr.recordSize) hdr.recordSize

def holds (hdr : RmFileHdr) (page : PageData) : RmPage where
  nextFreePageNo := nextFreePageNo page
  numRecords := numRecords page
  slots := (List.range hdr.numRecordsPerPage).map fun i => if bit page i then some (cell hdr page i) else none

section Write
variable {page : PageData} {off : Nat} {data : Bytes}

theorem loadRun {len : Nat} (inside : off+len ≤ pageSize) : load page off len = .ok (peek page off len) := by
  rw [load,if_pos inside]

theorem writeRun (inside : off+data.length ≤ pageSize) : ∃ page', write page off data = .ok page' ∧
    peek page' off data.length = data ∧
    ∀ o len, o+len ≤ off ∨ off+data.length ≤ o → peek page' o len = peek page o len := by
  obtain ⟨page',written⟩ := pokeInside page inside
  exact ⟨page',by rw [write,written],peekSame written,fun _ _ => peekApart written⟩

end Write

structure Reads (hdr : RmFileHdr) (page : PageData) (next count : Int) (bits : Nat → Bool) (cells : Nat → Bytes) :
    Prop where
  next : nextFreePageNo page = next
  count : numRecords page = count
  bits : ∀ i < hdr.numRecordsPerPage, bit page i = bits i
  cells : ∀ i < hdr.numRecordsPerPage, cell hdr page i = cells i

section Reads
variable {hdr : RmFileHdr} {page : PageData} {next count v : Int} {bits : Nat → Bool} {cells : Nat → Bytes} {i : Nat}
  {buf : Bytes}

theorem readsSelf (hdr : RmFileHdr) (page : PageData) :
    Reads hdr page (nextFreePageNo page) (numRecords page) (bit page) (cell hdr page) :=
  ⟨rfl,rfl,fun _ _ => rfl,fun _ _ => rfl⟩

theorem Reads.holds (reads : Reads hdr page next count bits cells) : holds hdr page =
    ⟨next,count,(List.range hdr.numRecordsPerPage).map fun i => if bits i then some (cells i) else none⟩ := by
  rw [Paged.holds,reads.next,reads.count]
  congr 1
  refine List.map_congr_left fun i mem => ?_
  have small := List.mem_range.mp mem
  rw [reads.bits i small,reads.cells i small]

theorem slotEnd {n size : Nat} (small : i < n) : i*size+size ≤ n*size := by
  rw [← Nat.succ_mul]
  exact Nat.mul_le_mul_right size small

theorem slotsApart {j size : Nat} (apart : j ≠ i) : j*size+size ≤ i*size ∨ i*size+size ≤ j*size := by
  rcases Nat.lt_or_gt_of_ne apart with before | behind
  · exact .inl (slotEnd before)
  · exact .inr (slotEnd behind)

theorem Reads.setNext (reads : Reads hdr page next count bits cells) (low : -2^31 ≤ v) (high : v < 2^31) :
    ∃ page', setNextFreePageNo page v = .ok page' ∧ Reads hdr page' v count bits cells := by
  have width := leBytesLength 4 v
  obtain ⟨page',run,same,apart⟩ := @writeRun page offsetPageHdr (leBytes 4 v) (by rw [width]; decide)
  rw [width] at same apart
  refine ⟨page',run,?_,?_,?_,?_⟩
  · rw [nextFreePageNo,same,leIntBytes (by omega) (by omega)]
  · rw [← reads.count,numRecords,numRecords,apart _ _ (.inr (le_refl _))]
  · intro i small
    rw [← reads.bits i small,bit,bit,apart _ _ (.inr (by simp only [bitmap,offsetPageHdr,rmPageHdrSize]; omega))]
  · intro i small
    rw [← reads.cells i small,cell,cell,apart _ _ (.inr (by simp only [slots,bitmap,offsetPageHdr,rmPageHdrSize]; omega))]

theorem Reads.setCount (reads : Reads hdr page next count bits cells) (low : -2^31 ≤ v) (high : v < 2^31) :
    ∃ page', setNumRecords page v = .ok page' ∧ Reads hdr page' next v bits cells := by
  have width := leBytesLength 4 v
  obtain ⟨page',run,same,apart⟩ := @writeRun page (offsetPageHdr+4) (leBytes 4 v) (by rw [width]; decide)
  rw [width] at same apart
  refine ⟨page',run,?_,?_,?_,?_⟩
  · rw [← reads.next,nextFreePageNo,nextFreePageNo,apart _ _ (.inl (le_refl _))]
  · rw [numRecords,same,leIntBytes (by omega) (by omega)]
  · intro i small
    rw [← reads.bits i small,bit,bit,apart _ _ (.inr (by simp only [bitmap,offsetPageHdr,rmPageHdrSize]; omega))]
  · intro i small
    rw [← reads.cells i small,cell,cell,apart _ _ (.inr (by simp only [slots,bitmap,offsetPageHdr,rmPageHdrSize]; omega))]

theorem Reads.writeSlot (laid : Laid hdr) (reads : Reads hdr page next count bits cells) (small : i < hdr.numRecordsPerPage)
    (long : hdr.recordSize ≤ buf.length) : ∃ page', writeSlot hdr page i buf = .ok page' ∧
      Reads hdr page' next count bits (Function.update cells i (buf.take hdr.recordSize)) := by
  have width : (buf.take hdr.recordSize).length = hdr.recordSize := by
    rw [List.length_take]
    omega
  have within := laid.inside
  have last := @slotEnd i hdr.numRecordsPerPage hdr.recordSize small
  obtain ⟨page',run,same,apart⟩ := @writeRun page (getSlot hdr i) (buf.take hdr.recordSize) (by
    rw [width,getSlot,Int.toNat_natCast]
    omega)
  rw [width,getSlot,Int.toNat_natCast] at same apart
  refine ⟨page',by rw [RmPageHandle.writeSlot,if_neg (by omega),run],?_,?_,?_,?_⟩
  · rw [← reads.next,nextFreePageNo,nextFreePageNo,
      apart _ _ (.inl (by simp only [slots,bitmap,offsetPageHdr,rmPageHdrSize]; omega))]
  · rw [← reads.count,numRecords,numRecords,
      apart _ _ (.inl (by simp only [slots,bitmap,offsetPageHdr,rmPageHdrSize]; omega))]
  · intro j low
    have bits := laid.bits
    rw [← reads.bits j low,bit,bit,apart _ _ (.inl (by simp only [slots]; omega))]
  · intro j low
    by_cases here : j = i
    · subst here
      rw [Function.update_self,cell,same]
    · have other := @slotsApart i j hdr.recordSize here
      rw [Function.update_of_ne here,← reads.cells j low,cell,cell,apart _ _ (by omega)]

end Reads

section Bits
variable {hdr : RmFileHdr} {page : PageData} {next count : Int} {bits : Nat → Bool} {cells : Nat → Bytes} {i : Nat}

theorem bucketRun (laid : Laid hdr) (small : i < hdr.numRecordsPerPage) :
    Bitmap.bucket page i = .ok ((peek page (bitmap+i/8) 1).headD 0) := by
  have bits := laid.bits
  have inside := laid.inside
  simp only [slots] at inside
  rw [Bitmap.bucket,if_neg (by omega),Int.toNat_natCast,Bitmap.getBucket,bitmapWidth,loadRun (by omega)]
  rfl

theorem isSetRun (laid : Laid hdr) (small : i < hdr.numRecordsPerPage) : Bitmap.isSet page i = .ok (bit page i) := by
  rw [Bitmap.isSet,bucketRun laid small]
  rfl

theorem Reads.rewriteBit {byte : UInt8} {value : Bool} (laid : Laid hdr) (reads : Reads hdr page next count bits cells)
    (small : i < hdr.numRecordsPerPage) (here : (byte &&& Bitmap.getBit i != 0) = value)
    (others : ∀ j, j%8 ≠ i%8 → byte &&& Bitmap.getBit j = (peek page (bitmap+i/8) 1).headD 0 &&& Bitmap.getBit j) :
    ∃ page', write page (bitmap+Bitmap.getBucket i) [byte] = .ok page' ∧
      Reads hdr page' next count (Function.update bits i value) cells := by
  have room := laid.bits
  have inside := laid.inside
  simp only [slots] at inside
  obtain ⟨page',run,same,apart⟩ := @writeRun page (bitmap+i/8) [byte] (by simp only [List.length_singleton]; omega)
  rw [List.length_singleton] at same apart
  refine ⟨page',run,?_,?_,?_,?_⟩
  · rw [← reads.next,nextFreePageNo,nextFreePageNo,apart _ _ (.inl (by simp only [bitmap,rmPageHdrSize]; omega))]
  · rw [← reads.count,numRecords,numRecords,apart _ _ (.inl (by simp only [bitmap,rmPageHdrSize]; omega))]
  · intro j low
    by_cases self : j = i
    · subst self
      rw [Function.update_self,bit,same]
      exact here
    · rw [Function.update_of_ne self,← reads.bits j low,bit,bit]
      by_cases bucket : j/8 = i/8
      · rw [bucket,same]
        exact congrArg (· != 0) (others j (by omega))
      · rw [apart _ _ (by omega)]
  · intro j low
    rw [← reads.cells j low,cell,cell,apart _ _ (.inr (by simp only [slots]; omega))]

theorem Reads.set (laid : Laid hdr) (reads : Reads hdr page next count bits cells) (small : i < hdr.numRecordsPerPage) :
    ∃ page', Bitmap.set page i = .ok page' ∧ Reads hdr page' next count (Function.update bits i true) cells := by
  rw [Bitmap.set,bucketRun laid small,Int.toNat_natCast]
  refine reads.rewriteBit laid small ?_ ?_
  · rw [orMasked,UInt8.and_self,bne_iff_ne,ne_eq,UInt8.or_eq_zero_iff]
    exact fun none => bitSet i none.2
  · intro j apart
    rw [orMasked,(bitsApart (Ne.symm apart)).1,UInt8.or_zero]

theorem Reads.reset (laid : Laid hdr) (reads : Reads hdr page next count bits cells) (small : i < hdr.numRecordsPerPage) :
    ∃ page', Bitmap.reset page i = .ok page' ∧ Reads hdr page' next count (Function.update bits i false) cells := by
  rw [Bitmap.reset,bucketRun laid small,Int.toNat_natCast]
  refine reads.rewriteBit laid small ?_ ?_
  · rw [UInt8.and_assoc,UInt8.not_and_self,UInt8.and_zero]
    rfl
  · intro j apart
    rw [UInt8.and_assoc,(bitsApart (Ne.symm apart)).2]

theorem Reads.init (laid : Laid hdr) (reads : Reads hdr page next count bits cells) :
    ∃ page', Bitmap.init page hdr.bitmapSize = .ok page' ∧ Reads hdr page' next count (fun _ => false) cells := by
  have room := laid.bits
  have inside := laid.inside
  simp only [slots] at inside
  obtain ⟨page',run,same,apart⟩ := @writeRun page bitmap (List.replicate hdr.bitmapSize 0) (by
    rw [List.length_replicate]
    omega)
  rw [List.length_replicate] at same apart
  refine ⟨page',run,?_,?_,?_,?_⟩
  · rw [← reads.next,nextFreePageNo,nextFreePageNo,apart _ _ (.inl (by simp only [bitmap,rmPageHdrSize]; omega))]
  · rw [← reads.count,numRecords,numRecords,apart _ _ (.inl (by simp only [bitmap,rmPageHdrSize]; omega))]
  · intro i small
    have zero : peek page' (bitmap+i/8) 1 = [0] := by
      have within : i/8 < hdr.bitmapSize := by omega
      have part : peek page' (bitmap+i/8) 1 = ((peek page' bitmap hdr.bitmapSize).drop (i/8)).take 1 := by
        rw [peek,peek,List.drop_take,List.drop_drop,List.take_take]
        congr 1
        omega
      rw [part,same,List.drop_replicate,List.take_replicate,Nat.min_eq_left (by omega)]
      rfl
    rw [bit,zero]
    simp
  · intro i small
    rw [← reads.cells i small,cell,cell,apart _ _ (.inr (by simp only [slots]; omega))]

end Bits

section Search
variable {hdr : RmFileHdr} {page : PageData} {bit : Bool}

theorem findBitRun (laid : Laid hdr) {left i : Nat} (rest : i+left = hdr.numRecordsPerPage) :
    Bitmap.findBit bit page hdr.numRecordsPerPage left i =
      .ok (i+((holds hdr page).slots.drop i).findIdx fun x => x.isSome = bit) := by
  induction left generalizing i with
  | zero =>
    have none : (holds hdr page).slots.drop i = [] := by
      rw [List.drop_eq_nil_iff,holds,List.length_map,List.length_range]
      omega
    rw [Bitmap.findBit,none,← rest]
    rfl
  | succ left ih =>
    have small : i < hdr.numRecordsPerPage := by omega
    have first : (holds hdr page).slots.drop i =
        (if Paged.bit page i then some (cell hdr page i) else none) :: (holds hdr page).slots.drop (i+1) := by
      have inside : i < (holds hdr page).slots.length := by
        rw [holds,List.length_map,List.length_range]
        exact small
      rw [List.drop_eq_getElem_cons inside]
      simp [holds]
    have isSome : (if Paged.bit page i then some (cell hdr page i) else none).isSome = Paged.bit page i := by
      cases Paged.bit page i <;> rfl
    rw [Bitmap.findBit,isSetRun laid small,first,List.findIdx_cons,isSome]
    by_cases found : Paged.bit page i = bit
    · simp [found,bind,Except.bind]
    · simp only [bind,Except.bind,found,if_false,decide_false,cond_false]
      rw [ih (by omega),Nat.add_assoc,Nat.add_comm 1]

theorem firstFreeRun (laid : Laid hdr) :
    Bitmap.firstBit false page hdr.numRecordsPerPage = .ok (holds hdr page).firstFree := by
  rw [Bitmap.firstBit,Bitmap.nextBit]
  have run := @findBitRun hdr page false laid hdr.numRecordsPerPage 0 (by omega)
  rw [Nat.zero_add,List.drop_zero] at run
  have empty : (fun x : Option Bytes => decide (x.isSome = false)) = Option.isNone := by
    funext x
    cases x <;> rfl
  rw [empty] at run
  exact run

theorem nextRecordRun (laid : Laid hdr) {curr : Int} (low : (curr+1).toNat ≤ hdr.numRecordsPerPage) :
    Bitmap.nextBit true page hdr.numRecordsPerPage curr = .ok ((holds hdr page).nextRecord curr) := by
  have run := @findBitRun hdr page true laid (hdr.numRecordsPerPage-(curr+1).toNat) (curr+1).toNat (by omega)
  have used : (fun x : Option Bytes => decide (x.isSome = true)) = Option.isSome := by
    funext x
    cases x <;> rfl
  rw [used] at run
  exact run

end Search
end Rmdb.Record.Paged
