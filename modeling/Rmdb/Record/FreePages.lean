import Rmdb.Record.RecordMap

/-! The pages with a free slot, in the bytes of a record file: the counts in the page headers, the
bitmaps and the chain that starts in the file header agree after every run of operations. -/
namespace Rmdb.Record.Paged
open Storage (PageData)
open RmPageHandle
open Paged.RmManager (openFile createFile)

def marked (page : PageData) (i : Nat) : Bool :=
  match Bitmap.isSet page i with
  | .ok isSet => isSet
  | .error _ => false

def usedSlots (s : RmFileHandle) (page : PageData) : Nat := (List.range s.fileHdr.numRecordsPerPage).countP (marked page)

def nextFree (s : RmFileHandle) (p : Int) : Option Int := (s.pages p).map nextFreePageNo

def CountsSlots (s : RmFileHandle) (p : Int) : Prop := ∃ page, s.pages p = some page ∧ numRecords page = usedSlots s page

def Roomy (s : RmFileHandle) (p : Int) : Prop :=
  HasPage s p ∧ ∃ page, s.pages p = some page ∧ numRecords page < s.fileHdr.numRecordsPerPage

instance (s : RmFileHandle) (p : Int) : Decidable (Roomy s p) :=
  inferInstanceAs (Decidable (HasPage s p ∧ ∃ page ∈ s.pages p, numRecords page < s.fileHdr.numRecordsPerPage))

def Full (s : RmFileHandle) (p : Int) : Prop := ∃ page, s.pages p = some page ∧ numRecords page = s.fileHdr.numRecordsPerPage

/- The chain of the file header: no page twice, `RM_NO_PAGE` at its end, and on it exactly the pages
with a free slot. -/
structure FreeChain (s : RmFileHandle) (chain : List Int) : Prop where
  linked : Lib.Linked (nextFree s) rmNoPage s.fileHdr.firstFreePageNo chain
  nodup : chain.Nodup
  roomy : ∀ p, p ∈ chain ↔ Roomy s p

section Page
variable {s : RmFileHandle} {p : Int} {page : PageData}

theorem markedBit (laid : Laid s.fileHdr) {i : Nat} (small : i < s.fileHdr.numRecordsPerPage) :
    marked page i = bit page i := by
  rw [marked,isSetRun laid small]

theorem usedSlotsHolds (laid : Laid s.fileHdr) :
    usedSlots s page = (holds s.fileHdr page).slots.countP Option.isSome := by
  rw [holds,List.countP_map,usedSlots]
  refine List.countP_congr fun i mem => ?_
  rw [markedBit laid (List.mem_range.mp mem)]
  simp only [Function.comp_apply]
  cases bit page i <;> simp

theorem Sound.held (sound : Sound s) (has : HasPage s p) : ∃ page, s.pages p = some page ∧
    (holds s.fileHdr page).Counted s.fileHdr.numRecordsPerPage := by
  obtain ⟨page,fetched⟩ := fetchHas sound (p := p) has
  exact ⟨page,(fetchOk fetched).2,sound.counted fetched⟩

theorem Sound.countsSlots (sound : Sound s) (has : HasPage s p) : CountsSlots s p := by
  obtain ⟨page,here,counted⟩ := sound.held has
  refine ⟨page,here,?_⟩
  rw [usedSlotsHolds sound.laid]
  exact counted.count

theorem nextFreeSeen (s : RmFileHandle) : (view s).nextFree = nextFree s := by
  funext p
  simp only [Record.RmFileHandle.nextFree,view,nextFree,Option.map_map]
  rfl

theorem Sound.roomySeen (sound : Sound s) : (view s).HasRoom p ↔ Roomy s p := by
  constructor
  · rintro ⟨has,shown,there,free⟩
    obtain ⟨page,here,counted⟩ := sound.held has
    simp only [view,here,Option.map_some,Option.some.injEq] at there
    subst there
    have short := counted.free.mp free
    have most := List.countP_le_length (p := Option.isSome) (l := (holds s.fileHdr page).slots)
    have count := counted.count
    rw [counted.length] at most
    refine ⟨has,page,here,?_⟩
    change (holds s.fileHdr page).numRecords < _
    omega
  · rintro ⟨has,page,here,short⟩
    obtain ⟨page',there,counted⟩ := sound.held has
    obtain rfl := Option.some.inj (here.symm.trans there)
    refine ⟨has,holds s.fileHdr page,by simp only [view,here,Option.map_some],counted.free.mpr ?_⟩
    change numRecords page ≠ _
    omega

theorem Sound.freeChain (sound : Sound s) : ∃ chain, FreeChain s chain := by
  obtain ⟨chain,well⟩ := sound.well
  refine ⟨chain,nextFreeSeen s ▸ well.linked,well.nodup,fun p => ?_⟩
  rw [← sound.roomySeen]
  exact ⟨well.free p,fun room => well.listed p room (by simp)⟩

theorem Sound.allFull (sound : Sound s) (empty : s.fileHdr.firstFreePageNo = rmNoPage) (has : HasPage s p) : Full s p := by
  obtain ⟨chain,free⟩ := sound.freeChain
  have linked := free.linked
  rw [empty] at linked
  obtain rfl := Lib.linkedNil linked
  obtain ⟨page,here,counted⟩ := sound.held has
  refine ⟨page,here,?_⟩
  by_contra short
  have room : (view s).HasRoom p :=
    ⟨has,holds s.fileHdr page,by simp only [view,here,Option.map_some],counted.free.mpr short⟩
  exact absurd ((free.roomy p).mpr (sound.roomySeen.mp room)) (by simp)

end Page

section Operations
variable {s : RmFileHandle} {op : RmOp}

theorem numPagesSeen (sound : Sound s) (valid : RmOp.Valid s op) : (after (RmOp.exec op s)).fileHdr.numPages =
    (after (Record.RmOp.exec (RmOp.shown s.fileHdr.recordSize op) (view s))).fileHdr.numPages := by
  have mirrors := opMirrors sound valid
  rw [Mirrors] at mirrors
  cases run : RmOp.exec op s with
  | ok a t =>
    rw [run] at mirrors
    rw [mirrors.1]
    rfl
  | error e t =>
    rw [run] at mirrors
    rw [mirrors.1]
    rfl

theorem pageAdded (sound : Sound s) (valid : RmOp.Valid s op)
    (added : (after (RmOp.exec op s)).fileHdr.numPages ≠ s.fileHdr.numPages) : s.fileHdr.firstFreePageNo = rmNoPage := by
  rw [numPagesSeen sound valid] at added
  by_contra some
  have keeps {x : M Record.RmFileHandle Unit} (quiet : KeepsPages x) :
      (after ((x >>= fun _ => pure (none : Option Rid)) (view s))).fileHdr.numPages = s.fileHdr.numPages := by
    rw [keepsBind quiet fun _ => fun _ => rfl]
    rfl
  apply added
  cases op with
  | insert buf =>
    rw [RmOp.shown,Record.RmOp.exec,keepsAfter fun _ => fun _ => rfl,insertNumPages]
    exact if_neg some
  | insertAt rid buf => exact keeps (keepsInsertAt rid _)
  | delete rid => exact keeps (keepsDelete rid)
  | update rid buf => exact keeps (keepsUpdate rid _)
  | reopen =>
    rw [RmOp.shown,Record.RmOp.exec,modifyBind,Record.RmManager.reopened sound.well]
    rfl

theorem insertReturns {buf : Bytes} (sound : Sound s) (valid : RmOp.Valid s (.insert buf)) :
    ∃ rid t, RmFileHandle.insertRecord buf s = .ok rid t := by
  have acts := (opSound sound valid).1
  rw [RmOp.exec] at acts
  cases run : RmFileHandle.insertRecord buf s with
  | ok rid t => exact ⟨rid,t,rfl⟩
  | error e t =>
    rw [bindError run] at acts
    cases acts

theorem insertAtReturns {rid : Rid} {buf : Bytes} (sound : Sound s) (valid : RmOp.Valid s (.insertAt rid buf)) :
    ∃ t, RmFileHandle.insertRecordAt rid buf s = .ok () t := by
  have acts := (opSound sound valid).1
  rw [RmOp.exec] at acts
  cases run : RmFileHandle.insertRecordAt rid buf s with
  | ok u t => exact ⟨t,rfl⟩
  | error e t =>
    rw [bindError run] at acts
    cases acts

end Operations

theorem freeChainKept {recordSize : Int} {file : RmFile} {filename : String} {s : RmFileHandle}
    (ok : createFile recordSize = .ok file) (run : Relation.ReflTransGen Step (openFile filename file) s) :
    (∀ p, HasPage s p → CountsSlots s p) ∧ (∃ chain, FreeChain s chain) ∧
    (∀ rid buf, RmOp.Valid s (.insertAt rid buf) → ∃ t, RmFileHandle.insertRecordAt rid buf s = .ok () t) ∧
    (∀ buf, RmOp.Valid s (.insert buf) → ∃ rid t, RmFileHandle.insertRecord buf s = .ok rid t) ∧
    ∀ op, RmOp.Valid s op → (after (RmOp.exec op s)).fileHdr.numPages ≠ s.fileHdr.numPages → ∀ p, HasPage s p → Full s p := by
  have sound := (runSound (@createdSound _ _ filename ok).1 run).1
  exact ⟨fun p has => sound.countsSlots has,sound.freeChain,fun rid buf valid => insertAtReturns sound valid,
    fun buf valid => insertReturns sound valid,
    fun op valid added p has => sound.allFull (pageAdded sound valid added) has⟩

theorem twoPagesChain : ∃ file s, createFile 512 = .ok file ∧ s = runOps (openFile "t" file) rowOps ∧ s.fileHdr.numPages = 3 ∧
    CountsSlots s 1 ∧ CountsSlots s 2 ∧ (∃ chain, FreeChain s chain) ∧ Roomy s 1 ∧ Roomy s 2 ∧
    (∃ rid t, RmFileHandle.insertRecord (List.replicate 512 6) s = .ok rid t) ∧
    ∃ t, RmFileHandle.insertRecordAt ⟨1,0⟩ (List.replicate 512 6) s = .ok () t := by
  obtain ⟨file,ok⟩ : ∃ file, createFile 512 = .ok file := ⟨_,rfl⟩
  have valid : ValidRun (openFile "t" file) rowOps := by
    obtain rfl := Except.ok.inj ok
    decide +kernel
  obtain ⟨counts,chain,atReturns,returns,_⟩ := freeChainKept ok (reached valid)
  refine ⟨file,_,ok,rfl,?_,counts 1 ?_,counts 2 ?_,chain,?_,?_,returns _ ?_,atReturns ⟨1,0⟩ _ ?_⟩
  all_goals
    obtain rfl := Except.ok.inj ok
    decide +kernel

end Rmdb.Record.Paged
