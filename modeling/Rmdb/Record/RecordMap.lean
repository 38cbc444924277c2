import Rmdb.Record.RmRefine

/-! Every run of operations on the bytes of a record file, from its creation on, is a run on a
map from record ids to records. -/
namespace Rmdb.Record.Paged
open Storage (PageData)
open RmPageHandle
open Paged.RmManager (openFile closeFile createFile)

def InSlots (s : RmFileHandle) (rid : Rid) : Prop := 0 ≤ rid.slotNo ∧ rid.slotNo < s.fileHdr.numRecordsPerPage

instance (s : RmFileHandle) (rid : Rid) : Decidable (InSlots s rid) := inferInstanceAs (Decidable (_ ∧ _))

def HasPage (s : RmFileHandle) (p : Int) : Prop := rmFirstRecordPage ≤ p ∧ p < s.fileHdr.numPages

instance (s : RmFileHandle) (p : Int) : Decidable (HasPage s p) := inferInstanceAs (Decidable (_ ∧ _))

def records (s : RmFileHandle) (rid : Rid) : Option Bytes :=
  if InSlots s rid then
    match s.getRecord rid with
    | .ok record => some record
    | .error _ => none
  else none

namespace RmOp

def exec : RmOp → M RmFileHandle (Option Rid)
  | .insert buf => do
    let rid ← RmFileHandle.insertRecord buf
    pure (some rid)
  | .insertAt rid buf => do
    RmFileHandle.insertRecordAt rid buf
    pure none
  | .delete rid => do
    RmFileHandle.deleteRecord rid
    pure none
  | .update rid buf => do
    RmFileHandle.updateRecord rid buf
    pure none
  | .reopen => do
    modify fun s => openFile s.fileName (closeFile s)
    pure none

/- The arguments with which the operations are called: a buffer holds a record, and `num_pages`
is an `int`, so that a page can be added while the next number is one. -/
def Valid (s : RmFileHandle) : RmOp → Prop
  | .insert buf => s.fileHdr.recordSize ≤ buf.length ∧ (s.fileHdr.firstFreePageNo = rmNoPage → s.fileHdr.numPages+1 < 2^31)
  | .insertAt rid buf => HasPage s rid.pageNo ∧ InSlots s rid ∧ s.fileHdr.recordSize ≤ buf.length
  | .delete rid => InSlots s rid
  | .update rid buf => InSlots s rid ∧ s.fileHdr.recordSize ≤ buf.length
  | .reopen => True

instance decidableValid (s : RmFileHandle) : (op : RmOp) → Decidable (Valid s op)
  | .insert _ => inferInstanceAs (Decidable (_ ∧ (_ → _)))
  | .insertAt _ _ => inferInstanceAs (Decidable (_ ∧ _ ∧ _))
  | .delete rid => inferInstanceAs (Decidable (InSlots s rid))
  | .update _ _ => inferInstanceAs (Decidable (_ ∧ _))
  | .reopen => inferInstanceAs (Decidable True)

def shown (size : Nat) : RmOp → RmOp
  | .insert buf => .insert (buf.take size)
  | .insertAt rid buf => .insertAt rid (buf.take size)
  | .delete rid => .delete rid
  | .update rid buf => .update rid (buf.take size)
  | .reopen => .reopen

end RmOp

inductive Acts (s : RmFileHandle) : RmOp → EStateM.Result Fault RmFileHandle (Option Rid) → Prop where
  | inserted {buf : Bytes} {rid : Rid} {t : RmFileHandle} (fresh : records s rid = none)
      (map : records t = Function.update (records s) rid (some (buf.take s.fileHdr.recordSize))) :
      Acts s (.insert buf) (.ok (some rid) t)
  | insertedAt {buf : Bytes} {rid : Rid} {t : RmFileHandle}
      (map : records t = Function.update (records s) rid (some (buf.take s.fileHdr.recordSize))) :
      Acts s (.insertAt rid buf) (.ok none t)
  | deleted {rid : Rid} {t : RmFileHandle} (present : records s rid ≠ none)
      (map : records t = Function.update (records s) rid none) : Acts s (.delete rid) (.ok none t)
  | deleteRefused {rid : Rid} {e : RMDBError} (absent : records s rid = none) : Acts s (.delete rid) (.error (.error e) s)
  | updated {buf : Bytes} {rid : Rid} {t : RmFileHandle} (present : records s rid ≠ none)
      (map : records t = Function.update (records s) rid (some (buf.take s.fileHdr.recordSize))) :
      Acts s (.update rid buf) (.ok none t)
  | updateRefused {buf : Bytes} {rid : Rid} {e : RMDBError} (absent : records s rid = none) :
      Acts s (.update rid buf) (.error (.error e) s)
  | reopened : Acts s .reopen (.ok none s)

def Step (s t : RmFileHandle) : Prop := ∃ op, RmOp.Valid s op ∧ t = after (RmOp.exec op s)

def runOps (s : RmFileHandle) : List RmOp → RmFileHandle
  | [] => s
  | op::ops => runOps (after (RmOp.exec op s)) ops

def ValidRun (s : RmFileHandle) : List RmOp → Prop
  | [] => True
  | op::ops => RmOp.Valid s op ∧ ValidRun (after (RmOp.exec op s)) ops

instance decidableRun : (s : RmFileHandle) → (ops : List RmOp) → Decidable (ValidRun s ops)
  | _,[] => inferInstanceAs (Decidable True)
  | s,op::ops => @instDecidableAnd _ _ _ (decidableRun (after (RmOp.exec op s)) ops)

theorem reached {s : RmFileHandle} {ops : List RmOp} (valid : ValidRun s ops) :
    Relation.ReflTransGen Step s (runOps s ops) := by
  induction ops generalizing s with
  | nil => exact .refl
  | cons op ops ih => exact .head ⟨op,valid.1,rfl⟩ (ih valid.2)

section Map
variable {s t : RmFileHandle} {rid : Rid} {op : RmOp}

theorem getRecordSeen (laid : Laid s.fileHdr) (inside : InSlots s rid) : (view s).getRecord rid = s.getRecord rid := by
  obtain ⟨low,high⟩ := inside
  rw [Record.RmFileHandle.getRecord,RmFileHandle.getRecord,fetchSeen]
  cases s.fetchPageHandle rid.pageNo with
  | error e => rfl
  | ok page =>
    obtain ⟨isSet,slot⟩ := @isSetIn s rid page laid low high
    simp only [Except.map,bind,Except.bind,isSet,slot]
    cases bit page rid.slotNo.toNat with
    | false => rfl
    | true =>
      have last := @slotEnd rid.slotNo.toNat s.fileHdr.numRecordsPerPage s.fileHdr.recordSize (by omega)
      have within := laid.inside
      rw [if_pos rfl,if_pos rfl,readSlot,getSlot,loadRun (by omega)]
      rfl

theorem fetchFails {p : Int} {e : Fault} (failed : s.fetchPageHandle p = .error e) : ∃ e', e = .error e' := by
  rw [RmFileHandle.fetchPageHandle] at failed
  split at failed
  · exact ⟨_,(Except.error.inj failed).symm⟩
  · split at failed
    · cases failed
    · exact ⟨_,(Except.error.inj failed).symm⟩

theorem absentRefused {k : PageData → M RmFileHandle Unit} (laid : Laid s.fileHdr) (inside : InSlots s rid)
    (absent : records s rid = none) : ∃ e, (do
      let page ← RmFileHandle.fetch rid.pageNo
      let isSet ← ofExcept (Bitmap.isSet page rid.slotNo)
      if isSet then k page else raise (.recordNotFound rid.pageNo rid.slotNo)) s = .error (.error e) s := by
  rw [records,if_pos inside,RmFileHandle.getRecord] at absent
  cases fetched : s.fetchPageHandle rid.pageNo with
  | error e =>
    obtain ⟨e,rfl⟩ := fetchFails fetched
    exact ⟨e,by rw [bindError (fetchErrorRun fetched).1]⟩
  | ok page =>
    obtain ⟨isSet,_⟩ := @isSetIn s rid page laid inside.1 inside.2
    refine ⟨.recordNotFound rid.pageNo rid.slotNo,?_⟩
    cases marked : bit page rid.slotNo.toNat with
    | false =>
      rw [bindEq (fetchOkRun fetched).1,isSet,marked,bindEq (ofExceptOk _ s)]
      rfl
    | true =>
      obtain ⟨low,high⟩ := inside
      have last := @slotEnd rid.slotNo.toNat s.fileHdr.numRecordsPerPage s.fileHdr.recordSize (by omega)
      have within := laid.inside
      rw [fetched] at absent
      simp only [bind,Except.bind,isSet,marked,if_true,readSlot,getSlot] at absent
      rw [loadRun (by omega)] at absent
      cases absent

theorem recordsSeen (sound : Sound s) : (view s).records = records s := by
  funext rid
  by_cases inside : InSlots s rid
  · rw [records,if_pos inside,← getRecordSeen sound.laid inside]
    rfl
  · rw [records,if_neg inside]
    cases found : (view s).records rid with
    | none => rfl
    | some b =>
      obtain ⟨has,nonneg,page,here,slot⟩ := Record.RmFileHandle.recordsSome.mp found
      obtain ⟨chain,well⟩ := sound.well
      obtain ⟨page',there,counted⟩ := well.page _ has
      obtain rfl := Option.some.inj (here.symm.trans there)
      have within := (List.getElem?_eq_some_iff.mp slot).1
      rw [counted.length] at within
      exact absurd ⟨nonneg,by simp only [view] at within; omega⟩ inside

end Map

section Header

theorem fieldAt {front x rest stored : Bytes} {i : Nat} (before : front.length = 4*i) (width : x.length = 4)
    (bytes : stored = front ++ (x ++ rest)) : RmFileHdr.field stored i = leInt x := by
  rw [RmFileHdr.field,bytes,← before,List.drop_left,← width,List.take_left]

theorem headerRead {hdr : RmFileHdr} (size : hdr.recordSize ≤ pageSize) (laid : Laid hdr)
    (first : -2^31 ≤ hdr.firstFreePageNo ∧ hdr.firstFreePageNo < 2^31) (low : 0 ≤ hdr.numPages) (fits : hdr.numPages < 2^31) :
    RmFileHdr.ofBytes hdr.bytes = hdr := by
  have small := laid.small
  simp only [pageSize] at size small
  have width := leBytesLength 4
  have one := @fieldAt [] _ _ hdr.bytes 0 rfl (width hdr.recordSize) (by simp only [RmFileHdr.bytes,List.append_assoc]; rfl)
  have two := @fieldAt (leBytes 4 hdr.recordSize) _ _ hdr.bytes 1 (by simp [width]) (width hdr.numPages)
    (by simp only [RmFileHdr.bytes,List.append_assoc]; rfl)
  have three := @fieldAt (leBytes 4 hdr.recordSize ++ leBytes 4 hdr.numPages) _ _ hdr.bytes 2 (by simp [width])
    (width hdr.numRecordsPerPage) (by simp only [RmFileHdr.bytes,List.append_assoc]; rfl)
  have four := @fieldAt (leBytes 4 hdr.recordSize ++ leBytes 4 hdr.numPages ++ leBytes 4 hdr.numRecordsPerPage) _ _ hdr.bytes 3
    (by simp [width]) (width hdr.firstFreePageNo) (by simp only [RmFileHdr.bytes,List.append_assoc]; rfl)
  have five := @fieldAt (leBytes 4 hdr.recordSize ++ leBytes 4 hdr.numPages ++ leBytes 4 hdr.numRecordsPerPage ++
    leBytes 4 hdr.firstFreePageNo) _ [] hdr.bytes 4 (by simp [width]) (width hdr.bitmapSize)
    (by simp only [RmFileHdr.bytes,List.append_assoc,List.append_nil])
  rw [RmFileHdr.ofBytes,one,two,three,four,five,leIntBytes (by omega) (by omega),leIntBytes (by omega) (by omega),
    leIntBytes (by omega) (by omega),leIntBytes (by omega) (by omega),leIntBytes (by omega) (by omega)]
  simp only [Int.toNat_natCast]

end Header

section Steps
variable {s t : RmFileHandle} {op : RmOp} {rid : Rid}

theorem Sound.recordFits (sound : Sound s) : s.fileHdr.recordSize ≤ pageSize := by
  obtain ⟨chain,well⟩ := sound.well
  have room : 0 < s.fileHdr.numRecordsPerPage := well.room
  have inside := sound.laid.inside
  have least := Nat.le_mul_of_pos_left s.fileHdr.recordSize room
  omega

theorem Sound.reopened (sound : Sound s) : openFile s.fileName (closeFile s) = s := by
  obtain ⟨chain,well⟩ := sound.well
  have counter : s.fd2pageno = s.fileHdr.numPages := well.counter
  have header : rmFirstRecordPage ≤ s.fileHdr.numPages := well.header
  simp only [rmFirstRecordPage] at header
  have read := headerRead sound.recordFits sound.laid sound.headFits (by omega) sound.fits
  rw [openFile,closeFile]
  dsimp only
  rw [read,← counter]

theorem mirrorsMap {α β : Type} {x : M RmFileHandle α} {y : M Record.RmFileHandle α} (mirrors : Mirrors x y s) (f : α → β) :
    Mirrors (x >>= fun a => pure (f a)) (y >>= fun a => pure (f a)) s := mirrorsBind mirrors fun a t _ => mirrorsPure (f a) t

theorem opMirrors (sound : Sound s) (valid : RmOp.Valid s op) :
    Mirrors (RmOp.exec op) (Record.RmOp.exec (RmOp.shown s.fileHdr.recordSize op)) s := by
  cases op with
  | insert buf => exact mirrorsMap (insertMirrors sound valid.1) some
  | insertAt rid buf =>
    obtain ⟨_,⟨low,high⟩,long⟩ := valid
    exact mirrorsMap (insertAtMirrors sound low high long) fun _ => none
  | delete rid => exact mirrorsMap (deleteMirrors sound valid.1 valid.2) fun _ => none
  | update rid buf =>
    obtain ⟨⟨low,high⟩,long⟩ := valid
    exact mirrorsMap (updateMirrors sound low high long) fun _ => none
  | reopen =>
    have one : RmOp.exec .reopen s = .ok none s := by
      rw [RmOp.exec,modifyBind,sound.reopened]
      rfl
    have two : Record.RmOp.exec .reopen (view s) = .ok none (view s) := by
      rw [Record.RmOp.exec,modifyBind,RmManager.reopened sound.well]
      rfl
    rw [Mirrors,one]
    exact ⟨two,SameLayout.refl s⟩

theorem shownValid (valid : RmOp.Valid s op) : Record.RmOp.Valid (view s) (RmOp.shown s.fileHdr.recordSize op) := by
  cases op with
  | insert buf => trivial
  | insertAt rid buf => exact ⟨valid.1,valid.2.1⟩
  | delete rid => exact valid
  | update rid buf => exact valid.1
  | reopen => trivial

theorem numPagesFit (sound : Sound s) (valid : RmOp.Valid s op) :
    (after (Record.RmOp.exec (RmOp.shown s.fileHdr.recordSize op) (view s))).fileHdr.numPages < 2^31 := by
  have fits := sound.fits
  have unchanged {x : M Record.RmFileHandle Unit} (keeps : KeepsPages x) :
      (after ((x >>= fun _ => pure (none : Option Rid)) (view s))).fileHdr.numPages < 2^31 := by
    rw [keepsBind keeps fun _ => fun _ => rfl]
    exact fits
  cases op with
  | insert buf =>
    have count := insertNumPages (view s) (buf.take s.fileHdr.recordSize)
    rw [RmOp.shown,Record.RmOp.exec,keepsAfter fun _ => fun _ => rfl,count]
    split
    · rename_i empty
      obtain ⟨chain,well⟩ := sound.well
      rw [well.counter]
      exact valid.2 empty
    · exact fits
  | insertAt rid buf => exact unchanged (keepsInsertAt rid _)
  | delete rid => exact unchanged (keepsDelete rid)
  | update rid buf => exact unchanged (keepsUpdate rid _)
  | reopen =>
    rw [RmOp.shown,Record.RmOp.exec,modifyBind,RmManager.reopened sound.well]
    exact fits

theorem refusedRun {α β : Type} {x : M RmFileHandle α} {f : α → M RmFileHandle β}
    (refused : ∃ e, x s = .error (.error e) s) : ∃ e, (x >>= f) s = .error (.error e) s := by
  obtain ⟨e,run⟩ := refused
  exact ⟨e,bindError run⟩

theorem actsOn {a : Option Rid} (acts : Record.Acts (view s) (RmOp.shown s.fileHdr.recordSize op) (.ok a (view t)))
    (before : (view s).records = records s) (later : (view t).records = records t) (going : op ≠ .reopen) :
    Acts s op (.ok a t) := by
  cases op with
  | insert buf =>
    cases acts with
    | inserted fresh map => exact .inserted (before ▸ fresh) (before ▸ later ▸ map)
  | insertAt rid buf =>
    cases acts with
    | insertedAt map => exact .insertedAt (before ▸ later ▸ map)
  | delete rid =>
    cases acts with
    | deleted present map => exact .deleted (before ▸ present) (before ▸ later ▸ map)
  | update rid buf =>
    cases acts with
    | updated present map => exact .updated (before ▸ present) (before ▸ later ▸ map)
  | reopen => exact absurd rfl going

theorem deleteRefused (laid : Laid s.fileHdr) (inside : InSlots s rid) (absent : records s rid = none) :
    ∃ e, RmOp.exec (.delete rid) s = .error (.error e) s := by
  have refused : ∃ e, RmFileHandle.deleteRecord rid s = .error (.error e) s := absentRefused laid inside absent
  exact refusedRun refused

theorem updateRefused {buf : Bytes} (laid : Laid s.fileHdr) (inside : InSlots s rid) (absent : records s rid = none) :
    ∃ e, RmOp.exec (.update rid buf) s = .error (.error e) s := by
  have refused : ∃ e, RmFileHandle.updateRecord rid buf s = .error (.error e) s := absentRefused laid inside absent
  exact refusedRun refused

theorem opSound (sound : Sound s) (valid : RmOp.Valid s op) :
    Acts s op (RmOp.exec op s) ∧ Sound (after (RmOp.exec op s)) ∧ SameLayout s (after (RmOp.exec op s)) := by
  have mirrors := opMirrors sound valid
  obtain ⟨acts,well,_⟩ := @opStep (view s) _ ∅ sound.well (shownValid valid)
  have fits := numPagesFit sound valid
  have seen := recordsSeen sound
  rw [Mirrors] at mirrors
  cases run : RmOp.exec op s with
  | ok a t =>
    rw [run] at mirrors
    rw [mirrors.1] at acts well fits
    have sound' : Sound t := ⟨mirrors.2.laid sound.laid,well,fits⟩
    refine ⟨?_,sound',mirrors.2⟩
    by_cases same : op = .reopen
    · subst same
      rw [RmOp.exec,modifyBind,sound.reopened] at run
      cases run
      exact .reopened
    · exact actsOn acts seen (recordsSeen sound') same
  | error e t =>
    rw [run] at mirrors
    rw [mirrors.1] at acts well fits
    refine ⟨?_,⟨mirrors.2.laid sound.laid,well,fits⟩,mirrors.2⟩
    cases op with
    | insert buf => cases acts
    | insertAt rid buf => cases acts
    | reopen => cases acts
    | delete rid =>
      have absent : records s rid = none := by
        rw [← seen]
        generalize view t = u at acts
        cases acts
        assumption
      obtain ⟨e',refused⟩ := deleteRefused sound.laid valid absent
      rw [run] at refused
      cases refused
      exact .deleteRefused absent
    | update rid buf =>
      have absent : records s rid = none := by
        rw [← seen]
        generalize view t = u at acts
        cases acts
        assumption
      obtain ⟨e',refused⟩ := @updateRefused _ _ buf sound.laid valid.1 absent
      rw [run] at refused
      cases refused
      exact .updateRefused absent

theorem runSound (sound : Sound s) (run : Relation.ReflTransGen Step s t) : Sound t ∧ SameLayout s t := by
  induction run with
  | refl => exact ⟨sound,SameLayout.refl s⟩
  | tail _ step ih =>
    obtain ⟨op,valid,rfl⟩ := step
    obtain ⟨_,sound',same⟩ := opSound ih.1 valid
    exact ⟨sound',ih.2.trans same⟩

end Steps

section Created
variable {recordSize : Int} {file : RmFile} {filename : String}

theorem createdSound (ok : createFile recordSize = .ok file) : Sound (openFile filename file) ∧
    (∀ rid, records (openFile filename file) rid = none) ∧
    (openFile filename file).fileHdr.recordSize = recordSize.toNat := by
  rw [createFile] at ok
  split at ok
  · cases ok
  rename_i accepted
  have bounds : 1 ≤ recordSize ∧ recordSize ≤ 512 := by
    simp only [RmManager.rmMaxRecordSize] at accepted
    omega
  obtain rfl := Except.ok.inj ok
  let hdr : RmFileHdr := ⟨recordSize.toNat,1,RmManager.numRecordsPerPage recordSize.toNat,rmNoPage,
    (RmManager.numRecordsPerPage recordSize.toNat+RmManager.bitmapWidth-1)/RmManager.bitmapWidth⟩
  have count : RmManager.numRecordsPerPage recordSize.toNat*(1+recordSize.toNat*8) ≤ 32601 := by
    rw [RmManager.numRecordsPerPage,RmManager.bitmapWidth,pageSize,RmManager.rmFileHdrSize]
    exact Nat.div_mul_le_self _ _
  rw [Nat.mul_add,← Nat.mul_assoc] at count
  have laid : Laid hdr := by
    refine ⟨?_,?_⟩
    · simp only [hdr,RmManager.bitmapWidth]
      omega
    · simp only [hdr,slots,bitmap,offsetPageHdr,rmPageHdrSize,RmManager.bitmapWidth,pageSize]
      omega
  have read : RmFileHdr.ofBytes hdr.bytes = hdr :=
    headerRead (by simp only [hdr,pageSize]; omega) laid (by simp [hdr,rmNoPage]) (by simp [hdr]) (by simp [hdr])
  have abstract : Record.RmManager.createFile recordSize =
      .ok ⟨⟨recordSize.toNat,1,RmManager.numRecordsPerPage recordSize.toNat,rmNoPage⟩,fun _ => none⟩ := by
    rw [Record.RmManager.createFile,if_neg accepted]
  have opened : openFile filename ⟨hdr.bytes,fun _ => none⟩ = ⟨filename,hdr,fun _ => none,1⟩ := by
    rw [openFile]
    dsimp only
    rw [read]
  have same : view ⟨filename,hdr,fun _ => none,1⟩ = Record.RmManager.openFile filename
      ⟨⟨recordSize.toNat,1,RmManager.numRecordsPerPage recordSize.toNat,rmNoPage⟩,fun _ => none⟩ := rfl
  have sound : Sound (openFile filename ⟨hdr.bytes,fun _ => none⟩) := by
    rw [opened]
    exact ⟨laid,same ▸ RmManager.createdWell abstract filename,by simp [hdr]⟩
  refine ⟨sound,?_,?_⟩
  · intro rid
    rw [← recordsSeen sound,opened,same]
    exact RmManager.createdEmpty abstract filename rid
  · exact (congrArg (fun s => s.fileHdr.recordSize) opened)

end Created

section Scan
variable {s : RmFileHandle}

theorem seekSeen (laid : Laid s.fileHdr) (fuel : Nat) {p slotNo : Int} (low : (slotNo+1).toNat ≤ s.fileHdr.numRecordsPerPage) :
    RmScan.seek s fuel p slotNo = Record.RmScan.seek (view s) fuel p slotNo := by
  induction fuel generalizing p slotNo with
  | zero => rfl
  | succ fuel ih =>
    have numPages : (view s).fileHdr.numPages = s.fileHdr.numPages := rfl
    have perPage : (view s).fileHdr.numRecordsPerPage = s.fileHdr.numRecordsPerPage := rfl
    rw [RmScan.seek,Record.RmScan.seek,numPages,perPage,fetchSeen]
    split
    · cases s.fetchPageHandle p with
      | error e => rfl
      | ok page =>
        simp only [bind,Except.bind,Except.map,nextRecordRun laid low]
        rw [ih (by simp)]
    · rfl

theorem nextSeen (laid : Laid s.fileHdr) {c : Rid} (low : (c.slotNo+1).toNat ≤ s.fileHdr.numRecordsPerPage) :
    RmScan.next s c = Record.RmScan.next (view s) c := by
  rw [RmScan.next,Record.RmScan.next,seekSeen laid _ low]
  rfl

theorem enumeratesSeen (laid : Laid s.fileHdr) {L : List Rid} {c : Rid}
    (small : ∀ r ∈ L, (r.slotNo+1).toNat ≤ s.fileHdr.numRecordsPerPage)
    (enumerates : (Record.RmScan.scan (view s)).Enumerates c L) : (RmScan.scan s).Enumerates c L := by
  induction L generalizing c with
  | nil => exact enumerates
  | cons r rest ih =>
    obtain ⟨going,here,d,step,later⟩ := enumerates
    obtain rfl : c = r := Except.ok.inj here
    exact ⟨going,here,d,(nextSeen laid (small c List.mem_cons_self)).trans step,
      ih (fun x mem => small x (List.mem_cons_of_mem c mem)) later⟩

theorem scanSeen (sound : Sound s) : ∃ start rids, RmScan.begin s = .ok start ∧ (RmScan.scan s).Enumerates start rids ∧
    rids.Pairwise Record.RmScan.Before ∧ rids.Nodup ∧ ∀ rid, rid ∈ rids ↔ records s rid ≠ none := by
  obtain ⟨start,run,enumerates⟩ := Record.RmScan.scanEnumerates sound.well
  have members (rid : Rid) : rid ∈ Record.RmScan.rids (view s) ↔ records s rid ≠ none := by
    rw [Record.RmScan.ridsMem,recordsSeen sound,← Option.isSome_iff_exists,Option.isSome_iff_ne_none]
  refine ⟨start,Record.RmScan.rids (view s),?_,enumeratesSeen sound.laid ?_ enumerates,Record.RmScan.pagesRidsBefore,
    Record.RmScan.ridsNodup _,members⟩
  · rw [← run,RmScan.begin,Record.RmScan.begin,nextSeen sound.laid (by simp)]
    rfl
  · intro r mem
    have present := (members r).mp mem
    rw [records] at present
    by_cases inside : InSlots s r
    · obtain ⟨low,high⟩ := inside
      omega
    · rw [if_neg inside] at present
      exact absurd rfl present

end Scan

structure Answers (s : RmFileHandle) (rid : Rid) : Prop where
  found : ∀ b, s.getRecord rid = .ok b ↔ records s rid = some b
  missing : records s rid = none → ∃ e, s.getRecord rid = .error (.error e)
  present : s.isRecord rid = .ok true ↔ records s rid ≠ none
  tested : HasPage s rid.pageNo → s.isRecord rid = .ok (records s rid).isSome

theorem answers {s : RmFileHandle} {rid : Rid} (sound : Sound s) (inside : InSlots s rid) : Answers s rid := by
  have tested : (∃ e, s.isRecord rid = .error e) ∧ records s rid = none ∧ ¬HasPage s rid.pageNo ∨
      s.isRecord rid = .ok (records s rid).isSome := by
    rw [records,if_pos inside,RmFileHandle.isRecord,RmFileHandle.getRecord]
    cases fetched : s.fetchPageHandle rid.pageNo with
    | error e =>
      refine .inl ⟨⟨e,rfl⟩,rfl,?_⟩
      intro has
      obtain ⟨page,held⟩ := fetchHas sound has
      rw [fetched] at held
      cases held
    | ok page =>
      obtain ⟨isSet,_⟩ := @isSetIn s rid page sound.laid inside.1 inside.2
      obtain ⟨low,high⟩ := inside
      have last := @slotEnd rid.slotNo.toNat s.fileHdr.numRecordsPerPage s.fileHdr.recordSize (by omega)
      have within := sound.laid.inside
      refine .inr ?_
      simp only [bind,Except.bind,isSet,readSlot,getSlot]
      rw [loadRun (by omega)]
      cases bit page rid.slotNo.toNat <;> rfl
  refine ⟨?_,?_,?_,?_⟩
  · intro b
    rw [records,if_pos inside]
    cases s.getRecord rid <;> simp
  · intro absent
    obtain ⟨e,run⟩ := @getRecordAbsent (view s) rid ∅ sound.well inside (by rw [recordsSeen sound,absent])
    exact ⟨e,by rw [← getRecordSeen sound.laid inside,run]⟩
  · rcases tested with ⟨⟨e,failed⟩,absent,_⟩ | known
    · rw [failed,absent]
      simp
    · rw [known]
      cases records s rid <;> simp
  · intro has
    rcases tested with ⟨_,_,outside⟩ | known
    · exact absurd has outside
    · exact known

theorem recordFileIsMap {recordSize : Int} {file : RmFile} {filename : String} {s : RmFileHandle}
    (ok : createFile recordSize = .ok file) (run : Relation.ReflTransGen Step (openFile filename file) s) :
    (∀ rid, records (openFile filename file) rid = none) ∧ s.fileHdr.recordSize = recordSize.toNat ∧
    (∀ op, RmOp.Valid s op → Acts s op (RmOp.exec op s)) ∧ (∀ rid, InSlots s rid → Answers s rid) ∧
    ∃ start rids, RmScan.begin s = .ok start ∧ (RmScan.scan s).Enumerates start rids ∧
      rids.Pairwise Record.RmScan.Before ∧ rids.Nodup ∧ ∀ rid, rid ∈ rids ↔ records s rid ≠ none := by
  obtain ⟨sound,empty,size⟩ := @createdSound _ _ filename ok
  obtain ⟨sound',same⟩ := runSound sound run
  exact ⟨empty,same.recordSize.trans size,fun op valid => (opSound sound' valid).1,fun rid inside => answers sound' inside,
    scanSeen sound'⟩

def rowOps : List RmOp :=
  List.replicate 7 (.insert (List.replicate 512 1)) ++
    [.insert (List.replicate 512 2),.delete ⟨1,3⟩,.insert (List.replicate 512 3),.update ⟨2,0⟩ (List.replicate 512 4),.reopen,
      .insertAt ⟨2,6⟩ (List.replicate 512 5),.delete ⟨1,0⟩]

theorem twoPagesAsMap : ∃ file s, createFile 512 = .ok file ∧ s = runOps (openFile "t" file) rowOps ∧
    records (openFile "t" file) ⟨1,3⟩ = none ∧ records s ⟨1,3⟩ = some (List.replicate 512 3) ∧
    records s ⟨2,0⟩ = some (List.replicate 512 4) ∧ records s ⟨1,0⟩ = none ∧ Answers s ⟨2,6⟩ ∧
    (∀ op, RmOp.Valid s op → Acts s op (RmOp.exec op s)) ∧
    ∃ start rids, RmScan.begin s = .ok start ∧ (RmScan.scan s).Enumerates start rids ∧ rids.Nodup ∧
      ∀ rid, rid ∈ rids ↔ records s rid ≠ none := by
  obtain ⟨file,ok⟩ : ∃ file, createFile 512 = .ok file := ⟨_,rfl⟩
  have valid : ValidRun (openFile "t" file) rowOps := by
    obtain rfl := Except.ok.inj ok
    decide +kernel
  obtain ⟨empty,_,acts,answers,start,rids,begun,scanned,_,once,members⟩ := recordFileIsMap ok (reached valid)
  refine ⟨file,_,ok,rfl,empty _,?_,?_,?_,answers ⟨2,6⟩ ?_,acts,start,rids,begun,scanned,once,members⟩
  all_goals
    obtain rfl := Except.ok.inj ok
    decide +kernel

end Rmdb.Record.Paged
