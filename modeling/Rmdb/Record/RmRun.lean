import Rmdb.Record.RmManager

/-! Runs of operations on a record file: each either does what it says to the map of the records
or throws and changes nothing. -/
namespace Rmdb.Record
open RmFileHandle

inductive RmOp where
  | insert (buf : Bytes)
  | insertAt (rid : Rid) (buf : Bytes)
  | delete (rid : Rid)
  | update (rid : Rid) (buf : Bytes)
  | reopen
  deriving DecidableEq, Repr

def InSlots (s : RmFileHandle) (rid : Rid) : Prop := 0 ≤ rid.slotNo ∧ rid.slotNo < s.fileHdr.numRecordsPerPage

namespace RmOp

def exec : RmOp → M RmFileHandle (Option Rid)
  | .insert buf => do
    let rid ← insertRecord buf
    pure (some rid)
  | .insertAt rid buf => do
    insertRecordAt rid buf
    pure none
  | .delete rid => do
    deleteRecord rid
    pure none
  | .update rid buf => do
    updateRecord rid buf
    pure none
  | .reopen => do
    modify fun s => RmManager.openFile s.fileName (RmManager.closeFile s)
    pure none

def Valid (s : RmFileHandle) : RmOp → Prop
  | .insert _ => True
  | .insertAt rid _ => s.HasPage rid.pageNo ∧ InSlots s rid
  | .delete rid => InSlots s rid
  | .update rid _ => InSlots s rid
  | .reopen => True

end RmOp

section Pages
variable {α β : Type}

def KeepsPages (x : M RmFileHandle α) : Prop := ∀ s, (after (x s)).fileHdr.numPages = s.fileHdr.numPages

theorem keepsBind {x : M RmFileHandle α} {f : α → M RmFileHandle β} (first : KeepsPages x) (next : ∀ a, KeepsPages (f a)) :
    KeepsPages (x >>= f) := by
  intro s
  have one := first s
  simp only [bind,EStateM.bind]
  cases run : x s with
  | ok a t =>
    rw [run] at one
    exact (next a t).trans one
  | error e t =>
    rw [run] at one
    exact one

theorem keepsRead {x : M RmFileHandle α} (same : ∀ s, after (x s) = s) : KeepsPages x := fun s => by rw [same s]

theorem keepsOfExcept (x : Except Fault α) : KeepsPages (ofExcept x) := keepsRead fun s => by cases x <;> rfl

theorem keepsFetch (p : Int) : KeepsPages (fetch p) := keepsBind (fun _ => rfl) fun _ => keepsOfExcept _

theorem keepsUpdate (rid : Rid) (buf : Bytes) : KeepsPages (updateRecord rid buf) := by
  refine keepsBind (keepsFetch _) fun page => keepsBind (keepsOfExcept _) fun old => ?_
  cases old with
  | none => exact fun _ => rfl
  | some _ => exact fun _ => rfl

theorem keepsDelete (rid : Rid) : KeepsPages (deleteRecord rid) := by
  refine keepsBind (keepsFetch _) fun page => keepsBind (keepsOfExcept _) fun old => ?_
  cases old with
  | none => exact fun _ => rfl
  | some _ =>
    refine keepsBind (fun _ => rfl) fun s => ?_
    dsimp only
    split
    · exact keepsBind (fun _ => rfl) fun _ => fun _ => rfl
    · exact fun _ => rfl

theorem keepsUnlink (target : Int) (fuel : Nat) (prev : Int) : KeepsPages (unlink target fuel prev) := by
  induction fuel generalizing prev with
  | zero => exact fun _ => rfl
  | succ fuel ih =>
    rw [unlink]
    split
    · exact fun _ => rfl
    · refine keepsBind (keepsFetch _) fun page => ?_
      split
      · exact keepsBind (keepsFetch _) fun _ => keepsBind (fun _ => rfl) fun _ => fun _ => rfl
      · exact ih _

theorem keepsInsertAt (rid : Rid) (buf : Bytes) : KeepsPages (insertRecordAt rid buf) := by
  refine keepsBind (keepsFetch _) fun page => keepsBind (keepsOfExcept _) fun old => ?_
  refine keepsBind (fun _ => rfl) fun _ => keepsBind (fun _ => rfl) fun s => ?_
  generalize (if old = none then page.numRecords+1 else page.numRecords) = count
  dsimp only
  split
  · split
    · exact keepsBind (fun _ => rfl) fun _ => fun _ => rfl
    · exact keepsUnlink _ _ _
  · exact fun _ => rfl

theorem keepsAfter {x : M RmFileHandle α} {f : α → M RmFileHandle β} {s : RmFileHandle} (next : ∀ a, KeepsPages (f a)) :
    (after ((x >>= f) s)).fileHdr.numPages = (after (x s)).fileHdr.numPages := by
  simp only [bind,EStateM.bind]
  cases x s with
  | ok a t => exact next a t
  | error e t => rfl

theorem insertNumPages (s : RmFileHandle) (buf : Bytes) : (after (insertRecord buf s)).fileHdr.numPages =
    if s.fileHdr.firstFreePageNo = rmNoPage then s.fd2pageno+1 else s.fileHdr.numPages := by
  have created : (after (createPageHandle s)).fileHdr.numPages =
      if s.fileHdr.firstFreePageNo = rmNoPage then s.fd2pageno+1 else s.fileHdr.numPages := by
    rw [createPageHandle,getBind]
    split
    · rfl
    · exact keepsBind (keepsFetch _) (fun _ => fun _ => rfl) s
  rw [← created,insertRecord]
  refine keepsAfter fun found => keepsBind (fun _ => rfl) fun s => ?_
  obtain ⟨p,page⟩ := found
  dsimp only
  split
  · exact fun _ => rfl
  · split
    · exact keepsBind (fun _ => rfl) fun _ => keepsBind (fun _ => rfl) fun _ => fun _ => rfl
    · exact keepsBind (fun _ => rfl) fun _ => fun _ => rfl

end Pages

section Absent
variable {s : RmFileHandle} {rid : Rid} {lost : Set Int}

theorem absentCases (well : s.WellUpTo lost) (inside : InSlots s rid) (absent : s.records rid = none) :
    ¬s.HasPage rid.pageNo ∨ ∃ page, s.HasPage rid.pageNo ∧ s.pages rid.pageNo = some page ∧ page.slot rid.slotNo = .ok none := by
  obtain ⟨chain,well⟩ := well
  by_cases has : s.HasPage rid.pageNo
  · obtain ⟨page,here,counted⟩ := well.page _ has
    obtain ⟨nonneg,high⟩ := inside
    have within : rid.slotNo.toNat < page.slots.length := by
      rw [counted.length]
      omega
    have slot := List.getElem?_eq_getElem within
    rw [recordsRead,if_pos ⟨has,nonneg⟩,here] at absent
    simp only [Option.map_some,Option.bind_some,slot,Option.join_some] at absent
    rw [absent] at slot
    exact .inr ⟨page,has,here,slotAt nonneg slot⟩
  · exact .inl has

theorem getRecordAbsent (well : s.WellUpTo lost) (inside : InSlots s rid) (absent : s.records rid = none) :
    ∃ e, s.getRecord rid = .error (.error e) := by
  rcases absentCases well inside absent with outside | ⟨page,has,here,slot⟩
  · exact ⟨_,by rw [getRecord,fetchOutside outside]; rfl⟩
  · refine ⟨.recordNotFound rid.pageNo rid.slotNo,?_⟩
    rw [getRecord,fetchHeld has here]
    simp only [bind,Except.bind,slot]

theorem fetchAbsent (outside : ¬s.HasPage rid.pageNo) :
    fetch rid.pageNo s = .error (.error (.pageNotExist s.fileName rid.pageNo)) s := by
  simp only [fetch,getBind,fetchOutside outside,ofExceptError]

theorem deleteRecordAbsent (well : s.WellUpTo lost) (inside : InSlots s rid) (absent : s.records rid = none) :
    ∃ e, deleteRecord rid s = .error (.error e) s := by
  rcases absentCases well inside absent with outside | ⟨page,has,here,slot⟩
  · exact ⟨_,by rw [deleteRecord,bindError (fetchAbsent outside)]⟩
  · refine ⟨.recordNotFound rid.pageNo rid.slotNo,?_⟩
    rw [deleteRecord,bindEq (fetchRun has here),slot,bindEq (ofExceptOk none s)]
    rfl

theorem updateRecordAbsent {buf : Bytes} (well : s.WellUpTo lost) (inside : InSlots s rid) (absent : s.records rid = none) :
    ∃ e, updateRecord rid buf s = .error (.error e) s := by
  rcases absentCases well inside absent with outside | ⟨page,has,here,slot⟩
  · exact ⟨_,by rw [updateRecord,bindError (fetchAbsent outside)]⟩
  · refine ⟨.recordNotFound rid.pageNo rid.slotNo,?_⟩
    rw [updateRecord,bindEq (fetchRun has here),slot,bindEq (ofExceptOk none s)]
    rfl

end Absent

section Step
variable {s : RmFileHandle} {op : RmOp} {lost : Set Int}

inductive Acts (s : RmFileHandle) : RmOp → EStateM.Result Fault RmFileHandle (Option Rid) → Prop where
  | inserted {buf : Bytes} {rid : Rid} {t : RmFileHandle} (fresh : s.records rid = none)
      (records : t.records = Function.update s.records rid (some buf)) : Acts s (.insert buf) (.ok (some rid) t)
  | insertedAt {buf : Bytes} {rid : Rid} {t : RmFileHandle}
      (records : t.records = Function.update s.records rid (some buf)) : Acts s (.insertAt rid buf) (.ok none t)
  | deleted {rid : Rid} {t : RmFileHandle} (present : s.records rid ≠ none)
      (records : t.records = Function.update s.records rid none) : Acts s (.delete rid) (.ok none t)
  | deleteRefused {rid : Rid} {e : RMDBError} (absent : s.records rid = none) : Acts s (.delete rid) (.error (.error e) s)
  | updated {buf : Bytes} {rid : Rid} {t : RmFileHandle} (present : s.records rid ≠ none)
      (records : t.records = Function.update s.records rid (some buf)) : Acts s (.update rid buf) (.ok none t)
  | updateRefused {buf : Bytes} {rid : Rid} {e : RMDBError} (absent : s.records rid = none) :
      Acts s (.update rid buf) (.error (.error e) s)
  | reopened : Acts s .reopen (.ok none s)

theorem opStep (well : s.WellUpTo lost) (valid : op.Valid s) : Acts s op (op.exec s) ∧
    (after (op.exec s)).WellUpTo lost ∧ s.Extends (after (op.exec s)) := by
  cases op with
  | insert buf =>
    obtain ⟨rid,t,run,well',fresh,records,extended⟩ := @insertRecordWell _ _ buf well
    have all : (RmOp.insert buf).exec s = .ok (some rid) t := by
      rw [RmOp.exec,bindEq run]
      rfl
    rw [all]
    exact ⟨.inserted fresh records,well',extended⟩
  | insertAt rid buf =>
    obtain ⟨has,low,high⟩ := valid
    obtain ⟨t,run,well',records,extended⟩ := @insertRecordAtWell _ _ _ buf well has low high
    have all : (RmOp.insertAt rid buf).exec s = .ok none t := by
      rw [RmOp.exec,bindEq run]
      rfl
    rw [all]
    exact ⟨.insertedAt records,well',extended⟩
  | delete rid =>
    cases present : s.records rid with
    | none =>
      obtain ⟨e,run⟩ := deleteRecordAbsent well valid present
      have all : (RmOp.delete rid).exec s = .error (.error e) s := by rw [RmOp.exec,bindError run]
      rw [all]
      exact ⟨.deleteRefused present,well,Extends.refl s⟩
    | some b =>
      obtain ⟨t,run,well',records,extended⟩ := deleteRecordWell well present
      have all : (RmOp.delete rid).exec s = .ok none t := by
        rw [RmOp.exec,bindEq run]
        rfl
      rw [all]
      exact ⟨.deleted (by simp [present]) records,well',extended⟩
  | update rid buf =>
    cases present : s.records rid with
    | none =>
      obtain ⟨e,run⟩ := @updateRecordAbsent _ _ _ buf well valid present
      have all : (RmOp.update rid buf).exec s = .error (.error e) s := by rw [RmOp.exec,bindError run]
      rw [all]
      exact ⟨.updateRefused present,well,Extends.refl s⟩
    | some b =>
      obtain ⟨t,run,well',records,extended⟩ := @updateRecordWell _ _ _ _ buf well present
      have all : (RmOp.update rid buf).exec s = .ok none t := by
        rw [RmOp.exec,bindEq run]
        rfl
      rw [all]
      exact ⟨.updated (by simp [present]) records,well',extended⟩
  | reopen =>
    have all : RmOp.reopen.exec s = .ok none s := by
      rw [RmOp.exec,modifyBind,RmManager.reopened well]
      rfl
    rw [all]
    exact ⟨.reopened,well,Extends.refl s⟩

def FileStep (s t : RmFileHandle) : Prop := ∃ op, RmOp.Valid s op ∧ t = after (op.exec s)

theorem stepWell {t : RmFileHandle} (well : s.WellUpTo lost) (step : FileStep s t) : t.WellUpTo lost ∧ s.Extends t := by
  obtain ⟨op,valid,rfl⟩ := step
  exact (opStep well valid).2

theorem stepsWell {t : RmFileHandle} (well : s.WellUpTo lost) (steps : Relation.ReflTransGen FileStep s t) :
    t.WellUpTo lost ∧ s.Extends t := by
  induction steps with
  | refl => exact ⟨well,Extends.refl s⟩
  | tail _ step ih =>
    obtain ⟨well',extended⟩ := stepWell ih.1 step
    exact ⟨well',ih.2.trans extended⟩

end Step
end Rmdb.Record
