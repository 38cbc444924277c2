import Rmdb.Record.RmFileBytes

/-! The operations on the bytes of a record file do what the operations on its records do. -/
namespace Rmdb.Record.Paged
open Storage (PageData zeroPage)
open RmPageHandle

def view (s : RmFileHandle) : Record.RmFileHandle where
  fileName := s.fileName
  fileHdr := ⟨s.fileHdr.recordSize,s.fileHdr.numPages,s.fileHdr.numRecordsPerPage,s.fileHdr.firstFreePageNo⟩
  pages p := (s.pages p).map (holds s.fileHdr)
  fd2pageno := s.fd2pageno

structure SameLayout (s t : RmFileHandle) : Prop where
  recordSize : t.fileHdr.recordSize = s.fileHdr.recordSize
  perPage : t.fileHdr.numRecordsPerPage = s.fileHdr.numRecordsPerPage
  bitmapSize : t.fileHdr.bitmapSize = s.fileHdr.bitmapSize

structure Sound (s : RmFileHandle) : Prop where
  laid : Laid s.fileHdr
  well : (view s).Well
  fits : s.fileHdr.numPages < 2^31

section Mirrors
variable {α β : Type}

def Mirrors (x : M RmFileHandle α) (y : M Record.RmFileHandle α) (s : RmFileHandle) : Prop :=
  match x s with
  | .ok a t => y (view s) = .ok a (view t) ∧ SameLayout s t
  | .error e t => y (view s) = .error e (view t) ∧ SameLayout s t

variable {s t u : RmFileHandle} {x x' : M RmFileHandle α} {y y' : M Record.RmFileHandle α}

theorem SameLayout.refl (s : RmFileHandle) : SameLayout s s := ⟨rfl,rfl,rfl⟩

theorem SameLayout.trans (one : SameLayout s t) (two : SameLayout t u) : SameLayout s u :=
  ⟨two.recordSize.trans one.recordSize,two.perPage.trans one.perPage,two.bitmapSize.trans one.bitmapSize⟩

theorem SameLayout.laid (same : SameLayout s t) (laid : Laid s.fileHdr) : Laid t.fileHdr := by
  obtain ⟨bits,inside⟩ := laid
  refine ⟨?_,?_⟩
  · rw [same.perPage,same.bitmapSize]
    exact bits
  · rw [slots,same.bitmapSize,same.perPage,same.recordSize]
    exact inside

theorem mirrorsFrom (one : x s = x' t) (two : y (view s) = y' (view t)) (same : SameLayout s t)
    (mirrors : Mirrors x' y' t) : Mirrors x y s := by
  rw [Mirrors] at mirrors ⊢
  rw [one,two]
  cases last : x' t with
  | ok a u =>
    rw [last] at mirrors
    exact ⟨mirrors.1,same.trans mirrors.2⟩
  | error e u =>
    rw [last] at mirrors
    exact ⟨mirrors.1,same.trans mirrors.2⟩

theorem mirrorsRun (one : x s = x' s) (two : y (view s) = y' (view s)) (mirrors : Mirrors x' y' s) : Mirrors x y s :=
  mirrorsFrom one two (SameLayout.refl s) mirrors

theorem mirrorsError {e : Fault} (one : x s = .error e s) (two : y (view s) = .error e (view s)) : Mirrors x y s := by
  rw [Mirrors,one]
  exact ⟨two,SameLayout.refl s⟩

theorem mirrorsPure (a : α) (s : RmFileHandle) : Mirrors (pure a) (pure a) s := ⟨rfl,SameLayout.refl s⟩

theorem mirrorsBind {f : α → M RmFileHandle β} {g : α → M Record.RmFileHandle β} (first : Mirrors x y s)
    (next : ∀ a t, x s = .ok a t → Mirrors (f a) (g a) t) : Mirrors (x >>= f) (y >>= g) s := by
  rw [Mirrors] at first
  cases run : x s with
  | ok a t =>
    rw [run] at first
    obtain ⟨second,same⟩ := first
    have later := next a t run
    rw [Mirrors] at later ⊢
    rw [bindEq run,bindEq second]
    cases last : f a t with
    | ok b u =>
      rw [last] at later
      exact ⟨later.1,same.trans later.2⟩
    | error e u =>
      rw [last] at later
      exact ⟨later.1,same.trans later.2⟩
  | error e t =>
    rw [run] at first
    rw [Mirrors,bindError run,bindError first.1]
    exact ⟨rfl,first.2⟩

theorem mirrorsSetPage (p : Int) (page : PageData) (s : RmFileHandle) :
    Mirrors (RmFileHandle.setPage p page) (Record.RmFileHandle.setPage p (holds s.fileHdr page)) s := by
  refine ⟨?_,⟨rfl,rfl,rfl⟩⟩
  simp only [Record.RmFileHandle.setPage,modifyRun,view,EStateM.Result.ok.injEq,Record.RmFileHandle.mk.injEq,true_and,
    and_true]
  funext q
  by_cases same : q = p <;> simp [same]

theorem mirrorsSetFirstFree (p : Int) (s : RmFileHandle) :
    Mirrors (RmFileHandle.setFirstFree p) (Record.RmFileHandle.setFirstFree p) s := ⟨rfl,⟨rfl,rfl,rfl⟩⟩

end Mirrors

section Page
variable {s : RmFileHandle} {hdr : RmFileHdr} {page : PageData} {p : Int} {i : Nat}

theorem fetchSeen (s : RmFileHandle) (p : Int) :
    (view s).fetchPageHandle p = (s.fetchPageHandle p).map (holds s.fileHdr) := by
  have numPages : (view s).fileHdr.numPages = s.fileHdr.numPages := rfl
  rw [Record.RmFileHandle.fetchPageHandle,RmFileHandle.fetchPageHandle,numPages]
  by_cases outside : p < rmFirstRecordPage ∨ s.fileHdr.numPages ≤ p
  · rw [if_pos outside,if_pos outside]
    rfl
  · rw [if_neg outside,if_neg outside]
    cases here : s.pages p with
    | none => simp [view,here,Except.map]
    | some page => simp [view,here,Except.map]

theorem fetchOk (fetched : s.fetchPageHandle p = .ok page) : (view s).HasPage p ∧ s.pages p = some page := by
  rw [RmFileHandle.fetchPageHandle] at fetched
  split at fetched
  · cases fetched
  · rename_i inside
    refine ⟨?_,?_⟩
    · simp only [Record.RmFileHandle.HasPage,view]
      omega
    · cases here : s.pages p with
      | none => simp [here] at fetched
      | some page' =>
        rw [here] at fetched
        exact congrArg some (Except.ok.inj fetched)

theorem fetchHas (sound : Sound s) (has : (view s).HasPage p) : ∃ page, s.fetchPageHandle p = .ok page := by
  obtain ⟨chain,well⟩ := sound.well
  obtain ⟨page,here,_⟩ := well.page p has
  obtain ⟨page,stored,_⟩ := Option.map_eq_some_iff.mp here
  refine ⟨page,?_⟩
  obtain ⟨low,high⟩ := has
  simp only [view] at high
  rw [RmFileHandle.fetchPageHandle,if_neg (by omega),stored]

theorem fetchOkRun (fetched : s.fetchPageHandle p = .ok page) : RmFileHandle.fetch p s = .ok page s ∧
    Record.RmFileHandle.fetch p (view s) = .ok (holds s.fileHdr page) (view s) := by
  refine ⟨?_,?_⟩
  · simp only [RmFileHandle.fetch,getBind,fetched,ofExceptOk]
  · simp only [Record.RmFileHandle.fetch,getBind,fetchSeen,fetched,Except.map,ofExceptOk]

theorem fetchErrorRun {e : Fault} (failed : s.fetchPageHandle p = .error e) : RmFileHandle.fetch p s = .error e s ∧
    Record.RmFileHandle.fetch p (view s) = .error e (view s) := by
  refine ⟨?_,?_⟩
  · simp only [RmFileHandle.fetch,getBind,failed,ofExceptError]
  · simp only [Record.RmFileHandle.fetch,getBind,fetchSeen,failed,Except.map,ofExceptError]

theorem holdsSlot (small : i < hdr.numRecordsPerPage) :
    (holds hdr page).slot i = .ok (if bit page i then some (cell hdr page i) else none) := by
  rw [RmPage.slot,if_neg (by omega),Int.toNat_natCast]
  simp [holds,small]

theorem slotsStore {bits bits' : Nat → Bool} {cells cells' : Nat → Bytes} {n : Nat}
    (sameBits : ∀ j, j ≠ i → bits' j = bits j) (sameCells : ∀ j, j ≠ i → cells' j = cells j) :
    ((List.range n).map fun j => if bits' j then some (cells' j) else none) =
      ((List.range n).map fun j => if bits j then some (cells j) else none).set i
        (if bits' i then some (cells' i) else none) := by
  apply List.ext_getElem?
  intro j
  by_cases here : j = i
  · subst here
    by_cases inside : j < n
    · simp [inside]
    · rw [List.getElem?_eq_none (by simpa using inside),List.getElem?_eq_none (by simpa using inside)]
  · rw [List.getElem?_set_ne (Ne.symm here)]
    by_cases inside : j < n
    · simp [inside,sameBits j here,sameCells j here]
    · rw [List.getElem?_eq_none (by simpa using inside),List.getElem?_eq_none (by simpa using inside)]

theorem readsStored {page' : PageData} {next count : Int} {bits : Nat → Bool} {cells : Nat → Bytes}
    (reads : Reads hdr page' next count bits cells) (sameBits : ∀ j, j ≠ i → bits j = bit page j)
    (sameCells : ∀ j, j ≠ i → cells j = cell hdr page j) :
    holds hdr page' = ⟨next,count,(holds hdr page).slots.set i (if bits i then some (cells i) else none)⟩ := by
  rw [reads.holds,slotsStore sameBits sameCells]
  rfl

theorem linkFits (page : PageData) : -2^31 ≤ nextFreePageNo page ∧ nextFreePageNo page < 2^31 := by
  have width : (Lib.Block.peek page offsetPageHdr 4).length = 4 := Lib.Block.peekLength (by decide)
  have low := @leIntLow (Lib.Block.peek page offsetPageHdr 4)
  have high := @leIntHigh (Lib.Block.peek page offsetPageHdr 4)
  rw [width] at low high
  rw [nextFreePageNo]
  omega

theorem Sound.counted (sound : Sound s) (fetched : s.fetchPageHandle p = .ok page) :
    (holds s.fileHdr page).Counted s.fileHdr.numRecordsPerPage := by
  obtain ⟨chain,well⟩ := sound.well
  obtain ⟨has,here⟩ := fetchOk fetched
  obtain ⟨page',there,counted⟩ := well.page p has
  simp only [view,here,Option.map_some,Option.some.injEq] at there
  exact there ▸ counted

theorem Laid.small (laid : Laid hdr) : hdr.bitmapSize ≤ pageSize ∧ hdr.numRecordsPerPage ≤ 8*pageSize := by
  obtain ⟨bits,inside⟩ := laid
  simp only [slots] at inside
  omega

theorem Sound.countFits (sound : Sound s) (fetched : s.fetchPageHandle p = .ok page) :
    0 ≤ numRecords page ∧ numRecords page ≤ 32768 := by
  have counted := sound.counted fetched
  have small := sound.laid.small.2
  have most := List.countP_le_length (p := Option.isSome) (l := (holds s.fileHdr page).slots)
  have count : numRecords page = (holds s.fileHdr page).slots.countP Option.isSome := counted.count
  rw [counted.length] at most
  rw [pageSize] at small
  omega

theorem Sound.headFits (sound : Sound s) : -2^31 ≤ s.fileHdr.firstFreePageNo ∧ s.fileHdr.firstFreePageNo < 2^31 := by
  obtain ⟨chain,well⟩ := sound.well
  have fits := sound.fits
  by_cases empty : s.fileHdr.firstFreePageNo = rmNoPage
  · rw [empty]
    decide
  · obtain ⟨rest,q,same,_⟩ := Lib.linkedHead well.linked empty
    obtain ⟨⟨low,high⟩,_⟩ := well.free s.fileHdr.firstFreePageNo (by rw [same]; exact List.mem_cons_self)
    simp only [rmFirstRecordPage,view] at low high
    omega

end Page

section Operations
variable {s : RmFileHandle} {rid : Rid} {buf : Bytes}

theorem isSetIn {page : PageData} (laid : Laid s.fileHdr) (low : 0 ≤ rid.slotNo)
    (high : rid.slotNo < s.fileHdr.numRecordsPerPage) : Bitmap.isSet page rid.slotNo = .ok (bit page rid.slotNo.toNat) ∧
      (holds s.fileHdr page).slot rid.slotNo =
        .ok (if bit page rid.slotNo.toNat then some (cell s.fileHdr page rid.slotNo.toNat) else none) := by
  obtain ⟨i,same⟩ := Int.eq_ofNat_of_zero_le low
  rw [same] at high ⊢
  rw [Int.toNat_natCast]
  exact ⟨isSetRun laid (by omega),holdsSlot (by omega)⟩

theorem mirrorsPresent {k : PageData → M RmFileHandle Unit} {l : RmPage → Bytes → M Record.RmFileHandle Unit}
    (laid : Laid s.fileHdr) (low : 0 ≤ rid.slotNo) (high : rid.slotNo < s.fileHdr.numRecordsPerPage)
    (next : ∀ page, s.fetchPageHandle rid.pageNo = .ok page → bit page rid.slotNo.toNat = true →
      Mirrors (k page) (l (holds s.fileHdr page) (cell s.fileHdr page rid.slotNo.toNat)) s) :
    Mirrors (do
      let page ← RmFileHandle.fetch rid.pageNo
      let isSet ← ofExcept (Bitmap.isSet page rid.slotNo)
      if isSet then k page else raise (.recordNotFound rid.pageNo rid.slotNo)) (do
      let page ← Record.RmFileHandle.fetch rid.pageNo
      match ← ofExcept (page.slot rid.slotNo) with
      | none => raise (.recordNotFound rid.pageNo rid.slotNo)
      | some b => l page b) s := by
  cases fetched : s.fetchPageHandle rid.pageNo with
  | error e =>
    obtain ⟨one,two⟩ := fetchErrorRun fetched
    exact mirrorsError (by rw [bindError one]) (by rw [bindError two])
  | ok page =>
    obtain ⟨one,two⟩ := fetchOkRun fetched
    obtain ⟨isSet,slot⟩ := @isSetIn s rid page laid low high
    cases marked : bit page rid.slotNo.toNat with
    | false =>
      rw [marked] at isSet slot
      refine @mirrorsError _ _ _ _ (.error (.recordNotFound rid.pageNo rid.slotNo)) ?_ ?_
      · rw [bindEq one,isSet,bindEq (ofExceptOk _ s)]
        rfl
      · rw [bindEq two,slot,bindEq (ofExceptOk _ _)]
        rfl
    | true =>
      rw [marked] at isSet slot
      refine mirrorsRun ?_ ?_ (next page fetched marked)
      · rw [bindEq one,isSet,bindEq (ofExceptOk _ s)]
        rfl
      · rw [bindEq two,slot,bindEq (ofExceptOk _ _)]
        rfl

theorem updateMirrors (sound : Sound s) (low : 0 ≤ rid.slotNo) (high : rid.slotNo < s.fileHdr.numRecordsPerPage)
    (long : s.fileHdr.recordSize ≤ buf.length) : Mirrors (RmFileHandle.updateRecord rid buf)
      (Record.RmFileHandle.updateRecord rid (buf.take s.fileHdr.recordSize)) s := by
  refine mirrorsPresent sound.laid low high fun page fetched marked => ?_
  obtain ⟨i,same⟩ := Int.eq_ofNat_of_zero_le low
  rw [same] at marked ⊢
  rw [Int.toNat_natCast] at marked
  obtain ⟨written,write,reads⟩ := (readsSelf s.fileHdr page).writeSlot sound.laid (i := i) (by omega) long
  have stored : holds s.fileHdr written = (holds s.fileHdr page).store i (some (buf.take s.fileHdr.recordSize)) := by
    rw [readsStored reads (fun _ _ => rfl) fun j apart => Function.update_of_ne apart _ _,Function.update_self,marked]
    rfl
  rw [← stored]
  refine mirrorsRun ?_ rfl (mirrorsSetPage rid.pageNo written s)
  simp only [getBind,write,bindEq (ofExceptOk written s)]

theorem deleteMirrors (sound : Sound s) (low : 0 ≤ rid.slotNo) (high : rid.slotNo < s.fileHdr.numRecordsPerPage) :
    Mirrors (RmFileHandle.deleteRecord rid) (Record.RmFileHandle.deleteRecord rid) s := by
  refine mirrorsPresent sound.laid low high fun page fetched marked => ?_
  obtain ⟨i,same⟩ := Int.eq_ofNat_of_zero_le low
  rw [same] at marked ⊢
  rw [Int.toNat_natCast] at marked
  have counts := sound.countFits fetched
  have head := sound.headFits
  obtain ⟨unmarked,reset,one⟩ := (readsSelf s.fileHdr page).reset sound.laid (i := i) (by omega)
  obtain ⟨cleared,clear,two⟩ := @Reads.writeSlot _ _ _ _ _ _ i (List.replicate s.fileHdr.recordSize 0) sound.laid one
    (by omega) (by rw [List.length_replicate])
  have count : numRecords cleared = numRecords page := two.count
  obtain ⟨emptied,less,three⟩ := @Reads.setCount _ _ _ _ (numRecords page-1) _ _ two (by omega) (by omega)
  have stored : holds s.fileHdr emptied =
      ⟨nextFreePageNo page,numRecords page-1,(holds s.fileHdr page).slots.set i none⟩ := by
    rw [readsStored three (fun j apart => Function.update_of_ne apart _ _) fun j apart => Function.update_of_ne apart _ _,
      Function.update_self]
    rfl
  by_cases full : numRecords page = s.fileHdr.numRecordsPerPage
  · obtain ⟨released,link,four⟩ := @Reads.setNext _ _ _ _ s.fileHdr.firstFreePageNo _ _ three head.1 head.2
    have last : holds s.fileHdr released =
        {holds s.fileHdr emptied with nextFreePageNo := s.fileHdr.firstFreePageNo} := by
      rw [four.holds,three.holds]
    refine mirrorsRun ?_ ?_ (mirrorsBind (mirrorsSetPage rid.pageNo released s)
      fun _ t _ => mirrorsSetFirstFree rid.pageNo t)
    · simp only [getBind,reset,bindEq (ofExceptOk unmarked s),clear,bindEq (ofExceptOk cleared s),count,less,
        bindEq (ofExceptOk emptied s),if_pos full,link,bindEq (ofExceptOk released s)]
    · rw [last,stored]
      exact congrFun (if_pos full) _
  · refine mirrorsRun ?_ ?_ (mirrorsSetPage rid.pageNo emptied s)
    · simp only [getBind,reset,bindEq (ofExceptOk unmarked s),clear,bindEq (ofExceptOk cleared s),count,less,
        bindEq (ofExceptOk emptied s),if_neg full]
    · rw [stored]
      exact congrFun (if_neg full) _

theorem setNextHolds (hdr : RmFileHdr) (page : PageData) {v : Int} (low : -2^31 ≤ v) (high : v < 2^31) :
    ∃ page', setNextFreePageNo page v = .ok page' ∧ holds hdr page' = {holds hdr page with nextFreePageNo := v} := by
  obtain ⟨page',run,reads⟩ := (readsSelf hdr page).setNext low high
  exact ⟨page',run,reads.holds⟩

theorem noPageHolds (hdr : RmFileHdr) (page : PageData) : ∃ page', setNextFreePageNo page rmNoPage = .ok page' ∧
    holds hdr page' = {holds hdr page with nextFreePageNo := rmNoPage} := setNextHolds hdr page (by decide) (by decide)

theorem unlinkMirrors (target : Int) (fuel : Nat) (prev : Int) (s : RmFileHandle) :
    Mirrors (RmFileHandle.unlink target fuel prev) (Record.RmFileHandle.unlink target fuel prev) s := by
  induction fuel generalizing prev with
  | zero => exact mirrorsError rfl rfl
  | succ fuel ih =>
    rw [RmFileHandle.unlink,Record.RmFileHandle.unlink]
    by_cases ended : prev = rmNoPage
    · rw [if_pos ended,if_pos ended]
      exact mirrorsPure () s
    rw [if_neg ended,if_neg ended]
    cases fetched : s.fetchPageHandle prev with
    | error e =>
      obtain ⟨one,two⟩ := fetchErrorRun fetched
      exact mirrorsError (by rw [bindError one]) (by rw [bindError two])
    | ok page =>
      obtain ⟨one,two⟩ := fetchOkRun fetched
      refine mirrorsRun (bindEq one) (bindEq two) ?_
      have next : (holds s.fileHdr page).nextFreePageNo = nextFreePageNo page := rfl
      rw [next]
      by_cases found : nextFreePageNo page = target
      · rw [if_pos found,if_pos found]
        cases fetchedTarget : s.fetchPageHandle target with
        | error e =>
          obtain ⟨three,four⟩ := fetchErrorRun fetchedTarget
          exact mirrorsError (by rw [bindError three]) (by rw [bindError four])
        | ok behind =>
          obtain ⟨three,four⟩ := fetchOkRun fetchedTarget
          obtain ⟨relinked,relink,heldPrev⟩ := setNextHolds s.fileHdr page (linkFits behind).1 (linkFits behind).2
          obtain ⟨unlinked,unlink,heldTarget⟩ := noPageHolds s.fileHdr behind
          refine @mirrorsRun _ s _ (do
            RmFileHandle.setPage prev relinked
            RmFileHandle.setPage target unlinked) _ _ ?_ (bindEq four) ?_
          · rw [bindEq three,relink,bindEq (ofExceptOk relinked s),unlink]
            rfl
          · have stored := mirrorsSetPage prev relinked s
            rw [heldPrev] at stored
            refine mirrorsBind stored fun _ t run => ?_
            have same : t.fileHdr = s.fileHdr := by
              cases run
              rfl
            have last := mirrorsSetPage target unlinked t
            rw [same,heldTarget] at last
            exact last
      · rw [if_neg found,if_neg found]
        exact ih _

theorem filledMirrors (p : Int) (filled : PageData) : Mirrors (do
      RmFileHandle.setPage p filled
      if numRecords filled = s.fileHdr.numRecordsPerPage then
        if s.fileHdr.firstFreePageNo = p then
          RmFileHandle.setFirstFree (nextFreePageNo filled)
          let unlinked ← ofExcept (setNextFreePageNo filled rmNoPage)
          RmFileHandle.setPage p unlinked
        else RmFileHandle.unlink p (s.fileHdr.numPages.toNat+1) s.fileHdr.firstFreePageNo
      else pure ()) (do
      Record.RmFileHandle.setPage p (holds s.fileHdr filled)
      let now ← get
      if (holds s.fileHdr filled).numRecords = now.fileHdr.numRecordsPerPage then
        if now.fileHdr.firstFreePageNo = p then
          Record.RmFileHandle.setFirstFree (holds s.fileHdr filled).nextFreePageNo
          Record.RmFileHandle.setPage p {holds s.fileHdr filled with nextFreePageNo := rmNoPage}
        else Record.RmFileHandle.unlink p (now.fileHdr.numPages.toNat+1) now.fileHdr.firstFreePageNo
      else pure ()) s := by
  refine mirrorsBind (mirrorsSetPage p filled s) fun _ t run => ?_
  have same : t.fileHdr = s.fileHdr := by
    cases run
    rfl
  have perPage : (view t).fileHdr.numRecordsPerPage = s.fileHdr.numRecordsPerPage := by rw [← same]; rfl
  have first : (view t).fileHdr.firstFreePageNo = s.fileHdr.firstFreePageNo := by rw [← same]; rfl
  have numPages : (view t).fileHdr.numPages = s.fileHdr.numPages := by rw [← same]; rfl
  refine mirrorsRun rfl (getBind _ _) ?_
  rw [perPage,first,numPages]
  have count : (holds s.fileHdr filled).numRecords = numRecords filled := rfl
  rw [count]
  by_cases full : numRecords filled = s.fileHdr.numRecordsPerPage
  · rw [if_pos full,if_pos full]
    by_cases head : s.fileHdr.firstFreePageNo = p
    · rw [if_pos head,if_pos head]
      refine mirrorsBind (mirrorsSetFirstFree _ t) fun _ u run => ?_
      obtain ⟨unlinked,unlink,held⟩ := noPageHolds u.fileHdr filled
      have sameHolds : holds u.fileHdr filled = holds s.fileHdr filled := by
        cases run
        rw [← same]
        rfl
      have last := mirrorsSetPage p unlinked u
      rw [held,sameHolds] at last
      exact mirrorsRun (by rw [unlink,bindEq (ofExceptOk unlinked u)]) rfl last
    · rw [if_neg head,if_neg head]
      exact unlinkMirrors ..
  · rw [if_neg full,if_neg full]
    exact mirrorsPure () t

theorem insertAtMirrors (sound : Sound s) (low : 0 ≤ rid.slotNo) (high : rid.slotNo < s.fileHdr.numRecordsPerPage)
    (long : s.fileHdr.recordSize ≤ buf.length) : Mirrors (RmFileHandle.insertRecordAt rid buf)
      (Record.RmFileHandle.insertRecordAt rid (buf.take s.fileHdr.recordSize)) s := by
  cases fetched : s.fetchPageHandle rid.pageNo with
  | error e =>
    obtain ⟨one,two⟩ := fetchErrorRun fetched
    exact mirrorsError (by rw [RmFileHandle.insertRecordAt,bindError one])
      (by rw [Record.RmFileHandle.insertRecordAt,bindError two])
  | ok page =>
    obtain ⟨one,two⟩ := fetchOkRun fetched
    obtain ⟨isSet,slot⟩ := @isSetIn s rid page sound.laid low high
    obtain ⟨i,same⟩ := Int.eq_ofNat_of_zero_le low
    have small : i < s.fileHdr.numRecordsPerPage := by omega
    have counts := sound.countFits fetched
    have position : rid.slotNo.toNat = i := by rw [same,Int.toNat_natCast]
    rw [position] at isSet slot
    have start (counted filled : PageData) (used : RmFileHandle.useSlot page rid.slotNo = .ok counted)
        (write : writeSlot s.fileHdr counted i buf = .ok filled)
        (held : holds s.fileHdr filled = {(holds s.fileHdr page).store rid.slotNo (some (buf.take s.fileHdr.recordSize)) with
          numRecords := if (if bit page i then some (cell s.fileHdr page i) else none) = none then numRecords page+1
            else numRecords page}) :
        Mirrors (RmFileHandle.insertRecordAt rid buf)
          (Record.RmFileHandle.insertRecordAt rid (buf.take s.fileHdr.recordSize)) s := by
      refine mirrorsRun ?_ ?_ (filledMirrors rid.pageNo filled)
      · rw [RmFileHandle.insertRecordAt,bindEq one,used,bindEq (ofExceptOk _ s),getBind,same,write,
          bindEq (ofExceptOk filled s)]
      · rw [Record.RmFileHandle.insertRecordAt,bindEq two,slot,bindEq (ofExceptOk _ _),held]
        rfl
    cases marked : bit page i with
    | true =>
      obtain ⟨filled,write,reads⟩ := (readsSelf s.fileHdr page).writeSlot sound.laid small long
      refine start page filled (by rw [RmFileHandle.useSlot,isSet,marked]; rfl) write ?_
      rw [readsStored reads (fun _ _ => rfl) fun j apart => Function.update_of_ne apart _ _,Function.update_self,marked,
        RmPage.store,position]
      rfl
    | false =>
      obtain ⟨set,mark,reads⟩ := (readsSelf s.fileHdr page).set sound.laid small
      have count : numRecords set = numRecords page := reads.count
      obtain ⟨counted,more,reads⟩ := @Reads.setCount _ _ _ _ (numRecords page+1) _ _ reads (by omega) (by omega)
      obtain ⟨filled,write,reads⟩ := reads.writeSlot sound.laid small long
      refine start counted filled ?_ write ?_
      · rw [RmFileHandle.useSlot,isSet,marked,same,mark]
        simp only [bind,Except.bind,Bool.false_eq_true,if_false,count,more]
      · rw [readsStored reads (fun j apart => Function.update_of_ne apart _ _)
          fun j apart => Function.update_of_ne apart _ _,Function.update_self,Function.update_self,marked,RmPage.store,
          position]
        rfl

theorem createMirrors (sound : Sound s) : ∃ p page t, RmFileHandle.createPageHandle s = .ok (p,page) t ∧
    Record.RmFileHandle.createPageHandle (view s) = .ok (p,holds t.fileHdr page) (view t) ∧ SameLayout s t ∧
    0 ≤ numRecords page ∧ numRecords page ≤ 32768 := by
  by_cases empty : s.fileHdr.firstFreePageNo = rmNoPage
  · obtain ⟨linked,link,reads⟩ := @Reads.setNext _ _ _ _ rmNoPage _ _ (readsSelf s.fileHdr zeroPage) (by decide) (by decide)
    obtain ⟨counted,count,reads⟩ := @Reads.setCount _ _ _ _ 0 _ _ reads (by decide) (by decide)
    obtain ⟨page,init,reads⟩ := reads.init sound.laid
    let t : RmFileHandle := {s with
      fd2pageno := s.fd2pageno+1
      fileHdr := {s.fileHdr with numPages := s.fd2pageno+1, firstFreePageNo := s.fd2pageno}
      pages := Function.update s.pages s.fd2pageno (some page)}
    have held : holds t.fileHdr page = ⟨rmNoPage,0,List.replicate s.fileHdr.numRecordsPerPage none⟩ := by
      have zero := reads.holds
      simp only [Bool.false_eq_true,if_false,List.map_const',List.length_range] at zero
      exact zero
    refine ⟨s.fd2pageno,page,t,?_,?_,⟨rfl,rfl,rfl⟩,?_⟩
    · rw [RmFileHandle.createPageHandle,getBind,if_pos empty,RmFileHandle.createNewPageHandle,getBind,setBind,link,
        bindEq (ofExceptOk linked _),count,bindEq (ofExceptOk counted _),init,bindEq (ofExceptOk page _)]
      rfl
    · rw [Record.RmFileHandle.createPageHandle,getBind]
      refine (congrFun (if_pos empty) _).trans ?_
      rw [Record.RmFileHandle.createNewPageHandle,getBind,setBind,pureRun,held]
      congr 1
      simp only [view,t,Record.RmFileHandle.mk.injEq,true_and,and_true]
      funext q
      by_cases same : q = s.fd2pageno
      · subst same
        rw [Function.update_self,Function.update_self,Option.map_some]
        exact congrArg some held.symm
      · rw [Function.update_of_ne same,Function.update_of_ne same]
        rfl
    · rw [reads.count]
      decide
  · obtain ⟨chain,well⟩ := sound.well
    obtain ⟨rest,q,same,_⟩ := Lib.linkedHead well.linked empty
    have has := (well.free s.fileHdr.firstFreePageNo (by rw [same]; exact List.mem_cons_self)).1
    obtain ⟨page,fetched⟩ := fetchHas sound has
    obtain ⟨one,two⟩ := fetchOkRun fetched
    refine ⟨s.fileHdr.firstFreePageNo,page,s,?_,?_,SameLayout.refl s,sound.countFits fetched⟩
    · rw [RmFileHandle.createPageHandle,getBind,if_neg empty,bindEq one]
      rfl
    · rw [Record.RmFileHandle.createPageHandle,getBind]
      refine (congrFun (if_neg empty) _).trans ?_
      exact bindEq two

theorem insertMirrors (sound : Sound s) (long : s.fileHdr.recordSize ≤ buf.length) :
    Mirrors (RmFileHandle.insertRecord buf) (Record.RmFileHandle.insertRecord (buf.take s.fileHdr.recordSize)) s := by
  obtain ⟨p,page,t,one,two,same,counts⟩ := createMirrors sound
  have laid := same.laid sound.laid
  have size := same.recordSize
  have free := @firstFreeRun t.fileHdr page laid
  have length : (holds t.fileHdr page).slots.length = t.fileHdr.numRecordsPerPage := by simp [holds]
  have small : (holds t.fileHdr page).firstFree ≤ t.fileHdr.numRecordsPerPage := length ▸ List.findIdx_le_length
  have perPage : (view t).fileHdr.numRecordsPerPage = t.fileHdr.numRecordsPerPage := rfl
  by_cases none : (holds t.fileHdr page).firstFree = t.fileHdr.numRecordsPerPage
  · refine mirrorsFrom ?_ ?_ same (@mirrorsError _ t (raise (.internal "RmFileHandle::insert_record Error"))
      (raise (.internal "RmFileHandle::insert_record Error")) _ rfl rfl)
    · rw [RmFileHandle.insertRecord,bindEq one]
      dsimp only
      rw [getBind,free,bindEq (ofExceptOk _ t),if_pos none]
    · rw [Record.RmFileHandle.insertRecord,bindEq two]
      dsimp only
      rw [getBind,perPage,if_pos none]
  obtain ⟨written,write,reads⟩ := @Reads.writeSlot _ _ _ _ _ _ (holds t.fileHdr page).firstFree buf laid
    (readsSelf t.fileHdr page) (by omega) (by omega)
  obtain ⟨marked,mark,reads⟩ := reads.set laid (i := (holds t.fileHdr page).firstFree) (by omega)
  have count : numRecords marked = numRecords page := reads.count
  obtain ⟨filled,more,reads⟩ := @Reads.setCount _ _ _ _ (numRecords page+1) _ _ reads (by omega) (by omega)
  have held : holds t.fileHdr filled =
      {(holds t.fileHdr page).store (holds t.fileHdr page).firstFree (some (buf.take s.fileHdr.recordSize)) with
        numRecords := (holds t.fileHdr page).numRecords+1} := by
    rw [readsStored reads (fun j apart => Function.update_of_ne apart _ _) fun j apart => Function.update_of_ne apart _ _,
      Function.update_self,Function.update_self,size]
    rfl
  obtain ⟨unlinked,unlink,gone⟩ := noPageHolds t.fileHdr filled
  rw [RmFileHandle.insertRecord,Record.RmFileHandle.insertRecord]
  have total : (holds t.fileHdr page).numRecords+1 = numRecords filled := reads.count.symm
  by_cases full : numRecords filled = t.fileHdr.numRecordsPerPage
  · refine @mirrorsFrom _ s t _ (do
      RmFileHandle.setFirstFree (nextFreePageNo filled)
      RmFileHandle.setPage p unlinked
      pure ⟨p,(holds t.fileHdr page).firstFree⟩) _ (do
      Record.RmFileHandle.setFirstFree (holds t.fileHdr filled).nextFreePageNo
      Record.RmFileHandle.setPage p {holds t.fileHdr filled with nextFreePageNo := rmNoPage}
      pure ⟨p,(holds t.fileHdr page).firstFree⟩) ?_ ?_ same ?_
    · rw [bindEq one]
      dsimp only
      rw [getBind,free,bindEq (ofExceptOk _ t),if_neg none,write,bindEq (ofExceptOk _ t),mark,bindEq (ofExceptOk _ t),count,
        more,bindEq (ofExceptOk _ t),if_pos full,unlink]
      rfl
    · rw [bindEq two]
      dsimp only
      rw [getBind,perPage,if_neg none,if_pos (total.trans full),held]
    · refine mirrorsBind (mirrorsSetFirstFree _ t) fun _ u run => ?_
      have sameHolds : ∀ other, holds u.fileHdr other = holds t.fileHdr other := by
        cases run
        exact fun _ => rfl
      have last := mirrorsSetPage p unlinked u
      rw [sameHolds,gone] at last
      exact mirrorsBind last fun _ v _ => mirrorsPure _ v
  · refine @mirrorsFrom _ s t _ (do
      RmFileHandle.setPage p filled
      pure ⟨p,(holds t.fileHdr page).firstFree⟩) _ (do
      Record.RmFileHandle.setPage p (holds t.fileHdr filled)
      pure ⟨p,(holds t.fileHdr page).firstFree⟩) ?_ ?_ same ?_
    · rw [bindEq one]
      dsimp only
      rw [getBind,free,bindEq (ofExceptOk _ t),if_neg none,write,bindEq (ofExceptOk _ t),mark,bindEq (ofExceptOk _ t),count,
        more,bindEq (ofExceptOk _ t),if_neg full]
    · rw [bindEq two]
      dsimp only
      rw [getBind,perPage,if_neg none,if_neg (total ▸ full),held]
    · exact mirrorsBind (mirrorsSetPage p filled t) fun _ v _ => mirrorsPure _ v

end Operations

end Rmdb.Record.Paged
