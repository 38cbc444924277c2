import Rmdb.Lib.Chain
import Rmdb.Record.RmFileHandle

/-! The record file as a map from record ids to records. The pages with a free slot form the
chain that starts in the file header. -/
namespace Rmdb.Record
open Lib

namespace RmPage

structure Counted (page : RmPage) (n : Nat) : Prop where
  length : page.slots.length = n
  count : page.numRecords = page.slots.countP Option.isSome

variable {page : RmPage} {n i : Nat}

theorem Counted.free (counted : page.Counted n) : none ∈ page.slots ↔ page.numRecords ≠ n := by
  have all : page.slots.countP Option.isSome = page.slots.length ↔ none ∉ page.slots := by
    rw [List.countP_eq_length]
    constructor
    · intro used mem
      simpa using used none mem
    · intro full x mem
      cases x with
      | none => exact absurd mem full
      | some x => rfl
  have bound := counted.length
  rw [counted.count,← bound]
  constructor
  · intro mem same
    exact all.mp (by omega) mem
  · intro differs
    by_contra full
    exact differs (by rw [all.mpr full])

theorem Counted.store {x : Option Bytes} {slotNo next : Int} {old : Option Bytes} (counted : page.Counted n)
    (here : page.slots[slotNo.toNat]? = some old) :
    RmPage.Counted ⟨next,page.numRecords-(if old.isSome then 1 else 0)+(if x.isSome then 1 else 0),
      (page.store slotNo x).slots⟩ n := by
  obtain ⟨inside,value⟩ := List.getElem?_eq_some_iff.mp here
  refine ⟨by simp [RmPage.store,counted.length],?_⟩
  simp only [RmPage.store,List.countP_set inside,value,counted.count]
  have positive : old.isSome = true → 0 < page.slots.countP Option.isSome := by
    intro used
    exact List.countP_pos_iff.mpr ⟨old,List.mem_of_getElem? here,used⟩
  cases old <;> cases x <;> simp_all

theorem firstFreeAt (mem : none ∈ page.slots) : page.slots[page.firstFree]? = some none := by
  have found : page.firstFree < page.slots.length := List.findIdx_lt_length_of_exists ⟨none,mem,rfl⟩
  have value := @List.findIdx_getElem _ Option.isNone page.slots found
  rw [List.getElem?_eq_getElem found]
  exact congrArg some (Option.isNone_iff_eq_none.mp value)

end RmPage

namespace RmFileHandle

def nextFree (s : RmFileHandle) (p : Int) : Option Int := (s.pages p).map RmPage.nextFreePageNo

def HasPage (s : RmFileHandle) (p : Int) : Prop := rmFirstRecordPage ≤ p ∧ p < s.fileHdr.numPages

-- What `is_record` and `get_record` see.
def records (s : RmFileHandle) (rid : Rid) : Option Bytes :=
  match s.getRecord rid with
  | .ok record => some record
  | .error _ => none

def HasRoom (s : RmFileHandle) (p : Int) : Prop := s.HasPage p ∧ ∃ page, s.pages p = some page ∧ none ∈ page.slots

/- `chain` lists pages with a free slot in the order of the links: all of them but for those in
`lost`. Recovery can lose pages; the operations never do. -/
structure Chained (s : RmFileHandle) (lost : Set Int) (chain : List Int) : Prop where
  counter : s.fd2pageno = s.fileHdr.numPages
  header : rmFirstRecordPage ≤ s.fileHdr.numPages
  room : 0 < s.fileHdr.numRecordsPerPage
  page : ∀ p, s.HasPage p → ∃ page, s.pages p = some page ∧ page.Counted s.fileHdr.numRecordsPerPage
  linked : Linked s.nextFree rmNoPage s.fileHdr.firstFreePageNo chain
  nodup : chain.Nodup
  free : ∀ p ∈ chain, s.HasRoom p
  listed : ∀ p, s.HasRoom p → p ∉ lost → p ∈ chain

def WellUpTo (s : RmFileHandle) (lost : Set Int) : Prop := ∃ chain, s.Chained lost chain

def Well (s : RmFileHandle) : Prop := s.WellUpTo ∅

def Usable (s : RmFileHandle) : Prop := ∃ lost, s.WellUpTo lost

structure Extends (s t : RmFileHandle) : Prop where
  fileName : t.fileName = s.fileName
  recordSize : t.fileHdr.recordSize = s.fileHdr.recordSize
  perPage : t.fileHdr.numRecordsPerPage = s.fileHdr.numRecordsPerPage
  numPages : s.fileHdr.numPages ≤ t.fileHdr.numPages

variable {s t : RmFileHandle} {p : Int} {page : RmPage} {rid : Rid} {chain : List Int} {lost : Set Int}

instance : Decidable (s.HasPage p) := inferInstanceAs (Decidable (_ ∧ _))

theorem Extends.refl (s : RmFileHandle) : Extends s s := ⟨rfl,rfl,rfl,le_refl _⟩

theorem Extends.trans {u : RmFileHandle} (one : Extends s t) (two : Extends t u) : Extends s u :=
  ⟨two.fileName.trans one.fileName,two.recordSize.trans one.recordSize,two.perPage.trans one.perPage,
    one.numPages.trans two.numPages⟩

theorem fetchHeld (has : s.HasPage p) (here : s.pages p = some page) : s.fetchPageHandle p = .ok page := by
  obtain ⟨low,high⟩ := has
  rw [fetchPageHandle,if_neg (by omega),here]

theorem fetchOutside (outside : ¬ s.HasPage p) :
    s.fetchPageHandle p = .error (.error (.pageNotExist s.fileName p)) := by
  rw [fetchPageHandle,if_pos]
  simp only [HasPage] at outside
  omega

theorem recordsRead (s : RmFileHandle) (rid : Rid) : s.records rid =
    if s.HasPage rid.pageNo ∧ 0 ≤ rid.slotNo then
      ((s.pages rid.pageNo).map RmPage.slots).bind fun slots => slots[rid.slotNo.toNat]?.join
    else none := by
  by_cases has : s.HasPage rid.pageNo
  · cases here : s.pages rid.pageNo with
    | none =>
      have missing : s.fetchPageHandle rid.pageNo =
          .error (.error (.internal "RmFileHandle::fetch_page_handle Error")) := by
        obtain ⟨low,high⟩ := has
        rw [fetchPageHandle,if_neg (by omega),here]
      simp [records,getRecord,missing,bind,Except.bind]
    | some page =>
      by_cases nonneg : 0 ≤ rid.slotNo
      · have notNeg : ¬ rid.slotNo < 0 := by omega
        cases slot : page.slots[rid.slotNo.toNat]? with
        | none => simp [records,getRecord,fetchHeld has here,bind,Except.bind,RmPage.slot,slot,notNeg]
        | some x =>
          cases x <;> simp [records,getRecord,fetchHeld has here,bind,Except.bind,RmPage.slot,slot,notNeg,has,nonneg]
      · have negative : rid.slotNo < 0 := by omega
        simp [records,getRecord,fetchHeld has here,bind,Except.bind,RmPage.slot,negative,nonneg]
  · simp [records,getRecord,fetchOutside has,bind,Except.bind,has]

theorem recordsSome {b : Bytes} : s.records rid = some b ↔ s.HasPage rid.pageNo ∧ 0 ≤ rid.slotNo ∧
    ∃ page, s.pages rid.pageNo = some page ∧ page.slots[rid.slotNo.toNat]? = some (some b) := by
  rw [recordsRead]
  by_cases inside : s.HasPage rid.pageNo ∧ 0 ≤ rid.slotNo
  · rw [if_pos inside]
    simp only [Option.bind_eq_some_iff,Option.map_eq_some_iff,Option.join_eq_some_iff]
    constructor
    · intro found
      obtain ⟨slots,⟨page,here,rfl⟩,value⟩ := found
      exact ⟨inside.1,inside.2,page,here,value⟩
    · intro found
      obtain ⟨_,_,page,here,value⟩ := found
      exact ⟨_,⟨page,here,rfl⟩,value⟩
  · rw [if_neg inside]
    constructor
    · intro none
      cases none
    · intro found
      exact absurd ⟨found.1,found.2.1⟩ inside

theorem getRecordSome {b : Bytes} : s.getRecord rid = .ok b ↔ s.records rid = some b := by
  rw [records]
  cases s.getRecord rid <;> simp

theorem recordsStore {page page' : RmPage} {slotNo : Int} {x : Option Bytes} (has : s.HasPage p)
    (here : s.pages p = some page) (inside : slotNo.toNat < page.slots.length) (nonneg : 0 ≤ slotNo)
    (numPages : t.fileHdr.numPages = s.fileHdr.numPages) (there : t.pages p = some page')
    (slots : page'.slots = page.slots.set slotNo.toNat x)
    (others : ∀ q, q ≠ p → (t.pages q).map RmPage.slots = (s.pages q).map RmPage.slots) :
    t.records = Function.update s.records ⟨p,slotNo⟩ x := by
  funext rid
  have range : t.HasPage rid.pageNo ↔ s.HasPage rid.pageNo := by simp only [HasPage,numPages]
  simp only [recordsRead t,range]
  by_cases same : rid = ⟨p,slotNo⟩
  · subst same
    rw [Function.update_self,if_pos ⟨has,nonneg⟩,there]
    simp [slots,inside]
  · rw [Function.update_of_ne same,recordsRead s]
    by_cases samePage : rid.pageNo = p
    · have apart : rid.slotNo ≠ slotNo := by
        intro sameSlot
        exact same (by cases rid; simp_all)
      rw [samePage,there,here]
      by_cases positive : 0 ≤ rid.slotNo
      · have differ : slotNo.toNat ≠ rid.slotNo.toNat := by omega
        simp [slots,List.getElem?_set_ne differ]
      · simp [positive]
    · rw [others _ samePage]

def withPage (s : RmFileHandle) (p : Int) (page : RmPage) (head : Int) : RmFileHandle :=
  {s with pages := Function.update s.pages p (some page), fileHdr := {s.fileHdr with firstFreePageNo := head}}

theorem extendsWithPage (s : RmFileHandle) (p : Int) (page : RmPage) (head : Int) : Extends s (s.withPage p page head) :=
  ⟨rfl,rfl,rfl,le_refl _⟩

theorem nextFreeWithPage (head : Int) : (s.withPage p page head).nextFree =
    Function.update s.nextFree p (some page.nextFreePageNo) := by
  funext q
  by_cases same : q = p
  · simp [nextFree,withPage,same]
  · simp [nextFree,withPage,same]

theorem Chained.rewrite {head : Int} {chain' : List Int} (well : s.Chained lost chain) (has : s.HasPage p)
    (counted : page.Counted s.fileHdr.numRecordsPerPage)
    (linked : Linked (Function.update s.nextFree p (some page.nextFreePageNo)) rmNoPage head chain')
    (nodup : chain'.Nodup) (others : ∀ q, q ≠ p → (q ∈ chain' ↔ q ∈ chain))
    (used : p ∈ chain' → none ∈ page.slots) (listed : none ∈ page.slots → p ∉ lost → p ∈ chain') :
    (s.withPage p page head).Chained lost chain' := by
  have room (q : Int) (apart : q ≠ p) : (s.withPage p page head).HasRoom q ↔ s.HasRoom q := by
    simp only [HasRoom,HasPage,withPage,Function.update_of_ne apart]
  have self : (s.withPage p page head).HasRoom p ↔ none ∈ page.slots := by
    constructor
    · intro found
      obtain ⟨_,page',here,mem⟩ := found
      simp only [withPage,Function.update_self,Option.some.injEq] at here
      exact here ▸ mem
    · intro mem
      exact ⟨has,page,by simp [withPage],mem⟩
  refine ⟨well.counter,well.header,well.room,?_,?_,nodup,?_,?_⟩
  · intro q hasQ
    by_cases same : q = p
    · exact ⟨page,by simp [withPage,same],counted⟩
    · obtain ⟨page',here,counted'⟩ := well.page q hasQ
      exact ⟨page',by simp [withPage,same,here],counted'⟩
  · rw [nextFreeWithPage]
    exact linked
  · intro q mem
    by_cases same : q = p
    · subst same
      exact self.mpr (used mem)
    · exact (room q same).mpr (well.free q ((others q same).mp mem))
  · intro q hasRoom known
    by_cases same : q = p
    · subst same
      exact listed (self.mp hasRoom) known
    · exact (others q same).mpr (well.listed q ((room q same).mp hasRoom) known)

theorem slotAt {slotNo : Int} {x : Option Bytes} (nonneg : 0 ≤ slotNo) (here : page.slots[slotNo.toNat]? = some x) :
    page.slot slotNo = .ok x := by
  rw [RmPage.slot,if_neg (by omega),here]

theorem fetchRun (has : s.HasPage p) (here : s.pages p = some page) : fetch p s = .ok page s := by
  simp only [fetch,getBind,fetchHeld has here,ofExceptOk]

theorem Chained.same {page' : RmPage} (well : s.Chained lost chain) (has : s.HasPage p) (here : s.pages p = some page)
    (counted : page'.Counted s.fileHdr.numRecordsPerPage) (next : page'.nextFreePageNo = page.nextFreePageNo)
    (free : none ∈ page'.slots ↔ none ∈ page.slots) :
    (s.withPage p page' s.fileHdr.firstFreePageNo).Chained lost chain := by
  refine well.rewrite has counted ?_ well.nodup (fun _ _ => Iff.rfl) ?_ ?_
  · have unchanged : s.nextFree p = some page.nextFreePageNo := by simp [nextFree,here]
    rw [next,← unchanged,Function.update_eq_self]
    exact well.linked
  · intro mem
    obtain ⟨_,q,there,used⟩ := well.free p mem
    rw [here] at there
    exact free.mpr (Option.some.inj there ▸ used)
  · intro mem
    exact well.listed p ⟨has,page,here,free.mp mem⟩

theorem updateRecordWell {b buf : Bytes} (well : s.WellUpTo lost) (present : s.records rid = some b) :
    ∃ t, updateRecord rid buf s = .ok () t ∧ t.WellUpTo lost ∧ t.records = Function.update s.records rid (some buf) ∧
      s.Extends t := by
  obtain ⟨chain,well⟩ := well
  obtain ⟨has,nonneg,page,here,slot⟩ := recordsSome.mp present
  obtain ⟨inside,_⟩ := List.getElem?_eq_some_iff.mp slot
  obtain ⟨_,same,counted⟩ := well.page _ has
  obtain rfl := Option.some.inj (here.symm.trans same)
  refine ⟨s.withPage rid.pageNo (page.store rid.slotNo (some buf)) s.fileHdr.firstFreePageNo,?_,⟨chain,?_⟩,?_,
    extendsWithPage ..⟩
  · rw [updateRecord,bindEq (fetchRun has here),slotAt nonneg slot,bindEq (ofExceptOk _ s)]
    rfl
  · have stored := @RmPage.Counted.store page _ (some buf) rid.slotNo page.nextFreePageNo (some b) counted slot
    simp only [Option.isSome_some,if_true,Int.sub_add_cancel] at stored
    refine well.same has here stored rfl ?_
    rw [counted.free]
    exact stored.free
  · exact recordsStore has here inside nonneg rfl (Function.update_self ..) rfl
      fun q apart => by simp [withPage,apart]

theorem deleteRecordWell {b : Bytes} (well : s.WellUpTo lost) (present : s.records rid = some b) :
    ∃ t, deleteRecord rid s = .ok () t ∧ t.WellUpTo lost ∧ t.records = Function.update s.records rid none ∧ s.Extends t := by
  obtain ⟨chain,well⟩ := well
  obtain ⟨has,nonneg,page,here,slot⟩ := recordsSome.mp present
  obtain ⟨inside,_⟩ := List.getElem?_eq_some_iff.mp slot
  obtain ⟨_,same,counted⟩ := well.page _ has
  obtain rfl := Option.some.inj (here.symm.trans same)
  have emptied : none ∈ (page.store rid.slotNo none).slots := List.mem_set inside none
  have start : deleteRecord rid s = (if page.numRecords = s.fileHdr.numRecordsPerPage then do
      setPage rid.pageNo ⟨s.fileHdr.firstFreePageNo,page.numRecords-1,(page.store rid.slotNo none).slots⟩
      setFirstFree rid.pageNo
    else setPage rid.pageNo ⟨page.nextFreePageNo,page.numRecords-1,(page.store rid.slotNo none).slots⟩) s := by
    rw [deleteRecord,bindEq (fetchRun has here),slotAt nonneg slot,bindEq (ofExceptOk _ s)]
    rfl
  have stored (next : Int) := @RmPage.Counted.store page _ none rid.slotNo next (some b) counted slot
  simp only [Option.isSome_some,if_true,Option.isSome_none,Bool.false_eq_true,if_false,Int.add_zero] at stored
  by_cases full : page.numRecords = s.fileHdr.numRecordsPerPage
  · rw [if_pos full] at start
    have outside : rid.pageNo ∉ chain := by
      intro mem
      obtain ⟨_,q,there,mem⟩ := well.free _ mem
      obtain rfl := Option.some.inj (here.symm.trans there)
      exact counted.free.mp mem full
    refine ⟨_,start,⟨rid.pageNo::chain,?_⟩,?_,extendsWithPage ..⟩
    · refine well.rewrite has (stored _) (linkedPush well.linked ?_ outside) (well.nodup.cons outside) ?_ ?_ ?_
      · have low := has.1
        simp only [rmFirstRecordPage,rmNoPage] at low ⊢
        omega
      · intro q apart
        simp [apart]
      · exact fun _ => emptied
      · exact fun _ _ => List.mem_cons_self
    · exact recordsStore has here inside nonneg rfl (Function.update_self ..) rfl
        fun q apart => by simp [apart]
  · rw [if_neg full] at start
    refine ⟨_,start,⟨chain,?_⟩,?_,extendsWithPage s rid.pageNo _ s.fileHdr.firstFreePageNo⟩
    · refine well.same has here (stored _) rfl ?_
      simp only [emptied,true_iff]
      exact counted.free.mpr full
    · exact recordsStore has here inside nonneg rfl (Function.update_self ..) rfl
        fun q apart => by simp [apart]

theorem Chained.fill {page' : RmPage} {rest : List Int} (well : s.Chained lost (p::rest)) (here : s.pages p = some page)
    (counted : page'.Counted s.fileHdr.numRecordsPerPage) (full : none ∉ page'.slots) :
    (s.withPage p page' page.nextFreePageNo).Chained lost rest := by
  have has : s.HasPage p := (well.free p List.mem_cons_self).1
  obtain ⟨absent,nodup⟩ := List.nodup_cons.mp well.nodup
  obtain ⟨_,_,q,named,tail⟩ := well.linked
  have next : q = page.nextFreePageNo := by simpa [nextFree,here] using named.symm
  subst next
  refine well.rewrite has counted (linkedPop tail well.nodup _) nodup ?_ ?_ ?_
  · intro q apart
    simp [apart]
  · exact fun mem => absurd mem absent
  · exact fun free => absurd free full

theorem createNewPageHandleWell (well : s.Chained lost chain) : ∃ page t,
    createNewPageHandle s = .ok (s.fd2pageno,page) t ∧ t.Chained (lost ∪ {p | p ∈ chain}) [s.fd2pageno] ∧
    t.pages s.fd2pageno = some page ∧ t.records = s.records ∧ s.Extends t ∧
    t.fileHdr.numPages = s.fileHdr.numPages+1 := by
  have header := well.header
  simp only [rmFirstRecordPage] at header
  let page : RmPage := ⟨rmNoPage,0,List.replicate s.fileHdr.numRecordsPerPage none⟩
  let t : RmFileHandle := {s with
    fileHdr := {s.fileHdr with numPages := s.fd2pageno+1, firstFreePageNo := s.fd2pageno}
    pages := Function.update s.pages s.fd2pageno (some page), fd2pageno := s.fd2pageno+1}
  have range (q : Int) : t.HasPage q ↔ s.HasPage q ∨ q = s.fd2pageno := by
    simp only [HasPage,t,well.counter,rmFirstRecordPage]
    omega
  have fresh : ¬ s.HasPage s.fd2pageno := by
    simp only [HasPage,well.counter]
    omega
  have old {q : Int} (has : s.HasPage q) : t.pages q = s.pages q := by
    have apart : q ≠ s.fd2pageno := fun same => fresh (same ▸ has)
    simp [t,apart]
  have free : none ∈ page.slots := by
    simp only [page,List.mem_replicate]
    exact ⟨by have := well.room; omega,trivial⟩
  refine ⟨page,t,rfl,?_,Function.update_self ..,?_,⟨rfl,rfl,rfl,?_⟩,?_⟩
  · refine ⟨rfl,?_,well.room,?_,⟨rfl,?_,rmNoPage,?_,rfl⟩,by simp,?_,?_⟩
    · simp only [rmFirstRecordPage,t,well.counter]
      omega
    · intro q has
      rcases (range q).mp has with has | rfl
      · obtain ⟨page',here,counted⟩ := well.page q has
        exact ⟨page',(old has).trans here,counted⟩
      · refine ⟨page,Function.update_self ..,by simp [page,t],?_⟩
        simp [page,List.countP_replicate]
    · simp only [well.counter,rmNoPage]
      omega
    · simp [nextFree,t,page]
    · intro q mem
      obtain rfl := List.mem_singleton.mp mem
      exact ⟨(range _).mpr (.inr rfl),page,Function.update_self ..,free⟩
    · intro q hasRoom known
      obtain ⟨has,page',here,mem⟩ := hasRoom
      rcases (range q).mp has with has | same
      · rw [old has] at here
        exact absurd (.inr (well.listed q ⟨has,page',here,mem⟩ fun lost => known (.inl lost))) known
      · exact List.mem_singleton.mpr same
  · funext rid
    simp only [recordsRead,range]
    by_cases same : rid.pageNo = s.fd2pageno
    · have empty : (List.replicate s.fileHdr.numRecordsPerPage (none : Option Bytes))[rid.slotNo.toNat]?.join = none := by
        rw [List.getElem?_replicate]
        split <;> rfl
      simp only [same,or_true,true_and,fresh,false_and,if_false,t,Function.update_self,page,Option.map_some,
        Option.bind_some,empty,ite_self]
    · simp [same,t]
  · simp only [t,well.counter]
    omega
  · simp only [t,well.counter]

theorem createPageHandleWell (well : s.WellUpTo lost) : ∃ p page t rest, createPageHandle s = .ok (p,page) t ∧
    t.Chained lost (p::rest) ∧ t.pages p = some page ∧ t.records = s.records ∧ s.Extends t := by
  obtain ⟨chain,well⟩ := well
  by_cases none : s.fileHdr.firstFreePageNo = rmNoPage
  · have linked := well.linked
    rw [none] at linked
    obtain rfl := linkedNil linked
    obtain ⟨page,t,made,after,here,records,extended,_⟩ := createNewPageHandleWell well
    have same : lost ∪ {p | p ∈ ([] : List Int)} = lost := by simp
    rw [same] at after
    refine ⟨_,page,t,[],?_,after,here,records,extended⟩
    simp only [createPageHandle,getBind,if_pos none]
    exact made
  · obtain ⟨rest,q,rfl,named,_⟩ := linkedHead well.linked none
    obtain ⟨has,page,here,_⟩ := well.free _ List.mem_cons_self
    refine ⟨_,page,s,rest,?_,well,here,rfl,Extends.refl s⟩
    simp only [createPageHandle,getBind,if_neg none]
    rw [bindEq (fetchRun has here)]
    rfl

theorem insertRecordWell {buf : Bytes} (well : s.WellUpTo lost) : ∃ rid t, insertRecord buf s = .ok rid t ∧ t.WellUpTo lost ∧
    s.records rid = none ∧ t.records = Function.update s.records rid (some buf) ∧ s.Extends t := by
  obtain ⟨p,page,t,rest,made,well,here,records,extended⟩ := createPageHandleWell well
  obtain ⟨has,_,there,free⟩ := well.free p List.mem_cons_self
  obtain rfl := Option.some.inj (here.symm.trans there)
  obtain ⟨_,same,counted⟩ := well.page p has
  obtain rfl := Option.some.inj (here.symm.trans same)
  have slot := RmPage.firstFreeAt free
  obtain ⟨inside,_⟩ := List.getElem?_eq_some_iff.mp slot
  have found : page.firstFree ≠ t.fileHdr.numRecordsPerPage := by
    rw [counted.length] at inside
    omega
  have stored (next : Int) := @RmPage.Counted.store page _ (some buf) page.firstFree next none counted slot
  simp only [Option.isSome_some,if_true,Option.isSome_none,Bool.false_eq_true,if_false,Int.sub_zero] at stored
  have absent : s.records ⟨p,page.firstFree⟩ = none := by
    rw [← records,recordsRead,if_pos ⟨has,by simp⟩,here]
    simp [slot]
  have effect {head : Int} {page' : RmPage} (slots : page'.slots = (page.store page.firstFree (some buf)).slots) :
      (t.withPage p page' head).records = Function.update s.records ⟨p,page.firstFree⟩ (some buf) := by
    rw [← records]
    exact recordsStore has here inside (by simp) rfl (Function.update_self ..) slots
      fun q apart => by simp [withPage,apart]
  have start : insertRecord buf s = (do
      if page.numRecords+1 = t.fileHdr.numRecordsPerPage then
        setFirstFree page.nextFreePageNo
        setPage p ⟨rmNoPage,page.numRecords+1,(page.store page.firstFree (some buf)).slots⟩
      else setPage p ⟨page.nextFreePageNo,page.numRecords+1,(page.store page.firstFree (some buf)).slots⟩
      pure ⟨p,page.firstFree⟩ : M RmFileHandle Rid) t := by
    rw [insertRecord,bindEq made]
    simp only [getBind,if_neg found]
    rfl
  by_cases full : page.numRecords+1 = t.fileHdr.numRecordsPerPage
  · rw [if_pos full] at start
    refine ⟨_,_,start,⟨rest,?_⟩,absent,effect rfl,extended.trans (extendsWithPage ..)⟩
    exact well.fill here (stored _) fun mem => (stored rmNoPage).free.mp mem full
  · rw [if_neg full] at start
    refine ⟨_,_,start,⟨p::rest,?_⟩,absent,@effect t.fileHdr.firstFreePageNo _ rfl,
      extended.trans (extendsWithPage t p _ t.fileHdr.firstFreePageNo)⟩
    refine well.same has here (stored _) rfl ?_
    simp only [free,iff_true]
    exact (stored page.nextFreePageNo).free.mpr full

theorem unlinkAbsent {target head : Int} {fuel : Nat} (real : target ≠ rmNoPage)
    (held : ∀ q ∈ chain, s.HasPage q) (linked : Linked s.nextFree rmNoPage head chain) (absent : target ∉ chain)
    (enough : chain.length < fuel) : unlink target fuel head s = .ok () s := by
  induction chain generalizing head fuel with
  | nil =>
    obtain ⟨fuel,rfl⟩ := Nat.exists_eq_succ_of_ne_zero (by omega : fuel ≠ 0)
    obtain rfl : head = rmNoPage := linked
    rw [unlink,if_pos rfl]
    rfl
  | cons p rest ih =>
    obtain ⟨fuel,rfl⟩ := Nat.exists_eq_succ_of_ne_zero (by omega : fuel ≠ 0)
    obtain ⟨rfl,more,q,named,tail⟩ := linked
    obtain ⟨page,here,rfl⟩ := Option.map_eq_some_iff.mp named
    have differs : page.nextFreePageNo ≠ target := by
      intro same
      obtain ⟨rest',_,rfl,_⟩ := linkedHead tail (same ▸ real)
      exact absent (by simp [same])
    rw [unlink,if_neg more,bindEq (fetchRun (held head List.mem_cons_self) here),if_neg differs]
    exact ih (fun q mem => held q (List.mem_cons_of_mem head mem)) tail
      (fun mem => absent (List.mem_cons_of_mem head mem)) (by simp only [List.length_cons] at enough; omega)

theorem unlinkPresent {front back : List Int} {prev target head : Int} {fuel : Nat} {prevPage : RmPage}
    (held : ∀ q ∈ front ++ prev :: target :: back, s.HasPage q)
    (linked : Linked s.nextFree rmNoPage head (front ++ prev :: target :: back))
    (nodup : (front ++ prev :: target :: back).Nodup) (prevHere : s.pages prev = some prevPage)
    (here : s.pages target = some page) (enough : front.length < fuel) :
    unlink target fuel head s = .ok () ((s.withPage prev {prevPage with nextFreePageNo := page.nextFreePageNo}
      s.fileHdr.firstFreePageNo).withPage target {page with nextFreePageNo := rmNoPage} s.fileHdr.firstFreePageNo) := by
  induction front generalizing head fuel with
  | nil =>
    obtain ⟨fuel,rfl⟩ := Nat.exists_eq_succ_of_ne_zero (by omega : fuel ≠ 0)
    obtain ⟨rfl,more,q,named,rfl,_⟩ := linked
    have next : prevPage.nextFreePageNo = q := by simpa [nextFree,prevHere] using named
    rw [unlink,if_neg more,bindEq (fetchRun (held head (by simp)) prevHere),if_pos next,
      bindEq (fetchRun (held q (by simp)) here)]
    rfl
  | cons p front ih =>
    obtain ⟨fuel,rfl⟩ := Nat.exists_eq_succ_of_ne_zero (by omega : fuel ≠ 0)
    obtain ⟨rfl,more,q,named,tail⟩ := linked
    obtain ⟨read,found,rfl⟩ := Option.map_eq_some_iff.mp named
    have differs : read.nextFreePageNo ≠ target := by
      intro same
      have first : target ∈ front ++ [prev] := by
        cases front with
        | nil => exact List.mem_singleton.mpr (same ▸ tail.1)
        | cons r front => exact List.mem_append_left _ (same ▸ tail.1 ▸ List.mem_cons_self)
      have apart : (front ++ prev :: target :: back).Nodup := (List.nodup_cons.mp nodup).2
      rw [List.append_cons,List.nodup_append] at apart
      exact apart.2.2 target first target (by simp) rfl
    rw [unlink,if_neg more,bindEq (fetchRun (held head (by simp)) found),if_neg differs]
    exact ih (fun q mem => held q (List.mem_cons_of_mem head mem)) tail (List.nodup_cons.mp nodup).2
      (by simp only [List.length_cons] at enough; omega)

theorem Chained.lengthLe (well : s.Chained lost chain) : chain.length ≤ s.fileHdr.numPages.toNat := by
  have inside : chain.toFinset ⊆ Finset.Ico 1 s.fileHdr.numPages := by
    intro q mem
    exact Finset.mem_Ico.mpr (well.free q (List.mem_toFinset.mp mem)).1
  have card := Finset.card_le_card inside
  rw [List.toFinset_card_of_nodup well.nodup,Int.card_Ico] at card
  omega

theorem Chained.unlinked {front back : List Int} {prev target : Int} {prevPage filled : RmPage}
    (well : s.Chained lost (front ++ prev :: target :: back)) (prevHere : s.pages prev = some prevPage)
    (here : s.pages target = some page) (next : filled.nextFreePageNo = page.nextFreePageNo)
    (counted : filled.Counted s.fileHdr.numRecordsPerPage) (full : none ∉ filled.slots) :
    (((s.withPage target filled s.fileHdr.firstFreePageNo).withPage prev
      {prevPage with nextFreePageNo := filled.nextFreePageNo} s.fileHdr.firstFreePageNo).withPage target
      {filled with nextFreePageNo := rmNoPage} s.fileHdr.firstFreePageNo).Chained lost (front ++ prev :: back) := by
  have has : s.HasPage target := (well.free target (by simp)).1
  have nodup := well.nodup
  have apart : prev ≠ target := by
    intro same
    simp [same,List.nodup_append] at nodup
  have outside : target ∉ front ++ prev :: back := by
    have moved : (target :: ((front ++ [prev]) ++ back)).Nodup :=
      List.perm_middle.nodup_iff.mp (by simpa using nodup)
    simpa using (List.nodup_cons.mp moved).1
  have others (q : Int) : q ≠ target → (q ∈ front ++ prev :: back ↔ q ∈ front ++ prev :: target :: back) := by
    intro differs
    simp [differs]
  let t := ((s.withPage target filled s.fileHdr.firstFreePageNo).withPage prev
    {prevPage with nextFreePageNo := filled.nextFreePageNo} s.fileHdr.firstFreePageNo).withPage target
    {filled with nextFreePageNo := rmNoPage} s.fileHdr.firstFreePageNo
  have room (q : Int) (sameT : q ≠ target) : t.HasRoom q ↔ s.HasRoom q := by
    by_cases sameP : q = prev
    · subst sameP
      simp [t,withPage,HasRoom,HasPage,Function.update_of_ne sameT,prevHere]
    · simp [t,withPage,HasRoom,HasPage,Function.update_of_ne sameT,Function.update_of_ne sameP]
  have noRoom : ¬ t.HasRoom target := by
    intro found
    obtain ⟨_,_,there,mem⟩ := found
    simp only [t,withPage,Function.update_self,Option.some.injEq] at there
    subst there
    exact full mem
  refine ⟨well.counter,well.header,well.room,?_,?_,?_,?_,?_⟩
  · intro q hasQ
    by_cases sameT : q = target
    · exact ⟨{filled with nextFreePageNo := rmNoPage},by simp [withPage,sameT],counted.length,counted.count⟩
    by_cases sameP : q = prev
    · subst sameP
      obtain ⟨_,there,countedP⟩ := well.page q hasQ
      obtain rfl := Option.some.inj (prevHere.symm.trans there)
      exact ⟨{prevPage with nextFreePageNo := filled.nextFreePageNo},by simp [withPage,sameT],
        countedP.length,countedP.count⟩
    · obtain ⟨old,there,countedQ⟩ := well.page q hasQ
      exact ⟨old,by simp [withPage,sameT,sameP,there],countedQ⟩
  · have unchanged : Function.update s.nextFree target (some filled.nextFreePageNo) = s.nextFree := by
      rw [Function.update_eq_self_iff,next]
      simp [nextFree,here]
    have named : some filled.nextFreePageNo = s.nextFree target := by simp [nextFree,here,next]
    rw [nextFreeWithPage,nextFreeWithPage,nextFreeWithPage,unchanged,named]
    exact linkedUnlink nodup well.linked
  · refine nodup.sublist ?_
    simp
  · intro q mem
    have sameT : q ≠ target := fun same => outside (same ▸ mem)
    exact (room q sameT).mpr (well.free q ((others q sameT).mp mem))
  · intro q hasRoom known
    by_cases sameT : q = target
    · exact absurd (sameT ▸ hasRoom) noRoom
    · exact (others q sameT).mpr (well.listed q ((room q sameT).mp hasRoom) known)

theorem insertRecordAtWell {buf : Bytes} (well : s.WellUpTo lost) (has : s.HasPage rid.pageNo)
    (nonneg : 0 ≤ rid.slotNo) (inside : rid.slotNo < s.fileHdr.numRecordsPerPage) :
    ∃ t, insertRecordAt rid buf s = .ok () t ∧ t.WellUpTo lost ∧ t.records = Function.update s.records rid (some buf) ∧
      s.Extends t := by
  obtain ⟨chain,well⟩ := well
  obtain ⟨page,here,counted⟩ := well.page _ has
  have within : rid.slotNo.toNat < page.slots.length := by
    rw [counted.length]
    omega
  obtain ⟨old,slot⟩ : ∃ old, page.slots[rid.slotNo.toNat]? = some old := ⟨_,List.getElem?_eq_getElem within⟩
  let filled : RmPage := ⟨page.nextFreePageNo,if old = none then page.numRecords+1 else page.numRecords,
    (page.store rid.slotNo (some buf)).slots⟩
  have stored : filled.Counted s.fileHdr.numRecordsPerPage := by
    have after := @RmPage.Counted.store page _ (some buf) rid.slotNo page.nextFreePageNo old counted slot
    cases old <;> simpa [filled] using after
  have start : insertRecordAt rid buf s = (if filled.numRecords = s.fileHdr.numRecordsPerPage then
      if s.fileHdr.firstFreePageNo = rid.pageNo then do
        setFirstFree filled.nextFreePageNo
        setPage rid.pageNo {filled with nextFreePageNo := rmNoPage}
      else unlink rid.pageNo (s.fileHdr.numPages.toNat+1) s.fileHdr.firstFreePageNo
    else pure ()) (s.withPage rid.pageNo filled s.fileHdr.firstFreePageNo) := by
    rw [insertRecordAt,bindEq (fetchRun has here),slotAt nonneg slot,bindEq (ofExceptOk _ s)]
    rfl
  have effect {t : RmFileHandle} {page' : RmPage} (numPages : t.fileHdr.numPages = s.fileHdr.numPages)
      (there : t.pages rid.pageNo = some page') (slots : page'.slots = filled.slots)
      (others : ∀ q, q ≠ rid.pageNo → (t.pages q).map RmPage.slots = (s.pages q).map RmPage.slots) :
      t.records = Function.update s.records rid (some buf) :=
    recordsStore has here within nonneg numPages there slots others
  by_cases full : filled.numRecords = s.fileHdr.numRecordsPerPage
  · rw [if_pos full] at start
    have used : none ∉ filled.slots := fun mem => stored.free.mp mem full
    by_cases first : s.fileHdr.firstFreePageNo = rid.pageNo
    · rw [if_pos first] at start
      have real : s.fileHdr.firstFreePageNo ≠ rmNoPage := by
        have low := has.1
        simp only [rmFirstRecordPage,rmNoPage] at low ⊢
        omega
      obtain ⟨rest,q,rfl,_⟩ := linkedHead well.linked real
      rw [first] at well
      have twice : (s.withPage rid.pageNo filled s.fileHdr.firstFreePageNo).withPage rid.pageNo
          {filled with nextFreePageNo := rmNoPage} page.nextFreePageNo =
          s.withPage rid.pageNo {filled with nextFreePageNo := rmNoPage} page.nextFreePageNo := by
        simp [withPage]
      have run : insertRecordAt rid buf s =
          .ok () (s.withPage rid.pageNo {filled with nextFreePageNo := rmNoPage} page.nextFreePageNo) := by
        rw [start,← twice]
        rfl
      refine ⟨_,run,⟨rest,?_⟩,?_,extendsWithPage ..⟩
      · exact well.fill here ⟨stored.length,stored.count⟩ used
      · exact effect rfl (Function.update_self ..) rfl fun q apart => by simp [withPage,apart]
    · rw [if_neg first] at start
      have sameLinks : (s.withPage rid.pageNo filled s.fileHdr.firstFreePageNo).nextFree = s.nextFree := by
        rw [nextFreeWithPage,Function.update_eq_self_iff]
        simp [nextFree,here,filled]
      have linked : Linked (s.withPage rid.pageNo filled s.fileHdr.firstFreePageNo).nextFree rmNoPage
          s.fileHdr.firstFreePageNo chain := sameLinks ▸ well.linked
      have short := well.lengthLe
      by_cases mem : rid.pageNo ∈ chain
      · obtain ⟨before,back,rfl⟩ := List.append_of_mem mem
        rcases List.eq_nil_or_concat before with rfl | ⟨front,prev,rfl⟩
        · exact absurd well.linked.1 first
        rw [List.concat_eq_append,List.append_assoc,List.cons_append,List.nil_append] at well linked short
        obtain ⟨_,prevPage,prevHere,_⟩ := well.free prev (by simp)
        have apart : prev ≠ rid.pageNo := by
          intro same
          have nodup := well.nodup
          simp [same,List.nodup_append] at nodup
        have run := @unlinkPresent (s.withPage rid.pageNo filled s.fileHdr.firstFreePageNo) filled front back prev
          rid.pageNo _ (s.fileHdr.numPages.toNat+1) prevPage (fun q mem => (well.free q mem).1) linked well.nodup
          (by simp [withPage,apart,prevHere]) (by simp [withPage]) (by simp only [List.length_append] at short; omega)
        refine ⟨_,start.trans run,⟨_,well.unlinked prevHere here rfl stored used⟩,?_,⟨rfl,rfl,rfl,le_refl _⟩⟩
        refine effect rfl (Function.update_self ..) rfl fun q differs => ?_
        by_cases same : q = prev
        · simp [withPage,same,apart,prevHere]
        · simp [withPage,differs,same]
      · have real : rid.pageNo ≠ rmNoPage := by
          have low := has.1
          simp only [rmFirstRecordPage,rmNoPage] at low ⊢
          omega
        have run := @unlinkAbsent (s.withPage rid.pageNo filled s.fileHdr.firstFreePageNo) chain rid.pageNo _
          (s.fileHdr.numPages.toNat+1) real (fun q mem => (well.free q mem).1) linked mem (by omega)
        refine ⟨_,start.trans run,⟨chain,?_⟩,?_,extendsWithPage ..⟩
        · refine well.rewrite has stored ?_ well.nodup (fun _ _ => Iff.rfl) (fun known => absurd known mem)
            fun free => absurd free used
          rw [← nextFreeWithPage s.fileHdr.firstFreePageNo,sameLinks]
          exact well.linked
        · exact effect rfl (Function.update_self ..) rfl fun q apart => by simp [withPage,apart]
  · rw [if_neg full] at start
    refine ⟨_,start,⟨chain,?_⟩,?_,extendsWithPage ..⟩
    · refine well.same has here stored rfl ?_
      rw [stored.free,counted.free]
      cases old with
      | none =>
        refine iff_of_true full ?_
        exact counted.free.mp (List.mem_of_getElem? slot)
      | some x => simp [filled]
    · exact effect rfl (Function.update_self ..) rfl fun q apart => by simp [withPage,apart]

end RmFileHandle
end Rmdb.Record
