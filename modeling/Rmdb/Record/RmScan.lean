import Rmdb.Record.RecScan
import Rmdb.Record.RmRecords

/-! `RmScan` hands out the records of a file page by page and slot by slot. -/
namespace Rmdb.Record
open RmFileHandle

namespace RmScan

def scan (s : RmFileHandle) : RecScan Rid where
  isEnd := isEnd s
  rid := .ok
  next := next s

def occupied (p : Int) : Nat → List (Option Bytes) → List Rid
  | _,[] => []
  | i,x :: slots => if x.isSome then ⟨p,i⟩ :: occupied p (i+1) slots else occupied p (i+1) slots

def pageRids (s : RmFileHandle) (p : Int) : List Rid :=
  match s.pages p with
  | some page => occupied p 0 page.slots
  | none => []

def pagesRids (s : RmFileHandle) : Nat → Int → List Rid
  | 0,_ => []
  | k+1,p => pageRids s p ++ pagesRids s k (p+1)

def rids (s : RmFileHandle) : List Rid := pagesRids s (s.fileHdr.numPages-rmFirstRecordPage).toNat rmFirstRecordPage

def remaining (s : RmFileHandle) (rid : Rid) : List Rid :=
  (match s.pages rid.pageNo with
  | some page => occupied rid.pageNo (rid.slotNo+1).toNat (page.slots.drop (rid.slotNo+1).toNat)
  | none => []) ++ pagesRids s (s.fileHdr.numPages-rid.pageNo-1).toNat (rid.pageNo+1)

def Before (a b : Rid) : Prop := a.pageNo < b.pageNo ∨ a.pageNo = b.pageNo ∧ a.slotNo < b.slotNo

section Lists
variable {s : RmFileHandle} {p : Int} {i k : Nat} {slots : List (Option Bytes)} {rid : Rid}

theorem occupiedMem : rid ∈ occupied p i slots ↔
    rid.pageNo = p ∧ ∃ j : Nat, rid.slotNo = (i+j : Nat) ∧ ∃ b, slots[j]? = some (some b) := by
  induction slots generalizing i with
  | nil => simp [occupied]
  | cons x slots ih =>
    have later : (∃ j : Nat, rid.slotNo = (i+j : Nat) ∧ ∃ b, (x :: slots)[j]? = some (some b)) ↔
        (rid.slotNo = i ∧ ∃ b, x = some b) ∨ ∃ j : Nat, rid.slotNo = (i+1+j : Nat) ∧ ∃ b, slots[j]? = some (some b) := by
      constructor
      · rintro ⟨j,slot,b,found⟩
        cases j with
        | zero => exact .inl ⟨by simpa using slot,b,by simpa using found⟩
        | succ j => exact .inr ⟨j,by rw [slot]; omega,b,by simpa using found⟩
      · rintro (⟨slot,b,rfl⟩ | ⟨j,slot,b,found⟩)
        · exact ⟨0,by simpa using slot,b,by simp⟩
        · exact ⟨j+1,by rw [slot]; omega,b,by simpa using found⟩
    rw [later]
    cases x with
    | none =>
      rw [occupied,if_neg (by simp),ih]
      simp
    | some b =>
      rw [occupied,if_pos (by simp),List.mem_cons,ih]
      constructor
      · rintro (rfl | ⟨page,found⟩)
        · exact ⟨rfl,.inl ⟨rfl,b,rfl⟩⟩
        · exact ⟨page,.inr found⟩
      · rintro ⟨page,⟨slot,_⟩ | found⟩
        · exact .inl (by cases rid; simp_all)
        · exact .inr ⟨page,found⟩

theorem occupiedBefore : (occupied p i slots).Pairwise Before := by
  induction slots generalizing i with
  | nil => exact List.Pairwise.nil
  | cons x slots ih =>
    rw [occupied]
    split
    · refine List.pairwise_cons.mpr ⟨?_,ih⟩
      intro rid mem
      obtain ⟨page,j,slot,_⟩ := occupiedMem.mp mem
      refine .inr ⟨page.symm,?_⟩
      simp only [slot]
      omega
    · exact ih

theorem pageRidsMem : rid ∈ pageRids s p ↔ rid.pageNo = p ∧ 0 ≤ rid.slotNo ∧
    ∃ page, s.pages p = some page ∧ ∃ b, page.slots[rid.slotNo.toNat]? = some (some b) := by
  rw [pageRids]
  cases s.pages p with
  | none => simp
  | some page =>
    simp only [occupiedMem,Option.some.injEq,exists_eq_left']
    constructor
    · rintro ⟨page,j,slot,found⟩
      rw [Nat.zero_add] at slot
      exact ⟨page,by omega,by rw [slot]; exact found⟩
    · rintro ⟨page,nonneg,found⟩
      exact ⟨page,rid.slotNo.toNat,by omega,found⟩

theorem pagesRidsMem : rid ∈ pagesRids s k p ↔ p ≤ rid.pageNo ∧ rid.pageNo < p+k ∧ rid ∈ pageRids s rid.pageNo := by
  induction k generalizing p with
  | zero =>
    simp only [pagesRids,List.not_mem_nil,false_iff]
    omega
  | succ k ih =>
    rw [pagesRids,List.mem_append,ih]
    constructor
    · rintro (mem | ⟨low,high,mem⟩)
      · have page := (pageRidsMem.mp mem).1
        exact ⟨by omega,by omega,page ▸ mem⟩
      · exact ⟨by omega,by omega,mem⟩
    · rintro ⟨low,high,mem⟩
      by_cases first : rid.pageNo = p
      · exact .inl (first ▸ mem)
      · exact .inr ⟨by omega,by omega,mem⟩

theorem pagesRidsBefore : (pagesRids s k p).Pairwise Before := by
  induction k generalizing p with
  | zero => exact List.Pairwise.nil
  | succ k ih =>
    rw [pagesRids,List.pairwise_append]
    refine ⟨?_,ih,?_⟩
    · rw [pageRids]
      cases s.pages p with
      | none => exact List.Pairwise.nil
      | some page => exact occupiedBefore
    · intro a memA b memB
      have pageA := (pageRidsMem.mp memA).1
      have pageB := (pagesRidsMem.mp memB).1
      exact .inl (by omega)

theorem ridsMem : rid ∈ rids s ↔ ∃ b, s.records rid = some b := by
  simp only [rids,pagesRidsMem,pageRidsMem,recordsSome,HasPage,rmFirstRecordPage]
  constructor
  · rintro ⟨low,high,_,nonneg,page,here,b,slot⟩
    exact ⟨b,⟨low,by omega⟩,nonneg,page,here,slot⟩
  · rintro ⟨b,⟨low,high⟩,nonneg,page,here,slot⟩
    exact ⟨low,by omega,trivial,nonneg,page,here,b,slot⟩

theorem beforeIrrefl (a : Rid) : ¬ Before a a := by
  simp [Before]

theorem ridsNodup (s : RmFileHandle) : (rids s).Nodup := by
  refine List.Pairwise.imp ?_ (pagesRidsBefore (s := s))
  intro a b before same
  exact beforeIrrefl b (same ▸ before)

theorem occupiedNext : occupied p i slots = if slots.findIdx Option.isSome < slots.length then
    ⟨p,(i+slots.findIdx Option.isSome : Nat)⟩ ::
      occupied p (i+slots.findIdx Option.isSome+1) (slots.drop (slots.findIdx Option.isSome+1))
    else [] := by
  induction slots generalizing i with
  | nil => simp [occupied]
  | cons x slots ih =>
    rw [occupied,List.findIdx_cons]
    cases x with
    | some b => simp
    | none =>
      simp only [Option.isSome_none,Bool.false_eq_true,if_false,cond_false,List.length_cons,Nat.add_lt_add_iff_right,
        List.drop_succ_cons]
      rw [ih]
      split
      · rw [Nat.add_right_comm i 1,Nat.add_assoc i]
      · rfl

theorem occupiedLength : (occupied p i slots).length ≤ slots.length := by
  induction slots generalizing i with
  | nil => simp [occupied]
  | cons x slots ih =>
    have rest := @ih (i+1)
    rw [occupied,List.length_cons]
    split
    · rw [List.length_cons]
      omega
    · omega

theorem pagesRidsLength {n : Nat} (small : ∀ q page, p ≤ q → q < p+k → s.pages q = some page → page.slots.length ≤ n) :
    (pagesRids s k p).length ≤ k*n := by
  induction k generalizing p with
  | zero => simp [pagesRids]
  | succ k ih =>
    have rest := @ih (p+1) fun q page low high here => small q page (by omega) (by push_cast; omega) here
    have first : (pageRids s p).length ≤ n := by
      rw [pageRids]
      cases here : s.pages p with
      | none => simp
      | some page => exact occupiedLength.trans (small p page (le_refl p) (by push_cast; omega) here)
    rw [pagesRids,List.length_append,Nat.succ_mul]
    omega

end Lists

section Walk
variable {s : RmFileHandle} {chain : List Int} {lost : Set Int}

theorem seekRun (well : s.Chained lost chain) {fuel : Nat} {rid : Rid} (has : s.HasPage rid.pageNo) (slot : -1 ≤ rid.slotNo)
    (enough : (s.fileHdr.numPages-rid.pageNo).toNat < fuel) :
    (remaining s rid = [] ∧ seek s fuel rid.pageNo rid.slotNo = .ok ⟨s.fileHdr.numPages,-1⟩) ∨
    ∃ r, remaining s rid = r :: remaining s r ∧ seek s fuel rid.pageNo rid.slotNo = .ok r ∧ s.HasPage r.pageNo ∧
      -1 ≤ r.slotNo := by
  induction fuel generalizing rid with
  | zero => omega
  | succ fuel ih =>
    obtain ⟨low,high⟩ := has
    obtain ⟨page,here,counted⟩ := well.page rid.pageNo ⟨low,high⟩
    have start : seek s (fuel+1) rid.pageNo rid.slotNo =
        if page.nextRecord rid.slotNo < s.fileHdr.numRecordsPerPage then
          .ok ⟨rid.pageNo,(page.nextRecord rid.slotNo : Nat)⟩ else seek s fuel (rid.pageNo+1) (-1) := by
      rw [seek,if_pos high,fetchHeld ⟨low,high⟩ here]
      rfl
    have shape : remaining s rid = occupied rid.pageNo (rid.slotNo+1).toNat (page.slots.drop (rid.slotNo+1).toNat) ++
        pagesRids s (s.fileHdr.numPages-rid.pageNo-1).toNat (rid.pageNo+1) := by
      rw [remaining,here]
    rw [occupiedNext,List.length_drop,counted.length] at shape
    by_cases found : page.nextRecord rid.slotNo < s.fileHdr.numRecordsPerPage
    · rw [if_pos found] at start
      rw [RmPage.nextRecord] at found
      rw [if_pos (by omega)] at shape
      refine .inr ⟨_,?_,start,⟨low,high⟩,by simp only; omega⟩
      rw [shape]
      simp only [remaining,here,List.cons_append,List.drop_drop,RmPage.nextRecord]
      rw [show ((((rid.slotNo+1).toNat+(page.slots.drop (rid.slotNo+1).toNat).findIdx Option.isSome : Nat) : Int)+1).toNat =
        (rid.slotNo+1).toNat+(page.slots.drop (rid.slotNo+1).toNat).findIdx Option.isSome+1 by omega,Nat.add_assoc]
    · rw [if_neg found] at start
      rw [RmPage.nextRecord] at found
      rw [if_neg (by omega),List.nil_append] at shape
      by_cases more : rid.pageNo+1 < s.fileHdr.numPages
      · have has : s.HasPage (rid.pageNo+1) := ⟨by omega,more⟩
        have same : remaining s ⟨rid.pageNo+1,-1⟩ = remaining s rid := by
          obtain ⟨k,count⟩ : ∃ k, (s.fileHdr.numPages-rid.pageNo-1).toNat = k+1 :=
            Nat.exists_eq_succ_of_ne_zero (by omega)
          obtain ⟨page',here',_⟩ := well.page _ has
          rw [shape,count,pagesRids,pageRids,remaining,here',
            show (s.fileHdr.numPages-(rid.pageNo+1)-1).toNat = k by omega]
          rfl
        have rest := @ih ⟨rid.pageNo+1,-1⟩ has (by simp) (by simp only; omega)
        rw [same] at rest
        rw [start]
        exact rest
      · refine .inl ⟨?_,?_⟩
        · rw [shape,show (s.fileHdr.numPages-rid.pageNo-1).toNat = 0 by omega]
          rfl
        · rw [start]
          obtain ⟨fuel,rfl⟩ := Nat.exists_eq_succ_of_ne_zero (by omega : fuel ≠ 0)
          rw [seek,if_neg more]

theorem ridsLength (well : s.Chained lost chain) :
    (rids s).length ≤ s.fileHdr.numPages.toNat*s.fileHdr.numRecordsPerPage := by
  have header := well.header
  simp only [rmFirstRecordPage] at header
  have count := @pagesRidsLength s rmFirstRecordPage (s.fileHdr.numPages-rmFirstRecordPage).toNat
    s.fileHdr.numRecordsPerPage (by
      intro q page low high here
      simp only [rmFirstRecordPage] at low high
      obtain ⟨_,there,counted⟩ := well.page q ⟨low,by omega⟩
      obtain rfl := Option.some.inj (here.symm.trans there)
      exact counted.length.le)
  refine count.trans (Nat.mul_le_mul_right _ ?_)
  simp only [rmFirstRecordPage]
  omega

theorem fuelEnough {p : Int} (has : s.HasPage p) : (s.fileHdr.numPages-p).toNat < s.fileHdr.numPages.toNat+1 := by
  have low := has.1
  simp only [rmFirstRecordPage] at low
  omega

theorem walkEnumerates (well : s.Chained lost chain) {L : List Rid} {rid : Rid} (has : s.HasPage rid.pageNo)
    (slot : -1 ≤ rid.slotNo) (later : remaining s rid = L) : ∃ next, RmScan.next s rid = .ok next ∧
      (scan s).Enumerates next L := by
  induction L generalizing rid with
  | nil =>
    have going : isEnd s rid = false := by
      simp only [isEnd,decide_eq_false_iff_not]
      exact not_le.mpr has.2
    rcases @seekRun _ _ _ well (s.fileHdr.numPages.toNat+1) _ has slot (fuelEnough has) with ⟨_,run⟩ | ⟨r,more,_⟩
    · refine ⟨_,by rw [RmScan.next,going]; exact run,?_⟩
      simp [RecScan.Enumerates,scan,isEnd]
    · rw [later] at more
      cases more
  | cons x L ih =>
    have going : isEnd s rid = false := by
      simp only [isEnd,decide_eq_false_iff_not]
      exact not_le.mpr has.2
    rcases @seekRun _ _ _ well (s.fileHdr.numPages.toNat+1) _ has slot (fuelEnough has) with ⟨none,_⟩ | ⟨r,more,run,hasR,slotR⟩
    · rw [later] at none
      cases none
    · rw [later] at more
      obtain ⟨rfl,tail⟩ := List.cons.inj more
      refine ⟨x,by rw [RmScan.next,going]; exact run,?_⟩
      obtain ⟨d,step,rest⟩ := ih hasR slotR tail.symm
      refine ⟨?_,rfl,d,step,rest⟩
      simp only [scan,isEnd,decide_eq_false_iff_not]
      exact not_le.mpr hasR.2

theorem scanEnumerates (well : s.WellUpTo lost) : ∃ start, begin s = .ok start ∧ (scan s).Enumerates start (rids s) := by
  obtain ⟨chain,well⟩ := well
  rw [begin]
  split
  · rename_i none
    refine ⟨_,rfl,?_⟩
    rw [rids,show (s.fileHdr.numPages-rmFirstRecordPage).toNat = 0 by omega]
    simp [RecScan.Enumerates,scan,isEnd,pagesRids]
  · rename_i some
    have has : s.HasPage rmFirstRecordPage := ⟨le_refl _,not_le.mp some⟩
    refine @walkEnumerates _ _ _ well _ ⟨rmFirstRecordPage,-1⟩ has (by simp) ?_
    obtain ⟨k,count⟩ : ∃ k, (s.fileHdr.numPages-rmFirstRecordPage).toNat = k+1 :=
      Nat.exists_eq_succ_of_ne_zero (by omega)
    rw [rids,count,pagesRids,remaining,pageRids,show (s.fileHdr.numPages-rmFirstRecordPage-1).toNat = k by omega]
    rfl

end Walk
end RmScan
end Rmdb.Record
