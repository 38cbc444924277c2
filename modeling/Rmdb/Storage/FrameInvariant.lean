import Rmdb.Storage.BufferPool

/-! The frame invariant of the buffer pool: page table, free list, LRU list and pin
counts describe one partition of the frames. Between taking a victim and handing
it out a frame belongs to no class; `Detached` is the invariant at that point. -/
namespace Rmdb.Storage
open Replacer (FrameId LRUReplacer)
namespace BufferPoolManager

section Specs
variable {s t : BufferPoolManager} {f : FrameId} {pid new : PageId} {data : PageData} {u : Unit}

def WroteBack (d : DiskManager) (p : Page) (e : DiskManager) : Prop :=
  if p.id.pageNo ≠ invalidPageId ∧ p.isDirty = true then d.writePage p.id p.data = .ok e else e = d

def retable (table : AList (fun _ : PageId => FrameId)) (old new : PageId) (f : FrameId) :
    AList (fun _ : PageId => FrameId) :=
  let rest := if old.pageNo ≠ invalidPageId then table.erase old else table
  if new.pageNo ≠ invalidPageId then rest.insert new f else rest

theorem diskWriteOk : diskWrite pid data s = .ok u t ↔
    ∃ d, s.diskManager.writePage pid data = .ok d ∧ t = {s with diskManager := d} := by
  simp only [diskWrite,getBind]
  cases w : s.diskManager.writePage pid data with
  | ok d => simp [eq_comm]
  | error e => simp

theorem diskReadOk : diskRead pid s = .ok data t ↔ s.diskManager.readPage pid = .ok data ∧ t = s := by
  simp only [diskRead,getBind]
  cases r : s.diskManager.readPage pid with
  | ok d => simp [eq_comm]
  | error e => simp

theorem updatePageOk (ok : updatePage f new s = .ok u t) :
    ∃ d, WroteBack s.diskManager (s.pages f) d ∧
      t = {s with pages := Function.update s.pages f ⟨new,zeroPage,false,0⟩
                  pageTable := retable s.pageTable (s.pages f).id new f
                  diskManager := d} := by
  simp only [updatePage,setPage,getBind] at ok
  by_cases valid : (s.pages f).id.pageNo ≠ invalidPageId
  · by_cases dirty : (s.pages f).isDirty = true
    · simp only [if_pos valid,if_pos dirty,bindOk,diskWriteOk,modifyRun,EStateM.Result.ok.injEq] at ok
      obtain ⟨_,_,⟨d,wrote,rfl⟩,_,_,⟨_,rfl⟩,_,_,⟨_,rfl⟩,_,_,⟨_,rfl⟩,last⟩ := ok
      refine ⟨d,by rw [WroteBack,if_pos ⟨valid,dirty⟩]; exact wrote,?_⟩
      by_cases fresh : new.pageNo ≠ invalidPageId
      · rw [if_pos fresh] at last
        cases last
        simp [retable,valid,fresh]
      · rw [if_neg fresh] at last
        cases last
        simp [retable,valid,fresh]
    · simp only [if_pos valid,if_neg dirty,modifyBind] at ok
      refine ⟨s.diskManager,by rw [WroteBack,if_neg (by simp [dirty])],?_⟩
      by_cases fresh : new.pageNo ≠ invalidPageId
      · rw [if_pos fresh] at ok
        cases ok
        simp [retable,valid,fresh]
      · rw [if_neg fresh] at ok
        cases ok
        simp [retable,valid,fresh]
  · simp only [if_neg valid,modifyBind] at ok
    refine ⟨s.diskManager,by rw [WroteBack,if_neg (by simp [valid])],?_⟩
    by_cases fresh : new.pageNo ≠ invalidPageId
    · rw [if_pos fresh] at ok
      cases ok
      simp [retable,valid,fresh]
    · rw [if_neg fresh] at ok
      cases ok
      simp [retable,valid,fresh]

theorem takeFree {rest : List FrameId} (free : s.freeList = f :: rest) :
    findVictimPage s = .ok (some f) {s with freeList := rest} := by
  simp only [findVictimPage,getBind,free,setBind,pureRun]

theorem takeVictim (free : s.freeList = []) :
    findVictimPage s = .ok s.replacer.victim.1 {s with replacer := s.replacer.victim.2} := by
  simp only [findVictimPage,getBind,free,setBind,pureRun]

theorem fetchHit (cached : s.pageTable.lookup pid = some f) :
    fetchPage pid s = .ok (some f) {s with
      pages := Function.update s.pages f {s.pages f with pinCount := (s.pages f).pinCount+1}
      replacer := s.replacer.pin f} := by
  simp only [fetchPage,setPage,replacerPin,getBind,cached,modifyBind,pureRun]

theorem fetchMiss (missing : s.pageTable.lookup pid = none) {r : Option FrameId}
    (ok : fetchPage pid s = .ok r t) :
    (r = none ∧ findVictimPage s = .ok none t) ∨
    ∃ f s1 s2 data, r = some f ∧ findVictimPage s = .ok (some f) s1 ∧ updatePage f pid s1 = .ok () s2 ∧
      s2.diskManager.readPage pid = .ok data ∧
      t = {s2 with pages := Function.update s2.pages f {s2.pages f with data := data, pinCount := 1}
                   replacer := s2.replacer.pin f} := by
  simp only [fetchPage,getBind,missing] at ok
  obtain ⟨found,s1,taken,ok⟩ := bindOk.mp ok
  cases found with
  | none =>
    cases ok
    exact .inl ⟨rfl,taken⟩
  | some f =>
    simp only [bindOk,diskReadOk,setPage,replacerPin,modifyRun,pureRun,EStateM.Result.ok.injEq] at ok
    obtain ⟨_,s2,updated,data,_,⟨bytes,rfl⟩,_,_,⟨_,rfl⟩,_,_,⟨_,rfl⟩,_,_,⟨_,rfl⟩,rfl,rfl⟩ := ok
    exact .inr ⟨f,s1,_,data,rfl,taken,updated,bytes,by simp⟩

theorem newPageOk {fd : Int} {r : Option (PageId × FrameId)} (ok : newPage fd s = .ok r t) :
    (r = none ∧ findVictimPage s = .ok none t) ∨
    ∃ f s1 s2, r = some (⟨fd,s1.diskManager.fd2pageno fd⟩,f) ∧ findVictimPage s = .ok (some f) s1 ∧
      updatePage f ⟨fd,s1.diskManager.fd2pageno fd⟩
        {s1 with diskManager := (s1.diskManager.allocatePage fd).2} = .ok () s2 ∧
      t = {s2 with pages := Function.update s2.pages f {s2.pages f with pinCount := 1}
                   replacer := s2.replacer.pin f} := by
  simp only [newPage] at ok
  obtain ⟨found,s1,taken,ok⟩ := bindOk.mp ok
  cases found with
  | none =>
    cases ok
    exact .inl ⟨rfl,taken⟩
  | some f =>
    obtain ⟨no,s2,allocated,ok⟩ := bindOk.mp ok
    simp only [allocatePage] at allocated
    obtain ⟨_,s3,checked,allocated⟩ := bindOk.mp allocated
    obtain ⟨_,rfl⟩ := assertOk.mp checked
    simp only [getBind,setBind,pureRun,EStateM.Result.ok.injEq] at allocated
    obtain ⟨rfl,rfl⟩ := allocated
    simp only [bindOk,setPage,replacerPin,modifyRun,pureRun,EStateM.Result.ok.injEq] at ok
    obtain ⟨_,s2,updated,_,_,⟨_,rfl⟩,_,_,⟨_,rfl⟩,rfl,rfl⟩ := ok
    exact .inr ⟨f,s1,s2,rfl,taken,updated,rfl⟩

theorem unpinOk {dirty r : Bool} (ok : unpinPage pid dirty s = .ok r t) :
    (r = false ∧ t = s ∧ ∀ f, s.pageTable.lookup pid = some f → (s.pages f).pinCount ≤ 0) ∨
    ∃ f, r = true ∧ s.pageTable.lookup pid = some f ∧ 0 < (s.pages f).pinCount ∧
      t = {s with
        pages := Function.update s.pages f {s.pages f with
          pinCount := (s.pages f).pinCount-1, isDirty := (s.pages f).isDirty || dirty}
        replacer := if (s.pages f).pinCount-1 = 0 then s.replacer.unpin f else s.replacer} := by
  simp only [unpinPage,getBind] at ok
  cases cached : s.pageTable.lookup pid with
  | none =>
    simp only [cached,pureRun,EStateM.Result.ok.injEq] at ok
    exact .inl ⟨ok.1.symm,ok.2.symm,by simp⟩
  | some f =>
    simp only [cached] at ok
    by_cases idle : (s.pages f).pinCount ≤ 0
    · rw [if_pos idle] at ok
      cases ok
      exact .inl ⟨rfl,rfl,by simpa using idle⟩
    · rw [if_neg idle] at ok
      refine .inr ⟨f,?_,rfl,by omega,?_⟩
      · split at ok <;> (cases ok; rfl)
      · split at ok
        · rename_i zero
          cases ok
          simp [zero]
        · rename_i positive
          cases ok
          simp [positive]

theorem flushOk {r : Bool} (ok : flushPage pid s = .ok r t) :
    (s.pageTable.lookup pid = none ∧ t = s) ∨
    ∃ f d, s.pageTable.lookup pid = some f ∧ s.diskManager.writePage pid (s.pages f).data = .ok d ∧
      t = {s with pages := Function.update s.pages f {s.pages f with isDirty := false}
                  diskManager := d} := by
  simp only [flushPage,getBind] at ok
  cases cached : s.pageTable.lookup pid with
  | none =>
    simp only [cached,pureRun,EStateM.Result.ok.injEq] at ok
    exact .inl ⟨rfl,ok.2.symm⟩
  | some f =>
    simp only [cached] at ok
    obtain ⟨_,s1,wrote,ok⟩ := bindOk.mp ok
    obtain ⟨d,written,rfl⟩ := diskWriteOk.mp wrote
    cases ok
    exact .inr ⟨f,d,rfl,written,rfl⟩

theorem releaseOk {fd : Int} (ok : releaseFrame f fd s = .ok u t) :
    ∃ s1, updatePage f ⟨fd,invalidPageId⟩ {s with replacer := s.replacer.pin f} = .ok () s1 ∧
      t = {s1 with freeList := s1.freeList ++ [f]} := by
  simp only [releaseFrame,replacerPin,modifyBind] at ok
  obtain ⟨_,s1,updated,ok⟩ := bindOk.mp ok
  cases ok
  exact ⟨s1,updated,rfl⟩

theorem deleteOk {r : Bool} (ok : deletePage pid s = .ok r t) :
    t = s ∨ ∃ f, s.pageTable.lookup pid = some f ∧ (s.pages f).pinCount = 0 ∧
      releaseFrame f pid.fd s = .ok () t := by
  simp only [deletePage,getBind] at ok
  cases cached : s.pageTable.lookup pid with
  | none =>
    simp only [cached,pureRun,EStateM.Result.ok.injEq] at ok
    exact .inl ok.2.symm
  | some f =>
    simp only [cached] at ok
    by_cases pinned : (s.pages f).pinCount ≠ 0
    · rw [if_pos pinned] at ok
      cases ok
      exact .inl rfl
    · rw [if_neg pinned] at ok
      obtain ⟨_,s1,released,ok⟩ := bindOk.mp ok
      cases ok
      exact .inr ⟨f,rfl,by omega,released⟩

end Specs

def Cached (s : BufferPoolManager) (f : FrameId) : Prop := (s.pages f).id.pageNo ≠ invalidPageId

def Free (s : BufferPoolManager) (f : FrameId) : Prop :=
  s.freeList.count f = 1 ∧ f ∉ s.replacer.frames ∧ ¬ s.Cached f ∧ (s.pages f).pinCount = 0

def Evictable (s : BufferPoolManager) (f : FrameId) : Prop :=
  f ∉ s.freeList ∧ f ∈ s.replacer.frames ∧ s.Cached f ∧ (s.pages f).pinCount = 0

def Pinned (s : BufferPoolManager) (f : FrameId) : Prop :=
  f ∉ s.freeList ∧ f ∉ s.replacer.frames ∧ s.Cached f ∧ 0 < (s.pages f).pinCount

structure Core (s : BufferPoolManager) : Prop where
  table : ∀ pid f, s.pageTable.lookup pid = some f ↔
    f < s.poolSize ∧ (s.pages f).id = pid ∧ pid.pageNo ≠ invalidPageId
  lru : s.replacer.Valid
  capacity : s.replacer.maxSize = s.poolSize
  freeOnce : s.freeList.Nodup
  freeRange : ∀ f ∈ s.freeList, f < s.poolSize
  lruRange : ∀ f ∈ s.replacer.frames, f < s.poolSize

structure FrameInv (s : BufferPoolManager) : Prop extends Core s where
  classes : ∀ f < s.poolSize, s.Free f ∨ s.Evictable f ∨ s.Pinned f

structure Detached (s : BufferPoolManager) (f : FrameId) : Prop extends Core s where
  range : f < s.poolSize
  unfree : f ∉ s.freeList
  unlisted : f ∉ s.replacer.frames
  classes : ∀ g < s.poolSize, g ≠ f → s.Free g ∨ s.Evictable g ∨ s.Pinned g

section Invariant
variable {s t : BufferPoolManager} {f : FrameId} {pid new : PageId}

theorem initInv (n : Nat) (disk : DiskManager) : FrameInv (init n disk) := by
  refine ⟨⟨?_,LRUReplacer.initValid n,rfl,List.nodup_range,?_,?_⟩,?_⟩
  · intro pid f
    simp only [init,AList.lookup_empty,reduceCtorEq,emptyPage,false_iff,not_and]
    rintro _ rfl
    simp
  · intro f mem; simpa [init] using mem
  · intro f mem; simp [init,LRUReplacer.init,LRUReplacer.frames] at mem
  · intro f small
    refine .inl ⟨?_,by simp [init,LRUReplacer.init,LRUReplacer.frames],by simp [init,Cached,emptyPage],rfl⟩
    exact List.count_eq_one_of_mem List.nodup_range (List.mem_range.mpr small)

theorem Core.sameShape (core : Core s) (size : t.poolSize = s.poolSize) (table : t.pageTable = s.pageTable)
    (free : t.freeList = s.freeList) (lru : t.replacer = s.replacer)
    (ids : ∀ g, (t.pages g).id = (s.pages g).id) : Core t := by
  refine ⟨?_,lru ▸ core.lru,?_,free ▸ core.freeOnce,?_,?_⟩
  · intro pid g; rw [table,size,ids]; exact core.table pid g
  · rw [lru,size]; exact core.capacity
  · rw [free,size]; exact core.freeRange
  · rw [lru,size]; exact core.lruRange

theorem sameShape (inv : FrameInv s) (size : t.poolSize = s.poolSize) (table : t.pageTable = s.pageTable)
    (free : t.freeList = s.freeList) (lru : t.replacer = s.replacer)
    (ids : ∀ g, (t.pages g).id = (s.pages g).id)
    (pins : ∀ g, (t.pages g).pinCount = (s.pages g).pinCount) : FrameInv t := by
  refine ⟨inv.toCore.sameShape size table free lru ids,?_⟩
  intro g small
  have old := inv.classes g (size ▸ small)
  simp only [Free,Evictable,Pinned,Cached,free,lru,ids,pins] at old ⊢
  exact old

theorem freeIff (inv : FrameInv s) (small : f < s.poolSize) : f ∈ s.freeList ↔ s.Free f := by
  constructor
  · intro mem
    rcases inv.classes f small with h | h | h
    · exact h
    · exact absurd mem h.1
    · exact absurd mem h.1
  · intro h
    exact List.count_pos_iff.mp (by rw [h.1]; exact Nat.one_pos)

theorem evictableIff (inv : FrameInv s) (small : f < s.poolSize) :
    f ∈ s.replacer.frames ↔ s.Evictable f := by
  constructor
  · intro mem
    rcases inv.classes f small with h | h | h
    · exact absurd mem h.2.1
    · exact h
    · exact absurd mem h.2.1
  · exact fun h => h.2.1

theorem takeSome (inv : FrameInv s) (ok : findVictimPage s = .ok (some f) t) :
    Detached t f ∧ (t.pages f).pinCount = 0 ∧ t.pages = s.pages ∧ t.pageTable = s.pageTable ∧
      t.diskManager = s.diskManager ∧ t.poolSize = s.poolSize := by
  cases free : s.freeList with
  | cons g rest =>
    rw [takeFree free] at ok
    cases ok
    have once := inv.freeOnce
    rw [free,List.nodup_cons] at once
    have small := inv.freeRange f (by simp [free])
    have cls := (freeIff inv small).mp (by simp [free])
    refine ⟨⟨⟨inv.table,inv.lru,inv.capacity,once.2,?_,inv.lruRange⟩,small,once.1,cls.2.1,?_⟩,
      cls.2.2.2,rfl,rfl,rfl,rfl⟩
    · intro g mem; exact inv.freeRange g (by simp [free,mem])
    · intro g range different
      have old := inv.classes g range
      simp only [Free,Evictable,Pinned,Cached,free,List.count_cons,List.mem_cons,
        beq_iff_eq,different,if_neg (Ne.symm different),Nat.add_zero,false_or] at old ⊢
      exact old
  | nil =>
    rw [takeVictim free] at ok
    simp only [EStateM.Result.ok.injEq] at ok
    obtain ⟨found,rfl⟩ := ok
    obtain ⟨split,valid,cap⟩ := LRUReplacer.victimSome inv.lru found
    have once := inv.lru.framesOnce
    rw [split,List.nodup_append] at once
    have small := inv.lruRange f (by simp [split])
    have cls := (evictableIff inv small).mp (by simp [split])
    have absent : f ∉ s.replacer.victim.2.frames := fun mem => once.2.2 f mem f (by simp) rfl
    refine ⟨⟨⟨inv.table,valid,cap.trans inv.capacity,inv.freeOnce,inv.freeRange,?_⟩,small,
      cls.1,absent,?_⟩,cls.2.2.2,rfl,rfl,rfl,rfl⟩
    · intro g mem; exact inv.lruRange g (by simp [split,mem])
    · intro g range different
      have old := inv.classes g range
      simp only [Free,Evictable,Pinned,Cached,split,List.mem_append,List.mem_singleton,
        different,or_false] at old ⊢
      exact old

theorem takeNone (inv : FrameInv s) (ok : findVictimPage s = .ok none t) :
    t = s ∧ ∀ f < s.poolSize, s.Pinned f := by
  cases free : s.freeList with
  | cons g rest =>
    rw [takeFree free] at ok
    cases ok
  | nil =>
    rw [takeVictim free] at ok
    simp only [EStateM.Result.ok.injEq] at ok
    obtain ⟨found,rfl⟩ := ok
    have empty := (LRUReplacer.victimNone s.replacer).mp found
    refine ⟨by rw [LRUReplacer.victimState found],?_⟩
    intro f small
    rcases inv.classes f small with h | h | h
    · simp [Free,free] at h
    · simp [Evictable,empty] at h
    · exact h

theorem allPinnedTake (inv : FrameInv s) (all : ∀ f < s.poolSize, s.Pinned f) :
    findVictimPage s = .ok none s := by
  have noFree : s.freeList = [] := by
    apply List.eq_nil_iff_forall_not_mem.mpr
    intro f mem
    exact (all f (inv.freeRange f mem)).1 mem
  have noLru : s.replacer.frames = [] := by
    apply List.eq_nil_iff_forall_not_mem.mpr
    intro f mem
    exact (all f (inv.lruRange f mem)).2.1 mem
  have found := (LRUReplacer.victimNone s.replacer).mpr noLru
  rw [takeVictim noFree,found,LRUReplacer.victimState found]

theorem lookupId (core : Core s) {f : FrameId} (range : f < s.poolSize) (cached : s.Cached f) :
    s.pageTable.lookup (s.pages f).id = some f := (core.table _ f).mpr ⟨range,rfl,cached⟩

theorem retableLookup (core : Core s) (range : f < s.poolSize)
    (missing : new.pageNo ≠ invalidPageId → s.pageTable.lookup new = none) (pid : PageId) (g : FrameId) :
    (retable s.pageTable (s.pages f).id new f).lookup pid = some g ↔
      g < s.poolSize ∧ (if g = f then new else (s.pages g).id) = pid ∧ pid.pageNo ≠ invalidPageId := by
  have erased : ∀ pid g, (if (s.pages f).id.pageNo ≠ invalidPageId
      then s.pageTable.erase (s.pages f).id else s.pageTable).lookup pid = some g ↔
      g ≠ f ∧ g < s.poolSize ∧ (s.pages g).id = pid ∧ pid.pageNo ≠ invalidPageId := by
    intro pid g
    split
    · rename_i valid
      by_cases same : pid = (s.pages f).id
      · subst same
        simp only [AList.lookup_erase,reduceCtorEq,false_iff,not_and]
        intro different small ids
        have one := lookupId core range valid
        have two := (core.table _ g).mpr ⟨small,ids,valid⟩
        exact absurd (Option.some.inj (two.symm.trans one)) different
      · rw [AList.lookup_erase_ne same,core.table]
        constructor
        · rintro ⟨small,rfl,ok⟩
          exact ⟨fun h => same (by rw [h]),small,rfl,ok⟩
        · exact fun h => h.2
    · rename_i invalid
      rw [core.table]
      constructor
      · rintro ⟨small,rfl,ok⟩
        exact ⟨fun h => invalid (h ▸ ok),small,rfl,ok⟩
      · exact fun h => h.2
  unfold retable
  dsimp only
  by_cases fresh : new.pageNo ≠ invalidPageId
  · rw [if_pos fresh]
    by_cases same : pid = new
    · subst same
      rw [AList.lookup_insert]
      constructor
      · intro h
        cases Option.some.inj h
        exact ⟨range,by simp,fresh⟩
      · rintro ⟨small,target,ok⟩
        by_cases here : g = f
        · rw [here]
        · rw [if_neg here] at target
          have two := (core.table pid g).mpr ⟨small,target,ok⟩
          rw [missing fresh] at two
          cases two
    · rw [AList.lookup_insert_ne same,erased]
      constructor
      · rintro ⟨different,small,target,ok⟩
        exact ⟨small,by rw [if_neg different]; exact target,ok⟩
      · rintro ⟨small,target,ok⟩
        have different : g ≠ f := by
          rintro rfl
          rw [if_pos rfl] at target
          exact same target.symm
        rw [if_neg different] at target
        exact ⟨different,small,target,ok⟩
  · rw [if_neg fresh,erased]
    constructor
    · rintro ⟨different,small,target,ok⟩
      exact ⟨small,by rw [if_neg different]; exact target,ok⟩
    · rintro ⟨small,target,ok⟩
      have different : g ≠ f := by
        rintro rfl
        rw [if_pos rfl] at target
        exact fresh (target ▸ ok)
      rw [if_neg different] at target
      exact ⟨different,small,target,ok⟩

theorem updateDetached {u : Unit} (inv : Detached s f)
    (missing : new.pageNo ≠ invalidPageId → s.pageTable.lookup new = none)
    (ok : updatePage f new s = .ok u t) :
    Detached t f ∧ t.pages f = ⟨new,zeroPage,false,0⟩ ∧ t.poolSize = s.poolSize := by
  obtain ⟨d,_,rfl⟩ := updatePageOk ok
  refine ⟨⟨⟨?_,inv.lru,inv.capacity,inv.freeOnce,inv.freeRange,inv.lruRange⟩,inv.range,inv.unfree,
    inv.unlisted,?_⟩,by simp,rfl⟩
  · intro pid g
    dsimp only
    rw [retableLookup inv.toCore inv.range missing]
    by_cases here : g = f
    · subst here; simp
    · simp [here]
  · intro g small different
    have old := inv.classes g small different
    simp only [Free,Evictable,Pinned,Cached,Function.update_of_ne different] at old ⊢
    exact old

theorem updateId {p : Page} (ids : p.id = (s.pages f).id) (g : FrameId) :
    (Function.update s.pages f p g).id = (s.pages g).id := by
  by_cases here : g = f
  · subst here; simpa using ids
  · rw [Function.update_of_ne here]

theorem pinIdle (inv : Detached s f) : s.replacer.pin f = s.replacer := by
  have gone : s.replacer.lruHash.lookup f = none := by
    rw [← Option.not_isSome_iff_eq_none,LRUReplacer.hashedSome inv.lru]
    exact inv.unlisted
  rw [LRUReplacer.pin,gone]

theorem pinDetached (inv : FrameInv s) (cached : s.pageTable.lookup pid = some f) :
    Detached {s with replacer := s.replacer.pin f} f := by
  obtain ⟨small,ids,valid⟩ := (inv.table pid f).mp cached
  obtain ⟨frames,lru,cap⟩ := LRUReplacer.pinFrames inv.lru f
  refine ⟨⟨inv.table,lru,cap.trans inv.capacity,inv.freeOnce,inv.freeRange,?_⟩,small,?_,?_,?_⟩
  · intro g mem
    rw [frames] at mem
    exact inv.lruRange g (List.mem_filter.mp mem).1
  · intro mem
    exact ((freeIff inv small).mp mem).2.2.1 (by rw [Cached,ids]; exact valid)
  · rw [frames]; simp
  · intro g range different
    have old := inv.classes g range
    simp only [Free,Evictable,Pinned,Cached,frames,List.mem_filter,ne_eq,different,not_false_eq_true,
      decide_true,and_true] at old ⊢
    exact old

theorem attachPinned (inv : Detached s f) {p : Page} (ids : p.id = (s.pages f).id) (cached : s.Cached f)
    (pins : 0 < p.pinCount) : FrameInv {s with pages := Function.update s.pages f p} := by
  refine ⟨inv.toCore.sameShape rfl rfl rfl rfl (updateId ids),?_⟩
  intro g small
  by_cases here : g = f
  · subst here
    refine .inr (.inr ⟨inv.unfree,inv.unlisted,?_,?_⟩)
    · rw [Cached,updateId ids]; exact cached
    · simpa using pins
  · have old := inv.classes g small here
    simp only [Free,Evictable,Pinned,Cached,Function.update_of_ne here] at old ⊢
    exact old

theorem attachFree (inv : Detached s f) (empty : ¬ s.Cached f) (pins : (s.pages f).pinCount = 0) :
    FrameInv {s with freeList := s.freeList ++ [f]} := by
  refine ⟨⟨inv.table,inv.lru,inv.capacity,?_,?_,inv.lruRange⟩,?_⟩
  · rw [List.nodup_append]
    refine ⟨inv.freeOnce,by simp,?_⟩
    intro a mem b single
    rw [List.mem_singleton] at single
    rintro rfl
    exact inv.unfree (single ▸ mem)
  · intro g mem
    rcases List.mem_append.mp mem with old | single
    · exact inv.freeRange g old
    · rw [List.mem_singleton.mp single]; exact inv.range
  · intro g small
    by_cases here : g = f
    · subst here
      refine .inl ⟨?_,inv.unlisted,empty,pins⟩
      simp [List.count_eq_zero_of_not_mem inv.unfree]
    · have old := inv.classes g small here
      simp only [Free,Evictable,Pinned,Cached,List.count_append,List.mem_append,List.mem_singleton,here,
        or_false,List.count_singleton,beq_iff_eq,if_neg (Ne.symm here),Nat.add_zero] at old ⊢
      exact old

theorem cachedFrame (inv : FrameInv s) (cached : s.pageTable.lookup pid = some f) :
    f < s.poolSize ∧ s.Cached f ∧ (s.pages f).id = pid ∧ 0 ≤ (s.pages f).pinCount := by
  obtain ⟨small,ids,valid⟩ := (inv.table pid f).mp cached
  refine ⟨small,by rw [Cached,ids]; exact valid,ids,?_⟩
  rcases inv.classes f small with h | h | h
  · exact h.2.2.2.ge
  · exact h.2.2.2.ge
  · exact h.2.2.2.le

theorem fetchInv (inv : FrameInv s) {r : Option FrameId} (ok : fetchPage pid s = .ok r t) : FrameInv t := by
  cases cached : s.pageTable.lookup pid with
  | some f =>
    rw [fetchHit cached] at ok
    cases ok
    obtain ⟨_,isCached,_,count⟩ := cachedFrame inv cached
    exact attachPinned (pinDetached inv cached) rfl isCached (by dsimp only; omega)
  | none =>
    rcases fetchMiss cached ok with ⟨rfl,taken⟩ | ⟨f,s1,s2,data,rfl,taken,updated,read,rfl⟩
    · obtain ⟨rfl,_⟩ := takeNone inv taken
      exact inv
    · obtain ⟨det,_,_,table,_,_⟩ := takeSome inv taken
      have nonneg := DiskManager.readNonneg read
      obtain ⟨det2,page,_⟩ := updateDetached det (fun _ => by rw [table]; exact cached) updated
      rw [pinIdle det2]
      refine attachPinned det2 rfl ?_ Int.one_pos
      rw [Cached,page]; dsimp only [invalidPageId]; omega

theorem newPageInv (inv : FrameInv s) {fd : Int} {r : Option (PageId × FrameId)}
    (fresh : s.pageTable.lookup ⟨fd,s.diskManager.fd2pageno fd⟩ = none)
    (ok : newPage fd s = .ok r t) : FrameInv t := by
  rcases newPageOk ok with ⟨rfl,taken⟩ | ⟨f,s1,s2,rfl,taken,updated,rfl⟩
  · obtain ⟨rfl,_⟩ := takeNone inv taken
    exact inv
  · obtain ⟨det,_,_,table,disk,_⟩ := takeSome inv taken
    have det1 : Detached {s1 with diskManager := (s1.diskManager.allocatePage fd).2} f :=
      ⟨det.toCore.sameShape rfl rfl rfl rfl fun _ => rfl,det.range,det.unfree,det.unlisted,det.classes⟩
    obtain ⟨det2,page,_⟩ := updateDetached det1 (fun _ => by rw [disk,table]; exact fresh) updated
    rw [pinIdle det2]
    refine attachPinned det2 rfl ?_ Int.one_pos
    rw [Cached,page]; dsimp only [invalidPageId]; omega

/- `unpin` never meets the replacer's capacity: a frame outside the list leaves room for itself. -/
theorem lruRoom (core : Core s) (small : f < s.poolSize) (absent : f ∉ s.replacer.frames) :
    s.replacer.frames.length < s.replacer.maxSize := by
  have once : (f :: s.replacer.frames).Nodup := List.nodup_cons.mpr ⟨absent,core.lru.framesOnce⟩
  have inside : (f :: s.replacer.frames) ⊆ List.range s.poolSize := by
    intro g mem
    rcases List.mem_cons.mp mem with rfl | old
    · exact List.mem_range.mpr small
    · exact List.mem_range.mpr (core.lruRange g old)
  have bound := (once.subperm inside).length_le
  rw [List.length_cons,List.length_range] at bound
  rw [core.capacity]
  omega

theorem unpinInv (inv : FrameInv s) {dirty r : Bool} (ok : unpinPage pid dirty s = .ok r t) : FrameInv t := by
  rcases unpinOk ok with ⟨_,rfl,_⟩ | ⟨f,_,cached,positive,rfl⟩
  · exact inv
  · obtain ⟨small,isCached,_,_⟩ := cachedFrame inv cached
    have pinned : s.Pinned f := by
      rcases inv.classes f small with h | h | h
      · exact absurd isCached h.2.2.1
      · exact absurd h.2.2.2 (by omega)
      · exact h
    generalize page : ({s.pages f with
      pinCount := (s.pages f).pinCount-1, isDirty := (s.pages f).isDirty || dirty} : Page) = p
    have ids : p.id = (s.pages f).id := by rw [← page]
    have pins : p.pinCount = (s.pages f).pinCount-1 := by rw [← page]
    have pCached : Cached {s with pages := Function.update s.pages f p} f := by
      rw [Cached,updateId ids]; exact isCached
    by_cases last : (s.pages f).pinCount-1 = 0
    · rw [if_pos last]
      obtain ⟨frames,lru,cap⟩ := LRUReplacer.unpinFrames inv.lru pinned.2.1 (lruRoom inv.toCore small pinned.2.1)
      refine ⟨⟨?_,lru,cap.trans inv.capacity,inv.freeOnce,inv.freeRange,?_⟩,?_⟩
      · intro pid g; rw [updateId ids]; exact inv.table pid g
      · intro g mem
        rw [frames] at mem
        rcases List.mem_cons.mp mem with rfl | old
        · exact small
        · exact inv.lruRange g old
      · intro g range
        by_cases here : g = f
        · subst here
          exact .inr (.inl ⟨pinned.1,by simp [frames],pCached,by simpa [pins] using last⟩)
        · have old := inv.classes g range
          simp only [Free,Evictable,Pinned,Cached,Function.update_of_ne here,frames,List.mem_cons,here,
            false_or] at old ⊢
          exact old
    · rw [if_neg last]
      refine ⟨inv.toCore.sameShape rfl rfl rfl rfl (updateId ids),?_⟩
      intro g range
      by_cases here : g = f
      · subst here
        refine .inr (.inr ⟨pinned.1,pinned.2.1,pCached,?_⟩)
        simp only [Function.update_self,pins]; omega
      · have old := inv.classes g range
        simp only [Free,Evictable,Pinned,Cached,Function.update_of_ne here] at old ⊢
        exact old

theorem touchInv (inv : FrameInv s) {p : Page} {d : DiskManager} (ids : p.id = (s.pages f).id)
    (pins : p.pinCount = (s.pages f).pinCount) :
    FrameInv {s with pages := Function.update s.pages f p, diskManager := d} := by
  refine sameShape inv rfl rfl rfl rfl (updateId ids) ?_
  intro g
  by_cases here : g = f
  · subst here; simpa using pins
  · simp [here]

theorem flushInv (inv : FrameInv s) {r : Bool} (ok : flushPage pid s = .ok r t) : FrameInv t := by
  rcases flushOk ok with ⟨_,rfl⟩ | ⟨f,d,_,_,rfl⟩
  · exact inv
  · exact touchInv inv rfl rfl

theorem releaseInv (inv : FrameInv s) {fd : Int} {u : Unit} (cached : s.pageTable.lookup pid = some f)
    (ok : releaseFrame f fd s = .ok u t) : FrameInv t := by
  obtain ⟨s1,updated,rfl⟩ := releaseOk ok
  obtain ⟨det,page,_⟩ := updateDetached (pinDetached inv cached) (fun h => absurd rfl h) updated
  exact attachFree det (by rw [Cached,page]; simp) (by rw [page])

theorem deleteInv (inv : FrameInv s) {r : Bool} (ok : deletePage pid s = .ok r t) : FrameInv t := by
  rcases deleteOk ok with rfl | ⟨f,cached,_,released⟩
  · exact inv
  · exact releaseInv inv cached released

theorem releaseAllInv {fd : Int} {ids : List PageId} {u : Unit} (inv : FrameInv s)
    (ok : releaseAll fd ids s = .ok u t) : FrameInv t := by
  induction ids generalizing s with
  | nil => cases ok; exact inv
  | cons pid rest ih =>
    simp only [releaseAll,getBind] at ok
    cases cached : s.pageTable.lookup pid with
    | none => rw [cached] at ok; exact ih inv ok
    | some f =>
      rw [cached] at ok
      obtain ⟨_,s1,released,ok⟩ := bindOk.mp ok
      exact ih (releaseInv inv cached released) ok

theorem deleteAllInv (inv : FrameInv s) {fd : Int} {r : Bool} (ok : deleteAllPages fd s = .ok r t) :
    FrameInv t := by
  simp only [deleteAllPages,getBind] at ok
  split at ok
  · obtain ⟨_,s1,released,ok⟩ := bindOk.mp ok
    cases ok
    exact releaseAllInv inv released
  · cases ok; exact inv

theorem flushEntriesInv {fd : Int} {entries : List (Σ _ : PageId, FrameId)} {u : Unit} (inv : FrameInv s)
    (ok : flushEntries fd entries s = .ok u t) : FrameInv t := by
  induction entries generalizing s with
  | nil => cases ok; exact inv
  | cons entry rest ih =>
    obtain ⟨pid,f⟩ := entry
    simp only [flushEntries] at ok
    split at ok
    · exact ih inv ok
    · simp only [getBind,bindOk,diskWriteOk,setPage,modifyRun,EStateM.Result.ok.injEq] at ok
      obtain ⟨_,_,⟨d,_,rfl⟩,_,_,⟨_,rfl⟩,ok⟩ := ok
      refine ih ?_ ok
      exact touchInv inv rfl rfl

theorem flushAllInv (inv : FrameInv s) {fd : Int} {u : Unit} (ok : flushAllPages fd s = .ok u t) :
    FrameInv t := flushEntriesInv inv ok

end Invariant

inductive Op where
  | fetchPage (pid : PageId)
  | newPage (fd : Int)
  | unpinPage (pid : PageId) (isDirty : Bool)
  | flushPage (pid : PageId)
  | flushAllPages (fd : Int)
  | deletePage (pid : PageId)
  | deleteAllPages (fd : Int)
  | storeData (f : FrameId) (data : PageData)

def Op.exec : Op → M BufferPoolManager Unit
  | .fetchPage pid => do let _ ← BufferPoolManager.fetchPage pid
  | .newPage fd => do let _ ← BufferPoolManager.newPage fd
  | .unpinPage pid isDirty => do let _ ← BufferPoolManager.unpinPage pid isDirty
  | .flushPage pid => do let _ ← BufferPoolManager.flushPage pid
  | .flushAllPages fd => BufferPoolManager.flushAllPages fd
  | .deletePage pid => do let _ ← BufferPoolManager.deletePage pid
  | .deleteAllPages fd => do let _ ← BufferPoolManager.deleteAllPages fd
  | .storeData f data => BufferPoolManager.storeData f data

/- A new page gets a number that is not already cached. -/
def Op.Fresh (s : BufferPoolManager) : Op → Prop
  | .newPage fd => s.pageTable.lookup ⟨fd,s.diskManager.fd2pageno fd⟩ = none
  | _ => True

inductive Run : BufferPoolManager → List Op → BufferPoolManager → Prop where
  | nil (s) : Run s [] s
  | cons {s s1 t op ops} (fresh : op.Fresh s) (step : op.exec s = .ok () s1) (rest : Run s1 ops t) :
      Run s (op :: ops) t

theorem execInv {s t : BufferPoolManager} {op : Op} (inv : FrameInv s) (fresh : op.Fresh s)
    (ok : op.exec s = .ok () t) : FrameInv t := by
  cases op with
  | fetchPage pid => obtain ⟨_,_,ok,last⟩ := bindOk.mp ok; cases last; exact fetchInv inv ok
  | newPage fd => obtain ⟨_,_,ok,last⟩ := bindOk.mp ok; cases last; exact newPageInv inv fresh ok
  | unpinPage pid dirty => obtain ⟨_,_,ok,last⟩ := bindOk.mp ok; cases last; exact unpinInv inv ok
  | flushPage pid => obtain ⟨_,_,ok,last⟩ := bindOk.mp ok; cases last; exact flushInv inv ok
  | flushAllPages fd => exact flushAllInv inv ok
  | deletePage pid => obtain ⟨_,_,ok,last⟩ := bindOk.mp ok; cases last; exact deleteInv inv ok
  | deleteAllPages fd => obtain ⟨_,_,ok,last⟩ := bindOk.mp ok; cases last; exact deleteAllInv inv ok
  | storeData f data => cases ok; exact touchInv inv rfl rfl

theorem updateSize {s t : BufferPoolManager} {f : FrameId} {new : PageId} {u : Unit}
    (ok : updatePage f new s = .ok u t) : t.poolSize = s.poolSize := by
  obtain ⟨d,_,rfl⟩ := updatePageOk ok
  rfl

theorem releaseSize {s t : BufferPoolManager} {f : FrameId} {fd : Int} {u : Unit}
    (ok : releaseFrame f fd s = .ok u t) : t.poolSize = s.poolSize := by
  obtain ⟨s1,updated,rfl⟩ := releaseOk ok
  have size := updateSize updated
  exact size

theorem releaseAllSize {s t : BufferPoolManager} {fd : Int} {ids : List PageId} {u : Unit}
    (ok : releaseAll fd ids s = .ok u t) : t.poolSize = s.poolSize := by
  induction ids generalizing s with
  | nil => cases ok; rfl
  | cons pid rest ih =>
    simp only [releaseAll,getBind] at ok
    cases cached : s.pageTable.lookup pid with
    | none => rw [cached] at ok; exact ih ok
    | some f =>
      rw [cached] at ok
      obtain ⟨_,s1,released,ok⟩ := bindOk.mp ok
      exact (ih ok).trans (releaseSize released)

theorem flushEntriesSize {s t : BufferPoolManager} {fd : Int} {entries : List (Σ _ : PageId, FrameId)} {u : Unit}
    (ok : flushEntries fd entries s = .ok u t) : t.poolSize = s.poolSize := by
  induction entries generalizing s with
  | nil => cases ok; rfl
  | cons entry rest ih =>
    obtain ⟨pid,f⟩ := entry
    simp only [flushEntries] at ok
    split at ok
    · exact ih ok
    · simp only [getBind,bindOk,diskWriteOk,setPage,modifyRun,EStateM.Result.ok.injEq] at ok
      obtain ⟨_,_,⟨d,_,rfl⟩,_,_,⟨_,rfl⟩,ok⟩ := ok
      have size := ih ok
      exact size

theorem execSize {s t : BufferPoolManager} {op : Op} (inv : FrameInv s) (ok : op.exec s = .ok () t) :
    t.poolSize = s.poolSize := by
  cases op with
  | fetchPage pid =>
    obtain ⟨_,_,ok,last⟩ := bindOk.mp ok
    cases last
    cases cached : s.pageTable.lookup pid with
    | some f => rw [fetchHit cached] at ok; cases ok; rfl
    | none =>
      rcases fetchMiss cached ok with ⟨rfl,taken⟩ | ⟨f,s1,s2,data,rfl,taken,updated,read,rfl⟩
      · exact congrArg poolSize (takeNone inv taken).1
      · exact (updateSize updated).trans (takeSome inv taken).2.2.2.2.2
  | newPage fd =>
    obtain ⟨_,_,ok,last⟩ := bindOk.mp ok
    cases last
    rcases newPageOk ok with ⟨rfl,taken⟩ | ⟨f,s1,s2,rfl,taken,updated,rfl⟩
    · exact congrArg poolSize (takeNone inv taken).1
    · exact (updateSize updated).trans (takeSome inv taken).2.2.2.2.2
  | unpinPage pid dirty =>
    obtain ⟨_,_,ok,last⟩ := bindOk.mp ok
    cases last
    rcases unpinOk ok with ⟨_,rfl,_⟩ | ⟨f,_,_,_,rfl⟩ <;> rfl
  | flushPage pid =>
    obtain ⟨_,_,ok,last⟩ := bindOk.mp ok
    cases last
    rcases flushOk ok with ⟨_,rfl⟩ | ⟨f,d,_,_,rfl⟩ <;> rfl
  | flushAllPages fd => exact flushEntriesSize ok
  | deletePage pid =>
    obtain ⟨_,_,ok,last⟩ := bindOk.mp ok
    cases last
    rcases deleteOk ok with rfl | ⟨f,_,_,released⟩
    · rfl
    · exact releaseSize released
  | deleteAllPages fd =>
    obtain ⟨_,_,ok,last⟩ := bindOk.mp ok
    cases last
    simp only [deleteAllPages,getBind] at ok
    split at ok
    · obtain ⟨_,s1,released,ok⟩ := bindOk.mp ok
      cases ok
      exact releaseAllSize released
    · cases ok; rfl
  | storeData f data => cases ok; rfl

theorem runInv {s t : BufferPoolManager} {ops : List Op} (run : Run s ops t) (inv : FrameInv s) :
    FrameInv t ∧ t.poolSize = s.poolSize := by
  induction run with
  | nil => exact ⟨inv,rfl⟩
  | cons fresh step _ ih =>
    obtain ⟨done,size⟩ := ih (execInv inv fresh step)
    exact ⟨done,size.trans (execSize inv step)⟩

theorem fetchNullIff {s : BufferPoolManager} {pid : PageId} (inv : FrameInv s)
    (missing : s.pageTable.lookup pid = none) :
    (∃ t, fetchPage pid s = .ok none t) ↔ ∀ f < s.poolSize, s.Pinned f := by
  constructor
  · rintro ⟨t,ok⟩
    rcases fetchMiss missing ok with ⟨_,taken⟩ | ⟨_,_,_,_,none,_⟩
    · exact (takeNone inv taken).2
    · cases none
  · intro all
    refine ⟨s,?_⟩
    simp only [fetchPage,getBind,missing]
    rw [bindEq (allPinnedTake inv all)]
    rfl

theorem newPageNullIff {s : BufferPoolManager} (inv : FrameInv s) (fd : Int) :
    (∃ t, newPage fd s = .ok none t) ↔ ∀ f < s.poolSize, s.Pinned f := by
  constructor
  · rintro ⟨t,ok⟩
    rcases newPageOk ok with ⟨_,taken⟩ | ⟨_,_,_,none,_⟩
    · exact (takeNone inv taken).2
    · cases none
  · intro all
    refine ⟨s,?_⟩
    simp only [newPage]
    rw [bindEq (allPinnedTake inv all)]
    rfl

theorem reachableFrames {n : Nat} {disk : DiskManager} {ops : List Op} {s : BufferPoolManager}
    (run : Run (init n disk) ops s) :
    s.poolSize = n ∧
    (∀ pid f, s.pageTable.lookup pid = some f ↔
      f < s.poolSize ∧ (s.pages f).id = pid ∧ pid.pageNo ≠ invalidPageId) ∧
    (∀ f < s.poolSize, (s.Free f ∨ s.Evictable f ∨ s.Pinned f) ∧
      ¬ (s.Free f ∧ s.Evictable f) ∧ ¬ (s.Free f ∧ s.Pinned f) ∧ ¬ (s.Evictable f ∧ s.Pinned f)) ∧
    s.replacer.frames.Nodup ∧
    (∀ f node, s.replacer.lruHash.lookup f = some node ↔ ⟨node,f⟩ ∈ s.replacer.lruList) ∧
    (∀ pid, s.pageTable.lookup pid = none →
      ((∃ t, fetchPage pid s = .ok none t) ↔ ∀ f < s.poolSize, s.Pinned f)) ∧
    ∀ fd, (∃ t, newPage fd s = .ok none t) ↔ ∀ f < s.poolSize, s.Pinned f := by
  obtain ⟨inv,size⟩ := runInv run (initInv n disk)
  refine ⟨size,inv.table,?_,inv.lru.framesOnce,inv.lru.hashed,fun pid missing => fetchNullIff inv missing,
    newPageNullIff inv⟩
  intro f small
  refine ⟨inv.classes f small,?_,?_,?_⟩
  · rintro ⟨free,evictable⟩
    exact free.2.2.1 evictable.2.2.1
  · rintro ⟨free,pinned⟩
    exact free.2.2.1 pinned.2.2.1
  · rintro ⟨evictable,pinned⟩
    exact pinned.2.1 evictable.2.1

def blankDisk : DiskManager := ⟨fun _ => [],fun _ => 0⟩

def evictingOps : List Op :=
  [.newPage 3,.newPage 3,.unpinPage ⟨3,0⟩ true,.newPage 3]

theorem evictingFrames : ∃ s, Run (init 2 blankDisk) evictingOps s ∧
    s.pageTable.lookup ⟨3,0⟩ = none ∧ ¬ (s.Free 0 ∧ s.Pinned 0) ∧
    ((∃ t, fetchPage ⟨3,0⟩ s = .ok none t) ↔ ∀ f < s.poolSize, s.Pinned f) := by
  have run : Run (init 2 blankDisk) evictingOps _ :=
    .cons rfl rfl (.cons rfl rfl (.cons trivial rfl (.cons rfl rfl (.nil _))))
  obtain ⟨_,_,classes,_,_,fetch,_⟩ := reachableFrames run
  exact ⟨_,run,rfl,(classes 0 (by decide)).2.2.1,fetch ⟨3,0⟩ rfl⟩

end BufferPoolManager
end Rmdb.Storage
