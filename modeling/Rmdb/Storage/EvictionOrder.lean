import Rmdb.Lib.Recency
import Rmdb.Storage.FrameInvariant

/-! The order of evictions. The history of a run is the list of the pages whose pin count dropped
to zero, latest first; the LRU list keeps the unpinned pages in that order. -/
namespace Rmdb.Storage
open Replacer (FrameId LRUReplacer)
open Lib (Recent)
namespace BufferPoolManager

def IdlePage (s : BufferPoolManager) (pid : PageId) : Prop :=
  ∃ f, s.pageTable.lookup pid = some f ∧ (s.pages f).pinCount = 0

def idle (s : BufferPoolManager) : List PageId := s.replacer.frames.map fun f => (s.pages f).id

def falls (s t : BufferPoolManager) (pid : PageId) : Bool :=
  match s.pageTable.lookup pid,t.pageTable.lookup pid with
  | some f,some g => 0 < (s.pages f).pinCount ∧ (t.pages g).pinCount = 0
  | _,_ => false

def fallen (s t : BufferPoolManager) : List PageId := s.pageTable.keys.filter (falls s t)

inductive History (n : Nat) (disk : DiskManager) : List PageId → BufferPoolManager → Prop where
  | start : History n disk [] (init n disk)
  | step {s t : BufferPoolManager} {op : Op} {drops : List PageId} (past : History n disk drops s) (fresh : op.Fresh s)
      (run : op.exec s = .ok () t) : History n disk (fallen s t ++ drops) t

structure Quiet (s t : BufferPoolManager) : Prop where
  order : (idle t).Sublist (idle s)
  still : ∀ pid, IdlePage t pid → IdlePage s pid

section Steps
variable {s t u : BufferPoolManager} {f : FrameId} {pid new : PageId}

theorem Quiet.refl (s : BufferPoolManager) : Quiet s s := ⟨List.Sublist.refl _,fun _ now => now⟩

theorem Quiet.trans (one : Quiet s t) (two : Quiet t u) : Quiet s u :=
  ⟨two.order.trans one.order,fun pid now => one.still pid (two.still pid now)⟩

theorem Quiet.fallen (quiet : Quiet s t) : fallen s t = [] := by
  refine List.filter_eq_nil_iff.mpr fun pid _ drop => ?_
  unfold falls at drop
  split at drop
  · rename_i f g before now
    obtain ⟨held,gone⟩ := of_decide_eq_true drop
    obtain ⟨f',here,zero⟩ := quiet.still pid ⟨g,now,gone⟩
    obtain rfl := Option.some.inj (before.symm.trans here)
    omega
  · cases drop

theorem sameQuiet (table : t.pageTable = s.pageTable) (lru : t.replacer = s.replacer)
    (ids : ∀ g, (t.pages g).id = (s.pages g).id) (pins : ∀ g, (t.pages g).pinCount = (s.pages g).pinCount) :
    Quiet s t := by
  refine ⟨?_,?_⟩
  · rw [idle,idle,lru]
    simp only [ids]
    exact List.Sublist.refl _
  · intro pid ⟨g,here,zero⟩
    exact ⟨g,table ▸ here,(pins g).symm.trans zero⟩

theorem idleMem (inv : FrameInv s) : pid ∈ idle s ↔ IdlePage s pid := by
  constructor
  · intro mem
    obtain ⟨f,listed,rfl⟩ := List.mem_map.mp mem
    have range := inv.lruRange f listed
    obtain ⟨_,_,cached,zero⟩ := (evictableIff inv range).mp listed
    exact ⟨f,lookupId inv.toCore range cached,zero⟩
  · intro ⟨f,here,zero⟩
    obtain ⟨range,rfl,valid⟩ := (inv.table pid f).mp here
    refine List.mem_map.mpr ⟨f,?_,rfl⟩
    rcases inv.classes f range with free | evictable | pinned
    · exact absurd valid free.2.2.1
    · exact evictable.2.1
    · exact absurd pinned.2.2.2 (by omega)

theorem takeQuiet (inv : FrameInv s) {r : Option FrameId} (ok : findVictimPage s = .ok r t) : Quiet s t := by
  cases free : s.freeList with
  | cons g rest =>
    rw [takeFree free] at ok
    cases ok
    exact sameQuiet rfl rfl (fun _ => rfl) fun _ => rfl
  | nil =>
    rw [takeVictim free] at ok
    cases ok
    cases found : s.replacer.victim.1 with
    | none =>
      rw [LRUReplacer.victimState found]
      exact Quiet.refl s
    | some f =>
      obtain ⟨split,_⟩ := LRUReplacer.victimSome inv.lru found
      refine ⟨?_,fun _ now => now⟩
      rw [idle,idle,split,List.map_append]
      exact List.sublist_append_left ..

theorem pinQuiet (inv : FrameInv s) : Quiet s {s with replacer := s.replacer.pin f} := by
  obtain ⟨frames,_⟩ := LRUReplacer.pinFrames inv.lru f
  refine ⟨?_,fun _ now => now⟩
  rw [idle,idle,frames]
  exact List.filter_sublist.map _

theorem updatedQuiet {p : Page} (det : Detached s f)
    (missing : new.pageNo ≠ invalidPageId → s.pageTable.lookup new = none)
    (ok : updatePage f new s = .ok () t) (pinned : new.pageNo ≠ invalidPageId → p.pinCount ≠ 0) :
    Quiet s {t with pages := Function.update t.pages f p} := by
  obtain ⟨d,_,rfl⟩ := updatePageOk ok
  refine ⟨?_,?_⟩
  · have kept : ∀ g ∈ s.replacer.frames, (Function.update (Function.update s.pages f ⟨new,zeroPage,false,0⟩) f p g).id =
        (s.pages g).id := by
      intro g mem
      have apart : g ≠ f := fun same => det.unlisted (same ▸ mem)
      simp only [Function.update_of_ne apart]
    rw [idle,idle,List.map_congr_left kept]
  · intro pid ⟨g,here,zero⟩
    obtain ⟨range,named,valid⟩ := (retableLookup det.toCore det.range missing pid g).mp here
    by_cases same : g = f
    · subst same
      rw [if_pos rfl] at named
      simp only [Function.update_self] at zero
      exact absurd zero (pinned (named ▸ valid))
    · rw [if_neg same] at named
      simp only [Function.update_of_ne same] at zero
      exact ⟨g,(det.table pid g).mpr ⟨range,named,valid⟩,zero⟩

theorem fetchQuiet (inv : FrameInv s) {r : Option FrameId} (ok : fetchPage pid s = .ok r t) : Quiet s t := by
  cases cached : s.pageTable.lookup pid with
  | some f =>
    rw [fetchHit cached] at ok
    cases ok
    obtain ⟨_,_,_,count⟩ := cachedFrame inv cached
    refine (pinQuiet (f := f) inv).trans ⟨?_,?_⟩
    · simp only [idle,updateId (p := {s.pages f with pinCount := (s.pages f).pinCount+1}) rfl]
      exact List.Sublist.refl _
    · intro x ⟨g,here,zero⟩
      by_cases same : g = f
      · subst same
        simp only [Function.update_self] at zero
        omega
      · simp only [Function.update_of_ne same] at zero
        exact ⟨g,here,zero⟩
  | none =>
    rcases fetchMiss cached ok with ⟨rfl,taken⟩ | ⟨f,s1,s2,data,rfl,taken,updated,read,rfl⟩
    · exact takeQuiet inv taken
    · obtain ⟨det,_,_,table,_⟩ := takeSome inv taken
      have missing : pid.pageNo ≠ invalidPageId → s1.pageTable.lookup pid = none := fun _ => by rw [table]; exact cached
      rw [pinIdle (updateDetached det missing updated).1]
      exact (takeQuiet inv taken).trans (updatedQuiet det missing updated fun _ => Int.one_ne_zero)

theorem newPageQuiet (inv : FrameInv s) {fd : Int} {r : Option (PageId × FrameId)}
    (fresh : s.pageTable.lookup ⟨fd,s.diskManager.fd2pageno fd⟩ = none) (ok : newPage fd s = .ok r t) : Quiet s t := by
  rcases newPageOk ok with ⟨rfl,taken⟩ | ⟨f,s1,s2,rfl,taken,updated,rfl⟩
  · exact takeQuiet inv taken
  · obtain ⟨det,_,_,table,disk,_⟩ := takeSome inv taken
    have det1 : Detached {s1 with diskManager := (s1.diskManager.allocatePage fd).2} f :=
      ⟨det.toCore.sameShape rfl rfl rfl rfl fun _ => rfl,det.range,det.unfree,det.unlisted,det.classes⟩
    have missing : (⟨fd,s1.diskManager.fd2pageno fd⟩ : PageId).pageNo ≠ invalidPageId →
        s1.pageTable.lookup ⟨fd,s1.diskManager.fd2pageno fd⟩ = none := fun _ => by rw [disk,table]; exact fresh
    rw [pinIdle (updateDetached det1 missing updated).1]
    have allocated : Quiet s1 {s1 with diskManager := (s1.diskManager.allocatePage fd).2} :=
      sameQuiet rfl rfl (fun _ => rfl) fun _ => rfl
    exact ((takeQuiet inv taken).trans allocated).trans (updatedQuiet det1 missing updated fun _ => Int.one_ne_zero)

theorem touchQuiet {p : Page} {d : DiskManager} (ids : p.id = (s.pages f).id) (pins : p.pinCount = (s.pages f).pinCount) :
    Quiet s {s with pages := Function.update s.pages f p, diskManager := d} := by
  refine sameQuiet rfl rfl (updateId ids) fun g => ?_
  by_cases here : g = f
  · subst here
    simpa using pins
  · simp [here]

theorem flushQuiet {r : Bool} (ok : flushPage pid s = .ok r t) : Quiet s t := by
  rcases flushOk ok with ⟨_,rfl⟩ | ⟨f,d,_,_,rfl⟩
  · exact Quiet.refl _
  · exact touchQuiet rfl rfl

theorem flushEntriesQuiet {fd : Int} {entries : List (Σ _ : PageId, FrameId)} {v : Unit}
    (ok : flushEntries fd entries s = .ok v t) : Quiet s t := by
  induction entries generalizing s with
  | nil => cases ok; exact Quiet.refl _
  | cons entry rest ih =>
    obtain ⟨pid,f⟩ := entry
    simp only [flushEntries] at ok
    split at ok
    · exact ih ok
    · simp only [getBind,bindOk,diskWriteOk,setPage,modifyRun,EStateM.Result.ok.injEq] at ok
      obtain ⟨_,_,⟨d,_,rfl⟩,_,_,⟨_,rfl⟩,ok⟩ := ok
      have one : Quiet s {s with pages := Function.update s.pages f {s.pages f with isDirty := false}, diskManager := d} :=
        touchQuiet rfl rfl
      exact one.trans (ih ok)

theorem releaseQuiet (inv : FrameInv s) {fd : Int} {v : Unit} (cached : s.pageTable.lookup pid = some f)
    (ok : releaseFrame f fd s = .ok v t) : Quiet s t := by
  obtain ⟨s1,updated,rfl⟩ := releaseOk ok
  have det := pinDetached inv cached
  have none : (⟨fd,invalidPageId⟩ : PageId).pageNo ≠ invalidPageId →
      s.pageTable.lookup ⟨fd,invalidPageId⟩ = none := fun valid => absurd rfl valid
  have quiet := updatedQuiet (p := s1.pages f) det none updated fun valid => absurd rfl valid
  rw [Function.update_eq_self] at quiet
  exact ((pinQuiet inv).trans quiet).trans (sameQuiet rfl rfl (fun _ => rfl) fun _ => rfl)

theorem deleteQuiet (inv : FrameInv s) {r : Bool} (ok : deletePage pid s = .ok r t) : Quiet s t := by
  rcases deleteOk ok with rfl | ⟨f,cached,_,released⟩
  · exact Quiet.refl _
  · exact releaseQuiet inv cached released

theorem releaseAllQuiet {fd : Int} {ids : List PageId} {v : Unit} (inv : FrameInv s)
    (ok : releaseAll fd ids s = .ok v t) : Quiet s t := by
  induction ids generalizing s with
  | nil => cases ok; exact Quiet.refl _
  | cons pid rest ih =>
    simp only [releaseAll,getBind] at ok
    cases cached : s.pageTable.lookup pid with
    | none => rw [cached] at ok; exact ih inv ok
    | some f =>
      rw [cached] at ok
      obtain ⟨_,s1,released,ok⟩ := bindOk.mp ok
      exact (releaseQuiet inv cached released).trans (ih (releaseInv inv cached released) ok)

theorem deleteAllQuiet (inv : FrameInv s) {fd : Int} {r : Bool} (ok : deleteAllPages fd s = .ok r t) : Quiet s t := by
  simp only [deleteAllPages,getBind] at ok
  split at ok
  · obtain ⟨_,s1,released,ok⟩ := bindOk.mp ok
    cases ok
    exact releaseAllQuiet inv released
  · cases ok; exact Quiet.refl s

/- The one call that lets a pin count drop to zero puts its page in front of the others. -/
theorem unpinFalls (inv : FrameInv s) {dirty r : Bool} (ok : unpinPage pid dirty s = .ok r t) :
    Quiet s t ∨ (fallen s t = [pid] ∧ idle t = pid :: idle s ∧ pid ∉ idle s) := by
  rcases unpinOk ok with ⟨_,rfl,_⟩ | ⟨f,_,cached,positive,rfl⟩
  · exact .inl (Quiet.refl _)
  obtain ⟨small,_,named,_⟩ := cachedFrame inv cached
  generalize page : ({s.pages f with
    pinCount := (s.pages f).pinCount-1, isDirty := (s.pages f).isDirty || dirty} : Page) = p
  have ids : p.id = (s.pages f).id := by rw [← page]
  have pins : p.pinCount = (s.pages f).pinCount-1 := by rw [← page]
  by_cases last : (s.pages f).pinCount-1 = 0
  · rw [if_pos last]
    have unlisted : f ∉ s.replacer.frames := by
      intro listed
      have zero := ((evictableIff inv small).mp listed).2.2.2
      omega
    obtain ⟨frames,_⟩ := LRUReplacer.unpinFrames inv.lru unlisted (lruRoom inv.toCore small unlisted)
    refine .inr ⟨?_,?_,?_⟩
    · have onlyThis (x : PageId) (mem : x ∈ s.pageTable.keys) :
          falls s {s with pages := Function.update s.pages f p, replacer := s.replacer.unpin f} x = decide (x = pid) := by
        obtain ⟨g,here⟩ := Option.isSome_iff_exists.mp (AList.lookup_isSome.mpr mem)
        simp only [falls,here]
        by_cases same : x = pid
        · subst same
          obtain rfl := Option.some.inj (cached.symm.trans here)
          simp only [Function.update_self,pins,last,positive]
          simp
        · have apart : g ≠ f := by
            rintro rfl
            exact same (((inv.table x g).mp here).2.1.symm.trans named)
          simp only [Function.update_of_ne apart,same,decide_false,decide_eq_false_iff_not]
          omega
      rw [fallen,List.filter_congr onlyThis,List.filter_eq]
      rw [List.count_eq_one_of_mem s.pageTable.keys_nodup (AList.lookup_isSome.mp (by rw [cached]; rfl))]
      rfl
    · simp only [idle,frames,List.map_cons,updateId ids]
      rw [named]
    · rw [idleMem inv]
      intro ⟨g,here,zero⟩
      obtain rfl := Option.some.inj (cached.symm.trans here)
      omega
  · rw [if_neg last]
    refine .inl ⟨?_,?_⟩
    · simp only [idle,updateId ids]
      exact List.Sublist.refl _
    · intro x ⟨g,here,zero⟩
      by_cases same : g = f
      · subst same
        simp only [Function.update_self,pins] at zero
        exact absurd zero last
      · simp only [Function.update_of_ne same] at zero
        exact ⟨g,here,zero⟩

theorem execOrder {op : Op} (inv : FrameInv s) (fresh : op.Fresh s) (ok : op.exec s = .ok () t) :
    Quiet s t ∨ ∃ pid, fallen s t = [pid] ∧ idle t = pid :: idle s ∧ pid ∉ idle s := by
  cases op with
  | fetchPage pid => obtain ⟨_,_,ok,last⟩ := bindOk.mp ok; cases last; exact .inl (fetchQuiet inv ok)
  | newPage fd => obtain ⟨_,_,ok,last⟩ := bindOk.mp ok; cases last; exact .inl (newPageQuiet inv fresh ok)
  | unpinPage pid dirty =>
    obtain ⟨_,_,ok,last⟩ := bindOk.mp ok
    cases last
    exact (unpinFalls inv ok).imp_right fun falls => ⟨pid,falls⟩
  | flushPage pid => obtain ⟨_,_,ok,last⟩ := bindOk.mp ok; cases last; exact .inl (flushQuiet ok)
  | flushAllPages fd => exact .inl (flushEntriesQuiet ok)
  | deletePage pid => obtain ⟨_,_,ok,last⟩ := bindOk.mp ok; cases last; exact .inl (deleteQuiet inv ok)
  | deleteAllPages fd => obtain ⟨_,_,ok,last⟩ := bindOk.mp ok; cases last; exact .inl (deleteAllQuiet inv ok)
  | storeData f data => cases ok; exact .inl (touchQuiet rfl rfl)

end Steps

theorem History.recent {n : Nat} {disk : DiskManager} {drops : List PageId} {s : BufferPoolManager}
    (past : History n disk drops s) : FrameInv s ∧ Recent drops (idle s) := by
  induction past with
  | start => exact ⟨initInv n disk,Recent.nil _⟩
  | step past fresh run ih =>
    obtain ⟨inv,recent⟩ := ih
    refine ⟨execInv inv fresh run,?_⟩
    rcases execOrder inv fresh run with quiet | ⟨pid,drop,order,absent⟩
    · rw [quiet.fallen]
      exact recent.sublist quiet.order
    · rw [drop,order]
      exact recent.push absent

def Op.Takes (s : BufferPoolManager) : Op → Prop
  | .fetchPage pid => s.pageTable.lookup pid = none
  | .newPage _ => True
  | _ => False

def PageEvicted (s t : BufferPoolManager) (pid : PageId) : Prop :=
  s.pageTable.lookup pid ≠ none ∧ t.pageTable.lookup pid = none

section Eviction
variable {s t : BufferPoolManager} {f : FrameId} {new : PageId}

theorem retableEvicts (core : Core s) (range : f < s.poolSize) (cached : s.Cached f)
    (missing : s.pageTable.lookup new = none)
    (table : t.pageTable = retable s.pageTable (s.pages f).id new f) (pid : PageId) :
    PageEvicted s t pid ↔ pid = (s.pages f).id := by
  have lookup := retableLookup core range fun _ => missing
  have old := lookupId core range cached
  constructor
  · intro ⟨here,gone⟩
    obtain ⟨g,here⟩ := Option.ne_none_iff_exists'.mp here
    by_contra apart
    obtain ⟨small,named,valid⟩ := (core.table pid g).mp here
    have differs : g ≠ f := by
      rintro rfl
      exact apart named.symm
    have still := (lookup pid g).mpr ⟨small,by rw [if_neg differs]; exact named,valid⟩
    rw [← table,gone] at still
    cases still
  · rintro rfl
    refine ⟨by rw [old]; simp,?_⟩
    rw [table]
    cases found : (retable s.pageTable (s.pages f).id new f).lookup (s.pages f).id with
    | none => rfl
    | some g =>
      obtain ⟨small,named,valid⟩ := (lookup _ g).mp found
      by_cases same : g = f
      · rw [if_pos same] at named
        rw [named,old] at missing
        cases missing
      · rw [if_neg same] at named
        have two := (core.table _ g).mpr ⟨small,named,valid⟩
        exact absurd (Option.some.inj (two.symm.trans old)) same

theorem takeEvicts {s1 s2 : BufferPoolManager} (inv : FrameInv s) (free : s.freeList = [])
    (taken : findVictimPage s = .ok (some f) s1) (missing : s.pageTable.lookup new = none) {d : DiskManager}
    (updated : updatePage f new {s1 with diskManager := d} = .ok () s2) (table : t.pageTable = s2.pageTable) :
    ∃ v, (idle s).getLast? = some v ∧ ∀ pid, PageEvicted s t pid ↔ pid = v := by
  obtain ⟨_,_,pages,sameTable,_,_⟩ := takeSome inv taken
  rw [takeVictim free] at taken
  simp only [EStateM.Result.ok.injEq] at taken
  obtain ⟨found,rfl⟩ := taken
  obtain ⟨split,_⟩ := LRUReplacer.victimSome inv.lru found
  have listed : f ∈ s.replacer.frames := by rw [split]; simp
  have range := inv.lruRange f listed
  obtain ⟨e,_,rfl⟩ := updatePageOk updated
  refine ⟨(s.pages f).id,?_,?_⟩
  · rw [idle,split,List.map_append]
    simp
  · exact retableEvicts inv.toCore range ((evictableIff inv range).mp listed).2.2.1 missing table

theorem execEvicts {op : Op} (inv : FrameInv s) (fresh : op.Fresh s) (takes : op.Takes s) (free : s.freeList = [])
    (ok : op.exec s = .ok () t) : (idle s = [] ∧ t = s) ∨
      ∃ v, (idle s).getLast? = some v ∧ ∀ pid, PageEvicted s t pid ↔ pid = v := by
  have none (taken : findVictimPage s = .ok none t) : idle s = [] ∧ t = s := by
    have same := (takeNone inv taken).1
    rw [takeVictim free] at taken
    simp only [EStateM.Result.ok.injEq] at taken
    have empty := (LRUReplacer.victimNone s.replacer).mp taken.1
    exact ⟨by rw [idle,empty]; rfl,same⟩
  cases op with
  | fetchPage pid =>
    obtain ⟨_,_,ok,last⟩ := bindOk.mp ok
    cases last
    rcases fetchMiss takes ok with ⟨rfl,taken⟩ | ⟨f,s1,s2,data,rfl,taken,updated,read,rfl⟩
    · exact .inl (none taken)
    · exact .inr (takeEvicts (d := s1.diskManager) inv free taken takes updated rfl)
  | newPage fd =>
    obtain ⟨_,_,ok,last⟩ := bindOk.mp ok
    cases last
    rcases newPageOk ok with ⟨rfl,taken⟩ | ⟨f,s1,s2,rfl,taken,updated,rfl⟩
    · exact .inl (none taken)
    · have disk := (takeSome inv taken).2.2.2.2.1
      have missing : s.pageTable.lookup ⟨fd,s1.diskManager.fd2pageno fd⟩ = .none := by rw [disk]; exact fresh
      exact .inr (takeEvicts inv free taken missing updated rfl)
  | unpinPage _ _ => cases takes
  | flushPage _ => cases takes
  | flushAllPages _ => cases takes
  | deletePage _ => cases takes
  | deleteAllPages _ => cases takes
  | storeData _ _ => cases takes

end Eviction

structure EvictsOldest (drops : List PageId) (s t : BufferPoolManager) : Prop where
  some : (∃ pid, IdlePage s pid) → ∃ pid, PageEvicted s t pid
  oldest : ∀ pid, PageEvicted s t pid → IdlePage s pid ∧ pid ∈ drops ∧
    ∀ other, IdlePage s other → other ≠ pid → other ∈ drops ∧ drops.idxOf other < drops.idxOf pid

theorem evictionOrder {n : Nat} {disk : DiskManager} {drops : List PageId} {s : BufferPoolManager}
    (past : History n disk drops s) :
    (∀ pid, IdlePage s pid → ∃ f, s.pageTable.lookup pid = some f ∧ s.Evictable f) ∧
    ∀ (op : Op) (t : BufferPoolManager), op.Fresh s → op.Takes s → s.freeList = [] → op.exec s = .ok () t → EvictsOldest drops s t := by
  obtain ⟨inv,recent⟩ := past.recent
  refine ⟨?_,?_⟩
  · intro pid ⟨f,here,zero⟩
    obtain ⟨range,cached,_,_⟩ := cachedFrame inv here
    refine ⟨f,here,?_⟩
    rcases inv.classes f range with free | evictable | pinned
    · exact absurd cached free.2.2.1
    · exact evictable
    · exact absurd pinned.2.2.2 (by omega)
  · intro op t fresh takes free ok
    rcases execEvicts inv fresh takes free ok with ⟨empty,rfl⟩ | ⟨v,last,evicted⟩
    · refine ⟨?_,?_⟩
      · intro ⟨pid,now⟩
        have mem := (idleMem inv).mpr now
        rw [empty] at mem
        cases mem
      · intro pid ⟨here,gone⟩
        exact absurd gone here
    · have mem := List.mem_of_getLast? last
      refine ⟨fun _ => ⟨v,(evicted v).mpr rfl⟩,?_⟩
      intro pid gone
      obtain rfl := (evicted pid).mp gone
      refine ⟨(idleMem inv).mp mem,recent.known _ mem,?_⟩
      intro other now apart
      have listed := (idleMem inv).mpr now
      exact ⟨recent.known other listed,recent.last last listed apart⟩

theorem firstUnpinnedGoes : ∃ s t, History 2 blankDisk [⟨3,1⟩,⟨3,0⟩] s ∧ Op.exec (.newPage 3) s = .ok () t ∧
    PageEvicted s t ⟨3,0⟩ ∧ EvictsOldest [⟨3,1⟩,⟨3,0⟩] s t := by
  have one := @History.step 2 blankDisk _ _ (.newPage 3) [] .start rfl rfl
  have two := @History.step 2 blankDisk _ _ (.newPage 3) _ one rfl rfl
  have three := @History.step 2 blankDisk _ _ (.unpinPage ⟨3,0⟩ true) _ two trivial rfl
  have past : History 2 blankDisk [⟨3,1⟩,⟨3,0⟩] _ := @History.step 2 blankDisk _ _ (.unpinPage ⟨3,1⟩ true) _ three trivial rfl
  exact ⟨_,_,past,rfl,⟨by decide,rfl⟩,(evictionOrder past).2 (.newPage 3) _ rfl trivial rfl rfl⟩

end BufferPoolManager
end Rmdb.Storage
