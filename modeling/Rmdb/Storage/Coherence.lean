import Rmdb.Storage.FrameInvariant

/-! Coherence of the buffer pool. `Clients` records what the callers know: the pins
they have not given back, the pages they changed and have not yet unpinned as dirty,
and the bytes last written to each page. A client writes through the frame its own
pin gave it and unpins only what it has pinned. -/
namespace Rmdb.Storage
open Replacer (FrameId LRUReplacer)
namespace BufferPoolManager

abbrev Client := Nat

structure Pin where
  client : Client
  pid : PageId
  frame : FrameId
  deriving DecidableEq

structure Clients where
  held : List Pin
  owes : Client → PageId → Bool
  last : PageId → Option PageData

namespace Clients

def init (disk : DiskManager) : Clients :=
  ⟨[],fun _ _ => false,fun pid => (disk.readPage pid).toOption⟩

def pin (g : Clients) (c : Client) (pid : PageId) (f : FrameId) : Clients :=
  {g with held := ⟨c,pid,f⟩ :: g.held}

def owe (g : Clients) (c : Client) (pid : PageId) (value : Bool) : Client → PageId → Bool :=
  fun c' pid' => if c' = c ∧ pid' = pid then value else g.owes c' pid'

def wrote (g : Clients) (c : Client) (pid : PageId) (data : PageData) : Clients :=
  {g with owes := g.owe c pid true, last := Function.update g.last pid (some data)}

def forget (g : Clients) (pid : PageId) : Clients :=
  {g with last := Function.update g.last pid none}

def unpin (g : Clients) (c : Client) (pid : PageId) (f : FrameId) (isDirty : Bool) : Clients :=
  {g with held := g.held.erase ⟨c,pid,f⟩
          owes := if isDirty then g.owe c pid false else g.owes}

def pinsOf (g : Clients) (pid : PageId) : Nat := g.held.countP (fun p => p.pid = pid)

end Clients

/- One pool operation by one client. The `unpin` rule is the calling convention: the last pin of a
client that still owes its change is given back as dirty. -/
inductive Step : BufferPoolManager → Clients → BufferPoolManager → Clients → Prop where
  | fetch {s t g pid f} (c : Client) (ok : fetchPage pid s = .ok (some f) t) : Step s g t (g.pin c pid f)
  | fetchNull {s t g pid} (ok : fetchPage pid s = .ok none t) : Step s g t g
  | new {s t g fd pid f} (c : Client) (fresh : s.pageTable.lookup ⟨fd,s.diskManager.fd2pageno fd⟩ = none)
      (ok : newPage fd s = .ok (some (pid,f)) t) : Step s g t ((g.pin c pid f).wrote c pid zeroPage)
  | newNull {s t g fd} (ok : newPage fd s = .ok none t) : Step s g t g
  | write {s t g c pid f data} (mem : ⟨c,pid,f⟩ ∈ g.held) (ok : storeData f data s = .ok () t) :
      Step s g t (g.wrote c pid data)
  | unpin {s t g c pid f isDirty r} (mem : ⟨c,pid,f⟩ ∈ g.held)
      (settles : isDirty = true ∨ g.owes c pid = false ∨
        1 < g.held.countP (fun p => p.client = c ∧ p.pid = pid))
      (ok : unpinPage pid isDirty s = .ok r t) : Step s g t (g.unpin c pid f isDirty)
  | unpinRefused {s t g pid isDirty} (ok : unpinPage pid isDirty s = .ok false t) : Step s g t g
  | flush {s t g pid r} (ok : flushPage pid s = .ok r t) : Step s g t g
  | flushAll {s t g fd} (ok : flushAllPages fd s = .ok () t) : Step s g t g
  | delete {s t g pid r} (ok : deletePage pid s = .ok r t) : Step s g t g
  | deleteAll {s t g fd r} (ok : deleteAllPages fd s = .ok r t) : Step s g t g

inductive Session : BufferPoolManager → Clients → BufferPoolManager → Clients → Prop where
  | nil (s g) : Session s g s g
  | cons {s g s1 g1 t h} (step : Step s g s1 g1) (rest : Session s1 g1 t h) : Session s g t h

structure Coherent (s : BufferPoolManager) (g : Clients) : Prop where
  frames : FrameInv s
  pins : ∀ pid f, s.pageTable.lookup pid = some f → (s.pages f).pinCount = g.pinsOf pid
  held : ∀ p ∈ g.held, s.pageTable.lookup p.pid = some p.frame
  owed : ∀ c pid, g.owes c pid = true → ∃ p ∈ g.held, p.client = c ∧ p.pid = pid
  data : ∀ pid f d, s.pageTable.lookup pid = some f → g.last pid = some d → (s.pages f).data = d
  clean : ∀ pid f d, s.pageTable.lookup pid = some f → g.last pid = some d → (s.pages f).isDirty = false →
    (∀ c, g.owes c pid = false) → s.diskManager.readPage pid = .ok d
  stored : ∀ pid d, s.pageTable.lookup pid = none → g.last pid = some d → s.diskManager.readPage pid = .ok d

section Coherence
variable {s t : BufferPoolManager} {g : Clients} {f : FrameId} {pid new : PageId} {c : Client}

theorem initCoherent (n : Nat) (disk : DiskManager) : Coherent (init n disk) (Clients.init disk) := by
  refine ⟨initInv n disk,?_,?_,?_,?_,?_,?_⟩
  · intro pid f cached; simp [init] at cached
  · intro p mem; simp [Clients.init] at mem
  · intro c pid owes; simp [Clients.init] at owes
  · intro pid f d cached; simp [init] at cached
  · intro pid f d cached; simp [init] at cached
  · intro pid d _ last
    simp only [Clients.init,init] at last ⊢
    cases read : disk.readPage pid with
    | ok data => rw [read] at last; cases last; rfl
    | error e => rw [read] at last; cases last

theorem unowed (coh : Coherent s g) (idle : g.pinsOf pid = 0) (c : Client) : g.owes c pid = false := by
  cases owes : g.owes c pid with
  | false => rfl
  | true =>
    obtain ⟨p,mem,_,same⟩ := coh.owed c pid owes
    exact absurd (List.countP_eq_zero.mp idle p mem) (by simp [same])

theorem uncachedPins (coh : Coherent s g) (missing : s.pageTable.lookup pid = none) : g.pinsOf pid = 0 := by
  rw [Clients.pinsOf,List.countP_eq_zero]
  intro p mem
  have cached := coh.held p mem
  simp only [decide_eq_true_eq]
  intro same
  rw [same,missing] at cached
  cases cached

structure Evicted (s t : BufferPoolManager) (g : Clients) (f : FrameId) (new : PageId) : Prop where
  idle : (s.pages f).pinCount = 0
  others : ∀ pid h, pid ≠ new → (t.pageTable.lookup pid = some h ↔ h ≠ f ∧ s.pageTable.lookup pid = some h)
  pages : ∀ h, h ≠ f → t.pages h = s.pages h
  reads : ∀ pid d, s.pageTable.lookup pid ≠ some f → s.diskManager.readPage pid = .ok d →
    t.diskManager.readPage pid = .ok d
  wrote : ∀ pid d, s.pageTable.lookup pid = some f → g.last pid = some d → t.diskManager.readPage pid = .ok d

theorem updateEvicted {s1 : BufferPoolManager} {u : Unit} (coh : Coherent s g) (det : Detached s1 f)
    (idle : (s.pages f).pinCount = 0) (pages : s1.pages = s.pages) (table : s1.pageTable = s.pageTable)
    (disk : ∀ pid, s1.diskManager.readPage pid = s.diskManager.readPage pid)
    (missing : new.pageNo ≠ invalidPageId → s.pageTable.lookup new = none)
    (ok : updatePage f new s1 = .ok u t) : Evicted s t g f new := by
  obtain ⟨e,wrote,rfl⟩ := updatePageOk ok
  have look := retableLookup det.toCore det.range (by rw [table]; exact missing)
  refine ⟨idle,?_,?_,?_,?_⟩
  · intro pid h different
    dsimp only
    rw [look,← table,det.table]
    by_cases here : h = f
    · simp [here,different.symm]
    · simp [here]
  · intro h different
    dsimp only
    rw [Function.update_of_ne different,pages]
  · intro pid d apart read
    rw [← disk] at read
    unfold WroteBack at wrote
    split at wrote
    · rename_i dirty
      refine DiskManager.readWriteOther wrote ?_ read
      rintro rfl
      rw [← table] at apart
      exact apart (lookupId det.toCore det.range dirty.1)
    · rw [wrote]; exact read
  · intro pid d cached last
    have bytes := coh.data pid f d cached last
    have clean := coh.clean pid f d cached last
    have pins := coh.pins pid f cached
    rw [idle] at pins
    have free : ∀ c, g.owes c pid = false := unowed coh (by omega)
    obtain ⟨_,isCached,ids,_⟩ := cachedFrame coh.frames cached
    unfold WroteBack at wrote
    rw [pages] at wrote
    split at wrote
    · rw [ids] at wrote
      rw [← bytes]
      exact DiskManager.readWriteSame wrote
    · rename_i notDirty
      have isClean : (s.pages f).isDirty = false := by
        cases dirty : (s.pages f).isDirty with
        | false => rfl
        | true => exact absurd ⟨isCached,dirty⟩ notDirty
      rw [wrote,disk]
      exact clean isClean free

theorem Evicted.settled (coh : Coherent s g) (ev : Evicted s t g f new) {d : PageData}
    (missing : s.pageTable.lookup pid = none ∨ s.pageTable.lookup pid = some f) (last : g.last pid = some d) :
    t.diskManager.readPage pid = .ok d := by
  rcases missing with missing | cached
  · exact ev.reads pid d (by simp [missing]) (coh.stored pid d missing last)
  · exact ev.wrote pid d cached last

theorem Evicted.heldKept (coh : Coherent s g) (ev : Evicted s t g f new) {p : Pin} (mem : p ∈ g.held)
    (different : p.pid ≠ new) : t.pageTable.lookup p.pid = some p.frame := by
  have look := coh.held p mem
  refine (ev.others _ _ different).mpr ⟨?_,look⟩
  intro same
  have count := coh.pins p.pid f (same ▸ look)
  have held : 0 < g.pinsOf p.pid := List.countP_pos_iff.mpr ⟨p,mem,by simp⟩
  have victim := ev.idle
  omega

theorem Evicted.storedKept (coh : Coherent s g) (ev : Evicted s t g f new) {d : PageData} (different : pid ≠ new)
    (look : t.pageTable.lookup pid = none) (last : g.last pid = some d) :
    t.diskManager.readPage pid = .ok d := by
  refine ev.settled coh ?_ last
  cases old : s.pageTable.lookup pid with
  | none => exact .inl rfl
  | some h =>
    right
    by_contra apart
    have still := (ev.others pid h different).mpr ⟨fun same => apart (by rw [same]),old⟩
    rw [look] at still
    cases still

theorem Evicted.cleanKept (coh : Coherent s g) (ev : Evicted s t g f new) {d : PageData} {h : FrameId}
    (different : pid ≠ new) (look : t.pageTable.lookup pid = some h) (last : g.last pid = some d)
    (isClean : (t.pages h).isDirty = false) (free : ∀ c, g.owes c pid = false) :
    t.diskManager.readPage pid = .ok d := by
  obtain ⟨apart,old⟩ := (ev.others pid h different).mp look
  rw [ev.pages h apart] at isClean
  refine ev.reads pid d ?_ (coh.clean pid h d old last isClean free)
  intro same
  exact apart (Option.some.inj (old.symm.trans same))

theorem Evicted.attach (coh : Coherent s g) (ev : Evicted s t g f new) (frames : FrameInv t)
    (missing : s.pageTable.lookup new = none) (cached : t.pageTable.lookup new = some f)
    (pins : (t.pages f).pinCount = 1) (bytes : ∀ d, g.last new = some d → (t.pages f).data = d) :
    Coherent t (g.pin c new f) := by
  have idle := uncachedPins coh missing
  have other : ∀ pid h, t.pageTable.lookup pid = some h → pid ≠ new → h ≠ f ∧ s.pageTable.lookup pid = some h :=
    fun pid h look different => (ev.others pid h different).mp look
  refine ⟨frames,?_,?_,?_,?_,?_,?_⟩
  · intro pid h look
    by_cases here : pid = new
    · subst here
      cases Option.some.inj (look.symm.trans cached)
      simpa [Clients.pinsOf,Clients.pin,pins] using idle
    · obtain ⟨apart,old⟩ := other pid h look here
      rw [ev.pages h apart,coh.pins pid h old]
      simp [Clients.pinsOf,Clients.pin,Ne.symm here]
  · intro p mem
    rcases List.mem_cons.mp mem with rfl | old
    · exact cached
    · have look := coh.held p old
      have different : p.pid ≠ new := fun same => by rw [same,missing] at look; cases look
      exact ev.heldKept coh old different
  · intro c' pid owes
    obtain ⟨p,mem,same⟩ := coh.owed c' pid owes
    exact ⟨p,List.mem_cons_of_mem _ mem,same⟩
  · intro pid h d look last
    by_cases here : pid = new
    · subst here
      cases Option.some.inj (look.symm.trans cached)
      exact bytes d last
    · obtain ⟨apart,old⟩ := other pid h look here
      rw [ev.pages h apart]
      exact coh.data pid h d old last
  · intro pid h d look last isClean free
    by_cases here : pid = new
    · subst here
      exact ev.settled coh (.inl missing) last
    · exact ev.cleanKept coh here look last isClean free
  · intro pid d look last
    have different : pid ≠ new := fun same => by rw [same,cached] at look; cases look
    exact ev.storedKept coh different look last

theorem Evicted.detach (coh : Coherent s g) (ev : Evicted s t g f new) (frames : FrameInv t)
    (invalid : new.pageNo = invalidPageId) : Coherent t g := by
  have valid : ∀ {s} {pid h}, FrameInv s → s.pageTable.lookup pid = some h → pid ≠ new := by
    intro s pid h inv look same
    exact ((inv.table pid h).mp look).2.2 (same ▸ invalid)
  refine ⟨frames,?_,fun p mem => ev.heldKept coh mem (valid coh.frames (coh.held p mem)),coh.owed,?_,?_,?_⟩
  · intro pid h look
    obtain ⟨apart,old⟩ := (ev.others pid h (valid frames look)).mp look
    rw [ev.pages h apart]
    exact coh.pins pid h old
  · intro pid h d look last
    obtain ⟨apart,old⟩ := (ev.others pid h (valid frames look)).mp look
    rw [ev.pages h apart]
    exact coh.data pid h d old last
  · exact fun pid h d look last isClean free => ev.cleanKept coh (valid frames look) look last isClean free
  · intro pid d look last
    by_cases here : pid = new
    · cases old : s.pageTable.lookup pid with
      | none => exact ev.settled coh (.inl old) last
      | some h => exact absurd here (valid coh.frames old)
    · exact ev.storedKept coh here look last

theorem fetchCoherent (coh : Coherent s g) (ok : fetchPage pid s = .ok (some f) t) :
    Coherent t (g.pin c pid f) ∧ t.pageTable.lookup pid = some f := by
  have frames := fetchInv coh.frames ok
  cases cached : s.pageTable.lookup pid with
  | some h =>
    rw [fetchHit cached] at ok
    cases ok
    refine ⟨⟨frames,?_,?_,?_,?_,?_,coh.stored⟩,cached⟩
    · intro pid' h look
      by_cases here : pid' = pid
      · subst here
        cases Option.some.inj (look.symm.trans cached)
        have pins := coh.pins pid' f cached
        simp only [Function.update_self,Clients.pinsOf,Clients.pin,List.countP_cons] at pins ⊢
        simp [pins]
      · have apart : h ≠ f := by
          rintro rfl
          exact here ((cachedFrame coh.frames look).2.2.1.symm.trans (cachedFrame coh.frames cached).2.2.1)
        dsimp only
        rw [Function.update_of_ne apart,coh.pins pid' h look]
        simp [Clients.pinsOf,Clients.pin,Ne.symm here]
    · intro p mem
      rcases List.mem_cons.mp mem with rfl | old
      · exact cached
      · exact coh.held p old
    · intro c' pid' owes
      obtain ⟨p,mem,same⟩ := coh.owed c' pid' owes
      exact ⟨p,List.mem_cons_of_mem _ mem,same⟩
    · intro pid' h d look last
      have old := coh.data pid' h d look last
      by_cases here : h = f
      · subst here; simpa using old
      · simpa [here] using old
    · intro pid' h d look last isClean free
      refine coh.clean pid' h d look last ?_ free
      by_cases here : h = f
      · subst here; simpa using isClean
      · simpa [here] using isClean
  | none =>
    rcases fetchMiss cached ok with ⟨none,_⟩ | ⟨h,s1,s2,data,same,taken,updated,read,rfl⟩
    · cases none
    · cases same
      obtain ⟨det,idle,pages,table,disk,_⟩ := takeSome coh.frames taken
      have ev := updateEvicted coh det (pages ▸ idle) pages table (fun _ => by rw [disk]) (fun _ => cached) updated
      have nonneg := DiskManager.readNonneg read
      have valid : pid.pageNo ≠ invalidPageId := by dsimp only [invalidPageId]; omega
      obtain ⟨det2,page,_⟩ := updateDetached det (fun _ => by rw [table]; exact cached) updated
      have look : s2.pageTable.lookup pid = some f := (det2.table pid f).mpr ⟨det2.range,by rw [page],valid⟩
      have ev2 : Evicted s {s2 with pages := Function.update s2.pages f {s2.pages f with data := data, pinCount := 1}
                                    replacer := s2.replacer.pin f} g f pid :=
        ⟨ev.idle,ev.others,fun h apart => by dsimp only; rw [Function.update_of_ne apart]; exact ev.pages h apart,
          ev.reads,ev.wrote⟩
      refine ⟨ev2.attach coh frames cached look (by simp) ?_,look⟩
      intro d last
      have kept := ev.settled coh (.inl cached) last
      rw [read] at kept
      cases kept
      simp

theorem forgetCoherent (coh : Coherent s g) (pid : PageId) : Coherent s (g.forget pid) := by
  have known : ∀ {pid' d}, (g.forget pid).last pid' = some d → g.last pid' = some d := by
    intro pid' d last
    by_cases here : pid' = pid
    · subst here; simp [Clients.forget] at last
    · simpa [Clients.forget,here] using last
  exact ⟨coh.frames,coh.pins,coh.held,coh.owed,fun pid f d look last => coh.data pid f d look (known last),
    fun pid f d look last => coh.clean pid f d look (known last),
    fun pid d look last => coh.stored pid d look (known last)⟩

theorem wroteCoherent {data : PageData} (coh : Coherent s (g.forget pid))
    (cached : s.pageTable.lookup pid = some f) (mem : ∃ p ∈ g.held, p.client = c ∧ p.pid = pid)
    (bytes : (s.pages f).data = data) : Coherent s (g.wrote c pid data) := by
  have known : ∀ {pid' d}, (g.wrote c pid data).last pid' = some d → pid' ≠ pid →
      (g.forget pid).last pid' = some d := by
    intro pid' d last different
    simpa [Clients.wrote,Clients.forget,different] using last
  refine ⟨coh.frames,coh.pins,coh.held,?_,?_,?_,?_⟩
  · intro c' pid' owes
    by_cases here : c' = c ∧ pid' = pid
    · obtain ⟨rfl,rfl⟩ := here
      exact mem
    · simp only [Clients.wrote,Clients.owe,if_neg here] at owes
      exact coh.owed c' pid' owes
  · intro pid' h d look last
    by_cases here : pid' = pid
    · subst here
      cases Option.some.inj (look.symm.trans cached)
      simpa [Clients.wrote,bytes] using last
    · exact coh.data pid' h d look (known last here)
  · intro pid' h d look last isClean free
    by_cases here : pid' = pid
    · subst here
      have owes := free c
      simp [Clients.wrote,Clients.owe] at owes
    · refine coh.clean pid' h d look (known last here) isClean ?_
      intro c'
      have owes := free c'
      simpa [Clients.wrote,Clients.owe,here,Clients.forget] using owes
  · intro pid' d look last
    have different : pid' ≠ pid := fun same => by rw [same,cached] at look; cases look
    exact coh.stored pid' d look (known last different)

theorem storeCoherent {data : PageData} (coh : Coherent s g) (cached : s.pageTable.lookup pid = some f) :
    Coherent {s with pages := Function.update s.pages f {s.pages f with data := data}} (g.forget pid) := by
  have old := forgetCoherent coh pid
  have same : ∀ h, (Function.update s.pages f {s.pages f with data := data} h).pinCount = (s.pages h).pinCount ∧
      (Function.update s.pages f {s.pages f with data := data} h).isDirty = (s.pages h).isDirty := by
    intro h
    by_cases here : h = f
    · subst here; simp
    · simp [here]
  refine ⟨touchInv coh.frames rfl rfl,?_,old.held,old.owed,?_,?_,old.stored⟩
  · intro pid' h look
    dsimp only
    rw [(same h).1]
    exact old.pins pid' h look
  · intro pid' h d look last
    by_cases here : h = f
    · subst here
      have one := (cachedFrame coh.frames look).2.2.1
      have two := (cachedFrame coh.frames cached).2.2.1
      rw [← one,two] at last
      simp [Clients.forget] at last
    · dsimp only
      rw [Function.update_of_ne here]
      exact old.data pid' h d look last
  · intro pid' h d look last isClean free
    rw [(same h).2] at isClean
    exact old.clean pid' h d look last isClean free

theorem newCoherent {fd : Int} (coh : Coherent s g)
    (fresh : s.pageTable.lookup ⟨fd,s.diskManager.fd2pageno fd⟩ = none)
    (ok : newPage fd s = .ok (some (pid,f)) t) : Coherent t ((g.pin c pid f).wrote c pid zeroPage) := by
  have frames := newPageInv coh.frames fresh ok
  rcases newPageOk ok with ⟨none,_⟩ | ⟨h,s1,s2,same,taken,updated,rfl⟩
  · cases none
  · cases same
    obtain ⟨det,idle,pages,table,disk,_⟩ := takeSome coh.frames taken
    rw [disk] at updated ⊢
    have old := forgetCoherent coh ⟨fd,s.diskManager.fd2pageno fd⟩
    have det1 : Detached {s1 with diskManager := (s.diskManager.allocatePage fd).2} f :=
      ⟨det.toCore.sameShape rfl rfl rfl rfl fun _ => rfl,det.range,det.unfree,det.unlisted,det.classes⟩
    have ev := updateEvicted old det1 (pages ▸ idle) pages table
      (fun pid => DiskManager.allocateRead s.diskManager fd pid) (fun _ => fresh) updated
    obtain ⟨det2,page,_⟩ := updateDetached det1 (fun _ => by rw [table]; exact fresh) updated
    have valid : ((s.diskManager.fd2pageno fd : Nat) : Int) ≠ invalidPageId := by
      dsimp only [invalidPageId]; omega
    have look : s2.pageTable.lookup ⟨fd,s.diskManager.fd2pageno fd⟩ = some f :=
      (det2.table _ f).mpr ⟨det2.range,by rw [page],valid⟩
    have ev2 : Evicted s {s2 with pages := Function.update s2.pages f {s2.pages f with pinCount := 1}
                                  replacer := s2.replacer.pin f} (g.forget ⟨fd,s.diskManager.fd2pageno fd⟩) f
        ⟨fd,s.diskManager.fd2pageno fd⟩ :=
      ⟨ev.idle,ev.others,fun h apart => by dsimp only; rw [Function.update_of_ne apart]; exact ev.pages h apart,
        ev.reads,ev.wrote⟩
    have attached := ev2.attach (c := c) old frames fresh look (by simp) (by simp [Clients.forget])
    refine wroteCoherent attached look ⟨_,List.mem_cons_self,rfl,rfl⟩ ?_
    simp [page]

theorem fetchMissRun {s1 s2 : BufferPoolManager} {data : PageData} (missing : s.pageTable.lookup pid = none)
    (taken : findVictimPage s = .ok (some f) s1) (updated : updatePage f pid s1 = .ok () s2)
    (read : s2.diskManager.readPage pid = .ok data) :
    fetchPage pid s = .ok (some f)
      {s2 with pages := Function.update s2.pages f {s2.pages f with data := data, pinCount := 1}
               replacer := s2.replacer.pin f} := by
  simp only [fetchPage,getBind,missing]
  rw [bindEq taken]
  dsimp only
  rw [bindEq updated,bindEq (diskReadOk.mpr ⟨read,rfl⟩)]
  simp only [setPage,replacerPin,modifyBind,pureRun,Function.update_self,Function.update_idem]

theorem unpinOwes {isDirty : Bool} {c' : Client} {pid' : PageId}
    (owes : (g.unpin c pid f isDirty).owes c' pid' = true) :
    g.owes c' pid' = true ∧ (isDirty = true → ¬ (c' = c ∧ pid' = pid)) := by
  cases isDirty with
  | false => exact ⟨owes,by simp⟩
  | true =>
    by_cases here : c' = c ∧ pid' = pid
    · simp [Clients.unpin,Clients.owe,here] at owes
    · simp only [Clients.unpin,Clients.owe,if_neg here,if_true] at owes
      exact ⟨owes,fun _ => here⟩

theorem unpinCoherent {isDirty r : Bool} (coh : Coherent s g) (mem : ⟨c,pid,f⟩ ∈ g.held)
    (settles : isDirty = true ∨ g.owes c pid = false ∨
      1 < g.held.countP (fun p => p.client = c ∧ p.pid = pid))
    (ok : unpinPage pid isDirty s = .ok r t) : Coherent t (g.unpin c pid f isDirty) := by
  have frames := unpinInv coh.frames ok
  have cached : s.pageTable.lookup pid = some f := coh.held _ mem
  have pins := coh.pins pid f cached
  have positive : 0 < g.pinsOf pid := List.countP_pos_iff.mpr ⟨_,mem,by simp⟩
  rcases unpinOk ok with ⟨_,_,refused⟩ | ⟨h,_,look,_,rfl⟩
  · have := refused f cached
    omega
  · cases Option.some.inj (look.symm.trans cached)
    have still : ∀ p ∈ (g.unpin c pid f isDirty).held, p ∈ g.held := fun p old => List.mem_of_mem_erase old
    refine ⟨frames,?_,fun p old => coh.held p (still p old),?_,?_,?_,coh.stored⟩
    · intro pid' k look'
      by_cases here : pid' = pid
      · subst here
        cases Option.some.inj (look'.symm.trans cached)
        have count : (g.unpin c pid' f isDirty).pinsOf pid' = g.pinsOf pid'-1 := by
          simp only [Clients.pinsOf,Clients.unpin,List.countP_erase]
          simp [mem]
        simp only [Function.update_self,count,pins]
        omega
      · have apart : k ≠ f := by
          rintro rfl
          exact here ((cachedFrame coh.frames look').2.2.1.symm.trans (cachedFrame coh.frames cached).2.2.1)
        dsimp only
        rw [Function.update_of_ne apart,coh.pins pid' k look']
        simp only [Clients.pinsOf,Clients.unpin,List.countP_erase]
        simp [Ne.symm here]
    · intro c' pid' owes
      obtain ⟨old,rest⟩ := unpinOwes owes
      obtain ⟨p,mem',client,page⟩ := coh.owed c' pid' old
      by_cases here : c' = c ∧ pid' = pid
      · obtain ⟨rfl,rfl⟩ := here
        -- the client still owes, so this was not its last pin on the page
        have more : 1 < g.held.countP (fun p => p.client = c' ∧ p.pid = pid') := by
          rcases settles with dirty | free | more
          · exact absurd ⟨rfl,rfl⟩ (rest dirty)
          · rw [old] at free; cases free
          · exact more
        have left : 0 < (g.unpin c' pid' f isDirty).held.countP (fun p => p.client = c' ∧ p.pid = pid') := by
          simp only [Clients.unpin,List.countP_erase]
          split <;> omega
        obtain ⟨q,memq,same⟩ := List.countP_pos_iff.mp left
        exact ⟨q,memq,by simpa using same⟩
      · refine ⟨p,(List.mem_erase_of_ne ?_).mpr mem',client,page⟩
        rintro rfl
        exact here ⟨client.symm,page.symm⟩
    · intro pid' k d look' last
      have old := coh.data pid' k d look' last
      by_cases here : k = f
      · subst here; simpa using old
      · simpa [here] using old
    · intro pid' k d look' last isClean free
      by_cases here : k = f
      · subst here
        have same : pid' = pid :=
          (cachedFrame coh.frames look').2.2.1.symm.trans (cachedFrame coh.frames cached).2.2.1
        subst same
        simp only [Function.update_self,Bool.or_eq_false_iff] at isClean
        obtain ⟨isClean,notDirty⟩ := isClean
        subst notDirty
        exact coh.clean pid' k d look' last isClean free
      · dsimp only at isClean
        rw [Function.update_of_ne here] at isClean
        refine coh.clean pid' k d look' last isClean ?_
        intro c'
        have different : pid' ≠ pid := by
          rintro rfl
          exact here (Option.some.inj (look'.symm.trans cached))
        have owes := free c'
        cases isDirty with
        | false => exact owes
        | true => simpa [Clients.unpin,Clients.owe,different] using owes

theorem flushCoherent {d : DiskManager} (coh : Coherent s g) (cached : s.pageTable.lookup pid = some f)
    (wrote : s.diskManager.writePage pid (s.pages f).data = .ok d) :
    Coherent {s with pages := Function.update s.pages f {s.pages f with isDirty := false}, diskManager := d} g := by
  have same : ∀ h, (Function.update s.pages f {s.pages f with isDirty := false} h).pinCount = (s.pages h).pinCount ∧
      (Function.update s.pages f {s.pages f with isDirty := false} h).data = (s.pages h).data := by
    intro h
    by_cases here : h = f
    · subst here; simp
    · simp [here]
  refine ⟨touchInv coh.frames rfl rfl,?_,coh.held,coh.owed,?_,?_,?_⟩
  · intro pid' h look
    dsimp only
    rw [(same h).1]
    exact coh.pins pid' h look
  · intro pid' h d' look last
    dsimp only
    rw [(same h).2]
    exact coh.data pid' h d' look last
  · intro pid' h d' look last isClean free
    by_cases here : pid' = pid
    · subst here
      rw [← coh.data pid' f d' cached last]
      exact DiskManager.readWriteSame wrote
    · have apart : h ≠ f := by
        rintro rfl
        exact here ((cachedFrame coh.frames look).2.2.1.symm.trans (cachedFrame coh.frames cached).2.2.1)
      dsimp only at isClean
      rw [Function.update_of_ne apart] at isClean
      exact DiskManager.readWriteOther wrote here (coh.clean pid' h d' look last isClean free)
  · intro pid' d' look last
    have different : pid' ≠ pid := by
      rintro rfl
      exact absurd (look.symm.trans cached) (by simp)
    exact DiskManager.readWriteOther wrote different (coh.stored pid' d' look last)

/- The table is not changed while it is walked, so each entry is still in it when its turn comes. -/
theorem flushEntriesCoherent {fd : Int} {entries : List (Σ _ : PageId, FrameId)} {u : Unit} (coh : Coherent s g)
    (inside : ∀ e ∈ entries, s.pageTable.lookup e.1 = some e.2)
    (ok : flushEntries fd entries s = .ok u t) : Coherent t g ∧ t.pageTable = s.pageTable := by
  induction entries generalizing s with
  | nil => cases ok; exact ⟨coh,rfl⟩
  | cons entry rest ih =>
    obtain ⟨pid,f⟩ := entry
    simp only [flushEntries] at ok
    split at ok
    · exact ih coh (fun e mem => inside e (List.mem_cons_of_mem _ mem)) ok
    · rename_i file
      simp only [getBind,bindOk,diskWriteOk,setPage,modifyRun,EStateM.Result.ok.injEq] at ok
      obtain ⟨_,_,⟨d,wrote,rfl⟩,_,_,⟨_,rfl⟩,ok⟩ := ok
      have ids : (⟨fd,pid.pageNo⟩ : PageId) = pid := by
        cases pid; simp only [ne_eq,not_not] at file; rw [file]
      rw [ids] at wrote
      have next := flushCoherent coh (inside ⟨pid,f⟩ List.mem_cons_self) wrote
      obtain ⟨done,table⟩ := ih next (fun e mem => inside e (List.mem_cons_of_mem _ mem)) ok
      exact ⟨done,table⟩

theorem entriesLookup (s : BufferPoolManager) : ∀ e ∈ s.pageTable.entries, s.pageTable.lookup e.1 = some e.2 := by
  intro e mem
  exact AList.mem_lookup_iff.mpr mem

theorem releaseCoherent {fd : Int} {u : Unit} (coh : Coherent s g) (cached : s.pageTable.lookup pid = some f)
    (idle : (s.pages f).pinCount = 0) (ok : releaseFrame f fd s = .ok u t) :
    Coherent t g ∧ Evicted s t g f ⟨fd,invalidPageId⟩ := by
  have frames := releaseInv coh.frames cached ok
  obtain ⟨s1,updated,rfl⟩ := releaseOk ok
  have ev := updateEvicted coh (pinDetached coh.frames cached) idle rfl rfl (fun _ => rfl)
    (fun h => absurd rfl h) updated
  have ev2 : Evicted s {s1 with freeList := s1.freeList ++ [f]} g f ⟨fd,invalidPageId⟩ :=
    ⟨ev.idle,ev.others,ev.pages,ev.reads,ev.wrote⟩
  exact ⟨ev2.detach coh frames rfl,ev2⟩

theorem releaseAllCoherent {fd : Int} {ids : List PageId} {u : Unit} (coh : Coherent s g)
    (idle : ∀ pid ∈ ids, ∀ f, s.pageTable.lookup pid = some f → (s.pages f).pinCount = 0)
    (ok : releaseAll fd ids s = .ok u t) : Coherent t g := by
  induction ids generalizing s with
  | nil => cases ok; exact coh
  | cons pid rest ih =>
    simp only [releaseAll,getBind] at ok
    cases cached : s.pageTable.lookup pid with
    | none =>
      rw [cached] at ok
      exact ih coh (fun pid' mem => idle pid' (List.mem_cons_of_mem _ mem)) ok
    | some f =>
      rw [cached] at ok
      obtain ⟨_,s1,released,ok⟩ := bindOk.mp ok
      obtain ⟨next,ev⟩ := releaseCoherent coh cached (idle pid List.mem_cons_self f cached) released
      refine ih next ?_ ok
      intro pid' mem h look
      have valid := ((next.frames.table pid' h).mp look).2.2
      obtain ⟨apart,old⟩ := (ev.others pid' h (fun same => valid (by rw [same]))).mp look
      rw [ev.pages h apart]
      exact idle pid' (List.mem_cons_of_mem _ mem) h old

theorem stepCoherent {h : Clients} (coh : Coherent s g) (step : Step s g t h) : Coherent t h := by
  cases step with
  | fetch c ok => exact (fetchCoherent coh ok).1
  | @fetchNull _ _ pid ok =>
    cases cached : s.pageTable.lookup pid with
    | some f => rw [fetchHit cached] at ok; cases ok
    | none =>
      rcases fetchMiss cached ok with ⟨_,taken⟩ | ⟨_,_,_,_,none,_⟩
      · obtain ⟨rfl,_⟩ := takeNone coh.frames taken
        exact coh
      · cases none
  | new c fresh ok => exact newCoherent coh fresh ok
  | newNull ok =>
    rcases newPageOk ok with ⟨_,taken⟩ | ⟨_,_,_,none,_⟩
    · obtain ⟨rfl,_⟩ := takeNone coh.frames taken
      exact coh
    · cases none
  | write mem ok =>
    cases ok
    have cached := coh.held _ mem
    exact wroteCoherent (storeCoherent coh cached) cached ⟨_,mem,rfl,rfl⟩ (by simp)
  | unpin mem settles ok => exact unpinCoherent coh mem settles ok
  | unpinRefused ok =>
    rcases unpinOk ok with ⟨_,rfl,_⟩ | ⟨_,accepted,_⟩
    · exact coh
    · cases accepted
  | flush ok =>
    rcases flushOk ok with ⟨_,rfl⟩ | ⟨f,d,cached,wrote,rfl⟩
    · exact coh
    · exact flushCoherent coh cached wrote
  | flushAll ok => exact (flushEntriesCoherent coh (entriesLookup s) ok).1
  | delete ok =>
    rcases deleteOk ok with rfl | ⟨f,cached,idle,released⟩
    · exact coh
    · exact (releaseCoherent coh cached idle released).1
  | deleteAll ok =>
    simp only [deleteAllPages,getBind] at ok
    split at ok
    · rename_i all
      obtain ⟨_,s1,released,ok⟩ := bindOk.mp ok
      cases ok
      refine releaseAllCoherent coh ?_ released
      intro pid mem f look
      have idle := List.all_eq_true.mp all pid mem
      simpa [unpinned,look] using idle
    · cases ok; exact coh

theorem sessionCoherent {h : Clients} (session : Session s g t h) (coh : Coherent s g) : Coherent t h := by
  induction session with
  | nil => exact coh
  | cons step _ ih => exact ih (stepCoherent coh step)

theorem flushEntriesDisk {fd : Int} {entries : List (Σ _ : PageId, FrameId)} {u : Unit} (frames : FrameInv s)
    (inside : ∀ e ∈ entries, s.pageTable.lookup e.1 = some e.2)
    (ok : flushEntries fd entries s = .ok u t) :
    t.pageTable = s.pageTable ∧ (∀ h, (t.pages h).data = (s.pages h).data) ∧
    ∀ pid h, pid.fd = fd → s.pageTable.lookup pid = some h →
      (⟨pid,h⟩ ∈ entries ∨ s.diskManager.readPage pid = .ok (s.pages h).data) →
      t.diskManager.readPage pid = .ok (s.pages h).data := by
  induction entries generalizing s with
  | nil =>
    cases ok
    refine ⟨rfl,fun _ => rfl,?_⟩
    intro pid h _ _ done
    rcases done with mem | read
    · cases mem
    · exact read
  | cons entry rest ih =>
    obtain ⟨p,f⟩ := entry
    have later : ∀ e ∈ rest, s.pageTable.lookup e.1 = some e.2 :=
      fun e mem => inside e (List.mem_cons_of_mem _ mem)
    simp only [flushEntries] at ok
    split at ok
    · rename_i other
      obtain ⟨table,same,disk⟩ := ih frames later ok
      refine ⟨table,same,?_⟩
      intro pid h file look done
      refine disk pid h file look ?_
      rcases done with mem | read
      · rcases List.mem_cons.mp mem with head | mem
        · cases head; exact absurd file other
        · exact .inl mem
      · exact .inr read
    · rename_i file
      simp only [getBind,bindOk,diskWriteOk,setPage,modifyRun,EStateM.Result.ok.injEq] at ok
      obtain ⟨_,_,⟨d,wrote,rfl⟩,_,_,⟨_,rfl⟩,ok⟩ := ok
      have ids : (⟨fd,p.pageNo⟩ : PageId) = p := by
        cases p; simp only [ne_eq,not_not] at file; rw [file]
      rw [ids] at wrote
      have same1 : ∀ h, (Function.update s.pages f {s.pages f with isDirty := false} h).data = (s.pages h).data := by
        intro h
        by_cases here : h = f
        · subst here; simp
        · simp [here]
      have frames1 : FrameInv {s with pages := Function.update s.pages f {s.pages f with isDirty := false}
                                      diskManager := d} := touchInv frames rfl rfl
      obtain ⟨table,same,disk⟩ := ih frames1 later ok
      refine ⟨table,fun h => (same h).trans (same1 h),?_⟩
      intro pid h onFile look done
      rw [← same1 h]
      refine disk pid h onFile look ?_
      dsimp only
      rw [same1 h]
      by_cases here : pid = p
      · subst here
        cases Option.some.inj (look.symm.trans (inside ⟨pid,f⟩ List.mem_cons_self))
        exact .inr (DiskManager.readWriteSame wrote)
      · rcases done with mem | read
        · rcases List.mem_cons.mp mem with head | mem
          · cases head; exact absurd rfl here
          · exact .inl mem
        · exact .inr (DiskManager.readWriteOther wrote here read)

end Coherence

/- Whatever was evicted, flushed or dropped from the pool in between, a fetched page holds the bytes last
written to it, and `flush_all_pages` leaves the cached pages of the file on disk. -/
theorem coherentPages {n : Nat} {disk : DiskManager} {s : BufferPoolManager} {g : Clients}
    (session : Session (init n disk) (Clients.init disk) s g) :
    (∀ pid f t, fetchPage pid s = .ok (some f) t →
      (t.pages f).id = pid ∧ ∀ data, g.last pid = some data → (t.pages f).data = data) ∧
    ∀ fd t, flushAllPages fd s = .ok () t → ∀ pid f, pid.fd = fd → t.pageTable.lookup pid = some f →
      t.diskManager.readPage pid = .ok (t.pages f).data := by
  have coh := sessionCoherent session (initCoherent n disk)
  refine ⟨?_,?_⟩
  · intro pid f t ok
    obtain ⟨next,look⟩ := fetchCoherent (c := 0) coh ok
    exact ⟨(cachedFrame next.frames look).2.2.1,fun data last => next.data pid f data look last⟩
  · intro fd t ok pid f file look
    obtain ⟨table,same,disk⟩ := flushEntriesDisk coh.frames (entriesLookup s) ok
    rw [table] at look
    rw [same]
    exact disk pid f file look (.inl (AList.mem_lookup_iff.mp look))

def onePage : PageData := ⟨List.replicate pageSize 1,by simp⟩

theorem coherentAfterEviction : ∃ s g t, Session (init 1 blankDisk) (Clients.init blankDisk) s g ∧
    g.last ⟨3,0⟩ = some onePage ∧ s.pageTable.lookup ⟨3,0⟩ = none ∧
    fetchPage ⟨3,0⟩ s = .ok (some 0) t ∧ (t.pages 0).data = onePage := by
  have read : ∀ d e f : DiskManager, d.writePage ⟨3,0⟩ onePage = .ok e → e.writePage ⟨3,1⟩ zeroPage = .ok f →
      f.readPage ⟨3,0⟩ = .ok onePage := fun d e f first second =>
    DiskManager.readWriteOther second (by decide) (DiskManager.readWriteSame first)
  obtain ⟨s,g,session,last,missing,s1,s2,taken,updated,bytes⟩ : ∃ s g,
      Session (init 1 blankDisk) (Clients.init blankDisk) s g ∧ g.last ⟨3,0⟩ = some onePage ∧
      s.pageTable.lookup ⟨3,0⟩ = none ∧ ∃ s1 s2, findVictimPage s = .ok (some 0) s1 ∧
      updatePage 0 ⟨3,0⟩ s1 = .ok () s2 ∧ s2.diskManager.readPage ⟨3,0⟩ = .ok onePage :=
    ⟨_,_,.cons (@Step.new _ _ _ 3 _ _ 7 rfl rfl) (.cons (@Step.write _ _ _ _ _ _ onePage List.mem_cons_self rfl)
      (.cons (@Step.unpin _ _ _ _ _ _ true _ List.mem_cons_self (.inl rfl) rfl)
        (.cons (@Step.new _ _ _ 3 _ _ 8 rfl rfl)
          (.cons (@Step.unpin _ _ _ _ _ _ true _ List.mem_cons_self (.inl rfl) rfl) (.nil _ _))))),
      rfl,rfl,_,_,rfl,rfl,read ((blankDisk.allocatePage 3).2.allocatePage 3).2 _ _ rfl rfl⟩
  have ok := fetchMissRun missing taken updated bytes
  obtain ⟨fetched,_⟩ := coherentPages session
  exact ⟨s,g,_,session,last,missing,ok,(fetched _ _ _ ok).2 onePage last⟩

end BufferPoolManager
end Rmdb.Storage
