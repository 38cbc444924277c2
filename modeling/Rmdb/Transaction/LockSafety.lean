import Rmdb.Transaction.TransactionManager

/-! The lock table over whole runs: what is granted together is compatible, lock sets and queues
agree, and a transaction that has released a lock gets no other. -/
namespace Rmdb
open Recovery

namespace LockManager

theorem compatibleComm (a b : LockMode) : isCompatible a b = isCompatible b a := by
  cases a <;> cases b <;> rfl

@[simp] theorem refreshRequests (queue : LockRequestQueue) :
    (refreshGroupLockMode queue).requestQueue = queue.requestQueue := rfl

section Queue
variable {s : LockManager} {id other : LockDataId} {queue : Option LockRequestQueue}

theorem requestsSet : (s.setQueue id queue).requests id = (queue.map LockRequestQueue.requestQueue).getD [] := by
  simp only [requests,setQueue,Function.update_self]
  cases queue <;> rfl

theorem requestsOther (apart : other ≠ id) : (s.setQueue id queue).requests other = s.requests other := by
  simp only [requests,setQueue,Function.update_of_ne apart]

theorem requestsGetD : ((s.lockTable id).getD ⟨[],.nonLock⟩).requestQueue = s.requests id := by
  rw [requests]
  cases s.lockTable id <;> rfl

theorem requestsLookup : (s.setQueue id (some ((s.lockTable id).getD ⟨[],.nonLock⟩))).requests = s.requests := by
  funext x
  by_cases same : x = id
  · subst same
    rw [requestsSet]
    exact requestsGetD
  · exact requestsOther same

end Queue

structure SafeQueue (l : List LockRequest) : Prop where
  granted : ∀ r ∈ l, r.granted = true
  single : (l.map LockRequest.txnId).Nodup
  apart : ∀ r ∈ l, ∀ r' ∈ l, r.txnId ≠ r'.txnId → isCompatible r.lockMode r'.lockMode = true

section SafeQueue
variable {l : List LockRequest} {txnId : Int} {mode : LockMode} {r : LockRequest}

theorem regrantIds : (regrant txnId mode l).map LockRequest.txnId = l.map LockRequest.txnId := by
  induction l with
  | nil => rfl
  | cons r l ih =>
    rw [regrant]
    split
    · rfl
    · rw [List.map_cons,List.map_cons,ih]

theorem regrantMem (single : (l.map LockRequest.txnId).Nodup) (mem : r ∈ regrant txnId mode l) :
    (r ∈ l ∧ r.txnId ≠ txnId) ∨ r = ⟨txnId,mode,true⟩ := by
  induction l with
  | nil => cases mem
  | cons first l ih =>
    rw [List.map_cons,List.nodup_cons] at single
    rw [regrant] at mem
    split at mem
    · rename_i same
      rcases List.mem_cons.mp mem with rfl | later
      · exact .inr (by rw [← same])
      · refine .inl ⟨List.mem_cons_of_mem _ later,fun again => single.1 ?_⟩
        rw [same,← again]
        exact List.mem_map_of_mem later
    · rename_i differs
      rcases List.mem_cons.mp mem with rfl | later
      · exact .inl ⟨List.mem_cons_self,differs⟩
      · rcases ih single.2 later with ⟨old,apart⟩ | new
        · exact .inl ⟨List.mem_cons_of_mem _ old,apart⟩
        · exact .inr new

theorem SafeQueue.grant {new : List LockRequest} (safe : SafeQueue l) (single : (new.map LockRequest.txnId).Nodup)
    (free : ∀ r ∈ l, r.txnId ≠ txnId → isCompatible r.lockMode mode = true)
    (mem : ∀ r ∈ new, (r ∈ l ∧ r.txnId ≠ txnId) ∨ r = ⟨txnId,mode,true⟩) : SafeQueue new := by
  refine ⟨?_,single,?_⟩
  · intro r memr
    rcases mem r memr with ⟨old,_⟩ | rfl
    · exact safe.granted r old
    · rfl
  · intro r memr r' memr' apart
    rcases mem r memr with ⟨old,ne⟩ | rfl <;> rcases mem r' memr' with ⟨old',ne'⟩ | rfl
    · exact safe.apart r old r' old' apart
    · exact free r old ne
    · rw [compatibleComm]
      exact free r' old' ne'
    · exact absurd rfl apart

theorem SafeQueue.sublist {new : List LockRequest} (safe : SafeQueue l) (sub : new.Sublist l) : SafeQueue new :=
  ⟨fun r mem => safe.granted r (sub.mem mem),safe.single.sublist (sub.map _),
    fun r mem r' mem' => safe.apart r (sub.mem mem) r' (sub.mem mem')⟩

theorem SafeQueue.regrant (safe : SafeQueue l)
    (free : ∀ r ∈ l, r.txnId ≠ txnId → isCompatible r.lockMode mode = true) : SafeQueue (regrant txnId mode l) :=
  safe.grant (by rw [regrantIds]; exact safe.single) free fun _ mem => regrantMem safe.single mem

theorem SafeQueue.append (safe : SafeQueue l) (absent : ∀ r ∈ l, r.txnId ≠ txnId)
    (free : ∀ r ∈ l, r.txnId ≠ txnId → isCompatible r.lockMode mode = true) : SafeQueue (l ++ [⟨txnId,mode,true⟩]) := by
  refine safe.grant ?_ free ?_
  · rw [List.map_append,List.nodup_append]
    refine ⟨safe.single,by simp,?_⟩
    intro a mema b memb same
    obtain ⟨r,mem,rfl⟩ := List.mem_map.mp mema
    simp only [List.map_cons,List.map_nil,List.mem_singleton] at memb
    exact absent r mem (same.trans memb)
  · intro r mem
    rcases List.mem_append.mp mem with old | new
    · exact .inl ⟨old,absent r old⟩
    · exact .inr (List.mem_singleton.mp new)

end SafeQueue

inductive Granted (txnId : Int) (mode : LockMode) (l : List LockRequest) : List LockRequest → Prop where
  | covered (held : ∃ r ∈ l, r.txnId = txnId ∧ r.granted = true ∧ covers r.lockMode mode = true) : Granted txnId mode l l
  | upgraded (held : ∃ r ∈ l, r.txnId = txnId ∧ (r.granted && covers r.lockMode mode) = false)
      (free : ∀ r ∈ l, r.granted = true → r.txnId ≠ txnId → isCompatible r.lockMode mode = true) :
      Granted txnId mode l (regrant txnId mode l)
  | added (absent : ∀ r ∈ l, r.txnId ≠ txnId)
      (free : ∀ r ∈ l, r.granted = true → r.txnId ≠ txnId → isCompatible r.lockMode mode = true) :
      Granted txnId mode l (l ++ [⟨txnId,mode,true⟩])

inductive Locked (id : LockDataId) (mode : LockMode) (txn : Transaction) (s : LockManager) :
    EStateM.Result Fault (Transaction × LockManager) Bool → Prop where
  | thrown {e : Fault} {s' : LockManager} (same : s'.requests = s.requests) : Locked id mode txn s (.error e (txn,s'))
  | done {s' : LockManager} (growing : txn.state ≠ .shrinking)
      (others : ∀ x ≠ id, s'.requests x = s.requests x)
      (here : Granted txn.txnId mode (s.requests id) (s'.requests id)) :
      Locked id mode txn s (.ok true (insertLock id txn,s'))

section Calls
variable {id : LockDataId} {mode : LockMode} {txn : Transaction} {s : LockManager}

theorem lockRun : Locked id mode txn s (lock id mode (txn,s)) := by
  rw [lock,getBind]
  dsimp only
  split
  · exact .thrown rfl
  · rename_i growing
    rw [setBind,requestsGetD]
    have lookup : (s.setQueue id (some ((s.lockTable id).getD ⟨[],.nonLock⟩))).requests = s.requests := requestsLookup
    split
    · rename_i covered
      obtain ⟨r,found,holds⟩ := (Option.any_eq_true _ _).mp covered
      refine .done growing (fun x _ => congrFun lookup x) ?_
      rw [congrFun lookup id]
      exact .covered ⟨r,List.mem_of_find?_eq_some found,by simpa using List.find?_some found,
        Bool.and_eq_true_iff.mp holds⟩
    · rename_i uncovered
      split
      · exact .thrown lookup
      · rename_i free
        have free : ∀ r ∈ s.requests id, r.granted = true → r.txnId ≠ txn.txnId → isCompatible r.lockMode mode = true := by
          intro r mem granted apart
          by_contra conflict
          refine free (List.any_eq_true.mpr ⟨r,mem,?_⟩)
          simpa [granted,apart] using conflict
        refine .done growing (fun x apart => requestsOther apart) ?_
        rw [requestsSet]
        change Granted _ _ _ (if _ then _ else _)
        split
        · rename_i held
          obtain ⟨r,found⟩ := Option.isSome_iff_exists.mp held
          refine .upgraded ⟨r,List.mem_of_find?_eq_some found,by simpa using List.find?_some found,?_⟩ free
          rw [found] at uncovered
          simpa using uncovered
        · rename_i absent
          refine .added (fun r mem same => absent ?_) free
          rw [List.find?_isSome]
          exact ⟨r,mem,by simpa using same⟩

inductive Unlocked (id : LockDataId) (txn : Transaction) (s : LockManager) :
    EStateM.Result Fault (Transaction × LockManager) Bool → Prop where
  | absent {b : Bool} (none : ∀ r ∈ s.requests id, r.txnId ≠ txn.txnId) : Unlocked id txn s (.ok b (txn,s))
  | done {s' : LockManager} (held : ∃ r ∈ s.requests id, r.txnId = txn.txnId)
      (others : ∀ x ≠ id, s'.requests x = s.requests x)
      (here : s'.requests id = (s.requests id).eraseP fun r => r.txnId = txn.txnId) :
      Unlocked id txn s (.ok true ({txn with
        lockSet := txn.lockSet.erase id
        state := if txn.state = .growing then .shrinking else txn.state},s'))

theorem unlockRun : Unlocked id txn s (unlock id (txn,s)) := by
  rw [unlock,getBind]
  dsimp only
  cases queued : s.lockTable id with
  | none =>
    refine .absent fun r mem => ?_
    simp only [requests,queued] at mem
    cases mem
  | some queue =>
    have here : s.requests id = queue.requestQueue := by simp only [requests,queued]
    dsimp only
    split
    · rename_i held
      obtain ⟨r,mem,same⟩ := List.any_eq_true.mp held
      have released : (if txn.state = .growing then {txn with state := .shrinking} else txn) =
          {txn with state := if txn.state = .growing then .shrinking else txn.state} := by
        split <;> rfl
      rw [setBind,pureRun,released]
      refine .done ⟨r,here ▸ mem,by simpa using same⟩ (fun x apart => requestsOther apart) ?_
      rw [requestsSet,here]
      split
      · rename_i empty
        exact empty.symm
      · rfl
    · rename_i missing
      refine .absent fun r mem same => missing (List.any_eq_true.mpr ⟨r,here ▸ mem,by simpa using same⟩)

theorem Granted.mem {l new : List LockRequest} {txnId : Int} {r : LockRequest} (grant : Granted txnId mode l new)
    (apart : r.txnId ≠ txnId) : r ∈ new ↔ r ∈ l := by
  cases grant with
  | covered => rfl
  | upgraded held free =>
    clear held free
    induction l with
    | nil => rfl
    | cons first l ih =>
      rw [regrant]
      split
      · rename_i same
        have old : r ≠ first := fun equal => apart (equal ▸ same)
        have new : r ≠ {first with lockMode := mode, granted := true} := fun equal => apart (equal ▸ same)
        simp [old,new]
      · simp [ih]
  | added =>
    have new : r ≠ ⟨txnId,mode,true⟩ := fun equal => apart (equal ▸ rfl)
    simp [new]

theorem Granted.holds {l new : List LockRequest} {txnId : Int} (grant : Granted txnId mode l new) :
    ∃ r ∈ new, r.txnId = txnId := by
  cases grant with
  | covered held =>
    obtain ⟨r,mem,same,_⟩ := held
    exact ⟨r,mem,same⟩
  | upgraded held =>
    obtain ⟨r,mem,same,_⟩ := held
    have ids : txnId ∈ (regrant txnId mode l).map LockRequest.txnId := by
      rw [regrantIds,← same]
      exact List.mem_map_of_mem mem
    obtain ⟨r',mem',same'⟩ := List.mem_map.mp ids
    exact ⟨r',mem',same'⟩
  | added => exact ⟨_,List.mem_append_right _ List.mem_cons_self,rfl⟩

theorem Granted.safe {l new : List LockRequest} {txnId : Int} (grant : Granted txnId mode l new) (safe : SafeQueue l) :
    SafeQueue new := by
  cases grant with
  | covered => exact safe
  | upgraded held free => exact safe.regrant fun r mem => free r mem (safe.granted r mem)
  | added absent free => exact safe.append absent fun r mem => free r mem (safe.granted r mem)

theorem sameRequest {l : List LockRequest} {r r' : LockRequest} (single : (l.map LockRequest.txnId).Nodup) (mem : r ∈ l)
    (mem' : r' ∈ l) (same : r.txnId = r'.txnId) : r = r' := List.inj_on_of_nodup_map single mem mem' same

theorem Granted.exclusive {l new : List LockRequest} {txnId : Int} {r : LockRequest} (grant : Granted txnId mode l new)
    (safe : SafeQueue l) (mem : r ∈ l) (strong : r.lockMode = .exclusive) : r ∈ new := by
  by_cases own : r.txnId = txnId
  · cases grant with
    | covered => exact mem
    | upgraded held =>
      obtain ⟨r',mem',own',weaker⟩ := held
      obtain rfl := sameRequest safe.single mem mem' (own.trans own'.symm)
      rw [safe.granted r mem,strong] at weaker
      simp [covers] at weaker
    | added absent => exact absurd own (absent r mem)
  · exact (grant.mem own).mpr mem

theorem Granted.gets {l new : List LockRequest} {txnId : Int} (grant : Granted txnId .exclusive l new) :
    ∃ r ∈ new, r.txnId = txnId ∧ r.lockMode = .exclusive := by
  cases grant with
  | covered held =>
    obtain ⟨r,mem,own,_,strong⟩ := held
    exact ⟨r,mem,own,by simpa [covers] using strong⟩
  | upgraded held free =>
    obtain ⟨r,mem,own,_⟩ := held
    clear free
    induction l with
    | nil => cases mem
    | cons first l ih =>
      rw [regrant]
      split
      · rename_i same
        exact ⟨_,List.mem_cons_self,same,rfl⟩
      · rename_i differs
        rcases List.mem_cons.mp mem with rfl | later
        · exact absurd own differs
        · obtain ⟨r',mem',result⟩ := ih later
          exact ⟨r',List.mem_cons_of_mem _ mem',result⟩
  | added => exact ⟨_,List.mem_append_right _ List.mem_cons_self,rfl,rfl⟩

theorem erasedMem {l : List LockRequest} {txnId : Int} (single : (l.map LockRequest.txnId).Nodup) (r : LockRequest) :
    r ∈ (l.eraseP fun r => r.txnId = txnId) ↔ r ∈ l ∧ r.txnId ≠ txnId := by
  induction l with
  | nil => simp
  | cons first l ih =>
    rw [List.map_cons,List.nodup_cons] at single
    by_cases same : first.txnId = txnId
    · rw [List.eraseP_cons_of_pos (by simpa using same)]
      have later : ∀ x ∈ l, x.txnId ≠ txnId := fun x mem again =>
        single.1 (same.trans again.symm ▸ List.mem_map_of_mem mem)
      refine ⟨fun mem => ⟨List.mem_cons_of_mem _ mem,later r mem⟩,fun ⟨mem,apart⟩ => ?_⟩
      rcases List.mem_cons.mp mem with rfl | mem
      · exact absurd same apart
      · exact mem
    · rw [List.eraseP_cons_of_neg (by simpa using same),List.mem_cons,List.mem_cons,ih single.2]
      constructor
      · rintro (rfl | ⟨mem,apart⟩)
        · exact ⟨.inl rfl,same⟩
        · exact ⟨.inr mem,apart⟩
      · rintro ⟨rfl | mem,apart⟩
        · exact .inl rfl
        · exact .inr ⟨mem,apart⟩

end Calls
end LockManager

namespace TransactionManager
open LockManager

def locksOf (txn : Transaction) : Int × TransactionState × List LockDataId := (txn.txnId,txn.state,txn.lockSet)

theorem viewName {a b : Transaction} (view : locksOf a = locksOf b) : a.txnId = b.txnId := (Prod.ext_iff.mp view).1

theorem viewState {a b : Transaction} (view : locksOf a = locksOf b) : a.state = b.state :=
  (Prod.ext_iff.mp (Prod.ext_iff.mp view).2).1

theorem viewLocks {a b : Transaction} (view : locksOf a = locksOf b) : a.lockSet = b.lockSet :=
  (Prod.ext_iff.mp (Prod.ext_iff.mp view).2).2

structure SameLocks (s s' : TransactionManager) : Prop where
  next : s'.nextTxnId = s.nextTxnId
  table : s'.lockManager = s.lockManager
  txns : ∀ t, (s'.txnMap t).map locksOf = (s.txnMap t).map locksOf

section Quiet
variable {α β : Type} {s s' u : TransactionManager} {t : Int}

theorem SameLocks.refl (s : TransactionManager) : SameLocks s s := ⟨rfl,rfl,fun _ => rfl⟩

theorem SameLocks.trans (one : SameLocks s s') (two : SameLocks s' u) : SameLocks s u :=
  ⟨two.next.trans one.next,two.table.trans one.table,fun t => (two.txns t).trans (one.txns t)⟩

theorem SameLocks.back {txn' : Transaction} (same : SameLocks s s') (found : s'.txnMap t = some txn') :
    ∃ txn, s.txnMap t = some txn ∧ locksOf txn = locksOf txn' := by
  have here := same.txns t
  rw [found] at here
  exact Option.map_eq_some_iff.mp here.symm

theorem SameLocks.forth {txn : Transaction} (same : SameLocks s s') (found : s.txnMap t = some txn) :
    ∃ txn', s'.txnMap t = some txn' ∧ locksOf txn' = locksOf txn := by
  have here := same.txns t
  rw [found] at here
  exact Option.map_eq_some_iff.mp here

def Quiet (x : M TransactionManager α) : Prop := ∀ s, SameLocks s (after (x s))

theorem quietBind {x : M TransactionManager α} {f : α → M TransactionManager β} (first : Quiet x)
    (next : ∀ a, Quiet (f a)) : Quiet (x >>= f) := by
  intro s
  have one := first s
  simp only [bind,EStateM.bind]
  cases run : x s with
  | ok a t =>
    rw [run] at one
    exact one.trans (next a t)
  | error e t =>
    rw [run] at one
    exact one

theorem quietOnSm (x : M SmManager α) : Quiet (onSm x) := by
  intro s
  rw [onSm,zoom]
  cases x s.smManager <;> exact ⟨rfl,rfl,fun _ => rfl⟩

theorem quietOnLog (x : M LogManager α) : Quiet (onLog x) := by
  intro s
  rw [onLog,zoom]
  cases x s.logManager <;> exact ⟨rfl,rfl,fun _ => rfl⟩

theorem quietGetTxn : Quiet (getTxn t) := by
  intro s
  rw [getTxn,getBind]
  cases s.txnMap t <;> exact SameLocks.refl s

theorem quietModifyTxn {f : Transaction → Transaction} (same : ∀ txn, locksOf (f txn) = locksOf txn) :
    Quiet (modifyTxn t f) := by
  intro s
  refine ⟨rfl,rfl,fun other => ?_⟩
  change (Function.update s.txnMap t _ other).map locksOf = _
  by_cases here : other = t
  · subst here
    rw [Function.update_self,Option.map_map]
    exact congrArg (Option.map · _) (funext same)
  · rw [Function.update_of_ne here]

theorem quietAppendLog (record : LogRecord) : Quiet (appendLog t record) :=
  quietBind quietGetTxn fun _ => quietBind (quietOnLog _) fun _ => quietModifyTxn fun _ => rfl

theorem quietUndoWrites (records : List WriteRecord) : Quiet (undoWrites t records) := by
  induction records with
  | nil => exact fun s => SameLocks.refl s
  | cons r records ih =>
    exact quietBind (quietModifyTxn fun _ => rfl) fun _ => quietBind (quietOnSm _) fun _ => ih

end Quiet

structure Safe (s : TransactionManager) : Prop where
  named : ∀ t txn, s.txnMap t = some txn → txn.txnId = t ∧ t < s.nextTxnId
  begun : ∀ t txn, s.txnMap t = some txn → txn.state ≠ .default
  queues : ∀ id, SafeQueue (s.lockManager.requests id)
  owned : ∀ id, ∀ r ∈ s.lockManager.requests id, ∃ txn, s.txnMap r.txnId = some txn ∧ ended txn.state = false
  held : ∀ t txn, s.txnMap t = some txn → ∀ id, id ∈ txn.lockSet ↔ ∃ r ∈ s.lockManager.requests id, r.txnId = t
  listed : ∀ t txn, s.txnMap t = some txn → txn.lockSet.Nodup

def putLocks (s : TransactionManager) (t : Int) (p : Transaction × LockManager) : TransactionManager :=
  {s with txnMap := Function.update s.txnMap t (some p.1), lockManager := p.2}

section Steps
variable {s s' : TransactionManager} {t : Int} {txn txn' : Transaction} {lm : LockManager} {id : LockDataId}
  {mode : LockMode}

theorem Safe.same (safe : Safe s) (same : SameLocks s s') : Safe s' := by
  refine ⟨?_,?_,?_,?_,?_,?_⟩
  · intro t txn' found
    obtain ⟨txn,old,view⟩ := same.back found
    rw [same.next,← viewName view]
    exact safe.named t txn old
  · intro t txn' found
    obtain ⟨txn,old,view⟩ := same.back found
    rw [← viewState view]
    exact safe.begun t txn old
  · rw [same.table]
    exact safe.queues
  · intro id r mem
    rw [same.table] at mem
    obtain ⟨txn,old,live⟩ := safe.owned id r mem
    obtain ⟨txn',found,view⟩ := same.forth old
    exact ⟨txn',found,viewState view ▸ live⟩
  · intro t txn' found id
    obtain ⟨txn,old,view⟩ := same.back found
    rw [same.table,← viewLocks view]
    exact safe.held t txn old id
  · intro t txn' found
    obtain ⟨txn,old,view⟩ := same.back found
    rw [← viewLocks view]
    exact safe.listed t txn old

theorem Safe.put (safe : Safe s) (found : s.txnMap t = some txn) (name : txn'.txnId = t) (begun : txn'.state ≠ .default)
    (queues : ∀ id, SafeQueue (lm.requests id))
    (others : ∀ id r, r.txnId ≠ t → (r ∈ lm.requests id ↔ r ∈ s.lockManager.requests id))
    (own : ∀ id, id ∈ txn'.lockSet ↔ ∃ r ∈ lm.requests id, r.txnId = t) (listed : txn'.lockSet.Nodup)
    (live : (∃ id, id ∈ txn'.lockSet) → ended txn'.state = false) : Safe (s.putLocks t (txn',lm)) := by
  have split {u : Int} {x : Transaction} (here : (s.putLocks t (txn',lm)).txnMap u = some x) :
      (u = t ∧ x = txn') ∨ (u ≠ t ∧ s.txnMap u = some x) := by
    by_cases same : u = t
    · subst same
      rw [putLocks] at here
      simp only [Function.update_self,Option.some.injEq] at here
      exact .inl ⟨rfl,here.symm⟩
    · simp only [putLocks,Function.update_of_ne same] at here
      exact .inr ⟨same,here⟩
  refine ⟨?_,?_,queues,?_,?_,?_⟩
  · intro u x here
    rcases split here with ⟨rfl,rfl⟩ | ⟨_,old⟩
    · exact ⟨name,(safe.named u txn found).2⟩
    · exact safe.named u x old
  · intro u x here
    rcases split here with ⟨rfl,rfl⟩ | ⟨_,old⟩
    · exact begun
    · exact safe.begun u x old
  · intro id r mem
    by_cases same : r.txnId = t
    · refine ⟨txn',?_,live ⟨id,(own id).mpr ⟨r,mem,same⟩⟩⟩
      simp only [putLocks,same,Function.update_self]
    · obtain ⟨x,old,alive⟩ := safe.owned id r ((others id r same).mp mem)
      refine ⟨x,?_,alive⟩
      simp only [putLocks,Function.update_of_ne same]
      exact old
  · intro u x here id
    rcases split here with ⟨rfl,rfl⟩ | ⟨apart,old⟩
    · exact own id
    · rw [safe.held u x old id]
      refine exists_congr fun r => ⟨fun ⟨mem,name⟩ => ⟨?_,name⟩,fun ⟨mem,name⟩ => ⟨?_,name⟩⟩
      · exact (others id r (name ▸ apart)).mpr mem
      · exact (others id r (name ▸ apart)).mp mem
  · intro u x here
    rcases split here with ⟨rfl,rfl⟩ | ⟨_,old⟩
    · exact listed
    · exact safe.listed u x old

theorem Safe.lock (safe : Safe s) (found : s.txnMap t = some txn) (live : ended txn.state = false)
    (name : txn.txnId = t) (others : ∀ x ≠ id, lm.requests x = s.lockManager.requests x)
    (here : Granted txn.txnId mode (s.lockManager.requests id) (lm.requests id)) :
    Safe (s.putLocks t (insertLock id txn,lm)) := by
  subst name
  refine safe.put found rfl (safe.begun txn.txnId txn found) ?_ ?_ ?_ ((safe.listed _ _ found).insert) fun _ => live
  · intro x
    by_cases same : x = id
    · exact same ▸ here.safe (safe.queues id)
    · rw [others x same]
      exact safe.queues x
  · intro x r apart
    by_cases same : x = id
    · exact same ▸ here.mem apart
    · rw [others x same]
  · intro x
    rw [insertLock,List.mem_insert_iff]
    by_cases same : x = id
    · subst same
      exact ⟨fun _ => here.holds,fun _ => .inl rfl⟩
    · rw [others x same,← safe.held _ txn found x]
      simp [same]

theorem Safe.unlock (safe : Safe s) (found : s.txnMap t = some txn) (name : txn.txnId = t)
    (held : ∃ r ∈ s.lockManager.requests id, r.txnId = txn.txnId)
    (others : ∀ x ≠ id, lm.requests x = s.lockManager.requests x)
    (here : lm.requests id = (s.lockManager.requests id).eraseP fun r => r.txnId = txn.txnId) :
    Safe (s.putLocks t ({txn with
      lockSet := txn.lockSet.erase id
      state := if txn.state = .growing then .shrinking else txn.state},lm)) := by
  subst name
  have live : ended txn.state = false := by
    obtain ⟨r,mem,same⟩ := held
    obtain ⟨x,old,alive⟩ := safe.owned id r mem
    rw [same,found] at old
    exact Option.some.inj old ▸ alive
  have erased := fun r => @erasedMem _ txn.txnId (safe.queues id).single r
  have begun := safe.begun _ _ found
  refine safe.put found rfl ?_ ?_ ?_ ?_ ((safe.listed _ _ found).erase _) fun _ => ?_
  · cases state : txn.state <;> simp_all
  · intro x
    by_cases same : x = id
    · rw [same,here]
      exact (safe.queues id).sublist List.eraseP_sublist
    · rw [others x same]
      exact safe.queues x
  · intro x r apart
    by_cases same : x = id
    · rw [same,here,erased r]
      exact and_iff_left apart
    · rw [others x same]
  · intro x
    rw [(safe.listed _ _ found).mem_erase_iff]
    by_cases same : x = id
    · subst same
      refine ⟨fun ⟨apart,_⟩ => absurd rfl apart,fun ⟨r,mem,own⟩ => ?_⟩
      rw [here,erased r] at mem
      exact absurd own mem.2
    · rw [others x same,← safe.held _ txn found x]
      exact and_iff_right same
  · cases state : txn.state <;> simp_all [ended]

theorem withLocksOk {α : Type} {x : M (Transaction × LockManager) α} {a : α} {p : Transaction × LockManager}
    (found : s.txnMap t = some txn) (run : x (txn,s.lockManager) = .ok a p) :
    withLocks t x s = .ok a (s.putLocks t p) := by
  simp only [withLocks,found]
  exact zoomOk run

theorem withLocksError {α : Type} {x : M (Transaction × LockManager) α} {e : Fault} {p : Transaction × LockManager}
    (found : s.txnMap t = some txn) (run : x (txn,s.lockManager) = .error e p) :
    withLocks t x s = .error e (s.putLocks t p) := by
  simp only [withLocks,found]
  exact zoomError run

theorem putSame (found : s.txnMap t = some txn) : s.putLocks t (txn,s.lockManager) = s := by
  rw [putLocks,← found,Function.update_eq_self]

/- A call of `lock`: it is refused and changes no request and no lock set, or the transaction was
growing and has the lock now. -/
theorem lockCases (safe : Safe s) (found : s.txnMap t = some txn) (live : ended txn.state = false) :
    (∃ e lm, withLocks t (LockManager.lock id mode) s = .error e (s.putLocks t (txn,lm)) ∧
      lm.requests = s.lockManager.requests) ∨
    (∃ lm, withLocks t (LockManager.lock id mode) s = .ok true (s.putLocks t (insertLock id txn,lm)) ∧
      txn.state ≠ .shrinking ∧ Safe (s.putLocks t (insertLock id txn,lm)) ∧
      (∀ x ≠ id, lm.requests x = s.lockManager.requests x) ∧
      Granted t mode (s.lockManager.requests id) (lm.requests id)) := by
  generalize run : LockManager.lock id mode (txn,s.lockManager) = r
  have locked := @lockRun id mode txn s.lockManager
  rw [run] at locked
  cases locked with
  | thrown same => exact .inl ⟨_,_,withLocksError found run,same⟩
  | done growing others here =>
    have name := (safe.named t txn found).1
    exact .inr ⟨_,withLocksOk found run,growing,safe.lock found live name others here,others,name ▸ here⟩

theorem unlockCases (safe : Safe s) (found : s.txnMap t = some txn) :
    (∃ b, withLocks t (LockManager.unlock id) s = .ok b s ∧ id ∉ txn.lockSet) ∨
    (∃ lm, withLocks t (LockManager.unlock id) s = .ok true (s.putLocks t ({txn with
        lockSet := txn.lockSet.erase id
        state := if txn.state = .growing then .shrinking else txn.state},lm)) ∧
      id ∈ txn.lockSet ∧ ended txn.state = false ∧ Safe (s.putLocks t ({txn with
        lockSet := txn.lockSet.erase id
        state := if txn.state = .growing then .shrinking else txn.state},lm)) ∧
      ∀ x r, r.txnId ≠ t → (r ∈ lm.requests x ↔ r ∈ s.lockManager.requests x)) := by
  have name := (safe.named t txn found).1
  generalize run : LockManager.unlock id (txn,s.lockManager) = r
  have unlocked := @unlockRun id txn s.lockManager
  rw [run] at unlocked
  cases unlocked with
  | absent missing =>
    refine .inl ⟨_,(withLocksOk found run).trans (by rw [putSame found]),fun mem => ?_⟩
    obtain ⟨r,memr,own⟩ := (safe.held t txn found id).mp mem
    exact missing r memr (own.trans name.symm)
  | done held others here =>
    obtain ⟨r,mem,own⟩ := held
    obtain ⟨x,old,alive⟩ := safe.owned id r mem
    rw [own,name,found] at old
    obtain rfl := Option.some.inj old
    refine .inr ⟨_,withLocksOk found run,(safe.held t _ found id).mpr ⟨r,mem,own.trans name⟩,alive,
      safe.unlock found name ⟨r,mem,own⟩ others here,fun x r' apart => ?_⟩
    by_cases same : x = id
    · rw [same,here,erasedMem (safe.queues id).single r',name]
      exact and_iff_left apart
    · rw [others x same]

theorem unlockAll {order : List LockDataId} (safe : Safe s) (found : s.txnMap t = some txn)
    (covered : ∀ id ∈ txn.lockSet, id ∈ order) : ∃ s' txn',
    (order.forM fun id => do
      let _ ← withLocks t (LockManager.unlock id)
      pure () : M TransactionManager Unit) s = .ok () s' ∧
    Safe s' ∧ s'.txnMap t = some txn' ∧ txn'.lockSet = [] := by
  induction order generalizing s txn with
  | nil => exact ⟨s,txn,rfl,safe,found,List.eq_nil_iff_forall_not_mem.mpr fun id mem => nomatch covered id mem⟩
  | cons id order ih =>
    rw [List.forM]
    rcases @unlockCases _ _ _ id safe found with ⟨b,run,absent⟩ | ⟨lm,run,_,_,safe',_⟩
    · have rest : ∀ x ∈ txn.lockSet, x ∈ order := by
        intro x mem
        rcases List.mem_cons.mp (covered x mem) with rfl | later
        · exact absurd mem absent
        · exact later
      obtain ⟨s',txn',all,result⟩ := ih safe found rest
      exact ⟨s',txn',by rw [bind_assoc,bindEq run]; exact all,result⟩
    · have rest : ∀ x ∈ txn.lockSet.erase id, x ∈ order := by
        intro x mem
        obtain ⟨apart,old⟩ := (safe.listed _ _ found).mem_erase_iff.mp mem
        exact (List.mem_cons.mp (covered x old)).resolve_left apart
      obtain ⟨s',txn',all,result⟩ := ih safe' (by simp [putLocks]; rfl) rest
      exact ⟨s',txn',by rw [bind_assoc,bindEq run]; exact all,result⟩

theorem Safe.clear (safe : Safe s) (found : s.txnMap t = some txn) (empty : txn.lockSet = [])
    (f : Transaction → Transaction) (name : (f txn).txnId = txn.txnId) (begun : (f txn).state ≠ .default)
    (locks : (f txn).lockSet = []) :
    ∃ s', modifyTxn t f s = .ok () s' ∧ Safe s' ∧ s'.txnMap t = some (f txn) ∧ s'.lockManager = s.lockManager := by
  refine ⟨s.putLocks t (f txn,s.lockManager),?_,?_,by simp [putLocks],rfl⟩
  · rw [modifyTxn,modifyRun,found]
    rfl
  · refine safe.put found (name.trans (safe.named t txn found).1) begun safe.queues (fun _ _ _ => Iff.rfl) ?_ ?_ ?_
    · intro id
      rw [locks,← empty]
      exact safe.held t txn found id
    · rw [locks]
      exact List.nodup_nil
    · intro ⟨id,mem⟩
      rw [locks] at mem
      cases mem

def NoRequest (s : TransactionManager) (t : Int) : Prop := ∀ id, ∀ r ∈ s.lockManager.requests id, r.txnId ≠ t

theorem Safe.noRequest (safe : Safe s) (found : s.txnMap t = some txn) (empty : txn.lockSet = []) : s.NoRequest t := by
  intro id r mem own
  have here := (safe.held t txn found id).mpr ⟨r,mem,own⟩
  rw [empty] at here
  cases here

theorem Safe.endedNone (safe : Safe s) (found : s.txnMap t = some txn) (gone : ended txn.state = true) : s.NoRequest t := by
  intro id r mem own
  obtain ⟨x,here,live⟩ := safe.owned id r mem
  rw [own,found] at here
  rw [Option.some.inj here,live] at gone
  cases gone

theorem releaseLocksRun {order : List LockDataId} (safe : Safe s) (found : s.txnMap t = some txn)
    (covered : ∀ id ∈ txn.lockSet, id ∈ order) : ∃ s' txn', releaseLocks t order s = .ok () s' ∧ Safe s' ∧
    s'.txnMap t = some txn' ∧ txn'.lockSet = [] := by
  obtain ⟨u,x,all,safe',here,empty⟩ := unlockAll safe found covered
  obtain ⟨s',run,safe'',last,_⟩ := safe'.clear here empty (fun x => {x with lockSet := []}) rfl (safe'.begun t x here) rfl
  refine ⟨s',_,?_,safe'',last,rfl⟩
  rw [releaseLocks,bindEq all]
  exact run

theorem finishRun {order : List LockDataId} {x : M TransactionManager Unit} (state : TransactionState)
    (begun : state ≠ .default) (safe : Safe s) (found : s.txnMap t = some txn) (covered : ∀ id ∈ txn.lockSet, id ∈ order) (quiet : Quiet x)
    (total : ∀ u, (u.txnMap t).isSome → ∃ v, x u = .ok () v) : ∃ s' txn',
    (do releaseLocks t order
        x
        modifyTxn t fun object => {object with state := state} : M TransactionManager Unit) s = .ok () s' ∧
    Safe s' ∧ s'.txnMap t = some txn' ∧ txn'.state = state ∧ s'.NoRequest t := by
  obtain ⟨u,y,released,safe',here,empty⟩ := releaseLocksRun safe found covered
  obtain ⟨v,logged⟩ := total u (by rw [here]; rfl)
  have same := quiet u
  rw [logged] at same
  obtain ⟨z,there,view⟩ := same.forth here
  have none : z.lockSet = [] := (viewLocks view).trans empty
  obtain ⟨s',run,safe'',last,_⟩ := (safe'.same same).clear there none (fun z => {z with state := state}) rfl begun none
  refine ⟨s',_,?_,safe'',last,rfl,safe''.noRequest last none⟩
  rw [bindEq released,bindEq logged]
  exact run

theorem getTxnRun (found : s.txnMap t = some txn) : getTxn t s = .ok txn s := by
  rw [getTxn,getBind]
  simp only [found,pureRun]

theorem onLogOk {α : Type} {x : M LogManager α} {a : α} {log : LogManager} (run : x s.logManager = .ok a log) :
    onLog x s = .ok a {s with logManager := log} := zoomOk run

theorem appendLogRun (record : LogRecord) (found : s.txnMap t = some txn) :
    ∃ s', appendLog t record s = .ok () s' := by
  obtain ⟨lm,run,_⟩ := LogManager.addRun {record with prevLsn := txn.prevLsn} s.logManager
  rw [appendLog,bindEq (getTxnRun found),bindEq (onLogOk run)]
  exact ⟨_,rfl⟩

theorem flushLogRun (s : TransactionManager) : ∃ s', flushLog s = .ok () s' := by
  obtain ⟨lm,run,_⟩ := LogManager.flushRun s.logManager
  exact ⟨_,onLogOk run⟩

theorem logRun (record : LogRecord) (u : TransactionManager) (known : (u.txnMap t).isSome) :
    ∃ v, (do appendLog t record; flushLog : M TransactionManager Unit) u = .ok () v := by
  obtain ⟨x,found⟩ := Option.isSome_iff_exists.mp known
  obtain ⟨v,run⟩ := appendLogRun record found
  obtain ⟨w,flushed⟩ := flushLogRun v
  exact ⟨w,by rw [bindEq run]; exact flushed⟩

/- The lock set as `commit` and `abort` read it. -/
def Reads (s : TransactionManager) (t : Int) (order : List LockDataId) : Prop :=
  ∃ txn, s.txnMap t = some txn ∧ order.Perm txn.lockSet

theorem commitRun {order : List LockDataId} (safe : Safe s) (reads : s.Reads t order) : ∃ s' txn',
    commit t order s = .ok () s' ∧ Safe s' ∧ s'.txnMap t = some txn' ∧ ended txn'.state = true ∧ s'.NoRequest t := by
  obtain ⟨txn,found,perm⟩ := reads
  rw [commit,bindEq (getTxnRun found)]
  split
  · rename_i gone
    exact ⟨s,txn,rfl,safe,found,gone,safe.endedNone found gone⟩
  · obtain ⟨u,logged⟩ := appendLogRun (.commitLogRecord t) found
    obtain ⟨v,flushed⟩ := flushLogRun u
    have same : SameLocks s (after (modifyTxn t (fun object => {object with writeSet := []}) v)) := by
      have one := quietAppendLog (t := t) (.commitLogRecord t) s
      have two := quietOnLog LogManager.flushLogToDisk u
      rw [logged] at one
      rw [← flushLog,flushed] at two
      have three : Quiet (modifyTxn t fun object => {object with writeSet := []}) := quietModifyTxn fun _ => rfl
      exact (one.trans two).trans (three v)
    obtain ⟨x,here,view⟩ := same.forth found
    obtain ⟨s',y,run,safe',last,state,none⟩ := finishRun (x := pure ()) .committed (by decide) (safe.same same) here
      (fun id mem => perm.mem_iff.mpr (viewLocks view ▸ mem)) (fun u => SameLocks.refl u) fun u _ => ⟨u,rfl⟩
    refine ⟨s',y,?_,safe',last,by rw [state]; rfl,none⟩
    rw [bindEq logged,bindEq flushed]
    exact run

theorem abortRun {order : List LockDataId} (safe : Safe s) (reads : s.Reads t order) :
    (∃ e s', abort t order s = .error e s' ∧ SameLocks s s') ∨ ∃ s' txn',
    abort t order s = .ok () s' ∧ Safe s' ∧ s'.txnMap t = some txn' ∧ ended txn'.state = true ∧ s'.NoRequest t := by
  obtain ⟨txn,found,perm⟩ := reads
  rw [abort,bindEq (getTxnRun found)]
  split
  · rename_i gone
    exact .inr ⟨s,txn,rfl,safe,found,gone,safe.endedNone found gone⟩
  · have same := @quietUndoWrites t txn.writeSet.reverse s
    cases undone : undoWrites t txn.writeSet.reverse s with
    | error e u =>
      rw [undone] at same
      exact .inl ⟨e,u,by rw [bindError undone],same⟩
    | ok _ u =>
      rw [undone] at same
      obtain ⟨x,here,view⟩ := same.forth found
      obtain ⟨s',y,run,safe',last,state,none⟩ := finishRun .aborted (by decide) (safe.same same) here
        (fun id mem => perm.mem_iff.mpr (viewLocks view ▸ mem))
        (quietBind (quietAppendLog (t := t) (.abortLogRecord t)) fun _ => quietOnLog LogManager.flushLogToDisk)
        (logRun (.abortLogRecord t))
      refine .inr ⟨s',y,?_,safe',last,by rw [state]; rfl,none⟩
      rw [bindEq undone,← run]
      simp only [bind_assoc]
      rfl

def addTxn (s : TransactionManager) : TransactionManager := {s with
  nextTxnId := s.nextTxnId+1
  txnMap := Function.update s.txnMap s.nextTxnId
    (some {Transaction.new s.nextTxnId with startTs := s.nextTimestamp, state := .growing})}

def stampTxn (s : TransactionManager) : TransactionManager := {s.addTxn with nextTimestamp := s.nextTimestamp+1}

theorem stampFound (s : TransactionManager) : ∃ txn, s.stampTxn.txnMap s.nextTxnId = some txn := ⟨_,Function.update_self ..⟩

theorem beginCall (s : TransactionManager) : begin none s = (do
    appendLog s.nextTxnId (.beginLogRecord s.nextTxnId)
    pure s.nextTxnId : M TransactionManager Int) s.stampTxn := by
  simp only [begin,modifyTxn,getBind,setBind,modifyBind,pure_bind,Function.update_self,Option.map_some,
    Function.update_idem,stampTxn,addTxn]

theorem beginRun (s : TransactionManager) : ∃ s', begin none s = .ok s.nextTxnId s' ∧ SameLocks s.addTxn s' := by
  obtain ⟨txn,found⟩ := stampFound s
  obtain ⟨s',run⟩ := appendLogRun (.beginLogRecord s.nextTxnId) found
  have same := @quietAppendLog s.nextTxnId (.beginLogRecord s.nextTxnId) s.stampTxn
  rw [run] at same
  refine ⟨s',?_,same.next,same.table,same.txns⟩
  rw [beginCall,bindEq run]
  rfl

theorem Safe.addTxn (safe : Safe s) : Safe s.addTxn := by
  have cases {t : Int} {txn : Transaction} (found : s.addTxn.txnMap t = some txn) :
      (t = s.nextTxnId ∧ txn.txnId = s.nextTxnId ∧ txn.state = .growing ∧ txn.lockSet = []) ∨ s.txnMap t = some txn := by
    by_cases fresh : t = s.nextTxnId
    · subst fresh
      rw [TransactionManager.addTxn] at found
      simp only [Function.update_self,Option.some.injEq] at found
      subst found
      exact .inl ⟨rfl,rfl,rfl,rfl⟩
    · simp only [TransactionManager.addTxn,Function.update_of_ne fresh] at found
      exact .inr found
  have fresh : ∀ id, ∀ r ∈ s.lockManager.requests id, r.txnId ≠ s.nextTxnId := by
    intro id r mem
    obtain ⟨txn,found,_⟩ := safe.owned id r mem
    have known := (safe.named _ _ found).2
    omega
  refine ⟨?_,?_,safe.queues,?_,?_,?_⟩
  · intro t txn found
    change _ ∧ t < s.nextTxnId+1
    rcases cases found with ⟨here,name,_⟩ | old
    · exact ⟨name.trans here.symm,by omega⟩
    · have known := safe.named t txn old
      exact ⟨known.1,by omega⟩
  · intro t txn found
    rcases cases found with ⟨_,_,state,_⟩ | old
    · rw [state]
      decide
    · exact safe.begun t txn old
  · intro id r mem
    obtain ⟨txn,found,live⟩ := safe.owned id r mem
    refine ⟨txn,?_,live⟩
    simp only [TransactionManager.addTxn,Function.update_of_ne (fresh id r mem)]
    exact found
  · intro t txn found id
    rcases cases found with ⟨rfl,_,_,empty⟩ | old
    · rw [empty]
      exact ⟨fun mem => (nomatch mem),fun ⟨r,mem,own⟩ => absurd own (fresh id r mem)⟩
    · exact safe.held t txn old id
  · intro t txn found
    rcases cases found with ⟨rfl,_,_,empty⟩ | old
    · rw [empty]
      exact List.nodup_nil
    · exact safe.listed t txn old

end Steps

section Runs
variable {s s' u : TransactionManager} {t : Int} {txn : Transaction} {id : LockDataId} {mode : LockMode}

def Live (s : TransactionManager) (t : Int) : Prop := ∃ txn, s.txnMap t = some txn ∧ ended txn.state = false

theorem liveOf (here : (s.txnMap t).map (fun txn => ended txn.state) = some false) : s.Live t := Option.map_eq_some_iff.mp here

theorem Live.same (live : s.Live t) (view : (s'.txnMap t).map locksOf = (s.txnMap t).map locksOf) : s'.Live t := by
  obtain ⟨txn,found,alive⟩ := live
  rw [found] at view
  obtain ⟨txn',found',same⟩ := Option.map_eq_some_iff.mp view
  exact ⟨txn',found',viewState same ▸ alive⟩

def Has (s : TransactionManager) (t : Int) (id : LockDataId) : Prop :=
  ∃ r ∈ s.lockManager.requests id, r.txnId = t ∧ r.granted = true

/- The calls of the sessions, whether they return or throw, and everything else the server does
with the tables, the log and the write sets. -/
inductive Step : TransactionManager → TransactionManager → Prop where
  | begin {s : TransactionManager} : Step s (after (begin none s))
  | lock {s : TransactionManager} {t : Int} {id : LockDataId} {mode : LockMode} (live : s.Live t) :
      Step s (after (withLocks t (LockManager.lock id mode) s))
  | unlock {s : TransactionManager} {t : Int} {id : LockDataId} :
      Step s (after (withLocks t (LockManager.unlock id) s))
  | commit {s : TransactionManager} {t : Int} {order : List LockDataId} (reads : s.Reads t order) :
      Step s (after (commit t order s))
  | abort {s : TransactionManager} {t : Int} {order : List LockDataId} (reads : s.Reads t order) :
      Step s (after (abort t order s))
  | work {s s' : TransactionManager} (same : SameLocks s s') : Step s s'

def Fresh (s : TransactionManager) : Prop := (∀ t, s.txnMap t = none) ∧ ∀ id, s.lockManager.lockTable id = none

def Reached (s : TransactionManager) : Prop := ∃ s₀, Fresh s₀ ∧ Relation.ReflTransGen Step s₀ s

theorem Fresh.safe (fresh : Fresh s) : Safe s := by
  have none : ∀ id, s.lockManager.requests id = [] := fun id => by simp only [requests,fresh.2 id]
  refine ⟨?_,?_,?_,?_,?_,?_⟩
  · intro t txn found
    rw [fresh.1] at found
    cases found
  · intro t txn found
    rw [fresh.1] at found
    cases found
  · intro id
    rw [none id]
    exact ⟨by simp,by simp,by simp⟩
  · intro id r mem
    rw [none id] at mem
    cases mem
  · intro t txn found
    rw [fresh.1] at found
    cases found
  · intro t txn found
    rw [fresh.1] at found
    cases found

theorem putThrown (found : s.txnMap t = some txn) {lm : LockManager} (same : lm.requests = s.lockManager.requests)
    (safe : Safe s) : Safe (s.putLocks t (txn,lm)) := by
  refine safe.put found (safe.named t txn found).1 (safe.begun t txn found) ?_ ?_ ?_ (safe.listed t txn found) ?_
  · rw [same]
    exact safe.queues
  · rw [same]
    exact fun _ _ _ => Iff.rfl
  · rw [same]
    exact safe.held t txn found
  · intro ⟨id,mem⟩
    obtain ⟨r,memr,own⟩ := (safe.held t txn found id).mp mem
    obtain ⟨x,here,live⟩ := safe.owned id r memr
    rw [own,found] at here
    exact Option.some.inj here ▸ live

theorem Safe.step (safe : Safe s) (step : Step s s') : Safe s' := by
  cases step with
  | begin =>
    obtain ⟨u,run,same⟩ := beginRun s
    rw [run]
    exact safe.addTxn.same same
  | lock live =>
    obtain ⟨txn,found,live⟩ := live
    rcases lockCases safe found live with ⟨e,lm,run,same⟩ | ⟨lm,run,_,safe',_⟩
    · rw [run]
      exact putThrown found same safe
    · rw [run]
      exact safe'
  | @unlock t id =>
    cases found : s.txnMap t with
    | none =>
      simp only [withLocks,found]
      exact safe
    | some txn =>
      rcases unlockCases safe found with ⟨b,run,_⟩ | ⟨lm,run,_,_,safe',_⟩
      · rw [run]
        exact safe
      · rw [run]
        exact safe'
  | commit reads =>
    obtain ⟨u,_,run,safe',_⟩ := commitRun safe reads
    rw [run]
    exact safe'
  | abort reads =>
    rcases abortRun safe reads with ⟨e,u,run,same⟩ | ⟨u,_,run,safe',_⟩
    · rw [run]
      exact safe.same same
    · rw [run]
      exact safe'
  | work same => exact safe.same same

def Only {α : Type} (t : Int) (x : M TransactionManager α) : Prop :=
  ∀ s, ∀ u ≠ t, ((after (x s)).txnMap u).map locksOf = (s.txnMap u).map locksOf

section Only
variable {α β : Type}

theorem onlyQuiet {x : M TransactionManager α} (quiet : Quiet x) : Only t x := fun s u _ => (quiet s).txns u

theorem onlyBind {x : M TransactionManager α} {f : α → M TransactionManager β} (first : Only t x)
    (next : ∀ a, Only t (f a)) : Only t (x >>= f) := by
  intro s u apart
  have one := first s u apart
  simp only [bind,EStateM.bind]
  cases run : x s with
  | ok a v =>
    rw [run] at one
    exact (next a v u apart).trans one
  | error e v =>
    rw [run] at one
    exact one

theorem onlyModifyTxn (f : Transaction → Transaction) : Only t (modifyTxn t f) := by
  intro s u apart
  change (Function.update s.txnMap t _ u).map locksOf = _
  rw [Function.update_of_ne apart]

theorem onlyWithLocks (x : M (Transaction × LockManager) α) : Only t (withLocks t x) := by
  intro s u apart
  rw [withLocks]
  split
  · rfl
  · rename_i object _
    rw [zoom]
    cases x (object,s.lockManager) <;>
      · change (Function.update s.txnMap t _ u).map locksOf = _
        rw [Function.update_of_ne apart]

theorem onlyForM {ids : List LockDataId} {f : LockDataId → M TransactionManager Unit} (each : ∀ id, Only t (f id)) :
    Only t (ids.forM f) := by
  induction ids with
  | nil => exact fun s u _ => rfl
  | cons id ids ih => exact onlyBind (each id) fun _ => ih

theorem onlyRelease (order : List LockDataId) : Only t (releaseLocks t order) :=
  onlyBind (onlyForM fun _ => onlyBind (onlyWithLocks _) fun _ => fun _ _ _ => rfl) fun _ => onlyModifyTxn _

theorem onlyCommit (order : List LockDataId) : Only t (commit t order) := by
  refine onlyBind (onlyQuiet quietGetTxn) fun object => ?_
  split
  · exact fun _ _ _ => rfl
  · exact onlyBind (onlyQuiet (quietAppendLog _)) fun _ => onlyBind (onlyQuiet (quietOnLog _)) fun _ =>
      onlyBind (onlyModifyTxn _) fun _ => onlyBind (onlyRelease order) fun _ => onlyModifyTxn _

theorem onlyAbort (order : List LockDataId) : Only t (abort t order) := by
  refine onlyBind (onlyQuiet quietGetTxn) fun object => ?_
  split
  · exact fun _ _ _ => rfl
  · exact onlyBind (onlyQuiet (quietUndoWrites _)) fun _ => onlyBind (onlyRelease order) fun _ =>
      onlyBind (onlyQuiet (quietAppendLog _)) fun _ => onlyBind (onlyQuiet (quietOnLog _)) fun _ => onlyModifyTxn _

end Only

def Past (s : TransactionManager) (t : Int) : Prop :=
  ∃ txn, s.txnMap t = some txn ∧ (txn.state = .shrinking ∨ ended txn.state = true)

inductive Moved (txn txn' : Transaction) : Prop where
  | same (view : locksOf txn' = locksOf txn)
  | locked (id : LockDataId) (locks : txn'.lockSet = txn.lockSet.insert id) (state : txn'.state = txn.state)
  | past (state : txn'.state = .shrinking ∨ ended txn'.state = true)

theorem moved (safe : Safe s) (found : s.txnMap t = some txn) (step : Step s s') :
    ∃ txn', s'.txnMap t = some txn' ∧ Moved txn txn' := by
  have kept (same : (s'.txnMap t).map locksOf = (s.txnMap t).map locksOf) :
      ∃ txn', s'.txnMap t = some txn' ∧ Moved txn txn' := by
    rw [found] at same
    obtain ⟨txn',found',view⟩ := Option.map_eq_some_iff.mp same
    exact ⟨txn',found',.same view⟩
  cases step with
  | begin =>
    obtain ⟨u,run,same⟩ := beginRun s
    have apart : t ≠ s.nextTxnId := by
      have known := (safe.named t txn found).2
      omega
    rw [run] at kept ⊢
    refine kept ((same.txns t).trans ?_)
    simp only [addTxn,Function.update_of_ne apart]
  | @lock a id mode live =>
    by_cases own : t = a
    · subst own
      obtain ⟨x,here,live⟩ := live
      obtain rfl := Option.some.inj (here.symm.trans found)
      rcases @lockCases _ _ _ id mode safe found live with ⟨e,lm,run,_⟩ | ⟨lm,run,_,_⟩
      · rw [run]
        exact ⟨_,Function.update_self ..,.same rfl⟩
      · rw [run]
        exact ⟨_,Function.update_self ..,.locked id rfl rfl⟩
    · exact kept (onlyWithLocks _ s t own)
  | @unlock a id =>
    by_cases own : t = a
    · subst own
      rcases @unlockCases _ _ _ id safe found with ⟨b,run,_⟩ | ⟨lm,run,_,live,_⟩
      · rw [run]
        exact ⟨txn,found,.same rfl⟩
      · rw [run]
        refine ⟨_,Function.update_self ..,.past ?_⟩
        have begun := safe.begun t txn found
        cases state : txn.state <;> simp_all [ended]
    · exact kept (onlyWithLocks _ s t own)
  | @commit a order reads =>
    by_cases own : t = a
    · subst own
      obtain ⟨u,x,run,_,here,gone,_⟩ := commitRun safe reads
      rw [run]
      exact ⟨x,here,.past (.inr gone)⟩
    · exact kept (onlyCommit order s t own)
  | @abort a order reads =>
    by_cases own : t = a
    · subst own
      rcases abortRun safe reads with ⟨e,u,run,same⟩ | ⟨u,x,run,_,here,gone,_⟩
      · rw [run] at kept ⊢
        exact kept (same.txns t)
      · rw [run]
        exact ⟨x,here,.past (.inr gone)⟩
    · exact kept (onlyAbort order s t own)
  | work same => exact kept (same.txns t)

theorem Past.step (past : s.Past t) (safe : Safe s) (step : Step s s') : s'.Past t := by
  obtain ⟨txn,found,state⟩ := past
  obtain ⟨txn',found',move⟩ := moved safe found step
  refine ⟨txn',found',?_⟩
  cases move with
  | same view =>
    rw [viewState view]
    exact state
  | locked _ _ same => rwa [same]
  | past new => exact new

theorem Past.steps (past : s.Past t) (safe : Safe s) (run : Relation.ReflTransGen Step s s') : s'.Past t := by
  have both : Safe s' ∧ s'.Past t := by
    induction run with
    | refl => exact ⟨safe,past⟩
    | tail _ step ih => exact ⟨ih.1.step step,ih.2.step ih.1 step⟩
  exact both.2

theorem Safe.has (safe : Safe s) (found : s.txnMap t = some txn) : s.Has t id ↔ id ∈ txn.lockSet := by
  rw [safe.held t txn found id]
  exact exists_congr fun r => ⟨fun ⟨mem,own,_⟩ => ⟨mem,own⟩,fun ⟨mem,own⟩ => ⟨mem,own,(safe.queues id).granted r mem⟩⟩

theorem releasedPast (safe : Safe s) (step : Step s s') (had : s.Has t id) (lost : ¬s'.Has t id) : s'.Past t := by
  have ⟨r,mem,own,_⟩ := had
  obtain ⟨txn,found,_⟩ := safe.owned id r mem
  rw [own] at found
  obtain ⟨txn',found',move⟩ := moved safe found step
  rw [(safe.step step).has found'] at lost
  rw [safe.has found] at had
  cases move with
  | same view => exact absurd (viewLocks view ▸ had) lost
  | locked x locks _ => exact absurd (by rw [locks]; exact List.mem_insert_of_mem had) lost
  | past state => exact ⟨txn',found',state⟩

theorem Safe.steps (safe : Safe s) (run : Relation.ReflTransGen Step s s') : Safe s' := by
  induction run with
  | refl => exact safe
  | tail _ step ih => exact ih.step step

def CompatibleLocks (s : TransactionManager) : Prop :=
  ∀ id, ∀ r ∈ s.lockManager.requests id, ∀ r' ∈ s.lockManager.requests id, r.granted = true → r'.granted = true →
    r.txnId ≠ r'.txnId → isCompatible r.lockMode r'.lockMode = true

def OneRequest (s : TransactionManager) : Prop :=
  ∀ id, (s.lockManager.requests id).Pairwise fun r r' => r.txnId ≠ r'.txnId

def LockSetsAgree (s : TransactionManager) : Prop :=
  ∀ t txn, s.txnMap t = some txn → ∀ id, id ∈ txn.lockSet ↔ s.Has t id

def TwoPhase (s : TransactionManager) : Prop :=
  ∀ s₁ s₂ t id, Reached s₁ → Step s₁ s₂ → Relation.ReflTransGen Step s₂ s → s₁.Has t id → ¬s₂.Has t id → s.Live t →
    ∀ id' mode, ∃ e s', withLocks t (LockManager.lock id' mode) s = .error e s'

def EndsRelease (s : TransactionManager) : Prop :=
  (∀ t txn, s.txnMap t = some txn → ended txn.state = true → s.NoRequest t) ∧
  (∀ t order, s.Reads t order → ∃ s' txn', commit t order s = .ok () s' ∧ s'.txnMap t = some txn' ∧
    ended txn'.state = true ∧ s'.NoRequest t) ∧
  ∀ t order s', s.Reads t order → abort t order s = .ok () s' → ∃ txn', s'.txnMap t = some txn' ∧
    ended txn'.state = true ∧ s'.NoRequest t

def RefusalsKeep (s : TransactionManager) : Prop :=
  ∀ t id mode e s', s.Live t → withLocks t (LockManager.lock id mode) s = .error e s' →
    (∀ x, s'.lockManager.requests x = s.lockManager.requests x) ∧
    ∀ u, (s'.txnMap u).map Transaction.lockSet = (s.txnMap u).map Transaction.lockSet

theorem Reached.safe (reached : Reached s) : Safe s := by
  obtain ⟨s₀,fresh,run⟩ := reached
  exact fresh.safe.steps run

theorem Safe.twoPhase (safe : Safe s) : s.TwoPhase := by
  intro s₁ s₂ t id reached step run had lost live id' mode
  have safe₁ := reached.safe
  obtain ⟨txn,found,state⟩ := (releasedPast safe₁ step had lost).steps (safe₁.step step) run
  obtain ⟨x,here,alive⟩ := live
  obtain rfl := Option.some.inj (here.symm.trans found)
  have shrinking : x.state = .shrinking := state.resolve_right (by rw [alive]; decide)
  rcases @lockCases _ _ _ id' mode safe here alive with ⟨e,lm,refused,_⟩ | ⟨_,_,growing,_⟩
  · exact ⟨e,_,refused⟩
  · exact absurd shrinking growing

theorem Safe.endsRelease (safe : Safe s) : s.EndsRelease := by
  refine ⟨fun t txn found gone => safe.endedNone found gone,?_,?_⟩
  · intro t order reads
    obtain ⟨s',x,run,_,result⟩ := commitRun safe reads
    exact ⟨s',x,run,result⟩
  · intro t order s' reads run
    rcases abortRun safe reads with ⟨e,u,thrown,_⟩ | ⟨u,x,done,_,result⟩
    · rw [run] at thrown
      cases thrown
    · rw [run] at done
      cases done
      exact ⟨x,result⟩

theorem Safe.refusalsKeep (safe : Safe s) : s.RefusalsKeep := by
  intro t id mode e s' live refused
  obtain ⟨txn,found,alive⟩ := live
  rcases @lockCases _ _ _ id mode safe found alive with ⟨e',lm,thrown,same⟩ | ⟨lm,done,_⟩
  · rw [refused] at thrown
    cases thrown
    refine ⟨fun x => congrFun same x,fun u => ?_⟩
    by_cases own : u = t
    · subst own
      simp only [putLocks,Function.update_self,found]
    · simp only [putLocks,Function.update_of_ne own]
  · rw [refused] at done
    cases done

theorem lockTableSafe (s : TransactionManager) (reached : s.Reached) :
    s.CompatibleLocks ∧ s.OneRequest ∧ s.LockSetsAgree ∧ s.TwoPhase ∧ s.EndsRelease ∧ s.RefusalsKeep := by
  have safe := reached.safe
  refine ⟨?_,?_,?_,safe.twoPhase,safe.endsRelease,safe.refusalsKeep⟩
  · intro id r mem r' mem' _ _ apart
    exact (safe.queues id).apart r mem r' mem' apart
  · exact fun id => List.pairwise_map.mp (safe.queues id).single
  · exact fun t txn found id => (safe.has found).symm

def started : TransactionManager :=
  ⟨0,0,fun _ => none,⟨fun _ => none⟩,⟨0,[],invalidLsn,[]⟩,⟨⟨"db",[]⟩,fun _ => none,fun _ => none⟩⟩

def opened : TransactionManager := after (begin none (after (begin none started)))

def shared (s : TransactionManager) (t : Int) : TransactionManager :=
  after (withLocks t (LockManager.lock (.onTable 3) .shared) s)

def released : TransactionManager :=
  after (withLocks 0 (LockManager.unlock (.onTable 3)) (shared (shared opened 0) 1))

theorem releasedSafe : released.CompatibleLocks ∧ released.OneRequest ∧ released.LockSetsAgree ∧ released.TwoPhase ∧
    released.EndsRelease ∧ released.RefusalsKeep := by
  have first : opened.Live 0 := ⟨_,rfl,rfl⟩
  have second : (shared opened 0).Live 1 := ⟨_,rfl,rfl⟩
  refine lockTableSafe released ⟨started,⟨fun _ => rfl,fun _ => rfl⟩,?_⟩
  exact ((((Relation.ReflTransGen.refl.tail .begin).tail .begin).tail (.lock first)).tail (.lock second)).tail .unlock

end Runs
end TransactionManager
end Rmdb
