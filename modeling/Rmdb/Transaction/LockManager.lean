import Rmdb.Defs

/-! `Transaction` and `LockManager`. A call with a transaction pointer reads and writes the object
pointed to and the lock table, so its state is the pair of both. -/
namespace Rmdb

inductive TransactionState where
  | default
  | growing
  | shrinking
  | committed
  | aborted
  deriving DecidableEq, Repr

inductive WType where
  | insertTuple
  | deleteTuple
  | updateTuple
  deriving DecidableEq, Repr

structure WriteRecord where
  wtype : WType
  tabName : String
  rid : Rid
  record : Bytes
  deriving DecidableEq, Repr

inductive LockDataType where
  | table
  | record
  deriving DecidableEq, Repr

structure LockDataId where
  fd : Int
  rid : Rid
  type : LockDataType
  deriving DecidableEq, Repr

def LockDataId.onTable (fd : Int) : LockDataId := ⟨fd,⟨-1,-1⟩,.table⟩
def LockDataId.onRecord (fd : Int) (rid : Rid) : LockDataId := ⟨fd,rid,.record⟩

-- `lock_set_` is an `unordered_set`: a list without repetitions, in no particular order
structure Transaction where
  txnMode : Bool
  state : TransactionState
  prevLsn : Int
  txnId : Int
  startTs : Int
  writeSet : List WriteRecord
  lockSet : List LockDataId
  deriving DecidableEq, Repr

def Transaction.new (txnId : Int) : Transaction := ⟨false,.default,invalidLsn,txnId,0,[],[]⟩

inductive LockMode where
  | shared
  | exclusive
  | intentionShared
  | intentionExclusive
  | sIx
  deriving DecidableEq, Repr

inductive GroupLockMode where
  | nonLock
  | is
  | ix
  | s
  | x
  | six
  deriving DecidableEq, Repr

structure LockRequest where
  txnId : Int
  lockMode : LockMode
  granted : Bool
  deriving DecidableEq, Repr

structure LockRequestQueue where
  requestQueue : List LockRequest
  groupLockMode : GroupLockMode
  deriving DecidableEq, Repr

structure LockManager where
  lockTable : LockDataId → Option LockRequestQueue

def groupModeFor : LockMode → GroupLockMode
  | .shared => .s
  | .exclusive => .x
  | .intentionShared => .is
  | .intentionExclusive => .ix
  | .sIx => .six

def groupModeRank : GroupLockMode → Nat
  | .nonLock => 0
  | .is => 1
  | .ix => 2
  | .s => 3
  | .six => 4
  | .x => 5

namespace LockManager

def isCompatible (heldMode requestMode : LockMode) : Bool :=
  if heldMode = .exclusive ∨ requestMode = .exclusive then false
  else if heldMode = .sIx ∨ requestMode = .sIx then
    heldMode = .intentionShared ∨ requestMode = .intentionShared
  else if heldMode = .shared then requestMode = .shared ∨ requestMode = .intentionShared
  else if requestMode = .shared then heldMode = .shared ∨ heldMode = .intentionShared
  else true

def refreshGroupLockMode (queue : LockRequestQueue) : LockRequestQueue :=
  {queue with groupLockMode := queue.requestQueue.foldl (fun groupMode request =>
    if request.granted ∧ groupModeRank (groupModeFor request.lockMode) > groupModeRank groupMode then
      groupModeFor request.lockMode
    else groupMode) .nonLock}

-- the requests of the queue of an object; `operator[]` makes a missing queue
def requests (s : LockManager) (id : LockDataId) : List LockRequest :=
  match s.lockTable id with
  | some queue => queue.requestQueue
  | none => []

def setQueue (s : LockManager) (id : LockDataId) (queue : Option LockRequestQueue) : LockManager :=
  {s with lockTable := Function.update s.lockTable id queue}

-- a granted request that already covers the mode asked for
def covers (held lockMode : LockMode) : Bool :=
  held = lockMode ∨ held = .exclusive ∨ (held = .shared ∧ lockMode = .intentionShared) ∨
    (held = .sIx ∧ lockMode ≠ .exclusive)

def regrant (txnId : Int) (lockMode : LockMode) : List LockRequest → List LockRequest
  | [] => []
  | request :: rest =>
    if request.txnId = txnId then {request with lockMode := lockMode, granted := true} :: rest
    else request :: regrant txnId lockMode rest

def insertLock (id : LockDataId) (txn : Transaction) : Transaction := {txn with lockSet := txn.lockSet.insert id}

def lock (id : LockDataId) (lockMode : LockMode) : M (Transaction × LockManager) Bool := do
  let (txn,s) ← get
  if txn.state = .shrinking then throw (.txnAbort txn.txnId .lockOnShrinking) else
    let queue := (s.lockTable id).getD ⟨[],.nonLock⟩
    set (txn,s.setQueue id (some queue))
    let existing := queue.requestQueue.find? fun request => request.txnId = txn.txnId
    if existing.any fun request => request.granted && covers request.lockMode lockMode then
      set (insertLock id txn,s.setQueue id (some queue))
      pure true
    else if queue.requestQueue.any fun request => request.granted && decide (request.txnId ≠ txn.txnId) &&
        !isCompatible request.lockMode lockMode then
      throw (.txnAbort txn.txnId .deadlockPrevention)
    else
      let granted := if existing.isSome then regrant txn.txnId lockMode queue.requestQueue
        else queue.requestQueue ++ [⟨txn.txnId,lockMode,true⟩]
      set (insertLock id txn,s.setQueue id (some (refreshGroupLockMode {queue with requestQueue := granted})))
      pure true

def unlock (id : LockDataId) : M (Transaction × LockManager) Bool := do
  let (txn,s) ← get
  match s.lockTable id with
  | none => pure false
  | some queue =>
    if queue.requestQueue.any fun request => request.txnId = txn.txnId then
      let rest := queue.requestQueue.eraseP fun request => request.txnId = txn.txnId
      let released := if txn.state = .growing then {txn with state := .shrinking} else txn
      set ({released with lockSet := txn.lockSet.erase id},
        s.setQueue id (if rest = [] then none else some (refreshGroupLockMode {queue with requestQueue := rest})))
      pure true
    else pure true

def lockSharedOnRecord (rid : Rid) (tabFd : Int) := lock (.onRecord tabFd rid) .shared
def lockExclusiveOnRecord (rid : Rid) (tabFd : Int) := lock (.onRecord tabFd rid) .exclusive
def lockSharedOnTable (tabFd : Int) := lock (.onTable tabFd) .shared
def lockExclusiveOnTable (tabFd : Int) := lock (.onTable tabFd) .exclusive
def lockISOnTable (tabFd : Int) := lock (.onTable tabFd) .intentionShared
def lockIXOnTable (tabFd : Int) := lock (.onTable tabFd) .intentionExclusive

end LockManager
end Rmdb
