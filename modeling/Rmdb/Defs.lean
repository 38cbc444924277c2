import Mathlib

/-! Identifiers, column types and errors shared by every layer, and the monad in
which the source's member functions are written: a run ends in a value or in a
fault, and carries the object's state in both cases, since an exception leaves
whatever was already written in place. -/
namespace Rmdb

abbrev Bytes := List UInt8

-- Page and slot numbers are `int` in the source; `-1` marks the absent page.
structure PageId where
  fd : Int
  pageNo : Int
  deriving DecidableEq, Repr

structure Rid where
  pageNo : Int
  slotNo : Int
  deriving DecidableEq, Repr

inductive ColType where
  | int
  | bigint
  | float
  | string
  | datetime
  deriving DecidableEq, Repr

def coltype2str : ColType → String
  | .int => "INT"
  | .bigint => "BIGINT"
  | .float => "FLOAT"
  | .string => "STRING"
  | .datetime => "DATETIME"

namespace ColType

def toInt : ColType → Int
  | .int => 0
  | .bigint => 1
  | .float => 2
  | .string => 3
  | .datetime => 4

def ofInt (v : Int) : Option ColType := [ColType.int,.bigint,.float,.string,.datetime].find? fun type => type.toInt = v

@[simp] theorem ofIntToInt (type : ColType) : ofInt type.toInt = some type := by cases type <;> rfl

end ColType

def pageSize : Nat := 4096
def invalidPageId : Int := -1
def invalidTxnId : Int := -1
def invalidLsn : Int := -1

inductive RMDBError where
  | plain (msg : String)
  | internal (msg : String)
  | unix (reason : String)
  | fileExists (path : String)
  | fileNotFound (path : String)
  | fileNotClosed (path : String)
  | pageNotExist (table : String) (pageNo : Int)
  | recordNotFound (pageNo slotNo : Int)
  | invalidRecordSize (size : Int)
  | invalidColLength (len : Int)
  | indexEntryNotFound
  | tableNotFound (name : String)
  | tableExists (name : String)
  | columnNotFound (name : String)
  | indexNotFound (tab : String) (cols : List String)
  | indexExists (tab : String) (cols : List String)
  | invalidValueCount
  | stringOverflow
  | incompatibleType (lhs rhs : String)
  | numericOverflow (target : String)
  | invalidDateTime (value : Bytes)
  | ambiguousColumn (name : String)
  deriving DecidableEq, Repr

inductive AbortReason where
  | lockOnShrinking
  | upgradeConflict
  | deadlockPrevention
  deriving DecidableEq, Repr

/- How a call can fail to return: an `RMDBError`, a `TransactionAbortException`, a failed
`assert`, a read past the used part of an array, the `std::out_of_range` of `map::at`, a division by
zero, or a loop cut off by the model's step bound. -/
inductive Fault where
  | error (e : RMDBError)
  | txnAbort (txn : Int) (reason : AbortReason)
  | assertion (text : String)
  | outOfRange
  | mapAt
  | divideByZero
  | fuel
  deriving DecidableEq, Repr

abbrev M (σ α : Type) := EStateM Fault σ α

section Monad
variable {σ α β : Type}

def raise (e : RMDBError) : M σ α := throw (.error e)

def assert (p : Prop) [Decidable p] (text : String) : M σ Unit :=
  if p then pure () else throw (.assertion text)

def ofExcept (x : Except Fault α) : M σ α :=
  match x with
  | .ok a => pure a
  | .error e => throw e

def eval (x : M σ α) (s : σ) : Except Fault α :=
  match x s with
  | .ok a _ => .ok a
  | .error e _ => .error e

def after (r : EStateM.Result Fault σ α) : σ :=
  match r with
  | .ok _ s => s
  | .error _ s => s

def isOk (r : EStateM.Result Fault σ α) : Bool :=
  match r with
  | .ok _ _ => true
  | .error _ _ => false

/- A member function called on a part of a larger object. -/
def zoom {τ : Type} (part : τ → σ) (put : σ → τ → τ) (x : M σ α) : M τ α := fun t =>
  match x (part t) with
  | .ok a s => .ok a (put s t)
  | .error e s => .error e (put s t)

theorem isOkUnit {r : EStateM.Result Fault σ Unit} (ok : isOk r = true) : r = .ok () (after r) := by
  cases r with
  | ok _ _ => rfl
  | error _ _ => cases ok

@[simp] theorem ofExceptOk (a : α) (s : σ) : (ofExcept (.ok a) : M σ α) s = .ok a s := rfl

@[simp] theorem ofExceptError (e : Fault) (s : σ) : (ofExcept (.error e) : M σ α) s = .error e s := rfl

theorem bindOk {x : M σ α} {f : α → M σ β} {s s' : σ} {b : β} :
    (x >>= f) s = .ok b s' ↔ ∃ a t, x s = .ok a t ∧ f a t = .ok b s' := by
  simp only [bind,EStateM.bind]
  cases h : x s with
  | ok a t => simp
  | error e t => simp

theorem exceptBind {x : Except Fault α} {f : α → Except Fault β} {b : β} (done : x >>= f = .ok b) :
    ∃ a, x = .ok a ∧ f a = .ok b := by
  cases x with
  | error e => cases done
  | ok a => exact ⟨a,rfl,done⟩

theorem bindEq {x : M σ α} {f : α → M σ β} {s t : σ} {a : α} (h : x s = .ok a t) :
    (x >>= f) s = f a t := by
  simp only [bind,EStateM.bind,h]

theorem evalOk {x : M σ α} {s t : σ} {a : α} (h : x s = .ok a t) : eval x s = .ok a := by
  simp only [eval,h]

theorem zoomOk {τ : Type} {part : τ → σ} {put : σ → τ → τ} {x : M σ α} {t : τ} {s : σ} {a : α}
    (h : x (part t) = .ok a s) : zoom part put x t = .ok a (put s t) := by
  simp only [zoom,h]

theorem zoomError {τ : Type} {part : τ → σ} {put : σ → τ → τ} {x : M σ α} {t : τ} {s : σ} {e : Fault}
    (h : x (part t) = .error e s) : zoom part put x t = .error e (put s t) := by
  simp only [zoom,h]

theorem bindError {x : M σ α} {f : α → M σ β} {s t : σ} {e : Fault} (h : x s = .error e t) :
    (x >>= f) s = .error e t := by
  simp only [bind,EStateM.bind,h]

@[simp] theorem pureRun (a : α) (s : σ) : (pure a : M σ α) s = .ok a s := rfl

@[simp] theorem getRun (s : σ) : (get : M σ σ) s = .ok s s := rfl

@[simp] theorem setRun (s t : σ) : (set t : M σ PUnit) s = .ok () t := rfl

@[simp] theorem modifyRun (f : σ → σ) (s : σ) : (modify f : M σ PUnit) s = .ok () (f s) := rfl

@[simp] theorem throwRun (e : Fault) (s : σ) : (throw e : M σ α) s = .error e s := rfl

@[simp] theorem raiseRun (e : RMDBError) (s : σ) : (raise e : M σ α) s = .error (.error e) s := rfl

@[simp] theorem getBind (f : σ → M σ β) (s : σ) : (get >>= f) s = f s s := rfl

@[simp] theorem setBind (f : PUnit → M σ β) (s t : σ) : (set t >>= f) s = f () t := rfl

@[simp] theorem modifyBind (g : σ → σ) (f : PUnit → M σ β) (s : σ) :
    (modify g >>= f) s = f () (g s) := rfl

@[simp] theorem throwBind (e : Fault) (f : α → M σ β) (s : σ) :
    ((throw e : M σ α) >>= f) s = .error e s := rfl

@[simp] theorem raiseBind (e : RMDBError) (f : α → M σ β) (s : σ) :
    ((raise e : M σ α) >>= f) s = .error (.error e) s := rfl

theorem assertOk {p : Prop} [Decidable p] {text : String} {s t : σ} {u : Unit} :
    assert p text s = .ok u t ↔ p ∧ s = t := by
  by_cases h : p <;> simp [assert,h]

theorem assertRun {p : Prop} [Decidable p] {text : String} (h : p) (s : σ) :
    assert p text s = .ok () s := assertOk.mpr ⟨h,rfl⟩

end Monad
end Rmdb
