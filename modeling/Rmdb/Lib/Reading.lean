import Mathlib.Data.List.Basic
import Mathlib.Tactic

/-! Computations that look at a memory: which spans they read, and how they end. -/
namespace Rmdb.Lib

structure Span where
  start : Int
  len : Nat
  deriving DecidableEq, Repr

structure Reading (ε α : Type) where
  reads : List Span
  result : Except ε α

namespace Reading
variable {ε α β γ : Type}

def bind (x : Reading ε α) (f : α → Reading ε β) : Reading ε β :=
  match x.result with
  | .ok a => ⟨x.reads ++ (f a).reads,(f a).result⟩
  | .error e => ⟨x.reads,.error e⟩

instance : Monad (Reading ε) where
  pure a := ⟨[],.ok a⟩
  bind := bind

instance : MonadExceptOf ε (Reading ε) where
  throw e := ⟨[],.error e⟩
  tryCatch x handle :=
    match x.result with
    | .ok _ => x
    | .error e => ⟨x.reads ++ (handle e).reads,(handle e).result⟩

theorem bindOk {x : Reading ε α} {a : α} (f : α → Reading ε β) (done : x.result = .ok a) :
    x >>= f = ⟨x.reads ++ (f a).reads,(f a).result⟩ := by
  change x.bind f = _
  rw [bind,done]

theorem bindError {x : Reading ε α} {e : ε} (f : α → Reading ε β) (failed : x.result = .error e) :
    x >>= f = ⟨x.reads,.error e⟩ := by
  change x.bind f = _
  rw [bind,failed]

theorem bindDone {x : Reading ε α} {f : α → Reading ε β} {b : β} :
    (x >>= f).result = .ok b ↔ ∃ a, x.result = .ok a ∧ (f a).result = .ok b := by
  cases done : x.result with
  | error e =>
    rw [bindError f done]
    constructor
    · intro same
      cases same
    · rintro ⟨_,same,-⟩
      cases same
  | ok a =>
    rw [bindOk f done]
    constructor
    · exact fun last => ⟨a,rfl,last⟩
    · rintro ⟨_,same,last⟩
      cases same
      exact last

theorem idMap (x : Reading ε α) : id <$> x = x := by
  obtain ⟨reads,result⟩ := x
  cases result with
  | error e => rfl
  | ok a => exact congrArg (Reading.mk · _) (List.append_nil reads)

theorem bindAssoc (x : Reading ε α) (f : α → Reading ε β) (g : β → Reading ε γ) :
    x >>= f >>= g = x >>= fun a => f a >>= g := by
  cases first : x.result with
  | error e => rw [bindError f first,bindError _ first,bindError g rfl]
  | ok a => cases second : (f a).result with
    | error e =>
      rw [bindOk f first,bindOk _ first,bindError g second]
      exact bindError g second
    | ok b =>
      rw [bindOk f first,bindOk _ first,bindOk g second,← List.append_assoc]
      exact bindOk g second

instance : LawfulMonad (Reading ε) := LawfulMonad.mk' (Reading ε) idMap (fun _ _ => rfl) bindAssoc

/- The memory begins at 0; what is read outside of it has no meaning. -/
def readAt (memory : List γ) (outside : ε) (start : Int) (len : Nat) : Reading ε (List γ) :=
  ⟨[⟨start,len⟩],if 0 ≤ start ∧ start+len ≤ memory.length then .ok ((memory.drop start.toNat).take len) else .error outside⟩

def Within (x : Reading ε α) (low high : Int) : Prop := ∀ s ∈ x.reads, low ≤ s.start ∧ s.start+s.len ≤ high

section Rules
variable {x : Reading ε α} {f : α → Reading ε β} {low high : Int} {a : α} {e : ε} {memory : List γ} {outside : ε}

theorem withinPure (a : α) : (pure a : Reading ε α).Within low high := fun _ mem => absurd mem List.not_mem_nil

theorem withinBind : (x >>= f).Within low high ↔ x.Within low high ∧ ∀ a, x.result = .ok a → (f a).Within low high := by
  cases done : x.result with
  | error e =>
    rw [bindError f done]
    exact ⟨fun within => ⟨within,fun a same => by cases same⟩,And.left⟩
  | ok a =>
    rw [bindOk f done]
    constructor
    · intro within
      refine ⟨fun s mem => within s (List.mem_append_left _ mem),fun b same => ?_⟩
      cases same
      exact fun s mem => within s (List.mem_append_right _ mem)
    · rintro ⟨first,second⟩ s mem
      rcases List.mem_append.mp mem with mem | mem
      · exact first s mem
      · exact second a rfl s mem

theorem readAtWithin (start : Int) (len : Nat) :
    (readAt memory outside start len).Within low high ↔ low ≤ start ∧ start+len ≤ high := by
  simp [Within,readAt]

theorem readAtInside {start len : Nat} (inside : start+len ≤ memory.length) :
    (readAt memory outside start len : Reading ε (List γ)).result = .ok ((memory.drop start).take len) :=
  if_pos ⟨Int.natCast_nonneg start,by omega⟩

end Rules
end Reading
end Rmdb.Lib
