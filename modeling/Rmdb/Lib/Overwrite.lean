import Mathlib

/-! A map written at a list of places, one after the other. -/
namespace Rmdb.Lib

section Overwrite
variable {K V : Type} [DecidableEq K]

def overwrite (m : K → V) (writes : List (K × V)) : K → V :=
  writes.foldl (fun m write => Function.update m write.1 write.2) m

def lastWrite (k : K) (writes : List (K × V)) : Option V :=
  ((writes.filter fun write => write.1 = k).getLast?).map Prod.snd

variable {m : K → V} {writes : List (K × V)} {k : K}

theorem overwriteAppend (later : List (K × V)) :
    overwrite m (writes ++ later) = overwrite (overwrite m writes) later := List.foldl_append

theorem overwriteAt : overwrite m writes k = (lastWrite k writes).getD (m k) := by
  induction writes using List.reverseRecOn with
  | nil => rfl
  | append_singleton writes write ih =>
    rw [overwriteAppend]
    change Function.update (overwrite m writes) write.1 write.2 k = _
    by_cases here : write.1 = k
    · subst here
      simp [lastWrite]
    · rw [Function.update_of_ne (Ne.symm here),ih]
      simp [lastWrite,here]

theorem overwriteOutside (outside : ∀ write ∈ writes, write.1 ≠ k) : overwrite m writes k = m k := by
  have none : (writes.filter fun write => write.1 = k) = [] := by
    rw [List.filter_eq_nil_iff]
    exact fun write mem => by simpa using outside write mem
  rw [overwriteAt,lastWrite,none]
  rfl

theorem overwriteTwice : overwrite (overwrite m writes) writes = overwrite m writes := by
  funext k
  rw [overwriteAt,overwriteAt]
  cases lastWrite k writes <;> rfl

theorem lastWriteAppend (later : List (K × V)) :
    lastWrite k (writes ++ later) = (lastWrite k later).or (lastWrite k writes) := by
  rw [lastWrite,List.filter_append,List.getLast?_append,Option.map_or]
  rfl

end Overwrite
end Rmdb.Lib
