import Mathlib.Data.List.Basic

/-! Lists in the order of a record of events, latest event first: what stands further back in the
list last occurred longer ago. -/
namespace Rmdb.Lib

variable {α : Type} [DecidableEq α] {events l l' : List α} {a b : α}

structure Recent (events l : List α) : Prop where
  known : ∀ a ∈ l, a ∈ events
  sorted : l.Pairwise fun a b => events.idxOf a < events.idxOf b

namespace Recent

theorem nil (events : List α) : Recent events [] := ⟨by simp,List.Pairwise.nil⟩

theorem sublist (recent : Recent events l) (sub : l'.Sublist l) : Recent events l' :=
  ⟨fun a mem => recent.known a (sub.subset mem),recent.sorted.sublist sub⟩

theorem push (recent : Recent events l) (absent : a ∉ l) : Recent (a :: events) (a :: l) := by
  have apart (b : α) (mem : b ∈ l) : a ≠ b := fun same => absent (same ▸ mem)
  refine ⟨?_,List.pairwise_cons.mpr ⟨?_,?_⟩⟩
  · intro b mem
    rcases List.mem_cons.mp mem with rfl | old
    · exact List.mem_cons_self
    · exact List.mem_cons_of_mem a (recent.known b old)
  · intro b mem
    rw [List.idxOf_cons_self,List.idxOf_cons_ne _ (apart b mem)]
    exact Nat.succ_pos _
  · refine recent.sorted.imp_of_mem fun {b c} memB memC before => ?_
    rw [List.idxOf_cons_ne _ (apart b memB),List.idxOf_cons_ne _ (apart c memC)]
    exact Nat.succ_lt_succ before

theorem last (recent : Recent events l) (final : l.getLast? = some a) (mem : b ∈ l) (apart : b ≠ a) :
    events.idxOf b < events.idxOf a := by
  obtain ⟨front,rfl⟩ := List.getLast?_eq_some_iff.mp final
  rcases List.mem_append.mp mem with inside | here
  · exact (List.pairwise_append.mp recent.sorted).2.2 b inside a (by simp)
  · exact absurd (List.mem_singleton.mp here) apart

end Recent
end Rmdb.Lib
