import Mathlib.Data.List.Nodup
import Mathlib.Logic.Function.Basic

/-! A singly linked chain kept in the cells of a store: `next` gives the successor that a cell
names, `last` ends the chain. -/
namespace Rmdb.Lib

section Chain
variable {α : Type} {next next' : α → Option α} {last head p q : α} {chain front back : List α}

def Linked (next : α → Option α) (last : α) : α → List α → Prop
  | head,[] => head = last
  | head,p::rest => head = p ∧ p ≠ last ∧ ∃ q, next p = some q ∧ Linked next last q rest

theorem linkedNil (linked : Linked next last last chain) : chain = [] := by
  cases chain with
  | nil => rfl
  | cons p rest => exact absurd linked.1.symm linked.2.1

theorem linkedHead (linked : Linked next last head chain) (more : head ≠ last) :
    ∃ rest q, chain = head :: rest ∧ next head = some q ∧ Linked next last q rest := by
  cases chain with
  | nil => exact absurd linked more
  | cons p rest =>
    obtain ⟨rfl,_,q,named,tail⟩ := linked
    exact ⟨rest,q,rfl,named,tail⟩

theorem linkedCongr (linked : Linked next last head chain) (same : ∀ p ∈ chain, next' p = next p) :
    Linked next' last head chain := by
  induction chain generalizing head with
  | nil => exact linked
  | cons p rest ih =>
    obtain ⟨first,more,q,named,tail⟩ := linked
    refine ⟨first,more,q,?_,ih tail fun x mem => same x (List.mem_cons_of_mem p mem)⟩
    rw [same p List.mem_cons_self,named]

variable [DecidableEq α]

theorem linkedPush (linked : Linked next last head chain) (more : p ≠ last) (fresh : p ∉ chain) :
    Linked (Function.update next p (some head)) last p (p::chain) := by
  refine ⟨rfl,more,head,Function.update_self ..,linkedCongr linked fun x mem => ?_⟩
  have apart : x ≠ p := fun same => fresh (same ▸ mem)
  rw [Function.update_of_ne apart]

theorem linkedPop (linked : Linked next last head chain) (nodup : (p::chain).Nodup) (x : Option α) :
    Linked (Function.update next p x) last head chain := by
  refine linkedCongr linked fun y mem => ?_
  have apart : y ≠ p := fun same => (List.nodup_cons.mp nodup).1 (same ▸ mem)
  rw [Function.update_of_ne apart]

theorem linkedUnlink {x : Option α} (nodup : (front ++ p :: q :: back).Nodup)
    (linked : Linked next last head (front ++ p :: q :: back)) :
    Linked (Function.update (Function.update next p (next q)) q x) last head (front ++ p :: back) := by
  induction front generalizing head with
  | nil =>
    obtain ⟨first,more,a,_,same,_,b,named,tail⟩ := linked
    simp only [List.nil_append,List.nodup_cons,List.mem_cons,not_or] at nodup
    obtain ⟨⟨apart,outside⟩,absent,_⟩ := nodup
    refine ⟨first,more,b,?_,linkedCongr tail fun y mem => ?_⟩
    · rw [Function.update_of_ne apart,Function.update_self,named]
    · have notQ : y ≠ q := fun same => absent (same ▸ mem)
      have notP : y ≠ p := fun same => outside (same ▸ mem)
      rw [Function.update_of_ne notQ,Function.update_of_ne notP]
  | cons r front ih =>
    obtain ⟨first,more,a,named,tail⟩ := linked
    obtain ⟨absent,rest⟩ := List.nodup_cons.mp nodup
    refine ⟨first,more,a,?_,ih rest tail⟩
    have notQ : r ≠ q := fun same => absent (by simp [same])
    have notP : r ≠ p := fun same => absent (by simp [same])
    rw [Function.update_of_ne notQ,Function.update_of_ne notP,named]

end Chain
end Rmdb.Lib
