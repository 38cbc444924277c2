import Mathlib.Data.List.Basic
import Mathlib.Tactic.Cases

/-! A block of fixed length that is read and written part by part. -/
namespace Rmdb.Lib

abbrev Block (α : Type) (n : Nat) := {cells : List α // cells.length = n}

namespace Block
variable {α : Type} {n : Nat}

def peek (b : Block α n) (off len : Nat) : List α := (b.val.drop off).take len

def poke (b : Block α n) (off : Nat) (data : List α) : Option (Block α n) :=
  if inside : off+data.length ≤ n then
    some ⟨b.val.take off ++ data ++ b.val.drop (off+data.length),by
      simp only [List.length_append,List.length_take,List.length_drop,b.property]
      omega⟩
  else none

variable {b b' : Block α n} {off o len : Nat} {data : List α}

theorem peekLength (inside : off+len ≤ n) : (peek b off len).length = len := by
  rw [peek,List.length_take,List.length_drop,b.property]
  omega

theorem pokeInside (b : Block α n) (inside : off+data.length ≤ n) : ∃ b', poke b off data = some b' :=
  ⟨_,by rw [poke,dif_pos inside]⟩

theorem poked (written : poke b off data = some b') : off+data.length ≤ n ∧
    b'.val = b.val.take off ++ data ++ b.val.drop (off+data.length) := by
  rw [poke] at written
  split at written
  · rename_i inside
    exact ⟨inside,by rw [← Option.some.inj written]⟩
  · cases written

theorem peekSame (written : poke b off data = some b') : peek b' off data.length = data := by
  obtain ⟨inside,value⟩ := poked written
  have front : (b.val.take off).length = off := by
    rw [List.length_take,b.property]
    omega
  rw [peek,value,List.append_assoc,List.drop_append_of_le_length (by omega),List.drop_of_length_le (by omega),
    List.nil_append,List.take_left]

theorem peekApart (written : poke b off data = some b') (apart : o+len ≤ off ∨ off+data.length ≤ o) :
    peek b' o len = peek b o len := by
  obtain ⟨inside,value⟩ := poked written
  have front : (b.val.take off).length = off := by
    rw [List.length_take,b.property]
    omega
  apply List.ext_getElem?
  intro i
  simp only [peek,value,List.getElem?_take,List.getElem?_drop]
  split
  · rename_i within
    rcases apart with before | behind
    · rw [List.append_assoc,List.getElem?_append_left (by omega),List.getElem?_take,if_pos (by omega)]
    · rw [List.getElem?_append_right (by simp only [List.length_append]; omega),List.getElem?_drop]
      congr 1
      simp only [List.length_append,front]
      omega
  · rfl

end Block
end Rmdb.Lib
