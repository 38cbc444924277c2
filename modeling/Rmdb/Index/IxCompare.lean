import Rmdb.Common.RawData
import Rmdb.System.SmMeta
import Rmdb.Index.IxIndexHandle

/-! `ix_compare` on keys as bytes: column after column, integers in two's complement with
the least byte first, strings by `memcmp`. It is the lexicographic order of the column
values, spelled out digit by digit. -/
namespace Rmdb
open Index

namespace IxCol

def compareInt (a b : Int) : Int := if a < b then -1 else if a > b then 1 else 0

def compare (col : IxCol) (a b : Bytes) : Int :=
  match col.type with
  | .int => compareInt (leInt (a.take 4)) (leInt (b.take 4))
  | .bigint => compareInt (leInt (a.take 8)) (leInt (b.take 8))
  | .datetime => compareInt (leInt (a.take 8)) (leInt (b.take 8))
  | .string => memcmp (a.take col.len) (b.take col.len)
  | .float => 0

def digits (col : IxCol) (a : Bytes) : List Int :=
  match col.type with
  | .int => [leInt (a.take 4)]
  | .bigint => [leInt (a.take 8)]
  | .datetime => [leInt (a.take 8)]
  | .string => (a.take col.len).map fun b => (b.toNat : Int)
  | .float => []

end IxCol

def compareCols : List IxCol → Bytes → Bytes → Int
  | [],_,_ => 0
  | col :: cols,a,b =>
    let res := col.compare a b
    if res ≠ 0 then res else compareCols cols (a.drop col.len) (b.drop col.len)

def colTotLen (cols : List IxCol) : Nat := (cols.map fun col => col.len).sum

def keyDigits : List IxCol → Bytes → List Int
  | [],_ => []
  | col :: cols,a => col.digits a ++ keyDigits cols (a.drop col.len)

section Signs

def Signs (r : Int) (x y : List Int) : Prop := (r < 0 ↔ x < y) ∧ (r = 0 ↔ x = y)

theorem signsInt (a b : Int) : Signs (IxCol.compareInt a b) [a] [b] := by
  rcases lt_trichotomy a b with less | rfl | more
  · simp [Signs,IxCol.compareInt,less,less.ne,List.cons_lt_cons_iff]
  · simp [Signs,IxCol.compareInt]
  · simp [Signs,IxCol.compareInt,not_lt.mpr more.le,more,more.ne',List.cons_lt_cons_iff]

theorem signsAppend {r q : Int} {x y x' y' : List Int} (length : x.length = y.length) (first : Signs r x y)
    (second : Signs q x' y') : Signs (if r ≠ 0 then r else q) (x ++ x') (y ++ y') := by
  induction x generalizing y r with
  | nil =>
    cases List.length_eq_zero_iff.mp length.symm
    have zero : r = 0 := first.2.mpr rfl
    simpa [zero] using second
  | cons a x ih => cases y with
    | nil => cases length
    | cons b y =>
      rcases eq_or_ne a b with rfl | differ
      · have tail : Signs r x y := by simpa [Signs,List.cons_lt_cons_iff] using first
        have rest := ih (Nat.succ.inj length) tail
        simpa [Signs,List.cons_lt_cons_iff] using rest
      · have nonzero : r ≠ 0 := by
          rw [ne_eq,first.2]
          simp [differ]
        rw [if_pos nonzero]
        simpa [Signs,List.cons_lt_cons_iff,differ] using first

theorem signsMemcmp {a b : Bytes} (length : a.length = b.length) :
    Signs (memcmp a b) (a.map fun x => (x.toNat : Int)) (b.map fun x => (x.toNat : Int)) := by
  induction a generalizing b with
  | nil => cases List.length_eq_zero_iff.mp length.symm; simp [Signs,memcmp]
  | cons x a ih => cases b with
    | nil => cases length
    | cons y b =>
      simp only [memcmp,List.map_cons]
      by_cases same : x = y
      · subst same
        have rest := ih (Nat.succ.inj length)
        simpa [Signs,List.cons_lt_cons_iff] using rest
      · have differ : x.toNat ≠ y.toNat := fun eq => same (UInt8.toNat_inj.mp eq)
        rw [if_neg same]
        have apart : (x.toNat : Int) ≠ y.toNat := by omega
        simp only [Signs,List.cons_lt_cons_iff,apart,false_and,or_false,List.cons.injEq,iff_false]
        omega

end Signs
section Columns
variable {a b : Bytes} (col : IxCol)

theorem IxCol.signs (longa : col.len ≤ a.length) (longb : col.len ≤ b.length) :
    Signs (col.compare a b) (col.digits a) (col.digits b) := by
  obtain ⟨⟨tabName,name,type,len,offset⟩,named,fixed⟩ := col
  dsimp only at longa longb
  cases type with
  | int => exact signsInt _ _
  | bigint => exact signsInt _ _
  | datetime => exact signsInt _ _
  | string =>
    refine signsMemcmp ?_
    rw [List.length_take,List.length_take]
    dsimp only
    omega
  | float => exact fixed.elim

theorem IxCol.digitsLength (longa : col.len ≤ a.length) (longb : col.len ≤ b.length) :
    (col.digits a).length = (col.digits b).length := by
  obtain ⟨⟨tabName,name,type,len,offset⟩,named,fixed⟩ := col
  dsimp only at longa longb
  cases type with
  | int => rfl
  | bigint => rfl
  | datetime => rfl
  | string =>
    simp only [IxCol.digits,List.length_map,List.length_take]
    omega
  | float => exact fixed.elim

theorem IxCol.digitsInj (longa : col.len ≤ a.length) (longb : col.len ≤ b.length) (same : col.digits a = col.digits b) :
    a.take col.len = b.take col.len := by
  obtain ⟨⟨tabName,name,type,len,offset⟩,named,fixed⟩ := col
  dsimp only at longa longb
  have length : (a.take len).length = (b.take len).length := by
    simp only [List.length_take]
    omega
  cases type with
  | int => cases fixed; exact leIntInj length (List.cons.inj same).1
  | bigint => cases fixed; exact leIntInj length (List.cons.inj same).1
  | datetime => cases fixed; exact leIntInj length (List.cons.inj same).1
  | string => exact bytesInj same
  | float => exact fixed.elim

theorem compareSigns {cols : List IxCol} {a b : Bytes} (longa : colTotLen cols ≤ a.length)
    (longb : colTotLen cols ≤ b.length) : Signs (compareCols cols a b) (keyDigits cols a) (keyDigits cols b) := by
  induction cols generalizing a b with
  | nil => simp [Signs,compareCols,keyDigits]
  | cons col cols ih =>
    simp only [colTotLen,List.map_cons,List.sum_cons] at longa longb
    have rest := @ih (a.drop col.len) (b.drop col.len) (by rw [List.length_drop,colTotLen]; omega)
      (by rw [List.length_drop,colTotLen]; omega)
    exact signsAppend (col.digitsLength (by omega) (by omega)) (col.signs (by omega) (by omega)) rest

theorem keyDigitsInj {cols : List IxCol} {a b : Bytes} (lengtha : a.length = colTotLen cols)
    (lengthb : b.length = colTotLen cols) (same : keyDigits cols a = keyDigits cols b) : a = b := by
  induction cols generalizing a b with
  | nil =>
    rw [List.length_eq_zero_iff.mp lengtha,List.length_eq_zero_iff.mp lengthb]
  | cons col cols ih =>
    simp only [colTotLen,List.map_cons,List.sum_cons] at lengtha lengthb
    obtain ⟨head,tail⟩ := List.append_inj same (col.digitsLength (by omega) (by omega))
    have rest := @ih (a.drop col.len) (b.drop col.len) (by rw [List.length_drop,colTotLen]; omega)
      (by rw [List.length_drop,colTotLen]; omega) tail
    rw [← List.take_append_drop col.len a,← List.take_append_drop col.len b,rest,
      col.digitsInj (by omega) (by omega) head]

end Columns

def IxBytes (cols : List IxCol) : Type := {bytes : Bytes // bytes.length = colTotLen cols}

instance {cols : List IxCol} : LinearOrder (IxBytes cols) :=
  LinearOrder.lift' (fun key => keyDigits cols key.1) fun a b same => Subtype.ext (keyDigitsInj a.2 b.2 same)

instance {cols : List IxCol} : IxKey (IxBytes cols) where
  ixCompare a b := compareCols cols a.1 b.1
  compareLt a b := (compareSigns a.2.ge b.2.ge).1
  compareEq a b := by
    rw [(compareSigns a.2.ge b.2.ge).2]
    exact ⟨fun same => Subtype.ext (keyDigitsInj a.2 b.2 same),fun same => by rw [same]⟩

end Rmdb
