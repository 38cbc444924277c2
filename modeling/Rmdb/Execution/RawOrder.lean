import Rmdb.Execution.IndexScan

/-! The executors compare column values as the index does, and the padding values are the least
and the greatest of their column. -/
namespace Rmdb
open Index IndexScanExecutor

section Blocks
variable {x y x' y' : List Int}

theorem appendLt (length : x.length = y.length) (less : x < y) : x ++ x' < y ++ y' := by
  induction x generalizing y with
  | nil =>
    cases List.length_eq_zero_iff.mp length.symm
    exact absurd less (lt_irrefl _)
  | cons a x ih => cases y with
    | nil => cases length
    | cons b y =>
      rw [List.cons_lt_cons_iff] at less
      rw [List.cons_append,List.cons_append,List.cons_lt_cons_iff]
      rcases less with less | ⟨same,less⟩
      · exact .inl less
      · exact .inr ⟨same,ih (Nat.succ.inj length) less⟩

theorem appendLe (length : x.length = y.length) (first : x ≤ y) (second : x = y → x' ≤ y') : x ++ x' ≤ y ++ y' := by
  rcases first.lt_or_eq with less | rfl
  · exact (appendLt length less).le
  · rcases (second rfl).lt_or_eq with less | rfl
    · exact (List.append_left_lt less).le
    · exact le_refl _

theorem headsLe {lows highs : List Int} (all : List.Forall₂ (· ≤ ·) lows highs) : lows ≤ highs := by
  induction all with
  | nil => exact le_refl _
  | @cons a b lows highs head _ ih =>
    rcases head.lt_or_eq with less | rfl
    · exact (List.cons_lt_cons_iff.mpr (.inl less)).le
    · rcases ih.lt_or_eq with less | rfl
      · exact (List.cons_lt_cons_iff.mpr (.inr ⟨rfl,less⟩)).le
      · exact le_refl _

end Blocks

section Columns
variable {a b x : Bytes} (col : IxCol)

theorem signOfInt (p q : Int) : signOf (p < q) (p > q) = IxCol.compareInt p q := by
  simp [signOf,IxCol.compareInt]

theorem rawCompare [FloatOps] : compareRawData a col.type col.len b col.type col.len = .ok (col.compare a b) := by
  obtain ⟨⟨tabName,name,type,len,offset⟩,named,fixed⟩ := col
  cases type with
  | int => simp [compareRawData,isNumericType,isIntegralType,rawInt,signOfInt,IxCol.compare]
  | bigint => simp [compareRawData,isNumericType,isIntegralType,rawInt,signOfInt,IxCol.compare]
  | datetime => simp [compareRawData,isNumericType,signOfInt,IxCol.compare]
  | string =>
    simp only [compareRawData,isNumericType,compareStrings,IxCol.compare,min_self]
    by_cases zero : memcmp (a.take len) (b.take len) = 0 <;> simp [zero]
  | float => exact fixed.elim

theorem compositeCompare [FloatOps] (cols : List IxCol) (a b : Bytes) :
    compareCompositeKey cols a b = .ok (compareCols cols a b) := by
  induction cols generalizing a b with
  | nil => rfl
  | cons col cols next =>
    rw [compareCompositeKey,rawCompare col,compareCols]
    simp only [bind,Except.bind]
    split
    · rfl
    · exact next ..

theorem digitsTake : col.digits (a.take col.len) = col.digits a := by
  obtain ⟨⟨tabName,name,type,len,offset⟩,named,fixed⟩ := col
  cases type with
  | int => cases fixed; simp [IxCol.digits,List.take_take]
  | bigint => cases fixed; simp [IxCol.digits,List.take_take]
  | datetime => cases fixed; simp [IxCol.digits,List.take_take]
  | string => simp [IxCol.digits,List.take_take]
  | float => exact fixed.elim

theorem digitsBlock (length : x.length = col.len) (rest : Bytes) : col.digits (x ++ rest) = col.digits x := by
  rw [← digitsTake,← length,List.take_left]

theorem keyDigitsCons {cols : List IxCol} (length : x.length = col.len) (rest : Bytes) :
    keyDigits (col :: cols) (x ++ rest) = col.digits x ++ keyDigits cols rest := by
  rw [keyDigits,digitsBlock col length,← length,List.drop_left]

theorem fillMinLength : (fillMinValue col).length = col.len := by
  obtain ⟨⟨tabName,name,type,len,offset⟩,named,fixed⟩ := col
  cases type with
  | int => cases fixed; exact leBytesLength ..
  | bigint => cases fixed; exact leBytesLength ..
  | datetime => cases fixed; exact leBytesLength ..
  | string => exact List.length_replicate
  | float => exact fixed.elim

theorem fillMaxLength : (fillMaxValue col).length = col.len := by
  obtain ⟨⟨tabName,name,type,len,offset⟩,named,fixed⟩ := col
  cases type with
  | int => cases fixed; exact leBytesLength ..
  | bigint => cases fixed; exact leBytesLength ..
  | datetime => cases fixed; exact leBytesLength ..
  | string => exact List.length_replicate
  | float => exact fixed.elim

theorem forall₂Replicate {α β : Type} {R : α → β → Prop} {z : α} {l : List β} (all : ∀ y ∈ l, R z y) :
    List.Forall₂ R (List.replicate l.length z) l := by
  induction l with
  | nil => exact .nil
  | cons y l ih => exact .cons (all y List.mem_cons_self) (ih fun y mem => all y (List.mem_cons_of_mem _ mem))

theorem leastValue {n : Nat} {v : Int} (length : x.length = n) (kept : leInt ((leBytes n v).take n) = v)
    (half : 2*v = -256^n) : [leInt ((leBytes n v).take n)] ≤ [leInt (x.take n)] := by
  have low := @leIntLow x
  rw [length] at low
  rw [kept,List.take_of_length_le length.le]
  exact headsLe (.cons (by omega) .nil)

theorem mostValue {n : Nat} {v : Int} (length : x.length = n) (kept : leInt ((leBytes n v).take n) = v)
    (half : 2*(v+1) = 256^n) : [leInt (x.take n)] ≤ [leInt ((leBytes n v).take n)] := by
  have high := @leIntHigh x
  rw [length] at high
  rw [kept,List.take_of_length_le length.le]
  exact headsLe (.cons (by omega) .nil)

theorem fillMinLe (length : x.length = col.len) : col.digits (fillMinValue col) ≤ col.digits x := by
  obtain ⟨⟨tabName,name,type,len,offset⟩,named,fixed⟩ := col
  have whole : x.take len = x := List.take_of_length_le (by rw [length])
  cases type with
  | int => cases fixed; exact leastValue length (by decide) (by decide)
  | bigint => cases fixed; exact leastValue length (by decide) (by decide)
  | datetime => cases fixed; exact leastValue length (by decide) (by decide)
  | string =>
    simp only [IxCol.digits,fillMinValue,whole,List.take_replicate,min_self,List.map_replicate]
    refine headsLe ?_
    have all : ∀ y ∈ x.map fun b => (b.toNat : Int), ((0 : UInt8).toNat : Int) ≤ y := by
      intro y mem
      obtain ⟨b,_,rfl⟩ := List.mem_map.mp mem
      simp
    have pairs := forall₂Replicate all
    rwa [List.length_map,length] at pairs
  | float => exact fixed.elim

theorem fillMaxGe (length : x.length = col.len) : col.digits x ≤ col.digits (fillMaxValue col) := by
  obtain ⟨⟨tabName,name,type,len,offset⟩,named,fixed⟩ := col
  have whole : x.take len = x := List.take_of_length_le (by rw [length])
  cases type with
  | int => cases fixed; exact mostValue length (by decide) (by decide)
  | bigint => cases fixed; exact mostValue length (by decide) (by decide)
  | datetime => cases fixed; exact mostValue length (by decide) (by decide)
  | string =>
    simp only [IxCol.digits,fillMaxValue,whole,List.take_replicate,min_self,List.map_replicate]
    refine headsLe ?_
    have all : ∀ y ∈ x.map fun b => (b.toNat : Int), y ≤ ((255 : UInt8).toNat : Int) := by
      intro y mem
      obtain ⟨b,_,rfl⟩ := List.mem_map.mp mem
      have byte := b.toNat_lt
      simp
      omega
    have pairs := @forall₂Replicate _ _ (fun z y => y ≤ z) _ _ all
    rw [List.length_map,length] at pairs
    exact pairs.flip
  | float => exact fixed.elim

end Columns
end Rmdb
