import Rmdb.Execution.AggregateExecutor
import Rmdb.Execution.RawOrder

/-! What the aggregates other than `SUM` say about the rows they have seen. -/
namespace Rmdb
open Index AggregateExecutor

namespace AggSlot

def columnIn (slot : AggSlot) (record : Bytes) : Bytes := (record.drop slot.sourceCol.offset).take slot.sourceCol.len

def Extreme [FloatOps] (slot : AggSlot) (rows : List Bytes) (best : Bytes) : Prop :=
  best ∈ rows.map slot.columnIn ∧ ∀ r ∈ rows, ∃ cmp, compareRawData (r.drop slot.sourceCol.offset) slot.sourceCol.type
    slot.sourceCol.len best slot.sourceCol.type slot.sourceCol.len = .ok cmp ∧ if slot.agg.type = .max then cmp ≤ 0 else 0 ≤ cmp

def Shows [FloatOps] (slot : AggSlot) (rows : List Bytes) (shown : Bytes) : Prop :=
  match slot.agg.type with
  | .count => leInt shown = rows.length
  | .sum => True
  | .max => rows ≠ [] → slot.Extreme rows shown
  | .min => rows ≠ [] → slot.Extreme rows shown

/- The values that a `MIN` or `MAX` over these rows can be; over none it is all zeros. -/
def candidates (slot : AggSlot) (rows : List Bytes) : List Bytes :=
  if rows = [] then [List.replicate slot.outCol.len 0] else rows.map slot.columnIn

def ReadsAs (slot : AggSlot) (col : IxCol) : Prop := slot.sourceCol.type = col.type ∧ slot.sourceCol.len = col.len

end AggSlot

namespace AggregateExecutor

section Count

theorem talliedCount [FloatOps] {slot : AggSlot} (kind : slot.agg.type = .count) {rows : List Bytes} {tally : Tally} :
    tallied slot rows tally = .ok {tally with countValue := tally.countValue+rows.length} := by
  induction rows generalizing tally with
  | nil =>
    rw [List.length_nil,Int.natCast_zero,Int.add_zero]
    rfl
  | cons r rows ih =>
    have step : slot.take r tally = .ok {tally with countValue := tally.countValue+1} := by rw [AggSlot.take,kind]
    rw [tallied,List.foldlM_cons,step,List.length_cons]
    refine ih.trans ?_
    rw [Int.add_assoc,Int.natCast_succ,Int.add_comm 1]

end Count

section Best
variable {slot : AggSlot} {col : IxCol} {rows : List Bytes} {b : Bytes}

def Behind (slot : AggSlot) (x y : List Int) : Prop := if slot.agg.type = .max then x ≤ y else y ≤ x

theorem behindRefl (x : List Int) : Behind slot x x := by
  rw [Behind]
  split <;> exact le_refl _

theorem behindTrans {x y z : List Int} (first : Behind slot x y) (second : Behind slot y z) : Behind slot x z := by
  rw [Behind] at first second ⊢
  split <;> rename_i kind
  · rw [if_pos kind] at first second
    exact first.trans second
  · rw [if_neg kind] at first second
    exact second.trans first

theorem behindTotal {x y : List Int} (beaten : ¬Behind slot x y) : Behind slot y x := by
  rw [Behind] at beaten ⊢
  split <;> rename_i kind
  · rw [if_pos kind] at beaten
    exact le_of_not_ge beaten
  · rw [if_neg kind] at beaten
    exact le_of_not_ge beaten

theorem behindCompare [FloatOps] (source : slot.ReadsAs col) {data : Bytes}
    (long : slot.sourceCol.len ≤ data.length) (size : b.length = slot.sourceCol.len) :
    ∃ cmp, compareRawData data slot.sourceCol.type slot.sourceCol.len b slot.sourceCol.type slot.sourceCol.len = .ok cmp ∧
      (cmp ≤ 0 ↔ col.digits data ≤ col.digits b) ∧ (0 ≤ cmp ↔ col.digits b ≤ col.digits data) := by
  rw [source.2] at long size
  rw [source.1,source.2]
  obtain ⟨less,same⟩ := col.signs long size.ge
  refine ⟨_,rawCompare col,?_,?_⟩
  · rw [Int.le_iff_lt_or_eq,less,same]
    exact le_iff_lt_or_eq.symm
  · rw [← not_lt,less,not_lt]

theorem bestOfDigits [FloatOps] (source : slot.ReadsAs col) (kind : slot.agg.type = .max ∨ slot.agg.type = .min)
    {data : Bytes} (long : slot.sourceCol.len ≤ data.length) (size : b.length = slot.sourceCol.len) :
    ∃ best, slot.bestOf data (some b) = .ok (some best) ∧ (best = b ∨ best = data.take slot.sourceCol.len) ∧
      Behind slot (col.digits b) (col.digits best) ∧ Behind slot (col.digits data) (col.digits best) := by
  obtain ⟨cmp,compared,low,high⟩ := behindCompare source long size
  have whole : col.digits (data.take slot.sourceCol.len) = col.digits data := by
    rw [source.2]
    exact digitsTake col
  have step : slot.bestOf data (some b) = if (slot.agg.type = .max ∧ cmp > 0) ∨ (slot.agg.type = .min ∧ cmp < 0) then
      .ok (some (data.take slot.sourceCol.len)) else .ok (some b) := by
    rw [AggSlot.bestOf,compared]
    rfl
  have beats : ((slot.agg.type = .max ∧ cmp > 0) ∨ (slot.agg.type = .min ∧ cmp < 0)) ↔
      ¬Behind slot (col.digits data) (col.digits b) := by
    rw [Behind]
    rcases kind with kind | kind
    · rw [if_pos kind,← low,kind]
      simp
    · rw [if_neg (by rw [kind]; decide),← high,kind]
      simp
  rw [step]
  by_cases better : Behind slot (col.digits data) (col.digits b)
  · rw [if_neg fun replaced => beats.mp replaced better]
    exact ⟨b,rfl,.inl rfl,behindRefl _,better⟩
  · rw [if_pos (beats.mpr better)]
    exact ⟨_,rfl,.inr rfl,whole.symm ▸ behindTotal better,whole.symm ▸ behindRefl _⟩

theorem takeBest [FloatOps] (kind : slot.agg.type = .max ∨ slot.agg.type = .min) {r : Bytes} {tally : Tally}
    {best : Option Bytes} (taken : slot.bestOf (r.drop slot.sourceCol.offset) tally.bestValue = .ok best) :
    slot.take r tally = .ok {tally with bestValue := best} := by
  rw [AggSlot.take]
  rcases kind with kind | kind <;> rw [kind] <;> dsimp only <;> rw [taken] <;> rfl

theorem columnLength {r : Bytes} (long : slot.sourceCol.offset+slot.sourceCol.len ≤ r.length) :
    slot.sourceCol.len ≤ (r.drop slot.sourceCol.offset).length ∧ (slot.columnIn r).length = slot.sourceCol.len := by
  have rest : slot.sourceCol.len ≤ (r.drop slot.sourceCol.offset).length := by
    rw [List.length_drop]
    omega
  exact ⟨rest,List.length_take_of_le rest⟩

theorem columnDigits (source : slot.ReadsAs col) (r : Bytes) :
    col.digits (slot.columnIn r) = col.digits (r.drop slot.sourceCol.offset) := by
  rw [AggSlot.columnIn,source.2]
  exact digitsTake col

theorem talliedFrom [FloatOps] (source : slot.ReadsAs col) (kind : slot.agg.type = .max ∨ slot.agg.type = .min)
    (long : ∀ r ∈ rows, slot.sourceCol.offset+slot.sourceCol.len ≤ r.length) {tally : Tally}
    (held : tally.bestValue = some b) (size : b.length = slot.sourceCol.len) :
    ∃ best, tallied slot rows tally = .ok {tally with bestValue := some best} ∧ best ∈ b :: rows.map slot.columnIn ∧
      ∀ c ∈ b :: rows.map slot.columnIn, Behind slot (col.digits c) (col.digits best) := by
  induction rows generalizing tally b with
  | nil =>
    refine ⟨b,?_,List.mem_cons_self,fun c mem => ?_⟩
    · rw [← held]
      rfl
    · rw [List.mem_singleton.mp mem]
      exact behindRefl _
  | cons r rows ih =>
    obtain ⟨rest,own⟩ := columnLength (long r List.mem_cons_self)
    obtain ⟨next,chosen,among,first,second⟩ := bestOfDigits source kind rest size
    have sized : next.length = slot.sourceCol.len := by
      rcases among with rfl | rfl
      · exact size
      · exact own
    rw [← held] at chosen
    obtain ⟨best,run,mem,unbeaten⟩ := ih (fun r mem => long r (List.mem_cons_of_mem _ mem))
      (show ({tally with bestValue := some next} : Tally).bestValue = some next from rfl) sized
    refine ⟨best,?_,?_,?_⟩
    · rw [tallied,List.foldlM_cons,takeBest kind chosen]
      exact run
    · rw [List.map_cons]
      rcases List.mem_cons.mp mem with rfl | mem
      · rcases among with rfl | rfl
        · exact List.mem_cons_self
        · exact List.mem_cons_of_mem _ List.mem_cons_self
      · exact List.mem_cons_of_mem _ (List.mem_cons_of_mem _ mem)
    · intro c known
      have reached := unbeaten next List.mem_cons_self
      rcases List.mem_cons.mp known with rfl | known
      · exact behindTrans first reached
      · rcases List.mem_cons.mp known with rfl | known
        · exact behindTrans (columnDigits source r ▸ second) reached
        · exact unbeaten c (List.mem_cons_of_mem _ known)

theorem talliedBest [FloatOps] (source : slot.ReadsAs col) (kind : slot.agg.type = .max ∨ slot.agg.type = .min)
    (long : ∀ r ∈ rows, slot.sourceCol.offset+slot.sourceCol.len ≤ r.length) (some : rows ≠ []) {tally : Tally}
    (done : tallied slot rows .zero = .ok tally) : ∃ best, tally.bestValue = Option.some best ∧ best ∈ rows.map slot.columnIn ∧
      ∀ c ∈ rows.map slot.columnIn, Behind slot (col.digits c) (col.digits best) := by
  cases rows with
  | nil => exact absurd rfl some
  | cons r rows =>
    obtain ⟨rest,own⟩ := columnLength (long r List.mem_cons_self)
    have first : slot.take r .zero = .ok {Tally.zero with bestValue := Option.some (slot.columnIn r)} := takeBest kind rfl
    obtain ⟨best,run,mem,unbeaten⟩ := talliedFrom source kind (fun r mem => long r (List.mem_cons_of_mem _ mem))
      (show ({Tally.zero with bestValue := Option.some (slot.columnIn r)} : Tally).bestValue = _ from rfl) own
    rw [tallied,List.foldlM_cons,first] at done
    cases Except.ok.inj (done.symm.trans run)
    exact ⟨best,rfl,mem,unbeaten⟩

theorem extremeDigits [FloatOps] (source : slot.ReadsAs col)
    (long : ∀ r ∈ rows, slot.sourceCol.offset+slot.sourceCol.len ≤ r.length) :
    slot.Extreme rows b ↔ b ∈ rows.map slot.columnIn ∧
      ∀ c ∈ rows.map slot.columnIn, Behind slot (col.digits c) (col.digits b) := by
  refine and_congr_right fun known => ?_
  obtain ⟨own,mem,rfl⟩ := List.mem_map.mp known
  rw [List.forall_mem_map]
  refine forall₂_congr fun r mem => ?_
  obtain ⟨cmp,compared,low,high⟩ := behindCompare source (columnLength (long r mem)).1 (columnLength (long own ‹_›)).2
  rw [columnDigits source r,Behind]
  constructor
  · rintro ⟨_,same,right⟩
    cases Except.ok.inj (compared.symm.trans same)
    split <;> rename_i kind
    · rw [if_pos kind] at right
      exact low.mp right
    · rw [if_neg kind] at right
      exact high.mp right
  · intro right
    refine ⟨cmp,compared,?_⟩
    split <;> rename_i kind
    · rw [if_pos kind] at right
      exact low.mpr right
    · rw [if_neg kind] at right
      exact high.mpr right

theorem fieldExtreme [FloatOps] (source : slot.ReadsAs col) (kind : slot.agg.type = .max ∨ slot.agg.type = .min)
    (long : ∀ r ∈ rows, slot.sourceCol.offset+slot.sourceCol.len ≤ r.length) {kept : List Bytes} (part : kept ⊆ rows)
    {tally : Tally} (done : tallied slot kept .zero = .ok tally) :
    slot.Extreme rows (slot.field tally) ↔ ∃ c ∈ slot.candidates kept, slot.Extreme rows c := by
  have shown : slot.field tally = tally.bestValue.getD (List.replicate slot.outCol.len 0) := by
    rw [AggSlot.field]
    rcases kind with kind | kind <;> rw [kind]
  rw [shown,AggSlot.candidates]
  by_cases none : kept = []
  · rw [if_pos none]
    rw [none] at done
    cases Except.ok.inj done
    simp [Tally.zero]
  · rw [if_neg none]
    obtain ⟨best,held,mem,unbeaten⟩ := talliedBest source kind (fun r mem => long r (part mem)) none done
    rw [held,Option.getD_some]
    refine ⟨fun extreme => ⟨best,mem,extreme⟩,?_⟩
    rintro ⟨c,known,extreme⟩
    rw [extremeDigits source long] at extreme ⊢
    exact ⟨List.map_subset _ part mem,fun d among => behindTrans (extreme.2 d among) (unbeaten c known)⟩

end Best

end AggregateExecutor
end Rmdb
