import Rmdb.Execution.AggregateExecutor

/-! `SUM` over integers. The running sum is a `long double` and the result is cast to `int64_t`
without the range check that `cast_value_to_col_type` makes. -/
namespace Rmdb

namespace AggSlot
open LongDouble

def valueIn (slot : AggSlot) (record : Bytes) : Int := rawInt slot.sourceCol.type (record.drop slot.sourceCol.offset)

def valuesIn (slot : AggSlot) (rows : List Bytes) : List Int := rows.map slot.valueIn

end AggSlot

namespace AggregateExecutor
open LongDouble
variable {σ : Type}

def InRange (n : Int) : Prop := -2^63 ≤ n ∧ n < 2^63

instance (n : Int) : Decidable (InRange n) := inferInstanceAs (Decidable (_ ∧ _))

def rounded (start : Int) (values : List Int) : Int :=
  values.foldl (fun sum v => roundInt significandBits (sum+v)) start

def Unrounded (values : List Int) : Prop := ∀ front, front <+: values → roundInt significandBits front.sum = front.sum

theorem unroundedSmall {values : List Int} (small : ∀ front, front <+: values → front.sum.natAbs ≤ 2^64) : Unrounded values :=
  fun front before => roundIntSmall (small front before) (by decide)

theorem roundedExact {values : List Int} {start : Int}
    (exact : ∀ front, front <+: values → roundInt significandBits (start+front.sum) = start+front.sum) :
    rounded start values = start+values.sum := by
  induction values generalizing start with
  | nil => exact (Int.add_zero start).symm
  | cons v values ih =>
    have first := exact [v] (List.prefix_append [v] values)
    rw [List.sum_singleton] at first
    have later : ∀ front, front <+: values → roundInt significandBits (start+v+front.sum) = start+v+front.sum := by
      intro front before
      have all := exact (v :: front) (List.cons_prefix_cons.mpr ⟨rfl,before⟩)
      rwa [List.sum_cons,← Int.add_assoc] at all
    rw [rounded,List.foldl_cons,first]
    exact (ih later).trans (by rw [List.sum_cons,Int.add_assoc])

theorem unroundedSum {values : List Int} (exact : Unrounded values) : rounded 0 values = values.sum :=
  (roundedExact fun front before => by rw [Int.zero_add,exact front before]).trans (Int.zero_add _)

theorem integralNumeric {type : ColType} (integral : isIntegralType type = true) :
    isNumericType type = true ∧ type ≠ .float ∧
    ∀ data, @rawLongDouble .x87 type data = .finite (rawInt type data) := by
  cases type <;> first
    | exact ⟨rfl,by decide,fun _ => rfl⟩
    | cases integral

theorem talliedSum [FloatOps] {slot : AggSlot} (kind : slot.agg.type = .sum)
    (integral : isIntegralType slot.sourceCol.type = true) {rows : List Bytes} {tally : Tally} {start : Int}
    (sum : tally.numericSum = .finite start) :
    tallied slot rows tally = .ok {tally with numericSum := .finite (rounded start (slot.valuesIn rows))} := by
  obtain ⟨numeric,_,raw⟩ := integralNumeric integral
  induction rows generalizing tally start with
  | nil =>
    obtain ⟨_,_,_⟩ := tally
    cases sum
    rfl
  | cons r rows ih =>
    have step : slot.take r tally = .ok {tally with numericSum := .finite (roundInt significandBits (start+slot.valueIn r))} := by
      rw [AggSlot.take,kind]
      dsimp only
      rw [AggSlot.sumOf,if_pos numeric,raw,sum,addInts]
      rfl
    rw [tallied,List.foldlM_cons,step]
    exact ih rfl

def sums (ex : AggregateExecutor σ) : List AggSlot :=
  ex.slots.filter fun slot => slot.agg.type = .sum ∧ isIntegralType slot.sourceCol.type

def ExactOrRefused (ex : AggregateExecutor σ) (rows : List Bytes) : Except Fault (List Bytes) → Prop
  | .ok shown => ∃ row, shown = [row] ∧ ∀ slot ∈ ex.sums, InRange (slot.valuesIn rows).sum ∧
      (row.drop slot.outCol.offset).take slot.outCol.len = leBytes 8 (slot.valuesIn rows).sum
  | .error _ => ∃ slot ∈ ex.sums, ¬InRange (slot.valuesIn rows).sum

section Shown
variable [FloatOps] {child : AbstractExecutor σ} {aggregates : List AggregateExpr} {ex : AggregateExecutor σ}
  {ready : σ → Prop} {stands : σ → List Bytes → Prop} {L : List Bytes}

theorem sumField {slot : AggSlot} {cols : List ColMeta} {agg : AggregateExpr} {k : Nat} (made : Made cols agg k slot)
    (kind : slot.agg.type = .sum) (integral : isIntegralType slot.sourceCol.type = true) {tally : Tally}
    (done : tallied slot L .zero = .ok tally) :
    slot.field tally = leBytes 8 (toInt64 (.finite (rounded 0 (slot.valuesIn L)))) := by
  have sum : tallied slot L .zero = .ok {Tally.zero with numericSum := .finite (rounded 0 (slot.valuesIn L))} :=
    talliedSum kind integral rfl
  cases Except.ok.inj (done.symm.trans sum)
  have type : slot.outCol.type ≠ .float := by
    rw [made.out,AggSlot.outOf,← made.same,kind]
    dsimp only
    rw [if_neg (integralNumeric integral).2.1]
    decide
  rw [AggSlot.field,kind]
  dsimp only
  rw [if_neg type]

/- No sum is ever refused, so that one that does not fit is shown as another number. One that fits
is shown as it is as long as no partial sum is rounded. -/
theorem sumsInRange (restarts : child.Restarts ready stands L) (made : new child aggregates = .ok ex)
    (placed : ∀ col ∈ child.cols, col.offset+col.len ≤ child.tupleLen) (supported : ∀ slot ∈ ex.slots, Supported slot)
    {fuel : Nat} (enough : L.length+1 < fuel) {s : AggregateState σ} (known : ready s.prev) :
    (ExactOrRefused ex L (eval ((ex.executor fuel).drain fuel) s) → ∀ slot ∈ ex.sums, InRange (slot.valuesIn L).sum) ∧
    ((∀ slot ∈ ex.sums, Unrounded (slot.valuesIn L)) → (∀ slot ∈ ex.sums, InRange (slot.valuesIn L).sum) →
      ExactOrRefused ex L (eval ((ex.executor fuel).drain fuel) s)) := by
  obtain ⟨tally,row,t,drained,_,done,shown⟩ := aggregateRun restarts made placed supported enough known
  rw [evalOk drained]
  refine ⟨fun ⟨_,_,all⟩ slot mem => (all slot mem).1,?_⟩
  intro unrounded inside
  refine ⟨row,rfl,fun slot mem => ⟨inside slot mem,?_⟩⟩
  obtain ⟨listed,sum⟩ := List.mem_filter.mp mem
  obtain ⟨kind,integral⟩ := of_decide_eq_true sum
  obtain ⟨⟨slots,len⟩,laid,rest⟩ := exceptBind made
  cases Except.ok.inj rest
  obtain ⟨agg,k,kept⟩ := layOutMade laid listed
  have fits : toInt64 (.finite (slot.valuesIn L).sum) = (slot.valuesIn L).sum := by
    rw [toInt64Int]
    exact if_pos (inside slot mem)
  rw [shown slot listed,sumField kept kind integral (done slot listed),unroundedSum (unrounded slot mem),fits]

end Shown

def bigColumn : List ColMeta := [⟨"t","a",.bigint,8,0⟩]

def sumOfColumn (rows : List Bytes) : AggregateExecutor (List Bytes) :=
  ⟨AbstractExecutor.ofRows rows 8 bigColumn,[⟨⟨.sum,false,⟨"t","a"⟩,"s"⟩,⟨"t","a",.bigint,8,0⟩,⟨"","s",.bigint,8,0⟩⟩],8⟩

def shownSum (values : List Int) : Except Fault (List Bytes) :=
  let rows := values.map (leBytes 8)
  eval ((@executor _ .x87 (sumOfColumn rows) 9).drain 9) ⟨[],[],true⟩

theorem twoValuesSummed : ExactOrRefused (sumOfColumn [leBytes 8 (2^63-1),leBytes 8 (-7)]) [leBytes 8 (2^63-1),leBytes 8 (-7)]
    (shownSum [2^63-1,-7]) := by
  let _ := FloatOps.x87
  have restarts := @AbstractExecutor.ofRowsRestarts [leBytes 8 (2^63-1),leBytes 8 (-7)] 8 bigColumn (by decide)
  have made : new (AbstractExecutor.ofRows [leBytes 8 (2^63-1),leBytes 8 (-7)] 8 bigColumn) [⟨.sum,false,⟨"t","a"⟩,"s"⟩] =
      .ok (sumOfColumn [leBytes 8 (2^63-1),leBytes 8 (-7)]) := by rfl
  refine (sumsInRange restarts made (by decide) ?_ (show 2+1 < 9 by decide) (s := ⟨[],[],true⟩) trivial).2 ?_ ?_
  · intro slot mem
    rw [List.mem_singleton.mp mem]
    exact fun _ => rfl
  · intro slot mem
    rw [List.mem_singleton.mp mem]
    refine unroundedSmall fun front before => ?_
    have short : front ∈ [[],[2^63-1],[2^63-1,-7]] := (List.mem_inits _ _).mpr before
    fin_cases short <;> decide
  · intro slot mem
    rw [List.mem_singleton.mp mem]
    decide

theorem sumOverflows : shownSum [2^63-1,1] = .ok [leBytes 8 (-2^63)] ∧
    ¬ExactOrRefused (sumOfColumn [leBytes 8 (2^63-1),leBytes 8 1]) [leBytes 8 (2^63-1),leBytes 8 1]
      (shownSum [2^63-1,1]) := by
  have shown : shownSum [2^63-1,1] = .ok [leBytes 8 (-2^63)] := by decide +kernel
  refine ⟨shown,?_⟩
  rw [shown]
  rintro ⟨_,_,all⟩
  exact absurd (all _ List.mem_cons_self).1 (by decide)

end AggregateExecutor
end Rmdb
