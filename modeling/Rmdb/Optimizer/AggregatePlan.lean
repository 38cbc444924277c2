import Rmdb.Optimizer.SortPlan
import Rmdb.Execution.AggregateValues

/-! The sort node of a plan, and an aggregate node above it: it sees the rows that `LIMIT` leaves. -/
namespace Rmdb

namespace SortExecutor
variable {σ : Type}

def through (child : AbstractExecutor σ) : AbstractExecutor (SortState σ) :=
  ⟨onPrev child.beginTuple,onPrev child.nextTuple,onPrev child.next,fun s => child.isEnd s.prev,child.tupleLen,child.cols⟩

theorem onPrevOk {α : Type} {x : M σ α} {s : SortState σ} {t : σ} {a : α} (run : x s.prev = .ok a t) :
    onPrev x s = .ok a {s with prev := t} := zoomOk run

theorem throughRestarts {child : AbstractExecutor σ} {ready : σ → Prop} {stands : σ → List Bytes → Prop} {L : List Bytes}
    (restarts : child.Restarts ready stands L) :
    (through child).Restarts (fun s => ready s.prev) (fun s rest => stands s.prev rest) L := by
  refine ⟨⟨?_,?_,?_,?_⟩,fun s rest here => restarts.kept _ rest here,?_,restarts.size⟩
  · exact fun s here => restarts.positions.ended _ here
  · exact fun s r rest here => restarts.positions.going _ r rest here
  · intro s r rest here
    obtain ⟨t,shown,still⟩ := restarts.positions.record _ r rest here
    exact ⟨{s with prev := t},onPrevOk shown,still⟩
  · intro s r rest here
    obtain ⟨t,stepped,later⟩ := restarts.positions.step _ r rest here
    exact ⟨{s with prev := t},onPrevOk stepped,later⟩
  · intro s known
    obtain ⟨t,begun,here⟩ := restarts.start _ known
    exact ⟨{s with prev := t},onPrevOk begun,here⟩

end SortExecutor

def Portal.convertSortPlan [FloatOps] {σ : Type} (child : AbstractExecutor σ) (fuel : Nat) :
    Option SortPlan → Except Fault (AbstractExecutor (SortState σ))
  | none => .ok (SortExecutor.through child)
  | some plan => do
    let ex ← SortExecutor.new child plan.sortKeys plan.limit
    .ok (ex.executor fuel)

namespace Planner
open SortExecutor Portal
variable {σ : Type}

section Cut

def cutOff (limit : Int) (rows : List Bytes) : List Bytes := if limit < 0 then rows else rows.take limit.toNat

theorem limitedCutOff {ex : SortExecutor σ} {rows : List Bytes} : ex.limited rows = cutOff ex.limit rows := by
  rw [limited,cutOff]
  split <;> split
  · omega
  · rfl
  · rfl
  · rw [List.take_of_length_le (by omega)]

theorem cutOffLength (limit : Int) (rows : List Bytes) :
    (cutOff limit rows).length = rows.length ↔ limit < 0 ∨ (rows.length : Int) ≤ limit := by
  rw [cutOff]
  split
  · exact iff_of_true rfl (.inl ‹_›)
  · rw [List.length_take]
    omega

theorem cutOffSubset (limit : Int) (rows : List Bytes) : cutOff limit rows ⊆ rows := by
  rw [cutOff]
  split
  · exact List.Subset.refl _
  · exact List.take_subset _ _

theorem cutOffShorter (limit : Int) (rows : List Bytes) : (cutOff limit rows).length ≤ rows.length := by
  rw [cutOff]
  split
  · exact le_refl _
  · exact List.length_take_le' _ _

theorem countShown {limit : Int} {rows ordered : List Bytes} (perm : ordered.Perm rows) :
    leInt (leBytes 8 (cutOff limit ordered).length) = rows.length ↔
      (limit < 0 ∨ (rows.length : Int) ≤ limit) ∧ rows.length < 2^63 := by
  have kept := cutOffLength limit ordered
  rw [perm.length_eq] at kept
  rw [← kept]
  have high := @leIntHigh (leBytes 8 (cutOff limit ordered).length)
  rw [leBytesLength] at high
  constructor
  · intro shown
    have small : rows.length < 2^63 := by omega
    have fewer := cutOffShorter limit ordered
    rw [perm.length_eq] at fewer
    rw [leIntBytes (by omega) (by omega)] at shown
    exact ⟨by omega,small⟩
  · rintro ⟨same,small⟩
    rw [same,leIntBytes (by omega) (by omega)]

end Cut

section Plan
variable [FloatOps] {child : AbstractExecutor σ} {ready : σ → Prop} {stands : σ → List Bytes → Prop} {L : List Bytes}
  {db : DbMeta} {tables : List String} {orders : List Ast.OrderBy} {keys : List SortKey} {cols : List ColMeta}

theorem plannedRows (restarts : child.Restarts ready stands L) (resolved : sortKeys db tables orders = .ok keys)
    (found : (keys.mapM fun key => findColMeta child.cols key.col) = .ok cols) {fuel : Nat} (enough : L.length < fuel)
    (value : Int) : ∃ sort below ordered stands', generateSortPlan db tables (.new orders value) = .ok sort ∧
      convertSortPlan child fuel sort = .ok below ∧ below.cols = child.cols ∧ below.tupleLen = child.tupleLen ∧
      sorted ⟨child,keys,cols,narrow value⟩ L = .ok ordered ∧ ordered.Perm L ∧
      below.Restarts (fun s => ready s.prev) stands' (limited ⟨child,keys,cols,narrow value⟩ ordered) := by
  by_cases plain : (!(Ast.SelectStmt.new orders value).hasSort && !(Ast.SelectStmt.new orders value).hasLimit) = true
  · have planned : generateSortPlan db tables (.new orders value) = .ok none := if_pos plain
    obtain ⟨unsorted,unlimited⟩ := unsortedShape resolved plain
    have whole : limited ⟨child,keys,cols,narrow value⟩ L = L := by
      rw [limited,if_neg fun cut => unlimited.not_ge cut.1]
    refine ⟨none,through child,L,_,planned,rfl,rfl,rfl,?_,.refl _,whole.symm ▸ throughRestarts restarts⟩
    rw [sorted,unsorted]
    rfl
  · have planned := sortPlanned resolved plain
    have built : SortExecutor.new child keys (narrow value) = .ok ⟨child,keys,cols,narrow value⟩ := by
      rw [SortExecutor.new,found]
      rfl
    obtain ⟨ordered,result,perm⟩ := sortedPerm ⟨child,keys,cols,narrow value⟩ L
    refine ⟨_,_,ordered,_,planned,?_,rfl,rfl,result,perm,sortedRestarts restarts enough result perm⟩
    exact congrArg (· >>= fun ex => Except.ok (executor ex fuel)) built

def SlotSpared (slot : AggSlot) (limit : Int) (rows ordered : List Bytes) : Prop :=
  match slot.agg.type with
  | .count => (limit < 0 ∨ (rows.length : Int) ≤ limit) ∧ rows.length < 2^63
  | .sum => True
  | .max => rows ≠ [] → ∃ c ∈ slot.candidates (cutOff limit ordered), slot.Extreme rows c
  | .min => rows ≠ [] → ∃ c ∈ slot.candidates (cutOff limit ordered), slot.Extreme rows c

theorem fieldSpared {slot : AggSlot} {limit : Int} {rows ordered : List Bytes} (perm : ordered.Perm rows)
    (typed : slot.agg.type = .max ∨ slot.agg.type = .min → ∃ col, slot.ReadsAs col)
    (long : ∀ r ∈ rows, slot.sourceCol.offset+slot.sourceCol.len ≤ r.length) {tally : Tally}
    (done : AggregateExecutor.tallied slot (cutOff limit ordered) .zero = .ok tally) :
    slot.Shows rows (slot.field tally) ↔ SlotSpared slot limit rows ordered := by
  have part : cutOff limit ordered ⊆ rows := fun r mem => perm.mem_iff.mp (cutOffSubset limit ordered mem)
  have best : slot.agg.type = .max ∨ slot.agg.type = .min → (slot.Extreme rows (slot.field tally) ↔
      ∃ c ∈ slot.candidates (cutOff limit ordered), slot.Extreme rows c) := fun kind => by
    obtain ⟨col,source⟩ := typed kind
    exact AggregateExecutor.fieldExtreme source kind long part done
  rw [AggSlot.Shows,SlotSpared]
  cases kind : slot.agg.type with
  | count =>
    rw [AggregateExecutor.talliedCount kind] at done
    cases Except.ok.inj done
    rw [AggSlot.field,kind]
    dsimp only
    rw [Tally.zero,Int.zero_add]
    exact countShown perm
  | sum => exact Iff.rfl
  | max => exact imp_congr_right fun _ => best (.inl kind)
  | min => exact imp_congr_right fun _ => best (.inr kind)

theorem aggregatesShown (restarts : child.Restarts ready stands L) (resolved : sortKeys db tables orders = .ok keys)
    (found : (keys.mapM fun key => findColMeta child.cols key.col) = .ok cols)
    (placed : ∀ col ∈ child.cols, col.offset+col.len ≤ child.tupleLen) {aggregates : List AggregateExpr}
    {slots : List AggSlot} {len : Nat} (laid : AggregateExecutor.layOut child.cols aggregates 0 = .ok (slots,len))
    (supported : ∀ slot ∈ slots, AggregateExecutor.Supported slot)
    (typed : ∀ slot ∈ slots, slot.agg.type = .max ∨ slot.agg.type = .min → ∃ col, slot.ReadsAs col)
    {fuel : Nat} (enough : L.length+1 < fuel) {s : AggregateState (SortState σ)} (known : ready s.prev.prev) (value : Int) :
    ∃ sort below ordered row t, generateSortPlan db tables (.new orders value) = .ok sort ∧
      convertSortPlan child fuel sort = .ok below ∧ AggregateExecutor.new below aggregates = .ok ⟨below,slots,len⟩ ∧
      sorted ⟨child,keys,cols,narrow value⟩ L = .ok ordered ∧ ordered.Perm L ∧
      (AggregateExecutor.executor ⟨below,slots,len⟩ fuel).drain fuel s = .ok [row] t ∧
      ∀ slot ∈ slots, (slot.Shows L ((row.drop slot.outCol.offset).take slot.outCol.len) ↔
        SlotSpared slot (narrow value) L ordered) := by
  obtain ⟨sort,below,ordered,stands',planned,converted,sameCols,sameLen,result,perm,rows⟩ :=
    plannedRows restarts resolved found (by omega : L.length < fuel) value
  rw [limitedCutOff] at rows
  dsimp only at rows
  have made : AggregateExecutor.new below aggregates = .ok ⟨below,slots,len⟩ := by
    rw [AggregateExecutor.new,sameCols,laid]
    rfl
  have fewer := cutOffShorter (narrow value) ordered
  rw [perm.length_eq] at fewer
  obtain ⟨tally,row,t,drained,_,done,shown⟩ := AggregateExecutor.aggregateRun rows made
    (by rw [sameCols,sameLen]; exact placed) supported (by omega : _ < fuel) (s := s) known
  refine ⟨sort,below,ordered,row,t,planned,converted,made,result,perm,drained,fun slot mem => ?_⟩
  obtain ⟨agg,k,kept⟩ := AggregateExecutor.layOutMade laid mem
  have inside := AggregateExecutor.sourcePlaced placed kept.source
  rw [shown slot mem]
  exact fieldSpared perm (typed slot mem) (fun r here => (restarts.size r here).symm ▸ inside) (done slot mem)

end Plan

end Planner
end Rmdb
