import Rmdb.Common.LongDouble
import Rmdb.Execution.AbstractExecutor
import Rmdb.Execution.Executors

/-! `AggregateExecutor`: one pass over the child's rows, after which it is a cursor over one row. -/
namespace Rmdb

inductive AggType where
  | count
  | max
  | min
  | sum
  deriving DecidableEq, Repr

structure AggregateExpr where
  type : AggType
  isCountStar : Bool
  col : TabCol
  aliasName : String
  deriving DecidableEq, Repr

structure AggSlot where
  agg : AggregateExpr
  sourceCol : ColMeta
  outCol : ColMeta
  deriving DecidableEq, Repr

-- the entries of the vectors of `beginTuple` for one aggregate; `none` while not `initialized`
structure Tally where
  countValue : Int
  numericSum : LongDouble
  bestValue : Option Bytes
  deriving DecidableEq

structure AggregateState (σ : Type) where
  prev : σ
  result : Bytes
  finished : Bool

structure AggregateExecutor (σ : Type) where
  prev : AbstractExecutor σ
  slots : List AggSlot
  len : Nat

namespace AggSlot

def sourceOf (cols : List ColMeta) (agg : AggregateExpr) : Except Fault ColMeta :=
  if agg.isCountStar then .ok ⟨"","",.int,0,0⟩ else findColMeta cols agg.col

def outOf (agg : AggregateExpr) (source : ColMeta) (offset : Nat) : ColMeta :=
  let sumType : ColType := if source.type = .float then .float else .bigint
  match agg.type with
  | .count => ⟨"",agg.aliasName,.bigint,8,offset⟩
  | .sum => ⟨"",agg.aliasName,sumType,if sumType = .float then 4 else 8,offset⟩
  | .max => ⟨"",agg.aliasName,source.type,source.len,offset⟩
  | .min => ⟨"",agg.aliasName,source.type,source.len,offset⟩

def new (cols : List ColMeta) (agg : AggregateExpr) (offset : Nat) : Except Fault AggSlot := do
  let source ← sourceOf cols agg
  .ok ⟨agg,source,outOf agg source offset⟩

def sumOf (slot : AggSlot) (data : Bytes) (sum : LongDouble) : Except Fault LongDouble :=
  if isNumericType slot.sourceCol.type then .ok (sum.add (@rawLongDouble .x87 slot.sourceCol.type data))
  else .error (.error (.incompatibleType "SUM" (coltype2str slot.sourceCol.type)))

def bestOf [FloatOps] (slot : AggSlot) (data : Bytes) : Option Bytes → Except Fault (Option Bytes)
  | none => .ok (some (data.take slot.sourceCol.len))
  | some best => do
    let cmp ← compareRawData data slot.sourceCol.type slot.sourceCol.len best slot.sourceCol.type slot.sourceCol.len
    if (slot.agg.type = .max ∧ cmp > 0) ∨ (slot.agg.type = .min ∧ cmp < 0) then .ok (some (data.take slot.sourceCol.len))
    else .ok (some best)

def take [FloatOps] (slot : AggSlot) (record : Bytes) (tally : Tally) : Except Fault Tally :=
  let data := record.drop slot.sourceCol.offset
  match slot.agg.type with
  | .count => .ok {tally with countValue := tally.countValue+1}
  | .sum => do .ok {tally with numericSum := ← slot.sumOf data tally.numericSum}
  | .max => do .ok {tally with bestValue := ← slot.bestOf data tally.bestValue}
  | .min => do .ok {tally with bestValue := ← slot.bestOf data tally.bestValue}

def field (slot : AggSlot) (tally : Tally) : Bytes :=
  match slot.agg.type with
  | .count => leBytes 8 tally.countValue
  | .sum => if slot.outCol.type = .float then leBytes 4 tally.numericSum.toFloat.toNat
    else leBytes 8 tally.numericSum.toInt64
  | .max => tally.bestValue.getD (List.replicate slot.outCol.len 0)
  | .min => tally.bestValue.getD (List.replicate slot.outCol.len 0)

end AggSlot

def Tally.zero : Tally := ⟨0,.finite 0,none⟩

instance : Inhabited Tally := ⟨.zero⟩

namespace AggregateExecutor
variable {σ α : Type}

def layOut (cols : List ColMeta) : List AggregateExpr → Nat → Except Fault (List AggSlot × Nat)
  | [],offset => .ok ([],offset)
  | agg :: aggregates,offset => do
    let slot ← AggSlot.new cols agg offset
    let (slots,len) ← layOut cols aggregates (offset+slot.outCol.len)
    .ok (slot :: slots,len)

def new (prev : AbstractExecutor σ) (aggregates : List AggregateExpr) : Except Fault (AggregateExecutor σ) := do
  let (slots,len) ← layOut prev.cols aggregates 0
  .ok ⟨prev,slots,len⟩

def onPrev (x : M σ α) : M (AggregateState σ) α := zoom AggregateState.prev (fun child s => {s with prev := child}) x

def takeAll [FloatOps] (record : Bytes) (tallies : List (AggSlot × Tally)) : Except Fault (List (AggSlot × Tally)) :=
  tallies.mapM fun (slot,tally) => do .ok (slot,← slot.take record tally)

def takeRows [FloatOps] (ex : AggregateExecutor σ) :
    Nat → List (AggSlot × Tally) → M (AggregateState σ) (List (AggSlot × Tally))
  | 0,_ => throw .fuel
  | fuel+1,tallies => do
    let s ← get
    if ex.prev.isEnd s.prev then pure tallies else
      match ← onPrev ex.prev.next with
      | none => throw .outOfRange
      | some record =>
        let tallies ← ofExcept (takeAll record tallies)
        onPrev ex.prev.nextTuple
        takeRows ex fuel tallies

def storeFields (result : Bytes) (tallies : List (AggSlot × Tally)) : Bytes :=
  tallies.foldl (fun result (slot,tally) => copyInto result slot.outCol.offset (slot.field tally)) result

def beginTuple [FloatOps] (ex : AggregateExecutor σ) (fuel : Nat) : M (AggregateState σ) Unit := do
  modify fun s => {s with result := List.replicate ex.len 0}
  onPrev ex.prev.beginTuple
  let tallies ← ex.takeRows fuel (ex.slots.map fun slot => (slot,.zero))
  modify fun s => {s with result := storeFields s.result tallies, finished := false}

def nextTuple : M (AggregateState σ) Unit := modify fun s => {s with finished := true}

def next : M (AggregateState σ) (Option Bytes) := do
  let s ← get
  pure (if s.finished then none else some s.result)

def executor [FloatOps] (ex : AggregateExecutor σ) (fuel : Nat) : AbstractExecutor (AggregateState σ) :=
  ⟨ex.beginTuple fuel,nextTuple,next,AggregateState.finished,ex.len,ex.slots.map AggSlot.outCol⟩

section Row
variable {cols : List ColMeta} {slots : List AggSlot} {k len : Nat}

def Contiguous : Nat → List AggSlot → Prop
  | _,[] => True
  | k,slot :: slots => slot.outCol.offset = k ∧ Contiguous (k+slot.outCol.len) slots

def width (slots : List AggSlot) : Nat := (slots.map fun slot => slot.outCol.len).sum

structure Made (cols : List ColMeta) (agg : AggregateExpr) (offset : Nat) (slot : AggSlot) : Prop where
  same : slot.agg = agg
  source : AggSlot.sourceOf cols agg = .ok slot.sourceCol
  out : slot.outCol = AggSlot.outOf agg slot.sourceCol offset

theorem newMade {agg : AggregateExpr} {slot : AggSlot} (made : AggSlot.new cols agg k = .ok slot) :
    Made cols agg k slot := by
  obtain ⟨source,found,rest⟩ := exceptBind made
  cases Except.ok.inj rest
  exact ⟨rfl,found,rfl⟩

theorem outOfOffset (agg : AggregateExpr) (source : ColMeta) : (AggSlot.outOf agg source k).offset = k := by
  obtain ⟨type,_,_,_⟩ := agg
  cases type <;> rfl

theorem layOutContiguous {aggregates : List AggregateExpr} (laid : layOut cols aggregates k = .ok (slots,len)) :
    Contiguous k slots ∧ len = k+width slots := by
  induction aggregates generalizing k slots with
  | nil =>
    cases Except.ok.inj laid
    exact ⟨trivial,rfl⟩
  | cons agg aggregates ih =>
    obtain ⟨slot,made,rest⟩ := exceptBind laid
    obtain ⟨⟨later,total⟩,behind,rest⟩ := exceptBind rest
    cases Except.ok.inj rest
    obtain ⟨contiguous,sum⟩ := ih behind
    have offset : slot.outCol.offset = k := by rw [(newMade made).out,outOfOffset]
    refine ⟨⟨offset,contiguous⟩,?_⟩
    rw [sum,width,width,List.map_cons,List.sum_cons,Nat.add_assoc]

def fields (slots : List AggSlot) (tally : AggSlot → Tally) : Bytes := slots.flatMap fun slot => slot.field (tally slot)

variable {tally : AggSlot → Tally}

theorem storeFieldsRun {front : Bytes} (contiguous : Contiguous front.length slots)
    (sizes : ∀ slot ∈ slots, (slot.field (tally slot)).length = slot.outCol.len) :
    storeFields (front ++ List.replicate (width slots) 0) (slots.map fun slot => (slot,tally slot)) =
      front ++ fields slots tally := by
  induction slots generalizing front with
  | nil => rfl
  | cons slot slots ih =>
    obtain ⟨offset,contiguous⟩ := contiguous
    have size := sizes slot List.mem_cons_self
    have wide : width (slot :: slots) = slot.outCol.len+width slots := rfl
    have stored : copyInto (front ++ List.replicate (width (slot :: slots)) 0) slot.outCol.offset (slot.field (tally slot)) =
        (front ++ slot.field (tally slot)) ++ List.replicate (width slots) 0 := by
      rw [copyInto,offset,List.take_left,size,List.drop_append,List.drop_eq_nil_of_le (by omega),List.nil_append,
        List.drop_replicate,wide,Nat.add_sub_cancel_left,Nat.add_sub_cancel_left]
    have behind : Contiguous (front ++ slot.field (tally slot)).length slots := by rwa [List.length_append,size]
    have later := ih behind fun slot mem => sizes slot (List.mem_cons_of_mem _ mem)
    have step : storeFields (front ++ List.replicate (width (slot :: slots)) 0)
        ((slot :: slots).map fun slot => (slot,tally slot)) =
        storeFields (copyInto (front ++ List.replicate (width (slot :: slots)) 0) slot.outCol.offset (slot.field (tally slot)))
          (slots.map fun slot => (slot,tally slot)) := rfl
    rw [step,stored,later,fields,fields,List.flatMap_cons,List.append_assoc]

theorem fieldStored {front : Bytes} (contiguous : Contiguous front.length slots)
    (sizes : ∀ slot ∈ slots, (slot.field (tally slot)).length = slot.outCol.len) {slot : AggSlot} (mem : slot ∈ slots) :
    ((front ++ fields slots tally).drop slot.outCol.offset).take slot.outCol.len = slot.field (tally slot) := by
  induction slots generalizing front with
  | nil => cases mem
  | cons first slots ih =>
    obtain ⟨offset,contiguous⟩ := contiguous
    have size := sizes first List.mem_cons_self
    have split : front ++ fields (first :: slots) tally = (front ++ first.field (tally first)) ++ fields slots tally := by
      rw [fields,List.flatMap_cons,List.append_assoc,fields]
    rcases List.mem_cons.mp mem with rfl | behind
    · rw [split,offset,List.append_assoc,List.drop_left,← size,List.take_left]
    · rw [split]
      exact ih (by rwa [List.length_append,size]) (fun slot mem => sizes slot (List.mem_cons_of_mem _ mem)) behind

theorem pending {ended : Bool} {r row : Bytes} {rest : List Bytes} (shown : r :: rest = if ended then [] else [row]) :
    ended = false := by
  cases ended with
  | false => rfl
  | true => cases shown

theorem layOutEach {aggregates : List AggregateExpr} (laid : layOut cols aggregates k = .ok (slots,len)) :
    List.Forall₂ (fun agg slot => ∃ offset, Made cols agg offset slot) aggregates slots := by
  induction aggregates generalizing k slots len with
  | nil =>
    cases Except.ok.inj laid
    exact .nil
  | cons agg aggregates ih =>
    obtain ⟨first,made,rest⟩ := exceptBind laid
    obtain ⟨⟨later,total⟩,behind,rest⟩ := exceptBind rest
    cases Except.ok.inj rest
    exact .cons ⟨k,newMade made⟩ (ih behind)

theorem relatedLeft {α β : Type} {R : α → β → Prop} {xs : List α} {ys : List β} (each : List.Forall₂ R xs ys) :
    ∀ y ∈ ys, ∃ x ∈ xs, R x y := by
  induction each with
  | nil => simp
  | @cons x y xs ys here _ ih =>
    intro z mem
    rcases List.mem_cons.mp mem with rfl | later
    · exact ⟨x,List.mem_cons_self,here⟩
    · obtain ⟨w,memW,related⟩ := ih z later
      exact ⟨w,List.mem_cons_of_mem x memW,related⟩

theorem layOutMade {aggregates : List AggregateExpr} (laid : layOut cols aggregates k = .ok (slots,len)) {slot : AggSlot}
    (mem : slot ∈ slots) : ∃ agg offset, Made cols agg offset slot := by
  obtain ⟨agg,_,offset,made⟩ := relatedLeft (layOutEach laid) slot mem
  exact ⟨agg,offset,made⟩

theorem layOutSome {aggregates : List AggregateExpr} (found : ∀ agg ∈ aggregates, ∃ source, AggSlot.sourceOf cols agg = .ok source)
    (k : Nat) : ∃ slots len, layOut cols aggregates k = .ok (slots,len) := by
  induction aggregates generalizing k with
  | nil => exact ⟨[],k,rfl⟩
  | cons agg aggregates ih =>
    obtain ⟨source,here⟩ := found agg List.mem_cons_self
    obtain ⟨slots,len,later⟩ := ih (fun x mem => found x (List.mem_cons_of_mem agg mem)) (k+(AggSlot.outOf agg source k).len)
    refine ⟨⟨agg,source,AggSlot.outOf agg source k⟩ :: slots,len,?_⟩
    simp only [layOut,AggSlot.new,here,later,bind,Except.bind]

theorem sourcePlaced {size : Nat} (placed : ∀ col ∈ cols, col.offset+col.len ≤ size)
    {agg : AggregateExpr} {source : ColMeta} (found : AggSlot.sourceOf cols agg = .ok source) :
    source.offset+source.len ≤ size := by
  rw [AggSlot.sourceOf] at found
  split at found
  · cases Except.ok.inj found
    exact Nat.zero_le _
  · rw [findColMeta] at found
    split at found
    · rename_i col hit
      cases Except.ok.inj found
      exact placed _ (List.mem_of_find?_eq_some hit)
    · cases found

def Sized (slot : AggSlot) (tally : Tally) : Prop := ∀ best, tally.bestValue = some best → best.length = slot.sourceCol.len

theorem fieldSize {agg : AggregateExpr} {slot : AggSlot} (made : Made cols agg k slot)
    {last : Tally} (sized : Sized slot last) : (slot.field last).length = slot.outCol.len := by
  rw [AggSlot.field,made.out,made.same]
  cases kind : agg.type with
  | count => simp only [AggSlot.outOf,kind,leBytesLength]
  | sum =>
    simp only [AggSlot.outOf,kind]
    by_cases float : slot.sourceCol.type = .float <;> simp [float,leBytesLength]
  | max | min =>
    simp only [AggSlot.outOf,kind]
    cases best : last.bestValue with
    | none => exact List.length_replicate
    | some b => exact sized b best

end Row

section Run
variable {σ : Type} [FloatOps] {ex : AggregateExecutor σ} {ready : σ → Prop} {stands : σ → List Bytes → Prop}
  {L : List Bytes} {tally : AggSlot → Tally}

def tallied (slot : AggSlot) (rows : List Bytes) (tally : Tally) : Except Fault Tally :=
  rows.foldlM (fun tally record => slot.take record tally) tally

theorem takeAllRun {record : Bytes} {slots : List AggSlot} {later : AggSlot → Tally}
    (taken : ∀ slot ∈ slots, slot.take record (tally slot) = .ok (later slot)) :
    takeAll record (slots.map fun slot => (slot,tally slot)) = .ok (slots.map fun slot => (slot,later slot)) := by
  induction slots with
  | nil => rfl
  | cons slot slots ih =>
    have first := taken slot List.mem_cons_self
    have rest := ih fun slot mem => taken slot (List.mem_cons_of_mem _ mem)
    rw [takeAll] at rest ⊢
    rw [List.map_cons,List.mapM_cons]
    dsimp only
    rw [first,rest]
    rfl

theorem takeRowsRun (positions : ex.prev.Positions stands) {fuel : Nat} {s : AggregateState σ} (here : stands s.prev L)
    (enough : L.length < fuel) {last : AggSlot → Tally}
    (done : ∀ slot ∈ ex.slots, tallied slot L (tally slot) = .ok (last slot)) :
    ∃ t, ex.takeRows fuel (ex.slots.map fun slot => (slot,tally slot)) s = .ok (ex.slots.map fun slot => (slot,last slot)) t ∧
      stands t.prev [] ∧ t.result = s.result := by
  induction L generalizing s fuel tally with
  | nil =>
    obtain ⟨fuel,rfl⟩ := Nat.exists_eq_succ_of_ne_zero (Nat.ne_zero_of_lt enough)
    refine ⟨s,?_,here,rfl⟩
    have same : ex.slots.map (fun slot => (slot,tally slot)) = ex.slots.map fun slot => (slot,last slot) :=
      List.map_congr_left fun slot mem => by rw [Except.ok.inj (done slot mem)]
    rw [takeRows,getBind,if_pos (positions.ended _ here),same]
    rfl
  | cons r rest ih =>
    obtain ⟨fuel,rfl⟩ := Nat.exists_eq_succ_of_ne_zero (Nat.ne_zero_of_lt enough)
    obtain ⟨t,shown,still⟩ := positions.record _ r rest here
    obtain ⟨u,stepped,ahead⟩ := positions.step t r rest still
    rw [List.length_cons] at enough
    have steps : ∀ slot, slot ∈ ex.slots → ∃ next, slot.take r (tally slot) = .ok next ∧
        tallied slot rest next = .ok (last slot) := fun slot mem => by
      have run := done slot mem
      rw [tallied,List.foldlM_cons] at run
      exact exceptBind run
    choose! next taken going using steps
    obtain ⟨v,run,ended,kept⟩ := @ih next fuel {s with prev := u} ahead (by omega) going
    refine ⟨v,?_,ended,kept⟩
    have more := positions.going _ r rest here
    have got : onPrev ex.prev.next s = .ok (some r) {s with prev := t} := zoomOk shown
    have moved : onPrev ex.prev.nextTuple {s with prev := t} = .ok () {s with prev := u} := zoomOk stepped
    rw [takeRows,getBind,more,if_neg Bool.false_ne_true,bindEq got]
    dsimp only
    rw [takeAllRun taken,bindEq (ofExceptOk _ _),bindEq moved,run]

theorem aggregateRestarts (restarts : ex.prev.Restarts ready stands L) {fuel : Nat} (enough : L.length < fuel)
    (contiguous : Contiguous 0 ex.slots) (wide : ex.len = width ex.slots)
    (done : ∀ slot ∈ ex.slots, tallied slot L .zero = .ok (tally slot))
    (sizes : ∀ slot ∈ ex.slots, (slot.field (tally slot)).length = slot.outCol.len) :
    (ex.executor fuel).Restarts (fun s => ready s.prev)
      (fun s rest => ready s.prev ∧ s.result = fields ex.slots tally ∧
        rest = if s.finished then [] else [fields ex.slots tally]) [fields ex.slots tally] := by
  refine ⟨⟨?_,?_,?_,?_⟩,fun s rest here => here.1,?_,?_⟩
  · intro s here
    by_contra going
    have empty := here.2.2
    rw [if_neg (show ¬s.finished = true from going)] at empty
    cases empty
  · intro s r rest here
    exact pending here.2.2
  · intro s r rest here
    have going := pending here.2.2
    refine ⟨s,?_,here⟩
    have shown := here.2.2
    rw [going,if_neg Bool.false_ne_true] at shown
    have result : (next : M (AggregateState σ) _) s = .ok (some s.result) s := by
      rw [next,getBind,going]
      rfl
    refine result.trans ?_
    rw [here.2.1,(List.cons.inj shown).1]
  · intro s r rest here
    have shown := here.2.2
    refine ⟨{s with finished := true},rfl,here.1,here.2.1,?_⟩
    split at shown
    · cases shown
    · exact (List.cons.inj shown).2
  · intro s known
    obtain ⟨p,started,here⟩ := restarts.start _ known
    obtain ⟨t,run,ended,kept⟩ := takeRowsRun (s := ⟨p,List.replicate ex.len 0,s.finished⟩) restarts.positions here enough done
    have begun : onPrev ex.prev.beginTuple {s with result := List.replicate ex.len 0} =
        .ok () ⟨p,List.replicate ex.len 0,s.finished⟩ := zoomOk started
    have stored := @storeFieldsRun ex.slots tally [] contiguous sizes
    refine ⟨{t with result := fields ex.slots tally, finished := false},?_,restarts.kept _ _ ended,rfl,rfl⟩
    have body : ex.beginTuple fuel s = .ok () {t with result := fields ex.slots tally, finished := false} := by
      rw [beginTuple,modifyBind,bindEq begun,bindEq run,modifyRun,kept,wide]
      exact congrArg (fun row => EStateM.Result.ok () {t with result := row, finished := false}) stored
    exact body
  · intro r mem
    rw [List.mem_singleton.mp mem,fields,List.length_flatMap,List.map_congr_left sizes]
    exact wide.symm

variable {child : AbstractExecutor σ} {aggregates : List AggregateExpr}

def Supported (slot : AggSlot) : Prop := slot.agg.type = .sum → isNumericType slot.sourceCol.type = true

theorem bestOfSome {slot : AggSlot} {data : Bytes} (long : slot.sourceCol.len ≤ data.length) {best : Option Bytes}
    (sized : ∀ b, best = some b → b.length = slot.sourceCol.len) :
    ∃ next, slot.bestOf data best = .ok (some next) ∧ next.length = slot.sourceCol.len := by
  cases best with
  | none => exact ⟨_,rfl,List.length_take_of_le long⟩
  | some best =>
    obtain ⟨cmp,compared⟩ := compareSame data best slot.sourceCol.type slot.sourceCol.len
    have step : slot.bestOf data (some best) = if (slot.agg.type = .max ∧ cmp > 0) ∨ (slot.agg.type = .min ∧ cmp < 0) then
        .ok (some (data.take slot.sourceCol.len)) else .ok (some best) := by
      rw [AggSlot.bestOf,compared]
      rfl
    rw [step]
    split
    · exact ⟨_,rfl,List.length_take_of_le long⟩
    · exact ⟨_,rfl,sized _ rfl⟩

theorem takeSome {slot : AggSlot} (supported : Supported slot) {record : Bytes}
    (long : slot.sourceCol.offset+slot.sourceCol.len ≤ record.length) {tally : Tally} (sized : Sized slot tally) :
    ∃ next, slot.take record tally = .ok next ∧ Sized slot next := by
  have rest : slot.sourceCol.len ≤ (record.drop slot.sourceCol.offset).length := by
    rw [List.length_drop]
    omega
  obtain ⟨best,compared,size⟩ := bestOfSome rest sized
  rw [AggSlot.take]
  cases kind : slot.agg.type with
  | count => exact ⟨_,rfl,sized⟩
  | sum =>
    dsimp only
    rw [AggSlot.sumOf,if_pos (supported kind)]
    exact ⟨_,rfl,sized⟩
  | max =>
    dsimp only
    rw [compared]
    exact ⟨_,rfl,fun b same => Option.some.inj same ▸ size⟩
  | min =>
    dsimp only
    rw [compared]
    exact ⟨_,rfl,fun b same => Option.some.inj same ▸ size⟩

theorem talliedSome {slot : AggSlot} (supported : Supported slot) {rows : List Bytes}
    (long : ∀ r ∈ rows, slot.sourceCol.offset+slot.sourceCol.len ≤ r.length) {start : Tally} (sized : Sized slot start) :
    ∃ last, tallied slot rows start = .ok last ∧ Sized slot last := by
  induction rows generalizing start with
  | nil => exact ⟨start,rfl,sized⟩
  | cons r rows ih =>
    obtain ⟨next,taken,still⟩ := takeSome supported (long r List.mem_cons_self) sized
    obtain ⟨last,run,sized⟩ := ih (fun r mem => long r (List.mem_cons_of_mem _ mem)) still
    refine ⟨last,?_,sized⟩
    rw [tallied,List.foldlM_cons,taken]
    exact run

theorem aggregateRun (restarts : child.Restarts ready stands L) (made : new child aggregates = .ok ex)
    (placed : ∀ col ∈ child.cols, col.offset+col.len ≤ child.tupleLen) (supported : ∀ slot ∈ ex.slots, Supported slot)
    {fuel : Nat} (enough : L.length+1 < fuel) {s : AggregateState σ} (known : ready s.prev) :
    ∃ (tally : AggSlot → Tally) (row : Bytes) (t : AggregateState σ),
      (ex.executor fuel).drain fuel s = .ok [row] t ∧ ready t.prev ∧
      (∀ slot ∈ ex.slots, tallied slot L .zero = .ok (tally slot)) ∧
      ∀ slot ∈ ex.slots, (row.drop slot.outCol.offset).take slot.outCol.len = slot.field (tally slot) := by
  obtain ⟨⟨slots,len⟩,laid,rest⟩ := exceptBind made
  cases Except.ok.inj rest
  have runs : ∀ slot, slot ∈ slots → ∃ last, tallied slot L .zero = .ok last ∧
      (slot.field last).length = slot.outCol.len := by
    intro slot mem
    obtain ⟨agg,k,kept⟩ := layOutMade laid mem
    have inside := sourcePlaced placed kept.source
    have empty : Sized slot .zero := fun _ none => by cases none
    obtain ⟨last,run,sized⟩ := talliedSome (supported slot mem)
      (fun r known => (restarts.size r known).symm ▸ inside) empty
    exact ⟨last,run,fieldSize kept sized⟩
  choose! tally run sizes using runs
  obtain ⟨contiguous,wide⟩ := layOutContiguous laid
  rw [Nat.zero_add] at wide
  have cursor := @aggregateRestarts _ _ ⟨child,slots,len⟩ _ _ _ _ restarts fuel (by omega) contiguous wide run sizes
  obtain ⟨t,drained,last⟩ := AbstractExecutor.drainRun cursor known (show _ < fuel by rw [List.length_singleton]; omega)
  exact ⟨tally,_,t,drained,last.1,run,fun slot mem => fieldStored (show Contiguous ([] : Bytes).length _ from contiguous) sizes mem⟩

end Run

end AggregateExecutor
end Rmdb
