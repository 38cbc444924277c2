import Rmdb.Lib.StableSort
import Rmdb.Index.IxCompare
import Rmdb.Execution.AbstractExecutor

/-! `SortExecutor`: the child's rows, sorted and cut off when the iteration begins. -/
namespace Rmdb
open Lib

structure SortKey where
  col : TabCol
  isDesc : Bool
  deriving DecidableEq, Repr

structure SortState (σ : Type) where
  prev : σ
  records : List Bytes
  cursor : Nat

structure SortExecutor (σ : Type) where
  prev : AbstractExecutor σ
  sortKeys : List SortKey
  sortCols : List ColMeta
  limit : Int

namespace SortExecutor
variable {σ α : Type}

def new (prev : AbstractExecutor σ) (sortKeys : List SortKey) (limit : Int) : Except Fault (SortExecutor σ) := do
  let sortCols ← sortKeys.mapM fun key => findColMeta prev.cols key.col
  .ok ⟨prev,sortKeys,sortCols,limit⟩

def onPrev (x : M σ α) : M (SortState σ) α := zoom SortState.prev (fun child s => {s with prev := child}) x

def precedes [FloatOps] : List (SortKey × ColMeta) → Bytes → Bytes → Except Fault Bool
  | [],_,_ => .ok false
  | (key,col) :: keys,lhs,rhs => do
    let cmp ← compareRawData (lhs.drop col.offset) col.type col.len (rhs.drop col.offset) col.type col.len
    if cmp = 0 then precedes keys lhs rhs else .ok (if key.isDesc then decide (cmp > 0) else decide (cmp < 0))

def fetch (ex : SortExecutor σ) : Nat → M (SortState σ) Unit
  | 0 => throw .fuel
  | fuel+1 => do
    let s ← get
    if ex.prev.isEnd s.prev then pure () else
      match ← onPrev ex.prev.next with
      | none => throw .outOfRange
      | some record =>
        modify fun s => {s with records := s.records ++ [record]}
        onPrev ex.prev.nextTuple
        fetch ex fuel

def sorted [FloatOps] (ex : SortExecutor σ) (records : List Bytes) : Except Fault (List Bytes) :=
  if ex.sortKeys.isEmpty then .ok records else stableSort (precedes (ex.sortKeys.zip ex.sortCols)) records

def limited (ex : SortExecutor σ) (records : List Bytes) : List Bytes :=
  if ex.limit ≥ 0 ∧ ex.limit.toNat < records.length then records.take ex.limit.toNat else records

theorem limitedLength (ex : SortExecutor σ) (records : List Bytes) : (ex.limited records).length ≤ records.length := by
  rw [limited]
  split
  · exact List.length_take_le' _ _
  · exact le_refl _

def beginTuple [FloatOps] (ex : SortExecutor σ) (fuel : Nat) : M (SortState σ) Unit := do
  modify fun s => {s with records := [], cursor := 0}
  onPrev ex.prev.beginTuple
  ex.fetch fuel
  let s ← get
  let records ← ofExcept (ex.sorted s.records)
  modify fun s => {s with records := ex.limited records}

def isEnd (s : SortState σ) : Bool := s.cursor ≥ s.records.length

def nextTuple : M (SortState σ) Unit :=
  modify fun s => if s.cursor < s.records.length then {s with cursor := s.cursor+1} else s

def next : M (SortState σ) (Option Bytes) := do pure (← get).records[(← get).cursor]?

def executor [FloatOps] (ex : SortExecutor σ) (fuel : Nat) : AbstractExecutor (SortState σ) :=
  ⟨ex.beginTuple fuel,nextTuple,next,isEnd,ex.prev.tupleLen,ex.prev.cols⟩

section Order

def columnValue (col : ColMeta) (record : Bytes) : List Int :=
  if col.type = .string then ((record.drop col.offset).take col.len).map fun b => (b.toNat : Int)
  else if col.type = .int then [leInt ((record.drop col.offset).take 4)]
  else [leInt ((record.drop col.offset).take 8)]

def sortOrder (keys : List (SortKey × ColMeta)) : Bytes → Bytes → Bool :=
  keysLe columnValue (keys.map fun (key,col) => (col,key.isDesc))

theorem signOfSigns (p q : Int) : Signs (signOf (p < q) (p > q)) [p] [q] := by
  have same : signOf (p < q) (p > q) = IxCol.compareInt p q := by simp [signOf,IxCol.compareInt]
  rw [same]
  exact signsInt p q

theorem compareSignsColumn [FloatOps] {col : ColMeta} {a b : Bytes} (ordered : col.type ≠ .float) (length : a.length = b.length) :
    ∃ cmp, compareRawData (a.drop col.offset) col.type col.len (b.drop col.offset) col.type col.len = .ok cmp ∧
      Signs cmp (columnValue col a) (columnValue col b) := by
  obtain ⟨tabName,name,type,len,offset⟩ := col
  cases type with
  | int => exact ⟨_,by simp [compareRawData,isNumericType,isIntegralType,rawInt],signOfSigns _ _⟩
  | bigint => exact ⟨_,by simp [compareRawData,isNumericType,isIntegralType,rawInt],signOfSigns _ _⟩
  | datetime => exact ⟨_,by simp [compareRawData,isNumericType],signOfSigns _ _⟩
  | float => exact absurd rfl ordered
  | string =>
    refine ⟨memcmp ((a.drop offset).take len) ((b.drop offset).take len),?_,signsMemcmp ?_⟩
    · simp only [compareRawData,isNumericType,compareStrings,min_self]
      by_cases zero : memcmp ((a.drop offset).take len) ((b.drop offset).take len) = 0 <;> simp [zero]
    · simp only [List.length_take,List.length_drop,length]

theorem precedesOrder [FloatOps] {keys : List (SortKey × ColMeta)} {a b : Bytes} (ordered : ∀ key ∈ keys, key.2.type ≠ .float)
    (length : a.length = b.length) : precedes keys a b = .ok (!sortOrder keys b a) := by
  induction keys with
  | nil => rfl
  | cons key keys ih =>
    obtain ⟨key,col⟩ := key
    obtain ⟨cmp,compared,less,equal⟩ := compareSignsColumn (ordered _ List.mem_cons_self) length
    have rest := ih fun key mem => ordered key (List.mem_cons_of_mem _ mem)
    dsimp only at compared less equal
    have step : precedes ((key,col) :: keys) a b =
        if cmp = 0 then precedes keys a b else .ok (if key.isDesc then decide (cmp > 0) else decide (cmp < 0)) := by
      rw [precedes,compared]
      rfl
    rw [step,sortOrder,List.map_cons,keysLe]
    by_cases zero : cmp = 0
    · rw [if_pos zero,if_pos (equal.mp zero).symm,rest]
      rfl
    · have differ : columnValue col a ≠ columnValue col b := fun same => zero (equal.mpr same)
      have signs : cmp > 0 ↔ columnValue col b < columnValue col a := by
        rw [← not_iff_not,gt_iff_lt,not_lt,not_lt,Int.le_iff_lt_or_eq,less,equal]
        exact le_iff_lt_or_eq.symm
      rw [if_neg zero,if_neg (Ne.symm differ)]
      cases key.isDesc with
      | true =>
        simp only [if_true,signs,Except.ok.injEq,← decide_not,not_lt]
        exact decide_eq_decide.mpr ⟨le_of_lt,fun h => lt_of_le_of_ne h (Ne.symm differ)⟩
      | false =>
        simp only [Bool.false_eq_true,if_false,less,Except.ok.injEq,← decide_not,not_lt]
        exact decide_eq_decide.mpr ⟨le_of_lt,fun h => lt_of_le_of_ne h differ⟩

end Order

section Run
variable {ex : SortExecutor σ} {ready : σ → Prop} {stands : σ → List Bytes → Prop} {L : List Bytes} {s : SortState σ}

theorem fetchRun (positions : ex.prev.Positions stands) {fuel : Nat} (here : stands s.prev L) (enough : L.length < fuel) :
    ∃ t, ex.fetch fuel s = .ok () t ∧ stands t.prev [] ∧ t.records = s.records ++ L ∧ t.cursor = s.cursor := by
  induction L generalizing s fuel with
  | nil =>
    obtain ⟨fuel,rfl⟩ := Nat.exists_eq_succ_of_ne_zero (Nat.ne_zero_of_lt enough)
    refine ⟨s,?_,here,(List.append_nil _).symm,rfl⟩
    rw [fetch,getBind,if_pos (positions.ended _ here)]
    rfl
  | cons r rest ih =>
    obtain ⟨fuel,rfl⟩ := Nat.exists_eq_succ_of_ne_zero (Nat.ne_zero_of_lt enough)
    obtain ⟨t,shown,still⟩ := positions.record _ r rest here
    obtain ⟨u,stepped,later⟩ := positions.step t r rest still
    rw [List.length_cons] at enough
    obtain ⟨v,fetched,last,records,cursor⟩ := @ih ⟨u,s.records ++ [r],s.cursor⟩ fuel later (by omega)
    refine ⟨v,?_,last,?_,cursor⟩
    · have going := positions.going _ r rest here
      have taken : onPrev ex.prev.next s = .ok (some r) {s with prev := t} := zoomOk shown
      have moved : onPrev ex.prev.nextTuple ⟨t,s.records ++ [r],s.cursor⟩ = .ok () ⟨u,s.records ++ [r],s.cursor⟩ :=
        zoomOk stepped
      rw [fetch,getBind,going,if_neg Bool.false_ne_true,bindEq taken]
      dsimp only
      rw [modifyBind,bindEq moved,fetched]
    · rw [records,List.append_assoc]
      rfl

theorem sortedMerge [FloatOps] (ordered : ∀ key ∈ ex.sortKeys.zip ex.sortCols, key.2.type ≠ .float) {size : Nat}
    (sizes : ∀ r ∈ L, r.length = size) : ex.sorted L = .ok (L.mergeSort (sortOrder (ex.sortKeys.zip ex.sortCols))) := by
  rw [sorted]
  split
  · rename_i plain
    have none : ex.sortKeys.zip ex.sortCols = [] := by rw [List.isEmpty_iff.mp plain,List.zip_nil_left]
    have kept : L.Pairwise fun a b => sortOrder [] a b = true := List.pairwise_of_forall fun _ _ => rfl
    rw [none,List.mergeSort_of_pairwise kept]
  · exact stableSortMerge keysLeTrans keysLeTotal fun a memA b memB =>
      precedesOrder ordered ((sizes a memA).trans (sizes b memB).symm)

theorem precedesSome [FloatOps] (keys : List (SortKey × ColMeta)) (a b : Bytes) :
    ∃ before, precedes keys a b = .ok before := by
  induction keys with
  | nil => exact ⟨false,rfl⟩
  | cons key keys ih =>
    obtain ⟨key,col⟩ := key
    obtain ⟨cmp,compared⟩ := compareSame (a.drop col.offset) (b.drop col.offset) col.type col.len
    have step : precedes ((key,col) :: keys) a b =
        if cmp = 0 then precedes keys a b else .ok (if key.isDesc then decide (cmp > 0) else decide (cmp < 0)) := by
      rw [precedes,compared]
      rfl
    rw [step]
    split
    · exact ih
    · exact ⟨_,rfl⟩

theorem sortedPerm [FloatOps] (ex : SortExecutor σ) (L : List Bytes) : ∃ ordered, ex.sorted L = .ok ordered ∧ ordered.Perm L := by
  rw [sorted]
  split
  · exact ⟨L,rfl,.refl _⟩
  · exact stableSortPerm (precedesSome _) L

theorem beginRun [FloatOps] (restarts : ex.prev.Restarts ready stands L) {fuel : Nat} (enough : L.length < fuel)
    {ordered : List Bytes} (result : ex.sorted L = .ok ordered) (known : ready s.prev) :
    ∃ t, ex.beginTuple fuel s = .ok () t ∧ ready t.prev ∧ t.cursor = 0 ∧ t.records = ex.limited ordered := by
  obtain ⟨p,started,here⟩ := restarts.start _ known
  obtain ⟨t,fetched,last,records,cursor⟩ := fetchRun (s := ⟨p,[],0⟩) restarts.positions here enough
  have begun : onPrev ex.prev.beginTuple ⟨s.prev,[],0⟩ = .ok () ⟨p,[],0⟩ := zoomOk started
  refine ⟨{t with records := ex.limited ordered},?_,restarts.kept _ _ last,cursor,rfl⟩
  rw [beginTuple,modifyBind,bindEq begun,bindEq fetched,getBind,records,List.nil_append,result]
  rfl

theorem dropCons {xs rest : List Bytes} {k : Nat} {r : Bytes} (ahead : xs.drop k = r :: rest) :
    k < xs.length ∧ xs[k]? = some r ∧ xs.drop (k+1) = rest := by
  have first : xs[k]? = some r := by rw [← List.head?_drop,ahead,List.head?_cons]
  refine ⟨(List.getElem?_eq_some_iff.mp first).1,first,?_⟩
  rw [← List.tail_drop,ahead,List.tail_cons]

theorem sortedRestarts [FloatOps] (restarts : ex.prev.Restarts ready stands L) {fuel : Nat} (enough : L.length < fuel)
    {ordered : List Bytes} (result : ex.sorted L = .ok ordered) (perm : ordered.Perm L) :
    (ex.executor fuel).Restarts (fun s => ready s.prev) (fun s rest => ready s.prev ∧ s.records.drop s.cursor = rest)
      (ex.limited ordered) := by
  refine ⟨⟨?_,?_,?_,?_⟩,fun s rest here => here.1,?_,?_⟩
  · intro s here
    exact decide_eq_true (List.drop_eq_nil_iff.mp here.2)
  · intro s r rest here
    exact decide_eq_false (Nat.not_le_of_lt (dropCons here.2).1)
  · intro s r rest here
    exact ⟨s,congrArg (EStateM.Result.ok · s) (dropCons here.2).2.1,here⟩
  · intro s r rest here
    obtain ⟨more,_,later⟩ := dropCons here.2
    refine ⟨{s with cursor := s.cursor+1},?_,here.1,later⟩
    exact congrArg (EStateM.Result.ok ()) (if_pos more)
  · intro s known
    obtain ⟨t,begun,still,cursor,records⟩ := beginRun restarts enough result known
    exact ⟨t,begun,still,by rw [cursor,records,List.drop_zero]⟩
  · intro r mem
    refine restarts.size r ?_
    rw [limited] at mem
    split at mem
    · exact perm.mem_iff.mp (List.mem_of_mem_take mem)
    · exact perm.mem_iff.mp mem

theorem sortRestarts [FloatOps] (restarts : ex.prev.Restarts ready stands L) {fuel : Nat} (enough : L.length < fuel)
    (ordered : ∀ key ∈ ex.sortKeys.zip ex.sortCols, key.2.type ≠ .float) :
    (ex.executor fuel).Restarts (fun s => ready s.prev) (fun s rest => ready s.prev ∧ s.records.drop s.cursor = rest)
      (ex.limited (L.mergeSort (sortOrder (ex.sortKeys.zip ex.sortCols)))) :=
  sortedRestarts restarts enough (sortedMerge ordered restarts.size) (List.mergeSort_perm _ _)

end Run

end SortExecutor
end Rmdb
