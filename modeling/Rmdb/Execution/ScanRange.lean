import Rmdb.Execution.RawOrder

/-! The scan range of `IndexScanExecutor` holds every record that satisfies the conditions: what
the conditions say about one column goes into its bound, and the bounds into the two keys. -/
namespace Rmdb
open Lib Index IndexScanExecutor

def field (col : IxCol) (record : Bytes) : Bytes := (record.drop col.offset).take col.len

section Bounds
variable {col : IxCol} {x raw : Bytes} {bound : ColumnBound} {op : CompOp} {v : Value}

def Meets (col : IxCol) (op : CompOp) (x raw : Bytes) : Prop :=
  match op with
  | .eq => col.digits x = col.digits raw
  | .ne => col.digits x ≠ col.digits raw
  | .lt => col.digits x < col.digits raw
  | .gt => col.digits raw < col.digits x
  | .le => col.digits x ≤ col.digits raw
  | .ge => col.digits raw ≤ col.digits x

def Literal (col : IxCol) (v : Value) : Prop := ∃ raw, v.raw = some raw ∧ raw.length = col.len

structure Shaped (col : IxCol) (bound : ColumnBound) : Prop where
  eq : ∀ v ∈ bound.eq, Literal col v
  lower : ∀ v ∈ bound.lower, Literal col v
  upper : ∀ v ∈ bound.upper, Literal col v

def Above (inclusive : Bool) (low x : List Int) : Prop := if inclusive then low ≤ x else low < x

structure Admits (col : IxCol) (x : Bytes) (bound : ColumnBound) : Prop where
  eq : ∀ v ∈ bound.eq, v.raw = some x
  lower : ∀ v ∈ bound.lower, ∀ raw ∈ v.raw, Above bound.lowerInclusive (col.digits raw) (col.digits x)
  upper : ∀ v ∈ bound.upper, ∀ raw ∈ v.raw, Above bound.upperInclusive (col.digits x) (col.digits raw)

theorem blockInj {y : Bytes} (lengthx : x.length = col.len) (lengthy : y.length = col.len)
    (same : col.digits x = col.digits y) : x = y := by
  have taken := col.digitsInj lengthx.ge lengthy.ge same
  rwa [← lengthx,List.take_length,lengthx,← lengthy,List.take_length] at taken

theorem meetsCompare (lengthx : col.len ≤ x.length) (lengthr : col.len ≤ raw.length)
    (passed : evaluateCompareResult (col.compare x raw) op = true) : Meets col op x raw := by
  obtain ⟨less,equal⟩ := col.signs lengthx lengthr
  have more : 0 < col.compare x raw ↔ col.digits raw < col.digits x := by
    rw [← not_le,← not_le,le_iff_lt_or_eq,le_iff_lt_or_eq,less,equal]
  cases op with
  | eq => exact equal.mp (by simpa [evaluateCompareResult] using passed)
  | ne => exact fun same => absurd (equal.mpr same) (by simpa [evaluateCompareResult] using passed)
  | lt => exact less.mp (by simpa [evaluateCompareResult] using passed)
  | gt => exact more.mp (by simpa [evaluateCompareResult] using passed)
  | le => exact not_lt.mp fun above => absurd (more.mpr above) (by simpa [evaluateCompareResult] using passed)
  | ge => exact not_lt.mp fun below => absurd (less.mpr below) (by simpa [evaluateCompareResult] using passed)

variable [FloatOps]

theorem compareBoundRun {a b : Value} (one : Literal col a) (two : Literal col b) :
    ∃ cmp, compareBoundValue a b col.toColMeta = .ok cmp := by
  obtain ⟨x,rawx,_⟩ := one
  obtain ⟨y,rawy,_⟩ := two
  refine ⟨col.compare x y,?_⟩
  simp only [compareBoundValue,rawData,rawx,rawy,bind,Except.bind]
  exact rawCompare col

theorem tightenLower (shaped : Shaped col bound) (literal : Literal col v) (kind : op = .gt ∨ op = .ge) : ∃ bound',
    tighten bound op v col.toColMeta = .ok bound' ∧
      (bound' = bound ∨ bound' = {bound with lower := some v, lowerInclusive := decide (op = .ge)}) := by
  cases old : bound.lower with
  | none =>
    refine ⟨_,?_,.inr rfl⟩
    rcases kind with rfl | rfl <;> simp [tighten,old]
  | some lower =>
    obtain ⟨cmp,run⟩ := compareBoundRun literal (shaped.lower lower old)
    rcases kind with rfl | rfl
    all_goals
      simp only [tighten,old,run,bind,Except.bind]
      split
      · exact ⟨_,rfl,.inr rfl⟩
      · exact ⟨_,rfl,.inl rfl⟩

theorem tightenUpper (shaped : Shaped col bound) (literal : Literal col v) (kind : op = .lt ∨ op = .le) : ∃ bound',
    tighten bound op v col.toColMeta = .ok bound' ∧
      (bound' = bound ∨ bound' = {bound with upper := some v, upperInclusive := decide (op = .le)}) := by
  cases old : bound.upper with
  | none =>
    refine ⟨_,?_,.inr rfl⟩
    rcases kind with rfl | rfl <;> simp [tighten,old]
  | some upper =>
    obtain ⟨cmp,run⟩ := compareBoundRun literal (shaped.upper upper old)
    rcases kind with rfl | rfl
    all_goals
      simp only [tighten,old,run,bind,Except.bind]
      split
      · exact ⟨_,rfl,.inr rfl⟩
      · exact ⟨_,rfl,.inl rfl⟩

theorem tightenRun (shaped : Shaped col bound) (literal : Literal col v) : ∃ bound',
    tighten bound op v col.toColMeta = .ok bound' ∧ Shaped col bound' ∧
    ∀ x, x.length = col.len → Admits col x bound → (∀ raw ∈ v.raw, Meets col op x raw) → Admits col x bound' := by
  have one : ∀ w ∈ some v, Literal col w := by
    intro w mem
    exact Option.mem_some.mp mem ▸ literal
  have low (kind : op = .gt ∨ op = .ge) : ∃ bound', tighten bound op v col.toColMeta = .ok bound' ∧ Shaped col bound' ∧
      ∀ x, x.length = col.len → Admits col x bound → (∀ raw ∈ v.raw, Meets col op x raw) → Admits col x bound' := by
    obtain ⟨bound',run,rfl | rfl⟩ := tightenLower shaped literal kind
    · exact ⟨_,run,shaped,fun x _ admits _ => admits⟩
    · refine ⟨_,run,⟨shaped.eq,one,shaped.upper⟩,fun x _ admits meets => ⟨admits.eq,?_,admits.upper⟩⟩
      intro w mem raw here
      obtain rfl := Option.mem_some.mp mem
      rcases kind with rfl | rfl <;> exact meets raw here
  have high (kind : op = .lt ∨ op = .le) : ∃ bound', tighten bound op v col.toColMeta = .ok bound' ∧ Shaped col bound' ∧
      ∀ x, x.length = col.len → Admits col x bound → (∀ raw ∈ v.raw, Meets col op x raw) → Admits col x bound' := by
    obtain ⟨bound',run,rfl | rfl⟩ := tightenUpper shaped literal kind
    · exact ⟨_,run,shaped,fun x _ admits _ => admits⟩
    · refine ⟨_,run,⟨shaped.eq,shaped.lower,one⟩,fun x _ admits meets => ⟨admits.eq,admits.lower,?_⟩⟩
      intro w mem raw here
      obtain rfl := Option.mem_some.mp mem
      rcases kind with rfl | rfl <;> exact meets raw here
  cases op with
  | eq =>
    refine ⟨_,rfl,⟨one,one,one⟩,?_⟩
    intro x lengthx _ meets
    obtain ⟨raw,known,length⟩ := literal
    have same : col.digits x = col.digits raw := meets raw known
    obtain rfl := blockInj lengthx length same
    refine ⟨?_,?_,?_⟩
    · intro w mem
      exact Option.mem_some.mp mem ▸ known
    · intro w mem r here
      obtain rfl := Option.mem_some.mp mem
      obtain rfl := Option.some.inj (known.symm.trans here)
      exact le_refl _
    · intro w mem r here
      obtain rfl := Option.mem_some.mp mem
      obtain rfl := Option.some.inj (known.symm.trans here)
      exact le_refl _
  | ne => exact ⟨bound,rfl,shaped,fun x _ admits _ => admits⟩
  | gt => exact low (.inl rfl)
  | ge => exact low (.inr rfl)
  | lt => exact high (.inl rfl)
  | le => exact high (.inr rfl)

end Bounds

section Collect
variable [FloatOps] {cols : List IxCol} {bounds : List ColumnBound} {record : Bytes} {tabName : String}

def AllAdmit (cols : List IxCol) (record : Bytes) (bounds : List ColumnBound) : Prop :=
  List.Forall₂ (fun col bound => Admits col (field col record) bound) cols bounds

def Covered (cols : List IxCol) (record : Bytes) : Prop := ∀ col ∈ cols, (field col record).length = col.len

def Says (cols : List IxCol) (cond : Condition) (v : Value) (record : Bytes) : Prop :=
  ∀ col ∈ cols, col.name = cond.lhsCol.colName → ∀ raw ∈ v.raw, Meets col cond.op (field col record) raw

def Typed (cols : List IxCol) (cond : Condition) : Prop :=
  ∀ v, cond.rhs = .val v → ∀ col ∈ cols, col.name = cond.lhsCol.colName → Literal col v

theorem addBoundRun {cond : Condition} {v : Value} (shaped : List.Forall₂ Shaped cols bounds)
    (typed : ∀ col ∈ cols, col.name = cond.lhsCol.colName → Literal col v) : ∃ bounds',
    addBound tabName cond v cols bounds = .ok bounds' ∧ List.Forall₂ Shaped cols bounds' ∧
    ∀ record, Covered cols record → AllAdmit cols record bounds → Says cols cond v record →
      AllAdmit cols record bounds' := by
  induction shaped with
  | nil => exact ⟨[],rfl,.nil,fun _ _ allowed _ => allowed⟩
  | @cons col bound cols bounds here later ih =>
    rw [addBound]
    split
    · obtain ⟨rest,run,shape,keeps⟩ := ih fun c mem => typed c (List.mem_cons_of_mem _ mem)
      refine ⟨bound :: rest,by rw [run]; rfl,.cons here shape,?_⟩
      intro record covered allowed told
      cases allowed with
      | cons first allowed =>
        exact .cons first (keeps record (fun c mem => covered c (List.mem_cons_of_mem _ mem)) allowed
          fun c mem => told c (List.mem_cons_of_mem _ mem))
    · rename_i about
      obtain ⟨_,named⟩ := not_or.mp about
      have same : col.name = cond.lhsCol.colName := (not_not.mp named).symm
      obtain ⟨bound',run,shape,keeps⟩ := @tightenRun _ _ cond.op _ _ here (typed col List.mem_cons_self same)
      refine ⟨bound' :: bounds,by rw [run]; rfl,.cons shape later,?_⟩
      intro record covered allowed told
      cases allowed with
      | cons first allowed =>
        exact .cons (keeps _ (covered col List.mem_cons_self) first (told col List.mem_cons_self same)) allowed

def takeBound (tabName : String) (cols : List IxCol) (bounds : List ColumnBound) (cond : Condition) :
    Except Fault (List ColumnBound) :=
  match cond.rhs with
  | .val value => if cond.op = .ne then .ok bounds else addBound tabName cond value cols bounds
  | .col _ => .ok bounds

theorem collectRun {conds : List Condition} (shaped : List.Forall₂ Shaped cols bounds)
    (typed : ∀ cond ∈ conds, Typed cols cond) : ∃ bounds',
    conds.foldlM (takeBound tabName cols) bounds = .ok bounds' ∧ List.Forall₂ Shaped cols bounds' ∧
    ∀ record, Covered cols record → AllAdmit cols record bounds →
      (∀ cond ∈ conds, ∀ v, cond.rhs = .val v → Says cols cond v record) → AllAdmit cols record bounds' := by
  induction conds generalizing bounds with
  | nil => exact ⟨bounds,rfl,shaped,fun _ _ allowed _ => allowed⟩
  | cons cond conds ih =>
    have later := fun c mem => typed c (List.mem_cons_of_mem cond mem)
    rw [List.foldlM_cons]
    have skip : ∃ bounds', conds.foldlM (takeBound tabName cols) bounds = .ok bounds' ∧ List.Forall₂ Shaped cols bounds' ∧
        ∀ record, Covered cols record → AllAdmit cols record bounds →
          (∀ c ∈ cond :: conds, ∀ v, c.rhs = .val v → Says cols c v record) → AllAdmit cols record bounds' := by
      obtain ⟨bounds',run,shape,keeps⟩ := ih shaped later
      exact ⟨bounds',run,shape,fun record covered allowed told =>
        keeps record covered allowed fun c mem => told c (List.mem_cons_of_mem _ mem)⟩
    rw [takeBound]
    cases rhs : cond.rhs with
    | col c => exact skip
    | val v =>
      simp only
      by_cases differs : cond.op = CompOp.ne
      · rw [if_pos differs]
        exact skip
      · rw [if_neg differs]
        obtain ⟨one,run,shape,keeps⟩ := @addBoundRun _ cols bounds tabName cond v shaped (typed cond List.mem_cons_self v rhs)
        obtain ⟨bounds',rest,shape',keeps'⟩ := ih shape later
        refine ⟨bounds',?_,shape',?_⟩
        · rw [run]
          exact rest
        · intro record covered allowed told
          exact keeps' record covered (keeps record covered allowed (told cond List.mem_cons_self v rhs))
            fun c mem => told c (List.mem_cons_of_mem _ mem)

theorem collectBoundsRun {conds : List Condition} (typed : ∀ cond ∈ conds, Typed cols cond) : ∃ bounds,
    collectBounds tabName cols conds = .ok bounds ∧ List.Forall₂ Shaped cols bounds ∧
    ∀ record, Covered cols record → (∀ cond ∈ conds, ∀ v, cond.rhs = .val v → Says cols cond v record) →
      AllAdmit cols record bounds := by
  have blank : List.Forall₂ Shaped cols (cols.map fun _ => ⟨none,none,true,none,true⟩) := by
    rw [List.forall₂_map_right_iff,List.forall₂_same]
    exact fun col _ => ⟨by simp,by simp,by simp⟩
  obtain ⟨bounds,run,shape,keeps⟩ := @collectRun _ cols _ tabName conds blank typed
  refine ⟨bounds,run,shape,fun record covered told => keeps record covered ?_ told⟩
  rw [AllAdmit,List.forall₂_map_right_iff,List.forall₂_same]
  exact fun col _ => ⟨by simp,by simp,by simp⟩

end Collect
end Rmdb
