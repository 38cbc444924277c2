import Rmdb.Execution.Executors
import Rmdb.Execution.AbstractExecutor

/-! `ProjectionExecutor`: some columns of the child's rows, one behind the other. -/
namespace Rmdb

structure Selected where
  prevCol : ColMeta
  currCol : ColMeta
  deriving DecidableEq, Repr

structure ProjectionExecutor (σ : Type) where
  prev : AbstractExecutor σ
  selected : List Selected
  len : Nat

namespace ProjectionExecutor
variable {σ : Type}

def select (prevCols : List ColMeta) : List TabCol → Nat → Except Fault (List Selected × Nat)
  | [],currOffset => .ok ([],currOffset)
  | selCol :: selCols,currOffset => do
    let col ← findColMeta prevCols selCol
    let (selected,len) ← select prevCols selCols (currOffset+col.len)
    .ok (⟨col,{col with offset := currOffset}⟩ :: selected,len)

def new (prev : AbstractExecutor σ) (selCols : List TabCol) : Except Fault (ProjectionExecutor σ) := do
  let (selected,len) ← select prev.cols selCols 0
  .ok ⟨prev,selected,len⟩

def copyColumns (prevRecord : Bytes) (selected : List Selected) (record : Bytes) : Bytes :=
  selected.foldl (fun record s => copyInto record s.currCol.offset ((prevRecord.drop s.prevCol.offset).take s.prevCol.len)) record

def next (ex : ProjectionExecutor σ) : M σ (Option Bytes) := do
  let s ← get
  if ex.prev.isEnd s then pure none else
    match ← ex.prev.next with
    | none => throw .outOfRange
    | some prevRecord => pure (some (copyColumns prevRecord ex.selected (List.replicate ex.len 0)))

def executor (ex : ProjectionExecutor σ) : AbstractExecutor σ :=
  ⟨ex.prev.beginTuple,ex.prev.nextTuple,ex.next,ex.prev.isEnd,ex.len,ex.selected.map Selected.currCol⟩

section Columns
variable {prevCols : List ColMeta} {selCols : List TabCol} {selected : List Selected} {offset len : Nat} {r : Bytes}

def column (r : Bytes) (s : Selected) : Bytes := (r.drop s.prevCol.offset).take s.prevCol.len

def project (selected : List Selected) (r : Bytes) : Bytes := selected.flatMap (column r)

def Abut : Nat → List Selected → Prop
  | _,[] => True
  | k,s :: selected => s.currCol = {s.prevCol with offset := k} ∧ Abut (k+s.prevCol.len) selected

theorem selectAbut (made : select prevCols selCols offset = .ok (selected,len)) : Abut offset selected ∧
    len = offset+(selected.map fun s => s.prevCol.len).sum ∧
    List.Forall₂ (fun c s => findColMeta prevCols c = .ok s.prevCol) selCols selected := by
  induction selCols generalizing offset selected with
  | nil =>
    cases Except.ok.inj made
    exact ⟨trivial,rfl,.nil⟩
  | cons c selCols ih =>
    obtain ⟨col,found,rest⟩ := exceptBind made
    obtain ⟨⟨later,total⟩,behind,rest⟩ := exceptBind rest
    cases Except.ok.inj rest
    obtain ⟨abut,sum,each⟩ := ih behind
    refine ⟨⟨rfl,abut⟩,?_,.cons found each⟩
    rw [List.map_cons,List.sum_cons,← Nat.add_assoc]
    exact sum

theorem selectMade (found : ∀ c ∈ selCols, ∃ col, findColMeta prevCols c = .ok col) (offset : Nat) :
    ∃ selected len, select prevCols selCols offset = .ok (selected,len) := by
  induction selCols generalizing offset with
  | nil => exact ⟨_,_,rfl⟩
  | cons c selCols ih =>
    obtain ⟨col,here⟩ := found c List.mem_cons_self
    obtain ⟨selected,len,rest⟩ := ih (fun x mem => found x (List.mem_cons_of_mem c mem)) (offset+col.len)
    refine ⟨⟨col,{col with offset := offset}⟩ :: selected,len,?_⟩
    rw [select,here]
    simp only [bind,Except.bind,rest]

variable (inside : ∀ s ∈ selected, s.prevCol.offset+s.prevCol.len ≤ r.length)

theorem columnLength {s : Selected} (inside : s.prevCol.offset+s.prevCol.len ≤ r.length) :
    (column r s).length = s.prevCol.len := by
  rw [column,List.length_take,List.length_drop]
  omega

include inside in
theorem copyColumnsRun {front : Bytes} (abut : Abut front.length selected) :
    copyColumns r selected (front ++ List.replicate (selected.map fun s => s.prevCol.len).sum 0) =
      front ++ project selected r := by
  induction selected generalizing front with
  | nil => rfl
  | cons s selected ih =>
    obtain ⟨placed,abut⟩ := abut
    have size := columnLength (inside s List.mem_cons_self)
    have offset : s.currCol.offset = front.length := by rw [placed]
    have stored : copyInto (front ++ List.replicate (s.prevCol.len+(selected.map fun s => s.prevCol.len).sum) 0)
        s.currCol.offset (column r s) =
          (front ++ column r s) ++ List.replicate (selected.map fun s => s.prevCol.len).sum 0 := by
      rw [copyInto,offset,List.take_left,size,List.drop_append,List.drop_eq_nil_of_le (by omega),List.nil_append,
        List.drop_replicate,Nat.add_sub_cancel_left,Nat.add_sub_cancel_left]
    have later := @ih (fun x mem => inside x (List.mem_cons_of_mem s mem)) (front ++ column r s) (by rwa [List.length_append,size])
    rw [List.map_cons,List.sum_cons,copyColumns,List.foldl_cons]
    change copyColumns r selected (copyInto _ s.currCol.offset (column r s)) = _
    rw [stored,later,project,project,List.flatMap_cons,List.append_assoc]

include inside in
theorem projectColumn {front : Bytes} (abut : Abut front.length selected) {s : Selected} (mem : s ∈ selected) :
    ((front ++ project selected r).drop s.currCol.offset).take s.currCol.len = column r s := by
  induction selected generalizing front with
  | nil => cases mem
  | cons first selected ih =>
    obtain ⟨placed,abut⟩ := abut
    have size := columnLength (inside first List.mem_cons_self)
    have split : front ++ project (first :: selected) r = (front ++ column r first) ++ project selected r := by
      rw [project,List.flatMap_cons,List.append_assoc,project]
    rw [split]
    rcases List.mem_cons.mp mem with rfl | behind
    · rw [placed,List.append_assoc,List.drop_left,← size,List.take_left]
    · exact ih (fun x memX => inside x (List.mem_cons_of_mem first memX)) (by rwa [List.length_append,size]) behind

include inside in
theorem projectLength : (project selected r).length = (selected.map fun s => s.prevCol.len).sum := by
  rw [project,List.length_flatMap]
  exact congrArg List.sum (List.map_congr_left fun s mem => columnLength (inside s mem))

end Columns

section Run
variable {ex : ProjectionExecutor σ} {ready : σ → Prop} {stands : σ → List Bytes → Prop} {L : List Bytes} {selCols : List TabCol}

theorem projectionRestarts {prev : AbstractExecutor σ} (restarts : prev.Restarts ready stands L) (made : new prev selCols = .ok ex)
    (inside : ∀ s ∈ ex.selected, s.prevCol.offset+s.prevCol.len ≤ prev.tupleLen) :
    ex.executor.Restarts ready
      (fun s rest => ∃ ahead, stands s ahead ∧ (∀ r ∈ ahead, r ∈ L) ∧ rest = ahead.map (project ex.selected))
      (L.map (project ex.selected)) := by
  obtain ⟨⟨selected,len⟩,laid,made⟩ := exceptBind made
  cases Except.ok.inj made
  obtain ⟨abut,sum,_⟩ := selectAbut laid
  rw [Nat.zero_add] at sum
  have fits {r : Bytes} (mem : r ∈ L) : ∀ s ∈ selected, s.prevCol.offset+s.prevCol.len ≤ r.length := fun s memS => by
    rw [restarts.size r mem]
    exact inside s memS
  refine ⟨⟨?_,?_,?_,?_⟩,?_,?_,?_⟩
  · rintro s ⟨ahead,here,_,none⟩
    rw [eq_comm,List.map_eq_nil_iff] at none
    subst none
    exact restarts.positions.ended s here
  · rintro s row rest ⟨ahead,here,_,same⟩
    obtain ⟨r,later,rfl,_⟩ := List.map_eq_cons_iff.mp same.symm
    exact restarts.positions.going s r later here
  · rintro s row rest ⟨ahead,here,known,same⟩
    obtain ⟨r,later,rfl,rfl,rfl⟩ := List.map_eq_cons_iff.mp same.symm
    obtain ⟨t,shown,still⟩ := restarts.positions.record s r later here
    refine ⟨t,?_,r :: later,still,known,rfl⟩
    have copied := @copyColumnsRun selected r (fits (known r List.mem_cons_self)) [] abut
    have going := restarts.positions.going s r later here
    change next ⟨prev,selected,len⟩ s = _
    rw [next,getBind,going,if_neg Bool.false_ne_true,bindEq shown,sum]
    exact congrArg (fun row => EStateM.Result.ok (some row) t) copied
  · rintro s row rest ⟨ahead,here,known,same⟩
    obtain ⟨r,later,rfl,rfl,rfl⟩ := List.map_eq_cons_iff.mp same.symm
    obtain ⟨t,stepped,still⟩ := restarts.positions.step s r later here
    exact ⟨t,stepped,later,still,fun x mem => known x (List.mem_cons_of_mem r mem),rfl⟩
  · rintro s rest ⟨ahead,here,_⟩
    exact restarts.kept s ahead here
  · intro s known
    obtain ⟨t,begun,here⟩ := restarts.start s known
    exact ⟨t,begun,L,here,fun r mem => mem,rfl⟩
  · intro row mem
    obtain ⟨r,memR,rfl⟩ := List.mem_map.mp mem
    exact (projectLength (fits memR)).trans sum.symm

end Run

end ProjectionExecutor
end Rmdb
