import Rmdb.Execution.NestedLoopJoin
import Rmdb.Optimizer.Planner

/-! The scans as operators of a plan, and `Portal::convert_plan_executor`. -/
namespace Rmdb
open Record Index

structure Executor where
  State : Type
  init : State
  run : AbstractExecutor State

structure ScanCursor (C : Type) where
  scan : RecScan C
  place : C
  rid : Rid

def tupleLenOf (cols : List ColMeta) : Except Fault Nat :=
  match cols.getLast? with
  | some col => .ok (col.offset+col.len)
  | none => .error .outOfRange

/- What the two scan executors share. `begun` is what `beginTuple` makes, before it the iterator is
`nullptr`. -/
def scanExecutor {C : Type} (fh : RmFileHandle) (test : Rid → Except Fault Bool) (steps : Nat)
    (begun : Except Fault (ScanCursor C)) (tupleLen : Nat) (cols : List ColMeta) : AbstractExecutor (Option (ScanCursor C)) where
  beginTuple := do
    let cursor ← ofExcept begun
    set (some cursor)
  nextTuple := do
    match ← get with
    | none => pure ()
    | some cursor =>
      let (place,rid) ← ofExcept (cursor.scan.nextTuple test (endRid fh) steps cursor.place)
      set (some (⟨cursor.scan,place,rid⟩ : ScanCursor C))
  next := do
    match ← get with
    | none => pure none
    | some cursor =>
      if cursor.scan.isEnd cursor.place then pure none else
        let record ← ofExcept (fh.getRecord cursor.rid)
        pure (some record)
  isEnd s := match s with
    | none => true
    | some cursor => cursor.scan.isEnd cursor.place
  tupleLen := tupleLen
  cols := cols

section
variable [FloatOps]

namespace SeqScanExecutor

def begun (fh : RmFileHandle) (cols : List ColMeta) (conds : List Condition) : Except Fault (ScanCursor Rid) := do
  let (place,rid) ← beginTuple fh cols conds
  .ok ⟨RmScan.scan fh,place,rid⟩

def new (sm : SmManager) (tabName : String) (conds : List Condition) : Except Fault Executor :=
  match (do
    let tab ← sm.db.getTable tabName
    let fh ← sm.fileHandle tabName
    let len ← tupleLenOf tab.cols
    .ok (tab,fh,len) : Except Fault (TabMeta × RmFileHandle × Nat)) with
  | .error e => .error e
  | .ok (tab,fh,len) =>
    .ok ⟨_,none,scanExecutor fh (satisfies fh tab.cols conds) (steps fh) (begun fh tab.cols conds) len tab.cols⟩

end SeqScanExecutor

namespace IndexScanExecutor

def begun (tabName : String) (ih : IxHandle) (fh : RmFileHandle) (cols : List ColMeta) (conds : List Condition) :
    Except Fault (ScanCursor Iid) := do
  let (lower,upper) ← buildScanRange tabName ih conds
  let (place,rid) ← (IxScan.scan ih.tree upper).advanceToMatch (satisfies fh cols conds) (endRid fh) (steps ih) lower
  .ok ⟨IxScan.scan ih.tree upper,place,rid⟩

def new (sm : SmManager) (tabName : String) (conds : List Condition) (indexColNames : List String) : Except Fault Executor :=
  match (do
    let tab ← sm.db.getTable tabName
    let index ← tab.getIndexMeta indexColNames
    let ih ← sm.indexHandle tabName index
    let fh ← sm.fileHandle tabName
    let len ← tupleLenOf tab.cols
    let fedConds ← conds.mapM (orient tabName)
    .ok (tab,ih,fh,len,fedConds) : Except Fault (TabMeta × IxHandle × RmFileHandle × Nat × List Condition)) with
  | .error e => .error e
  | .ok (tab,ih,fh,len,fedConds) =>
    .ok ⟨_,none,scanExecutor fh (satisfies fh tab.cols fedConds) (steps ih) (begun tabName ih fh tab.cols fedConds) len tab.cols⟩

end IndexScanExecutor

namespace Portal

/- `fuel` bounds the loops of the joins. -/
def convertPlanExecutor (sm : SmManager) (fuel : Nat) : Plan → Except Fault Executor
  | .scan x =>
    if x.tag = .seqScan then SeqScanExecutor.new sm x.tabName x.conds
    else IndexScanExecutor.new sm x.tabName x.conds x.indexColNames
  | .join _ left right conds => do
    let left ← convertPlanExecutor sm fuel left
    let right ← convertPlanExecutor sm fuel right
    .ok ⟨_,⟨left.init,right.init,true,[],0,none⟩,(NestedLoopJoinExecutor.new left.run right.run conds).executor fuel⟩

end Portal
end

namespace RecScan
variable {C : Type} {scan : RecScan C} {test : Rid → Except Fault Bool} {passes : Rid → Bool} {last : Rid} {c : C}
  {rids front back : List Rid} {r : Rid} {e : Fault} {fuel : Nat}

def AtMatch (scan : RecScan C) (passes : Rid → Bool) (c : C) (rid : Rid) (ahead : List Rid) : Prop :=
  scan.Enumerates c ahead ∧ ∀ r rest, ahead = r :: rest → rid = r ∧ passes r = true

theorem advanceRun (enumerates : scan.Enumerates c rids) (total : ∀ r ∈ rids, test r = .ok (passes r))
    (enough : rids.length < fuel) : ∃ d rid, scan.advanceToMatch test last fuel c = .ok (d,rid) ∧
      scan.AtMatch passes d rid (rids.dropWhile fun r => !passes r) := by
  induction rids generalizing c fuel with
  | nil =>
    obtain ⟨fuel,rfl⟩ := Nat.exists_eq_succ_of_ne_zero (Nat.ne_zero_of_lt enough)
    have ended : scan.isEnd c = true := enumerates
    exact ⟨c,last,by rw [advanceToMatch,if_pos ended],enumerates,by simp⟩
  | cons r rest ih =>
    rw [List.length_cons] at enough
    obtain ⟨fuel,rfl⟩ := Nat.exists_eq_succ_of_ne_zero (Nat.ne_zero_of_lt enough)
    have whole := enumerates
    obtain ⟨going,here,d,step,later⟩ := enumerates
    have tested := total r List.mem_cons_self
    rw [advanceToMatch,going,here]
    simp only [Bool.false_eq_true,if_false,bind,Except.bind,tested]
    cases passed : passes r with
    | true =>
      refine ⟨c,r,rfl,?_⟩
      rw [List.dropWhile_cons_of_neg (by simp [passed])]
      refine ⟨whole,fun x xs same => ?_⟩
      obtain ⟨rfl,_⟩ := List.cons.inj same
      exact ⟨rfl,passed⟩
    | false =>
      rw [List.dropWhile_cons_of_pos (by simp [passed])]
      simp only [Bool.false_eq_true,if_false,step]
      exact ih later (fun x mem => total x (List.mem_cons_of_mem r mem)) (by omega)

theorem advanceThrows (enumerates : scan.Enumerates c (front ++ r :: back)) (failed : ∀ x ∈ front, test x = .ok false)
    (thrown : test r = .error e) (enough : (front ++ r :: back).length < fuel) :
    scan.advanceToMatch test last fuel c = .error e := by
  induction front generalizing c fuel with
  | nil =>
    obtain ⟨fuel,rfl⟩ := Nat.exists_eq_succ_of_ne_zero (Nat.ne_zero_of_lt enough)
    obtain ⟨going,here,_⟩ := enumerates
    rw [advanceToMatch,going,here]
    simp [bind,Except.bind,thrown]
  | cons x front ih =>
    rw [List.cons_append,List.length_cons] at enough
    obtain ⟨fuel,rfl⟩ := Nat.exists_eq_succ_of_ne_zero (Nat.ne_zero_of_lt enough)
    obtain ⟨going,here,d,step,later⟩ := enumerates
    rw [advanceToMatch,going,here]
    simp only [Bool.false_eq_true,if_false,bind,Except.bind,failed x List.mem_cons_self,step]
    exact ih later (fun y mem => failed y (List.mem_cons_of_mem x mem)) (by omega)

end RecScan

section Restarts
variable {C : Type} {fh : RmFileHandle} {test : Rid → Except Fault Bool} {passes : Rid → Bool} {steps tupleLen : Nat}
  {begun : Except Fault (ScanCursor C)} {cols : List ColMeta} {scan : RecScan C} {rids : List Rid} {record : Rid → Bytes}

def ScanStands (scan : RecScan C) (passes : Rid → Bool) (record : Rid → Bytes) (rids : List Rid)
    (s : Option (ScanCursor C)) (rows : List Bytes) : Prop :=
  ∃ place rid ahead, s = some ⟨scan,place,rid⟩ ∧ ahead.Sublist rids ∧ scan.AtMatch passes place rid ahead ∧
    rows = (ahead.filter passes).map record

theorem scanRestarts {start : C}
    (known : begun = (scan.advanceToMatch test (endRid fh) steps start).map fun reached => ⟨scan,reached.1,reached.2⟩)
    (enumerates : scan.Enumerates start rids) (few : rids.length < steps) (total : ∀ r ∈ rids, test r = .ok (passes r))
    (there : ∀ r ∈ rids, fh.getRecord r = .ok (record r)) (size : ∀ r ∈ rids, (record r).length = tupleLen) :
    (scanExecutor fh test steps begun tupleLen cols).Restarts (fun _ => True) (ScanStands scan passes record rids)
      ((rids.filter passes).map record) := by
  have dropped (l : List Rid) : (l.dropWhile fun r => !passes r).filter passes = l.filter passes := by
    induction l with
    | nil => rfl
    | cons r l ih => cases passed : passes r <;> simp [passed,ih]
  have moves {ahead : List Rid} {c : C} (part : ahead.Sublist rids) (here : scan.Enumerates c ahead) : ∃ d rid,
      scan.advanceToMatch test (endRid fh) steps c = .ok (d,rid) ∧
        ScanStands scan passes record rids (some ⟨scan,d,rid⟩) ((ahead.filter passes).map record) := by
    obtain ⟨d,rid,run,match_⟩ := @RecScan.advanceRun _ _ _ _ (endRid fh) _ _ steps here (fun r mem => total r (part.mem mem))
      (part.length_le.trans_lt few)
    exact ⟨d,rid,run,d,rid,_,rfl,(List.dropWhile_sublist _).trans part,match_,by rw [dropped]⟩
  have cases_ {s : Option (ScanCursor C)} {rows : List Bytes} (stands : ScanStands scan passes record rids s rows) :
      (∃ place rid, s = some ⟨scan,place,rid⟩ ∧ rows = [] ∧ scan.isEnd place = true) ∨
      ∃ place r rest, s = some ⟨scan,place,r⟩ ∧ scan.Enumerates place (r :: rest) ∧ (r :: rest).Sublist rids ∧
        passes r = true ∧ rows = record r :: (rest.filter passes).map record := by
    obtain ⟨place,rid,ahead,rfl,part,⟨here,first⟩,rfl⟩ := stands
    cases ahead with
    | nil => exact .inl ⟨place,rid,rfl,rfl,here⟩
    | cons r rest =>
      obtain ⟨rfl,passed⟩ := first r rest rfl
      exact .inr ⟨place,rid,rest,rfl,here,part,passed,by rw [List.filter_cons,if_pos passed,List.map_cons]⟩
  refine ⟨⟨?_,?_,?_,?_⟩,fun _ _ _ => trivial,?_,?_⟩
  · intro s stands
    rcases cases_ stands with ⟨place,rid,rfl,_,ended⟩ | ⟨_,_,_,_,_,_,_,other⟩
    · exact ended
    · cases other
  · intro s row rows stands
    rcases cases_ stands with ⟨_,_,_,other,_⟩ | ⟨place,r,rest,rfl,here,_⟩
    · cases other
    · exact here.1
  · intro s row rows stands
    rcases cases_ stands with ⟨_,_,_,other,_⟩ | ⟨place,r,rest,rfl,here,part,passed,same⟩
    · cases other
    · obtain ⟨rfl,_⟩ := List.cons.inj same
      refine ⟨_,?_,stands⟩
      have got := there r (part.mem List.mem_cons_self)
      simp only [scanExecutor,getBind,here.1,Bool.false_eq_true,if_false,got]
      rfl
  · intro s row rows stands
    rcases cases_ stands with ⟨_,_,_,other,_⟩ | ⟨place,r,rest,rfl,here,part,passed,same⟩
    · cases other
    · obtain ⟨_,rfl⟩ := List.cons.inj same
      obtain ⟨going,_,d,step,later⟩ := here
      obtain ⟨d',rid,run,stands'⟩ := moves ((List.sublist_cons_self r rest).trans part) later
      refine ⟨_,?_,stands'⟩
      have next : scan.nextTuple test (endRid fh) steps place = .ok (d',rid) := by
        rw [RecScan.nextTuple,going]
        simp only [Bool.false_eq_true,if_false,step,bind,Except.bind,run]
      simp only [scanExecutor,getBind,next]
      rfl
  · intro s _
    obtain ⟨d,rid,run,stands⟩ := moves (List.Sublist.refl rids) enumerates
    refine ⟨_,?_,stands⟩
    rw [known,run]
    rfl
  · intro row mem
    obtain ⟨r,inside,rfl⟩ := List.mem_map.mp mem
    exact size r (List.mem_of_mem_filter inside)

theorem scanThrows {start : C} {front back : List Rid} {r : Rid} {e : Fault}
    (known : begun = (scan.advanceToMatch test (endRid fh) steps start).map fun reached => ⟨scan,reached.1,reached.2⟩)
    (enumerates : scan.Enumerates start (front ++ r :: back)) (few : (front ++ r :: back).length < steps)
    (failed : ∀ x ∈ front, test x = .ok false) (thrown : test r = .error e) (s : Option (ScanCursor C)) :
    (scanExecutor fh test steps begun tupleLen cols).beginTuple s = .error e s := by
  rw [known,RecScan.advanceThrows enumerates failed thrown few]
  rfl

end Restarts
end Rmdb
