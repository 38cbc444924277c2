import Rmdb.Execution.AbstractExecutor

/-! `NestedLoopJoinExecutor`: blocks of left records, each joined with a whole run of the right
child. The iterator stops inside its loops at every match. -/
namespace Rmdb

structure JoinState (σ τ : Type) where
  left : σ
  right : τ
  isEnd : Bool
  leftBlock : List Bytes
  leftBlockIdx : Nat
  rightTuple : Option Bytes

structure NestedLoopJoinExecutor (σ τ : Type) where
  left : AbstractExecutor σ
  right : AbstractExecutor τ
  fedConds : List Condition
  leftBlockCapacity : Nat
  positive : 1 ≤ leftBlockCapacity

namespace NestedLoopJoinExecutor
variable {σ τ α : Type}

def joinBufferBytes : Nat := 4*1024*1024

def new (left : AbstractExecutor σ) (right : AbstractExecutor τ) (conds : List Condition) : NestedLoopJoinExecutor σ τ :=
  ⟨left,right,conds,max 1 (joinBufferBytes/max 1 left.tupleLen),le_max_left ..⟩

def len (j : NestedLoopJoinExecutor σ τ) : Nat := j.left.tupleLen+j.right.tupleLen

def cols (j : NestedLoopJoinExecutor σ τ) : List ColMeta :=
  j.left.cols ++ j.right.cols.map fun col => {col with offset := col.offset+j.left.tupleLen}

def onLeft (x : M σ α) : M (JoinState σ τ) α := zoom JoinState.left (fun child s => {s with left := child}) x

def onRight (x : M τ α) : M (JoinState σ τ) α := zoom JoinState.right (fun child s => {s with right := child}) x

def makeJoinedRecord (j : NestedLoopJoinExecutor σ τ) (leftRecord rightRecord : Bytes) : Bytes :=
  leftRecord.take j.left.tupleLen ++ rightRecord.take j.right.tupleLen

def satisfies [FloatOps] (j : NestedLoopJoinExecutor σ τ) (pair : Bytes × Bytes) : Except Fault Bool :=
  recordSatisfiesConditions (j.makeJoinedRecord pair.1 pair.2) j.cols j.fedConds

def fillBlock (j : NestedLoopJoinExecutor σ τ) : Nat → M (JoinState σ τ) Unit
  | 0 => pure ()
  | room+1 => do
    let s ← get
    if j.left.isEnd s.left then pure () else
      match ← onLeft j.left.next with
      | none => throw .outOfRange
      | some record =>
        modify fun s => {s with leftBlock := s.leftBlock ++ [record]}
        onLeft j.left.nextTuple
        fillBlock j room

def loadNextLeftBlock (j : NestedLoopJoinExecutor σ τ) : M (JoinState σ τ) Bool := do
  modify fun s => {s with leftBlock := [], leftBlockIdx := 0}
  j.fillBlock j.leftBlockCapacity
  let s ← get
  pure !s.leftBlock.isEmpty

def scanBlock [FloatOps] (j : NestedLoopJoinExecutor σ τ) (rightRecord : Bytes) : List Bytes → M (JoinState σ τ) Bool
  | [] => pure false
  | leftRecord :: rest => do
    if ← ofExcept (j.satisfies (leftRecord,rightRecord)) then pure true else
      modify fun s => {s with leftBlockIdx := s.leftBlockIdx+1}
      scanBlock j rightRecord rest

-- the end of the loop over the right records
def turnRight (j : NestedLoopJoinExecutor σ τ) : M (JoinState σ τ) Unit := do
  modify fun s => {s with leftBlockIdx := 0}
  onRight j.right.nextTuple
  let s ← get
  if j.right.isEnd s.right then modify fun s => {s with rightTuple := none}
  else
    let next ← onRight j.right.next
    modify fun s => {s with rightTuple := next}

-- the end of the loop over the blocks; the answer is whether there is a pair left
def turnBlock (j : NestedLoopJoinExecutor σ τ) : M (JoinState σ τ) Bool := do
  if ← j.loadNextLeftBlock then
    onRight j.right.beginTuple
    let s ← get
    if j.right.isEnd s.right then
      modify fun s => {s with isEnd := true, rightTuple := none}
      pure false
    else
      let first ← onRight j.right.next
      modify fun s => {s with rightTuple := first, leftBlockIdx := 0}
      pure true
  else
    modify fun s => {s with isEnd := true, rightTuple := none}
    pure false

/- The two outer loops of `advance_to_next_match`: `right_tuple_` tells which of them turns. -/
def advanceToNextMatch [FloatOps] (j : NestedLoopJoinExecutor σ τ) : Nat → M (JoinState σ τ) Unit
  | 0 => throw .fuel
  | fuel+1 => do
    let s ← get
    match s.rightTuple with
    | some rightRecord =>
      if ← j.scanBlock rightRecord (s.leftBlock.drop s.leftBlockIdx) then pure () else
        j.turnRight
        advanceToNextMatch j fuel
    | none => if ← j.turnBlock then advanceToNextMatch j fuel else pure ()

def beginTuple [FloatOps] (j : NestedLoopJoinExecutor σ τ) (fuel : Nat) : M (JoinState σ τ) Unit := do
  modify fun s => {s with isEnd := false}
  onLeft j.left.beginTuple
  if ← j.loadNextLeftBlock then
    onRight j.right.beginTuple
    let s ← get
    if j.right.isEnd s.right then modify fun s => {s with isEnd := true, leftBlock := []}
    else
      let first ← onRight j.right.next
      modify fun s => {s with rightTuple := first, leftBlockIdx := 0}
      j.advanceToNextMatch fuel
  else modify fun s => {s with isEnd := true}

def nextTuple [FloatOps] (j : NestedLoopJoinExecutor σ τ) (fuel : Nat) : M (JoinState σ τ) Unit := do
  let s ← get
  if s.isEnd then pure () else
    modify fun s => {s with leftBlockIdx := s.leftBlockIdx+1}
    j.advanceToNextMatch fuel

def next (j : NestedLoopJoinExecutor σ τ) : M (JoinState σ τ) (Option Bytes) := do
  let s ← get
  if s.isEnd then pure none else
    pure (match s.rightTuple,s.leftBlock[s.leftBlockIdx]? with
      | some rightRecord,some leftRecord => some (j.makeJoinedRecord leftRecord rightRecord)
      | _,_ => none)

def executor [FloatOps] (j : NestedLoopJoinExecutor σ τ) (fuel : Nat) : AbstractExecutor (JoinState σ τ) :=
  ⟨j.beginTuple fuel,j.nextTuple fuel,j.next,JoinState.isEnd,j.len,j.cols⟩

end NestedLoopJoinExecutor
end Rmdb
