import Rmdb.Defs

/-! `RecScan`, the interface of the two record iterators, and the loops the scan executors run
over it: `beginTuple` and `nextTuple` move on to the next record that passes a test. -/
namespace Rmdb

structure RecScan (C : Type) where
  isEnd : C → Bool
  rid : C → Except Fault Rid
  next : C → Except Fault C

namespace RecScan
variable {C : Type}

def advanceToMatch (scan : RecScan C) (test : Rid → Except Fault Bool) (endRid : Rid) : Nat → C → Except Fault (C × Rid)
  | 0,_ => .error .fuel
  | fuel+1,c =>
    if scan.isEnd c then .ok (c,endRid) else do
      let candidate ← scan.rid c
      if ← test candidate then .ok (c,candidate) else
        let d ← scan.next c
        advanceToMatch scan test endRid fuel d

def nextTuple (scan : RecScan C) (test : Rid → Except Fault Bool) (endRid : Rid) (fuel : Nat) (c : C) :
    Except Fault (C × Rid) :=
  if scan.isEnd c then .ok (c,endRid) else do
    let d ← scan.next c
    advanceToMatch scan test endRid fuel d

def visit (scan : RecScan C) (test : Rid → Except Fault Bool) (endRid : Rid) (steps : Nat) :
    Nat → Except Fault (C × Rid) → List Rid × Option Fault
  | 0,_ => ([],some .fuel)
  | _+1,.error e => ([],some e)
  | fuel+1,.ok (c,rid) =>
    if scan.isEnd c then ([],none) else
      let rest := visit scan test endRid steps fuel (nextTuple scan test endRid steps c)
      (rid :: rest.1,rest.2)

/- From `c` on the iterator hands out the given records and then ends. -/
def Enumerates (scan : RecScan C) : C → List Rid → Prop
  | c,[] => scan.isEnd c = true
  | c,r :: rest => scan.isEnd c = false ∧ scan.rid c = .ok r ∧ ∃ d, scan.next c = .ok d ∧ Enumerates scan d rest

def sift (test : Rid → Except Fault Bool) : List Rid → List Rid × Option Fault
  | [] => ([],none)
  | r :: rest => match test r with
    | .error e => ([],some e)
    | .ok true => (r :: (sift test rest).1,(sift test rest).2)
    | .ok false => sift test rest

variable {scan : RecScan C} {test : Rid → Except Fault Bool} {endRid : Rid} {c : C} {rids : List Rid}

theorem visitSift {steps fuel one : Nat} (enumerates : scan.Enumerates c rids) (enough : rids.length < fuel)
    (few : rids.length < steps) (short : rids.length < one) :
    scan.visit test endRid steps fuel (scan.advanceToMatch test endRid one c) = sift test rids := by
  induction rids generalizing c fuel one with
  | nil =>
    obtain ⟨one,rfl⟩ := Nat.exists_eq_succ_of_ne_zero (Nat.ne_zero_of_lt short)
    obtain ⟨fuel,rfl⟩ := Nat.exists_eq_succ_of_ne_zero (Nat.ne_zero_of_lt enough)
    have ended : scan.isEnd c = true := enumerates
    simp [advanceToMatch,ended,visit,sift]
  | cons r rest ih =>
    rw [List.length_cons] at enough few short
    obtain ⟨one,rfl⟩ := Nat.exists_eq_succ_of_ne_zero (Nat.ne_zero_of_lt short)
    obtain ⟨going,here,d,step,later⟩ := enumerates
    rw [advanceToMatch,going,here]
    simp only [Bool.false_eq_true,if_false,bind,Except.bind]
    cases outcome : test r with
    | error e =>
      obtain ⟨fuel,rfl⟩ := Nat.exists_eq_succ_of_ne_zero (Nat.ne_zero_of_lt enough)
      simp [visit,sift,outcome]
    | ok passes => cases passes with
      | false =>
        simp only [Bool.false_eq_true,if_false,step,sift,outcome]
        exact ih later (by omega) (by omega) (by omega)
      | true =>
        obtain ⟨fuel,rfl⟩ := Nat.exists_eq_succ_of_ne_zero (Nat.ne_zero_of_lt enough)
        have rest := @ih d fuel steps later (by omega) (by omega) (by omega)
        simp only [if_true,visit,going,Bool.false_eq_true,if_false,sift,outcome,nextTuple,step,bind,Except.bind]
        rw [rest]

theorem siftFilter {passes : Rid → Bool} (total : ∀ r ∈ rids, test r = .ok (passes r)) :
    sift test rids = (rids.filter passes,none) := by
  induction rids with
  | nil => rfl
  | cons r rest ih =>
    have later := ih fun r mem => total r (List.mem_cons_of_mem _ mem)
    rw [sift,total r List.mem_cons_self,later]
    cases passed : passes r <;> simp [passed]

theorem siftNone {P : Fault → Prop} (never : ∀ r ∈ rids, test r = .ok false ∨ ∃ e, test r = .error e ∧ P e) :
    (sift test rids).1 = [] ∧ ∀ e, (sift test rids).2 = some e → P e := by
  induction rids with
  | nil => simp [sift]
  | cons r rest ih =>
    have later := ih fun r mem => never r (List.mem_cons_of_mem _ mem)
    rcases never r List.mem_cons_self with failed | ⟨e,failed,known⟩
    · rw [sift,failed]
      exact later
    · rw [sift,failed]
      refine ⟨rfl,?_⟩
      intro e' same
      exact Option.some.inj same ▸ known

end RecScan
end Rmdb
