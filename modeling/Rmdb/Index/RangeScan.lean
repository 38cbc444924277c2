import Rmdb.Index.IxScan

/-! Ranges of keys: the scan between two bounds hands out exactly the entries in between. -/
namespace Rmdb.Index
open Lib IxIndexHandle

section Bounds
variable {K : Type} [IxKey K] {s : IxIndexHandle K} {levels ups : List (Level K)} {lo : Level K} {k : K}

inductive Bound (K : Type) where
  | leafBegin
  | lowerBound (k : K)
  | upperBound (k : K)
  | leafEnd

namespace Bound

def iid : Bound K → M (IxIndexHandle K) Iid
  | leafBegin => IxIndexHandle.leafBegin
  | lowerBound k => IxIndexHandle.lowerBound k
  | upperBound k => IxIndexHandle.upperBound k
  | leafEnd => IxIndexHandle.leafEnd

def admits : Bound K → K → Bool
  | leafBegin,_ => true
  | lowerBound k,x => decide (ixCompare k x ≤ 0)
  | upperBound k,x => decide (ixCompare k x < 0)
  | leafEnd,_ => false

end Bound

theorem boundPoints (wf : WellFormed s (lo :: ups)) (bound : Bound K) : ∃ iid front rest, bound.iid s = .ok iid s ∧
    Points lo iid rest ∧ flat lo = front ++ rest ∧ (∀ e ∈ front, bound.admits e.1 = false) ∧
    ∀ e ∈ rest, bound.admits e.1 = true := by
  cases bound with
  | leafBegin =>
    obtain ⟨iid,run,points⟩ := leafBeginPoints wf
    exact ⟨iid,[],flat lo,run,points,rfl,(fun _ mem => nomatch mem),fun _ _ => rfl⟩
  | leafEnd =>
    obtain ⟨iid,run,points⟩ := leafEndPoints wf
    exact ⟨iid,flat lo,[],run,points,(List.append_nil _).symm,(fun _ _ => rfl),fun _ mem => nomatch mem⟩
  | lowerBound k =>
    obtain ⟨iid,front,rest,run,points,whole,small,large⟩ := lowerBoundPoints wf k
    refine ⟨iid,front,rest,run,points,whole,fun e mem => ?_,fun e mem => decide_eq_true ((compareLe k e.1).mpr (large e mem))⟩
    exact decide_eq_false fun inside => ((compareLe k e.1).mp inside).not_gt (small e mem)
  | upperBound k =>
    obtain ⟨iid,front,rest,run,points,whole,small,large⟩ := upperBoundPoints wf k
    refine ⟨iid,front,rest,run,points,whole,fun e mem => ?_,fun e mem => decide_eq_true ((IxKey.compareLt k e.1).mpr (large e mem))⟩
    exact decide_eq_false fun inside => ((IxKey.compareLt k e.1).mp inside).not_ge (small e mem)

omit [IxKey K] in
theorem filterCut {p : K → Bool} {front rest : List (K × Rid)} (no : ∀ e ∈ front, p e.1 = false)
    (yes : ∀ e ∈ rest, p e.1 = true) : (front ++ rest).filter (fun e => p e.1) = rest := by
  rw [List.filter_append,List.filter_eq_nil_iff.mpr fun e mem => by simp [no e mem],List.filter_eq_self.mpr yes,List.nil_append]

theorem boundsSame (wf : WellFormed s (lo :: ups)) {b c : Bound K}
    (between : ∀ e ∈ flat lo, b.admits e.1 = c.admits e.1) : b.iid s = c.iid s := by
  obtain ⟨x,front,rest,run,points,whole,no,yes⟩ := boundPoints wf b
  obtain ⟨y,front',rest',run',points',whole',no',yes'⟩ := boundPoints wf c
  have same : rest = rest' := by
    rw [← filterCut no yes,← whole,← filterCut no' yes',← whole']
    exact List.filter_congr between
  subst same
  rw [run,run',pointsUnique points points']

theorem rangeEnumerates (wf : WellFormed s (lo :: ups)) {b c : Bound K} (order : ∀ k, c.admits k = true → b.admits k = true) :
    ∃ first last, b.iid s = .ok first s ∧ c.iid s = .ok last s ∧ (IxScan.scan s last).Enumerates first
      (((flat lo).filter fun e => b.admits e.1 && !c.admits e.1).map Prod.snd) := by
  obtain ⟨x,front,rest,run,points,whole,no,yes⟩ := boundPoints wf b
  obtain ⟨y,front',rest',run',points',whole',no',yes'⟩ := boundPoints wf c
  have split : ∃ part, rest = part ++ rest' := by
    have filtered : rest' = rest.filter fun e => c.admits e.1 := by
      have all := filterCut no' yes'
      rw [← whole',whole,List.filter_append,List.filter_eq_nil_iff.mpr] at all
      · exact all.symm
      · intro e mem inside
        have behind := order e.1 inside
        rw [no e mem] at behind
        cases behind
    have shorter : rest'.length ≤ rest.length := by
      rw [filtered]
      exact List.length_filter_le ..
    obtain ⟨part,same⟩ := List.suffix_of_suffix_length_le ⟨front',whole'.symm⟩ ⟨front,whole.symm⟩ shorter
    exact ⟨part,same.symm⟩
  obtain ⟨part,rfl⟩ := split
  have ahead : front' = front ++ part := by
    rw [whole,← List.append_assoc] at whole'
    exact (List.append_cancel_right whole').symm
  subst ahead
  have between : (flat lo).filter (fun e => b.admits e.1 && !c.admits e.1) = part := by
    rw [whole,← List.append_assoc,List.filter_append,List.filter_append]
    rw [List.filter_eq_nil_iff.mpr fun e mem => by simp [no e mem],List.filter_eq_self.mpr fun e mem => by
      simp [yes e (List.mem_append_left _ mem),no' e (List.mem_append_right _ mem)]]
    rw [List.filter_eq_nil_iff.mpr fun e mem => by simp [yes' e mem],List.append_nil,List.nil_append]
  rw [between]
  exact ⟨x,y,run,run',scanEnumerates wf points points'⟩

def startBound (inclusive : Bool) (k : K) : Bound K := if inclusive then .lowerBound k else .upperBound k

def endBound (inclusive : Bool) (k : K) : Bound K := if inclusive then .upperBound k else .lowerBound k

def inRange (fromIncl toIncl : Bool) (k₁ k₂ x : K) : Bool :=
  (if fromIncl then decide (ixCompare k₁ x ≤ 0) else decide (ixCompare k₁ x < 0)) &&
    if toIncl then decide (ixCompare x k₂ ≤ 0) else decide (ixCompare x k₂ < 0)

theorem rangeAdmits (fromIncl toIncl : Bool) (k₁ k₂ x : K) :
    ((startBound fromIncl k₁).admits x && !(endBound toIncl k₂).admits x) = inRange fromIncl toIncl k₁ k₂ x := by
  cases fromIncl <;> cases toIncl <;>
    simp [startBound,endBound,Bound.admits,inRange,compareLe,IxKey.compareLt,← decide_not]

theorem rangeOrder {fromIncl toIncl : Bool} {k₁ k₂ : K} (order : ixCompare k₁ k₂ ≤ 0)
    (point : ixCompare k₁ k₂ = 0 → fromIncl = true ∧ toIncl = true) (x : K) (behind : (endBound toIncl k₂).admits x = true) :
    (startBound fromIncl k₁).admits x = true := by
  rw [compareLe] at order
  rw [IxKey.compareEq] at point
  cases fromIncl <;> cases toIncl <;>
    simp only [startBound,endBound,Bound.admits,compareLe,IxKey.compareLt,decide_eq_true_eq,if_true,Bool.false_eq_true,
      if_false] at behind ⊢
  · have apart : k₁ ≠ k₂ := fun same => by cases (point same).1
    exact (lt_of_le_of_ne order apart).trans_le behind
  · exact order.trans_lt behind
  · exact order.trans behind
  · exact (order.trans_lt behind).le

end Bounds

section Sessions
variable {cols : List IxCol}

theorem rangeExact {filename : String} {file : IxFile (IxBytes cols)} {ops : List (IxOp (IxBytes cols))}
    {s : IxIndexHandle (IxBytes cols)} (created : IxManager.createIndex filename cols = .ok file)
    (reached : session file ops = .ok s) : ∃ contents, Ordered contents ∧
      (∀ k r, (k,r) ∈ contents ↔ (ops.foldl IxOp.onMap fun _ => none) k = some r) ∧
      (∀ k₁ k₂ fromIncl toIncl, ixCompare k₁ k₂ ≤ 0 → (ixCompare k₁ k₂ = 0 → fromIncl = true ∧ toIncl = true) →
        ∃ first last, (startBound fromIncl k₁).iid s = .ok first s ∧ (endBound toIncl k₂).iid s = .ok last s ∧
          (IxScan.scan s last).Enumerates first ((contents.filter fun e => inRange fromIncl toIncl k₁ k₂ e.1).map Prod.snd)) ∧
      ∀ b c : Bound (IxBytes cols), (∀ e ∈ contents, b.admits e.1 = c.admits e.1) → b.iid s = c.iid s := by
  obtain ⟨⟨levels,wf,same⟩,_⟩ := sessionStores created reached
  cases levels with
  | nil => exact absurd wf.tree.links.first (by simp)
  | cons lo ups =>
    refine ⟨flat lo,wf.sorted,fun k r => ?_,?_,fun b c between => boundsSame wf between⟩
    · rw [show (ops.foldl IxOp.onMap fun _ => none) = mapAfter ops from rfl,← same]
      exact (lookupMem wf.sorted).symm
    · intro k₁ k₂ fromIncl toIncl order point
      have range := rangeEnumerates wf (rangeOrder order point)
      simp only [rangeAdmits] at range
      exact range

theorem noteThere : mapAfter (inserts note 0 30) (note 10) = some ⟨10,0⟩ := by decide +kernel

theorem notesInOrder : ixCompare (note 5) (note 20) < 0 := by decide +kernel

theorem notesRange : ∃ file s, IxManager.createIndex "notes" noteKey = .ok file ∧
    session file (inserts note 0 30) = .ok s ∧
    ∃ (entries : List (IxBytes noteKey × Rid)) (first last : Iid), (note 10,⟨10,0⟩) ∈ entries ∧
      upperBound (note 5) s = .ok first s ∧ upperBound (note 20) s = .ok last s ∧
      (IxScan.scan s last).Enumerates first
        ((entries.filter fun e => inRange false true (note 5) (note 20) e.1).map Prod.snd) := by
  have created : IxManager.createIndex "notes" noteKey = .ok (IxManager.newFile (IxBytes noteKey) 7) := rfl
  have neverReopened : ReopensSmall (IxManager.newFile (IxBytes noteKey) 7) (inserts note 0 30) :=
    fun before after s split _ => absurd (split ▸ List.mem_append_right before List.mem_cons_self) insertsStay
  obtain ⟨s,reached,_⟩ := sessionRepresents created neverReopened
  obtain ⟨entries,_,present,ranges,_⟩ := rangeExact created reached
  have order := notesInOrder
  obtain ⟨first,last,lower,upper,scanned⟩ := ranges (note 5) (note 20) false true order.le fun same => absurd same order.ne
  exact ⟨_,s,created,reached,entries,first,last,(present ..).mpr noteThere,lower,upper,scanned⟩

end Sessions

end Rmdb.Index
