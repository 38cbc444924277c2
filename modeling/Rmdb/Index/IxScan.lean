import Rmdb.Index.OrderedMap
import Rmdb.Record.RecScan

/-! `lower_bound`, `upper_bound`, `leaf_begin`, `leaf_end` and `IxScan`: positions in the list
of leaves. A position stands in front of what is still to be read. -/
namespace Rmdb.Index
open Lib IxIndexHandle
variable {K : Type} [IxKey K]

structure Iid where
  pageNo : Int
  slotNo : Nat
  deriving DecidableEq, Repr

namespace IxIndexHandle

def getRid (iid : Iid) : M (IxIndexHandle K) Rid := do
  let node ← fetchNode iid.pageNo
  match node.pairs[iid.slotNo]? with
  | some e => pure e.2
  | none => raise .indexEntryNotFound

def leafEnd : M (IxIndexHandle K) Iid := do
  let s ← get
  let node ← fetchNode s.fileHdr.lastLeaf
  pure ⟨s.fileHdr.lastLeaf,node.size⟩

def leafBegin : M (IxIndexHandle K) Iid := do
  let s ← get
  pure ⟨s.fileHdr.firstLeaf,0⟩

def slotIid (leaf : Int) (slotNo : Nat) : M (IxIndexHandle K) Iid := do
  let s ← get
  let node ← fetchNode leaf
  if slotNo < node.size then pure ⟨leaf,slotNo⟩
  else if leaf ≠ s.fileHdr.lastLeaf then pure ⟨node.nextLeaf,0⟩
  else leafEnd

def lowerBound (key : K) : M (IxIndexHandle K) Iid := do
  let leaf ← findLeafPage key false
  let node ← fetchNode leaf
  slotIid leaf (node.lowerBound key)

def upperBound (key : K) : M (IxIndexHandle K) Iid := do
  let leaf ← findLeafPage key false
  let node ← fetchNode leaf
  let slotNo := node.lowerBound key
  let equal : Bool := match node.pairs[slotNo]? with
    | some e => ixCompare e.1 key = 0
    | none => false
  slotIid leaf (if equal then slotNo+1 else slotNo)

end IxIndexHandle

namespace IxScan

def next (iid last : Iid) : M (IxIndexHandle K) Iid := do
  assert (iid ≠ last) "!is_end()"
  let s ← get
  let node ← fetchNode iid.pageNo
  assert (node.isLeaf = true) "node->is_leaf_page()"
  assert (iid.slotNo < node.size) "iid_.slot_no < node->get_size()"
  if iid.pageNo ≠ s.fileHdr.lastLeaf ∧ iid.slotNo+1 = node.size then pure ⟨node.nextLeaf,0⟩
  else pure ⟨iid.pageNo,iid.slotNo+1⟩

def scan (s : IxIndexHandle K) (last : Iid) : RecScan Iid where
  isEnd iid := iid = last
  rid iid := eval (getRid iid) s
  next iid := eval (next iid last) s

end IxScan

section Positions
variable {s : IxIndexHandle K} {levels ups : List (Level K)} {lo A B : Level K} {n : Node K} {iid : Iid}
  {rest : List (K × Rid)} {k : K}

def Points (lo : Level K) (iid : Iid) (rest : List (K × Rid)) : Prop :=
  ∃ A n B a b, lo = A ++ n :: B ∧ iid = ⟨n.page,a.length⟩ ∧ n.pairs = a ++ b ∧ (b = [] → B = []) ∧ rest = b ++ flat B

omit [IxKey K] in
theorem pointsApart {C : Level K} {a a' b : List (K × Rid)} (pairs : n.pairs = a ++ b) (final : b = [] → B = [])
    (reads : flat A ++ a = flat (A ++ n :: C) ++ a') : B = [] := by
  simp only [flatAppend,flatCons,pairs,List.append_assoc,List.append_cancel_left_eq] at reads
  exact final (List.append_eq_nil_iff.mp (List.self_eq_append_right.mp reads)).1

omit [IxKey K] in
theorem pointsUnique {x y : Iid} (one : Points lo x rest) (two : Points lo y rest) : x = y := by
  obtain ⟨A,n,B,a,b,rfl,rfl,pairs,final,rfl⟩ := one
  obtain ⟨A',n',B',a',b',same,rfl,pairs',final',tail⟩ := two
  have reads : flat A ++ a = flat A' ++ a' := by
    have whole := congrArg flat same
    simp only [flatAppend,flatCons,pairs,pairs',List.append_assoc,← tail] at whole
    rw [← List.append_assoc,← List.append_assoc (flat A')] at whole
    exact List.append_cancel_right whole
  rcases List.append_eq_append_iff.mp same with ⟨C,front,back⟩ | ⟨C,front,back⟩
  · cases C with
    | nil =>
      obtain ⟨rfl,rfl⟩ := List.cons.inj back
      rw [front,List.append_nil] at reads
      rw [List.append_cancel_left reads]
    | cons m C =>
      obtain ⟨rfl,rfl⟩ := List.cons.inj back
      have empty := pointsApart pairs final (front ▸ reads)
      simp at empty
  · cases C with
    | nil =>
      obtain ⟨rfl,rfl⟩ := List.cons.inj back
      rw [front,List.append_nil] at reads
      rw [List.append_cancel_left reads]
    | cons m C =>
      obtain ⟨rfl,rfl⟩ := List.cons.inj back
      have empty := pointsApart pairs' final' (front ▸ reads.symm)
      simp at empty

omit [IxKey K] in
theorem pointsRest {rest' : List (K × Rid)} (once : (lo.map Node.page).Nodup) (one : Points lo iid rest)
    (two : Points lo iid rest') : rest = rest' := by
  obtain ⟨A,n,B,a,b,rfl,rfl,pairs,final,rfl⟩ := one
  obtain ⟨A',n',B',a',b',same,here,pairs',final',rfl⟩ := two
  obtain ⟨page,slot⟩ := Iid.mk.inj here
  have equal : n = n' := List.inj_on_of_nodup_map once (by simp) (by simp [same]) page
  subst equal
  have nodup := once.of_map
  obtain ⟨rfl,_,rfl⟩ := (List.append_cons_inj_of_notMem (by
      intro mem
      exact (List.nodup_append.mp nodup).2.2 n mem n List.mem_cons_self rfl)
    (List.nodup_cons.mp (List.nodup_append.mp nodup).2.1).1).mp same
  rw [pairs] at pairs'
  rw [(List.append_inj pairs' slot).2]

omit [IxKey K] in
theorem leavesFilled {order : Nat} (big : 2 < order) (sized : Sized order (lo :: ups)) :
    (∀ m ∈ lo, m.pairs ≠ []) ∨ ∃ r, lo = [r] := by
  cases ups with
  | nil =>
    obtain ⟨r,rfl,_⟩ := sized
    exact .inr ⟨r,rfl⟩
  | cons up ups => exact .inl (sizedFilled big sized (.inl (by simp)))

theorem leafAt (wf : WellFormed s ((A ++ n :: B) :: ups)) : ∃ node, s.pages n.page = some node ∧
    node.pairs = n.pairs ∧ node.isLeaf = true ∧ (∀ m rest, B = m :: rest → node.nextLeaf = m.page) ∧
    (n.page = s.fileHdr.lastLeaf ↔ B = []) := by
  have mem : n ∈ ((A ++ n :: B) :: ups).flatten := by simp
  obtain ⟨node,here,pairs⟩ := fieldSome (wf.tree.nodes.pairs n mem)
  have leaf := wf.tree.nodes.leaf n mem
  rw [field,here,wf.tree.leaves n (by simp)] at leaf
  have links := wf.tree.links
  simp only [List.headD_cons,List.map_append,List.map_cons] at links
  obtain ⟨_,_,_,next,_⟩ := links.around
  refine ⟨node,here,pairs,Option.some.inj leaf,?_,?_⟩
  · rintro m rest rfl
    have named := next.1
    rw [field,here] at named
    exact Option.some.inj named
  · have last := links.last
    constructor
    · intro same
      rcases List.eq_nil_or_concat B with rfl | ⟨C,m,rfl⟩
      · rfl
      have once := wf.tree.nodes.once
      have shape : A.map Node.page ++ n.page :: (C.concat m).map Node.page =
          (A.map Node.page ++ n.page :: C.map Node.page) ++ [m.page] := by simp
      rw [shape,List.getLast?_concat] at last
      have final : m.page = s.fileHdr.lastLeaf := Option.some.inj last
      have equal := @Nodes.unique _ _ _ n wf.tree.nodes m mem (by simp) (same.trans final.symm)
      subst equal
      simp [List.nodup_append] at once
    · rintro rfl
      simpa using last

theorem pointsNext {m : Node K} (wf : WellFormed s ((A ++ n :: m :: B) :: ups)) :
    Points (A ++ n :: m :: B) ⟨m.page,0⟩ (flat (m :: B)) := by
  refine ⟨A ++ [n],m,B,[],m.pairs,by simp,rfl,rfl,?_,by simp⟩
  rcases leavesFilled wf.order wf.sized with filled | ⟨r,single⟩
  · exact fun none => absurd none (filled m (by simp))
  · simp [List.append_eq_cons_iff] at single

theorem nextRun {last : Iid} {e : K × Rid} (wf : WellFormed s (lo :: ups)) (here : Points lo iid (e :: rest))
    (going : iid ≠ last) : eval (getRid iid) s = .ok e.2 ∧ ∃ iid', eval (IxScan.next iid last) s = .ok iid' ∧
      Points lo iid' rest := by
  obtain ⟨A,n,B,a,b,rfl,rfl,pairs,final,reads⟩ := here
  cases b with
  | nil =>
    rw [final rfl] at reads
    cases reads
  | cons x b =>
    obtain ⟨rfl,rfl⟩ := List.cons.inj reads
    obtain ⟨node,at_,same,leaf,next,ends⟩ := leafAt wf
    have slot : node.pairs[a.length]? = some e := by simp [same,pairs]
    have size : node.size = a.length+1+b.length := by
      simp only [IxPage.size,same,pairs,List.length_append,List.length_cons]
      omega
    refine ⟨?_,?_⟩
    · refine evalOk (t := s) ?_
      rw [getRid,bindEq (fetchNodeRun at_),slot]
      rfl
    · have run : IxScan.next ⟨n.page,a.length⟩ last s = (if n.page ≠ s.fileHdr.lastLeaf ∧ a.length+1 = node.size then
          .ok ⟨node.nextLeaf,0⟩ s else .ok ⟨n.page,a.length+1⟩ s) := by
        rw [IxScan.next,bindEq (assertRun going s)]
        simp only [getBind]
        rw [bindEq (fetchNodeRun at_),bindEq (assertRun leaf s),bindEq (assertRun (by omega) s)]
        split <;> rfl
      by_cases over_ : n.page ≠ s.fileHdr.lastLeaf ∧ a.length+1 = node.size
      · rw [if_pos over_] at run
        refine ⟨_,evalOk run,?_⟩
        have empty : b = [] := List.length_eq_zero_iff.mp (by omega)
        subst empty
        cases B with
        | nil => exact absurd (ends.mpr rfl) over_.1
        | cons m B =>
          rw [next m B rfl]
          exact pointsNext wf
      · rw [if_neg over_] at run
        refine ⟨_,evalOk run,A,n,B,a ++ [e],b,rfl,by simp,by simp [pairs],?_,rfl⟩
        rintro rfl
        rw [List.length_nil] at size
        by_contra more
        exact over_ ⟨fun same => more (ends.mp same),by omega⟩

theorem slotIidRun {a b : List (K × Rid)} (wf : WellFormed s ((A ++ n :: B) :: ups)) (pairs : n.pairs = a ++ b) :
    ∃ iid, slotIid n.page a.length s = .ok iid s ∧ Points (A ++ n :: B) iid (b ++ flat B) := by
  obtain ⟨node,here,same,leaf,next,ends⟩ := leafAt wf
  have size : node.size = a.length+b.length := by simp [IxPage.size,same,pairs]
  have start : slotIid n.page a.length s = (if a.length < node.size then pure ⟨n.page,a.length⟩
      else if n.page ≠ s.fileHdr.lastLeaf then pure ⟨node.nextLeaf,0⟩ else leafEnd : M (IxIndexHandle K) Iid) s := by
    simp only [slotIid,getBind]
    rw [bindEq (fetchNodeRun here)]
  cases b with
  | cons x b =>
    rw [if_pos (by rw [size,List.length_cons]; omega)] at start
    exact ⟨_,start,A,n,B,a,x :: b,rfl,rfl,pairs,by simp,rfl⟩
  | nil =>
    rw [if_neg (by rw [size,List.length_nil]; omega)] at start
    cases B with
    | nil =>
      have last := ends.mpr rfl
      rw [if_neg (by simp [last]),leafEnd] at start
      simp only [getBind,← last] at start
      rw [bindEq (fetchNodeRun here),size] at start
      exact ⟨_,start,A,n,[],a,[],rfl,rfl,pairs,fun _ => rfl,rfl⟩
    | cons m B =>
      rw [if_pos (fun same => by cases ends.mp same),next m B rfl] at start
      exact ⟨_,start,pointsNext wf⟩

theorem lowerBoundPoints (wf : WellFormed s (lo :: ups)) (k : K) : ∃ iid front rest, lowerBound k s = .ok iid s ∧
    Points lo iid rest ∧ flat lo = front ++ rest ∧ (∀ e ∈ front, e.1 < k) ∧ ∀ e ∈ rest, k ≤ e.1 := by
  obtain ⟨A,n,B,_,same,covers,run⟩ := findLeafTree wf k
  obtain ⟨rfl,rfl⟩ := List.cons.inj same
  obtain ⟨before,after⟩ := coversFlat wf.sorted covers
  obtain ⟨node,here,pairs,_⟩ := leafAt wf
  obtain ⟨a,b,split,small,large,bound⟩ := @lowerBoundSpec _ _ node (by rw [pairs]; exact nodeOrdered wf.sorted) k
  rw [pairs] at split
  obtain ⟨iid,found,points⟩ := slotIidRun wf split
  refine ⟨iid,flat A ++ a,b ++ flat B,?_,points,by simp [split],?_,?_⟩
  · rw [lowerBound,bindEq run,bindEq (fetchNodeRun here),bound]
    exact found
  · intro e mem
    rcases List.mem_append.mp mem with mem | mem
    · exact before e mem
    · exact small e mem
  · intro e mem
    rcases List.mem_append.mp mem with mem | mem
    · exact large e mem
    · exact (after e mem).le

theorem upperBoundPoints (wf : WellFormed s (lo :: ups)) (k : K) : ∃ iid front rest, upperBound k s = .ok iid s ∧
    Points lo iid rest ∧ flat lo = front ++ rest ∧ (∀ e ∈ front, e.1 ≤ k) ∧ ∀ e ∈ rest, k < e.1 := by
  obtain ⟨A,n,B,_,same,covers,run⟩ := findLeafTree wf k
  obtain ⟨rfl,rfl⟩ := List.cons.inj same
  obtain ⟨before,after⟩ := coversFlat wf.sorted covers
  obtain ⟨node,here,pairs,_⟩ := leafAt wf
  have sorted : Ordered node.pairs := by rw [pairs]; exact nodeOrdered wf.sorted
  obtain ⟨a,b,split,small,large,bound⟩ := lowerBoundSpec sorted k
  have passed : ∃ a b, node.pairs = a ++ b ∧ (∀ e ∈ a, e.1 ≤ k) ∧ (∀ e ∈ b, k < e.1) ∧
      upperBound k s = slotIid n.page a.length s := by
    have start : upperBound k s = (slotIid n.page (if (match node.pairs[a.length]? with
        | some e => decide (ixCompare e.1 k = 0)
        | none => false) then a.length+1 else a.length) : M (IxIndexHandle K) Iid) s := by
      rw [upperBound,bindEq run,bindEq (fetchNodeRun here),bound]
    cases b with
    | nil =>
      refine ⟨a,[],split,fun e mem => (small e mem).le,by simp,?_⟩
      rw [start]
      simp [split]
    | cons x b =>
      have later : ∀ e ∈ b, x.1 < e.1 := by
        rw [split] at sorted
        exact (orderedMid.mp sorted).2.2
      by_cases equal : x.1 = k
      · refine ⟨a ++ [x],b,by simp [split],?_,?_,?_⟩
        · intro e mem
          rcases List.mem_append.mp mem with mem | mem
          · exact (small e mem).le
          · rw [List.mem_singleton.mp mem,equal]
        · intro e mem
          exact equal ▸ later e mem
        · rw [start]
          simp [split,IxKey.compareEq,equal]
      · have more : k < x.1 := lt_of_le_of_ne (large x List.mem_cons_self) (Ne.symm equal)
        refine ⟨a,x :: b,split,fun e mem => (small e mem).le,?_,?_⟩
        · intro e mem
          rcases List.mem_cons.mp mem with rfl | mem
          · exact more
          · exact more.trans (later e mem)
        · rw [start]
          simp [split,IxKey.compareEq,equal]
  obtain ⟨a,b,split,small,large,bound⟩ := passed
  rw [pairs] at split
  obtain ⟨iid,found,points⟩ := slotIidRun wf split
  refine ⟨iid,flat A ++ a,b ++ flat B,bound.trans found,points,by simp [split],?_,?_⟩
  · intro e mem
    rcases List.mem_append.mp mem with mem | mem
    · exact (before e mem).le
    · exact small e mem
  · intro e mem
    rcases List.mem_append.mp mem with mem | mem
    · exact large e mem
    · exact after e mem

theorem leafBeginPoints (wf : WellFormed s (lo :: ups)) : ∃ iid, leafBegin s = .ok iid s ∧ Points lo iid (flat lo) := by
  have first := wf.tree.links.first
  cases lo with
  | nil => cases first
  | cons n B =>
    have page : n.page = s.fileHdr.firstLeaf := Option.some.inj first
    refine ⟨_,rfl,[],n,B,[],n.pairs,rfl,by rw [← page]; rfl,rfl,?_,by simp⟩
    rcases leavesFilled wf.order wf.sized with filled | ⟨r,single⟩
    · exact fun none => absurd none (filled n (by simp))
    · exact fun _ => (List.cons.inj single).2

theorem leafEndPoints (wf : WellFormed s (lo :: ups)) : ∃ iid, leafEnd s = .ok iid s ∧ Points lo iid [] := by
  have first := wf.tree.links.first
  rcases List.eq_nil_or_concat lo with rfl | ⟨A,n,rfl⟩
  · cases first
  · rw [List.concat_eq_append] at wf ⊢
    obtain ⟨node,here,pairs,_,_,ends⟩ := leafAt wf
    have last := ends.mpr rfl
    refine ⟨⟨n.page,n.pairs.length⟩,?_,A,n,[],n.pairs,[],rfl,rfl,by simp,fun _ => rfl,rfl⟩
    simp only [leafEnd,getBind,← last]
    rw [bindEq (fetchNodeRun here),IxPage.size,pairs]
    rfl

theorem scanEnumerates {last : Iid} {part tail : List (K × Rid)} (wf : WellFormed s (lo :: ups))
    (start : Points lo iid (part ++ tail)) (stop : Points lo last tail) :
    (IxScan.scan s last).Enumerates iid (part.map Prod.snd) := by
  induction part generalizing iid with
  | nil => exact decide_eq_true (pointsUnique start stop)
  | cons e part ih =>
    have once : (lo.map Node.page).Nodup := by
      have all := wf.tree.nodes.once
      rw [List.flatten_cons,List.map_append] at all
      exact (List.nodup_append.mp all).1
    have going : iid ≠ last := by
      rintro rfl
      have length := congrArg List.length (pointsRest once start stop)
      simp only [List.length_append,List.length_cons] at length
      omega
    obtain ⟨read,iid',step,points⟩ := nextRun wf start going
    exact ⟨decide_eq_false going,read,iid',step,ih points⟩

end Positions
end Rmdb.Index
