import Rmdb.Defs

/-! `LRUReplacer`: the list of unpinned frames, most recently unpinned first, and
the hash from a frame to the list node that holds it. A `std::list` iterator is
the identity of a node, so nodes carry a number that is never handed out twice. -/
namespace Rmdb.Replacer

abbrev FrameId := Nat

structure ListNode where
  node : Nat
  frame : FrameId
  deriving DecidableEq, Repr

structure LRUReplacer where
  lruList : List ListNode
  lruHash : AList (fun _ : FrameId => Nat)
  nextNode : Nat
  maxSize : Nat

namespace LRUReplacer

def init (numPages : Nat) : LRUReplacer := ⟨[],∅,0,numPages⟩

def frames (r : LRUReplacer) : List FrameId := r.lruList.map ListNode.frame

def victim (r : LRUReplacer) : Option FrameId × LRUReplacer :=
  match r.lruList.getLast? with
  | none => (none,r)
  | some last =>
    (some last.frame,{r with lruHash := r.lruHash.erase last.frame, lruList := r.lruList.dropLast})

def pin (r : LRUReplacer) (frame : FrameId) : LRUReplacer :=
  match r.lruHash.lookup frame with
  | none => r
  | some iter =>
    {r with lruList := r.lruList.filter (fun n => n.node ≠ iter), lruHash := r.lruHash.erase frame}

def unpin (r : LRUReplacer) (frame : FrameId) : LRUReplacer :=
  if (r.lruHash.lookup frame).isSome ∨ r.maxSize ≤ r.lruList.length then r else
    {r with
      lruList := ⟨r.nextNode,frame⟩ :: r.lruList
      lruHash := r.lruHash.insert frame r.nextNode
      nextNode := r.nextNode+1}

structure Valid (r : LRUReplacer) : Prop where
  framesOnce : r.frames.Nodup
  nodesOnce : (r.lruList.map ListNode.node).Nodup
  nodesOld : ∀ n ∈ r.lruList, n.node < r.nextNode
  hashed : ∀ frame node, r.lruHash.lookup frame = some node ↔ ⟨node,frame⟩ ∈ r.lruList

theorem initValid (numPages : Nat) : (init numPages).Valid := by
  refine ⟨by simp [init,frames],by simp [init],by simp [init],?_⟩
  intro frame node
  simp [init]

theorem hashedSome {r : LRUReplacer} (valid : r.Valid) {frame : FrameId} :
    (r.lruHash.lookup frame).isSome ↔ frame ∈ r.frames := by
  rw [Option.isSome_iff_exists]
  constructor
  · rintro ⟨node,found⟩
    exact List.mem_map.mpr ⟨_,(valid.hashed frame node).mp found,rfl⟩
  · intro mem
    obtain ⟨n,inside,rfl⟩ := List.mem_map.mp mem
    exact ⟨n.node,(valid.hashed n.frame n.node).mpr inside⟩

theorem nodeOfFrame {r : LRUReplacer} (valid : r.Valid) {a b : ListNode}
    (left : a ∈ r.lruList) (right : b ∈ r.lruList) (same : a.frame = b.frame) : a = b :=
  List.inj_on_of_nodup_map valid.framesOnce left right same

theorem frameOfNode {r : LRUReplacer} (valid : r.Valid) {a b : ListNode}
    (left : a ∈ r.lruList) (right : b ∈ r.lruList) (same : a.node = b.node) : a = b :=
  List.inj_on_of_nodup_map valid.nodesOnce left right same

theorem victimNone (r : LRUReplacer) : (victim r).1 = none ↔ r.frames = [] := by
  unfold victim
  cases last : r.lruList.getLast? with
  | none => simp [List.getLast?_eq_none_iff.mp last,frames]
  | some n =>
    have mem := List.mem_of_getLast? last
    simp only [reduceCtorEq,frames,List.map_eq_nil_iff,false_iff]
    exact List.ne_nil_of_mem mem

theorem victimState {r : LRUReplacer} (none : (victim r).1 = none) : (victim r).2 = r := by
  unfold victim at none ⊢
  cases last : r.lruList.getLast? <;> simp_all

theorem victimSome {r : LRUReplacer} (valid : r.Valid) {frame : FrameId}
    (found : (victim r).1 = some frame) :
    r.frames = (victim r).2.frames ++ [frame] ∧ (victim r).2.Valid ∧
      (victim r).2.maxSize = r.maxSize := by
  unfold victim at found ⊢
  cases last : r.lruList.getLast? with
  | none => simp [last] at found
  | some n =>
    simp only [last,Option.some.injEq] at found
    subst found
    have split : r.lruList.dropLast ++ [n] = r.lruList := List.dropLast_append_getLast? n last
    have framesSplit : r.frames = r.lruList.dropLast.map ListNode.frame ++ [n.frame] := by
      rw [frames,← split]; simp
    have once := valid.framesOnce
    rw [framesSplit,List.nodup_append] at once
    refine ⟨framesSplit,⟨once.1,?_,?_,?_⟩,rfl⟩
    · exact valid.nodesOnce.sublist (List.Sublist.map _ (List.dropLast_sublist _))
    · intro m mem
      exact valid.nodesOld m (List.dropLast_subset _ mem)
    · intro frame node
      by_cases same : frame = n.frame
      · subst same
        simp only [AList.lookup_erase,reduceCtorEq,false_iff]
        intro mem
        exact once.2.2 n.frame (List.mem_map.mpr ⟨_,mem,rfl⟩) n.frame (by simp) rfl
      · rw [AList.lookup_erase_ne same,valid.hashed]
        constructor
        · intro mem
          rw [← split,List.mem_append,List.mem_singleton] at mem
          rcases mem with inside | rfl
          · exact inside
          · exact absurd rfl same
        · exact fun mem => List.dropLast_subset _ mem

theorem pinFrames {r : LRUReplacer} (valid : r.Valid) (frame : FrameId) :
    (r.pin frame).frames = r.frames.filter (· ≠ frame) ∧ (r.pin frame).Valid ∧
      (r.pin frame).maxSize = r.maxSize := by
  unfold pin
  cases found : r.lruHash.lookup frame with
  | none =>
    refine ⟨?_,valid,rfl⟩
    have absent : frame ∉ r.frames := by
      rw [← hashedSome valid,found]; simp
    refine (List.filter_eq_self.mpr fun other mem => ?_).symm
    simp only [ne_eq,decide_not,Bool.not_eq_eq_eq_not,Bool.not_true,decide_eq_false_iff_not]
    rintro rfl
    exact absent mem
  | some iter =>
    have inside := (valid.hashed frame iter).mp found
    -- inside the list the iterator and the frame name the same node
    have sameNode : ∀ n ∈ r.lruList, n.node = iter ↔ n.frame = frame := by
      intro n mem
      constructor
      · intro h; exact congrArg ListNode.frame (frameOfNode valid mem inside h)
      · intro h; exact congrArg ListNode.node (nodeOfFrame valid mem inside h)
    have framesEq : (r.lruList.filter (fun n => n.node ≠ iter)).map ListNode.frame =
        r.frames.filter (· ≠ frame) := by
      rw [frames,List.filter_map]
      congr 1
      apply List.filter_congr
      intro n mem
      simp only [Function.comp_apply,ne_eq,sameNode n mem]
    refine ⟨framesEq,⟨?_,?_,?_,?_⟩,rfl⟩
    · rw [frames,framesEq]; exact valid.framesOnce.filter _
    · exact valid.nodesOnce.sublist (List.Sublist.map _ List.filter_sublist)
    · intro n mem
      exact valid.nodesOld n (List.mem_filter.mp mem).1
    · intro other node
      by_cases same : other = frame
      · subst same
        simp only [AList.lookup_erase,reduceCtorEq,false_iff,List.mem_filter,not_and]
        intro mem
        have gone : node = iter := (sameNode _ mem).mpr rfl
        simp [gone]
      · rw [AList.lookup_erase_ne same,valid.hashed,List.mem_filter]
        constructor
        · intro mem
          refine ⟨mem,?_⟩
          have apart := (sameNode _ mem).not.mpr same
          simpa using apart
        · exact fun h => h.1

theorem unpinFrames {r : LRUReplacer} (valid : r.Valid) {frame : FrameId}
    (absent : frame ∉ r.frames) (room : r.frames.length < r.maxSize) :
    (r.unpin frame).frames = frame :: r.frames ∧ (r.unpin frame).Valid ∧
      (r.unpin frame).maxSize = r.maxSize := by
  have unhashed : ¬ (r.lruHash.lookup frame).isSome := by rwa [hashedSome valid]
  have small : ¬ r.maxSize ≤ r.lruList.length := by
    simpa [frames] using room
  unfold unpin
  rw [if_neg (by simp only [not_or]; exact ⟨unhashed,small⟩)]
  refine ⟨rfl,⟨?_,?_,?_,?_⟩,rfl⟩
  · simpa [frames] using ⟨by simpa [frames] using absent,valid.framesOnce⟩
  · simp only [List.map_cons,List.nodup_cons]
    refine ⟨fun mem => ?_,valid.nodesOnce⟩
    obtain ⟨n,inside,same⟩ := List.mem_map.mp mem
    exact absurd (valid.nodesOld n inside) (by omega)
  · intro n mem
    rcases List.mem_cons.mp mem with rfl | old
    · exact Nat.lt_succ_self _
    · exact Nat.lt_succ_of_lt (valid.nodesOld n old)
  · intro other node
    by_cases same : other = frame
    · subst same
      simp only [AList.lookup_insert,Option.some.injEq,List.mem_cons,ListNode.mk.injEq,and_true]
      constructor
      · intro h; exact .inl h.symm
      · rintro (h | mem)
        · exact h.symm
        · exact absurd (List.mem_map.mpr ⟨_,mem,rfl⟩) absent
    · rw [AList.lookup_insert_ne same,valid.hashed]
      simp [same]

end LRUReplacer
end Rmdb.Replacer
