import Rmdb.Index.IxScan
import Rmdb.Index.RankKey

/-! An open index as the executors see it: keys are byte strings, cut to the columns of the
index, and the tree holds their ranks. -/
namespace Rmdb.Index

def keyOf {cols : List IxCol} (key : Bytes) (fits : key.length = colTotLen cols) : IxBytes cols := ⟨key,fits⟩

structure IxHandle where
  cols : List KeyCol
  tree : IxIndexHandle (IxBytes (ranks cols))

namespace IxHandle

def lift {α : Type} (h : IxHandle) (x : M (IxIndexHandle (IxBytes (ranks h.cols))) α) : EStateM.Result Fault IxHandle α :=
  match x h.tree with
  | .ok a t => .ok a ⟨h.cols,t⟩
  | .error e t => .error e ⟨h.cols,t⟩

/- Calls that take a key. A key of another length does not occur. -/
def onKey {α : Type} (key : Bytes) (call : {cols : List IxCol} → IxBytes cols → M (IxIndexHandle (IxBytes cols)) α) :
    M IxHandle α := fun h =>
  if fits : key.length = colTotLen (ranks h.cols) then h.lift (call (keyOf (rankKey h.cols key) (rankKeyLength fits)))
  else .error .outOfRange h

def getValue (key : Bytes) : M IxHandle (List Rid) := do
  let found ← onKey key fun k => IxIndexHandle.getValue k []
  pure found.2

def insertEntry (key : Bytes) (value : Rid) : M IxHandle Unit := do
  let _ ← onKey key fun k => IxIndexHandle.insertEntry k value
  pure ()

def deleteEntry (key : Bytes) : M IxHandle Bool := onKey key fun k => IxIndexHandle.deleteEntry k

def Maps (h : IxHandle) (m : Bytes → Option Rid) : Prop :=
  (∀ k, m k ≠ none → k.length = colTotLen (ranks h.cols)) ∧ Represents h.tree fun k => m k.1

variable {h : IxHandle} {m : Bytes → Option Rid} {key : Bytes} {rid : Rid}

theorem Maps.getValue (holds : h.Maps m) (fits : key.length = colTotLen (ranks h.cols)) :
    h.getValue key = .ok (m (rankKey h.cols key)).toList h := by
  have found := holds.2.behaves.get (keyOf (rankKey h.cols key) (rankKeyLength fits)) []
  have run : onKey key (fun k => IxIndexHandle.getValue k []) h =
      .ok ((m (rankKey h.cols key)).isSome,(m (rankKey h.cols key)).toList) h := by
    rw [onKey,dif_pos fits,lift,found]
    rfl
  rw [IxHandle.getValue,bindEq run]
  rfl

theorem updateSubtype {cols : List IxCol} (fits : key.length = colTotLen cols) (x : Option Rid) :
    (fun k : IxBytes cols => Function.update m key x k.1) = Function.update (fun k : IxBytes cols => m k.1) (keyOf key fits) x := by
  funext k
  by_cases same : k.1 = key
  · obtain rfl : k = keyOf key fits := Subtype.ext same
    have right := Function.update_self (keyOf key fits) x (fun k : IxBytes cols => m k.1)
    exact (Function.update_self key x m).trans right.symm
  · have apart : k ≠ keyOf key fits := fun equal => same (congrArg Subtype.val equal)
    have right := Function.update_of_ne apart x (fun k : IxBytes cols => m k.1)
    exact (Function.update_of_ne same x m).trans right.symm

theorem Maps.update {t : IxIndexHandle (IxBytes (ranks h.cols))} {x : Option Rid} (holds : h.Maps m)
    (fits : key.length = colTotLen (ranks h.cols))
    (next : Represents t (Function.update (fun k : IxBytes (ranks h.cols) => m k.1) (keyOf key fits) x)) :
    Maps ⟨h.cols,t⟩ (Function.update m key x) := by
  refine ⟨?_,?_⟩
  · intro k present
    by_cases same : k = key
    · exact same ▸ fits
    · exact holds.1 k (by rwa [Function.update_of_ne same] at present)
  · rw [← updateSubtype fits] at next
    exact next

theorem Maps.insertEntry (holds : h.Maps m) (fits : key.length = colTotLen (ranks h.cols))
    (absent : m (rankKey h.cols key) = none) :
    ∃ t, h.insertEntry key rid = .ok () t ∧ t.Maps (Function.update m (rankKey h.cols key) (some rid)) ∧ t.cols = h.cols := by
  obtain ⟨p,t,run,next,_⟩ := @Represents.insertNew _ _ _ _ (keyOf (rankKey h.cols key) (rankKeyLength fits)) rid holds.2 absent
  refine ⟨⟨h.cols,t⟩,?_,holds.update (rankKeyLength fits) next,rfl⟩
  have one : onKey key (fun k => IxIndexHandle.insertEntry k rid) h = .ok p ⟨h.cols,t⟩ := by
    rw [onKey,dif_pos fits,lift,run]
  rw [IxHandle.insertEntry,bindEq one]
  rfl

theorem Maps.deleteEntry (holds : h.Maps m) (fits : key.length = colTotLen (ranks h.cols)) :
    ∃ t, h.deleteEntry key = .ok (m (rankKey h.cols key)).isSome t ∧ t.Maps (Function.update m (rankKey h.cols key) none) ∧
      t.cols = h.cols := by
  obtain ⟨t,run,next,_⟩ := holds.2.delete (keyOf (rankKey h.cols key) (rankKeyLength fits))
  refine ⟨⟨h.cols,t⟩,?_,holds.update (rankKeyLength fits) next,rfl⟩
  rw [IxHandle.deleteEntry,onKey,dif_pos fits,lift,run]
  rfl

end IxHandle
end Rmdb.Index
