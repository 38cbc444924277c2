import Rmdb.Execution.ExecutorUtils
import Rmdb.Index.IxHandle
import Rmdb.Record.RmScan

/-! `SmManager`: the catalog with the open record files and indexes, and what it means that they
belong together. -/
namespace Rmdb
open Record Index

structure SmManager where
  db : DbMeta
  fhs : String → Option RmFileHandle
  ihs : String → Option IxHandle

namespace SmManager

def fileHandle (sm : SmManager) (tabName : String) : Except Fault RmFileHandle :=
  match sm.fhs tabName with
  | some fh => .ok fh
  | none => .error .mapAt

def indexHandle (sm : SmManager) (tabName : String) (index : IndexMeta) : Except Fault IxHandle :=
  match sm.ihs (IxManager.getIndexName tabName (ranks index.cols)) with
  | some ih => .ok ih
  | none => .error .mapAt

def onFile {α : Type} (tabName : String) (x : M RmFileHandle α) : M SmManager α := fun sm =>
  match sm.fhs tabName with
  | none => .error .mapAt sm
  | some fh => zoom (fun _ => fh) (fun fh' sm => {sm with fhs := Function.update sm.fhs tabName (some fh')}) x sm

def onIndex (tabName : String) (index : IndexMeta) (x : M IxHandle Unit) : M SmManager Unit := fun sm =>
  let name := IxManager.getIndexName tabName (ranks index.cols)
  match sm.ihs name with
  | none => .ok () sm
  | some ih => zoom (fun _ => ih) (fun ih' sm => {sm with ihs := Function.update sm.ihs name (some ih')}) x sm

end SmManager

structure TabMeta.Valid (tab : TabMeta) (recordSize : Nat) : Prop where
  owned : ∀ col ∈ tab.cols, col.tabName = tab.name
  inside : ∀ col ∈ tab.cols, col.offset+col.len ≤ recordSize
  indexed : ∀ index ∈ tab.indexes, ∀ col ∈ index.cols, tab.getCol col.name = .ok col.toColMeta

def indexKey (index : IndexMeta) (record : Bytes) : Bytes := rankKey index.cols (buildIndexKey index record)

/- One entry for each record of the table and no other entry. -/
def Agrees (records : Rid → Option Bytes) (index : IndexMeta) (m : Bytes → Option Rid) : Prop :=
  ∀ key rid, m key = some rid ↔ ∃ record, records rid = some record ∧ indexKey index record = key

structure SmManager.HasIndex (sm : SmManager) (tabName : String) (index : IndexMeta) (ih : IxHandle)
    (m : Bytes → Option Rid) : Prop where
  handle : sm.ihs (IxManager.getIndexName tabName (ranks index.cols)) = some ih
  cols : ih.cols = index.cols
  maps : ih.Maps m

structure SmManager.HasTable (sm : SmManager) (tabName : String) (tab : TabMeta) (fh : RmFileHandle) : Prop where
  listed : sm.db.getTable tabName = .ok tab
  named : tab.name = tabName
  handle : sm.fhs tabName = some fh
  valid : tab.Valid fh.fileHdr.recordSize
  usable : fh.Usable
  sized : ∀ rid record, fh.records rid = some record → record.length = fh.fileHdr.recordSize

section Keys
variable {tab : TabMeta} {index : IndexMeta} {recordSize : Nat} {record : Bytes}

theorem getColMem {colName : String} {col : ColMeta} (found : tab.getCol colName = .ok col) :
    col ∈ tab.cols ∧ col.name = colName := by
  rw [TabMeta.getCol] at found
  split at found
  · rename_i x here
    obtain rfl : x = col := Except.ok.inj found
    exact ⟨List.mem_of_find?_eq_some here,by simpa using List.find?_some here⟩
  · cases found

theorem findColMetaGetCol (valid : tab.Valid recordSize) (colName : String) {col : ColMeta}
    (found : tab.getCol colName = .ok col) : findColMeta tab.cols ⟨tab.name,colName⟩ = .ok col := by
  have same : (tab.cols.find? fun col => decide (col.tabName = tab.name ∧ col.name = colName)) =
      tab.cols.find? fun col => decide (col.name = colName) := by
    refine List.find?_congr fun col mem => ?_
    simp [valid.owned col mem]
  rw [TabMeta.getCol] at found
  split at found
  · rename_i x here
    rw [findColMeta,same,here]
    exact found
  · cases found

theorem keyLength {cols : List KeyCol} (inside : ∀ col ∈ cols, col.offset+col.len ≤ record.length) :
    (cols.flatMap fun col => (record.drop col.offset).take col.len).length = colTotLen (ranks cols) := by
  induction cols with
  | nil => rfl
  | cons col cols ih =>
    have here := inside col List.mem_cons_self
    rw [List.flatMap_cons,List.length_append,ih fun col mem => inside col (List.mem_cons_of_mem _ mem),
      List.length_take,List.length_drop,ranksLen]
    omega

theorem buildIndexKeyLength (valid : tab.Valid recordSize) (mem : index ∈ tab.indexes) (sized : record.length = recordSize) :
    (buildIndexKey index record).length = colTotLen (ranks index.cols) := by
  refine keyLength fun col memCol => ?_
  have here := (getColMem (valid.indexed index mem col memCol)).1
  rw [sized]
  exact valid.inside _ here

theorem indexKeyPlain (valid : tab.Valid recordSize) (mem : index ∈ tab.indexes) (sized : record.length = recordSize)
    (plain : ∀ col ∈ index.cols, col.type ≠ .float) : indexKey index record = buildIndexKey index record :=
  rankKeyPlain plain (buildIndexKeyLength valid mem sized)

end Keys

section Entries
variable {index : IndexMeta} {ih : IxHandle} {m : Bytes → Option Rid} {record : Bytes} {rid : Rid}
variable (cols : ih.cols = index.cols) (maps : ih.Maps m)
  (fits : (buildIndexKey index record).length = colTotLen (ranks index.cols))
include cols maps fits

theorem getKey : ih.getValue (buildIndexKey index record) = .ok (m (indexKey index record)).toList ih := by
  rw [← cols] at fits
  have found := maps.getValue fits
  rw [cols] at found
  exact found

theorem insertKey (absent : m (indexKey index record) = none) : ∃ t, ih.insertEntry (buildIndexKey index record) rid = .ok () t ∧
    t.Maps (Function.update m (indexKey index record) (some rid)) ∧ t.cols = index.cols := by
  rw [indexKey,← cols] at absent
  rw [← cols] at fits
  obtain ⟨t,run,next,same⟩ := @IxHandle.Maps.insertEntry _ _ _ rid maps fits absent
  rw [cols] at next
  exact ⟨t,run,next,same.trans cols⟩

theorem deleteKey : ∃ t, ih.deleteEntry (buildIndexKey index record) = .ok (m (indexKey index record)).isSome t ∧
    t.Maps (Function.update m (indexKey index record) none) ∧ t.cols = index.cols := by
  rw [← cols] at fits
  obtain ⟨t,run,next,same⟩ := maps.deleteEntry fits
  rw [cols] at run next
  exact ⟨t,run,next,same.trans cols⟩

end Entries
end Rmdb
