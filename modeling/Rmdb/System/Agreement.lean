import Rmdb.Recovery.Replay
import Rmdb.Transaction.TransactionManager

/-! Tables that their open indexes agree with, and the loops over the indexes of a table that the
executors and the rollback run. -/
namespace Rmdb
open Record Index

def indexName (tabName : String) (index : IndexMeta) : String := IxManager.getIndexName tabName (ranks index.cols)

def UniqueKeys (records : Rid → Option Bytes) (index : IndexMeta) : Prop :=
  ∀ a b ra rb, records a = some ra → records b = some rb → indexKey index ra = indexKey index rb → a = b

section Agrees
variable {records : Rid → Option Bytes} {index : IndexMeta} {m : Bytes → Option Rid} {rid : Rid} {record old : Bytes}

theorem Agrees.unique (agrees : Agrees records index m) : UniqueKeys records index := by
  intro a b ra rb here there same
  have one := (agrees (indexKey index ra) a).mpr ⟨ra,here,rfl⟩
  have two := (agrees (indexKey index ra) b).mpr ⟨rb,there,same.symm⟩
  exact Option.some.inj (one.symm.trans two)

theorem Agrees.keyed (agrees : Agrees records index m) (present : records rid = some record) :
    m (indexKey index record) = some rid := (agrees _ _).mpr ⟨record,present,rfl⟩

theorem Agrees.removed (agrees : Agrees records index m) (present : records rid = some record) :
    Agrees (Function.update records rid none) index (Function.update m (indexKey index record) none) := by
  intro key rid'
  have elsewhere (apart : rid' ≠ rid) : Function.update records rid none rid' = records rid' := Function.update_of_ne apart ..
  by_cases same : key = indexKey index record
  · subst same
    rw [Function.update_self]
    refine ⟨fun none => (nomatch none),fun ⟨r,there,equal⟩ => ?_⟩
    by_cases own : rid' = rid
    · rw [own,Function.update_self] at there
      cases there
    · rw [elsewhere own] at there
      exact absurd (agrees.unique _ _ _ _ there present equal) own
  · rw [Function.update_of_ne same,agrees]
    constructor
    · rintro ⟨r,there,equal⟩
      have apart : rid' ≠ rid := by
        rintro rfl
        rw [present] at there
        cases there
        exact same equal.symm
      exact ⟨r,(elsewhere apart).trans there,equal⟩
    · rintro ⟨r,there,equal⟩
      by_cases own : rid' = rid
      · rw [own,Function.update_self] at there
        cases there
      · exact ⟨r,(elsewhere own).symm.trans there,equal⟩

theorem Agrees.added (agrees : Agrees records index m) (free : records rid = none)
    (absent : m (indexKey index record) = none) : Agrees (Function.update records rid (some record)) index
      (Function.update m (indexKey index record) (some rid)) := by
  intro key rid'
  by_cases same : key = indexKey index record
  · subst same
    rw [Function.update_self]
    constructor
    · intro equal
      cases equal
      exact ⟨record,Function.update_self ..,rfl⟩
    · rintro ⟨r,there,equal⟩
      by_cases own : rid' = rid
      · rw [own]
      · rw [Function.update_of_ne own] at there
        rw [← equal,agrees.keyed there] at absent
        cases absent
  · rw [Function.update_of_ne same,agrees]
    by_cases own : rid' = rid
    · subst own
      rw [Function.update_self,free]
      refine ⟨fun ⟨r,there,_⟩ => (nomatch there),fun ⟨r,there,equal⟩ => ?_⟩
      cases there
      exact absurd equal.symm same
    · rw [Function.update_of_ne own]

theorem Agrees.kept (agrees : Agrees records index m) (present : records rid = some old)
    (same : indexKey index old = indexKey index record) :
    Agrees (Function.update records rid (some record)) index m := by
  intro key rid'
  rw [agrees]
  by_cases own : rid' = rid
  · subst own
    rw [Function.update_self,present]
    constructor
    · rintro ⟨r,there,equal⟩
      cases there
      exact ⟨record,rfl,same ▸ equal⟩
    · rintro ⟨r,there,equal⟩
      cases there
      exact ⟨old,rfl,same.trans equal⟩
  · rw [Function.update_of_ne own]

theorem Agrees.absent (agrees : Agrees records index m) (free : records rid = none)
    (unique : UniqueKeys (Function.update records rid (some record)) index) : m (indexKey index record) = none := by
  cases held : m (indexKey index record) with
  | none => rfl
  | some rid' =>
    obtain ⟨r,there,equal⟩ := (agrees _ _).mp held
    have apart : rid' ≠ rid := by
      rintro rfl
      rw [free] at there
      cases there
    have same := unique rid' rid r record (by rw [Function.update_of_ne apart,there]) (Function.update_self ..) equal
    exact absurd same apart

end Agrees

namespace SmManager

def IndexesAgree (sm : SmManager) (tabName : String) (indexes : List IndexMeta) (records : Rid → Option Bytes) : Prop :=
  ∀ index ∈ indexes, ∃ ih m, sm.HasIndex tabName index ih m ∧ Agrees records index m

def putIndex (sm : SmManager) (tabName : String) (index : IndexMeta) (ih : IxHandle) : SmManager :=
  {sm with ihs := Function.update sm.ihs (indexName tabName index) (some ih)}

structure Reindexed (sm : SmManager) (tabName : String) (indexes : List IndexMeta) (records : Rid → Option Bytes)
    (sm' : SmManager) : Prop where
  db : sm'.db = sm.db
  fhs : sm'.fhs = sm.fhs
  others : ∀ name, (∀ index ∈ indexes, indexName tabName index ≠ name) → sm'.ihs name = sm.ihs name
  agree : sm'.IndexesAgree tabName indexes records

section Loops
variable {sm sm' : SmManager} {tabName : String} {index : IndexMeta} {indexes : List IndexMeta} {ih ih' : IxHandle}
  {m m' : Bytes → Option Rid} {records records' : Rid → Option Bytes} {tab : TabMeta} {recordSize : Nat} {rid : Rid}
  {record old : Bytes}

theorem putIndexSame (has : sm.HasIndex tabName index ih m) : sm.putIndex tabName index ih = sm := by
  rw [putIndex,indexName,← has.handle,Function.update_eq_self]

theorem IndexesAgree.moved (agree : sm.IndexesAgree tabName indexes records)
    (same : ∀ index ∈ indexes, sm'.ihs (indexName tabName index) = sm.ihs (indexName tabName index)) :
    sm'.IndexesAgree tabName indexes records := by
  intro index mem
  obtain ⟨ih,m,has,agrees⟩ := agree index mem
  exact ⟨ih,m,⟨(same index mem).trans has.handle,has.cols,has.maps⟩,agrees⟩

theorem IndexesAgree.sameIndexes (agree : sm.IndexesAgree tabName indexes records) (same : sm'.ihs = sm.ihs) :
    sm'.IndexesAgree tabName indexes records := agree.moved fun _ _ => congrFun same _

theorem onIndexRun {x : M IxHandle Unit} (has : sm.HasIndex tabName index ih m) (run : x ih = .ok () ih') :
    onIndex tabName index x sm = .ok () (sm.putIndex tabName index ih') := by
  simp only [onIndex,has.handle]
  exact zoomOk run

def Turns (tabName : String) (records records' : Rid → Option Bytes) (index : IndexMeta) (x : M SmManager Unit) : Prop :=
  ∀ sm ih m, sm.HasIndex tabName index ih m → Agrees records index m → ∃ ih' m',
    x sm = .ok () (sm.putIndex tabName index ih') ∧ ih'.cols = index.cols ∧ ih'.Maps m' ∧ Agrees records' index m'

theorem indexLoop {f : IndexMeta → M SmManager Unit} (once : (indexes.map (indexName tabName)).Nodup)
    (each : ∀ index ∈ indexes, Turns tabName records records' index (f index))
    (agree : sm.IndexesAgree tabName indexes records) :
    ∃ sm', indexes.forM f sm = .ok () sm' ∧ Reindexed sm tabName indexes records' sm' := by
  induction indexes generalizing sm with
  | nil => exact ⟨sm,rfl,rfl,rfl,fun _ _ => rfl,fun _ mem => (nomatch mem)⟩
  | cons index indexes ih =>
    rw [List.map_cons,List.nodup_cons] at once
    have apart : ∀ other ∈ indexes, indexName tabName other ≠ indexName tabName index := fun other mem same =>
      once.1 (same ▸ List.mem_map_of_mem mem)
    obtain ⟨h,m,has,agrees⟩ := agree index List.mem_cons_self
    obtain ⟨h',m',run,cols,maps,agrees'⟩ := each index List.mem_cons_self sm h m has agrees
    have rest : (sm.putIndex tabName index h').IndexesAgree tabName indexes records := by
      intro other mem
      obtain ⟨g,n,hasOther,agreesOther⟩ := agree other (List.mem_cons_of_mem _ mem)
      refine ⟨g,n,⟨?_,hasOther.cols,hasOther.maps⟩,agreesOther⟩
      exact (Function.update_of_ne (apart other mem) ..).trans hasOther.handle
    obtain ⟨sm',later,done⟩ := ih once.2 (fun other mem => each other (List.mem_cons_of_mem _ mem)) rest
    refine ⟨sm',?_,done.db,done.fhs,fun name away => ?_,fun other mem => ?_⟩
    · rw [List.forM,bindEq run]
      exact later
    · rw [done.others name fun other mem => away other (List.mem_cons_of_mem _ mem)]
      exact Function.update_of_ne (away index List.mem_cons_self).symm ..
    · rcases List.mem_cons.mp mem with rfl | mem
      · refine ⟨h',m',⟨?_,cols,maps⟩,agrees'⟩
        exact (done.others _ apart).trans (Function.update_self ..)
      · exact done.agree other mem

section One
variable (valid : tab.Valid recordSize) (mem : index ∈ tab.indexes)
include valid mem

theorem deleteTurns (sized : record.length = recordSize) (present : records rid = some record) :
    Turns tabName records (Function.update records rid none) index (onIndex tabName index do
      let _ ← IxHandle.deleteEntry (buildIndexKey index record)
      pure ()) := by
  intro sm ih m has agrees
  obtain ⟨t,run,maps,cols⟩ := deleteKey has.cols has.maps (buildIndexKeyLength valid mem sized)
  refine ⟨t,_,onIndexRun has ?_,cols,maps,agrees.removed present⟩
  rw [bindEq run]
  rfl

theorem insertTurns (sized : record.length = recordSize) (free : records rid = none)
    (unique : UniqueKeys (Function.update records rid (some record)) index) :
    Turns tabName records (Function.update records rid (some record)) index
      (onIndex tabName index (IxHandle.insertEntry (buildIndexKey index record) rid)) := by
  intro sm ih m has agrees
  have absent := agrees.absent free unique
  obtain ⟨t,run,maps,cols⟩ := @insertKey _ _ _ _ rid has.cols has.maps (buildIndexKeyLength valid mem sized) absent
  exact ⟨t,_,onIndexRun has run,cols,maps,agrees.added free absent⟩

theorem replaceTurns (sizedOld : old.length = recordSize) (sized : record.length = recordSize)
    (present : records rid = some old) (unique : UniqueKeys (Function.update records rid (some record)) index) :
    Turns tabName records (Function.update records rid (some record)) index (onIndex tabName index do
      let _ ← IxHandle.deleteEntry (buildIndexKey index old)
      IxHandle.insertEntry (buildIndexKey index record) rid) := by
  intro sm ih m has agrees
  obtain ⟨t,deleted,maps,cols⟩ := deleteKey has.cols has.maps (buildIndexKeyLength valid mem sizedOld)
  have agrees' := agrees.removed present
  have free : Function.update records rid none rid = none := Function.update_self ..
  have same : Function.update (Function.update records rid none) rid (some record) =
      Function.update records rid (some record) := Function.update_idem ..
  have absent := @Agrees.absent _ _ _ _ record agrees' free (same ▸ unique)
  obtain ⟨u,inserted,maps',cols'⟩ := @insertKey _ _ _ _ rid cols maps (buildIndexKeyLength valid mem sized) absent
  refine ⟨u,_,onIndexRun has ?_,cols',maps',same ▸ agrees'.added free absent⟩
  rw [bindEq deleted]
  exact inserted

theorem changeTurns {differs : Prop} [Decidable differs]
    (same : differs ↔ buildIndexKey index old ≠ buildIndexKey index record) (sizedOld : old.length = recordSize)
    (sized : record.length = recordSize) (present : records rid = some old)
    (unique : UniqueKeys (Function.update records rid (some record)) index) :
    Turns tabName records (Function.update records rid (some record)) index (if differs then
      onIndex tabName index do
        let _ ← IxHandle.deleteEntry (buildIndexKey index old)
        IxHandle.insertEntry (buildIndexKey index record) rid
      else pure ()) := by
  split
  · exact replaceTurns valid mem sizedOld sized present unique
  · rename_i equal
    intro sm ih m has agrees
    refine ⟨ih,m,by rw [putIndexSame has]; rfl,has.cols,has.maps,agrees.kept present ?_⟩
    exact congrArg (rankKey index.cols) (not_not.mp fun apart => equal (same.mpr apart))

end One
end Loops
/- Every table of the catalog is open and its indexes agree with it. -/
structure Agreed (sm : SmManager) : Prop where
  tables : ∀ tabName tab, sm.db.getTable tabName = .ok tab →
    ∃ fh, sm.HasTable tabName tab fh ∧ sm.IndexesAgree tabName tab.indexes fh.records
  once : ∀ tabName tab, sm.db.getTable tabName = .ok tab → (tab.indexes.map (indexName tabName)).Nodup
  apart : ∀ a b ta tb, sm.db.getTable a = .ok ta → sm.db.getTable b = .ok tb → a ≠ b →
    ∀ i ∈ ta.indexes, ∀ j ∈ tb.indexes, indexName a i ≠ indexName b j

structure RowChange (sm : SmManager) (tabName : String) (rid : Rid) (value : Option Bytes) (sm' : SmManager) : Prop where
  db : sm'.db = sm.db
  file : ∃ fh fh', sm.fhs tabName = some fh ∧ sm'.fhs = Function.update sm.fhs tabName (some fh') ∧
    fh'.records = Function.update fh.records rid value ∧ fh.Extends fh'
  handles : ∀ name, (sm'.ihs name).isSome = (sm.ihs name).isSome
  agreed : sm'.Agreed

section Rows
variable {sm sm' : SmManager} {tabName : String} {tab : TabMeta} {fh fh' : RmFileHandle} {rid : Rid}
  {value : Option Bytes} {record old : Bytes}

theorem HasTable.open (table : sm.HasTable tabName tab fh) {fh₂ : RmFileHandle} (found : sm.fhs tabName = some fh₂) :
    fh₂ = fh := Option.some.inj (found.symm.trans table.handle)

theorem HasTable.moved (table : sm.HasTable tabName tab fh) (listed : sm'.db.getTable tabName = .ok tab)
    (file : sm'.fhs tabName = sm.fhs tabName) : sm'.HasTable tabName tab fh :=
  ⟨listed,table.named,file.trans table.handle,table.valid,table.usable,table.sized⟩

theorem RowChange.contents (change : RowChange sm tabName rid value sm') :
    Recovery.contents sm' = Function.update (Recovery.contents sm) (tabName,rid) value := by
  obtain ⟨fh,fh',found,files,records,_⟩ := change.file
  have put := @Recovery.contentsPut sm _ _ _ _ _ found records
  rw [← put]
  funext place
  simp only [Recovery.contents,files]

theorem Agreed.change (agreed : sm.Agreed) (table : sm.HasTable tabName tab fh) (db : sm'.db = sm.db)
    (files : sm'.fhs = Function.update sm.fhs tabName (some fh'))
    (others : ∀ name, (∀ index ∈ tab.indexes, indexName tabName index ≠ name) → sm'.ihs name = sm.ihs name)
    (usable : fh'.Usable) (records : fh'.records = Function.update fh.records rid value)
    (sized : ∀ record, value = some record → record.length = fh.fileHdr.recordSize) (extended : fh.Extends fh')
    (agree : sm'.IndexesAgree tabName tab.indexes fh'.records) : RowChange sm tabName rid value sm' := by
  refine ⟨db,⟨fh,fh',table.handle,files,records,extended⟩,?_,?_,?_,?_⟩
  · intro name
    by_cases own : ∃ index ∈ tab.indexes, indexName tabName index = name
    · obtain ⟨index,mem,rfl⟩ := own
      obtain ⟨_,_,old⟩ := agreed.tables _ _ table.listed
      obtain ⟨_,_,has,_⟩ := agree index mem
      obtain ⟨_,_,had,_⟩ := old index mem
      rw [indexName,has.handle,had.handle]
      rfl
    · rw [others name fun index mem same => own ⟨index,mem,same⟩]
  · intro name tab' listed
    rw [db] at listed
    by_cases here : name = tabName
    · subst here
      obtain rfl := Except.ok.inj (table.listed.symm.trans listed)
      refine ⟨fh',⟨by rw [db]; exact table.listed,table.named,by rw [files,Function.update_self],?_,usable,?_⟩,agree⟩
      · rw [extended.recordSize]
        exact table.valid
      · intro rid' record' present
        rw [records] at present
        rw [extended.recordSize]
        by_cases own : rid' = rid
        · rw [own,Function.update_self] at present
          exact sized record' present
        · rw [Function.update_of_ne own] at present
          exact table.sized rid' record' present
    · obtain ⟨fh₂,table₂,agree₂⟩ := agreed.tables name tab' listed
      refine ⟨fh₂,⟨by rw [db]; exact listed,table₂.named,?_,table₂.valid,table₂.usable,table₂.sized⟩,fun index mem => ?_⟩
      · rw [files,Function.update_of_ne here]
        exact table₂.handle
      · obtain ⟨ih,m,has,agrees⟩ := agree₂ index mem
        refine ⟨ih,m,⟨?_,has.cols,has.maps⟩,agrees⟩
        refine (others _ fun own memOwn => ?_).trans has.handle
        exact agreed.apart tabName name tab tab' table.listed listed (Ne.symm here) own memOwn index mem
  · rw [db]
    exact agreed.once
  · rw [db]
    exact agreed.apart

theorem sizedRow (table : sm.HasTable tabName tab fh) (present : fh.records rid = some record) :
    record.length = fh.fileHdr.recordSize := table.sized rid record present

theorem removeRow (agreed : sm.Agreed) (table : sm.HasTable tabName tab fh) (present : fh.records rid = some record) :
    ∃ sm₁ sm', deleteIndexEntries tab tabName record sm = .ok () sm₁ ∧
      onFile tabName (RmFileHandle.deleteRecord rid) sm₁ = .ok () sm' ∧ RowChange sm tabName rid none sm' := by
  obtain ⟨fh₂,table₂,agree⟩ := agreed.tables tabName tab table.listed
  obtain rfl := table.open table₂.handle
  obtain ⟨lost,well⟩ := table.usable
  obtain ⟨sm₁,deleted,done⟩ := indexLoop (agreed.once tabName tab table.listed)
    (fun index mem => deleteTurns table.valid mem (sizedRow table present) present) agree
  obtain ⟨fh',removed,well',records,extended⟩ := RmFileHandle.deleteRecordWell well present
  refine ⟨sm₁,_,deleted,Recovery.onFileOk (done.fhs ▸ table.handle) removed,?_⟩
  refine agreed.change table done.db (by rw [← done.fhs]) done.others ⟨lost,well'⟩ records (fun _ none => nomatch none)
    extended ?_
  rw [records]
  exact done.agree.sameIndexes rfl

theorem addRow {f : IndexMeta → M SmManager Unit} (agreed : sm.Agreed) (table : sm.HasTable tabName tab fh)
    (usable : fh'.Usable) (free : fh.records rid = none) (records : fh'.records = Function.update fh.records rid (some record))
    (extended : fh.Extends fh') (sized : record.length = fh.fileHdr.recordSize)
    (each : ∀ index ∈ tab.indexes, Turns tabName fh.records fh'.records index (f index)) :
    ∃ sm', tab.indexes.forM f {sm with fhs := Function.update sm.fhs tabName (some fh')} = .ok () sm' ∧
      RowChange sm tabName rid (some record) sm' := by
  obtain ⟨fh₂,table₂,agree⟩ := agreed.tables tabName tab table.listed
  obtain rfl := table.open table₂.handle
  obtain ⟨sm',run,done⟩ := @indexLoop {sm with fhs := Function.update sm.fhs tabName (some fh')} _ _ _ _ _
    (agreed.once tabName tab table.listed) each (agree.sameIndexes rfl)
  refine ⟨sm',run,agreed.change table done.db done.fhs done.others usable records ?_ extended done.agree⟩
  intro r same
  cases same
  exact sized

theorem changeRow {f : IndexMeta → M SmManager Unit} (agreed : sm.Agreed) (table : sm.HasTable tabName tab fh)
    (present : fh.records rid = some old) (sized : record.length = fh.fileHdr.recordSize)
    (each : ∀ index ∈ tab.indexes, Turns tabName fh.records (Function.update fh.records rid (some record)) index (f index)) :
    ∃ sm₁, tab.indexes.forM f sm = .ok () sm₁ ∧ sm₁.fhs = sm.fhs ∧ ∃ sm',
      onFile tabName (RmFileHandle.updateRecord rid record) sm₁ = .ok () sm' ∧ RowChange sm tabName rid (some record) sm' := by
  obtain ⟨fh₂,table₂,agree⟩ := agreed.tables tabName tab table.listed
  obtain rfl := table.open table₂.handle
  obtain ⟨lost,well⟩ := table.usable
  obtain ⟨sm₁,replaced,done⟩ := indexLoop (agreed.once tabName tab table.listed) each agree
  obtain ⟨fh',updated,well',records,extended⟩ := @RmFileHandle.updateRecordWell _ _ _ _ record well present
  refine ⟨sm₁,replaced,done.fhs,_,Recovery.onFileOk (done.fhs ▸ table.handle) updated,?_⟩
  refine agreed.change table done.db (by rw [← done.fhs]) done.others ⟨lost,well'⟩ records ?_ extended ?_
  · intro r same
    cases same
    exact sized
  · rw [records]
    exact done.agree.sameIndexes rfl

end Rows
end SmManager
end Rmdb
