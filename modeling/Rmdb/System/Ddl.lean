import Rmdb.System.Agreement
import Rmdb.System.Catalog
import Rmdb.Record.RmManager
import Rmdb.Execution.Statements

/-! `create_table`, `drop_table`, `create_index` and `drop_index`, with the files of the database
directory. The catalog, the files and the open handles stay in step. -/
namespace Rmdb
open Record Index

structure DbDir where
  sm : SmManager
  isFile : String → Bool

def keyCol (col : ColMeta) : Option KeyCol :=
  if named : col.name = "" then none else
    match col,named with
    | ⟨tabName,name,.int,4,offset⟩,named => some ⟨⟨tabName,name,.int,4,offset⟩,named,rfl⟩
    | ⟨tabName,name,.bigint,8,offset⟩,named => some ⟨⟨tabName,name,.bigint,8,offset⟩,named,rfl⟩
    | ⟨tabName,name,.datetime,8,offset⟩,named => some ⟨⟨tabName,name,.datetime,8,offset⟩,named,rfl⟩
    | ⟨tabName,name,.float,4,offset⟩,named => some ⟨⟨tabName,name,.float,4,offset⟩,named,rfl⟩
    | ⟨tabName,name,.string,len,offset⟩,named => some ⟨⟨tabName,name,.string,len,offset⟩,named,trivial⟩
    | _,_ => none

def keyCols (tab : TabMeta) (colNames : List String) : Except Fault (List KeyCol) :=
  colNames.mapM fun colName => do
    let col ← tab.getCol colName
    match keyCol col with
    | some keyCol => .ok keyCol
    | none => .error (.assertion "key column")

def ensureUniqueKey (ih : IxHandle) (key : Bytes) : Except Fault Unit := ensureIndexKeyUnique ih key none

def fillIndex (fh : RmFileHandle) (index : IndexMeta) : Nat → Rid → IxHandle → Except Fault IxHandle
  | 0,_,_ => .error .fuel
  | fuel+1,rid,ih =>
    if RmScan.isEnd fh rid then .ok ih else do
      let record ← fh.getRecord rid
      let key := buildIndexKey index record
      ensureUniqueKey ih key
      match IxHandle.insertEntry key rid ih with
      | .error e _ => .error e
      | .ok _ ih => do
        let next ← RmScan.next fh rid
        fillIndex fh index fuel next ih

namespace DbDir

def createFile (path : String) : M DbDir Unit := do
  let s ← get
  if s.isFile path then raise (.fileExists path)
  else if IxManager.nameMax < path.utf8ByteSize then raise (.unix "File name too long")
  else set {s with isFile := Function.update s.isFile path true}

def destroyFile (path : String) : M DbDir Unit := do
  let s ← get
  if s.isFile path = false then raise (.fileNotFound path)
  else if (s.sm.fhs path).isSome ∨ (s.sm.ihs path).isSome then raise (.fileNotClosed path)
  else set {s with isFile := Function.update s.isFile path false}

def createTable (tabName : String) (colDefs : List ColDef) : M DbDir Unit := do
  let s ← get
  let db ← ofExcept (s.sm.db.createTable tabName colDefs)
  let file ← ofExcept (RmManager.createFile (colDefs.map ColDef.len).sum)
  createFile tabName
  modify fun s => {s with sm := {s.sm with
    db := db
    fhs := Function.update s.sm.fhs tabName (some ((s.sm.fhs tabName).getD (RmManager.openFile tabName file)))}}

def closeAndDestroyIndex (tabName : String) (index : IndexMeta) : M DbDir Unit := do
  modify fun s => {s with sm := {s.sm with ihs := Function.update s.sm.ihs (indexName tabName index) none}}
  destroyFile (indexName tabName index)

/- `pinned`: some page of the table is still pinned, and `delete_all_pages` gives up. The indexes
are gone by then. -/
def dropTable (tabName : String) (pinned : Bool) : M DbDir Unit := do
  let s ← get
  let tab ← ofExcept (s.sm.db.getTable tabName)
  tab.indexes.forM (closeAndDestroyIndex tabName)
  if (s.sm.fhs tabName).isSome && pinned then raise (.internal "RmManager::close_file Error") else
    modify fun s => {s with sm := {s.sm with fhs := Function.update s.sm.fhs tabName none}}
    destroyFile tabName
    let s ← get
    let db ← ofExcept (s.sm.db.dropTable tabName)
    set {s with sm := {s.sm with db := db}}

def createIndex (tabName : String) (colNames : List String) : M DbDir Unit := do
  let s ← get
  let tab ← ofExcept (s.sm.db.getTable tabName)
  if tab.isIndex colNames then raise (.indexExists tabName colNames) else
    let cols ← ofExcept (keyCols tab colNames)
    let index : IndexMeta := ⟨tabName,cols⟩
    createFile (indexName tabName index)
    -- when the columns are too long the empty file stays
    let file ← ofExcept (IxManager.createIndex tabName (ranks cols))
    let tree ← ofExcept (IxManager.openIndex file)
    let fh ← ofExcept (s.sm.fileHandle tabName)
    let filled := do
      let start ← RmScan.begin fh
      fillIndex fh index (fh.fileHdr.numPages.toNat*fh.fileHdr.numRecordsPerPage+1) start ⟨cols,tree⟩
    match filled with
    | .error e => do
      destroyFile (indexName tabName index)
      throw e
    | .ok ih => modify fun s => {s with sm := {s.sm with
        db := s.sm.db.setIndexes tabName (tab.indexes ++ [index])
        ihs := Function.update s.sm.ihs (indexName tabName index) (some ih)}}

def eraseIndex (colNames : List String) (indexes : List IndexMeta) : List IndexMeta :=
  indexes.eraseP fun index => (index.cols.map fun col => col.name) = colNames

def dropIndex (tabName : String) (colNames : List String) : M DbDir Unit := do
  let s ← get
  let tab ← ofExcept (s.sm.db.getTable tabName)
  let index ← ofExcept (tab.getIndexMeta colNames)
  closeAndDestroyIndex tabName index
  modify fun s => {s with sm := {s.sm with db := s.sm.db.setIndexes tabName (eraseIndex colNames tab.indexes)}}

end DbDir

theorem keyColSame {col : ColMeta} {made : KeyCol} (same : keyCol col = some made) : made.toColMeta = col := by
  rw [keyCol] at same
  split at same
  · cases same
  · split at same <;> cases same <;> rfl

theorem keyColsFound {tab : TabMeta} {colNames : List String} {cols : List KeyCol} (made : keyCols tab colNames = .ok cols) :
    ∀ col ∈ cols, tab.getCol col.name = .ok col.toColMeta := by
  induction colNames generalizing cols with
  | nil =>
    cases made
    exact fun col mem => nomatch mem
  | cons colName colNames ih =>
    rw [keyCols,List.mapM_cons] at made
    obtain ⟨first,one,made⟩ := exceptBind made
    obtain ⟨rest,others,made⟩ := exceptBind made
    cases made
    obtain ⟨col,found,made⟩ := exceptBind one
    intro x mem
    rcases List.mem_cons.mp mem with rfl | later
    · split at made
      · rename_i key here
        cases made
        rw [keyColSame here]
        rw [(getColMem found).2]
        exact found
      · cases made
    · exact ih others x later

section Fill
variable {fh : RmFileHandle} {index : IndexMeta} {lost : Set Int} {ih ih' : IxHandle} {m : Bytes → Option Rid}
  {records : Rid → Option Bytes}

theorem fillIndexRun {L : List Rid} {fuel : Nat} {rid : Rid} (enumerates : (RmScan.scan fh).Enumerates rid L) (once : L.Nodup)
    (fresh : ∀ r ∈ L, records r = none) (present : ∀ r ∈ L, ∃ b, fh.records r = some b)
    (fits : ∀ r b, fh.records r = some b → (buildIndexKey index b).length = colTotLen (ranks index.cols))
    (cols : ih.cols = index.cols) (maps : ih.Maps m) (agrees : Agrees records index m)
    (run : fillIndex fh index fuel rid ih = .ok ih') : ∃ m', ih'.cols = index.cols ∧ ih'.Maps m' ∧
      Agrees (fun r => if r ∈ L then fh.records r else records r) index m' := by
  induction L generalizing fuel rid ih m records with
  | nil =>
    cases fuel with
    | zero => cases run
    | succ fuel =>
      have last : RmScan.isEnd fh rid = true := enumerates
      rw [fillIndex,if_pos last] at run
      cases run
      simp only [List.not_mem_nil,if_false]
      exact ⟨m,cols,maps,agrees⟩
  | cons r L rest =>
    obtain ⟨going,here,next,step,later⟩ := enumerates
    have going : RmScan.isEnd fh rid = false := going
    obtain rfl : rid = r := Except.ok.inj here
    rw [List.nodup_cons] at once
    cases fuel with
    | zero => cases run
    | succ fuel =>
      obtain ⟨b,there⟩ := present rid List.mem_cons_self
      rw [fillIndex,going,if_neg (by simp)] at run
      obtain ⟨record,read,run⟩ := exceptBind run
      obtain rfl : record = b := Option.some.inj ((RmFileHandle.getRecordSome.mp read).symm.trans there)
      obtain ⟨_,checked,run⟩ := exceptBind run
      have absent : m (indexKey index record) = none := by
        cases held : m (indexKey index record) with
        | none => rfl
        | some r => cases (ensureUniqueRun cols maps (fits rid record there)).mp checked r held
      obtain ⟨ih₁,inserted,maps₁,cols₁⟩ := @insertKey _ _ _ _ rid cols maps (fits rid record there) absent
      rw [inserted] at run
      obtain ⟨next',stepped,run⟩ := exceptBind run
      obtain rfl : next' = next := Except.ok.inj (stepped.symm.trans step)
      have agrees₁ := agrees.added (fresh rid List.mem_cons_self) absent
      have freshRest : ∀ r ∈ L, Function.update records rid (some record) r = none := by
        intro r mem
        have apart : r ≠ rid := by
          rintro rfl
          exact once.1 mem
        rw [Function.update_of_ne apart]
        exact fresh r (List.mem_cons_of_mem _ mem)
      obtain ⟨m',cols',maps',agrees'⟩ := rest later once.2 freshRest
        (fun r mem => present r (List.mem_cons_of_mem _ mem)) cols₁ maps₁ agrees₁ run
      refine ⟨m',cols',maps',?_⟩
      have same : (fun r => if r ∈ L then fh.records r else Function.update records rid (some record) r) =
          fun r => if r ∈ rid :: L then fh.records r else records r := by
        funext r
        by_cases own : r = rid
        · rw [own,if_neg once.1,if_pos List.mem_cons_self,Function.update_self,there]
        · simp only [List.mem_cons,own,false_or,Function.update_of_ne own]
      rw [← same]
      exact agrees'

theorem freshMaps {cols : List KeyCol} {order : Nat} (big : 2 < order) :
    (⟨cols,IxManager.openFile (IxManager.newFile (IxBytes (ranks cols)) order)⟩ : IxHandle).Maps fun _ => none :=
  ⟨fun k some => absurd rfl some,⟨_,openFresh big,rfl⟩,(openUnused _).mpr (show pageSize*ixInitNumPages < 2^31 by decide)⟩

theorem createdMaps {filename : String} {cols : List KeyCol} {file : IxFile (IxBytes (ranks cols))}
    {tree : IxIndexHandle (IxBytes (ranks cols))} (created : IxManager.createIndex filename (ranks cols) = .ok file)
    (opened : IxManager.openIndex file = .ok tree) :
    (⟨cols,tree⟩ : IxHandle).Maps fun _ => none := by
  obtain ⟨big,fits,rfl⟩ := IxManager.createdFile created
  rw [IxManager.openIndex,if_pos fits] at opened
  cases opened
  exact freshMaps big

end Fill

namespace DbMeta
variable {db db' : DbMeta} {tabName name : String} {colDefs : List ColDef} {tab : TabMeta} {indexes : List IndexMeta}

theorem createdTable (done : db.createTable tabName colDefs = .ok db') :
    (∀ tab, db.getTable tabName ≠ .ok tab) ∧ db'.getTable tabName = .ok ⟨tabName,newCols tabName 0 colDefs,[]⟩ ∧
      ∀ name ≠ tabName, db'.getTable name = db.getTable name := by
  rw [createTable] at done
  split at done
  · cases done
  · rename_i free
    cases done
    refine ⟨fun tab listed => free ?_,?_,fun name apart => ?_⟩
    · rw [getTable] at listed
      rw [isTable]
      split at listed
      · rename_i here
        rw [here]
        rfl
      · cases listed
    · simp [getTable]
    · have differs : (name == tabName) = false := beq_eq_false_iff_ne.mpr apart
      simp [getTable,List.lookup_cons,differs]

theorem lookupFilter (tabs : List (String × TabMeta)) (apart : name ≠ tabName) :
    (tabs.filter fun entry => entry.1 ≠ tabName).lookup name = tabs.lookup name := by
  induction tabs with
  | nil => rfl
  | cons entry tabs ih =>
    obtain ⟨key,tab⟩ := entry
    by_cases here : key = tabName
    · have differs : (name == key) = false := beq_eq_false_iff_ne.mpr (here ▸ apart)
      rw [List.filter_cons_of_neg (by simpa using here),ih,List.lookup_cons,differs]
    · rw [List.filter_cons_of_pos (by simpa using here),List.lookup_cons,List.lookup_cons,ih]

theorem lookupDropped (tabs : List (String × TabMeta)) :
    (tabs.filter fun entry => entry.1 ≠ tabName).lookup tabName = none := by
  rw [List.lookup_eq_none_iff]
  intro entry mem
  have kept : entry.1 ≠ tabName := of_decide_eq_true (List.mem_filter.mp mem).2
  exact bne_iff_ne.mpr kept.symm

theorem droppedTable (done : db.dropTable tabName = .ok db') :
    (∀ tab, db'.getTable tabName ≠ .ok tab) ∧ ∀ name ≠ tabName, db'.getTable name = db.getTable name := by
  rw [dropTable] at done
  obtain ⟨_,_,done⟩ := exceptBind done
  cases done
  refine ⟨fun tab listed => ?_,fun name apart => ?_⟩
  · rw [getTable,lookupDropped] at listed
    cases listed
  · rw [getTable,lookupFilter _ apart,getTable]

theorem lookupSet (tabs : List (String × TabMeta)) : (tabs.map fun entry =>
    if entry.1 = tabName then (entry.1,{entry.2 with indexes := indexes}) else entry).lookup name =
    (tabs.lookup name).map fun tab => if name = tabName then {tab with indexes := indexes} else tab := by
  induction tabs with
  | nil => rfl
  | cons entry tabs ih =>
    obtain ⟨key,tab⟩ := entry
    rw [List.map_cons]
    by_cases here : name = key
    · subst here
      split <;> simp_all
    · have differs : (name == key) = false := beq_eq_false_iff_ne.mpr here
      split <;> simp only [List.lookup_cons,differs,ih]

theorem setListed (listed : db.getTable tabName = .ok tab) :
    (db.setIndexes tabName indexes).getTable tabName = .ok {tab with indexes := indexes} := by
  rw [getTable] at listed
  rw [getTable,setIndexes,lookupSet]
  split at listed
  · rename_i x here
    cases listed
    rw [here]
    simp
  · cases listed

theorem setOther (apart : name ≠ tabName) : (db.setIndexes tabName indexes).getTable name = db.getTable name := by
  rw [getTable,setIndexes,lookupSet,getTable]
  cases db.tabs.lookup name with
  | none => rfl
  | some tab => simp [apart]

end DbMeta

namespace DbDir
variable {s s' : DbDir} {tabName name : String} {tab : TabMeta} {indexes : List IndexMeta} {colDefs : List ColDef}
  {colNames : List String} {db : DbMeta} {fh : RmFileHandle} {records : Rid → Option Bytes}

/- What the DDL statements keep. An index and a table never share a file. -/
structure Sound (s : DbDir) : Prop where
  agreed : s.sm.Agreed
  listed : ∀ name, (s.sm.fhs name).isSome → ∃ tab, s.sm.db.getTable name = .ok tab
  owned : ∀ name, (s.sm.ihs name).isSome → ∃ a tab, s.sm.db.getTable a = .ok tab ∧ ∃ index ∈ tab.indexes, indexName a index = name
  tabFile : ∀ name tab, s.sm.db.getTable name = .ok tab → s.isFile name = true
  indexFile : ∀ a tab, s.sm.db.getTable a = .ok tab → ∀ index ∈ tab.indexes, s.isFile (indexName a index) = true
  clash : ∀ a tab, s.sm.db.getTable a = .ok tab → ∀ index ∈ tab.indexes, ∀ b tab', s.sm.db.getTable b = .ok tab' →
    indexName a index ≠ b

theorem Sound.noTable (sound : s.Sound) (listed : s.sm.db.getTable tabName = .ok tab) {index : IndexMeta}
    (mem : index ∈ tab.indexes) : s.sm.fhs (indexName tabName index) = none := by
  by_contra there
  obtain ⟨tab',other⟩ := sound.listed _ (Option.isSome_iff_ne_none.mpr there)
  exact sound.clash tabName tab listed index mem _ tab' other rfl

theorem Sound.noIndex (sound : s.Sound) (listed : s.sm.db.getTable tabName = .ok tab) : s.sm.ihs tabName = none := by
  by_contra there
  obtain ⟨a,tab',other,index,mem,same⟩ := sound.owned _ (Option.isSome_iff_ne_none.mpr there)
  exact sound.clash a tab' other index mem tabName tab listed same

theorem Sound.named (sound : s.Sound) {a b : String} {ta tb : TabMeta} (one : s.sm.db.getTable a = .ok ta)
    (two : s.sm.db.getTable b = .ok tb) {i j : IndexMeta} (memi : i ∈ ta.indexes) (memj : j ∈ tb.indexes)
    (same : indexName a i = indexName b j) : a = b := by
  by_contra apart
  exact sound.agreed.apart a b ta tb one two apart i memi j memj same

theorem Sound.file (sound : s.Sound) (isFile : ∀ name, s.isFile name = true → s'.isFile name = true) (sm : s'.sm = s.sm) :
    s'.Sound := by
  refine ⟨?_,?_,?_,?_,?_,?_⟩ <;> rw [sm]
  · exact sound.agreed
  · exact sound.listed
  · exact sound.owned
  · exact fun name tab there => isFile _ (sound.tabFile name tab there)
  · exact fun a tab there index mem => isFile _ (sound.indexFile a tab there index mem)
  · exact sound.clash

inductive Created (path : String) (s : DbDir) : EStateM.Result Fault DbDir Unit → Prop where
  | refused {e : Fault} : Created path s (.error e s)
  | done (fresh : s.isFile path = false) : Created path s (.ok () {s with isFile := Function.update s.isFile path true})

theorem createFileRun (path : String) (s : DbDir) : Created path s (createFile path s) := by
  rw [createFile,getBind]
  split
  · exact .refused
  · rename_i fresh
    split
    · exact .refused
    · exact .done (by simpa using fresh)

def closed (s : DbDir) (names : List String) : DbDir :=
  ⟨{s.sm with ihs := fun name => if name ∈ names then none else s.sm.ihs name},
    fun name => if name ∈ names then false else s.isFile name⟩

theorem closeAndDestroyRun {index : IndexMeta} (file : s.isFile (indexName tabName index) = true)
    (free : s.sm.fhs (indexName tabName index) = none) :
    closeAndDestroyIndex tabName index s = .ok () (s.closed [indexName tabName index]) := by
  rw [closeAndDestroyIndex,modifyBind,destroyFile,getBind]
  simp only [file,free,Function.update_self,Option.isSome_none,or_self,Bool.true_eq_false,if_false,Bool.false_eq_true]
  refine congrArg (EStateM.Result.ok ()) ?_
  rw [closed]
  congr 1
  · congr 1
    funext name
    simp [Function.update_apply]
  · funext name
    simp [Function.update_apply]

theorem closedCons (name : String) (names : List String) : (s.closed [name]).closed names = s.closed (name :: names) := by
  simp only [closed,List.mem_cons]
  congr 1
  · congr 1
    funext x
    by_cases here : x ∈ names <;> simp [here]
  · funext x
    by_cases here : x ∈ names <;> simp [here]

theorem closeAllRun (once : (indexes.map (indexName tabName)).Nodup)
    (file : ∀ index ∈ indexes, s.isFile (indexName tabName index) = true)
    (free : ∀ index ∈ indexes, s.sm.fhs (indexName tabName index) = none) :
    indexes.forM (closeAndDestroyIndex tabName) s = .ok () (s.closed (indexes.map (indexName tabName))) := by
  induction indexes generalizing s with
  | nil => exact congrArg (EStateM.Result.ok ()) (by simp [closed])
  | cons index indexes ih =>
    rw [List.map_cons,List.nodup_cons] at once
    rw [List.forM,bindEq (closeAndDestroyRun (file index List.mem_cons_self) (free index List.mem_cons_self)),
      ih once.2 ?_ ?_,closedCons,List.map_cons]
    · intro other mem
      have apart : indexName tabName other ≠ indexName tabName index := fun same => once.1 (same ▸ List.mem_map_of_mem mem)
      simp only [closed,List.mem_singleton,if_neg apart]
      exact file other (List.mem_cons_of_mem _ mem)
    · exact fun other mem => free other (List.mem_cons_of_mem _ mem)

end DbDir
end Rmdb
