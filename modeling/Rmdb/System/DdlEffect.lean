import Rmdb.System.Ddl

/-! Each DDL statement keeps the catalog, the files and the open handles in step, and leaves the
tables alone that it does not drop. -/
namespace Rmdb
open Record Index

inductive Ddl where
  | createTable (tabName : String) (colDefs : List ColDef)
  | dropTable (tabName : String) (pinned : Bool)
  | createIndex (tabName : String) (colNames : List String)
  | dropIndex (tabName : String) (colNames : List String)

namespace Ddl
open DbDir

def run : Ddl → M DbDir Unit
  | createTable tabName colDefs => DbDir.createTable tabName colDefs
  | dropTable tabName pinned => DbDir.dropTable tabName pinned
  | createIndex tabName colNames => DbDir.createIndex tabName colNames
  | dropIndex tabName colNames => DbDir.dropIndex tabName colNames

def Makes (stmt : Ddl) (tabName : String) (tab : TabMeta) (records : Rid → Option Bytes) (index : IndexMeta) : Prop :=
  ∃ colNames cols, stmt = .createIndex tabName colNames ∧ keyCols tab colNames = .ok cols ∧ index = ⟨tabName,cols⟩ ∧
    UniqueKeys records index

structure Leaves (stmt : Ddl) (s s' : DbDir) (tabName : String) (tab : TabMeta) : Prop where
  file : s'.sm.fhs tabName = s.sm.fhs tabName
  indexes : ∃ tab', s'.sm.db.getTable tabName = .ok tab' ∧ ∀ index ∈ tab'.indexes, index ∈ tab.indexes ∨
    ∃ fh, s.sm.fhs tabName = some fh ∧ stmt.Makes tabName tab fh.records index

/- No table that has indexes is kept by its pinned pages: they would be gone from the disk and not from the catalog. -/
def Finishes (s : DbDir) : Ddl → Prop
  | dropTable tabName pinned => pinned = true → ∀ tab, s.sm.db.getTable tabName = .ok tab → tab.indexes = []
  | _ => True

structure Effect (stmt : Ddl) (s s' : DbDir) : Prop where
  sound : s'.Sound
  leaves : ∀ tabName tab, s.sm.db.getTable tabName = .ok tab → stmt ≠ .dropTable tabName false → stmt.Leaves s s' tabName tab

section Effects
variable {s s' : DbDir} {stmt : Ddl} {tabName : String} {tab : TabMeta} {colDefs : List ColDef} {colNames : List String}
  {db : DbMeta} {fh : RmFileHandle}

theorem Effect.file (sound : s.Sound) (isFile : ∀ name, s.isFile name = true → s'.isFile name = true) (sm : s'.sm = s.sm) :
    Effect stmt s s' := by
  refine ⟨sound.file isFile sm,fun tabName tab listed _ => ⟨by rw [sm],tab,by rw [sm]; exact listed,fun index mem => .inl mem⟩⟩

theorem Effect.nothing (sound : s.Sound) : Effect stmt s s := .file sound (fun _ there => there) rfl

theorem newColsInside {colDefs : List ColDef} {offset : Nat} {col : ColMeta} (mem : col ∈ newCols tabName offset colDefs) :
    col.offset+col.len ≤ offset+(colDefs.map ColDef.len).sum := by
  induction colDefs generalizing offset with
  | nil => cases mem
  | cons colDef colDefs ih =>
    rw [List.map_cons,List.sum_cons]
    rcases List.mem_cons.mp mem with rfl | later
    · dsimp only
      omega
    · have rest := ih later
      omega

theorem createTableEffect (sound : s.Sound) : Effect (.createTable tabName colDefs) s
    (after (DbDir.createTable tabName colDefs s)) := by
  rw [DbDir.createTable,getBind]
  cases made : s.sm.db.createTable tabName colDefs with
  | error e => exact .nothing sound
  | ok db =>
    rw [bindEq (ofExceptOk db s)]
    cases sized : RmManager.createFile (colDefs.map ColDef.len).sum with
    | error e => exact .nothing sound
    | ok file =>
      rw [bindEq (ofExceptOk file s)]
      have created := createFileRun tabName s
      cases run : createFile tabName s with
      | error e s' =>
        rw [run] at created
        cases created
        rw [bindError run]
        exact .nothing sound
      | ok _ s' =>
        rw [run] at created
        cases created with | done fresh => ?_
        rw [bindEq run]
        obtain ⟨free,listed,others⟩ := DbMeta.createdTable made
        have closed : s.sm.fhs tabName = none := by
          by_contra there
          obtain ⟨tab,listed⟩ := sound.listed _ (Option.isSome_iff_ne_none.mpr there)
          exact free tab listed
        have old {name : String} {tab : TabMeta} (found : db.getTable name = .ok tab) (apart : name ≠ tabName) :
            s.sm.db.getTable name = .ok tab := (others name apart).symm.trans found
        have ixApart {a : String} {tab : TabMeta} (found : s.sm.db.getTable a = .ok tab) {index : IndexMeta}
            (mem : index ∈ tab.indexes) : indexName a index ≠ tabName := by
          rintro same
          have there := sound.indexFile a tab found index mem
          rw [same,fresh] at there
          cases there
        change Effect _ s ⟨{s.sm with
          db := db
          fhs := Function.update s.sm.fhs tabName (some ((s.sm.fhs tabName).getD (RmManager.openFile tabName file)))},
          Function.update s.isFile tabName true⟩
        rw [closed,Option.getD_none]
        refine ⟨⟨⟨?_,?_,?_⟩,?_,?_,?_,?_,?_⟩,fun name tab found _ => ?_⟩
        · intro name tab found
          by_cases here : name = tabName
          · subst here
            obtain rfl := Except.ok.inj (listed.symm.trans found)
            refine ⟨RmManager.openFile name file,⟨listed,rfl,?_,⟨fun col mem => DbMeta.newColsOwned mem,fun col mem => ?_,
              fun index mem => nomatch mem⟩,⟨∅,RmManager.createdWell sized name⟩,fun rid record present => ?_⟩,
              fun index mem => nomatch mem⟩
            · exact Function.update_self ..
            · obtain ⟨_,_,rfl⟩ := RmManager.created sized
              have inside := newColsInside mem
              simp only [RmManager.openFile]
              omega
            · rw [RmManager.createdEmpty sized] at present
              cases present
          · obtain ⟨fh,table,agree⟩ := sound.agreed.tables name tab (old found here)
            exact ⟨fh,table.moved found (Function.update_of_ne here ..),agree.moved fun _ _ => rfl⟩
        · intro name tab found
          by_cases here : name = tabName
          · subst here
            obtain rfl := Except.ok.inj (listed.symm.trans found)
            exact List.nodup_nil
          · exact sound.agreed.once name tab (old found here)
        · intro a b ta tb founda foundb apart i memi j memj
          by_cases herea : a = tabName
          · subst herea
            obtain rfl := Except.ok.inj (listed.symm.trans founda)
            cases memi
          by_cases hereb : b = tabName
          · subst hereb
            obtain rfl := Except.ok.inj (listed.symm.trans foundb)
            cases memj
          exact sound.agreed.apart a b ta tb (old founda herea) (old foundb hereb) apart i memi j memj
        · intro name there
          by_cases here : name = tabName
          · subst here
            exact ⟨_,listed⟩
          · simp only [Function.update_of_ne here] at there
            obtain ⟨tab,found⟩ := sound.listed name there
            exact ⟨tab,(others name here).trans found⟩
        · intro name there
          obtain ⟨a,tab,found,index,mem,same⟩ := sound.owned name there
          have apart : a ≠ tabName := by
            rintro rfl
            exact free tab found
          exact ⟨a,tab,(others a apart).trans found,index,mem,same⟩
        · intro name tab found
          by_cases here : name = tabName
          · subst here
            exact Function.update_self ..
          · exact (Function.update_of_ne here ..).trans (sound.tabFile name tab (old found here))
        · intro a tab found index mem
          by_cases here : a = tabName
          · subst here
            obtain rfl := Except.ok.inj (listed.symm.trans found)
            cases mem
          · exact (Function.update_of_ne (ixApart (old found here) mem) ..).trans
              (sound.indexFile a tab (old found here) index mem)
        · intro a tab found index mem b tab' found'
          by_cases here : a = tabName
          · subst here
            obtain rfl := Except.ok.inj (listed.symm.trans found)
            cases mem
          by_cases there : b = tabName
          · exact there ▸ ixApart (old found here) mem
          · exact sound.clash a tab (old found here) index mem b tab' (old found' there)
        · have apart : name ≠ tabName := by
            rintro rfl
            exact free tab found
          exact ⟨Function.update_of_ne apart ..,tab,(others name apart).trans found,fun index mem => .inl mem⟩

theorem dropTableRun (sound : s.Sound) (listed : s.sm.db.getTable tabName = .ok tab) (dropped : s.sm.db.dropTable tabName = .ok db) :
    DbDir.dropTable tabName false s = .ok () ⟨⟨db,Function.update s.sm.fhs tabName none,
      (s.closed (tab.indexes.map (indexName tabName))).sm.ihs⟩,
      Function.update (s.closed (tab.indexes.map (indexName tabName))).isFile tabName false⟩ := by
  let names := tab.indexes.map (indexName tabName)
  have tableName : tabName ∉ names := fun mem => by
    obtain ⟨index,memi,same⟩ := List.mem_map.mp mem
    exact sound.clash tabName tab listed index memi tabName tab listed same
  have gone : DbDir.destroyFile tabName {s.closed names with sm := {(s.closed names).sm with
      fhs := Function.update (s.closed names).sm.fhs tabName none}} = .ok () ⟨{(s.closed names).sm with
      fhs := Function.update (s.closed names).sm.fhs tabName none},Function.update (s.closed names).isFile tabName false⟩ := by
    have file : (s.closed names).isFile tabName = true := (if_neg tableName).trans (sound.tabFile tabName tab listed)
    have none : (s.closed names).sm.ihs tabName = none := (if_neg tableName).trans (sound.noIndex listed)
    rw [DbDir.destroyFile,getBind]
    simp only [file,none,Function.update_self,Option.isSome_none,or_self,Bool.true_eq_false,if_false,Bool.false_eq_true]
    rfl
  have left : (s.closed names).sm.db.dropTable tabName = .ok db := dropped
  rw [DbDir.dropTable,getBind,listed,bindEq (ofExceptOk tab s),Bool.and_false,bindEq (closeAllRun
    (sound.agreed.once tabName tab listed) (sound.indexFile tabName tab listed) fun index mem => sound.noTable listed mem),
    if_neg Bool.false_ne_true,modifyBind,bindEq gone,getBind,
    show (ofExcept (DbMeta.dropTable (s.closed names).sm.db tabName) : M DbDir DbMeta) = ofExcept (.ok db) by rw [left],
    bindEq (ofExceptOk db _)]
  rfl

theorem dropTableEffect {pinned : Bool} (sound : s.Sound) (finishes : Finishes s (.dropTable tabName pinned)) :
    Effect (.dropTable tabName pinned) s (after (DbDir.dropTable tabName pinned s)) := by
  cases listed : s.sm.db.getTable tabName with
  | error e =>
    rw [DbDir.dropTable,getBind,listed]
    exact .nothing sound
  | ok tab =>
    cases pinned with
    | true =>
      obtain ⟨fh,table,_⟩ := sound.agreed.tables tabName tab listed
      rw [DbDir.dropTable,getBind,listed,bindEq (ofExceptOk tab s),table.handle,Option.isSome_some,Bool.true_and,
        finishes rfl tab listed]
      exact .nothing sound
    | false => ?_
    obtain ⟨db,dropped⟩ : ∃ db, s.sm.db.dropTable tabName = .ok db := by
      rw [DbMeta.dropTable,listed]
      exact ⟨_,rfl⟩
    let names := tab.indexes.map (indexName tabName)
    rw [dropTableRun sound listed dropped]
    change Effect _ s ⟨⟨db,Function.update s.sm.fhs tabName none,(s.closed names).sm.ihs⟩,
      Function.update (s.closed names).isFile tabName false⟩
    obtain ⟨free,others⟩ := DbMeta.droppedTable dropped
    have kept {name : String} {tab : TabMeta} (found : db.getTable name = .ok tab) : name ≠ tabName := by
      rintro rfl
      exact free tab found
    have old {name : String} {tab : TabMeta} (found : db.getTable name = .ok tab) : s.sm.db.getTable name = .ok tab :=
      (others name (kept found)).symm.trans found
    have ixApart {a : String} {tab' : TabMeta} (found : db.getTable a = .ok tab') {index : IndexMeta}
        (mem : index ∈ tab'.indexes) : indexName a index ∉ names := fun mem' => by
      obtain ⟨other,memo,same⟩ := List.mem_map.mp mem'
      exact kept found (sound.named listed (old found) memo mem same).symm
    refine ⟨⟨⟨?_,?_,?_⟩,?_,?_,?_,?_,?_⟩,fun name tab found spared => ?_⟩
    · intro name tab found
      obtain ⟨fh,table,agree⟩ := sound.agreed.tables name tab (old found)
      exact ⟨fh,table.moved found (Function.update_of_ne (kept found) ..),agree.moved fun index mem =>
        if_neg (ixApart found mem)⟩
    · exact fun name tab found => sound.agreed.once name tab (old found)
    · exact fun a b ta tb founda foundb => sound.agreed.apart a b ta tb (old founda) (old foundb)
    · intro name there
      by_cases here : name = tabName
      · subst here
        simp only [Function.update_self] at there
        cases there
      · simp only [Function.update_of_ne here] at there
        obtain ⟨tab,found⟩ := sound.listed name there
        exact ⟨tab,(others name here).trans found⟩
    · intro name there
      by_cases mem : name ∈ names
      · rw [show (s.closed names).sm.ihs name = none from if_pos mem] at there
        cases there
      · rw [show (s.closed names).sm.ihs name = s.sm.ihs name from if_neg mem] at there
        obtain ⟨a,tab',found,index,memi,same⟩ := sound.owned name there
        have apart : a ≠ tabName := by
          rintro rfl
          obtain rfl := Except.ok.inj (listed.symm.trans found)
          exact mem (same ▸ List.mem_map_of_mem memi)
        exact ⟨a,tab',(others a apart).trans found,index,memi,same⟩
    · intro name tab' found
      have away : name ∉ names := fun mem => by
        obtain ⟨index,memi,same⟩ := List.mem_map.mp mem
        exact sound.clash tabName tab listed index memi name tab' (old found) same
      exact (Function.update_of_ne (kept found) ..).trans ((if_neg away).trans (sound.tabFile name tab' (old found)))
    · intro a tab' found index mem
      have away := sound.clash a tab' (old found) index mem tabName tab listed
      exact (Function.update_of_ne away ..).trans ((if_neg (ixApart found mem)).trans
        (sound.indexFile a tab' (old found) index mem))
    · exact fun a tab found index mem b tab' found' => sound.clash a tab (old found) index mem b tab' (old found')
    · have apart : name ≠ tabName := by
        rintro rfl
        exact spared rfl
      exact ⟨Function.update_of_ne apart ..,tab,(others name apart).trans found,fun index mem => .inl mem⟩

theorem reindexedEffect {sm : SmManager} {isFile : String → Bool} {indexes : List IndexMeta} (sound : s.Sound)
    (listed : s.sm.db.getTable tabName = .ok tab) (table : s.sm.HasTable tabName tab fh)
    (db : sm.db = s.sm.db.setIndexes tabName indexes) (files : sm.fhs = s.sm.fhs)
    (indexed : ∀ index ∈ indexes, ∀ col ∈ index.cols, tab.getCol col.name = .ok col.toColMeta)
    (agree : sm.IndexesAgree tabName indexes fh.records) (once : (indexes.map (indexName tabName)).Nodup)
    (file : ∀ index ∈ indexes, isFile (indexName tabName index) = true)
    (origin : ∀ index ∈ indexes, index ∈ tab.indexes ∨ s.isFile (indexName tabName index) = false ∧
      stmt.Makes tabName tab fh.records index)
    (owned : ∀ name, (sm.ihs name).isSome → (∃ index ∈ indexes, indexName tabName index = name) ∨
      sm.ihs name = s.sm.ihs name ∧ ∀ index ∈ tab.indexes, indexName tabName index ≠ name)
    (others : ∀ name, s.isFile name = true → (∀ index ∈ tab.indexes, indexName tabName index ≠ name) →
      sm.ihs name = s.sm.ihs name ∧ isFile name = true) : Effect stmt s ⟨sm,isFile⟩ := by
  have here : sm.db.getTable tabName = .ok {tab with indexes := indexes} := db ▸ DbMeta.setListed listed
  have other {name : String} (apart : name ≠ tabName) : sm.db.getTable name = s.sm.db.getTable name :=
    db ▸ DbMeta.setOther apart
  have tableAway {name : String} {tab' : TabMeta} (found : s.sm.db.getTable name = .ok tab') :
      ∀ index ∈ indexes, indexName tabName index ≠ name := by
    intro index mem same
    rcases origin index mem with old | ⟨fresh,_⟩
    · exact sound.clash tabName tab listed index old name tab' found same
    · rw [same,sound.tabFile name tab' found] at fresh
      cases fresh
  have indexAway {a : String} {tab' : TabMeta} (found : s.sm.db.getTable a = .ok tab') (apart : a ≠ tabName)
      {i : IndexMeta} (memi : i ∈ tab'.indexes) : ∀ index ∈ indexes, indexName tabName index ≠ indexName a i := by
    intro index mem same
    rcases origin index mem with old | ⟨fresh,_⟩
    · exact apart (sound.named found listed memi old same.symm)
    · rw [same,sound.indexFile a tab' found i memi] at fresh
      cases fresh
  have keeps {a : String} {tab' : TabMeta} (found : s.sm.db.getTable a = .ok tab') (apart : a ≠ tabName) {i : IndexMeta}
      (memi : i ∈ tab'.indexes) := others (indexName a i) (sound.indexFile a tab' found i memi) fun index mem same =>
    apart (sound.named found listed memi mem same.symm)
  refine ⟨⟨⟨?_,?_,?_⟩,?_,?_,?_,?_,?_⟩,fun name tab' found _ => ?_⟩
  · intro name tab' found
    by_cases own : name = tabName
    · subst own
      obtain rfl := Except.ok.inj (here.symm.trans found)
      exact ⟨fh,⟨here,table.named,files ▸ table.handle,⟨table.valid.owned,table.valid.inside,indexed⟩,table.usable,
        table.sized⟩,agree⟩
    · have old := (other own).symm.trans found
      obtain ⟨fh',table',agree'⟩ := sound.agreed.tables name tab' old
      exact ⟨fh',table'.moved found (congrFun files name),agree'.moved fun index mem => (keeps old own mem).1⟩
  · intro name tab' found
    by_cases own : name = tabName
    · subst own
      obtain rfl := Except.ok.inj (here.symm.trans found)
      exact once
    · exact sound.agreed.once name tab' ((other own).symm.trans found)
  · intro a b ta tb founda foundb apart i memi j memj
    by_cases owna : a = tabName
    · subst owna
      obtain rfl := Except.ok.inj (here.symm.trans founda)
      exact indexAway ((other (Ne.symm apart)).symm.trans foundb) (Ne.symm apart) memj i memi
    by_cases ownb : b = tabName
    · subst ownb
      obtain rfl := Except.ok.inj (here.symm.trans foundb)
      exact (indexAway ((other owna).symm.trans founda) owna memi j memj).symm
    exact sound.agreed.apart a b ta tb ((other owna).symm.trans founda) ((other ownb).symm.trans foundb) apart i memi j memj
  · intro name there
    obtain ⟨tab',found⟩ := sound.listed name (files ▸ there)
    by_cases own : name = tabName
    · exact own ▸ ⟨_,here⟩
    · exact ⟨tab',(other own).trans found⟩
  · intro name there
    rcases owned name there with ⟨index,mem,same⟩ | ⟨old,away⟩
    · exact ⟨tabName,_,here,index,mem,same⟩
    · obtain ⟨a,tab',found,index,mem,same⟩ := sound.owned name (old ▸ there)
      have apart : a ≠ tabName := by
        rintro rfl
        obtain rfl := Except.ok.inj (listed.symm.trans found)
        exact away index mem same
      exact ⟨a,tab',(other apart).trans found,index,mem,same⟩
  · intro name tab' found
    by_cases own : name = tabName
    · subst own
      exact (others name (sound.tabFile name tab listed) fun index mem => sound.clash name tab listed index mem name tab listed).2
    · have old := (other own).symm.trans found
      exact (others name (sound.tabFile name tab' old) fun index mem => sound.clash tabName tab listed index mem name tab' old).2
  · intro a tab' found index mem
    by_cases own : a = tabName
    · subst own
      obtain rfl := Except.ok.inj (here.symm.trans found)
      exact file index mem
    · exact (keeps ((other own).symm.trans found) own mem).2
  · intro a tab' found index mem b tab'' found'
    have there : ∃ tab, s.sm.db.getTable b = .ok tab := by
      by_cases own : b = tabName
      · exact own ▸ ⟨_,listed⟩
      · exact ⟨_,(other own).symm.trans found'⟩
    obtain ⟨tabb,old⟩ := there
    by_cases own : a = tabName
    · subst own
      obtain rfl := Except.ok.inj (here.symm.trans found)
      exact tableAway old index mem
    · exact sound.clash a tab' ((other own).symm.trans found) index mem b tabb old
  · by_cases own : name = tabName
    · subst own
      obtain rfl := Except.ok.inj (listed.symm.trans found)
      exact ⟨congrFun files name,_,here,fun index mem => (origin index mem).imp id fun made => ⟨fh,table.handle,made.2⟩⟩
    · exact ⟨congrFun files name,tab',(other own).trans found,fun index mem => .inl mem⟩

theorem builtIndex {cols : List KeyCol} {file : IxFile (IxBytes (ranks cols))} {tree : IxIndexHandle (IxBytes (ranks cols))}
    {fuel : Nat} {start : Rid} {ih : IxHandle} (table : s.sm.HasTable tabName tab fh) (found : keyCols tab colNames = .ok cols)
    (created : IxManager.createIndex tabName (ranks cols) = .ok file) (opened : IxManager.openIndex file = .ok tree)
    (begun : RmScan.begin fh = .ok start) (filled : fillIndex fh ⟨tabName,cols⟩ fuel start ⟨cols,tree⟩ = .ok ih) :
    ∃ m, ih.cols = cols ∧ ih.Maps m ∧ Agrees fh.records ⟨tabName,cols⟩ m := by
  obtain ⟨lost,well⟩ := table.usable
  obtain ⟨start',begun',enumerates⟩ := RmScan.scanEnumerates well
  obtain rfl := Except.ok.inj (begun.symm.trans begun')
  have fits (r : Rid) (b : Bytes) (present : fh.records r = some b) :
      (buildIndexKey ⟨tabName,cols⟩ b).length = colTotLen (ranks cols) := by
    refine keyLength fun col mem => ?_
    rw [table.sized r b present]
    exact table.valid.inside _ (getColMem (keyColsFound found col mem)).1
  have empty : Agrees (fun _ => none) ⟨tabName,cols⟩ fun _ => none := by
    simp [Agrees]
  obtain ⟨m,cols',maps,agrees⟩ := @fillIndexRun fh ⟨tabName,cols⟩ ⟨cols,tree⟩ ih (fun _ => none) (fun _ => none) _ _ _
    enumerates (RmScan.ridsNodup fh) (fun _ _ => rfl) (fun r mem => RmScan.ridsMem.mp mem) fits rfl
    (createdMaps created opened) empty filled
  have all : (fun r => if r ∈ RmScan.rids fh then fh.records r else none) = fh.records := by
    funext r
    split
    · rfl
    · rename_i absent
      rw [RmScan.ridsMem,not_exists] at absent
      exact (Option.eq_none_iff_forall_ne_some.mpr absent).symm
  exact ⟨m,cols',maps,all ▸ agrees⟩

theorem discarded {e : Fault} {name : String} (sound : s.Sound) (fresh : s.isFile name = false) : Effect stmt s
    (after ((do
      DbDir.destroyFile name
      throw e : M DbDir Unit) ⟨s.sm,Function.update s.isFile name true⟩)) := by
  have stays (b : Bool) (other : String) (there : s.isFile other = true) : Function.update s.isFile name b other = true := by
    have away : other ≠ name := by
      rintro rfl
      rw [fresh] at there
      cases there
    rw [Function.update_of_ne away,there]
  have left : Effect stmt s ⟨s.sm,Function.update s.isFile name true⟩ := .file sound (stays true) rfl
  have destroyed : after (DbDir.destroyFile name ⟨s.sm,Function.update s.isFile name true⟩) =
      ⟨s.sm,Function.update s.isFile name true⟩ ∨ after (DbDir.destroyFile name ⟨s.sm,Function.update s.isFile name true⟩) =
      ⟨s.sm,Function.update s.isFile name false⟩ := by
    rw [DbDir.destroyFile,getBind]
    split
    · exact .inl rfl
    · split
      · exact .inl rfl
      · exact .inr (by simp [after,set,EStateM.set,Function.update_idem])
  cases run : DbDir.destroyFile name ⟨s.sm,Function.update s.isFile name true⟩ with
  | error e' s' =>
    rw [run] at destroyed
    rw [bindError run]
    rcases destroyed with same | same <;> change s' = _ at same <;> subst same
    · exact left
    · exact .file sound (stays false) rfl
  | ok _ s' =>
    rw [run] at destroyed
    rw [bindEq run]
    rcases destroyed with same | same <;> change s' = _ at same <;> subst same
    · exact left
    · exact .file sound (stays false) rfl

theorem createIndexEffect (sound : s.Sound) : Effect (.createIndex tabName colNames) s
    (after (DbDir.createIndex tabName colNames s)) := by
  rw [DbDir.createIndex,getBind]
  cases listed : s.sm.db.getTable tabName with
  | error e => exact .nothing sound
  | ok tab =>
    rw [bindEq (ofExceptOk tab s)]
    by_cases has : tab.isIndex colNames
    · rw [if_pos has]
      exact .nothing sound
    · rw [if_neg has]
      cases found : keyCols tab colNames with
      | error e => exact .nothing sound
      | ok cols =>
        rw [bindEq (ofExceptOk cols s)]
        let name := indexName tabName ⟨tabName,cols⟩
        have created := createFileRun name s
        cases run : createFile name s with
        | error e s' =>
          rw [run] at created
          cases created
          rw [bindError run]
          exact .nothing sound
        | ok _ s' =>
          rw [run] at created
          cases created with | done fresh => ?_
          have stays (name' : String) (there : s.isFile name' = true) : Function.update s.isFile name true name' = true := by
            rw [Function.update_apply]
            split
            · rfl
            · exact there
          have left : Effect (.createIndex tabName colNames) s ⟨s.sm,Function.update s.isFile name true⟩ :=
            .file sound stays rfl
          rw [bindEq run]
          cases made : IxManager.createIndex tabName (ranks cols) with
          | error e => exact left
          | ok file =>
            rw [bindEq (ofExceptOk file _)]
            cases opened : IxManager.openIndex file with
            | error e => exact left
            | ok tree =>
              obtain ⟨fh,table,agree⟩ := sound.agreed.tables tabName tab listed
              have handle : s.sm.fileHandle tabName = .ok fh := by
                rw [SmManager.fileHandle,table.handle]
              rw [bindEq (ofExceptOk tree _),handle,bindEq (ofExceptOk fh _)]
              cases begun : RmScan.begin fh with
              | error e => exact discarded sound fresh
              | ok start =>
                simp only [bind,Except.bind]
                cases filled : fillIndex fh ⟨tabName,cols⟩ (fh.fileHdr.numPages.toNat*fh.fileHdr.numRecordsPerPage+1) start
                    ⟨cols,tree⟩ with
                | error e => exact discarded sound fresh
                | ok ih =>
                  obtain ⟨m,same,maps,agrees⟩ := builtIndex table found made opened begun filled
                  have apart : ∀ index ∈ tab.indexes, indexName tabName index ≠ name := by
                    intro index mem equal
                    have there := sound.indexFile tabName tab listed index mem
                    rw [equal,fresh] at there
                    cases there
                  refine @reindexedEffect _ _ _ _ _ _ _ (tab.indexes ++ [⟨tabName,cols⟩]) sound listed table rfl rfl ?_ ?_ ?_ ?_ ?_ ?_ ?_
                  · intro index mem
                    rcases List.mem_append.mp mem with old | new
                    · exact table.valid.indexed index old
                    · obtain rfl := List.mem_singleton.mp new
                      exact keyColsFound found
                  · intro index mem
                    rcases List.mem_append.mp mem with old | new
                    · exact agree.moved (fun index mem => Function.update_of_ne (apart index mem) ..) index old
                    · obtain rfl := List.mem_singleton.mp new
                      exact ⟨ih,m,⟨Function.update_self ..,same,maps⟩,agrees⟩
                  · rw [List.map_append,List.nodup_append]
                    refine ⟨sound.agreed.once tabName tab listed,List.nodup_singleton _,?_⟩
                    intro a mema b memb
                    obtain ⟨index,mem,rfl⟩ := List.mem_map.mp mema
                    obtain rfl := List.mem_singleton.mp memb
                    exact apart index mem
                  · intro index mem
                    rcases List.mem_append.mp mem with old | new
                    · exact stays _ (sound.indexFile tabName tab listed index old)
                    · obtain rfl := List.mem_singleton.mp new
                      exact Function.update_self ..
                  · intro index mem
                    rcases List.mem_append.mp mem with old | new
                    · exact .inl old
                    · obtain rfl := List.mem_singleton.mp new
                      exact .inr ⟨fresh,colNames,cols,rfl,found,rfl,agrees.unique⟩
                  · intro other there
                    by_cases own : other = name
                    · exact .inl ⟨_,List.mem_append_right _ List.mem_cons_self,own.symm⟩
                    by_cases old : ∃ index ∈ tab.indexes, indexName tabName index = other
                    · obtain ⟨index,mem,same⟩ := old
                      exact .inl ⟨index,List.mem_append_left _ mem,same⟩
                    · exact .inr ⟨Function.update_of_ne own ..,fun index mem same => old ⟨index,mem,same⟩⟩
                  · intro other there _
                    have away : other ≠ name := by
                      rintro rfl
                      rw [fresh] at there
                      cases there
                    exact ⟨Function.update_of_ne away ..,stays other there⟩

theorem eraseSplit {index : IndexMeta} (found : tab.getIndexMeta colNames = .ok index) : ∃ front back,
    tab.indexes = front ++ index :: back ∧ eraseIndex colNames tab.indexes = front ++ back := by
  rw [TabMeta.getIndexMeta] at found
  split at found
  · rename_i x here
    cases found
    obtain ⟨named,front,back,split,before⟩ := List.find?_eq_some_iff_append.mp here
    refine ⟨front,back,split,?_⟩
    rw [eraseIndex,split,List.eraseP_append_right _ (by simpa using before),List.eraseP_cons_of_pos (by simpa using named)]
  · cases found

theorem dropIndexEffect (sound : s.Sound) : Effect (.dropIndex tabName colNames) s
    (after (DbDir.dropIndex tabName colNames s)) := by
  rw [DbDir.dropIndex,getBind]
  cases listed : s.sm.db.getTable tabName with
  | error e => exact .nothing sound
  | ok tab =>
    rw [bindEq (ofExceptOk tab s)]
    cases found : tab.getIndexMeta colNames with
    | error e => exact .nothing sound
    | ok index =>
      obtain ⟨front,back,split,erased⟩ := eraseSplit found
      have memAll {other : IndexMeta} (mem : other ∈ front ++ back) : other ∈ tab.indexes := by
        rw [split]
        rcases List.mem_append.mp mem with mem | mem
        · exact List.mem_append_left _ mem
        · exact List.mem_append_right _ (List.mem_cons_of_mem _ mem)
      have mem : index ∈ tab.indexes := by
        rw [split]
        exact List.mem_append_right _ List.mem_cons_self
      have once := sound.agreed.once tabName tab listed
      rw [split,List.map_append,List.map_cons,List.nodup_middle,← List.map_append,List.nodup_cons] at once
      let name := indexName tabName index
      have apart : ∀ other ∈ front ++ back, indexName tabName other ≠ name := fun other mem same =>
        once.1 (List.mem_map.mpr ⟨other,mem,same⟩)
      rw [bindEq (ofExceptOk index s),bindEq (closeAndDestroyRun (sound.indexFile tabName tab listed index mem)
        (sound.noTable listed mem))]
      obtain ⟨fh,table,agree⟩ := sound.agreed.tables tabName tab listed
      have open_ {other : String} (away : other ≠ name) : other ∉ [name] := fun mem => away (List.mem_singleton.mp mem)
      change Effect _ s ⟨{(s.closed [name]).sm with db := s.sm.db.setIndexes tabName (eraseIndex colNames tab.indexes)},
        (s.closed [name]).isFile⟩
      rw [erased]
      refine @reindexedEffect _ _ _ _ _ _ _ (front ++ back) sound listed table rfl rfl ?_ ?_ once.2 ?_ ?_ ?_ ?_
      · exact fun other mem => table.valid.indexed other (memAll mem)
      · have rest : s.sm.IndexesAgree tabName (front ++ back) fh.records := fun other mem => agree other (memAll mem)
        exact rest.moved fun other mem => if_neg (open_ (apart other mem))
      · exact fun other mem => (if_neg (open_ (apart other mem))).trans (sound.indexFile tabName tab listed other (memAll mem))
      · exact fun other mem => .inl (memAll mem)
      · intro other there
        by_cases own : other = name
        · rw [own,show ({(s.closed [name]).sm with db := s.sm.db.setIndexes tabName (front ++ back)} : SmManager).ihs name =
            none from if_pos List.mem_cons_self] at there
          cases there
        by_cases old : ∃ i ∈ front ++ back, indexName tabName i = other
        · exact .inl old
        · refine .inr ⟨if_neg (open_ own),fun i memi same => old ?_⟩
          rw [split] at memi
          rcases List.mem_append.mp memi with memi | memi
          · exact ⟨i,List.mem_append_left _ memi,same⟩
          · rcases List.mem_cons.mp memi with rfl | memi
            · exact absurd same.symm own
            · exact ⟨i,List.mem_append_right _ memi,same⟩
      · intro other there away
        have own : other ≠ name := fun same => away index mem same.symm
        exact ⟨if_neg (open_ own),(if_neg (open_ own)).trans there⟩

theorem effect (stmt : Ddl) (sound : s.Sound) (finishes : stmt.Finishes s) : stmt.Effect s (after (stmt.run s)) := by
  cases stmt with
  | createTable tabName colDefs => exact createTableEffect sound
  | dropTable tabName pinned => exact dropTableEffect sound finishes
  | createIndex tabName colNames => exact createIndexEffect sound
  | dropIndex tabName colNames => exact dropIndexEffect sound

end Effects
end Ddl

namespace DbDir

def empty : DbDir := ⟨⟨⟨"db",[]⟩,fun _ => none,fun _ => none⟩,fun _ => false⟩
def oneTable : DbDir := after ((Ddl.createTable "t" [⟨"a",.int,4⟩]).run empty)
def oneIndex : DbDir := after ((Ddl.createIndex "t" ["a"]).run oneTable)

theorem emptySound : empty.Sound := by
  have nothing (name : String) (tab : TabMeta) (listed : empty.sm.db.getTable name = .ok tab) : False := by cases listed
  exact ⟨⟨fun a tab listed => (nothing a tab listed).elim,fun a tab listed => (nothing a tab listed).elim,
    fun a _ tab _ listed => (nothing a tab listed).elim⟩,nofun,nofun,fun a tab listed => (nothing a tab listed).elim,
    fun a tab listed => (nothing a tab listed).elim,fun a tab listed => (nothing a tab listed).elim⟩

theorem oneTableSound : oneTable.Sound := (Ddl.effect (.createTable "t" [⟨"a",.int,4⟩]) emptySound trivial).sound

theorem oneIndexSound : oneIndex.Sound := (Ddl.effect (.createIndex "t" ["a"]) oneTableSound trivial).sound

end DbDir
end Rmdb
