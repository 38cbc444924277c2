import Rmdb.Execution.RawOrder
import Rmdb.System.Ddl
import Rmdb.System.TableLayout

/-! `create_index` with the files that are on disk and those that are open. A column has the length
that the catalog holds; the one of a `CHAR` column can be negative. -/
namespace Rmdb
open Record Index

structure StoredCol extends Layout.ColMeta where
  named : name ≠ ""
  fixed : match type with
    | .int => len = 4
    | .bigint => len = 8
    | .datetime => len = 8
    | .float => len = 4
    | .string => True

structure IndexedTable where
  cols : List StoredCol
  indexes : List (List StoredCol)

structure OpenDir where
  tabs : String → Option IndexedTable
  fhs : String → Option RmFileHandle
  ihs : String → Option IxHandle
  isFile : String → Bool
  isOpen : String → Bool

namespace IndexedTable

def isIndex (tab : IndexedTable) (colNames : List String) : Bool :=
  tab.indexes.any fun cols => (cols.map fun col => col.name) = colNames

def getCol (tab : IndexedTable) (colName : String) : Except Fault StoredCol :=
  match tab.cols.find? fun col => col.name = colName with
  | some col => .ok col
  | none => .error (.error (.columnNotFound colName))

def getCols (tab : IndexedTable) (colNames : List String) : Except Fault (List StoredCol) := colNames.mapM tab.getCol

end IndexedTable

namespace StoredCol

theorem keyFixed (col : StoredCol) : match col.type with
    | .int => col.len.toNat = 4
    | .bigint => col.len.toNat = 8
    | .datetime => col.len.toNat = 8
    | .float => col.len.toNat = 4
    | .string => True := by
  obtain ⟨⟨tabName,name,type,len,offset⟩,named,fixed⟩ := col
  cases type with
  | string => trivial
  | _ => exact congrArg Int.toNat fixed

def key (col : StoredCol) : KeyCol := ⟨⟨col.tabName,col.name,col.type,col.len.toNat,col.offset.toNat⟩,col.named,col.keyFixed⟩

end StoredCol

def keys (cols : List StoredCol) : List KeyCol := cols.map StoredCol.key

def keyLen (cols : List StoredCol) : Int := cols.foldl (fun len col => narrow (len+col.len)) 0

def nodeRoom : Nat := pageSize-IxManager.ixPageHdrSize

/- `col_tot_len + sizeof(Rid)` is a `size_t`, which a negative length makes zero or huge. -/
def storedOrder (keyLen : Int) : Except Fault Nat :=
  let slot := ((keyLen+IxManager.ridSize)%2^64).toNat
  if slot = 0 then .error .divideByZero
  else if 3 < nodeRoom/slot then .ok (nodeRoom/slot-1) else .error (.assertion "btree_order > 2")

namespace OpenDir

def createFile (path : String) : M OpenDir Unit := do
  let s ← get
  if s.isFile path then raise (.fileExists path)
  else if IxManager.nameMax < path.utf8ByteSize then raise (.unix "File name too long")
  else set {s with isFile := Function.update s.isFile path true}

def openFile (path : String) : M OpenDir Unit := do
  let s ← get
  if s.isFile path = false then raise (.fileNotFound path)
  else set {s with isOpen := Function.update s.isOpen path true}

def closeFile (path : String) : M OpenDir Unit := modify fun s => {s with isOpen := Function.update s.isOpen path false}

def destroyFile (path : String) : M OpenDir Unit := do
  let s ← get
  if s.isFile path = false then raise (.fileNotFound path)
  else if s.isOpen path then raise (.fileNotClosed path)
  else set {s with isFile := Function.update s.isFile path false}

abbrev pathOf (tabName : String) (cols : List StoredCol) : String := IxManager.getIndexName tabName (ranks (keys cols))

-- `IxManager::create_index`; the file is there and open when the length turns out to be wrong
def createIndexFile (tabName : String) (cols : List StoredCol) : M OpenDir (IxFile (IxBytes (ranks (keys cols)))) := do
  createFile (pathOf tabName cols)
  openFile (pathOf tabName cols)
  if IxManager.ixMaxColLen < keyLen cols then raise (.invalidColLength (keyLen cols)) else
    let order ← ofExcept (storedOrder (keyLen cols))
    closeFile (pathOf tabName cols)
    pure (IxManager.newFile _ order)

def fileHandle (s : OpenDir) (tabName : String) : Except Fault RmFileHandle :=
  match s.fhs tabName with
  | some fh => .ok fh
  | none => .error .mapAt

def loadIndex (fh : RmFileHandle) (index : IndexMeta) (ih : IxHandle) : Except Fault IxHandle := do
  let start ← RmScan.begin fh
  fillIndex fh index (fh.fileHdr.numPages.toNat*fh.fileHdr.numRecordsPerPage+1) start ih

def createIndex (tabName : String) (colNames : List String) : M OpenDir Unit := do
  let s ← get
  match s.tabs tabName with
  | none => raise (.tableNotFound tabName)
  | some tab =>
    if tab.isIndex colNames then raise (.indexExists tabName colNames) else
      let cols ← ofExcept (tab.getCols colNames)
      let name := pathOf tabName cols
      let file ← createIndexFile tabName cols
      openFile name
      let tree ← ofExcept (IxManager.openIndex file)
      let fh ← ofExcept (s.fileHandle tabName)
      match loadIndex fh ⟨tabName,keys cols⟩ ⟨keys cols,tree⟩ with
      | .error e => do
        closeFile name
        destroyFile name
        throw e
      | .ok ih => modify fun s => {s with
          tabs := Function.update s.tabs tabName (some {tab with indexes := tab.indexes ++ [cols]})
          ihs := Function.update s.ihs name (some ih)}

end OpenDir

section Load
variable {fh : RmFileHandle} {index : IndexMeta} {ih : IxHandle} {m : Bytes → Option Rid}

theorem fillIndexEnds {L : List Rid} {fuel : Nat} {rid : Rid} {recordAt : Rid → Bytes}
    (enumerates : (RmScan.scan fh).Enumerates rid L) (read : ∀ r ∈ L, fh.records r = some (recordAt r))
    (fits : ∀ r ∈ L, (buildIndexKey index (recordAt r)).length = colTotLen (ranks index.cols))
    (cols : ih.cols = index.cols) (maps : ih.Maps m) (enough : L.length < fuel) :
    (∃ ih', fillIndex fh index fuel rid ih = .ok ih') ↔
      (L.map fun r => indexKey index (recordAt r)).Nodup ∧ ∀ r ∈ L, m (indexKey index (recordAt r)) = none := by
  induction L generalizing fuel rid ih m with
  | nil =>
    obtain ⟨fuel,rfl⟩ := Nat.exists_eq_succ_of_ne_zero (Nat.ne_zero_of_lt enough)
    have last : RmScan.isEnd fh rid = true := enumerates
    rw [fillIndex,if_pos last]
    exact iff_of_true ⟨ih,rfl⟩ ⟨List.nodup_nil,by simp⟩
  | cons r L rest =>
    obtain ⟨fuel,rfl⟩ := Nat.exists_eq_succ_of_ne_zero (Nat.ne_zero_of_lt enough)
    obtain ⟨going,here,next,step,later⟩ := enumerates
    have going : RmScan.isEnd fh rid = false := going
    obtain rfl : rid = r := Except.ok.inj here
    have stepped : RmScan.next fh rid = .ok next := step
    have own := fits rid List.mem_cons_self
    have checked := @ensureUniqueRun index ih m (recordAt rid) none cols maps own
    rw [fillIndex,going,if_neg Bool.false_ne_true,RmFileHandle.getRecordSome.mpr (read rid List.mem_cons_self)]
    change (∃ ih', ensureUniqueKey ih (buildIndexKey index (recordAt rid)) >>= _ = Except.ok ih') ↔ _
    cases held : m (indexKey index (recordAt rid)) with
    | some other =>
      have refused : ¬ensureUniqueKey ih (buildIndexKey index (recordAt rid)) = .ok () := fun passed => by
        cases checked.mp passed other held
      refine iff_of_false ?_ fun free => ?_
      · rintro ⟨ih',done⟩
        obtain ⟨_,passed,_⟩ := exceptBind done
        exact refused passed
      · rw [free.2 rid List.mem_cons_self] at held
        cases held
    | none =>
      have passed : ensureUniqueKey ih (buildIndexKey index (recordAt rid)) = .ok () :=
        checked.mpr fun other there => by
          rw [held] at there
          cases there
      obtain ⟨ih₁,inserted,maps₁,cols₁⟩ := @insertKey _ _ _ _ rid cols maps own held
      rw [passed,inserted,stepped]
      refine (rest later (fun x mem => read x (List.mem_cons_of_mem _ mem)) (fun x mem => fits x (List.mem_cons_of_mem _ mem))
        cols₁ maps₁ (Nat.lt_of_succ_lt_succ enough)).trans ?_
      rw [List.map_cons,List.nodup_cons,List.mem_map,List.forall_mem_cons]
      constructor
      · rintro ⟨once,free⟩
        refine ⟨⟨?_,once⟩,held,fun x mem => ?_⟩
        · rintro ⟨x,mem,same⟩
          have taken := free x mem
          rw [same,Function.update_self] at taken
          cases taken
        · by_cases same : indexKey index (recordAt x) = indexKey index (recordAt rid)
          · rw [same,held]
          · rw [← free x mem,Function.update_of_ne same]
      · rintro ⟨⟨apart,once⟩,_,free⟩
        refine ⟨once,fun x mem => ?_⟩
        rw [Function.update_of_ne fun same => apart ⟨x,mem,same⟩]
        exact free x mem

end Load

section Keys
variable {col : KeyCol} {cols : List KeyCol} {a b : Bytes}

theorem keyRawCompare (col : KeyCol) : @compareRawData .x87 a col.type col.len b col.type col.len = .ok (col.compare a b) := by
  by_cases float : col.type = .float
  · rw [KeyCol.compare,float]
    rfl
  · have compared := @rawCompare a b col.rankCol .x87
    rw [col.rankColPlain float] at compared
    rw [compared,col.comparePlain float]

def SameKey (cols : List KeyCol) (a b : Bytes) : Prop := ∀ col ∈ cols,
  @compareRawData .x87 (a.drop col.offset) col.type col.len (b.drop col.offset) col.type col.len = .ok 0

theorem rankEqual (longa : col.offset+col.len ≤ a.length) (longb : col.offset+col.len ≤ b.length)
    (numbera : col.Numeric (a.drop col.offset)) (numberb : col.Numeric (b.drop col.offset)) :
    col.rank ((a.drop col.offset).take col.len) = col.rank ((b.drop col.offset).take col.len) ↔
      @compareRawData .x87 (a.drop col.offset) col.type col.len (b.drop col.offset) col.type col.len = .ok 0 := by
  have cut {x : Bytes} (long : col.offset+col.len ≤ x.length) : (col.rank ((x.drop col.offset).take col.len)).length =
      col.rankCol.len := by
    refine col.rankLength ?_
    rw [List.length_take,List.length_drop]
    omega
  have signs := (col.rankCol.signs (cut longa).ge (cut longb).ge).2
  rw [keyRawCompare,Except.ok.injEq,← col.compareRank numbera numberb,signs]
  refine ⟨fun same => same ▸ rfl,fun same => ?_⟩
  have equal := col.rankCol.digitsInj (cut longa).ge (cut longb).ge same
  rwa [List.take_of_length_le (cut longa).le,List.take_of_length_le (cut longb).le] at equal

theorem rankedFields (long : ∀ col ∈ cols, col.offset+col.len ≤ a.length) :
    rankKey cols (cols.flatMap fun col => (a.drop col.offset).take col.len) =
      cols.flatMap fun col => col.rank ((a.drop col.offset).take col.len) := by
  induction cols with
  | nil => rfl
  | cons col cols ih =>
    rw [List.forall_mem_cons] at long
    have first : ((a.drop col.offset).take col.len).length = col.len := by
      rw [List.length_take,List.length_drop]
      omega
    rw [List.flatMap_cons,List.flatMap_cons,rankKey,List.take_left' first,List.drop_left' first,ih long.2]

theorem indexKeyEqual {tabName : String} (longa : ∀ col ∈ cols, col.offset+col.len ≤ a.length)
    (longb : ∀ col ∈ cols, col.offset+col.len ≤ b.length) (numbera : ∀ col ∈ cols, col.Numeric (a.drop col.offset))
    (numberb : ∀ col ∈ cols, col.Numeric (b.drop col.offset)) :
    indexKey ⟨tabName,cols⟩ a = indexKey ⟨tabName,cols⟩ b ↔ SameKey cols a b := by
  rw [indexKey,indexKey,buildIndexKey,buildIndexKey,rankedFields longa,rankedFields longb]
  induction cols with
  | nil => exact iff_of_true rfl fun col mem => by cases mem
  | cons col cols ih =>
    rw [List.forall_mem_cons] at longa longb numbera numberb
    have cut {x : Bytes} (long : col.offset+col.len ≤ x.length) :
        (col.rank ((x.drop col.offset).take col.len)).length = col.len := by
      refine col.rankLength ?_
      rw [List.length_take,List.length_drop]
      omega
    rw [List.flatMap_cons,List.flatMap_cons,SameKey,List.forall_mem_cons,
      ← rankEqual longa.1 longb.1 numbera.1 numberb.1,
      List.append_eq_append_iff_of_size_eq_left ((cut longa.1).trans (cut longb.1).symm)]
    exact and_congr_right fun _ => ih longa.2 longb.2 numbera.2 numberb.2

end Keys

section Lengths
variable {cols : List StoredCol}

theorem narrowInt (v : Int) : -2^31 ≤ narrow v ∧ narrow v < 2^31 := by
  rw [narrow,Int.bmod_def]
  split <;> omega

theorem keyLenInt (cols : List StoredCol) : -2^31 ≤ keyLen cols := by
  induction cols using List.reverseRecOn with
  | nil => decide
  | append_singleton cols col _ =>
    rw [keyLen,List.foldl_append]
    exact (narrowInt _).1

theorem storedOrderMade {n : Int} (low : -7 ≤ n) (high : n ≤ 512) : ∃ order, storedOrder n = .ok order ∧ 2 < order := by
  have slot : ((n+IxManager.ridSize)%2^64).toNat = (n+8).toNat := by
    simp only [IxManager.ridSize]
    omega
  have least : 4 ≤ nodeRoom/(n+8).toNat := by
    rw [Nat.le_div_iff_mul_le (by omega)]
    simp only [nodeRoom,pageSize,IxManager.ixPageHdrSize]
    omega
  refine ⟨nodeRoom/(n+8).toNat-1,?_,by omega⟩
  rw [storedOrder,slot,if_neg (by omega),if_pos (by omega)]

theorem storedOrderFails {n : Int} (int : -2^31 ≤ n) (low : n < -7) : ∃ e, storedOrder n = .error e := by
  rw [storedOrder]
  split
  · exact ⟨_,rfl⟩
  · rename_i nonzero
    have huge : 2^63 ≤ ((n+IxManager.ridSize)%2^64).toNat := by
      simp only [IxManager.ridSize] at nonzero ⊢
      omega
    have none : nodeRoom/((n+IxManager.ridSize)%2^64).toNat = 0 := by
      refine Nat.div_eq_of_lt (lt_of_lt_of_le ?_ huge)
      decide
    rw [none,if_neg (by decide)]
    exact ⟨_,rfl⟩

end Lengths

namespace IndexedTable
variable {tab : IndexedTable} {colNames : List String} {cols : List StoredCol}

def Missing (tab : IndexedTable) (colNames : List String) : Prop := ∃ name ∈ colNames, ∀ col ∈ tab.cols, col.name ≠ name

theorem getColsMem (found : tab.getCols colNames = .ok cols) : ∀ col ∈ cols, col ∈ tab.cols := by
  induction colNames generalizing cols with
  | nil =>
    cases found
    exact fun col mem => nomatch mem
  | cons name colNames ih =>
    rw [getCols,List.mapM_cons] at found
    obtain ⟨first,one,found⟩ := exceptBind found
    obtain ⟨rest,others,found⟩ := exceptBind found
    cases found
    intro col mem
    rcases List.mem_cons.mp mem with rfl | later
    · rw [getCol] at one
      split at one
      · rename_i x here
        cases one
        exact List.mem_of_find?_eq_some here
      · cases one
    · exact ih others col later

theorem getColsCases (tab : IndexedTable) (colNames : List String) :
    (∃ cols, tab.getCols colNames = .ok cols) ∨ (∃ e, tab.getCols colNames = .error e) ∧ tab.Missing colNames := by
  induction colNames with
  | nil => exact .inl ⟨[],rfl⟩
  | cons name colNames ih =>
    rw [getCols] at ih ⊢
    rw [List.mapM_cons,getCol]
    split
    · rename_i col here
      rcases ih with ⟨cols,found⟩ | ⟨⟨e,failed⟩,missing,mem,none⟩
      · rw [found]
        exact .inl ⟨_,rfl⟩
      · rw [failed]
        exact .inr ⟨⟨e,rfl⟩,missing,List.mem_cons_of_mem _ mem,none⟩
    · rename_i none
      refine .inr ⟨⟨_,rfl⟩,name,List.mem_cons_self,fun col mem same => ?_⟩
      exact absurd (decide_eq_true same) (List.find?_eq_none.mp none col mem)

theorem notMissing (found : tab.getCols colNames = .ok cols) : ¬tab.Missing colNames := by
  rintro ⟨name,mem,none⟩
  induction colNames generalizing cols with
  | nil => cases mem
  | cons first colNames ih =>
    rw [getCols,List.mapM_cons] at found
    obtain ⟨col,one,found⟩ := exceptBind found
    obtain ⟨rest,others,_⟩ := exceptBind found
    rcases List.mem_cons.mp mem with rfl | later
    · rw [getCol] at one
      split at one
      · rename_i x here
        exact none x (List.mem_of_find?_eq_some here) (by simpa using List.find?_some here)
      · cases one
    · exact ih others later

end IndexedTable

namespace OpenDir
variable {s : OpenDir} {tabName : String} {tab : IndexedTable} {fh : RmFileHandle} {colNames : List String}
  {cols : List StoredCol}

/- An `INSERT` stores a value in every column, which a negative length refuses: a table that has
records has none. -/
structure HasTable (s : OpenDir) (tabName : String) (tab : IndexedTable) (fh : RmFileHandle) : Prop where
  handle : s.fhs tabName = some fh
  usable : fh.Usable
  inside : ∀ rid record, fh.records rid = some record → ∀ col ∈ tab.cols,
    0 ≤ col.len ∧ 0 ≤ col.offset ∧ col.offset+col.len ≤ record.length
  numeric : ∀ rid record, fh.records rid = some record → ∀ col ∈ tab.cols, col.key.Numeric (record.drop col.key.offset)

structure Sound (s : OpenDir) : Prop where
  tables : ∀ tabName tab, s.tabs tabName = some tab → ∃ fh, s.HasTable tabName tab fh
  files : ∀ path, s.isOpen path = true → s.isFile path = true

def Duplicate (fh : RmFileHandle) (cols : List StoredCol) : Prop :=
  ∃ a b ra rb, a ≠ b ∧ fh.records a = some ra ∧ fh.records b = some rb ∧ SameKey (keys cols) ra rb

theorem HasTable.within (has : s.HasTable tabName tab fh) (own : ∀ col ∈ cols, col ∈ tab.cols) {rid : Rid} {record : Bytes}
    (there : fh.records rid = some record) : ∀ col ∈ keys cols, col.offset+col.len ≤ record.length := by
  intro col mem
  obtain ⟨stored,memS,rfl⟩ := List.mem_map.mp mem
  obtain ⟨len,offset,inside⟩ := has.inside rid record there stored (own stored memS)
  change stored.offset.toNat+stored.len.toNat ≤ record.length
  omega

theorem HasTable.numbers (has : s.HasTable tabName tab fh) (own : ∀ col ∈ cols, col ∈ tab.cols) {rid : Rid} {record : Bytes}
    (there : fh.records rid = some record) : ∀ col ∈ keys cols, col.Numeric (record.drop col.offset) := by
  intro col mem
  obtain ⟨stored,memS,rfl⟩ := List.mem_map.mp mem
  exact has.numeric rid record there stored (own stored memS)

theorem loadIndexRun {tree : IxIndexHandle (IxBytes (ranks (keys cols)))} (has : s.HasTable tabName tab fh)
    (own : ∀ col ∈ cols, col ∈ tab.cols) (maps : IxHandle.Maps ⟨keys cols,tree⟩ fun _ => none) :
    (∃ ih, loadIndex fh ⟨tabName,keys cols⟩ ⟨keys cols,tree⟩ = .ok ih) ↔ ¬Duplicate fh cols := by
  obtain ⟨lost,well⟩ := has.usable
  obtain ⟨start,begun,enumerates⟩ := RmScan.scanEnumerates well
  obtain ⟨chain,chained⟩ := well
  have few := RmScan.ridsLength chained
  let recordAt := fun rid => (fh.records rid).getD []
  have read : ∀ r ∈ RmScan.rids fh, fh.records r = some (recordAt r) := by
    intro rid mem
    obtain ⟨record,there⟩ := RmScan.ridsMem.mp mem
    simp only [recordAt,there,Option.getD_some]
  have run := @fillIndexEnds fh ⟨tabName,keys cols⟩ ⟨keys cols,tree⟩ _ (RmScan.rids fh)
    (fh.fileHdr.numPages.toNat*fh.fileHdr.numRecordsPerPage+1) start recordAt enumerates read
    (fun r mem => keyLength (has.within own (read r mem))) rfl maps (by omega)
  have loop : loadIndex fh ⟨tabName,keys cols⟩ ⟨keys cols,tree⟩ = fillIndex fh ⟨tabName,keys cols⟩
      (fh.fileHdr.numPages.toNat*fh.fileHdr.numRecordsPerPage+1) start ⟨keys cols,tree⟩ := by
    rw [loadIndex,begun]
    rfl
  rw [loop,run,and_iff_left fun _ _ => rfl,List.nodup_map_iff_inj_on (RmScan.ridsNodup fh)]
  have same {a b : Rid} {ra rb : Bytes} (herea : fh.records a = some ra) (hereb : fh.records b = some rb) :=
    @indexKeyEqual (keys cols) ra rb tabName (has.within own herea) (has.within own hereb) (has.numbers own herea)
      (has.numbers own hereb)
  constructor
  · rintro once ⟨a,b,ra,rb,apart,herea,hereb,equal⟩
    refine apart (once a (RmScan.ridsMem.mpr ⟨ra,herea⟩) b (RmScan.ridsMem.mpr ⟨rb,hereb⟩) ?_)
    simp only [recordAt,herea,hereb,Option.getD_some]
    exact (same herea hereb).mpr equal
  · intro unique a mema b memb equal
    by_contra apart
    exact unique ⟨a,b,_,_,apart,read a mema,read b memb,(same (read a mema) (read b memb)).mp equal⟩

def Blocked (s : OpenDir) (path : String) : Prop := s.isFile path = true ∨ IxManager.nameMax < path.utf8ByteSize

theorem createIndexFound (listed : s.tabs tabName = some tab) (fresh : tab.isIndex colNames = false)
    (found : tab.getCols colNames = .ok cols) : createIndex tabName colNames s = (do
      let file ← createIndexFile tabName cols
      openFile (pathOf tabName cols)
      let tree ← ofExcept (IxManager.openIndex file)
      let fh ← ofExcept (s.fileHandle tabName)
      match loadIndex fh ⟨tabName,keys cols⟩ ⟨keys cols,tree⟩ with
      | .error e => do
        closeFile (pathOf tabName cols)
        destroyFile (pathOf tabName cols)
        throw e
      | .ok ih => modify fun s => {s with
          tabs := Function.update s.tabs tabName (some {tab with indexes := tab.indexes ++ [cols]})
          ihs := Function.update s.ihs (pathOf tabName cols) (some ih)} : M OpenDir Unit) s := by
  rw [createIndex,getBind,listed]
  dsimp only
  rw [fresh,if_neg Bool.false_ne_true,found,bindEq (ofExceptOk cols s)]

theorem createBlocked (listed : s.tabs tabName = some tab) (fresh : tab.isIndex colNames = false)
    (found : tab.getCols colNames = .ok cols) (blocked : s.Blocked (pathOf tabName cols)) :
    ∃ e, createIndex tabName colNames s = .error e s := by
  have refused : ∃ e, createFile (pathOf tabName cols) s = .error e s := by
    rw [createFile,getBind]
    by_cases there : s.isFile (pathOf tabName cols) = true
    · rw [if_pos there]
      exact ⟨_,rfl⟩
    · rw [if_neg there,if_pos (blocked.resolve_left there)]
      exact ⟨_,rfl⟩
  obtain ⟨e,refused⟩ := refused
  have file : createIndexFile tabName cols s = .error e s := by
    rw [createIndexFile,bindError refused]
  exact ⟨e,by rw [createIndexFound listed fresh found,bindError file]⟩

def opened (s : OpenDir) (path : String) : OpenDir :=
  {s with isFile := Function.update s.isFile path true, isOpen := Function.update s.isOpen path true}

theorem createOpenRun {path : String} (free : ¬s.Blocked path) :
    createFile path s = .ok () {s with isFile := Function.update s.isFile path true} ∧
    openFile path {s with isFile := Function.update s.isFile path true} = .ok () (s.opened path) := by
  rw [Blocked,not_or] at free
  constructor
  · rw [createFile,getBind,if_neg free.1,if_neg free.2]
    rfl
  · rw [openFile,getBind,if_neg (by simp)]
    rfl

theorem createLeft (listed : s.tabs tabName = some tab) (fresh : tab.isIndex colNames = false)
    (found : tab.getCols colNames = .ok cols) (free : ¬s.Blocked (pathOf tabName cols))
    (wrong : IxManager.ixMaxColLen < keyLen cols ∨ keyLen cols < -7) :
    ∃ e, createIndex tabName colNames s = .error e (s.opened (pathOf tabName cols)) := by
  obtain ⟨created,open'⟩ := createOpenRun free
  have file : ∃ e, createIndexFile tabName cols s = .error e (s.opened (pathOf tabName cols)) := by
    rw [createIndexFile,bindEq created,bindEq open']
    by_cases long : IxManager.ixMaxColLen < keyLen cols
    · rw [if_pos long]
      exact ⟨_,rfl⟩
    · obtain ⟨e,fails⟩ := storedOrderFails (keyLenInt cols) (wrong.resolve_left long)
      rw [if_neg long,fails]
      exact ⟨e,rfl⟩
  obtain ⟨e,file⟩ := file
  exact ⟨e,by rw [createIndexFound listed fresh found,bindError file]⟩

theorem openedClosed {path : String} (closed : s.isOpen path = false) :
    closeFile path (s.opened path) = .ok () {s with isFile := Function.update s.isFile path true} := by
  have same : Function.update (Function.update s.isOpen path true) path false = s.isOpen := by
    rw [Function.update_idem,← closed,Function.update_eq_self]
  rw [closeFile,modifyRun,opened,same]

theorem destroyedBack {path : String} (closed : s.isOpen path = false) (absent : s.isFile path = false) :
    destroyFile path {s with isFile := Function.update s.isFile path true} = .ok () s := by
  have same : Function.update (Function.update s.isFile path true) path false = s.isFile := by
    rw [Function.update_idem,← absent,Function.update_eq_self]
  rw [destroyFile,getBind,if_neg (by simp)]
  dsimp only
  rw [closed,if_neg Bool.false_ne_true,setRun,same]

theorem createFits (listed : s.tabs tabName = some tab) (fresh : tab.isIndex colNames = false)
    (found : tab.getCols colNames = .ok cols) (has : s.HasTable tabName tab fh)
    (closed : s.isOpen (pathOf tabName cols) = false) (free : ¬s.Blocked (pathOf tabName cols))
    (low : -7 ≤ keyLen cols) (high : keyLen cols ≤ IxManager.ixMaxColLen) :
    (¬Duplicate fh cols → ∃ t, createIndex tabName colNames s = .ok () t) ∧
    (Duplicate fh cols → ∃ e, createIndex tabName colNames s = .error e s) := by
  obtain ⟨created,openRun⟩ := createOpenRun free
  obtain ⟨order,made,big⟩ := storedOrderMade low high
  rw [Blocked,not_or] at free
  have absent : s.isFile (pathOf tabName cols) = false := Bool.eq_false_of_not_eq_true free.1
  have started : IxManager.openIndex (IxManager.newFile (IxBytes (ranks (keys cols))) order) = .ok (IxManager.openFile _) :=
    if_pos (IxManager.headerFits (not_lt.mp free.2))
  have fileRun : createIndexFile tabName cols s =
      .ok (IxManager.newFile _ order) {s with isFile := Function.update s.isFile (pathOf tabName cols) true} := by
    rw [createIndexFile,bindEq created,bindEq openRun,if_neg (not_lt.mpr high),made,bindEq (ofExceptOk _ _),
      bindEq (openedClosed closed)]
    rfl
  have handle : s.fileHandle tabName = .ok fh := by rw [fileHandle,has.handle]
  have loaded := loadIndexRun has (IndexedTable.getColsMem found) (freshMaps big)
  have run := createIndexFound listed fresh found
  rw [bindEq fileRun,bindEq openRun,started,bindEq (ofExceptOk _ _),handle,bindEq (ofExceptOk _ _)] at run
  rw [run]
  constructor
  · intro unique
    obtain ⟨ih,done⟩ := loaded.mpr unique
    rw [done]
    exact ⟨_,rfl⟩
  · intro twice
    cases result : loadIndex fh ⟨tabName,keys cols⟩ ⟨keys cols,IxManager.openFile (IxManager.newFile _ order)⟩ with
    | ok ih => exact absurd twice (loaded.mp ⟨ih,result⟩)
    | error e =>
      refine ⟨e,?_⟩
      dsimp only
      rw [bindEq (openedClosed closed),bindEq (destroyedBack closed absent)]
      rfl

def Justified (s : OpenDir) (tabName : String) (colNames : List String) : Prop :=
  s.tabs tabName = none ∨ ∃ tab, s.tabs tabName = some tab ∧ (tab.isIndex colNames = true ∨ tab.Missing colNames ∨
    ∃ cols fh, tab.getCols colNames = .ok cols ∧ s.fhs tabName = some fh ∧
      (IxManager.ixMaxColLen < keyLen cols ∨ Duplicate fh cols))

def SucceedsOrRestores (s : OpenDir) (tabName : String) (colNames : List String) : Prop :=
  match createIndex tabName colNames s with
  | .ok _ _ => True
  | .error _ t => t = s ∧ s.Justified tabName colNames

/- Either the file can be made and the key has a length that fits, or the file cannot be made and there
is another cause as well. -/
def Unobstructed (s : OpenDir) (tabName : String) (colNames : List String) : Prop :=
  ∀ tab cols fh, s.tabs tabName = some tab → tab.isIndex colNames = false → tab.getCols colNames = .ok cols →
    s.fhs tabName = some fh → (¬s.Blocked (pathOf tabName cols) ∧ -7 ≤ keyLen cols ∧ keyLen cols ≤ IxManager.ixMaxColLen) ∨
      (s.Blocked (pathOf tabName cols) ∧ (IxManager.ixMaxColLen < keyLen cols ∨ Duplicate fh cols))

theorem justifiedFound (listed : s.tabs tabName = some tab) (fresh : tab.isIndex colNames = false)
    (found : tab.getCols colNames = .ok cols) (handle : s.fhs tabName = some fh) :
    s.Justified tabName colNames ↔ IxManager.ixMaxColLen < keyLen cols ∨ Duplicate fh cols := by
  constructor
  · rintro (none | ⟨tab',there,known⟩)
    · rw [listed] at none
      cases none
    · cases Option.some.inj (listed.symm.trans there)
      rcases known with again | missing | ⟨cols',fh',found',handle',cause⟩
      · rw [fresh] at again
        cases again
      · exact absurd missing (IndexedTable.notMissing found)
      · cases Except.ok.inj (found.symm.trans found')
        cases Option.some.inj (handle.symm.trans handle')
        exact cause
  · exact fun cause => .inr ⟨tab,listed,.inr (.inr ⟨cols,fh,found,handle,cause⟩)⟩

theorem foundRestores (sound : s.Sound) (listed : s.tabs tabName = some tab) (fresh : tab.isIndex colNames = false)
    (found : tab.getCols colNames = .ok cols) (has : s.HasTable tabName tab fh) : s.SucceedsOrRestores tabName colNames ↔
      (¬s.Blocked (pathOf tabName cols) ∧ -7 ≤ keyLen cols ∧ keyLen cols ≤ IxManager.ixMaxColLen) ∨
        (s.Blocked (pathOf tabName cols) ∧ (IxManager.ixMaxColLen < keyLen cols ∨ Duplicate fh cols)) := by
  have causes := justifiedFound listed fresh found has.handle
  rw [SucceedsOrRestores]
  by_cases blocked : s.Blocked (pathOf tabName cols)
  · obtain ⟨e,run⟩ := createBlocked listed fresh found blocked
    rw [run]
    simp only [true_and,causes,not_true_eq_false,blocked,false_and,false_or]
  · by_cases fits : -7 ≤ keyLen cols ∧ keyLen cols ≤ IxManager.ixMaxColLen
    · have closed : s.isOpen (pathOf tabName cols) = false :=
        Bool.eq_false_of_not_eq_true fun opened => blocked (.inl (sound.files _ opened))
      obtain ⟨done,refused⟩ := createFits listed fresh found has closed blocked fits.1 fits.2
      by_cases twice : Duplicate fh cols
      · obtain ⟨e,run⟩ := refused twice
        rw [run]
        exact iff_of_true ⟨rfl,causes.mpr (.inr twice)⟩ (.inl ⟨blocked,fits⟩)
      · obtain ⟨t,run⟩ := done twice
        rw [run]
        exact iff_of_true trivial (.inl ⟨blocked,fits⟩)
    · obtain ⟨e,run⟩ := createLeft listed fresh found blocked (by omega)
      have left : s.opened (pathOf tabName cols) ≠ s := fun same => by
        have there : (s.opened (pathOf tabName cols)).isFile (pathOf tabName cols) = true := Function.update_self ..
        exact blocked (.inl (same ▸ there))
      rw [run]
      refine iff_of_false (fun ⟨same,_⟩ => left same) ?_
      rintro (⟨_,short⟩ | ⟨there,_⟩)
      · exact fits short
      · exact blocked there

theorem createIndexRestores (sound : s.Sound) :
    s.SucceedsOrRestores tabName colNames ↔ s.Unobstructed tabName colNames := by
  cases listed : s.tabs tabName with
  | none =>
    have run : createIndex tabName colNames s = .error (.error (.tableNotFound tabName)) s := by
      rw [createIndex,getBind,listed]
      rfl
    rw [SucceedsOrRestores,run]
    refine iff_of_true ⟨rfl,.inl listed⟩ fun tab _ _ there => ?_
    rw [listed] at there
    cases there
  | some tab =>
    obtain ⟨fh,has⟩ := sound.tables tabName tab listed
    cases fresh : tab.isIndex colNames with
    | true =>
      have run : createIndex tabName colNames s = .error (.error (.indexExists tabName colNames)) s := by
        rw [createIndex,getBind,listed]
        dsimp only
        rw [fresh,if_pos rfl]
        rfl
      rw [SucceedsOrRestores,run]
      refine iff_of_true ⟨rfl,.inr ⟨tab,listed,.inl fresh⟩⟩ fun tab' _ _ there none => ?_
      cases Option.some.inj (listed.symm.trans there)
      rw [fresh] at none
      cases none
    | false =>
      rcases tab.getColsCases colNames with ⟨cols,found⟩ | ⟨⟨e,failed⟩,missing⟩
      · rw [foundRestores sound listed fresh found has]
        refine ⟨fun one tab' cols' fh' there _ found' handle' => ?_,fun all => all tab cols fh listed fresh found has.handle⟩
        cases Option.some.inj (listed.symm.trans there)
        cases Except.ok.inj (found.symm.trans found')
        cases Option.some.inj (has.handle.symm.trans handle')
        exact one
      · have run : createIndex tabName colNames s = .error e s := by
          rw [createIndex,getBind,listed]
          dsimp only
          rw [fresh,if_neg Bool.false_ne_true,failed]
          rfl
        rw [SucceedsOrRestores,run]
        refine iff_of_true ⟨rfl,.inr ⟨tab,listed,.inr (.inl missing)⟩⟩ fun tab' cols fh' there _ found => ?_
        cases Option.some.inj (listed.symm.trans there)
        rw [failed] at found
        cases found

def emptyRecords (tabName : String) : RmFileHandle :=
  RmManager.openFile tabName ⟨⟨4,1,RmManager.numRecordsPerPage 4,rmNoPage⟩,fun _ => none⟩

def twoTables : OpenDir where
  tabs name := if name = "a" then some ⟨[⟨⟨"a","b_c",.int,4,0⟩,by decide,rfl⟩],[]⟩
    else if name = "a_b" then some ⟨[⟨⟨"a_b","c",.int,4,0⟩,by decide,rfl⟩],[]⟩ else none
  fhs name := if name = "a" ∨ name = "a_b" then some (emptyRecords name) else none
  ihs _ := none
  isFile name := name = "a" || name = "a_b"
  isOpen name := name = "a" || name = "a_b"

def firstIndexed : OpenDir := after (createIndex "a" ["b_c"] twoTables)

theorem nothingIn (name : String) (rid : Rid) : (emptyRecords name).records rid = none := by
  have created : RmManager.createFile 4 = .ok ⟨⟨4,1,RmManager.numRecordsPerPage 4,rmNoPage⟩,fun _ => none⟩ := rfl
  exact RmManager.createdEmpty created name rid

theorem emptyTable {name : String} (handle : s.fhs name = some (emptyRecords name)) :
    s.HasTable name tab (emptyRecords name) := by
  have created : RmManager.createFile 4 = .ok ⟨⟨4,1,RmManager.numRecordsPerPage 4,rmNoPage⟩,fun _ => none⟩ := rfl
  refine ⟨handle,⟨∅,RmManager.createdWell created name⟩,?_,?_⟩
  · intro rid record there
    rw [nothingIn name rid] at there
    cases there
  · intro rid record there
    rw [nothingIn name rid] at there
    cases there

theorem twoTablesSound : twoTables.Sound := by
  refine ⟨fun name tab there => ?_,fun path opened => opened⟩
  refine ⟨emptyRecords name,?_⟩
  by_cases one : name = "a"
  · subst one
    cases Option.some.inj there
    exact emptyTable rfl
  · by_cases other : name = "a_b"
    · subst other
      cases Option.some.inj there
      exact emptyTable rfl
    · simp [twoTables,one,other] at there

theorem firstIndexMade : twoTables.SucceedsOrRestores "a" ["b_c"] := by
  refine (createIndexRestores twoTablesSound).mpr fun tab cols fh there _ found _ => .inl ?_
  cases Option.some.inj there
  cases Except.ok.inj found
  refine ⟨?_,by decide,by decide⟩
  rintro (there | long)
  · exact absurd there (by decide +kernel)
  · exact absurd long (by decide +kernel)

/- `CREATE INDEX a_b (c)` fails although no index of the table exists: `a_b_c.idx` is the file of
the index on `a (b_c)`. -/
theorem namesClash : ¬firstIndexed.SucceedsOrRestores "a_b" ["c"] := by
  have listed : firstIndexed.tabs "a_b" = some ⟨[⟨⟨"a_b","c",.int,4,0⟩,by decide,rfl⟩],[]⟩ := by rfl
  have handle : firstIndexed.fhs "a_b" = some (emptyRecords "a_b") := by rfl
  have found : (⟨[⟨⟨"a_b","c",.int,4,0⟩,by decide,rfl⟩],[]⟩ : IndexedTable).getCols ["c"] =
      .ok [⟨⟨"a_b","c",.int,4,0⟩,by decide,rfl⟩] := by rfl
  have there : firstIndexed.isFile (pathOf "a_b" [⟨⟨"a_b","c",.int,4,0⟩,by decide,rfl⟩]) = true := by decide +kernel
  obtain ⟨e,run⟩ := createBlocked listed rfl found (.inl there)
  rw [SucceedsOrRestores,run]
  rintro ⟨_,justified⟩
  rcases (justifiedFound listed rfl found handle).mp justified with long | ⟨a,_,ra,_,_,here,_⟩
  · exact absurd long (by decide)
  · rw [nothingIn] at here
    cases here

end OpenDir
end Rmdb
