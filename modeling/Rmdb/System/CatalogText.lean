import Rmdb.Defs
import Rmdb.Lib.OrderedList
import Rmdb.Lib.TokenStream

/-! `sm_meta.h`: the catalog as the text of its file. The records have all the fields that the
stream operators write. -/
namespace Rmdb.CatalogText
open Lib Lib.TokenStream

structure ColMeta where
  tabName : Bytes
  name : Bytes
  type : ColType
  len : Int32
  offset : Int32
  index : Bool
  deriving DecidableEq, Repr

structure IndexMeta where
  tabName : Bytes
  colTotLen : Int32
  colNum : Int32
  cols : List ColMeta
  deriving DecidableEq, Repr

structure TabMeta where
  name : Bytes
  cols : List ColMeta
  indexes : List IndexMeta
  deriving DecidableEq, Repr

section Map
variable {K V : Type} [LinearOrder K]

-- `tabs_[k] = v` of a map that runs through its keys in their order
def put (k : K) (v : V) : List (K × V) → List (K × V)
  | [] => [(k,v)]
  | e :: map => if e.1 < k then e :: put k v map else if k < e.1 then (k,v) :: e :: map else (k,v) :: map

theorem putMem {k : K} {v : V} {map : List (K × V)} {e : K × V} (mem : e ∈ put k v map) : e = (k,v) ∨ e ∈ map := by
  induction map with
  | nil => exact .inl (List.mem_singleton.mp mem)
  | cons x map ih =>
    rw [put] at mem
    split at mem
    · rcases List.mem_cons.mp mem with rfl | mem
      · exact .inr List.mem_cons_self
      · exact (ih mem).imp id (List.mem_cons_of_mem _)
    · split at mem
      · exact List.mem_cons.mp mem
      · exact (List.mem_cons.mp mem).imp id (List.mem_cons_of_mem _)

theorem putOrdered {k : K} {v : V} {map : List (K × V)} (ordered : Ordered map) : Ordered (put k v map) := by
  induction map with
  | nil => exact List.pairwise_singleton _ _
  | cons e map ih =>
    obtain ⟨least,rest⟩ := orderedCons.mp ordered
    rw [put]
    split
    · rename_i before
      refine orderedCons.mpr ⟨fun x mem => ?_,ih rest⟩
      rcases putMem mem with rfl | mem
      · exact before
      · exact least x mem
    · rename_i notBefore
      split
      · rename_i after
        refine orderedCons.mpr ⟨fun x mem => ?_,ordered⟩
        rcases List.mem_cons.mp mem with rfl | mem
        · exact after
        · exact after.trans (least x mem)
      · rename_i notAfter
        have same : k = e.1 := le_antisymm (not_lt.mp notBefore) (not_lt.mp notAfter)
        rw [same]
        exact orderedCons.mpr ⟨least,rest⟩

theorem putLast {k : K} {v : V} {map : List (K × V)} (last : ∀ e ∈ map, e.1 < k) : put k v map = map ++ [(k,v)] := by
  induction map with
  | nil => rfl
  | cons e map ih =>
    rw [put,if_pos (last e List.mem_cons_self),ih fun x mem => last x (List.mem_cons_of_mem _ mem)]
    rfl

end Map

def Key : Type := Bytes

instance : LinearOrder Key :=
  LinearOrder.lift' (fun key : Key => List.map UInt8.toNat key) (List.map_injective_iff.mpr fun _ _ => UInt8.toNat_inj.mp)

@[ext]
structure DbMeta where
  name : Bytes
  tabs : List (Key × TabMeta)
  ordered : Ordered tabs

-- what `open_db` reads into
def fresh : DbMeta := ⟨[],[],List.Pairwise.nil⟩

def space : Bytes := [32]
def newline : Bytes := [10]

def readInt : Stream Int32 := do
  let v ← integer
  if -2^31 ≤ v ∧ v < 2^31 then pure (Int32.ofInt v) else failure

-- a negative number wraps around
def readSize : Stream Nat := do
  let v ← integer
  if -2^64 < v ∧ v < 2^64 then pure (v%2^64).toNat else failure

def readBool : Stream Bool := do
  let v ← integer
  if v = 0 then pure false else if v = 1 then pure true else failure

def readType : Stream ColType := do
  let v ← readInt
  match ColType.ofInt v.toInt with
  | some type => pure type
  | none => failure

namespace ColMeta

def write (col : ColMeta) : Bytes :=
  col.tabName ++ space ++ col.name ++ space ++ shown col.type.toInt ++ space ++ shown col.len.toInt ++ space ++
    shown col.offset.toInt ++ space ++ shown (if col.index then 1 else 0)

def read : Stream ColMeta := do
  let tabName ← word
  let name ← word
  let type ← readType
  let len ← readInt
  let offset ← readInt
  let index ← readBool
  pure ⟨tabName,name,type,len,offset,index⟩

end ColMeta

namespace IndexMeta

def write (index : IndexMeta) : Bytes :=
  index.tabName ++ space ++ shown index.colTotLen.toInt ++ space ++ shown index.colNum.toInt ++
    index.cols.flatMap fun col => newline ++ col.write

def read : Stream IndexMeta := do
  let tabName ← word
  let colTotLen ← readInt
  let colNum ← readInt
  let cols ← times ColMeta.read colNum.toInt.toNat
  pure ⟨tabName,colTotLen,colNum,cols⟩

end IndexMeta

namespace TabMeta

def write (tab : TabMeta) : Bytes :=
  tab.name ++ newline ++ shown tab.cols.length ++ newline ++ tab.cols.flatMap (fun col => col.write ++ newline) ++
    shown tab.indexes.length ++ newline ++ tab.indexes.flatMap (fun index => index.write ++ newline)

def read : Stream TabMeta := do
  let name ← word
  let n ← readSize
  let cols ← times ColMeta.read n
  let n ← readSize
  let indexes ← times IndexMeta.read n
  pure ⟨name,cols,indexes⟩

end TabMeta

namespace DbMeta

def setTabMeta (db : DbMeta) (tab : TabMeta) : DbMeta := ⟨db.name,put tab.name tab db.tabs,putOrdered db.ordered⟩

def write (db : DbMeta) : Bytes :=
  db.name ++ newline ++ shown db.tabs.length ++ newline ++ db.tabs.flatMap fun entry => entry.2.write ++ newline

def readTabs : Nat → DbMeta → Stream DbMeta
  | 0,db => pure db
  | n+1,db => do
    let tab ← TabMeta.read
    readTabs n (db.setTabMeta tab)

def read (db : DbMeta) : Stream DbMeta := do
  let name ← word
  let n ← readSize
  readTabs n {db with name}

end DbMeta

def Name (s : Bytes) : Prop := s ≠ [] ∧ ∀ ch ∈ s, isSpace ch = false

structure ColMeta.Plain (col : ColMeta) : Prop where
  tabName : Name col.tabName
  name : Name col.name

structure IndexMeta.Plain (index : IndexMeta) : Prop where
  tabName : Name index.tabName
  colNum : index.colNum.toInt = index.cols.length
  cols : ∀ col ∈ index.cols, col.Plain

structure TabMeta.Plain (tab : TabMeta) : Prop where
  name : Name tab.name
  cols : ∀ col ∈ tab.cols, col.Plain
  indexes : ∀ index ∈ tab.indexes, index.Plain
  colsSize : tab.cols.length < 2^64
  indexesSize : tab.indexes.length < 2^64

structure DbMeta.Plain (db : DbMeta) : Prop where
  name : Name db.name
  keys : ∀ entry ∈ db.tabs, entry.1 = entry.2.name
  tabs : ∀ entry ∈ db.tabs, entry.2.Plain
  size : db.tabs.length < 2^64

section Values
variable {gap rest : Bytes} {n : Nat}

theorem spaceGap : Gap space := by decide
theorem newlineGap : Gap newline := by decide

theorem readsInt (v : Int32) : Reads readInt (shown v.toInt) v := by
  refine readsPure (readsInteger v.toInt) ?_
  rw [if_pos ⟨v.le_toInt,v.toInt_lt⟩,Int32.ofInt_toInt]

theorem readsSize (small : n < 2^64) : Reads readSize (shown n) n := by
  refine readsPure (readsInteger n) ?_
  rw [if_pos (by omega),Int.emod_eq_of_lt (by omega) (by omega),Int.toNat_natCast]

theorem readsBool (b : Bool) : Reads readBool (shown (if b then 1 else 0)) b := by
  refine readsPure (readsInteger _) ?_
  cases b <;> rfl

theorem readsType (type : ColType) : Reads readType (shown type.toInt) type := by
  have code : (Int32.ofInt type.toInt).toInt = type.toInt := by cases type <;> rfl
  have int := readsInt (Int32.ofInt type.toInt)
  rw [code] at int
  refine readsPure int ?_
  rw [code,ColType.ofIntToInt]

theorem readsName {s : Bytes} (name : Name s) : Reads word s s := readsWord name.1 name.2

end Values

theorem readsCol {col : ColMeta} (plain : col.Plain) : Reads ColMeta.read col.write col := by
  simp only [ColMeta.write,List.append_assoc]
  refine readsBind (readsName plain.tabName) ?_ spaceGap (by decide)
  refine readsBind (readsName plain.name) ?_ spaceGap (by decide)
  refine readsBind (readsType col.type) ?_ spaceGap (by decide)
  refine readsBind (readsInt col.len) ?_ spaceGap (by decide)
  refine readsBind (readsInt col.offset) ?_ spaceGap (by decide)
  exact readsPure (readsBool col.index) rfl

theorem endsLines {rest : Bytes} {cols : List ColMeta} (ends : Ends rest) :
    Ends (cols.flatMap (fun col => newline ++ col.write) ++ rest) := by
  cases cols with
  | nil => exact ends
  | cons col cols =>
    rw [List.flatMap_cons,List.append_assoc,List.append_assoc]
    exact gapEnds (by decide) newlineGap

theorem readsIndex {index : IndexMeta} (plain : index.Plain) : Reads IndexMeta.read index.write index := by
  simp only [IndexMeta.write,List.append_assoc]
  refine readsBind (readsName plain.tabName) ?_ spaceGap (by decide)
  refine readsBind (readsInt index.colTotLen) ?_ spaceGap (by decide)
  refine readsStep (readsInt index.colNum) fun rest ends => ⟨endsLines ends,?_⟩
  have count : index.colNum.toInt.toNat = index.cols.length := by rw [plain.colNum,Int.toNat_natCast]
  have cols := timesLeading (fun col mem => readsCol (plain.cols col mem)) newlineGap (by decide) ends
  rw [count,streamBind cols]
  rfl

theorem readTab {tab : TabMeta} (plain : tab.Plain) {gap : Bytes} (gapIs : Gap gap) (rest : Bytes) :
    TabMeta.read (gap ++ (tab.write ++ rest)) = some (tab,newline ++ rest) := by
  have line : ∀ s, Ends (newline ++ s) := fun s => gapEnds (by decide) newlineGap
  have cols := timesTrailing newlineGap newlineGap (fun col mem gap rest gapIs => by
    rw [List.append_assoc]
    exact readsCol (plain.cols col mem) gap (newline ++ rest) gapIs (line rest))
  have indexes := timesTrailing newlineGap newlineGap (fun index mem gap rest gapIs => by
    rw [List.append_assoc]
    exact readsIndex (plain.indexes index mem) gap (newline ++ rest) gapIs (line rest))
  simp only [ite_self] at cols indexes
  simp only [TabMeta.write,List.append_assoc]
  rw [TabMeta.read,streamBind (readsName plain.name gap _ gapIs (line _)),
    streamBind (readsSize plain.colsSize newline _ newlineGap (line _)),streamBind (cols _),
    streamBind (readsSize plain.indexesSize newline _ newlineGap (line _)),streamBind (indexes _)]
  rfl

namespace DbMeta
variable {db : DbMeta} {tabs : List TabMeta} {entries before after : List (Key × TabMeta)} {s s' gap rest : Bytes} {n : Nat}

theorem readTabsTimes (run : times TabMeta.read n s = some (tabs,s')) :
    readTabs n db s = some (tabs.foldl setTabMeta db,s') := by
  induction n generalizing db s tabs with
  | zero => cases run; rfl
  | succ n ih =>
    rw [times] at run
    simp only [bind,StateT.bind,Option.bind_eq_some_iff] at run
    obtain ⟨⟨tab,middle⟩,first,⟨later,last⟩,others,done⟩ := run
    cases done
    rw [readTabs,streamBind first,ih others]
    rfl

theorem setTabMetas (ordered : Ordered (db.tabs ++ entries)) (keys : ∀ entry ∈ entries, entry.1 = entry.2.name) :
    (entries.map Prod.snd).foldl setTabMeta db = ⟨db.name,db.tabs ++ entries,ordered⟩ := by
  induction entries generalizing db with
  | nil => exact DbMeta.ext rfl (List.append_nil db.tabs).symm
  | cons entry entries ih =>
    obtain ⟨key,tab⟩ := entry
    have same : key = tab.name := keys (key,tab) List.mem_cons_self
    have last : put key tab db.tabs = db.tabs ++ [(key,tab)] :=
      putLast fun e mem => (orderedAppend.mp ordered).2.2 e mem (key,tab) List.mem_cons_self
    have set : (db.setTabMeta tab).tabs = db.tabs ++ [(key,tab)] := by
      rw [← last,same]
      rfl
    have whole : db.tabs ++ (key,tab) :: entries = (db.setTabMeta tab).tabs ++ entries := by
      rw [set,List.append_assoc]
      rfl
    rw [List.map_cons,List.foldl_cons,ih (whole ▸ ordered) fun e mem => keys e (List.mem_cons_of_mem _ mem)]
    exact DbMeta.ext rfl whole.symm

def lines (entries : List (Key × TabMeta)) : Bytes := entries.flatMap fun entry => entry.2.write ++ newline

def header (db : DbMeta) : Bytes := db.name ++ newline ++ shown db.tabs.length ++ newline

theorem readsTabs (ordered : Ordered (db.tabs ++ entries)) (keys : ∀ entry ∈ entries, entry.1 = entry.2.name)
    (plain : ∀ entry ∈ entries, entry.2.Plain) (rest : Bytes) : ∃ gap, Gap gap ∧
      readTabs entries.length db (newline ++ (lines entries ++ rest)) =
        some (⟨db.name,db.tabs ++ entries,ordered⟩,gap ++ rest) := by
  have each : ∀ tab ∈ entries.map Prod.snd, ∀ gap rest, Gap gap →
      TabMeta.read (gap ++ (tab.write ++ newline ++ rest)) = some (tab,newline ++ newline ++ rest) := by
    intro tab mem gap rest gapIs
    obtain ⟨entry,member,rfl⟩ := List.mem_map.mp mem
    rw [List.append_assoc,readTab (plain entry member) gapIs,List.append_assoc]
  have run := timesTrailing (by decide : Gap (newline ++ newline)) newlineGap each rest
  rw [List.length_map,List.flatMap_map] at run
  refine ⟨_,?_,(readTabsTimes run).trans (by rw [setTabMetas ordered keys])⟩
  split <;> decide

end DbMeta

theorem catalogReadBack (db : DbMeta) (plain : db.Plain) (rest : Bytes) :
    (∃ gap, Gap gap ∧ fresh.read (db.write ++ rest) = some (db,gap ++ rest)) ∧
    ∀ before after ordered, db.tabs = before ++ after → ∃ gap, Gap gap ∧
      (do let name ← word
          let _ ← readSize
          DbMeta.readTabs before.length {fresh with name} : Stream DbMeta) (db.write ++ rest) =
        some (⟨db.name,before,ordered⟩,gap ++ (DbMeta.lines after ++ rest)) := by
  have start : ∀ (f : Bytes → Nat → Stream DbMeta), (do let name ← word; let n ← readSize; f name n : Stream DbMeta)
      (db.write ++ rest) = f db.name db.tabs.length (newline ++ (DbMeta.lines db.tabs ++ rest)) := by
    intro f
    have line : ∀ s, Ends (newline ++ s) := fun s => gapEnds (by decide) newlineGap
    simp only [DbMeta.write,List.append_assoc]
    rw [← List.nil_append db.name,List.append_assoc,streamBind (readsName plain.name [] _ (by decide) (line _)),
      streamBind (readsSize plain.size newline _ newlineGap (line _))]
    rfl
  constructor
  · have ordered : Ordered ({fresh with name := db.name}.tabs ++ db.tabs) := db.ordered
    obtain ⟨gap,gapIs,run⟩ := DbMeta.readsTabs ordered plain.keys plain.tabs rest
    exact ⟨gap,gapIs,(start fun name n => DbMeta.readTabs n {fresh with name}).trans run⟩
  · intro before after ordered split
    have keys : ∀ entry ∈ before, entry.1 = entry.2.name := fun entry mem =>
      plain.keys entry (by rw [split]; exact List.mem_append_left _ mem)
    have tabs : ∀ entry ∈ before, entry.2.Plain := fun entry mem =>
      plain.tabs entry (by rw [split]; exact List.mem_append_left _ mem)
    have start' := start fun name _ => DbMeta.readTabs before.length {fresh with name}
    rw [split,DbMeta.lines,List.flatMap_append,List.append_assoc] at start'
    obtain ⟨gap,gapIs,run⟩ :=
      @DbMeta.readsTabs {fresh with name := db.name} before ordered keys tabs (DbMeta.lines after ++ rest)
    exact ⟨gap,gapIs,start'.trans run⟩

def column : ColMeta := ⟨[116],[97],.int,4,0,false⟩

def oneTable : DbMeta := ⟨[100],[([116],⟨[116],[column],[⟨[116],4,1,[column]⟩]⟩)],List.pairwise_singleton ..⟩

theorem oneTablePlain : oneTable.Plain := by
  have one : ∀ ch, isSpace ch = false → Name [ch] := fun ch solid => ⟨List.cons_ne_nil ch [],by simpa using solid⟩
  have tab := one 116 (by decide)
  have col : column.Plain := ⟨tab,one 97 (by decide)⟩
  have cols : ∀ c ∈ [column], c.Plain := fun c mem => List.mem_singleton.mp mem ▸ col
  refine ⟨one 100 (by decide),?_,?_,by decide⟩
  · intro entry mem
    rw [List.mem_singleton.mp mem]
  · intro entry mem
    rw [List.mem_singleton.mp mem]
    refine ⟨tab,cols,?_,by decide,by decide⟩
    intro index mem
    rw [List.mem_singleton.mp mem]
    exact ⟨tab,rfl,cols⟩

theorem oneTableReadBack : ∃ gap, Gap gap ∧ fresh.read (oneTable.write ++ []) = some (oneTable,gap ++ []) :=
  (catalogReadBack oneTable oneTablePlain []).1

end Rmdb.CatalogText
