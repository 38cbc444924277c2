import Rmdb.Common.RawData
import Rmdb.System.Catalog
import Rmdb.Record.RmManager

/-! The layout of a table as `create_table` computes it, from the fields of the statement on. The
lengths and the offsets are `int`s, whose sums wrap, and the only check is the one of the record size. -/
namespace Rmdb.Layout
open Record (RmManager.createFile)

inductive FieldType where
  | int
  | bigint
  | datetime
  | char (n : Int)
  | float
  deriving DecidableEq, Repr

structure Field where
  colName : String
  type : FieldType
  deriving DecidableEq, Repr

def FieldType.typeLen : FieldType → ColType × Int
  | .int => (.int,4)
  | .bigint => (.bigint,8)
  | .datetime => (.datetime,8)
  | .char n => (.string,narrow n)
  | .float => (.float,4)

structure ColDef where
  name : String
  type : ColType
  len : Int
  deriving DecidableEq, Repr

def colDefs (fields : List Field) : List ColDef :=
  fields.map fun field => ⟨field.colName,field.type.typeLen.1,field.type.typeLen.2⟩

structure ColMeta where
  tabName : String
  name : String
  type : ColType
  len : Int
  offset : Int
  deriving DecidableEq, Repr

structure Table where
  cols : List ColMeta
  recordSize : Int
  deriving DecidableEq, Repr

def addCols (tabName : String) : Int → List ColDef → List ColMeta × Int
  | currOffset,[] => ([],currOffset)
  | currOffset,colDef :: rest =>
    let later := addCols tabName (narrow (currOffset+colDef.len)) rest
    (⟨tabName,colDef.name,colDef.type,colDef.len,currOffset⟩ :: later.1,later.2)

/- `isTable` is what the catalog knows, `disk` the answer of the disk manager to a new file. -/
def createTable (isTable : String → Bool) (disk : String → Except Fault Unit) (tabName : String) (defs : List ColDef) :
    Except Fault Table := do
  if isTable tabName then .error (.error (.tableExists tabName))
  else
    let (cols,recordSize) := addCols tabName 0 defs
    let _ ← RmManager.createFile recordSize
    disk tabName
    .ok ⟨cols,recordSize⟩

def FieldType.declared : FieldType → Int
  | .int => 4
  | .bigint => 8
  | .datetime => 8
  | .char n => n
  | .float => 4

def ColMeta.Holds (col : ColMeta) (k : Int) : Prop := col.offset ≤ k ∧ k < col.offset+col.len

def ColMeta.store (col : ColMeta) (record data : Bytes) : Bytes :=
  record.take col.offset.toNat ++ data ++ record.drop (col.offset+col.len).toNat

structure WellLaid (fields : List Field) (table : Table) : Prop where
  stored : table.cols.map ColMeta.len = fields.map fun field => field.type.declared
  positive : ∀ col ∈ table.cols, 0 < col.len
  apart : ∀ (i j : Nat) (a b : ColMeta), table.cols[i]? = some a → table.cols[j]? = some b → i ≠ j →
    ∀ k, ¬(a.Holds k ∧ b.Holds k)
  inside : ∀ col ∈ table.cols, 0 ≤ col.offset ∧ col.offset+col.len ≤ table.recordSize
  covered : ∀ k, 0 ≤ k → k < table.recordSize → ∃ col ∈ table.cols, col.Holds k

def WritesApart (table : Table) : Prop :=
  ∀ (i j : Nat) (a b : ColMeta), table.cols[i]? = some a → table.cols[j]? = some b → i ≠ j → ∀ record data : Bytes,
    record.length = table.recordSize.toNat → data.length = a.len.toNat →
    ∀ k : Int, b.Holds k → (a.store record data)[k.toNat]? = record[k.toNat]?

section Sums
variable {tabName : String} {offset size : Int} {defs : List ColDef} {cols : List ColMeta}

theorem narrowFits {n : Int} (low : -2^31 ≤ n) (high : n < 2^31) : narrow n = n := by
  rw [narrow]
  exact Int.bmod_eq_of_le (by omega) (by omega)

theorem addColsLens (defs : List ColDef) (offset : Int) :
    (addCols tabName offset defs).1.map ColMeta.len = defs.map ColDef.len := by
  induction defs generalizing offset with
  | nil => rfl
  | cons colDef rest ih => simp only [addCols,List.map_cons,ih]

structure Stacked (offset size : Int) (cols : List ColMeta) : Prop where
  inside : ∀ col ∈ cols, offset ≤ col.offset ∧ col.offset+col.len ≤ size
  apart : cols.Pairwise fun a b => a.offset+a.len ≤ b.offset
  covered : ∀ k, offset ≤ k → k < size → ∃ col ∈ cols, col.Holds k

theorem addColsStacked (positive : ∀ colDef ∈ defs, 0 < colDef.len) (low : 0 ≤ offset)
    (high : offset+(defs.map ColDef.len).sum < 2^31) :
    (addCols tabName offset defs).2 = offset+(defs.map ColDef.len).sum ∧
    Stacked offset (addCols tabName offset defs).2 (addCols tabName offset defs).1 := by
  induction defs generalizing offset with
  | nil =>
    refine ⟨by simp [addCols],by simp [addCols],List.Pairwise.nil,fun k low high => ?_⟩
    simp only [addCols] at high
    omega
  | cons colDef rest ih =>
    have first := positive colDef List.mem_cons_self
    have others : ∀ colDef ∈ rest, 0 < colDef.len := fun x mem => positive x (List.mem_cons_of_mem colDef mem)
    have rests : 0 ≤ (rest.map ColDef.len).sum := List.sum_nonneg fun n mem => by
      obtain ⟨x,inside,rfl⟩ := List.mem_map.mp mem
      exact (others x inside).le
    rw [List.map_cons,List.sum_cons] at high ⊢
    have sum : narrow (offset+colDef.len) = offset+colDef.len := narrowFits (by omega) (by omega)
    have last := @ih (offset+colDef.len) others (by omega) (by omega)
    simp only [addCols,sum]
    obtain ⟨size,stacked⟩ := last
    refine ⟨by rw [size]; omega,?_,?_,?_⟩
    · intro col mem
      rcases List.mem_cons.mp mem with rfl | later
      · exact ⟨le_refl _,by rw [size]; dsimp only; omega⟩
      · have known := stacked.inside col later
        omega
    · refine List.pairwise_cons.mpr ⟨?_,stacked.apart⟩
      intro col mem
      exact (stacked.inside col mem).1
    · intro k low high
      by_cases here : k < offset+colDef.len
      · exact ⟨_,List.mem_cons_self,low,here⟩
      · obtain ⟨col,mem,holds⟩ := stacked.covered k (by omega) high
        exact ⟨col,List.mem_cons_of_mem _ mem,holds⟩

theorem addColsSum (made : addCols tabName offset defs = (cols,size)) (positive : ∀ col ∈ cols, 0 < col.len)
    (low : 0 ≤ offset) (inside : ∀ col ∈ cols, col.offset+col.len ≤ 512) :
    size = offset+(defs.map ColDef.len).sum := by
  induction defs generalizing offset cols with
  | nil =>
    cases made
    simp
  | cons colDef rest ih =>
    cases later : addCols tabName (narrow (offset+colDef.len)) rest with
    | mk restCols restSize =>
      simp only [addCols,later] at made
      cases made
      have first := positive _ List.mem_cons_self
      have bound := inside _ List.mem_cons_self
      dsimp only at first bound
      rw [narrowFits (by omega) (by omega)] at later
      rw [ih later (fun col mem => positive col (List.mem_cons_of_mem _ mem)) (by omega)
        fun col mem => inside col (List.mem_cons_of_mem _ mem),List.map_cons,List.sum_cons]
      omega

def ofCatalog (col : Rmdb.ColMeta) : ColMeta := ⟨col.tabName,col.name,col.type,col.len,col.offset⟩

def ofCatalogDef (colDef : Rmdb.ColDef) : ColDef := ⟨colDef.name,colDef.type,colDef.len⟩

theorem addColsCatalog (defs : List Rmdb.ColDef) (offset : Nat) (high : offset+(defs.map Rmdb.ColDef.len).sum < 2^31) :
    addCols tabName offset (defs.map ofCatalogDef) =
      ((newCols tabName offset defs).map ofCatalog,((offset+(defs.map Rmdb.ColDef.len).sum : Nat) : Int)) := by
  induction defs generalizing offset with
  | nil => rfl
  | cons colDef rest ih =>
    rw [List.map_cons,List.sum_cons] at high
    have sum : narrow (offset+(ofCatalogDef colDef).len) = ((offset+colDef.len : Nat) : Int) :=
      narrowFits (by simp only [ofCatalogDef]; omega) (by simp only [ofCatalogDef]; omega)
    simp only [List.map_cons,addCols,sum,newCols,List.sum_cons,ih (offset+colDef.len) (by omega)]
    rw [Nat.add_assoc]
    rfl

end Sums

section Create
variable {isTable : String → Bool} {disk : String → Except Fault Unit} {tabName : String} {fields : List Field} {table : Table}

theorem createTableMade {defs : List ColDef} (made : createTable isTable disk tabName defs = .ok table) :
    addCols tabName 0 defs = (table.cols,table.recordSize) ∧ 1 ≤ table.recordSize ∧ table.recordSize ≤ 512 := by
  rw [createTable] at made
  split at made
  · cases made
  · obtain ⟨file,accepted,made⟩ := exceptBind made
    obtain ⟨_,_,made⟩ := exceptBind made
    cases made
    have bounds := Record.RmManager.created accepted
    exact ⟨rfl,bounds.1,bounds.2.1⟩

theorem declaredStored {type : FieldType} (low : 1 ≤ type.declared) (high : type.declared ≤ 512) :
    type.typeLen.2 = type.declared := by
  cases type with
  | char n => exact narrowFits (by simp only [FieldType.declared] at low; omega) (by simp only [FieldType.declared] at high; omega)
  | int => rfl
  | bigint => rfl
  | datetime => rfl
  | float => rfl

theorem colDefsLens (fields : List Field) : (colDefs fields).map ColDef.len = fields.map fun field => field.type.typeLen.2 := by
  simp only [colDefs,List.map_map]
  rfl

def Fits (fields : List Field) : Prop :=
  (∀ field ∈ fields, 1 ≤ field.type.declared) ∧ (fields.map fun field => field.type.declared).sum ≤ 512

theorem Fits.stored (fits : Fits fields) :
    (colDefs fields).map ColDef.len = fields.map fun field => field.type.declared := by
  rw [colDefsLens]
  refine List.map_congr_left fun field mem => declaredStored (fits.1 field mem) ?_
  have single := List.single_le_sum (l := fields.map fun field => field.type.declared)
    (fun n inside => by
      obtain ⟨x,here,rfl⟩ := List.mem_map.mp inside
      have := fits.1 x here
      omega) _ (List.mem_map_of_mem mem)
  exact single.trans fits.2

theorem Fits.laid (fits : Fits fields) (made : createTable isTable disk tabName (colDefs fields) = .ok table) :
    WellLaid fields table := by
  obtain ⟨cols,_,_⟩ := createTableMade made
  have stored := fits.stored
  have positive : ∀ colDef ∈ colDefs fields, 0 < colDef.len := by
    intro colDef mem
    have len : colDef.len ∈ fields.map fun field => field.type.declared := stored ▸ List.mem_map_of_mem mem
    obtain ⟨field,inside,same⟩ := List.mem_map.mp len
    have := fits.1 field inside
    omega
  obtain ⟨size,stacked⟩ := @addColsStacked tabName 0 (colDefs fields) positive (le_refl 0)
    (by rw [stored]; have := fits.2; omega)
  have lens := @addColsLens tabName (colDefs fields) 0
  rw [cols] at stacked lens
  have below (i j : Nat) (a b : ColMeta) (first : table.cols[i]? = some a) (second : table.cols[j]? = some b) (before : i < j) :
      a.offset+a.len ≤ b.offset := by
    obtain ⟨smallI,rfl⟩ := List.getElem?_eq_some_iff.mp first
    obtain ⟨smallJ,rfl⟩ := List.getElem?_eq_some_iff.mp second
    exact List.pairwise_iff_getElem.mp stacked.apart i j smallI smallJ before
  refine ⟨lens.trans stored,?_,?_,stacked.inside,stacked.covered⟩
  · intro col mem
    have len : col.len ∈ (colDefs fields).map ColDef.len := lens ▸ List.mem_map_of_mem mem
    obtain ⟨colDef,inside,same⟩ := List.mem_map.mp len
    rw [← same]
    exact positive colDef inside
  · intro i j a b first second differ k both
    obtain ⟨⟨lowA,highA⟩,lowB,highB⟩ := both
    rcases Nat.lt_or_gt_of_ne differ with before | before
    · have order := below i j a b first second before
      omega
    · have order := below j i b a second first before
      omega

theorem WellLaid.fits (laid : WellLaid fields table) (made : createTable isTable disk tabName (colDefs fields) = .ok table) :
    Fits fields := by
  obtain ⟨cols,_,most⟩ := createTableMade made
  have lens := @addColsLens tabName (colDefs fields) 0
  rw [cols] at lens
  have total := addColsSum cols laid.positive (le_refl 0) fun col mem => (laid.inside col mem).2.trans most
  rw [← lens,laid.stored] at total
  refine ⟨?_,by omega⟩
  intro field mem
  have len : field.type.declared ∈ table.cols.map ColMeta.len := laid.stored ▸ List.mem_map_of_mem mem
  obtain ⟨col,inside,same⟩ := List.mem_map.mp len
  have := laid.positive col inside
  omega

theorem WellLaid.writesApart (laid : WellLaid fields table) : WritesApart table := by
  intro i j a b first second differ record data whole filled k held
  have insideA := laid.inside a (List.mem_of_getElem? first)
  have insideB := laid.inside b (List.mem_of_getElem? second)
  have positive := laid.positive a (List.mem_of_getElem? first)
  have outside : ¬a.Holds k := fun both => laid.apart i j a b first second differ k ⟨both,held⟩
  obtain ⟨low,high⟩ := held
  have front : (record.take a.offset.toNat).length = a.offset.toNat := by
    rw [List.length_take]
    omega
  rw [ColMeta.store,List.append_assoc]
  by_cases before : k < a.offset
  · rw [List.getElem?_append_left (by omega),List.getElem?_take,if_pos (by omega)]
  · have behind : a.offset+a.len ≤ k := by
      by_contra inside
      exact outside ⟨by omega,by omega⟩
    rw [List.getElem?_append_right (by omega),List.getElem?_append_right (by omega),List.getElem?_drop]
    congr 1
    omega

end Create

theorem tableLaidOut {isTable : String → Bool} {disk : String → Except Fault Unit} {tabName : String} {fields : List Field}
    {table : Table} (made : createTable isTable disk tabName (colDefs fields) = .ok table) :
    (WellLaid fields table ∧ WritesApart table) ↔ Fits fields :=
  ⟨fun laid => laid.1.fits made,fun fits => ⟨fits.laid made,(fits.laid made).writesApart⟩⟩

def nameAndAge : List Field := [⟨"name",.char 20⟩,⟨"age",.int⟩]

theorem nameAndAgeLaidOut : ∃ table, createTable (fun _ => false) (fun _ => .ok ()) "t" (colDefs nameAndAge) = .ok table ∧
    WellLaid nameAndAge table ∧ WritesApart table := by
  obtain ⟨table,made⟩ : ∃ table, createTable (fun _ => false) (fun _ => .ok ()) "t" (colDefs nameAndAge) = .ok table := ⟨_,rfl⟩
  exact ⟨table,made,(tableLaidOut made).mpr (by unfold Fits nameAndAge; decide)⟩

def negativeChar : List Field := [⟨"a",.int⟩,⟨"b",.char (-4)⟩,⟨"c",.int⟩]

theorem negativeCharShares : ∃ table, createTable (fun _ => false) (fun _ => .ok ()) "t" (colDefs negativeChar) = .ok table ∧
    ¬WellLaid negativeChar table ∧ ¬WritesApart table := by
  refine ⟨_,rfl,fun laid => ?_,fun writes => ?_⟩
  · have positive := laid.positive ⟨"t","b",.string,-4,4⟩ (by decide)
    revert positive
    decide
  · have kept := writes 0 2 ⟨"t","a",.int,4,0⟩ ⟨"t","c",.int,4,0⟩ rfl rfl (by decide) [0,0,0,0] [1,1,1,1] rfl rfl 0
      ⟨by decide,by decide⟩
    revert kept
    decide

end Rmdb.Layout
