import Rmdb.System.SmMeta

/-! What the DDL statements do to the catalog. -/
namespace Rmdb

structure ColDef where
  name : String
  type : ColType
  len : Nat
  deriving DecidableEq, Repr

def newCols (tabName : String) : Nat → List ColDef → List ColMeta
  | _,[] => []
  | currOffset,colDef :: colDefs =>
    ⟨tabName,colDef.name,colDef.type,colDef.len,currOffset⟩ :: newCols tabName (currOffset+colDef.len) colDefs

namespace DbMeta

def createTable (db : DbMeta) (tabName : String) (colDefs : List ColDef) : Except Fault DbMeta :=
  if db.isTable tabName then .error (.error (.tableExists tabName))
  else .ok {db with tabs := (tabName,⟨tabName,newCols tabName 0 colDefs,[]⟩) :: db.tabs}

def dropTable (db : DbMeta) (tabName : String) : Except Fault DbMeta := do
  let _ ← db.getTable tabName
  .ok {db with tabs := db.tabs.filter fun entry => entry.1 ≠ tabName}

def setIndexes (db : DbMeta) (tabName : String) (indexes : List IndexMeta) : DbMeta :=
  {db with tabs := db.tabs.map fun entry => if entry.1 = tabName then (entry.1,{entry.2 with indexes := indexes}) else entry}

inductive Built : DbMeta → Prop
  | empty (name : String) : Built ⟨name,[]⟩
  | create {db db' : DbMeta} {tabName : String} {colDefs : List ColDef} (built : Built db)
      (done : db.createTable tabName colDefs = .ok db') : Built db'
  | drop {db db' : DbMeta} {tabName : String} (built : Built db) (done : db.dropTable tabName = .ok db') : Built db'
  | index {db : DbMeta} (built : Built db) (tabName : String) (indexes : List IndexMeta) :
      Built (db.setIndexes tabName indexes)

def Owned (db : DbMeta) : Prop := ∀ entry ∈ db.tabs, entry.2.name = entry.1 ∧ ∀ col ∈ entry.2.cols, col.tabName = entry.1

def Lists (db : DbMeta) (tab : TabMeta) : Prop := ∃ t, db.getTable t = .ok tab ∧ ∀ col ∈ tab.cols, col.tabName = t

theorem newColsOwned {tabName : String} {offset : Nat} {colDefs : List ColDef} {col : ColMeta}
    (mem : col ∈ newCols tabName offset colDefs) : col.tabName = tabName := by
  induction colDefs generalizing offset with
  | nil => cases mem
  | cons colDef colDefs ih =>
    rcases List.mem_cons.mp mem with rfl | later
    · rfl
    · exact ih later

theorem builtOwned {db : DbMeta} (built : Built db) : db.Owned := by
  induction built with
  | empty => exact fun entry mem => nomatch mem
  | create _ done ih =>
    rw [createTable] at done
    split at done
    · cases done
    · cases Except.ok.inj done
      intro entry mem
      rcases List.mem_cons.mp mem with rfl | old
      · exact ⟨rfl,fun col memCol => newColsOwned memCol⟩
      · exact ih entry old
  | @drop db db' tabName _ done ih =>
    rw [dropTable] at done
    cases found : db.getTable tabName with
    | error e => rw [found] at done; cases done
    | ok tab =>
      rw [found] at done
      cases Except.ok.inj done
      exact fun entry mem => ih entry (List.mem_of_mem_filter mem)
  | index _ tabName indexes ih =>
    intro entry mem
    obtain ⟨old,memOld,rfl⟩ := List.mem_map.mp mem
    split
    · exact ih old memOld
    · exact ih old memOld

theorem getTableMem {db : DbMeta} {tabName : String} {tab : TabMeta} (found : db.getTable tabName = .ok tab) :
    (tabName,tab) ∈ db.tabs := by
  rw [getTable] at found
  split at found
  · rename_i x here
    cases Except.ok.inj found
    obtain ⟨front,back,whole,_⟩ := List.lookup_eq_some_iff.mp here
    rw [whole]
    exact List.mem_append_right front List.mem_cons_self
  · cases found

end DbMeta
end Rmdb
