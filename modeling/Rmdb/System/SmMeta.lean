import Rmdb.Defs

/-! The catalog: columns, indexes and tables. -/
namespace Rmdb

structure TabCol where
  tabName : String
  colName : String
  deriving DecidableEq, Repr

structure ColMeta where
  tabName : String
  name : String
  type : ColType
  len : Nat
  offset : Nat
  deriving DecidableEq, Repr

/- A key column, with the length that `create_table` gives its type. -/
structure KeyCol extends ColMeta where
  named : name ≠ ""
  fixed : match type with
    | .int => len = 4
    | .bigint => len = 8
    | .datetime => len = 8
    | .float => len = 4
    | .string => True

/- A key column of the tree, where integers stand for `FLOAT` values. -/
structure IxCol extends ColMeta where
  named : name ≠ ""
  fixed : match type with
    | .int => len = 4
    | .bigint => len = 8
    | .datetime => len = 8
    | .string => True
    | .float => False

structure IndexMeta where
  tabName : String
  cols : List KeyCol

structure TabMeta where
  name : String
  cols : List ColMeta
  indexes : List IndexMeta

structure DbMeta where
  name : String
  tabs : List (String × TabMeta)

namespace TabMeta

def getCol (tab : TabMeta) (colName : String) : Except Fault ColMeta :=
  match tab.cols.find? fun col => col.name = colName with
  | some col => .ok col
  | none => .error (.error (.columnNotFound colName))

def isIndex (tab : TabMeta) (colNames : List String) : Bool :=
  tab.indexes.any fun index => (index.cols.map fun col => col.name) = colNames

def getIndexMeta (tab : TabMeta) (colNames : List String) : Except Fault IndexMeta :=
  match tab.indexes.find? fun index => (index.cols.map fun col => col.name) = colNames with
  | some index => .ok index
  | none => .error (.error (.indexNotFound tab.name colNames))

end TabMeta

namespace DbMeta

def isTable (db : DbMeta) (tabName : String) : Bool := (db.tabs.lookup tabName).isSome

def getTable (db : DbMeta) (tabName : String) : Except Fault TabMeta :=
  match db.tabs.lookup tabName with
  | some tab => .ok tab
  | none => .error (.error (.tableNotFound tabName))

end DbMeta
end Rmdb
