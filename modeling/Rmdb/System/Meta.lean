import Rmdb.Common

namespace Rmdb

structure ColMeta where
  tabName : String
  name : String
  type : ColType
  len : Int
  offset : Int
  index : Bool
  deriving DecidableEq, Repr

/-- Columns one after another from `offset` on, none of them empty. -/
def Consecutive : Int → List ColMeta → Prop
  | _, [] => True
  | offset, col :: cols => col.offset = offset ∧ 0 < col.len ∧ Consecutive (offset + col.len) cols

def totalLen (cols : List ColMeta) : Int := (cols.map (·.len)).sum

structure IndexMeta where
  tabName : String
  colTotLen : Int
  colNum : Int
  cols : List ColMeta
  deriving DecidableEq

structure TabMeta where
  name : String
  cols : List ColMeta
  indexes : List IndexMeta
  deriving DecidableEq

/-- The file of an index. -/
def IxManager.getIndexName (filename : String) (indexCols : List ColMeta) : String :=
  indexCols.foldl (fun name col => name ++ "_" ++ col.name) filename ++ ".idx"

namespace TabMeta

def isCol (tab : TabMeta) (colName : String) : Bool := tab.cols.any fun col => col.name = colName

/-- The copy constructor leaves the indexes behind. -/
def copy (tab : TabMeta) : TabMeta := { tab with indexes := [] }

def isIndex (tab : TabMeta) (colNames : List String) : Bool :=
  tab.indexes.any fun index => index.colNum = colNames.length ∧
    (index.cols.map (·.name)).take colNames.length = colNames

def getIndexMeta (tab : TabMeta) (colNames : List String) : Except Error IndexMeta :=
  let found := tab.indexes.find? fun index =>
    index.colNum = (colNames.length : Int) ∧ (index.cols.map (·.name)).take colNames.length = colNames
  match found with
  | some index => .ok index
  | none => .error (.indexNotFound tab.name colNames)

def getCol (tab : TabMeta) (colName : String) : Except Error ColMeta :=
  match tab.cols.find? fun col => col.name = colName with
  | some col => .ok col
  | none => .error (.columnNotFound colName)

end TabMeta

/-- The catalog. The map is the list of its entries; no key occurs twice. -/
structure DbMeta where
  name : String
  tabs : List (String × TabMeta)
  deriving DecidableEq

namespace DbMeta

def isTable (db : DbMeta) (tabName : String) : Bool := (db.tabs.lookup tabName).isSome

def getTable (db : DbMeta) (tabName : String) : Except Error TabMeta :=
  match db.tabs.lookup tabName with
  | some tab => .ok tab
  | none => .error (.tableNotFound tabName)

end DbMeta

theorem mem_of_lookup {α β : Type} [BEq α] [LawfulBEq α] {entries : List (α × β)} {k : α} {v : β}
    (found : entries.lookup k = some v) :
    (k, v) ∈ entries := by
  obtain ⟨before, after, rfl, _⟩ := List.lookup_eq_some_iff.mp found
  exact List.mem_append_right _ List.mem_cons_self

end Rmdb
