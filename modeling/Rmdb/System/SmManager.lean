import Rmdb.Index.IxManager
import Rmdb.Record.Tables
import Rmdb.System.Codec

namespace Rmdb

/-- A column of CREATE TABLE. -/
structure ColDef where
  name : String
  type : ColType
  len : Int

/-- What the system manager keeps of an open database: the catalog, the handles of the table and index
files, the pool and the disk below them, and the text of `db.meta`, which is written as a stream. -/
structure Database (N : Nat) where
  db : DbMeta
  fhs : String → Option RmFileHandle
  ihs : String → Option IxIndexHandle
  pool : BufferPoolManager N
  metaText : List Char

abbrev SmM (N : Nat) := EStateM Error (Database N)

/-- `emplace`: a key that is there keeps its value. -/
def emplace {α : Type} (map : String → Option α) (key : String) (a : α) : String → Option α :=
  if (map key).isSome then map else Function.update map key (some a)

namespace Database
variable {N : Nat} {α : Type}

/-- A call on the files. -/
def onPool (x : PoolM N α) : SmM N α := fun s =>
  match x s.pool with
  | .ok a t => .ok a { s with pool := t }
  | .error e t => .error e { s with pool := t }

def flushMeta : SmM N Unit := modify fun s => { s with metaText := s.db.insert }

/-- The loop of `create_table` over the columns, from an offset on; an `int` adds up the lengths. -/
def layOut (tabName : String) : Int → List ColDef → List ColMeta × Int
  | currOffset, [] => ([], currOffset)
  | currOffset, colDef :: colDefs =>
    let (cols, recordSize) := layOut tabName (wrapInt (currOffset + colDef.len)) colDefs
    (⟨tabName, colDef.name, colDef.type, colDef.len, currOffset, false⟩ :: cols, recordSize)

/-- `create_table`; the operating system makes the file as `made` and opens it first as `fd` and then as `fd'`. -/
def createTable (tabName : String) (colDefs : List ColDef) (made fd fd' : Int) : SmM N Unit := do
  let s ← get
  if s.db.isTable tabName then throw (.tableExists tabName)
  let (cols, recordSize) := layOut tabName 0 colDefs
  onPool (RmManager.createFile tabName recordSize made fd)
  modify fun s => { s with db := { s.db with tabs := DbMeta.assign tabName ⟨tabName, cols, []⟩ s.db.tabs } }
  let fh ← onPool (RmManager.openFile tabName fd')
  modify fun s => { s with fhs := emplace s.fhs tabName fh }
  flushMeta

/-- The loop of `drop_table` over the indexes; `permitted` are the files that the operating system lets go. -/
def dropIndexes (tabName : String) (permitted : String → Bool) : List IndexMeta → SmM N Unit
  | [] => pure ()
  | index :: indexes => do
    let indexName := IxManager.getIndexName tabName index.cols
    let s ← get
    match s.ihs indexName with
    | some ih =>
      onPool (IxManager.closeIndex ih)
      modify fun s => { s with ihs := Function.update s.ihs indexName none }
    | none => pure ()
    onPool (RmManager.destroyFile indexName (permitted indexName))
    dropIndexes tabName permitted indexes

def dropTable (tabName : String) (permitted : String → Bool) : SmM N Unit := do
  let s ← get
  match s.db.tabs.lookup tabName with
  | none => throw (.tableNotFound tabName)
  | some tab =>
    dropIndexes tabName permitted tab.indexes
    let s ← get
    match s.fhs tabName with
    | some fh =>
      onPool (RmManager.closeFile fh)
      modify fun s => { s with fhs := Function.update s.fhs tabName none }
    | none => pure ()
    onPool (RmManager.destroyFile tabName (permitted tabName))
    modify fun s => { s with db := { s.db with tabs := s.db.tabs.filter fun entry => entry.1 ≠ tabName } }
    flushMeta

/-- The loop of `open_db` over the indexes of a table; `fds` is what the operating system gives. -/
def openIndexes (fds : String → Int) (tabName : String) : List IndexMeta → SmM N Unit
  | [] => pure ()
  | index :: indexes => do
    let indexName := IxManager.getIndexName tabName index.cols
    let ih ← onPool (IxManager.openIndex tabName index.cols (fds indexName))
    modify fun s => { s with ihs := emplace s.ihs indexName ih }
    openIndexes fds tabName indexes

/-- The loop of `open_db` over the tables. -/
def openTables (fds : String → Int) : List (String × TabMeta) → SmM N Unit
  | [] => pure ()
  | (tabName, tab) :: entries => do
    let fh ← onPool (RmManager.openFile tabName (fds tabName))
    modify fun s => { s with fhs := emplace s.fhs tabName fh }
    openIndexes fds tabName tab.indexes
    openTables fds entries

/-- `open_db` inside the directory of the database. What it does with a `db.meta` that cannot be read is left open. -/
def openDb (fds : String → Int) : SmM N Unit := do
  let s ← get
  match s.db.extract s.metaText with
  | none => throw .undefined
  | some (db, _) =>
    modify fun s => { s with db := db }
    openTables fds db.tabs

/-- A record operation through the handle of a table. -/
def record (tabName : String) (op : RecordOp) : SmM N RecordReply := fun s =>
  match s.fhs tabName with
  | none => .error .outOfRange s
  | some h =>
    match op.run ⟨h, s.pool⟩ with
    | .ok r t => .ok r { s with pool := t.store, fhs := Function.update s.fhs tabName (some t.handle) }
    | .error e t => .error e { s with pool := t.store, fhs := Function.update s.fhs tabName (some t.handle) }

/-- The loop of `close_db` over the index handles. -/
def closeIndexes : List String → SmM N Unit
  | [] => pure ()
  | indexName :: indexNames => do
    let s ← get
    match s.ihs indexName with
    | some ih => onPool (IxManager.closeIndex ih)
    | none => pure ()
    closeIndexes indexNames

/-- The loop of `close_db` over the table handles. -/
def closeTables : List String → SmM N Unit
  | [] => pure ()
  | tabName :: tabNames => do
    let s ← get
    match s.fhs tabName with
    | some fh => onPool (RmManager.closeFile fh)
    | none => pure ()
    closeTables tabNames

/-- `close_db`; the lists are the keys of the two maps of handles, in the order the maps give them in. -/
def closeDb (indexNames tabNames : List String) : SmM N Unit := do
  flushMeta
  closeIndexes indexNames
  modify fun s => { s with ihs := fun _ => none }
  closeTables tabNames
  modify fun s => { s with fhs := fun _ => none }

end Database

end Rmdb
