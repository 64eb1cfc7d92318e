import Rmdb.Index.Creation
import Rmdb.System.Catalog

namespace Rmdb
open BufferPoolManager DiskManager

def DB_META_NAME : String := "db.meta"

/-- A directory: the files its names stand for, and the text of its `db.meta`. -/
structure Directory where
  inode : String → Option Nat
  metaText : List Char

/-- What ends `open_db`: `DatabaseNotFoundError`, or what ends a call inside the directory. -/
inductive OpenError
  | databaseNotFound (dbName : String)
  | inside (e : Error)
  deriving DecidableEq

/-- The server: the directory it works in, the directories as it left them, and the manager, which sees the names of
the working directory. -/
structure Server (D : Type) (N : Nat) where
  cwd : D
  dirs : D → Directory
  manager : Database N

namespace Server
variable {D : Type} [DecidableEq D] {N : Nat}

abbrev disk (p : Server D N) : DiskManager := p.manager.pool.diskManager

def here (p : Server D N) : Directory := ⟨p.disk.os.inode, p.manager.metaText⟩

/-- A directory as it is now. -/
def directory (p : Server D N) : D → Directory := Function.update p.dirs p.cwd p.here

end Server

/-- The manager with the names of another directory. -/
def Database.enter {N : Nat} (s : Database N) (dir : Directory) : Database N :=
  { s with
    metaText := dir.metaText
    pool := { s.pool with diskManager := { s.pool.diskManager with
      os := { s.pool.diskManager.os with inode := dir.inode } } } }

namespace Server
variable {D : Type} [DecidableEq D] {N : Nat}

def chdir (p : Server D N) (d : D) : Server D N := ⟨d, p.directory, p.manager.enter (p.directory d)⟩

/-- `open_db`. `resolve` looks up a path from a directory and finds a directory or nothing. -/
def openDb (resolve : D → String → Option D) (fds : String → Int) (dbName : String) :
    EStateM OpenError (Server D N) Unit := fun p =>
  match resolve p.cwd dbName with
  | none => .error (.databaseNotFound dbName) p
  | some d =>
    let p := p.chdir d
    if (p.disk.os.inode DB_META_NAME).isSome then
      match Database.openDb fds p.manager with
      | .ok _ m => .ok () { p with manager := m }
      | .error e m => .error (.inside e) { p with manager := m }
    else .error (.inside .unix) p

end Server

/-- A directory with a database in it. No catalog has an index, since `create_index` does nothing. -/
structure IsDatabase (os : Os) (dir : Directory) (db : DbMeta) : Prop where
  hasMeta : (dir.inode DB_META_NAME).isSome
  text : dir.metaText = db.insert
  storable : db.Storable
  bare : ∀ entry ∈ db.tabs, entry.2.indexes = []
  files : ∀ entry ∈ db.tabs, HasHeader os dir.inode entry.1

/-- A statement of a client on tables or on records. -/
inductive Statement
  | ddl (call : Database.Ddl)
  | record (tabName : String) (op : RecordOp)

namespace Statement
variable {N : Nat}

def run : Statement → SmM N Unit
  | .ddl call => call.run
  | .record tabName op => (fun _ => ()) <$> Database.record tabName op

def Valid (s : Database N) : Statement → Prop
  | .ddl call => call.Valid s
  | .record _ _ => True

end Statement

namespace Server
variable {D : Type} [DecidableEq D] {N : Nat} {resolve : D → String → Option D} {dbName : String}

/-- A server that starts. -/
structure Starts (p : Server D N) : Prop where
  db : p.manager.db = .empty
  fhs : ∀ name, p.manager.fhs name = none
  ihs : ∀ name, p.manager.ihs name = none
  closed : ∀ path, p.disk.path2fd path = none

/-- A name of a database, seen from the working directory. -/
def Names (resolve : D → String → Option D) (p : Server D N) (dbName : String) (d : D) : Prop :=
  resolve p.cwd dbName = some d ∧ ∃ db, IsDatabase p.disk.os (p.directory d) db

/-- The server has opened a database and executed statements, whether they returned or threw. -/
inductive Session (resolve : D → String → Option D) (dbName : String) (start : Server D N) : Server D N → Prop
  | opened {p : Server D N} {fds : String → Int} : openDb resolve fds dbName start = .ok () p →
      Session resolve dbName start p
  | returned {p : Server D N} {m : Database N} {call : Statement} : Session resolve dbName start p →
      call.Valid p.manager → call.run p.manager = .ok () m → Session resolve dbName start { p with manager := m }
  | thrown {p : Server D N} {m : Database N} {call : Statement} {e : Error} : Session resolve dbName start p →
      call.Valid p.manager → call.run p.manager = .error e m → e ≠ .undefined →
      Session resolve dbName start { p with manager := m }

/-- `close_db` has returned; the handles are in the maps in any order. -/
def Closes (p q : Server D N) : Prop :=
  ∃ indexNames tabNames, (indexNames.Nodup ∧ ∀ name, name ∈ indexNames ↔ (p.manager.ihs name).isSome) ∧
    (tabNames.Nodup ∧ ∀ name, name ∈ tabNames ↔ (p.manager.fhs name).isSome) ∧
    ∃ m, Database.closeDb indexNames tabNames p.manager = .ok () m ∧ q = { p with manager := m }

/-- The operating system has a free descriptor for every table file. -/
structure Grants (dm : DiskManager) (fds : String → Int) (db : DbMeta) : Prop where
  free : ∀ name, db.isTable name = true → 0 ≤ fds name ∧ dm.os.fds (fds name) = none
  apart : ∀ name name', db.isTable name = true → db.isTable name' = true → fds name = fds name' → name = name'

/-- `open_db` gives the manager of the database in `d` and nothing else. -/
def Reopens (resolve : D → String → Option D) (fds : String → Int) (dbName : String) (d : D) (db : DbMeta)
    (p : Server D N) : Prop :=
  ∃ q, openDb resolve fds dbName p = .ok () q ∧ q.cwd = d ∧ q.manager.db = db ∧
    (∀ name, (q.manager.fhs name).isSome ↔ db.isTable name = true) ∧
    (∀ name h, q.manager.fhs name = some h → q.disk.os.fds h.fd = (p.directory d).inode name) ∧
    ∀ name, q.manager.ihs name = none

/-- What `close_db` leaves does no harm: the name means the same from inside the old directory, the old tables are also
in the new catalog, and no file with the name of a new table is still open. -/
structure Harmless (resolve : D → String → Option D) (dbName : String) (d : D) (db : DbMeta) (p : Server D N) :
    Prop where
  path : resolve p.cwd dbName = some d
  tables : ∀ name, p.manager.db.isTable name = true → db.isTable name = true
  closed : ∀ name, db.isTable name = true → p.disk.path2fd name = none

end Server

namespace DbMeta
variable {tabs entries : List (String × TabMeta)} {t : String} {tab : TabMeta}

theorem lookup_assignAll (t : String) (tabs entries : List (String × TabMeta)) (nodup : (entries.map (·.1)).Nodup) :
    (assignAll tabs entries).lookup t = (entries.lookup t).or (tabs.lookup t) := by
  induction entries generalizing tabs with
  | nil => rfl
  | cons entry entries ih =>
    obtain ⟨fresh, nodup⟩ := List.nodup_cons.mp nodup
    rw [assignAll, List.foldl_cons]
    change (assignAll _ entries).lookup t = _
    rw [ih _ nodup, lookup_assign, lookup_cons]
    by_cases same : t = entry.1
    · have missing : entries.lookup t = none := by
        rw [← Option.not_isSome_iff_eq_none, lookup_isSome_iff, same]
        exact fresh
      rw [if_pos same, if_pos same, missing]
      rfl
    · rw [if_neg same, if_neg same]

theorem mem_assignAll {entry : String × TabMeta} (member : entry ∈ assignAll tabs entries) :
    entry ∈ entries ∨ entry ∈ tabs := by
  induction entries generalizing tabs with
  | nil => exact Or.inr member
  | cons first entries ih =>
    rcases ih member with later | here
    · exact Or.inl (List.mem_cons_of_mem _ later)
    · rcases mem_assign here with rfl | old
      · exact Or.inl List.mem_cons_self
      · exact Or.inr old

theorem assignAll_ordered (ordered : tabs.Pairwise fun a b => a.1 < b.1) :
    (assignAll tabs entries).Pairwise fun a b => a.1 < b.1 := by
  induction entries generalizing tabs with
  | nil => exact ordered
  | cons entry entries ih => exact ih (assign_ordered ordered)

theorem lookup_of_mem (ordered : tabs.Pairwise fun a b => a.1 < b.1) (member : (t, tab) ∈ tabs) :
    tabs.lookup t = some tab := by
  induction tabs with
  | nil => cases member
  | cons entry tabs ih =>
    obtain ⟨less, ordered⟩ := List.pairwise_cons.mp ordered
    rw [lookup_cons]
    rcases List.mem_cons.mp member with rfl | later
    · exact if_pos rfl
    · rw [if_neg (less _ later).ne', ih ordered later]

/-- Two catalogs in the order of their keys with the same entries are one. -/
theorem eq_of_lookup {tabs' : List (String × TabMeta)} (ordered : tabs.Pairwise fun a b => a.1 < b.1)
    (ordered' : tabs'.Pairwise fun a b => a.1 < b.1) (same : ∀ t, tabs.lookup t = tabs'.lookup t) : tabs = tabs' := by
  have members : ∀ entry, entry ∈ tabs ↔ entry ∈ tabs' := by
    rintro ⟨t, tab⟩
    constructor
    · intro member
      exact mem_of_lookup ((same t).symm.trans (lookup_of_mem ordered member))
    · intro member
      exact mem_of_lookup ((same t).trans (lookup_of_mem ordered' member))
  have nodup : ∀ {l : List (String × TabMeta)}, l.Pairwise (fun a b => a.1 < b.1) → l.Nodup := fun ordered =>
    ordered.imp fun less same => less.ne (congrArg Prod.fst same)
  have perm := (List.perm_ext_iff_of_nodup (nodup ordered) (nodup ordered')).mpr members
  exact perm.eq_of_pairwise (fun a b _ _ ab ba => absurd ba (lt_asymm ab)) ordered ordered'

/-- Reading over an old catalog gives the new one exactly if it has all the old tables. -/
theorem assignAll_eq_iff (ordered : tabs.Pairwise fun a b => a.1 < b.1)
    (ordered' : entries.Pairwise fun a b => a.1 < b.1) :
    assignAll tabs entries = entries ↔ ∀ t, (tabs.lookup t).isSome → (entries.lookup t).isSome := by
  have nodup : (entries.map (·.1)).Nodup := List.pairwise_map.mpr (ordered'.imp fun less => less.ne)
  constructor
  · intro same t isOld
    rw [← same, lookup_assignAll t tabs entries nodup]
    cases entries.lookup t with
    | none => exact isOld
    | some tab => rfl
  · intro covered
    refine eq_of_lookup (assignAll_ordered ordered) ordered' fun t => ?_
    rw [lookup_assignAll t tabs entries nodup]
    cases new : entries.lookup t with
    | some tab => rfl
    | none =>
      have missing := mt (covered t)
      rw [new] at missing
      exact Option.not_isSome_iff_eq_none.mp (missing Bool.false_ne_true)

end DbMeta

namespace Database
variable {N : Nat} {s t : Database N} {tabName : String} {colDefs : List ColDef} {made fd fd' : Int}
  {permitted : String → Bool} {e : Error}

/-- A catalog whose tables have files in the working directory, beside its `db.meta`. -/
structure Sound (db : DbMeta) (dm : DiskManager) : Prop where
  hasMeta : (dm.os.inode DB_META_NAME).isSome
  storable : db.Storable
  bare : ∀ entry ∈ db.tabs, entry.2.indexes = []
  files : ∀ entry ∈ db.tabs, HasHeader dm.os dm.os.inode entry.1

namespace Sound
variable {db : DbMeta} {dm dm' : DiskManager}

theorem kept (sound : Sound db dm) (kept : Kept (fun _ => False) dm dm') : Sound db dm' where
  hasMeta := by
    obtain ⟨ino, named⟩ := Option.isSome_iff_exists.mp sound.hasMeta
    rw [kept.names _ ino not_false named]
    rfl
  storable := sound.storable
  bare := sound.bare
  files entry member := (sound.files entry member).kept kept not_false

/-- A new table with its file. -/
theorem created {cols : List ColMeta} {recordSize : Int} {u : BufferPoolManager N}
    (sound : Sound s.db s.pool.diskManager) (valid : (Ddl.createTable tabName colDefs made fd fd').Valid s)
    (laid : layOut tabName 0 colDefs = (cols, recordSize))
    (created : RmManager.createFile tabName recordSize made fd s.pool = .ok () u) :
    Sound ⟨s.db.name, DbMeta.assign tabName ⟨tabName, cols, []⟩ s.db.tabs⟩ u.diskManager := by
  have before := sound.kept ((RmManager.createFile_moves tabName recordSize made fd).ok created)
  refine ⟨before.hasMeta, createTable_storable sound.storable valid laid, fun entry member => ?_,
    fun entry member => ?_⟩
  · rcases DbMeta.mem_assign member with rfl | old
    · rfl
    · exact sound.bare entry old
  · rcases DbMeta.mem_assign member with rfl | old
    · exact RmManager.createFile_header created
    · exact before.files entry old

/-- A table less and its file removed. -/
theorem removed (sound : Sound db dm) (identifier : IsIdentifier tabName) (kept : Kept (· = tabName) dm dm') :
    Sound (dropped db tabName) dm' := by
  refine ⟨?_, dropped_storable sound.storable tabName, fun entry member => ?_, fun entry member => ?_⟩
  · obtain ⟨ino, named⟩ := Option.isSome_iff_exists.mp sound.hasMeta
    have other : DB_META_NAME ≠ tabName := by
      rintro rfl
      exact absurd identifier (by decide)
    rw [kept.names _ ino other named]
    rfl
  · exact sound.bare entry (List.mem_filter.mp member).1
  · obtain ⟨old, other⟩ := List.mem_filter.mp member
    exact (sound.files entry old).kept kept (of_decide_eq_true other)

end Sound

/-- What a statement leaves, whether it returns or throws. -/
structure Leaves (s t : Database N) : Prop where
  sound : Sound t.db t.pool.diskManager
  kept : Kept (fun _ => True) s.pool.diskManager t.pool.diskManager

theorem Leaves.of_kept {db : DbMeta} {u v : BufferPoolManager N} (sound : Sound db u.diskManager)
    (first : PoolKept s.pool u) (second : PoolKept u v) (sameDb : t.db = db) (samePool : t.pool = v) : Leaves s t := by
  rw [← sameDb] at sound
  rw [← samePool] at second
  exact ⟨sound.kept second, (first.trans second).mono fun _ => False.elim⟩

theorem createTable_leaves (sound : Sound s.db s.pool.diskManager)
    (valid : (Ddl.createTable tabName colDefs made fd fd').Valid s)
    (run : createTable tabName colDefs made fd fd' s = .ok () t) :
    Leaves s t := by
  obtain ⟨cols, recordSize, u, v, h, _, laid, created, opened, rfl⟩ := createTable_ok run
  have first := (RmManager.createFile_moves tabName recordSize made fd).ok created
  exact .of_kept (sound.created valid laid created) first ((RmManager.openFile_moves tabName fd').ok opened) rfl rfl

theorem createTable_throws_leaves (sound : Sound s.db s.pool.diskManager)
    (valid : (Ddl.createTable tabName colDefs made fd fd').Valid s)
    (run : createTable tabName colDefs made fd fd' s = .error e t) : Leaves s t := by
  unfold createTable at run
  rw [get_bind] at run
  split at run
  · cases run
    exact .of_kept sound (.refl _ _) (.refl _ _) rfl rfl
  · cases laid : layOut tabName 0 colDefs with
    | mk cols recordSize =>
    rw [laid] at run
    rcases bind_eq_error.mp run with refused | ⟨_, one, creating, run⟩
    · obtain ⟨u, stopped, rfl⟩ := onPool_error refused
      have moved := (RmManager.createFile_moves tabName recordSize made fd).error stopped
      exact .of_kept sound (.refl _ _) moved rfl rfl
    · obtain ⟨u, created, rfl⟩ := onPool_ok creating
      have first := (RmManager.createFile_moves tabName recordSize made fd).ok created
      rw [modify_bind] at run
      rcases bind_eq_error.mp run with refused | ⟨_, two, opening, run⟩
      · obtain ⟨v, stopped, rfl⟩ := onPool_error refused
        have second := (RmManager.openFile_moves tabName fd').error stopped
        exact .of_kept (sound.created valid laid created) first second rfl rfl
      · rw [modify_bind] at run
        cases run

/-- Before the file of a table is removed its handle is closed if there is one. -/
theorem dropTable_cases {tab : TabMeta} (found : s.db.tabs.lookup tabName = some tab) (bare : tab.indexes = []) :
    (∃ e u, dropTable tabName permitted s = .error e { s with pool := u } ∧ PoolKept s.pool u) ∨
      ∃ u fhs, PoolKept s.pool u ∧ dropTable tabName permitted s = (do
        onPool (RmManager.destroyFile tabName (permitted tabName))
        modify fun s => { s with db := dropped s.db tabName }
        flushMeta : SmM N Unit) { s with pool := u, fhs := fhs } := by
  unfold dropTable
  rw [get_bind]
  simp only [found, bare, dropIndexes, pure_bind]
  rw [get_bind]
  cases isOpen : s.fhs tabName with
  | none => exact Or.inr ⟨s.pool, s.fhs, .refl _ _, rfl⟩
  | some h =>
    simp only
    cases closing : RmManager.closeFile h s.pool with
    | error e u =>
      left
      refine ⟨e, u, bind_error ?_, (RmManager.closeFile_moves h).error closing⟩
      simp only [onPool, closing]
    | ok _ u =>
      refine Or.inr ⟨u, Function.update s.fhs tabName none, (RmManager.closeFile_moves h).ok closing, ?_⟩
      have closed : onPool (RmManager.closeFile h) s = .ok () { s with pool := u } := by simp only [onPool, closing]
      rw [bind_ok closed]
      rfl

theorem dropTable_leaves (sound : Sound s.db s.pool.diskManager) (identifier : IsIdentifier tabName) :
    Leaves s (stateAfter (dropTable tabName permitted) s) := by
  cases found : s.db.tabs.lookup tabName with
  | none =>
    have missing : dropTable tabName permitted s = .error (.tableNotFound tabName) s := by
      simp only [dropTable, get_bind, found]
      rfl
    rw [stateAfter, missing]
    exact .of_kept sound (.refl _ _) (.refl _ _) rfl rfl
  | some tab =>
    rcases dropTable_cases found (sound.bare _ (mem_of_lookup found)) with ⟨e, u, run, moved⟩ | ⟨u, fhs, moved, run⟩
    · rw [stateAfter, run]
      exact .of_kept sound (.refl _ _) moved rfl rfl
    · rw [stateAfter, run]
      have before := sound.kept moved
      cases removing : RmManager.destroyFile tabName (permitted tabName) u with
      | error e v =>
        have refused : onPool (RmManager.destroyFile tabName (permitted tabName)) { s with pool := u, fhs := fhs } =
            .error e { s with pool := v, fhs := fhs } := by simp only [onPool, removing]
        rw [bind_error refused]
        have same : v = u := by
          unfold RmManager.destroyFile at removing
          split at removing
          · cases removing
          · cases removing
            rfl
        exact .of_kept sound (.refl _ _) moved rfl same
      | ok _ v =>
        have gone : onPool (RmManager.destroyFile tabName (permitted tabName)) { s with pool := u, fhs := fhs } =
            .ok () { s with pool := v, fhs := fhs } := by simp only [onPool, removing]
        rw [bind_ok gone]
        have kept := (RmManager.destroyFile_moves tabName _).ok removing
        exact ⟨before.removed identifier kept, (moved.mono fun _ => False.elim).trans (kept.mono fun _ _ => trivial)⟩

theorem record_leaves (sound : Sound s.db s.pool.diskManager) (tabName : String) (op : RecordOp) :
    Leaves s (stateAfter (record tabName op) s) := by
  cases isOpen : s.fhs tabName with
  | none =>
    have after : stateAfter (record tabName op) s = s := by simp only [stateAfter, record, isOpen]
    rw [after]
    exact .of_kept sound (.refl _ _) (.refl _ _) rfl rfl
  | some h =>
    cases run : op.run (⟨h, s.pool⟩ : RmFile (BufferPoolManager N)) with
    | ok r u =>
      simp only [stateAfter, record, isOpen, run]
      exact .of_kept sound (.refl _ _) (op.run_moves.ok run) rfl rfl
    | error e u =>
      simp only [stateAfter, record, isOpen, run]
      exact .of_kept sound (.refl _ _) (op.run_moves.error run) rfl rfl

/-- Whatever comes of a statement, the tables of the catalog have files afterwards. -/
theorem statement_leaves {call : Statement} (sound : Sound s.db s.pool.diskManager) (valid : call.Valid s) :
    Leaves s (stateAfter call.run s) := by
  cases call with
  | record tabName op =>
    simp only [Statement.run, stateAfter_map]
    exact record_leaves sound tabName op
  | ddl call =>
    cases call with
    | dropTable tabName permitted => exact dropTable_leaves sound valid
    | createTable tabName colDefs made fd fd' =>
      unfold stateAfter
      split
      · rename_i run
        exact createTable_leaves sound valid run
      · rename_i run
        exact createTable_throws_leaves sound valid run

/-- The manager before and after calls on the files. -/
structure ClosedFrom (s t : Database N) : Prop where
  db : t.db = s.db
  ihs : t.ihs = s.ihs
  metaText : t.metaText = s.metaText
  kept : PoolKept s.pool t.pool

instance : IsPreorder (Database N) ClosedFrom where
  refl _ := ⟨rfl, rfl, rfl, .refl _ _⟩
  trans _ _ _ first second := ⟨second.db.trans first.db, second.ihs.trans first.ihs,
    second.metaText.trans first.metaText, first.kept.trans second.kept⟩

theorem onPool_moves {α : Type} {x : PoolM N α} (moves : Moves PoolKept x) : Moves ClosedFrom (onPool x) := by
  refine .of_results (fun s a t run => ?_) fun s e t run => ?_
  · obtain ⟨u, inner, rfl⟩ := onPool_ok run
    exact ⟨rfl, rfl, rfl, moves.ok inner⟩
  · obtain ⟨u, inner, rfl⟩ := onPool_error run
    exact ⟨rfl, rfl, rfl, moves.error inner⟩

theorem closeIndex_moves (ih : IxIndexHandle) : Moves PoolKept (IxManager.closeIndex ih : PoolM N Unit) := by
  refine (ensure_moves _).bind fun data => (writePage_moves _ _ _ _).bind fun _ => ?_
  exact (flushAllPages_moves _).bind fun _ => BufferPoolManager.closeFile_moves _

theorem closeIndexes_moves (indexNames : List String) : Moves ClosedFrom (closeIndexes indexNames : SmM N Unit) := by
  induction indexNames with
  | nil => exact Moves.pure _
  | cons indexName indexNames next =>
    refine Moves.get.bind fun s => ?_
    cases s.ihs indexName with
    | none => exact next
    | some ih => exact (onPool_moves (closeIndex_moves ih)).bind fun _ => next

theorem closeTables_moves (tabNames : List String) : Moves ClosedFrom (closeTables tabNames : SmM N Unit) := by
  induction tabNames with
  | nil => exact Moves.pure _
  | cons tabName tabNames next =>
    refine Moves.get.bind fun s => ?_
    cases s.fhs tabName with
    | none => exact next
    | some h => exact (onPool_moves (RmManager.closeFile_moves h)).bind fun _ => next

/-- `close_db` stores the catalog and forgets the handles, but not the catalog itself. -/
theorem closeDb_ok {indexNames tabNames : List String} (run : closeDb indexNames tabNames s = .ok () t) :
    t.db = s.db ∧ t.metaText = s.db.insert ∧ PoolKept s.pool t.pool ∧ (∀ name, t.fhs name = none) ∧
      ∀ name, t.ihs name = none := by
  obtain ⟨_, _, flushed, run⟩ := bind_eq_ok.mp run
  cases flushed
  obtain ⟨_, u, indexes, run⟩ := bind_eq_ok.mp run
  rw [modify_bind] at run
  obtain ⟨_, v, tables, run⟩ := bind_eq_ok.mp run
  cases run
  have first := (closeIndexes_moves indexNames).ok indexes
  have second := (closeTables_moves tabNames).ok tables
  refine ⟨second.db.trans first.db, second.metaText.trans first.metaText, first.kept.trans second.kept, ?_⟩
  exact ⟨fun _ => rfl, fun name => congrFun second.ihs name⟩

theorem openTables_kept {entries : List (String × TabMeta)} {fds : String → Int}
    (bare : ∀ entry ∈ entries, entry.2.indexes = []) (run : openTables fds entries s = .ok () t) :
    t.db = s.db ∧ PoolKept s.pool t.pool ∧ ∀ name ∈ entries.map (·.1), s.pool.diskManager.path2fd name = none := by
  induction entries generalizing s with
  | nil =>
    cases run
    exact ⟨rfl, .refl _ _, fun _ member => by cases member⟩
  | cons entry entries ih =>
    obtain ⟨tabName, tab⟩ := entry
    obtain ⟨indexes, bare⟩ := List.forall_mem_cons.mp bare
    obtain ⟨h, one, opening, later⟩ := bind_eq_ok.mp run
    obtain ⟨u, opened, rfl⟩ := onPool_ok opening
    simp only at indexes
    rw [modify_bind, indexes, openIndexes] at later
    obtain ⟨db, kept, closed⟩ := ih bare later
    refine ⟨db, ((RmManager.openFile_moves tabName (fds tabName)).ok opened).trans kept, fun name member => ?_⟩
    obtain ⟨_, dm, diskOpened, _, _, _, _, _, _, _, rfl⟩ := RmManager.openFile_pool opened
    obtain ⟨_, _, free, _, _, _, rfl⟩ := DiskManager.openFile_ok diskOpened
    by_cases same : name = tabName
    · rw [same]
      exact free
    · have later := closed name ((List.mem_cons.mp member).resolve_left same)
      simp only [setFd2pageno, Function.update_of_ne same] at later
      exact later

/-- The handles of a list of tables have been opened between two states. -/
structure Found (fds : String → Int) (entries : List (String × TabMeta)) (s t : Database N) : Prop where
  db : t.db = s.db
  ihs : t.ihs = s.ihs
  others : ∀ name, name ∉ entries.map (·.1) → t.fhs name = s.fhs name
  handles : ∀ name ∈ entries.map (·.1), ∃ h, t.fhs name = some h ∧ h.fd = fds name
  descriptors : ∀ name ∈ entries.map (·.1),
    t.pool.diskManager.os.fds (fds name) = s.pool.diskManager.os.inode name
  untouched : ∀ fd, (∀ name ∈ entries.map (·.1), fd ≠ fds name) →
    t.pool.diskManager.os.fds fd = s.pool.diskManager.os.fds fd

/-- A file with a header under a name that is not open. -/
theorem openFile_returns {u : BufferPoolManager N} (has : HasHeader u.diskManager.os u.diskManager.os.inode tabName)
    (closed : u.diskManager.path2fd tabName = none) (nonneg : 0 ≤ fd) (free : u.diskManager.os.fds fd = none) :
    ∃ h v, RmManager.openFile tabName fd u = .ok h v ∧ h.fd = fd ∧
      v.diskManager.os.fds = Function.update u.diskManager.os.fds fd (u.diskManager.os.inode tabName) ∧
      v.diskManager.os.inode = u.diskManager.os.inode ∧
      v.diskManager.path2fd = Function.update u.diskManager.path2fd tabName (some fd) := by
  obtain ⟨ino, named, _, whole⟩ := has
  let dm : DiskManager := { u.diskManager with
    path2fd := Function.update u.diskManager.path2fd tabName (some fd)
    fd2path := Function.update u.diskManager.fd2path fd (some tabName)
    os := { u.diskManager.os with fds := Function.update u.diskManager.os.fds fd (some ino) } }
  have opened : PageStore.openFile tabName fd u = .ok fd { u with diskManager := dm } := by
    have usable : Usable u.diskManager fd := ⟨nonneg, free⟩
    simp only [PageStore.openFile, DiskManager.openFile, named, closed, Option.isSome_none]
    rw [if_neg Bool.false_ne_true, if_neg (not_not.mpr usable)]
  have atFd : dm.fileOf fd = some (u.diskManager.os.file ino) := by
    simp only [dm, fileOf, Function.update_self, Option.map_some]
  have inside : (0 : Int).toNat * PAGE_SIZE + RmFileHdr.size ≤ (u.diskManager.os.file ino).len := by
    rw [Int.toNat_zero, Nat.zero_mul, Nat.zero_add]
    exact whole
  have read : dm.readPage fd 0 (Block.zero : Block RmFileHdr.size) = _ := readPage_whole atFd le_rfl inside
  have paged : PageStore.readPage fd RM_FILE_HDR_PAGE RmFileHdr.size { u with diskManager := dm } =
      .ok (Block.ofPtr fun i => (u.diskManager.os.file ino).byte ((0 : Int).toNat * PAGE_SIZE + i) :
        Block RmFileHdr.size).peek { u with diskManager := dm } := by
    simp only [PageStore.readPage, RM_FILE_HDR_PAGE]
    rw [read]
  unfold RmManager.openFile RmFileHandle.new
  rw [bind_ok opened, bind_ok paged, named]
  exact ⟨_, _, rfl, rfl, rfl, rfl, rfl⟩

theorem openTables_returns {entries : List (String × TabMeta)} {fds : String → Int}
    (bare : ∀ entry ∈ entries, entry.2.indexes = []) (nodup : (entries.map (·.1)).Nodup)
    (files : ∀ name ∈ entries.map (·.1), HasHeader s.pool.diskManager.os s.pool.diskManager.os.inode name)
    (closed : ∀ name ∈ entries.map (·.1), s.pool.diskManager.path2fd name = none)
    (free : ∀ name ∈ entries.map (·.1), 0 ≤ fds name ∧ s.pool.diskManager.os.fds (fds name) = none)
    (apart : ∀ name ∈ entries.map (·.1), ∀ name' ∈ entries.map (·.1), fds name = fds name' → name = name')
    (noHandle : ∀ name ∈ entries.map (·.1), s.fhs name = none) :
    ∃ t, openTables fds entries s = .ok () t ∧ Found fds entries s t := by
  induction entries generalizing s with
  | nil =>
    refine ⟨s, rfl, rfl, rfl, fun _ _ => rfl, fun _ member => ?_, fun _ member => ?_, fun _ _ => rfl⟩
    · cases member
    · cases member
  | cons entry entries ih =>
    obtain ⟨tabName, tab⟩ := entry
    obtain ⟨indexes, bare⟩ := List.forall_mem_cons.mp bare
    obtain ⟨fresh, nodup⟩ := List.nodup_cons.mp nodup
    obtain ⟨file, files⟩ := List.forall_mem_cons.mp files
    obtain ⟨notOpen, closed⟩ := List.forall_mem_cons.mp closed
    obtain ⟨⟨nonneg, isFree⟩, free⟩ := List.forall_mem_cons.mp free
    obtain ⟨missing, noHandle⟩ := List.forall_mem_cons.mp noHandle
    have other : ∀ name ∈ entries.map (·.1), name ≠ tabName ∧ fds name ≠ fds tabName := by
      intro name member
      have different : name ≠ tabName := by
        rintro rfl
        exact fresh member
      exact ⟨different, mt (apart name (List.mem_cons_of_mem _ member) tabName List.mem_cons_self) different⟩
    obtain ⟨h, u, opened, atFd, descriptors, inode, paths⟩ := openFile_returns file notOpen nonneg isFree
    have handle : emplace s.fhs tabName h = Function.update s.fhs tabName (some h) := by
      simp [emplace, missing]
    obtain ⟨t, run, found⟩ := ih (s := { s with pool := u, fhs := Function.update s.fhs tabName (some h) }) bare nodup
      (fun name member => (files name member).kept ((RmManager.openFile_moves tabName _).ok opened) not_false)
      (fun name member => by
        simp only [paths, Function.update_of_ne (other name member).1]
        exact closed name member)
      (fun name member => by
        simp only [descriptors, Function.update_of_ne (other name member).2]
        exact free name member)
      (fun name member name' member' =>
        apart name (List.mem_cons_of_mem _ member) name' (List.mem_cons_of_mem _ member'))
      (fun name member => (Function.update_of_ne (other name member).1 ..).trans (noHandle name member))
    refine ⟨t, ?_, found.db, found.ihs, fun name unlisted => ?_, fun name member => ?_, fun name member => ?_,
      fun fd unused => ?_⟩
    · have first : onPool (RmManager.openFile tabName (fds tabName)) s = .ok h { s with pool := u } := by
        simp only [onPool, opened]
      rw [openTables, bind_ok first, modify_bind]
      simp only at indexes
      rw [indexes, openIndexes]
      simp only [handle]
      exact run
    · obtain ⟨different, unlisted⟩ := List.ne_and_not_mem_of_not_mem_cons unlisted
      exact (found.others name unlisted).trans (Function.update_of_ne different ..)
    · rcases List.mem_cons.mp member with rfl | member
      · exact ⟨h, (found.others _ fresh).trans (Function.update_self ..), atFd⟩
      · exact found.handles name member
    · rcases List.mem_cons.mp member with rfl | member
      · rw [found.untouched _ fun name member => ((other name member).2).symm]
        simp only [descriptors, Function.update_self]
      · rw [found.descriptors name member]
        simp only [inode]
    · obtain ⟨different, unused⟩ := List.forall_mem_cons.mp unused
      rw [found.untouched fd unused]
      simp only [descriptors, Function.update_of_ne different]

end Database

namespace IsDatabase
variable {dm dm' : DiskManager} {dir : Directory} {db : DbMeta} {removed : String → Prop}

/-- A database that the server does not work in. -/
theorem elsewhere (isDb : IsDatabase dm.os dir db) (kept : Kept removed dm dm') : IsDatabase dm'.os dir db where
  hasMeta := isDb.hasMeta
  text := isDb.text
  storable := isDb.storable
  bare := isDb.bare
  files entry member := (isDb.files entry member).elsewhere kept

theorem stored_iff {db' : DbMeta} (isDb : IsDatabase dm.os dir db) :
    DbMeta.ofText dir.metaText = some db' ↔ db' = db := by
  rw [isDb.text, DbMeta.ofText_insert isDb.storable, Option.some.injEq, eq_comm]

theorem nodup (isDb : IsDatabase dm.os dir db) : (db.tabs.map (·.1)).Nodup :=
  List.pairwise_map.mpr (isDb.storable.ordered.imp fun less => less.ne)

end IsDatabase

namespace Server
variable {D : Type} [DecidableEq D] {N : Nat} {resolve : D → String → Option D} {dbName : String}
  {start p q : Server D N} {d : D} {db : DbMeta} {fds : String → Int}

theorem isTable_iff {name : String} : db.isTable name = true ↔ name ∈ db.tabs.map (·.1) := by
  unfold DbMeta.isTable
  exact DbMeta.lookup_isSome_iff name db.tabs

/-- What `open_db` does in the directory of a database. -/
theorem openDb_iff (isDb : IsDatabase p.disk.os (p.directory d) db) :
    openDb resolve fds dbName p = .ok () q ∧ q.cwd = d ↔ resolve p.cwd dbName = some d ∧ ∃ m,
      Database.openTables fds (DbMeta.assignAll p.manager.db.tabs db.tabs)
        { p.manager.enter (p.directory d) with
          db := ⟨db.name, DbMeta.assignAll p.manager.db.tabs db.tabs⟩ } = .ok () m ∧
      q = ⟨d, p.directory, m⟩ := by
  obtain ⟨rest, read⟩ := isDb.storable.extract_over p.manager.db
  have inside : Database.openDb fds (p.manager.enter (p.directory d)) =
      Database.openTables fds (DbMeta.assignAll p.manager.db.tabs db.tabs)
        { p.manager.enter (p.directory d) with
          db := ⟨db.name, DbMeta.assignAll p.manager.db.tabs db.tabs⟩ } := by
    unfold Database.openDb
    rw [get_bind]
    simp only [Database.enter, isDb.text, read]
    rfl
  constructor
  · rintro ⟨run, rfl⟩
    unfold openDb at run
    split at run
    · cases run
    · rename_i d' found
      dsimp only at run
      split at run
      · split at run
        · rename_i m opened
          cases run
          refine ⟨found, m, ?_, rfl⟩
          rw [← inside]
          exact opened
        · cases run
      · cases run
  · rintro ⟨found, m, opened, rfl⟩
    refine ⟨?_, rfl⟩
    unfold openDb
    simp only [found]
    have hasMeta : ((p.chdir d).disk.os.inode DB_META_NAME).isSome = true := isDb.hasMeta
    rw [if_pos hasMeta]
    rw [← inside] at opened
    simp only [chdir, opened]

theorem reopens_iff (isDb : IsDatabase p.disk.os (p.directory d) db)
    (ordered : p.manager.db.tabs.Pairwise fun a b => a.1 < b.1)
    (bare : ∀ entry ∈ p.manager.db.tabs, entry.2.indexes = []) (noTable : ∀ name, p.manager.fhs name = none)
    (noIndex : ∀ name, p.manager.ihs name = none) (grants : Grants p.disk fds db) :
    Reopens resolve fds dbName d db p ↔ Harmless resolve dbName d db p := by
  have covered := DbMeta.assignAll_eq_iff ordered isDb.storable.ordered
  constructor
  · rintro ⟨q, run, atD, sameDb, -⟩
    obtain ⟨found, m, opened, rfl⟩ := (openDb_iff isDb).mp ⟨run, atD⟩
    obtain ⟨merged, _, closed⟩ := Database.openTables_kept (fun entry member =>
      (DbMeta.mem_assignAll member).elim (isDb.bare entry) (bare entry)) opened
    have tabs : DbMeta.assignAll p.manager.db.tabs db.tabs = db.tabs := congrArg DbMeta.tabs (merged.symm.trans sameDb)
    refine ⟨found, covered.mp tabs, fun name isTable => ?_⟩
    rw [tabs] at closed
    exact closed name (isTable_iff.mp isTable)
  · intro harmless
    have tabs := covered.mpr harmless.tables
    let entered := { p.manager.enter (p.directory d) with db := db }
    obtain ⟨m, opened, found⟩ : ∃ m, Database.openTables fds db.tabs entered = .ok () m ∧
        Database.Found fds db.tabs entered m := Database.openTables_returns isDb.bare isDb.nodup
      (List.forall_mem_map.mpr isDb.files) (fun name member => harmless.closed name (isTable_iff.mpr member))
      (fun name member => grants.free name (isTable_iff.mpr member))
      (fun name member name' member' => grants.apart name name' (isTable_iff.mpr member) (isTable_iff.mpr member'))
      (fun name _ => noTable name)
    have run : openDb resolve fds dbName p = .ok () ⟨d, p.directory, m⟩ ∧ d = d :=
      (openDb_iff isDb).mpr ⟨harmless.path, m, by rw [tabs]; exact opened, rfl⟩
    refine ⟨_, run.1, run.2, found.db, fun name => ?_, fun name h isOpen => ?_, fun name => ?_⟩
    · rw [isTable_iff]
      constructor
      · intro isOpen
        by_contra unlisted
        rw [found.others name unlisted] at isOpen
        change (p.manager.fhs name).isSome = true at isOpen
        rw [noTable name] at isOpen
        cases isOpen
      · intro member
        obtain ⟨h, isOpen, _⟩ := found.handles name member
        rw [isOpen]
        rfl
    · have member : name ∈ db.tabs.map (·.1) := by
        by_contra unlisted
        have same : m.fhs name = p.manager.fhs name := found.others name unlisted
        rw [noTable name] at same
        exact Option.some_ne_none h (isOpen.symm.trans same)
      obtain ⟨h', isOpen', atFd⟩ := found.handles name member
      cases isOpen.symm.trans isOpen'
      rw [atFd]
      exact found.descriptors name member
    · exact (congrFun found.ihs name).trans (noIndex name)

/-- What holds all through a session in a directory. -/
structure Inside (start : Server D N) (d : D) (p : Server D N) : Prop where
  cwd : p.cwd = d
  dirs : p.dirs = start.directory
  sound : Database.Sound p.manager.db p.disk
  kept : Kept (fun _ => True) start.disk p.disk

theorem Inside.opened (starts : Starts start) (isDb : IsDatabase start.disk.os (start.directory d) db)
    (path : resolve start.cwd dbName = some d) (run : openDb resolve fds dbName start = .ok () p) :
    Inside start d p := by
  have atD : p.cwd = d := by
    unfold openDb at run
    simp only [path] at run
    split at run
    · split at run
      · cases run
        rfl
      · cases run
    · cases run
  obtain ⟨_, m, opened, rfl⟩ := (openDb_iff isDb).mp ⟨run, atD⟩
  have tabs : DbMeta.assignAll start.manager.db.tabs db.tabs = db.tabs := by
    rw [starts.db]
    exact DbMeta.assignAll_last isDb.storable.ordered isDb.storable.keys
  rw [tabs] at opened
  obtain ⟨same, kept, _⟩ := Database.openTables_kept isDb.bare opened
  have sound : Database.Sound db (start.manager.enter (start.directory d)).pool.diskManager :=
    ⟨isDb.hasMeta, isDb.storable, isDb.bare, isDb.files⟩
  refine ⟨rfl, rfl, ?_, kept.nextInode, kept.longer, fun _ _ stays => absurd trivial stays⟩
  change Database.Sound m.db m.pool.diskManager
  rw [same]
  exact sound.kept kept

theorem Inside.statement {m : Database N} (inside : Inside start d p)
    (leaves : Database.Leaves p.manager m) : Inside start d { p with manager := m } :=
  ⟨inside.cwd, inside.dirs, leaves.sound, inside.kept.trans leaves.kept⟩

theorem Session.inside (starts : Starts start) (names : Names resolve start dbName d)
    (session : Session resolve dbName start p) : Inside start d p := by
  obtain ⟨path, db, isDb⟩ := names
  induction session with
  | opened run => exact .opened starts isDb path run
  | returned _ valid run ih =>
    have leaves := Database.statement_leaves ih.sound valid
    rw [stateAfter, run] at leaves
    exact ih.statement leaves
  | thrown _ valid run _ ih =>
    have leaves := Database.statement_leaves ih.sound valid
    rw [stateAfter, run] at leaves
    exact ih.statement leaves

/-- After `close_db` every database that was there is there, the one that was open with the catalog as it is now. -/
theorem Inside.closed {d' : D} (inside : Inside start d p) (isDb : IsDatabase start.disk.os (start.directory d') db)
    (closes : Closes p q) : ∃ db', IsDatabase q.disk.os (q.directory d') db' := by
  obtain ⟨indexNames, tabNames, _, _, m, run, rfl⟩ := closes
  obtain ⟨same, text, kept, _⟩ := Database.closeDb_ok run
  by_cases atD : d' = p.cwd
  · subst atD
    have here : directory { p with manager := m } p.cwd = ⟨m.pool.diskManager.os.inode, m.metaText⟩ :=
      Function.update_self ..
    have sound := inside.sound.kept kept
    rw [here]
    exact ⟨p.manager.db, sound.hasMeta, text, sound.storable, sound.bare, sound.files⟩
  · have there : directory { p with manager := m } d' = start.directory d' := by
      rw [← inside.dirs]
      exact Function.update_of_ne atD ..
    rw [there]
    exact ⟨db, isDb.elsewhere (inside.kept.trans (kept.mono fun _ => False.elim))⟩

/-- After any session in one database and `close_db`, `open_db` of a second database (or the same) gives what is stored
there exactly if it happens to be harmless that the server is still in the old directory with the old catalog. -/
theorem close_db_undone_iff {dbName' : String} {d' : D} (starts : Starts start) (names : Names resolve start dbName d)
    (names' : Names resolve start dbName' d') (session : Session resolve dbName start p) (closes : Closes p q)
    (stored : DbMeta.ofText (q.directory d').metaText = some db) (grants : Grants q.disk fds db) :
    Reopens resolve fds dbName' d' db q ↔ Harmless resolve dbName' d' db q := by
  have inside := session.inside starts names
  obtain ⟨_, _, isDb⟩ := names'
  obtain ⟨db', isDb'⟩ := inside.closed isDb closes
  obtain rfl := isDb'.stored_iff.mp stored
  obtain ⟨indexNames, tabNames, _, _, m, run, rfl⟩ := closes
  obtain ⟨same, _, _, noTable, noIndex⟩ := Database.closeDb_ok run
  have same : m.db = p.manager.db := same
  refine reopens_iff isDb' ?_ ?_ noTable noIndex grants
  · change m.db.tabs.Pairwise _
    rw [same]
    exact inside.sound.storable.ordered
  · change ∀ entry ∈ m.db.tabs, _
    rw [same]
    exact inside.sound.bare

/-- A directory with the database that was just created. -/
def newDirectory : Directory := ⟨fun path => if path = DB_META_NAME then some 0 else none, DbMeta.insert ⟨"db", []⟩⟩

/-- A server that starts in a directory. -/
def starting (dirs : D → Directory) (cwd : D) : Server D 1 where
  cwd := cwd
  dirs := dirs
  manager := {
    db := .empty
    fhs := fun _ => none
    ihs := fun _ => none
    pool := .new ⟨fun _ => none, fun _ => none, fun _ => 0,
      ⟨(dirs cwd).inode, fun _ => none, fun _ => File.empty, 1, fun _ _ => PAGE_SIZE⟩⟩ fun _ => 0
    metaText := (dirs cwd).metaText }

omit [DecidableEq D] in
theorem starting_starts (dirs : D → Directory) (cwd : D) : Starts (starting dirs cwd) :=
  ⟨rfl, fun _ => rfl, fun _ => rfl, fun _ => rfl⟩

theorem starting_directory (dirs : D → Directory) (cwd : D) : (starting dirs cwd).directory = dirs :=
  Function.update_eq_self cwd dirs

theorem newDirectory_isDatabase (os : Os) : IsDatabase os newDirectory ⟨"db", []⟩ where
  hasMeta := rfl
  text := rfl
  storable := Database.newDb_storable
  bare _ member := by cases member
  files _ member := by cases member

theorem starting_names {dirs : D → Directory} {cwd : D} (isNew : dirs d = newDirectory)
    (path : resolve cwd dbName = some d) : Names resolve (starting dirs cwd) dbName d := by
  refine ⟨path, ⟨"db", []⟩, ?_⟩
  rw [starting_directory, isNew]
  exact newDirectory_isDatabase _

/-- The server in the new database. -/
def opened (dirs : D → Directory) (cwd d : D) : Server D 1 :=
  ⟨d, dirs, { (starting dirs cwd).manager.enter newDirectory with db := ⟨"db", []⟩ }⟩

theorem opened_session {dirs : D → Directory} {cwd : D} (isNew : dirs d = newDirectory)
    (path : resolve cwd dbName = some d) : Session resolve dbName (starting dirs cwd) (opened dirs cwd d) := by
  have isDb : IsDatabase (starting dirs cwd).disk.os ((starting dirs cwd).directory d) ⟨"db", []⟩ := by
    rw [starting_directory, isNew]
    exact newDirectory_isDatabase _
  have run : _ → openDb resolve (fun _ => 3) dbName (starting dirs cwd) = .ok () (opened dirs cwd d) ∧ d = d :=
    (openDb_iff isDb).mpr
  rw [starting_directory, isNew] at run
  exact .opened (run ⟨path, _, rfl, rfl⟩).1

omit [DecidableEq D] in
theorem starting_closes {p : Server D 1} {tabNames : List String} {m : Database 1}
    (noIndex : ∀ name, p.manager.ihs name = none) (nodup : tabNames.Nodup)
    (keys : ∀ name, name ∈ tabNames ↔ (p.manager.fhs name).isSome)
    (run : Database.closeDb [] tabNames p.manager = .ok () m) : Closes p { p with manager := m } := by
  refine ⟨[], tabNames, ⟨List.nodup_nil, fun name => ?_⟩, ⟨nodup, keys⟩, m, run, rfl⟩
  rw [noIndex name]
  exact iff_of_false List.not_mem_nil Bool.false_ne_true

/-- A server in the directory of its database, which calls that directory by its own name. -/
def dotServer : Server Unit 1 := starting (fun _ => newDirectory) ()

def dot (_ : Unit) (path : String) : Option Unit := if path = "." then some () else none

def dotTable : Database 1 :=
  stateAfter (Database.createTable "t" [⟨"a", .int, 4⟩] 3 3 3) (opened (fun _ => newDirectory) () ()).manager

def dotClosed : Database 1 := stateAfter (Database.closeDb [] ["t"]) dotTable

/-- The server with the manager at a later time. -/
def dotAt (m : Database 1) : Server Unit 1 := ⟨(), fun _ => newDirectory, m⟩

theorem dotAt_directory (m : Database 1) : ((dotAt m).directory ()).metaText = m.metaText := rfl

theorem dotAt_manager (m : Database 1) : (dotAt m).manager = m := rfl

theorem dotTable_created : Database.createTable "t" [⟨"a", .int, 4⟩] 3 3 3
    (opened (fun _ => newDirectory) () ()).manager = .ok () dotTable := run_of_value (by decide +kernel)

theorem dotClosed_closing : Database.closeDb [] ["t"] dotTable = .ok () dotClosed :=
  run_of_value (by decide +kernel)

theorem dotTable_onlyT {name : String} (isTable : dotTable.db.isTable name = true) : name = "t" := by
  have keys : dotTable.db.tabs.map (·.1) = ["t"] := by decide +kernel
  exact List.mem_singleton.mp (keys ▸ isTable_iff.mp isTable)

theorem dotClosed_closes : Closes (dotAt dotTable) (dotAt dotClosed) := by
  obtain ⟨_, _, _, _, h, _, _, _, _, manager⟩ := Database.createTable_ok dotTable_created
  refine starting_closes (fun name => ?_) (List.nodup_singleton "t") (fun name => ?_) dotClosed_closing
  · rw [manager]
    rfl
  · rw [manager, List.mem_singleton]
    by_cases same : name = "t" <;> simp [dotAt, emplace, same, opened, Database.enter, starting]

/-- A table was created and the database closed; by that name it is opened again. -/
theorem close_db_undone_dot : Reopens dot (fun _ => 3) "." () dotTable.db (dotAt dotClosed) := by
  have names : Names dot dotServer "." () := starting_names rfl rfl
  have valid : Statement.Valid (opened (fun _ => newDirectory) () ()).manager
      (.ddl (.createTable "t" [⟨"a", .int, 4⟩] 3 3 3)) := ⟨by decide, by decide, by decide, by decide +kernel⟩
  have first : Session dot "." dotServer (opened (fun _ => newDirectory) () ()) := opened_session rfl rfl
  have session : Session dot "." dotServer (dotAt dotTable) := .returned first valid dotTable_created
  obtain ⟨db, text, _⟩ := Database.closeDb_ok dotClosed_closing
  have stored : DbMeta.ofText ((dotAt dotClosed).directory ()).metaText = some dotTable.db := by
    rw [dotAt_directory, text]
    exact DbMeta.ofText_insert (session.inside (starting_starts _ ()) names).sound.storable
  have grants : Grants (dotAt dotClosed).disk (fun _ => 3) dotTable.db := by
    refine ⟨fun name isTable => ⟨by decide, by decide +kernel⟩, fun name name' isTable isTable' _ => ?_⟩
    rw [dotTable_onlyT isTable, dotTable_onlyT isTable']
  refine (close_db_undone_iff (starting_starts _ ()) names names session dotClosed_closes stored grants).mpr
    ⟨by decide +kernel, fun name isTable => ?_, fun name isTable => ?_⟩
  · rwa [dotAt_manager, db] at isTable
  · rw [dotTable_onlyT isTable]
    decide +kernel

/-- The paths as seen from outside a database, and from inside it. -/
def outside (d : Bool) (path : String) : Option Bool := if d = false ∧ path = "db" then some true else none

def outsideDirs (d : Bool) : Directory := if d then newDirectory else ⟨fun _ => none, []⟩

def outsideClosed : Database 1 := stateAfter (Database.closeDb [] []) (opened outsideDirs false true).manager

/-- Closed and opened again, a database is not found. -/
theorem not_close_db_undone : ¬∀ (resolve : Bool → String → Option Bool) (start p q : Server Bool 1)
    (dbName dbName' : String) (d d' : Bool) (db : DbMeta) (fds : String → Int), Starts start →
    Names resolve start dbName d → Names resolve start dbName' d' → Session resolve dbName start p → Closes p q →
    DbMeta.ofText (q.directory d').metaText = some db → Grants q.disk fds db →
    Reopens resolve fds dbName' d' db q := by
  intro undone
  have names : Names outside (starting outsideDirs false) "db" true := starting_names rfl rfl
  let q : Server Bool 1 := ⟨true, outsideDirs, outsideClosed⟩
  have closing : Database.closeDb [] [] (opened outsideDirs false true).manager = .ok () outsideClosed :=
    run_of_value (by decide +kernel)
  have closes : Closes (opened outsideDirs false true) q :=
    starting_closes (fun _ => rfl) List.nodup_nil (fun name => by simp [opened, Database.enter, starting]) closing
  have stored : DbMeta.ofText (q.directory true).metaText = some ⟨"db", []⟩ := by
    have here : q.directory true = q.here := Function.update_self ..
    have isText : q.here.metaText = DbMeta.insert ⟨"db", []⟩ := (Database.closeDb_ok closing).2.1
    rw [here, isText]
    exact DbMeta.ofText_insert Database.newDb_storable
  obtain ⟨r, run, _⟩ := undone outside (starting outsideDirs false) (opened outsideDirs false true) q "db" "db" true
    true ⟨"db", []⟩ (fun _ => 3) (starting_starts _ false) names names (opened_session rfl rfl) closes stored
    ⟨fun _ isTable => (by cases isTable), fun _ _ isTable => (by cases isTable)⟩
  cases run

end Server

end Rmdb
