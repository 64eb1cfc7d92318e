import Rmdb.Record.FileNames
import Rmdb.Record.Isolation
import Rmdb.System.SmManager

namespace Rmdb
open BufferPoolManager DiskManager

/-- A name as the lexer accepts it: a letter, then letters, digits and underscores. -/
def IsIdentifier (name : String) : Prop :=
  match name.toList with
  | [] => False
  | c :: rest => c.isAlpha = true ∧ ∀ d ∈ rest, d.isAlphanum = true ∨ d = '_'

instance (name : String) : Decidable (IsIdentifier name) :=
  match letters : name.toList with
  | [] => isFalse (by simp [IsIdentifier, letters])
  | c :: rest =>
    @decidable_of_iff _ (c.isAlpha = true ∧ ∀ d ∈ rest, d.isAlphanum = true ∨ d = '_') (by simp [IsIdentifier, letters])
      (@instDecidableAnd _ _ _ (List.decidableBAll _ _))

theorem IsIdentifier.isWord {name : String} (identifier : IsIdentifier name) : IsWord name := by
  unfold IsIdentifier at identifier
  split at identifier
  · cases identifier
  · rename_i c rest letters
    obtain ⟨first, later⟩ := identifier
    constructor
    · rintro rfl
      cases letters
    · rw [letters]
      intro d member
      rcases List.mem_cons.mp member with rfl | member
      · exact isAlphanum_not_space (by simp [Char.isAlphanum, first])
      · rcases later d member with letter | rfl
        · exact isAlphanum_not_space letter
        · rfl

namespace DbMeta
variable {tabs : List (String × TabMeta)} {name : String} {tab : TabMeta}

theorem lookup_cons (t : String) (entry : String × TabMeta) (tabs : List (String × TabMeta)) :
    (entry :: tabs).lookup t = if t = entry.1 then some entry.2 else tabs.lookup t := by
  by_cases same : t = entry.1
  · rw [if_pos same, same]
    exact List.lookup_cons_self
  · have skip : (t == entry.1) = false := by simpa using same
    obtain ⟨k, tab⟩ := entry
    rw [if_neg same, List.lookup_cons, skip]

theorem lookup_isSome_iff (t : String) (tabs : List (String × TabMeta)) :
    (tabs.lookup t).isSome ↔ t ∈ tabs.map (·.1) := by
  rw [List.lookup_isSome_iff, List.mem_map]
  exact exists_congr fun entry => and_congr_right fun _ => beq_iff_eq.trans eq_comm

theorem lookup_assign (name t : String) (tab : TabMeta) (tabs : List (String × TabMeta)) :
    (assign name tab tabs).lookup t = if t = name then some tab else tabs.lookup t := by
  induction tabs with
  | nil => exact lookup_cons t (name, tab) []
  | cons entry tabs ih =>
    obtain ⟨key, old⟩ := entry
    unfold assign
    by_cases less : name < key
    · rw [if_pos less, lookup_cons]
    · rw [if_neg less]
      by_cases here : name = key
      · rw [if_pos here, lookup_cons, lookup_cons, here]
        by_cases same : t = key
        · simp only [if_pos same]
        · simp only [if_neg same]
      · rw [if_neg here, lookup_cons, lookup_cons, ih]
        by_cases same : t = key
        · have other : t ≠ name := fun h => here (h.symm.trans same)
          simp only [if_pos same, if_neg other]
        · simp only [if_neg same]

theorem mem_assign {entry : String × TabMeta} (member : entry ∈ assign name tab tabs) :
    entry = (name, tab) ∨ entry ∈ tabs := by
  induction tabs with
  | nil => exact Or.inl (List.mem_singleton.mp member)
  | cons first tabs ih =>
    obtain ⟨key, old⟩ := first
    unfold assign at member
    split at member
    · exact List.mem_cons.mp member
    · split at member
      · rename_i same
        rcases List.mem_cons.mp member with here | later
        · exact Or.inl (same ▸ here)
        · exact Or.inr (List.mem_cons_of_mem _ later)
      · rcases List.mem_cons.mp member with here | later
        · exact Or.inr (here ▸ List.mem_cons_self)
        · exact (ih later).imp_right (List.mem_cons_of_mem _)

theorem assign_ordered (ordered : tabs.Pairwise fun a b => a.1 < b.1) :
    (assign name tab tabs).Pairwise fun a b => a.1 < b.1 := by
  induction tabs with
  | nil => exact List.pairwise_singleton _ _
  | cons first tabs ih =>
    obtain ⟨key, old⟩ := first
    obtain ⟨before, later⟩ := List.pairwise_cons.mp ordered
    unfold assign
    split
    · rename_i less
      refine List.pairwise_cons.mpr ⟨?_, ordered⟩
      exact List.forall_mem_cons.mpr ⟨less, fun entry member => less.trans (before entry member)⟩
    · rename_i notLess
      split
      · exact List.pairwise_cons.mpr ⟨before, later⟩
      · rename_i different
        refine List.pairwise_cons.mpr ⟨fun entry member => ?_, ih later⟩
        rcases mem_assign member with rfl | old
        · exact lt_of_le_of_ne (not_lt.mp notLess) (Ne.symm different)
        · exact before entry old

theorem length_assign : (assign name tab tabs).length ≤ tabs.length + 1 := by
  induction tabs with
  | nil => exact le_rfl
  | cons first tabs ih =>
    unfold assign
    split
    · exact le_rfl
    · split
      · exact Nat.le_succ _
      · exact Nat.succ_le_succ ih

theorem lookup_erase (name t : String) (tabs : List (String × TabMeta)) :
    (tabs.filter fun entry => entry.1 ≠ name).lookup t = if t = name then none else tabs.lookup t := by
  induction tabs with
  | nil => simp
  | cons entry tabs ih =>
    rw [List.filter_cons, lookup_cons]
    by_cases gone : entry.1 = name
    · rw [if_neg (by simpa using gone), ih, gone]
      by_cases same : t = name
      · simp only [if_pos same]
      · simp only [if_neg same]
    · rw [if_pos (by simpa using gone), lookup_cons, ih]
      by_cases same : t = entry.1
      · have other : t ≠ name := same ▸ gone
        simp only [if_pos same, if_neg other]
      · simp only [if_neg same]

end DbMeta

namespace Database
variable {N : Nat} {s t : Database N} {tabName : String} {colDefs : List ColDef} {made fd fd' : Int}
  {permitted : String → Bool} {e : Error}

/-- A statement on the catalog; the descriptors and permissions are what the operating system gives. -/
inductive Ddl
  | createTable (tabName : String) (colDefs : List ColDef) (made fd fd' : Int)
  | dropTable (tabName : String) (permitted : String → Bool)

namespace Ddl

def run : Ddl → SmM N Unit
  | .createTable tabName colDefs made fd fd' => Database.createTable tabName colDefs made fd fd'
  | .dropTable tabName permitted => Database.dropTable tabName permitted

/-- All names are identifiers, lengths are `int`s, and the numbers of tables and columns are sizes. -/
def Valid (s : Database N) : Ddl → Prop
  | .createTable tabName colDefs _ _ _ => IsIdentifier tabName ∧
      (∀ colDef ∈ colDefs, IsIdentifier colDef.name ∧ IsInt colDef.len) ∧
      IsSize colDefs.length ∧ IsSize (s.db.tabs.length + 1)
  | .dropTable tabName _ => IsIdentifier tabName

end Ddl

/-- The columns together, and what an `int` has of that. -/
def colLens (colDefs : List ColDef) : Int := (colDefs.map (·.len)).sum

/-- `create_table` is refused, or an `int` can add up the lengths. -/
def Ddl.Sums (s : Database N) : Ddl → Prop
  | .createTable tabName colDefs _ _ _ => s.db.isTable tabName = true ∨ s.pool.diskManager.isFile tabName = true ∨
      ¬(1 ≤ wrapInt (colLens colDefs) ∧ wrapInt (colLens colDefs) ≤ RM_MAX_RECORD_SIZE) ∨ IsInt (colLens colDefs)
  | .dropTable .. => True

/-- The agreement of the catalog, the handles, the files and `db.meta`. A table file is one with an
identifier for its name. -/
structure InStep (s : Database N) : Prop where
  handles : ∀ t, s.db.isTable t = true ↔ (s.fhs t).isSome
  files : ∀ t, s.db.isTable t = true ↔
    IsIdentifier t ∧ s.pool.diskManager.isFile t = true ∧ (s.pool.diskManager.path2fd t).isSome
  sizes : ∀ t tab, s.db.getTable t = .ok tab → s.pool.diskManager.recordSizeOf t = some (totalLen tab.cols) ∧
    ∀ h, s.fhs t = some h → s.pool.diskManager.path2fd t = some h.fd ∧ h.fileHdr.recordSize = totalLen tab.cols
  onDisk : DbMeta.ofText s.metaText = some s.db

/-- What a closed database is on disk, and a manager that has nothing open yet. No catalog has an index, since
`create_index` does nothing. -/
structure Stored (s : Database N) (db : DbMeta) : Prop where
  empty : s.db = .empty
  noHandle : ∀ t, s.fhs t = none
  named : Named s.pool.diskManager
  closed : ∀ t, IsIdentifier t → s.pool.diskManager.path2fd t = none
  storable : db.Storable
  text : s.metaText = db.insert
  tables : ∀ entry ∈ db.tabs, IsIdentifier entry.1 ∧ entry.2.indexes = [] ∧
    s.pool.diskManager.recordSizeOf entry.1 = some (totalLen entry.2.cols)

/-- What a statement has to do as long as the operating system does its part: return and leave everything in step, or
throw and change nothing. Undefined behaviour is neither. -/
def Contract (s : Database N) (call : Ddl) : Prop :=
  match call.run s with
  | .ok _ t => InStep t
  | .error e t => IsIo e ∨ e ≠ .undefined ∧ t = s

/-- An open database and any statements on it that `allowed` admits, returning or throwing. -/
inductive Reach (allowed : Database N → Ddl → Prop) : Database N → Prop
  | opened {s t : Database N} {db : DbMeta} {fds : String → Int} :
      Stored s db → openDb fds s = .ok () t → Reach allowed t
  | returned {s t : Database N} {call : Ddl} : Reach allowed s → call.Valid s → allowed s call →
      call.run s = .ok () t → Reach allowed t
  | thrown {s t : Database N} {call : Ddl} {e : Error} : Reach allowed s → call.Valid s → allowed s call →
      call.run s = .error e t → ¬IsIo e → Reach allowed t

theorem onPool_ok {α : Type} {x : PoolM N α} {a : α} (run : onPool x s = .ok a t) :
    ∃ u, x s.pool = .ok a u ∧ t = { s with pool := u } := by
  unfold onPool at run
  split at run
  · rename_i found
    cases run
    exact ⟨_, found, rfl⟩
  · cases run

theorem onPool_error {α : Type} {x : PoolM N α} (run : onPool x s = .error e t) :
    ∃ u, x s.pool = .error e u ∧ t = { s with pool := u } := by
  unfold onPool at run
  split at run
  · cases run
  · rename_i found
    cases run
    exact ⟨_, found, rfl⟩

/-- The columns of a new table, with the names and lengths of the statement, and the length of a record. -/
theorem layOut_ok {offset recordSize : Int} {cols : List ColMeta} (range : IsInt offset)
    (run : layOut tabName offset colDefs = (cols, recordSize)) :
    recordSize = wrapInt (offset + colLens colDefs) ∧ totalLen cols = colLens colDefs ∧ cols.length = colDefs.length ∧
      ∀ col ∈ cols, col.tabName = tabName ∧ IsInt col.offset ∧ ∃ colDef ∈ colDefs, col.name = colDef.name ∧
          col.len = colDef.len := by
  induction colDefs generalizing offset cols with
  | nil =>
    cases run
    refine ⟨?_, rfl, rfl, fun col member => by cases member⟩
    rw [colLens, List.map_nil, List.sum_nil, add_zero, wrapInt_of_isInt range]
  | cons colDef colDefs ih =>
    unfold layOut at run
    cases run
    obtain ⟨sum, total, length, each⟩ := ih (isInt_wrapInt (offset + colDef.len)) rfl
    refine ⟨?_, ?_, by rw [List.length_cons, List.length_cons, length],
      List.forall_mem_cons.mpr ⟨?_, fun col member => ?_⟩⟩
    · rw [sum, wrapInt_wrapInt_add, add_assoc]
      rfl
    · simp only [totalLen, colLens, List.map_cons, List.sum_cons] at total ⊢
      rw [total]
    · exact ⟨rfl, range, colDef, List.mem_cons_self, rfl, rfl⟩
    · obtain ⟨ofTab, inRange, found, member, same⟩ := each col member
      exact ⟨ofTab, inRange, found, List.mem_cons_of_mem _ member, same⟩

theorem layOut_size (tabName : String) (colDefs : List ColDef) :
    (layOut tabName 0 colDefs).2 = wrapInt (colLens colDefs) := by
  have sum := (@layOut_ok tabName colDefs 0 _ _ (by decide) rfl).1
  rwa [zero_add] at sum

theorem createTable_ok (run : createTable tabName colDefs made fd fd' s = .ok () t) :
    ∃ cols recordSize u v h, s.db.isTable tabName = false ∧ layOut tabName 0 colDefs = (cols, recordSize) ∧
      RmManager.createFile tabName recordSize made fd s.pool = .ok () u ∧ RmManager.openFile tabName fd' u = .ok h v ∧
      t = {
        db := ⟨s.db.name, DbMeta.assign tabName ⟨tabName, cols, []⟩ s.db.tabs⟩
        fhs := emplace s.fhs tabName h
        ihs := s.ihs
        pool := v
        metaText := DbMeta.insert ⟨s.db.name, DbMeta.assign tabName ⟨tabName, cols, []⟩ s.db.tabs⟩ } := by
  unfold createTable at run
  rw [get_bind] at run
  split at run
  · cases run
  · rename_i fresh
    obtain ⟨_, one, creating, run⟩ := bind_eq_ok.mp run
    obtain ⟨u, created, rfl⟩ := onPool_ok creating
    rw [modify_bind] at run
    obtain ⟨h, two, opening, run⟩ := bind_eq_ok.mp run
    obtain ⟨v, opened, rfl⟩ := onPool_ok opening
    rw [modify_bind] at run
    cases run
    exact ⟨_, _, u, v, h, by simpa using fresh, rfl, created, opened, rfl⟩

/-- The catalog without a table. -/
def dropped (db : DbMeta) (tabName : String) : DbMeta := ⟨db.name, db.tabs.filter fun entry => entry.1 ≠ tabName⟩

theorem dropTable_eq {tab : TabMeta} {h : RmFileHandle} (found : s.db.tabs.lookup tabName = some tab)
    (bare : tab.indexes = [])
    (isOpen : s.fhs tabName = some h) : dropTable tabName permitted s = (do
      onPool (RmManager.closeFile h)
      modify fun s => { s with fhs := Function.update s.fhs tabName none }
      onPool (RmManager.destroyFile tabName (permitted tabName))
      modify fun s => { s with db := dropped s.db tabName }
      flushMeta : SmM N Unit) s := by
  unfold dropTable
  rw [get_bind]
  simp only [found, bare, dropIndexes, pure_bind]
  rw [get_bind]
  simp only [isOpen]
  rfl

theorem dropTable_ok {tab : TabMeta} {h : RmFileHandle} (found : s.db.tabs.lookup tabName = some tab)
    (bare : tab.indexes = [])
    (isOpen : s.fhs tabName = some h) (run : dropTable tabName permitted s = .ok () t) :
    ∃ u v, RmManager.closeFile h s.pool = .ok () u ∧
      RmManager.destroyFile tabName (permitted tabName) u = .ok () v ∧ t = {
      db := dropped s.db tabName
      fhs := Function.update s.fhs tabName none
      ihs := s.ihs
      pool := v
      metaText := (dropped s.db tabName).insert } := by
  rw [dropTable_eq found bare isOpen] at run
  obtain ⟨_, one, closing, run⟩ := bind_eq_ok.mp run
  obtain ⟨u, closed, rfl⟩ := onPool_ok closing
  rw [modify_bind] at run
  obtain ⟨_, two, removing, run⟩ := bind_eq_ok.mp run
  obtain ⟨v, removed, rfl⟩ := onPool_ok removing
  cases run
  exact ⟨u, v, closed, removed, rfl⟩

/-- The catalog of a valid `create_table` can be stored. -/
theorem createTable_storable {cols : List ColMeta} {recordSize : Int} (storable : s.db.Storable)
    (valid : (Ddl.createTable tabName colDefs made fd fd').Valid s)
    (laid : layOut tabName 0 colDefs = (cols, recordSize)) :
    DbMeta.Storable ⟨s.db.name, DbMeta.assign tabName ⟨tabName, cols, []⟩ s.db.tabs⟩ := by
  obtain ⟨identifier, columns, colCount, tabCount⟩ := valid
  obtain ⟨_, _, length, each⟩ := layOut_ok (by decide) laid
  have newTab : (⟨tabName, cols, []⟩ : TabMeta).Storable := by
    refine ⟨identifier.isWord, fun col member => ?_, fun _ member => (by cases member), ?_, show IsSize 0 by decide⟩
    · obtain ⟨ofTab, inRange, colDef, listed, name, len⟩ := each col member
      obtain ⟨isName, isLen⟩ := columns colDef listed
      exact ⟨ofTab ▸ identifier.isWord, name ▸ isName.isWord, len ▸ isLen, inRange⟩
    · rw [← length] at colCount
      exact colCount
  refine ⟨storable.name, DbMeta.assign_ordered storable.ordered, ?_, ?_, DbMeta.length_assign.trans_lt tabCount⟩
  · intro entry member
    rcases DbMeta.mem_assign member with rfl | old
    · rfl
    · exact storable.keys entry old
  · intro entry member
    rcases DbMeta.mem_assign member with rfl | old
    · exact newTab
    · exact storable.tabs entry old

theorem dropped_storable {db : DbMeta} (storable : db.Storable) (tabName : String) : (dropped db tabName).Storable := by
  have old : ∀ entry ∈ (Database.dropped db tabName).tabs, entry ∈ db.tabs :=
    fun entry member => (List.mem_filter.mp member).1
  refine ⟨storable.name, storable.ordered.filter _, fun entry member => ?_, fun entry member => ?_, ?_⟩
  · exact storable.keys entry (old entry member)
  · exact storable.tabs entry (old entry member)
  · exact (List.length_filter_le ..).trans_lt storable.count

/-- What carries the agreement from call to call, apart from the lengths of the records. -/
structure Tracks (s : Database N) : Prop where
  storable : s.db.Storable
  bare : ∀ entry ∈ s.db.tabs, IsIdentifier entry.1 ∧ entry.2.indexes = []
  named : Named s.pool.diskManager
  handles : ∀ t, (s.db.tabs.lookup t).isSome ↔ (s.fhs t).isSome
  opened : ∀ t h, s.fhs t = some h → s.pool.diskManager.path2fd t = some h.fd
  tables : ∀ t, IsIdentifier t → (s.pool.diskManager.path2fd t).isSome → (s.fhs t).isSome
  flushed : s.metaText = s.db.insert

/-- The files of the tables have records of the length of the columns. -/
structure Agrees (s : Database N) : Prop extends Tracks s where
  sizes : ∀ t tab, s.db.tabs.lookup t = some tab → s.pool.diskManager.recordSizeOf t = some (totalLen tab.cols) ∧
    ∀ h, s.fhs t = some h → h.fileHdr.recordSize = totalLen tab.cols

/-- Why `create_table` does nothing. -/
inductive Refusal (s : Database N) (tabName : String) (colDefs : List ColDef) : Error → Prop
  | tableExists : s.db.isTable tabName = true → Refusal s tabName colDefs (.tableExists tabName)
  | invalidRecordSize : ¬(1 ≤ wrapInt (colLens colDefs) ∧ wrapInt (colLens colDefs) ≤ RM_MAX_RECORD_SIZE) →
      Refusal s tabName colDefs (.invalidRecordSize (wrapInt (colLens colDefs)))
  | fileExists : s.pool.diskManager.isFile tabName = true → Refusal s tabName colDefs (.fileExists tabName)

namespace Tracks

/-- The handle of a new table. -/
theorem emplace_new (agrees : Tracks s) (fresh : s.db.isTable tabName = false) (h : RmFileHandle) :
    emplace s.fhs tabName h = Function.update s.fhs tabName (some h) := by
  have missing := (not_congr (agrees.handles tabName)).mp (by
    rw [← DbMeta.isTable, fresh]
    exact Bool.false_ne_true)
  simp [emplace, Option.not_isSome_iff_eq_none.mp missing]

theorem createTable (agrees : Tracks s) (valid : (Ddl.createTable tabName colDefs made fd fd').Valid s)
    (run : Database.createTable tabName colDefs made fd fd' s = .ok () t) : Tracks t := by
  obtain ⟨cols, recordSize, u, v, h, fresh, laid, created, opened, rfl⟩ := createTable_ok run
  obtain ⟨namedU, pathsU, _, closed⟩ := RmManager.createFile_named agrees.named created
  obtain ⟨namedV, pathsV, _⟩ := RmManager.openFile_named namedU opened
  rw [agrees.emplace_new fresh]
  constructor
  case storable => exact createTable_storable agrees.storable valid laid
  case bare =>
    intro entry member
    rcases DbMeta.mem_assign member with rfl | old
    · exact ⟨valid.1, rfl⟩
    · exact agrees.bare entry old
  case named => exact namedV
  case handles =>
    intro t
    simp only [DbMeta.lookup_assign]
    by_cases same : t = tabName
    · simp [same]
    · simp only [if_neg same, Function.update_of_ne same]
      exact agrees.handles t
  case opened =>
    intro t h' isOpen
    simp only [pathsV, pathsU]
    by_cases same : t = tabName
    · subst same
      simp only [Function.update_self, Option.some.injEq] at isOpen ⊢
      rw [isOpen]
    · simp only [Function.update_of_ne same] at isOpen ⊢
      exact agrees.opened t h' isOpen
  case tables =>
    intro t isName isOpen
    simp only [pathsV, pathsU] at isOpen
    by_cases same : t = tabName
    · simp [same]
    · simp only [Function.update_of_ne same] at isOpen ⊢
      exact agrees.tables t isName isOpen
  case flushed => rfl

theorem dropTable (agrees : Tracks s) (run : Database.dropTable tabName permitted s = .ok () t) : Tracks t := by
  cases found : s.db.tabs.lookup tabName with
  | none =>
    simp only [Database.dropTable, get_bind, found] at run
    cases run
  | some tab =>
    obtain ⟨h, isOpen⟩ := Option.isSome_iff_exists.mp ((agrees.handles tabName).mp (by rw [found]; rfl))
    have bare := (agrees.bare _ (mem_of_lookup found)).2
    obtain ⟨u, v, closed, removed, rfl⟩ := dropTable_ok found bare isOpen run
    obtain ⟨namedU, pathsU, _⟩ := RmManager.closeFile_named agrees.named (agrees.opened tabName h isOpen) closed
    obtain ⟨namedV, pathsV, _⟩ := RmManager.destroyFile_named namedU removed
    have old : ∀ entry ∈ (dropped s.db tabName).tabs,
      entry ∈ s.db.tabs := fun entry member => (List.mem_filter.mp member).1
    constructor
    case storable => exact dropped_storable agrees.storable tabName
    case bare => exact fun entry member => agrees.bare entry (old entry member)
    case named => exact namedV
    case handles =>
      intro t
      simp only [dropped, DbMeta.lookup_erase]
      by_cases same : t = tabName
      · simp [same]
      · simp only [if_neg same, Function.update_of_ne same]
        exact agrees.handles t
    case opened =>
      intro t h' isOpen'
      have same : t ≠ tabName := by
        rintro rfl
        simp only [Function.update_self] at isOpen'
        cases isOpen'
      simp only [pathsV, pathsU, Function.update_of_ne same] at isOpen' ⊢
      exact agrees.opened t h' isOpen'
    case tables =>
      intro t isName isOpen'
      simp only [pathsV, pathsU] at isOpen'
      have same : t ≠ tabName := by
        rintro rfl
        simp only [Function.update_self] at isOpen'
        cases isOpen'
      simp only [Function.update_of_ne same] at isOpen' ⊢
      exact agrees.tables t isName isOpen'
    case flushed => rfl

theorem createTable_refused (agrees : Tracks s) (run : Database.createTable tabName colDefs made fd fd' s = .error e t) :
    IoError e ∨ Refusal s tabName colDefs e ∧ t = s := by
  unfold Database.createTable at run
  rw [get_bind] at run
  split at run
  · rename_i isTable
    cases run
    exact Or.inr ⟨.tableExists isTable, rfl⟩
  · have size := layOut_size tabName colDefs
    cases laid : layOut tabName 0 colDefs with
    | mk cols recordSize =>
    rw [laid] at run size
    cases size
    rcases bind_eq_error.mp run with refused | ⟨_, one, creating, run⟩
    · obtain ⟨u, stopped, rfl⟩ := onPool_error refused
      rcases RmManager.createFile_fails agrees.named stopped with io | ⟨⟨rfl, unsized⟩ | ⟨rfl, isFile⟩, same⟩
      · exact Or.inl io
      · exact Or.inr ⟨.invalidRecordSize unsized, by rw [same]⟩
      · exact Or.inr ⟨.fileExists isFile, by rw [same]⟩
    · obtain ⟨u, created, rfl⟩ := onPool_ok creating
      rw [modify_bind] at run
      rcases bind_eq_error.mp run with refused | ⟨_, two, opening, run⟩
      · obtain ⟨v, stopped, rfl⟩ := onPool_error refused
        obtain ⟨_, pathsU, _, closed⟩ := RmManager.createFile_named agrees.named created
        obtain ⟨size, _⟩ := RmManager.createFile_sizes agrees.named.con created
        refine Or.inl (RmManager.openFile_fails ?_ ?_ stopped)
        · have exist := congrArg Option.isSome size
          rwa [recordSizeOf, Option.isSome_map] at exist
        · simp only [pathsU]
          exact closed
      · rw [modify_bind] at run
        cases run

theorem dropTable_refused (agrees : Tracks s) (run : Database.dropTable tabName permitted s = .error e t) :
    IoError e ∨ e = .tableNotFound tabName ∧ s.db.isTable tabName = false ∧ t = s := by
  cases found : s.db.tabs.lookup tabName with
  | none =>
    simp only [Database.dropTable, get_bind, found] at run
    cases run
    exact Or.inr ⟨rfl, by rw [DbMeta.isTable, found]; rfl, rfl⟩
  | some tab =>
    obtain ⟨h, isOpen⟩ := Option.isSome_iff_exists.mp ((agrees.handles tabName).mp (by rw [found]; rfl))
    have bare := (agrees.bare _ (mem_of_lookup found)).2
    have path := agrees.opened tabName h isOpen
    rw [dropTable_eq found bare isOpen] at run
    rcases bind_eq_error.mp run with refused | ⟨_, one, closing, run⟩
    · obtain ⟨u, stopped, rfl⟩ := onPool_error refused
      exact Or.inl (RmManager.closeFile_fails agrees.named path stopped)
    · obtain ⟨u, closed, rfl⟩ := onPool_ok closing
      obtain ⟨_, pathsU, inodeU, _⟩ := RmManager.closeFile_named agrees.named path closed
      obtain ⟨ino, _, inode⟩ := agrees.named.file path
      rw [modify_bind] at run
      rcases bind_eq_error.mp run with refused | ⟨_, two, removing, run⟩
      · obtain ⟨v, stopped, rfl⟩ := onPool_error refused
        refine Or.inl (RmManager.destroyFile_fails ?_ ?_ stopped)
        · simp only [inodeU, inode, Option.isSome_some]
        · simp only [pathsU, Function.update_self]
      · cases run

theorem call {call : Ddl} (agrees : Tracks s) (valid : call.Valid s) (run : call.run s = .ok () t) : Tracks t := by
  cases call with
  | createTable tabName colDefs made fd fd' => exact agrees.createTable valid run
  | dropTable tabName permitted => exact agrees.dropTable run

/-- A statement that throws, with the operating system doing its part, changes nothing. -/
theorem call_fails {call : Ddl} (agrees : Tracks s) (run : call.run s = .error e t) :
    IsIo e ∨ e ≠ .undefined ∧ t = s := by
  cases call with
  | createTable tabName colDefs made fd fd' =>
    rcases agrees.createTable_refused run with io | ⟨refusal, same⟩
    · exact Or.inl io.isIo
    · exact Or.inr ⟨by cases refusal <;> simp, same⟩
  | dropTable tabName permitted =>
    rcases agrees.dropTable_refused run with io | ⟨rfl, _, same⟩
    · exact Or.inl io.isIo
    · exact Or.inr ⟨by simp, same⟩

end Tracks

namespace Agrees

theorem getTable_iff {t : String} {tab : TabMeta} : s.db.getTable t = .ok tab ↔ s.db.tabs.lookup t = some tab := by
  unfold DbMeta.getTable
  cases s.db.tabs.lookup t with
  | none => simp
  | some tab' => simp

theorem inStep (agrees : Agrees s) : InStep s := by
  constructor
  case handles => exact agrees.handles
  case files =>
    intro t
    unfold DbMeta.isTable
    rw [agrees.handles]
    constructor
    · intro isOpen
      obtain ⟨h, found⟩ := Option.isSome_iff_exists.mp isOpen
      have path := agrees.opened t h found
      obtain ⟨ino, _, inode⟩ := agrees.named.file path
      obtain ⟨tab, here⟩ := Option.isSome_iff_exists.mp ((agrees.handles t).mpr isOpen)
      refine ⟨(agrees.bare _ (mem_of_lookup here)).1, ?_, ?_⟩
      · rw [isFile, inode]
        rfl
      · rw [path]
        rfl
    · rintro ⟨identifier, _, isOpen⟩
      exact agrees.tables t identifier isOpen
  case sizes =>
    intro t tab found
    obtain ⟨disk, handle⟩ := agrees.sizes t tab (getTable_iff.mp found)
    exact ⟨disk, fun h isOpen => ⟨agrees.opened t h isOpen, handle h isOpen⟩⟩
  case onDisk =>
    obtain ⟨_, run⟩ := agrees.storable.extract_insert
    rw [agrees.flushed]
    exact DbMeta.ofText_of_extract run

/-- A new table has the record length of its columns if these can be added up. -/
theorem createTable (agrees : Agrees s) (valid : (Ddl.createTable tabName colDefs made fd fd').Valid s)
    (sums : (Ddl.createTable tabName colDefs made fd fd').Sums s)
    (run : Database.createTable tabName colDefs made fd fd' s = .ok () t) : Agrees t := by
  refine ⟨agrees.toTracks.createTable valid run, ?_⟩
  obtain ⟨cols, recordSize, u, v, h, fresh, laid, created, opened, rfl⟩ := createTable_ok run
  obtain ⟨sum, total, _⟩ := layOut_ok (by decide) laid
  obtain ⟨lower, upper, _⟩ := RmManager.createFile_pool agrees.named.con created
  obtain ⟨namedU, _, missing, _⟩ := RmManager.createFile_named agrees.named created
  obtain ⟨size, otherSizes⟩ := RmManager.createFile_sizes agrees.named.con created
  obtain ⟨_, _, sizesV, _, header⟩ := RmManager.openFile_named namedU opened
  rw [zero_add] at sum
  have whole : recordSize = totalLen cols := by
    rcases sums with isTable | isFile | unsized | inRange
    · rw [fresh] at isTable
      cases isTable
    · rw [DiskManager.isFile, missing] at isFile
      cases isFile
    · exact absurd ⟨sum ▸ lower, sum ▸ upper⟩ unsized
    · rw [sum, wrapInt_of_isInt inRange, total]
  rw [whole] at size
  intro t tab found
  simp only [DbMeta.lookup_assign, agrees.emplace_new fresh] at found ⊢
  simp only [sizesV]
  by_cases same : t = tabName
  · subst same
    simp only [if_true, Option.some.injEq] at found
    subst found
    refine ⟨size, fun h' isOpen => ?_⟩
    simp only [Function.update_self, Option.some.injEq] at isOpen
    subst isOpen
    rw [size] at header
    exact (Option.some.inj header).symm
  · simp only [if_neg same, Function.update_of_ne same] at found ⊢
    rw [otherSizes t same]
    exact agrees.sizes t tab found

theorem dropTable (agrees : Agrees s) (run : Database.dropTable tabName permitted s = .ok () t) : Agrees t := by
  refine ⟨agrees.toTracks.dropTable run, ?_⟩
  cases found : s.db.tabs.lookup tabName with
  | none =>
    simp only [Database.dropTable, get_bind, found] at run
    cases run
  | some tab =>
    obtain ⟨h, isOpen⟩ := Option.isSome_iff_exists.mp ((agrees.handles tabName).mp (by rw [found]; rfl))
    obtain ⟨u, v, closed, removed, rfl⟩ := dropTable_ok found (agrees.bare _ (mem_of_lookup found)).2 isOpen run
    obtain ⟨namedU, _, _, sizesU⟩ := RmManager.closeFile_named agrees.named (agrees.opened tabName h isOpen) closed
    obtain ⟨_, _, sizesV⟩ := RmManager.destroyFile_named namedU removed
    intro t tab' found'
    simp only [dropped, DbMeta.lookup_erase] at found'
    have same : t ≠ tabName := by
      rintro rfl
      simp only [if_true] at found'
      cases found'
    simp only [if_neg same, Function.update_of_ne same] at found' ⊢
    rw [sizesV t same, sizesU t same]
    exact agrees.sizes t tab' found'

end Agrees

/-- The tables of a list of entries have been opened between two states. -/
structure Opened (entries : List (String × TabMeta)) (s t : Database N) : Prop where
  db : t.db = s.db
  metaText : t.metaText = s.metaText
  named : Named t.pool.diskManager
  sizes : t.pool.diskManager.recordSizeOf = s.pool.diskManager.recordSizeOf
  others : ∀ name, name ∉ entries.map (·.1) → t.fhs name = s.fhs name ∧
    t.pool.diskManager.path2fd name = s.pool.diskManager.path2fd name
  handles : ∀ name ∈ entries.map (·.1), ∃ h, t.fhs name = some h ∧ t.pool.diskManager.path2fd name = some h.fd ∧
    s.pool.diskManager.recordSizeOf name = some h.fileHdr.recordSize

theorem openTables_ok {entries : List (String × TabMeta)} {fds : String → Int} (named : Named s.pool.diskManager)
    (bare : ∀ entry ∈ entries, entry.2.indexes = []) (nodup : (entries.map (·.1)).Nodup)
    (noHandle : ∀ name ∈ entries.map (·.1), s.fhs name = none) (run : openTables fds entries s = .ok () t) :
        Opened entries s t := by
  induction entries generalizing s with
  | nil =>
    cases run
    exact ⟨rfl, rfl, named, rfl, fun _ _ => ⟨rfl, rfl⟩, fun _ member => by cases member⟩
  | cons entry entries ih =>
    obtain ⟨tabName, tab⟩ := entry
    obtain ⟨indexes, bare⟩ := List.forall_mem_cons.mp bare
    obtain ⟨fresh, nodup⟩ := List.nodup_cons.mp nodup
    obtain ⟨missing, noHandle⟩ := List.forall_mem_cons.mp noHandle
    obtain ⟨h, one, opening, later⟩ := bind_eq_ok.mp run
    obtain ⟨u, opened, rfl⟩ := onPool_ok opening
    obtain ⟨namedU, paths, sizes, _, header⟩ := RmManager.openFile_named named opened
    simp only at indexes missing
    rw [modify_bind, indexes, openIndexes] at later
    have handle : emplace s.fhs tabName h = Function.update s.fhs tabName (some h) := by
      simp [emplace, missing]
    simp only [handle] at later
    have apart : ∀ name ∈ entries.map (·.1), name ≠ tabName := by
      rintro name member rfl
      exact fresh member
    have rest := ih (s := { s with pool := u, fhs := Function.update s.fhs tabName (some h) }) namedU bare nodup
      (fun name member => (Function.update_of_ne (apart name member) ..).trans (noHandle name member)) later
    constructor
    case db => exact rest.db
    case metaText => exact rest.metaText
    case named => exact rest.named
    case sizes => exact rest.sizes.trans sizes
    case others =>
      intro name unlisted
      obtain ⟨different, unlisted⟩ := List.ne_and_not_mem_of_not_mem_cons unlisted
      obtain ⟨same, path⟩ := rest.others name unlisted
      simp only [paths, Function.update_of_ne different] at same path
      exact ⟨same, path⟩
    case handles =>
      intro name member
      rcases List.mem_cons.mp member with rfl | member
      · obtain ⟨same, path⟩ := rest.others _ fresh
        simp only [paths, Function.update_self] at same path
        exact ⟨h, same, path, header⟩
      · obtain ⟨h', found, path, size⟩ := rest.handles name member
        rw [sizes] at size
        exact ⟨h', found, path, size⟩

theorem Agrees.openDb {db : DbMeta} {fds : String → Int} (stored : Stored s db) (run : openDb fds s = .ok () t) :
    Agrees t := by
  obtain ⟨rest, read⟩ := stored.storable.extract_insert
  rw [← stored.text, ← stored.empty] at read
  unfold Database.openDb at run
  rw [get_bind] at run
  simp only [read] at run
  rw [modify_bind] at run
  have nodup : (db.tabs.map (·.1)).Nodup := List.pairwise_map.mpr (stored.storable.ordered.imp fun less => less.ne)
  have opened := openTables_ok (s := { s with db := db }) stored.named
    (fun entry member => (stored.tables entry member).2.1) nodup
    (fun name _ => stored.noHandle name) run
  have same : t.db = db := opened.db
  have listed : ∀ name h, t.fhs name = some h → name ∈ db.tabs.map (·.1) := by
    intro name h found
    by_contra unlisted
    rw [(opened.others name unlisted).1] at found
    exact Option.some_ne_none h (found.symm.trans (stored.noHandle name))
  refine ⟨⟨?storable, ?bare, ?named, ?handles, ?opened, ?tables, ?flushed⟩, ?sizes⟩
  case storable => exact same ▸ stored.storable
  case bare =>
    rw [same]
    exact fun entry member => ⟨(stored.tables entry member).1, (stored.tables entry member).2.1⟩
  case named => exact opened.named
  case handles =>
    intro name
    rw [same, DbMeta.lookup_isSome_iff]
    constructor
    · intro member
      obtain ⟨h, found, _⟩ := opened.handles name member
      rw [found]
      rfl
    · intro isOpen
      obtain ⟨h, found⟩ := Option.isSome_iff_exists.mp isOpen
      exact listed name h found
  case opened =>
    intro name h found
    obtain ⟨h', found', path, _⟩ := opened.handles name (listed name h found)
    rw [found] at found'
    cases found'
    exact path
  case tables =>
    intro name isName isOpen
    by_cases member : name ∈ db.tabs.map (·.1)
    · obtain ⟨h, found, _⟩ := opened.handles name member
      rw [found]
      rfl
    · rw [(opened.others name member).2] at isOpen
      change (s.pool.diskManager.path2fd name).isSome = true at isOpen
      rw [stored.closed name isName] at isOpen
      cases isOpen
  case sizes =>
    intro name tab found
    rw [same] at found
    have size := (stored.tables _ (mem_of_lookup found)).2.2
    rw [opened.sizes]
    refine ⟨size, fun h isOpen => ?_⟩
    obtain ⟨h', found', _, header⟩ := opened.handles name (listed name h isOpen)
    rw [isOpen] at found'
    cases found'
    exact Option.some.inj (header.symm.trans size)
  case flushed =>
    rw [opened.metaText, same]
    exact stored.text

theorem Agrees.call {call : Ddl} (agrees : Agrees s) (valid : call.Valid s) (sums : call.Sums s)
    (run : call.run s = .ok () t) : Agrees t := by
  cases call with
  | createTable tabName colDefs made fd fd' => exact agrees.createTable valid sums run
  | dropTable tabName permitted => exact agrees.dropTable run

/-- Whatever the statements are. -/
theorem Reach.tracks {allowed : Database N → Ddl → Prop} (reach : Reach allowed s) : Tracks s := by
  induction reach with
  | opened stored run => exact (Agrees.openDb stored run).toTracks
  | returned _ valid _ run ih => exact ih.call valid run
  | thrown _ _ _ run noIo ih =>
    obtain ⟨_, same⟩ := (ih.call_fails run).resolve_left noIo
    exact same ▸ ih

theorem Reach.agrees (reach : Reach (fun s call => call.Sums s) s) : Agrees s := by
  induction reach with
  | opened stored run => exact .openDb stored run
  | returned _ valid sums run ih => exact ih.call valid sums run
  | thrown _ _ _ run noIo ih =>
    obtain ⟨_, same⟩ := (ih.toTracks.call_fails run).resolve_left noIo
    exact same ▸ ih

theorem Agrees.contract {call : Ddl} (agrees : Agrees s) (valid : call.Valid s) (sums : call.Sums s) :
    Contract s call := by
  unfold Contract
  split
  · rename_i run
    exact (agrees.call valid sums run).inStep
  · rename_i run
    exact agrees.toTracks.call_fails run

/-- A table whose lengths an `int` cannot add up has records of another length. -/
theorem Agrees.sums_of_contract {call : Ddl} (agrees : Agrees s) (works : ∀ e t, call.run s = .error e t → ¬IsIo e)
    (contract : Contract s call) : call.Sums s := by
  cases call with
  | dropTable tabName permitted => trivial
  | createTable tabName colDefs made fd fd' =>
    by_contra accepted
    simp only [Ddl.Sums, not_or, not_not] at accepted
    obtain ⟨fresh, notFile, sized, overflow⟩ := accepted
    cases run : (Ddl.createTable tabName colDefs made fd fd').run s with
    | error e t =>
      rcases agrees.toTracks.createTable_refused run with io | ⟨refusal, _⟩
      · exact works e t run io.isIo
      · cases refusal with
        | tableExists isTable => exact fresh isTable
        | invalidRecordSize unsized => exact unsized sized
        | fileExists isFile => exact notFile isFile
    | ok _ t =>
      simp only [Contract, run] at contract
      obtain ⟨cols, recordSize, u, v, h, _, laid, created, opened, rfl⟩ := createTable_ok run
      obtain ⟨sum, total, _⟩ := layOut_ok (by decide) laid
      have named := (RmManager.createFile_named agrees.named created).1
      have size := (RmManager.createFile_sizes agrees.named.con created).1
      rw [← (RmManager.openFile_named named opened).2.2.1] at size
      have table : (DbMeta.assign tabName ⟨tabName, cols, []⟩ s.db.tabs).lookup tabName = some ⟨tabName, cols, []⟩ := by
        rw [DbMeta.lookup_assign, if_pos rfl]
      have inStep := (contract.sizes tabName _ (Agrees.getTable_iff.mpr table)).1
      have same := Option.some.inj (size.symm.trans inStep)
      rw [sum, zero_add] at same
      exact overflow ((same.trans total) ▸ isInt_wrapInt (colLens colDefs))

/-- After any such statements on an open database the catalog, the handles, the files and `db.meta` agree. The next
statement keeps to that as well if it is refused or an `int` can add up its lengths, and, with the operating system doing
its part, only then. -/
theorem catalog_in_step (reach : Reach (fun s call => call.Sums s) s) : InStep s ∧
    ∀ call : Ddl, call.Valid s → (call.Sums s → Contract s call) ∧
      ((∀ e t, call.run s = .error e t → ¬IsIo e) → (Contract s call ↔ call.Sums s)) := by
  have agrees := reach.agrees
  refine ⟨agrees.inStep, fun call valid => ⟨agrees.contract valid, fun works => ?_⟩⟩
  exact ⟨agrees.sums_of_contract works, agrees.contract valid⟩

/-- A database that was just created, before it is opened. -/
def newDb : Database 1 :=
  ⟨.empty, fun _ => none, fun _ => none, .new Tables.noFiles fun _ => 0, DbMeta.insert ⟨"db", []⟩⟩

theorem newDb_storable : DbMeta.Storable ⟨"db", []⟩ :=
  ⟨by decide, List.Pairwise.nil, fun _ member => (by cases member), fun _ member => (by cases member), by decide⟩

theorem newDb_stored : Stored newDb ⟨"db", []⟩ where
  empty := rfl
  noHandle _ := rfl
  named := ⟨Tables.noFiles_con, fun _ _ isOpen => by cases isOpen⟩
  closed _ _ := rfl
  storable := newDb_storable
  text := rfl
  tables _ member := by cases member

def openedDb : Database 1 := stateAfter (openDb fun _ => 3) newDb

theorem openedDb_reach {allowed : Database 1 → Ddl → Prop} : Reach allowed openedDb :=
  .opened newDb_stored (run_of_value (by decide +kernel : value (openDb fun _ => 3) newDb = some ()))

def createT : Ddl := .createTable "t" [⟨"a", .int, 4⟩, ⟨"b", .string, 8⟩] 3 3 4

def createU : Ddl := .createTable "u" [⟨"c", .float, 4⟩] 5 5 5

def dropT : Ddl := .dropTable "t" fun _ => true

/-- Two tables are made and one of them is dropped. -/
def twoTables : Database 1 := stateAfter createU.run (stateAfter createT.run openedDb)

def oneLeft : Database 1 := stateAfter dropT.run twoTables

/-- The table that is gone cannot be dropped again. -/
theorem catalog_in_step_dropped : InStep oneLeft ∧ oneLeft.db.isTable "u" = true ∧ Contract oneLeft dropT ∧
    dropT.run oneLeft = .error (.tableNotFound "t") oneLeft := by
  have validT : createT.Valid openedDb := ⟨by decide, by decide, by decide, by decide +kernel⟩
  have sumsT : createT.Sums openedDb := Or.inr (Or.inr (Or.inr (by decide)))
  have first := Reach.returned openedDb_reach validT sumsT (run_of_value (by decide +kernel))
  have validU : createU.Valid (stateAfter createT.run openedDb) := ⟨by decide, by decide, by decide, by decide +kernel⟩
  have sumsU : createU.Sums (stateAfter createT.run openedDb) := Or.inr (Or.inr (Or.inr (by decide)))
  have second : Reach _ twoTables := .returned first validU sumsU (run_of_value (by decide +kernel))
  have validDrop : ∀ s : Database 1, dropT.Valid s := fun _ => (by decide : IsIdentifier "t")
  have third : Reach _ oneLeft := .returned second (validDrop _) trivial (run_of_value (by decide +kernel))
  obtain ⟨inStep, kept⟩ := catalog_in_step third
  exact ⟨inStep, by decide +kernel, (kept dropT (validDrop _)).1 trivial, rfl⟩

/-- Three columns whose lengths add up to 2^32 + 4. -/
def longColumns : Ddl := .createTable "t" [⟨"a", .string, 2147483647⟩, ⟨"b", .string, 2147483647⟩,
    ⟨"c", .string, 6⟩] 3 3 3

/-- They are accepted as a record of four bytes. -/
theorem catalog_overflow : ¬∀ s : Database 1, Reach (fun _ _ => True) s → ∀ call : Ddl, call.Valid s →
    Contract s call := by
  intro kept
  have valid : longColumns.Valid openedDb := ⟨by decide, by decide, by decide, by decide +kernel⟩
  have made : longColumns.run openedDb = .ok () (stateAfter longColumns.run openedDb) := run_of_value (by decide +kernel)
  have works : ∀ e t, longColumns.run openedDb = .error e t → ¬IsIo e := by
    intro e t run
    rw [made] at run
    cases run
  have sums := openedDb_reach.agrees.sums_of_contract works (kept openedDb openedDb_reach longColumns valid)
  rcases sums with isTable | isFile | unsized | inRange
  · exact absurd isTable (by decide +kernel)
  · exact absurd isFile (by decide +kernel)
  · exact unsized (by decide)
  · exact absurd inRange (by decide)

end Database

end Rmdb
