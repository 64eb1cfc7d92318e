import Rmdb.Kit.Stream
import Rmdb.System.Meta

namespace Rmdb

/-! The text of `db.meta`: `operator<<` and `operator>>` of the catalog. -/

namespace ColType

def insert (type : ColType) : List Char := insertInt type.code

/-- The cast to the enumeration gives no enumerator for other values. -/
def extract : Extract ColType := do
  let v ← extractInt
  match ofCode v with
  | some type => return type
  | none => failure

end ColType

namespace ColMeta

def insert (col : ColMeta) : List Char :=
  insertWord col.tabName ++ [' '] ++ insertWord col.name ++ [' '] ++ col.type.insert ++ [' '] ++ insertInt col.len ++
    [' '] ++ insertInt col.offset ++ [' '] ++ insertBool col.index

def extract : Extract ColMeta := do
  let tabName ← extractWord
  let name ← extractWord
  let type ← ColType.extract
  let len ← extractInt
  let offset ← extractInt
  let index ← extractBool
  return ⟨tabName, name, type, len, offset, index⟩

end ColMeta

namespace IndexMeta

def insert (index : IndexMeta) : List Char :=
  insertWord index.tabName ++ [' '] ++ insertInt index.colTotLen ++ [' '] ++ insertInt index.colNum ++
    index.cols.flatMap fun col => '\n' :: col.insert

def extract : Extract IndexMeta := do
  let tabName ← extractWord
  let colTotLen ← extractInt
  let colNum ← extractInt
  let cols ← extractMany ColMeta.extract colNum.toNat
  return ⟨tabName, colTotLen, colNum, cols⟩

end IndexMeta

namespace TabMeta

def insert (tab : TabMeta) : List Char :=
  insertWord tab.name ++ ['\n'] ++ insertNat tab.cols.length ++ ['\n'] ++ (tab.cols.flatMap fun col =>
    col.insert ++ ['\n']) ++
    insertNat tab.indexes.length ++ ['\n'] ++ tab.indexes.flatMap fun index => index.insert ++ ['\n']

def extract : Extract TabMeta := do
  let name ← extractWord
  let n ← extractSize
  let cols ← extractMany ColMeta.extract n
  let n ← extractSize
  let indexes ← extractMany IndexMeta.extract n
  return ⟨name, cols, indexes⟩

end TabMeta

namespace DbMeta

/-- `tabs_[name] = tab`, on the entries of the map in the order of their keys. The assignment
copies all of the table, unlike the copy constructor. -/
def assign (name : String) (tab : TabMeta) : List (String × TabMeta) → List (String × TabMeta)
  | [] => [(name, tab)]
  | (key, old) :: rest =>
    if name < key then (name, tab) :: (key, old) :: rest
    else if name = key then (key, tab) :: rest
    else (key, old) :: assign name tab rest

def insert (db : DbMeta) : List Char :=
  insertWord db.name ++ ['\n'] ++ insertNat db.tabs.length ++ ['\n'] ++ db.tabs.flatMap fun entry =>
    entry.2.insert ++ ['\n']

/-- The loop of `operator>>` over the tables. -/
def extractTabs : Nat → List (String × TabMeta) → Extract (List (String × TabMeta))
  | 0, tabs => pure tabs
  | n + 1, tabs => do
    let tab ← TabMeta.extract
    extractTabs n (assign tab.name tab tabs)

/-- `operator>>` into the catalog. -/
def extract (db : DbMeta) : Extract DbMeta := do
  let name ← extractWord
  let n ← extractSize
  let tabs ← extractTabs n db.tabs
  return ⟨name, tabs⟩

def empty : DbMeta := ⟨"", []⟩

/-- What `>>` makes of a whole text. -/
def ofText (text : List Char) : Option DbMeta := ((empty.extract) text).map (·.1)

end DbMeta

/-- The number of elements of a vector or a map is a `size_t`. -/
def IsSize (n : Nat) : Prop := n < 18446744073709551616

instance (n : Nat) : Decidable (IsSize n) := inferInstanceAs (Decidable (_ < _))

/-- Names are words and numbers are of the source's types. -/
structure ColMeta.Storable (col : ColMeta) : Prop where
  tabName : IsWord col.tabName
  name : IsWord col.name
  len : IsInt col.len
  offset : IsInt col.offset

structure IndexMeta.Storable (index : IndexMeta) : Prop where
  tabName : IsWord index.tabName
  colTotLen : IsInt index.colTotLen
  isInt : IsInt index.colNum
  colNum : index.colNum = index.cols.length
  cols : ∀ col ∈ index.cols, col.Storable

structure TabMeta.Storable (tab : TabMeta) : Prop where
  name : IsWord tab.name
  cols : ∀ col ∈ tab.cols, col.Storable
  indexes : ∀ index ∈ tab.indexes, index.Storable
  colCount : IsSize tab.cols.length
  indexCount : IsSize tab.indexes.length

/-- The entries of a map in the order of its keys, each under the name of its table. -/
structure DbMeta.Storable (db : DbMeta) : Prop where
  name : IsWord db.name
  ordered : db.tabs.Pairwise fun a b => a.1 < b.1
  keys : ∀ entry ∈ db.tabs, entry.1 = entry.2.name
  tabs : ∀ entry ∈ db.tabs, entry.2.Storable
  count : IsSize db.tabs.length

section
variable {c : Char}

theorem ColType.parses (type : ColType) (space : isSpace c = true) : Parses extract (type.insert ++ [c]) type := by
  have read := parses_int (v := type.code) (by cases type <;> decide) space
  have both := read.bind (f := fun v => match ofCode v with | some type => pure type | none => failure) (v := [])
    (b := type)
    (by rw [ofCode_code]; exact Parses.pure type)
  rwa [List.append_nil] at both

theorem ColMeta.Storable.parses {col : ColMeta} (storable : col.Storable) (space : isSpace c = true) :
    Parses ColMeta.extract (col.insert ++ [c]) col := by
  have blank : isSpace ' ' = true := rfl
  have text : col.insert ++ [c] =
    (insertWord col.tabName ++ [' ']) ++ ((insertWord col.name ++ [' ']) ++ ((col.type.insert ++ [' ']) ++
      ((insertInt col.len ++ [' ']) ++ ((insertInt col.offset ++ [' ']) ++ (insertBool col.index ++ [c]))))) := by
    simp only [ColMeta.insert, List.append_assoc]
  rw [text]
  refine (parses_word storable.tabName blank).bind ?_
  refine (parses_word storable.name blank).bind ?_
  refine (col.type.parses blank).bind ?_
  refine (parses_int storable.len blank).bind ?_
  refine (parses_int storable.offset blank).bind ?_
  exact (parses_bool space).map

theorem IndexMeta.Storable.parses {index : IndexMeta} (storable : index.Storable) :
    Parses IndexMeta.extract (index.insert ++ ['\n']) index := by
  have blank : isSpace ' ' = true := rfl
  have newline : isSpace '\n' = true := rfl
  have text : index.insert ++ ['\n'] = (insertWord index.tabName ++ [' ']) ++ ((insertInt index.colTotLen ++ [' ']) ++
      ((insertInt index.colNum ++ ['\n']) ++ index.cols.flatMap fun col => col.insert ++ ['\n'])) := by
    simp only [IndexMeta.insert, List.append_assoc, flatMap_separators ColMeta.insert, List.cons_append,
      List.nil_append]
  rw [text]
  refine (parses_word storable.tabName blank).bind ?_
  refine (parses_int storable.colTotLen blank).bind ?_
  refine (parses_int storable.isInt newline).bind ?_
  rw [show index.colNum.toNat = index.cols.length by rw [storable.colNum]; rfl]
  exact (Parses.many fun col member => (storable.cols col member).parses newline).map

theorem TabMeta.Storable.parses {tab : TabMeta} (storable : tab.Storable) :
    Parses TabMeta.extract (tab.insert ++ ['\n']) tab := by
  have newline : isSpace '\n' = true := rfl
  have text : tab.insert = (insertWord tab.name ++ ['\n']) ++ ((insertNat tab.cols.length ++ ['\n']) ++
      ((tab.cols.flatMap fun col => col.insert ++ ['\n']) ++ ((insertNat tab.indexes.length ++ ['\n']) ++
        tab.indexes.flatMap fun index => index.insert ++ ['\n']))) := by
    simp only [TabMeta.insert, List.append_assoc]
  refine Parses.spaceAfter ?_ newline
  rw [text]
  refine (parses_word storable.name newline).bind ?_
  refine (parses_size storable.colCount newline).bind ?_
  refine (Parses.many fun col member => (storable.cols col member).parses newline).bind ?_
  refine (parses_size storable.indexCount newline).bind ?_
  exact (Parses.many fun index member => (storable.indexes index member).parses).map

end

namespace DbMeta

/-- A table whose name comes after all others is added at the end. -/
theorem assign_last {tabs : List (String × TabMeta)} {tab : TabMeta} (last : ∀ entry ∈ tabs, entry.1 < tab.name) :
    assign tab.name tab tabs = tabs ++ [(tab.name, tab)] := by
  induction tabs with
  | nil => rfl
  | cons entry tabs ih =>
    obtain ⟨here, last⟩ := List.forall_mem_cons.mp last
    rw [assign, if_neg (lt_asymm here), if_neg here.ne', ih last]
    rfl

/-- The catalog with the tables of a text assigned one after another. -/
def assignAll (tabs entries : List (String × TabMeta)) : List (String × TabMeta) :=
  entries.foldl (fun tabs entry => assign entry.1 entry.2 tabs) tabs

theorem parses_assigned {entries tabs : List (String × TabMeta)} (keys : ∀ entry ∈ entries, entry.1 = entry.2.name)
    (storable : ∀ entry ∈ entries, entry.2.Storable) :
    Parses (extractTabs entries.length tabs) (entries.flatMap fun entry => entry.2.insert ++ ['\n'])
      (assignAll tabs entries) := by
  induction entries generalizing tabs with
  | nil => exact Parses.pure tabs
  | cons entry entries ih =>
    obtain ⟨key, tab⟩ := entry
    obtain ⟨named, restKeys⟩ := List.forall_mem_cons.mp keys
    obtain ⟨here, restStorable⟩ := List.forall_mem_cons.mp storable
    have named : key = tab.name := named
    subst named
    have first : Parses TabMeta.extract (tab.insert ++ ['\n']) tab := TabMeta.Storable.parses here
    rw [List.length_cons, extractTabs, List.flatMap_cons]
    exact first.bind (ih restKeys restStorable)

theorem assignAll_last {entries tabs : List (String × TabMeta)}
    (ordered : (tabs ++ entries).Pairwise fun a b => a.1 < b.1)
    (keys : ∀ entry ∈ entries, entry.1 = entry.2.name) : assignAll tabs entries = tabs ++ entries := by
  induction entries generalizing tabs with
  | nil => exact (List.append_nil tabs).symm
  | cons entry entries ih =>
    obtain ⟨key, tab⟩ := entry
    obtain ⟨named, restKeys⟩ := List.forall_mem_cons.mp keys
    have named : key = tab.name := named
    subst named
    have last : ∀ entry ∈ tabs, entry.1 < tab.name := by
      intro entry member
      exact (List.pairwise_append.mp ordered).2.2 entry member (tab.name, tab) List.mem_cons_self
    have later := @ih (tabs ++ [(tab.name, tab)]) (by rwa [← List.append_cons]) restKeys
    rw [assignAll, List.foldl_cons, assign_last last, List.append_cons tabs _ entries]
    exact later

/-- A catalog is read into another one table by table, which keeps those that the text does not have. -/
theorem Storable.extract_over {db : DbMeta} (storable : db.Storable) (old : DbMeta) :
    ∃ rest, old.extract db.insert = some (⟨db.name, assignAll old.tabs db.tabs⟩, rest) := by
  have newline : isSpace '\n' = true := rfl
  have text : db.insert = (insertWord db.name ++ ['\n']) ++ ((insertNat db.tabs.length ++ ['\n']) ++
      db.tabs.flatMap fun entry => entry.2.insert ++ ['\n']) := by
    simp only [DbMeta.insert, List.append_assoc]
  have parses : Parses old.extract db.insert ⟨db.name, assignAll old.tabs db.tabs⟩ := by
    rw [text]
    refine (parses_word storable.name newline).bind ?_
    refine (parses_size storable.count newline).bind ?_
    exact (parses_assigned storable.keys storable.tabs).map
  obtain ⟨rest, run, _⟩ := parses db.insert [] (by rw [List.append_nil])
  exact ⟨rest, run⟩

theorem Storable.extract_insert {db : DbMeta} (storable : db.Storable) :
    ∃ rest, empty.extract db.insert = some (db, rest) := by
  obtain ⟨rest, run⟩ := storable.extract_over empty
  have tabs : assignAll empty.tabs db.tabs = db.tabs := assignAll_last storable.ordered storable.keys
  rw [tabs] at run
  exact ⟨rest, run⟩

theorem ofText_of_extract {db : DbMeta} {text rest : List Char} (run : empty.extract text = some (db, rest)) :
    ofText text = some db := by
  rw [ofText, run]
  rfl

/-- Reading what was written gives the same catalog. -/
theorem ofText_insert {db : DbMeta} (storable : db.Storable) : ofText db.insert = some db := by
  obtain ⟨_, run⟩ := storable.extract_insert
  exact ofText_of_extract run

def colA : ColMeta := ⟨"t", "a", .int, 4, 0, true⟩

def colB : ColMeta := ⟨"t", "b", .string, 8, 4, false⟩

/-- An index with its columns in another order than the table. -/
theorem ofText_insert_indexed : ∃ db : DbMeta, db.tabs = [("t", ⟨"t", [colA, colB], [⟨"t", 12, 2, [colB, colA]⟩]⟩)] ∧
    ofText db.insert = some db := by
  have colA : colA.Storable := ⟨by decide, by decide, by decide, by decide⟩
  have colB : colB.Storable := ⟨by decide, by decide, by decide, by decide⟩
  refine ⟨⟨"db", _⟩, rfl, ofText_insert ?_⟩
  constructor
  case name => decide
  case ordered => exact List.pairwise_singleton _ _
  case keys => simp
  case tabs =>
    simp only [List.mem_singleton, forall_eq]
    refine ⟨by decide, ?_, ?_, by decide, by decide⟩
    · simpa using ⟨colA, colB⟩
    · simp only [List.mem_singleton, forall_eq]
      exact ⟨by decide, by decide, by decide, rfl, by simpa using ⟨colB, colA⟩⟩
  case count => decide

end DbMeta

end Rmdb
