import Rmdb.Analyze.Names
import Rmdb.Parser.Grammar

namespace Rmdb

namespace DbMeta

/-- The columns of the tables in a list, as far as the catalog has them. -/
def colsOf (db : DbMeta) (tables : List String) : List ColMeta :=
  tables.flatMap fun t => ((db.tabs.lookup t).map (·.cols)).getD []

/-- The tables of the list that have a column of the name, each once for every such column. -/
def tablesWith (db : DbMeta) (tables : List String) (colName : String) : List String :=
  ((db.colsOf tables).filter fun col => col.name = colName).map (·.tabName)

end DbMeta

namespace Ast.Col

/-- The table that a column of a statement over these tables is taken to be of. -/
def owner (db : DbMeta) (tables : List String) (c : Col) : String :=
  if c.tabName = "" then (db.tablesWith tables c.colName).headD "" else c.tabName

def inFull (db : DbMeta) (tables : List String) (c : Col) : TabCol := ⟨c.owner db tables, c.colName⟩

/-- Exactly one column of the tables has the name, or the table before it has such a column. -/
def Resolves (db : DbMeta) (tables : List String) (c : Col) : Prop :=
  if c.tabName = "" then (db.tablesWith tables c.colName).length = 1
  else ∃ tab, db.tabs.lookup c.tabName = some tab ∧ tab.isCol c.colName = true

end Ast.Col

theorem Ast.BinaryExpr.lhs_mem (e : Ast.BinaryExpr) : e.lhs ∈ e.references := by
  unfold references
  split <;> exact List.mem_cons_self

theorem Ast.BinaryExpr.room_reference {e : Ast.BinaryExpr} {c : Ast.Col} (member : c ∈ e.references) :
    c.room ≤ e.room := by
  unfold references at member
  unfold room
  split at member
  · rename_i side
    rw [List.mem_singleton.mp member]
    exact Nat.le_add_right _ _
  · rename_i side
    rcases List.mem_pair.mp member with rfl | rfl
    · exact Nat.le_add_right _ _
    · rw [side]
      exact Nat.le_add_left _ _

namespace Analyze
variable {db : DbMeta} {tables : List String} {c : Ast.Col}

theorem isTable_iff {t : String} : db.isTable t = true ↔ ∃ tab, db.getTable t = .ok tab := by
  unfold DbMeta.isTable DbMeta.getTable
  cases db.tabs.lookup t <;> simp

theorem isTable_of_stored {t : String} (stored : ∃ tab, db.tabs.lookup t = some tab) : db.isTable t = true := by
  obtain ⟨tab, stored⟩ := stored
  rw [DbMeta.isTable, stored]
  rfl

theorem getTable_missing {t : String} (missing : ¬db.isTable t = true) : db.getTable t = .error (.tableNotFound t) := by
  unfold DbMeta.isTable at missing
  unfold DbMeta.getTable
  cases found : db.tabs.lookup t with
  | none => rfl
  | some tab =>
    rw [found] at missing
    exact (missing rfl).elim

theorem colsOf_single {t : String} {tab : TabMeta} (table : db.getTable t = .ok tab) : db.colsOf [t] = tab.cols := by
  simp [DbMeta.colsOf, getTable_ok table]

theorem getAllCols_eq (found : ∀ t ∈ tables, db.isTable t = true) : getAllCols db tables = .ok (db.colsOf tables) := by
  induction tables with
  | nil => rfl
  | cons t tables ih =>
    obtain ⟨here, found⟩ := List.forall_mem_cons.mp found
    obtain ⟨tab, table⟩ := isTable_iff.mp here
    rw [getAllCols, table, ok_bind, ih found, ok_bind]
    simp only [DbMeta.colsOf, List.flatMap_cons, getTable_ok table]
    rfl

theorem mem_colsOf (wf : db.WF) {col : ColMeta} (member : col ∈ db.colsOf tables) :
    col.tabName ∈ tables ∧ col.tabName ≠ "" ∧ ∃ tab, db.getTable col.tabName = .ok tab ∧ col ∈ tab.cols := by
  obtain ⟨t, listed, inTab⟩ := List.mem_flatMap.mp member
  cases found : db.tabs.lookup t with
  | none =>
    rw [found] at inTab
    cases inTab
  | some tab =>
    rw [found] at inTab
    obtain ⟨real, _, _, named⟩ := wf t tab found
    have same : col.tabName = t := named col inTab
    rw [same]
    refine ⟨listed, real, tab, ?_, inTab⟩
    rw [DbMeta.getTable, found]

theorem mem_tablesWith (wf : db.WF) {t colName : String} (member : t ∈ db.tablesWith tables colName) :
    t ∈ tables ∧ t ≠ "" ∧ ∃ tab, db.getTable t = .ok tab ∧ tab.isCol colName = true := by
  obtain ⟨col, inCols, rfl⟩ := List.mem_map.mp member
  obtain ⟨inCols, named⟩ := List.mem_filter.mp inCols
  obtain ⟨listed, real, tab, table, inTab⟩ := mem_colsOf wf inCols
  exact ⟨listed, real, tab, table, List.any_eq_true.mpr ⟨col, inTab, named⟩⟩

/-- The loop of `check_column` after a match: another one is an error. -/
theorem inferTable_again {colName tabName : String} (matched : tabName ≠ "") (cols : List ColMeta) :
    inferTable colName cols tabName =
      if (cols.filter fun col => col.name = colName) = [] then .ok tabName else .error (.ambiguousColumn colName) := by
  induction cols with
  | nil => rfl
  | cons col cols ih =>
    rw [inferTable]
    by_cases same : col.name = colName
    · simp [same, matched]
    · simp [same, ih]

theorem inferTable_eq (colName : String) {cols : List ColMeta} (real : ∀ col ∈ cols, col.tabName ≠ "") :
    inferTable colName cols "" = match (cols.filter fun col => col.name = colName).map (·.tabName) with
      | [] => .ok ""
      | [t] => .ok t
      | _ => .error (.ambiguousColumn colName) := by
  induction cols with
  | nil => rfl
  | cons col cols ih =>
    obtain ⟨here, real⟩ := List.forall_mem_cons.mp real
    rw [inferTable]
    by_cases same : col.name = colName
    · rw [if_pos same, if_neg (not_not.mpr rfl), inferTable_again here, List.filter_cons_of_pos (by simpa using same)]
      cases cols.filter fun col => col.name = colName <;> rfl
    · rw [if_neg same, ih real, List.filter_cons_of_neg (by simpa using same)]

/-- A column that resolves is one of its owner. -/
theorem resolves_owner (wf : db.WF) (resolves : c.Resolves db tables) :
    c.owner db tables ≠ "" ∧ (c.tabName = "" → c.owner db tables ∈ tables) ∧
      ∃ tab, db.getTable (c.owner db tables) = .ok tab ∧ tab.isCol c.colName = true := by
  unfold Ast.Col.Resolves at resolves
  unfold Ast.Col.owner
  split at resolves
  · rename_i bare
    obtain ⟨t, only⟩ := List.length_eq_one_iff.mp resolves
    have member : t ∈ db.tablesWith tables c.colName := by rw [only]; exact List.mem_singleton_self t
    obtain ⟨listed, real, found⟩ := mem_tablesWith wf member
    rw [if_pos bare, only]
    exact ⟨real, fun _ => listed, found⟩
  · rename_i qualified
    obtain ⟨tab, found, isCol⟩ := resolves
    rw [if_neg qualified]
    refine ⟨qualified, fun bare => (qualified bare).elim, tab, ?_, isCol⟩
    rw [DbMeta.getTable, found]

theorem checkColumn_resolves (wf : db.WF) (resolves : c.Resolves db tables) :
    checkColumn db (db.colsOf tables) ⟨c.tabName, c.colName⟩ = .ok (c.inFull db tables) := by
  have real := (resolves_owner wf resolves).1
  unfold Ast.Col.inFull
  unfold Ast.Col.Resolves at resolves
  unfold Ast.Col.owner at real ⊢
  rw [checkColumn]
  by_cases bare : c.tabName = ""
  · simp only [if_pos bare] at resolves real ⊢
    obtain ⟨t, only⟩ := List.length_eq_one_iff.mp resolves
    have attached : ∀ col ∈ db.colsOf tables, col.tabName ≠ "" := fun col member => (mem_colsOf wf member).2.1
    have inferred := inferTable_eq c.colName attached
    unfold DbMeta.tablesWith at only
    rw [only] at inferred
    rw [DbMeta.tablesWith, only] at real
    rw [inferred, DbMeta.tablesWith, only]
    exact if_neg real
  · simp only [if_neg bare] at resolves ⊢
    obtain ⟨tab, found, isCol⟩ := resolves
    rw [found]
    exact if_pos isCol

/-- A column that does not is put into the error as it was written. -/
theorem checkColumn_refused (wf : db.WF) (refused : ¬c.Resolves db tables) :
    checkColumn db (db.colsOf tables) ⟨c.tabName, c.colName⟩ = .error (.columnNotFound c.text) ∨
      checkColumn db (db.colsOf tables) ⟨c.tabName, c.colName⟩ = .error (.ambiguousColumn c.text) := by
  unfold Ast.Col.Resolves at refused
  unfold Ast.Col.text
  rw [checkColumn]
  by_cases bare : c.tabName = ""
  · simp only [if_pos bare] at refused ⊢
    have attached : ∀ col ∈ db.colsOf tables, col.tabName ≠ "" := fun col member => (mem_colsOf wf member).2.1
    have inferred := inferTable_eq c.colName attached
    rw [inferred]
    unfold DbMeta.tablesWith at refused
    split
    · exact Or.inl rfl
    · rename_i only
      rw [only] at refused
      exact (refused rfl).elim
    · exact Or.inr rfl
  · simp only [if_neg bare] at refused ⊢
    refine Or.inl ?_
    split
    · rename_i tab found
      exact if_neg fun isCol => refused ⟨tab, found, isCol⟩
    · rfl

/-- A condition as the analysis leaves it. -/
structure Resolved (db : DbMeta) (tables : List String) (e : Ast.BinaryExpr) (c : Condition) : Prop where
  resolves : ∀ r ∈ e.references, r.Resolves db tables
  lhs : c.lhsCol = e.lhs.inFull db tables
  literal : ∀ v, e.rhs = .val v → c.isRhsVal = true ∧ c.rhsCol = ⟨"", ""⟩
  column : ∀ r, e.rhs = .col r → c.isRhsVal = false ∧ c.rhsCol = r.inFull db tables

/-- Its columns are those of the statement, in full. -/
theorem Resolved.sides {e : Ast.BinaryExpr} {out : Condition} (resolved : Resolved db tables e out) :
    (∃ r ∈ e.references, r.Resolves db tables ∧ out.lhsCol = r.inFull db tables) ∧
      (out.isRhsVal = false → ∃ r ∈ e.references, r.Resolves db tables ∧ out.rhsCol = r.inFull db tables) := by
  obtain ⟨resolves, lhs, literal, column⟩ := resolved
  unfold Ast.BinaryExpr.references at resolves ⊢
  cases side : e.rhs with
  | val v =>
    rw [side] at resolves
    refine ⟨⟨e.lhs, List.mem_cons_self, resolves _ List.mem_cons_self, lhs⟩, fun isColumn => ?_⟩
    rw [(literal v side).1] at isColumn
    cases isColumn
  | col r =>
    rw [side] at resolves
    have right : r ∈ [e.lhs, r] := List.mem_cons_of_mem _ List.mem_cons_self
    exact ⟨⟨e.lhs, List.mem_cons_self, resolves _ List.mem_cons_self, lhs⟩,
      fun _ => ⟨r, right, resolves r right, (column r side).2⟩⟩

theorem resolves_of_ok (wf : db.WF) {found : TabCol}
    (run : checkColumn db (db.colsOf tables) ⟨c.tabName, c.colName⟩ = .ok found) :
    c.Resolves db tables ∧ found = c.inFull db tables := by
  by_cases resolves : c.Resolves db tables
  · rw [checkColumn_resolves wf resolves] at run
    exact ⟨resolves, (Except.ok.inj run).symm⟩
  · rcases checkColumn_refused wf resolves with refused | refused
    · rw [refused] at run
      cases run
    · rw [refused] at run
      cases run

theorem checkCond_resolved (wf : db.WF) {e : Ast.BinaryExpr} {out : Condition}
    (run : checkCond db (db.colsOf tables) (getCond e) = .ok out) : Resolved db tables e out := by
  obtain ⟨lhs, kind, rhs, other⟩ := checkCond_ok run
  unfold getCond at lhs kind rhs other
  cases side : e.rhs with
  | val v =>
    rw [side] at lhs kind rhs other
    obtain ⟨resolves, same⟩ := resolves_of_ok wf lhs
    constructor
    · simpa [Ast.BinaryExpr.references, side] using resolves
    · exact same
    · exact fun _ _ => ⟨kind, other rfl⟩
    · intro r col
      rw [side] at col
      cases col
  | col r =>
    rw [side] at lhs kind rhs other
    obtain ⟨resolves, same⟩ := resolves_of_ok wf lhs
    obtain ⟨resolves', same'⟩ := resolves_of_ok wf (rhs rfl)
    constructor
    · simpa [Ast.BinaryExpr.references, side] using And.intro resolves resolves'
    · exact same
    · intro v val
      rw [side] at val
      cases val
    · intro r' col
      rw [side] at col
      cases col
      exact ⟨kind, same'⟩

theorem checkClause_resolved (wf : db.WF) {es : List Ast.BinaryExpr} {conds : List Condition}
    (found : ∀ t ∈ tables, db.isTable t = true) (run : checkClause db tables (getClause es) = .ok conds) :
    List.Forall₂ (Resolved db tables) es conds := by
  rw [checkClause, getAllCols_eq found, ok_bind] at run
  have each := mapM_ok run
  rw [getClause, List.forall₂_map_left_iff] at each
  exact each.imp fun _ _ => checkCond_resolved wf

end Analyze

end Rmdb
