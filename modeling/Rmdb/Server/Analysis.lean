import Rmdb.Analyze.Resolved
import Rmdb.Server.Checks

namespace Rmdb
open Analyze Error

/-! What `do_analyze` looks at. -/

def tableCheck (db : DbMeta) (tabName : String) : Check := ⟨db.isTable tabName = true, 24 + tabName.length⟩

def columnCheck (db : DbMeta) (tables : List String) (c : Ast.Col) : Check := ⟨c.Resolves db tables, 25 + c.text.length⟩

/-- The columns of a condition, then the types. -/
def condChecks (db : DbMeta) (tables : List String) (e : Ast.BinaryExpr) : List Check :=
  e.references.map (columnCheck db tables) ++ [⟨WellTyped db (db.colsOf tables) (getCond e), 0⟩]

/-- The column of a clause of SET, then the value. -/
def setChecks (db : DbMeta) (tabName : String) (clause : Ast.SetClause) : List Check :=
  [⟨∃ col ∈ db.colsOf [tabName], col.name = clause.colName, 25 + clause.colName.length⟩,
    ⟨∃ tab, db.getTable tabName = .ok tab ∧ SetFits tab clause, 0⟩]

def analysisChecks (db : DbMeta) : Ast.TreeNode → List Check
  | .selectStmt cols tabs svConds _ =>
    tabs.map (tableCheck db) ++ (cols.map (columnCheck db tabs) ++ svConds.flatMap (condChecks db tabs))
  | .updateStmt tabName clauses svConds =>
    tableCheck db tabName :: (clauses.flatMap (setChecks db tabName) ++ svConds.flatMap (condChecks db [tabName]))
  | .deleteStmt tabName svConds => tableCheck db tabName :: svConds.flatMap (condChecks db [tabName])
  | _ => []

/-- The name of a column in full fits the message that it is not found. -/
def Ast.Col.Short (db : DbMeta) (tables : List String) (c : Ast.Col) : Prop :=
  25 + (c.inFull db tables).text.length + 2 ≤ BUFFER_LENGTH

theorem TabCol.length_text (target : TabCol) :
    target.text.length = target.tabName.length + 1 + target.colName.length := by
  have dot : ".".length = 1 := rfl
  rw [TabCol.text, String.length_append, String.length_append, dot]

section
open Ast
variable {db : DbMeta} {tables : List String} {c : Ast.Col}

theorem length_qualified (db : DbMeta) (tables : List String) (qualified : c.tabName ≠ "") :
    (c.inFull db tables).text.length + 1 ≤ c.room := by
  have letters := (nameRoom_pos c.text).2
  have same : c.text = (c.inFull db tables).text := by
    rw [Ast.Col.text, if_neg qualified, TabCol.text, Ast.Col.inFull, Ast.Col.owner, if_neg qualified]
  rwa [← same]

theorem length_bare (db : DbMeta) (tables : List String) (bare : c.tabName = "") :
    (c.inFull db tables).text.length + 1 ≤ c.room + nameRoom (c.owner db tables) := by
  have letters := (nameRoom_pos c.text).2
  have letters' := (nameRoom_pos (c.owner db tables)).2
  rw [Ast.Col.text, if_pos bare] at letters
  rw [TabCol.length_text, Ast.Col.room, Ast.Col.text, if_pos bare]
  change (c.owner db tables).length + 1 + c.colName.length + 1 ≤ _
  omega

end

section
variable {allowed : Error → Prop} (plain : ∀ e, e.Plain → allowed e)
include plain

theorem initRaw_throws (v : Value) (len : Int) : Throws allowed (v.initRaw len) := by
  unfold Value.initRaw
  split
  · exact plain _ .assertion
  · split
    · exact plain _ .badArrayLength
    · unfold Value.encode
      split
      · split
        · trivial
        · exact plain _ .assertion
      · split
        · trivial
        · exact plain _ .assertion
      · split
        · exact plain _ .stringOverflow
        · trivial

/-- The comparison of two types. -/
theorem sameType_throws {α : Type} (lhs rhs : ColType) (a : α) :
    Throws allowed (if lhs ≠ rhs then throw (.incompatibleType (coltype2str lhs) (coltype2str rhs)) else return a) := by
  split
  · exact plain _ (.incompatibleType lhs rhs)
  · trivial

end

section
variable {strerror : String} {db : DbMeta} {tables : List String} {tabName : String}

theorem getTable_decides : Decides strerror [tableCheck db tabName] (db.getTable tabName) :=
  .one isTable_iff.mp fun missing => ⟨_, getTable_missing missing, tableNotFound_fits tabName⟩

theorem checkTables_decides (tables : List String) :
    Decides strerror (tables.map (tableCheck db)) (checkTables db tables) := by
  induction tables with
  | nil => exact .pure _
  | cons t tables ih =>
    have first : Decides strerror [tableCheck db t] (db.getTable t) := getTable_decides
    have steps : checkTables db (t :: tables) = db.getTable t >>= fun _ => checkTables db tables := by
      rw [checkTables]
      by_cases isTable : db.isTable t = true
      · obtain ⟨tab, table⟩ := isTable_iff.mp isTable
        rw [if_pos isTable, table, ok_bind]
      · rw [if_neg isTable, getTable_missing isTable]
        rfl
    rw [steps]
    exact first.bind fun _ _ => ih

variable (short : strerror.length ≤ 1024) (wf : db.WF)

section
include wf

theorem checkColumn_decides (c : Ast.Col) :
    Decides strerror [columnCheck db tables c] (checkColumn db (db.colsOf tables) ⟨c.tabName, c.colName⟩) := by
  refine .one (fun resolves => ⟨_, checkColumn_resolves wf resolves⟩) fun refused => ?_
  rcases checkColumn_refused wf refused with missing | ambiguous
  · exact ⟨_, missing, columnNotFound_fits _⟩
  · exact ⟨_, ambiguous, ambiguousColumn_fits _⟩

/-- The column of a name that resolves. -/
theorem finds_of_resolves {c : Ast.Col} (resolves : c.Resolves db tables) :
    ∃ tab col, db.getTable (c.owner db tables) = .ok tab ∧ tab.getCol c.colName = .ok col := by
  obtain ⟨_, _, tab, table, isCol⟩ := resolves_owner wf resolves
  refine ⟨tab, ?_⟩
  unfold TabMeta.getCol
  split
  · exact ⟨_, table, rfl⟩
  · rename_i none
    obtain ⟨col, member, named⟩ := List.any_eq_true.mp isCol
    exact (List.find?_eq_none.mp none col member named).elim

end

include short wf

theorem checkCond_decides (e : Ast.BinaryExpr) :
    Decides strerror (condChecks db tables e) (checkCond db (db.colsOf tables) (getCond e)) := by
  have plain : ∀ e : Error, e.Plain → e.Fits strerror := fun _ isPlain => isPlain.fits short
  have lhs : Decides strerror _ (checkColumn db (db.colsOf tables) ⟨e.lhs.tabName, e.lhs.colName⟩) :=
    checkColumn_decides wf e.lhs
  unfold condChecks Ast.BinaryExpr.references
  cases side : e.rhs with
  | val v =>
    have cond : getCond e = ⟨⟨e.lhs.tabName, e.lhs.colName⟩, convertSvCompOp e.op, true, ⟨"", ""⟩,
        convertSvValue v⟩ := by
      rw [getCond, side]
    have unused : (getCond e).rhsVal.raw = none := by
      rw [cond]
      exact convertSvValue_raw v
    have whole := @checkCond_passes_iff db (db.colsOf tables) _ unused
    rw [Analyze.checkCond_literal (by rw [cond])] at whole ⊢
    simp only [cond] at whole ⊢
    refine lhs.andThen (fun found column => ?_) whole
    obtain ⟨resolves, rfl⟩ := resolves_of_ok wf column
    obtain ⟨tab, col, table, here⟩ := finds_of_resolves wf resolves
    rw [Ast.Col.inFull, table, ok_bind, here, ok_bind]
    exact Ends.bind (initRaw_throws plain _ _) fun _ _ _ => sameType_throws plain _ _ _
  | col r =>
    have rhs : Decides strerror _ (checkColumn db (db.colsOf tables) ⟨r.tabName, r.colName⟩) :=
      checkColumn_decides wf r
    have cond : getCond e = ⟨⟨e.lhs.tabName, e.lhs.colName⟩, convertSvCompOp e.op, false, ⟨r.tabName, r.colName⟩,
        ⟨.int 0, none⟩⟩ := by
      rw [getCond, side]
    have unused : (getCond e).rhsVal.raw = none := by rw [cond]
    have whole := @checkCond_passes_iff db (db.colsOf tables) _ unused
    rw [checkCond_columns (by rw [cond])] at whole ⊢
    simp only [cond] at whole ⊢
    refine lhs.bind fun found column => ?_
    rw [column, ok_bind] at whole
    refine rhs.andThen (fun found' column' => ?_) whole
    obtain ⟨resolves, rfl⟩ := resolves_of_ok wf column
    obtain ⟨resolves', rfl⟩ := resolves_of_ok wf column'
    obtain ⟨tab, col, table, here⟩ := finds_of_resolves wf resolves
    obtain ⟨tab', col', table', here'⟩ := finds_of_resolves wf resolves'
    simp only [Ast.Col.inFull, table, here, table', here', ok_bind]
    exact sameType_throws plain _ _ _

theorem checkClause_decides (found : ∀ t ∈ tables, db.isTable t = true) (svConds : List Ast.BinaryExpr) :
    Decides strerror (svConds.flatMap (condChecks db tables)) (checkClause db tables (getClause svConds)) := by
  rw [checkClause, getAllCols_eq found, ok_bind, getClause, List.mapM_map]
  exact .mapM fun e _ => checkCond_decides short wf e

omit short in
theorem selectCols_decides (found : ∀ t ∈ tables, db.isTable t = true) (cols : List Ast.Col) :
    Decides strerror (cols.map (columnCheck db tables))
      (selectCols db tables (cols.map fun c => ⟨c.tabName, c.colName⟩)) := by
  rw [selectCols, getAllCols_eq found, ok_bind]
  cases cols with
  | nil => exact .pure _
  | cons c cols =>
    change Decides _ _ (List.mapM _ ((c :: cols).map _))
    rw [List.mapM_map, List.map_eq_flatMap]
    exact .mapM fun c _ => checkColumn_decides wf c

omit wf in
theorem setClause_decides {tab : TabMeta} (table : db.getTable tabName = .ok tab) (clause : Ast.SetClause) :
    Decides strerror (setChecks db tabName clause) (setClause tab clause) := by
  have plain : ∀ e : Error, e.Plain → e.Fits strerror := fun _ isPlain => isPlain.fits short
  have column : Decides strerror [⟨∃ col ∈ db.colsOf [tabName], col.name = clause.colName, 25 + clause.colName.length⟩]
      (tab.getCol clause.colName) := by
    rw [colsOf_single table]
    unfold TabMeta.getCol
    refine .one (fun ⟨col, member, named⟩ => ?_) fun missing => ?_
    · split
      · exact ⟨_, rfl⟩
      · rename_i none
        exact (List.find?_eq_none.mp none col member (by simpa using named)).elim
    · split
      · rename_i col found
        exact (missing ⟨col, List.mem_of_find?_eq_some found, by simpa using List.find?_some found⟩).elim
      · exact ⟨_, rfl, columnNotFound_fits _⟩
  have whole : (∃ out, setClause tab clause = .ok out) ↔
      ∃ tab, db.getTable tabName = .ok tab ∧ SetFits tab clause := by
    simp [setClause_passes_iff, table]
  unfold setClause at whole ⊢
  refine column.andThen (fun col _ => ?_) whole
  split
  · exact plain _ (.incompatibleType _ _)
  · exact Ends.bind (initRaw_throws plain _ _) fun _ _ _ => trivial

/-- The checks of the analysis are all it makes. -/
theorem doAnalyze_decides (stmt : Ast.TreeNode) : Decides strerror (analysisChecks db stmt) (doAnalyze db stmt) := by
  have single : ∀ {tabName tab}, db.getTable tabName = .ok tab → ∀ t ∈ [tabName], db.isTable t = true := by
    intro tabName tab table t member
    rw [List.mem_singleton.mp member]
    exact isTable_iff.mpr ⟨tab, table⟩
  cases stmt with
  | selectStmt cols tabs svConds order =>
    refine (checkTables_decides tabs).bind fun _ checked => ?_
    have found : ∀ t ∈ tabs, db.isTable t = true := fun t member =>
      isTable_of_stored (checkTables_found checked t member)
    exact (selectCols_decides wf found cols).bind fun out _ => (checkClause_decides short wf found svConds).last _
  | updateStmt tabName clauses svConds =>
    refine getTable_decides.bind fun tab table => ?_
    refine (Decides.mapM fun clause _ => setClause_decides short table clause).bind fun set _ => ?_
    exact (checkClause_decides short wf (single table) svConds).last _
  | deleteStmt tabName svConds =>
    have first : Decides strerror [tableCheck db tabName] (db.getTable tabName) := getTable_decides
    have clause : Decides strerror _ (db.getTable tabName >>= fun _ => checkClause db [tabName] (getClause svConds)) :=
      first.bind fun tab table => checkClause_decides short wf (single table) svConds
    have same : (db.getTable tabName >>= fun _ => checkClause db [tabName] (getClause svConds)) =
        checkClause db [tabName] (getClause svConds) := by
      rw [checkClause, getAllCols]
      cases db.getTable tabName <;> rfl
    rw [same] at clause
    exact clause.last _
  | _ => exact .pure _

end

end Rmdb
