import Rmdb.Analyze.Analyze
import Rmdb.Optimizer.OneRel

namespace Rmdb
open Plan Planner

/-- A catalog as `create_table` builds it: a table is stored under its name, its columns
carry that name, it has a column, and no name is empty. -/
def DbMeta.WF (db : DbMeta) : Prop :=
  ∀ t tab, db.tabs.lookup t = some tab → t ≠ "" ∧ tab.name = t ∧ tab.cols ≠ [] ∧ ∀ col ∈ tab.cols, col.tabName = t

theorem DbMeta.wf_of_entries {db : DbMeta} (entries : ∀ entry ∈ db.tabs,
    entry.1 ≠ "" ∧ entry.2.name = entry.1 ∧ entry.2.cols ≠ [] ∧ ∀ col ∈ entry.2.cols, col.tabName = entry.1) : db.WF :=
  fun _ _ found => entries _ (mem_of_lookup found)

namespace Ast

/-- The tables a statement names. -/
def TreeNode.tableList : TreeNode → List String
  | .selectStmt _ tabs _ _ => tabs
  | .updateStmt tabName _ _ => [tabName]
  | .deleteStmt tabName _ => [tabName]
  | _ => []

def BinaryExpr.references (e : BinaryExpr) : List Col :=
  match e.rhs with
  | .val _ => [e.lhs]
  | .col c => [e.lhs, c]

/-- The columns it mentions in the select list and in the where clause. -/
def TreeNode.references : TreeNode → List Col
  | .selectStmt cols _ conds _ => cols ++ conds.flatMap (·.references)
  | .updateStmt _ _ conds => conds.flatMap (·.references)
  | .deleteStmt _ conds => conds.flatMap (·.references)
  | _ => []

/-- Every table name before a column is in the statement's own list. -/
def TreeNode.Qualified (stmt : TreeNode) : Prop :=
  ∀ col ∈ stmt.references, col.tabName = "" ∨ col.tabName ∈ stmt.tableList

end Ast

namespace Analyze
variable {db : DbMeta} {tables : List String} {allCols : List ColMeta}

/-- The column of a table that is in the list. -/
def Belongs (db : DbMeta) (tables : List String) (col : TabCol) : Prop :=
  col.tabName ∈ tables ∧ ∃ tab, db.tabs.lookup col.tabName = some tab ∧ tab.isCol col.colName

def Closed (db : DbMeta) (tables : List String) (q : Query) : Prop :=
  (∀ col ∈ q.cols, Belongs db tables col) ∧
    ∀ c ∈ q.conds, Belongs db tables c.lhsCol ∧ (c.isRhsVal = false → Belongs db tables c.rhsCol)

/-- Every condition, perhaps mirrored, is on one scan or join of the plan. -/
def AllAttached (db : DbMeta) (q : Query) : Prop :=
  ∃ plan, makeOneRel db q.tables q.conds = .ok plan ∧ Attached q.conds (plan.scans.flatMap (·.conds) ++ plan.joinConds)

theorem inferTable_ok {colName acc t : String} (run : inferTable colName allCols acc = .ok t) :
    t = acc ∨ ∃ col ∈ allCols, col.name = colName ∧ col.tabName = t := by
  induction allCols generalizing acc with
  | nil =>
    cases run
    exact Or.inl rfl
  | cons col cols ih =>
    rw [inferTable] at run
    split at run
    · rename_i found
      split at run
      · cases run
      · rcases ih run with rfl | ⟨other, member, rest⟩
        · exact Or.inr ⟨col, List.mem_cons_self, found, rfl⟩
        · exact Or.inr ⟨other, List.mem_cons_of_mem _ member, rest⟩
    · rcases ih run with rfl | ⟨other, member, rest⟩
      · exact Or.inl rfl
      · exact Or.inr ⟨other, List.mem_cons_of_mem _ member, rest⟩

theorem getTable_ok {t : String} {tab : TabMeta} (run : db.getTable t = .ok tab) : db.tabs.lookup t = some tab := by
  unfold DbMeta.getTable at run
  split at run
  · cases run
    assumption
  · cases run

theorem getAllCols_ok (run : getAllCols db tables = .ok allCols) {col : ColMeta} (member : col ∈ allCols) :
    ∃ t ∈ tables, ∃ tab, db.tabs.lookup t = some tab ∧ col ∈ tab.cols := by
  induction tables generalizing allCols with
  | nil =>
    cases run
    exact absurd member List.not_mem_nil
  | cons t tables ih =>
    obtain ⟨tab, found, rest⟩ := bind_eq_ok_iff.mp run
    obtain ⟨cols, later, rest⟩ := bind_eq_ok_iff.mp rest
    cases rest
    rcases List.mem_append.mp member with here | there
    · exact ⟨t, List.mem_cons_self, tab, getTable_ok found, here⟩
    · obtain ⟨u, inTables, rest⟩ := ih later there
      exact ⟨u, List.mem_cons_of_mem t inTables, rest⟩

/-- A column of a listed table belongs to the list. -/
theorem belongs_of_mem (wf : db.WF) (run : getAllCols db tables = .ok allCols) {col : ColMeta}
    (member : col ∈ allCols) :
    Belongs db tables ⟨col.tabName, col.name⟩ ∧ col.tabName ≠ "" := by
  obtain ⟨t, inTables, tab, found, inTab⟩ := getAllCols_ok run member
  obtain ⟨real, _, _, cols⟩ := wf t tab found
  have same : col.tabName = t := cols col inTab
  have isCol : tab.isCol col.name = true := List.any_eq_true.mpr ⟨col, inTab, by simp⟩
  rw [same]
  exact ⟨⟨inTables, tab, found, isCol⟩, real⟩

/-- What `check_column` accepts belongs to the list exactly if its table name, when it has
one, is in the list. -/
theorem checkColumn_ok (wf : db.WF) (run : getAllCols db tables = .ok allCols) {target col : TabCol}
    (accepted : checkColumn db allCols target = .ok col) :
    Belongs db tables col ↔ target.tabName = "" ∨ target.tabName ∈ tables := by
  unfold checkColumn at accepted
  split at accepted
  · rename_i unqualified
    obtain ⟨t, inferred, rest⟩ := bind_eq_ok_iff.mp accepted
    split at rest
    · cases rest
    · rename_i real
      cases rest
      refine ⟨fun _ => Or.inl unqualified, fun _ => ?_⟩
      rcases inferTable_ok inferred with rfl | ⟨found, member, sameName, sameTab⟩
      · exact absurd rfl real
      · have := (belongs_of_mem wf run member).1
        rwa [sameName, sameTab] at this
  · rename_i qualified
    split at accepted
    · rename_i tab found
      split at accepted
      · rename_i isCol
        cases accepted
        constructor
        · exact fun belongs => Or.inr belongs.1
        · exact fun listed => ⟨listed.resolve_left qualified, tab, found, isCol⟩
      · cases accepted
    · cases accepted

/-- What `check_clause` makes of a condition: resolved columns, the same kind of right side. -/
theorem checkCond_ok {c c' : Condition} (accepted : checkCond db allCols c = .ok c') :
    checkColumn db allCols c.lhsCol = .ok c'.lhsCol ∧ c'.isRhsVal = c.isRhsVal ∧
      (c.isRhsVal = false → checkColumn db allCols c.rhsCol = .ok c'.rhsCol) ∧
          (c.isRhsVal = true → c'.rhsCol = c.rhsCol) := by
  obtain ⟨r, resolved, rest⟩ := bind_eq_ok_iff.mp accepted
  obtain ⟨tab, _, rest⟩ := bind_eq_ok_iff.mp rest
  obtain ⟨lhs, _, rest⟩ := bind_eq_ok_iff.mp rest
  obtain ⟨⟨d, rhsType⟩, right, rest⟩ := bind_eq_ok_iff.mp rest
  have same : d = c' := by
    simp only at rest
    split at rest
    · cases rest
    · cases rest
      rfl
  subst same
  have kept : d.lhsCol = r.lhsCol ∧ d.isRhsVal = r.isRhsVal ∧ d.rhsCol = r.rhsCol := by
    unfold checkRhs at right
    split at right
    · obtain ⟨v, _, rest⟩ := bind_eq_ok_iff.mp right
      cases rest
      exact ⟨rfl, rfl, rfl⟩
    · obtain ⟨_, _, rest⟩ := bind_eq_ok_iff.mp right
      obtain ⟨_, _, rest⟩ := bind_eq_ok_iff.mp rest
      cases rest
      exact ⟨rfl, rfl, rfl⟩
  rw [kept.1, kept.2.1, kept.2.2]
  obtain ⟨lhsCol, found, rest⟩ := bind_eq_ok_iff.mp resolved
  split at rest
  · rename_i isVal
    cases rest
    exact ⟨found, rfl, fun isCol => absurd (isVal.symm.trans isCol) (by decide), fun _ => rfl⟩
  · rename_i isCol
    obtain ⟨rhsCol, found', rest⟩ := bind_eq_ok_iff.mp rest
    cases rest
    exact ⟨found, rfl, fun _ => found', fun isVal => absurd isVal isCol⟩

/-- The columns of a resolved condition belong to the list exactly if the names in it do. -/
theorem cond_closed_iff (wf : db.WF) (run : getAllCols db tables = .ok allCols) {e : Ast.BinaryExpr} {c : Condition}
    (accepted : checkCond db allCols (getCond e) = .ok c) :
    (Belongs db tables c.lhsCol ∧ (c.isRhsVal = false → Belongs db tables c.rhsCol)) ↔
      ∀ col ∈ e.references, col.tabName = "" ∨ col.tabName ∈ tables := by
  obtain ⟨lhs, kind, rhs, _⟩ := checkCond_ok accepted
  have left := checkColumn_ok wf run lhs
  unfold getCond at kind lhs rhs left
  unfold Ast.BinaryExpr.references
  cases side : e.rhs with
  | val v =>
    rw [side] at kind left
    simp only at kind left
    simp [kind, left]
  | col r =>
    rw [side] at kind left rhs
    simp only at kind left rhs
    have right := checkColumn_ok wf run (rhs trivial)
    simp [kind, left, right]

theorem clause_closed_iff (wf : db.WF) {es : List Ast.BinaryExpr} {conds : List Condition}
    (accepted : checkClause db tables (getClause es) = .ok conds) :
    (∀ c ∈ conds, Belongs db tables c.lhsCol ∧ (c.isRhsVal = false → Belongs db tables c.rhsCol)) ↔
      ∀ col ∈ es.flatMap (·.references), col.tabName = "" ∨ col.tabName ∈ tables := by
  obtain ⟨allCols, run, checked⟩ := bind_eq_ok_iff.mp accepted
  have each := mapM_ok checked
  unfold getClause at each
  rw [List.forall₂_map_left_iff] at each
  clear accepted checked
  induction each with
  | nil => simp
  | cons first _ ih =>
    rw [List.forall_mem_cons, cond_closed_iff wf run first, List.flatMap_cons, List.forall_mem_append]
    exact and_congr_right fun _ => ih

theorem select_closed_iff (wf : db.WF) {cols : List Ast.Col} {out : List TabCol}
    (accepted : selectCols db tables (cols.map fun c => ⟨c.tabName, c.colName⟩) = .ok out) :
    (∀ col ∈ out, Belongs db tables col) ↔ ∀ col ∈ cols, col.tabName = "" ∨ col.tabName ∈ tables := by
  obtain ⟨allCols, run, rest⟩ := bind_eq_ok_iff.mp accepted
  cases cols with
  | nil =>
    cases rest
    simp only [List.mem_map, List.not_mem_nil, false_imp_iff, implies_true, iff_true]
    rintro _ ⟨col, member, rfl⟩
    exact (belongs_of_mem wf run member).1
  | cons col cols =>
    have each := mapM_ok rest
    rw [List.forall₂_map_left_iff] at each
    clear accepted rest
    generalize col :: cols = all at each ⊢
    induction each with
    | nil => simp
    | cons first _ ih =>
      rw [List.forall_mem_cons, List.forall_mem_cons, checkColumn_ok wf run first]
      exact and_congr_right fun _ => ih

theorem inCatalog_of_found (wf : db.WF) (found : ∀ t ∈ tables, ∃ tab, db.tabs.lookup t = some tab) :
    "" ∉ tables ∧ InCatalog db tables := by
  refine ⟨fun member => ?_, fun t member => ?_⟩
  · obtain ⟨tab, stored⟩ := found _ member
    exact (wf _ tab stored).1 rfl
  · obtain ⟨tab, stored⟩ := found t member
    exact ⟨tab, stored, (wf t tab stored).2.2.1⟩

theorem checkTables_found (run : checkTables db tables = .ok ()) :
    ∀ t ∈ tables, ∃ tab, db.tabs.lookup t = some tab := by
  induction tables with
  | nil => exact fun t member => absurd member List.not_mem_nil
  | cons t tables ih =>
    rw [checkTables] at run
    split at run
    · rename_i isTable
      exact List.forall_mem_cons.mpr ⟨Option.isSome_iff_exists.mp isTable, ih run⟩
    · cases run

theorem getAllCols_found (run : getAllCols db tables = .ok allCols) :
    ∀ t ∈ tables, ∃ tab, db.tabs.lookup t = some tab := by
  induction tables generalizing allCols with
  | nil => exact fun t member => absurd member List.not_mem_nil
  | cons t tables ih =>
    obtain ⟨tab, found, rest⟩ := bind_eq_ok_iff.mp run
    obtain ⟨later, others, _⟩ := bind_eq_ok_iff.mp rest
    exact List.forall_mem_cons.mpr ⟨⟨tab, getTable_ok found⟩, ih others⟩

/-- Resolved names stay inside the statement's own table list, and then no condition of a
query is lost in planning, exactly if every table name that stands before a column is
in that list. The qualified branch of `check_column` asks the whole catalog instead. -/
theorem names_closed_iff (wf : db.WF) {stmt : Ast.TreeNode} (listed : ∀ cols tabs conds order,
    stmt = .selectStmt cols tabs conds order → tabs ≠ []) {q : Query} (accepted : doAnalyze db stmt = .ok q) :
    (Closed db stmt.tableList q ∧ ∀ cols tabs conds order, stmt = .selectStmt cols tabs conds order →
      AllAttached db q) ↔
      stmt.Qualified := by
  unfold Ast.TreeNode.Qualified
  cases stmt with
  | selectStmt cols tabs conds order =>
    obtain ⟨_, tables, rest⟩ := bind_eq_ok_iff.mp accepted
    obtain ⟨out, select, rest⟩ := bind_eq_ok_iff.mp rest
    obtain ⟨resolved, clause, rest⟩ := bind_eq_ok_iff.mp rest
    cases rest
    have closed : Closed db tabs ⟨resolved, out, tabs, [], []⟩ ↔
        ∀ col ∈ cols ++ conds.flatMap (·.references), col.tabName = "" ∨ col.tabName ∈ tabs := by
      rw [List.forall_mem_append, ← select_closed_iff wf select, ← clause_closed_iff wf clause]
      rfl
    constructor
    · exact fun both => closed.mp both.1
    · intro qualified
      refine ⟨closed.mpr qualified, fun _ _ _ _ _ => ?_⟩
      have catalog := inCatalog_of_found wf (checkTables_found tables)
      refine makeOneRel_attached (listed _ _ _ _ rfl) catalog.1 catalog.2 fun c member => ?_
      obtain ⟨lhs, rhs⟩ := (closed.mpr qualified).2 c member
      exact ⟨lhs.1, fun isCol => (rhs isCol).1⟩
  | updateStmt tabName clauses conds =>
    obtain ⟨tab, _, rest⟩ := bind_eq_ok_iff.mp accepted
    obtain ⟨clauses, _, rest⟩ := bind_eq_ok_iff.mp rest
    obtain ⟨resolved, clause, rest⟩ := bind_eq_ok_iff.mp rest
    cases rest
    have closed := clause_closed_iff wf clause
    constructor
    · exact fun both => closed.mp both.1.2
    · exact fun qualified => ⟨⟨fun col member => absurd member List.not_mem_nil, closed.mpr qualified⟩,
        fun _ _ _ _ other => nomatch other⟩
  | deleteStmt tabName conds =>
    obtain ⟨resolved, clause, rest⟩ := bind_eq_ok_iff.mp accepted
    cases rest
    have closed := clause_closed_iff wf clause
    constructor
    · exact fun both => closed.mp both.1.2
    · exact fun qualified => ⟨⟨fun col member => absurd member List.not_mem_nil, closed.mpr qualified⟩,
        fun _ _ _ _ other => nomatch other⟩
  | _ =>
    cases accepted
    constructor
    · exact fun _ col member => absurd member List.not_mem_nil
    · exact fun _ => ⟨⟨fun col member => absurd member List.not_mem_nil,
        fun c member => absurd member List.not_mem_nil⟩,
        fun _ _ _ _ other => nomatch other⟩

theorem threeTables_wf : threeTables.WF := by
  apply DbMeta.wf_of_entries
  simp [threeTables]

/-- `select x from a where t.x = 1`. -/
def selectFrom (t : String) : Ast.TreeNode := .selectStmt [⟨"", "x"⟩] ["a"] [⟨⟨t, "x"⟩, .eq, .val (.int 1)⟩] none

theorem names_closed_inside : ∃ q, doAnalyze threeTables (selectFrom "a") = .ok q ∧ Closed threeTables ["a"] q ∧
    AllAttached threeTables q := by
  have accepted : doAnalyze threeTables (selectFrom "a") = .ok _ := rfl
  have listed : ∀ cols tabs conds order, selectFrom "a" = .selectStmt cols tabs conds order → tabs ≠ [] := by
    intro cols tabs conds order same
    cases same
    decide
  have closed := (names_closed_iff threeTables_wf listed accepted).mpr
    (by simp [Ast.TreeNode.Qualified, selectFrom, Ast.TreeNode.references, Ast.BinaryExpr.references,
    Ast.TreeNode.tableList])
  exact ⟨_, accepted, closed.1, closed.2 _ _ _ _ rfl⟩

/-- A condition on another table of the catalog is accepted, and the plan does not have it. -/
theorem names_not_closed_outside : ∃ q, doAnalyze threeTables (selectFrom "b") = .ok q ∧ ¬Closed threeTables ["a"] q ∧
    ¬AllAttached threeTables q := by
  refine ⟨_, rfl, ?_, ?_⟩
  · intro closed
    have inside := (closed.2 _ List.mem_cons_self).1.1
    exact absurd inside (by decide)
  · rintro ⟨plan, built, placed, perm, each⟩
    cases built
    have count := each.length_eq.trans perm.length_eq
    exact absurd count (by decide)

end Analyze

end Rmdb
