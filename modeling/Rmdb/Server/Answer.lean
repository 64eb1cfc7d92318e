import Mathlib.Algebra.Order.BigOperators.Group.List
import Rmdb.Execution.SelectFrom
import Rmdb.Execution.Yields
import Rmdb.Optimizer.PushDown
import Rmdb.Server.Runs

namespace Rmdb
open Rmdb.Tuple Analyze Planner Plan Portal InsertExecutor

/-! What a SELECT returns. -/

/-- All columns are those of listed tables, and a comparison of two columns of one table is with the first table. -/
structure Query.Closed (query : Query) (tabs : List String) : Prop where
  cols : ∀ target ∈ query.cols, target.tabName ∈ tabs
  covers : ∀ c ∈ query.conds, Covers tabs c
  pushed : ∀ c ∈ query.conds, c.isRhsVal = false → c.lhsCol.tabName = c.rhsCol.tabName →
    tabs.head? = some c.lhsCol.tabName

section
variable {db : DbMeta} {c d : Condition}

theorem checked_mirror (checked : db.Checked c) (column : c.isRhsVal = false) : db.Checked c.mirror where
  typed := by
    obtain ⟨tab, lhs, table, inTab, _, right⟩ := checked.typed
    obtain ⟨tab', rhs, table', inTab', sameType⟩ := right column
    refine ⟨tab', rhs, table', inTab', fun literal => ?_, fun _ => ⟨tab, lhs, table, inTab, sameType.symm⟩⟩
    rw [show c.mirror.isRhsVal = false from column] at literal
    cases literal
  width := fun _ lhs rhs left right => (checked.width column rhs lhs right left).symm

theorem checked_sides (checked : db.Checked c) (column : c.isRhsVal = false) (same : c.Same d) : db.Checked d := by
  rcases same with rfl | rfl
  · exact checked
  · exact checked_mirror checked column

theorem holds_same (checked : db.Checked c) (column : c.isRhsVal = false) (same : c.Same d)
    (t : Tuple String RmRecord) : db.holds d t = db.holds c t := by
  rcases same with rfl | rfl
  · rfl
  · exact test_mirror checked.typed checked.width column

end

namespace Plan

/-- With two tables at most a join has scans for children. -/
theorem leftDeep_of_few {plan : Plan} (placed : plan.Placed) (few : plan.scans.length ≤ 2) : plan.LeftDeep := by
  have some_scan : ∀ {plan : Plan}, plan.Placed → 1 ≤ plan.scans.length := by
    intro plan placed
    induction plan with
    | scan p => exact le_rfl
    | join left right conds ihLeft _ =>
      have first := ihLeft placed.1
      simp only [scans, List.length_append]
      omega
    | null => exact placed.elim
    | projection => exact placed.elim
    | sort => exact placed.elim
  induction plan with
  | scan p => trivial
  | join left right conds ihLeft ihRight =>
    have first := some_scan placed.1
    have second := some_scan placed.2.1
    simp only [scans, List.length_append] at few
    refine ⟨ihLeft placed.1 (by omega), ihRight placed.2.1 (by omega), ?_⟩
    cases right with
    | scan q => rfl
    | join l r _ =>
      have third := some_scan placed.2.1.1
      have fourth := some_scan placed.2.1.2.1
      simp only [scans, List.length_append] at few
      omega
    | null => rfl
    | projection => exact placed.2.1.elim
    | sort => rfl
  | null => trivial
  | projection => trivial
  | sort => trivial

end Plan

namespace ClientHandler
variable {N : Nat} {s : ClientHandler N} {tabs : List String} {query : Query} {p : ScanPlan} {rest : List ScanPlan}

namespace Planned
variable (planned : s.Planned tabs query.conds p rest) (wf : s.sys.db.WF) (sound : s.sys.db.Sound tabs)
  (closed : query.Closed tabs) (literals : ∀ c ∈ query.conds, c.isRhsVal = true → c.rhsCol.tabName = "")
  (checked : ∀ c ∈ query.conds, s.sys.db.Checked c)

/-- The tree of joins of the plan. -/
abbrev tree (p : ScanPlan) (rest : List ScanPlan) (tabs : List String) (query : Query) : Plan :=
  joinAll (p :: rest) (between rest tabs query.conds)

include planned

include sound in
theorem stored : ∀ q ∈ p :: rest, ∃ tab x, q.Stored s.sm tab x := by
  intro q member
  obtain ⟨tab, x, scans⟩ := planned.scans q member
  obtain ⟨tab', table, laid, wide⟩ := sound _ (planned.listed member)
  cases scans.table.symm.trans table
  exact ⟨tab, x, scans.opens, scans.table, scans.cols, scans.inv, scans.size, laid, wide⟩

include closed

/-- What no scan takes has columns of two tables, both in the list. -/
theorem leftOver_joins : ∀ c ∈ leftOver tabs query.conds, c.Joins ((p :: rest).map (·.tabName)) := by
  intro c left
  obtain ⟨lhs, rhs⟩ := closed.covers c (List.mem_filter.mp left).1
  have notPopped := unpopped left lhs
  simp only [Pops, decide_true, Bool.true_and, Bool.or_eq_false_iff, decide_eq_false_iff_not] at notPopped
  rw [planned.names]
  exact ⟨notPopped.1, lhs, rhs notPopped.1, notPopped.2⟩

/-- So a single scan takes everything. -/
theorem between_eq : between rest tabs query.conds = leftOver tabs query.conds := by
  unfold between
  split
  · rename_i alone
    refine (List.eq_nil_iff_forall_not_mem.mpr fun c left => ?_).symm
    obtain ⟨_, lhs, rhs, different⟩ := planned.leftOver_joins closed c left
    rw [alone] at lhs rhs
    exact different ((List.mem_singleton.mp lhs).trans (List.mem_singleton.mp rhs).symm)
  · rfl

include wf

/-- The tree has all scans, and its joins have the conditions between tables. -/
theorem tree_result : (tree p rest tabs query).scans.Perm (p :: rest) ∧ (tree p rest tabs query).Placed ∧
    Attached (leftOver tabs query.conds) (tree p rest tabs query).joinConds := by
  have real : "" ∉ (p :: rest).map (·.tabName) := by
    rw [planned.names]
    exact planned.real wf
  rw [tree, planned.between_eq closed]
  exact joinAll_result real (List.cons_ne_nil p rest) (planned.leftOver_joins closed)

theorem tree_tables : (tree p rest tabs query).tables.Perm tabs := by
  have order := (planned.tree_result wf closed).1.map (·.tabName)
  rwa [planned.names] at order

include literals in
/-- A scan has conditions on its own columns only. -/
theorem scan_own {q : ScanPlan} (member : q ∈ p :: rest) {c : Condition} (onScan : c ∈ q.conds) :
    Covers [q.tabName] c := by
  have inConds := planned.conds_sub member onScan
  have literal {q : ScanPlan} (kind : c.isRhsVal = true) (own : c.lhsCol.tabName = q.tabName) :
      Covers [q.tabName] c := by
    refine ⟨List.mem_singleton.mpr own, fun column => ?_⟩
    rw [kind] at column
    cases column
  rcases List.mem_cons.mp member with rfl | later
  · rw [planned.first] at onScan
    have popped := (List.mem_filter.mp onScan).2
    simp only [Pops, Bool.or_eq_true, Bool.and_eq_true, decide_eq_true_iff] at popped
    cases kind : c.isRhsVal with
    | false =>
      have same := popped.resolve_left fun both => by
        rw [kind] at both
        cases both.2
      have head := closed.pushed c inConds kind same
      rw [← planned.names] at head
      have own : q.tabName = c.lhsCol.tabName := Option.some.inj head
      exact ⟨List.mem_singleton.mpr own.symm, fun _ => List.mem_singleton.mpr (own.trans same).symm⟩
    | true =>
      refine literal kind (popped.resolve_right fun same => ?_).1.symm
      rw [literals c inConds kind] at same
      exact planned.real wf (same ▸ (closed.covers c inConds).1)
  · obtain ⟨_, kind, own⟩ := planned.later q later c onScan
    exact literal kind own

/-- The scans and the joins have the conditions between them, none twice. -/
theorem tree_conds : ∃ placed, (tree p rest tabs query).conds.Perm ((p :: rest).flatMap (·.conds) ++ placed) ∧
    Attached (leftOver tabs query.conds) placed := by
  obtain ⟨order, isPlaced, attached⟩ := planned.tree_result wf closed
  exact ⟨_, (conds_perm isPlaced).trans ((order.flatMap_right _).append_right _), attached⟩

omit wf closed in
theorem taken_perm (catalog : InCatalog s.sys.db tabs) :
    ((p :: rest).flatMap (·.conds) ++ leftOver tabs query.conds).Perm query.conds := by
  obtain ⟨scans, run, _, perm⟩ := scanPlans_spec catalog query.conds
  have same := run.symm.trans planned.run
  injection same with same
  injection same with same
  exact same ▸ perm

include checked in
theorem tree_checked : ∀ c ∈ (tree p rest tabs query).conds, s.sys.db.Checked c := by
  obtain ⟨placed, perm, ds, order, each⟩ := planned.tree_conds wf closed
  intro c member
  rcases List.mem_append.mp (perm.mem_iff.mp member) with onScan | onJoin
  · obtain ⟨q, isScan, here⟩ := List.mem_flatMap.mp onScan
    exact checked c (planned.conds_sub isScan here)
  · obtain ⟨d, left, same⟩ := exists_of_forall₂ each (order.mem_iff.mpr onJoin)
    exact checked_sides (checked d (List.mem_filter.mp left).1) (planned.leftOver_joins closed d left).1 same

include checked in
/-- A row satisfies the conditions of the tree if it satisfies those of the statement. -/
theorem tree_holds (catalog : InCatalog s.sys.db tabs) (t : Tuple String RmRecord) :
    (tree p rest tabs query).conds.all (s.sys.db.holds · t) = query.conds.all (s.sys.db.holds · t) := by
  obtain ⟨placed, perm, attached⟩ := planned.tree_conds wf closed
  have joins : placed.all (s.sys.db.holds · t) = (leftOver tabs query.conds).all (s.sys.db.holds · t) :=
    all_attached attached fun c left d same => holds_same (checked c (List.mem_filter.mp left).1)
      (planned.leftOver_joins closed c left).1 same t
  rw [perm.all_eq, List.all_append, joins, ← List.all_append, (planned.taken_perm catalog).all_eq]

omit wf closed in
include sound in
/-- No record is longer than a page of a file allows. -/
theorem row_le {t : String} (listed : t ∈ tabs) : ∃ tab, s.sys.db.getTable t = .ok tab ∧
    totalLen tab.cols ≤ RM_MAX_RECORD_SIZE ∧ (tab.cols.length : Int) ≤ RM_MAX_RECORD_SIZE ∧
      ∀ col ∈ tab.cols, col.len ≤ RM_MAX_RECORD_SIZE := by
  obtain ⟨q, member, rfl⟩ := planned.exists_scan listed
  obtain ⟨tab, x, stored⟩ := planned.stored sound q member
  have whole : totalLen tab.cols ≤ RM_MAX_RECORD_SIZE := stored.size.symm.trans_le stored.inv.sized.size_le
  refine ⟨tab, stored.table, whole, (length_le_totalLen stored.laid.tiles).trans whole, fun col member => ?_⟩
  obtain ⟨_, lower, _, upper⟩ := fits_of_mem stored.laid.tiles le_rfl member
  omega

include sound in
theorem tree_width (few : tabs.length < BUFFER_LENGTH) : (tree p rest tabs query).width ≤ intMax := by
  have order := (planned.tree_result wf closed).1.map fun q => totalLen q.cols
  have each : ∀ n ∈ (p :: rest).map fun q => totalLen q.cols, n ≤ RM_MAX_RECORD_SIZE := by
    intro n inside
    obtain ⟨q, member, rfl⟩ := List.mem_map.mp inside
    obtain ⟨tab, x, stored⟩ := planned.stored sound q member
    rw [← stored.opens.cols, stored.cols, ← stored.size]
    exact stored.inv.sized.size_le
  have total := List.sum_le_card_nsmul _ _ each
  have count : (p :: rest).length = tabs.length := by rw [← planned.names, List.length_map]
  rw [List.length_map, count, ← order.sum_eq, nsmul_eq_mul] at total
  unfold BUFFER_LENGTH at few
  unfold RM_MAX_RECORD_SIZE at total
  unfold Plan.width intMax
  omega

omit closed in
include sound in
/-- The chosen columns are columns of the catalog, and together no longer than an int can say. -/
theorem chosen_known {cols : List Ast.Col} {out : List TabCol} (found : ∀ t ∈ tabs, s.sys.db.isTable t = true)
    (fewTabs : tabs.length < BUFFER_LENGTH) (fewCols : cols.length < BUFFER_LENGTH)
    (run : selectCols s.sys.db tabs (cols.map fun c => ⟨c.tabName, c.colName⟩) = .ok out) :
    (∀ target ∈ out, ∃ col, s.sys.db.column target = .ok col) ∧
      ((∀ target ∈ out, target.tabName ∈ tabs) → s.sys.db.chosenLen out ≤ intMax) := by
  have bounded : (∀ target ∈ out, target.tabName ∈ tabs) → out.length * 512 ≤ intMax →
      s.sys.db.chosenLen out ≤ intMax := by
    intro listed few
    refine le_trans (List.sum_le_card_nsmul _ RM_MAX_RECORD_SIZE fun n inside => ?_) ?_
    · obtain ⟨target, member, rfl⟩ := List.mem_map.mp inside
      obtain ⟨tab, table, _, _, each⟩ := planned.row_le sound (listed target member)
      cases column : s.sys.db.column target with
      | error e => exact Int.zero_le_ofNat 512
      | ok col =>
        obtain ⟨tab', table', inTab⟩ := column_ok_iff.mp column
        cases table.symm.trans table'
        exact each col (mem_of_getCol inTab)
    · rw [List.length_map, nsmul_eq_mul]
      exact few
  unfold BUFFER_LENGTH at fewTabs fewCols
  cases cols with
  | nil =>
    rw [selectCols, getAllCols_eq found, ok_bind] at run
    cases run
    refine ⟨fun target member => ?_, fun listed => bounded listed ?_⟩
    · obtain ⟨col, inCols, rfl⟩ := List.mem_map.mp member
      obtain ⟨_, _, tab, table, inTab⟩ := mem_colsOf wf inCols
      obtain ⟨col', here⟩ := getCol_of_mem inTab
      exact ⟨col', column_ok_iff.mpr ⟨tab, table, here⟩⟩
    · have many : ((s.sys.db.colsOf tabs).length : Int) ≤ tabs.length * 512 := by
        unfold DbMeta.colsOf
        rw [List.length_flatMap]
        have each : ∀ n ∈ tabs.map fun t => (((s.sys.db.tabs.lookup t).map (·.cols)).getD []).length, n ≤ 512 := by
          intro n inside
          obtain ⟨t, listed, rfl⟩ := List.mem_map.mp inside
          obtain ⟨tab, table, _, count, _⟩ := planned.row_le sound listed
          rw [getTable_ok table, Option.map_some, Option.getD_some]
          unfold RM_MAX_RECORD_SIZE at count
          omega
        have total := List.sum_le_card_nsmul _ _ each
        rw [List.length_map, nsmul_eq_mul, Nat.cast_id] at total
        omega
      rw [List.length_map]
      unfold intMax
      omega
  | cons c cols =>
    have resolves := Planned.resolved_of_selectCols wf found run
    rw [selectCols, getAllCols_eq found, ok_bind] at run
    change ((c :: cols).map _).mapM (checkColumn s.sys.db (s.sys.db.colsOf tabs)) = .ok out at run
    rw [List.mapM_map] at run
    obtain ⟨rfl, _⟩ := resolved_of_mapM wf run
    refine ⟨fun target member => ?_, fun listed => bounded listed ?_⟩
    · obtain ⟨c', inCols, rfl⟩ := List.mem_map.mp member
      obtain ⟨tab, col, table, inTab⟩ := finds_of_resolves wf (resolves c' inCols)
      exact ⟨col, column_ok_iff.mpr ⟨tab, table, inTab⟩⟩
    · rw [List.length_map]
      unfold intMax
      omega

end Planned

/-- What `do_analyze` has seen to in a SELECT. -/
theorem analyzed_select {cols : List Ast.Col} {es : List Ast.BinaryExpr} {order : Option Ast.OrderBy}
    (analyzed : doAnalyze s.sys.db (.selectStmt cols tabs es order) = .ok query) :
    (∀ t ∈ tabs, s.sys.db.isTable t = true) ∧
      selectCols s.sys.db tabs (cols.map fun c => ⟨c.tabName, c.colName⟩) = .ok query.cols ∧
        checkClause s.sys.db tabs (getClause es) = .ok query.conds ∧ query.tables = tabs := by
  obtain ⟨_, tables, rest⟩ := bind_eq_ok_iff.mp analyzed
  obtain ⟨out, select, rest⟩ := bind_eq_ok_iff.mp rest
  obtain ⟨conds, clause, rest⟩ := bind_eq_ok_iff.mp rest
  cases rest
  exact ⟨fun t member => isTable_of_stored (checkTables_found tables t member), select, clause, rfl⟩

/-- The executors of a SELECT go through rows of its answer only, and over two tables at most through all of them. -/
theorem select_rows {cols : List Ast.Col} {es : List Ast.BinaryExpr} (valid : s.Valid) (nonempty : tabs ≠ [])
    (small : (Ast.TreeNode.selectStmt cols tabs es none).room < BUFFER_LENGTH)
    (analyzed : doAnalyze s.sys.db (.selectStmt cols tabs es none) = .ok query) (distinct : tabs.Nodup)
    (sound : s.sys.db.Sound tabs) (closed : query.Closed tabs) (widths : ∀ c ∈ query.conds, s.sys.db.SameWidth c) :
    ∃ plan root enough, ∃ ts : List (Tuple String RmRecord), generateSelectPlan s.sys.db query none = .ok plan ∧
      convertPlanExecutor s.sm plan = .ok root ∧
      (∀ fuel, enough ≤ fuel →
        root.traverse fuel root.fresh = .ok ((ts.map (s.sys.db.chosen query.cols)).map some)) ∧
      (∀ ftoa, ∀ t ∈ ts, QlManager.columns ftoa root (some (s.sys.db.chosen query.cols t)) =
        .ok (query.cols.map (s.sys.db.cell ftoa t))) ∧
      (ts : Multiset (Tuple String RmRecord)) ≤ s.sys.db.matching s.sm.rows tabs query.conds ∧
      (tabs.length ≤ 2 → (ts : Multiset (Tuple String RmRecord)) = s.sys.db.matching s.sm.rows tabs query.conds) := by
  have wf := valid.wf
  obtain ⟨found, select, clause, listed⟩ := analyzed_select analyzed
  have catalog : InCatalog s.sys.db tabs := (analyzed_tables wf clause).2
  have literals := checkClause_literal clause
  have checked : ∀ c ∈ query.conds, s.sys.db.Checked c := fun c member =>
    ⟨checkClause_typed clause c member, widths c member⟩
  have fewTabs : tabs.length < BUFFER_LENGTH := by
    have letters := Ast.length_le_sum (fun t (_ : t ∈ tabs) => (Ast.nameRoom_pos t).1)
    rw [Ast.TreeNode.room] at small
    omega
  have fewCols : cols.length < BUFFER_LENGTH := by
    have letters := Ast.length_le_sum (fun c (_ : c ∈ cols) => c.room_pos)
    rw [Ast.TreeNode.room] at small
    omega
  obtain ⟨p, rest, planned⟩ := valid.planned nonempty found query.conds
  obtain ⟨order, placed, _⟩ := planned.tree_result wf closed
  have names := planned.tree_tables wf closed
  have nodup := names.nodup_iff.mpr distinct
  have stored : ∀ q ∈ (Planned.tree p rest tabs query).scans, ∃ tab x, q.Stored s.sm tab x :=
    fun q member => planned.stored sound q (order.mem_iff.mp member)
  have own : (Planned.tree p rest tabs query).ScansOwn := fun q member c onScan =>
    planned.scan_own wf closed literals (order.mem_iff.mp member) onScan
  -- the executors
  obtain ⟨E, recCols, built, Y⟩ := convert_yields stored placed own nodup (planned.tree_checked wf closed checked)
    (planned.tree_width wf sound closed fewTabs)
  obtain ⟨known, chosenLen⟩ := planned.chosen_known wf sound found fewTabs fewCols select
  have chosen : ∀ target ∈ query.cols, target.tabName ∈ (Planned.tree p rest tabs query).tables ∧
      ∃ col, s.sm.db.column target = .ok col := fun target member =>
    ⟨names.mem_iff.mpr (closed.cols target member), known target member⟩
  obtain ⟨⟨E', selected⟩, enough, made, each, runs⟩ := projection_yields Y stored chosen (chosenLen closed.cols)
  have planOk : generateSelectPlan s.sys.db query none =
      .ok (.projection (Planned.tree p rest tabs query) query.cols) := by
    simp only [generateSelectPlan, generateSortPlan, listed, planned.built, ok_bind]
    rfl
  -- what they yield
  have whole : s.sys.db.matching s.sm.rows tabs query.conds =
      (Planned.tree p rest tabs query).filtered s.sm.rows s.sys.db.holds := by
    rw [DbMeta.matching, Plan.filtered, product_perm names nodup]
    refine Multiset.filter_congr fun t _ => ?_
    rw [planned.tree_holds wf closed checked catalog t]
  obtain ⟨less, same⟩ := @output_le _ s.sm.rows _ holds_local _ placed own nodup
  refine ⟨_, ProjectionExecutor.executor ⟨E', selected⟩, enough, _, planOk, ?_, runs, fun ftoa t member => ?_, ?_,
    fun few => ?_⟩
  · simp only [convertPlanExecutor, built, made]
  · have full := full_of_output stored member
    have fits : totalLen selected ≤ intMax := (picks_len each).1 ▸ chosenLen closed.cols
    have texts : QlManager.columns ftoa (ProjectionExecutor.executor ⟨E', selected⟩)
        (some (s.sm.db.chosen query.cols t)) = .ok (query.cols.map (s.sm.db.cell ftoa t)) :=
      columns_of_picks each full fits
    exact texts
  · rw [whole]
    exact less
  · have count : (Planned.tree p rest tabs query).scans.length ≤ 2 := by
      rw [order.length_eq, ← List.length_map (·.tabName), planned.names]
      exact few
    rw [whole]
    exact same (leftDeep_of_few placed count)

/-- A SELECT gives rows of its answer only, and over two tables at most all of them. -/
theorem select_answers {cols : List Ast.Col} {es : List Ast.BinaryExpr} (valid : s.Valid) (nonempty : tabs ≠ [])
    (small : (Ast.TreeNode.selectStmt cols tabs es none).room < BUFFER_LENGTH)
    (analyzed : doAnalyze s.sys.db (.selectStmt cols tabs es none) = .ok query) (distinct : tabs.Nodup)
    (sound : s.sys.db.Sound tabs) (closed : query.Closed tabs) (widths : ∀ c ∈ query.conds, s.sys.db.SameWidth c) :
    ∃ plan root enough, ∃ rows : List RmRecord, generateSelectPlan s.sys.db query none = .ok plan ∧
      convertPlanExecutor s.sm plan = .ok root ∧
      (∀ fuel, enough ≤ fuel → root.traverse fuel root.fresh = .ok (rows.map some)) ∧
      (rows : Multiset RmRecord) ≤ s.sys.db.answer s.sm.rows tabs query.conds query.cols ∧
      (tabs.length ≤ 2 → (rows : Multiset RmRecord) = s.sys.db.answer s.sm.rows tabs query.conds query.cols) := by
  obtain ⟨plan, root, enough, ts, planOk, built, runs, _, less, same⟩ :=
    select_rows valid nonempty small analyzed distinct sound closed widths
  refine ⟨plan, root, enough, ts.map (s.sys.db.chosen query.cols), planOk, built, runs, ?_, fun few => ?_⟩
  · rw [← Multiset.map_coe]
    exact Multiset.map_le_map less
  · rw [← Multiset.map_coe, same few]
    rfl

/-! `select b, c from u, t where c = d and a = c;` -/

def selectStmt : Ast.TreeNode := .selectStmt [⟨"", "b"⟩, ⟨"", "c"⟩] ["u", "t"]
  [⟨⟨"", "c"⟩, .eq, .col ⟨"", "d"⟩⟩, ⟨⟨"", "a"⟩, .eq, .col ⟨"", "c"⟩⟩] none

/-- What it is analyzed to. -/
def selectQuery : Query where
  conds := [⟨⟨"u", "c"⟩, .eq, false, ⟨"u", "d"⟩, ⟨.int 0, none⟩⟩, ⟨⟨"t", "a"⟩, .eq, false, ⟨"u", "c"⟩, ⟨.int 0, none⟩⟩]
  cols := [⟨"t", "b"⟩, ⟨"u", "c"⟩]
  tables := ["u", "t"]
  setClauses := []
  values := []

theorem withRows_db : withRows.sys.db = ⟨"db", [
    ("t", ⟨"t", [⟨"t", "a", .int, 4, 0, false⟩, ⟨"t", "b", .string, 2, 4, false⟩], []⟩),
    ("u", ⟨"u", [⟨"u", "c", .int, 4, 0, false⟩, ⟨"u", "d", .int, 4, 4, false⟩], []⟩)]⟩ := by decide +kernel

theorem selectQuery_analyzed : doAnalyze withRows.sys.db selectStmt = .ok selectQuery := by
  rw [withRows_db]
  rfl

theorem selectQuery_answer : withRows.sys.db.answer withRows.sm.rows ["u", "t"] selectQuery.conds selectQuery.cols =
    {[120, 0, 1, 0, 0, 0], [121, 122, 2, 0, 0, 0]} := by decide +kernel

theorem selectQuery_sound : withRows.sys.db.Sound ["u", "t"] := by
  intro t member
  have isTable : withRows.sys.db.isTable t = true := by
    rcases List.mem_pair.mp member with rfl | rfl <;> decide +kernel
  obtain ⟨tab, stored⟩ := Option.isSome_iff_exists.mp isTable
  have table := Database.Agrees.getTable_iff.mpr stored
  exact ⟨tab, table, withRows_sound.tables t tab table⟩

theorem selectQuery_closed : selectQuery.Closed ["u", "t"] := by
  refine ⟨by decide, fun c member => ?_, by decide⟩
  rcases List.mem_pair.mp member with rfl | rfl <;> exact ⟨by decide, fun _ => by decide⟩

/-- All columns that are compared have four bytes. -/
theorem selectQuery_widths : ∀ c ∈ selectQuery.conds, withRows.sys.db.SameWidth c := by
  intro c member _ lhs rhs left right
  rw [withRows_db] at left right
  rcases List.mem_pair.mp member with rfl | rfl <;> cases left <;> cases right <;> rfl

/-- Two of the six pairs of rows satisfy the conditions. -/
theorem select_answers_two : ∃ plan root enough, ∃ rows : List RmRecord,
    generateSelectPlan withRows.sys.db selectQuery none = .ok plan ∧ convertPlanExecutor withRows.sm plan = .ok root ∧
    (∀ fuel, enough ≤ fuel → root.traverse fuel root.fresh = .ok (rows.map some)) ∧
    (rows : Multiset RmRecord) = {[120, 0, 1, 0, 0, 0], [121, 122, 2, 0, 0, 0]} := by
  obtain ⟨plan, root, enough, rows, planned, built, runs, _, whole⟩ := select_answers withRows_sound.valid
    (List.cons_ne_nil _ _) (by decide) selectQuery_analyzed (by decide) selectQuery_sound selectQuery_closed
    selectQuery_widths
  exact ⟨plan, root, enough, rows, planned, built, runs, (whole (by decide)).trans selectQuery_answer⟩

/-- The reply to a SELECT is printed from rows of its answer only, and over two tables at most from all of them. -/
theorem select_replies {cols : List Ast.Col} {es : List Ast.BinaryExpr} (valid : s.Valid) (nonempty : tabs ≠ [])
    (small : (Ast.TreeNode.selectStmt cols tabs es none).room < BUFFER_LENGTH)
    (analyzed : doAnalyze s.sys.db (.selectStmt cols tabs es none) = .ok query) (distinct : tabs.Nodup)
    (sound : s.sys.db.Sound tabs) (closed : query.Closed tabs) (widths : ∀ c ∈ query.conds, s.sys.db.SameWidth c)
    (ftoa : UInt32 → List UInt8) :
    ∃ plan root enough, ∃ ts : List (Tuple String RmRecord), generateSelectPlan s.sys.db query none = .ok plan ∧
      convertPlanExecutor s.sm plan = .ok root ∧
      (∀ fuel, enough ≤ fuel → QlManager.selectFrom ftoa root query.cols fuel =
        QlManager.printing (QlManager.printRows (query.cols.map fun selCol => ofText selCol.colName.toList)
          (ts.map fun t => query.cols.map (s.sys.db.cell ftoa t)))) ∧
      (ts : Multiset (Tuple String RmRecord)) ≤ s.sys.db.matching s.sm.rows tabs query.conds ∧
      (tabs.length ≤ 2 → (ts : Multiset (Tuple String RmRecord)) = s.sys.db.matching s.sm.rows tabs query.conds) := by
  obtain ⟨plan, root, enough, ts, planOk, built, runs, texts, less, same⟩ :=
    select_rows valid nonempty small analyzed distinct sound closed widths
  exact ⟨plan, root, enough, ts, planOk, built,
    fun fuel most => QlManager.selectFrom_eq query.cols (runs fuel most) (texts ftoa), less, same⟩

theorem selectQuery_cells : (withRows.sys.db.matching withRows.sm.rows ["u", "t"] selectQuery.conds).map
    (fun t => selectQuery.cols.map (withRows.sys.db.cell (fun _ => []) t)) =
      {[ofText ['x'], ofText ['1']], [ofText ['y', 'z'], ofText ['2']]} := by
  decide +kernel

theorem select_replies_two : ∃ plan root enough, ∃ texts : List (List (List UInt8)),
    generateSelectPlan withRows.sys.db selectQuery none = .ok plan ∧ convertPlanExecutor withRows.sm plan = .ok root ∧
    (∀ fuel, enough ≤ fuel → QlManager.selectFrom (fun _ => []) root selectQuery.cols fuel =
      QlManager.printing (QlManager.printRows [ofText ['b'], ofText ['c']] texts)) ∧
    (texts : Multiset (List (List UInt8))) = {[ofText ['x'], ofText ['1']], [ofText ['y', 'z'], ofText ['2']]} := by
  obtain ⟨plan, root, enough, ts, planned, built, runs, _, whole⟩ := select_replies withRows_sound.valid
    (List.cons_ne_nil _ _) (by decide) selectQuery_analyzed (by decide) selectQuery_sound selectQuery_closed
    selectQuery_widths fun _ => []
  refine ⟨plan, root, enough, _, planned, built, runs, ?_⟩
  rw [← Multiset.map_coe, whole (by decide)]
  exact selectQuery_cells

end ClientHandler

end Rmdb
