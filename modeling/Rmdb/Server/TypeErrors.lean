import Rmdb.Server.Concludes

namespace Rmdb
open Analyze Planner Plan Portal InsertExecutor

/-! Which statements end in a value or an `RMDBError`, whatever is in the tables. -/

/-- SELECT, INSERT, UPDATE or DELETE. -/
def Ast.TreeNode.IsDml : Ast.TreeNode → Prop
  | .selectStmt .. | .insertStmt .. | .updateStmt .. | .deleteStmt .. => True
  | _ => False

/-- What `do_analyze` leaves to be done concludes, whatever records the tables hold. -/
def Executes (N : Nat) (db : DbMeta) (query : Query) (stmt : Ast.TreeNode) : Prop :=
  ∀ s : ClientHandler N, s.sys.db = db → s.Stocked stmt → Concludes fun env => s.execute env query stmt

/-- The statement is carried out or rejected with an `RMDBError`, whatever records the tables hold. -/
def Rejects (N : Nat) (db : DbMeta) (stmt : Ast.TreeNode) : Prop :=
  ∀ s : ClientHandler N, s.sys.db = db → s.Stocked stmt → Concludes fun env => s.handle env stmt

/-- The executors of a query are there and read what is there. Those of ORDER BY and of index scans have no columns. -/
def ExecutorsRead (db : DbMeta) (query : Query) : Ast.TreeNode → Prop
  | .selectStmt _ _ _ order => order = none ∧ ∃ plan, makeOneRel db query.tables query.conds = .ok plan ∧
      plan.Runs ∧ ∀ selected, query.cols.mapM (getCol plan.recCols) = .ok selected →
        plan.Careful ∧ Narrow plan selected
  | .updateStmt tabName _ _ => ∀ p, scanPlan db tabName query.conds = .ok p → p.Careful
  | .deleteStmt tabName _ => ∀ p, scanPlan db tabName query.conds = .ok p → p.Careful
  | _ => True

/-! Databases in which a statement goes wrong. -/

/-- Over these record files. The indexes are open. -/
def ClientHandler.over (N : Nat) (sm : SmManager) : ClientHandler N where
  sys := ⟨sm.db, fun _ => none, fun _ => some ⟨0, IxManager.newFileHdr []⟩, .new Tables.noFiles fun _ => 0, []⟩
  files := sm.fhs

/-- All tables are empty. -/
def blank (db : DbMeta) : SmManager where
  db
  fhs tabName :=
    match db.getTable tabName with
    | .ok tab => some (blankFile (totalLen tab.cols))
    | .error _ => none

section
variable {N : Nat} {db : DbMeta} {sm : SmManager} {stmt : Ast.TreeNode} {query : Query} {p : ScanPlan}

theorem over_stocked (tables : sm.Stocked) (files : sm.Sound) (space : ∀ tabName vals, stmt = .insertStmt tabName vals →
    ∀ fh, sm.fhs tabName = some fh → fh.HasSpace) : (ClientHandler.over N sm).Stocked stmt where
  tables := tables
  files := files
  indexes _ _ _ _ _ := rfl
  space := space

theorem blank_stocked (ready : db.Ready) : (ClientHandler.over N (blank db)).Stocked stmt := by
  have spec : ∀ tabName tab, db.getTable tabName = .ok tab → (blankFile (totalLen tab.cols)).FileInv ∧
      (blankFile (totalLen tab.cols)).hdr.recordSize = totalLen tab.cols ∧ (blankFile (totalLen tab.cols)).HasSpace := by
    intro tabName tab table
    obtain ⟨inv, size, space, _⟩ := blankFile_spec (ready.positive table) (ready.laid _ _ table).2
    exact ⟨inv, size, space⟩
  have file : ∀ tabName fh, (blank db).fhs tabName = some fh →
      ∃ tab, db.getTable tabName = .ok tab ∧ fh = blankFile (totalLen tab.cols) := by
    intro tabName fh here
    simp only [blank] at here
    split at here
    · rename_i tab table
      exact ⟨tab, table, (Option.some.inj here).symm⟩
    · cases here
  refine over_stocked (fun tabName tab table => ?_) (fun tabName fh here => ?_) fun tabName _ _ fh here => ?_
  · obtain ⟨inv, size, _⟩ := spec tabName tab table
    have table' : db.getTable tabName = .ok tab := table
    exact ⟨_, by simp only [blank, table'], inv, size⟩
  · obtain ⟨tab, table, rfl⟩ := file tabName fh here
    exact (spec tabName tab table).1
  · obtain ⟨tab, table, rfl⟩ := file tabName fh here
    exact (spec tabName tab table).2.2

/-- Some records make a statement other than INSERT go wrong. -/
theorem holding_stocked_over (ready : db.Ready) {rows : String → RmRecord} (sizes : db.Sizes rows)
    (inserts : ∀ tabName vals, stmt ≠ .insertStmt tabName vals) :
    (ClientHandler.over N (holding db rows)).Stocked stmt :=
  over_stocked (holding_stocked ready sizes) (holding_sound ready sizes) fun _ _ same => absurd same (inserts _ _)

theorem changes_not_insert {tabName : String} (kind : Changes tabName stmt) :
    ∀ other vals, stmt ≠ .insertStmt other vals := by
  rintro other vals rfl
  exact kind

/-- UPDATE and DELETE. -/
theorem change_executes_iff (ready : db.Ready) {tabName : String} (kind : Changes tabName stmt)
    (analyzed : doAnalyze db stmt = .ok query) (scanned : scanPlan db tabName query.conds = .ok p) :
    Executes N db query stmt ↔ p.Careful := by
  constructor
  · intro executes
    by_contra careless
    have breaks (sm : SmManager) (same : sm.db = db) (stocked : (ClientHandler.over N sm).Stocked stmt) {e : Error}
        (wrong : ¬IsRmdbError e)
        (stops : ∃ enough, ∀ fuel, enough ≤ fuel → scanRids sm (.scan p) fuel = .error (.thrown e)) : False := by
      subst same
      obtain ⟨tab, table, _⟩ := ClientHandler.changes_table (s := ClientHandler.over N sm) kind analyzed
      obtain ⟨fh, file, _⟩ := stocked.tables _ _ table
      exact ClientHandler.change_breaks (s := ClientHandler.over N sm) kind analyzed table file scanned wrong stops
        (executes _ rfl stocked)
    obtain ⟨rfl, takes, tab, table, cols⟩ := scanPlan_ok scanned
    cases tag : p.tag with
    | indexScan =>
      have stocked : (ClientHandler.over N (blank db)).Stocked stmt := blank_stocked ready
      have tables : (blank db).Stocked := stocked.tables
      obtain ⟨_, fails⟩ := (convert_index tables ready (takes ▸ scanned) tag).resolve_left fun fine => careless fine.1
      refine breaks _ rfl stocked (e := .assertion) id ⟨0, fun fuel _ => ?_⟩
      simp only [scanRids, fails]
    | seqScan =>
      have careless : ¬(Plan.scan p).Careful := by
        rwa [ScanPlan.Careful, tag] at careless
      have of : (Plan.scan p).Of db := fun q member => by
        rw [List.mem_singleton.mp member]
        exact ⟨tag, tab, table, cols⟩
      have whole : (Plan.scan p).Whole := trivial
      obtain ⟨rows, sizes, can⟩ := careless_can ready whole of (List.nodup_singleton _) careless
      have stocked : (ClientHandler.over N (holding db rows)).Stocked stmt :=
        holding_stocked_over ready sizes (changes_not_insert kind)
      obtain ⟨E, built, _⟩ := convert_tame whole (of.laid ready) (of.backed (holding_stocked ready sizes) ready)
      obtain ⟨e, wrong, enough, bursts⟩ := can rows sizes (fun _ _ => rfl) E built
      refine breaks _ rfl stocked wrong ⟨enough, fun fuel large => ?_⟩
      simp only [scanRids, built, bursts fuel large]
      rfl
  · rintro careful s rfl stocked
    obtain ⟨tab, table, _⟩ := ClientHandler.changes_table kind analyzed
    obtain ⟨fh, file, _⟩ := stocked.tables _ _ table
    exact ClientHandler.change_concludes kind analyzed table file scanned ready stocked.tables careful

end

section
variable {N : Nat} {db : DbMeta} {plan : Plan} {query : Query} {tabs : List String} {cols : List Ast.Col}
  {es : List Ast.BinaryExpr} {order : Option Ast.OrderBy}

/-- A plan of scans from end to end shows in its tables whether it is careful and its tuples are short. -/
theorem runs_executes_iff {conds : List Condition} (out : List TabCol) (ready : db.Ready) (catalog : InCatalog db tabs)
    (run : makeOneRel db tabs conds = .ok plan) (runs : plan.Runs) :
    (∀ s : ClientHandler N, s.sys.db = db → s.Stocked (.selectStmt cols tabs es order) →
      Concludes fun env => s.runSelect env (.projection plan out)) ↔
    ∀ selected, out.mapM (getCol plan.recCols) = .ok selected → plan.Careful ∧ Narrow plan selected := by
  obtain ⟨plans, made, scans⟩ := makeOneRel_made run
  have of := of_made made scans runs
  have laid := of.laid ready
  constructor
  · intro concludes selected looked
    have shows := makeOneRel_shows ready catalog run runs.1 of
    -- some records in the tables give the executor the property that ends the traversal
    have bursts {P : Executor → Prop} (can : plan.Can db P) (stops : ∀ E, P E → E.tupleLen = plan.tupleLen → ∀ least,
        ∃ fuel, least ≤ fuel ∧
          ¬Stops IsRmdbError ((⟨E, selected⟩ : ProjectionExecutor).executor.traverse fuel E.fresh)) : False := by
      obtain ⟨rows, sizes, can⟩ := can
      have stocked : (ClientHandler.over N (holding db rows)).Stocked (.selectStmt cols tabs es order) :=
        holding_stocked_over ready sizes nofun
      obtain ⟨E, built, hasCols, len, _⟩ := convert_tame runs.1 laid (of.backed (holding_stocked ready sizes) ready)
      obtain ⟨enough, ends⟩ := (ClientHandler.runSelect_concludes_iff (s := ClientHandler.over N (holding db rows))
        stocked.files built hasCols).mp (concludes _ rfl stocked) selected looked
      obtain ⟨fuel, most, wrong⟩ := stops E (can rows sizes (fun _ _ => rfl) E built) len enough
      exact wrong (ends fuel most)
    have careful : plan.Careful := by
      by_contra careless
      refine bursts (shows.breaks careless) fun E breaks _ least => ?_
      exact Executor.Breaks.traverse (E := (⟨E, selected⟩ : ProjectionExecutor).executor) breaks least
    refine ⟨careful, fun t given => ?_⟩
    by_contra wide
    obtain ⟨_, _, can⟩ := shows.finds careful ⟨t, given⟩
    refine bursts can fun E finds len least => ?_
    exact Executor.Finds.traverse (x := ⟨E, selected⟩) finds (by rw [len]; exact wide) least
  · rintro careful s rfl stocked
    obtain ⟨E, built, hasCols, len, tame⟩ := convert_tame runs.1 laid (of.backed stocked.tables ready)
    refine (ClientHandler.runSelect_concludes_iff stocked.files built hasCols).mpr fun selected looked => ?_
    obtain ⟨careful, narrow⟩ := careful selected looked
    obtain ⟨started, placed, tame⟩ := tame careful
    refine ⟨0, fun fuel _ => traverse_stops laid careful narrow tame len (fun col member => ?_) fuel⟩
    obtain ⟨target, _, found⟩ := mem_mapM looked member
    exact getCol_mem found

theorem execute_select (s : ClientHandler N) (env : Env) : s.execute env query (.selectStmt cols tabs es order) =
    ((liftM (generateSelectPlan s.sys.db query order) : Except Stop Plan) >>= fun plan => s.runSelect env plan) := rfl

/-- The planner meets what is undefined. -/
theorem not_executes_of_error {e : Error} (ready : db.Ready) (catalog : InCatalog db query.tables)
    (failed : makeOneRel db query.tables query.conds = .error e) :
    ¬Executes N db query (.selectStmt cols tabs es order) := by
  intro executes
  have stocked : (ClientHandler.over N (blank db)).Stocked (.selectStmt cols tabs es order) := blank_stocked ready
  have ends := executes _ rfl stocked
  simp only [execute_select] at ends
  have orderly : Orderly (generateSelectPlan db query order) := (concludes_bind.mp ends).1
  have planned : generateSelectPlan db query order = .error e := by
    rw [generateSelectPlan, failed]
    rfl
  rw [planned, makeOneRel_error catalog failed] at orderly
  exact orderly

/-- The plan under the projection is stuck where the tables are empty. -/
theorem not_executes_of_stuck {above : Plan} {out : List TabCol} (ready : db.Ready)
    (planned : generateSelectPlan db query order = .ok (.projection above out)) (stuck : Stuck (blank db) above) :
    ¬Executes N db query (.selectStmt cols tabs es order) := by
  intro executes
  have stocked : (ClientHandler.over N (blank db)).Stocked (.selectStmt cols tabs es order) := blank_stocked ready
  have ends := executes _ rfl stocked
  simp only [execute_select] at ends
  exact ClientHandler.runSelect_stuck (s := ClientHandler.over N (blank db)) stuck
    ((concludes_bind.mp ends).2 _ planned)

/-- SELECT. -/
theorem select_executes_iff (ready : db.Ready) (analyzed : doAnalyze db (.selectStmt cols tabs es order) = .ok query) :
    Executes N db query (.selectStmt cols tabs es order) ↔ ExecutorsRead db query (.selectStmt cols tabs es order) := by
  obtain ⟨_, checked, rest⟩ := bind_eq_ok_iff.mp analyzed
  obtain ⟨out, _, rest⟩ := bind_eq_ok_iff.mp rest
  obtain ⟨conds, _, rest⟩ := bind_eq_ok_iff.mp rest
  cases rest
  have catalog := (inCatalog_of_found ready.wf (checkTables_found checked)).2
  cases planned : makeOneRel db tabs conds with
  | error e =>
    refine iff_of_false (not_executes_of_error ready catalog planned) fun reads => ?_
    obtain ⟨_, plan, made, _⟩ := reads
    cases planned.symm.trans made
  | ok plan =>
    obtain ⟨plans, made, scans⟩ := makeOneRel_made planned
    have stocked : (ClientHandler.over N (blank db)).Stocked (.selectStmt cols tabs es order) := blank_stocked ready
    have tables : (blank db).Stocked := stocked.tables
    have either := stuck_or_runs tables ready made scans
    cases order with
    | some order =>
      obtain ⟨allCols, listed⟩ : ∃ allCols, getAllCols db tabs = .ok allCols :=
        ⟨_, getAllCols_eq fun t member => isTable_of_stored (checkTables_found checked t member)⟩
      obtain ⟨sel, desc, sorted⟩ : ∃ sel desc, generateSelectPlan db ⟨conds, out, tabs, [], []⟩ (some order) =
          .ok (.projection (.sort plan sel desc) out) := by
        simp only [generateSelectPlan, planned, generateSortPlan, listed, ok_bind]
        exact ⟨_, _, rfl⟩
      have stuck : Stuck (blank db) (.sort plan sel desc) := stuck_sort (either.imp_right fun runs => by
        have of := of_made made scans runs
        obtain ⟨E, built, _⟩ := convert_tame runs.1 (of.laid ready) (of.backed tables ready)
        exact ⟨E, built⟩)
      exact iff_of_false (not_executes_of_stuck ready sorted stuck) fun reads => by cases reads.1
    | none =>
      have straight : generateSelectPlan db ⟨conds, out, tabs, [], []⟩ none = .ok (.projection plan out) := by
        simp only [generateSelectPlan, planned, generateSortPlan, ok_bind]
        rfl
      by_cases runs : plan.Runs
      · refine Iff.trans (forall₃_congr fun s same _ => ?_) ((runs_executes_iff out ready catalog planned runs).trans ?_)
        · subst same
          simp only [execute_select, straight]
          exact Iff.rfl
        · refine ⟨fun careful => ⟨rfl, plan, planned, runs, careful⟩, fun reads => ?_⟩
          obtain ⟨_, plan', same, _, careful⟩ := reads
          cases planned.symm.trans same
          exact careful
      · refine iff_of_false (not_executes_of_stuck ready straight (either.resolve_right runs)) fun reads => ?_
        obtain ⟨_, plan', same, runs', _⟩ := reads
        cases planned.symm.trans same
        exact runs runs'

end

section
variable {N : Nat} {db : DbMeta} {stmt : Ast.TreeNode} {query : Query} {tabName : String}

/-- INSERT. -/
theorem insert_executes_iff {vals : List Ast.Lit} (ready : db.Ready)
    (analyzed : doAnalyze db (.insertStmt tabName vals) = .ok query) :
    Executes N db query (.insertStmt tabName vals) ↔ NumbersMeet db (.insertStmt tabName vals) := by
  constructor
  · intro executes
    have stocked : (ClientHandler.over N (blank db)).Stocked (.insertStmt tabName vals) := blank_stocked ready
    exact (ClientHandler.insert_concludes (s := ClientHandler.over N (blank db)) ready stocked analyzed).mp
      (executes _ rfl stocked)
  · rintro meets s rfl stocked
    exact (ClientHandler.insert_concludes ready stocked analyzed).mpr meets

theorem changes_executes_iff (ready : db.Ready) (kind : Changes tabName stmt) (analyzed : doAnalyze db stmt = .ok query) :
    Executes N db query stmt ↔ ∀ p, scanPlan db tabName query.conds = .ok p → p.Careful := by
  obtain ⟨tab, table, _⟩ := ClientHandler.changes_table (s := ClientHandler.over N (blank db)) kind analyzed
  obtain ⟨p, scanned⟩ := scanPlan_returns (getTable_ok table) (ready.wf _ _ (getTable_ok table)).2.2.1 query.conds
  refine (change_executes_iff ready kind analyzed scanned).trans ⟨fun careful p' same => ?_, fun all => all p scanned⟩
  cases scanned.symm.trans same
  exact careful

theorem rejects_iff (ready : db.Ready) : Rejects N db stmt ↔
    Orderly (doAnalyze db stmt) ∧ ∀ query, doAnalyze db stmt = .ok query → Executes N db query stmt := by
  constructor
  · intro rejects
    have stocked : (ClientHandler.over N (blank db)).Stocked stmt := blank_stocked ready
    refine ⟨(ClientHandler.handle_concludes.mp (rejects _ rfl stocked)).1, ?_⟩
    rintro query analyzed s rfl stocked
    exact (ClientHandler.handle_concludes.mp (rejects s rfl stocked)).2 query analyzed
  · rintro ⟨orderly, executes⟩ s rfl stocked
    exact ClientHandler.handle_concludes.mpr ⟨orderly, fun query analyzed => executes query analyzed s rfl stocked⟩

/-- When a statement is carried out or rejected with an `RMDBError`, whatever the tables hold: if no number is encoded for
a column that has not four bytes, and the executors are there and read inside the records. -/
theorem type_errors_rejected_iff (ready : db.Ready) (kind : stmt.IsDml) : Rejects N db stmt ↔
    NumbersMeet db stmt ∧ ∀ query, doAnalyze db stmt = .ok query → ExecutorsRead db query stmt := by
  rw [rejects_iff ready]
  cases stmt with
  | selectStmt cols tabs es order =>
    rw [doAnalyze_orderly_iff ready fun _ _ same => by cases same]
    exact and_congr_right fun _ => forall₂_congr fun query analyzed => select_executes_iff ready analyzed
  | updateStmt t clauses es =>
    rw [doAnalyze_orderly_iff ready fun _ _ same => by cases same]
    exact and_congr_right fun _ => forall₂_congr fun query analyzed => changes_executes_iff ready rfl analyzed
  | deleteStmt t es =>
    rw [doAnalyze_orderly_iff ready fun _ _ same => by cases same]
    exact and_congr_right fun _ => forall₂_congr fun query analyzed => changes_executes_iff ready rfl analyzed
  | insertStmt t vals =>
    have analyzed : doAnalyze db (.insertStmt t vals) = .ok ⟨[], [], [], [], vals.map convertSvValue⟩ := rfl
    constructor
    · rintro ⟨_, executes⟩
      exact ⟨(insert_executes_iff ready analyzed).mp (executes _ analyzed), fun _ _ => trivial⟩
    · rintro ⟨meets, _⟩
      exact ⟨trivial, fun query analyzed => (insert_executes_iff ready analyzed).mpr meets⟩
  | _ => exact kind.elim

end

/-- The tables `t (a int, b char(4))` and `u (c int, d char(8))`. -/
def pairDb : DbMeta where
  name := "d"
  tabs := [("t", ⟨"t", [⟨"t", "a", .int, 4, 0, false⟩, ⟨"t", "b", .string, 4, 4, false⟩], []⟩),
    ("u", ⟨"u", [⟨"u", "c", .int, 4, 0, false⟩, ⟨"u", "d", .string, 8, 4, false⟩], []⟩)]

theorem pairDb_ready : pairDb.Ready := by
  have only : ∀ tabName tab, pairDb.getTable tabName = .ok tab → (tabName, tab) ∈ pairDb.tabs :=
    fun _ _ table => mem_of_lookup (getTable_ok table)
  refine ⟨DbMeta.wf_of_entries (by simp [pairDb]), fun tabName tab table => ?_, fun tabName tab table index member => ?_⟩
  · rcases List.mem_cons.mp (only _ _ table) with same | later
    · cases same
      exact ⟨⟨rfl, by decide, rfl, by decide, trivial⟩, by decide⟩
    · cases List.mem_singleton.mp later
      exact ⟨⟨rfl, by decide, rfl, by decide, trivial⟩, by decide⟩
  · rcases List.mem_cons.mp (only _ _ table) with same | later
    · cases same
      cases member
    · cases List.mem_singleton.mp later
      cases member

/-- `a = c` -/
def onColumns : Condition := ⟨⟨"t", "a"⟩, .eq, false, ⟨"u", "c"⟩, ⟨.int 0, none⟩⟩

/-- `d = 'k'` with the literal encoded. -/
def onLiteral : Condition := ⟨⟨"u", "d"⟩, .eq, true, ⟨"", ""⟩, ⟨.str [107], some [107, 0, 0, 0, 0, 0, 0, 0]⟩⟩

/-- `select b from t, u where a = c and d = 'k'` -/
def joinStmt : Ast.TreeNode := .selectStmt [⟨"", "b"⟩] ["t", "u"]
  [⟨⟨"", "a"⟩, .eq, .col ⟨"", "c"⟩⟩, ⟨⟨"", "d"⟩, .eq, .val (.string [107])⟩] none

def scanT : ScanPlan :=
  ⟨.seqScan, "t", [⟨"t", "a", .int, 4, 0, false⟩, ⟨"t", "b", .string, 4, 4, false⟩], [], 8, []⟩

def scanU : ScanPlan :=
  ⟨.seqScan, "u", [⟨"u", "c", .int, 4, 0, false⟩, ⟨"u", "d", .string, 8, 4, false⟩], [onLiteral], 12, []⟩

theorem joinStmt_careful : (Plan.join (.scan scanT) (.scan scanU) [onColumns]).Careful := by
  refine ⟨fun r _ => trivial, fun _ r length => ⟨fun lhs found => ?_, fun _ => trivial⟩, fun a b _ _ => ⟨by decide, ?_⟩⟩
  · cases found
    rw [length]
    have lhsFits : Fits 4 8 12 := ⟨by decide, by decide, by decide⟩
    have rawFits : Fits 0 8 8 := ⟨by decide, by decide, by decide⟩
    exact ⟨fun _ => ⟨lhsFits, [107, 0, 0, 0, 0, 0, 0, 0], rfl, rawFits⟩, nofun⟩
  · refine ⟨fun lhs found => ⟨nofun, fun _ rhs found' => ?_⟩, fun _ => trivial⟩
    cases found
    cases found'
    constructor
    · unfold PairInside Fits
      decide
    · unfold PairInside Fits
      decide

/-- A join is carried out, and a wrong type in an INSERT is rejected. -/
theorem type_errors_rejected_join : Rejects 2 pairDb joinStmt ∧
    Rejects 2 pairDb (.insertStmt "u" [.int 1, .float 0]) := by
  constructor
  · have analyzed : doAnalyze pairDb joinStmt = .ok ⟨[onColumns, onLiteral], [⟨"t", "b"⟩], ["t", "u"], [], []⟩ := rfl
    have orderly : Orderly (doAnalyze pairDb joinStmt) := by
      rw [analyzed]
      trivial
    have meets : NumbersMeet pairDb joinStmt :=
      (doAnalyze_orderly_iff pairDb_ready fun _ _ same => by cases same).mp orderly
    have kind : joinStmt.IsDml := trivial
    refine (type_errors_rejected_iff pairDb_ready kind).mpr ⟨meets, fun query same => ?_⟩
    cases analyzed.symm.trans same
    refine ⟨rfl, .join (.scan scanT) (.scan scanU) [onColumns], rfl, ⟨⟨trivial, trivial⟩, by decide⟩, ?_⟩
    intro selected looked
    cases looked
    exact ⟨joinStmt_careful, fun _ _ => by decide⟩
  · have kind : (Ast.TreeNode.insertStmt "u" [.int 1, .float 0]).IsDml := trivial
    refine (type_errors_rejected_iff pairDb_ready kind).mpr ⟨fun tab table count => ?_, fun _ _ => trivial⟩
    cases table
    exact ⟨fun _ _ => rfl, fun _ => ⟨nofun, nofun⟩⟩

theorem charSm_ready : charSm.db.Ready := by
  have only : ∀ tabName tab, charSm.db.getTable tabName = .ok tab → tab = charTable := by
    intro tabName tab table
    have stored := getTable_ok table
    simp only [charSm, List.lookup_cons, List.lookup_nil] at stored
    split at stored
    · exact (Option.some.inj stored).symm
    · cases stored
  refine ⟨charSm_wf, fun tabName tab table => ?_, fun tabName tab table index member => ?_⟩
  · rw [only tabName tab table]
    exact ⟨⟨rfl, by decide, rfl, by decide, trivial⟩, by decide⟩
  · rw [only tabName tab table] at member
    cases member

/-- `delete from t where a = val` -/
def deleteWhere (val : Ast.Lit) : Ast.TreeNode := .deleteStmt "t" [⟨⟨"", "a"⟩, .eq, .val val⟩]

/-- An INT literal for a column of eight bytes: `init_raw` asserts before the types are compared. -/
theorem type_errors_assertion :
    ¬∀ (db : DbMeta) (stmt : Ast.TreeNode), db.Ready → stmt.IsDml → Rejects 1 db stmt := by
  intro rejects
  have orderly := ((rejects_iff charSm_ready).mp (rejects charSm.db (deleteWhere (.int 1)) charSm_ready trivial)).1
  exact orderly

end Rmdb
