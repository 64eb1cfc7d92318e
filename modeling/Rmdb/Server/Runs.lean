import Rmdb.Execution.Restart
import Rmdb.Server.Promise
import Rmdb.Server.Replies

namespace Rmdb
open Rmdb.Tuple Analyze Portal Database

/-! CREATE TABLE and DROP TABLE keep their promise too, and so do any number of statements. -/

namespace ClientHandler
variable {N : Nat} {s t : ClientHandler N} {tabName : String} {fields : List Ast.ColDef} {stmt : Ast.TreeNode}
  {query : Query} {env : Env}

/-- What the code does not check of a CREATE TABLE: the columns have different names, take some bytes each, and can be added
up. That names are identifiers is due to the scanner. -/
def Asks (s : ClientHandler N) : Ast.TreeNode → Prop
  | .createTable tabName fields => (Ddl.createTable tabName (Planner.colDefs fields) 0 0 0).Valid s.sys ∧
      Ast.IsFieldList fields ∧ (fields.map (·.colName)).Nodup ∧ (∀ field ∈ fields, 0 < field.typeLen.len) ∧
      (fields.map (·.typeLen.len)).sum ≤ intMax
  | _ => True

theorem inRange_of_positive (positive : ∀ field ∈ fields, 0 < field.typeLen.len)
    (small : (fields.map (·.typeLen.len)).sum ≤ intMax) : IsInt (colLens (Planner.colDefs fields)) := by
  have nonneg : 0 ≤ colLens (Planner.colDefs fields) :=
    colLens_nonneg (List.forall_mem_map.mpr fun field member => (positive field member).le)
  rw [Planner.colLens_colDefs] at nonneg ⊢
  exact ⟨by unfold intMin; omega, small⟩

/-- The layout of a new table fits its columns. -/
theorem layOut_laidOut {cols : List ColMeta} {recordSize : Int} (list : Ast.IsFieldList fields)
    (names : (fields.map (·.colName)).Nodup) (positive : ∀ field ∈ fields, 0 < field.typeLen.len)
    (small : (fields.map (·.typeLen.len)).sum ≤ intMax)
    (laid : layOut tabName 0 (Planner.colDefs fields) = (cols, recordSize)) :
    TabMeta.LaidOut ⟨tabName, cols, []⟩ tabName ∧ TabMeta.Wide ⟨tabName, cols, []⟩ := by
  have sameNames : cols.map (·.name) = (Planner.colDefs fields).map (·.name) := layOut_map (fun _ _ => rfl) laid
  have sameTypes : cols.map (fun col => (col.type, col.len)) =
      (Planner.colDefs fields).map fun colDef => (colDef.type, colDef.len) := layOut_map (fun _ _ => rfl) laid
  refine ⟨⟨fun col member => ?_, ?_, layOut_tiles le_rfl ?_ ?_ laid⟩, fun col member number => ?_⟩
  · exact ((layOut_ok (by decide) laid).2.2.2 col member).1
  · change (cols.map (·.name)).Nodup
    rw [sameNames, Planner.colDefs, List.map_map]
    exact names
  · unfold Planner.colDefs
    exact List.forall_mem_map.mpr positive
  · rwa [Planner.colLens_colDefs, zero_add]
  · have listed : (col.type, col.len) ∈ fields.map fun field => (field.typeLen.type, field.typeLen.len) := by
      rw [Planner.colDefs, List.map_map] at sameTypes
      exact sameTypes ▸ List.mem_map_of_mem member
    obtain ⟨field, inList, same⟩ := List.mem_map.mp listed
    obtain ⟨type, len⟩ := Prod.mk.inj same
    obtain ⟨_, isType⟩ := list.fields field inList
    rw [← len]
    rw [← type] at number
    generalize field.typeLen = typeLen at isType number
    cases isType with
    | int => exact le_rfl
    | char => exact absurd rfl number
    | float => exact le_rfl

theorem openNew_eq {h : RmFileHandle} {file : FlatFile} (handle : s.sys.fhs tabName = some h)
    (created : RmManager.created h.fileHdr.recordSize h.fd (.blank 0) = .ok h file) :
    s.openNew tabName = { s with files := Function.update s.files tabName (some ⟨h, file⟩) } := by
  unfold openNew
  simp only [handle, stateAfter, created]

/-- The new table has nothing in it. -/
theorem createTable_made {sys sys' : Database N} {colDefs : List ColDef} {made fd fd' : Int} (agrees : sys.Agrees)
    (run : Database.createTable tabName colDefs made fd fd' sys = .ok () sys') : ∃ cols recordSize file,
    sys.db.isTable tabName = false ∧ layOut tabName 0 colDefs = (cols, recordSize) ∧ 1 ≤ recordSize ∧
      sys'.db = ⟨sys.db.name, DbMeta.assign tabName ⟨tabName, cols, []⟩ sys.db.tabs⟩ ∧
      sys'.fhs = Function.update sys.fhs tabName (some ⟨fd', RmFileHdr.create recordSize⟩) ∧
      RmManager.created recordSize fd' (.blank 0) = .ok ⟨fd', RmFileHdr.create recordSize⟩ file := by
  obtain ⟨cols, recordSize, u, v, h, fresh, laid, created, opened, rfl⟩ := createTable_ok run
  obtain ⟨lower, upper, rfl⟩ := RmManager.openFile_created agrees.named.con created opened
  obtain ⟨file, new⟩ := RmManager.created_flat fd' (.blank 0) lower upper
  have noHandle : sys.fhs tabName = none := by
    rw [← Option.not_isSome_iff_eq_none, ← agrees.handles, ← DbMeta.isTable, fresh]
    exact Bool.false_ne_true
  refine ⟨cols, recordSize, file, fresh, laid, lower, rfl, ?_, new⟩
  simp [emplace, noHandle]

theorem dropTable_gone {sys sys' : Database N} {permitted : String → Bool} (agrees : sys.Agrees)
    (run : Database.dropTable tabName permitted sys = .ok () sys') : sys.db.isTable tabName = true ∧
      sys'.db = dropped sys.db tabName ∧ sys'.fhs = Function.update sys.fhs tabName none := by
  cases found : sys.db.tabs.lookup tabName with
  | none =>
    simp only [Database.dropTable, get_bind, found] at run
    cases run
  | some tab =>
    obtain ⟨h, isOpen⟩ := Option.isSome_iff_exists.mp ((agrees.handles tabName).mp (by rw [found]; rfl))
    obtain ⟨u, v, _, _, rfl⟩ := dropTable_ok found (agrees.bare _ (mem_of_lookup found)).2 isOpen run
    exact ⟨by rw [DbMeta.isTable, found]; rfl, rfl, rfl⟩

/-- CREATE TABLE. -/
theorem Sound.create (sound : s.Sound) (asks : s.Asks (.createTable tabName fields)) :
    s.Promise query (.createTable tabName fields) (perform env query (.createTable tabName fields) s) := by
  change s.Promise query _ ((onSys _ >>= fun _ => modify (openNew · tabName) : ServeM N Unit) s)
  have agrees := sound.valid.agrees
  obtain ⟨fits, list, names, positive, small⟩ := asks
  cases run : Database.createTable tabName (Planner.colDefs fields) env.made env.fd env.fd' s.sys with
  | error e sys =>
    rw [bind_error (onSys_error run)]
    rcases agrees.toTracks.createTable_refused run with io | ⟨_, same⟩
    · exact Or.inr (Or.inl io)
    · exact Or.inr (Or.inr (by rw [same]))
  | ok _ sys =>
    have valid : (Ddl.createTable tabName (Planner.colDefs fields) env.made env.fd env.fd').Valid s.sys := fits
    have sums : (Ddl.createTable tabName (Planner.colDefs fields) env.made env.fd env.fd').Sums s.sys :=
      Or.inr (Or.inr (Or.inr (inRange_of_positive positive small)))
    obtain ⟨cols, recordSize, file, fresh, laid, lower, db, fhs, new⟩ := createTable_made agrees run
    obtain ⟨inv, empty⟩ := RmFile.FileInv.created new
    have handle : sys.fhs tabName = some ⟨env.fd', RmFileHdr.create recordSize⟩ := by rw [fhs, Function.update_self]
    have tables : ∀ t, sys.db.tabs.lookup t =
        if t = tabName then some ⟨tabName, cols, []⟩ else s.sys.db.tabs.lookup t := by
      intro t
      rw [db]
      exact DbMeta.lookup_assign ..
    rw [bind_ok (onSys_ok run)]
    change s.Promise query _ (.ok () (openNew ⟨sys, s.files⟩ tabName))
    rw [openNew_eq handle new]
    refine ⟨sound.update (f := some _) (agrees.createTable valid sums run) fhs (fun t other => ?_) fun tab found => ?_, ?_⟩
    · rw [tables, if_neg other]
    · rw [tables, if_pos rfl] at found
      cases found
      obtain ⟨laidOut, wide⟩ := layOut_laidOut list names positive small laid
      refine ⟨?_, rfl, ?_, laidOut, wide, _, rfl, inv⟩
      · rintro rfl
        exact fits.1
      · rintro rfl
        obtain ⟨sum, total, _⟩ := layOut_ok (by decide) laid
        rw [← total, totalLen, List.map_nil, List.sum_nil] at sum
        exact absurd lower (by rw [sum]; decide)
    · rw [contents_update, rowsOf, empty, db]
      exact .createTable fresh laid

/-- DROP TABLE. -/
theorem Sound.drop (sound : s.Sound) :
    s.Promise query (.dropTable tabName) (perform env query (.dropTable tabName) s) := by
  change s.Promise query _ ((onSys (Database.dropTable tabName env.permitted) >>=
    fun _ => modify fun s => { s with files := Function.update s.files tabName none } : ServeM N Unit) s)
  have agrees := sound.valid.agrees
  cases run : Database.dropTable tabName env.permitted s.sys with
  | error e sys =>
    rw [bind_error (onSys_error run)]
    rcases agrees.toTracks.dropTable_refused run with io | ⟨_, _, same⟩
    · exact Or.inr (Or.inl io)
    · exact Or.inr (Or.inr (by rw [same]))
  | ok _ sys =>
    obtain ⟨isTable, db, fhs⟩ := dropTable_gone agrees run
    have tables : ∀ t, sys.db.tabs.lookup t = if t = tabName then none else s.sys.db.tabs.lookup t := by
      intro t
      rw [db]
      exact DbMeta.lookup_erase ..
    rw [bind_ok (onSys_ok run)]
    change s.Promise query _ (.ok () ⟨sys, Function.update s.files tabName none⟩)
    refine ⟨sound.update (agrees.dropTable run) fhs (fun t other => ?_) fun tab found => ?_, ?_⟩
    · rw [tables, if_neg other]
    · rw [tables, if_pos rfl] at found
      cases found
    · rw [contents_update, rowsOf, db]
      exact .dropTable isTable

/-- Every file is one of a table. -/
theorem Sound.files (sound : s.Sound) : s.sm.Sound := by
  intro tabName fh file
  have agrees := sound.valid.agrees
  have handle := sound.valid.handles tabName fh file
  obtain ⟨tab, stored⟩ := Option.isSome_iff_exists.mp ((agrees.handles tabName).mpr (by rw [handle]; rfl))
  obtain ⟨fh', file', inv⟩ := sound.valid.opened tabName tab (Agrees.getTable_iff.mpr stored)
  cases file.symm.trans file'
  exact inv

theorem runSelect_ends (sound : s.sm.Sound) (plan : Plan) :
    ∃ enough, ∀ env : Env, enough ≤ env.fuel → Returns (fun _ => True) (s.runSelect env plan) := by
  cases run : convertPlanExecutor s.sm plan with
  | error e =>
    refine ⟨0, fun env _ => ?_⟩
    simp only [runSelect, run]
    exact .thrown e
  | ok root =>
    obtain ⟨bounded⟩ := (built_of_convert run).bounded sound
    refine ⟨bounded.bound + 1, fun env enough => ?_⟩
    simp only [runSelect, run]
    exact (bounded.traverse root.fresh enough).bind fun _ _ _ => trivial

/-- What changes nothing comes to an end. -/
theorem execute_ends (sound : s.sm.Sound) (idle : Contents.Idle stmt) (query : Query) :
    ∃ enough, ∀ env : Env, enough ≤ env.fuel → Returns (fun _ => True) (s.execute env query stmt) := by
  cases stmt with
  | selectStmt cols tabs conds order =>
    cases planned : Planner.generateSelectPlan s.sys.db query order with
    | error e =>
      refine ⟨0, fun env _ => ?_⟩
      simp only [execute, planned]
      exact .thrown e
    | ok plan =>
      simp only [execute, planned]
      exact runSelect_ends sound plan
  | descTable tabName => exact ⟨0, fun env _ => returns_lift fun _ _ => trivial⟩
  | txnBegin => exact ⟨0, fun env _ => .thrown _⟩
  | createTable => cases idle
  | dropTable => cases idle
  | insertStmt => cases idle
  | updateStmt => cases idle
  | deleteStmt => cases idle
  | _ => exact ⟨0, fun env _ => trivial⟩

theorem Sound.idle (sound : s.Sound) (idle : Contents.Idle stmt) :
    ∃ enough, ∀ env : Env, enough ≤ env.fuel → s.Promise query stmt (perform env query stmt s) := by
  obtain ⟨enough, ends⟩ := execute_ends sound.files idle query
  refine ⟨enough, fun env most => ?_⟩
  have looks : perform env query stmt s = looking (fun (s : ClientHandler N) => s.execute env query stmt) s := by
    cases stmt with
    | createTable => cases idle
    | dropTable => cases idle
    | insertStmt => cases idle
    | updateStmt => cases idle
    | deleteStmt => cases idle
    | _ => rfl
  have ends := ends env most
  cases run : s.execute env query stmt with
  | ok _ =>
    rw [looks, looking, run]
    exact ⟨sound, .idle idle⟩
  | error stop =>
    rw [run] at ends
    rw [looks, looking, run]
    cases stop with
    | thrown e => exact Or.inr (Or.inr rfl)
    | outOfFuel => exact absurd rfl ends

/-- Every statement keeps its promise. -/
theorem Sound.performs (sound : s.Sound) (asks : s.Asks stmt) (analyzed : doAnalyze s.sys.db stmt = .ok query) :
    ∃ enough, ∀ env : Env, enough ≤ env.fuel → s.Promise query stmt (perform env query stmt s) := by
  cases stmt with
  | createTable tabName fields => exact ⟨0, fun env _ => sound.create asks⟩
  | dropTable tabName => exact ⟨0, fun env _ => sound.drop⟩
  | insertStmt tabName vals =>
    refine ⟨0, fun env _ => sound.insert fun v member => ?_⟩
    cases analyzed
    obtain ⟨lit, _, rfl⟩ := List.mem_map.mp member
    cases lit <;> rfl
  | updateStmt tabName clauses conds =>
    exact sound.change (show Changes tabName (.updateStmt tabName clauses conds) from rfl) analyzed
  | deleteStmt tabName conds => exact sound.change (show Changes tabName (.deleteStmt tabName conds) from rfl) analyzed
  | _ => exact sound.idle trivial

/-- With the analysis. -/
theorem Sound.serves (sound : s.Sound) (asks : s.Asks stmt) : ∃ enough, ∀ env : Env, enough ≤ env.fuel →
    (∃ t query, serve env stmt s = .ok () t ∧ t.Sound ∧ doAnalyze s.sys.db stmt = .ok query ∧
      Contents.Does query stmt s.contents t.contents) ∨
    ∃ e t, serve env stmt s = .error (.thrown e) t ∧ (e = .undefined ∨ IoError e ∨ t = s) := by
  cases analyzed : doAnalyze s.sys.db stmt with
  | error e =>
    refine ⟨0, fun env _ => Or.inr ⟨e, s, ?_, Or.inr (Or.inr rfl)⟩⟩
    exact looking_error (by rw [analyzed]; rfl)
  | ok query =>
    obtain ⟨enough, promise⟩ := sound.performs asks analyzed
    refine ⟨enough, fun env most => ?_⟩
    have kept := promise env most
    rw [serve_eq analyzed]
    cases run : perform env query stmt s with
    | ok _ t =>
      rw [run] at kept
      exact Or.inl ⟨t, query, rfl, kept.1, rfl, kept.2⟩
    | error stop t =>
      rw [run] at kept
      cases stop with
      | thrown e => exact Or.inr ⟨e, t, rfl, kept⟩
      | outOfFuel => exact kept.elim

/-- What the statement comes to if no loop is cut short. -/
def Comes (s : ClientHandler N) (stmt : Ast.TreeNode) (r : EStateM.Result Stop (ClientHandler N) Unit) : Prop :=
  ∃ enough, ∃ env : Env, ∀ fuel, enough ≤ fuel → serve { env with fuel := fuel } stmt s = r

/-- Statements one after the other, each with the exception it ended with, if any. -/
inductive Serves : ClientHandler N → List (Ast.TreeNode × Option Error) → ClientHandler N → Prop
  | nil (s : ClientHandler N) : Serves s [] s
  | returned {s t u : ClientHandler N} {stmt : Ast.TreeNode} {rest : List (Ast.TreeNode × Option Error)} :
      s.Asks stmt → s.Comes stmt (.ok () t) → Serves t rest u → Serves s ((stmt, none) :: rest) u
  | thrown {s t u : ClientHandler N} {stmt : Ast.TreeNode} {e : Error} {rest : List (Ast.TreeNode × Option Error)} :
      s.Asks stmt → s.Comes stmt (.error (.thrown e) t) → e ≠ .undefined → ¬IoError e → Serves t rest u →
      Serves s ((stmt, some e) :: rest) u

theorem Sound.comes (sound : s.Sound) (asks : s.Asks stmt) {r : EStateM.Result Stop (ClientHandler N) Unit}
    (comes : s.Comes stmt r) :
    (∃ t query, r = .ok () t ∧ t.Sound ∧ doAnalyze s.sys.db stmt = .ok query ∧
      Contents.Does query stmt s.contents t.contents) ∨
    ∃ e t, r = .error (.thrown e) t ∧ (e = .undefined ∨ IoError e ∨ t = s) := by
  obtain ⟨enough, env, same⟩ := comes
  obtain ⟨enough', kept⟩ := sound.serves asks
  have run := kept { env with fuel := max enough enough' } (le_max_right _ _)
  rwa [same _ (le_max_left _ _)] at run

theorem Sound.comes_ok (sound : s.Sound) (asks : s.Asks stmt) (comes : s.Comes stmt (.ok () t)) :
    t.Sound ∧ ∃ query, doAnalyze s.sys.db stmt = .ok query ∧ Contents.Does query stmt s.contents t.contents := by
  obtain ⟨_, query, same, sound', analyzed, does⟩ | ⟨_, _, other, _⟩ := sound.comes asks comes
  · cases same
    exact ⟨sound', query, analyzed, does⟩
  · cases other

theorem Sound.comes_error {e : Error} (sound : s.Sound) (asks : s.Asks stmt)
    (comes : s.Comes stmt (.error (.thrown e) t)) (defined : e ≠ .undefined) (noIo : ¬IoError e) : t = s := by
  obtain ⟨_, _, other, _⟩ | ⟨_, _, same, undone⟩ := sound.comes asks comes
  · cases other
  · cases same
    exact (undone.resolve_left defined).resolve_left noIo

/-- Whatever statements come, the server keeps its tables in order, and what its clients see of them is what the
statements say, one after the other; a statement that throws has done nothing. -/
theorem serves_refines {events : List (Ast.TreeNode × Option Error)} (sound : s.Sound) (serves : Serves s events t) :
    t.Sound ∧ Contents.Run s.contents events t.contents := by
  induction serves with
  | nil s => exact ⟨sound, .nil _⟩
  | returned asks comes _ ih =>
    obtain ⟨sound', query, analyzed, does⟩ := sound.comes_ok asks comes
    obtain ⟨last, run⟩ := ih sound'
    exact ⟨last, .returned analyzed does run⟩
  | thrown asks comes defined noIo _ ih =>
    obtain rfl := sound.comes_error asks comes defined noIo
    obtain ⟨last, run⟩ := ih sound
    exact ⟨last, .thrown run⟩

/-! `create table t (a int, b char(2)); create table u (c int, d int);`, two rows for the one table and three for the
other, and the first statement again. -/

theorem opened_sound : opened.Sound where
  valid := opened_valid
  tables t tab found := by
    have stored := getTable_ok found
    rw [opened_tabs] at stored
    cases stored

def env0 : Env := ⟨0, 3, 3, 3, fun _ => true, fun _ => 0⟩

/-- The descriptors are those of the first table's neighbour. -/
def env1 : Env := { env0 with made := 4, fd := 4, fd' := 4 }

/-- `create table t (a int, b char(2));` -/
def createStmt : Ast.TreeNode := .createTable "t" [⟨"a", ⟨.int, 4⟩⟩, ⟨"b", ⟨.string, 2⟩⟩]

/-- `create table u (c int, d int);` -/
def createOther : Ast.TreeNode := .createTable "u" [⟨"c", ⟨.int, 4⟩⟩, ⟨"d", ⟨.int, 4⟩⟩]

/-- INSERT statements one after the other. -/
def afterInserts (s : ClientHandler 1) : List (String × List Ast.Lit) → ClientHandler 1
  | [] => s
  | (tabName, vals) :: rest => (stateAfter (serve env0 (.insertStmt tabName vals)) s).afterInserts rest

/-- None of them throws. -/
def InsertsReturn (s : ClientHandler 1) : List (String × List Ast.Lit) → Prop
  | [] => True
  | (tabName, vals) :: rest => value (serve env0 (.insertStmt tabName vals)) s = some () ∧
    (stateAfter (serve env0 (.insertStmt tabName vals)) s).InsertsReturn rest

instance decidableInsertsReturn : ∀ (s : ClientHandler 1) (rows), Decidable (s.InsertsReturn rows)
  | _, [] => .isTrue trivial
  | _, (_, _) :: rest => @instDecidableAnd _ _ _ (decidableInsertsReturn _ rest)

def rows : List (String × List Ast.Lit) :=
  [("t", [.int 1, .string [120]]), ("t", [.int 2, .string [121, 122]]), ("u", [.int 1, .int 1]), ("u", [.int 2, .int 2]),
    ("u", [.int 3, .int 1])]

def insertEvents (rows : List (String × List Ast.Lit)) : List (Ast.TreeNode × Option Error) :=
  rows.map fun row => (.insertStmt row.1 row.2, none)

/-- An empty database after CREATE TABLE. -/
def withTable : ClientHandler 1 := stateAfter (serve env0 createStmt) opened

def withTables : ClientHandler 1 := stateAfter (serve env1 createOther) withTable

def withRows : ClientHandler 1 := withTables.afterInserts rows

theorem createStmt_asks {s : ClientHandler 1} (few : IsSize (s.sys.db.tabs.length + 1)) : s.Asks createStmt :=
  ⟨⟨by decide, by decide, by decide, few⟩, @Ast.IsFieldList.comma [_] _ (.field ⟨by decide, .int⟩)
    ⟨by decide, .char 2 (by decide)⟩, by decide, by decide, by decide⟩

theorem createOther_asks {s : ClientHandler 1} (few : IsSize (s.sys.db.tabs.length + 1)) : s.Asks createOther :=
  ⟨⟨by decide, by decide, by decide, few⟩, @Ast.IsFieldList.comma [_] _ (.field ⟨by decide, .int⟩)
    ⟨by decide, .int⟩, by decide, by decide, by decide⟩

/-- A statement without loops. -/
theorem comes_of_value {s : ClientHandler 1} {env : Env} {stmt : Ast.TreeNode}
    (same : ∀ fuel, serve { env with fuel := fuel } stmt s = serve env stmt s)
    (returns : value (serve env stmt) s = some ()) : s.Comes stmt (.ok () (stateAfter (serve env stmt) s)) :=
  ⟨0, env, fun fuel _ => (same fuel).trans (run_of_value returns)⟩

theorem opened_creates : opened.Comes createStmt (.ok () withTable) :=
  comes_of_value (fun _ => rfl) (by decide +kernel)

theorem withTable_creates : withTable.Comes createOther (.ok () withTables) :=
  comes_of_value (fun _ => rfl) (by decide +kernel)

theorem withTables_serves : Serves opened [(createStmt, none), (createOther, none)] withTables :=
  .returned (createStmt_asks (by decide +kernel)) opened_creates
    (.returned (createOther_asks (by decide +kernel)) withTable_creates (.nil _))

theorem serves_inserts {events : List (Ast.TreeNode × Option Error)} {s t : ClientHandler 1}
    {rows : List (String × List Ast.Lit)} (returns : s.InsertsReturn rows)
    (rest : Serves (s.afterInserts rows) events t) : Serves s (insertEvents rows ++ events) t := by
  induction rows generalizing s with
  | nil => exact rest
  | cons row rows ih =>
    obtain ⟨first, returns⟩ := returns
    exact .returned trivial (comes_of_value (fun _ => rfl) first) (ih returns rest)

theorem withTables_inserts : withTables.InsertsReturn rows := by decide +kernel

theorem withRows_sound : withRows.Sound := by
  have created := (serves_refines opened_sound withTables_serves).1
  exact (serves_refines created (serves_inserts withTables_inserts (.nil _))).1

/-- CREATE TABLE of a table that is there throws. -/
theorem comes_tableExists (env : Env) (isTable : s.sys.db.isTable tabName = true) :
    s.Comes (.createTable tabName fields) (.error (.thrown (.tableExists tabName)) s) :=
  ⟨0, env, fun _ _ => (serve_eq rfl).trans (bind_error (onSys_error (createTable_exists isTable)))⟩

/-- The second CREATE TABLE of one name throws. -/
theorem serves_refines_tables : withRows.Sound ∧ Contents.Run opened.contents ((createStmt, none) :: (createOther, none) ::
    (insertEvents rows ++ [(createStmt, some (.tableExists "t"))])) withRows.contents := by
  have asks : withRows.Asks createStmt := createStmt_asks (by decide +kernel)
  have refused : Serves withRows [(createStmt, some (.tableExists "t"))] withRows :=
    .thrown asks (comes_tableExists env0 (by decide +kernel)) nofun nofun (.nil _)
  have inserted : Serves withTables (insertEvents rows ++ [(createStmt, some (.tableExists "t"))]) withRows :=
    serves_inserts withTables_inserts refused
  exact serves_refines opened_sound (.returned (createStmt_asks (by decide +kernel)) opened_creates
    (.returned (createOther_asks (by decide +kernel)) withTable_creates inserted))

/-- No statement runs forever. -/
theorem handle_ends (sound : s.Sound) (stmt : Ast.TreeNode) :
    ∃ enough, ∀ env : Env, enough ≤ env.fuel → s.handle env stmt ≠ .error .outOfFuel := by
  cases analyzed : doAnalyze s.sys.db stmt with
  | error e =>
    refine ⟨0, fun env _ ended => ?_⟩
    rw [handle, analyzed] at ended
    cases ended
  | ok query =>
    have promised (asks : s.Asks stmt) :
        ∃ enough, ∀ env : Env, enough ≤ env.fuel → s.handle env stmt ≠ .error .outOfFuel := by
      obtain ⟨enough, promise⟩ := sound.performs asks analyzed
      refine ⟨enough, fun env most ended => ?_⟩
      have kept := promise env most
      rw [← ending_serve, ending, serve_eq analyzed] at ended
      cases run : perform env query stmt s with
      | ok _ t =>
        rw [run] at ended
        cases ended
      | error stop t =>
        rw [run] at ended kept
        cases ended
        exact kept
    cases stmt with
    | createTable tabName fields =>
      refine ⟨0, fun env _ ended => ?_⟩
      rw [handle, analyzed] at ended
      change (liftM (s.calling _) : Except Stop Unit) = _ at ended
      cases run : s.calling (Database.createTable tabName (Planner.colDefs fields) env.made env.fd env.fd') with
      | ok _ =>
        rw [run] at ended
        cases ended
      | error e =>
        rw [run] at ended
        cases ended
    | _ => exact promised trivial

/-- `update t set b = 'w' where a = 1;` -/
def updateStmt : Ast.TreeNode := .updateStmt "t" [⟨"b", .string [119]⟩] [⟨⟨"", "a"⟩, .eq, .val (.int 1)⟩]

theorem handle_ends_update : ∃ enough, ∀ env : Env, enough ≤ env.fuel →
    withRows.handle env updateStmt ≠ .error .outOfFuel :=
  handle_ends withRows_sound updateStmt

end ClientHandler

end Rmdb
