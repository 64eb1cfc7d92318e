import Rmdb.Server.Handler

namespace Rmdb

/-! The handler as it changes the database: what the next request finds. -/

namespace ClientHandler
variable {N : Nat} {α : Type}

abbrev ServeM (N : Nat) := EStateM Stop (ClientHandler N)

/-- A call that only looks. -/
def looking (x : ClientHandler N → Except Stop α) : ServeM N α := fun s =>
  match x s with
  | .ok a => .ok a s
  | .error stop => .error stop s

/-- A call on the database. -/
def onSys (x : SmM N α) : ServeM N α := fun s =>
  match x s.sys with
  | .ok a t => .ok a { s with sys := t }
  | .error e t => .error (.thrown e) { s with sys := t }

/-- The file of a table has changed, and with it the header in its handle. -/
def putFile (s : ClientHandler N) (tabName : String) (fh : RmFile FlatFile) : ClientHandler N where
  sys := { s.sys with fhs := Function.update s.sys.fhs tabName (some fh.handle) }
  files := Function.update s.files tabName (some fh)

/-- A call on the file of a table. -/
def onFile (tabName : String) (x : RmM FlatFile α) : ServeM N α := fun s =>
  match Portal.fileOf s.sm tabName with
  | .error e => .error (.thrown e) s
  | .ok fh =>
    match x fh with
    | .ok a fh => .ok a (s.putFile tabName fh)
    | .error e fh => .error (.thrown e) (s.putFile tabName fh)

/-- The flat file behind the handle of a table that was just created. -/
def openNew (s : ClientHandler N) (tabName : String) : ClientHandler N :=
  match s.sys.fhs tabName with
  | none => s
  | some h =>
    let file := stateAfter (RmManager.created h.fileHdr.recordSize h.fd) (.blank 0)
    { s with files := Function.update s.files tabName (some ⟨h, file⟩) }

/-- `execute`, with what it leaves behind. -/
def perform (env : Env) (query : Query) (stmt : Ast.TreeNode) : ServeM N Unit :=
  match stmt with
  | .createTable tabName fields => do
    onSys (Database.createTable tabName (Planner.colDefs fields) env.made env.fd env.fd')
    modify (openNew · tabName)
  | .dropTable tabName => do
    onSys (Database.dropTable tabName env.permitted)
    modify fun s => { s with files := Function.update s.files tabName none }
  | .insertStmt tabName _ => do
    let s ← get
    let x ← looking fun s => InsertExecutor.new s.sm tabName query.values
    let _ ← onFile tabName (x.next (fun indexName => (s.sys.ihs indexName).isSome) env.junk)
    return ()
  | .updateStmt tabName _ _ | .deleteStmt tabName _ => do
    let root ← looking fun s => do
      let plan ← Planner.doPlanner s.sys.db query stmt
      Portal.start s.sm env.fuel plan
    let _ ← onFile tabName root.run
    return ()
  | stmt => looking fun s => s.execute env query stmt

/-- `handle`, with what it leaves behind. -/
def serve (env : Env) (stmt : Ast.TreeNode) : ServeM N Unit := do
  let query ← looking fun s => Analyze.doAnalyze s.sys.db stmt
  perform env query stmt

section
variable {s t : ClientHandler N} {stop : Stop} {a : α}

theorem stateAfter_looking (x : ClientHandler N → Except Stop α) (s : ClientHandler N) :
    stateAfter (looking x) s = s := by
  unfold stateAfter looking
  cases x s <;> rfl

theorem ending_looking (x : ClientHandler N → Except Stop α) (s : ClientHandler N) : ending (looking x) s = x s := by
  unfold ending looking
  cases x s <;> rfl

theorem looking_ok {β : Type} {x : ClientHandler N → Except Stop α} {f : α → ServeM N β} (found : x s = .ok a) :
    (looking x >>= f) s = f a s := by
  refine bind_ok ?_
  rw [looking, found]

theorem looking_error {β : Type} {x : ClientHandler N → Except Stop α} {f : α → ServeM N β}
    (found : x s = .error stop) : (looking x >>= f) s = .error stop s := by
  refine bind_error ?_
  rw [looking, found]

theorem onSys_ok {x : SmM N α} {sys : Database N} (run : x s.sys = .ok a sys) :
    onSys x s = .ok a { s with sys := sys } := by
  unfold onSys
  simp only [run]

theorem onSys_error {x : SmM N α} {sys : Database N} {e : Error} (run : x s.sys = .error e sys) :
    onSys x s = .error (.thrown e) { s with sys := sys } := by
  unfold onSys
  simp only [run]

theorem serve_eq {env : Env} {query : Query} {stmt : Ast.TreeNode}
    (analyzed : Analyze.doAnalyze s.sys.db stmt = .ok query) : serve env stmt s = perform env query stmt s :=
  looking_ok (by rw [analyzed]; rfl)

@[simp] theorem putFile_fhs (s : ClientHandler N) (tabName : String) (fh : RmFile FlatFile) :
    (s.putFile tabName fh).sys.fhs = Function.update s.sys.fhs tabName (some fh.handle) := rfl

@[simp] theorem putFile_files (s : ClientHandler N) (tabName : String) (fh : RmFile FlatFile) :
    (s.putFile tabName fh).files = Function.update s.files tabName (some fh) := rfl

section
variable {tabName : String} {fh fh' : RmFile FlatFile} {x : RmM FlatFile α} (file : s.files tabName = some fh)
include file

theorem sm_fileOf : Portal.fileOf s.sm tabName = .ok fh := by
  simp only [Portal.fileOf, sm, file]

theorem onFile_ok (run : x fh = .ok a fh') : onFile tabName x s = .ok a (s.putFile tabName fh') := by
  unfold onFile
  simp only [sm_fileOf file, run]

theorem onFile_error {e : Error} (run : x fh = .error e fh') :
    onFile tabName x s = .error (.thrown e) (s.putFile tabName fh') := by
  unfold onFile
  simp only [sm_fileOf file, run]

end

theorem ending_onFile (tabName : String) (x : RmM FlatFile α) (s : ClientHandler N) :
    ending (onFile tabName x) s = (do
      let fh ← Portal.fileOf s.sm tabName
      reading fh x : Except Error α) := by
  unfold ending onFile reading
  cases Portal.fileOf s.sm tabName with
  | error e => rfl
  | ok fh => cases run : x fh <;> simp only [ok_bind, run] <;> rfl

theorem ending_done (x : ServeM N α) (s : ClientHandler N) :
    ending (do let _ ← x; return ()) s = ending x s >>= fun _ => pure () := by
  rw [ending_bind]
  rfl

theorem ending_onSys (x : SmM N Unit) (f : ClientHandler N → ClientHandler N) (s : ClientHandler N) :
    ending (do onSys x; modify f) s = liftM (s.calling x) := by
  rw [ending_bind]
  unfold ending onSys calling
  cases x s.sys <;> rfl

/-- What is left of a change of records when the state is left out. -/
theorem ending_dml (env : Env) (query : Query) (stmt : Ast.TreeNode) (tabName : String) (s : ClientHandler N) :
    ending (do
      let root ← looking fun s => do
        let plan ← Planner.doPlanner s.sys.db query stmt
        Portal.start s.sm env.fuel plan
      let _ ← onFile tabName root.run
      return () : ServeM N Unit) s = (do
        let plan ← Planner.doPlanner s.sys.db query stmt
        s.runDml env tabName plan) := by
  rw [ending_bind_of_same (stateAfter_looking _ s), ending_looking]
  cases Planner.doPlanner s.sys.db query stmt with
  | error e => rfl
  | ok plan =>
    simp only [runDml, lift_ok, ok_bind]
    cases Portal.start s.sm env.fuel plan with
    | error stop => rfl
    | ok root =>
      simp only [ok_bind]
      rw [ending_done, ending_onFile]
      cases Portal.fileOf s.sm tabName <;> rfl

/-- What a statement comes to is what `handle` says. -/
theorem ending_serve (env : Env) (stmt : Ast.TreeNode) (s : ClientHandler N) :
    ending (serve env stmt) s = s.handle env stmt := by
  rw [serve, ending_bind_of_same (stateAfter_looking _ s), ending_looking]
  refine bind_congr fun query => ?_
  have only_looks (same : perform env query stmt = looking fun (s : ClientHandler N) => s.execute env query stmt) :
      ending (perform env query stmt) s = s.execute env query stmt := by
    rw [same, ending_looking]
  cases stmt with
  | createTable tabName fields => exact ending_onSys _ _ s
  | dropTable tabName => exact ending_onSys _ _ s
  | insertStmt tabName vals =>
    change ending (looking _ >>= _) s = _
    rw [ending_bind_of_same (stateAfter_looking _ s), ending_looking]
    change _ = (liftM (InsertExecutor.new s.sm tabName query.values) >>= _ : Except Stop Unit)
    cases InsertExecutor.new s.sm tabName query.values with
    | error e => rfl
    | ok x =>
      change ending (do let _ ← onFile tabName _; return ()) s = _
      rw [ending_done, ending_onFile]
      simp only [lift_ok, ok_bind]
      cases Portal.fileOf s.sm tabName <;> rfl
  | updateStmt tabName clauses conds => exact ending_dml env query _ tabName s
  | deleteStmt tabName conds => exact ending_dml env query _ tabName s
  | _ => exact only_looks rfl

end

end ClientHandler

end Rmdb
