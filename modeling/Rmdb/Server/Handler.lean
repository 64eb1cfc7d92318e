import Rmdb.Execution.Converted
import Rmdb.Optimizer.SelectPlan
import Rmdb.Parser.Ast
import Rmdb.Server.ErrorReply
import Rmdb.System.Schema

namespace Rmdb

/-- What a statement finds: the open database, and the record files of its tables as flat files. -/
structure ClientHandler (N : Nat) where
  sys : Database N
  files : String → Option (RmFile FlatFile)

/-- What the state does not say: the turns that loops are given, the descriptors and permissions of the operating system,
and the bytes of a `new char[]`. -/
structure Env where
  fuel : Nat
  made : Int
  fd : Int
  fd' : Int
  permitted : String → Bool
  junk : Nat → UInt8
  deriving Inhabited

namespace ClientHandler
variable {N : Nat}

/-- What the executors see of it. -/
def sm (s : ClientHandler N) : SmManager := ⟨s.sys.db, s.files⟩

/-- A call on the database of which only the exception is used. -/
def calling (s : ClientHandler N) (x : SmM N Unit) : Except Error Unit :=
  match x s.sys with
  | .ok _ _ => .ok ()
  | .error e _ => .error e

/-- The plan of an UPDATE or DELETE from `start` to the end of `run`. -/
def runDml (s : ClientHandler N) (env : Env) (tabName : String) (plan : DMLPlan) : Except Stop Unit := do
  let root ← Portal.start s.sm env.fuel plan
  let fh ← Portal.fileOf s.sm tabName
  let _ ← reading fh root.run
  return ()

/-- The plan of a SELECT from `start` to the end of `run`. -/
def runSelect (s : ClientHandler N) (env : Env) (plan : Plan) : Except Stop Unit :=
  match Portal.convertPlanExecutor s.sm plan with
  | .error e => .error (.thrown e)
  | .ok root => do
    let _ ← root.traverse env.fuel root.fresh
    return ()

/-- What `do_analyze` leaves to be done. The transaction of `BEGIN` is a null pointer; COMMIT, ABORT and the index
statements do nothing, and the rest only prints. -/
def execute (s : ClientHandler N) (env : Env) (query : Query) (stmt : Ast.TreeNode) : Except Stop Unit :=
  match stmt with
  | .createTable tabName fields =>
    liftM (s.calling (Database.createTable tabName (Planner.colDefs fields) env.made env.fd env.fd'))
  | .dropTable tabName => liftM (s.calling (Database.dropTable tabName env.permitted))
  | .descTable tabName => do
    let _ ← s.sys.db.getTable tabName
    return ()
  | .insertStmt tabName _ => do
    let x ← InsertExecutor.new s.sm tabName query.values
    let fh ← Portal.fileOf s.sm tabName
    let _ ← reading fh (x.next (fun indexName => (s.sys.ihs indexName).isSome) env.junk)
    return ()
  | .updateStmt tabName _ _ => do
    let plan ← Planner.doPlanner s.sys.db query stmt
    s.runDml env tabName plan
  | .deleteStmt tabName _ => do
    let plan ← Planner.doPlanner s.sys.db query stmt
    s.runDml env tabName plan
  | .selectStmt _ _ _ order => do
    let plan ← Planner.generateSelectPlan s.sys.db query order
    s.runSelect env plan
  | .txnBegin => .error (.thrown .undefined)
  | _ => .ok ()

/-- The part of `client_handler` in the `try` block. -/
def handle (s : ClientHandler N) (env : Env) (stmt : Ast.TreeNode) : Except Stop Unit := do
  let query ← Analyze.doAnalyze s.sys.db stmt
  s.execute env query stmt

/-- An exception of the statement. Over the buffer pool any access to a record file can also end as one of the disk. -/
def Raised (s : ClientHandler N) (stmt : Ast.TreeNode) (e : Error) : Prop :=
  (∃ env, s.handle env stmt = .error (.thrown e)) ∨ IoError e

/-- The reply for every exception of the statement fits: the message with its two terminators is not longer than
`data_send`, and so the handler writes inside it. -/
def RepliesFit (strerror : String) (s : ClientHandler N) (stmt : Ast.TreeNode) : Prop :=
  ∀ e, s.Raised stmt e → ∀ str, e.what strerror = some str → str.length + 2 ≤ BUFFER_LENGTH ∧
    ∀ c : Context, c.dataSend.length = BUFFER_LENGTH → ∃ c', c.sendError (ofText str.toList) = .ok () c'

/-- What every statement leaves in place: the catalog agrees with the handles and the disk, each of its tables has
columns that carry its name, and its record file is open and in order. -/
structure Valid (s : ClientHandler N) : Prop where
  agrees : s.sys.Agrees
  wf : s.sys.db.WF
  opened : ∀ tabName tab, s.sys.db.getTable tabName = .ok tab → ∃ fh, s.files tabName = some fh ∧ fh.FileInv
  handles : ∀ tabName fh, s.files tabName = some fh → s.sys.fhs tabName = some fh.handle

variable {s : ClientHandler N} {stmt : Ast.TreeNode} {strerror : String}

/-- It comes down to the exceptions of the statement itself. -/
theorem repliesFit_iff (short : strerror.length ≤ 1024) :
    s.RepliesFit strerror stmt ↔ ∀ env, Stops (Error.Fits strerror) (s.handle env stmt) := by
  constructor
  · intro fit env
    cases run : s.handle env stmt with
    | ok _ => trivial
    | error stop =>
      cases stop with
      | outOfFuel => trivial
      | thrown e => exact fun str what => (fit e (Or.inl ⟨env, run⟩) str what).1
  · intro stops e raised str what
    have fits : e.Fits strerror := by
      rcases raised with ⟨env, run⟩ | io
      · have ends := stops env
        rw [run] at ends
        exact ends
      · exact (Error.Plain.io io).fits short
    have room := fits str what
    refine ⟨room, fun c size => (Context.sendError_ok_iff size _).mpr ?_⟩
    rwa [ofText, List.length_map, String.length_toList]

end ClientHandler

end Rmdb
