import Rmdb.Kit.Result
import Rmdb.Parser.Ast
import Rmdb.System.Meta

namespace Rmdb

/-- The resolved statement. -/
structure Query where
  conds : List Condition
  cols : List TabCol
  tables : List String
  setClauses : List SetClause
  values : List Value

namespace Analyze

/-- The loop of `check_column` over all columns: the table of the last match, so far `tabName`. -/
def inferTable (colName : String) : List ColMeta → String → Except Error String
  | [], tabName => .ok tabName
  | col :: cols, tabName =>
    if col.name = colName then
      if tabName ≠ "" then .error (.ambiguousColumn colName) else inferTable colName cols col.tabName
    else inferTable colName cols tabName

/-- A column without a table name is looked for in the columns given, one with a table name in the catalog. -/
def checkColumn (db : DbMeta) (allCols : List ColMeta) (target : TabCol) : Except Error TabCol :=
  if target.tabName = "" then do
    let tabName ← inferTable target.colName allCols ""
    if tabName = "" then throw (.columnNotFound target.colName) else return { target with tabName := tabName }
  else
    match db.tabs.lookup target.tabName with
    | some tab =>
      if tab.isCol target.colName then .ok target
      else .error (.columnNotFound (target.tabName ++ "." ++ target.colName))
    | none => .error (.columnNotFound (target.tabName ++ "." ++ target.colName))

def getAllCols (db : DbMeta) : List String → Except Error (List ColMeta)
  | [] => .ok []
  | tabName :: tabNames => do
    let tab ← db.getTable tabName
    let cols ← getAllCols db tabNames
    return tab.cols ++ cols

def convertSvValue : Ast.Lit → Value
  | .int v => ⟨.int v, none⟩
  | .float bits => ⟨.float bits, none⟩
  | .string s => ⟨.str s, none⟩

def convertSvCompOp : Ast.SvCompOp → CompOp
  | .eq => .eq
  | .ne => .ne
  | .lt => .lt
  | .gt => .gt
  | .le => .le
  | .ge => .ge

/-- One condition of `get_clause`. What a condition does not use keeps its default. -/
def getCond (expr : Ast.BinaryExpr) : Condition :=
  let lhs : TabCol := ⟨expr.lhs.tabName, expr.lhs.colName⟩
  match expr.rhs with
  | .val v => ⟨lhs, convertSvCompOp expr.op, true, ⟨"", ""⟩, convertSvValue v⟩
  | .col c => ⟨lhs, convertSvCompOp expr.op, false, ⟨c.tabName, c.colName⟩, ⟨.int 0, none⟩⟩

def getClause (svConds : List Ast.BinaryExpr) : List Condition := svConds.map getCond

/-- The columns of a condition, resolved. -/
def resolveCond (db : DbMeta) (allCols : List ColMeta) (c : Condition) : Except Error Condition := do
  let lhsCol ← checkColumn db allCols c.lhsCol
  if c.isRhsVal then return { c with lhsCol := lhsCol }
  else do
    let rhsCol ← checkColumn db allCols c.rhsCol
    return { c with lhsCol := lhsCol, rhsCol := rhsCol }

/-- The right side against the left column: a literal is encoded, a column looked up. -/
def checkRhs (db : DbMeta) (lhs : ColMeta) (c : Condition) : Except Error (Condition × ColType) :=
  if c.isRhsVal then do
    let rhsVal ← c.rhsVal.initRaw lhs.len
    return ({ c with rhsVal := rhsVal }, rhsVal.type)
  else do
    let tab ← db.getTable c.rhsCol.tabName
    let rhs ← tab.getCol c.rhsCol.colName
    return (c, rhs.type)

def checkCond (db : DbMeta) (allCols : List ColMeta) (c : Condition) : Except Error Condition := do
  let c ← resolveCond db allCols c
  let tab ← db.getTable c.lhsCol.tabName
  let lhs ← tab.getCol c.lhsCol.colName
  let (c, rhsType) ← checkRhs db lhs c
  if lhs.type ≠ rhsType then throw (.incompatibleType (coltype2str lhs.type) (coltype2str rhsType)) else return c

def checkClause (db : DbMeta) (tabNames : List String) (conds : List Condition) : Except Error (List Condition) := do
  let allCols ← getAllCols db tabNames
  conds.mapM (checkCond db allCols)

/-- The columns of the select list; an empty list selects all. -/
def selectCols (db : DbMeta) (tables : List String) (cols : List TabCol) : Except Error (List TabCol) := do
  let allCols ← getAllCols db tables
  match cols with
  | [] => return allCols.map fun col => ⟨col.tabName, col.name⟩
  | _ => cols.mapM (checkColumn db allCols)

def checkTables (db : DbMeta) : List String → Except Error Unit
  | [] => .ok ()
  | tabName :: tabNames => if db.isTable tabName then checkTables db tabNames else .error (.tableNotFound tabName)

def setClause (tab : TabMeta) (clause : Ast.SetClause) : Except Error SetClause := do
  let rhs := convertSvValue clause.val
  let lhs ← tab.getCol clause.colName
  if lhs.type ≠ rhs.type then throw (.incompatibleType (coltype2str lhs.type) (coltype2str rhs.type))
  else do
    let rhs ← rhs.initRaw lhs.len
    return ⟨⟨"", clause.colName⟩, rhs⟩

def doAnalyze (db : DbMeta) : Ast.TreeNode → Except Error Query
  | .selectStmt cols tabs svConds _ => do
    checkTables db tabs
    let cols ← selectCols db tabs (cols.map fun c => ⟨c.tabName, c.colName⟩)
    let conds ← checkClause db tabs (getClause svConds)
    return ⟨conds, cols, tabs, [], []⟩
  | .updateStmt tabName clauses svConds => do
    let tab ← db.getTable tabName
    let clauses ← clauses.mapM (setClause tab)
    let conds ← checkClause db [tabName] (getClause svConds)
    return ⟨conds, [], [], clauses, []⟩
  | .deleteStmt tabName svConds => do
    let conds ← checkClause db [tabName] (getClause svConds)
    return ⟨conds, [], [], [], []⟩
  | .insertStmt _ vals => return ⟨[], [], [], [], vals.map convertSvValue⟩
  | _ => return ⟨[], [], [], [], []⟩

end Analyze

end Rmdb
