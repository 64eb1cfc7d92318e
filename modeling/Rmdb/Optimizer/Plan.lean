import Rmdb.Kit.Result
import Rmdb.System.Meta

namespace Rmdb

inductive ScanTag
  | seqScan
  | indexScan
  deriving DecidableEq, Repr

structure ScanPlan where
  tag : ScanTag
  tabName : String
  cols : List ColMeta
  conds : List Condition
  len : Int
  indexColNames : List String

/-- The plans of a query. `null` is a null `shared_ptr`. -/
inductive Plan
  | null
  | scan (p : ScanPlan)
  | join (left right : Plan) (conds : List Condition)
  | projection (subplan : Plan) (selCols : List TabCol)
  | sort (subplan : Plan) (selCol : TabCol) (isDesc : Bool)

/-- The constructor. The length comes from the last column. -/
def ScanPlan.new (db : DbMeta) (tag : ScanTag) (tabName : String) (conds : List Condition)
    (indexColNames : List String) :
    Except Error ScanPlan := do
  let tab ← db.getTable tabName
  match tab.cols.getLast? with
  | none => throw .undefined
  | some last => return ⟨tag, tabName, tab.cols, conds, last.offset + last.len, indexColNames⟩

def swapOp : CompOp → CompOp
  | .eq => .eq
  | .ne => .ne
  | .lt => .gt
  | .gt => .lt
  | .le => .ge
  | .ge => .le

/-- The condition with its sides exchanged. -/
def Condition.mirror (c : Condition) : Condition := { c with lhsCol := c.rhsCol, rhsCol := c.lhsCol, op := swapOp c.op }

namespace Planner

/-- Whether there is an index on the columns compared with `=` to a value, and these columns. -/
def getIndexCols (db : DbMeta) (tabName : String) (currConds : List Condition) : Except Error (Bool × List String) := do
  let indexColNames := (currConds.filter fun c => c.isRhsVal && c.op = .eq && c.lhsCol.tabName = tabName).map
    (·.lhsCol.colName)
  let tab ← db.getTable tabName
  return (tab.isIndex indexColNames, indexColNames)

/-- The conditions that go to the scan of a table, and those that stay. -/
def popConds (conds : List Condition) (tabNames : String) : List Condition × List Condition :=
  conds.partition fun c => (tabNames = c.lhsCol.tabName && c.isRhsVal) || c.lhsCol.tabName = c.rhsCol.tabName

/-- `push_conds`: the result code and the plan afterwards. -/
def pushConds (cond : Condition) : Plan → Nat × Plan
  | .scan p => (if p.tabName = cond.lhsCol.tabName then 1 else if p.tabName = cond.rhsCol.tabName then 2 else 0,
      .scan p)
  | .join left right conds =>
    let (leftRes, left') := pushConds cond left
    if leftRes = 3 then (3, .join left' right conds)
    else
      let (rightRes, right') := pushConds cond right
      if rightRes = 3 then (3, .join left right' conds)
      else if leftRes = 0 ∨ rightRes = 0 then (leftRes + rightRes, .join left right conds)
      else (3, .join left right (conds ++ [if leftRes = 2 then cond.mirror else cond]))
  | plan => (0, plan)

/-- Which scans are already joined: `scantbl`, the names in `joined_tables`, and the plan so far. -/
structure Joining where
  scantbl : List Int
  joinedTables : List String
  plan : Plan

def popScan (table : String) (plans : List ScanPlan) (s : Joining) : Plan × Joining :=
  match plans.findIdx? fun p => p.tabName = table with
  | none => (.null, s)
  | some i =>
    match plans[i]? with
    | none => (.null, s)
    | some p => (.scan p, { s with scantbl := s.scantbl.set i 1, joinedTables := s.joinedTables ++ [p.tabName] })

/-- The scan of a table unless it is joined already. -/
def popNew (table : String) (plans : List ScanPlan) (s : Joining) : Plan × Joining :=
  if table ∈ s.joinedTables then (.null, s) else popScan table plans s

/-- The first condition makes the first join. -/
def joinFirst (plans : List ScanPlan) (c : Condition) (s : Joining) : Joining :=
  let (left, s) := popScan c.lhsCol.tabName plans s
  let (right, s) := popScan c.rhsCol.tabName plans s
  { s with plan := .join left right [c] }

/-- The body of the loop over the other conditions. -/
def joinNext (plans : List ScanPlan) (s : Joining) (c : Condition) : Joining :=
  let (left, s) := popNew c.lhsCol.tabName plans s
  let isNeedReverse := c.rhsCol.tabName ∉ s.joinedTables
  let (right, s) := popNew c.rhsCol.tabName plans s
  match left, right with
  | .null, .null => { s with plan := (pushConds c s.plan).2 }
  | .null, right =>
    { s with plan := .join (if isNeedReverse then right else .null) s.plan [if isNeedReverse then c.mirror else c] }
  | left, .null =>
    { s with plan := .join (if isNeedReverse then .null else left) s.plan [if isNeedReverse then c.mirror else c] }
  | left, right => { s with plan := .join (.join left right [c]) s.plan [] }

/-- The tables no condition mentions. -/
def joinRest (scantbl : List Int) (plans : List ScanPlan) (plan : Plan) : Plan :=
  (scantbl.zip plans).foldl (fun plan (used, p) => if used = -1 then .join (.scan p) plan [] else plan) plan

/-- The scan of a table: by an index if there is one on exactly the compared columns. -/
def scanPlan (db : DbMeta) (table : String) (currConds : List Condition) : Except Error ScanPlan := do
  let (indexExist, indexColNames) ← getIndexCols db table currConds
  if indexExist then ScanPlan.new db .indexScan table currConds indexColNames
  else ScanPlan.new db .seqScan table currConds []

/-- The scans of all tables, each with the conditions it takes out of the list. -/
def scanPlans (db : DbMeta) : List String → List Condition → Except Error (List ScanPlan × List Condition)
  | [], conds => .ok ([], conds)
  | table :: tables, conds => do
    let (currConds, conds) := popConds conds table
    let scan ← scanPlan db table currConds
    let (scans, conds) ← scanPlans db tables conds
    return (scan :: scans, conds)

def joinAll (plans : List ScanPlan) (conds : List Condition) : Plan :=
  let start : Joining := ⟨List.replicate plans.length (-1), List.replicate plans.length "", .null⟩
  match conds, plans with
  | c :: conds, _ =>
    let s := conds.foldl (joinNext plans) (joinFirst plans c start)
    joinRest s.scantbl plans s.plan
  | [], first :: _ => joinRest (start.scantbl.set 0 1) plans (.scan first)
  | [], [] => .null

def makeOneRel (db : DbMeta) (tables : List String) (conds : List Condition) : Except Error Plan := do
  let (scans, conds) ← scanPlans db tables conds
  match scans with
  | [] => throw .undefined
  | [scan] => return .scan scan
  | _ => return joinAll scans conds

end Planner

end Rmdb
