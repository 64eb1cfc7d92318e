import Rmdb.Analyze.Analyze
import Rmdb.Execution.Executors

namespace Rmdb

/-- The plans of the statements that change records. -/
inductive DMLPlan
  | update (subplan : Plan) (tabName : String) (setClauses : List SetClause)
  | delete (subplan : Plan) (tabName : String)

namespace Planner

/-- The part of `do_planner` for UPDATE and DELETE: one scan with all conditions. -/
def doPlanner (db : DbMeta) (query : Query) : Ast.TreeNode → Except Error DMLPlan
  | .updateStmt tabName _ _ => do
    let scan ← scanPlan db tabName query.conds
    return .update (.scan scan) tabName query.setClauses
  | .deleteStmt tabName _ => do
    let scan ← scanPlan db tabName query.conds
    return .delete (.scan scan) tabName
  | _ => throw (.internal "Unexpected AST root")

end Planner

/-- `memcpy` to `data + offset`; outside the record nothing is promised. -/
def RmRecord.write (r : RmRecord) (offset : Int) (src : List UInt8) : Except Error RmRecord :=
  if 0 ≤ offset ∧ offset + src.length ≤ r.length then
    .ok (r.take offset.toNat ++ src ++ r.drop (offset.toNat + src.length))
  else .error .undefined

/-- A check made during a call on a file. -/
def checked {σ α : Type} : Except Error α → RmM σ α
  | .ok a => pure a
  | .error e => throw e

structure UpdateExecutor where
  tab : TabMeta
  rids : List Rid
  setClauses : List SetClause

namespace UpdateExecutor
open RmFileHandle
variable {σ φ : Type} [PageStore σ φ]

/-- One turn of the loop over the clauses; `raw` is made anew for each record. -/
def setColumn (tab : TabMeta) (r : Option RmRecord) (clause : SetClause) : Except Error (Option RmRecord) := do
  let col ← tab.getCol clause.lhs.colName
  if col.type ≠ clause.rhs.type then throw (.incompatibleType (coltype2str col.type) (coltype2str clause.rhs.type))
  else do
    let rhs ← { clause.rhs with raw := none }.initRaw col.len
    match r, rhs.raw with
    | some r, some raw => (r.write col.offset raw).map some
    | _, _ => throw .undefined

def rewrite (tab : TabMeta) (clauses : List SetClause) (r : Option RmRecord) : Except Error (Option RmRecord) :=
  clauses.foldlM (setColumn tab) r

def updateOne (tab : TabMeta) (clauses : List SetClause) (rid : Rid) : RmM σ PUnit := do
  let r ← getRecord rid
  match ← checked (rewrite tab clauses r) with
  | none => throw .undefined
  | some r => updateRecord rid r.ptr

def next (x : UpdateExecutor) : RmM σ PUnit := x.rids.forM (updateOne x.tab x.setClauses)

end UpdateExecutor

structure DeleteExecutor where
  rids : List Rid

namespace DeleteExecutor
variable {σ φ : Type} [PageStore σ φ]

def next (x : DeleteExecutor) : RmM σ PUnit := x.rids.forM RmFileHandle.deleteRecord

end DeleteExecutor

namespace Portal

/-- What `start` makes of a plan. -/
inductive DmlRoot
  | update (x : UpdateExecutor)
  | delete (x : DeleteExecutor)

/-- The `Rid`s of the tuples from the current one to the end. -/
def collectRids (E : Executor) (fuel : Nat) : Nat → E.State → Except Stop (List Rid)
  | 0, _ => .error .outOfFuel
  | turns + 1, s => do
    if ← E.isEnd s then return []
    match E.rid s with
    | none => throw (.thrown .undefined)
    | some rid => do
      let s ← E.nextTuple fuel s
      let rids ← collectRids E fuel turns s
      return rid :: rids

/-- The scan of `start`: all `Rid`s are there before anything is changed. -/
def scanRids (sm : SmManager) (subplan : Plan) (fuel : Nat) : Except Stop (List Rid) :=
  match convertPlanExecutor sm subplan with
  | .error e => .error (.thrown e)
  | .ok scan => do
    let s ← scan.beginTuple fuel scan.fresh
    collectRids scan fuel fuel s

/-- `fhs_.at` in the constructors of the executors. -/
def fileOf (sm : SmManager) (tabName : String) : Except Error (RmFile FlatFile) :=
  match sm.fhs tabName with
  | none => .error .outOfRange
  | some fh => .ok fh

def start (sm : SmManager) (fuel : Nat) : DMLPlan → Except Stop DmlRoot
  | .update subplan tabName setClauses => do
    let rids ← scanRids sm subplan fuel
    let tab ← sm.db.getTable tabName
    let _ ← fileOf sm tabName
    return .update ⟨tab, rids, setClauses⟩
  | .delete subplan tabName => do
    let rids ← scanRids sm subplan fuel
    let _ ← sm.db.getTable tabName
    let _ ← fileOf sm tabName
    return .delete ⟨rids⟩

/-- `run`, that is `run_dml`, on the file of the table. -/
def DmlRoot.run {σ φ : Type} [PageStore σ φ] : DmlRoot → RmM σ PUnit
  | .update x => x.next
  | .delete x => x.next

end Portal

end Rmdb
