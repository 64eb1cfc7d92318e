import Rmdb.Execution.Conditions
import Rmdb.Optimizer.Plan
import Rmdb.Record.Scan

namespace Rmdb

/-- Why a call of an executor gives no result: it throws, or its loops need more turns
than they are given. -/
inductive Stop
  | outOfFuel
  | thrown (e : Error)
  deriving DecidableEq

instance : MonadLift (Except Error) (Except Stop) := ⟨fun x => x.mapError .thrown⟩

/-- `AbstractExecutor`: an object with its virtual calls. `fresh` is its state after the constructor. -/
structure Executor where
  State : Type
  fresh : State
  tupleLen : Nat
  /-- The abstract class has a null reference here. -/
  cols : Option (List ColMeta)
  beginTuple : Nat → State → Except Stop State
  nextTuple : Nat → State → Except Stop State
  isEnd : State → Except Error Bool
  /-- Indeterminate until it is first assigned. -/
  rid : State → Option Rid
  /-- `Next`; the pointer may be null. -/
  next : State → Except Error (Option RmRecord)

namespace Executor

/-- An executor that overrides nothing but the pure virtual calls. -/
def stub : Executor where
  State := Unit
  fresh := ()
  tupleLen := 0
  cols := none
  beginTuple _ s := .ok s
  nextTuple _ s := .ok s
  isEnd _ := .ok true
  rid _ := none
  next _ := .ok none

variable (E : Executor)

/-- The tuples from the current one to the end. -/
def collect (fuel : Nat) : Nat → E.State → Except Stop (List (Option RmRecord))
  | 0, _ => .error .outOfFuel
  | turns + 1, s => do
    if ← E.isEnd s then return []
    let tuple ← E.next s
    let s ← E.nextTuple fuel s
    let tuples ← collect fuel turns s
    return tuple :: tuples

/-- The loop of `select_from`: `beginTuple`, then `nextTuple` until `is_end`. -/
def traverse (fuel : Nat) (s : E.State) : Except Stop (List (Option RmRecord)) := do
  let s ← E.beginTuple fuel s
  E.collect fuel fuel s

/-- The states that calls of `beginTuple` and `nextTuple` lead to. -/
inductive Reached : E.State → Prop
  | fresh : Reached E.fresh
  | beginTuple {s t : E.State} {fuel : Nat} : Reached s → E.beginTuple fuel s = .ok t → Reached t
  | nextTuple {s t : E.State} {fuel : Nat} : Reached s → E.nextTuple fuel s = .ok t → Reached t

end Executor

/-- The database the executors read. Nothing writes it while they run. -/
structure SmManager where
  db : DbMeta
  fhs : String → Option (RmFile FlatFile)

/-- A call on a file of which only the result is used. -/
def reading {α : Type} (fh : RmFile FlatFile) (x : RmM FlatFile α) : Except Error α :=
  match x fh with
  | .ok a _ => .ok a
  | .error e _ => .error e

/-- The conversion from `int` to `size_t`. -/
def sizeT (v : Int) : Nat := (v % 18446744073709551616).toNat

/-- The bytes at `rec->data + offset`. -/
def dataAt (r : Option RmRecord) (offset len : Int) : Except Error (List UInt8) :=
  match r with
  | none => .error .undefined
  | some r => r.bytesAt offset len

structure SeqScanExecutor where
  fh : RmFile FlatFile
  cols : List ColMeta
  len : Nat
  fedConds : List Condition

namespace SeqScanExecutor
open RmFileHandle

structure State where
  scan : Option RmScan
  rid : Option Rid

def new (sm : SmManager) (tabName : String) (conds : List Condition) : Except Error SeqScanExecutor := do
  let tab ← sm.db.getTable tabName
  match sm.fhs tabName, tab.cols.getLast? with
  | none, _ => throw .outOfRange
  | some _, none => throw .undefined
  | some fh, some last => return ⟨fh, tab.cols, sizeT (last.offset + last.len), conds⟩

variable (x : SeqScanExecutor)

def evalCond (r : Option RmRecord) (cond : Condition) : Except Error Bool :=
  evalCondAt x.cols (fun col len => dataAt r col.offset len) cond

def evalConds (r : Option RmRecord) : Except Error Bool := allOf (x.evalCond r) x.fedConds

/-- The loop of both calls: on to the first record that satisfies the conditions. -/
def search : Nat → RmScan → Option Rid → Except Stop State
  | 0, _, _ => .error .outOfFuel
  | turns + 1, scan, rid => do
    if scan.isEnd then return ⟨some scan, rid⟩
    let r ← reading x.fh (getRecord scan.rid)
    if ← x.evalConds r then return ⟨some scan, some scan.rid⟩
    let following ← reading x.fh scan.next
    search turns following (some scan.rid)

def beginTuple (fuel : Nat) (s : State) : Except Stop State := do
  let scan ← reading x.fh RmScan.new
  x.search fuel scan s.rid

def nextTuple (fuel : Nat) (s : State) : Except Stop State :=
  match s.scan with
  | none => .error (.thrown .assertion)
  | some scan => do
    let following ← reading x.fh scan.next
    x.search fuel following s.rid

def isEnd (s : State) : Except Error Bool :=
  match s.scan with
  | none => .error .undefined
  | some scan => .ok scan.isEnd

def next (s : State) : Except Error (Option RmRecord) :=
  match s.rid with
  | none => .error .undefined
  | some rid => reading x.fh (getRecord rid)

def executor : Executor where
  State := State
  fresh := ⟨none, none⟩
  tupleLen := x.len
  cols := some x.cols
  beginTuple := x.beginTuple
  nextTuple := x.nextTuple
  isEnd := isEnd
  rid s := s.rid
  next := x.next

end SeqScanExecutor

/-- The constructor of `IndexScanExecutor`; the class has no more than that. -/
def IndexScanExecutor.new (sm : SmManager) (tabName : String) (conds : List Condition) (indexColNames : List String) :
    Except Error Unit := do
  let tab ← sm.db.getTable tabName
  let _ ← tab.getIndexMeta indexColNames
  match sm.fhs tabName, tab.cols.getLast? with
  | none, _ => throw .outOfRange
  | some _, none => throw .undefined
  | some _, some _ =>
    if conds.all fun c => c.lhsCol.tabName = tabName || (!c.isRhsVal && c.rhsCol.tabName = tabName) then return ()
    else throw .assertion

structure NestedLoopJoinExecutor where
  left : Executor
  right : Executor
  len : Nat
  cols : List ColMeta
  fedConds : List Condition

namespace NestedLoopJoinExecutor

def new (left right : Executor) (conds : List Condition) : Except Error NestedLoopJoinExecutor :=
  match left.cols, right.cols with
  | some leftCols, some rightCols => .ok {
      left
      right
      len := (left.tupleLen + right.tupleLen) % 18446744073709551616
      cols := leftCols ++ rightCols.map fun col => { col with offset := wrapInt (col.offset + left.tupleLen) }
      fedConds := conds }
  | _, _ => .error .undefined

variable (x : NestedLoopJoinExecutor)

structure State where
  left : x.left.State
  right : x.right.State
  isend : Bool

/-- A column belongs to the left child if it starts before the end of the left tuple. -/
def evalCond (leftRec rightRec : Option RmRecord) (cond : Condition) : Except Error Bool :=
  evalCondAt x.cols (fun col len =>
    if sizeT col.offset < x.left.tupleLen then dataAt leftRec col.offset len
    else dataAt rightRec (col.offset - x.left.tupleLen) len) cond

def evalConds (leftRec rightRec : Option RmRecord) : Except Error Bool := allOf (x.evalCond leftRec rightRec) x.fedConds

/-- The inner loop: the right child moves on to a tuple that matches the left one. -/
def matchRight (fuel : Nat) (l : x.left.State) : Nat → x.right.State → Except Stop (Bool × x.right.State)
  | 0, _ => .error .outOfFuel
  | turns + 1, r => do
    if ← x.right.isEnd r then return (false, r)
    let leftRec ← x.left.next l
    let rightRec ← x.right.next r
    if ← x.evalConds leftRec rightRec then return (true, r)
    let r ← x.right.nextTuple fuel r
    matchRight fuel l turns r

/-- The outer loop of `beginTuple`; the right child has already been started. -/
def beginLoop (fuel : Nat) : Nat → x.left.State → x.right.State → Except Stop (Bool × x.left.State × x.right.State)
  | 0, _, _ => .error .outOfFuel
  | turns + 1, l, r => do
    if ← x.left.isEnd l then return (false, l, r)
    let (found, r) ← x.matchRight fuel l fuel r
    if found then return (true, l, r)
    let l ← x.left.nextTuple fuel l
    if ← x.left.isEnd l then beginLoop fuel turns l r
    else do
      let r ← x.right.beginTuple fuel r
      beginLoop fuel turns l r

/-- A match leaves `isend` as it was. -/
def beginTuple (fuel : Nat) (s : x.State) : Except Stop x.State := do
  let l ← x.left.beginTuple fuel s.left
  if ← x.left.isEnd l then return ⟨l, s.right, ← x.left.isEnd l⟩
  let r ← x.right.beginTuple fuel s.right
  let (found, l, r) ← x.beginLoop fuel fuel l r
  if found then return ⟨l, r, s.isend⟩
  return ⟨l, r, ← x.left.isEnd l⟩

/-- The outer loop of `nextTuple`. -/
def nextLoop (fuel : Nat) : Nat → x.left.State → x.right.State → Except Stop (Bool × x.left.State × x.right.State)
  | 0, _, _ => .error .outOfFuel
  | turns + 1, l, r => do
    if ← x.left.isEnd l then return (false, l, r)
    let r ← x.right.beginTuple fuel r
    let (found, r) ← x.matchRight fuel l fuel r
    if found then return (true, l, r)
    let l ← x.left.nextTuple fuel l
    nextLoop fuel turns l r

def nextTuple (fuel : Nat) (s : x.State) : Except Stop x.State := do
  if ← x.left.isEnd s.left then throw (.thrown .assertion)
  else do
    let r ← x.right.nextTuple fuel s.right
    let (found, r) ← x.matchRight fuel s.left fuel r
    if found then return ⟨s.left, r, s.isend⟩
    let l ← x.left.nextTuple fuel s.left
    let (found, l, r) ← x.nextLoop fuel fuel l r
    if found then return ⟨l, r, s.isend⟩
    return ⟨l, r, true⟩

def next (s : x.State) : Except Error (Option RmRecord) := do
  let leftRec ← x.left.next s.left
  let rightRec ← x.right.next s.right
  if intMax < x.len then throw .badArrayLength
  let left ← dataAt leftRec 0 x.left.tupleLen
  let right ← dataAt rightRec 0 x.right.tupleLen
  return some (left ++ right)

def executor : Executor where
  State := x.State
  fresh := ⟨x.left.fresh, x.right.fresh, false⟩
  tupleLen := x.len
  cols := some x.cols
  beginTuple := x.beginTuple
  nextTuple := x.nextTuple
  isEnd s := .ok s.isend
  rid _ := none
  next := x.next

end NestedLoopJoinExecutor

structure ProjectionExecutor where
  prev : Executor
  /-- The columns of `prev_` at `sel_idxs_`. -/
  selected : List ColMeta

namespace ProjectionExecutor

def new (prev : Executor) (selCols : List TabCol) : Except Error ProjectionExecutor :=
  match prev.cols with
  | none => .error .undefined
  | some prevCols =>
    match selCols.mapM (getCol prevCols) with
    | .ok selected => .ok ⟨prev, selected⟩
    | .error e => .error e

/-- The chosen columns, one behind the other from `currOffset` on, and where they end. -/
def place : Nat → List ColMeta → List ColMeta × Nat
  | currOffset, [] => ([], currOffset)
  | currOffset, col :: rest =>
    let (cols, len) := place ((currOffset + sizeT col.len) % 18446744073709551616) rest
    ({ col with offset := wrapInt currOffset } :: cols, len)

variable (x : ProjectionExecutor)

def cols : List ColMeta := (place 0 x.selected).1

def len : Nat := (place 0 x.selected).2

def next (s : x.prev.State) : Except Error (Option RmRecord) := do
  let prevRec ← x.prev.next s
  if intMax < x.len then throw .badArrayLength
  let parts ← x.selected.mapM fun col => dataAt prevRec col.offset col.len
  return some parts.flatten

def executor : Executor where
  State := x.prev.State
  fresh := x.prev.fresh
  tupleLen := x.len
  cols := some x.cols
  beginTuple := x.prev.beginTuple
  nextTuple := x.prev.nextTuple
  isEnd := x.prev.isEnd
  rid _ := none
  next := x.next

end ProjectionExecutor

namespace Portal

/-- A null plan gives a null executor, which nothing can use. -/
def convertPlanExecutor (sm : SmManager) : Plan → Except Error Executor
  | .null => .error .undefined
  | .scan p =>
    match p.tag with
    | .seqScan =>
      match SeqScanExecutor.new sm p.tabName p.conds with
      | .ok x => .ok x.executor
      | .error e => .error e
    | .indexScan =>
      match IndexScanExecutor.new sm p.tabName p.conds p.indexColNames with
      | .ok _ => .ok .stub
      | .error e => .error e
  | .join left right conds =>
    match convertPlanExecutor sm left, convertPlanExecutor sm right with
    | .error e, _ => .error e
    | .ok _, .error e => .error e
    | .ok l, .ok r =>
      match NestedLoopJoinExecutor.new l r conds with
      | .ok x => .ok x.executor
      | .error e => .error e
  | .projection subplan selCols =>
    match convertPlanExecutor sm subplan with
    | .error e => .error e
    | .ok prev =>
      match ProjectionExecutor.new prev selCols with
      | .ok x => .ok x.executor
      | .error e => .error e
  | .sort subplan _ _ =>
    match convertPlanExecutor sm subplan with
    | .error e => .error e
    | .ok _ => .ok .stub

end Portal

end Rmdb
