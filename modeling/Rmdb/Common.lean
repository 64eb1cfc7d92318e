import Mathlib.Order.Defs.LinearOrder
import Rmdb.Errors
import Rmdb.Record.Layout

namespace Rmdb

inductive ColType
  | int
  | float
  | string
  deriving DecidableEq, Repr

namespace ColType

/-- The value of the enumerator. -/
def code : ColType → Int
  | .int => 0
  | .float => 1
  | .string => 2

/-- The enumerator of a value; other values name none. -/
def ofCode (v : Int) : Option ColType :=
  if v = 0 then some .int else if v = 1 then some .float else if v = 2 then some .string else none

@[simp] theorem ofCode_code (type : ColType) : ofCode type.code = some type := by
  cases type <;> rfl

end ColType

def coltype2str : ColType → String
  | .int => "INT"
  | .float => "FLOAT"
  | .string => "STRING"

structure TabCol where
  tabName : String
  colName : String
  deriving DecidableEq, Repr

/-- What `set_int`, `set_float` and `set_str` store. A float is its bit pattern. -/
inductive Datum
  | int (v : Int)
  | float (bits : UInt32)
  | str (s : List UInt8)
  deriving DecidableEq

/-- A `Value`; `raw` is null until `init_raw`. -/
structure Value where
  data : Datum
  raw : Option RmRecord
  deriving DecidableEq

namespace Value

def type (v : Value) : ColType :=
  match v.data with
  | .int _ => .int
  | .float _ => .float
  | .str _ => .string

/-- The bytes `init_raw` stores. -/
def encode (v : Value) (len : Int) : Except Error RmRecord :=
  match v.data with
  | .int i => if len = 4 then .ok ((List.range 4).map (encodeInt i)) else .error .assertion
  | .float bits => if len = 4 then .ok ((List.range 4).map (encodeInt bits.toNat)) else .error .assertion
  | .str s =>
    if len < s.length then .error .stringOverflow
    else .ok (s ++ List.replicate (len.toNat - s.length) 0)

def initRaw (v : Value) (len : Int) : Except Error Value :=
  match v.raw with
  | some _ => .error .assertion
  | none => if len < 0 then .error .badArrayLength else (v.encode len).map fun raw => { v with raw := some raw }

end Value

inductive CompOp
  | eq
  | ne
  | lt
  | gt
  | le
  | ge
  deriving DecidableEq, Repr

/-- What an operator says about two values of a column type. -/
def CompOp.compare {V : Type} [LinearOrder V] (op : CompOp) (a b : V) : Bool :=
  match op with
  | .eq => a = b
  | .ne => a ≠ b
  | .lt => a < b
  | .gt => b < a
  | .le => a ≤ b
  | .ge => b ≤ a

/-- A condition; the side of `rhs_col` and `rhs_val` that is not used keeps its default. -/
structure Condition where
  lhsCol : TabCol
  op : CompOp
  isRhsVal : Bool
  rhsCol : TabCol
  rhsVal : Value
  deriving DecidableEq

structure SetClause where
  lhs : TabCol
  rhs : Value

end Rmdb
