import Rmdb.System.Meta

namespace Rmdb

/-- The bytes at `data + offset`; outside the record nothing is promised. -/
def RmRecord.bytesAt (r : RmRecord) (offset len : Int) : Except Error (List UInt8) :=
  if 0 ≤ offset ∧ 0 ≤ len ∧ offset + len ≤ r.length then .ok ((r.drop offset.toNat).take len.toNat)
  else .error .undefined

/-- `get_col` of an executor. -/
def getCol (recCols : List ColMeta) (target : TabCol) : Except Error ColMeta :=
  match recCols.find? fun col => col.tabName = target.tabName ∧ col.name = target.colName with
  | some col => .ok col
  | none => .error (.columnNotFound (target.tabName ++ "." ++ target.colName))

/-- The bytes an `ix_compare` of columns of this type looks at. -/
def compareLen (type : ColType) (len : Int) : Int :=
  match type with
  | .int => 4
  | .float => 4
  | .string => len

/-- A comparison written with `<` and `>`. -/
def threeWay (less greater : Prop) [Decidable less] [Decidable greater] : Int :=
  if less then -1 else if greater then 1 else 0

/-- Whether the float with these bits is not a number. -/
def floatNan (bits : Int) : Prop := 2139095040 < bits % 2147483648

instance (bits : Int) : Decidable (floatNan bits) := inferInstanceAs (Decidable (_ < _))

/-- Floats that are numbers are ordered by sign and magnitude of their bits. -/
def floatRank (bits : Int) : Int := if bits < 0 then -(bits % 2147483648) else bits % 2147483648

/-- The `<` of two floats, given by their bits. -/
def floatLess (a b : Int) : Prop := ¬floatNan a ∧ ¬floatNan b ∧ floatRank a < floatRank b

instance (a b : Int) : Decidable (floatLess a b) := inferInstanceAs (Decidable (_ ∧ _))

def memcmp : List UInt8 → List UInt8 → Int
  | a :: as, b :: bs => if a = b then memcmp as bs else threeWay (a < b) (b < a)
  | _, _ => 0

/-- `ix_compare` of the bytes of two values. -/
def ixCompare (a b : List UInt8) : ColType → Int
  | .int =>
    threeWay (decodeInt (RmRecord.ptr a) < decodeInt (RmRecord.ptr b))
      (decodeInt (RmRecord.ptr b) < decodeInt (RmRecord.ptr a))
  | .float => threeWay (floatLess (decodeInt (RmRecord.ptr a)) (decodeInt (RmRecord.ptr b)))
      (floatLess (decodeInt (RmRecord.ptr b)) (decodeInt (RmRecord.ptr a)))
  | .string => memcmp a b

/-- What `eval_cond` of a scan and of a join have in common; they differ in where the
bytes of a column are. `ix_compare` reads them, when both columns have been found. -/
def evalCondAt (recCols : List ColMeta) (bytes : ColMeta → Int → Except Error (List UInt8)) (cond : Condition) :
    Except Error Bool := do
  let lhsCol ← getCol recCols cond.lhsCol
  let len := compareLen lhsCol.type lhsCol.len
  let rhsData ←
    if cond.isRhsVal then
      match cond.rhsVal.raw with
      | none => throw .undefined
      | some raw => pure (raw.bytesAt 0 len)
    else do
      let rhsCol ← getCol recCols cond.rhsCol
      pure (bytes rhsCol len)
  let lhs ← bytes lhsCol len
  let rhs ← rhsData
  return cond.op.compare (ixCompare lhs rhs lhsCol.type) 0

/-- `std::all_of`: later conditions are not looked at. -/
def allOf (test : Condition → Except Error Bool) : List Condition → Except Error Bool
  | [] => .ok true
  | cond :: conds => do
    if ← test cond then allOf test conds else return false

end Rmdb
