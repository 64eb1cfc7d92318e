import Mathlib.Data.Prod.Lex
import Rmdb.Execution.Comparison

namespace Rmdb

/-- The loop of the multi-column `ix_compare` from `offset` on. It stays inside the keys, so the `int` does not
overflow. -/
def ixCompareFrom (a b : RmRecord) : List ColType → List Int → Int → Except Error Int
  | [], _, _ => .ok 0
  | _ :: _, [], _ => .error .undefined
  | type :: types, len :: lens, offset => do
    let x ← a.bytesAt offset (compareLen type len)
    let y ← b.bytesAt offset (compareLen type len)
    let res := ixCompare x y type
    if res ≠ 0 then return res else ixCompareFrom a b types lens (offset + len)

/-- `ix_compare` of two keys. -/
def ixCompareKeys (a b : RmRecord) (colTypes : List ColType) (colLens : List Int) : Except Error Int :=
  ixCompareFrom a b colTypes colLens 0

/-! The values of a key, and their order. -/

/-- A column of a key: an INT or a CHAR of some length. -/
inductive KeyColumn
  | int
  | char (k : Nat)
  deriving DecidableEq, Repr

namespace KeyColumn

def type : KeyColumn → ColType
  | int => .int
  | char _ => .string

def len : KeyColumn → Int
  | int => 4
  | char k => k

/-- An `int`, or a string without NUL that fits. -/
def Val : KeyColumn → Type
  | int => {i : Int // IsInt i}
  | char k => {s : List UInt8 // 0 ∉ s ∧ s.length ≤ k}

/-- Integers by size, strings byte by byte. -/
instance : (c : KeyColumn) → LinearOrder c.Val
  | int => inferInstanceAs (LinearOrder {i : Int // IsInt i})
  | char k => LinearOrder.lift' (fun s : {s : List UInt8 // 0 ∉ s ∧ s.length ≤ k} => byteOrder s.1)
      fun _ _ same => Subtype.ext (byteOrder_inj.mp same)

/-- What `set_int` or `set_str` makes of it. -/
def value : (c : KeyColumn) → c.Val → Value
  | int, i => ⟨.int i.1, none⟩
  | char _, s => ⟨.str s.1, none⟩

/-- The bytes of a value in its column. -/
def raw : (c : KeyColumn) → c.Val → RmRecord
  | int, i => (List.range 4).map (encodeInt i.1)
  | char k, s => s.1.takeD k 0

theorem compareLen_eq (c : KeyColumn) : compareLen c.type c.len = c.len := by
  cases c <;> rfl

theorem len_nonneg (c : KeyColumn) : 0 ≤ c.len := by
  cases c with
  | int => decide
  | char k => exact Int.natCast_nonneg k

theorem raw_length (c : KeyColumn) (v : c.Val) : ((c.raw v).length : Int) = c.len := by
  cases c with
  | int => rfl
  | char k => exact congrArg Nat.cast (List.takeD_length _ _ _)

theorem initRaw_value (c : KeyColumn) (v : c.Val) :
    (c.value v).initRaw c.len = .ok { c.value v with raw := some (c.raw v) } := by
  cases c with
  | int => rfl
  | char k =>
    have fits : v.1.length ≤ k := v.2.2
    have encoded : ((char k).value v).encode k = .ok ((char k).raw v) := by
      change (if (k : Int) < v.1.length then _ else _) = _
      rw [if_neg (by omega)]
      exact congrArg Except.ok (takeD_eq_append fits).symm
    rw [Value.initRaw, if_neg (by have := (char k).len_nonneg; omega)]
    change (((char k).value v).encode k).map _ = _
    rw [encoded]
    rfl

/-- One column: the sign of `ix_compare` is the order of the values. -/
theorem ixCompare_raw (c : KeyColumn) (v w : c.Val) : Orders (ixCompare (c.raw v) (c.raw w) c.type) v w := by
  cases c with
  | int =>
    change Orders (threeWay (decodeInt (RmRecord.ptr _) < decodeInt (RmRecord.ptr _)) _) v.1 w.1
    unfold raw
    rw [decodeInt_range, decodeInt_range, wrapInt_of_isInt v.2, wrapInt_of_isInt w.2]
    exact threeWay_orders v.1 w.1
  | char k => exact memcmp_takeD v.2.1 w.2.1 v.2.2 w.2.2

end KeyColumn

/-- The tuples of values for a list of columns. -/
def KeyTuple : List KeyColumn → Type
  | [] => PUnit
  | c :: cols => c.Val ×ₗ KeyTuple cols

namespace KeyTuple

/-- The first columns in which two tuples differ decide. -/
instance linearOrder : (cols : List KeyColumn) → LinearOrder (KeyTuple cols)
  | [] => inferInstanceAs (LinearOrder PUnit)
  | c :: cols => @Prod.Lex.instLinearOrder c.Val (KeyTuple cols) _ (linearOrder cols)

/-- The bytes `init_raw` makes of the values, one column behind the other. -/
def key : (cols : List KeyColumn) → KeyTuple cols → Except Error RmRecord
  | [], _ => .ok []
  | c :: cols, t => do
    let v ← (c.value (ofLex t).1).initRaw c.len
    match v.raw with
    | none => throw .undefined
    | some raw =>
      let rest ← key cols (ofLex t).2
      return raw ++ rest

theorem key_cons {c : KeyColumn} {cols : List KeyColumn} (v : c.Val) (t : KeyTuple cols) :
    key (c :: cols) (toLex (v, t)) = (key cols t).map (c.raw v ++ ·) := by
  change ((c.value v).initRaw c.len >>= _) = _
  rw [c.initRaw_value, ok_bind]
  change (key cols t >>= _) = _
  cases key cols t <;> rfl

theorem bytesAt_front (front raw rest : RmRecord) {len : Int} (width : (raw.length : Int) = len) :
    (front ++ (raw ++ rest)).bytesAt front.length len = .ok raw := by
  refine bytesAt_ok_iff.mpr ⟨⟨Int.natCast_nonneg _, by omega, ?_⟩, ?_⟩
  · simp only [List.length_append]
    omega
  · rw [Int.toNat_natCast, List.drop_left, ← width, Int.toNat_natCast, List.take_left]

/-- The loop behind any columns that were equal: `front` and `front'` are their bytes. -/
theorem ixCompareFrom_key {cols : List KeyColumn} (t u : KeyTuple cols) : ∃ a b, t.key = .ok a ∧ u.key = .ok b ∧
    ∀ front front' : RmRecord, front.length = front'.length → ∃ d,
      ixCompareFrom (front ++ a) (front' ++ b) (cols.map KeyColumn.type) (cols.map KeyColumn.len) front.length = .ok d ∧
        Orders d t u := by
  induction cols with
  | nil => exact ⟨[], [], rfl, rfl, fun front front' _ => ⟨0, rfl, orders_self_iff.mpr rfl⟩⟩
  | cons c cols ih =>
    obtain ⟨v, t⟩ := t
    obtain ⟨w, u⟩ := u
    obtain ⟨a, b, left, right, rest⟩ := ih t u
    refine ⟨c.raw v ++ a, c.raw w ++ b, ?_, ?_, ?_⟩
    · exact (key_cons v t).trans (by rw [left]; rfl)
    · exact (key_cons w u).trans (by rw [right]; rfl)
    · intro front front' same
      have width := c.raw_length v
      have width' := c.raw_length w
      have orders := c.ixCompare_raw v w
      rw [List.map_cons, List.map_cons, ixCompareFrom, c.compareLen_eq, bytesAt_front _ _ _ width, ok_bind, same,
        bytesAt_front _ _ _ width', ok_bind]
      by_cases differ : ixCompare (c.raw v) (c.raw w) c.type ≠ 0
      · exact ⟨_, if_pos differ, orders.head differ⟩
      · obtain ⟨d, run, later⟩ := rest (front ++ c.raw v) (front' ++ c.raw w) (by simp only [List.length_append]; omega)
        rw [List.append_assoc, List.append_assoc, List.length_append, Nat.cast_add, width, same] at run
        have equal : v = w := orders.eq_zero_iff.mp (not_not.mp differ)
        subst equal
        exact ⟨d, (if_neg differ).trans run, later.tail v⟩

end KeyTuple

/-- The multi-column `ix_compare` of two keys is the lexicographic order of their values, and equal keys are those
of equal tuples. -/
theorem ix_compare_lexicographic (cols : List KeyColumn) (t u : KeyTuple cols) : ∃ a b d, t.key = .ok a ∧
    u.key = .ok b ∧ ixCompareKeys a b (cols.map KeyColumn.type) (cols.map KeyColumn.len) = .ok d ∧
      (d < 0 ↔ t < u) ∧ (0 < d ↔ u < t) ∧ (d = 0 ↔ t = u) := by
  obtain ⟨a, b, left, right, all⟩ := KeyTuple.ixCompareFrom_key t u
  obtain ⟨d, run, orders⟩ := all [] [] rfl
  exact ⟨a, b, d, left, right, run, orders.1, orders.2, orders.eq_zero_iff⟩

/-- `(-1, 'ab')` and `(-1, 'b')`. -/
example : ixCompareKeys [255, 255, 255, 255, 97, 98, 0] [255, 255, 255, 255, 98, 0, 0] [.int, .string] [4, 3] =
    .ok (-1) := by
  decide

end Rmdb
