import Rmdb.Execution.Insert
import Rmdb.Kit.Padded

namespace Rmdb

section
variable {a b a' b' : List UInt8} {s t : List UInt8} {n : Nat}

theorem memcmp_self (a : List UInt8) : memcmp a a = 0 := by
  induction a with
  | nil => rfl
  | cons x a ih => rwa [memcmp, if_pos rfl]

/-- Behind equal bytes the rest decides. -/
theorem memcmp_append (same : a.length = b.length) :
    memcmp (a ++ a') (b ++ b') = if a = b then memcmp a' b' else memcmp a b := by
  induction a generalizing b with
  | nil =>
    cases b with
    | nil => rfl
    | cons y b => cases same
  | cons x a ih =>
    cases b with
    | nil => cases same
    | cons y b =>
      rw [List.cons_append, List.cons_append, memcmp, memcmp, ih (Nat.succ.inj same)]
      by_cases first : x = y <;> simp [first]

theorem memcmp_swap (a b : List UInt8) : memcmp b a = -memcmp a b := by
  induction a generalizing b with
  | nil => cases b <;> rfl
  | cons x a ih =>
    cases b with
    | nil => rfl
    | cons y b =>
      rw [memcmp, memcmp]
      by_cases first : x = y
      · rw [if_pos first, if_pos first.symm, ih]
      · rw [if_neg first, if_neg (Ne.symm first), threeWay, threeWay]
        rcases UInt8.lt_or_lt_of_ne first with less | less
        · simp [less, UInt8.lt_asymm less]
        · simp [less, UInt8.lt_asymm less]

theorem memcmp_eq_zero_iff (same : a.length = b.length) : memcmp a b = 0 ↔ a = b := by
  constructor
  · intro zero
    induction a generalizing b with
    | nil => exact (List.length_eq_zero_iff.mp same.symm).symm
    | cons x a ih =>
      cases b with
      | nil => cases same
      | cons y b =>
        rw [memcmp] at zero
        split at zero
        · rename_i first
          rw [first, ih (Nat.succ.inj same) zero]
        · rename_i first
          unfold threeWay at zero
          rcases UInt8.lt_or_lt_of_ne first with less | less
          · simp [less] at zero
          · simp [less, UInt8.lt_asymm less] at zero
  · rintro rfl
    exact memcmp_self a

/-- The strings of a column are ordered byte by byte. -/
def byteOrder (s : List UInt8) : List Nat := s.map UInt8.toNat

theorem byteOrder_inj : byteOrder s = byteOrder t ↔ s = t :=
  (List.map_injective_iff.mpr fun _ _ => UInt8.toNat.inj).eq_iff

/-- Where two strings differ on their first `n` bytes, `memcmp` over these orders them. -/
theorem memcmp_orders (clean : 0 ∉ s) (clean' : 0 ∉ t) (differ : s.takeD n 0 ≠ t.takeD n 0) :
    Orders (memcmp (s.takeD n 0) (t.takeD n 0)) (byteOrder s) (byteOrder t) := by
  induction n generalizing s t with
  | zero => exact absurd rfl differ
  | succ n ih =>
    rw [List.takeD_succ, List.takeD_succ] at differ ⊢
    cases s with
    | nil =>
      cases t with
      | nil => exact absurd rfl differ
      | cons y t =>
        have nonzero : 0 ≠ y := fun zero => clean' (zero ▸ List.mem_cons_self)
        have above : 0 < y := UInt8.pos_iff_ne_zero.mpr nonzero.symm
        simp [memcmp, nonzero, threeWay, above, Orders, byteOrder]
    | cons x s =>
      rw [List.mem_cons, not_or] at clean
      cases t with
      | nil =>
        have above : 0 < x := UInt8.pos_iff_ne_zero.mpr (Ne.symm clean.1)
        simp [memcmp, Ne.symm clean.1, threeWay, above, Orders, byteOrder]
      | cons y t =>
        rw [List.mem_cons, not_or] at clean'
        simp only [List.head?_cons, Option.getD_some, List.tail_cons] at differ ⊢
        rw [memcmp]
        by_cases first : x = y
        · subst first
          rw [if_pos rfl]
          exact (ih clean.2 clean'.2 fun same => differ (by rw [same])).cons x.toNat
        · rw [if_neg first, threeWay]
          rcases UInt8.lt_or_lt_of_ne first with below | above
          · rw [if_pos below]
            exact orders_cons_lt below
          · rw [if_neg (UInt8.lt_asymm above), if_pos above]
            exact (orders_cons_lt above).neg

/-- Two strings that fit are ordered by `memcmp` over the whole width. -/
theorem memcmp_takeD (clean : 0 ∉ s) (clean' : 0 ∉ t) (small : s.length ≤ n) (small' : t.length ≤ n) :
    Orders (memcmp (s.takeD n 0) (t.takeD n 0)) (byteOrder s) (byteOrder t) := by
  by_cases window : s.takeD n 0 = t.takeD n 0
  · have same : s = t := by
      rcases (takeD_eq_iff clean clean' small).mp window with same | ⟨full, isPrefix⟩
      · exact same
      · exact isPrefix.eq_of_length_le (by omega)
    rw [same]
    exact orders_self_iff.mpr (memcmp_self _)
  · exact memcmp_orders clean clean' window

end

section
variable {V : Type} [LinearOrder V] {u v : V} {d : Int} {x y : Except Error Int}

theorem threeWay_orders (u v : V) : Orders (threeWay (u < v) (v < u)) u v := by
  unfold threeWay
  rcases lt_trichotomy u v with less | rfl | greater
  · simp [Orders, less, less.not_gt]
  · simp [Orders]
  · simp [Orders, greater, greater.not_gt]

/-- All operators are right exactly if the sign is. -/
theorem compare_orders_iff : (∀ op : CompOp, op.compare d 0 = op.compare u v) ↔ Orders d u v := by
  constructor
  · intro all
    exact ⟨by simpa [CompOp.compare] using all .lt, by simpa [CompOp.compare] using all .gt⟩
  · intro orders op
    have zero := orders.eq_zero_iff
    obtain ⟨less, greater⟩ := orders
    cases op with
    | eq => simp [CompOp.compare, zero]
    | ne => simp [CompOp.compare, zero]
    | lt => simp [CompOp.compare, less]
    | gt => simp [CompOp.compare, greater]
    | le => simp [CompOp.compare, ← not_lt, greater]
    | ge => simp [CompOp.compare, ← not_lt, less]

theorem map_compare_iff : (∀ op : CompOp, x.map (fun d => op.compare d 0) = .ok (op.compare u v)) ↔
    ∃ d, x = .ok d ∧ Orders d u v := by
  cases x with
  | error e => exact ⟨fun all => (nomatch all .eq), fun ⟨_, run, _⟩ => (nomatch run)⟩
  | ok d =>
    simp only [Except.map, Except.ok.injEq, compare_orders_iff]
    constructor
    · exact fun orders => ⟨d, rfl, orders⟩
    · rintro ⟨_, rfl, orders⟩
      exact orders

theorem swapOp_swapOp (op : CompOp) : swapOp (swapOp op) = op := by
  cases op <;> rfl

/-- Both ways around: what `x` says of two values and `y` of the values exchanged. -/
theorem map_compare_both_iff : (∀ op : CompOp, x.map (fun d => op.compare d 0) = .ok (op.compare u v) ∧
      y.map (fun d => (swapOp op).compare d 0) = x.map (fun d => op.compare d 0)) ↔
    (∃ d, x = .ok d ∧ Orders d u v) ∧ ∃ d, y = .ok d ∧ Orders d v u := by
  rw [← map_compare_iff, ← map_compare_iff]
  constructor
  · intro both
    refine ⟨fun op => (both op).1, fun op => ?_⟩
    obtain ⟨first, second⟩ := both (swapOp op)
    rw [swapOp_swapOp] at second
    rw [second, first, CompOp.compare_swap]
  · intro both op
    refine ⟨both.1 op, ?_⟩
    rw [both.1 op, both.2 (swapOp op), CompOp.compare_swap]

end

/-- What an operator says about two column values, of `int`s or of strings. -/
def CompOp.onValues (op : CompOp) : Datum → Datum → Bool
  | .int i, .int j => op.compare i j
  | .str s, .str t => op.compare (byteOrder s) (byteOrder t)
  | _, _ => false

/-- Where `eval_cond` finds a column. -/
structure Place where
  record : RmRecord
  offset : Int
  col : ColMeta

theorem exists_map_ok {ε α β : Type} {x : Except ε α} {f : α → β} {P : β → Prop} :
    (∃ b, x.map f = .ok b ∧ P b) ↔ ∃ a, x = .ok a ∧ P (f a) := by
  cases x <;> simp [Except.map]

theorem bytesAt_take {r : RmRecord} {offset len n : Int} {raw : List UInt8} (run : r.bytesAt offset len = .ok raw)
    (lower : 0 ≤ n) (upper : n ≤ len) : r.bytesAt offset n = .ok (raw.take n.toNat) := by
  obtain ⟨⟨start, _, fits⟩, rfl⟩ := bytesAt_ok_iff.mp run
  refine bytesAt_ok_iff.mpr ⟨⟨start, lower, by omega⟩, ?_⟩
  rw [List.take_take]
  congr 1
  omega

theorem bytesAt_length {r : RmRecord} {offset len : Int} {raw : List UInt8} (run : r.bytesAt offset len = .ok raw) :
    raw.length = len.toNat := by
  obtain ⟨⟨start, lower, fits⟩, rfl⟩ := bytesAt_ok_iff.mp run
  rw [List.length_take, List.length_drop]
  omega

/-- More bytes are the same bytes and those behind them. -/
theorem bytesAt_append {r : RmRecord} {offset len n : Int} {raw : List UInt8} (run : r.bytesAt offset len = .ok raw)
    (le : len ≤ n) :
    r.bytesAt offset n = (r.bytesAt (offset + len) (n - len)).map (raw ++ ·) := by
  obtain ⟨⟨start, lower, fits⟩, rfl⟩ := bytesAt_ok_iff.mp run
  unfold RmRecord.bytesAt
  by_cases inside : offset + n ≤ r.length
  · rw [if_pos ⟨start, by omega, inside⟩, if_pos ⟨by omega, by omega, by omega⟩, Except.map]
    have front : (offset + len).toNat = offset.toNat + len.toNat := by omega
    have sum : n.toNat = len.toNat + (n - len).toNat := by omega
    rw [front, sum, List.take_add, List.drop_drop]
  · rw [if_neg (by omega), if_neg (by omega)]
    rfl

namespace Place

def bytes (p : Place) (len : Int) : Except Error (List UInt8) := p.record.bytesAt p.offset len

/-- The value in a column: an `int`, or a string without NUL filled up with zeros. -/
def Holds (p : Place) : Datum → Prop
  | .int i => p.col.type = .int ∧ ∃ raw, p.bytes 4 = .ok raw ∧ decodeInt (RmRecord.ptr raw) = i
  | .str s => p.col.type = .string ∧ 0 ∉ s ∧ s.length ≤ p.col.len ∧
      p.bytes p.col.len = .ok (s ++ List.replicate (p.col.len.toNat - s.length) 0)
  | .float _ => False

/-- `ix_compare` as `eval_cond` calls it: over the length of the column on the left. -/
def compare (p q : Place) : Except Error Int := do
  let lhs ← p.bytes (compareLen p.col.type p.col.len)
  let rhs ← q.bytes (compareLen p.col.type p.col.len)
  return ixCompare lhs rhs p.col.type

/-- A narrow column with value `s` against a wider one with value `t`: `s` does not fill its column
and go on in `t`, there are bytes behind it up to the width of the other, and they are zeros if
the values are equal. -/
def Harmless (narrow : Place) (s : List UInt8) (wide : Place) (t : List UInt8) : Prop :=
  ¬(s.length = narrow.col.len ∧ s <+: t ∧ s ≠ t) ∧
    ∃ behind, narrow.record.bytesAt (narrow.offset + narrow.col.len) (wide.col.len - narrow.col.len) = .ok behind ∧
      (s = t → behind = List.replicate (wide.col.len - narrow.col.len).toNat 0)

/-- The difference of the widths does not show. -/
def Comparable (p : Place) (a : Datum) (q : Place) (b : Datum) : Prop :=
  match a, b with
  | .str s, .str t => (p.col.len < q.col.len → p.Harmless s q t) ∧ (q.col.len < p.col.len → q.Harmless t p s)
  | _, _ => True

section
variable {p q : Place} {s t : List UInt8}

theorem Holds.str (holds : p.Holds (.str s)) :
    p.col.type = .string ∧ 0 ∉ s ∧ s.length ≤ p.col.len.toNat ∧ 0 ≤ p.col.len ∧
    p.bytes p.col.len = .ok (s.takeD p.col.len.toNat 0) := by
  obtain ⟨type, clean, small, stored⟩ := holds
  have fits : s.length ≤ p.col.len.toNat := by omega
  refine ⟨type, clean, fits, by omega, ?_⟩
  rw [takeD_eq_append fits, stored]

/-- It is what `select_from` reads from the column. -/
theorem Holds.read {d : Datum} (holds : p.Holds d) :
    QlManager.readColumn p.record { p.col with offset := p.offset } = .ok d := by
  unfold QlManager.readColumn
  cases d with
  | int i =>
    obtain ⟨int, raw, stored, rfl⟩ := holds
    have here : p.record.bytesAt p.offset 4 = .ok raw := stored
    simp only [int, here, Except.map]
  | str s =>
    obtain ⟨string, clean, _, stored⟩ := holds
    have here : p.record.bytesAt p.offset p.col.len = .ok (s ++ List.replicate (p.col.len.toNat - s.length) 0) := stored
    simp only [string, here, Except.map, takeWhile_padded clean]
  | float bits => exact holds.elim

theorem compare_string (string : p.col.type = .string) : p.compare q = (do
    let lhs ← p.bytes p.col.len
    let rhs ← q.bytes p.col.len
    return memcmp lhs rhs) := by
  unfold compare
  rw [string]
  rfl

theorem compare_int {i j : Int} (left : p.Holds (.int i)) (right : q.Holds (.int j)) :
    p.compare q = .ok (threeWay (i < j) (j < i)) := by
  obtain ⟨int, raw, first, rfl⟩ := left
  obtain ⟨_, raw', second, rfl⟩ := right
  unfold compare
  rw [int]
  change (p.bytes 4 >>= fun lhs => q.bytes 4 >>= fun rhs => _) = _
  rw [first, ok_bind, second]
  rfl

variable (left : p.Holds (.str s)) (right : q.Holds (.str t))
include left right

/-- From the narrow side both columns are cut to its width. -/
theorem compare_narrow (width : p.col.len ≤ q.col.len) :
    p.compare q = .ok (memcmp (s.takeD p.col.len.toNat 0) (t.takeD p.col.len.toNat 0)) := by
  obtain ⟨string, _, _, lower, stored⟩ := left.str
  obtain ⟨_, _, _, _, stored'⟩ := right.str
  have cut : q.bytes p.col.len = .ok (t.takeD p.col.len.toNat 0) := by
    rw [bytes, bytesAt_take stored' lower width, take_takeD t (Int.toNat_le_toNat width)]
  rw [compare_string string, stored, ok_bind, cut]
  rfl

/-- From the wide side the bytes behind the narrow column take part. -/
theorem compare_wide (width : p.col.len ≤ q.col.len) :
    q.compare p = (p.record.bytesAt (p.offset + p.col.len) (q.col.len - p.col.len)).map fun behind =>
      if t.takeD p.col.len.toNat 0 = s.takeD p.col.len.toNat 0 then
        memcmp ((t.takeD q.col.len.toNat 0).drop p.col.len.toNat) behind
      else memcmp (t.takeD p.col.len.toNat 0) (s.takeD p.col.len.toNat 0) := by
  obtain ⟨_, _, _, _, stored⟩ := left.str
  obtain ⟨string, _, _, _, stored'⟩ := right.str
  rw [compare_string string, stored', ok_bind, bytes, bytesAt_append stored width]
  cases p.record.bytesAt (p.offset + p.col.len) (q.col.len - p.col.len) with
  | error e => rfl
  | ok behind =>
    have parts : t.takeD q.col.len.toNat 0 =
        t.takeD p.col.len.toNat 0 ++ (t.takeD q.col.len.toNat 0).drop p.col.len.toNat := by
      rw [← take_takeD t (Int.toNat_le_toNat width), List.take_append_drop]
    rw [Except.map, ok_bind, Except.map, ← memcmp_append (by rw [List.takeD_length, List.takeD_length]), ← parts]
    rfl

/-- Columns of one width are compared by value. -/
theorem compare_same (width : p.col.len = q.col.len) :
    ∃ d, p.compare q = .ok d ∧ Orders d (byteOrder s) (byteOrder t) := by
  obtain ⟨_, clean, small, _⟩ := left.str
  obtain ⟨_, clean', small', _⟩ := right.str
  exact ⟨_, compare_narrow left right width.le, memcmp_takeD clean clean' small (by omega)⟩

/-- Columns of different widths are compared by value, from both sides, exactly if the
difference does no harm. -/
theorem compare_both_iff (width : p.col.len < q.col.len) :
    ((∃ d, p.compare q = .ok d ∧ Orders d (byteOrder s) (byteOrder t)) ∧ ∃ d, q.compare p = .ok d ∧
      Orders d (byteOrder t) (byteOrder s)) ↔
      p.Harmless s q t := by
  obtain ⟨_, clean, small, _⟩ := left.str
  obtain ⟨_, clean', _⟩ := right.str
  have window := takeD_eq_iff clean clean' small
  have full : s.length = p.col.len.toNat ↔ (s.length : Int) = p.col.len := by omega
  rw [full] at window
  rw [compare_narrow left right width.le, compare_wide left right width.le, exists_map_ok, Harmless]
  by_cases agree : s.takeD p.col.len.toNat 0 = t.takeD p.col.len.toNat 0
  · -- only equal strings may agree on the narrow width, and then the bytes behind decide
    rw [agree, memcmp_self]
    simp only [if_true]
    by_cases same : s = t
    · subst same
      rw [drop_takeD small]
      refine and_congr (by simp [orders_self_iff]) (exists_congr fun behind => and_congr_right fun run => ?_)
      have length := bytesAt_length run
      have zeros : q.col.len.toNat - p.col.len.toNat = (q.col.len - p.col.len).toNat := by omega
      rw [zeros, orders_self_iff, memcmp_eq_zero_iff (by rw [List.length_replicate, length])]
      simp [eq_comm]
    · refine iff_of_false (fun ⟨⟨d, zero, orders⟩, _⟩ => same ?_) fun ⟨short, _⟩ => short ?_
      · cases zero
        exact byteOrder_inj.mp (orders.eq_zero_iff.mp rfl)
      · obtain ⟨filled, isPrefix⟩ := (window.mp agree).resolve_left same
        exact ⟨filled, isPrefix, same⟩
  · -- the first difference decides, whatever is behind it
    have different : s ≠ t := fun same => agree (window.mpr (Or.inl same))
    have orders := memcmp_orders clean clean' agree
    have orders' := orders.neg
    rw [← memcmp_swap] at orders'
    simp only [Ne.symm agree, if_false]
    constructor
    · rintro ⟨_, behind, run, _⟩
      exact ⟨fun ⟨filled, isPrefix, _⟩ => agree (window.mpr (Or.inr ⟨filled, isPrefix⟩)), behind, run,
        fun same => absurd same different⟩
    · rintro ⟨_, behind, run, _⟩
      exact ⟨⟨_, rfl, orders⟩, behind, run, orders'⟩

end

end Place

/-- A call of `eval_cond`: of a scan with a record, or of a join with one from each child. -/
inductive Evaluator
  | seqScan (x : SeqScanExecutor) (r : RmRecord)
  | nestedLoopJoin (x : NestedLoopJoinExecutor) (l r : RmRecord)

namespace Evaluator

def cols : Evaluator → List ColMeta
  | .seqScan x _ => x.cols
  | .nestedLoopJoin x _ _ => x.cols

def evalCond : Evaluator → Condition → Except Error Bool
  | .seqScan x r, c => x.evalCond (some r) c
  | .nestedLoopJoin x l r, c => x.evalCond (some l) (some r) c

def place : Evaluator → ColMeta → Place
  | .seqScan _ r, col => ⟨r, col.offset, col⟩
  | .nestedLoopJoin x l r, col =>
    if sizeT col.offset < x.left.tupleLen then ⟨l, col.offset, col⟩ else ⟨r, col.offset - x.left.tupleLen, col⟩

variable {e : Evaluator} {c : Condition} {lhs rhs : ColMeta} {a b : Datum}

/-- The condition compares the values with each operator, and so does its mirror image. -/
def ByValue (e : Evaluator) (c : Condition) (a b : Datum) : Prop :=
  ∀ op, e.evalCond { c with op := op } = .ok (op.onValues a b) ∧
    e.evalCond { c with op := op }.mirror = e.evalCond { c with op := op }

theorem place_col (e : Evaluator) (col : ColMeta) : (e.place col).col = col := by
  cases e with
  | seqScan x r => rfl
  | nestedLoopJoin x l r =>
    rw [place]
    split <;> rfl

theorem evalCond_at (e : Evaluator) (c : Condition) :
    e.evalCond c = evalCondAt e.cols (fun col => (e.place col).bytes) c := by
  cases e with
  | seqScan x r => rfl
  | nestedLoopJoin x l r =>
    have bytes : (fun col len => if sizeT col.offset < x.left.tupleLen then dataAt (some l) col.offset len
        else dataAt (some r) (col.offset - x.left.tupleLen) len) =
        fun col => ((nestedLoopJoin x l r).place col).bytes := by
      funext col len
      rw [place]
      split <;> rfl
    rw [evalCond, NestedLoopJoinExecutor.evalCond, bytes]
    rfl

theorem evalCond_columns (left : getCol e.cols c.lhsCol = .ok lhs) (column : c.isRhsVal = false)
    (right : getCol e.cols c.rhsCol = .ok rhs) :
    e.evalCond c = ((e.place lhs).compare (e.place rhs)).map fun d => c.op.compare d 0 := by
  rw [evalCond_at, evalCondAt_columns left column right, Place.compare, e.place_col lhs]
  cases (e.place lhs).bytes (compareLen lhs.type lhs.len) with
  | error e => rfl
  | ok x =>
    rw [ok_bind, ok_bind]
    cases (e.place rhs).bytes (compareLen lhs.type lhs.len) <;> rfl

section
variable (column : c.isRhsVal = false) (left : getCol e.cols c.lhsCol = .ok lhs)
  (right : getCol e.cols c.rhsCol = .ok rhs)
include column left right

/-- Both sides in terms of the comparison of the two places. -/
theorem byValue_iff {V : Type} [LinearOrder V] {u v : V} (values : ∀ op : CompOp, op.onValues a b = op.compare u v) :
    e.ByValue c a b ↔ (∃ d, (e.place lhs).compare (e.place rhs) = .ok d ∧ Orders d u v) ∧
      ∃ d, (e.place rhs).compare (e.place lhs) = .ok d ∧ Orders d v u := by
  rw [← map_compare_both_iff]
  refine forall_congr' fun op => ?_
  have straight : e.evalCond { c with op := op } = ((e.place lhs).compare (e.place rhs)).map fun d => op.compare d 0 :=
    evalCond_columns left column right
  have turned : e.evalCond { c with op := op }.mirror =
      ((e.place rhs).compare (e.place lhs)).map fun d => (swapOp op).compare d 0 :=
    evalCond_columns right column left
  rw [straight, turned, values]

/-- A comparison of two columns is by value and agrees with its mirror image exactly if the
columns hold `int`s, or strings for which a difference of the declared lengths does not show:
`ix_compare` looks at the length of the left column on both sides. -/
theorem eval_cond_by_value_iff (sameType : lhs.type = rhs.type) (holdsLeft : (e.place lhs).Holds a)
    (holdsRight : (e.place rhs).Holds b) :
    e.ByValue c a b ↔ (e.place lhs).Comparable a (e.place rhs) b := by
  have type := congrArg ColMeta.type (e.place_col lhs)
  have type' := congrArg ColMeta.type (e.place_col rhs)
  cases a with
  | int i =>
    cases b with
    | int j =>
      refine iff_of_true ((byValue_iff column left right fun op => rfl).mpr ⟨?_, ?_⟩) trivial
      · exact ⟨_, Place.compare_int holdsLeft holdsRight, threeWay_orders i j⟩
      · exact ⟨_, Place.compare_int holdsRight holdsLeft, threeWay_orders j i⟩
    | str t =>
      rw [← type, ← type', holdsLeft.1, holdsRight.1] at sameType
      cases sameType
    | float bits => exact holdsRight.elim
  | str s =>
    cases b with
    | int j =>
      rw [← type, ← type', holdsLeft.1, holdsRight.1] at sameType
      cases sameType
    | str t =>
      rw [byValue_iff column left right fun op => rfl, Place.Comparable]
      rcases lt_trichotomy (e.place lhs).col.len (e.place rhs).col.len with narrow | same | wide
      · rw [Place.compare_both_iff holdsLeft holdsRight narrow]
        simp [narrow, narrow.not_gt]
      · refine iff_of_true ⟨Place.compare_same holdsLeft holdsRight same,
          Place.compare_same holdsRight holdsLeft same.symm⟩ ?_
        simp [same]
      · rw [and_comm, Place.compare_both_iff holdsRight holdsLeft wide]
        simp [wide, wide.not_gt]
    | float bits => exact holdsRight.elim
  | float bits => exact holdsLeft.elim

end

/-- The table `t (a char(4), b char(8))`. -/
def widthTable : TabMeta := ⟨"t", [⟨"t", "a", .string, 4, 0, false⟩, ⟨"t", "b", .string, 8, 4, false⟩], []⟩

def widthSm : SmManager := ⟨⟨"d", [("t", widthTable)]⟩, fun _ => some ⟨⟨3, .create 12⟩, .blank 0⟩⟩

/-- `a = b`. -/
def compareAB : Condition := ⟨⟨"t", "a"⟩, .eq, false, ⟨"t", "b"⟩, ⟨.int 0, none⟩⟩

/-- `'ab'` and `'abc'` differ inside the narrow column. -/
theorem eval_cond_by_value_short : ∃ x, SeqScanExecutor.new widthSm "t" [compareAB] = .ok x ∧
    (seqScan x [97, 98, 0, 0, 97, 98, 99, 0, 0, 0, 0, 0]).ByValue compareAB (.str [97, 98]) (.str [97, 98, 99]) := by
  refine ⟨_, rfl, (@eval_cond_by_value_iff _ _ ⟨"t", "a", .string, 4, 0, false⟩ ⟨"t", "b", .string, 8, 4, false⟩ _ _
    rfl rfl rfl rfl ?_ ?_).mpr ⟨?_, ?_⟩⟩
  · exact ⟨rfl, by decide, by decide, rfl⟩
  · exact ⟨rfl, by decide, by decide, rfl⟩
  · exact fun _ => ⟨fun ⟨filled, _⟩ => absurd filled (by decide), [97, 98, 99, 0], rfl, by decide⟩
  · exact fun wide => absurd wide (by decide)

/-- `'abcd'` fills the narrow column and goes on in `'abcdefgh'`: they are equal, and the other
way around they are not. -/
theorem eval_cond_cut : Analyze.checkClause widthSm.db ["t"] (Analyze.getClause [⟨⟨"t", "a"⟩, .eq, .col ⟨"t", "b"⟩⟩]) =
    .ok [compareAB] ∧
    ∃ x, SeqScanExecutor.new widthSm "t" [compareAB] = .ok x ∧
      let e := seqScan x [97, 98, 99, 100, 97, 98, 99, 100, 101, 102, 103, 104]
      (e.place ⟨"t", "a", .string, 4, 0, false⟩).Holds (.str [97, 98, 99, 100]) ∧
      (e.place ⟨"t", "b", .string, 8, 4, false⟩).Holds (.str [97, 98, 99, 100, 101, 102, 103, 104]) ∧
      e.evalCond compareAB = .ok true ∧ e.evalCond compareAB.mirror = .ok false ∧
      ¬e.ByValue compareAB (.str [97, 98, 99, 100]) (.str [97, 98, 99, 100, 101, 102, 103, 104]) := by
  refine ⟨rfl, _, rfl, ⟨rfl, by decide, by decide, rfl⟩, ⟨rfl, by decide, by decide, rfl⟩, rfl, rfl, fun byValue => ?_⟩
  exact absurd (byValue .eq).1 (by decide)

end Evaluator

end Rmdb
