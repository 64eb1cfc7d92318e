import Mathlib.Data.List.Find
import Rmdb.Analyze.Accepted
import Rmdb.Execution.Dml

namespace Rmdb
open Analyze

/-- `len` bytes from `offset` on lie inside a record of that size. -/
def Fits (offset len size : Int) : Prop := 0 ≤ offset ∧ 0 ≤ len ∧ offset + len ≤ size

theorem bytesAt_ok_iff {r : RmRecord} {offset len : Int} {bytes : List UInt8} :
    r.bytesAt offset len = .ok bytes ↔ Fits offset len r.length ∧ bytes = (r.drop offset.toNat).take len.toNat := by
  unfold RmRecord.bytesAt Fits
  split
  · rename_i inside
    simp [inside, eq_comm]
  · rename_i outside
    simp [outside]

/-- The comparison of a condition stays inside a record of that size. Both sides are
read over the length of the left column. -/
def Condition.Inside (cols : List ColMeta) (size : Int) (c : Condition) : Prop :=
  ∀ lhs, getCol cols c.lhsCol = .ok lhs →
    Fits lhs.offset (compareLen lhs.type lhs.len) size ∧
      (c.isRhsVal = false → ∀ rhs, getCol cols c.rhsCol = .ok rhs → Fits rhs.offset (compareLen lhs.type lhs.len) size)

/-- `eval_cond` of a scan on the bytes of a record. -/
def evalRow (cols : List ColMeta) (r : RmRecord) (c : Condition) : Except Error Bool :=
  evalCondAt cols (fun col len => dataAt (some r) col.offset len) c

/-- `eval_conds` of a scan. -/
def evalRows (cols : List ColMeta) (r : RmRecord) (conds : List Condition) : Except Error Bool :=
  allOf (evalRow cols r) conds

/-- Every comparison `eval_conds` gets to stays inside the record. -/
def StaysInside (cols : List ColMeta) (r : RmRecord) : List Condition → Prop
  | [] => True
  | c :: conds => c.Inside cols r.length ∧ (evalRow cols r c = .ok true → StaysInside cols r conds)

/-- The columns of a condition are of the table. -/
def Condition.Own (tabName : String) (c : Condition) : Prop :=
  c.lhsCol.tabName = tabName ∧ (c.isRhsVal = false → c.rhsCol.tabName = tabName)

section
variable {db : DbMeta} {tabName : String} {tab : TabMeta} {r : RmRecord} {c : Condition} {conds : List Condition}

theorem getCol_owned (owned : ∀ col ∈ tab.cols, col.tabName = tabName) {target : TabCol}
    (own : target.tabName = tabName) {col : ColMeta} (found : tab.getCol target.colName = .ok col) :
    getCol tab.cols target = .ok col := by
  have same : (tab.cols.find? fun col => col.tabName = target.tabName ∧ col.name = target.colName) =
      tab.cols.find? fun col => col.name = target.colName := by
    apply List.find?_congr
    intro col member
    simp [owned col member, own]
  unfold TabMeta.getCol at found
  unfold getCol
  rw [same]
  generalize (tab.cols.find? fun col => col.name = target.colName) = hit at found ⊢
  cases hit with
  | none => cases found
  | some col => exact found

theorem getCol_own (wf : db.WF) (table : db.getTable tabName = .ok tab) {target : TabCol}
    (own : target.tabName = tabName)
    {col : ColMeta} (found : tab.getCol target.colName = .ok col) : getCol tab.cols target = .ok col :=
  getCol_owned (wf _ _ (getTable_ok table)).2.2.2 own found

theorem evalRow_literal {lhs : ColMeta} {raw : RmRecord} (left : getCol tab.cols c.lhsCol = .ok lhs)
    (literal : c.isRhsVal = true)
    (bytes : c.rhsVal.raw = some raw) : evalRow tab.cols r c = (do
      let a ← r.bytesAt lhs.offset (compareLen lhs.type lhs.len)
      let b ← raw.bytesAt 0 (compareLen lhs.type lhs.len)
      return c.op.compare (ixCompare a b lhs.type) 0) := by
  rw [evalRow, evalCondAt, left, ok_bind]
  simp only [literal, if_true, bytes]
  rfl

/-- Two columns, wherever their bytes are. -/
theorem evalCondAt_columns {cols : List ColMeta} {bytes : ColMeta → Int → Except Error (List UInt8)} {lhs rhs : ColMeta}
    (left : getCol cols c.lhsCol = .ok lhs) (column : c.isRhsVal = false) (right : getCol cols c.rhsCol = .ok rhs) :
    evalCondAt cols bytes c = (do
      let a ← bytes lhs (compareLen lhs.type lhs.len)
      let b ← bytes rhs (compareLen lhs.type lhs.len)
      return c.op.compare (ixCompare a b lhs.type) 0) := by
  rw [evalCondAt, left, ok_bind]
  simp only [column, Bool.false_eq_true, if_false, right, ok_bind, pure_bind]

theorem evalRow_columns {lhs rhs : ColMeta} (left : getCol tab.cols c.lhsCol = .ok lhs) (column : c.isRhsVal = false)
    (right : getCol tab.cols c.rhsCol = .ok rhs) : evalRow tab.cols r c = (do
      let a ← r.bytesAt lhs.offset (compareLen lhs.type lhs.len)
      let b ← r.bytesAt rhs.offset (compareLen lhs.type lhs.len)
      return c.op.compare (ixCompare a b lhs.type) 0) :=
  evalCondAt_columns left column right

/-- An encoded literal has the bytes that are compared. -/
theorem literal_fits {v : Value} {lhs : ColMeta} {raw : RmRecord} (nonneg : 0 ≤ lhs.len)
    (encoded : v.encode lhs.len = .ok raw)
    (sameType : v.type = lhs.type) : Fits 0 (compareLen lhs.type lhs.len) raw.length := by
  have length := Value.encode_length nonneg encoded
  have four : lhs.type ≠ .string → lhs.len = 4 := by
    intro number
    unfold Value.encode at encoded
    unfold Value.type at sameType
    split at encoded
    · split at encoded
      · assumption
      · cases encoded
    · split at encoded
      · assumption
      · cases encoded
    · rename_i found
      rw [found] at sameType
      exact absurd sameType.symm number
  refine ⟨le_rfl, ?_, ?_⟩
  · unfold compareLen
    split <;> omega
  · rw [length]
    unfold compareLen
    split
    · rename_i isInt
      rw [four (by rw [isInt]; simp)]
      omega
    · rename_i isFloat
      rw [four (by rw [isFloat]; simp)]
      omega
    · omega

/-- `eval_cond` of an accepted condition returns if it stays inside the record. -/
theorem evalRow_returns_iff (wf : db.WF) (table : db.getTable tabName = .ok tab) (typed : Typed db c)
    (own : c.Own tabName) :
    (∃ b, evalRow tab.cols r c = .ok b) ↔ c.Inside tab.cols r.length := by
  obtain ⟨tab', lhs, table', col, literal, column⟩ := typed
  rw [own.1, table] at table'
  cases table'
  have left := getCol_own wf table own.1 col
  cases kind : c.isRhsVal with
  | true =>
    obtain ⟨nonneg, raw, bytes, encoded, sameType⟩ := literal kind
    have inRaw := literal_fits nonneg encoded sameType
    rw [evalRow_literal left kind bytes]
    constructor
    · intro ⟨b, run⟩ lhs' left'
      rw [left] at left'
      cases left'
      obtain ⟨a, first, _⟩ := bind_eq_ok_iff.mp run
      exact ⟨(bytesAt_ok_iff.mp first).1, fun isColumn => by rw [kind] at isColumn; cases isColumn⟩
    · intro inside
      rw [bytesAt_ok_iff.mpr ⟨(inside lhs left).1, rfl⟩, bytesAt_ok_iff.mpr ⟨inRaw, rfl⟩]
      exact ⟨_, rfl⟩
  | false =>
    obtain ⟨rtab, rhs, rtable, rcol, _⟩ := column kind
    rw [own.2 kind, table] at rtable
    cases rtable
    have right := getCol_own wf table (own.2 kind) rcol
    rw [evalRow_columns left kind right]
    constructor
    · intro ⟨b, run⟩ lhs' left'
      rw [left] at left'
      cases left'
      obtain ⟨a, first, run⟩ := bind_eq_ok_iff.mp run
      obtain ⟨_, second, _⟩ := bind_eq_ok_iff.mp run
      refine ⟨(bytesAt_ok_iff.mp first).1, fun _ rhs' right' => ?_⟩
      rw [right] at right'
      cases right'
      exact (bytesAt_ok_iff.mp second).1
    · intro inside
      obtain ⟨first, second⟩ := inside lhs left
      rw [bytesAt_ok_iff.mpr ⟨first, rfl⟩, bytesAt_ok_iff.mpr ⟨second kind rhs right, rfl⟩]
      exact ⟨_, rfl⟩

theorem evalRows_returns_iff (wf : db.WF) (table : db.getTable tabName = .ok tab)
    (accepted : ∀ c ∈ conds, Typed db c ∧ c.Own tabName) :
    (∃ b, evalRows tab.cols r conds = .ok b) ↔ StaysInside tab.cols r conds := by
  induction conds with
  | nil => simp [evalRows, allOf, StaysInside]
  | cons c conds ih =>
    obtain ⟨⟨typed, own⟩, accepted⟩ := List.forall_mem_cons.mp accepted
    have first := evalRow_returns_iff (r := r) wf table typed own
    have later := ih accepted
    unfold evalRows at later ⊢
    rw [StaysInside, allOf]
    cases holds : evalRow tab.cols r c with
    | error e =>
      have outside : ¬c.Inside tab.cols r.length := by
        intro inside
        obtain ⟨b, run⟩ := first.mpr inside
        rw [holds] at run
        cases run
      constructor
      · intro ⟨b, run⟩
        cases run
      · intro ⟨inside, _⟩
        exact absurd inside outside
    | ok b =>
      have inside := first.mp ⟨b, holds⟩
      rw [ok_bind]
      cases b with
      | true => simp [inside, later]
      | false => simp [inside, pure, Except.pure]

end

namespace UpdateExecutor
variable {tab : TabMeta} {r : RmRecord} {clause : SetClause} {clauses : List SetClause} {size : Int}

/-- The column of a clause lies inside a record of that size. -/
def Writable (tab : TabMeta) (size : Int) (clause : SetClause) : Prop :=
  ∀ col, tab.getCol clause.lhs.colName = .ok col → Fits col.offset col.len size

/-- The record with the column of a clause replaced by the encoded value. -/
def overwrite (tab : TabMeta) (r : RmRecord) (clause : SetClause) : RmRecord :=
  match tab.getCol clause.lhs.colName with
  | .error _ => r
  | .ok col =>
    match clause.rhs.encode col.len with
    | .error _ => r
    | .ok raw => r.take col.offset.toNat ++ raw ++ r.drop (col.offset.toNat + raw.length)

/-- All clauses in their order; of two for one column the later one wins. -/
def overwriteAll (tab : TabMeta) (clauses : List SetClause) (r : RmRecord) : RmRecord := clauses.foldl (overwrite tab) r

theorem setColumn_eq {col : ColMeta} {raw : RmRecord} (found : tab.getCol clause.lhs.colName = .ok col)
    (sameType : col.type = clause.rhs.type) (nonneg : 0 ≤ col.len) (encoded : clause.rhs.encode col.len = .ok raw) :
    setColumn tab (some r) clause = (r.write col.offset raw).map some := by
  rw [setColumn, found, ok_bind, if_neg (not_not.mpr sameType), Value.initRaw_of_encode nonneg encoded]
  rfl

theorem setColumn_inside (settable : Settable tab clause) (writable : Writable tab r.length clause) :
    setColumn tab (some r) clause = .ok (some (overwrite tab r clause)) ∧
        (overwrite tab r clause).length = r.length := by
  obtain ⟨col, raw, found, sameType, nonneg, encoded⟩ := settable
  have length := Value.encode_length nonneg encoded
  obtain ⟨lower, _, upper⟩ := writable col found
  have replaced : overwrite tab r clause =
      r.take col.offset.toNat ++ raw ++ r.drop (col.offset.toNat + raw.length) := by
    simp only [overwrite, found, encoded]
  rw [setColumn_eq found sameType nonneg encoded, RmRecord.write, if_pos ⟨lower, by omega⟩, replaced]
  refine ⟨rfl, ?_⟩
  simp only [List.length_append, List.length_take, List.length_drop]
  omega

theorem setColumn_outside (settable : Settable tab clause) (outside : ¬Writable tab r.length clause) :
    setColumn tab (some r) clause = .error .undefined := by
  obtain ⟨col, raw, found, sameType, nonneg, encoded⟩ := settable
  have length := Value.encode_length nonneg encoded
  rw [setColumn_eq found sameType nonneg encoded, RmRecord.write, if_neg]
  · rfl
  · intro ⟨lower, upper⟩
    apply outside
    intro col' found'
    rw [found] at found'
    cases found'
    exact ⟨lower, nonneg, by omega⟩

/-- The loop over the clauses of an accepted SET list. -/
theorem rewrite_inside (settable : ∀ clause ∈ clauses, Settable tab clause)
    (writable : ∀ clause ∈ clauses, Writable tab r.length clause) :
    rewrite tab clauses (some r) = .ok (some (overwriteAll tab clauses r)) ∧
        (overwriteAll tab clauses r).length = r.length := by
  induction clauses generalizing r with
  | nil => exact ⟨rfl, rfl⟩
  | cons clause clauses ih =>
    obtain ⟨settable, settables⟩ := List.forall_mem_cons.mp settable
    obtain ⟨writable, writables⟩ := List.forall_mem_cons.mp writable
    obtain ⟨first, same⟩ := setColumn_inside settable writable
    obtain ⟨run, length⟩ := @ih (overwrite tab r clause) settables (by rw [same]; exact writables)
    refine ⟨?_, length.trans same⟩
    rw [rewrite, List.foldlM_cons, first, ok_bind]
    exact run

theorem rewrite_outside (settable : ∀ clause ∈ clauses, Settable tab clause) (member : clause ∈ clauses)
    (outside : ¬Writable tab r.length clause) : rewrite tab clauses (some r) = .error .undefined := by
  induction clauses generalizing r with
  | nil => cases member
  | cons first clauses ih =>
    obtain ⟨settable, settables⟩ := List.forall_mem_cons.mp settable
    rw [rewrite, List.foldlM_cons]
    by_cases writable : Writable tab r.length first
    · obtain ⟨run, same⟩ := setColumn_inside settable writable
      have later : clause ∈ clauses := by
        rcases List.mem_cons.mp member with here | later
        · rw [here] at outside
          exact absurd writable outside
        · exact later
      rw [run, ok_bind]
      exact ih settables later (by rw [same]; exact outside)
    · rw [setColumn_outside settable writable]
      rfl

end UpdateExecutor

end Rmdb
