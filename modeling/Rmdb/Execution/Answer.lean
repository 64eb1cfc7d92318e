import Rmdb.Analyze.Accepted
import Rmdb.Execution.Converted
import Rmdb.Execution.Output
import Rmdb.Execution.TypeErrors

namespace Rmdb
open Rmdb.Tuple Planner Plan Analyze InsertExecutor

/-! What a SELECT asks for, said of records of the tables, and that the executors of its plan give it. -/

/-- A column of the catalog. -/
def DbMeta.column (db : DbMeta) (target : TabCol) : Except Error ColMeta := do
  let tab ← db.getTable target.tabName
  tab.getCol target.colName

/-- A condition on a record of each table. Every column is read where it is in the record of its table. -/
def DbMeta.test (db : DbMeta) (t : Tuple String RmRecord) (c : Condition) : Except Error Bool := do
  let lhs ← db.column c.lhsCol
  let len := compareLen lhs.type lhs.len
  let a ← dataAt (t c.lhsCol.tabName) lhs.offset len
  let b ←
    if c.isRhsVal then dataAt c.rhsVal.raw 0 len
    else do
      let rhs ← db.column c.rhsCol
      dataAt (t c.rhsCol.tabName) rhs.offset len
  return c.op.compare (ixCompare a b lhs.type) 0

def DbMeta.holds (db : DbMeta) (c : Condition) (t : Tuple String RmRecord) : Bool := db.test t c = .ok true

/-- The bytes of a column. -/
def DbMeta.field (db : DbMeta) (t : Tuple String RmRecord) (target : TabCol) : List UInt8 :=
  match db.column target, t target.tabName with
  | .ok col, some r => (r.drop col.offset.toNat).take col.len.toNat
  | _, _ => []

/-- The chosen columns of a row, one behind the other. -/
def DbMeta.chosen (db : DbMeta) (sel : List TabCol) (t : Tuple String RmRecord) : RmRecord := sel.flatMap (db.field t)

/-- What a SELECT without ORDER BY means: of the product of the tables the rows that satisfy the conditions, each cut to
the chosen columns. -/
def DbMeta.answer (db : DbMeta) (records : String → List RmRecord) (tabs : List String) (conds : List Condition)
    (sel : List TabCol) : Multiset RmRecord :=
  ((product (fun t => (records t : Multiset RmRecord)) tabs).filter fun t => conds.all (db.holds · t)).map
    (db.chosen sel)

/-- The rows before they are cut. -/
def DbMeta.matching (db : DbMeta) (records : String → List RmRecord) (tabs : List String) (conds : List Condition) :
    Multiset (Tuple String RmRecord) :=
  (product (fun t => (records t : Multiset RmRecord)) tabs).filter fun t => conds.all (db.holds · t)

/-- The compared columns have one width. -/
def DbMeta.SameWidth (db : DbMeta) (c : Condition) : Prop :=
  c.isRhsVal = false → ∀ lhs rhs, db.column c.lhsCol = .ok lhs → db.column c.rhsCol = .ok rhs → lhs.len = rhs.len

/-- The tables have a layout that fits their columns. -/
def DbMeta.Sound (db : DbMeta) (tables : List String) : Prop :=
  ∀ t ∈ tables, ∃ tab, db.getTable t = .ok tab ∧ tab.LaidOut t ∧ tab.Wide

/-- A record of each table, of its length. -/
def DbMeta.Full (db : DbMeta) (tables : List String) (t : Tuple String RmRecord) : Prop :=
  ∀ k ∈ tables, ∃ tab r, db.getTable k = .ok tab ∧ t k = some r ∧ (r.length : Int) = totalLen tab.cols

/-- The records of a row in the order of the tables. -/
def flat (tables : List String) (t : Tuple String RmRecord) : RmRecord := tables.flatMap fun k => (t k).getD []

section
variable {db : DbMeta} {tables : List String} {t : Tuple String RmRecord} {c : Condition}

theorem column_ok_iff {target : TabCol} {col : ColMeta} : db.column target = .ok col ↔
    ∃ tab, db.getTable target.tabName = .ok tab ∧ tab.getCol target.colName = .ok col := bind_eq_ok_iff

theorem getCol_of_mem {tab : TabMeta} {col : ColMeta} (member : col ∈ tab.cols) : ∃ c, tab.getCol col.name = .ok c := by
  unfold TabMeta.getCol
  split
  · exact ⟨_, rfl⟩
  · rename_i none
    exact (List.find?_eq_none.mp none col member (by simp)).elim

theorem flat_append (lefts rights : List String) (t : Tuple String RmRecord) :
    flat (lefts ++ rights) t = flat lefts t ++ flat rights t := List.flatMap_append

theorem flat_congr {t' : Tuple String RmRecord} (same : ∀ k ∈ tables, t k = t' k) : flat tables t = flat tables t' := by
  unfold flat
  exact List.flatMap_congr fun k member => by rw [same k member]

theorem DbMeta.Full.congr {t' : Tuple String RmRecord} (full : db.Full tables t) (same : ∀ k ∈ tables, t k = t' k) :
    db.Full tables t' := by
  intro k member
  rw [← same k member]
  exact full k member

theorem DbMeta.Full.sub {tables' : List String} (full : db.Full tables t) (sub : tables' ⊆ tables) :
    db.Full tables' t := fun k member => full k (sub member)

theorem column_len (sound : db.Sound tables) {target : TabCol} {col : ColMeta} (listed : target.tabName ∈ tables)
    (found : db.column target = .ok col) : 0 < col.len ∧ compareLen col.type col.len ≤ col.len := by
  obtain ⟨tab, table, inTab⟩ := column_ok_iff.mp found
  obtain ⟨tab', table', laid, wide⟩ := sound _ listed
  cases table.symm.trans table'
  have member := mem_of_getCol inTab
  refine ⟨len_pos laid.tiles col member, ?_⟩
  unfold compareLen
  cases type : col.type with
  | string => exact le_rfl
  | int => exact wide col member (by simp [type])
  | float => exact wide col member (by simp [type])

/-- A column of a table lies inside its records. -/
theorem column_inside (sound : db.Sound tables) (full : db.Full tables t) {target : TabCol} {col : ColMeta}
    (listed : target.tabName ∈ tables) (found : db.column target = .ok col) : ∃ r, t target.tabName = some r ∧
      ∀ n, 0 ≤ n → n ≤ col.len → r.bytesAt col.offset n = .ok ((r.drop col.offset.toNat).take n.toNat) := by
  obtain ⟨tab, table, inTab⟩ := column_ok_iff.mp found
  obtain ⟨tab', table', laid, _⟩ := sound _ listed
  obtain ⟨tab'', r, table'', record, length⟩ := full _ listed
  cases table.symm.trans table'
  cases table.symm.trans table''
  obtain ⟨_, lower, _, upper⟩ := fits_of_mem laid.tiles le_rfl (mem_of_getCol inTab)
  exact ⟨r, record, fun n start small => bytesAt_ok_iff.mpr ⟨⟨lower, start, by omega⟩, rfl⟩⟩

theorem compareLen_nonneg {type : ColType} {len : Int} (nonneg : 0 ≤ len) : 0 ≤ compareLen type len := by
  unfold compareLen
  split <;> omega

/-- A condition that `check_clause` accepts can be evaluated. -/
theorem test_returns (sound : db.Sound tables) (full : db.Full tables t) (covers : Covers tables c)
    (typed : Typed db c) (width : db.SameWidth c) : ∃ b, db.test t c = .ok b := by
  obtain ⟨tab, lhs, table, inTab, literal, column⟩ := typed
  have left : db.column c.lhsCol = .ok lhs := column_ok_iff.mpr ⟨tab, table, inTab⟩
  obtain ⟨positive, wide⟩ := column_len sound covers.1 left
  obtain ⟨r, record, reads⟩ := column_inside sound full covers.1 left
  have nonneg : 0 ≤ compareLen lhs.type lhs.len := compareLen_nonneg (by omega)
  unfold DbMeta.test
  rw [left, ok_bind, record]
  simp only [dataAt, reads _ nonneg wide, ok_bind]
  cases kind : c.isRhsVal with
  | true =>
    obtain ⟨lower, raw, encoded, bytes, sameType⟩ := literal kind
    have fits := literal_fits lower bytes sameType
    simp only [if_true, encoded, bytesAt_ok_iff.mpr ⟨fits, rfl⟩, ok_bind]
    exact ⟨_, rfl⟩
  | false =>
    obtain ⟨tab', rhs, table', inTab', sameType⟩ := column kind
    have right : db.column c.rhsCol = .ok rhs := column_ok_iff.mpr ⟨tab', table', inTab'⟩
    have same := width kind lhs rhs left right
    obtain ⟨r', record', reads'⟩ := column_inside sound full (covers.2 kind) right
    simp only [Bool.false_eq_true, if_false, right, record', ok_bind, reads' _ nonneg (wide.trans same.le)]
    exact ⟨_, rfl⟩

theorem threeWay_swap {less greater : Prop} [Decidable less] [Decidable greater] (apart : ¬(less ∧ greater)) :
    threeWay greater less = -threeWay less greater := by
  unfold threeWay
  by_cases first : less
  · have second : ¬greater := fun greater => apart ⟨first, greater⟩
    simp [first, second]
  · by_cases second : greater <;> simp [first, second]

theorem ixCompare_swap (a b : List UInt8) (type : ColType) : ixCompare b a type = -ixCompare a b type := by
  cases type with
  | int => exact threeWay_swap fun both => absurd both.1 both.2.asymm
  | float => exact threeWay_swap fun both => absurd both.1.2.2 both.2.2.2.asymm
  | string => exact memcmp_swap a b

theorem compare_swap_neg (op : CompOp) (d : Int) : (swapOp op).compare (-d) 0 = op.compare d 0 := by
  cases op <;> simp [swapOp, CompOp.compare]

theorem test_columns {lhs rhs : ColMeta} (left : db.column c.lhsCol = .ok lhs) (kind : c.isRhsVal = false)
    (right : db.column c.rhsCol = .ok rhs) : db.test t c = (do
      let a ← dataAt (t c.lhsCol.tabName) lhs.offset (compareLen lhs.type lhs.len)
      let b ← dataAt (t c.rhsCol.tabName) rhs.offset (compareLen lhs.type lhs.len)
      return c.op.compare (ixCompare a b lhs.type) 0) := by
  unfold DbMeta.test
  simp only [left, right, kind, ok_bind, Bool.false_eq_true, if_false]

/-- Columns of one type and width compare the same from both sides. -/
theorem test_mirror (typed : Typed db c) (width : db.SameWidth c) (kind : c.isRhsVal = false) :
    db.holds c.mirror t = db.holds c t := by
  obtain ⟨tab, lhs, table, inTab, _, column⟩ := typed
  obtain ⟨tab', rhs, table', inTab', sameType⟩ := column kind
  have left : db.column c.lhsCol = .ok lhs := column_ok_iff.mpr ⟨tab, table, inTab⟩
  have right : db.column c.rhsCol = .ok rhs := column_ok_iff.mpr ⟨tab', table', inTab'⟩
  have turned : db.test t c.mirror = (do
      let b ← dataAt (t c.rhsCol.tabName) rhs.offset (compareLen rhs.type rhs.len)
      let a ← dataAt (t c.lhsCol.tabName) lhs.offset (compareLen rhs.type rhs.len)
      return (swapOp c.op).compare (ixCompare b a rhs.type) 0) := test_columns right kind left
  refine decide_eq_decide.mpr ?_
  rw [turned, test_columns left kind right, ← width kind lhs rhs left right, sameType]
  generalize dataAt (t c.lhsCol.tabName) lhs.offset (compareLen lhs.type lhs.len) = x
  generalize dataAt (t c.rhsCol.tabName) rhs.offset (compareLen lhs.type lhs.len) = y
  cases x with
  | error e => cases y <;> exact iff_of_false (fun absurd => by cases absurd) fun absurd => by cases absurd
  | ok a =>
    cases y with
    | error e => exact iff_of_false (fun absurd => by cases absurd) fun absurd => by cases absurd
    | ok b =>
      simp only [ok_bind]
      rw [ixCompare_swap a b, compare_swap_neg]

end

/-- The columns of an executor are those of some tables, and its tuples have their bytes. -/
structure Carries (db : DbMeta) (tables : List String) (cols : List ColMeta) : Prop where
  owned : ∀ c ∈ cols, c.tabName ∈ tables
  size : ∀ t, db.Full tables t → ((flat tables t).length : Int) = totalLen cols
  finds : ∀ target col, target.tabName ∈ tables → db.column target = .ok col →
    ∃ c, getCol cols target = .ok c ∧ c.type = col.type ∧ c.len = col.len ∧
      ∀ t, db.Full tables t → ∀ n ≤ col.len,
        RmRecord.bytesAt (flat tables t) c.offset n = dataAt (t target.tabName) col.offset n

section
variable {db : DbMeta} {tables lefts rights : List String} {cols leftCols rightCols : List ColMeta}

theorem Carries.scan {tabName : String} {tab : TabMeta} (table : db.getTable tabName = .ok tab)
    (laid : tab.LaidOut tabName) : Carries db [tabName] tab.cols where
  owned c member := List.mem_singleton.mpr (laid.owned c member)
  size t full := by
    obtain ⟨tab', r, table', record, length⟩ := full tabName List.mem_cons_self
    cases table.symm.trans table'
    simp [flat, record, length]
  finds target col listed found := by
    obtain ⟨tab', table', inTab⟩ := column_ok_iff.mp found
    have own := List.mem_singleton.mp listed
    rw [own] at table'
    cases table.symm.trans table'
    refine ⟨col, getCol_owned laid.owned own inTab, rfl, rfl, fun t full n _ => ?_⟩
    obtain ⟨_, r, _, record, _⟩ := full tabName List.mem_cons_self
    simp [flat, own, record, dataAt]

theorem getCol_append_left {target : TabCol} {c : ColMeta} (found : getCol leftCols target = .ok c) :
    getCol (leftCols ++ rightCols) target = .ok c := by
  unfold getCol at found ⊢
  rw [List.find?_append]
  split at found
  · rename_i hit
    cases found
    rw [hit]
    rfl
  · cases found

theorem getCol_append_right {d : Nat} {target : TabCol} {c : ColMeta}
    (missing : ∀ c ∈ leftCols, c.tabName ≠ target.tabName) (found : getCol rightCols target = .ok c) :
    getCol (leftCols ++ shifted d rightCols) target = .ok { c with offset := wrapInt (c.offset + d) } := by
  have none : (leftCols.find? fun col => col.tabName = target.tabName ∧ col.name = target.colName) = none :=
    List.find?_eq_none.mpr fun col member => by simp [missing col member]
  have moved : ((shifted d rightCols).find? fun col => col.tabName = target.tabName ∧ col.name = target.colName) =
      (rightCols.find? fun col => col.tabName = target.tabName ∧ col.name = target.colName).map fun col =>
        { col with offset := wrapInt (col.offset + d) } := List.find?_map
  unfold getCol at found ⊢
  rw [List.find?_append, none, Option.none_or, moved]
  split at found
  · rename_i hit
    cases found
    rw [hit]
    rfl
  · cases found

theorem Carries.join (left : Carries db lefts leftCols) (right : Carries db rights rightCols)
    (tiles : Consecutive 0 leftCols) (tiles' : Consecutive 0 rightCols)
    {d : Nat} (size : totalLen leftCols = d)
    (small : d + totalLen rightCols ≤ intMax) :
    Carries db (lefts ++ rights) (leftCols ++ shifted d rightCols) := by
  have halves : ∀ {t}, db.Full (lefts ++ rights) t → db.Full lefts t ∧ db.Full rights t := fun full =>
    ⟨full.sub (List.subset_append_left _ _), full.sub (List.subset_append_right _ _)⟩
  refine ⟨fun c member => ?_, fun t full => ?_, fun target col listed found => ?_⟩
  · rcases List.mem_append.mp member with inLeft | inRight
    · exact List.mem_append_left _ (left.owned c inLeft)
    · obtain ⟨c, own, rfl⟩ := List.mem_map.mp inRight
      exact List.mem_append_right _ (right.owned c own)
  · have sum := left.size t (halves full).1
    have sum' := right.size t (halves full).2
    rw [flat_append, List.length_append, totalLen_append, totalLen_shifted]
    omega
  · by_cases inLeft : target.tabName ∈ lefts
    · obtain ⟨c, here, type, len, bytes⟩ := left.finds target col inLeft found
      refine ⟨c, getCol_append_left here, type, len, fun t full n narrow => ?_⟩
      obtain ⟨_, _, _, upper⟩ := fits_of_mem tiles le_rfl (getCol_mem here)
      have whole := left.size t (halves full).1
      rw [flat_append, RmRecord.bytesAt_left (by omega), bytes t (halves full).1 n narrow]
    · have inRight := (List.mem_append.mp listed).resolve_left inLeft
      obtain ⟨c, here, type, len, bytes⟩ := right.finds target col inRight found
      have missing : ∀ c ∈ leftCols, c.tabName ≠ target.tabName := fun c member same =>
        inLeft (same ▸ left.owned c member)
      refine ⟨_, getCol_append_right missing here, type, len, fun t full n narrow => ?_⟩
      obtain ⟨lower, _, nonneg, upper⟩ := fits_of_mem tiles' le_rfl (getCol_mem here)
      have whole := left.size t (halves full).1
      have moved : wrapInt (c.offset + d) = c.offset + d := by
        apply wrapInt_of_isInt
        unfold IsInt intMin intMax at *
        omega
      change RmRecord.bytesAt _ (wrapInt (c.offset + d)) n = _
      rw [flat_append, moved, RmRecord.bytesAt_right (by omega), ← bytes t (halves full).2 n narrow]
      congr 1
      omega

/-- Over the tuple of a row a condition says what it says of the row. -/
theorem Carries.evaluates (carries : Carries db tables cols) (sound : db.Sound tables) {t : Tuple String RmRecord}
    (full : db.Full tables t) {c : Condition} (covers : Covers tables c) (typed : Typed db c)
    (width : db.SameWidth c) :
    evalCondAt cols (fun col n => dataAt (some (flat tables t)) col.offset n) c = db.test t c := by
  obtain ⟨tab, lhs, table, inTab, literal, column⟩ := typed
  have left : db.column c.lhsCol = .ok lhs := column_ok_iff.mpr ⟨tab, table, inTab⟩
  obtain ⟨_, wide⟩ := column_len sound covers.1 left
  obtain ⟨l, here, type, len, bytes⟩ := carries.finds _ _ covers.1 left
  have read := bytes t full _ wide
  cases kind : c.isRhsVal with
  | true =>
    obtain ⟨_, raw, encoded, _⟩ := literal kind
    unfold evalCondAt DbMeta.test
    simp only [here, left, ok_bind, type, len, kind, if_true, encoded, pure_bind]
    rw [← read]
    rfl
  | false =>
    obtain ⟨tab', rhs, table', inTab', _⟩ := column kind
    have right : db.column c.rhsCol = .ok rhs := column_ok_iff.mpr ⟨tab', table', inTab'⟩
    obtain ⟨r, here', type', len', bytes'⟩ := carries.finds _ _ (covers.2 kind) right
    have read' := bytes' t full _ (wide.trans (width kind lhs rhs left right).le)
    rw [evalCondAt_columns here kind here', test_columns left kind right, type, len, ← read, ← read']
    rfl

end

end Rmdb
