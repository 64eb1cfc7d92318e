import Rmdb.Execution.Comparison
import Rmdb.Execution.Insert
import Rmdb.Execution.Product

namespace Rmdb
open InsertExecutor

/-! Columns one behind the other, and the bytes they stand for. -/

section
variable {offset : Int} {cols others : List ColMeta} {col : ColMeta}

theorem totalLen_append (cols others : List ColMeta) : totalLen (cols ++ others) = totalLen cols + totalLen others := by
  simp [totalLen]

theorem consecutive_append : Consecutive offset (cols ++ others) ↔
    Consecutive offset cols ∧ Consecutive (offset + totalLen cols) others := by
  induction cols generalizing offset with
  | nil => simp [Consecutive, totalLen]
  | cons col cols ih =>
    simp only [List.cons_append, Consecutive, ih, totalLen, List.map_cons, List.sum_cons, Int.add_assoc, and_assoc]

theorem len_pos (laid : Consecutive offset cols) : ∀ col ∈ cols, 0 < col.len := by
  induction cols generalizing offset with
  | nil => exact fun col member => by cases member
  | cons col cols ih => exact List.forall_mem_cons.mpr ⟨laid.2.1, ih laid.2.2⟩

theorem length_le_totalLen (laid : Consecutive offset cols) : (cols.length : Int) ≤ totalLen cols := by
  induction cols generalizing offset with
  | nil => exact le_rfl
  | cons col cols ih =>
    have rest := ih laid.2.2
    have positive := laid.2.1
    simp only [totalLen, List.map_cons, List.sum_cons, List.length_cons] at rest ⊢
    omega

/-- Where the last column ends. -/
theorem end_of_last (laid : Consecutive offset cols) (last : cols.getLast? = some col) :
    col.offset + col.len = offset + totalLen cols := by
  obtain ⟨front, rfl⟩ := List.getLast?_eq_some_iff.mp last
  obtain ⟨_, start, _⟩ := consecutive_append.mp laid
  rw [start, totalLen_append, Int.add_assoc]
  simp [totalLen]

/-- The columns of the right child of a join. -/
def shifted (d : Int) (cols : List ColMeta) : List ColMeta :=
  cols.map fun col => { col with offset := wrapInt (col.offset + d) }

theorem totalLen_shifted (d : Int) : totalLen (shifted d cols) = totalLen cols := by
  simp [totalLen, shifted, Function.comp_def]

theorem consecutive_shifted {d : Int} (laid : Consecutive offset cols) (lower : 0 ≤ offset + d)
    (upper : offset + d + totalLen cols ≤ intMax) : Consecutive (offset + d) (shifted d cols) := by
  induction cols generalizing offset with
  | nil => trivial
  | cons col cols ih =>
    obtain ⟨start, positive, later⟩ := laid
    have rest := totalLen_nonneg (len_nonneg later)
    simp only [totalLen, List.map_cons, List.sum_cons, intMax] at upper rest
    refine ⟨?_, positive, ?_⟩
    · change wrapInt (col.offset + d) = offset + d
      rw [start]
      apply wrapInt_of_isInt
      unfold IsInt intMin intMax
      omega
    · have next := ih later (by omega) (by simp only [totalLen, intMax]; omega)
      rw [Int.add_right_comm]
      exact next

namespace RmRecord
variable {a b r : RmRecord} {len : Int}

theorem bytesAt_left (fits : offset + len ≤ a.length) : (a ++ b).bytesAt offset len = a.bytesAt offset len := by
  unfold RmRecord.bytesAt
  by_cases inside : 0 ≤ offset ∧ 0 ≤ len
  · rw [if_pos ⟨inside.1, inside.2, by rw [List.length_append]; omega⟩, if_pos ⟨inside.1, inside.2, fits⟩,
      List.drop_append_of_le_length (by omega), List.take_append_of_le_length (by rw [List.length_drop]; omega)]
  · rw [if_neg (by omega), if_neg (by omega)]

theorem bytesAt_right (start : (a.length : Int) ≤ offset) :
    (a ++ b).bytesAt offset len = b.bytesAt (offset - a.length) len := by
  have behind : (a ++ b).drop offset.toNat = b.drop (offset - a.length).toNat := by
    rw [List.drop_append, List.drop_eq_nil_of_le (by omega), List.nil_append]
    congr 1
    omega
  unfold RmRecord.bytesAt
  rw [behind, List.length_append]
  by_cases inside : 0 ≤ len ∧ offset + len ≤ a.length + b.length
  · rw [if_pos (by omega), if_pos (by omega)]
  · rw [if_neg (by omega), if_neg (by omega)]

/-- What the copy of the first `n` bytes still has. -/
theorem bytesAt_copied {n : Int} (copied : r.bytesAt 0 n = .ok a) (fits : offset + len ≤ n) :
    a.bytesAt offset len = r.bytesAt offset len := by
  obtain ⟨⟨_, nonneg, whole⟩, rfl⟩ := bytesAt_ok_iff.mp copied
  have length : (r.take n.toNat).length = n.toNat := by
    rw [List.length_take]
    omega
  have left := bytesAt_left (a := r.take n.toNat) (b := r.drop n.toNat) (show offset + len ≤ _ by omega)
  rw [List.take_append_drop] at left
  exact left.symm

end RmRecord
end

namespace ProjectionExecutor
variable {k : Nat} {selected : List ColMeta}

theorem place_cons (k : Nat) (col : ColMeta) (selected : List ColMeta) :
    place k (col :: selected) =
      ({ col with offset := wrapInt k } :: (place ((k + sizeT col.len) % 18446744073709551616) selected).1,
        (place ((k + sizeT col.len) % 18446744073709551616) selected).2) := rfl

theorem sizeT_of_nonneg {v : Int} (lower : 0 ≤ v) (upper : v ≤ intMax) : (sizeT v : Int) = v := by
  unfold sizeT
  unfold intMax at upper
  omega

theorem place_fits (positive : ∀ col ∈ selected, 0 < col.len) (small : k + totalLen selected ≤ intMax) :
    Consecutive k (place k selected).1 ∧ ((place k selected).2 : Int) = k + totalLen selected := by
  induction selected generalizing k with
  | nil => exact ⟨trivial, (Int.add_zero _).symm⟩
  | cons col selected ih =>
    obtain ⟨here, positive⟩ := List.forall_mem_cons.mp positive
    have rest := totalLen_nonneg fun col member => le_of_lt (positive col member)
    simp only [totalLen, List.map_cons, List.sum_cons, intMax] at small rest
    have size := sizeT_of_nonneg (le_of_lt here) (by unfold intMax; omega)
    have next : (((k + sizeT col.len) % 18446744073709551616 : Nat) : Int) = k + col.len := by omega
    obtain ⟨laid, len⟩ := @ih ((k + sizeT col.len) % 18446744073709551616) positive
      (by simp only [totalLen, intMax]; omega)
    rw [place_cons]
    rw [next] at laid len
    refine ⟨⟨?_, here, laid⟩, ?_⟩
    · apply wrapInt_of_isInt
      unfold IsInt intMin intMax
      omega
    · rw [len]
      simp only [totalLen, List.map_cons, List.sum_cons]
      omega

theorem totalLen_place (k : Nat) (selected : List ColMeta) : totalLen (place k selected).1 = totalLen selected := by
  induction selected generalizing k with
  | nil => rfl
  | cons col selected ih =>
    rw [place_cons]
    simp only [totalLen, List.map_cons, List.sum_cons] at ih ⊢
    rw [ih]

/-- A placed column is the chosen one but for its offset. -/
theorem place_same (k : Nat) (selected : List ColMeta) :
    List.Forall₂ (fun col new => new = { col with offset := new.offset }) selected (place k selected).1 := by
  induction selected generalizing k with
  | nil => exact .nil
  | cons col selected ih =>
    rw [place_cons]
    exact .cons rfl (ih _)

theorem flatten_length {bytes : ColMeta → Except Error (List UInt8)} {parts : List (List UInt8)}
    (copied : List.Forall₂ (fun col part => bytes col = .ok part) selected parts)
    (wide : ∀ col ∈ selected, ∀ part, bytes col = .ok part → (part.length : Int) = col.len) :
    (parts.flatten.length : Int) = totalLen selected := by
  induction copied with
  | nil => rfl
  | @cons col part selected parts first copied ih =>
    obtain ⟨width, wide⟩ := List.forall_mem_cons.mp wide
    have here := width part first
    have later := ih wide
    simp only [totalLen, List.flatten_cons, List.length_append, List.map_cons, List.sum_cons] at later ⊢
    omega

/-- A placed column is the chosen one but for its offset, and its part of the copy is there. -/
theorem place_parts {bytes : ColMeta → Except Error (List UInt8)} {parts : List (List UInt8)} {front : RmRecord}
    (copied : List.Forall₂ (fun col part => bytes col = .ok part) selected parts)
    (wide : ∀ col ∈ selected, ∀ part, bytes col = .ok part → (part.length : Int) = col.len)
    (positive : ∀ col ∈ selected, 0 < col.len) (small : k + totalLen selected ≤ intMax) (start : front.length = k) :
    List.Forall₂ (fun col new => new = { col with offset := new.offset } ∧ ∃ part, bytes col = .ok part ∧
      RmRecord.bytesAt (front ++ parts.flatten) new.offset new.len = .ok part) selected (place k selected).1 := by
  induction copied generalizing k front with
  | nil => exact .nil
  | @cons col part selected parts first copied ih =>
    obtain ⟨here, positive'⟩ := List.forall_mem_cons.mp positive
    obtain ⟨width, wide⟩ := List.forall_mem_cons.mp wide
    have width := width part first
    have rest := totalLen_nonneg fun col member => le_of_lt (positive' col member)
    simp only [totalLen, List.map_cons, List.sum_cons, intMax] at small rest
    have size := sizeT_of_nonneg (le_of_lt here) (by unfold intMax; omega)
    have next : (((k + sizeT col.len) % 18446744073709551616 : Nat) : Int) = k + col.len := by omega
    have offset : wrapInt k = k := by
      apply wrapInt_of_isInt
      unfold IsInt intMin intMax
      omega
    rw [place_cons]
    refine .cons ⟨rfl, part, first, ?_⟩ ?_
    · change RmRecord.bytesAt _ (wrapInt k) col.len = _
      rw [offset, List.flatten_cons, RmRecord.bytesAt_right (by omega), RmRecord.bytesAt_left (by omega)]
      refine bytesAt_ok_iff.mpr ⟨⟨by omega, by omega, by omega⟩, ?_⟩
      rw [List.take_of_length_le (by rw [List.length_drop]; omega), start, Int.sub_self, Int.toNat_zero, List.drop_zero]
    · have later := @ih ((k + sizeT col.len) % 18446744073709551616) (front ++ part) wide positive'
        (by simp only [totalLen, intMax]; omega) (by rw [List.length_append]; omega)
      rw [List.append_assoc] at later
      exact later

end ProjectionExecutor

/-- The executor trees of scans, joins and projections. -/
inductive ExecutorTree (sm : SmManager) : Executor → Type 1
  | seqScan {tabName : String} {conds : List Condition} {x : SeqScanExecutor} :
      SeqScanExecutor.new sm tabName conds = .ok x → ExecutorTree sm x.executor
  | nestedLoopJoin {conds : List Condition} {x : NestedLoopJoinExecutor} : ExecutorTree sm x.left →
      ExecutorTree sm x.right → NestedLoopJoinExecutor.new x.left x.right conds = .ok x → ExecutorTree sm x.executor
  | projection {selCols : List TabCol} {x : ProjectionExecutor} : ExecutorTree sm x.prev →
      ProjectionExecutor.new x.prev selCols = .ok x → ExecutorTree sm x.executor

/-- Plans without index scans and sorting. -/
def Plan.Relational : Plan → Prop
  | .scan p => p.tag = .seqScan
  | .join left right _ => left.Relational ∧ right.Relational
  | .projection subplan _ => subplan.Relational
  | _ => False

/-- What `convert_plan_executor` makes of such a plan is such a tree. -/
theorem ExecutorTree.of_convert {sm : SmManager} {plan : Plan} {E : Executor} (relational : plan.Relational)
    (run : Portal.convertPlanExecutor sm plan = .ok E) : Nonempty (ExecutorTree sm E) := by
  induction plan generalizing E with
  | null => exact relational.elim
  | sort _ _ _ _ => exact relational.elim
  | scan p =>
    rw [Portal.convertPlanExecutor, show p.tag = .seqScan from relational] at run
    simp only at run
    split at run
    · rename_i x made
      cases run
      exact ⟨.seqScan made⟩
    · cases run
  | join left right conds ihLeft ihRight =>
    rw [Portal.convertPlanExecutor] at run
    split at run
    · cases run
    · cases run
    · rename_i l r builtLeft builtRight
      obtain ⟨L⟩ := ihLeft relational.1 builtLeft
      obtain ⟨R⟩ := ihRight relational.2 builtRight
      split at run
      · rename_i x made
        cases run
        obtain ⟨rfl, rfl, _⟩ := NestedLoopJoinExecutor.new_children made
        exact ⟨.nestedLoopJoin L R made⟩
      · cases run
  | projection subplan selCols ih =>
    rw [Portal.convertPlanExecutor] at run
    split at run
    · cases run
    · rename_i prev builtPrev
      obtain ⟨P⟩ := ih relational builtPrev
      split at run
      · rename_i x made
        cases run
        have same : x.prev = prev := by
          unfold ProjectionExecutor.new at made
          split at made
          · cases made
          · split at made <;> cases made
            rfl
        subst same
        exact ⟨.projection P made⟩
      · cases run

/-- A scan of a tree in its state. -/
structure Standing where
  tabName : String
  scan : SeqScanExecutor
  state : SeqScanExecutor.State

/-- A table with its columns one behind the other, none of them empty, under different names. -/
structure TabMeta.LaidOut (tab : TabMeta) (tabName : String) : Prop where
  owned : ∀ col ∈ tab.cols, col.tabName = tabName
  named : (tab.cols.map (·.name)).Nodup
  tiles : Consecutive 0 tab.cols

/-- Numbers take the bytes that `ix_compare` reads. -/
def TabMeta.Wide (tab : TabMeta) : Prop := ∀ col ∈ tab.cols, col.type ≠ .string → 4 ≤ col.len

namespace ExecutorTree
variable {sm : SmManager} {E : Executor}

def tables {E : Executor} : ExecutorTree sm E → List String
  | @seqScan _ tabName _ _ _ => [tabName]
  | nestedLoopJoin left right _ => left.tables ++ right.tables
  | projection prev _ => prev.tables

def scans {E : Executor} : ExecutorTree sm E → E.State → List Standing
  | @seqScan _ tabName _ x _, s => [⟨tabName, x, s⟩]
  | nestedLoopJoin left right _, s => left.scans s.left ++ right.scans s.right
  | projection prev _, s => prev.scans s

def joins {E : Executor} : ExecutorTree sm E → List NestedLoopJoinExecutor
  | seqScan _ => []
  | @nestedLoopJoin _ _ x left right _ => x :: (left.joins ++ right.joins)
  | projection prev _ => prev.joins

/-- The columns of every node together have a length that an `int` can hold. -/
def Small {E : Executor} : ExecutorTree sm E → Prop
  | @seqScan _ _ _ x _ => totalLen x.cols ≤ intMax
  | @nestedLoopJoin _ _ x left right _ => left.Small ∧ right.Small ∧ totalLen x.cols ≤ intMax
  | @projection _ _ x prev _ => prev.Small ∧ totalLen x.cols ≤ intMax

/-- What holds of the table of every scan. -/
def AllTables (tree : ExecutorTree sm E) (P : String → TabMeta → Prop) : Prop :=
  ∀ tabName ∈ tree.tables, ∀ tab, sm.db.getTable tabName = .ok tab → P tabName tab

end ExecutorTree

/-- Column `b` of a scan's record is what `c` of a tuple comes from, and `c` has its bytes. -/
structure Standing.Supplies (standing : Standing) (b c : ColMeta) (tuple : RmRecord) : Prop where
  member : b ∈ standing.scan.cols
  same : c = { b with offset := c.offset }
  bytes : ∃ r, standing.scan.next standing.state = .ok (some r) ∧
    tuple.bytesAt c.offset c.len = r.bytesAt b.offset b.len

/-- The scan stands at a record of its table. -/
def Standing.OnRecord (standing : Standing) : Prop :=
  ∃ r, standing.scan.next standing.state = .ok (some r) ∧ r.length = standing.scan.len

theorem dataAt_ok {r : Option RmRecord} {offset len : Int} {bytes : List UInt8}
    (run : dataAt r offset len = .ok bytes) : ∃ record, r = some record ∧ record.bytesAt offset len = .ok bytes := by
  cases r with
  | none => cases run
  | some record => exact ⟨record, rfl, run⟩

theorem width_of_read {r : Option RmRecord} {col : ColMeta} {part : List UInt8} (positive : 0 < col.len)
    (read : dataAt r col.offset col.len = .ok part) : (part.length : Int) = col.len := by
  obtain ⟨_, _, read⟩ := dataAt_ok read
  rw [bytesAt_length read]
  omega

theorem getCol_mem {cols : List ColMeta} {target : TabCol} {col : ColMeta} (found : getCol cols target = .ok col) :
    col ∈ cols := by
  unfold getCol at found
  split at found
  · rename_i found'
    cases found
    exact List.mem_of_find?_eq_some found'
  · cases found

namespace ExecutorTree
variable {sm : SmManager} {E : Executor} {tabName : String} {conds : List Condition} {selCols : List TabCol}

theorem seqScan_new {x : SeqScanExecutor} (made : SeqScanExecutor.new sm tabName conds = .ok x) :
    ∃ tab, sm.db.getTable tabName = .ok tab ∧ x.cols = tab.cols ∧
      ∃ last, tab.cols.getLast? = some last ∧ x.len = sizeT (last.offset + last.len) := by
  obtain ⟨tab, table, made⟩ := bind_eq_ok_iff.mp made
  split at made
  · cases made
  · cases made
  · rename_i last _ found
    cases made
    exact ⟨tab, table, rfl, last, found, rfl⟩

theorem nestedLoopJoin_new {x : NestedLoopJoinExecutor}
    (made : NestedLoopJoinExecutor.new x.left x.right conds = .ok x) :
    ∃ leftCols rightCols, x.left.cols = some leftCols ∧ x.right.cols = some rightCols ∧
      x.cols = leftCols ++ shifted x.left.tupleLen rightCols ∧
      x.len = (x.left.tupleLen + x.right.tupleLen) % 18446744073709551616 := by
  unfold NestedLoopJoinExecutor.new at made
  split at made
  · rename_i leftCols rightCols left right
    have same := Except.ok.inj made
    exact ⟨leftCols, rightCols, left, right, (congrArg (·.cols) same).symm, (congrArg (·.len) same).symm⟩
  · cases made

theorem projection_new {x : ProjectionExecutor} (made : ProjectionExecutor.new x.prev selCols = .ok x) :
    ∃ prevCols, x.prev.cols = some prevCols ∧ ∀ col ∈ x.selected, col ∈ prevCols := by
  unfold ProjectionExecutor.new at made
  split at made
  · cases made
  · rename_i prevCols prev
    split at made
    · rename_i selected run
      have same : selected = x.selected := congrArg (·.selected) (Except.ok.inj made)
      refine ⟨prevCols, prev, fun col member => ?_⟩
      rw [← same] at member
      obtain ⟨target, _, found⟩ := exists_of_forall₂ (mapM_ok run) member
      exact getCol_mem found
    · cases made

/-- What the constructors make of the columns. -/
structure Layout (E : Executor) (cols : List ColMeta) : Prop where
  columns : E.cols = some cols
  tiles : Consecutive 0 cols
  size : totalLen cols = E.tupleLen
  small : totalLen cols ≤ intMax

theorem nestedLoopJoin_layout {x : NestedLoopJoinExecutor} {leftCols rightCols : List ColMeta}
    (made : NestedLoopJoinExecutor.new x.left x.right conds = .ok x) (L : Layout x.left leftCols)
    (R : Layout x.right rightCols) (small : totalLen x.cols ≤ intMax) :
    x.cols = leftCols ++ shifted x.left.tupleLen rightCols ∧ x.len = x.left.tupleLen + x.right.tupleLen ∧
      Layout x.executor x.cols := by
  obtain ⟨leftCols', rightCols', left, right, cols, len⟩ := nestedLoopJoin_new made
  cases L.columns.symm.trans left
  cases R.columns.symm.trans right
  have sum : totalLen x.cols = x.left.tupleLen + x.right.tupleLen := by
    rw [cols, totalLen_append, totalLen_shifted, L.size, R.size]
  have whole : x.len = x.left.tupleLen + x.right.tupleLen := by
    unfold intMax at small
    omega
  refine ⟨cols, whole, rfl, ?_, ?_, small⟩
  · rw [cols, consecutive_append, Int.zero_add, L.size]
    have behind := consecutive_shifted (d := x.left.tupleLen) R.tiles (by omega) (by rw [R.size]; omega)
    rw [Int.zero_add] at behind
    exact ⟨L.tiles, behind⟩
  · change totalLen x.cols = x.len
    omega

theorem projection_layout {x : ProjectionExecutor} {prevCols : List ColMeta}
    (made : ProjectionExecutor.new x.prev selCols = .ok x) (P : Layout x.prev prevCols)
    (small : totalLen x.cols ≤ intMax) : (∀ col ∈ x.selected, col ∈ prevCols) ∧
      totalLen x.selected = x.len ∧ Layout x.executor x.cols := by
  obtain ⟨prevCols', prev, chosen⟩ := projection_new made
  cases P.columns.symm.trans prev
  have positive : ∀ col ∈ x.selected, 0 < col.len := fun col member => len_pos P.tiles col (chosen col member)
  have total : totalLen x.cols = totalLen x.selected := ProjectionExecutor.totalLen_place 0 x.selected
  obtain ⟨tiles, len⟩ := ProjectionExecutor.place_fits (k := 0) positive (by omega)
  have len : (x.len : Int) = (0 : Nat) + totalLen x.selected := len
  refine ⟨chosen, by omega, rfl, tiles, ?_, small⟩
  change totalLen x.cols = x.len
  omega

/-- The columns of every tree follow one another and fill its tuples. -/
theorem layout (tree : ExecutorTree sm E) (laid : tree.AllTables fun tabName tab => tab.LaidOut tabName)
    (small : tree.Small) : ∃ cols, Layout E cols := by
  induction tree with
  | @seqScan tabName _ x made =>
    obtain ⟨tab, table, same, last, atEnd, len⟩ := seqScan_new made
    have tiles := (laid tabName List.mem_cons_self tab table).tiles
    have total := totalLen_nonneg (len_nonneg tiles)
    refine ⟨x.cols, rfl, by rw [same]; exact tiles, ?_, small⟩
    change totalLen x.cols = x.len
    rw [Small, same] at small
    rw [same, len, end_of_last tiles atEnd, Int.zero_add, ProjectionExecutor.sizeT_of_nonneg total small]
  | @nestedLoopJoin _ x left right made ihLeft ihRight =>
    obtain ⟨leftCols, L⟩ := ihLeft (fun t member => laid t (List.mem_append_left _ member)) small.1
    obtain ⟨rightCols, R⟩ := ihRight (fun t member => laid t (List.mem_append_right _ member)) small.2.1
    exact ⟨x.cols, (nestedLoopJoin_layout made L R small.2.2).2.2⟩
  | @projection _ x prev made ih =>
    obtain ⟨prevCols, P⟩ := ih laid small.1
    exact ⟨x.cols, (projection_layout made P small.2).2.2⟩

/-- The left part of a joined tuple reads like the left tuple, the rest like the right one. -/
theorem supplies_join {cols : List ColMeta} {d : Nat} {a l : RmRecord} {standing : Standing} {b c : ColMeta}
    (laid : Consecutive 0 cols) (size : totalLen cols = d) (copied : l.bytesAt 0 d = .ok a) (behind : RmRecord)
    (member : c ∈ cols) (supplies : standing.Supplies b c l) : standing.Supplies b c (a ++ behind) := by
  obtain ⟨r, record, bytes⟩ := supplies.bytes
  obtain ⟨_, _, _, upper⟩ := fits_of_mem laid le_rfl member
  have length := bytesAt_length copied
  refine ⟨supplies.member, supplies.same, r, record, ?_⟩
  rw [RmRecord.bytesAt_left (by omega), RmRecord.bytesAt_copied copied (by omega), bytes]

theorem supplies_shifted {cols : List ColMeta} {d : Nat} {a r : RmRecord} {standing : Standing} {b c : ColMeta}
    (laid : Consecutive 0 cols) (size : totalLen cols = d) (copied : r.bytesAt 0 d = .ok a) (front : RmRecord)
    (range : front.length + totalLen cols ≤ intMax)
    (member : c ∈ cols) (supplies : standing.Supplies b c r) :
    standing.Supplies b { c with offset := wrapInt (c.offset + front.length) } (front ++ a) := by
  obtain ⟨record, found, bytes⟩ := supplies.bytes
  obtain ⟨lower, _, nonneg, upper⟩ := fits_of_mem laid le_rfl member
  have moved : wrapInt (c.offset + front.length) = c.offset + front.length := by
    apply wrapInt_of_isInt
    unfold IsInt intMin
    omega
  refine ⟨supplies.member, ?_, record, found, ?_⟩
  · conv_lhs => rw [supplies.same]
  · change RmRecord.bytesAt (front ++ a) (wrapInt (c.offset + front.length)) c.len = _
    rw [moved, RmRecord.bytesAt_right (by omega), Int.add_sub_cancel, RmRecord.bytesAt_copied copied (by omega), bytes]

theorem supplied (tree : ExecutorTree sm E) (laid : tree.AllTables fun tabName tab => tab.LaidOut tabName)
    (small : tree.Small) {cols : List ColMeta} (columns : E.cols = some cols) {s : E.State} {tuple : RmRecord}
    (next : E.next s = .ok (some tuple)) {c : ColMeta} (member : c ∈ cols) :
    ∃ standing ∈ tree.scans s, ∃ b, standing.Supplies b c tuple := by
  induction tree generalizing cols tuple c with
  | @seqScan tabName _ x made =>
    cases columns
    exact ⟨_, List.mem_cons_self, c, member, rfl, tuple, next, rfl⟩
  | @nestedLoopJoin _ x left right made ihLeft ihRight =>
    have laidLeft : left.AllTables fun tabName tab => tab.LaidOut tabName :=
      fun t member => laid t (List.mem_append_left _ member)
    have laidRight : right.AllTables fun tabName tab => tab.LaidOut tabName :=
      fun t member => laid t (List.mem_append_right _ member)
    obtain ⟨smallLeft, smallRight, small⟩ := small
    obtain ⟨leftCols, L⟩ := left.layout laidLeft smallLeft
    obtain ⟨rightCols, R⟩ := right.layout laidRight smallRight
    obtain ⟨same, _⟩ := nestedLoopJoin_layout made L R small
    cases columns
    obtain ⟨leftRec, nextLeft, next⟩ := bind_eq_ok_iff.mp next
    obtain ⟨rightRec, nextRight, next⟩ := bind_eq_ok_iff.mp next
    split at next
    · cases next
    obtain ⟨a, copied, next⟩ := bind_eq_ok_iff.mp next
    obtain ⟨a', copied', next⟩ := bind_eq_ok_iff.mp next
    cases next
    obtain ⟨l, rfl, copied⟩ := dataAt_ok copied
    obtain ⟨r, rfl, copied'⟩ := dataAt_ok copied'
    have length := bytesAt_length copied
    rw [same] at member
    rcases List.mem_append.mp member with member | member
    · obtain ⟨standing, here, b, supplies⟩ := ihLeft laidLeft smallLeft L.columns nextLeft member
      exact ⟨standing, List.mem_append_left _ here, b, supplies_join L.tiles L.size copied a' member supplies⟩
    · obtain ⟨c, own, rfl⟩ := List.mem_map.mp member
      obtain ⟨standing, here, b, supplies⟩ := ihRight laidRight smallRight R.columns nextRight own
      have sum : totalLen x.cols = a.length + totalLen rightCols := by
        rw [same, totalLen_append, totalLen_shifted, L.size]
        omega
      refine ⟨standing, List.mem_append_right _ here, b, ?_⟩
      rw [show x.left.tupleLen = a.length by omega]
      exact supplies_shifted R.tiles R.size copied' a (by omega) own supplies
  | @projection _ x prev made ih =>
    obtain ⟨smallPrev, small⟩ := small
    obtain ⟨prevCols, P⟩ := prev.layout laid smallPrev
    obtain ⟨chosen, size, _⟩ := projection_layout made P small
    cases columns
    obtain ⟨prevRec, nextPrev, next⟩ := bind_eq_ok_iff.mp next
    split at next
    · cases next
    obtain ⟨parts, copied, next⟩ := bind_eq_ok_iff.mp next
    cases next
    have positive : ∀ col ∈ x.selected, 0 < col.len := fun col member => len_pos P.tiles col (chosen col member)
    have total : totalLen x.cols = totalLen x.selected := ProjectionExecutor.totalLen_place 0 x.selected
    have wide : ∀ col ∈ x.selected, ∀ part, dataAt prevRec col.offset col.len = .ok part →
        (part.length : Int) = col.len := fun col member part read => width_of_read (positive col member) read
    have placed := @ProjectionExecutor.place_parts 0 _ _ _ [] (mapM_ok copied) wide positive (by omega) rfl
    obtain ⟨col, chosen', same, part, read, bytes⟩ := exists_of_forall₂ placed member
    obtain ⟨r, rfl, stored⟩ := dataAt_ok read
    obtain ⟨standing, here, b, supplies⟩ := ih laid smallPrev P.columns nextPrev (chosen col chosen')
    obtain ⟨record, found, bytes'⟩ := supplies.bytes
    refine ⟨standing, here, b, supplies.member, ?_, record, found, ?_⟩
    · conv_lhs => rw [same, supplies.same]
    · rw [← bytes']
      exact bytes.trans stored.symm

/-- Over scans that all stand at a record `Next` returns a tuple of the whole length. -/
theorem next_returns (tree : ExecutorTree sm E) (laid : tree.AllTables fun tabName tab => tab.LaidOut tabName)
    (small : tree.Small) {s : E.State} (onRecords : ∀ standing ∈ tree.scans s, standing.OnRecord) :
    ∃ tuple, E.next s = .ok (some tuple) ∧ tuple.length = E.tupleLen := by
  induction tree with
  | @seqScan tabName _ x made => exact onRecords _ List.mem_cons_self
  | @nestedLoopJoin _ x left right made ihLeft ihRight =>
    have laidLeft : left.AllTables fun tabName tab => tab.LaidOut tabName :=
      fun t member => laid t (List.mem_append_left _ member)
    have laidRight : right.AllTables fun tabName tab => tab.LaidOut tabName :=
      fun t member => laid t (List.mem_append_right _ member)
    obtain ⟨smallLeft, smallRight, small⟩ := small
    obtain ⟨leftCols, L⟩ := left.layout laidLeft smallLeft
    obtain ⟨rightCols, R⟩ := right.layout laidRight smallRight
    obtain ⟨_, len, whole⟩ := nestedLoopJoin_layout made L R small
    obtain ⟨l, nextLeft, length⟩ := ihLeft laidLeft smallLeft
      fun standing member => onRecords standing (List.mem_append_left _ member)
    obtain ⟨r, nextRight, length'⟩ := ihRight laidRight smallRight
      fun standing member => onRecords standing (List.mem_append_right _ member)
    have fits : x.len ≤ intMax := whole.size.symm.trans_le small
    refine ⟨l ++ r, NestedLoopJoinExecutor.next_append nextLeft nextRight length length' fits, ?_⟩
    change _ = x.len
    rw [List.length_append, length, length', len]
  | @projection _ x prev made ih =>
    obtain ⟨smallPrev, small⟩ := small
    obtain ⟨prevCols, P⟩ := prev.layout laid smallPrev
    obtain ⟨chosen, size, whole⟩ := projection_layout made P small
    obtain ⟨r, nextPrev, length⟩ := ih laid smallPrev onRecords
    have fits : x.len ≤ intMax := whole.size.symm.trans_le small
    have each : ∀ col ∈ x.selected, dataAt (some r) col.offset col.len =
        .ok ((r.drop col.offset.toNat).take col.len.toNat) := by
      intro col member
      obtain ⟨_, lower, nonneg, upper⟩ := fits_of_mem P.tiles le_rfl (chosen col member)
      have total := P.size
      exact bytesAt_ok_iff.mpr ⟨⟨lower, nonneg, by omega⟩, rfl⟩
    obtain ⟨parts, copied⟩ := mapM_ok_iff.mpr fun col member => ⟨_, each col member⟩
    have length := ProjectionExecutor.flatten_length (mapM_ok copied)
      fun col member part read => width_of_read (len_pos P.tiles col (chosen col member)) read
    refine ⟨parts.flatten, ?_, ?_⟩
    · change x.next s = _
      simp only [ProjectionExecutor.next, nextPrev, ok_bind, if_neg (not_lt.mpr fits), copied]
      rfl
    · change _ = x.len
      omega

/-- A join reads the bytes of a column from its two tuples as a scan does from the two in a row. -/
theorem bytes_appended {x : NestedLoopJoinExecutor} {leftCols rightCols : List ColMeta} {l r : RmRecord}
    {col : ColMeta} {n : Int} (L : Layout x.left leftCols)
    (same : x.cols = leftCols ++ shifted x.left.tupleLen rightCols)
    (whole : Layout x.executor x.cols) (length : l.length = x.left.tupleLen) (member : col ∈ x.cols)
    (narrow : n ≤ col.len) :
    (if sizeT col.offset < x.left.tupleLen then dataAt (some l) col.offset n
      else dataAt (some r) (col.offset - x.left.tupleLen) n) = dataAt (some (l ++ r)) col.offset n := by
  have positive := len_pos whole.tiles col member
  obtain ⟨_, lower, _, upper⟩ := fits_of_mem whole.tiles le_rfl member
  have small := whole.small
  have size := ProjectionExecutor.sizeT_of_nonneg lower (by omega)
  rw [same] at member
  rcases List.mem_append.mp member with member | member
  · obtain ⟨_, _, _, upper'⟩ := fits_of_mem L.tiles le_rfl member
    have total := L.size
    rw [if_pos (by omega)]
    exact (RmRecord.bytesAt_left (by omega)).symm
  · have tiles := whole.tiles
    rw [same, consecutive_append, Int.zero_add, L.size] at tiles
    obtain ⟨behind, _⟩ := fits_of_mem tiles.2 (by omega) member
    rw [if_neg (by omega), ← length]
    exact (RmRecord.bytesAt_right (by omega)).symm

/-- Columns keep what a comparison reads of them. -/
theorem wide (tree : ExecutorTree sm E) (numbers : tree.AllTables fun _ tab => tab.Wide) {cols : List ColMeta}
    (columns : E.cols = some cols) : ∀ col ∈ cols, compareLen col.type col.len ≤ col.len := by
  induction tree generalizing cols with
  | @seqScan tabName _ x made =>
    obtain ⟨tab, table, same, _⟩ := seqScan_new made
    cases columns
    intro col member
    rw [same] at member
    have four := numbers tabName List.mem_cons_self tab table col member
    unfold compareLen
    cases type : col.type with
    | string => exact le_rfl
    | int => exact four (by simp [type])
    | float => exact four (by simp [type])
  | @nestedLoopJoin _ x left right made ihLeft ihRight =>
    obtain ⟨leftCols, rightCols, left', right', same, _⟩ := nestedLoopJoin_new made
    cases columns
    intro col member
    rw [same] at member
    rcases List.mem_append.mp member with member | member
    · exact ihLeft (fun t member => numbers t (List.mem_append_left _ member)) left' col member
    · obtain ⟨col, own, rfl⟩ := List.mem_map.mp member
      exact ihRight (fun t member => numbers t (List.mem_append_right _ member)) right' col own
  | @projection _ x prev made ih =>
    obtain ⟨prevCols, prev', chosen⟩ := projection_new made
    cases columns
    intro col member
    obtain ⟨old, member, same⟩ := exists_of_forall₂ (ProjectionExecutor.place_same 0 x.selected) member
    rw [same]
    exact ih numbers prev' old (chosen old member)

/-- A join of a tree is the root of a tree. -/
theorem of_mem_joins {P : String → TabMeta → Prop} (tree : ExecutorTree sm E) (tables : tree.AllTables P)
    (small : tree.Small) {x : NestedLoopJoinExecutor} (member : x ∈ tree.joins) :
    ∃ (conds : List Condition) (left : ExecutorTree sm x.left) (right : ExecutorTree sm x.right)
      (made : NestedLoopJoinExecutor.new x.left x.right conds = .ok x),
      (nestedLoopJoin left right made).AllTables P ∧ (nestedLoopJoin left right made).Small := by
  induction tree with
  | seqScan _ => cases member
  | @nestedLoopJoin conds y left right made ihLeft ihRight =>
    rcases List.mem_cons.mp member with rfl | member
    · exact ⟨conds, left, right, made, tables, small⟩
    · rcases List.mem_append.mp member with member | member
      · exact ihLeft (fun t member => tables t (List.mem_append_left _ member)) small.1 member
      · exact ihRight (fun t member => tables t (List.mem_append_right _ member)) small.2.1 member
  | projection prev _ ih => exact ih tables small.1 member

end ExecutorTree

/-- The right column of a condition is at least as long as the left one. -/
def Condition.NotShorter (c : Condition) (cols : List ColMeta) : Prop :=
  c.isRhsVal = false → ∀ lhs rhs, getCol cols c.lhsCol = .ok lhs → getCol cols c.rhsCol = .ok rhs → lhs.len ≤ rhs.len

/-- Where the bytes of the two columns are the same, so is the outcome. -/
theorem evalCondAt_congr {cols : List ColMeta} {bytes bytes' : ColMeta → Int → Except Error (List UInt8)}
    {c : Condition} (notShorter : c.NotShorter cols) (wide : ∀ col ∈ cols, compareLen col.type col.len ≤ col.len)
    (same : ∀ col ∈ cols, ∀ n ≤ col.len, bytes col n = bytes' col n) :
    evalCondAt cols bytes c = evalCondAt cols bytes' c := by
  unfold evalCondAt
  cases left : getCol cols c.lhsCol with
  | error e => rfl
  | ok lhs =>
    have member := getCol_mem left
    simp only [ok_bind, same lhs member _ (wide lhs member)]
    cases literal : c.isRhsVal with
    | true => rfl
    | false =>
      cases right : getCol cols c.rhsCol with
      | error e => rfl
      | ok rhs =>
        have le := (wide lhs member).trans (notShorter literal lhs rhs left right)
        simp only [Bool.false_eq_true, if_false, ok_bind, same rhs (getCol_mem right) _ le]

namespace ExecutorTree
variable {sm : SmManager} {E : Executor}

theorem eval_cond_appended (tree : ExecutorTree sm E) (laid : tree.AllTables fun tabName tab => tab.LaidOut tabName)
    (numbers : tree.AllTables fun _ tab => tab.Wide) (small : tree.Small) {x : NestedLoopJoinExecutor}
    (member : x ∈ tree.joins) {l r : RmRecord} (length : l.length = x.left.tupleLen) {c : Condition}
    (notShorter : c.NotShorter x.cols) {y : SeqScanExecutor} (cols : y.cols = x.cols) :
    x.evalCond (some l) (some r) c = y.evalCond (some (l ++ r)) c := by
  obtain ⟨conds, left, right, made, both, small⟩ := tree.of_mem_joins
    (P := fun tabName tab => tab.LaidOut tabName ∧ tab.Wide)
    (fun t table tab found => ⟨laid t table tab found, numbers t table tab found⟩) small member
  obtain ⟨leftCols, L⟩ := left.layout
    (fun t table tab found => (both t (List.mem_append_left _ table) tab found).1) small.1
  obtain ⟨rightCols, R⟩ := right.layout
    (fun t table tab found => (both t (List.mem_append_right _ table) tab found).1) small.2.1
  obtain ⟨same, _, whole⟩ := nestedLoopJoin_layout made L R small.2.2
  have wide := (nestedLoopJoin left right made).wide (fun t table tab found => (both t table tab found).2) rfl
  rw [NestedLoopJoinExecutor.evalCond, SeqScanExecutor.evalCond, cols]
  exact evalCondAt_congr notShorter wide fun col member n narrow => bytes_appended L same whole length member narrow

theorem scans_tables (tree : ExecutorTree sm E) (s : E.State) : (tree.scans s).map (·.tabName) = tree.tables := by
  induction tree with
  | seqScan _ => rfl
  | nestedLoopJoin left right _ ihLeft ihRight => rw [scans, List.map_append, ihLeft, ihRight, tables]
  | projection prev _ ih => exact ih s

theorem of_mem_scans (tree : ExecutorTree sm E) {s : E.State} {standing : Standing} (member : standing ∈ tree.scans s) :
    ∃ tab, sm.db.getTable standing.tabName = .ok tab ∧ standing.scan.cols = tab.cols := by
  induction tree with
  | seqScan made =>
    cases List.mem_singleton.mp member
    obtain ⟨tab, table, same, _⟩ := seqScan_new made
    exact ⟨tab, table, same⟩
  | nestedLoopJoin left right _ ihLeft ihRight =>
    rcases List.mem_append.mp member with member | member
    · exact ihLeft member
    · exact ihRight member
  | projection prev _ ih => exact ih member

/-- With different tables and different names a column comes from one place only. -/
theorem supplies_unique (tree : ExecutorTree sm E) (distinct : tree.tables.Nodup)
    (laid : tree.AllTables fun tabName tab => tab.LaidOut tabName) {s : E.State} {standing standing' : Standing}
    (here : standing ∈ tree.scans s) (here' : standing' ∈ tree.scans s) {b b' : ColMeta}
    (member : b ∈ standing.scan.cols) (member' : b' ∈ standing'.scan.cols) (table : b'.tabName = b.tabName)
    (name : b'.name = b.name) : standing' = standing ∧ b' = b := by
  obtain ⟨tab, found, cols⟩ := tree.of_mem_scans here
  obtain ⟨tab', found', cols'⟩ := tree.of_mem_scans here'
  have tables := tree.scans_tables s
  have inTables : standing.tabName ∈ tree.tables := tables ▸ List.mem_map_of_mem here
  have inTables' : standing'.tabName ∈ tree.tables := tables ▸ List.mem_map_of_mem here'
  rw [cols] at member
  rw [cols'] at member'
  have layout := laid _ inTables tab found
  have sameTable : standing'.tabName = standing.tabName := by
    rw [← (laid _ inTables' tab' found').owned b' member', table, layout.owned b member]
  rw [← tables] at distinct
  have same := List.inj_on_of_nodup_map distinct here' here sameTable
  subst same
  cases found.symm.trans found'
  exact ⟨rfl, List.inj_on_of_nodup_map layout.named member' member name⟩

/-- Metadata composes. The columns of a tree follow one another from 0 to the end of its tuples; a column
of a tuple has the bytes of its one column in the record its scan stands at; and a join evaluates
a condition like a scan over the two tuples in a row. -/
theorem tuple_metadata (tree : ExecutorTree sm E) (distinct : tree.tables.Nodup)
    (laid : tree.AllTables fun tabName tab => tab.LaidOut tabName) (numbers : tree.AllTables fun _ tab => tab.Wide)
    (small : tree.Small) :
    ∃ cols, E.cols = some cols ∧ Consecutive 0 cols ∧ totalLen cols = E.tupleLen ∧
      (∀ s tuple, E.next s = .ok (some tuple) → ∀ c ∈ cols, ∃ standing ∈ tree.scans s, ∃ b,
        standing.Supplies b c tuple ∧ ∀ standing' ∈ tree.scans s, ∀ b' ∈ standing'.scan.cols,
          b'.tabName = c.tabName → b'.name = c.name → standing' = standing ∧ b' = b) ∧
      (∀ s, (∀ standing ∈ tree.scans s, standing.OnRecord) →
        ∃ tuple, E.next s = .ok (some tuple) ∧ tuple.length = E.tupleLen) ∧
      ∀ x ∈ tree.joins, ∀ l r : RmRecord, l.length = x.left.tupleLen → r.length = x.right.tupleLen →
        ∀ c : Condition, c.NotShorter x.cols → ∀ y : SeqScanExecutor, y.cols = x.cols →
          x.evalCond (some l) (some r) c = y.evalCond (some (l ++ r)) c := by
  obtain ⟨cols, whole⟩ := tree.layout laid small
  refine ⟨cols, whole.columns, whole.tiles, whole.size, ?_, ?_, ?_⟩
  · intro s tuple next c member
    obtain ⟨standing, here, b, supplies⟩ := tree.supplied laid small whole.columns next member
    refine ⟨standing, here, b, supplies, fun standing' here' b' member' table name => ?_⟩
    refine tree.supplies_unique distinct laid here here' supplies.member member' ?_ ?_
    · rw [table, supplies.same]
    · rw [name, supplies.same]
  · exact fun s onRecords => tree.next_returns laid small onRecords
  · exact fun x member l r length _ c notShorter y same =>
      tree.eval_cond_appended laid numbers small member length notShorter same

open Portal in
/-- `select * from a, b` over two tables with one INT column each. -/
theorem tuple_metadata_cross : ∃ cols, crossJoin.executor.cols = some cols ∧ Consecutive 0 cols ∧ totalLen cols = 8 ∧
    ∀ y : SeqScanExecutor, y.cols = crossJoin.cols → ∀ c : Condition, c.NotShorter crossJoin.cols →
      crossJoin.evalCond (some [9, 9, 9, 9]) (some [7, 7, 7, 7]) c =
        y.evalCond (some [9, 9, 9, 9, 7, 7, 7, 7]) c := by
  let tree : ExecutorTree twoTables crossJoin.executor := nestedLoopJoin (seqScan scan_b) (seqScan scan_a) crossJoin_new
  have tables : ∀ t ∈ tree.tables, ∀ tab, twoTables.db.getTable t = .ok tab →
      tab.cols = [⟨t, "x", .int, 4, 0, false⟩] := by
    intro t member tab found
    have either : t = "b" ∨ t = "a" := by simpa [tree, ExecutorTree.tables] using member
    rcases either with rfl | rfl <;> cases found <;> rfl
  have laid : tree.AllTables fun tabName tab => tab.LaidOut tabName := by
    intro t member tab found
    have cols := tables t member tab found
    refine ⟨?_, ?_, ?_⟩
    · simp [cols]
    · simp [cols]
    · simp [cols, Consecutive]
  have numbers : tree.AllTables fun _ tab => tab.Wide := by
    intro t member tab found col own
    rw [tables t member tab found, List.mem_singleton] at own
    simp [own]
  have small : tree.Small := by
    refine ⟨?_, ?_, ?_⟩ <;> change totalLen _ ≤ intMax <;> decide
  obtain ⟨cols, columns, tiles, size, _, _, same⟩ := tree.tuple_metadata (by decide) laid numbers small
  refine ⟨cols, columns, tiles, size, fun y own c notShorter => ?_⟩
  exact same crossJoin List.mem_cons_self _ _ rfl rfl c notShorter y own

end ExecutorTree

/-- A table with one column of 512 bytes, the largest a record file takes. -/
def wideSm : SmManager :=
  ⟨⟨"d", [("t", ⟨"t", [⟨"t", "a", .string, 512, 0, false⟩], []⟩)]⟩, fun _ => some ⟨⟨3, .create 512⟩, .blank 0⟩⟩

def wideScan : SeqScanExecutor := ⟨⟨⟨3, .create 512⟩, .blank 0⟩, [⟨"t", "a", .string, 512, 0, false⟩], 512, []⟩

theorem wideScan_new : SeqScanExecutor.new wideSm "t" [] = .ok wideScan := by
  simp [SeqScanExecutor.new, wideSm, DbMeta.getTable, wideScan, sizeT]
  rfl

/-- The column chosen `n` times. -/
def wideProjection (n : Nat) : ProjectionExecutor :=
  ⟨wideScan.executor, List.replicate n ⟨"t", "a", .string, 512, 0, false⟩⟩

theorem wideProjection_new (n : Nat) :
    ProjectionExecutor.new (wideProjection n).prev (List.replicate n ⟨"t", "a"⟩) = .ok (wideProjection n) := by
  have each : ∀ target ∈ List.replicate n (⟨"t", "a"⟩ : TabCol),
      getCol wideScan.cols target = .ok ⟨"t", "a", .string, 512, 0, false⟩ := by
    intro target member
    rw [List.eq_of_mem_replicate member]
    rfl
  have chosen := mapM_of_ok each
  rw [List.map_const', List.length_replicate] at chosen
  simp only [ProjectionExecutor.new, wideProjection, SeqScanExecutor.executor, chosen]

def wideTree (n : Nat) : ExecutorTree wideSm (wideProjection n).executor :=
  .projection (.seqScan wideScan_new) (wideProjection_new n)

theorem ProjectionExecutor.place_isInt (k : Nat) (selected : List ColMeta) :
    ∀ col ∈ (place k selected).1, IsInt col.offset := by
  induction selected generalizing k with
  | nil => exact fun col member => by cases member
  | cons col selected ih =>
    rw [place_cons]
    exact List.forall_mem_cons.mpr ⟨isInt_wrapInt _, ih _⟩

/-- The last column would start at 2147483648 or behind it. -/
theorem wideProjection_overflows {n : Nat} (many : 4194304 < n) :
    ¬∃ cols, (wideProjection n).executor.cols = some cols ∧ Consecutive 0 cols := by
  rintro ⟨_, columns, tiles⟩
  cases columns
  have total : totalLen (wideProjection n).cols = n * 512 := by
    rw [ProjectionExecutor.cols, ProjectionExecutor.totalLen_place]
    simp [totalLen, wideProjection]
  cases last : (wideProjection n).cols.getLast? with
  | none =>
    rw [List.getLast?_eq_none_iff.mp last, totalLen, List.map_nil, List.sum_nil] at total
    omega
  | some col =>
    have atEnd := end_of_last tiles last
    have member := List.mem_of_getLast? last
    have range := ProjectionExecutor.place_isInt 0 _ col member
    obtain ⟨old, own, same⟩ := exists_of_forall₂ (ProjectionExecutor.place_same 0 (wideProjection n).selected) member
    rw [List.eq_of_mem_replicate own] at same
    have len : col.len = 512 := by rw [same]
    unfold IsInt intMax at range
    omega

/-- An INT column of two bytes, which no statement creates. -/
def narrowSm : SmManager :=
  ⟨⟨"d", [("t", ⟨"t", [⟨"t", "a", .int, 2, 0, false⟩], []⟩), ("u", ⟨"u", [⟨"u", "b", .string, 2, 0, false⟩], []⟩)]⟩,
    fun _ => some ⟨⟨3, .create 2⟩, .blank 0⟩⟩

def narrowScan (col : ColMeta) : SeqScanExecutor := ⟨⟨⟨3, .create 2⟩, .blank 0⟩, [col], 2, []⟩

def narrowJoin : NestedLoopJoinExecutor where
  left := (narrowScan ⟨"t", "a", .int, 2, 0, false⟩).executor
  right := (narrowScan ⟨"u", "b", .string, 2, 0, false⟩).executor
  len := 4
  cols := [⟨"t", "a", .int, 2, 0, false⟩, ⟨"u", "b", .string, 2, 2, false⟩]
  fedConds := []

theorem narrowJoin_new : NestedLoopJoinExecutor.new narrowJoin.left narrowJoin.right [] = .ok narrowJoin := by
  simp [NestedLoopJoinExecutor.new, SeqScanExecutor.executor, narrowJoin, narrowScan, wrapInt]

def narrowTree : ExecutorTree narrowSm narrowJoin.executor :=
  .nestedLoopJoin (@ExecutorTree.seqScan _ "t" [] _ rfl) (@ExecutorTree.seqScan _ "u" [] _ rfl) narrowJoin_new

/-- Without the two conditions: 4194305 times a column of 512 bytes is more than an offset can say, and
of an INT column of two bytes at the end of the left tuple a join reads two bytes outside. -/
theorem not_tuple_metadata :
    (¬∀ (sm : SmManager) (E : Executor) (tree : ExecutorTree sm E), tree.tables.Nodup →
      (tree.AllTables fun tabName tab => tab.LaidOut tabName) → ∃ cols, E.cols = some cols ∧ Consecutive 0 cols) ∧
    ¬∀ (sm : SmManager) (E : Executor) (tree : ExecutorTree sm E), tree.tables.Nodup →
      (tree.AllTables fun tabName tab => tab.LaidOut tabName) → ∀ x ∈ tree.joins, ∀ l r : RmRecord,
        l.length = x.left.tupleLen → r.length = x.right.tupleLen → ∀ c : Condition, c.NotShorter x.cols →
          ∀ y : SeqScanExecutor, y.cols = x.cols → x.evalCond (some l) (some r) c = y.evalCond (some (l ++ r)) c := by
  constructor
  · intro claim
    refine wideProjection_overflows (n := 4194305) (by omega) (claim _ _ (wideTree _) (List.nodup_singleton _) ?_)
    intro t member tab found
    rw [List.mem_singleton.mp member] at found ⊢
    cases found
    exact ⟨by simp, by simp, by simp [Consecutive]⟩
  · intro claim
    have same := claim _ _ narrowTree (by decide) (by
      intro t member tab found
      have either : t = "t" ∨ t = "u" := by simpa [narrowTree, ExecutorTree.tables] using member
      rcases either with rfl | rfl <;> cases found <;> exact ⟨by simp, by simp, by simp [Consecutive]⟩)
      narrowJoin List.mem_cons_self [1, 0] [0, 0] rfl rfl
      ⟨⟨"t", "a"⟩, .eq, true, ⟨"", ""⟩, ⟨.int 1, some [1, 0, 0, 0]⟩⟩ (fun column => by cases column)
      { narrowScan ⟨"t", "a", .int, 2, 0, false⟩ with cols := narrowJoin.cols } rfl
    revert same
    decide

end Rmdb
