import Rmdb.Execution.Calm
import Rmdb.Execution.Composed
import Rmdb.Optimizer.Trunk

namespace Rmdb
open Portal

/-! What `convert_plan_executor` makes of scans and joins, and what the executors then throw. -/

/-- The name of a column in full, as `get_col` puts it into its error. -/
def TabCol.text (target : TabCol) : String := target.tabName ++ "." ++ target.colName

/-- One of the columns has this name. -/
def Has (cols : List ColMeta) (target : TabCol) : Prop :=
  ∃ col ∈ cols, col.tabName = target.tabName ∧ col.name = target.colName

section
variable {cols : List ColMeta} {target : TabCol} {allowed : Error → Prop}

theorem getCol_has (has : Has cols target) : ∃ col, getCol cols target = .ok col := by
  obtain ⟨col, member, same⟩ := has
  unfold getCol
  split
  · exact ⟨_, rfl⟩
  · rename_i none
    have other := List.find?_eq_none.mp none col member
    simp [same] at other

theorem getCol_missing (missing : ¬Has cols target) : getCol cols target = .error (.columnNotFound target.text) := by
  unfold getCol
  split
  · rename_i col found
    exact (missing ⟨col, List.mem_of_find?_eq_some found, by simpa using List.find?_some found⟩).elim
  · rfl

theorem getCol_ok_iff : (∃ col, getCol cols target = .ok col) ↔ Has cols target := by
  refine ⟨fun ⟨col, found⟩ => ?_, getCol_has⟩
  by_contra missing
  rw [getCol_missing missing] at found
  cases found

theorem knows_iff : Knows allowed cols target ↔ Has cols target ∨ allowed (.columnNotFound target.text) := by
  by_cases has : Has cols target
  · obtain ⟨col, found⟩ := getCol_has has
    refine iff_of_true ?_ (Or.inl has)
    rw [Knows, found]
    trivial
  · rw [Knows, getCol_missing has, or_iff_right has]
    rfl

end

/-- The scan of a plan as an executor. -/
structure ScanPlan.Opens (sm : SmManager) (p : ScanPlan) (x : SeqScanExecutor) : Prop where
  tag : p.tag = .seqScan
  made : SeqScanExecutor.new sm p.tabName p.conds = .ok x
  cols : x.cols = p.cols
  conds : x.fedConds = p.conds
  file : sm.fhs p.tabName = some x.fh

namespace Plan
variable {sm : SmManager} {plan : Plan} {E : Executor} {allowed : Error → Prop}

/-- A tree of joins whose scans all become executors. -/
def Grounded (sm : SmManager) : Plan → Prop
  | .null => True
  | .scan p => ∃ x, p.Opens sm x
  | .join left right _ => left.Grounded sm ∧ right.Grounded sm
  | _ => False

def Has (plan : Plan) (target : TabCol) : Prop := ∃ p ∈ plan.scans, Rmdb.Has p.cols target

/-- A tree without the column gives an error of the kind. -/
def Knows (allowed : Error → Prop) (plan : Plan) (target : TabCol) : Prop :=
  plan.Has target ∨ allowed (.columnNotFound target.text)

def Settles (allowed : Error → Prop) (plan : Plan) (c : Condition) : Prop :=
  plan.Knows allowed c.lhsCol ∧ (plan.Has c.lhsCol → c.isRhsVal = false → plan.Knows allowed c.rhsCol)

/-- Every condition knows its columns where it is. -/
def Settled (allowed : Error → Prop) : Plan → Prop
  | .scan p => ∀ c ∈ p.conds, (Plan.scan p).Settles allowed c
  | .join left right conds => left.Settled allowed ∧ right.Settled allowed ∧
    ∀ c ∈ conds, (join left right conds).Settles allowed c
  | _ => True

theorem has_scan {p : ScanPlan} {target : TabCol} : (Plan.scan p).Has target ↔ Rmdb.Has p.cols target := by
  simp [Has, scans]

theorem has_join {left right : Plan} {conds : List Condition} {target : TabCol} :
    (join left right conds).Has target ↔ left.Has target ∨ right.Has target := by
  simp only [Has, scans, List.mem_append, or_and_right, exists_or]

theorem convert_scan {p : ScanPlan} {x : SeqScanExecutor} (opens : p.Opens sm x) :
    convertPlanExecutor sm (.scan p) = .ok x.executor := by
  simp only [convertPlanExecutor, opens.tag, opens.made]

/-- The columns of the executor are those of the scans. -/
theorem convert_cols (grounded : plan.Grounded sm) (run : convertPlanExecutor sm plan = .ok E) :
    ∃ cols, E.cols = some cols ∧ ∀ target, Rmdb.Has cols target ↔ plan.Has target := by
  induction plan generalizing E with
  | null => cases run
  | projection => exact grounded.elim
  | sort => exact grounded.elim
  | scan p =>
    obtain ⟨x, opens⟩ := grounded
    rw [convert_scan opens] at run
    cases run
    exact ⟨_, rfl, fun target => by rw [has_scan, opens.cols]⟩
  | join left right conds ihLeft ihRight =>
    rw [convertPlanExecutor] at run
    split at run
    · cases run
    · cases run
    · rename_i l r builtLeft builtRight
      obtain ⟨leftCols, left, inLeft⟩ := ihLeft grounded.1 builtLeft
      obtain ⟨rightCols, right, inRight⟩ := ihRight grounded.2 builtRight
      simp only [NestedLoopJoinExecutor.new, left, right] at run
      cases run
      refine ⟨_, rfl, fun target => ?_⟩
      rw [has_join, ← inLeft, ← inRight]
      simp only [Rmdb.Has, List.mem_append, or_and_right, exists_or, List.mem_map]
      refine or_congr_right ⟨?_, ?_⟩
      · rintro ⟨_, ⟨col, member, rfl⟩, names⟩
        exact ⟨col, member, names⟩
      · rintro ⟨col, member, names⟩
        exact ⟨_, ⟨col, member, rfl⟩, names⟩

/-- Only a null plan is in the way. -/
theorem convert_fails {e : Error} (grounded : plan.Grounded sm) (run : convertPlanExecutor sm plan = .error e) :
    e = .undefined := by
  induction plan generalizing e with
  | null =>
    cases run
    rfl
  | projection => exact grounded.elim
  | sort => exact grounded.elim
  | scan p =>
    obtain ⟨x, opens⟩ := grounded
    rw [convert_scan opens] at run
    cases run
  | join left right conds ihLeft ihRight =>
    rw [convertPlanExecutor] at run
    split at run
    · rename_i failed
      cases run
      exact ihLeft grounded.1 failed
    · rename_i failed
      cases run
      exact ihRight grounded.2 failed
    · rename_i l r builtLeft builtRight
      obtain ⟨_, left, _⟩ := convert_cols grounded.1 builtLeft
      obtain ⟨_, right, _⟩ := convert_cols grounded.2 builtRight
      simp only [NestedLoopJoinExecutor.new, left, right] at run
      cases run

theorem convert_whole (grounded : plan.Grounded sm) (run : convertPlanExecutor sm plan = .ok E) : plan.Whole := by
  induction plan generalizing E with
  | null => cases run
  | projection => exact grounded.elim
  | sort => exact grounded.elim
  | scan p => trivial
  | join left right conds ihLeft ihRight =>
    rw [convertPlanExecutor] at run
    split at run
    · cases run
    · cases run
    · rename_i l r builtLeft builtRight
      exact ⟨ihLeft grounded.1 builtLeft, ihRight grounded.2 builtRight⟩

theorem convert_of_whole (grounded : plan.Grounded sm) (whole : plan.Whole) :
    ∃ E, convertPlanExecutor sm plan = .ok E := by
  induction plan with
  | null => exact whole.elim
  | projection => exact grounded.elim
  | sort => exact grounded.elim
  | scan p =>
    obtain ⟨x, opens⟩ := grounded
    exact ⟨_, convert_scan opens⟩
  | join left right conds ihLeft ihRight =>
    obtain ⟨l, builtLeft⟩ := ihLeft grounded.1 whole.1
    obtain ⟨r, builtRight⟩ := ihRight grounded.2 whole.2
    obtain ⟨_, hasLeft, _⟩ := convert_cols grounded.1 builtLeft
    obtain ⟨_, hasRight, _⟩ := convert_cols grounded.2 builtRight
    simp only [convertPlanExecutor, builtLeft, builtRight, NestedLoopJoinExecutor.new, hasLeft, hasRight]
    exact ⟨_, rfl⟩

theorem From.grounded {plans : List ScanPlan} {kind : Condition → Prop} (made : plan.From plans kind)
    (opens : ∀ p ∈ plans, ∃ x, p.Opens sm x) : plan.Grounded sm := by
  induction plan with
  | null => trivial
  | projection => exact made.elim
  | sort => exact made.elim
  | scan p => exact opens p made
  | join left right conds ihLeft ihRight => exact ⟨ihLeft made.1, ihRight made.2.1⟩

/-- Both names of a condition may be missing. -/
def Harmless (allowed : Error → Prop) (c : Condition) : Prop :=
  allowed (.columnNotFound c.lhsCol.text) ∧ allowed (.columnNotFound c.rhsCol.text)

theorem From.settled {plans : List ScanPlan} (made : plan.From plans (Harmless allowed))
    (onScans : ∀ p ∈ plans, ∀ c ∈ p.conds, Harmless allowed c) : plan.Settled allowed := by
  induction plan with
  | null => trivial
  | projection => trivial
  | sort => trivial
  | scan p => exact fun c member => ⟨Or.inr (onScans p made c member).1, fun _ _ => Or.inr (onScans p made c member).2⟩
  | join left right conds ihLeft ihRight =>
    refine ⟨ihLeft made.1, ihRight made.2.1, fun c member => ?_⟩
    exact ⟨Or.inr (made.2.2 c member).1, fun _ _ => Or.inr (made.2.2 c member).2⟩

/-- The executor of a tree whose conditions know their columns. -/
theorem convert_calm (plain : ∀ e, e.Plain → allowed e) (grounded : plan.Grounded sm) (settled : plan.Settled allowed)
    (run : convertPlanExecutor sm plan = .ok E) : E.Calm allowed := by
  induction plan generalizing E with
  | null => cases run
  | projection => exact grounded.elim
  | sort => exact grounded.elim
  | scan p =>
    obtain ⟨x, opens⟩ := grounded
    rw [convert_scan opens] at run
    cases run
    refine SeqScanExecutor.calm plain (SeqScanExecutor.mild_of_settles (plain _ .undefined) ?_)
    rw [opens.conds]
    intro c member
    simp only [Rmdb.Settles, knows_iff, getCol_ok_iff, opens.cols, ← has_scan]
    exact settled c member
  | join left right conds ihLeft ihRight =>
    have whole := run
    rw [convertPlanExecutor] at run
    split at run
    · cases run
    · cases run
    · rename_i l r builtLeft builtRight
      obtain ⟨leftCols, hasLeft, _⟩ := convert_cols grounded.1 builtLeft
      obtain ⟨rightCols, hasRight, _⟩ := convert_cols grounded.2 builtRight
      have calmLeft := ihLeft grounded.1 settled.1 builtLeft
      have calmRight := ihRight grounded.2 settled.2.1 builtRight
      simp only [NestedLoopJoinExecutor.new, hasLeft, hasRight] at run
      cases run
      obtain ⟨cols, same, has⟩ := @convert_cols _ (join left right conds) _ grounded whole
      cases same
      refine NestedLoopJoinExecutor.calm calmLeft calmRight (fun leftRec rightRec => ?_) plain
      refine allOf_throws fun c member => ?_
      refine evalCondAt_throws (plain _ .undefined) ?_ fun col len => ?_
      · simp only [Rmdb.Settles, knows_iff, getCol_ok_iff, has]
        exact settled.2.2 c member
      · split
        · exact dataAt_throws (plain _ .undefined) _ _ _
        · exact dataAt_throws (plain _ .undefined) _ _ _

/-! Chains. -/

theorem convert_join {p : ScanPlan} {x : SeqScanExecutor} (opens : p.Opens sm x) {cols : List ColMeta}
    (built : convertPlanExecutor sm plan = .ok E) (hasCols : E.cols = some cols) :
    ∃ y : NestedLoopJoinExecutor, y.left = x.executor ∧ y.right = E ∧
      convertPlanExecutor sm (.join (.scan p) plan []) = .ok y.executor := by
  have made : ∃ y, NestedLoopJoinExecutor.new x.executor E [] = .ok y := by
    rw [NestedLoopJoinExecutor.new, hasCols]
    exact ⟨_, rfl⟩
  obtain ⟨y, made⟩ := made
  obtain ⟨left, right, _⟩ := NestedLoopJoinExecutor.new_children made
  refine ⟨y, left, right, ?_⟩
  rw [convertPlanExecutor, convert_scan opens, built]
  simp only [made]

/-- If all tables but the first hold a record, the first one is begun. -/
theorem chain_bursts {scans : List ScanPlan} {e : Error} {cols : List ColMeta}
    (built : convertPlanExecutor sm plan = .ok E) (hasCols : E.cols = some cols) (bursts : E.Bursts e)
    (starts : ∀ p ∈ scans, ∃ x, p.Opens sm x ∧ x.executor.Starts) :
    ∃ E', convertPlanExecutor sm (plan.chain scans) = .ok E' ∧ E'.Bursts e := by
  induction scans generalizing plan E cols with
  | nil => exact ⟨E, built, bursts⟩
  | cons p scans ih =>
    obtain ⟨⟨x, opens, start⟩, starts⟩ := List.forall_mem_cons.mp starts
    obtain ⟨y, left, right, joined⟩ := convert_join opens built hasCols
    refine ih joined rfl (NestedLoopJoinExecutor.bursts ?_ ?_) starts
    · rw [left]
      exact start
    · rw [right]
      exact bursts

/-- A table without records in the chain ends it at once. -/
theorem chain_barren {scans : List ScanPlan} {cols : List ColMeta} (built : convertPlanExecutor sm plan = .ok E)
    (hasCols : E.cols = some cols)
    (calm : ∀ p ∈ scans, ∃ x, p.Opens sm x ∧ x.executor.Calm allowed)
    (empty : E.Barren allowed ∨ ∃ p ∈ scans, ∃ x, p.Opens sm x ∧ x.executor.Barren allowed) :
    ∃ E', convertPlanExecutor sm (plan.chain scans) = .ok E' ∧ E'.Barren allowed := by
  induction scans generalizing plan E cols with
  | nil =>
    rcases empty with barren | ⟨_, member, _⟩
    · exact ⟨E, built, barren⟩
    · cases member
  | cons p scans ih =>
    obtain ⟨⟨x, opens, quiet⟩, calm⟩ := List.forall_mem_cons.mp calm
    obtain ⟨y, left, right, joined⟩ := convert_join opens built hasCols
    refine ih joined rfl calm ?_
    rcases empty with barren | ⟨q, member, z, opened, barren⟩
    · refine Or.inl (NestedLoopJoinExecutor.barren_right ?_ ?_)
      · rw [left]
        exact quiet
      · rw [right]
        exact barren
    · rcases List.mem_cons.mp member with rfl | member
      · have same : z = x := Except.ok.inj (opened.made.symm.trans opens.made)
        refine Or.inl (NestedLoopJoinExecutor.barren_left ?_)
        rw [left, ← same]
        exact barren
      · exact Or.inr ⟨q, member, z, opened, barren⟩

end Plan

end Rmdb
