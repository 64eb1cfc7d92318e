import Rmdb.Execution.Inside

namespace Rmdb
open Analyze Plan

/-- The condition compares columns of two tables. -/
def Condition.relates (c : Condition) : Bool := !c.isRhsVal && c.lhsCol.tabName ≠ c.rhsCol.tabName

/-- The columns of the scan's conditions are found among its own. -/
def ScanPlan.Evaluates (p : ScanPlan) : Prop :=
  ∀ c ∈ p.conds, (∃ lhs, getCol p.cols c.lhsCol = .ok lhs) ∧
    (c.isRhsVal = false → ∃ rhs, getCol p.cols c.rhsCol = .ok rhs)

/-- What the push-down is for: one scan a table, each condition on one table on the scan of
that table and on no other, the conditions between tables left in their order. -/
structure PushedDown (tables : List String) (conds : List Condition) (scans : List ScanPlan)
    (rest : List Condition) : Prop where
  names : scans.map (·.tabName) = tables
  own : ∀ c ∈ conds, ∀ t, c.Own t → ∀ p ∈ scans, c ∈ p.conds ↔ p.tabName = t
  between : rest = conds.filter (·.relates)
  all : (scans.flatMap (·.conds) ++ rest).Perm conds
  evaluates : ∀ p ∈ scans, p.Evaluates

theorem Analyze.checkClause_literal {db : DbMeta} {tables : List String} {svConds : List Ast.BinaryExpr}
    {conds : List Condition}
    (analyzed : checkClause db tables (getClause svConds) = .ok conds) :
    ∀ c ∈ conds, c.isRhsVal = true → c.rhsCol.tabName = "" := by
  intro c member literal
  obtain ⟨cols, _, checked⟩ := bind_eq_ok_iff.mp analyzed
  obtain ⟨before, inClause, accepted⟩ := mem_mapM checked member
  obtain ⟨e, _, rfl⟩ := List.mem_map.mp inClause
  obtain ⟨_, kind, _, kept⟩ := checkCond_ok accepted
  rw [literal] at kind
  rw [kept kind.symm]
  unfold getCond at kind ⊢
  split
  · rfl
  · rename_i column
    simp [column] at kind

namespace Planner
variable {db : DbMeta} {tables : List String} {conds : List Condition} {c : Condition}

/-- The table whose scan takes the condition: the first one that can. -/
def taker (tables : List String) (c : Condition) : Option String := tables.find? fun t => Pops t c

theorem taker_literal (listed : c.lhsCol.tabName ∈ tables) (literal : c.isRhsVal = true)
    (other : c.lhsCol.tabName ≠ c.rhsCol.tabName) :
    taker tables c = some c.lhsCol.tabName := by
  unfold taker
  rw [List.find?_eq_some_iff_append]
  obtain ⟨before, after, rfl, first⟩ := List.eq_append_cons_of_mem listed
  refine ⟨by simp [Pops, literal], before, after, rfl, fun t member => ?_⟩
  have different : t ≠ c.lhsCol.tabName := fun same => first (same ▸ member)
  simp [Pops, different, other]

/-- A condition between two columns of one table goes to the first table, whichever it is on. -/
theorem taker_same (same : c.lhsCol.tabName = c.rhsCol.tabName) : taker tables c = tables.head? := by
  cases tables with
  | nil => rfl
  | cons t tables => simp [taker, Pops, same]

theorem taker_relates (relates : c.relates = true) : taker tables c = none := by
  obtain ⟨column, different⟩ : c.isRhsVal = false ∧
    c.lhsCol.tabName ≠ c.rhsCol.tabName := by simpa [Condition.relates] using relates
  refine List.find?_eq_none.mpr fun t _ => ?_
  simp [Pops, column, different]

/-- Every scan has exactly the conditions it is the taker of, in their order. -/
theorem scanPlans_conds (distinct : tables.Nodup) {scans : List ScanPlan} {rest : List Condition}
    (run : scanPlans db tables conds = .ok (scans, rest)) : ∀ p ∈ scans,
      p.conds = conds.filter (fun c => taker tables c = some p.tabName) ∧ p.tabName ∈ tables ∧
        ∃ tab, db.getTable p.tabName = .ok tab ∧ p.cols = tab.cols := by
  induction tables generalizing conds scans with
  | nil =>
    cases run
    exact fun p member => absurd member List.not_mem_nil
  | cons t tables ih =>
    obtain ⟨fresh, apart⟩ := List.nodup_cons.mp distinct
    have popped : popConds conds t = (conds.filter (Pops t), conds.filter fun c => !Pops t c) :=
      List.partition_eq_filter_filter
    rw [scanPlans, popped] at run
    obtain ⟨scan, made, run⟩ := bind_eq_ok_iff.mp run
    obtain ⟨⟨later, left⟩, others, run⟩ := bind_eq_ok_iff.mp run
    cases run
    obtain ⟨rfl, takes, table⟩ := scanPlan_ok made
    intro p member
    rcases List.mem_cons.mp member with rfl | member
    · refine ⟨takes.trans (List.filter_congr fun c _ => ?_), List.mem_cons_self, table⟩
      -- no later table has the name of this one
      have notLater : taker tables c ≠ some p.tabName := fun found => fresh (List.mem_of_find?_eq_some found)
      unfold taker at notLater ⊢
      rw [List.find?_cons]
      cases Pops p.tabName c <;> simp [notLater]
    · obtain ⟨takes, listed, table⟩ := ih apart others p member
      refine ⟨?_, List.mem_cons_of_mem _ listed, table⟩
      have different : scan.tabName ≠ p.tabName := fun same => fresh (same ▸ listed)
      rw [takes, List.filter_filter]
      refine List.filter_congr fun c _ => ?_
      unfold taker
      rw [List.find?_cons]
      cases Pops scan.tabName c <;> simp [different]

section
variable {svConds : List Ast.BinaryExpr} (wf : db.WF) (analyzed : checkClause db tables (getClause svConds) = .ok conds)
include wf analyzed

/-- The tables of an analyzed clause are in the catalog under real names. -/
theorem analyzed_tables : "" ∉ tables ∧ InCatalog db tables := by
  obtain ⟨cols, gathered, _⟩ := bind_eq_ok_iff.mp analyzed
  exact inCatalog_of_found wf (getAllCols_found gathered)

variable (covers : ∀ c ∈ conds, Covers tables c)
include covers

theorem taker_value (member : c ∈ conds) (literal : c.isRhsVal = true) : taker tables c = some c.lhsCol.tabName := by
  refine taker_literal (covers c member).1 literal ?_
  rw [checkClause_literal analyzed c member literal]
  exact fun same => (analyzed_tables wf analyzed).1 (same ▸ (covers c member).1)

/-- What stays behind is what relates two tables. -/
theorem taker_none_iff (member : c ∈ conds) : taker tables c = none ↔ c.relates = true := by
  cases kind : c.isRhsVal with
  | true =>
    rw [taker_value wf analyzed covers member kind]
    simp [Condition.relates, kind]
  | false =>
    by_cases same : c.lhsCol.tabName = c.rhsCol.tabName
    · rw [taker_same same, List.head?_eq_none_iff]
      have listed : tables ≠ [] := List.ne_nil_of_mem (covers c member).1
      simp [Condition.relates, same, listed]
    · have relates : c.relates = true := by simp [Condition.relates, kind, same]
      exact iff_of_true (taker_relates relates) relates

/-- A condition on one table is taken by that table if the two columns are not on a later one. -/
theorem taker_own (first : ∀ c ∈ conds, c.isRhsVal = false → c.lhsCol.tabName = c.rhsCol.tabName →
    tables.head? = some c.lhsCol.tabName)
    (member : c ∈ conds) {t : String} : taker tables c = some t ↔ c.Own t := by
  cases kind : c.isRhsVal with
  | true =>
    rw [taker_value wf analyzed covers member kind]
    simp [Condition.Own, kind]
  | false =>
    by_cases same : c.lhsCol.tabName = c.rhsCol.tabName
    · rw [taker_same same, first c member kind same, Option.some_inj]
      exact ⟨fun own => ⟨own, fun _ => same.symm.trans own⟩, fun own => own.1⟩
    · rw [taker_relates (by simp [Condition.relates, kind, same])]
      refine iff_of_false (Option.some_ne_none t).symm fun own => same ?_
      rw [own.1, own.2 kind]

/-- Push-down is exact exactly if every condition between two columns of one table is on the
first table of the list: `pop_conds` takes such a condition whatever table it is called for. -/
theorem push_down_exact_iff (distinct : tables.Nodup) :
    (∃ scans rest, scanPlans db tables conds = .ok (scans, rest) ∧ PushedDown tables conds scans rest) ↔
      ∀ c ∈ conds, c.isRhsVal = false → c.lhsCol.tabName = c.rhsCol.tabName → tables.head? = some c.lhsCol.tabName := by
  obtain ⟨scans, run, names, perm⟩ := scanPlans_spec (analyzed_tables wf analyzed).2 conds
  have each := scanPlans_conds distinct run
  constructor
  · rintro ⟨scans', rest, run', pushed⟩ c member column same
    rw [run] at run'
    cases run'
    have own : c.Own c.lhsCol.tabName := ⟨rfl, fun _ => same.symm⟩
    obtain ⟨p, inScans, atP⟩ := List.mem_map.mp (names ▸ (covers c member).1)
    have onP := (pushed.own c member _ own p inScans).mpr atP
    rw [(each p inScans).1, List.mem_filter] at onP
    rw [← taker_same same, ← atP]
    exact of_decide_eq_true onP.2
  · intro first
    have taken : ∀ p ∈ scans, ∀ c, c ∈ p.conds ↔ c ∈ conds ∧ c.Own p.tabName := by
      intro p inScans c
      rw [(each p inScans).1, List.mem_filter, decide_eq_true_iff]
      exact and_congr_right fun member => taker_own wf analyzed covers first member
    refine ⟨scans, _, run, names, ?_, ?_, perm, ?_⟩
    · intro c member t own p inScans
      rw [taken p inScans]
      constructor
      · exact fun found => found.2.1.symm.trans own.1
      · rintro rfl
        exact ⟨member, own⟩
    · refine List.filter_congr fun c member => ?_
      rw [Bool.eq_iff_iff, ← taker_none_iff wf analyzed covers member, taker, List.find?_eq_none]
      simp
    · intro p inScans c onP
      obtain ⟨member, own⟩ := (taken p inScans c).mp onP
      obtain ⟨_, _, tab, table, cols⟩ := each p inScans
      obtain ⟨_, lhs, found, left, _, right⟩ := checkClause_typed analyzed c member
      rw [own.1, table] at found
      cases found
      rw [cols]
      refine ⟨⟨lhs, getCol_own wf table own.1 left⟩, fun column => ?_⟩
      obtain ⟨_, rhs, found, right, _⟩ := right column
      rw [own.2 column, table] at found
      cases found
      exact ⟨rhs, getCol_own wf table (own.2 column) right⟩

end

/-- Tables `a` and `b` with columns `x` and `y`. -/
def twoTables : DbMeta where
  name := "d"
  tabs := ["a", "b"].map fun t => (t, ⟨t, [⟨t, "x", .int, 4, 0, false⟩, ⟨t, "y", .int, 4, 4, false⟩], []⟩)

theorem twoTables_wf : twoTables.WF := by
  apply DbMeta.wf_of_entries
  simp [twoTables]

def compareXY (tabName : String) : Condition := ⟨⟨tabName, "x"⟩, .eq, false, ⟨tabName, "y"⟩, ⟨.int 0, none⟩⟩

/-- `a.x = a.y and b.x = 1 and a.x = b.x`: both columns of the first condition are of the first table. -/
theorem push_down_exact_two : ∃ conds scans rest,
    checkClause twoTables ["a", "b"] (getClause [⟨⟨"a", "x"⟩, .eq, .col ⟨"a", "y"⟩⟩, ⟨⟨"b", "x"⟩, .eq, .val (.int 1)⟩,
      ⟨⟨"a", "x"⟩, .eq, .col ⟨"b", "x"⟩⟩]) = .ok conds ∧
    scanPlans twoTables ["a", "b"] conds = .ok (scans, rest) ∧ PushedDown ["a", "b"] conds scans rest := by
  have analyzed : checkClause twoTables ["a", "b"]
    (getClause [⟨⟨"a", "x"⟩, .eq, .col ⟨"a", "y"⟩⟩, ⟨⟨"b", "x"⟩, .eq, .val (.int 1)⟩,
      ⟨⟨"a", "x"⟩, .eq, .col ⟨"b", "x"⟩⟩]) = .ok [compareXY "a",
        ⟨⟨"b", "x"⟩, .eq, true, ⟨"", ""⟩, ⟨.int 1, some [1, 0, 0, 0]⟩⟩,
        compareCols .eq "a" "b"] := by
    rfl
  have covers : ∀ c ∈ [compareXY "a", ⟨⟨"b", "x"⟩, .eq, true, ⟨"", ""⟩, ⟨.int 1, some [1, 0, 0, 0]⟩⟩,
    compareCols .eq "a" "b"],
      Covers ["a", "b"] c := by
    simp [Covers, compareXY, compareCols]
  have exact := push_down_exact_iff twoTables_wf analyzed covers (by decide)
  obtain ⟨scans, rest, run, pushed⟩ := exact.mpr (by decide)
  exact ⟨_, scans, rest, analyzed, run, pushed⟩

/-- `b.x = b.y`: the scan of `a` takes it, and does not find its columns. -/
theorem push_down_first_table :
    checkClause twoTables ["a", "b"] (getClause [⟨⟨"b", "x"⟩, .eq, .col ⟨"b", "y"⟩⟩]) = .ok [compareXY "b"] ∧
    ∃ scans rest, scanPlans twoTables ["a", "b"] [compareXY "b"] = .ok (scans, rest) ∧
      (∃ p ∈ scans, p.tabName = "a" ∧ compareXY "b" ∈ p.conds ∧
        getCol p.cols ⟨"b", "x"⟩ = .error (.columnNotFound "b.x")) ∧
      ¬PushedDown ["a", "b"] [compareXY "b"] scans rest := by
  refine ⟨rfl, [⟨.seqScan, "a", [⟨"a", "x", .int, 4, 0, false⟩, ⟨"a", "y", .int, 4, 4, false⟩], [compareXY "b"], 8, []⟩,
    ⟨.seqScan, "b", [⟨"b", "x", .int, 4, 0, false⟩, ⟨"b", "y", .int, 4, 4, false⟩], [], 8, []⟩], [], rfl, ?_,
      fun pushed => ?_⟩
  · exact ⟨_, List.mem_cons_self, rfl, List.mem_cons_self, rfl⟩
  · have own : (compareXY "b").Own "b" := ⟨rfl, fun _ => rfl⟩
    have onA := pushed.own _ List.mem_cons_self "b" own _ List.mem_cons_self
    exact absurd (onA.mp List.mem_cons_self) (by decide)

end Planner

end Rmdb
