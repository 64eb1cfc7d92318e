import Rmdb.Execution.OneRow

namespace Rmdb
open Analyze Planner Plan Portal RmScan InsertExecutor

/-! Plans in whose way is a null plan, an index scan or a sort. -/

theorem SeqScanExecutor.Looks.sweep {x : SeqScanExecutor} {later : List Rid} {allowed : Error → Prop}
    (looks : x.Looks allowed) (inv : x.fh.FileInv) (live : ∀ rid ∈ later, rid ∈ rids x.fh) :
    Throws allowed (x.sweep later) := by
  induction later with
  | nil => trivial
  | cons rid later ih =>
    obtain ⟨here, live⟩ := List.forall_mem_cons.mp live
    obtain ⟨r, found⟩ := Option.isSome_iff_exists.mp ((mem_rids inv.wellFormed).mp here)
    refine Ends.bind (found ▸ looks rid r found) fun holds _ _ => ?_
    exact Ends.bind (ih live) fun _ _ _ => trivial

/-- The executor of the only scan reads what is there. That of an index scan wants a column of the table in every
condition. -/
def ScanPlan.Careful (p : ScanPlan) : Prop :=
  match p.tag with
  | .seqScan => (Plan.scan p).Careful
  | .indexScan => ∀ c ∈ p.conds, c.lhsCol.tabName = p.tabName ∨ c.isRhsVal = false ∧ c.rhsCol.tabName = p.tabName

theorem getIndexMeta_of_isIndex {tab : TabMeta} {names : List String} (isIndex : tab.isIndex names = true) :
    ∃ index, tab.getIndexMeta names = .ok index := by
  obtain ⟨index, member, here⟩ := List.any_eq_true.mp isIndex
  unfold TabMeta.getIndexMeta
  dsimp only
  split
  · exact ⟨_, rfl⟩
  · rename_i none
    exact absurd here (by simpa using List.find?_eq_none.mp none index member)

/-- An index scan of the planner. Its executor has no columns and no records. -/
theorem convert_index {sm : SmManager} {p : ScanPlan} (stocked : sm.Stocked) (ready : sm.db.Ready)
    (made : scanPlan sm.db p.tabName p.conds = .ok p) (tag : p.tag = .indexScan) :
    (p.Careful ∧ convertPlanExecutor sm (.scan p) = .ok .stub) ∨
      (¬p.Careful ∧ convertPlanExecutor sm (.scan p) = .error .assertion) := by
  obtain ⟨⟨exists_index, names⟩, looked, made⟩ := bind_eq_ok_iff.mp made
  obtain ⟨tab, table, same⟩ := bind_eq_ok_iff.mp looked
  obtain ⟨here, columns⟩ := Prod.mk.inj (Except.ok.inj same)
  rw [columns] at here
  simp only at made
  split at made
  · rename_i isIndex
    obtain ⟨fh, file, _⟩ := stocked _ _ table
    obtain ⟨last, end_col⟩ : ∃ last, tab.cols.getLast? = some last :=
      ⟨_, List.getLast?_eq_some_getLast (ready.wf _ _ (getTable_ok table)).2.2.1⟩
    obtain ⟨index, found⟩ := getIndexMeta_of_isIndex (here.trans isIndex)
    obtain ⟨_, table', made⟩ := bind_eq_ok_iff.mp made
    cases table'.symm.trans table
    rw [end_col] at made
    have names_eq : p.indexColNames = names := (congrArg ScanPlan.indexColNames (Except.ok.inj made)).symm
    have run : IndexScanExecutor.new sm p.tabName p.conds p.indexColNames =
        if p.conds.all fun c => c.lhsCol.tabName = p.tabName || (!c.isRhsVal && c.rhsCol.tabName = p.tabName)
        then .ok () else .error .assertion := by
      rw [IndexScanExecutor.new, table, ok_bind, names_eq, found, ok_bind, file, end_col]
      rfl
    have careful : p.Careful ↔ (p.conds.all fun c =>
        c.lhsCol.tabName = p.tabName || (!c.isRhsVal && c.rhsCol.tabName = p.tabName)) = true := by
      simp [ScanPlan.Careful, tag]
    rw [careful]
    by_cases fine : (p.conds.all fun c =>
        c.lhsCol.tabName = p.tabName || (!c.isRhsVal && c.rhsCol.tabName = p.tabName)) = true
    · refine Or.inl ⟨fine, ?_⟩
      simp only [convertPlanExecutor, tag, run, if_pos fine]
    · refine Or.inr ⟨fine, ?_⟩
      simp only [convertPlanExecutor, tag, run, if_neg fine]
  · obtain ⟨_, _, made⟩ := bind_eq_ok_iff.mp made
    split at made
    · cases made
    · rw [← Except.ok.inj made] at tag
      cases tag

section
variable {db : DbMeta} {sm : SmManager} {plan left right : Plan} {conds : List Condition} {out : List TabCol}
  {plans : List ScanPlan} {kind : Condition → Prop}

/-- The plan has no executor, or one that has no columns. -/
def Stuck (sm : SmManager) (plan : Plan) : Prop :=
  (∃ e, convertPlanExecutor sm plan = .error e ∧ ¬IsRmdbError e) ∨
    ∃ E, convertPlanExecutor sm plan = .ok E ∧ E.cols = none

theorem Stuck.projection (stuck : Stuck sm plan) :
    ∃ e, convertPlanExecutor sm (.projection plan out) = .error e ∧ ¬IsRmdbError e := by
  rcases stuck with ⟨e, failed, wrong⟩ | ⟨E, built, none⟩
  · exact ⟨e, by simp only [convertPlanExecutor, failed], wrong⟩
  · exact ⟨.undefined, by simp only [convertPlanExecutor, built, ProjectionExecutor.new, none], id⟩

theorem Stuck.join_left (stuck : Stuck sm left)
    (other : Stuck sm right ∨ ∃ E, convertPlanExecutor sm right = .ok E) : Stuck sm (.join left right conds) := by
  rcases stuck with ⟨e, failed, wrong⟩ | ⟨l, builtL, none⟩
  · exact Or.inl ⟨e, by simp only [convertPlanExecutor, failed], wrong⟩
  · have absent (r : Executor) (builtR : convertPlanExecutor sm right = .ok r) : Stuck sm (.join left right conds) :=
      Or.inl ⟨.undefined, by simp only [convertPlanExecutor, builtL, builtR, NestedLoopJoinExecutor.new, none], id⟩
    rcases other with (⟨e, failed, wrong⟩ | ⟨r, builtR, _⟩) | ⟨r, builtR⟩
    · exact Or.inl ⟨e, by simp only [convertPlanExecutor, builtL, failed], wrong⟩
    · exact absent r builtR
    · exact absent r builtR

theorem Stuck.join_right {l : Executor} (built : convertPlanExecutor sm left = .ok l) (stuck : Stuck sm right) :
    Stuck sm (.join left right conds) := by
  rcases stuck with ⟨e, failed, wrong⟩ | ⟨r, builtR, none⟩
  · exact Or.inl ⟨e, by simp only [convertPlanExecutor, built, failed], wrong⟩
  · refine Or.inl ⟨.undefined, ?_, id⟩
    cases cols : l.cols <;> simp only [convertPlanExecutor, built, builtR, NestedLoopJoinExecutor.new, none, cols]

/-- The executor of a sort overrides nothing. -/
theorem stuck_sort {sel : TabCol} {desc : Bool} (either : Stuck sm plan ∨ ∃ E, convertPlanExecutor sm plan = .ok E) :
    Stuck sm (.sort plan sel desc) := by
  have sorts (E : Executor) (built : convertPlanExecutor sm plan = .ok E) : Stuck sm (.sort plan sel desc) :=
    Or.inr ⟨.stub, by simp only [convertPlanExecutor, built], rfl⟩
  rcases either with (⟨e, failed, wrong⟩ | ⟨E, built, _⟩) | ⟨E, built⟩
  · exact Or.inl ⟨e, by simp only [convertPlanExecutor, failed], wrong⟩
  · exact sorts E built
  · exact sorts E built

/-- A tree of joins of scans from end to end. -/
def Plan.Runs (plan : Plan) : Prop := plan.Whole ∧ ∀ p ∈ plan.scans, p.tag = .seqScan

theorem of_made (made : plan.From plans kind) (scans : ∀ q ∈ plans, scanPlan db q.tabName q.conds = .ok q)
    (runs : plan.Runs) : plan.Of db := by
  intro p member
  obtain ⟨_, _, tab, table, cols⟩ := scanPlan_ok (scans p (made.mem member))
  exact ⟨runs.2 p member, tab, table, cols⟩

/-- A null plan or an index scan is in the way, or else nothing is. -/
theorem stuck_or_runs (stocked : sm.Stocked) (ready : sm.db.Ready) (made : plan.From plans kind)
    (scans : ∀ q ∈ plans, scanPlan sm.db q.tabName q.conds = .ok q) : Stuck sm plan ∨ plan.Runs := by
  induction plan with
  | null => exact Or.inl (Or.inl ⟨.undefined, rfl, id⟩)
  | projection => exact made.elim
  | sort => exact made.elim
  | scan p =>
    cases tag : p.tag with
    | seqScan => exact Or.inr ⟨trivial, fun q member => List.mem_singleton.mp member ▸ tag⟩
    | indexScan =>
      rcases convert_index stocked ready (scans p made) tag with ⟨_, built⟩ | ⟨_, failed⟩
      · exact Or.inl (Or.inr ⟨_, built, rfl⟩)
      · exact Or.inl (Or.inl ⟨_, failed, id⟩)
  | join left right conds ihLeft ihRight =>
    have builds {plan : Plan} (made : plan.From plans kind) (runs : plan.Runs) :
        ∃ E, convertPlanExecutor sm plan = .ok E := by
      have of := of_made made scans runs
      obtain ⟨E, built, _⟩ := convert_tame runs.1 (of.laid ready) (of.backed stocked ready)
      exact ⟨E, built⟩
    rcases ihLeft made.1 with stuckL | runsL
    · exact Or.inl (stuckL.join_left ((ihRight made.2.1).imp_right (builds made.2.1)))
    · rcases ihRight made.2.1 with stuckR | runsR
      · obtain ⟨l, built⟩ := builds made.1 runsL
        exact Or.inl (stuckR.join_right built)
      · exact Or.inr ⟨⟨runsL.1, runsR.1⟩, fun p member => (List.mem_append.mp member).elim (runsL.2 p) (runsR.2 p)⟩

theorem makeOneRel_made {tables : List String} (run : makeOneRel db tables conds = .ok plan) :
    ∃ plans, plan.From plans (fun _ => True) ∧ ∀ q ∈ plans, scanPlan db q.tabName q.conds = .ok q := by
  obtain ⟨⟨plans, rest⟩, scanned, run⟩ := bind_eq_ok_iff.mp run
  refine ⟨plans, ?_, fun q member => (scanPlans_taken scanned q member).1⟩
  cases plans with
  | nil => cases run
  | cons p plans =>
    cases plans with
    | nil =>
      cases run
      exact List.mem_cons_self
    | cons q plans =>
      cases run
      exact joinAll_from (fun _ _ => trivial) fun _ _ => trivial

theorem makeOneRel_error {tabs : List String} {e : Error} (catalog : InCatalog db tabs)
    (failed : makeOneRel db tabs conds = .error e) : e = .undefined := by
  obtain ⟨plans, scanned, _⟩ := scanPlans_spec catalog conds
  rw [makeOneRel, scanned] at failed
  cases plans with
  | nil =>
    cases failed
    rfl
  | cons p plans => cases plans <;> cases failed

/-- The tuples of the plan and those of the projection fit into records. -/
def Narrow (plan : Plan) (selected : List ColMeta) : Prop :=
  ∀ t, plan.Gives t → (plan.tupleLen : Int) ≤ intMax ∧ ((ProjectionExecutor.place 0 selected).2 : Int) ≤ intMax

/-- A careful plan with short tuples is traversed without an assertion and without a read outside. -/
theorem traverse_stops {E : Executor} {started placed : E.State → Prop} {selected : List ColMeta} (laid : plan.Laid)
    (careful : plan.Careful) (narrow : Narrow plan selected) (tame : E.Tame IsRmdbError plan.Gives started placed)
    (len : E.tupleLen = plan.tupleLen) (inside : ∀ col ∈ selected, col ∈ plan.recCols) (fuel : Nat) :
    Stops IsRmdbError ((⟨E, selected⟩ : ProjectionExecutor).executor.traverse fuel E.fresh) := by
  have projects := ProjectionExecutor.tame (x := ⟨E, selected⟩) tame fun t given => by
    obtain ⟨short, place⟩ := narrow t given
    refine ⟨len ▸ short, place, fun col member => ?_⟩
    obtain ⟨tiles, size⟩ := layout_of_gives laid careful given short
    have fits := (fits_of_mem tiles le_rfl (inside col member)).2
    rwa [Int.zero_add, size, ← length_of_gives laid careful given] at fits
  exact projects.traverse (fun _ fits => fits) fuel

end

end Rmdb
