import Rmdb.Optimizer.JoinTree

namespace Rmdb
open Rmdb.Tuple Plan

namespace Planner
variable {plans : List ScanPlan} {done : List Condition} {s : Joining} {c : Condition}

/-- What the loop over the conditions keeps: a join tree over scans of the list, with
every condition seen so far on one of its joins. -/
structure Joined (plans : List ScanPlan) (done : List Condition) (s : Joining) : Prop where
  books : Books plans s.plan.tables s
  known : ∀ p ∈ s.plan.scans, ∃ i, First plans i p
  nodup : s.plan.tables.Nodup
  placed : s.plan.Placed
  conds : Attached done s.plan.joinConds

theorem joinFirst_spec {start : Joining} (books : Books plans [] start) (joins : c.Joins (plans.map (·.tabName))) :
    Joined plans [c] (joinFirst plans c start) := by
  obtain ⟨column, lhs, rhs, different⟩ := joins
  obtain ⟨p, s₁, inPlans, atP, pop, _, books₁⟩ := popScan_spec books lhs
  obtain ⟨q, s₂, inPlans', atQ, pop', _, books₂⟩ := popScan_spec books₁ rhs
  have result : joinFirst plans c start = { s₂ with plan := .join (.scan p) (.scan q) [c] } := by
    simp only [joinFirst, pop, pop']
  rw [result]
  constructor
  case books =>
    refine (books₂.setPlan _).congr fun t => ?_
    simp [atP, atQ, or_comm]
  case known =>
    intro r member
    rcases List.mem_append.mp member with left | right
    · exact List.mem_singleton.mp left ▸ inPlans
    · exact List.mem_singleton.mp right ▸ inPlans'
  case nodup => simp [atP, atQ, different]
  case placed =>
    refine ⟨trivial, trivial, fun d member => ?_⟩
    rw [List.mem_singleton.mp member]
    exact ⟨column, by simp [atP], by simp [atQ]⟩
  case conds => exact ⟨[c], .refl _, .cons (Or.inl rfl) .nil⟩

/-- One more scan on the left, with the condition that brought it. -/
theorem Joined.scanLeft {s' : Joining} {p : ScanPlan} {d : Condition} (joined : Joined plans done s)
    (inPlans : ∃ i, First plans i p)
    (fresh : p.tabName ∉ s.plan.tables) (books : Books plans (p.tabName :: s.plan.tables) s') (same : c.Same d)
    (column : d.isRhsVal = false) (lhs : d.lhsCol.tabName = p.tabName) (rhs : d.rhsCol.tabName ∈ s.plan.tables) :
    Joined plans (done ++ [c]) { s' with plan := .join (.scan p) s.plan [d] } where
  books := (books.setPlan _).congr fun t => by simp
  known r member := by
    rcases List.mem_append.mp member with left | right
    · exact List.mem_singleton.mp left ▸ inPlans
    · exact joined.known r right
  nodup := by
    rw [tables_join, tables_scan, List.singleton_append, List.nodup_cons]
    exact ⟨fresh, joined.nodup⟩
  placed := by
    refine ⟨trivial, joined.placed, fun e member => ?_⟩
    rw [List.mem_singleton.mp member]
    exact ⟨column, by simp [lhs], rhs⟩
  conds := joined.conds.add same (List.perm_append_singleton d _).symm

section
variable (real : "" ∉ plans.map (·.tabName))
include real

theorem joinNext_spec (joined : Joined plans done s) (joins : c.Joins (plans.map (·.tabName))) :
    Joined plans (done ++ [c]) (joinNext plans s c) := by
  obtain ⟨column, lhs, rhs, different⟩ := joins
  have realLhs : c.lhsCol.tabName ≠ "" := fun h => real (h ▸ lhs)
  have realRhs : c.rhsCol.tabName ≠ "" := fun h => real (h ▸ rhs)
  have known := joined.books.joined _ realLhs
  have known' := joined.books.joined _ realRhs
  by_cases hasLhs : c.lhsCol.tabName ∈ s.plan.tables
  · by_cases hasRhs : c.rhsCol.tabName ∈ s.plan.tables
    · -- both columns are in the tree: `push_conds`
      have result : joinNext plans s c = { s with plan := (pushConds c s.plan).2 } := by
        simp only [joinNext, popNew, known.mpr hasLhs, known'.mpr hasRhs, if_true]
      rw [result]
      cases pushConds_spec joined.placed joined.nodup column different with
      | both _ _ pushed scans placed same perm =>
        rw [pushed]
        have tables : ∀ plan' : Plan, plan'.scans = s.plan.scans → plan'.tables = s.plan.tables := by
          intro plan' sameScans
          unfold Plan.tables
          rw [sameScans]
        constructor
        case books => exact (joined.books.setPlan _).congr fun t => by rw [tables _ scans]
        case known =>
          rw [scans]
          exact joined.known
        case nodup =>
          rw [tables _ scans]
          exact joined.nodup
        case placed => exact placed
        case conds => exact joined.conds.add same perm
      | lhs _ missing => exact absurd hasRhs missing
      | rhs missing => exact absurd hasLhs missing
      | neither missing => exact absurd hasLhs missing
    · -- the right table is new: the condition is turned
      obtain ⟨q, s', inPlans, atQ, pop, samePlan, books⟩ := popScan_spec joined.books rhs
      have notJoined : c.rhsCol.tabName ∉ s.joinedTables := fun member => hasRhs (known'.mp member)
      have result : joinNext plans s c = { s' with plan := .join (.scan q) s.plan [c.mirror] } := by
        simp [joinNext, popNew, known.mpr hasLhs, notJoined, pop, samePlan]
      rw [result]
      rw [← atQ] at books hasRhs
      exact joined.scanLeft inPlans hasRhs books (Or.inr rfl) column atQ.symm hasLhs
  · obtain ⟨p, s', inPlans, atP, pop, samePlan, books⟩ := popScan_spec joined.books lhs
    have notJoined : c.lhsCol.tabName ∉ s.joinedTables := fun member => hasLhs (known.mp member)
    have after := books.joined _ realRhs
    by_cases hasRhs : c.rhsCol.tabName ∈ s.plan.tables
    · have result : joinNext plans s c = { s' with plan := .join (.scan p) s.plan [c] } := by
        simp [joinNext, popNew, notJoined, pop, samePlan, after.mpr (List.mem_cons_of_mem _ hasRhs)]
      rw [result]
      rw [← atP] at books hasLhs
      exact joined.scanLeft inPlans hasLhs books (Or.inl rfl) column atP.symm hasRhs
    · obtain ⟨q, s'', inPlans', atQ, pop', samePlan', books'⟩ := popScan_spec books rhs
      have notAfter : c.rhsCol.tabName ∉ s'.joinedTables := by
        rw [after, List.mem_cons]
        exact fun h => h.elim different.symm hasRhs
      have result : joinNext plans s c = { s'' with plan := .join (.join (.scan p) (.scan q) [c]) s.plan [] } := by
        simp [joinNext, popNew, notJoined, pop, notAfter, pop', samePlan', samePlan]
      rw [result]
      constructor
      case books =>
        refine (books'.setPlan _).congr fun t => ?_
        simp only [tables_join, tables_scan, atP, atQ]
        simp [or_left_comm]
      case known =>
        intro r member
        rcases List.mem_append.mp member with new | old
        · rcases List.mem_append.mp new with left | right
          · exact List.mem_singleton.mp left ▸ inPlans
          · exact List.mem_singleton.mp right ▸ inPlans'
        · exact joined.known r old
      case nodup =>
        simp [atP, atQ, different, hasLhs, hasRhs, joined.nodup]
      case placed =>
        refine ⟨⟨trivial, trivial, fun d member => ?_⟩, joined.placed, fun d member => absurd member List.not_mem_nil⟩
        rw [List.mem_singleton.mp member]
        exact ⟨column, by simp [atP], by simp [atQ]⟩
      case conds =>
        refine joined.conds.add (Or.inl rfl) ?_
        simp [Plan.joinConds]

theorem joinAll_spec {conds : List Condition} (joined : Joined plans done s)
    (joins : ∀ c ∈ conds, c.Joins (plans.map (·.tabName))) :
        Joined plans (done ++ conds) (conds.foldl (joinNext plans) s) := by
  induction conds generalizing done s with
  | nil =>
    rw [List.append_nil]
    exact joined
  | cons c conds ih =>
    have next := joinNext_spec real joined (joins c List.mem_cons_self)
    have rest := ih next fun d member => joins d (List.mem_cons_of_mem c member)
    rwa [List.append_assoc, List.singleton_append] at rest

end

/-- The last loop adds the scans marked unused, and no condition. -/
theorem foldl_rest (l : List (Int × ScanPlan)) {plan : Plan} (placed : plan.Placed) :
    let result := l.foldl (fun plan (used, p) => if used = -1 then Plan.join (.scan p) plan [] else plan) plan
    result.scans.Perm ((l.filter fun q => q.1 = -1).map (·.2) ++ plan.scans) ∧ result.Placed ∧
      result.joinConds = plan.joinConds := by
  induction l generalizing plan with
  | nil => exact ⟨.refl _, placed, rfl⟩
  | cons q l ih =>
    obtain ⟨used, p⟩ := q
    rw [List.foldl_cons]
    by_cases free : used = -1
    · have placed' : (Plan.join (.scan p) plan []).Placed :=
        ⟨trivial, placed, fun c member => absurd member List.not_mem_nil⟩
      obtain ⟨scans, good, conds⟩ := ih placed'
      simp only [free, if_true, decide_true, List.filter_cons_of_pos, List.map_cons, List.cons_append]
      refine ⟨scans.trans List.perm_middle, good, conds.trans ?_⟩
      simp [Plan.joinConds]
    · simp only [free, if_false, decide_false, Bool.false_eq_true, not_false_eq_true, List.filter_cons_of_neg]
      exact ih placed

/-- All scans of the list are in the final tree, each once. -/
theorem joinRest_spec {scantbl : List Int} {plan : Plan} (length : scantbl.length = plans.length)
    (used : ∀ (i : Nat) (p : ScanPlan), plans[i]? = some p →
      (scantbl[i]? = some (-1) ↔ ¬(p.tabName ∈ plan.tables ∧ First plans i p)))
    (known : ∀ p ∈ plan.scans, ∃ i, First plans i p) (nodup : plan.tables.Nodup) (placed : plan.Placed) :
    (joinRest scantbl plans plan).scans.Perm plans := by
  obtain ⟨scans, _⟩ := foldl_rest (scantbl.zip plans) placed
  have marked : ∀ (i : Nat) (q : Int × ScanPlan), (scantbl.zip plans)[i]? = some q → q.1 ≠ -1 →
      q.2.tabName ∈ plan.tables ∧ First plans i q.2 := by
    intro i q found notFree
    obtain ⟨atI, atI'⟩ := List.getElem?_zip_eq_some.mp found
    by_contra unused
    rw [(used i q.2 atI').mpr unused] at atI
    exact notFree (Option.some.inj atI).symm
  -- the marked scans are those of the tree, since both lists have each table once
  have tree : (((scantbl.zip plans).filter fun q => !decide (q.1 = -1)).map (·.2)).Perm plan.scans := by
    have once : ((((scantbl.zip plans).filter fun q => !decide (q.1 = -1)).map (·.2)).map (·.tabName)).Nodup := by
      refine List.pairwise_map.mpr (List.pairwise_map.mpr (List.pairwise_filter.mpr (List.pairwise_iff_getElem.mpr ?_)))
      intro i j inI inJ before notFree notFree' same
      obtain ⟨_, first⟩ := marked i _ (List.getElem?_eq_getElem inI) (by simpa using notFree)
      obtain ⟨_, first'⟩ := marked j _ (List.getElem?_eq_getElem inJ) (by simpa using notFree')
      exact absurd (first.inj first' same).1 before.ne
    rw [List.perm_ext_iff_of_nodup once.of_map nodup.of_map]
    intro p
    rw [List.mem_map]
    constructor
    · rintro ⟨q, member, rfl⟩
      obtain ⟨inZip, notFree⟩ := List.mem_filter.mp member
      obtain ⟨i, found⟩ := List.mem_iff_getElem?.mp inZip
      obtain ⟨inTree, first⟩ := marked i q found (by simpa using notFree)
      obtain ⟨r, inScans, sameName⟩ := List.mem_map.mp inTree
      obtain ⟨j, first'⟩ := known r inScans
      rw [(first.inj first' sameName.symm).2]
      exact inScans
    · intro inScans
      obtain ⟨i, first⟩ := known p inScans
      have inside : i < scantbl.length := by
        rw [length]
        exact (List.getElem?_eq_some_iff.mp first.1).1
      have inZip : (scantbl.zip plans)[i]? = some (scantbl[i], p) :=
        List.getElem?_zip_eq_some.mpr ⟨List.getElem?_eq_getElem inside, first.1⟩
      refine ⟨(scantbl[i], p), List.mem_filter.mpr ⟨List.mem_iff_getElem?.mpr ⟨i, inZip⟩, ?_⟩, rfl⟩
      have notFree := mt (used i p first.1).mp (not_not.mpr ⟨List.mem_map_of_mem inScans, first⟩)
      rw [List.getElem?_eq_getElem inside, Option.some_inj] at notFree
      simpa using notFree
  have all : (scantbl.zip plans).map (·.2) = plans := List.map_snd_zip length.ge
  calc (joinRest scantbl plans plan).scans
    List.Perm _ _ := scans
    List.Perm _ _ := tree.symm.append_left _
    List.Perm _ _ := by
      rw [← List.map_append]
      exact (List.filter_append_perm _ _).map _
    _ = plans := all

/-- The join tree over two or more scans. -/
theorem joinAll_result {conds : List Condition} (real : "" ∉ plans.map (·.tabName)) (nonempty : plans ≠ [])
    (joins : ∀ c ∈ conds, c.Joins (plans.map (·.tabName))) :
    (joinAll plans conds).scans.Perm plans ∧ (joinAll plans conds).Placed ∧
        Attached conds (joinAll plans conds).joinConds := by
  cases conds with
  | nil =>
    cases plans with
    | nil => exact absurd rfl nonempty
    | cons first rest =>
      have start : (Plan.scan first).Placed := trivial
      have isFirst : First (first :: rest) 0 first := ⟨rfl, by simp [List.findIdx?_cons]⟩
      have used : ∀ (i : Nat) (p : ScanPlan), (first :: rest)[i]? = some p →
          (((List.replicate (first :: rest).length (-1 : Int)).set 0 1)[i]? = some (-1) ↔
            ¬(p.tabName ∈ (Plan.scan first).tables ∧ First (first :: rest) i p)) := by
        intro i p found
        cases i with
        | zero =>
          cases found
          simp [isFirst]
        | succ i =>
          have inside : i < rest.length := Nat.lt_of_succ_lt_succ (List.getElem?_eq_some_iff.mp found).1
          have later : p.tabName = first.tabName → ¬First (first :: rest) (i + 1) p := by
            intro same isFirst'
            exact absurd (isFirst'.inj isFirst same).1 (Nat.succ_ne_zero i)
          simpa [inside] using later
      have known : ∀ p ∈ (Plan.scan first).scans, ∃ i, First (first :: rest) i p := by
        intro p member
        rw [List.mem_singleton.mp member]
        exact ⟨0, isFirst⟩
      obtain ⟨_, placed, kept⟩ := foldl_rest (((List.replicate (first :: rest).length (-1)).set 0 1).zip
        (first :: rest)) start
      refine ⟨joinRest_spec (by simp) used known (List.nodup_singleton _) start, placed, [], ?_, .nil⟩
      change List.Perm [] (joinRest _ _ _).joinConds
      rw [joinRest, kept]
      rfl
  | cons c conds =>
    have books : Books plans [] ⟨List.replicate plans.length (-1), List.replicate plans.length "", .null⟩ := by
      constructor
      case length => simp
      case used =>
        intro i p found
        have inside : i < plans.length := (List.getElem?_eq_some_iff.mp found).1
        simp [inside]
      case joined =>
        intro t named
        simp [named]
    have first := joinFirst_spec books (joins c List.mem_cons_self)
    have joined := joinAll_spec real first fun d member => joins d (List.mem_cons_of_mem c member)
    obtain ⟨_, placed, kept⟩ := foldl_rest ((conds.foldl (joinNext plans) _).scantbl.zip plans) joined.placed
    refine ⟨joinRest_spec joined.books.length joined.books.used joined.known joined.nodup joined.placed, placed, ?_⟩
    change Attached _ (joinRest _ _ _).joinConds
    rw [joinRest, kept]
    exact joined.conds

/-- Every table of the list is in the catalog, with some column. -/
def InCatalog (db : DbMeta) (tables : List String) : Prop :=
  ∀ t ∈ tables, ∃ tab, db.tabs.lookup t = some tab ∧ tab.cols ≠ []

/-- The condition is taken by the scan of this table. -/
def Pops (t : String) (c : Condition) : Bool :=
  (t = c.lhsCol.tabName && c.isRhsVal) || c.lhsCol.tabName = c.rhsCol.tabName

/-- The conditions that no scan takes. -/
def leftOver (tables : List String) (conds : List Condition) : List Condition :=
  conds.filter fun c => !tables.any fun t => Pops t c

theorem leftOver_cons (t : String) (tables : List String) (conds : List Condition) :
    leftOver (t :: tables) conds = leftOver tables (conds.filter fun c => !Pops t c) := by
  unfold leftOver
  rw [List.filter_filter]
  refine List.filter_congr fun c _ => ?_
  rw [List.any_cons, Bool.not_or, Bool.and_comm]

theorem scanPlan_returns {db : DbMeta} {t : String} {tab : TabMeta} (found : db.tabs.lookup t = some tab)
    (cols : tab.cols ≠ [])
    (conds : List Condition) : ∃ scan, scanPlan db t conds = .ok scan := by
  have made : ∀ tag names, ∃ scan, ScanPlan.new db tag t conds names = .ok scan := by
    intro tag names
    simp only [ScanPlan.new, DbMeta.getTable, found, ok_bind, List.getLast?_eq_some_getLast cols]
    exact ⟨_, rfl⟩
  simp only [scanPlan, getIndexCols, DbMeta.getTable, found, ok_bind, pure_bind]
  split
  · exact made _ _
  · exact made _ _

/-- A scan has the columns of its table and the conditions it is given. -/
theorem scanPlan_ok {db : DbMeta} {t : String} {conds : List Condition} {p : ScanPlan}
    (run : scanPlan db t conds = .ok p) :
    p.tabName = t ∧ p.conds = conds ∧ ∃ tab, db.getTable t = .ok tab ∧ p.cols = tab.cols := by
  have made : ∀ {tag names}, ScanPlan.new db tag t conds names = .ok p →
      p.tabName = t ∧ p.conds = conds ∧ ∃ tab, db.getTable t = .ok tab ∧ p.cols = tab.cols := by
    intro tag names run
    obtain ⟨tab, found, run⟩ := bind_eq_ok_iff.mp run
    split at run
    · cases run
    · cases run
      exact ⟨rfl, rfl, tab, found, rfl⟩
  obtain ⟨⟨exists_index, names⟩, _, run⟩ := bind_eq_ok_iff.mp run
  simp only at run
  split at run
  · exact made run
  · exact made run

/-- The first loop of `make_one_rel`: one scan a table, in order, and the conditions
that none of them takes. Nothing is lost. -/
theorem scanPlans_spec {db : DbMeta} {tables : List String} (catalog : InCatalog db tables) (conds : List Condition) :
    ∃ scans, scanPlans db tables conds = .ok (scans, leftOver tables conds) ∧ scans.map (·.tabName) = tables ∧
      (scans.flatMap (·.conds) ++ leftOver tables conds).Perm conds := by
  induction tables generalizing conds with
  | nil => exact ⟨[], by simp [scanPlans, leftOver], rfl, by simp [leftOver]⟩
  | cons t tables ih =>
    obtain ⟨tab, found, cols⟩ := catalog t List.mem_cons_self
    have popped : popConds conds t = (conds.filter (Pops t), conds.filter fun c => !Pops t c) :=
      List.partition_eq_filter_filter
    obtain ⟨scans, run, names, perm⟩ :=
      ih (fun u member => catalog u (List.mem_cons_of_mem t member)) (conds.filter fun c => !Pops t c)
    rw [← leftOver_cons] at run perm
    obtain ⟨scan, made⟩ := scanPlan_returns found cols (conds.filter (Pops t))
    obtain ⟨named, takes, _⟩ := scanPlan_ok made
    refine ⟨scan :: scans, ?_, ?_, ?_⟩
    · simp only [scanPlans, popped, made, ok_bind, run]
      rfl
    · rw [List.map_cons, named, names]
    · rw [List.flatMap_cons, List.append_assoc, takes]
      exact (perm.append_left _).trans (List.filter_append_perm _ conds)

/-- With all columns from the listed tables no condition is lost: each is on a scan or, perhaps
mirrored, on a join. -/
theorem makeOneRel_attached {db : DbMeta} {tables : List String} {conds : List Condition} (nonempty : tables ≠ [])
    (real : "" ∉ tables) (catalog : InCatalog db tables) (covers : ∀ c ∈ conds, Covers tables c) :
    ∃ plan, makeOneRel db tables conds = .ok plan ∧
        Attached conds (plan.scans.flatMap (·.conds) ++ plan.joinConds) := by
  obtain ⟨scans, run, names, perm⟩ := scanPlans_spec catalog conds
  have joins : ∀ c ∈ leftOver tables conds, c.Joins (scans.map (·.tabName)) := by
    intro c member
    obtain ⟨inConds, kept⟩ := List.mem_filter.mp member
    obtain ⟨lhs, rhs⟩ := covers c inConds
    have notPopped : Pops c.lhsCol.tabName c = false := by
      have := List.any_eq_false.mp (by simpa using kept) c.lhsCol.tabName lhs
      simpa using this
    simp only [Pops, decide_true, Bool.true_and, Bool.or_eq_false_iff, decide_eq_false_iff_not] at notPopped
    rw [names]
    exact ⟨notPopped.1, lhs, rhs notPopped.1, notPopped.2⟩
  have finish : ∀ plan : Plan, plan.scans.Perm scans → Attached (leftOver tables conds) plan.joinConds →
      Attached conds (plan.scans.flatMap (·.conds) ++ plan.joinConds) := by
    rintro plan order ⟨ds, permJoin, each⟩
    have onScans : List.Forall₂ Condition.Same (scans.flatMap (·.conds)) (scans.flatMap (·.conds)) :=
      List.forall₂_same.mpr fun _ _ => Or.inl rfl
    obtain ⟨placed, same, moved⟩ := List.perm_comp_forall₂ perm.symm (List.rel_append onScans each)
    exact ⟨placed, moved.trans ((order.symm.flatMap_right _).append permJoin), same⟩
  rcases scans with _ | ⟨one, _ | ⟨second, rest⟩⟩
  · exact absurd names.symm nonempty
  · have nothing : leftOver tables conds = [] := by
      refine List.eq_nil_iff_forall_not_mem.mpr fun c member => ?_
      obtain ⟨_, lhs, rhs, different⟩ := joins c member
      exact different ((List.mem_singleton.mp lhs).trans (List.mem_singleton.mp rhs).symm)
    have built : makeOneRel db tables conds = .ok (.scan one) := by
      simp only [makeOneRel, run, ok_bind]
      rfl
    refine ⟨_, built, finish _ (.refl _) ?_⟩
    rw [nothing]
    exact ⟨[], .refl _, .nil⟩
  · have built : makeOneRel db tables conds = .ok (joinAll (one :: second :: rest) (leftOver tables conds)) := by
      simp only [makeOneRel, run, ok_bind]
      rfl
    rw [← names] at real
    obtain ⟨order, _, attached⟩ := joinAll_result real (List.cons_ne_nil _ _) joins
    exact ⟨_, built, finish _ order attached⟩

theorem leftOver_joins {tables : List String} {conds : List Condition} (joins : ∀ c ∈ conds, c.Joins tables) :
    leftOver tables conds = conds := by
  refine List.filter_eq_self.mpr fun c member => ?_
  obtain ⟨column, _, _, different⟩ := joins c member
  simp [Pops, column, different]

/-- The filter by the placed conditions is the filter by the conditions themselves. -/
theorem holdAll_attached {V : Type} [LinearOrder V] (lit : Value → V) {conds placed : List Condition}
    (attached : Attached conds placed) (columns : ∀ c ∈ conds, c.isRhsVal = false) (t : Tuple String (Row V)) :
    holdAll lit placed t = holdAll lit conds t := by
  obtain ⟨ds, perm, each⟩ := attached
  have order : holdAll lit ds t = holdAll lit placed t := perm.all_eq
  rw [← order]
  clear perm order
  induction each with
  | nil => rfl
  | cons same _ ih =>
    rename_i c d conds ds _
    have one : d.holds lit t = c.holds lit t := by
      rcases same with rfl | rfl
      · rfl
      · exact Condition.holds_mirror lit (columns c List.mem_cons_self) t
    have rest := ih fun e member => columns e (List.mem_cons_of_mem c member)
    unfold holdAll at rest ⊢
    rw [List.all_cons, List.all_cons, one, rest]

/-- `make_one_rel` keeps the meaning of the query. -/
theorem make_one_rel_meaning {db : DbMeta} {tables : List String} {conds : List Condition} (two : 2 ≤ tables.length)
    (distinct : tables.Nodup) (real : "" ∉ tables) (catalog : InCatalog db tables)
    (joins : ∀ c ∈ conds, c.Joins tables) :
    ∃ plan, makeOneRel db tables conds = .ok plan ∧ plan.tables.Perm tables ∧ (∀ p ∈ plan.scans, p.conds = []) ∧
      plan.Placed ∧ Attached conds plan.joinConds ∧
      ∀ {V : Type} [LinearOrder V] (rows : String → Multiset (Row V)) (lit : Value → V),
        plan.denote rows lit = (product rows tables).filter (fun t => holdAll lit conds t) ∧
          (conds = [] → plan.denote rows lit = product rows tables) := by
  obtain ⟨scans, run, names, perm⟩ := scanPlans_spec catalog conds
  rw [leftOver_joins joins] at run perm
  have noConds : ∀ p ∈ scans, p.conds = [] := by
    have count := perm.length_eq
    rw [List.length_append] at count
    have none : scans.flatMap (·.conds) = [] := List.length_eq_zero_iff.mp (by omega)
    exact List.flatMap_eq_nil_iff.mp none
  have several : 2 ≤ scans.length := by
    rw [← List.length_map (·.tabName), names]
    exact two
  have built : makeOneRel db tables conds = .ok (joinAll scans conds) := by
    simp only [makeOneRel, run, ok_bind]
    match scans, several with
    | _ :: _ :: _, _ => rfl
  have nonempty : scans ≠ [] := by
    rintro rfl
    exact absurd several (by decide)
  rw [← names] at distinct real joins
  obtain ⟨order, placed, attached⟩ := joinAll_result real nonempty joins
  have tablesPerm : (joinAll scans conds).tables.Perm tables := by
    rw [← names]
    exact order.map _
  have noScanConds : ∀ p ∈ (joinAll scans conds).scans, p.conds = [] :=
    fun p member => noConds p (order.mem_iff.mp member)
  have own : (joinAll scans conds).ScansOwn := by
    intro p member c inConds
    rw [noScanConds p member] at inConds
    exact absurd inConds List.not_mem_nil
  have nodup : (joinAll scans conds).tables.Nodup := (order.map _).nodup_iff.mpr distinct
  refine ⟨_, built, tablesPerm, noScanConds, placed, attached, fun {V} _ rows lit => ?_⟩
  have meaning : (joinAll scans conds).denote rows lit =
      (product rows tables).filter (fun t => holdAll lit conds t) := by
    rw [denote_eq placed own nodup, conds_eq_joinConds placed noScanConds, product_perm tablesPerm nodup]
    refine Multiset.filter_congr fun t _ => ?_
    rw [holdAll_attached lit attached (fun c member => (joins c member).1) t]
  refine ⟨meaning, ?_⟩
  rintro rfl
  rw [meaning]
  exact Multiset.filter_eq_self.mpr fun _ _ => rfl

/-- Three tables with one column each. -/
def threeTables : DbMeta where
  name := "d"
  tabs := ["a", "b", "c"].map fun t => (t, ⟨t, [⟨t, "x", .int, 4, 0, false⟩], []⟩)

def compareCols (op : CompOp) (lhs rhs : String) : Condition := ⟨⟨lhs, "x"⟩, op, false, ⟨rhs, "x"⟩, ⟨.int 0, none⟩⟩

/-- The second condition brings the third table, turned. -/
theorem make_one_rel_meaning_three :
    ∃ plan, makeOneRel threeTables ["a", "b", "c"] [compareCols .lt "a" "b", compareCols .le "a" "c"] = .ok plan ∧
      plan.tables.Perm ["a", "b", "c"] ∧ compareCols .ge "c" "a" ∈ plan.joinConds := by
  have catalog : InCatalog threeTables ["a", "b", "c"] := by
    simp [InCatalog, threeTables, List.lookup_cons]
  have joins : ∀ c ∈ [compareCols .lt "a" "b", compareCols .le "a" "c"], c.Joins ["a", "b", "c"] := by
    simp [Condition.Joins, compareCols]
  obtain ⟨plan, built, tables, _⟩ := make_one_rel_meaning (by decide) (by decide) (by decide) catalog joins
  refine ⟨plan, built, tables, ?_⟩
  cases built
  decide

end Planner

end Rmdb
