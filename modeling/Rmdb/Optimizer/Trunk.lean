import Rmdb.Optimizer.SelectPlan

namespace Rmdb
open Plan

/-! The shape of a plan: a tree over different tables, and then one scan after the other on its left. A table that FROM
lists again is scanned again, and that scan has no conditions. -/

namespace Plan
variable {plan : Plan}

/-! A scan joined with one scan after the other, each on the left. -/

def chain (plan : Plan) (scans : List ScanPlan) : Plan := scans.foldl (fun plan p => .join (.scan p) plan []) plan

theorem chain_induct {motive : Plan → Prop} {scans : List ScanPlan} (start : motive plan)
    (step : ∀ p ∈ scans, ∀ plan, motive plan → motive (.join (.scan p) plan [])) : motive (plan.chain scans) := by
  induction scans generalizing plan with
  | nil => exact start
  | cons p scans ih =>
    obtain ⟨here, step⟩ := List.forall_mem_cons.mp step
    exact ih (here plan start) step

theorem scans_chain {q : ScanPlan} (scans : List ScanPlan) (member : q ∈ plan.scans) : q ∈ (plan.chain scans).scans :=
  chain_induct (motive := fun plan => q ∈ plan.scans) member fun _ _ _ inside => List.mem_cons_of_mem _ inside

theorem whole_of_chain {scans : List ScanPlan} (whole : (plan.chain scans).Whole) : plan.Whole := by
  by_contra broken
  exact chain_induct (motive := fun plan => ¬plan.Whole) broken (fun _ _ _ broken whole => broken whole.2) whole

end Plan

namespace Planner
variable {db : DbMeta} {plans : List ScanPlan} {names : List String} {s : Joining} {c : Condition}

/-- Of two scans of one table the second has no conditions. -/
def Later (p q : ScanPlan) : Prop := p.tabName = q.tabName → q.conds = []

theorem scanPlans_later {tables : List String} {conds rest : List Condition}
    (run : scanPlans db tables conds = .ok (plans, rest)) : plans.Pairwise Later := by
  induction tables generalizing conds plans with
  | nil =>
    cases run
    exact .nil
  | cons t tables ih =>
    have popped : popConds conds t = (conds.filter (Pops t), conds.filter fun c => !Pops t c) :=
      List.partition_eq_filter_filter
    rw [scanPlans, popped] at run
    obtain ⟨p, made, run⟩ := bind_eq_ok_iff.mp run
    obtain ⟨⟨later, left⟩, others, run⟩ := bind_eq_ok_iff.mp run
    cases run
    refine List.pairwise_cons.mpr ⟨fun q member same => ?_, ih others⟩
    rw [(scanPlan_ok made).1] at same
    -- what the second scan could take the first one has taken
    refine List.eq_nil_iff_forall_not_mem.mpr fun c onQ => ?_
    obtain ⟨kept, pops⟩ := (scanPlans_taken others q member).2 c onQ
    rw [← same] at pops
    simpa [pops] using (List.mem_filter.mp kept).2

/-- The tables in `names` are different and marked as joined; a scan of one of them that is not marked as used has no
conditions. -/
structure Trunk (plans : List ScanPlan) (names : List String) (s : Joining) : Prop where
  nodup : names.Nodup
  joined : ∀ t ∈ names, t ∈ s.joinedTables
  free : ∀ (i : Nat) (q : ScanPlan), plans[i]? = some q → s.scantbl[i]? = some (-1) → q.tabName ∈ names → q.conds = []

theorem Trunk.sub {names' : List String} (trunk : Trunk plans names s) (nodup : names'.Nodup)
    (sub : ∀ t ∈ names', t ∈ names) (plan : Plan) : Trunk plans names' { s with plan } where
  nodup := nodup
  joined t member := trunk.joined t (sub t member)
  free i q atI unused member := trunk.free i q atI unused (sub _ member)

theorem popScan_trunk (table : String) (later : plans.Pairwise Later) (trunk : Trunk plans names s)
    (fresh : table ∉ names) : Trunk plans ((popScan table plans s).1.tables ++ names) (popScan table plans s).2 ∧
      ∀ t ∈ (popScan table plans s).1.tables, t = table := by
  unfold popScan
  split
  · exact ⟨trunk, nofun⟩
  · rename_i i search
    split
    · exact ⟨trunk, nofun⟩
    · rename_i p found
      obtain ⟨inside, here, first⟩ := List.findIdx?_eq_some_iff_getElem.mp search
      have named : p.tabName = table := by
        obtain rfl := Option.some.inj ((List.getElem?_eq_getElem inside).symm.trans found)
        simpa using here
      refine ⟨⟨?_, ?_, ?_⟩, fun t member => (List.mem_singleton.mp member).trans named⟩
      · have own : p.tabName ∉ names := named.symm ▸ fresh
        exact List.nodup_cons.mpr ⟨own, trunk.nodup⟩
      · intro t member
        rcases List.mem_cons.mp member with rfl | old
        · exact List.mem_append_right _ List.mem_cons_self
        · exact List.mem_append_left _ (trunk.joined t old)
      · intro j q atJ unused member
        by_cases same : i = j
        · subst same
          obtain ⟨small, marked⟩ := List.getElem?_eq_some_iff.mp unused
          rw [List.getElem_set_self] at marked
          cases marked
        · rw [List.getElem?_set_ne same] at unused
          rcases List.mem_cons.mp member with again | old
          · -- an earlier scan of the table would have been found
            obtain ⟨inside', rfl⟩ := List.getElem?_eq_some_iff.mp atJ
            obtain ⟨_, rfl⟩ := List.getElem?_eq_some_iff.mp found
            have before : i < j := by
              refine lt_of_le_of_ne (not_lt.mp fun less => ?_) same
              simpa [again.trans named] using first j less
            exact List.pairwise_iff_getElem.mp later i j inside inside' before again.symm
          · exact trunk.free j q atJ unused old

theorem popNew_trunk (later : plans.Pairwise Later) (trunk : Trunk plans names s) (table : String) :
    Trunk plans ((popNew table plans s).1.tables ++ names) (popNew table plans s).2 := by
  unfold popNew
  split
  · exact trunk
  · rename_i unjoined
    exact (popScan_trunk table later trunk fun member => unjoined (trunk.joined table member)).1

theorem joinFirst_trunk (later : plans.Pairwise Later) (trunk : Trunk plans [] s)
    (apart : c.lhsCol.tabName ≠ c.rhsCol.tabName) :
    Trunk plans (joinFirst plans c s).plan.tables (joinFirst plans c s) := by
  obtain ⟨left, own⟩ := popScan_trunk c.lhsCol.tabName later trunk List.not_mem_nil
  have fresh : c.rhsCol.tabName ∉ (popScan c.lhsCol.tabName plans s).1.tables ++ [] := by
    rw [List.append_nil]
    exact fun member => apart (own _ member).symm
  obtain ⟨both, _⟩ := popScan_trunk c.rhsCol.tabName later left fresh
  rw [List.append_nil] at both
  have perm : ((popScan c.rhsCol.tabName plans (popScan c.lhsCol.tabName plans s).2).1.tables ++
      (popScan c.lhsCol.tabName plans s).1.tables).Perm (joinFirst plans c s).plan.tables := by
    change List.Perm _ (join _ _ [c]).tables
    rw [tables_join]
    exact List.perm_append_comm
  exact both.sub (perm.nodup_iff.mp both.nodup) (fun t member => perm.mem_iff.mpr member) _

theorem joinNext_trunk (later : plans.Pairwise Later) (trunk : Trunk plans s.plan.tables s) (c : Condition) :
    Trunk plans (joinNext plans s c).plan.tables (joinNext plans s c) := by
  have same := (popNew_from plans (fun _ => True) c.lhsCol.tabName s).2
  have same' := (popNew_from plans (fun _ => True) c.rhsCol.tabName
    (popNew c.lhsCol.tabName plans s).2).2
  have pops := popNew_trunk later (popNew_trunk later trunk c.lhsCol.tabName) c.rhsCol.tabName
  unfold joinNext
  simp only [same', same]
  generalize (popNew c.lhsCol.tabName plans s).1 = left at pops ⊢
  generalize (popNew c.lhsCol.tabName plans s).2 = s₁ at pops ⊢
  generalize popNew c.rhsCol.tabName plans s₁ = popped at pops ⊢
  obtain ⟨right, s₂⟩ := popped
  simp only at pops ⊢
  have old : s.plan.tables.Nodup := trunk.nodup
  have withRight : (right.tables ++ s.plan.tables).Nodup :=
    pops.nodup.sublist (List.Sublist.append_left (List.sublist_append_right _ _) _)
  have withLeft : (left.tables ++ s.plan.tables).Nodup := pops.nodup.of_append_right
  split
  · have pushed : (pushConds c s.plan).2.tables = s.plan.tables := by
      rw [tables, (pushConds_whole c s.plan).1, tables]
    refine pops.sub ?_ (fun t member => ?_) _
    · rw [pushed]
      exact old
    · rw [pushed] at member
      exact List.mem_append_right _ (List.mem_append_right _ member)
  · refine pops.sub ?_ (fun t member => ?_) _
    · rw [tables_join]
      split
      · exact withRight
      · exact old
    · rw [tables_join] at member
      split at member
      · exact (List.sublist_append_right _ _).append_left _ |>.subset member
      · exact List.mem_append_right _ (List.mem_append_right _ member)
  · refine pops.sub ?_ (fun t member => ?_) _
    · rw [tables_join]
      split
      · exact old
      · exact withLeft
    · rw [tables_join] at member
      split at member
      · exact List.mem_append_right _ (List.mem_append_right _ member)
      · exact List.mem_append_right _ member
  · have perm : (right.tables ++ (left.tables ++ s.plan.tables)).Perm
        ((join (join left right [c]) s.plan []).tables) := by
      rw [tables_join, tables_join, ← List.append_assoc]
      exact List.perm_append_comm.append_right _
    exact pops.sub (perm.nodup_iff.mp pops.nodup) (fun t member => perm.mem_iff.mpr member) _

/-- The scans that the last loop joins. -/
def unused (scantbl : List Int) (plans : List ScanPlan) : List ScanPlan :=
  ((scantbl.zip plans).filter fun marked => marked.1 = -1).map (·.2)

theorem joinRest_chain (scantbl : List Int) (plans : List ScanPlan) (plan : Plan) :
    joinRest scantbl plans plan = plan.chain (unused scantbl plans) := by
  rw [joinRest_eq, unused]
  induction scantbl.zip plans generalizing plan with
  | nil => rfl
  | cons marked l ih =>
    rw [List.foldl_cons, ih, joinUnused, List.filter_cons]
    by_cases free : marked.1 = -1
    · simp only [free, if_true, decide_true, List.map_cons]
      rfl
    · simp only [free, if_false, decide_false, Bool.false_eq_true]

theorem unused_later (later : plans.Pairwise Later) (scantbl : List Int) : (unused scantbl plans).Pairwise Later := by
  refine List.Pairwise.sublist ((List.Sublist.map _ List.filter_sublist).trans ?_) later
  induction plans generalizing scantbl with
  | nil =>
    rw [List.zip_nil_right]
    exact List.Sublist.refl _
  | cons p plans ih =>
    cases scantbl with
    | nil => exact List.nil_sublist _
    | cons mark scantbl => exact (ih (List.pairwise_cons.mp later).2 scantbl).cons_cons p

theorem Trunk.unused (trunk : Trunk plans names s) {q : ScanPlan} (member : q ∈ unused s.scantbl plans)
    (again : q.tabName ∈ names) : q.conds = [] := by
  obtain ⟨⟨mark, q⟩, kept, rfl⟩ := List.mem_map.mp member
  obtain ⟨inZip, free⟩ := List.mem_filter.mp kept
  obtain ⟨i, atI⟩ := List.mem_iff_getElem?.mp inZip
  obtain ⟨marked, found⟩ := List.getElem?_zip_eq_some.mp atI
  simp only [decide_eq_true_eq] at free
  exact trunk.free i q found (free ▸ marked) again

theorem joinAll_chain {conds : List Condition} (later : plans.Pairwise Later)
    (apart : ∀ c ∈ conds, c.lhsCol.tabName ≠ c.rhsCol.tabName) :
    ∃ (core : Plan) (rest : List ScanPlan), joinAll plans conds = core.chain rest ∧ core.tables.Nodup ∧
      rest.Pairwise Later ∧ ∀ q ∈ rest, q.tabName ∈ core.tables → q.conds = [] := by
  have start : Trunk plans [] ⟨List.replicate plans.length (-1), List.replicate plans.length "", .null⟩ :=
    ⟨List.nodup_nil, nofun, nofun⟩
  have all : ∀ (conds : List Condition) (s : Joining), Trunk plans s.plan.tables s →
      Trunk plans (conds.foldl (joinNext plans) s).plan.tables (conds.foldl (joinNext plans) s) := by
    intro conds
    induction conds with
    | nil => exact fun _ trunk => trunk
    | cons c conds ih => exact fun s trunk => ih _ (joinNext_trunk later trunk c)
  cases conds with
  | nil =>
    cases plans with
    | nil => exact ⟨.null, [], rfl, List.nodup_nil, .nil, nofun⟩
    | cons first rest =>
      obtain ⟨behind, others⟩ := List.pairwise_cons.mp later
      refine ⟨.scan first, rest, joinAll_nil first rest, List.nodup_singleton _, others, fun q member again => ?_⟩
      exact behind q member (List.mem_singleton.mp again).symm
  | cons c conds =>
    have trunk := all conds _ (joinFirst_trunk later start (apart c List.mem_cons_self))
    refine ⟨_, _, joinRest_chain _ _ _, trunk.nodup, unused_later later _, fun q member again => ?_⟩
    exact trunk.unused member again

/-- A plan is a tree over different tables with a chain of scans, of which only those of other tables have conditions. -/
theorem makeOneRel_chain {tables : List String} {conds : List Condition} {plan : Plan} (catalog : InCatalog db tables)
    (run : makeOneRel db tables conds = .ok plan) :
    ∃ (core : Plan) (rest : List ScanPlan), plan = core.chain rest ∧ core.tables.Nodup ∧ rest.Pairwise Later ∧
      ∀ q ∈ rest, q.tabName ∈ core.tables → q.conds = [] := by
  obtain ⟨plans, scanned, names, _⟩ := scanPlans_spec catalog conds
  have later := scanPlans_later scanned
  rw [makeOneRel, scanned] at run
  cases plans with
  | nil => cases run
  | cons p rest =>
    cases rest with
    | nil =>
      cases run
      exact ⟨.scan p, [], rfl, List.nodup_singleton _, .nil, fun q member => by cases member⟩
    | cons q rest =>
      cases run
      refine joinAll_chain later fun c member same => ?_
      -- a condition on one table is taken by the first scan
      obtain ⟨t, tables, rfl⟩ := List.exists_cons_of_ne_nil (show tables ≠ [] by rintro rfl; cases names)
      simpa [Pops, same] using (List.mem_filter.mp member).2

end Planner

end Rmdb
