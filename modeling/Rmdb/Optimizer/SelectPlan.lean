import Rmdb.Analyze.Analyze
import Rmdb.Optimizer.OneRel

namespace Rmdb
open Plan

namespace Planner

/-- The sort over the plan of a query with ORDER BY, by the last column of that name. -/
def generateSortPlan (db : DbMeta) (query : Query) (order : Option Ast.OrderBy) (plan : Plan) : Except Error Plan :=
  match order with
  | none => .ok plan
  | some order => do
    let allCols ← Analyze.getAllCols db query.tables
    let selCol : TabCol :=
      match (allCols.filter fun col => col.name = order.cols.colName).getLast? with
      | some col => ⟨col.tabName, col.name⟩
      | none => ⟨"", ""⟩
    return .sort plan selCol (order.dir = .desc)

def generateSelectPlan (db : DbMeta) (query : Query) (order : Option Ast.OrderBy) : Except Error Plan := do
  let plan ← makeOneRel db query.tables query.conds
  let plan ← generateSortPlan db query order plan
  return .projection plan query.cols

variable {db : DbMeta} {tables : List String} {conds : List Condition} {t : String}

/-- Without an index there is no index scan. -/
theorem scanPlan_tag {tab : TabMeta} {p : ScanPlan} (table : db.getTable t = .ok tab) (bare : tab.indexes = [])
    (run : scanPlan db t conds = .ok p) : p.tag = .seqScan := by
  simp only [scanPlan, getIndexCols, table, ok_bind, TabMeta.isIndex, bare, List.any_nil, pure_bind,
    Bool.false_eq_true, if_false] at run
  obtain ⟨_, _, run⟩ := bind_eq_ok_iff.mp run
  split at run
  · cases run
  · cases run
    rfl

/-- A scan has conditions that it pops. -/
theorem scanPlans_taken {scans : List ScanPlan} {rest : List Condition}
    (run : scanPlans db tables conds = .ok (scans, rest)) :
    ∀ q ∈ scans, scanPlan db q.tabName q.conds = .ok q ∧ ∀ c ∈ q.conds, c ∈ conds ∧ Pops q.tabName c = true := by
  induction tables generalizing conds scans with
  | nil =>
    cases run
    exact fun q member => by cases member
  | cons t tables ih =>
    have popped : popConds conds t = (conds.filter (Pops t), conds.filter fun c => !Pops t c) :=
      List.partition_eq_filter_filter
    rw [scanPlans, popped] at run
    obtain ⟨scan, made, run⟩ := bind_eq_ok_iff.mp run
    obtain ⟨⟨later, left⟩, others, run⟩ := bind_eq_ok_iff.mp run
    cases run
    obtain ⟨rfl, takes, _⟩ := scanPlan_ok made
    refine List.forall_mem_cons.mpr ⟨?_, fun q member => ?_⟩
    · rw [takes]
      exact ⟨made, fun c member => List.mem_filter.mp member⟩
    · obtain ⟨made, taken⟩ := ih others q member
      exact ⟨made, fun c onQ => ⟨(List.mem_filter.mp (taken c onQ).1).1, (taken c onQ).2⟩⟩

/-- The first scan takes all conditions on two columns of one table; for the others literals on their own remain. -/
theorem scanPlans_first (catalog : InCatalog db (t :: tables)) (conds : List Condition) :
    ∃ p rest, scanPlans db (t :: tables) conds = .ok (p :: rest, leftOver (t :: tables) conds) ∧
      (p :: rest).map (·.tabName) = t :: tables ∧ p.conds = conds.filter (Pops t) ∧
      (∀ q ∈ p :: rest, scanPlan db q.tabName q.conds = .ok q) ∧
      ∀ q ∈ rest, ∀ c ∈ q.conds, c ∈ conds ∧ c.isRhsVal = true ∧ c.lhsCol.tabName = q.tabName := by
  obtain ⟨scans, run, names, _⟩ := scanPlans_spec catalog conds
  have made := fun q member => (scanPlans_taken run q member).1
  have popped : popConds conds t = (conds.filter (Pops t), conds.filter fun c => !Pops t c) :=
    List.partition_eq_filter_filter
  have whole := run
  rw [scanPlans, popped] at run
  obtain ⟨p, first, run⟩ := bind_eq_ok_iff.mp run
  obtain ⟨⟨rest, left⟩, others, run⟩ := bind_eq_ok_iff.mp run
  cases run
  refine ⟨p, rest, whole, names, (scanPlan_ok first).2.1, made, fun q member c onQ => ?_⟩
  obtain ⟨inRest, pops⟩ := (scanPlans_taken others q member).2 c onQ
  obtain ⟨inConds, notFirst⟩ := List.mem_filter.mp inRest
  simp only [Pops, Bool.not_eq_true', Bool.or_eq_false_iff, decide_eq_false_iff_not] at notFirst
  simp only [Pops, Bool.or_eq_true, Bool.and_eq_true, decide_eq_true_iff] at pops
  obtain ⟨own, literal⟩ := pops.resolve_right notFirst.2
  exact ⟨inConds, literal, own.symm⟩

/-- One turn of the last loop, over a scan and its mark. -/
def joinUnused (plan : Plan) (marked : Int × ScanPlan) : Plan :=
  if marked.1 = -1 then .join (.scan marked.2) plan [] else plan

theorem joinRest_eq (scantbl : List Int) (plans : List ScanPlan) (plan : Plan) :
    joinRest scantbl plans plan = (scantbl.zip plans).foldl joinUnused plan := rfl

/-- Without conditions between two tables the scans are joined one after the other. -/
theorem joinAll_nil (p : ScanPlan) (rest : List ScanPlan) :
    joinAll (p :: rest) [] = rest.foldl (fun plan q => .join (.scan q) plan []) (.scan p) := by
  have unused : ∀ plan : Plan, ((List.replicate rest.length (-1 : Int)).zip rest).foldl joinUnused plan =
      rest.foldl (fun plan q => .join (.scan q) plan []) plan := by
    induction rest with
    | nil => exact fun _ => rfl
    | cons q rest ih =>
      intro plan
      rw [List.length_cons, List.replicate_succ, List.zip_cons_cons, List.foldl_cons, List.foldl_cons, joinUnused,
        if_pos rfl]
      exact ih _
  exact unused (.scan p)

/-- What `make_one_rel` makes of the scans. -/
theorem makeOneRel_eq {p : ScanPlan} {rest : List ScanPlan} {left : List Condition}
    (run : scanPlans db tables conds = .ok (p :: rest, left)) :
    makeOneRel db tables conds = .ok (if rest = [] then .scan p else joinAll (p :: rest) left) := by
  rw [makeOneRel, run]
  cases rest with
  | nil => rfl
  | cons q rest => rfl

end Planner

namespace Plan

/-- Built of some scans, with conditions of a kind on the joins. -/
def From (plans : List ScanPlan) (kind : Condition → Prop) : Plan → Prop
  | .null => True
  | .scan p => p ∈ plans
  | .join left right conds => left.From plans kind ∧ right.From plans kind ∧ ∀ c ∈ conds, kind c
  | _ => False

/-- A tree of joins without a null plan in it. -/
def Whole : Plan → Prop
  | .scan _ => True
  | .join left right _ => left.Whole ∧ right.Whole
  | _ => False

theorem From.mem {plans : List ScanPlan} {kind : Condition → Prop} {plan : Plan} (made : plan.From plans kind)
    {p : ScanPlan} (member : p ∈ plan.scans) : p ∈ plans := by
  induction plan with
  | null => cases member
  | projection => exact made.elim
  | sort => exact made.elim
  | scan q => exact List.mem_singleton.mp member ▸ made
  | join left right conds ihLeft ihRight =>
    rcases List.mem_append.mp member with inLeft | inRight
    · exact ihLeft made.1 inLeft
    · exact ihRight made.2.1 inRight

end Plan

namespace Planner
variable {plans : List ScanPlan} {kind : Condition → Prop} {c : Condition} {s : Joining}

theorem popScan_from (plans : List ScanPlan) (kind : Condition → Prop) (table : String) (s : Joining) :
    (popScan table plans s).1.From plans kind ∧ (popScan table plans s).2.plan = s.plan := by
  unfold popScan
  split
  · exact ⟨trivial, rfl⟩
  · split
    · exact ⟨trivial, rfl⟩
    · rename_i p found
      exact ⟨List.mem_of_getElem? found, rfl⟩

theorem popNew_from (plans : List ScanPlan) (kind : Condition → Prop) (table : String) (s : Joining) :
    (popNew table plans s).1.From plans kind ∧ (popNew table plans s).2.plan = s.plan := by
  unfold popNew
  split
  · exact ⟨trivial, rfl⟩
  · exact popScan_from plans kind table s

theorem joinFirst_from (ofKind : kind c) (s : Joining) : (joinFirst plans c s).plan.From plans kind := by
  obtain ⟨left, _⟩ := popScan_from plans kind c.lhsCol.tabName s
  obtain ⟨right, _⟩ := popScan_from plans kind c.rhsCol.tabName (popScan c.lhsCol.tabName plans s).2
  refine ⟨left, right, fun d member => ?_⟩
  rw [List.mem_singleton.mp member]
  exact ofKind

section
variable (mirror : ∀ c, kind c → kind c.mirror)
include mirror

theorem pushConds_from {plan : Plan} (made : plan.From plans kind) (ofKind : kind c) :
    (pushConds c plan).2.From plans kind := by
  induction plan with
  | null => trivial
  | projection => exact made.elim
  | sort => exact made.elim
  | scan p => exact made
  | join left right conds ihLeft ihRight =>
    obtain ⟨inLeft, inRight, here⟩ := made
    simp only [pushConds]
    split
    · exact ⟨ihLeft inLeft, inRight, here⟩
    · split
      · exact ⟨inLeft, ihRight inRight, here⟩
      · split
        · exact ⟨inLeft, inRight, here⟩
        · refine ⟨inLeft, inRight, fun d member => ?_⟩
          rcases List.mem_append.mp member with old | new
          · exact here d old
          · rw [List.mem_singleton.mp new]
            split
            · exact mirror c ofKind
            · exact ofKind

theorem joinNext_from (made : s.plan.From plans kind) (ofKind : kind c) :
    (joinNext plans s c).plan.From plans kind := by
  obtain ⟨left, kept⟩ := popNew_from plans kind c.lhsCol.tabName s
  obtain ⟨right, kept'⟩ := popNew_from plans kind c.rhsCol.tabName (popNew c.lhsCol.tabName plans s).2
  rw [← kept, ← kept'] at made
  have turned : ∀ (p : Prop) [Decidable p], ∀ d ∈ [if p then c.mirror else c], kind d := by
    intro p _ d member
    rw [List.mem_singleton.mp member]
    split
    · exact mirror c ofKind
    · exact ofKind
  have chosen : ∀ (p : Prop) [Decidable p] {a b : Plan}, a.From plans kind → b.From plans kind →
      (if p then a else b).From plans kind := by
    intro p _ a b first second
    split
    · exact first
    · exact second
  unfold joinNext
  simp only
  split
  · exact pushConds_from mirror made ofKind
  · exact ⟨chosen _ right trivial, made, turned _⟩
  · exact ⟨chosen _ trivial left, made, turned _⟩
  · refine ⟨⟨left, right, fun d member => ?_⟩, made, fun d member => by cases member⟩
    rw [List.mem_singleton.mp member]
    exact ofKind

end

/-- What holds of a plan and stays when a scan is joined on the left holds after the last loop. -/
theorem joinRest_induct {motive : Plan → Prop} {plan : Plan} (scantbl : List Int) (start : motive plan)
    (step : ∀ p ∈ plans, ∀ plan, motive plan → motive (.join (.scan p) plan [])) :
    motive (joinRest scantbl plans plan) := by
  have each : ∀ (l : List (Int × ScanPlan)) (plan : Plan), motive plan → (∀ q ∈ l, q.2 ∈ plans) →
      motive (l.foldl joinUnused plan) := by
    intro l
    induction l with
    | nil => exact fun plan holds _ => holds
    | cons q l ih =>
      intro plan holds inside
      obtain ⟨here, later⟩ := List.forall_mem_cons.mp inside
      rw [List.foldl_cons]
      refine ih _ ?_ later
      unfold joinUnused
      split
      · exact step q.2 here plan holds
      · exact holds
  rw [joinRest_eq]
  exact each _ plan start fun q member => (List.of_mem_zip member).2

theorem joinRest_from {plan : Plan} (made : plan.From plans kind) (scantbl : List Int) :
    (joinRest scantbl plans plan).From plans kind :=
  joinRest_induct scantbl made fun _ inPlans _ inside => ⟨inPlans, inside, fun _ member => by cases member⟩

/-! A scan that is marked as used is in the tree, unless there is a null plan. -/

/-- Every scan that is marked is among these. -/
def Kept (plans placed : List ScanPlan) (s : Joining) : Prop :=
  ∀ (i : Nat) (p : ScanPlan), plans[i]? = some p → s.scantbl[i]? = some (-1) ∨ p ∈ placed

theorem popScan_kept {placed : List ScanPlan} (kept : Kept plans placed s) (table : String) :
    Kept plans ((popScan table plans s).1.scans ++ placed) (popScan table plans s).2 := by
  have same : Kept plans ((Plan.null).scans ++ placed) s := kept
  unfold popScan
  split
  · exact same
  · rename_i i _
    split
    · exact same
    · rename_i p found
      intro j q atJ
      by_cases here : i = j
      · subst here
        rw [found] at atJ
        cases atJ
        exact Or.inr List.mem_cons_self
      · rw [List.getElem?_set_ne here]
        exact (kept j q atJ).imp_right (List.mem_cons_of_mem p)

theorem popNew_kept {placed : List ScanPlan} (kept : Kept plans placed s) (table : String) :
    Kept plans ((popNew table plans s).1.scans ++ placed) (popNew table plans s).2 := by
  unfold popNew
  split
  · exact kept
  · exact popScan_kept kept table

theorem Kept.setPlan {placed placed' : List ScanPlan} (kept : Kept plans placed s) (sub : ∀ p ∈ placed, p ∈ placed')
    (plan : Plan) : Kept plans placed' { s with plan } := fun i p atI => (kept i p atI).imp_right (sub p)

theorem pushConds_whole (c : Condition) (plan : Plan) :
    (pushConds c plan).2.scans = plan.scans ∧ ((pushConds c plan).2.Whole → plan.Whole) := by
  induction plan with
  | null => exact ⟨rfl, id⟩
  | projection => exact ⟨rfl, id⟩
  | sort => exact ⟨rfl, id⟩
  | scan p => exact ⟨rfl, id⟩
  | join left right conds ihLeft ihRight =>
    simp only [pushConds]
    split
    · exact ⟨by simp only [scans, ihLeft.1], fun whole => ⟨ihLeft.2 whole.1, whole.2⟩⟩
    · split
      · exact ⟨by simp only [scans, ihRight.1], fun whole => ⟨whole.1, ihRight.2 whole.2⟩⟩
      · split
        · exact ⟨rfl, id⟩
        · exact ⟨rfl, id⟩

theorem joinFirst_kept (kept : Kept plans [] s) (c : Condition) :
    Kept plans (joinFirst plans c s).plan.scans (joinFirst plans c s) := by
  have both := popScan_kept (popScan_kept kept c.lhsCol.tabName) c.rhsCol.tabName
  refine both.setPlan (fun p member => ?_) _
  rw [List.append_nil] at member
  exact List.mem_append.mpr (List.mem_append.mp member).symm

theorem joinNext_kept (kept : s.plan.Whole → Kept plans s.plan.scans s) (c : Condition)
    (whole : (joinNext plans s c).plan.Whole) : Kept plans (joinNext plans s c).plan.scans (joinNext plans s c) := by
  have same := (popNew_from plans (fun _ => True) c.lhsCol.tabName s).2
  have same' := (popNew_from plans (fun _ => True) c.rhsCol.tabName
    (popNew c.lhsCol.tabName plans s).2).2
  have pops (inside : s.plan.Whole) := popNew_kept (popNew_kept (kept inside) c.lhsCol.tabName) c.rhsCol.tabName
  revert whole
  unfold joinNext
  simp only [same', same]
  generalize (popNew c.lhsCol.tabName plans s).1 = left at pops ⊢
  generalize (popNew c.lhsCol.tabName plans s).2 = s₁ at pops ⊢
  generalize popNew c.rhsCol.tabName plans s₁ = popped at pops ⊢
  obtain ⟨right, s₂⟩ := popped
  simp only at pops ⊢
  split
  · intro whole
    have pushed := pushConds_whole c s.plan
    exact (pops (pushed.2 whole)).setPlan (by rw [pushed.1]; exact fun p member => member) _
  · intro whole
    refine (pops whole.2).setPlan ?_ _
    split at whole
    · rename_i reverse
      rw [if_pos reverse]
      exact fun p member => member
    · exact whole.1.elim
  · intro whole
    refine (pops whole.2).setPlan ?_ _
    split at whole
    · exact whole.1.elim
    · rename_i straight
      rw [if_neg straight]
      exact fun p member => member
  · intro whole
    refine (pops whole.2).setPlan (fun p member => ?_) _
    simp only [scans, List.mem_append] at member ⊢
    tauto

theorem joinRest_all {scantbl : List Int} {plan : Plan}
    (free : ∀ (i : Nat) (p : ScanPlan), plans[i]? = some p → scantbl[i]? = some (-1) ∨ p ∈ plan.scans) :
    ∀ p ∈ plans, p ∈ (joinRest scantbl plans plan).scans := by
  have each : ∀ (l : List (Int × ScanPlan)) (plan : Plan) (p : ScanPlan), (-1, p) ∈ l ∨ p ∈ plan.scans →
      p ∈ (l.foldl joinUnused plan).scans := by
    intro l
    induction l with
    | nil => exact fun plan p inside => inside.resolve_left List.not_mem_nil
    | cons q l ih =>
      intro plan p inside
      rw [List.foldl_cons]
      refine ih _ p ?_
      rcases inside with marked | inTree
      · rcases List.mem_cons.mp marked with rfl | later
        · exact Or.inr List.mem_cons_self
        · exact Or.inl later
      · refine Or.inr ?_
        unfold joinUnused
        split
        · exact List.mem_cons_of_mem q.2 inTree
        · exact inTree
  intro p member
  rw [joinRest_eq]
  obtain ⟨i, atI⟩ := List.mem_iff_getElem?.mp member
  refine each _ plan p ((free i p atI).imp_left fun marked => ?_)
  exact List.mem_of_getElem? (List.getElem?_zip_eq_some.mpr ⟨marked, atI⟩)

theorem joinRest_whole {plan : Plan} (scantbl : List Int) (whole : (joinRest scantbl plans plan).Whole) :
    plan.Whole := by
  by_contra broken
  exact joinRest_induct (motive := fun plan => ¬plan.Whole) scantbl broken (fun _ _ _ broken whole => broken whole.2)
    whole

/-- No scan is lost from a tree that is whole. -/
theorem joinAll_all {conds : List Condition} (whole : (joinAll plans conds).Whole) :
    ∀ p ∈ plans, p ∈ (joinAll plans conds).scans := by
  have start : Kept plans [] ⟨List.replicate plans.length (-1), List.replicate plans.length "", .null⟩ := by
    refine fun i p atI => Or.inl ?_
    have inside : i < plans.length := (List.getElem?_eq_some_iff.mp atI).1
    simp [inside]
  have all : ∀ (conds : List Condition) (s : Joining), (s.plan.Whole → Kept plans s.plan.scans s) →
      (conds.foldl (joinNext plans) s).plan.Whole →
      Kept plans (conds.foldl (joinNext plans) s).plan.scans (conds.foldl (joinNext plans) s) := by
    intro conds
    induction conds with
    | nil => exact fun _ kept => kept
    | cons c conds ih => exact fun s kept => ih _ (joinNext_kept kept c)
  cases conds with
  | nil =>
    cases plans with
    | nil => exact fun p member => by cases member
    | cons first rest =>
      refine joinRest_all fun i p atI => ?_
      cases i with
      | zero =>
        cases atI
        exact Or.inr List.mem_cons_self
      | succ i =>
        have inside : i < rest.length := Nat.lt_of_succ_lt_succ (List.getElem?_eq_some_iff.mp atI).1
        exact Or.inl (by simp [inside])
  | cons c conds =>
    exact joinRest_all (all conds _ (fun _ => joinFirst_kept start c) (joinRest_whole _ whole))

/-- A table that is not in the list has no scan. -/
theorem popScan_missing {table : String} (missing : table ∉ plans.map (·.tabName)) (s : Joining) :
    popScan table plans s = (.null, s) := by
  have none : (plans.findIdx? fun p => p.tabName = table) = none := by
    refine List.findIdx?_eq_none_iff.mpr fun p member => ?_
    simpa using fun same : p.tabName = table => missing (List.mem_map.mpr ⟨p, member, same⟩)
  rw [popScan, none]

/-- The first join has a null plan for such a table. -/
theorem joinFirst_missing
    (missing : c.lhsCol.tabName ∉ plans.map (·.tabName) ∨ c.rhsCol.tabName ∉ plans.map (·.tabName)) (s : Joining) :
    ∃ left right, (joinFirst plans c s).plan = .join left right [c] ∧ (left = .null ∨ right = .null) := by
  rcases missing with lhs | rhs
  · exact ⟨_, _, rfl, Or.inl (congrArg Prod.fst (popScan_missing lhs s))⟩
  · exact ⟨_, _, rfl, Or.inr (congrArg Prod.fst (popScan_missing rhs _))⟩

/-- Whatever the conditions are, the tree has the scans and, on its joins, these conditions or their mirror images. -/
theorem joinAll_from (mirror : ∀ c, kind c → kind c.mirror) {conds : List Condition} (ofKind : ∀ c ∈ conds, kind c) :
    (joinAll plans conds).From plans kind := by
  have all : ∀ (conds : List Condition) (s : Joining), s.plan.From plans kind → (∀ c ∈ conds, kind c) →
      (conds.foldl (joinNext plans) s).plan.From plans kind := by
    intro conds
    induction conds with
    | nil => exact fun _ made _ => made
    | cons c conds ih =>
      intro s made ofKind
      obtain ⟨here, later⟩ := List.forall_mem_cons.mp ofKind
      exact ih _ (joinNext_from mirror made here) later
  cases conds with
  | nil =>
    cases plans with
    | nil => trivial
    | cons p rest => exact joinRest_from List.mem_cons_self _
  | cons c conds =>
    obtain ⟨here, later⟩ := List.forall_mem_cons.mp ofKind
    exact joinRest_from (all conds _ (joinFirst_from here _) later) _

end Planner

end Rmdb
