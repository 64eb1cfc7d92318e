import Rmdb.Optimizer.Meaning

namespace Rmdb
open Rmdb.Tuple Plan

namespace Condition

/-- The condition itself or its mirror image. -/
def Same (c d : Condition) : Prop := d = c ∨ d = c.mirror

/-- A comparison of columns of two different tables of a list. -/
def Joins (tables : List String) (c : Condition) : Prop :=
  c.isRhsVal = false ∧ c.lhsCol.tabName ∈ tables ∧ c.rhsCol.tabName ∈ tables ∧ c.lhsCol.tabName ≠ c.rhsCol.tabName

theorem holds_mirror {V : Type} [LinearOrder V] (lit : Value → V) {c : Condition} (column : c.isRhsVal = false)
    (t : Tuple String (Row V)) : c.mirror.holds lit t = c.holds lit t := by
  unfold Condition.holds mirror
  simp only [column]
  cases colValue t c.lhsCol with
  | none => cases colValue t c.rhsCol <;> rfl
  | some a =>
    cases colValue t c.rhsCol with
    | none => rfl
    | some b => exact CompOp.compare_swap c.op a b

end Condition

/-- The conditions of a list, some of them mirrored, in any order. -/
def Attached (done conds : List Condition) : Prop := ∃ ds, ds.Perm conds ∧ List.Forall₂ Condition.Same done ds

theorem Attached.add {done conds conds' : List Condition} {c d : Condition} (attached : Attached done conds)
    (same : c.Same d) (perm : (d :: conds).Perm conds') : Attached (done ++ [c]) conds' := by
  obtain ⟨ds, order, each⟩ := attached
  refine ⟨ds ++ [d], ?_, ?_⟩
  · exact (List.perm_append_comm.trans (List.Perm.cons d order)).trans perm
  · exact List.rel_append each (List.Forall₂.cons same List.Forall₂.nil)

namespace Planner
variable {c : Condition}

/-- What `push_conds` does to a join tree. The code says which columns of the condition
the tree has; if it has both, the condition is now on one join of it. -/
inductive Pushed (c : Condition) (plan : Plan) : Prop
  | both {plan' : Plan} {d : Condition} : c.lhsCol.tabName ∈ plan.tables → c.rhsCol.tabName ∈ plan.tables →
      pushConds c plan = (3, plan') → plan'.scans = plan.scans → plan'.Placed → c.Same d →
      (d :: plan.joinConds).Perm plan'.joinConds → Pushed c plan
  | lhs : c.lhsCol.tabName ∈ plan.tables → c.rhsCol.tabName ∉ plan.tables → pushConds c plan = (1, plan) → Pushed c plan
  | rhs : c.lhsCol.tabName ∉ plan.tables → c.rhsCol.tabName ∈ plan.tables → pushConds c plan = (2, plan) → Pushed c plan
  | neither : c.lhsCol.tabName ∉ plan.tables → c.rhsCol.tabName ∉ plan.tables → pushConds c plan = (0, plan) →
      Pushed c plan

namespace Pushed
variable {left right : Plan} {conds : List Condition}

/-- The condition went into the left child. -/
theorem into_left {left' : Plan} {d : Condition} (placed : (Plan.join left right conds).Placed)
    (lhs : c.lhsCol.tabName ∈ left.tables) (rhs : c.rhsCol.tabName ∈ left.tables)
    (pushed : pushConds c left = (3, left'))
    (scans : left'.scans = left.scans) (placed' : left'.Placed) (same : c.Same d)
    (perm : (d :: left.joinConds).Perm left'.joinConds) : Pushed c (.join left right conds) := by
  have result : pushConds c (.join left right conds) = (3, .join left' right conds) := by
    simp only [pushConds, pushed, if_true]
  refine .both ?_ ?_ result ?_ ?_ same ?_
  · simp [lhs]
  · simp [rhs]
  · simp only [Plan.scans, scans]
  · refine ⟨placed', placed.2.1, ?_⟩
    simp only [Plan.tables, scans]
    exact placed.2.2
  · exact (perm.append_right _).append_right _

/-- The condition went into the right child. -/
theorem into_right {right' : Plan} {d : Condition} (placed : (Plan.join left right conds).Placed)
    (notLeft : pushConds c left = (0, left)) (lhs : c.lhsCol.tabName ∈ right.tables)
    (rhs : c.rhsCol.tabName ∈ right.tables) (pushed : pushConds c right = (3, right'))
    (scans : right'.scans = right.scans)
    (placed' : right'.Placed) (same : c.Same d) (perm : (d :: right.joinConds).Perm right'.joinConds) :
    Pushed c (.join left right conds) := by
  have result : pushConds c (.join left right conds) = (3, .join left right' conds) := by
    simp [pushConds, notLeft, pushed]
  refine .both ?_ ?_ result ?_ ?_ same ?_
  · simp [lhs]
  · simp [rhs]
  · simp only [Plan.scans, scans]
  · refine ⟨placed.1, placed', ?_⟩
    simp only [Plan.tables, scans]
    exact placed.2.2
  · have moved : (d :: (left.joinConds ++ right.joinConds)).Perm (left.joinConds ++ right'.joinConds) :=
      List.perm_middle.symm.trans (perm.append_left _)
    exact moved.append_right _

/-- The condition, turned if need be, is put on this join. -/
theorem here {d : Condition} (placed : (Plan.join left right conds).Placed) (column : c.isRhsVal = false)
    (same : c.Same d)
    (lhs : d.lhsCol.tabName ∈ left.tables) (rhs : d.rhsCol.tabName ∈ right.tables)
    (result : pushConds c (.join left right conds) = (3, .join left right (conds ++ [d]))) :
    Pushed c (.join left right conds) := by
  have columnD : d.isRhsVal = false := by
    rcases same with rfl | rfl
    · exact column
    · exact column
  have found : c.lhsCol.tabName ∈ (Plan.join left right conds).tables ∧
      c.rhsCol.tabName ∈ (Plan.join left right conds).tables := by
    rw [tables_join, List.mem_append, List.mem_append]
    rcases same with rfl | rfl
    · exact ⟨Or.inl lhs, Or.inr rhs⟩
    · exact ⟨Or.inr rhs, Or.inl lhs⟩
  refine .both found.1 found.2 result rfl ?_ same ?_
  · refine ⟨placed.1, placed.2.1, fun e member => ?_⟩
    rcases List.mem_append.mp member with old | new
    · exact placed.2.2 e old
    · rw [List.mem_singleton.mp new]
      exact ⟨columnD, lhs, rhs⟩
  · simp only [Plan.joinConds]
    rw [← List.append_assoc]
    exact (List.perm_append_singleton d _).symm

end Pushed

theorem pushConds_spec {plan : Plan} (placed : plan.Placed) (nodup : plan.tables.Nodup) (column : c.isRhsVal = false)
    (different : c.lhsCol.tabName ≠ c.rhsCol.tabName) : Pushed c plan := by
  induction plan with
  | scan p =>
    by_cases left : p.tabName = c.lhsCol.tabName
    · refine .lhs ?_ ?_ ?_
      · simp [left]
      · simp [left, different.symm]
      · simp [pushConds, left]
    · by_cases right : p.tabName = c.rhsCol.tabName
      · refine .rhs ?_ ?_ ?_
        · simp [Ne.symm left]
        · simp [right]
        · simp [pushConds, right, different.symm]
      · refine .neither ?_ ?_ ?_
        · simp [Ne.symm left]
        · simp [Ne.symm right]
        · simp [pushConds, left, right]
  | join left right conds ihLeft ihRight =>
    rw [tables_join] at nodup
    obtain ⟨nodupLeft, nodupRight, apart⟩ := List.nodup_append.mp nodup
    have disjoint : ∀ {k}, k ∈ left.tables → k ∉ right.tables := fun inLeft inRight => apart _ inLeft _ inRight rfl
    cases ihLeft placed.1 nodupLeft with
    | both lhs rhs pushed scans placed' same perm => exact .into_left placed lhs rhs pushed scans placed' same perm
    | lhs lhs rhs pushed =>
      cases ihRight placed.2.1 nodupRight with
      | both lhs' => exact absurd lhs' (disjoint lhs)
      | lhs lhs' => exact absurd lhs' (disjoint lhs)
      | rhs _ rhs' pushed' => exact .here placed column (Or.inl rfl) lhs rhs' (by simp [pushConds, pushed, pushed'])
      | neither lhs' rhs' pushed' =>
        exact .lhs (by simp [lhs]) (by simp [rhs, rhs']) (by simp [pushConds, pushed, pushed'])
    | rhs lhs rhs pushed =>
      cases ihRight placed.2.1 nodupRight with
      | both _ rhs' => exact absurd rhs' (disjoint rhs)
      | rhs _ rhs' => exact absurd rhs' (disjoint rhs)
      | lhs lhs' _ pushed' => exact .here placed column (Or.inr rfl) rhs lhs' (by simp [pushConds, pushed, pushed'])
      | neither lhs' rhs' pushed' =>
        exact .rhs (by simp [lhs, lhs']) (by simp [rhs]) (by simp [pushConds, pushed, pushed'])
    | neither lhs rhs pushed =>
      cases ihRight placed.2.1 nodupRight with
      | both lhs' rhs' pushed' scans placed' same perm =>
        exact .into_right placed pushed lhs' rhs' pushed' scans placed' same perm
      | lhs lhs' rhs' pushed' =>
        exact .lhs (by simp [lhs']) (by simp [rhs, rhs']) (by simp [pushConds, pushed, pushed'])
      | rhs lhs' rhs' pushed' =>
        exact .rhs (by simp [lhs, lhs']) (by simp [rhs']) (by simp [pushConds, pushed, pushed'])
      | neither lhs' rhs' pushed' =>
        exact .neither (by simp [lhs, lhs']) (by simp [rhs, rhs']) (by simp [pushConds, pushed, pushed'])
  | null => exact placed.elim
  | projection => exact placed.elim
  | sort => exact placed.elim

/-- The scan that `pop_scan` finds for its table. -/
def First (plans : List ScanPlan) (i : Nat) (p : ScanPlan) : Prop :=
  plans[i]? = some p ∧ (plans.findIdx? fun q => q.tabName = p.tabName) = some i

/-- `scantbl` and `joined_tables` record the tables in `names`. The list starts with
empty strings, so this is said of real names only; of a table that is listed twice
only the first scan is ever marked. -/
structure Books (plans : List ScanPlan) (names : List String) (s : Joining) : Prop where
  length : s.scantbl.length = plans.length
  used : ∀ (i : Nat) (p : ScanPlan), plans[i]? = some p →
    (s.scantbl[i]? = some (-1) ↔ ¬(p.tabName ∈ names ∧ First plans i p))
  joined : ∀ t, t ≠ "" → (t ∈ s.joinedTables ↔ t ∈ names)

section books
variable {plans : List ScanPlan} {names : List String} {s : Joining} {t : String}

theorem First.inj {i j : Nat} {p q : ScanPlan} (first : First plans i p) (first' : First plans j q)
    (same : p.tabName = q.tabName) : i = j ∧ p = q := by
  obtain ⟨atI, search⟩ := first
  rw [same] at search
  have index : i = j := Option.some.inj (search.symm.trans first'.2)
  subst j
  exact ⟨rfl, Option.some.inj (atI.symm.trans first'.1)⟩

theorem Books.congr {names' : List String} (books : Books plans names s) (same : ∀ t, t ∈ names ↔ t ∈ names') :
    Books plans names' s where
  length := books.length
  used i p found := by rw [books.used i p found, same]
  joined t real := by rw [books.joined t real, same]

theorem Books.setPlan (books : Books plans names s) (plan : Plan) : Books plans names { s with plan := plan } :=
  ⟨books.length, books.used, books.joined⟩

theorem popScan_spec (books : Books plans names s) (known : t ∈ plans.map (·.tabName)) :
    ∃ p s', (∃ i, First plans i p) ∧ p.tabName = t ∧ popScan t plans s = (.scan p, s') ∧ s'.plan = s.plan ∧
      Books plans (t :: names) s' := by
  obtain ⟨q, inPlans, atQ⟩ := List.mem_map.mp known
  cases search : plans.findIdx? fun p => p.tabName = t with
  | none =>
    have := List.findIdx?_eq_none_iff.mp search q inPlans
    simp [atQ] at this
  | some i =>
    obtain ⟨inside, here, _⟩ := List.findIdx?_eq_some_iff_getElem.mp search
    have found : plans[i]? = some plans[i] := List.getElem?_eq_getElem inside
    have named : plans[i].tabName = t := by simpa using here
    have first : First plans i plans[i] := ⟨found, by rw [named]; exact search⟩
    have popped : popScan t plans s = (.scan plans[i], { s with
        scantbl := s.scantbl.set i 1
        joinedTables := s.joinedTables ++ [plans[i].tabName] }) := by
      simp only [popScan, search, found]
    refine ⟨plans[i], _, ⟨i, first⟩, named, popped, rfl, ?_⟩
    constructor
    case length => simp [books.length]
    case joined =>
      intro u real
      simp [books.joined u real, named, or_comm]
    case used =>
      intro j p atJ
      by_cases same : j = i
      · subst j
        cases found.symm.trans atJ
        simp [named, books.length, inside, first]
      · have other : First plans j p → p.tabName ≠ t := fun firstJ clash =>
          same (firstJ.inj first (clash.trans named.symm)).1
        simp only [List.getElem?_set_ne (Ne.symm same), books.used j p atJ, List.mem_cons]
        constructor
        · rintro none ⟨clash | old, firstJ⟩
          · exact other firstJ clash
          · exact none ⟨old, firstJ⟩
        · rintro none ⟨old, firstJ⟩
          exact none ⟨Or.inr old, firstJ⟩

end books

end Planner

end Rmdb
