import Rmdb.Server.Scans

namespace Rmdb
open Analyze Planner Plan Portal

/-! SELECT. -/

namespace ClientHandler
variable {N : Nat} {s : ClientHandler N} {strerror : String} {tabs : List String} {conds : List Condition}
  {es : List Ast.BinaryExpr} {allowed : Error → Prop}

/-- A column of the select list when the projection looks it up. -/
def projectCheck (s : ClientHandler N) (tabs : List String) (c : Ast.Col) : Check :=
  ⟨c.owner s.sys.db tabs ∈ tabs, 25 + (c.inFull s.sys.db tabs).text.length⟩

/-- A condition on two columns of one table is given to the scan of the first table. If that is another one, it fails
as soon as all tables have given a record. -/
def pushedChecks (s : ClientHandler N) (tabs : List String) (e : Ast.BinaryExpr) : List Check :=
  match e.rhs with
  | .val _ => []
  | .col c =>
    [⟨¬(e.lhs.owner s.sys.db tabs = c.owner s.sys.db tabs ∧ some (e.lhs.owner s.sys.db tabs) ≠ tabs.head? ∧
        ∀ t ∈ tabs, s.Holds t), 25 + (e.lhs.inFull s.sys.db tabs).text.length⟩]

/-- With ORDER BY there is no executor to look up a column. -/
def selectChecks (s : ClientHandler N) (cols : List Ast.Col) (tabs : List String) (es : List Ast.BinaryExpr) :
    Option Ast.OrderBy → List Check
  | some _ => []
  | none => cols.map (s.projectCheck tabs) ++ es.flatMap (s.pushedChecks tabs)

/-- The scans of a SELECT: the first one has all conditions on two columns of one table, the others have literals on
their own columns. -/
structure Planned (s : ClientHandler N) (tabs : List String) (conds : List Condition) (p : ScanPlan)
    (rest : List ScanPlan) : Prop where
  run : scanPlans s.sys.db tabs conds = .ok (p :: rest, leftOver tabs conds)
  names : (p :: rest).map (·.tabName) = tabs
  first : p.conds = conds.filter (Pops p.tabName)
  later : ∀ q ∈ rest, ∀ c ∈ q.conds, c ∈ conds ∧ c.isRhsVal = true ∧ c.lhsCol.tabName = q.tabName
  scans : ∀ q ∈ p :: rest, ∃ tab x, s.Scans q tab x

theorem Valid.planned (valid : s.Valid) (nonempty : tabs ≠ []) (found : ∀ t ∈ tabs, s.sys.db.isTable t = true)
    (conds : List Condition) : ∃ p rest, s.Planned tabs conds p rest := by
  have catalog : InCatalog s.sys.db tabs := by
    intro t member
    obtain ⟨tab, table⟩ := isTable_iff.mp (found t member)
    exact ⟨tab, getTable_ok table, (valid.wf _ _ (getTable_ok table)).2.2.1⟩
  obtain ⟨t, tables, rfl⟩ := List.exists_cons_of_ne_nil nonempty
  obtain ⟨p, rest, run, names, first, made, later⟩ := scanPlans_first catalog conds
  have head : p.tabName = t := (List.cons.inj names).1
  refine ⟨p, rest, run, names, head ▸ first, later, fun q member => ?_⟩
  exact (valid.scans (made q member)).2.2

/-- The conditions that are left for the joins; a single scan has none. -/
def between (rest : List ScanPlan) (tabs : List String) (conds : List Condition) : List Condition :=
  if rest = [] then [] else leftOver tabs conds

theorem mem_between {rest : List ScanPlan} {c : Condition} (member : c ∈ between rest tabs conds) :
    rest ≠ [] ∧ c ∈ leftOver tabs conds := by
  unfold between at member
  split at member
  · cases member
  · rename_i several
    exact ⟨several, member⟩

theorem between_one {rest : List ScanPlan} {c : Condition} (joins : between rest tabs [c] ≠ []) :
    between rest tabs [c] = [c] ∧ leftOver tabs [c] = [c] := by
  obtain ⟨d, member⟩ := List.exists_mem_of_ne_nil _ joins
  obtain ⟨several, left⟩ := mem_between member
  have same := List.mem_singleton.mp (List.mem_filter.mp left).1
  have kept : leftOver tabs [c] = [c] := List.filter_eq_self.mpr fun c' only => by
    rw [List.mem_singleton.mp only, ← same]
    exact (List.mem_filter.mp left).2
  exact ⟨by rw [between, if_neg several, kept], kept⟩

theorem unpopped {c : Condition} (left : c ∈ leftOver tabs conds) {t : String} (listed : t ∈ tabs) :
    Pops t c = false := by
  have kept := (List.mem_filter.mp left).2
  simpa using List.any_eq_false.mp (by simpa using kept) t listed

namespace Planned

/-- Both columns of a condition are columns of the tables. -/
def Sides (s : ClientHandler N) (tabs : List String) (c : Condition) : Prop :=
  (∃ r : Ast.Col, r.Resolves s.sys.db tabs ∧ c.lhsCol = r.inFull s.sys.db tabs) ∧
    ∃ r : Ast.Col, r.Resolves s.sys.db tabs ∧ c.rhsCol = r.inFull s.sys.db tabs

variable {p : ScanPlan} {rest : List ScanPlan} (planned : s.Planned tabs conds p rest)
include planned

theorem opens : ∀ q ∈ p :: rest, ∃ x, q.Opens s.sm x := by
  intro q member
  obtain ⟨_, x, scans⟩ := planned.scans q member
  exact ⟨x, scans.opens⟩

theorem listed {q : ScanPlan} (member : q ∈ p :: rest) : q.tabName ∈ tabs := by
  rw [← planned.names]
  exact List.mem_map_of_mem member

theorem exists_scan {t : String} (member : t ∈ tabs) : ∃ q ∈ p :: rest, q.tabName = t := by
  rw [← planned.names] at member
  exact List.mem_map.mp member

theorem conds_sub {q : ScanPlan} (member : q ∈ p :: rest) {c : Condition} (onScan : c ∈ q.conds) : c ∈ conds := by
  rcases List.mem_cons.mp member with rfl | later
  · rw [planned.first] at onScan
    exact (List.mem_filter.mp onScan).1
  · exact (planned.later q later c onScan).1

/-- The plan of all tables. -/
theorem built : makeOneRel s.sys.db tabs conds = .ok (joinAll (p :: rest) (between rest tabs conds)) := by
  rw [makeOneRel_eq planned.run, between]
  split
  · rename_i single
    rw [single]
    rfl
  · rfl

omit planned in
theorem between_sub {c : Condition} (member : c ∈ between rest tabs conds) : c ∈ conds :=
  (List.mem_filter.mp (mem_between member).2).1

theorem grounded : (joinAll (p :: rest) (between rest tabs conds)).Grounded s.sm :=
  From.grounded (@joinAll_from _ (fun _ => True) (fun _ _ => trivial) _ fun _ _ => trivial) planned.opens

/-- A resolved column is in a plan with all scans if its table is listed. -/
theorem has_iff (wf : s.sys.db.WF) {plan : Plan} {kind : Condition → Prop} (made : plan.From (p :: rest) kind)
    (all : ∀ q ∈ p :: rest, q ∈ plan.scans) {c : Ast.Col} (resolves : c.Resolves s.sys.db tabs) :
    plan.Has (c.inFull s.sys.db tabs) ↔ c.owner s.sys.db tabs ∈ tabs := by
  constructor
  · rintro ⟨q, member, has⟩
    obtain ⟨tab, x, scans⟩ := planned.scans q (made.mem member)
    rw [← scans.opens.cols, scans.has_inFull wf resolves] at has
    rw [has]
    exact planned.listed (made.mem member)
  · intro listed
    obtain ⟨q, member, same⟩ := planned.exists_scan listed
    obtain ⟨tab, x, scans⟩ := planned.scans q member
    refine ⟨q, all q member, ?_⟩
    rw [← scans.opens.cols, scans.has_inFull wf resolves]
    exact same.symm

/-- A condition whose columns are those of the scan. -/
theorem settles_own (wf : s.sys.db.WF) {q : ScanPlan} (member : q ∈ p :: rest) {e : Ast.BinaryExpr} {c : Condition}
    (resolved : Resolved s.sys.db tabs e c) (lhs : c.lhsCol.tabName = q.tabName)
    (rhs : c.isRhsVal = false → c.rhsCol.tabName = q.tabName) : (Plan.scan q).Settles allowed c := by
  obtain ⟨tab, x, scans⟩ := planned.scans q member
  obtain ⟨⟨l, _, resolves, left⟩, right⟩ := resolved.sides
  constructor
  · refine Or.inl (has_scan.mpr ?_)
    rw [left, ← scans.opens.cols, scans.has_inFull wf resolves]
    rwa [left] at lhs
  · intro _ column
    obtain ⟨r, _, resolves', same⟩ := right column
    refine Or.inl (has_scan.mpr ?_)
    have own := rhs column
    rw [same] at own ⊢
    rwa [← scans.opens.cols, scans.has_inFull wf resolves']

/-- Conditions whose names are short, or of the only table of the list. -/
theorem settled_near (wf : s.sys.db.WF) (resolved : List.Forall₂ (Resolved s.sys.db tabs) es conds)
    (near : ∀ e ∈ es, ∀ r ∈ e.references, r.Short s.sys.db tabs ∨ tabs = [r.owner s.sys.db tabs]) :
    (joinAll (p :: rest) (between rest tabs conds)).Settled (Error.Fits strerror) := by
  have names := planned.names
  cases rest with
  | nil =>
    change (Plan.scan p).Settled _
    intro c onScan
    obtain ⟨tab, x, scans⟩ := planned.scans p List.mem_cons_self
    obtain ⟨e, member, first⟩ := exists_of_forall₂ resolved (planned.conds_sub List.mem_cons_self onScan)
    obtain ⟨⟨l, inLeft, resolves, left⟩, right⟩ := first.sides
    have known : ∀ r ∈ e.references, r.Resolves s.sys.db tabs →
        (Plan.scan p).Knows (Error.Fits strerror) (r.inFull s.sys.db tabs) := by
      intro r inside resolves
      rcases near e member r inside with short | only
      · exact Or.inr ((Error.columnNotFound_fits _).mpr short)
      · refine Or.inl (has_scan.mpr ?_)
        rw [← scans.opens.cols, scans.has_inFull wf resolves]
        rw [only] at names
        exact (List.cons.inj names).1.symm
    refine ⟨left ▸ known l inLeft resolves, fun _ column => ?_⟩
    obtain ⟨r, inRight, resolves', same⟩ := right column
    exact same ▸ known r inRight resolves'
  | cons q rest =>
    have short : ∀ e ∈ es, ∀ r ∈ e.references, r.Short s.sys.db tabs := by
      intro e member r inside
      refine (near e member r inside).resolve_right fun only => ?_
      rw [only] at names
      cases (List.cons.inj names).2
    have harmless : ∀ c ∈ conds, Harmless (Error.Fits strerror) c := by
      intro c inConds
      obtain ⟨e, member, first⟩ := exists_of_forall₂ resolved inConds
      obtain ⟨⟨l, inLeft, _, left⟩, right⟩ := first.sides
      refine ⟨(Error.columnNotFound_fits _).mpr (left ▸ short e member l inLeft), ?_⟩
      cases kind : c.isRhsVal with
      | false =>
        obtain ⟨r, inRight, _, same⟩ := right kind
        exact (Error.columnNotFound_fits _).mpr (same ▸ short e member r inRight)
      | true =>
        cases side : e.rhs with
        | val v =>
          rw [(first.literal v side).2]
          exact (Error.columnNotFound_fits _).mpr (by decide)
        | col r =>
          rw [(first.column r side).1] at kind
          cases kind
    refine From.settled (joinAll_from (fun c both => ⟨both.2, both.1⟩) fun c left => ?_) fun q member c onScan => ?_
    · exact harmless c (between_sub left)
    · exact harmless c (planned.conds_sub member onScan)

theorem real (wf : s.sys.db.WF) : "" ∉ tabs := by
  intro empty
  obtain ⟨q, member, same⟩ := planned.exists_scan empty
  obtain ⟨tab, x, scans⟩ := planned.scans q member
  exact (wf _ _ (getTable_ok scans.table)).1 same

/-- In a tree where every condition joins two tables of its children the columns are there. -/
theorem settled_placed (wf : s.sys.db.WF) {plan : Plan} (made : plan.From (p :: rest) (Sides s tabs))
    (placed : plan.Placed) (bare : ∀ q ∈ p :: rest, q.conds = []) : plan.Settled allowed := by
  have found : ∀ {side : Plan} {r : Ast.Col}, side.From (p :: rest) (Sides s tabs) → r.Resolves s.sys.db tabs →
      r.owner s.sys.db tabs ∈ side.tables → side.Has (r.inFull s.sys.db tabs) := by
    intro side r inside resolves listed
    obtain ⟨q, member, same⟩ := List.mem_map.mp listed
    obtain ⟨tab, x, scans⟩ := planned.scans q (inside.mem member)
    refine ⟨q, member, ?_⟩
    rw [← scans.opens.cols, scans.has_inFull wf resolves]
    exact same.symm
  induction plan with
  | null => trivial
  | projection => trivial
  | sort => trivial
  | scan q =>
    intro c onScan
    rw [bare q made] at onScan
    cases onScan
  | join left right conds ihLeft ihRight =>
    refine ⟨ihLeft made.1 placed.1, ihRight made.2.1 placed.2.1, fun c member => ?_⟩
    obtain ⟨column, inLeft, inRight⟩ := placed.2.2 c member
    obtain ⟨⟨l, resolves, lhs⟩, r, resolves', rhs⟩ := made.2.2 c member
    rw [lhs] at inLeft
    rw [rhs] at inRight
    refine ⟨Or.inl (has_join.mpr (Or.inl ?_)), fun _ _ => Or.inl (has_join.mpr (Or.inr ?_))⟩
    · exact lhs ▸ found made.1 resolves inLeft
    · exact rhs ▸ found made.2.1 resolves' inRight

/-- A single condition that no scan takes joins two tables, or there is a null plan. -/
theorem settled_joined (wf : s.sys.db.WF) {e : Ast.BinaryExpr} {c : Condition} (resolved : Resolved s.sys.db tabs e c)
    (all : conds = [c]) (left : leftOver tabs conds = [c]) (whole : (joinAll (p :: rest) [c]).Whole) :
    (joinAll (p :: rest) [c]).Settled allowed := by
  have unpopped : ∀ t ∈ tabs, Pops t c = false := fun t listed => by
    have member : c ∈ leftOver tabs conds := by rw [left]; exact List.mem_cons_self
    exact unpopped member listed
  have first := unpopped _ (planned.listed List.mem_cons_self)
  simp only [Pops, Bool.or_eq_false_iff, decide_eq_false_iff_not] at first
  have joined : (joinFirst (p :: rest) c ⟨List.replicate (p :: rest).length (-1), List.replicate (p :: rest).length "",
      .null⟩).plan.Whole := joinRest_whole _ whole
  have both : c.lhsCol.tabName ∈ tabs ∧ c.rhsCol.tabName ∈ tabs := by
    by_contra missing
    rw [not_and_or, ← planned.names] at missing
    obtain ⟨l, r, same, null⟩ := joinFirst_missing missing _
    rw [same] at joined
    rcases null with rfl | rfl
    · exact joined.1
    · exact joined.2
  have column : c.isRhsVal = false := by
    have own := unpopped _ both.1
    simp only [Pops, decide_true, Bool.true_and, Bool.or_eq_false_iff] at own
    exact own.1
  obtain ⟨⟨l, _, resolves, lhs⟩, right⟩ := resolved.sides
  obtain ⟨r, _, resolves', rhs⟩ := right column
  have bare : ∀ q ∈ p :: rest, q.conds = [] := by
    intro q member
    refine List.eq_nil_iff_forall_not_mem.mpr fun d onScan => ?_
    have inConds := planned.conds_sub member onScan
    rw [all] at inConds
    rw [List.mem_singleton.mp inConds] at onScan
    rcases List.mem_cons.mp member with rfl | later
    · rw [planned.first] at onScan
      have popped := (List.mem_filter.mp onScan).2
      rw [unpopped _ (planned.listed List.mem_cons_self)] at popped
      cases popped
    · have literal := (planned.later q later c onScan).2.1
      rw [column] at literal
      cases literal
  have joins : ∀ d ∈ [c], d.Joins ((p :: rest).map (·.tabName)) := by
    intro d member
    rw [List.mem_singleton.mp member, planned.names]
    exact ⟨column, both.1, both.2, first.2⟩
  have result := joinAll_result (by rw [planned.names]; exact planned.real wf) (List.cons_ne_nil p rest) joins
  have made : (joinAll (p :: rest) [c]).From (p :: rest) (Sides s tabs) := by
    refine joinAll_from (fun d sides => ⟨sides.2, sides.1⟩) fun d member => ?_
    rw [List.mem_singleton.mp member]
    exact ⟨⟨l, resolves, lhs⟩, r, resolves', rhs⟩
  exact planned.settled_placed wf made result.2.1 bare

/-! Without conditions between tables the scans are joined one after the other. -/

/-- The scans behind the first one. -/
theorem later_settled (wf : s.sys.db.WF) (resolved : ∀ c ∈ conds, ∃ e, Resolved s.sys.db tabs e c) {q : ScanPlan}
    (member : q ∈ rest) : (Plan.scan q).Settled allowed := by
  intro c onScan
  obtain ⟨inConds, literal, own⟩ := planned.later q member c onScan
  obtain ⟨e, first⟩ := resolved c inConds
  refine planned.settles_own wf (List.mem_cons_of_mem p member) first own fun column => ?_
  rw [literal] at column
  cases column

theorem chain_settled_one (wf : s.sys.db.WF) {e : Ast.BinaryExpr} {c : Condition}
    (resolved : Resolved s.sys.db tabs e c) (all : conds = [c])
    (harmless : (c.isRhsVal = false → c.lhsCol.tabName = c.rhsCol.tabName → c.lhsCol.tabName = p.tabName) ∨
      allowed (.columnNotFound c.lhsCol.text)) :
    (joinAll (p :: rest) []).Settled allowed := by
  have only : ∀ {q}, q ∈ p :: rest → ∀ d ∈ q.conds, d = c := by
    intro q member d onScan
    have inConds := planned.conds_sub member onScan
    rw [all] at inConds
    exact List.mem_singleton.mp inConds
  have start : (Plan.scan p).Settled allowed := by
    intro d onScan
    have same := only List.mem_cons_self d onScan
    subst same
    rw [planned.first] at onScan
    have popped := (List.mem_filter.mp onScan).2
    simp only [Pops, Bool.or_eq_true, Bool.and_eq_true, decide_eq_true_iff] at popped
    obtain ⟨⟨l, _, resolves, lhs⟩, _⟩ := resolved.sides
    cases kind : d.isRhsVal with
    | true =>
      have own : d.lhsCol.tabName = p.tabName := by
        refine popped.elim (fun own => own.1.symm) fun same => ?_
        cases side : e.rhs with
        | val v =>
          rw [(resolved.literal v side).2, lhs] at same
          exact ((resolves_owner wf resolves).1 same).elim
        | col r =>
          rw [(resolved.column r side).1] at kind
          cases kind
      refine planned.settles_own wf List.mem_cons_self resolved own fun column => ?_
      rw [kind] at column
      cases column
    | false =>
      have same : d.lhsCol.tabName = d.rhsCol.tabName := popped.resolve_left fun literal => by
        rw [kind] at literal
        cases literal.2
      by_cases own : d.lhsCol.tabName = p.tabName
      · exact planned.settles_own wf List.mem_cons_self resolved own fun _ => same ▸ own
      · refine ⟨Or.inr (harmless.resolve_left fun first => own (first kind same)), fun has => (own ?_).elim⟩
        obtain ⟨tab, x, scans⟩ := planned.scans p List.mem_cons_self
        rw [has_scan, lhs, ← scans.opens.cols, scans.has_inFull wf resolves] at has
        rw [lhs]
        exact has
  rw [joinAll_nil]
  refine chain_induct start fun q member plan settled =>
    ⟨planned.later_settled wf (fun d inConds => ?_) member, settled, fun d none => by cases none⟩
  rw [all, List.mem_singleton] at inConds
  exact ⟨e, inConds ▸ resolved⟩

theorem chain_grounded : (joinAll (p :: rest) []).Grounded s.sm :=
  From.grounded (@joinAll_from _ (fun _ => True) (fun _ _ => trivial) _ fun _ none => by cases none) planned.opens

/-- The scan of the first table fails on the condition, and the other tables have records without any. -/
theorem chain_loud (wf : s.sys.db.WF) {e : Ast.BinaryExpr} {c : Condition} (resolved : Resolved s.sys.db tabs e c)
    (all : conds = [c]) (column : c.isRhsVal = false) (same : c.lhsCol.tabName = c.rhsCol.tabName)
    (other : c.lhsCol.tabName ≠ p.tabName) (full : ∀ t ∈ tabs, s.Holds t) :
    ∃ E, convertPlanExecutor s.sm (joinAll (p :: rest) []) = .ok E ∧ E.Bursts (.columnNotFound c.lhsCol.text) := by
  obtain ⟨tab, x, scans⟩ := planned.scans p List.mem_cons_self
  obtain ⟨⟨l, _, resolves, lhs⟩, _⟩ := resolved.sides
  have missing : ¬Has x.cols c.lhsCol := by
    rw [lhs] at other ⊢
    rwa [scans.has_inFull wf resolves]
  have taken : p.conds = [c] := by
    rw [planned.first, all]
    simp [Pops, same]
  have first := scans.bursts taken (full _ (planned.listed List.mem_cons_self))
    fun _ _ => SeqScanExecutor.evalCond_missing missing
  rw [joinAll_nil]
  refine chain_bursts (convert_scan scans.opens) rfl first fun q member => ?_
  have inside := List.mem_cons_of_mem p member
  obtain ⟨tab', y, scans'⟩ := planned.scans q inside
  obtain ⟨first', rest', _, found, _⟩ := scans'.rids_first (full _ (planned.listed inside))
  refine ⟨y, scans'.opens, SeqScanExecutor.starts scans'.inv found ?_⟩
  rw [scans'.opens.conds]
  refine List.eq_nil_iff_forall_not_mem.mpr fun d onScan => ?_
  obtain ⟨inConds, literal, _⟩ := planned.later q member d onScan
  rw [all] at inConds
  rw [List.mem_singleton.mp inConds, column] at literal
  cases literal

/-- A table without records ends the traversal before the first table is looked at, or it is the first one. -/
theorem chain_quiet (wf : s.sys.db.WF) (plain : ∀ e, e.Plain → allowed e)
    (resolved : ∀ c ∈ conds, ∃ e, Resolved s.sys.db tabs e c) {t : String} (listed : t ∈ tabs) (empty : ¬s.Holds t) :
    ∃ E, convertPlanExecutor s.sm (joinAll (p :: rest) []) = .ok E ∧ E.Barren allowed := by
  obtain ⟨tab, x, scans⟩ := planned.scans p List.mem_cons_self
  rw [joinAll_nil]
  refine chain_barren (convert_scan scans.opens) rfl (fun q member => ?_) ?_
  · have inside := List.mem_cons_of_mem p member
    obtain ⟨tab', y, scans'⟩ := planned.scans q inside
    have settled : (Plan.scan q).Settled allowed := planned.later_settled wf resolved member
    have grounded : (Plan.scan q).Grounded s.sm := ⟨y, scans'.opens⟩
    exact ⟨y, scans'.opens, convert_calm plain grounded settled (convert_scan scans'.opens)⟩
  · obtain ⟨q, member, same⟩ := planned.exists_scan listed
    rw [← same] at empty
    rcases List.mem_cons.mp member with rfl | later
    · exact Or.inl (scans.barren empty allowed)
    · obtain ⟨tab', y, scans'⟩ := planned.scans q member
      exact Or.inr ⟨q, later, y, scans'.opens, scans'.barren empty allowed⟩

/-- The traversal over a chain with at most one condition. -/
theorem chain_traverse (short : strerror.length ≤ 1024) (wf : s.sys.db.WF) {e : Ast.BinaryExpr} {c : Condition}
    (resolved : Resolved s.sys.db tabs e c) (all : conds = [c]) {x : ProjectionExecutor}
    (built : convertPlanExecutor s.sm (joinAll (p :: rest) []) = .ok x.prev) :
    (∀ fuel, Stops (Error.Fits strerror) (x.executor.traverse fuel x.executor.fresh)) ↔
      AllFit (s.pushedChecks tabs e) := by
  have plain : ∀ e : Error, e.Plain → e.Fits strerror := fun _ isPlain => isPlain.fits short
  have head : tabs.head? = some p.tabName := by
    rw [← planned.names]
    rfl
  have quiet (harmless) (fuel : Nat) :=
    (ProjectionExecutor.calm plain (convert_calm plain planned.chain_grounded
      (planned.chain_settled_one wf resolved all harmless) built)).traverse fuel x.executor.fresh
  unfold pushedChecks
  cases side : e.rhs with
  | val v =>
    refine iff_of_true (quiet (Or.inl fun column => ?_)) trivial
    rw [(resolved.literal v side).1] at column
    cases column
  | col r =>
    obtain ⟨column, rhs⟩ := resolved.column r side
    have lhs := resolved.lhs
    have fits : (Error.columnNotFound c.lhsCol.text).Fits strerror ↔
        25 + (e.lhs.inFull s.sys.db tabs).text.length + 2 ≤ BUFFER_LENGTH := by
      rw [lhs]
      exact Error.columnNotFound_fits _
    have left : c.lhsCol.tabName = e.lhs.owner s.sys.db tabs := by rw [lhs]; rfl
    have right : c.rhsCol.tabName = r.owner s.sys.db tabs := by rw [rhs]; rfl
    rw [allFit_one, Check.Fits, ← fits, ← left, ← right, head]
    simp only [ne_eq, Option.some.injEq]
    by_cases same : c.lhsCol.tabName = c.rhsCol.tabName
    · by_cases own : c.lhsCol.tabName = p.tabName
      · exact iff_of_true (quiet (Or.inl fun _ _ => own)) (Or.inl fun bad => bad.2.1 own)
      · by_cases long : (Error.columnNotFound c.lhsCol.text).Fits strerror
        · exact iff_of_true (quiet (Or.inr long)) (Or.inr long)
        · by_cases full : ∀ t ∈ tabs, s.Holds t
          · obtain ⟨E, built', bursts⟩ := planned.chain_loud wf resolved all column same own full
            have loud : x.prev.Bursts (.columnNotFound c.lhsCol.text) :=
              Except.ok.inj (built'.symm.trans built) ▸ bursts
            refine iff_of_false ((ProjectionExecutor.bursts loud).traverse long _) fun fit => ?_
            exact fit.elim (fun bad => bad ⟨same, own, full⟩) long
          · obtain ⟨t, listed, empty⟩ : ∃ t ∈ tabs, ¬s.Holds t := by simpa using full
            have each : ∀ d ∈ conds, ∃ e, Resolved s.sys.db tabs e d := by
              intro d inConds
              rw [all, List.mem_singleton] at inConds
              exact ⟨e, inConds ▸ resolved⟩
            obtain ⟨E, built', barren⟩ := planned.chain_quiet wf plain each listed empty
            have still : x.prev.Barren (Error.Fits strerror) := Except.ok.inj (built'.symm.trans built) ▸ barren
            exact iff_of_true (fun fuel => (ProjectionExecutor.barren still).traverse fuel _)
              (Or.inl fun bad => full bad.2.2)
    · exact iff_of_true (quiet (Or.inl fun _ equal => (same equal).elim)) (Or.inl fun bad => same bad.1)

section
variable {cols : List Ast.Col} {order : Option Ast.OrderBy}
  (small : (Ast.TreeNode.selectStmt cols tabs es order).room < BUFFER_LENGTH) (wf : s.sys.db.WF)
include small wf

/-- Beside a long name of another table there is no room for two conditions. -/
theorem few_of_far {e : Ast.BinaryExpr} (member : e ∈ es) {r : Ast.Col} (inside : r ∈ e.references)
    (resolves : r.Resolves s.sys.db tabs) (long : ¬r.Short s.sys.db tabs) (far : tabs ≠ [r.owner s.sys.db tabs]) :
    es.length ≤ 1 := by
  have listed := planned.listed (q := p) List.mem_cons_self
  have clause := Ast.whereRoom_le member
  have column := Ast.BinaryExpr.room_reference inside
  have table : ∀ t ∈ tabs, 2 ≤ Ast.nameRoom t := fun t _ => (Ast.nameRoom_pos t).1
  have tables : (r.inFull s.sys.db tabs).text.length + 3 ≤ r.room + (tabs.map Ast.nameRoom).sum := by
    by_cases bare : r.tabName = ""
    · have owner := (resolves_owner wf resolves).2.1 bare
      have letters := length_bare s.sys.db tabs bare
      have sum := Ast.size_le_sum table owner
      have two : 2 ≤ tabs.length := by
        by_contra one
        obtain ⟨t, rfl⟩ := List.length_eq_one_iff.mp (show tabs.length = 1 by
          have positive := List.length_pos_of_mem listed
          omega)
        exact far (by rw [List.mem_singleton.mp owner])
      omega
    · have letters := length_qualified s.sys.db tabs bare
      have sum := Ast.size_le_sum table listed
      have first := table _ listed
      omega
  rw [Ast.TreeNode.room] at small
  unfold Ast.Col.Short at long
  unfold BUFFER_LENGTH at small long
  omega

/-- Beside a long name of a table that is not listed in the select list there is room for one comparison of a bare
column with a literal. -/
theorem bare_of_stray (several : rest ≠ []) {c : Ast.Col} (member : c ∈ cols) (resolves : c.Resolves s.sys.db tabs)
    (stray : c.owner s.sys.db tabs ∉ tabs) (long : ¬c.Short s.sys.db tabs) {e : Ast.BinaryExpr} (inside : e ∈ es) :
    e.lhs.tabName = "" ∧ ∃ v, e.rhs = .val v := by
  have qualified : c.tabName ≠ "" := fun bare => stray ((resolves_owner wf resolves).2.1 bare)
  have letters := length_qualified s.sys.db tabs qualified
  have columns := Ast.size_le_sum (fun c _ => Ast.Col.room_pos c) member
  have listed := planned.listed (q := p) List.mem_cons_self
  have tables := Ast.size_le_sum (fun t _ => (Ast.nameRoom_pos t).1) listed
  have first := (Ast.nameRoom_pos p.tabName).1
  have two : 2 ≤ tabs.length := by
    have positive := List.length_pos_iff.mpr several
    rw [← planned.names, List.length_map, List.length_cons]
    omega
  have clause := Ast.whereRoom_le inside
  have positive := List.length_pos_of_mem inside
  have tiny : e.room ≤ 2 := by
    rw [Ast.TreeNode.room] at small
    unfold Ast.Col.Short at long
    unfold BUFFER_LENGTH at small long
    omega
  unfold Ast.BinaryExpr.room at tiny
  constructor
  · by_contra qualified
    have letters := Ast.Col.room_qualified qualified
    omega
  · cases side : e.rhs with
    | val v => exact ⟨v, rfl⟩
    | col r =>
      have letters := e.lhs.room_pos
      have letters' := r.room_pos
      rw [side, Ast.Expr.room] at tiny
      omega

end

end Planned

end ClientHandler

end Rmdb
