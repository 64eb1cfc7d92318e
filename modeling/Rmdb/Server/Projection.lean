import Rmdb.Server.Select

namespace Rmdb
open Analyze Planner Plan Portal

namespace ClientHandler
variable {N : Nat} {s : ClientHandler N} {strerror : String} {tabs : List String} {conds : List Condition}
  {es : List Ast.BinaryExpr} {cols : List Ast.Col} {order : Option Ast.OrderBy} {plan : Plan} {out : List TabCol}
  {env : Env}

theorem runSelect_error {e : Error} (failed : convertPlanExecutor s.sm plan = .error e) :
    s.runSelect env (.projection plan out) = .error (.thrown e) := by
  simp only [runSelect, convertPlanExecutor, failed]

theorem resolved_of_mapM (wf : s.sys.db.WF) (run : cols.mapM (fun c => checkColumn s.sys.db (s.sys.db.colsOf tabs)
    ⟨c.tabName, c.colName⟩) = .ok out) :
    out = cols.map (Ast.Col.inFull s.sys.db tabs) ∧ ∀ c ∈ cols, c.Resolves s.sys.db tabs := by
  have each := mapM_ok run
  clear run
  induction each with
  | nil => exact ⟨rfl, fun _ none => by cases none⟩
  | cons first _ ih =>
    obtain ⟨resolves, same⟩ := resolves_of_ok wf first
    exact ⟨by rw [same, ih.1, List.map_cons], List.forall_mem_cons.mpr ⟨resolves, ih.2⟩⟩

/-- The projection looks up its columns, then the tuples are printed. -/
theorem runSelect_eq {E : Executor} {cols : List ColMeta} (built : convertPlanExecutor s.sm plan = .ok E)
    (hasCols : E.cols = some cols) : s.runSelect env (.projection plan out) = (do
      let selected ← (out.mapM (getCol cols) : Except Error (List ColMeta))
      let root := (⟨E, selected⟩ : ProjectionExecutor).executor
      let _ ← root.traverse env.fuel root.fresh
      return () : Except Stop Unit) := by
  simp only [runSelect, convertPlanExecutor, built, ProjectionExecutor.new, hasCols]
  cases out.mapM (getCol cols) <;> rfl

namespace Planned
variable {p : ScanPlan} {rest : List ScanPlan} (planned : s.Planned tabs conds p rest) (wf : s.sys.db.WF)
include planned wf

/-- The columns of the select list in a plan with all scans. -/
theorem projection_decides {kind : Condition → Prop} (made : plan.From (p :: rest) kind)
    (all : ∀ q ∈ p :: rest, q ∈ plan.scans) {recCols : List ColMeta}
    (has : ∀ target, Has recCols target ↔ plan.Has target) (found : ∀ t ∈ tabs, s.sys.db.isTable t = true)
    (run : selectCols s.sys.db tabs (cols.map fun c => ⟨c.tabName, c.colName⟩) = .ok out) :
    Decides strerror (cols.map (s.projectCheck tabs)) (out.mapM (getCol recCols)) := by
  rw [selectCols, getAllCols_eq found, ok_bind] at run
  cases cols with
  | nil =>
    cases run
    obtain ⟨m, looked⟩ : ∃ m, ((s.sys.db.colsOf tabs).map fun col => (⟨col.tabName, col.name⟩ : TabCol)).mapM
        (getCol recCols) = .ok m := by
      refine mapM_ok_iff.mpr fun target member => ?_
      obtain ⟨col, inCols, rfl⟩ := List.mem_map.mp member
      obtain ⟨listed, _, tab, table, inTab⟩ := mem_colsOf wf inCols
      obtain ⟨q, inScans, same⟩ := planned.exists_scan listed
      obtain ⟨tab', x, scans⟩ := planned.scans q inScans
      have own := scans.table
      rw [same, table] at own
      refine getCol_has ((has _).mpr ⟨q, all q inScans, col, ?_, rfl, rfl⟩)
      rw [← scans.opens.cols, scans.cols, ← Except.ok.inj own]
      exact inTab
    rw [looked]
    exact .pure m
  | cons c cols =>
    change ((c :: cols).map _).mapM (checkColumn s.sys.db (s.sys.db.colsOf tabs)) = .ok out at run
    rw [List.mapM_map] at run
    have names := resolved_of_mapM wf run
    rw [names.1, List.mapM_map, List.map_eq_flatMap]
    refine .mapM fun c' member => ?_
    have listed := planned.has_iff wf made all (names.2 c' member)
    refine .one (fun inTabs => getCol_has ((has _).mpr (listed.mpr inTabs))) fun stray => ?_
    exact ⟨_, getCol_missing fun found => stray (listed.mp ((has _).mp found)), Error.columnNotFound_fits _⟩

omit planned in
theorem resolved_of_selectCols (found : ∀ t ∈ tabs, s.sys.db.isTable t = true)
    (run : selectCols s.sys.db tabs (cols.map fun c => ⟨c.tabName, c.colName⟩) = .ok out) :
    ∀ c ∈ cols, c.Resolves s.sys.db tabs := by
  rw [selectCols, getAllCols_eq found, ok_bind] at run
  cases cols with
  | nil => exact fun _ none => by cases none
  | cons c cols =>
    change ((c :: cols).map _).mapM (checkColumn s.sys.db (s.sys.db.colsOf tabs)) = .ok out at run
    rw [List.mapM_map] at run
    exact (resolved_of_mapM wf run).2

section
variable (small : (Ast.TreeNode.selectStmt cols tabs es order).room < BUFFER_LENGTH)
  (resolved : List.Forall₂ (Resolved s.sys.db tabs) es conds)
include small resolved

/-- All names fit and can be looked up, or there is one condition at most. -/
theorem near_or_one : (∀ e ∈ es, ∀ r ∈ e.references, r.Short s.sys.db tabs ∨ tabs = [r.owner s.sys.db tabs]) ∨
    ∃ e c, es = [e] ∧ conds = [c] ∧ Resolved s.sys.db tabs e c := by
  refine or_iff_not_imp_right.mpr fun several e member r inside => ?_
  by_contra neither
  obtain ⟨long, far⟩ := not_or.mp neither
  obtain ⟨_, _, first⟩ := exists_of_forall₂ resolved.flip member
  have few := planned.few_of_far small wf member inside (first.resolves r inside) long far
  cases resolved with
  | nil => cases member
  | @cons _ _ _ _ first rest =>
    cases rest with
    | nil => exact several ⟨_, _, rfl, rfl, first⟩
    | cons => simp at few

omit planned wf small resolved in
/-- A name that fits, or a table that is the first one, gives no long message. -/
theorem pushed_near {e : Ast.BinaryExpr} (near : e.lhs.Short s.sys.db tabs ∨ tabs = [e.lhs.owner s.sys.db tabs]) :
    ∀ k ∈ s.pushedChecks tabs e, k.Fits := by
  unfold pushedChecks
  cases e.rhs with
  | val v => exact fun _ none => by cases none
  | col c =>
    refine List.forall_mem_singleton.mpr (near.symm.imp (fun only bad => bad.2.1 ?_) id)
    exact (congrArg List.head? only).symm

omit wf small resolved in
/-- A condition that no scan takes has columns of two tables. -/
theorem pushed_apart {e : Ast.BinaryExpr} {c : Condition} (resolved : Resolved s.sys.db tabs e c)
    (left : c ∈ leftOver tabs conds) : ∀ k ∈ s.pushedChecks tabs e, k.Fits := by
  have first := unpopped left (planned.listed List.mem_cons_self)
  simp only [Pops, Bool.or_eq_false_iff, decide_eq_false_iff_not] at first
  unfold pushedChecks
  cases side : e.rhs with
  | val v => exact fun _ none => by cases none
  | col r =>
    refine List.forall_mem_singleton.mpr (Or.inl fun bad => first.2 ?_)
    rw [resolved.lhs, (resolved.column r side).2]
    exact bad.1

/-- With conditions on the joins the conditions of the scans do no harm. -/
theorem pushed_joined (joins : between rest tabs conds ≠ []) : ∀ k ∈ es.flatMap (s.pushedChecks tabs), k.Fits := by
  intro k member
  obtain ⟨e, inside, here⟩ := List.mem_flatMap.mp member
  rcases planned.near_or_one wf small resolved with near | ⟨_, c, rfl, rfl, first⟩
  · exact pushed_near (near e inside e.lhs e.lhs_mem) k here
  · cases List.mem_singleton.mp inside
    refine planned.pushed_apart first ?_ k here
    rw [(between_one joins).2]
    exact List.mem_cons_self

/-- The traversal of a tree that becomes an executor. -/
theorem traverse_decides (short : strerror.length ≤ 1024) {x : ProjectionExecutor}
    (built : convertPlanExecutor s.sm (joinAll (p :: rest) (between rest tabs conds)) = .ok x.prev) :
    (∀ fuel, Stops (Error.Fits strerror) (x.executor.traverse fuel x.executor.fresh)) ↔
      AllFit (es.flatMap (s.pushedChecks tabs)) := by
  have plain : ∀ e : Error, e.Plain → e.Fits strerror := fun _ isPlain => isPlain.fits short
  have quiet (settled : (joinAll (p :: rest) (between rest tabs conds)).Settled (Error.Fits strerror)) (fuel : Nat) :=
    (ProjectionExecutor.calm plain (convert_calm plain planned.grounded settled built)).traverse fuel x.executor.fresh
  rcases planned.near_or_one wf small resolved with near | ⟨e, c, rfl, rfl, first⟩
  · refine iff_of_true (quiet (planned.settled_near wf resolved near)) (.of_forall fun k member => ?_)
    obtain ⟨e, inside, here⟩ := List.mem_flatMap.mp member
    exact pushed_near (near e inside e.lhs e.lhs_mem) k here
  · by_cases chained : between rest tabs [c] = []
    · rw [chained] at built
      rw [List.flatMap_singleton]
      exact planned.chain_traverse short wf first rfl built
    · refine iff_of_true (quiet ?_) (.of_forall (planned.pushed_joined wf small resolved chained))
      obtain ⟨same, left⟩ := between_one chained
      rw [same] at built ⊢
      have grounded := planned.grounded
      rw [same] at grounded
      exact planned.settled_joined wf first rfl left (convert_whole grounded built)

/-- With conditions on the joins no long name in the select list is of another table. -/
theorem stray_joined (joins : between rest tabs conds ≠ []) (named : ∀ c ∈ cols, c.Resolves s.sys.db tabs) :
    ∀ k ∈ cols.map (s.projectCheck tabs), k.Fits := by
  refine List.forall_mem_map.mpr fun c member => ?_
  by_contra bad
  obtain ⟨stray, long⟩ := not_or.mp bad
  obtain ⟨d, between⟩ := List.exists_mem_of_ne_nil _ joins
  obtain ⟨several, left⟩ := mem_between between
  obtain ⟨e, inside, first⟩ := exists_of_forall₂ resolved (between_sub between)
  obtain ⟨bare, v, side⟩ := planned.bare_of_stray small wf several member (named c member) stray long inside
  have listed := (resolves_owner wf (first.resolves _ e.lhs_mem)).2.1 bare
  have taken := unpopped left listed
  simp [Pops, first.lhs, (first.literal v side).1, Ast.Col.inFull] at taken

end

end Planned

/-- Without conditions on the joins there is no null plan. -/
theorem chain_whole (p : ScanPlan) (rest : List ScanPlan) : (joinAll (p :: rest) []).Whole := by
  rw [joinAll_nil]
  exact chain_induct trivial fun _ _ _ whole => ⟨trivial, whole⟩

/-- An executor of a sort is a null pointer, which the projection asks for its columns. -/
theorem runSelect_sorted {sel : TabCol} {desc : Bool} (grounded : plan.Grounded s.sm) :
    s.runSelect env (.projection (.sort plan sel desc) out) = .error (.thrown .undefined) := by
  have stub : convertPlanExecutor s.sm (.projection (.sort plan sel desc) out) = .error .undefined := by
    cases built : convertPlanExecutor s.sm plan with
    | error e =>
      simp only [convertPlanExecutor, built]
      rw [convert_fails grounded built]
    | ok E =>
      simp only [convertPlanExecutor, built]
      rfl
  rw [runSelect, stub]

theorem select_decides (short : strerror.length ≤ 1024) (valid : s.Valid) (nonempty : tabs ≠ [])
    (small : (Ast.TreeNode.selectStmt cols tabs es order).room < BUFFER_LENGTH) {query : Query}
    (analyzed : doAnalyze s.sys.db (.selectStmt cols tabs es order) = .ok query) :
    (∀ env, Stops (Error.Fits strerror) (s.execute env query (.selectStmt cols tabs es order))) ↔
      AllFit (s.selectChecks cols tabs es order) := by
  have undefined : Error.undefined.Fits strerror := Error.Plain.undefined.fits short
  have wf := valid.wf
  obtain ⟨_, checked, rest⟩ := bind_eq_ok_iff.mp analyzed
  obtain ⟨out, select, rest⟩ := bind_eq_ok_iff.mp rest
  obtain ⟨conds, clause, rest⟩ := bind_eq_ok_iff.mp rest
  cases rest
  have found : ∀ t ∈ tabs, s.sys.db.isTable t = true := fun t member =>
    isTable_of_stored (checkTables_found checked t member)
  have resolved := checkClause_resolved wf found clause
  have named := Planned.resolved_of_selectCols wf found select
  obtain ⟨p, rest, planned⟩ := valid.planned nonempty found conds
  have grounded := planned.grounded
  cases order with
  | some order =>
    refine iff_of_true (fun env => ?_) trivial
    have made : ∃ sel desc, generateSelectPlan s.sys.db ⟨conds, out, tabs, [], []⟩ (some order) =
        .ok (.projection (.sort (joinAll (p :: rest) (between rest tabs conds)) sel desc) out) := by
      simp only [generateSelectPlan, generateSortPlan, planned.built, getAllCols_eq found, ok_bind]
      exact ⟨_, _, rfl⟩
    obtain ⟨sel, desc, made⟩ := made
    change Stops _ ((liftM (generateSelectPlan _ _ _) : Except Stop Plan) >>= _)
    rw [made]
    change Stops _ (s.runSelect env _)
    rw [runSelect_sorted grounded]
    exact undefined
  | none =>
    have made : generateSelectPlan s.sys.db ⟨conds, out, tabs, [], []⟩ none =
        .ok (.projection (joinAll (p :: rest) (between rest tabs conds)) out) := by
      simp only [generateSelectPlan, generateSortPlan, planned.built, ok_bind]
      rfl
    have run (env : Env) : s.execute env ⟨conds, out, tabs, [], []⟩ (.selectStmt cols tabs es none) =
        s.runSelect env (.projection (joinAll (p :: rest) (between rest tabs conds)) out) := by
      change ((liftM (generateSelectPlan _ _ _) : Except Stop Plan) >>= _) = _
      rw [made]
      rfl
    simp only [run]
    cases built : convertPlanExecutor s.sm (joinAll (p :: rest) (between rest tabs conds)) with
    | error e =>
      have joins : between rest tabs conds ≠ [] := fun chained => by
        rw [chained] at grounded built
        obtain ⟨E, other⟩ := convert_of_whole grounded (chain_whole p rest)
        rw [built] at other
        cases other
      refine iff_of_true (fun env => ?_) (.of_forall (List.forall_mem_append.mpr ⟨?_, ?_⟩))
      · rw [runSelect_error built, convert_fails grounded built]
        exact undefined
      · exact planned.stray_joined wf small resolved joins named
      · exact planned.pushed_joined wf small resolved joins
    | ok E =>
      have whole := convert_whole grounded built
      obtain ⟨recCols, hasCols, has⟩ := convert_cols grounded built
      have everything : (joinAll (p :: rest) (between rest tabs conds)).From (p :: rest) fun _ => True :=
        joinAll_from (fun _ _ => trivial) fun _ _ => trivial
      have projection : Decides strerror (cols.map (s.projectCheck tabs)) (out.mapM (getCol recCols)) :=
        planned.projection_decides wf everything (joinAll_all whole) has found select
      simp only [runSelect_eq built hasCols]
      refine projection.stops_iff ⟨default⟩ fun selected _ => ?_
      have traversed := planned.traverse_decides wf small resolved short (x := ⟨E, selected⟩) built
      rw [← traversed]
      constructor
      · exact fun stops fuel => Ends.first (stops { (default : Env) with fuel := fuel })
      · exact fun stops env => (stops env.fuel).bind fun _ _ => trivial

end ClientHandler

end Rmdb
