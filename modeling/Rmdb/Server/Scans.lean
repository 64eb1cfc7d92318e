import Rmdb.Server.Analysis

namespace Rmdb
open Analyze RmScan

/-! The scan of a table with one condition. -/

namespace SeqScanExecutor
variable {x : SeqScanExecutor} {c : Condition} {r : Option RmRecord} {allowed : Error → Prop}

theorem evalConds_error {e : Error} {rest : List Condition} (conds : x.fedConds = c :: rest)
    (fails : x.evalCond r c = .error e) : x.evalConds r = .error e := by
  rw [evalConds, conds, allOf, fails]
  rfl

theorem evalCond_missing (missing : ¬Has x.cols c.lhsCol) :
    x.evalCond r c = .error (.columnNotFound c.lhsCol.text) := by
  rw [evalCond, evalCondAt, getCol_missing missing]
  rfl

/-- The right column is looked up when the left one is found. -/
theorem evalCond_missing_right (found : Has x.cols c.lhsCol) (column : c.isRhsVal = false)
    (missing : ¬Has x.cols c.rhsCol) : x.evalCond r c = .error (.columnNotFound c.rhsCol.text) := by
  obtain ⟨col, left⟩ := getCol_has found
  rw [evalCond, evalCondAt, left, ok_bind]
  simp only [column, Bool.false_eq_true, if_false, getCol_missing missing]
  rfl

end SeqScanExecutor

namespace ClientHandler
variable {N : Nat} {s : ClientHandler N} {strerror : String} {p : ScanPlan} {x : SeqScanExecutor} {tab : TabMeta}

/-- A table has a record. -/
def Holds (s : ClientHandler N) (tabName : String) : Prop :=
  ∃ fh rid, s.files tabName = some fh ∧ (fh.records rid).isSome

/-- The columns of a condition when a scan of the table looks at it. -/
def scanChecks (s : ClientHandler N) (tabName : String) (e : Ast.BinaryExpr) : List Check :=
  let lhs := e.lhs.inFull s.sys.db [tabName]
  ⟨lhs.tabName = tabName ∨ ¬s.Holds tabName, 25 + lhs.text.length⟩ ::
    match e.rhs with
    | .val _ => []
    | .col c =>
      let rhs := c.inFull s.sys.db [tabName]
      [⟨rhs.tabName = tabName ∨ ¬s.Holds tabName, 25 + rhs.text.length⟩]

/-- The scan of a table of the catalog, as a plan and as an executor. -/
structure Scans (s : ClientHandler N) (p : ScanPlan) (tab : TabMeta) (x : SeqScanExecutor) : Prop where
  opens : p.Opens s.sm x
  table : s.sys.db.getTable p.tabName = .ok tab
  cols : x.cols = tab.cols
  inv : x.fh.FileInv
  size : x.fh.hdr.recordSize = totalLen tab.cols

theorem Valid.scans (valid : s.Valid) {conds : List Condition} {t : String}
    (run : Planner.scanPlan s.sys.db t conds = .ok p) :
    p.tabName = t ∧ p.conds = conds ∧ ∃ tab x, s.Scans p tab x := by
  obtain ⟨rfl, takes, tab, table, cols⟩ := Planner.scanPlan_ok run
  have stored := getTable_ok table
  have tag := Planner.scanPlan_tag table (valid.agrees.bare _ (mem_of_lookup stored)).2 run
  obtain ⟨fh, file, inv⟩ := valid.opened _ _ table
  obtain ⟨last, end_col⟩ : ∃ last, tab.cols.getLast? = some last :=
    ⟨_, List.getLast?_eq_some_getLast (valid.wf _ _ stored).2.2.1⟩
  have made : SeqScanExecutor.new s.sm p.tabName p.conds =
      .ok ⟨fh, tab.cols, sizeT (last.offset + last.len), p.conds⟩ := by
    have inMap : s.sm.fhs p.tabName = some fh := file
    rw [SeqScanExecutor.new, show s.sm.db.getTable p.tabName = .ok tab from table, ok_bind]
    simp only [inMap, end_col]
    rfl
  refine ⟨rfl, takes, tab, _, ⟨tag, made, cols.symm, rfl, file⟩, table, rfl, inv, ?_⟩
  exact (valid.agrees.sizes _ _ stored).2 _ (valid.handles _ _ file)

namespace Scans

theorem has_iff (scans : s.Scans p tab x) (wf : s.sys.db.WF) {target : TabCol} :
    Has x.cols target ↔ target.tabName = p.tabName ∧ ∃ col, tab.getCol target.colName = .ok col := by
  have named := (wf _ _ (getTable_ok scans.table)).2.2.2
  rw [scans.cols]
  constructor
  · rintro ⟨col, member, inTab, name⟩
    refine ⟨by rw [← inTab, named col member], ?_⟩
    unfold TabMeta.getCol
    split
    · exact ⟨_, rfl⟩
    · rename_i none
      exact (List.find?_eq_none.mp none col member (by simpa using name)).elim
  · rintro ⟨own, col, found⟩
    exact getCol_ok_iff.mp ⟨col, getCol_own wf scans.table own found⟩

/-- A resolved column is among those of the scan if it is of the table. -/
theorem has_inFull (scans : s.Scans p tab x) (wf : s.sys.db.WF) {tables : List String} {c : Ast.Col}
    (resolves : c.Resolves s.sys.db tables) :
    Has x.cols (c.inFull s.sys.db tables) ↔ c.owner s.sys.db tables = p.tabName := by
  rw [scans.has_iff wf]
  refine and_iff_left_of_imp fun own => ?_
  obtain ⟨tab', col, table, found⟩ := finds_of_resolves wf resolves
  have same : tab' = tab := by
    change c.owner s.sys.db tables = p.tabName at own
    rw [own, scans.table] at table
    exact (Except.ok.inj table).symm
  exact ⟨col, same ▸ found⟩

theorem rids_empty (scans : s.Scans p tab x) (empty : ¬s.Holds p.tabName) : rids x.fh = [] := by
  refine List.eq_nil_iff_forall_not_mem.mpr fun rid member => empty ⟨x.fh, rid, scans.opens.file, ?_⟩
  exact (mem_rids scans.inv.wellFormed).mp member

theorem rids_first (scans : s.Scans p tab x) (holds : s.Holds p.tabName) :
    ∃ first rest r, rids x.fh = first :: rest ∧ x.fh.records first = some r ∧ (r.length : Int) = totalLen tab.cols := by
  obtain ⟨fh, rid, file, live⟩ := holds
  have same : fh = x.fh := Option.some.inj (file.symm.trans scans.opens.file)
  rw [same] at live
  have member := (mem_rids scans.inv.wellFormed).mpr live
  obtain ⟨first, rest, all⟩ := List.exists_cons_of_ne_nil (List.ne_nil_of_mem member)
  have inside : first ∈ rids x.fh := by rw [all]; exact List.mem_cons_self
  obtain ⟨r, live⟩ := Option.isSome_iff_exists.mp ((mem_rids scans.inv.wellFormed).mp inside)
  refine ⟨first, rest, r, all, live, ?_⟩
  exact (scans.inv.record_length live).trans scans.size

theorem barren (scans : s.Scans p tab x) (empty : ¬s.Holds p.tabName) (allowed : Error → Prop) :
    x.executor.Barren allowed := SeqScanExecutor.barren scans.inv (scans.rids_empty empty)

theorem scanRids_eq (scans : s.Scans p tab x) (fuel : Nat) : Portal.scanRids s.sm (.scan p) fuel =
    x.executor.beginTuple fuel x.executor.fresh >>= Portal.collectRids x.executor fuel fuel := by
  simp only [Portal.scanRids, Plan.convert_scan scans.opens]

section
variable {allowed : Error → Prop} (plain : ∀ e, e.Plain → allowed e)
include plain

theorem quiet (scans : s.Scans p tab x) (mild : x.Mild allowed) (fuel : Nat) :
    Stops allowed (Portal.scanRids s.sm (.scan p) fuel) := by
  have calm := SeqScanExecutor.calm plain mild
  rw [scans.scanRids_eq]
  exact (calm.beginTuple _ _).bind fun _ _ => calm.collectRids (plain _ .undefined) _ _ _

theorem quiet_of_settles (scans : s.Scans p tab x) (settles : ∀ c ∈ p.conds, Settles allowed x.cols c) (fuel : Nat) :
    Stops allowed (Portal.scanRids s.sm (.scan p) fuel) :=
  scans.quiet plain (SeqScanExecutor.mild_of_settles (plain _ .undefined) (scans.opens.conds.symm ▸ settles)) fuel

omit plain in
theorem quiet_of_empty (scans : s.Scans p tab x) (empty : ¬s.Holds p.tabName) (fuel : Nat) :
    Stops allowed (Portal.scanRids s.sm (.scan p) fuel) := by
  rw [scans.scanRids_eq]
  exact (scans.barren empty allowed).collectRids _ _

end

/-- A condition that fails on every record stops the scan at the first one. -/
theorem bursts (scans : s.Scans p tab x) {c : Condition} {e : Error} {rest : List Condition}
    (conds : p.conds = c :: rest) (holds : s.Holds p.tabName)
    (fails : ∀ r : RmRecord, (r.length : Int) = totalLen tab.cols → x.evalCond (some r) c = .error e) :
    x.executor.Bursts e := by
  obtain ⟨first, rest, r, all, live, size⟩ := scans.rids_first holds
  refine SeqScanExecutor.bursts scans.inv all (SeqScanExecutor.evalConds_error (scans.opens.conds.trans conds) ?_)
  rw [live]
  exact fails r size

theorem loud (scans : s.Scans p tab x) {allowed : Error → Prop} {e : Error} (bursts : x.executor.Bursts e)
    (forbidden : ¬allowed e) : ¬∀ fuel, Stops allowed (Portal.scanRids s.sm (.scan p) fuel) := by
  intro stops
  obtain ⟨enough, bursts⟩ := bursts
  have ends := stops enough
  rw [scans.scanRids_eq, bursts _ le_rfl] at ends
  exact forbidden ends

/-- The checks over a table that has a record. -/
theorem scanChecks_iff {t : String} (holds : s.Holds t) (e : Ast.BinaryExpr) : AllFit (s.scanChecks t e) ↔
    (e.lhs.owner s.sys.db [t] = t ∨ 25 + (e.lhs.inFull s.sys.db [t]).text.length + 2 ≤ BUFFER_LENGTH) ∧
      (e.lhs.owner s.sys.db [t] = t → ∀ c, e.rhs = .col c →
        c.owner s.sys.db [t] = t ∨ 25 + (c.inFull s.sys.db [t]).text.length + 2 ≤ BUFFER_LENGTH) := by
  unfold scanChecks
  cases e.rhs with
  | val v => simp [Check.Fits, holds, Ast.Col.inFull, AllFit, UpTo]
  | col c => simp [Check.Fits, holds, Ast.Col.inFull, AllFit, UpTo]

/-- Which exception the scan ends with if it has a single condition. -/
theorem scanRids_iff (scans : s.Scans p tab x) (short : strerror.length ≤ 1024) (wf : s.sys.db.WF) {e : Ast.BinaryExpr}
    {c : Condition} (resolved : Resolved s.sys.db [p.tabName] e c) (conds : p.conds = [c]) :
    (∀ fuel, Stops (Error.Fits strerror) (Portal.scanRids s.sm (.scan p) fuel)) ↔
      AllFit (s.scanChecks p.tabName e) := by
  have plain : ∀ e : Error, e.Plain → e.Fits strerror := fun _ isPlain => isPlain.fits short
  by_cases holds : s.Holds p.tabName
  · rw [scanChecks_iff holds]
    have left : Has x.cols c.lhsCol ↔ e.lhs.owner s.sys.db [p.tabName] = p.tabName := by
      rw [resolved.lhs]
      exact scans.has_inFull wf (resolved.resolves _ e.lhs_mem)
    have fits : (Error.columnNotFound c.lhsCol.text).Fits strerror ↔
        25 + (e.lhs.inFull s.sys.db [p.tabName]).text.length + 2 ≤ BUFFER_LENGTH := by
      rw [resolved.lhs]
      exact Error.columnNotFound_fits _
    rw [← left, ← fits]
    have settled (settles : Settles (Error.Fits strerror) x.cols c) (fuel : Nat) :=
      scans.quiet_of_settles plain (by rw [conds]; exact List.forall_mem_singleton.mpr settles) fuel
    by_cases has : Has x.cols c.lhsCol
    · obtain ⟨own, col, inTab⟩ := (scans.has_iff wf).mp has
      have found : getCol x.cols c.lhsCol = .ok col := scans.cols.symm ▸ getCol_own wf scans.table own inTab
      have known : Knows (Error.Fits strerror) x.cols c.lhsCol := knows_iff.mpr (Or.inl has)
      cases side : e.rhs with
      | val v =>
        refine iff_of_true (settled ⟨known, fun _ column => ?_⟩) ⟨Or.inl has, fun _ _ other => by cases other⟩
        rw [(resolved.literal v side).1] at column
        cases column
      | col r =>
        obtain ⟨column, rhs⟩ := resolved.column r side
        have right : Has x.cols c.rhsCol ↔ r.owner s.sys.db [p.tabName] = p.tabName := by
          rw [rhs]
          exact scans.has_inFull wf (resolved.resolves _ (by simp [Ast.BinaryExpr.references, side]))
        have fits' : (Error.columnNotFound c.rhsCol.text).Fits strerror ↔
            25 + (r.inFull s.sys.db [p.tabName]).text.length + 2 ≤ BUFFER_LENGTH := by
          rw [rhs]
          exact Error.columnNotFound_fits _
        simp only [has, true_or, true_imp_iff, true_and, Ast.Expr.col.injEq, forall_eq', ← right, ← fits']
        by_cases known' : Knows (Error.Fits strerror) x.cols c.rhsCol
        · exact iff_of_true (settled ⟨known, fun _ _ => known'⟩) ((knows_iff.mp known'))
        · rw [knows_iff, not_or] at known'
          obtain ⟨missing, long⟩ := known'
          have fails := fun (r : RmRecord) (_ : (r.length : Int) = totalLen tab.cols) =>
            SeqScanExecutor.evalCond_missing_right (r := some r) has column missing
          exact iff_of_false (scans.loud (scans.bursts conds holds fails) long) (by simp [missing, long])
    · by_cases long : (Error.columnNotFound c.lhsCol.text).Fits strerror
      · refine iff_of_true (settled ⟨knows_iff.mpr (Or.inr long), fun found => ?_⟩) ⟨Or.inr long, fun found => ?_⟩
        · exact (has (getCol_ok_iff.mp found)).elim
        · exact (has found).elim
      · have fails := fun (r : RmRecord) (_ : (r.length : Int) = totalLen tab.cols) =>
          SeqScanExecutor.evalCond_missing (r := some r) has
        exact iff_of_false (scans.loud (scans.bursts conds holds fails) long) fun both => both.1.elim has long
  · refine iff_of_true (scans.quiet_of_empty holds) (AllFit.of_passes ?_)
    unfold scanChecks
    cases e.rhs with
    | val v => simp [holds]
    | col c => simp [holds]

/-- A statement with several conditions has no room for a long name that the table does not have. -/
theorem scanRids_decides (scans : s.Scans p tab x) (short : strerror.length ≤ 1024) (wf : s.sys.db.WF)
    {es : List Ast.BinaryExpr} (resolved : List.Forall₂ (Resolved s.sys.db [p.tabName]) es p.conds)
    (few : es.length ≤ 1 ∨ ∀ e ∈ es, ∀ r ∈ e.references,
      r.owner s.sys.db [p.tabName] = p.tabName ∨ r.Short s.sys.db [p.tabName]) :
    (∀ fuel, Stops (Error.Fits strerror) (Portal.scanRids s.sm (.scan p) fuel)) ↔
      AllFit (es.flatMap (s.scanChecks p.tabName)) := by
  have plain : ∀ e : Error, e.Plain → e.Fits strerror := fun _ isPlain => isPlain.fits short
  rcases few with single | near
  · generalize all : p.conds = conds at resolved
    cases resolved with
    | nil =>
      refine iff_of_true (scans.quiet_of_settles plain ?_) trivial
      rw [all]
      exact fun c member => by cases member
    | cons first rest =>
      cases rest with
      | nil =>
        rw [List.flatMap_cons, List.flatMap_nil, List.append_nil]
        exact scans.scanRids_iff short wf first all
      | cons => simp at single
  · have known : ∀ e ∈ es, ∀ r ∈ e.references, r.Resolves s.sys.db [p.tabName] →
        Knows (Error.Fits strerror) x.cols (r.inFull s.sys.db [p.tabName]) := by
      intro e member r inside resolves
      refine knows_iff.mpr ((near e member r inside).imp (scans.has_inFull wf resolves).mpr ?_)
      exact (Error.columnNotFound_fits _).mpr
    refine iff_of_true (scans.quiet_of_settles plain fun c onScan => ?_) (.of_forall fun k member => ?_)
    · obtain ⟨e, member, first⟩ := exists_of_forall₂ resolved onScan
      obtain ⟨⟨l, inLeft, resolves, lhs⟩, right⟩ := first.sides
      refine ⟨lhs ▸ known e member l inLeft resolves, fun _ column => ?_⟩
      obtain ⟨r, inRight, resolves, rhs⟩ := right column
      exact rhs ▸ known e member r inRight resolves
    · obtain ⟨e, member, inChecks⟩ := List.mem_flatMap.mp member
      have near := near e member
      unfold scanChecks at inChecks
      unfold Ast.BinaryExpr.references at near
      cases side : e.rhs with
      | val v =>
        rw [side] at inChecks near
        rw [List.mem_singleton.mp inChecks]
        exact (near _ List.mem_cons_self).imp Or.inl id
      | col r =>
        rw [side] at inChecks near
        rcases List.mem_pair.mp inChecks with rfl | rfl
        · exact (near _ List.mem_cons_self).imp Or.inl id
        · exact (near r (List.mem_cons_of_mem _ List.mem_cons_self)).imp Or.inl id

end Scans

end ClientHandler

end Rmdb
