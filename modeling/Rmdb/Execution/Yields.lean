import Rmdb.Execution.Answer

namespace Rmdb
open Rmdb.Tuple Planner Plan Analyze InsertExecutor

/-! The executors of a plan yield its output. -/

/-- The records of a table, in the order of the scan. -/
def SmManager.rows (sm : SmManager) (tabName : String) : List RmRecord :=
  match sm.fhs tabName with
  | some fh => (RmScan.rids fh).filterMap fh.records
  | none => []

/-- The scan of a plan, over a table with a sound layout whose file is in order. -/
structure ScanPlan.Stored (sm : SmManager) (p : ScanPlan) (tab : TabMeta) (x : SeqScanExecutor) : Prop where
  opens : p.Opens sm x
  table : sm.db.getTable p.tabName = .ok tab
  cols : x.cols = tab.cols
  inv : x.fh.FileInv
  size : x.fh.hdr.recordSize = totalLen tab.cols
  laid : tab.LaidOut p.tabName
  wide : tab.Wide

/-- The bytes of the columns of all its scans. -/
def Plan.width (plan : Plan) : Int := (plan.scans.map fun p => totalLen p.cols).sum

/-- A condition that `check_clause` accepts, on columns of one width. -/
structure DbMeta.Checked (db : DbMeta) (c : Condition) : Prop where
  typed : Typed db c
  width : db.SameWidth c

theorem allOf_ok {test : Condition → Except Error Bool} {holds : Condition → Bool} {conds : List Condition}
    (each : ∀ c ∈ conds, test c = .ok (holds c)) : allOf test conds = .ok (conds.all holds) := by
  induction conds with
  | nil => rfl
  | cons c conds ih =>
    obtain ⟨here, each⟩ := List.forall_mem_cons.mp each
    rw [allOf, here, ok_bind, ih each, List.all_cons]
    cases holds c <;> rfl

section
variable {sm : SmManager} {db : DbMeta} {tables : List String} {t : Tuple String RmRecord}

theorem test_holds (sound : db.Sound tables) (full : db.Full tables t) {c : Condition} (covers : Covers tables c)
    (checked : db.Checked c) : db.test t c = .ok (db.holds c t) := by
  obtain ⟨b, value⟩ := test_returns sound full covers checked.typed checked.width
  rw [value, DbMeta.holds, value]
  cases b <;> rfl

theorem holds_local : Local db.holds := by
  intro tables c s u covers same
  have equal : db.test s c = db.test u c := by
    unfold DbMeta.test
    rw [same _ covers.1]
    cases kind : c.isRhsVal with
    | true => rfl
    | false => rw [same _ (covers.2 kind)]
  unfold DbMeta.holds
  rw [equal]

namespace ScanPlan.Stored
variable {p : ScanPlan} {tab : TabMeta} {x : SeqScanExecutor} (stored : p.Stored sm tab x)
include stored

theorem rows : sm.rows p.tabName = (RmScan.rids x.fh).filterMap x.fh.records := by
  rw [SmManager.rows, stored.opens.file]

theorem length {r : RmRecord} (member : r ∈ sm.rows p.tabName) : (r.length : Int) = totalLen tab.cols := by
  rw [stored.rows] at member
  obtain ⟨rid, _, live⟩ := List.mem_filterMap.mp member
  exact (stored.inv.record_length live).trans stored.size

theorem full {r : RmRecord} (member : r ∈ sm.rows p.tabName) : sm.db.Full [p.tabName] (single p.tabName r) := by
  intro k only
  rw [List.mem_singleton.mp only]
  exact ⟨tab, r, stored.table, Function.update_self .., stored.length member⟩

theorem sound : sm.db.Sound [p.tabName] := by
  intro k only
  rw [List.mem_singleton.mp only]
  exact ⟨tab, stored.table, stored.laid, stored.wide⟩

/-- The conditions of the scan on one of its records. -/
theorem evalConds (own : ∀ c ∈ p.conds, Covers [p.tabName] c) (checked : ∀ c ∈ p.conds, sm.db.Checked c) {r : RmRecord}
    (member : r ∈ sm.rows p.tabName) :
    x.evalConds (some r) = .ok (p.conds.all (sm.db.holds · (single p.tabName r))) := by
  rw [SeqScanExecutor.evalConds, stored.opens.conds]
  refine allOf_ok fun c onScan => ?_
  have carries := Carries.scan stored.table stored.laid
  have tuple : flat [p.tabName] (single p.tabName r) = r := by simp [flat, single]
  have value := carries.evaluates stored.sound (stored.full member) (own c onScan) (checked c onScan).typed
    (checked c onScan).width
  rw [tuple, ← stored.cols] at value
  exact value.trans (test_holds stored.sound (stored.full member) (own c onScan) (checked c onScan))

theorem layout (small : totalLen tab.cols ≤ intMax) : ExecutorTree.Layout x.executor tab.cols := by
  obtain ⟨tab', table', same, last, atEnd, len⟩ := ExecutorTree.seqScan_new stored.opens.made
  cases stored.table.symm.trans table'
  have tiles := stored.laid.tiles
  refine ⟨congrArg some same, tiles, ?_, small⟩
  change totalLen tab.cols = x.len
  rw [len, end_of_last tiles atEnd, Int.zero_add,
    ProjectionExecutor.sizeT_of_nonneg (totalLen_nonneg (len_nonneg tiles)) small]

/-- The rows that the scan keeps. -/
theorem rows_output (own : ∀ c ∈ p.conds, Covers [p.tabName] c) (checked : ∀ c ∈ p.conds, sm.db.Checked c) :
    x.rows (RmScan.rids x.fh) =
      ((Plan.scan p).output sm.rows sm.db.holds).map (flat [p.tabName]) := by
  have all := stored.rows
  have each := fun r (member : r ∈ sm.rows p.tabName) => stored.evalConds own checked member
  rw [Plan.output, List.filter_map, List.map_map]
  rw [all] at each ⊢
  unfold SeqScanExecutor.rows
  have live : ∀ rid ∈ RmScan.rids x.fh, (x.fh.records rid).isSome :=
    fun rid member => (RmScan.mem_rids stored.inv.wellFormed).mp member
  generalize RmScan.rids x.fh = later at each live ⊢
  induction later with
  | nil => rfl
  | cons rid later ih =>
    obtain ⟨here, live⟩ := List.forall_mem_cons.mp live
    obtain ⟨r, found⟩ := Option.isSome_iff_exists.mp here
    rw [List.filterMap_cons_some found] at each ⊢
    obtain ⟨value, each⟩ := List.forall_mem_cons.mp each
    have kept : x.keeps rid = p.conds.all (sm.db.holds · (single p.tabName r)) := by
      rw [SeqScanExecutor.keeps, found, value]
      cases p.conds.all (sm.db.holds · (single p.tabName r)) <;> rfl
    rw [List.filter_cons, kept, List.filter_cons]
    change _ = List.map _ (if p.conds.all (sm.db.holds · (single p.tabName r)) = true then _ else _)
    split
    · rw [List.filterMap_cons_some found, List.map_cons, ih each live]
      simp [flat, single]
    · exact ih each live

end ScanPlan.Stored

open NestedLoopJoinExecutor in
/-- The pairs of a join in terms of the rows of its children. -/
theorem pairs_map {α β : Type} (f : α → RmRecord) (g : β → RmRecord) (once : Bool) (lefts : List α)
    (rights : List β) : pairs (if once then [] else rights.map g) (lefts.map f) (rights.map g) =
      ((if once then lefts.take 1 else lefts) ×ˢ rights).map fun p => (f p.1, g p.2) := by
  have product : ∀ l : List α, (l.map f) ×ˢ (rights.map g) = (l ×ˢ rights).map fun p => (f p.1, g p.2) := by
    intro l
    induction l with
    | nil => rfl
    | cons a l ih => simp [List.product_cons, ih]
  cases once with
  | false => exact (pairs_again _ _).trans (product lefts)
  | true =>
    cases lefts with
    | nil => rfl
    | cons a lefts =>
      have first := product [a]
      simp only [List.map_cons, List.map_nil, List.product_cons, List.nil_product, List.append_nil] at first
      simp only [if_true, List.map_cons, pairs, List.product_nil, List.append_nil, List.take_succ_cons, List.take_zero,
        List.product_cons, List.nil_product]
      exact first

/-- A row of the output has a whole record of every table of the plan. -/
theorem full_of_output {plan : Plan} (stored : ∀ p ∈ plan.scans, ∃ tab x, p.Stored sm tab x)
    (member : t ∈ plan.output sm.rows sm.db.holds) : sm.db.Full plan.tables t := by
  obtain ⟨support, own⟩ := mem_output member
  intro k listed
  obtain ⟨r, found⟩ := Option.isSome_iff_exists.mp ((support k).mpr listed)
  obtain ⟨p, scan, rfl⟩ := List.mem_map.mp listed
  obtain ⟨tab, x, here⟩ := stored p scan
  exact ⟨tab, r, here.table, found, here.length (own _ r found)⟩

theorem sound_of_stored {plan : Plan} (stored : ∀ p ∈ plan.scans, ∃ tab x, p.Stored sm tab x) :
    sm.db.Sound plan.tables := by
  intro k listed
  obtain ⟨p, scan, rfl⟩ := List.mem_map.mp listed
  obtain ⟨tab, x, here⟩ := stored p scan
  exact ⟨tab, here.table, here.laid, here.wide⟩

/-- What the executor of a plan is: its columns, and the rows it yields on its passes. -/
structure Yields (sm : SmManager) (plan : Plan) (E : Executor) (cols : List ColMeta) : Prop where
  layout : ExecutorTree.Layout E cols
  carries : Carries sm.db plan.tables cols
  width : totalLen cols = plan.width
  wide : ∀ col ∈ cols, compareLen col.type col.len ≤ col.len
  passes : Nonempty (Passes E ((plan.output sm.rows sm.db.holds).map (flat plan.tables))
    (if plan.hasJoin then [] else (plan.output sm.rows sm.db.holds).map (flat plan.tables)))

theorem Yields.scan {p : ScanPlan} {tab : TabMeta} {x : SeqScanExecutor} (stored : p.Stored sm tab x)
    (own : ∀ c ∈ p.conds, Covers [p.tabName] c) (checked : ∀ c ∈ p.conds, sm.db.Checked c)
    (small : totalLen tab.cols ≤ intMax) : Yields sm (.scan p) x.executor tab.cols where
  layout := stored.layout small
  carries := Carries.scan stored.table stored.laid
  width := by
    have same := stored.opens.cols.symm.trans stored.cols
    simp [Plan.width, scans, same]
  wide := by
    intro col member
    unfold compareLen
    cases type : col.type with
    | string => exact le_rfl
    | int => exact stored.wide col member (by simp [type])
    | float => exact stored.wide col member (by simp [type])
  passes := by
    have returns : ∀ rid ∈ RmScan.rids x.fh, ∃ b, x.evalConds (x.fh.records rid) = .ok b := by
      intro rid member
      obtain ⟨r, live⟩ := Option.isSome_iff_exists.mp ((RmScan.mem_rids stored.inv.wellFormed).mp member)
      have inRows : r ∈ sm.rows p.tabName := by
        rw [stored.rows]
        exact List.mem_filterMap.mpr ⟨rid, member, live⟩
      exact ⟨_, live ▸ stored.evalConds own checked inRows⟩
    have sized : ∀ rid r, x.fh.records rid = some r → r.length = x.len := by
      intro rid r live
      have inRows : r ∈ sm.rows p.tabName := by
        rw [stored.rows]
        exact List.mem_filterMap.mpr
          ⟨rid, (RmScan.mem_rids stored.inv.wellFormed).mpr (by rw [live]; rfl), live⟩
      have length := stored.length inRows
      have whole : totalLen tab.cols = x.len := (stored.layout small).size
      omega
    have same := stored.rows_output own checked
    exact ⟨same ▸ (SeqScanExecutor.iterates stored.inv returns sized).passes⟩

/-- A row of a join in terms of those of its children. -/
structure Joins (sm : SmManager) (left right : Plan) (s u : Tuple String RmRecord) : Prop where
  fullLeft : sm.db.Full left.tables s
  fullRight : sm.db.Full right.tables u
  both : sm.db.Full (left.tables ++ right.tables) (merge s u)
  bytes : flat left.tables s ++ flat right.tables u = flat (left.tables ++ right.tables) (merge s u)

theorem joins_of_output {left right : Plan} (storedLeft : ∀ p ∈ left.scans, ∃ tab x, p.Stored sm tab x)
    (storedRight : ∀ p ∈ right.scans, ∃ tab x, p.Stored sm tab x) (nodup : (left.tables ++ right.tables).Nodup)
    {s u : Tuple String RmRecord} (inLeft : s ∈ left.output sm.rows sm.db.holds)
    (inRight : u ∈ right.output sm.rows sm.db.holds) : Joins sm left right s u := by
  have full := full_of_output storedLeft inLeft
  have full' := full_of_output storedRight inRight
  obtain ⟨_, _, apart⟩ := List.nodup_append.mp nodup
  have onLeft : ∀ k ∈ left.tables, s k = merge s u k := by
    intro k listed
    obtain ⟨_, r, _, found, _⟩ := full k listed
    rw [merge, found, Option.some_or]
  have onRight : ∀ k ∈ right.tables, u k = merge s u k := by
    intro k listed
    have missing : s k = none := by
      rw [← Option.not_isSome_iff_eq_none, (mem_output inLeft).1]
      exact fun inBoth => apart k inBoth k listed rfl
    rw [merge, missing, Option.none_or]
  refine ⟨full, full', fun k listed => ?_, ?_⟩
  · rcases List.mem_append.mp listed with here | here
    · exact full.congr onLeft k here
    · exact full'.congr onRight k here
  · rw [flat_append, flat_congr onLeft, flat_congr onRight]

theorem fedConds_of_new {x : NestedLoopJoinExecutor} {left right : Executor} {conds : List Condition}
    (made : NestedLoopJoinExecutor.new left right conds = .ok x) : x.fedConds = conds := by
  unfold NestedLoopJoinExecutor.new at made
  split at made
  · cases made
    rfl
  · cases made

/-- The conditions of a join on a pair of rows. -/
theorem join_evalConds {left right : Plan} {conds : List Condition} {x : NestedLoopJoinExecutor}
    {leftCols rightCols : List ColMeta} (L : Yields sm left x.left leftCols)
    (same : x.cols = leftCols ++ shifted x.left.tupleLen rightCols) (whole : ExecutorTree.Layout x.executor x.cols)
    (wide : ∀ col ∈ x.cols, compareLen col.type col.len ≤ col.len)
    (carries : Carries sm.db (left.tables ++ right.tables) x.cols) (sound : sm.db.Sound (left.tables ++ right.tables))
    (covers : ∀ c ∈ conds, Covers (left.tables ++ right.tables) c) (checked : ∀ c ∈ conds, sm.db.Checked c)
    (fed : x.fedConds = conds) {s u : Tuple String RmRecord} (joins : Joins sm left right s u) :
    x.evalConds (some (flat left.tables s)) (some (flat right.tables u)) =
      .ok (conds.all (sm.db.holds · (merge s u))) := by
  have length : (flat left.tables s).length = x.left.tupleLen := by
    have size := L.carries.size s joins.fullLeft
    rw [L.layout.size] at size
    omega
  rw [NestedLoopJoinExecutor.evalConds, fed]
  refine allOf_ok fun c member => ?_
  obtain ⟨typed, width⟩ := checked c member
  have notShorter : c.NotShorter x.cols := by
    intro kind l r here here'
    obtain ⟨tab, lhs, table, inTab, _, column⟩ := typed
    obtain ⟨tab', rhs, table', inTab', _⟩ := column kind
    have left := column_ok_iff.mpr ⟨tab, table, inTab⟩
    have right := column_ok_iff.mpr ⟨tab', table', inTab'⟩
    obtain ⟨l', found, _, len, _⟩ := carries.finds _ _ (covers c member).1 left
    obtain ⟨r', found', _, len', _⟩ := carries.finds _ _ ((covers c member).2 kind) right
    cases here.symm.trans found
    cases here'.symm.trans found'
    rw [len, len', width kind lhs rhs left right]
  have appended : x.evalCond (some (flat left.tables s)) (some (flat right.tables u)) c =
      evalCondAt x.cols (fun col n => dataAt (some (flat left.tables s ++ flat right.tables u)) col.offset n) c :=
    evalCondAt_congr notShorter wide fun col inCols n narrow =>
      ExecutorTree.bytes_appended L.layout same whole length inCols narrow
  rw [appended, joins.bytes, carries.evaluates sound joins.both (covers c member) typed width]
  exact test_holds sound joins.both (covers c member) (checked c member)

/-- Whether a join yields a pair. -/
def NestedLoopJoinExecutor.accepts (x : NestedLoopJoinExecutor) (p : NestedLoopJoinExecutor.Pair) : Bool :=
  x.evalConds (some p.1) (some p.2) = .ok true

theorem accepts_of_value {x : NestedLoopJoinExecutor} {a b : RmRecord} {holds : Bool}
    (value : x.evalConds (some a) (some b) = .ok holds) : x.accepts (a, b) = holds := by
  rw [NestedLoopJoinExecutor.accepts, value]
  cases holds <;> rfl

theorem join_output {left right : Plan} {conds : List Condition} {x : NestedLoopJoinExecutor}
    (value : ∀ s ∈ left.output sm.rows sm.db.holds, ∀ u ∈ right.output sm.rows sm.db.holds,
      x.evalConds (some (flat left.tables s)) (some (flat right.tables u)) =
        .ok (conds.all (sm.db.holds · (merge s u))))
    (bytes : ∀ s ∈ left.output sm.rows sm.db.holds, ∀ u ∈ right.output sm.rows sm.db.holds,
      flat left.tables s ++ flat right.tables u = flat (left.tables ++ right.tables) (merge s u)) :
    NestedLoopJoinExecutor.joined x.accepts (NestedLoopJoinExecutor.pairs
      (if right.hasJoin then [] else (right.output sm.rows sm.db.holds).map (flat right.tables))
      ((left.output sm.rows sm.db.holds).map (flat left.tables))
      ((right.output sm.rows sm.db.holds).map (flat right.tables))) =
        ((Plan.join left right conds).output sm.rows sm.db.holds).map (flat (left.tables ++ right.tables)) := by
  have members : ∀ p ∈ (if right.hasJoin then (left.output sm.rows sm.db.holds).take 1 else
      left.output sm.rows sm.db.holds) ×ˢ right.output sm.rows sm.db.holds,
      p.1 ∈ left.output sm.rows sm.db.holds ∧ p.2 ∈ right.output sm.rows sm.db.holds := by
    intro p member
    obtain ⟨inLeft, inRight⟩ := List.mem_product.mp member
    refine ⟨?_, inRight⟩
    split at inLeft
    · exact List.mem_of_mem_take inLeft
    · exact inLeft
  rw [pairs_map, NestedLoopJoinExecutor.joined, Plan.output, List.filter_map, List.filter_map, List.map_map,
    List.map_map]
  have kept : ∀ p ∈ (if right.hasJoin then (left.output sm.rows sm.db.holds).take 1 else
      left.output sm.rows sm.db.holds) ×ˢ right.output sm.rows sm.db.holds,
      x.accepts (flat left.tables p.1, flat right.tables p.2) = conds.all (sm.db.holds · (merge p.1 p.2)) :=
    fun p member => accepts_of_value (value p.1 (members p member).1 p.2 (members p member).2)
  refine (congrArg _ (List.filter_congr kept)).trans (List.map_congr_left fun p member => ?_)
  obtain ⟨inLeft, inRight⟩ := members p (List.mem_filter.mp member).1
  exact bytes p.1 inLeft p.2 inRight

/-- The rows of a join are those pairs of rows of its children that match, the left child being cut to its first row if
the right one is a join. -/
theorem Yields.join {left right : Plan} {conds : List Condition} {x : NestedLoopJoinExecutor}
    {leftCols rightCols : List ColMeta} (stored : ∀ p ∈ (Plan.join left right conds).scans, ∃ tab x, p.Stored sm tab x)
    (L : Yields sm left x.left leftCols) (R : Yields sm right x.right rightCols)
    (placed : (Plan.join left right conds).Placed) (nodup : (Plan.join left right conds).tables.Nodup)
    (checked : ∀ c ∈ conds, sm.db.Checked c) (small : (Plan.join left right conds).width ≤ intMax)
    (made : NestedLoopJoinExecutor.new x.left x.right conds = .ok x) :
    Yields sm (.join left right conds) x.executor x.cols := by
  have width : (Plan.join left right conds).width = left.width + right.width := by
    simp [Plan.width, scans]
  have sum : totalLen x.cols = left.width + right.width := by
    obtain ⟨leftCols', rightCols', left', right', cols, _⟩ := ExecutorTree.nestedLoopJoin_new made
    cases L.layout.columns.symm.trans left'
    cases R.layout.columns.symm.trans right'
    rw [cols, totalLen_append, totalLen_shifted, L.width, R.width]
  have small' : totalLen x.cols ≤ intMax := by omega
  obtain ⟨same, len, whole⟩ := ExecutorTree.nestedLoopJoin_layout made L.layout R.layout small'
  have carries : Carries sm.db (Plan.join left right conds).tables x.cols := by
    rw [tables_join, same]
    refine L.carries.join R.carries L.layout.tiles R.layout.tiles L.layout.size ?_
    rw [← L.layout.size, L.width, R.width]
    omega
  have wide : ∀ col ∈ x.cols, compareLen col.type col.len ≤ col.len := by
    rw [same]
    intro col member
    rcases List.mem_append.mp member with inLeft | inRight
    · exact L.wide col inLeft
    · obtain ⟨col, own, rfl⟩ := List.mem_map.mp inRight
      exact R.wide col own
  refine ⟨whole, carries, by rw [sum, width], wide, ?_⟩
  have storedLeft : ∀ p ∈ left.scans, ∃ tab x, p.Stored sm tab x :=
    fun p member => stored p (List.mem_append_left _ member)
  have storedRight : ∀ p ∈ right.scans, ∃ tab x, p.Stored sm tab x :=
    fun p member => stored p (List.mem_append_right _ member)
  have sound := sound_of_stored stored
  rw [tables_join] at carries sound nodup ⊢
  have covers : ∀ c ∈ conds, Covers (left.tables ++ right.tables) c := by
    intro c member
    obtain ⟨_, inLeft, inRight⟩ := placed.2.2 c member
    exact ⟨List.mem_append_left _ inLeft, fun _ => List.mem_append_right _ inRight⟩
  have value : ∀ s ∈ left.output sm.rows sm.db.holds, ∀ u ∈ right.output sm.rows sm.db.holds,
      x.evalConds (some (flat left.tables s)) (some (flat right.tables u)) =
        .ok (conds.all (sm.db.holds · (merge s u))) := fun s inLeft u inRight =>
    join_evalConds L same whole wide carries sound covers checked (fedConds_of_new made)
      (joins_of_output storedLeft storedRight nodup inLeft inRight)
  have evaluates : x.Evaluates ((left.output sm.rows sm.db.holds).map (flat left.tables))
      ((right.output sm.rows sm.db.holds).map (flat right.tables)) x.accepts := by
    intro a first b second
    obtain ⟨s, inLeft, rfl⟩ := List.mem_map.mp first
    obtain ⟨u, inRight, rfl⟩ := List.mem_map.mp second
    rw [accepts_of_value (value s inLeft u inRight)]
    exact value s inLeft u inRight
  have output := join_output value fun s inLeft u inRight =>
    (joins_of_output storedLeft storedRight nodup inLeft inRight).bytes
  obtain ⟨passesL⟩ := L.passes
  obtain ⟨passesR⟩ := R.passes
  have passes := NestedLoopJoinExecutor.passes passesL passesR evaluates len (whole.size.symm.trans_le small')
  rw [output] at passes
  exact ⟨passes⟩

theorem width_nonneg {plan : Plan} (stored : ∀ p ∈ plan.scans, ∃ tab x, p.Stored sm tab x) : 0 ≤ plan.width := by
  unfold Plan.width
  generalize plan.scans = ps at stored
  induction ps with
  | nil => exact le_rfl
  | cons p ps ih =>
    obtain ⟨⟨tab, x, here⟩, stored⟩ := List.forall_mem_cons.mp stored
    have first := totalLen_nonneg (len_nonneg here.laid.tiles)
    rw [List.map_cons, List.sum_cons, ← here.opens.cols, here.cols]
    exact Int.add_nonneg first (ih stored)

/-- The executor of a join tree yields its output. -/
theorem convert_yields {plan : Plan} (stored : ∀ p ∈ plan.scans, ∃ tab x, p.Stored sm tab x) (placed : plan.Placed)
    (own : plan.ScansOwn) (nodup : plan.tables.Nodup) (checked : ∀ c ∈ plan.conds, sm.db.Checked c)
    (small : plan.width ≤ intMax) : ∃ E cols, Portal.convertPlanExecutor sm plan = .ok E ∧ Yields sm plan E cols := by
  induction plan with
  | null => exact placed.elim
  | projection => exact placed.elim
  | sort => exact placed.elim
  | scan p =>
    obtain ⟨tab, x, here⟩ := stored p List.mem_cons_self
    have same := here.opens.cols.symm.trans here.cols
    have fits : totalLen tab.cols ≤ intMax := by simpa [Plan.width, scans, same] using small
    exact ⟨_, _, convert_scan here.opens, .scan here (own p List.mem_cons_self) checked fits⟩
  | join left right conds ihLeft ihRight =>
    have storedLeft : ∀ p ∈ left.scans, ∃ tab x, p.Stored sm tab x :=
      fun p member => stored p (List.mem_append_left _ member)
    have storedRight : ∀ p ∈ right.scans, ∃ tab x, p.Stored sm tab x :=
      fun p member => stored p (List.mem_append_right _ member)
    have sum : (Plan.join left right conds).width = left.width + right.width := by
      simp [Plan.width, scans]
    have nonneg := width_nonneg storedLeft
    have nonneg' := width_nonneg storedRight
    have names := nodup
    rw [tables_join] at names
    obtain ⟨nodupLeft, nodupRight, _⟩ := List.nodup_append.mp names
    obtain ⟨checkedBelow, checkedHere⟩ := List.forall_mem_append.mp checked
    obtain ⟨checkedLeft, checkedRight⟩ := List.forall_mem_append.mp checkedBelow
    obtain ⟨l, leftCols, builtLeft, L⟩ := ihLeft storedLeft placed.1
      (fun p found => own p (List.mem_append_left _ found)) nodupLeft checkedLeft (by omega)
    obtain ⟨r, rightCols, builtRight, R⟩ := ihRight storedRight placed.2.1
      (fun p found => own p (List.mem_append_right _ found)) nodupRight checkedRight (by omega)
    have made : ∃ x, NestedLoopJoinExecutor.new l r conds = .ok x := by
      rw [NestedLoopJoinExecutor.new, L.layout.columns, R.layout.columns]
      exact ⟨_, rfl⟩
    obtain ⟨x, made⟩ := made
    obtain ⟨rfl, rfl, _⟩ := NestedLoopJoinExecutor.new_children made
    refine ⟨x.executor, x.cols, ?_, .join stored L R placed nodup checkedHere small made⟩
    simp only [Portal.convertPlanExecutor, builtLeft, builtRight, made]

end

/-- The bytes of the chosen columns in all. -/
def DbMeta.chosenLen (db : DbMeta) (sel : List TabCol) : Int :=
  (sel.map fun target => match db.column target with | .ok col => col.len | .error _ => 0).sum

/-- What a projection keeps of a tuple. -/
def ProjectionExecutor.cut (x : ProjectionExecutor) (tuple : RmRecord) : RmRecord :=
  x.selected.flatMap fun col => (tuple.drop col.offset.toNat).take col.len.toNat

section
variable {sm : SmManager} {plan : Plan} {E : Executor} {cols : List ColMeta} {sel : List TabCol}

/-- A chosen column in the tuples of the plan. -/
structure Picks (sm : SmManager) (plan : Plan) (cols : List ColMeta) (target : TabCol) (c : ColMeta) : Prop where
  found : getCol cols target = .ok c
  column : ∃ col, sm.db.column target = .ok col ∧ c.len = col.len ∧ 0 < col.len
  kind : ∀ col, sm.db.column target = .ok col → c.type = col.type ∧ compareLen c.type c.len ≤ c.len
  field : ∀ t, sm.db.Full plan.tables t →
    RmRecord.bytesAt (flat plan.tables t) c.offset c.len = .ok (sm.db.field t target)

theorem picks_of_carries (carries : Carries sm.db plan.tables cols) (sound : sm.db.Sound plan.tables)
    {target : TabCol} (listed : target.tabName ∈ plan.tables) (known : ∃ col, sm.db.column target = .ok col) :
    ∃ c, Picks sm plan cols target c := by
  obtain ⟨col, column⟩ := known
  obtain ⟨c, found, type, len, bytes⟩ := carries.finds target col listed column
  obtain ⟨positive, wide⟩ := column_len sound listed column
  refine ⟨c, found, ⟨col, column, len, positive⟩, fun col' column' => ?_, fun t full => ?_⟩
  · cases column.symm.trans column'
    rw [type, len]
    exact ⟨rfl, wide⟩
  obtain ⟨r, record, reads⟩ := column_inside sound full listed column
  rw [len, bytes t full _ le_rfl, record, DbMeta.field, column, record]
  exact reads _ positive.le le_rfl

/-- The projection finds its columns, and what it keeps of a tuple is the chosen part of the row. -/
theorem picks_all (carries : Carries sm.db plan.tables cols) (sound : sm.db.Sound plan.tables)
    (chosen : ∀ target ∈ sel, target.tabName ∈ plan.tables ∧ ∃ col, sm.db.column target = .ok col) :
    ∃ selected, sel.mapM (getCol cols) = .ok selected ∧ List.Forall₂ (Picks sm plan cols) sel selected := by
  induction sel with
  | nil => exact ⟨[], rfl, .nil⟩
  | cons target sel ih =>
    obtain ⟨⟨listed, known⟩, chosen⟩ := List.forall_mem_cons.mp chosen
    obtain ⟨c, picks⟩ := picks_of_carries carries sound listed known
    obtain ⟨selected, run, each⟩ := ih chosen
    refine ⟨c :: selected, ?_, .cons picks each⟩
    rw [List.mapM_cons, picks.found, ok_bind, run]
    rfl

theorem picks_len {selected : List ColMeta} (each : List.Forall₂ (Picks sm plan cols) sel selected) :
    totalLen selected = sm.db.chosenLen sel ∧ ∀ c ∈ selected, 0 < c.len := by
  induction each with
  | nil => exact ⟨rfl, fun c member => by cases member⟩
  | @cons target c sel selected picks _ ih =>
    obtain ⟨col, column, len, positive⟩ := picks.column
    refine ⟨?_, List.forall_mem_cons.mpr ⟨by omega, ih.2⟩⟩
    simp only [totalLen, DbMeta.chosenLen, List.map_cons, List.sum_cons, column, len] at ih ⊢
    rw [ih.1]

theorem picks_cut {selected : List ColMeta} (each : List.Forall₂ (Picks sm plan cols) sel selected)
    {t : Tuple String RmRecord} (full : sm.db.Full plan.tables t) :
    (∀ c ∈ selected, dataAt (some (flat plan.tables t)) c.offset c.len =
      .ok (((flat plan.tables t).drop c.offset.toNat).take c.len.toNat)) ∧
    (selected.flatMap fun c => ((flat plan.tables t).drop c.offset.toNat).take c.len.toNat) =
      sm.db.chosen sel t := by
  induction each with
  | nil => exact ⟨fun c member => (by cases member), rfl⟩
  | @cons target c sel selected picks _ ih =>
    obtain ⟨fits, bytes⟩ := bytesAt_ok_iff.mp (picks.field t full)
    refine ⟨List.forall_mem_cons.mpr ⟨bytesAt_ok_iff.mpr ⟨fits, rfl⟩, ih.1⟩, ?_⟩
    rw [List.flatMap_cons, ih.2, ← bytes]
    rfl

/-- A SELECT of some columns yields them from every row of the output. -/
theorem projection_yields (Y : Yields sm plan E cols) (stored : ∀ p ∈ plan.scans, ∃ tab x, p.Stored sm tab x)
    (chosen : ∀ target ∈ sel, target.tabName ∈ plan.tables ∧ ∃ col, sm.db.column target = .ok col)
    (small : sm.db.chosenLen sel ≤ intMax) :
    ∃ x enough, ProjectionExecutor.new E sel = .ok x ∧ List.Forall₂ (Picks sm plan cols) sel x.selected ∧
      ∀ fuel, enough ≤ fuel → x.executor.traverse fuel x.executor.fresh =
        .ok (((plan.output sm.rows sm.db.holds).map (sm.db.chosen sel)).map some) := by
  obtain ⟨selected, run, each⟩ := picks_all Y.carries (sound_of_stored stored) chosen
  obtain ⟨total, positive⟩ := picks_len each
  obtain ⟨P⟩ := Y.passes
  have len : ((ProjectionExecutor.place 0 selected).2 : Int) = totalLen selected := by
    have fits := (ProjectionExecutor.place_fits (k := 0) positive (by rw [total]; simpa using small)).2
    simpa using fits
  have made : ProjectionExecutor.new E sel = .ok ⟨E, selected⟩ := by
    simp only [ProjectionExecutor.new, Y.layout.columns, run]
  refine ⟨⟨E, selected⟩, P.bound + (plan.output sm.rows sm.db.holds).length + 1, made, each, fun fuel enough => ?_⟩
  have reads := @ProjectionExecutor.traverse_read ⟨E, selected⟩ _ _ P (ProjectionExecutor.cut ⟨E, selected⟩) ?_ fuel
    (by rw [List.length_map]; omega)
  · rw [reads, List.map_map, List.map_map]
    refine congrArg Except.ok (List.map_congr_left fun t member => ?_)
    exact congrArg some (picks_cut each (full_of_output stored member)).2
  · intro s tuple member next
    obtain ⟨t, inOutput, rfl⟩ := List.mem_map.mp member
    have copied := mapM_of_ok (picks_cut each (full_of_output stored inOutput)).1
    have fits : ¬intMax < ((ProjectionExecutor.len ⟨E, selected⟩ : Nat) : Int) := by
      change ¬intMax < ((ProjectionExecutor.place 0 selected).2 : Int)
      omega
    have read : E.next s = .ok (some (flat plan.tables t)) := next
    simp only [ProjectionExecutor.next, read, ok_bind, if_neg fits, copied]
    rfl

end

end Rmdb
