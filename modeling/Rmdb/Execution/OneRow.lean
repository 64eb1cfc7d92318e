import Rmdb.Analyze.Resolved
import Rmdb.Execution.Careful
import Rmdb.Optimizer.Trunk
import Rmdb.Record.TableSteps

namespace Rmdb
open Portal RmScan InsertExecutor

/-! With one record in each table, a plan that is not careful reads where there is nothing. -/

/-- A file for records of this length, without any. -/
def blankFile (len : Int) : RmFile FlatFile :=
  match RmManager.created len 3 (FlatFile.blank 0) with
  | .ok h f => ⟨h, f⟩
  | .error _ f => ⟨⟨3, .create len⟩, f⟩

theorem blankFile_spec {len : Int} (positive : 0 < len) (small : len ≤ RM_MAX_RECORD_SIZE) :
    (blankFile len).FileInv ∧ (blankFile len).hdr.recordSize = len ∧ (blankFile len).HasSpace ∧
      (blankFile len).records = fun _ => none := by
  obtain ⟨f, created⟩ := RmManager.created_flat 3 (FlatFile.blank 0) (show 1 ≤ len by omega) small
  obtain ⟨inv, empty⟩ := RmFile.FileInv.created created
  have same : blankFile len = ⟨⟨3, .create len⟩, f⟩ := by
    simp only [blankFile, created]
  rw [same]
  exact ⟨inv, rfl, Or.inl (show (1 : Int) ≠ intMax by decide), empty⟩

/-- A file with this record and no other. -/
def oneRow (r : RmRecord) : RmFile FlatFile := stateAfter (RmFileHandle.insertRecord r.ptr) (blankFile r.length)

theorem oneRow_spec {r : RmRecord} (positive : 0 < r.length) (small : (r.length : Int) ≤ RM_MAX_RECORD_SIZE) :
    (oneRow r).FileInv ∧ (oneRow r).hdr.recordSize = r.length ∧
      ∃ rid, rids (oneRow r) = [rid] ∧ (oneRow r).records rid = some r := by
  obtain ⟨inv, size, space, empty⟩ := blankFile_spec (show 0 < (r.length : Int) by omega) small
  obtain ⟨rid, t, run, invT, _, _, records, _⟩ := inv.insertRecord space r.ptr
  rw [RmFile.recordOf_ptr (by rw [size, Int.toNat_natCast]), empty] at records
  have same : oneRow r = t := by
    simp only [oneRow, stateAfter, run]
  have live : t.records rid = some r := by
    rw [records, Function.update_self]
  have only : ∀ rid' ∈ rids t, rid' = rid := by
    intro rid' member
    by_contra other
    have found := (mem_rids invT.wellFormed).mp member
    rw [records, Function.update_of_ne other] at found
    cases found
  rw [same]
  refine ⟨invT, ?_, rid, ?_, live⟩
  · have length := RmFile.length_of_records live
    have := invT.sized.size_pos
    omega
  · have member : rid ∈ rids t := (mem_rids invT.wellFormed).mpr (by rw [live]; rfl)
    have all := List.eq_replicate_iff.mpr ⟨rfl, only⟩
    have once : (rids t).length ≤ 1 := List.nodup_replicate.mp (all ▸ nodup_rids)
    rw [all, Nat.le_antisymm once (List.length_pos_of_mem member)]
    rfl

namespace Executor
variable {E : Executor}

/-- From some fuel on the first `beginTuple` throws what is no `RMDBError`. -/
def Breaks (E : Executor) : Prop :=
  ∃ e, ¬IsRmdbError e ∧ ∃ enough, ∀ fuel, enough ≤ fuel → E.beginTuple fuel E.fresh = .error (.thrown e)

/-- From some fuel on the first `beginTuple` finds this tuple. -/
def Finds (t : RmRecord) (E : Executor) : Prop :=
  ∃ enough, ∀ fuel, enough ≤ fuel → ∃ s, E.beginTuple fuel E.fresh = .ok s ∧ E.isEnd s = .ok false ∧
    E.next s = if (E.tupleLen : Int) ≤ intMax then .ok (some t) else .error .badArrayLength

theorem Breaks.traverse (breaks : E.Breaks) (least : Nat) :
    ∃ fuel, least ≤ fuel ∧ ¬Stops IsRmdbError (E.traverse fuel E.fresh) := by
  obtain ⟨e, wrong, enough, breaks⟩ := breaks
  refine ⟨max least enough, le_max_left _ _, fun ends => ?_⟩
  rw [Executor.traverse, breaks _ (le_max_right _ _)] at ends
  exact wrong ends

theorem traverse_thrown {s t : E.State} {fuel : Nat} {e : Error} (begun : E.beginTuple (fuel + 1) s = .ok t)
    (running : E.isEnd t = .ok false) (thrown : E.next t = .error e) : E.traverse (fuel + 1) s = .error (.thrown e) := by
  rw [Executor.traverse, begun, ok_bind, collect, running, thrown]
  rfl

/-- A tuple that is too long for a record, or for that of the chosen columns. -/
theorem Finds.traverse {t : RmRecord} {x : ProjectionExecutor} (finds : x.prev.Finds t)
    (wide : ¬((x.prev.tupleLen : Int) ≤ intMax ∧ (x.len : Int) ≤ intMax)) (least : Nat) :
    ∃ fuel, least ≤ fuel ∧ ¬Stops IsRmdbError (x.executor.traverse fuel x.executor.fresh) := by
  obtain ⟨enough, finds⟩ := finds
  obtain ⟨s, begun, running, next⟩ := finds (max least enough + 1) (by omega)
  have thrown : x.executor.next s = .error .badArrayLength := by
    change x.next s = _
    rw [ProjectionExecutor.next, next]
    by_cases narrow : (x.prev.tupleLen : Int) ≤ intMax
    · rw [if_pos narrow, ok_bind, if_pos (not_le.mp fun fits => wide ⟨narrow, fits⟩)]
      rfl
    · rw [if_neg narrow]
      rfl
  have stopped : x.executor.traverse (max least enough + 1) x.executor.fresh = .error (.thrown .badArrayLength) :=
    traverse_thrown (E := x.executor) begun running thrown
  refine ⟨max least enough + 1, by omega, ?_⟩
  rw [stopped]
  exact id

end Executor

namespace NestedLoopJoinExecutor
variable {x : NestedLoopJoinExecutor} {a b : RmRecord}

theorem breaks_left (left : x.left.Breaks) : x.executor.Breaks := by
  obtain ⟨e, wrong, enough, breaks⟩ := left
  refine ⟨e, wrong, enough, fun fuel large => ?_⟩
  change (x.left.beginTuple fuel x.left.fresh >>= _) = _
  rw [breaks fuel large]
  rfl

theorem breaks_right (left : x.left.Finds a) (right : x.right.Breaks) : x.executor.Breaks := by
  obtain ⟨enough, finds⟩ := left
  obtain ⟨e, wrong, enough', breaks⟩ := right
  refine ⟨e, wrong, max enough enough', fun fuel large => ?_⟩
  obtain ⟨l, begun, running, _⟩ := finds fuel (by omega)
  change (x.left.beginTuple fuel x.left.fresh >>= _) = _
  rw [begun, ok_bind, running]
  change (x.right.beginTuple fuel x.right.fresh >>= _) = _
  rw [breaks fuel (by omega)]
  rfl

/-- When both children have found a tuple, `Next` and the conditions decide. -/
theorem beginTuple_found (left : x.left.Finds a) (right : x.right.Finds b) :
    ∃ enough, ∀ fuel, enough ≤ fuel → ∃ l r, x.left.isEnd l = .ok false ∧ x.right.isEnd r = .ok false ∧
      x.left.next l = (if (x.left.tupleLen : Int) ≤ intMax then .ok (some a) else .error .badArrayLength) ∧
      x.right.next r = (if (x.right.tupleLen : Int) ≤ intMax then .ok (some b) else .error .badArrayLength) ∧
      ∀ result : Except Error Bool,
        (x.left.next l >>= fun leftRec => x.right.next r >>= fun rightRec => x.evalConds leftRec rightRec) = result →
        (∀ e, result = .error e → x.executor.beginTuple fuel x.executor.fresh = .error (.thrown e)) ∧
          (result = .ok true → x.executor.beginTuple fuel x.executor.fresh = .ok ⟨l, r, false⟩) := by
  obtain ⟨enough, findsL⟩ := left
  obtain ⟨enough', findsR⟩ := right
  refine ⟨max enough enough' + 1, fun fuel large => ?_⟩
  obtain ⟨n, rfl⟩ := Nat.exists_eq_add_of_le' (show 1 ≤ fuel by omega)
  obtain ⟨l, begunL, runsL, nextL⟩ := findsL (n + 1) (by omega)
  obtain ⟨r, begunR, runsR, nextR⟩ := findsR (n + 1) (by omega)
  refine ⟨l, r, runsL, runsR, nextL, nextR, fun result tested => ?_⟩
  have begun : x.executor.beginTuple (n + 1) x.executor.fresh =
      (x.beginLoop (n + 1) (n + 1) l r >>= fun out => do
        if out.1 then return ⟨out.2.1, out.2.2, false⟩
        return ⟨out.2.1, out.2.2, ← x.left.isEnd out.2.1⟩) := by
    change (x.left.beginTuple (n + 1) x.left.fresh >>= _) = _
    rw [begunL, ok_bind, runsL]
    change (x.right.beginTuple (n + 1) x.right.fresh >>= _) = _
    rw [begunR]
    rfl
  have loop : x.beginLoop (n + 1) (n + 1) l r = (x.matchRight (n + 1) l (n + 1) r >>= fun out => do
      if out.1 then return (true, l, out.2)
      let l ← x.left.nextTuple (n + 1) l
      if ← x.left.isEnd l then x.beginLoop (n + 1) n l out.2
      else do
        let r ← x.right.beginTuple (n + 1) out.2
        x.beginLoop (n + 1) n l r) := by
    rw [beginLoop, runsL]
    rfl
  have turn : x.matchRight (n + 1) l (n + 1) r = ((liftM result : Except Stop Bool) >>= fun holds => do
      if holds then return (true, r)
      let r ← x.right.nextTuple (n + 1) r
      x.matchRight (n + 1) l n r) := by
    rw [matchRight, runsR, ← tested]
    cases x.left.next l with
    | error e => rfl
    | ok leftRec =>
      cases x.right.next r with
      | error e => rfl
      | ok rightRec => cases x.evalConds leftRec rightRec <;> rfl
  rw [begun, loop, turn]
  constructor
  · rintro e rfl
    rfl
  · rintro rfl
    rfl

theorem breaks_here (left : x.left.Finds a) (right : x.right.Finds b)
    (wrong : ¬(((x.left.tupleLen : Int) ≤ intMax ∧ (x.right.tupleLen : Int) ≤ intMax) ∧
      Orderly (x.evalConds (some a) (some b)))) : x.executor.Breaks := by
  obtain ⟨enough, found⟩ := beginTuple_found left right
  obtain ⟨e, noRmdb, same⟩ : ∃ e, ¬IsRmdbError e ∧
      ((if (x.left.tupleLen : Int) ≤ intMax then .ok (some a) else .error .badArrayLength) >>= fun leftRec =>
        (if (x.right.tupleLen : Int) ≤ intMax then .ok (some b) else .error .badArrayLength) >>= fun rightRec =>
          x.evalConds leftRec rightRec) = .error e := by
    by_cases narrowL : (x.left.tupleLen : Int) ≤ intMax
    · by_cases narrowR : (x.right.tupleLen : Int) ≤ intMax
      · rw [if_pos narrowL, if_pos narrowR, ok_bind, ok_bind]
        cases run : x.evalConds (some a) (some b) with
        | ok _ => exact absurd ⟨⟨narrowL, narrowR⟩, by rw [run]; trivial⟩ wrong
        | error e => exact ⟨e, fun isRmdb => wrong ⟨⟨narrowL, narrowR⟩, by rw [run]; exact isRmdb⟩, rfl⟩
      · rw [if_pos narrowL, if_neg narrowR]
        exact ⟨.badArrayLength, id, rfl⟩
    · rw [if_neg narrowL]
      exact ⟨.badArrayLength, id, rfl⟩
  refine ⟨e, noRmdb, enough, fun fuel large => ?_⟩
  obtain ⟨l, r, _, _, nextL, nextR, decides⟩ := found fuel large
  rw [nextL, nextR] at decides
  exact (decides _ same).1 e rfl

theorem finds (left : x.left.Finds a) (right : x.right.Finds b) (narrowL : (x.left.tupleLen : Int) ≤ intMax)
    (narrowR : (x.right.tupleLen : Int) ≤ intMax) (holds : x.evalConds (some a) (some b) = .ok true)
    (sizeL : a.length = x.left.tupleLen) (sizeR : b.length = x.right.tupleLen) : x.executor.Finds (a ++ b) := by
  obtain ⟨enough, found⟩ := beginTuple_found left right
  refine ⟨enough, fun fuel large => ?_⟩
  obtain ⟨l, r, _, _, nextL, nextR, decides⟩ := found fuel large
  rw [if_pos narrowL] at nextL
  rw [if_pos narrowR] at nextR
  rw [nextL, nextR] at decides
  refine ⟨_, (decides _ holds).2 rfl, rfl, ?_⟩
  change x.next ⟨l, r, false⟩ = if (x.len : Int) ≤ intMax then _ else _
  simp only [next, nextL, nextR, ok_bind]
  by_cases narrow : (x.len : Int) ≤ intMax
  · rw [if_neg (not_lt.mpr narrow), if_pos narrow, dataAt_whole sizeL, dataAt_whole sizeR]
    rfl
  · rw [if_pos (not_le.mp narrow), if_neg narrow]
    rfl

end NestedLoopJoinExecutor

namespace SeqScanExecutor
variable {x : SeqScanExecutor} {r : RmRecord} {rid : Rid}

theorem finds (inv : x.fh.FileInv) (only : rids x.fh = [rid]) (live : x.fh.records rid = some r)
    (holds : x.evalConds (some r) = .ok true) (narrow : (x.len : Int) ≤ intMax) : x.executor.Finds r := by
  refine ⟨1, fun fuel enough => ?_⟩
  obtain ⟨turns, rfl⟩ := Nat.exists_eq_add_of_le' enough
  have begun := beginTuple_first inv only turns x.executor.fresh
  rw [live, holds] at begun
  have range := RmFile.inRange_of_records live
  obtain ⟨scan, run, here⟩ := new_spec inv.wellFormed
  rw [only] at here
  have at_first : scan = ⟨rid⟩ := here.1
  subst at_first
  refine ⟨_, begun, congrArg Except.ok (running_of_position here), ?_⟩
  refine Eq.trans ?_ (if_pos narrow).symm
  change reading x.fh (RmFileHandle.getRecord rid) = _
  rw [reading, inv.getRecord range, live]

theorem breaks (inv : x.fh.FileInv) (only : rids x.fh = [rid]) (live : x.fh.records rid = some r)
    (wrong : ¬Orderly (x.evalConds (some r))) : x.executor.Breaks := by
  cases run : x.evalConds (some r) with
  | ok _ =>
    rw [run] at wrong
    exact absurd trivial wrong
  | error e =>
    rw [run] at wrong
    obtain ⟨enough, burst⟩ := bursts inv only (live.symm ▸ run)
    exact ⟨e, wrong, enough, fun fuel large => burst fuel large _⟩

end SeqScanExecutor

/-- Each table of the catalog has a file with records of its length. -/
def SmManager.Stocked (sm : SmManager) : Prop :=
  ∀ tabName tab, sm.db.getTable tabName = .ok tab →
    ∃ fh, sm.fhs tabName = some fh ∧ fh.FileInv ∧ fh.hdr.recordSize = totalLen tab.cols

/-- A record for each table, as long as its columns. -/
def DbMeta.Sizes (db : DbMeta) (rows : String → RmRecord) : Prop :=
  ∀ tabName tab, db.getTable tabName = .ok tab → ((rows tabName).length : Int) = totalLen tab.cols

/-- The tables hold these records and no others. -/
def holding (db : DbMeta) (rows : String → RmRecord) : SmManager where
  db
  fhs t := if db.isTable t then some (oneRow (rows t)) else none

section
variable {db : DbMeta} {rows : String → RmRecord} {tabName : String} {tab : TabMeta}

theorem DbMeta.Ready.positive (ready : db.Ready) (table : db.getTable tabName = .ok tab) : 0 < totalLen tab.cols := by
  obtain ⟨col, cols, same⟩ := List.exists_cons_of_ne_nil (ready.wf _ _ (Analyze.getTable_ok table)).2.2.1
  have some := length_le_totalLen (ready.laid _ _ table).1
  rw [same, List.length_cons] at some
  rw [same]
  omega

theorem DbMeta.Sizes.oneRow (ready : db.Ready) (sizes : db.Sizes rows) (table : db.getTable tabName = .ok tab) :
    (oneRow (rows tabName)).FileInv ∧ (oneRow (rows tabName)).hdr.recordSize = totalLen tab.cols ∧
      ∃ rid, rids (oneRow (rows tabName)) = [rid] ∧ (oneRow (rows tabName)).records rid = some (rows tabName) := by
  have size := sizes _ _ table
  have positive := ready.positive table
  have small := (ready.laid _ _ table).2
  obtain ⟨inv, length, only⟩ := oneRow_spec (r := rows tabName) (by omega) (by omega)
  exact ⟨inv, length.trans size, only⟩

theorem holding_stocked (ready : db.Ready) (sizes : db.Sizes rows) : (holding db rows).Stocked := by
  intro tabName tab table
  obtain ⟨inv, size, _⟩ := sizes.oneRow ready table
  exact ⟨_, if_pos (Analyze.isTable_iff.mpr ⟨tab, table⟩), inv, size⟩

theorem holding_sound (ready : db.Ready) (sizes : db.Sizes rows) : (holding db rows).Sound := by
  intro tabName fh file
  simp only [holding, Option.ite_none_right_eq_some] at file
  obtain ⟨tab, table⟩ := Analyze.isTable_iff.mp file.1
  rw [← Option.some.inj file.2]
  exact (sizes.oneRow ready table).1

theorem exists_sizes (ready : db.Ready) : ∃ rows, db.Sizes rows := by
  refine ⟨fun t => match db.getTable t with
    | .ok tab => List.replicate (totalLen tab.cols).toNat 0
    | .error _ => [], fun tabName tab table => ?_⟩
  have positive := ready.positive table
  simp only [table, List.length_replicate]
  omega

end

namespace Plan
variable {db : DbMeta} {sm : SmManager} {plan left right : Plan} {conds : List Condition} {p : ScanPlan}
  {a b t : RmRecord} {P Q R : Executor → Prop}

/-- Scans from end to end of tables of the catalog. -/
def Of (db : DbMeta) (plan : Plan) : Prop :=
  ∀ p ∈ plan.scans, p.tag = .seqScan ∧ ∃ tab, db.getTable p.tabName = .ok tab ∧ p.cols = tab.cols

theorem Of.of_join (of : (join left right conds).Of db) : left.Of db ∧ right.Of db :=
  ⟨fun p member => of p (List.mem_append_left _ member), fun p member => of p (List.mem_append_right _ member)⟩

theorem Of.laid (ready : db.Ready) (of : plan.Of db) : plan.Laid := by
  intro p member
  obtain ⟨_, tab, table, same⟩ := of p member
  rw [same]
  exact ready.laid _ _ table

theorem Of.backed (stocked : sm.Stocked) (ready : sm.db.Ready) (of : plan.Of sm.db) : plan.Backed sm := by
  intro p member
  obtain ⟨tag, tab, table, same⟩ := of p member
  obtain ⟨fh, file, inv, size⟩ := stocked _ _ table
  obtain ⟨laid, small⟩ := ready.laid _ _ table
  obtain ⟨last, end_col⟩ : ∃ last, tab.cols.getLast? = some last :=
    ⟨_, List.getLast?_eq_some_getLast (ready.wf _ _ (Analyze.getTable_ok table)).2.2.1⟩
  have made : SeqScanExecutor.new sm p.tabName p.conds = .ok ⟨fh, tab.cols, sizeT (last.offset + last.len), p.conds⟩ := by
    rw [SeqScanExecutor.new, table, ok_bind]
    simp only [file, end_col]
    rfl
  have len := ProjectionExecutor.sizeT_of_nonneg (totalLen_nonneg (len_nonneg laid))
    (small.trans (show RM_MAX_RECORD_SIZE ≤ intMax by decide))
  refine ⟨_, ⟨tag, made, same.symm, rfl, file⟩, inv, same ▸ size, ?_⟩
  change sizeT (last.offset + last.len) = _
  rw [end_of_last laid end_col, Int.zero_add, same]
  omega

/-- The two children are careful, and yet a pair of their tuples is too long or makes a condition read outside. -/
theorem pair_breaks {x : NestedLoopJoinExecutor} (pair : left.Pairs right conds x) (findsL : x.left.Finds a)
    (findsR : x.right.Finds b) (sizeL : a.length = left.tupleLen) (sizeR : b.length = right.tupleLen)
    (wrong : ¬(((left.tupleLen : Int) ≤ intMax ∧ (right.tupleLen : Int) ≤ intMax) ∧
      UpTo (fun c => left.evalPair right a b c = .ok true)
        (Condition.Reads (left.recCols ++ shifted left.tupleLen right.recCols) (left.PairInside right)) conds)) :
    x.executor.Breaks := by
  refine NestedLoopJoinExecutor.breaks_here findsL findsR fun fine => wrong ?_
  rw [pair.lenL, pair.lenR, pair.evaluates, evalPairs_orderly_iff sizeL sizeR] at fine
  exact fine

/-- Some records in its tables, whatever is in the others, give its executor the property. -/
def Can (db : DbMeta) (plan : Plan) (P : Executor → Prop) : Prop :=
  ∃ rows, db.Sizes rows ∧ ∀ rows', db.Sizes rows' → (∀ t ∈ plan.tables, rows' t = rows t) →
    ∀ E, convertPlanExecutor (holding db rows') plan = .ok E → P E

section
variable (ready : db.Ready)
include ready

/-- The scan of a table with one record. -/
theorem convert_scan_inv {rows : String → RmRecord} (of : (scan p).Of db) (sizes : db.Sizes rows) {E : Executor}
    (run : convertPlanExecutor (holding db rows) (.scan p) = .ok E) :
    ∃ (x : SeqScanExecutor) (rid : Rid), E = x.executor ∧ x.fh.FileInv ∧ rids x.fh = [rid] ∧
      x.fh.records rid = some (rows p.tabName) ∧ (∀ r, x.evalConds (some r) = evalRows p.cols r p.conds) ∧
      (x.len : Int) ≤ intMax := by
  obtain ⟨_, tab, table, same⟩ := of p List.mem_cons_self
  obtain ⟨x, opens, inv, _, len⟩ := of.backed (holding_stocked ready sizes) ready p
    List.mem_cons_self
  obtain ⟨_, _, rid, only, live⟩ := sizes.oneRow ready table
  have file : x.fh = oneRow (rows p.tabName) :=
    Option.some.inj (opens.file.symm.trans (if_pos (Analyze.isTable_iff.mpr ⟨tab, table⟩)))
  have small := (of.laid ready p List.mem_cons_self).2
  unfold RM_MAX_RECORD_SIZE at small
  rw [convert_scan opens] at run
  refine ⟨x, rid, (Except.ok.inj run).symm, inv, file ▸ only, file ▸ live, fun r => ?_, by unfold intMax; omega⟩
  rw [SeqScanExecutor.evalConds, opens.conds, evalRows]
  congr 1
  funext c
  rw [SeqScanExecutor.evalCond, evalRow, opens.cols]

theorem scan_can (of : (scan p).Of db) {r : RmRecord} (size : (r.length : Int) = totalLen p.cols)
    (implies : ∀ (x : SeqScanExecutor) (rid : Rid), x.fh.FileInv → rids x.fh = [rid] → x.fh.records rid = some r →
      x.evalConds (some r) = evalRows p.cols r p.conds → (x.len : Int) ≤ intMax → P x.executor) :
    (scan p).Can db P := by
  obtain ⟨_, tab, table, same⟩ := of p List.mem_cons_self
  obtain ⟨blank, sizes⟩ := exists_sizes ready
  refine ⟨Function.update blank p.tabName r, ?_, fun rows sized agree E run => ?_⟩
  · intro tabName tab' table'
    by_cases here : tabName = p.tabName
    · subst here
      cases table.symm.trans table'
      rw [Function.update_self, size, same]
    · rw [Function.update_of_ne here]
      exact sizes _ _ table'
  · have row : rows p.tabName = r := by
      rw [agree p.tabName (List.mem_singleton_self _), Function.update_self]
    obtain ⟨x, rid, rfl, inv, only, live, evaluates, narrow⟩ := convert_scan_inv ready of sized run
    exact implies x rid inv only (row ▸ live) (evaluates r) narrow

theorem convert_join_inv (whole : (join left right conds).Whole) (of : (join left right conds).Of db)
    (stocked : sm.Stocked) (same : sm.db = db) {E : Executor}
    (run : convertPlanExecutor sm (.join left right conds) = .ok E) :
    ∃ x : NestedLoopJoinExecutor, E = x.executor ∧ convertPlanExecutor sm left = .ok x.left ∧
      convertPlanExecutor sm right = .ok x.right ∧ left.Pairs right conds x := by
  subst same
  obtain ⟨l, builtL, colsL, lenL, _⟩ := convert_tame whole.1 (of.of_join.1.laid ready) (of.of_join.1.backed stocked ready)
  obtain ⟨r, builtR, colsR, lenR, _⟩ := convert_tame whole.2 (of.of_join.2.laid ready) (of.of_join.2.backed stocked ready)
  obtain ⟨x, rfl, rfl, built, pair⟩ := convert_pair conds builtL colsL builtR colsR lenL lenR
  exact ⟨x, Except.ok.inj (run.symm.trans built), builtL, builtR, pair⟩

section
variable (whole : (join left right conds).Whole) (of : (join left right conds).Of db)
include whole of

/-- Two plans over different tables can each have their own. -/
theorem join_can (apart : ∀ t ∈ left.tables, t ∉ right.tables) (canL : left.Can db P) (canR : right.Can db Q)
    (both : ∀ x, left.Pairs right conds x → P x.left → Q x.right → R x.executor) :
    (join left right conds).Can db R := by
  obtain ⟨rowsL, sizesL, canL⟩ := canL
  obtain ⟨rowsR, sizesR, canR⟩ := canR
  refine ⟨fun t => if t ∈ left.tables then rowsL t else rowsR t, fun tabName tab table => ?_,
    fun rows sizes agree E run => ?_⟩
  · dsimp only
    split
    · exact sizesL _ _ table
    · exact sizesR _ _ table
  · obtain ⟨x, rfl, builtL, builtR, pair⟩ := convert_join_inv ready whole of
      (holding_stocked ready sizes) rfl run
    rw [tables_join] at agree
    refine both x pair (canL rows sizes (fun t member => ?_) _ builtL) (canR rows sizes (fun t member => ?_) _ builtR)
    · exact (agree t (List.mem_append_left _ member)).trans (if_pos member)
    · exact (agree t (List.mem_append_right _ member)).trans (if_neg fun inLeft => apart t inLeft member)

theorem join_can_left (canL : left.Can db P) (implies : ∀ x, left.Pairs right conds x → P x.left → R x.executor) :
    (join left right conds).Can db R := by
  obtain ⟨rows, sizes, canL⟩ := canL
  refine ⟨rows, sizes, fun rows' sizes' agree E run => ?_⟩
  obtain ⟨x, rfl, builtL, _, pair⟩ := convert_join_inv ready whole of
    (holding_stocked ready sizes') rfl run
  rw [tables_join] at agree
  exact implies x pair (canL rows' sizes' (fun t member => agree t (List.mem_append_left _ member)) _ builtL)

end

theorem gives_can (whole : plan.Whole) (of : plan.Of db) (careful : plan.Careful) (distinct : plan.tables.Nodup)
    (given : plan.Gives t) : plan.Can db (Executor.Finds t) := by
  induction plan generalizing t with
  | null => exact given.elim
  | projection => exact given.elim
  | sort => exact given.elim
  | scan p =>
    refine scan_can ready of given.1 fun x rid inv only live evaluates narrow => ?_
    exact SeqScanExecutor.finds inv only live (evaluates.trans given.2) narrow
  | join left right conds ihLeft ihRight =>
    obtain ⟨a, b, givenL, givenR, holds, rfl⟩ := given
    obtain ⟨carefulL, carefulR, pairs⟩ := careful
    obtain ⟨⟨narrowL, narrowR⟩, _⟩ := pairs a b givenL givenR
    have carefulR := carefulR ⟨a, givenL⟩
    rw [tables_join] at distinct
    obtain ⟨distinctL, distinctR, apart⟩ := List.nodup_append.mp distinct
    have sizeL := length_of_gives (of.of_join.1.laid ready) carefulL givenL
    have sizeR := length_of_gives (of.of_join.2.laid ready) carefulR givenR
    refine join_can ready whole of (fun t inLeft inRight => apart t inLeft t inRight rfl)
      (ihLeft whole.1 of.of_join.1 carefulL distinctL givenL)
      (ihRight whole.2 of.of_join.2 carefulR distinctR givenR) fun x pair findsL findsR => ?_
    exact NestedLoopJoinExecutor.finds findsL findsR (pair.lenL ▸ narrowL) (pair.lenR ▸ narrowR)
      ((pair.evaluates a b).trans holds) (pair.lenL ▸ sizeL) (pair.lenR ▸ sizeR)

theorem careless_can (whole : plan.Whole) (of : plan.Of db) (distinct : plan.tables.Nodup) (careless : ¬plan.Careful) :
    plan.Can db Executor.Breaks := by
  induction plan with
  | null => exact whole.elim
  | projection => exact whole.elim
  | sort => exact whole.elim
  | scan p =>
    obtain ⟨r, careless⟩ := not_forall.mp careless
    obtain ⟨size, careless⟩ := Classical.not_imp.mp careless
    refine scan_can ready of size fun x rid inv only live evaluates _ => ?_
    exact SeqScanExecutor.breaks inv only live fun fine => careless (evalRows_orderly_iff.mp (evaluates ▸ fine))
  | join left right conds ihLeft ihRight =>
    rw [tables_join] at distinct
    obtain ⟨distinctL, distinctR, apart⟩ := List.nodup_append.mp distinct
    have apart : ∀ t ∈ left.tables, t ∉ right.tables := fun t inLeft inRight => apart t inLeft t inRight rfl
    by_cases carefulL : left.Careful
    · by_cases carefulR : (∃ a, left.Gives a) → right.Careful
      · obtain ⟨a, b, givenL, givenR, wrong⟩ : ∃ a b, left.Gives a ∧ right.Gives b ∧
            ¬(((left.tupleLen : Int) ≤ intMax ∧ (right.tupleLen : Int) ≤ intMax) ∧
              UpTo (fun c => left.evalPair right a b c = .ok true)
                (Condition.Reads (left.recCols ++ shifted left.tupleLen right.recCols) (left.PairInside right))
                conds) := by
          by_contra none
          refine careless ⟨carefulL, carefulR, fun a b givenL givenR => ?_⟩
          by_contra wrong
          exact none ⟨a, b, givenL, givenR, wrong⟩
        have carefulR := carefulR ⟨a, givenL⟩
        refine join_can ready whole of apart (gives_can ready whole.1 of.of_join.1 carefulL distinctL givenL)
          (gives_can ready whole.2 of.of_join.2 carefulR distinctR givenR) fun x pair findsL findsR => ?_
        exact pair_breaks pair findsL findsR (length_of_gives (of.of_join.1.laid ready) carefulL givenL)
          (length_of_gives (of.of_join.2.laid ready) carefulR givenR) wrong
      · obtain ⟨⟨a, givenL⟩, carelessR⟩ := Classical.not_imp.mp carefulR
        exact join_can ready whole of apart (gives_can ready whole.1 of.of_join.1 carefulL distinctL givenL)
          (ihRight whole.2 of.of_join.2 distinctR carelessR) fun x _ => NestedLoopJoinExecutor.breaks_right
    · exact join_can_left ready whole of (ihLeft whole.1 of.of_join.1 distinctL carefulL) fun x _ =>
        NestedLoopJoinExecutor.breaks_left

/-! The chain. -/

/-- What a record in each table can show of a plan: that it is not careful, or else a tuple. -/
structure Shows (db : DbMeta) (plan : Plan) : Prop where
  breaks : ¬plan.Careful → plan.Can db Executor.Breaks
  finds : plan.Careful → (∃ t, plan.Gives t) → ∃ t, plan.Gives t ∧ plan.Can db (Executor.Finds t)

section
variable (whole : (join (.scan p) plan []).Whole) (of : (join (.scan p) plan []).Of db)
  (free : p.tabName ∈ plan.tables → p.conds = [])
include whole of free

/-- A scan without conditions finds whatever the rest of the chain needs in its table. -/
theorem join_can_scan (given : ∃ a, (scan p).Gives a) (can : plan.Can db Q) : ∃ a, (scan p).Gives a ∧
    ∀ R : Executor → Prop, (∀ x, (scan p).Pairs plan [] x → x.left.Finds a → Q x.right → R x.executor) →
      (join (.scan p) plan []).Can db R := by
  by_cases again : p.tabName ∈ plan.tables
  · obtain ⟨rows, sizes, can⟩ := can
    obtain ⟨_, tab, table, same⟩ := of p List.mem_cons_self
    have holds : evalRows p.cols (rows p.tabName) p.conds = .ok true := by
      rw [free again]
      rfl
    refine ⟨rows p.tabName, ⟨same ▸ sizes _ _ table, holds⟩, fun R implies => ?_⟩
    refine ⟨rows, sizes, fun rows' sizes' agree E run => ?_⟩
    obtain ⟨x, rfl, builtL, builtR, pair⟩ := convert_join_inv ready whole of
      (holding_stocked ready sizes') rfl run
    have row : rows' p.tabName = rows p.tabName := agree _ List.mem_cons_self
    obtain ⟨y, rid, isScan, inv, only, live, evaluates, narrow⟩ := convert_scan_inv ready of.of_join.1 sizes' builtL
    rw [row] at live
    refine implies x pair ?_ (can rows' sizes' (fun t member => agree t (List.mem_cons_of_mem _ member)) _ builtR)
    rw [isScan]
    exact SeqScanExecutor.finds inv only live ((evaluates _).trans holds) narrow
  · obtain ⟨a, given⟩ := given
    have apart : ∀ t ∈ (scan p).tables, t ∉ plan.tables := fun t member => List.mem_singleton.mp member ▸ again
    refine ⟨a, given, fun R implies => ?_⟩
    refine join_can ready whole of apart ?_ can implies
    refine scan_can ready of.of_join.1 given.1 fun x rid inv only live evaluates narrow => ?_
    exact SeqScanExecutor.finds inv only live (evaluates.trans given.2) narrow

theorem Shows.chained (shows : plan.Shows db) : (join (.scan p) plan []).Shows db where
  breaks careless := by
    by_cases carefulL : (scan p).Careful
    · by_cases carefulR : (∃ a, (scan p).Gives a) → plan.Careful
      · obtain ⟨a, b, givenL, givenR, wide⟩ : ∃ a b, (scan p).Gives a ∧ plan.Gives b ∧
            ¬(((scan p).tupleLen : Int) ≤ intMax ∧ (plan.tupleLen : Int) ≤ intMax) := by
          by_contra none
          refine careless ⟨carefulL, carefulR, fun a b givenL givenR => ⟨?_, trivial⟩⟩
          by_contra wide
          exact none ⟨a, b, givenL, givenR, wide⟩
        have carefulR := carefulR ⟨a, givenL⟩
        obtain ⟨b, givenR, can⟩ := shows.finds carefulR ⟨b, givenR⟩
        obtain ⟨a, givenL, can⟩ := join_can_scan ready whole of free ⟨a, givenL⟩ can
        refine can _ fun x pair findsL findsR => ?_
        exact pair_breaks pair findsL findsR (length_of_gives (of.of_join.1.laid ready) carefulL givenL)
          (length_of_gives (of.of_join.2.laid ready) carefulR givenR) fun fine => wide fine.1
      · obtain ⟨given, carelessR⟩ := Classical.not_imp.mp carefulR
        obtain ⟨a, _, can⟩ := join_can_scan ready whole of free given (shows.breaks carelessR)
        exact can _ fun x _ => NestedLoopJoinExecutor.breaks_right
    · have can := careless_can ready whole.1 of.of_join.1 (List.nodup_singleton _) carefulL
      exact join_can_left ready whole of can fun x _ => NestedLoopJoinExecutor.breaks_left
  finds careful given := by
    obtain ⟨_, a, b, givenL, givenR, _⟩ := given
    obtain ⟨carefulL, carefulR, pairs⟩ := careful
    obtain ⟨⟨narrowL, narrowR⟩, _⟩ := pairs a b givenL givenR
    have carefulR := carefulR ⟨a, givenL⟩
    obtain ⟨b, givenR, can⟩ := shows.finds carefulR ⟨b, givenR⟩
    obtain ⟨a, givenL, can⟩ := join_can_scan ready whole of free ⟨a, givenL⟩ can
    refine ⟨a ++ b, ⟨a, b, givenL, givenR, rfl, rfl⟩, can _ fun x pair findsL findsR => ?_⟩
    exact NestedLoopJoinExecutor.finds findsL findsR (pair.lenL ▸ narrowL) (pair.lenR ▸ narrowR) (pair.evaluates a b)
      (pair.lenL ▸ length_of_gives (of.of_join.1.laid ready) carefulL givenL)
      (pair.lenR ▸ length_of_gives (of.of_join.2.laid ready) carefulR givenR)

end

theorem Shows.chain {scans : List ScanPlan} (shows : plan.Shows db) (whole : (plan.chain scans).Whole)
    (of : (plan.chain scans).Of db) (later : scans.Pairwise Planner.Later)
    (free : ∀ q ∈ scans, q.tabName ∈ plan.tables → q.conds = []) : (plan.chain scans).Shows db := by
  induction scans generalizing plan with
  | nil => exact shows
  | cons q scans ih =>
    obtain ⟨here, later⟩ := List.pairwise_cons.mp later
    obtain ⟨own, free⟩ := List.forall_mem_cons.mp free
    have inner : (join (.scan q) plan []).Of db := fun p member => of p (scans_chain scans member)
    refine ih (shows.chained ready (whole_of_chain whole) inner own) whole of later fun r member again => ?_
    rcases List.mem_cons.mp again with same | old
    · exact here r member same.symm
    · exact free r member old

/-- What a query does on one record in each table shows whether its plan is careful. -/
theorem makeOneRel_shows {tables : List String} (catalog : Planner.InCatalog db tables)
    (run : Planner.makeOneRel db tables conds = .ok plan) (whole : plan.Whole) (of : plan.Of db) : plan.Shows db := by
  obtain ⟨core, scans, rfl, distinct, later, free⟩ := Planner.makeOneRel_chain catalog run
  have inner : core.Of db := fun p member => of p (scans_chain scans member)
  have shows : core.Shows db := {
    breaks := careless_can ready (whole_of_chain whole) inner distinct
    finds := fun careful ⟨t, given⟩ => ⟨t, given, gives_can ready (whole_of_chain whole) inner careful distinct given⟩ }
  exact shows.chain ready whole of later free

end

end Plan

end Rmdb
