import Rmdb.Execution.Converted
import Rmdb.Execution.Tame
import Rmdb.Execution.TypeErrors

namespace Rmdb
open Portal InsertExecutor

/-! Which plans never make an executor read where there is nothing. -/

/-- The bytes that the comparison reads are there, and a literal has been encoded. A missing column ends it before. -/
def Condition.Reads (cols : List ColMeta) (inside : ColMeta → Int → Prop) (c : Condition) : Prop :=
  ∀ lhs, getCol cols c.lhsCol = .ok lhs →
    (c.isRhsVal = true → inside lhs (compareLen lhs.type lhs.len) ∧
      ∃ raw, c.rhsVal.raw = some raw ∧ Fits 0 (compareLen lhs.type lhs.len) raw.length) ∧
    (c.isRhsVal = false → ∀ rhs, getCol cols c.rhsCol = .ok rhs →
      inside lhs (compareLen lhs.type lhs.len) ∧ inside rhs (compareLen lhs.type lhs.len))

/-- A read of bytes that is undefined outside. -/
structure ReadsIf (inside : Prop) (x : Except Error (List UInt8)) : Prop where
  ok : inside → ∃ bytes, x = .ok bytes
  undefined : ¬inside → x = .error .undefined

theorem bytesAt_readsIf (r : RmRecord) (offset len : Int) :
    ReadsIf (Fits offset len r.length) (r.bytesAt offset len) where
  ok inside := ⟨_, bytesAt_ok_iff.mpr ⟨inside, rfl⟩⟩
  undefined outside := if_neg outside

theorem ReadsIf.both {P Q : Prop} {x y : Except Error (List UInt8)} (first : ReadsIf P x) (second : ReadsIf Q y)
    (f : List UInt8 → List UInt8 → Bool) :
    Orderly (x >>= fun a => y >>= fun b => pure (f a b)) ↔ P ∧ Q := by
  by_cases p : P
  · obtain ⟨a, rfl⟩ := first.ok p
    by_cases q : Q
    · obtain ⟨b, rfl⟩ := second.ok q
      exact iff_of_true trivial ⟨p, q⟩
    · rw [second.undefined q]
      exact iff_of_false id fun both => q both.2
  · rw [first.undefined p]
    exact iff_of_false id fun both => p both.1

theorem getCol_orderly (cols : List ColMeta) (target : TabCol) : Orderly (getCol cols target) := by
  unfold getCol
  split <;> trivial

theorem evalCondAt_orderly_iff {cols : List ColMeta} {bytes : ColMeta → Int → Except Error (List UInt8)}
    {inside : ColMeta → Int → Prop} (reads : ∀ col len, ReadsIf (inside col len) (bytes col len)) (c : Condition) :
    Orderly (evalCondAt cols bytes c) ↔ c.Reads cols inside := by
  unfold evalCondAt Condition.Reads
  refine Ends.bind_iff.trans ((Ends.iff_values (getCol_orderly cols c.lhsCol)).trans (forall₂_congr fun lhs _ => ?_))
  cases kind : c.isRhsVal with
  | true =>
    simp only [if_true, true_imp_iff, Bool.true_eq_false, false_imp_iff, and_true]
    cases encoded : c.rhsVal.raw with
    | none => exact iff_of_false id nofun
    | some raw =>
      refine ((reads lhs _).both (bytesAt_readsIf raw 0 _) _).trans (and_congr_right fun _ => ?_)
      simp only [Option.some.injEq, exists_eq_left']
  | false =>
    simp only [Bool.false_eq_true, if_false, false_imp_iff, true_imp_iff, true_and, pure_bind]
    refine Ends.bind_iff.trans ((Ends.iff_values (getCol_orderly cols c.rhsCol)).trans (forall₂_congr fun rhs _ => ?_))
    exact (reads lhs _).both (reads rhs _) _

theorem allOf_throws_iff {allowed : Error → Prop} {test : Condition → Except Error Bool} {conds : List Condition} :
    Throws allowed (allOf test conds) ↔
      UpTo (fun c => test c = .ok true) (fun c => Throws allowed (test c)) conds := by
  induction conds with
  | nil => exact iff_of_true trivial trivial
  | cons c conds ih =>
    rw [allOf, UpTo, ← ih]
    cases run : test c with
    | error e => exact ⟨fun ends => ⟨ends, fun holds => by cases holds⟩, fun both => both.1⟩
    | ok holds =>
      cases holds with
      | true => exact ⟨fun ends => ⟨trivial, fun _ => ends⟩, fun both => both.2 rfl⟩
      | false => exact iff_of_true trivial ⟨trivial, fun holds => by cases holds⟩

/-- `eval_conds` of a scan. -/
theorem evalRows_orderly_iff {cols : List ColMeta} {r : RmRecord} {conds : List Condition} :
    Orderly (evalRows cols r conds) ↔ UpTo (fun c => evalRow cols r c = .ok true)
      (Condition.Reads cols fun col len => Fits col.offset len r.length) conds :=
  allOf_throws_iff.trans (UpTo.congr (fun _ _ => Iff.rfl) fun c _ =>
    evalCondAt_orderly_iff (fun col len => bytesAt_readsIf r col.offset len) c)

namespace Plan

/-- The length of the tuples of its executor. -/
def tupleLen : Plan → Nat
  | .scan p => (totalLen p.cols).toNat
  | .join left right _ => (left.tupleLen + right.tupleLen) % 18446744073709551616
  | _ => 0

/-- The columns of its executor. -/
def recCols : Plan → List ColMeta
  | .scan p => p.cols
  | .join left right _ => left.recCols ++ shifted left.tupleLen right.recCols
  | _ => []

/-- `eval_cond` of a join on two tuples. -/
def evalPair (left right : Plan) (a b : RmRecord) (c : Condition) : Except Error Bool :=
  evalCondAt (left.recCols ++ shifted left.tupleLen right.recCols) (fun col len =>
    if sizeT col.offset < left.tupleLen then a.bytesAt col.offset len
    else b.bytesAt (col.offset - left.tupleLen) len) c

/-- Where a join looks for a column, there are so many bytes. -/
def PairInside (left right : Plan) (col : ColMeta) (len : Int) : Prop :=
  if sizeT col.offset < left.tupleLen then Fits col.offset len left.tupleLen
  else Fits (col.offset - left.tupleLen) len right.tupleLen

/-- A tuple that its executor can give, if the tables hold suitable records. -/
def Gives : Plan → RmRecord → Prop
  | .scan p, t => (t.length : Int) = totalLen p.cols ∧ evalRows p.cols t p.conds = .ok true
  | .join left right conds, t => ∃ a b, left.Gives a ∧ right.Gives b ∧
    allOf (left.evalPair right a b) conds = .ok true ∧ t = a ++ b
  | _, _ => False

/-- Whatever the tables hold, the comparisons read what is there, and the tuples that are joined fit into records. A
right child matters only if the left one has a tuple. -/
def Careful : Plan → Prop
  | .scan p => ∀ r : RmRecord, (r.length : Int) = totalLen p.cols → UpTo (fun c => evalRow p.cols r c = .ok true)
    (Condition.Reads p.cols fun col len => Fits col.offset len r.length) p.conds
  | .join left right conds => left.Careful ∧ ((∃ a, left.Gives a) → right.Careful) ∧
    ∀ a b, left.Gives a → right.Gives b → ((left.tupleLen : Int) ≤ intMax ∧ (right.tupleLen : Int) ≤ intMax) ∧
      UpTo (fun c => left.evalPair right a b c = .ok true)
        (Condition.Reads (left.recCols ++ shifted left.tupleLen right.recCols) (left.PairInside right)) conds
  | _ => True

/-- The columns of each table lie one behind the other in a record. -/
def Laid (plan : Plan) : Prop := ∀ p ∈ plan.scans, Consecutive 0 p.cols ∧ totalLen p.cols ≤ RM_MAX_RECORD_SIZE

variable {plan left right : Plan} {conds : List Condition} {a b t : RmRecord}

theorem Laid.of_join (laid : (join left right conds).Laid) : left.Laid ∧ right.Laid :=
  ⟨fun p member => laid p (List.mem_append_left _ member), fun p member => laid p (List.mem_append_right _ member)⟩

theorem evalPairs_orderly_iff (sizeL : a.length = left.tupleLen) (sizeR : b.length = right.tupleLen) :
    Orderly (allOf (left.evalPair right a b) conds) ↔ UpTo (fun c => left.evalPair right a b c = .ok true)
      (Condition.Reads (left.recCols ++ shifted left.tupleLen right.recCols) (left.PairInside right)) conds := by
  refine allOf_throws_iff.trans (UpTo.congr (fun _ _ => Iff.rfl) fun c _ =>
    evalCondAt_orderly_iff (fun col len => ?_) c)
  unfold PairInside
  split
  · exact sizeL ▸ bytesAt_readsIf a col.offset len
  · exact sizeR ▸ bytesAt_readsIf b _ len

theorem length_of_gives (laid : plan.Laid) (careful : plan.Careful) (given : plan.Gives t) :
    t.length = plan.tupleLen := by
  induction plan generalizing t with
  | scan p =>
    rw [tupleLen, ← given.1, Int.toNat_natCast]
  | join left right conds ihLeft ihRight =>
    obtain ⟨a, b, givenL, givenR, _, rfl⟩ := given
    obtain ⟨⟨narrowL, narrowR⟩, _⟩ := careful.2.2 a b givenL givenR
    rw [List.length_append, ihLeft laid.of_join.1 careful.1 givenL,
      ihRight laid.of_join.2 (careful.2.1 ⟨a, givenL⟩) givenR, tupleLen]
    unfold intMax at narrowL narrowR
    omega
  | null => exact given.elim
  | projection => exact given.elim
  | sort => exact given.elim

theorem layout_of_gives (laid : plan.Laid) (careful : plan.Careful) (given : plan.Gives t)
    (narrow : (plan.tupleLen : Int) ≤ intMax) :
    Consecutive 0 plan.recCols ∧ totalLen plan.recCols = plan.tupleLen := by
  induction plan generalizing t with
  | scan p =>
    have tiles := (laid p List.mem_cons_self).1
    exact ⟨tiles, (Int.toNat_of_nonneg (totalLen_nonneg (len_nonneg tiles))).symm⟩
  | join left right conds ihLeft ihRight =>
    obtain ⟨a, b, givenL, givenR, _, rfl⟩ := given
    obtain ⟨⟨narrowL, narrowR⟩, _⟩ := careful.2.2 a b givenL givenR
    obtain ⟨tilesL, sizeL⟩ := ihLeft laid.of_join.1 careful.1 givenL narrowL
    obtain ⟨tilesR, sizeR⟩ := ihRight laid.of_join.2 (careful.2.1 ⟨a, givenL⟩) givenR narrowR
    have sum : ((join left right conds).tupleLen : Int) = left.tupleLen + right.tupleLen := by
      rw [tupleLen]
      unfold intMax at narrowL narrowR
      omega
    have behind := consecutive_shifted (d := left.tupleLen) tilesR (by omega) (by rw [sizeR]; omega)
    rw [Int.zero_add] at behind
    rw [recCols, consecutive_append, totalLen_append, totalLen_shifted, sizeL, sizeR, Int.zero_add]
    exact ⟨⟨tilesL, behind⟩, sum.symm⟩
  | null => exact given.elim
  | projection => exact given.elim
  | sort => exact given.elim

/-- The scans become executors over files with records of the tables. -/
def Backed (sm : SmManager) (plan : Plan) : Prop :=
  ∀ p ∈ plan.scans, ∃ x, p.Opens sm x ∧ x.fh.FileInv ∧ x.fh.hdr.recordSize = totalLen p.cols ∧
    x.len = (totalLen p.cols).toNat

variable {sm : SmManager}

theorem Backed.of_join (backed : (join left right conds).Backed sm) : left.Backed sm ∧ right.Backed sm :=
  ⟨fun p member => backed p (List.mem_append_left _ member), fun p member => backed p (List.mem_append_right _ member)⟩

/-- The join of the executors of two plans. -/
structure Pairs (left right : Plan) (conds : List Condition) (x : NestedLoopJoinExecutor) : Prop where
  lenL : x.left.tupleLen = left.tupleLen
  lenR : x.right.tupleLen = right.tupleLen
  len : x.len = (join left right conds).tupleLen
  cols : x.cols = (join left right conds).recCols
  conds : x.fedConds = conds

theorem Pairs.evaluates {x : NestedLoopJoinExecutor} (pair : left.Pairs right conds x) (a b : RmRecord) :
    x.evalConds (some a) (some b) = allOf (left.evalPair right a b) conds := by
  unfold NestedLoopJoinExecutor.evalConds NestedLoopJoinExecutor.evalCond evalPair
  rw [pair.lenL, pair.cols, pair.conds]
  rfl

theorem convert_pair (conds : List Condition) {l r : Executor} (builtL : convertPlanExecutor sm left = .ok l)
    (colsL : l.cols = some left.recCols) (builtR : convertPlanExecutor sm right = .ok r)
    (colsR : r.cols = some right.recCols)
    (lenL : l.tupleLen = left.tupleLen) (lenR : r.tupleLen = right.tupleLen) :
    ∃ x : NestedLoopJoinExecutor, x.left = l ∧ x.right = r ∧
      convertPlanExecutor sm (.join left right conds) = .ok x.executor ∧ left.Pairs right conds x := by
  refine ⟨⟨l, r, (l.tupleLen + r.tupleLen) % 18446744073709551616,
    left.recCols ++ shifted l.tupleLen right.recCols, conds⟩, rfl, rfl, ?_, lenL, lenR, ?_, ?_, rfl⟩
  · simp only [convertPlanExecutor, builtL, builtR, NestedLoopJoinExecutor.new, colsL, colsR]
    rfl
  · simp only [lenL, lenR, tupleLen]
  · simp only [lenL, recCols]

/-- The executor of a plan has these columns and lengths, and that of a careful one is tame. -/
theorem convert_tame (whole : plan.Whole) (laid : plan.Laid) (backed : plan.Backed sm) :
    ∃ E, convertPlanExecutor sm plan = .ok E ∧ E.cols = some plan.recCols ∧ E.tupleLen = plan.tupleLen ∧
      (plan.Careful → ∃ started placed, E.Tame IsRmdbError plan.Gives started placed) := by
  induction plan with
  | null => exact whole.elim
  | projection => exact whole.elim
  | sort => exact whole.elim
  | scan p =>
    obtain ⟨x, opens, inv, size, len⟩ := backed p List.mem_cons_self
    have evaluates (r : RmRecord) : x.evalConds (some r) = evalRows p.cols r p.conds := by
      rw [SeqScanExecutor.evalConds, opens.conds, evalRows]
      congr 1
      funext c
      rw [SeqScanExecutor.evalCond, evalRow, opens.cols]
    have sized : ∀ rid r, x.fh.records rid = some r → (r.length : Int) = totalLen p.cols :=
      fun _ _ live => (inv.record_length live).trans size
    refine ⟨x.executor, convert_scan opens, congrArg some opens.cols, len, fun careful => ?_⟩
    have looks : x.Looks IsRmdbError := fun rid r live => by
      rw [evaluates]
      exact evalRows_orderly_iff.mpr (careful r (sized rid r live))
    refine ⟨_, _, (SeqScanExecutor.tame inv looks).mono ?_⟩
    rintro t ⟨rid, live, holds⟩
    exact ⟨sized rid t live, (evaluates t).symm.trans holds⟩
  | join left right conds ihLeft ihRight =>
    obtain ⟨l, builtL, colsL, lenL, tameL⟩ := ihLeft whole.1 laid.of_join.1 backed.of_join.1
    obtain ⟨r, builtR, colsR, lenR, tameR⟩ := ihRight whole.2 laid.of_join.2 backed.of_join.2
    obtain ⟨x, rfl, rfl, built, pair⟩ := convert_pair conds builtL colsL builtR colsR lenL lenR
    refine ⟨x.executor, built, congrArg some pair.cols, pair.len, fun careful => ?_⟩
    obtain ⟨startedL, placedL, tameL⟩ := tameL careful.1
    obtain ⟨startedR, placedR, fresh, tameR⟩ : ∃ startedR placedR, startedR x.right.fresh ∧
        ((∃ a, left.Gives a) → x.right.Tame IsRmdbError right.Gives startedR placedR) := by
      by_cases given : ∃ a, left.Gives a
      · obtain ⟨startedR, placedR, tameR⟩ := tameR (careful.2.1 given)
        exact ⟨startedR, placedR, tameR.fresh, fun _ => tameR⟩
      · exact ⟨fun _ => True, fun _ => True, trivial, fun some => absurd some given⟩
    have sizes : ∀ a b, left.Gives a → right.Gives b → a.length = left.tupleLen ∧ b.length = right.tupleLen :=
      fun a b givenL givenR => ⟨length_of_gives laid.of_join.1 careful.1 givenL,
        length_of_gives laid.of_join.2 (careful.2.1 ⟨a, givenL⟩) givenR⟩
    have looks : x.Looks IsRmdbError left.Gives right.Gives := by
      intro a b givenL givenR
      obtain ⟨sizeL, sizeR⟩ := sizes a b givenL givenR
      obtain ⟨narrow, upTo⟩ := careful.2.2 a b givenL givenR
      rw [pair.evaluates]
      exact ⟨lenL ▸ lenR ▸ narrow, (evalPairs_orderly_iff sizeL sizeR).mpr upTo⟩
    have tame := NestedLoopJoinExecutor.tame tameL tameR looks
      (fun a b givenL givenR => lenL ▸ lenR ▸ sizes a b givenL givenR) fresh
    refine ⟨_, _, tame.mono ?_⟩
    rintro t ⟨a, b, givenL, givenR, holds, rfl⟩
    exact ⟨a, b, givenL, givenR, (pair.evaluates a b).symm.trans holds, rfl⟩

end Plan

end Rmdb
