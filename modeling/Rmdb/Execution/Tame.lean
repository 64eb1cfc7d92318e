import Rmdb.Execution.Calm
import Rmdb.Execution.Update

namespace Rmdb
open RmScan

/-! Executors that are called the way `select_from`, the portal and the joins call them. -/

namespace Executor
variable {allowed : Error → Prop} {E : Executor} {gives : RmRecord → Prop} {started placed : E.State → Prop}

/-- No call throws anything else, provided that `beginTuple` comes first and nothing but it is called at the end.
`beginTuple` may be called in the states `started` and leads to the states `placed`. Such a state is at the end or at a
tuple, which `Next` gives unless a record cannot be that long. -/
structure Tame (allowed : Error → Prop) (E : Executor) (gives : RmRecord → Prop) (started placed : E.State → Prop) :
    Prop where
  fresh : started E.fresh
  again : ∀ s, placed s → started s
  beginTuple : ∀ fuel s, started s → Ends (Stop.Only allowed) placed (E.beginTuple fuel s)
  nextTuple : ∀ fuel s, placed s → E.isEnd s = .ok false → Ends (Stop.Only allowed) placed (E.nextTuple fuel s)
  isEnd : ∀ s, placed s → ∃ ended, E.isEnd s = .ok ended
  next : ∀ s, placed s → E.isEnd s = .ok false → ∃ t, gives t ∧ (E.tupleLen ≤ intMax → E.next s = .ok (some t))

theorem Tame.mono {gives' : RmRecord → Prop} (tame : E.Tame allowed gives started placed)
    (implies : ∀ t, gives t → gives' t) : E.Tame allowed gives' started placed where
  __ := tame
  next s here runs := by
    obtain ⟨t, given, read⟩ := tame.next s here runs
    exact ⟨t, implies t given, read⟩

theorem Tame.collect (tame : E.Tame allowed gives started placed) (narrow : ∀ t, gives t → E.tupleLen ≤ intMax)
    (fuel turns : Nat) {s : E.State} (here : placed s) : Stops allowed (E.collect fuel turns s) := by
  induction turns generalizing s with
  | zero => trivial
  | succ turns ih =>
    obtain ⟨ended, run⟩ := tame.isEnd s here
    rw [Executor.collect, run]
    cases ended with
    | true => trivial
    | false =>
      obtain ⟨t, given, read⟩ := tame.next s here run
      simp only [lift_ok, ok_bind, Bool.false_eq_true, if_false, read (narrow t given)]
      refine Ends.bind (tame.nextTuple fuel s here run) fun u _ there => ?_
      exact Ends.bind (ih there) fun _ _ _ => trivial

theorem Tame.traverse (tame : E.Tame allowed gives started placed) (narrow : ∀ t, gives t → E.tupleLen ≤ intMax)
    (fuel : Nat) : Stops allowed (E.traverse fuel E.fresh) :=
  Ends.bind (tame.beginTuple fuel _ tame.fresh) fun _ _ here => tame.collect narrow fuel fuel here

end Executor

namespace SeqScanExecutor
variable {allowed : Error → Prop} {x : SeqScanExecutor} {later : List Rid} {scan : RmScan} {s : State}

theorem isEnd_over (ended : s.scan = some atEnd) : x.executor.isEnd s = .ok true := by
  change SeqScanExecutor.isEnd s = _
  unfold SeqScanExecutor.isEnd
  rw [ended]
  rfl

/-- At the end, or at one of these records, which satisfies the conditions. -/
def Placed (x : SeqScanExecutor) (later : List Rid) (s : State) : Prop :=
  s.scan = some atEnd ∨ ∃ rid rest, (rid :: rest).Sublist later ∧ s = ⟨some ⟨rid⟩, some rid⟩ ∧
    Position x.fh ⟨rid⟩ (rid :: rest) ∧ x.evalConds (x.fh.records rid) = .ok true

theorem Placed.mono {later' : List Rid} (placed : x.Placed later s) (sub : later.Sublist later') : x.Placed later' s :=
  placed.imp_right fun ⟨rid, rest, inside, here⟩ => ⟨rid, rest, inside.trans sub, here⟩

/-- The conditions throw nothing else on the records of the file. -/
def Looks (allowed : Error → Prop) (x : SeqScanExecutor) : Prop :=
  ∀ rid r, x.fh.records rid = some r → Throws allowed (x.evalConds (some r))

section
variable (inv : x.fh.FileInv) (looks : x.Looks allowed)
include inv looks

theorem search_placed (turns : Nat) (rid : Option Rid) (here : Position x.fh scan later) :
    Ends (Stop.Only allowed) (x.Placed later) (x.search turns scan rid) := by
  induction turns generalizing scan later rid with
  | zero => trivial
  | succ turns ih =>
    cases later with
    | nil =>
      cases (here : scan = atEnd)
      exact Or.inl rfl
    | cons first rest =>
      have at_first : scan = ⟨first⟩ := here.1
      subst at_first
      obtain ⟨r, live⟩ := Option.isSome_iff_exists.mp here.2.1
      have read : reading x.fh (RmFileHandle.getRecord first) = .ok (x.fh.records first) := by
        rw [reading, inv.getRecord here.2.2.1]
      obtain ⟨following, run, there⟩ := next_spec inv.wellFormed here
      have moved : reading x.fh (RmScan.next ⟨first⟩) = .ok following := by
        rw [reading, run]
      rw [search, running_of_position here]
      simp only [Bool.false_eq_true, if_false, read, lift_ok, ok_bind]
      refine Ends.bind (throws_lift_iff.mpr (live ▸ looks first r live)) fun holds evaluated _ => ?_
      cases holds with
      | true => exact Or.inr ⟨first, rest, List.Sublist.refl _, rfl, here, lift_eq_ok.mp evaluated⟩
      | false =>
        simp only [Bool.false_eq_true, if_false, moved, lift_ok, ok_bind]
        exact (ih _ there).mono fun _ placed => placed.mono (List.sublist_cons_self _ _)

theorem beginTuple_placed (fuel : Nat) (s : State) :
    Ends (Stop.Only allowed) (x.Placed (rids x.fh)) (x.beginTuple fuel s) := by
  obtain ⟨scan, run, here⟩ := new_spec inv.wellFormed
  have made : reading x.fh RmScan.new = .ok scan := by
    rw [reading, run]
  simp only [beginTuple, made, lift_ok, ok_bind]
  exact search_placed inv looks fuel s.rid here

theorem nextTuple_placed (fuel : Nat) {rid : Rid} {rest : List Rid} (here : Position x.fh ⟨rid⟩ (rid :: rest)) :
    Ends (Stop.Only allowed) (x.Placed rest) (x.nextTuple fuel ⟨some ⟨rid⟩, some rid⟩) := by
  obtain ⟨following, run, there⟩ := next_spec inv.wellFormed here
  have moved : reading x.fh (RmScan.next ⟨rid⟩) = .ok following := by
    rw [reading, run]
  simp only [nextTuple, moved, lift_ok, ok_bind]
  exact search_placed inv looks fuel _ there

theorem tame : x.executor.Tame allowed (fun t => ∃ rid, x.fh.records rid = some t ∧ x.evalConds (some t) = .ok true)
    (fun _ => True) (x.Placed (rids x.fh)) where
  fresh := trivial
  again _ _ := trivial
  beginTuple fuel s _ := beginTuple_placed inv looks fuel s
  nextTuple fuel s here runs := by
    rcases here with ended | ⟨rid, rest, sub, rfl, here, _⟩
    · cases (isEnd_over ended).symm.trans runs
    · exact (nextTuple_placed inv looks fuel here).mono fun _ placed =>
        placed.mono ((List.sublist_cons_self _ _).trans sub)
  isEnd s here := by
    rcases here with ended | ⟨rid, rest, _, rfl, here, _⟩
    · exact ⟨true, isEnd_over ended⟩
    · exact ⟨false, congrArg Except.ok (running_of_position here)⟩
  next s here runs := by
    rcases here with ended | ⟨rid, rest, _, rfl, here, holds⟩
    · cases (isEnd_over ended).symm.trans runs
    · obtain ⟨r, live⟩ := Option.isSome_iff_exists.mp here.2.1
      refine ⟨r, ⟨rid, live, live ▸ holds⟩, fun _ => ?_⟩
      change reading x.fh (RmFileHandle.getRecord rid) = _
      rw [reading, inv.getRecord here.2.2.1, live]

end

end SeqScanExecutor

theorem dataAt_whole {t : RmRecord} {n : Nat} (length : t.length = n) : dataAt (some t) 0 n = .ok t := by
  refine bytesAt_ok_iff.mpr ⟨⟨le_rfl, Int.natCast_nonneg _, by omega⟩, ?_⟩
  rw [Int.toNat_natCast, ← length, Int.toNat_zero, List.drop_zero, List.take_length]

namespace NestedLoopJoinExecutor
variable {allowed : Error → Prop} {x : NestedLoopJoinExecutor} {givesL givesR : RmRecord → Prop}
  {startedL placedL : x.left.State → Prop} {startedR placedR : x.right.State → Prop}

/-- Both children stand at tuples, and these match. -/
structure Matched (x : NestedLoopJoinExecutor) (givesL givesR : RmRecord → Prop) (placedL : x.left.State → Prop)
    (placedR : x.right.State → Prop) (l : x.left.State) (r : x.right.State) : Prop where
  left : placedL l
  right : placedR r
  leftRuns : x.left.isEnd l = .ok false
  rightRuns : x.right.isEnd r = .ok false
  tuples : ∃ a b, givesL a ∧ givesR b ∧ x.left.next l = .ok (some a) ∧ x.right.next r = .ok (some b) ∧
    x.evalConds (some a) (some b) = .ok true

/-- The tuples of the children can be made, and the conditions throw nothing else on them. -/
def Looks (allowed : Error → Prop) (x : NestedLoopJoinExecutor) (givesL givesR : RmRecord → Prop) : Prop :=
  ∀ a b, givesL a → givesR b → (x.left.tupleLen ≤ intMax ∧ x.right.tupleLen ≤ intMax) ∧
    Throws allowed (x.evalConds (some a) (some b))

section
variable (left : x.left.Tame allowed givesL startedL placedL) (right : x.right.Tame allowed givesR startedR placedR)
  (looks : x.Looks allowed givesL givesR)
include left right looks

theorem matchRight_placed (fuel turns : Nat) {l : x.left.State} {r : x.right.State} (atLeft : placedL l)
    (runs : x.left.isEnd l = .ok false) (atRight : placedR r) :
    Ends (Stop.Only allowed) (fun out => placedR out.2 ∧
      (out.1 = true → x.Matched givesL givesR placedL placedR l out.2)) (x.matchRight fuel l turns r) := by
  induction turns generalizing r with
  | zero => trivial
  | succ turns ih =>
    obtain ⟨ended, run⟩ := right.isEnd r atRight
    rw [matchRight, run]
    cases ended with
    | true => exact ⟨atRight, fun found => by cases found⟩
    | false =>
      obtain ⟨a, givenL, readL⟩ := left.next l atLeft runs
      obtain ⟨b, givenR, readR⟩ := right.next r atRight run
      obtain ⟨⟨narrowL, narrowR⟩, throws⟩ := looks a b givenL givenR
      simp only [lift_ok, ok_bind, Bool.false_eq_true, if_false, readL narrowL, readR narrowR]
      refine Ends.bind (throws_lift_iff.mpr throws) fun holds evaluated _ => ?_
      cases holds with
      | true =>
        exact ⟨atRight, fun _ => ⟨atLeft, atRight, runs, run, a, b, givenL, givenR, readL narrowL, readR narrowR,
          lift_eq_ok.mp evaluated⟩⟩
      | false => exact Ends.bind (right.nextTuple fuel r atRight run) fun _ _ there => ih there

theorem beginLoop_placed (fuel turns : Nat) {l : x.left.State} {r : x.right.State} (atLeft : placedL l)
    (atRight : placedR r) :
    Ends (Stop.Only allowed) (fun out => (placedL out.2.1 ∧ placedR out.2.2) ∧
      (out.1 = true → x.Matched givesL givesR placedL placedR out.2.1 out.2.2) ∧
      (out.1 = false → x.left.isEnd out.2.1 = .ok true)) (x.beginLoop fuel turns l r) := by
  induction turns generalizing l r with
  | zero => trivial
  | succ turns ih =>
    obtain ⟨ended, run⟩ := left.isEnd l atLeft
    rw [beginLoop, run]
    cases ended with
    | true => exact ⟨⟨atLeft, atRight⟩, (fun found => by cases found), fun _ => run⟩
    | false =>
      simp only [lift_ok, ok_bind, Bool.false_eq_true, if_false]
      refine Ends.bind (matchRight_placed left right looks fuel fuel atLeft run atRight) fun out _ there => ?_
      obtain ⟨found, r⟩ := out
      cases found with
      | true => exact ⟨⟨atLeft, there.1⟩, fun _ => there.2 rfl, fun missed => by cases missed⟩
      | false =>
        refine Ends.bind (left.nextTuple fuel l atLeft run) fun l _ atLeft => ?_
        obtain ⟨ended, run⟩ := left.isEnd l atLeft
        simp only [run, lift_ok, ok_bind]
        cases ended with
        | true => exact ih atLeft there.1
        | false => exact Ends.bind (right.beginTuple fuel r (right.again r there.1)) fun _ _ atRight => ih atLeft atRight

theorem nextLoop_placed (fuel turns : Nat) {l : x.left.State} {r : x.right.State} (atLeft : placedL l)
    (atRight : placedR r) :
    Ends (Stop.Only allowed) (fun out => (placedL out.2.1 ∧ placedR out.2.2) ∧
      (out.1 = true → x.Matched givesL givesR placedL placedR out.2.1 out.2.2)) (x.nextLoop fuel turns l r) := by
  induction turns generalizing l r with
  | zero => trivial
  | succ turns ih =>
    obtain ⟨ended, run⟩ := left.isEnd l atLeft
    rw [nextLoop, run]
    cases ended with
    | true => exact ⟨⟨atLeft, atRight⟩, fun found => by cases found⟩
    | false =>
      simp only [lift_ok, ok_bind, Bool.false_eq_true, if_false]
      refine Ends.bind (right.beginTuple fuel r (right.again r atRight)) fun r _ atRight => ?_
      refine Ends.bind (matchRight_placed left right looks fuel fuel atLeft run atRight) fun out _ there => ?_
      obtain ⟨found, r⟩ := out
      cases found with
      | true => exact ⟨⟨atLeft, there.1⟩, fun _ => there.2 rfl⟩
      | false => exact Ends.bind (left.nextTuple fuel l atLeft run) fun _ _ atLeft => ih atLeft there.1

end

/-- The right child is begun only if the left one has a tuple. -/
def Started (x : NestedLoopJoinExecutor) (givesL : RmRecord → Prop) (startedL : x.left.State → Prop)
    (startedR : x.right.State → Prop) (s : x.State) : Prop :=
  startedL s.left ∧ ((∃ a, givesL a) → startedR s.right)

/-- At two tuples that match, unless `isend` says otherwise. -/
def Placed (x : NestedLoopJoinExecutor) (givesL givesR : RmRecord → Prop) (placedL : x.left.State → Prop)
    (startedR placedR : x.right.State → Prop) (s : x.State) : Prop :=
  x.Started givesL placedL startedR s ∧ (s.isend = false → x.Matched givesL givesR placedL placedR s.left s.right)

theorem tame (left : x.left.Tame allowed givesL startedL placedL)
    (right : (∃ a, givesL a) → x.right.Tame allowed givesR startedR placedR) (looks : x.Looks allowed givesL givesR)
    (size : ∀ a b, givesL a → givesR b → a.length = x.left.tupleLen ∧ b.length = x.right.tupleLen)
    (fresh : startedR x.right.fresh) :
    x.executor.Tame allowed (fun t => ∃ a b, givesL a ∧ givesR b ∧ x.evalConds (some a) (some b) = .ok true ∧ t = a ++ b)
      (x.Started givesL startedL startedR) (x.Placed givesL givesR placedL startedR placedR) where
  fresh := ⟨left.fresh, fun _ => fresh⟩
  again s here := ⟨left.again _ here.1.1, here.1.2⟩
  beginTuple fuel s started := by
    refine Ends.bind (left.beginTuple fuel s.left started.1) fun l _ atLeft => ?_
    obtain ⟨ended, run⟩ := left.isEnd l atLeft
    rw [run]
    cases ended with
    | true => exact ⟨⟨atLeft, started.2⟩, nofun⟩
    | false =>
      obtain ⟨a, given, _⟩ := left.next l atLeft run
      have right := right ⟨a, given⟩
      simp only [lift_ok, ok_bind, Bool.false_eq_true, if_false]
      refine Ends.bind (right.beginTuple fuel s.right (started.2 ⟨a, given⟩)) fun r _ atRight => ?_
      refine Ends.bind (beginLoop_placed left right looks fuel fuel atLeft atRight) fun (found, l, r) _ there => ?_
      obtain ⟨⟨atLeft, atRight⟩, matched, finished⟩ := there
      cases found with
      | true => exact ⟨⟨atLeft, fun _ => right.again r atRight⟩, fun _ => matched rfl⟩
      | false =>
        simp only [Bool.false_eq_true, if_false, finished rfl, lift_ok, ok_bind]
        exact ⟨⟨atLeft, fun _ => right.again r atRight⟩, nofun⟩
  nextTuple fuel s here runs := by
    have matched := here.2 (Except.ok.inj runs)
    obtain ⟨a, _, given, _⟩ := matched.tuples
    have right := right ⟨a, given⟩
    change Ends _ _ (x.nextTuple fuel s)
    simp only [nextTuple, matched.leftRuns, lift_ok, ok_bind, Bool.false_eq_true, if_false]
    refine Ends.bind (right.nextTuple fuel s.right matched.right matched.rightRuns) fun r _ atRight => ?_
    refine Ends.bind (matchRight_placed left right looks fuel fuel matched.left matched.leftRuns atRight)
      fun (found, r) _ there => ?_
    cases found with
    | true => exact ⟨⟨matched.left, fun _ => right.again r there.1⟩, fun _ => there.2 rfl⟩
    | false =>
      refine Ends.bind (left.nextTuple fuel s.left matched.left matched.leftRuns) fun l _ atLeft => ?_
      refine Ends.bind (nextLoop_placed left right looks fuel fuel atLeft there.1) fun (found, l, r) _ there => ?_
      obtain ⟨⟨atLeft, atRight⟩, matched⟩ := there
      cases found with
      | true => exact ⟨⟨atLeft, fun _ => right.again r atRight⟩, fun _ => matched rfl⟩
      | false => exact ⟨⟨atLeft, fun _ => right.again r atRight⟩, nofun⟩
  isEnd s _ := ⟨s.isend, rfl⟩
  next s here runs := by
    obtain ⟨a, b, givenL, givenR, readL, readR, holds⟩ := (here.2 (Except.ok.inj runs)).tuples
    obtain ⟨sizeL, sizeR⟩ := size a b givenL givenR
    refine ⟨a ++ b, ⟨a, b, givenL, givenR, holds, rfl⟩, fun narrow => ?_⟩
    change x.next s = _
    simp only [next, readL, readR, ok_bind, if_neg (not_lt.mpr (show (x.len : Int) ≤ intMax from narrow)),
      dataAt_whole sizeL, dataAt_whole sizeR]
    rfl

end NestedLoopJoinExecutor

namespace ProjectionExecutor
variable {allowed : Error → Prop} {x : ProjectionExecutor} {gives : RmRecord → Prop}
  {started placed : x.prev.State → Prop}

theorem tame (prev : x.prev.Tame allowed gives started placed)
    (copies : ∀ t, gives t → x.prev.tupleLen ≤ intMax ∧ x.len ≤ intMax ∧
      ∀ col ∈ x.selected, Fits col.offset col.len t.length) :
    x.executor.Tame allowed (fun _ => x.len ≤ intMax) started placed where
  fresh := prev.fresh
  again := prev.again
  beginTuple := prev.beginTuple
  nextTuple := prev.nextTuple
  isEnd := prev.isEnd
  next s here runs := by
    obtain ⟨t, given, read⟩ := prev.next s here runs
    obtain ⟨narrow, fits, inside⟩ := copies t given
    obtain ⟨parts, copied⟩ := mapM_ok_iff.mpr fun col member => ⟨_, bytesAt_ok_iff.mpr ⟨inside col member, rfl⟩⟩
    refine ⟨parts.flatten, fits, fun _ => ?_⟩
    have copied : (x.selected.mapM fun col => dataAt (some t) col.offset col.len) = .ok parts := copied
    change x.next s = _
    simp only [next, read narrow, ok_bind, if_neg (not_lt.mpr fits), copied]
    rfl

end ProjectionExecutor

end Rmdb
