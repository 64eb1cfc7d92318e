import Rmdb.Execution.Finite
import Rmdb.Record.RecordMap

namespace Rmdb

/-- Whether a `NestedLoopJoinExecutor` is what the calls on the root get to. -/
def Plan.hasJoin : Plan → Bool
  | .join _ _ _ => true
  | .projection subplan _ => subplan.hasJoin
  | _ => false

/-- A state that is over, or that `beginTuple` does not tell from a new one. -/
def Fit {E : Executor} (W : Lockstep E) (s : E.State) : Prop := E.isEnd s ≠ .ok true → W.idle s E.fresh

/-- An executor that can be started again as long as it is not over. -/
structure Restarts (E : Executor) where
  lockstep : Lockstep E
  fresh : lockstep.idle E.fresh E.fresh
  begins : ∀ {s t fuel}, E.beginTuple fuel s = .ok t → Fit lockstep t
  steps : ∀ {s t fuel}, Fit lockstep s → E.nextTuple fuel s = .ok t → Fit lockstep t

namespace Restarts
variable {E : Executor} (V : Restarts E)

theorem fit {s : E.State} (reached : E.Reached s) : Fit V.lockstep s := by
  induction reached with
  | fresh => exact fun _ => V.fresh
  | beginTuple _ run _ => exact V.begins run
  | nextTuple _ run ih => exact V.steps ih run

/-- One run next to itself: the loops of a join keep their children fit. -/
def diagonal : Lockstep E where
  idle s t := s = t
  live s t := s = t ∧ Fit V.lockstep s
  idle_of_live live := live.1
  begins {s t} same fuel := by
    subst same
    exact Agree.self _ fun u run => V.begins run
  steps {s t} live fuel := by
    obtain ⟨same, fit⟩ := live
    subst same
    exact Agree.self _ fun u run => V.steps fit run
  isEnd live := by rw [live.1]
  next live _ := by rw [live.1]

end Restarts

def SeqScanExecutor.restarts (x : SeqScanExecutor) : Restarts x.executor where
  lockstep := x.lockstep
  fresh := trivial
  begins _ _ := trivial
  steps _ _ _ := trivial

def Executor.stubRestarts : Restarts Executor.stub where
  lockstep := Executor.stubLockstep
  fresh := trivial
  begins _ _ := trivial
  steps _ _ _ := trivial

def ProjectionExecutor.restarts (x : ProjectionExecutor) (V : Restarts x.prev) : Restarts x.executor where
  lockstep := x.lockstep V.lockstep
  fresh := V.fresh
  begins := V.begins
  steps := V.steps

namespace NestedLoopJoinExecutor
variable {x : NestedLoopJoinExecutor}

/-- Once `isend` is set no call resets it. -/
theorem beginTuple_isend {s t : x.State} {fuel : Nat} (run : x.beginTuple fuel s = .ok t) (ended : s.isend = true) :
    t.isend = true := by
  obtain ⟨l, _, run⟩ := bind_eq_ok_iff.mp run
  obtain ⟨finished, isEnd, run⟩ := bind_eq_ok_iff.mp run
  cases finished with
  | true =>
    obtain ⟨isend, again, run⟩ := bind_eq_ok_iff.mp run
    rw [isEnd] at again
    cases again
    cases run
    rfl
  | false =>
    obtain ⟨r, _, run⟩ := bind_eq_ok_iff.mp run
    obtain ⟨⟨found, l₁, r₁⟩, loop, run⟩ := bind_eq_ok_iff.mp run
    cases found with
    | true =>
      cases run
      exact ended
    | false =>
      obtain ⟨isend, atEnd, run⟩ := bind_eq_ok_iff.mp run
      cases run
      have finished : x.left.isEnd l₁ = .ok true := beginLoop_settled loop
      have again := lift_eq_ok.mp atEnd
      rw [finished] at again
      cases again
      rfl

theorem nextTuple_isend {s t : x.State} {fuel : Nat} (run : x.nextTuple fuel s = .ok t) (ended : s.isend = true) :
    t.isend = true := by
  obtain ⟨finished, _, run⟩ := bind_eq_ok_iff.mp run
  cases finished with
  | true => cases run
  | false =>
    obtain ⟨r, _, run⟩ := bind_eq_ok_iff.mp run
    obtain ⟨⟨found, r₁⟩, _, run⟩ := bind_eq_ok_iff.mp run
    cases found with
    | true =>
      cases run
      exact ended
    | false =>
      obtain ⟨l, _, run⟩ := bind_eq_ok_iff.mp run
      obtain ⟨⟨found, l₁, r₂⟩, _, run⟩ := bind_eq_ok_iff.mp run
      cases found with
      | true =>
        cases run
        exact ended
      | false =>
        cases run
        rfl

theorem fit_of_live {V : Restarts x.left} {V' : Restarts x.right} {t : x.State}
    (live : Live V.diagonal V'.diagonal t t) :
    Fit (E := x.executor) (lockstep V.lockstep V'.lockstep) t := by
  intro running
  have isend : t.isend = false := by
    cases value : t.isend with
    | true => exact absurd (congrArg Except.ok value) running
    | false => rfl
  obtain ⟨left, right⟩ := live.running isend
  refine ⟨isend, live.paired.left.2 ?_, (live.paired.right left).2 ?_⟩
  · rw [left]
    simp
  · rw [right]
    simp

/-- A state of the join in which `isend` is not set has children that are fit to restart. -/
def restarts (V : Restarts x.left) (V' : Restarts x.right) : Restarts x.executor where
  lockstep := lockstep V.lockstep V'.lockstep
  fresh := ⟨rfl, V.fresh, V'.fresh⟩
  begins {s t fuel} run := by
    have agree := beginTuple_agree (L := V.diagonal) (R := V'.diagonal) fuel (s := s) (t := s) rfl rfl rfl
    exact fit_of_live (agree.of_ok run run)
  steps {s t fuel} fit run := by
    cases isend : s.isend with
    | true =>
      intro running
      exact absurd (congrArg Except.ok (nextTuple_isend run isend)) running
    | false =>
      obtain ⟨_, left, right⟩ := fit (by simp [executor, isend])
      have paired : Paired V.diagonal V'.diagonal s.left s.left s.right s.right :=
        ⟨⟨rfl, fun _ => left⟩, rfl, fun _ => ⟨rfl, fun _ => right⟩⟩
      exact fit_of_live ((nextTuple_agree fuel rfl paired).of_ok run run)

end NestedLoopJoinExecutor

/-- The record files are as the record operations leave them. -/
def SmManager.Sound (sm : SmManager) : Prop := ∀ tabName fh, sm.fhs tabName = some fh → fh.FileInv

namespace Portal

/-- The trees `convert_plan_executor` builds. -/
inductive Built (sm : SmManager) : Plan → Executor → Prop
  | seqScan {p : ScanPlan} {x : SeqScanExecutor} :
      SeqScanExecutor.new sm p.tabName p.conds = .ok x → Built sm (.scan p) x.executor
  | indexScan {p : ScanPlan} : Built sm (.scan p) .stub
  | join {left right : Plan} {conds : List Condition} {x : NestedLoopJoinExecutor} : Built sm left x.left →
      Built sm right x.right → Built sm (.join left right conds) x.executor
  | projection {subplan : Plan} {selCols : List TabCol} {x : ProjectionExecutor} : Built sm subplan x.prev →
      Built sm (.projection subplan selCols) x.executor
  | sort {subplan : Plan} {selCol : TabCol} {isDesc : Bool} : Built sm (.sort subplan selCol isDesc) .stub

theorem built_of_convert {sm : SmManager} {plan : Plan} {E : Executor} (run : convertPlanExecutor sm plan = .ok E) :
    Built sm plan E := by
  induction plan generalizing E with
  | null => cases run
  | scan p =>
    rw [convertPlanExecutor] at run
    split at run
    · split at run
      · rename_i made
        cases run
        exact .seqScan made
      · cases run
    · split at run
      · cases run
        exact .indexScan
      · cases run
  | join left right conds ihLeft ihRight =>
    rw [convertPlanExecutor] at run
    split at run
    · cases run
    · cases run
    · rename_i l r builtLeft builtRight
      split at run
      · rename_i x made
        cases run
        unfold NestedLoopJoinExecutor.new at made
        split at made
        · cases made
          exact .join (ihLeft builtLeft) (ihRight builtRight)
        · cases made
      · cases run
  | projection subplan selCols ih =>
    rw [convertPlanExecutor] at run
    split at run
    · cases run
    · rename_i prev builtPrev
      split at run
      · rename_i x made
        cases run
        unfold ProjectionExecutor.new at made
        split at made
        · cases made
        · split at made
          · cases made
            exact .projection (ih builtPrev)
          · cases made
      · cases run
  | sort subplan selCol isDesc ih =>
    rw [convertPlanExecutor] at run
    split at run
    · cases run
    · cases run
      exact .sort

variable {sm : SmManager} {plan : Plan} {E : Executor}

/-- Every tree restarts unless it is over, and without a join even then. -/
theorem Built.restarts (built : Built sm plan E) :
    ∃ V : Restarts E, plan.hasJoin = false → ∀ s, V.lockstep.idle s E.fresh := by
  induction built with
  | @seqScan _ x _ => exact ⟨x.restarts, fun _ _ => trivial⟩
  | indexScan => exact ⟨Executor.stubRestarts, fun _ _ => trivial⟩
  | join _ _ ihLeft ihRight =>
    obtain ⟨V, _⟩ := ihLeft
    obtain ⟨V', _⟩ := ihRight
    exact ⟨NestedLoopJoinExecutor.restarts V V', fun noJoin => by cases noJoin⟩
  | @projection _ _ x _ ih =>
    obtain ⟨V, always⟩ := ih
    exact ⟨x.restarts V, always⟩
  | sort => exact ⟨Executor.stubRestarts, fun _ _ => trivial⟩

/-- A join that is over stays over. -/
theorem Built.stays_over (built : Built sm plan E) (joined : plan.hasJoin = true) {s t : E.State} {fuel : Nat}
    (finished : E.isEnd s = .ok true) (run : E.beginTuple fuel s = .ok t) : E.isEnd t = .ok true := by
  induction built with
  | seqScan _ => cases joined
  | indexScan => cases joined
  | join _ _ _ _ =>
    have isend : s.isend = true := Except.ok.inj finished
    exact congrArg Except.ok (NestedLoopJoinExecutor.beginTuple_isend run isend)
  | projection _ ih => exact ih joined finished run
  | sort => cases joined

theorem Built.bounded (built : Built sm plan E) (sound : sm.Sound) : Nonempty (Bounded E) := by
  induction built with
  | @seqScan p x made =>
    have file : sm.fhs p.tabName = some x.fh := by
      unfold SeqScanExecutor.new at made
      obtain ⟨tab, _, made⟩ := bind_eq_ok_iff.mp made
      split at made
      · cases made
      · cases made
      · rename_i found _
        cases made
        exact found
    exact ⟨SeqScanExecutor.bounded (sound _ _ file)⟩
  | indexScan => exact ⟨Executor.stubBounded⟩
  | join _ _ ihLeft ihRight =>
    obtain ⟨L⟩ := ihLeft
    obtain ⟨R⟩ := ihRight
    exact ⟨NestedLoopJoinExecutor.bounded L R⟩
  | @projection _ _ x _ ih =>
    obtain ⟨B⟩ := ih
    exact ⟨x.bounded B⟩
  | sort => exact ⟨Executor.stubBounded⟩

/-- A tree without a join, and a tree that is not at its end, start like a new one. -/
theorem Built.restart_eq (built : Built sm plan E) {s : E.State} (reached : E.Reached s)
    (condition : plan.hasJoin = false ∨ E.isEnd s ≠ .ok true) (fuel : Nat) :
    E.traverse fuel s = E.traverse fuel E.fresh := by
  obtain ⟨V, always⟩ := built.restarts
  apply V.lockstep.traverse_eq
  rcases condition with noJoin | running
  · exact always noJoin s
  · exact V.fit reached running

/-- A tree with a join that is at its end is over for good. -/
theorem Built.restart_empty (built : Built sm plan E) (joined : plan.hasJoin = true) {s : E.State} {fuel : Nat}
    {tuples : List (Option RmRecord)} (finished : E.isEnd s = .ok true) (run : E.traverse fuel s = .ok tuples) :
        tuples = [] := by
  obtain ⟨t, begun, run⟩ := bind_eq_ok_iff.mp run
  have still := built.stays_over joined finished begun
  cases fuel with
  | zero => cases run
  | succ turns =>
    rw [Executor.collect, still] at run
    cases run
    rfl

/-- When `beginTuple` is a restart. Whatever calls came before, a tree without a join
and a tree that is not at its end give again what they give at first. A tree with a join
that is at its end gives no tuple any more. A traversal always comes to its end. -/
theorem beginTuple_restarts {s : E.State} (sound : sm.Sound) (built : convertPlanExecutor sm plan = .ok E)
    (reached : E.Reached s) :
    (plan.hasJoin = false ∨ E.isEnd s ≠ .ok true → ∀ fuel, E.traverse fuel s = E.traverse fuel E.fresh) ∧
      (plan.hasJoin = true ∧ E.isEnd s = .ok true → ∀ fuel tuples, E.traverse fuel s = .ok tuples → tuples = []) ∧
      ∃ enough, ∀ fuel, enough ≤ fuel → E.traverse fuel s ≠ .error .outOfFuel := by
  have tree := built_of_convert built
  refine ⟨tree.restart_eq reached, ?_, ?_⟩
  · intro ⟨joined, finished⟩ fuel tuples run
    exact tree.restart_empty joined finished run
  · obtain ⟨B⟩ := tree.bounded sound
    refine ⟨B.bound + 1, fun fuel enough stop => ?_⟩
    have returns := B.traverse s (by omega : B.bound < fuel)
    rw [stop] at returns
    exact returns rfl

/-- A file with one four-byte record. -/
def oneRecord (v : UInt8) : RmFile FlatFile :=
  match RmManager.created 4 3 (FlatFile.blank 0) with
  | .ok h f => stateAfter (RmFileHandle.insertRecord fun _ => v) ⟨h, f⟩
  | .error _ f => ⟨⟨3, .create 4⟩, f⟩

theorem oneRecord_inv (v : UInt8) : (oneRecord v).FileInv := by
  have created := RecordRun.created (show RmManager.created 4 3 (FlatFile.blank 0) = _ from rfl)
  have inserted := created.insert (run_of_value (x := RmFileHandle.insertRecord fun _ => v) (a := ⟨1, 0⟩) (by rfl))
  exact inserted.holds.1

/-- The tables `a` and `b` with one column and one row each. -/
def twoTables : SmManager where
  db := ⟨"d", ["a", "b"].map fun t => (t, ⟨t, [⟨t, "x", .int, 4, 0, false⟩], []⟩)⟩
  fhs t := if t = "a" then some (oneRecord 7) else if t = "b" then some (oneRecord 9) else none

theorem twoTables_sound : twoTables.Sound := by
  intro tabName fh found
  simp only [twoTables] at found
  split at found
  · cases found
    exact oneRecord_inv 7
  · split at found
    · cases found
      exact oneRecord_inv 9
    · cases found

/-- What the planner makes of `select * from a, b`. -/
def crossPlan : Plan :=
  .join (.scan ⟨.seqScan, "b", [⟨"b", "x", .int, 4, 0, false⟩], [], 4, []⟩)
    (.scan ⟨.seqScan, "a", [⟨"a", "x", .int, 4, 0, false⟩], [], 4, []⟩) []

def crossJoin : NestedLoopJoinExecutor where
  left := SeqScanExecutor.executor ⟨oneRecord 9, [⟨"b", "x", .int, 4, 0, false⟩], 4, []⟩
  right := SeqScanExecutor.executor ⟨oneRecord 7, [⟨"a", "x", .int, 4, 0, false⟩], 4, []⟩
  len := 8
  cols := [⟨"b", "x", .int, 4, 0, false⟩, ⟨"a", "x", .int, 4, 4, false⟩]
  fedConds := []

theorem scan_a : SeqScanExecutor.new twoTables "a" [] = .ok ⟨oneRecord 7, [⟨"a", "x", .int, 4, 0, false⟩], 4, []⟩ := by
  simp [SeqScanExecutor.new, twoTables, DbMeta.getTable, sizeT]
  rfl

theorem scan_b : SeqScanExecutor.new twoTables "b" [] = .ok ⟨oneRecord 9, [⟨"b", "x", .int, 4, 0, false⟩], 4, []⟩ := by
  simp [SeqScanExecutor.new, twoTables, DbMeta.getTable, List.lookup_cons, sizeT]
  rfl

theorem crossJoin_new : NestedLoopJoinExecutor.new crossJoin.left crossJoin.right [] = .ok crossJoin := by
  simp [NestedLoopJoinExecutor.new, SeqScanExecutor.executor, crossJoin, wrapInt]

theorem crossJoin_built : convertPlanExecutor twoTables crossPlan = .ok crossJoin.executor := by
  have join := crossJoin_new
  simp only [crossJoin] at join
  simp only [convertPlanExecutor, crossPlan, scan_a, scan_b, join]
  rfl

/-- Their product has one row. -/
theorem crossJoin_first : crossJoin.executor.traverse 5 crossJoin.executor.fresh =
    .ok [some [9, 9, 9, 9, 7, 7, 7, 7]] := by
  decide +kernel

/-- After `beginTuple` alone the join can be started again. -/
theorem beginTuple_restarts_begun : ∃ s : crossJoin.State, crossJoin.executor.Reached s ∧ s.isend = false ∧
    crossJoin.executor.traverse 5 s = .ok [some [9, 9, 9, 9, 7, 7, 7, 7]] := by
  have begun : (do
      let s ← crossJoin.beginTuple 5 crossJoin.executor.fresh
      return s.isend) = .ok false := by
    decide +kernel
  obtain ⟨s, begun, run⟩ := bind_eq_ok_iff.mp begun
  have running : s.isend = false := Except.ok.inj run
  have reached : crossJoin.executor.Reached s := .beginTuple .fresh begun
  refine ⟨s, reached, running, ?_⟩
  rw [(beginTuple_restarts twoTables_sound crossJoin_built reached).1 (Or.inr ?_) 5, crossJoin_first]
  change Except.ok s.isend ≠ .ok true
  rw [running]
  simp

/-- After a whole traversal it gives nothing, however often it is started. -/
theorem beginTuple_not_restart : ¬∀ (sm : SmManager) (plan : Plan) (E : Executor) (s : E.State), sm.Sound →
    convertPlanExecutor sm plan = .ok E → E.Reached s → ∀ tuples, (∃ fuel, E.traverse fuel E.fresh = .ok tuples) →
    ∃ fuel, E.traverse fuel s = .ok tuples := by
  intro restarts
  have whole : (do
      let s ← crossJoin.beginTuple 5 crossJoin.executor.fresh
      let s ← crossJoin.nextTuple 5 s
      return s.isend) = .ok true := by
    decide +kernel
  obtain ⟨s, begun, run⟩ := bind_eq_ok_iff.mp whole
  obtain ⟨t, moved, run⟩ := bind_eq_ok_iff.mp run
  have isend : t.isend = true := Except.ok.inj run
  have finished : crossJoin.executor.isEnd t = .ok true := congrArg Except.ok isend
  have reached : crossJoin.executor.Reached t := .nextTuple (.beginTuple .fresh begun) moved
  obtain ⟨fuel, again⟩ := restarts twoTables crossPlan crossJoin.executor t twoTables_sound crossJoin_built reached _
    ⟨5, crossJoin_first⟩
  cases (built_of_convert crossJoin_built).restart_empty rfl finished again

end Portal

end Rmdb
