import Rmdb.Execution.Restart
import Rmdb.Execution.Statement
import Rmdb.Record.Raises

namespace Rmdb
open RmFileHandle

/-! Which exceptions the executors throw. -/

/-- An exception of the kind, or the fuel is used up. -/
def Stop.Only (allowed : Error → Prop) : Stop → Prop
  | .outOfFuel => True
  | .thrown e => allowed e

/-- A call that throws nothing else. -/
abbrev Throws {α : Type} (allowed : Error → Prop) (x : Except Error α) : Prop := Ends allowed (fun _ => True) x

/-- The same of a call with loops. -/
abbrev Stops {α : Type} (allowed : Error → Prop) (x : Except Stop α) : Prop :=
  Ends (Stop.Only allowed) (fun _ => True) x

section
variable {α β : Type} {allowed : Error → Prop}

theorem throws_lift_iff {x : Except Error α} : Stops allowed (liftM x : Except Stop α) ↔ Throws allowed x := by
  cases x <;> exact Iff.rfl

theorem Stops.bind {x : Except Stop α} {f : α → Except Stop β} (first : Stops allowed x)
    (rest : ∀ a, x = .ok a → Stops allowed (f a)) : Stops allowed (x >>= f) :=
  Ends.bind first fun a run _ => rest a run

/-- A call without loops, and what follows it. -/
theorem Throws.bind {x : Except Error α} {f : α → Except Stop β} (first : Throws allowed x)
    (rest : ∀ a, x = .ok a → Stops allowed (f a)) : Stops allowed ((liftM x : Except Stop α) >>= f) :=
  Stops.bind (throws_lift_iff.mpr first) fun a run => rest a (lift_eq_ok.mp run)

theorem Throws.weaken {allowed' : Error → Prop} {x : Except Error α} (throws : Throws allowed x)
    (implies : ∀ e, allowed e → allowed' e) : Throws allowed' x := by
  cases x with
  | ok _ => trivial
  | error e => exact implies e throws

/-- What follows throws nothing else; then the call decides. -/
theorem Throws.bind_iff {x : Except Error α} {f : α → Except Stop β} (rest : ∀ a, x = .ok a → Stops allowed (f a)) :
    Stops allowed ((liftM x : Except Stop α) >>= f) ↔ Throws allowed x :=
  ⟨fun stops => throws_lift_iff.mp (Ends.first stops), fun first => first.bind rest⟩

theorem reading_throws {fh : RmFile FlatFile} {x : RmM FlatFile α} (raises : Raises allowed x) :
    Throws allowed (reading fh x) := by
  unfold reading
  split
  · trivial
  · rename_i stopped
    exact raises _ _ _ stopped

/-- What is read of a record has the length of the records of the file. -/
theorem getRecord_sized {fh : RmFile FlatFile} {rid : Rid} {r : RmRecord}
    (read : reading fh (getRecord rid) = .ok (some r)) : r.length = fh.hdr.recordSize.toNat := by
  unfold reading at read
  split at read
  · rename_i out t whole
    cases read
    obtain ⟨page, s, fetched, run⟩ := bind_eq_ok.mp whole
    have same : s = fh := by
      rw [fetchPageHandle_flat] at fetched
      split at fetched
      · cases fetched
      · split at fetched <;> cases fetched
        rfl
    subst same
    rw [get_bind] at run
    obtain ⟨_, u, inside, run⟩ := bind_eq_ok.mp run
    split at run
    · obtain ⟨_, _, _, run⟩ := bind_eq_ok.mp run
      cases run
      simp [RmPageHandle.readSlot]
    · cases run
  · cases read

end

namespace Executor
variable {allowed : Error → Prop} {E : Executor}

/-- No call of the executor throws anything else. -/
structure Calm (allowed : Error → Prop) (E : Executor) : Prop where
  beginTuple : ∀ fuel s, Stops allowed (E.beginTuple fuel s)
  nextTuple : ∀ fuel s, Stops allowed (E.nextTuple fuel s)
  isEnd : ∀ s, Throws allowed (E.isEnd s)
  next : ∀ s, Throws allowed (E.next s)

theorem Calm.collect (calm : E.Calm allowed) (fuel turns : Nat) (s : E.State) :
    Stops allowed (E.collect fuel turns s) := by
  induction turns generalizing s with
  | zero => trivial
  | succ turns ih =>
    refine Throws.bind (calm.isEnd s) fun ended _ => ?_
    split
    · trivial
    · refine Throws.bind (calm.next s) fun _ _ => ?_
      refine Stops.bind (calm.nextTuple fuel s) fun _ _ => ?_
      exact Stops.bind (ih _) fun _ _ => trivial

theorem Calm.traverse (calm : E.Calm allowed) (fuel : Nat) (s : E.State) : Stops allowed (E.traverse fuel s) :=
  Stops.bind (calm.beginTuple fuel s) fun _ _ => calm.collect fuel fuel _

theorem Calm.collectRids (undefined : allowed .undefined) (calm : E.Calm allowed) (fuel turns : Nat) (s : E.State) :
    Stops allowed (Portal.collectRids E fuel turns s) := by
  induction turns generalizing s with
  | zero => trivial
  | succ turns ih =>
    refine Throws.bind (calm.isEnd s) fun ended _ => ?_
    split
    · trivial
    · split
      · exact undefined
      · exact Stops.bind (calm.nextTuple fuel s) fun _ _ => Stops.bind (ih _) fun _ _ => trivial

/-- An executor that is over as soon as it has begun. -/
def Barren (allowed : Error → Prop) (E : Executor) : Prop :=
  ∀ fuel s, Ends (Stop.Only allowed) (fun t => E.isEnd t = .ok true) (E.beginTuple fuel s)

theorem Barren.traverse (barren : E.Barren allowed) (fuel : Nat) (s : E.State) : Stops allowed (E.traverse fuel s) := by
  refine Ends.bind (barren fuel s) fun t _ finished => ?_
  cases fuel with
  | zero => trivial
  | succ turns =>
    rw [Executor.collect, finished]
    trivial

theorem Barren.collectRids (barren : E.Barren allowed) (fuel : Nat) (s : E.State) :
    Stops allowed (E.beginTuple fuel s >>= Portal.collectRids E fuel fuel) := by
  refine Ends.bind (barren fuel s) fun t _ finished => ?_
  cases fuel with
  | zero => trivial
  | succ turns =>
    rw [Portal.collectRids, finished]
    trivial

/-- From some fuel on `beginTuple` finds a tuple, in whatever state it is called. -/
def Starts (E : Executor) : Prop :=
  ∃ enough, ∀ fuel, enough ≤ fuel → ∀ s, ∃ t, E.beginTuple fuel s = .ok t ∧ E.isEnd t = .ok false

/-- From some fuel on it throws this. -/
def Bursts (e : Error) (E : Executor) : Prop :=
  ∃ enough, ∀ fuel, enough ≤ fuel → ∀ s, E.beginTuple fuel s = .error (.thrown e)

theorem Bursts.traverse {e : Error} (bursts : E.Bursts e) (forbidden : ¬allowed e) (s : E.State) :
    ¬∀ fuel, Stops allowed (E.traverse fuel s) := by
  intro stops
  obtain ⟨enough, bursts⟩ := bursts
  have ends := stops enough
  rw [Executor.traverse, bursts enough le_rfl] at ends
  exact forbidden ends

end Executor

section
variable {allowed : Error → Prop}

theorem dataAt_throws (undefined : allowed .undefined) (r : Option RmRecord) (offset len : Int) :
    Throws allowed (dataAt r offset len) := by
  unfold dataAt
  split
  · exact undefined
  · unfold RmRecord.bytesAt
    split
    · trivial
    · exact undefined

/-- The columns have one of this name, or the error that they have none is of the kind. -/
abbrev Knows (allowed : Error → Prop) (cols : List ColMeta) (target : TabCol) : Prop :=
  Throws allowed (getCol cols target)

/-- The same of both sides of a condition; the right one is looked up after the left one is found. -/
def Settles (allowed : Error → Prop) (cols : List ColMeta) (c : Condition) : Prop :=
  Knows allowed cols c.lhsCol ∧
    ((∃ col, getCol cols c.lhsCol = .ok col) → c.isRhsVal = false → Knows allowed cols c.rhsCol)

theorem evalCondAt_throws {cols : List ColMeta} {bytes : ColMeta → Int → Except Error (List UInt8)} {c : Condition}
    (undefined : allowed .undefined) (settles : Settles allowed cols c)
    (read : ∀ col len, Throws allowed (bytes col len)) : Throws allowed (evalCondAt cols bytes c) := by
  refine Ends.bind settles.1 fun lhsCol found _ => ?_
  have compares (rhsData : Except Error (List UInt8)) (read' : Throws allowed rhsData) :
      Throws allowed (bytes lhsCol (compareLen lhsCol.type lhsCol.len) >>= fun lhs => rhsData >>= fun rhs =>
        pure (c.op.compare (ixCompare lhs rhs lhsCol.type) 0)) :=
    Ends.bind (read _ _) fun _ _ _ => Ends.bind read' fun _ _ _ => trivial
  split
  · split
    · exact undefined
    · exact compares _ (dataAt_throws undefined (some _) 0 _)
  · rename_i column
    simp only [pure_bind]
    exact Ends.bind (settles.2 ⟨lhsCol, found⟩ (by simpa using column)) fun rhsCol _ _ => compares _ (read _ _)

theorem allOf_throws {test : Condition → Except Error Bool} {conds : List Condition}
    (each : ∀ c ∈ conds, Throws allowed (test c)) : Throws allowed (allOf test conds) := by
  induction conds with
  | nil => trivial
  | cons c conds ih =>
    obtain ⟨here, each⟩ := List.forall_mem_cons.mp each
    refine Ends.bind here fun holds _ _ => ?_
    split
    · exact ih each
    · trivial

end

namespace SeqScanExecutor
open RmScan
variable {allowed : Error → Prop} {x : SeqScanExecutor}

/-- The conditions, on whatever a scan reads, throw nothing else. -/
def Mild (allowed : Error → Prop) (x : SeqScanExecutor) : Prop :=
  ∀ r : Option RmRecord, (∀ b, r = some b → b.length = x.fh.hdr.recordSize.toNat) → Throws allowed (x.evalConds r)

theorem mild_of_settles (undefined : allowed .undefined) (settles : ∀ c ∈ x.fedConds, Settles allowed x.cols c) :
    x.Mild allowed := fun r _ => allOf_throws fun c member =>
  evalCondAt_throws undefined (settles c member) fun _ _ => dataAt_throws undefined r _ _

theorem search_stops (plain : ∀ e, e.Plain → allowed e) (mild : x.Mild allowed) (turns : Nat) (scan : RmScan)
    (rid : Option Rid) : Stops allowed (x.search turns scan rid) := by
  induction turns generalizing scan rid with
  | zero => trivial
  | succ turns ih =>
    unfold search
    split
    · trivial
    · refine Throws.bind (reading_throws fun _ _ _ run => plain _ (getRecord_raises _ _ _ _ run)) fun r read => ?_
      refine Throws.bind (mild r ?_) fun holds _ => ?_
      · rintro b rfl
        exact getRecord_sized read
      · split
        · trivial
        · refine Throws.bind (reading_throws fun _ _ _ run => plain _ (next_raises _ _ _ _ run)) fun _ _ => ?_
          exact ih _ _

theorem calm (plain : ∀ e, e.Plain → allowed e) (mild : x.Mild allowed) : x.executor.Calm allowed where
  beginTuple fuel s :=
    Throws.bind (reading_throws fun _ _ _ run => plain _ (new_raises _ _ _ run)) fun _ _ =>
      search_stops plain mild _ _ _
  nextTuple fuel s := by
    change Stops allowed (x.nextTuple fuel s)
    unfold nextTuple
    split
    · exact plain _ .assertion
    · exact Throws.bind (reading_throws fun _ _ _ run => plain _ (next_raises _ _ _ _ run)) fun _ _ =>
        search_stops plain mild _ _ _
  isEnd s := by
    change Throws allowed (isEnd s)
    unfold isEnd
    split
    · exact plain _ .undefined
    · trivial
  next s := by
    change Throws allowed (x.next s)
    unfold next
    split
    · exact plain _ .undefined
    · exact reading_throws fun _ _ _ run => plain _ (getRecord_raises _ _ _ _ run)

/-- Over an empty file the conditions do not matter. -/
theorem barren (inv : x.fh.FileInv) (empty : rids x.fh = []) : x.executor.Barren allowed := by
  intro fuel s
  obtain ⟨scan, run, here⟩ := new_spec inv.wellFormed
  rw [empty] at here
  cases (here : scan = atEnd)
  have begun : x.executor.beginTuple fuel s = x.search fuel atEnd s.rid := by
    change (liftM (reading x.fh RmScan.new) >>= _) = _
    rw [reading, run]
    rfl
  rw [begun]
  cases fuel with
  | zero => trivial
  | succ turns => exact (rfl : isEnd ⟨some atEnd, s.rid⟩ = .ok true)

section
variable {first : Rid} {rest : List Rid}

/-- The first turn of the search of `beginTuple`. -/
theorem beginTuple_first (inv : x.fh.FileInv) (found : rids x.fh = first :: rest) (turns : Nat) (s : State) :
    x.executor.beginTuple (turns + 1) s = (do
      if ← (liftM (x.evalConds (x.fh.records first)) : Except Stop Bool) then return ⟨some ⟨first⟩, some first⟩
      let following ← reading x.fh (RmScan.next ⟨first⟩)
      x.search turns following (some first)) := by
  obtain ⟨scan, run, here⟩ := new_spec inv.wellFormed
  rw [found] at here
  have at_first : scan = ⟨first⟩ := here.1
  subst at_first
  have running := running_of_position here
  have read : reading x.fh (RmFileHandle.getRecord first) = .ok (x.fh.records first) := by
    rw [reading, inv.getRecord here.2.2.1]
  change (liftM (reading x.fh RmScan.new) >>= _) = _
  rw [reading, run]
  change x.search (turns + 1) ⟨first⟩ s.rid = _
  rw [search, running]
  simp only [Bool.false_eq_true, if_false, read]
  rfl

theorem bursts {e : Error} (inv : x.fh.FileInv) (found : rids x.fh = first :: rest)
    (fails : x.evalConds (x.fh.records first) = .error e) : x.executor.Bursts e := by
  refine ⟨1, fun fuel enough s => ?_⟩
  obtain ⟨turns, rfl⟩ := Nat.exists_eq_add_of_le' enough
  have begun := beginTuple_first inv found turns s
  rw [fails] at begun
  exact begun

/-- Without conditions the scan stops at the first record. -/
theorem starts (inv : x.fh.FileInv) (found : rids x.fh = first :: rest) (all : x.fedConds = []) :
    x.executor.Starts := by
  refine ⟨1, fun fuel enough s => ?_⟩
  obtain ⟨turns, rfl⟩ := Nat.exists_eq_add_of_le' enough
  have holds : x.evalConds (x.fh.records first) = .ok true := by
    rw [evalConds, all, allOf]
  obtain ⟨scan, run, here⟩ := new_spec inv.wellFormed
  rw [found] at here
  have at_first : scan = ⟨first⟩ := here.1
  subst at_first
  have begun := beginTuple_first inv found turns s
  rw [holds] at begun
  exact ⟨_, begun, congrArg Except.ok (running_of_position here)⟩

end

end SeqScanExecutor

namespace NestedLoopJoinExecutor
variable {allowed : Error → Prop} {x : NestedLoopJoinExecutor}

section
variable (left : x.left.Calm allowed) (right : x.right.Calm allowed)
  (mild : ∀ l r, Throws allowed (x.evalConds l r))
include left right mild

theorem matchRight_stops (fuel : Nat) (l : x.left.State) (turns : Nat) (r : x.right.State) :
    Stops allowed (x.matchRight fuel l turns r) := by
  induction turns generalizing r with
  | zero => trivial
  | succ turns ih =>
    refine Throws.bind (right.isEnd r) fun ended _ => ?_
    split
    · trivial
    · refine Throws.bind (left.next l) fun _ _ => Throws.bind (right.next r) fun _ _ => ?_
      refine Throws.bind (mild _ _) fun holds _ => ?_
      split
      · trivial
      · exact Stops.bind (right.nextTuple fuel r) fun _ _ => ih _

theorem beginLoop_stops (fuel turns : Nat) (l : x.left.State) (r : x.right.State) :
    Stops allowed (x.beginLoop fuel turns l r) := by
  induction turns generalizing l r with
  | zero => trivial
  | succ turns ih =>
    refine Throws.bind (left.isEnd l) fun ended _ => ?_
    split
    · trivial
    · refine Stops.bind (matchRight_stops left right mild fuel l fuel r) fun (found, r) _ => ?_
      dsimp only
      split
      · trivial
      · refine Stops.bind (left.nextTuple fuel l) fun l _ => Throws.bind (left.isEnd l) fun ended _ => ?_
        split
        · exact ih _ _
        · exact Stops.bind (right.beginTuple fuel _) fun _ _ => ih _ _

theorem nextLoop_stops (fuel turns : Nat) (l : x.left.State) (r : x.right.State) :
    Stops allowed (x.nextLoop fuel turns l r) := by
  induction turns generalizing l r with
  | zero => trivial
  | succ turns ih =>
    refine Throws.bind (left.isEnd l) fun ended _ => ?_
    split
    · trivial
    · refine Stops.bind (right.beginTuple fuel r) fun r _ => ?_
      refine Stops.bind (matchRight_stops left right mild fuel l fuel r) fun (found, r) _ => ?_
      dsimp only
      split
      · trivial
      · exact Stops.bind (left.nextTuple fuel l) fun _ _ => ih _ _

theorem calm (plain : ∀ e, e.Plain → allowed e) : x.executor.Calm allowed where
  beginTuple fuel s := by
    refine Stops.bind (left.beginTuple fuel s.left) fun l _ => Throws.bind (left.isEnd l) fun ended _ => ?_
    split
    · exact Throws.bind (left.isEnd l) fun _ _ => trivial
    · refine Stops.bind (right.beginTuple fuel s.right) fun r _ => ?_
      refine Stops.bind (beginLoop_stops left right mild fuel fuel l r) fun (found, l, r) _ => ?_
      dsimp only
      split
      · trivial
      · exact Throws.bind (left.isEnd _) fun _ _ => trivial
  nextTuple fuel s := by
    refine Throws.bind (left.isEnd s.left) fun ended _ => ?_
    split
    · exact plain _ .assertion
    · refine Stops.bind (right.nextTuple fuel s.right) fun r _ => ?_
      refine Stops.bind (matchRight_stops left right mild fuel s.left fuel r) fun (found, r) _ => ?_
      dsimp only
      split
      · trivial
      · refine Stops.bind (left.nextTuple fuel s.left) fun l _ => ?_
        refine Stops.bind (nextLoop_stops left right mild fuel fuel l r) fun (found, l, r) _ => ?_
        dsimp only
        split
        · trivial
        · trivial
  isEnd s := trivial
  next s := by
    refine Ends.bind (left.next s.left) fun _ _ _ => Ends.bind (right.next s.right) fun _ _ _ => ?_
    split
    · exact plain _ .badArrayLength
    · refine Ends.bind (dataAt_throws (plain _ .undefined) _ _ _) fun _ _ _ => ?_
      exact Ends.bind (dataAt_throws (plain _ .undefined) _ _ _) fun _ _ _ => trivial

end

/-- If the left child is over at once, the right one is not begun. -/
theorem barren_left (barren : x.left.Barren allowed) : x.executor.Barren allowed := by
  intro fuel s
  refine Ends.bind (barren fuel s.left) fun l _ finished => ?_
  rw [finished]
  exact (rfl : x.executor.isEnd ⟨l, s.right, true⟩ = .ok true)

section
variable (left : x.left.Calm allowed) (barren : x.right.Barren allowed)
include left barren

/-- A right child that is over is begun again for each tuple on the left. -/
theorem beginLoop_barren (fuel turns : Nat) (l : x.left.State) (r : x.right.State)
    (finished : x.right.isEnd r = .ok true) :
    Ends (Stop.Only allowed) (fun out => out.1 = false ∧ x.left.isEnd out.2.1 = .ok true)
      (x.beginLoop fuel turns l r) := by
  induction turns generalizing l r with
  | zero => trivial
  | succ turns ih =>
    refine Ends.bind (throws_lift_iff.mpr (left.isEnd l)) fun ended run _ => ?_
    split
    · rename_i isTrue
      rw [isTrue] at run
      exact ⟨rfl, lift_eq_ok.mp run⟩
    · cases fuel with
      | zero => trivial
      | succ fuel =>
        have none : x.matchRight (fuel + 1) l (fuel + 1) r = .ok (false, r) := by
          rw [matchRight, finished]
          rfl
        rw [none]
        change Ends _ _ (x.left.nextTuple (fuel + 1) l >>= _)
        refine Ends.bind (left.nextTuple _ l) fun l _ _ => ?_
        refine Ends.bind (throws_lift_iff.mpr (left.isEnd l)) fun ended _ _ => ?_
        split
        · exact ih l r finished
        · exact Ends.bind (barren _ r) fun r _ finished => ih l r finished

theorem barren_right : x.executor.Barren allowed := by
  intro fuel s
  refine Ends.bind (left.beginTuple fuel s.left) fun l _ _ => ?_
  refine Ends.bind (throws_lift_iff.mpr (left.isEnd l)) fun ended run _ => ?_
  split
  · rename_i isTrue
    rw [isTrue] at run
    rw [lift_eq_ok.mp run]
    exact (rfl : x.executor.isEnd ⟨l, s.right, true⟩ = .ok true)
  · refine Ends.bind (barren fuel s.right) fun r _ finished => ?_
    refine Ends.bind (beginLoop_barren left barren fuel fuel l r finished) fun (found, l, r) _ ended => ?_
    obtain ⟨rfl, atEnd⟩ := ended
    simp only at atEnd
    simp only [Bool.false_eq_true, if_false, atEnd]
    exact (rfl : x.executor.isEnd ⟨l, r, true⟩ = .ok true)

end

theorem bursts {e : Error} (left : x.left.Starts) (right : x.right.Bursts e) : x.executor.Bursts e := by
  obtain ⟨enough, starts⟩ := left
  obtain ⟨enough', bursts⟩ := right
  refine ⟨max enough enough', fun fuel large s => ?_⟩
  obtain ⟨l, begun, running⟩ := starts fuel (by omega) s.left
  change (x.left.beginTuple fuel s.left >>= _) = _
  rw [begun]
  change ((liftM (x.left.isEnd l) : Except Stop Bool) >>= _) = _
  rw [running]
  change (x.right.beginTuple fuel s.right >>= _) = _
  rw [bursts fuel (by omega)]
  rfl

end NestedLoopJoinExecutor

namespace ProjectionExecutor
variable {allowed : Error → Prop} {x : ProjectionExecutor}

theorem calm (plain : ∀ e, e.Plain → allowed e) (prev : x.prev.Calm allowed) : x.executor.Calm allowed where
  beginTuple := prev.beginTuple
  nextTuple := prev.nextTuple
  isEnd := prev.isEnd
  next s := by
    refine Ends.bind (prev.next s) fun r _ _ => ?_
    split
    · exact plain _ .badArrayLength
    · refine Ends.bind (Ends.mapM_iff.mpr (.of_forall fun col _ => ?_)) fun _ _ _ => trivial
      exact dataAt_throws (plain _ .undefined) r _ _

theorem barren (prev : x.prev.Barren allowed) : x.executor.Barren allowed := prev

theorem bursts {e : Error} (prev : x.prev.Bursts e) : x.executor.Bursts e := prev

end ProjectionExecutor

end Rmdb
