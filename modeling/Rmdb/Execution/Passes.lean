import Rmdb.Execution.Composed

namespace Rmdb

/-! What an executor yields on its first pass and on every later one. A join that is over stays over, so one that is a
right child is traversed once only. -/

/-- A new executor, and one that stands at a tuple, starts at the first tuple of `first`; one that is over starts at
that of `again`. -/
structure Passes (E : Executor) (first again : List RmRecord) where
  here : E.State → List RmRecord → Prop
  bound : Nat
  again_or : again = first ∨ again = []
  begins : ∀ {s fuel}, (s = E.fresh ∨ ∃ tuple rest, here s (tuple :: rest)) → bound ≤ fuel →
    ∃ t, E.beginTuple fuel s = .ok t ∧ here t first
  restarts : ∀ {s fuel}, here s [] → bound ≤ fuel → ∃ t, E.beginTuple fuel s = .ok t ∧ here t again
  steps : ∀ {s tuple rest fuel}, here s (tuple :: rest) → bound ≤ fuel → ∃ t, E.nextTuple fuel s = .ok t ∧ here t rest
  ended : ∀ {s}, here s [] → E.isEnd s = .ok true
  running : ∀ {s tuple rest}, here s (tuple :: rest) → E.isEnd s = .ok false
  reads : ∀ {s tuple rest}, here s (tuple :: rest) → E.next s = .ok (some tuple)
  suffix : ∀ {s rest}, here s rest → rest <:+ first
  sized : ∀ tuple ∈ first, tuple.length = E.tupleLen

/-- The loop of `collect` from a position with these tuples to come, each read in some way. -/
theorem Executor.collect_read {E : Executor} {here : E.State → List RmRecord → Prop} {read : RmRecord → RmRecord}
    {fuel turns : Nat} (ended : ∀ {s}, here s [] → E.isEnd s = .ok true)
    (running : ∀ {s tuple rest}, here s (tuple :: rest) → E.isEnd s = .ok false)
    (reads : ∀ {s tuple rest}, here s (tuple :: rest) → E.next s = .ok (some (read tuple)))
    (steps : ∀ {s tuple rest}, here s (tuple :: rest) → ∃ t, E.nextTuple fuel s = .ok t ∧ here t rest)
    {s : E.State} {rest : List RmRecord} (start : here s rest) (enough : rest.length < turns) :
    E.collect fuel turns s = .ok (rest.map fun tuple => some (read tuple)) := by
  induction rest generalizing s turns with
  | nil =>
    obtain ⟨turns, rfl⟩ := Nat.exists_eq_succ_of_ne_zero (by omega : turns ≠ 0)
    rw [Executor.collect, ended start]
    rfl
  | cons tuple rest ih =>
    obtain ⟨turns, rfl⟩ := Nat.exists_eq_succ_of_ne_zero (by omega : turns ≠ 0)
    obtain ⟨t, moved, there⟩ := steps start
    have later := ih there (Nat.lt_of_succ_lt_succ enough)
    rw [Executor.collect, running start, reads start]
    simp only [lift_ok, ok_bind, Bool.false_eq_true, if_false, moved, later]
    rfl

namespace Passes
variable {E : Executor} {first again : List RmRecord} (P : Passes E first again)

/-- A traversal of a new executor. -/
theorem traverse {fuel : Nat} (enough : P.bound + first.length < fuel) :
    E.traverse fuel E.fresh = .ok (first.map some) := by
  obtain ⟨t, begun, here⟩ := P.begins (Or.inl rfl) (by omega : P.bound ≤ fuel)
  rw [Executor.traverse, begun]
  exact Executor.collect_read P.ended P.running P.reads (fun here => P.steps here (by omega)) here (by omega)

/-- From wherever it stands it can be started. -/
theorem begins_some {s : E.State} {fuel : Nat} (known : s = E.fresh ∨ ∃ rest, P.here s rest) (bound : P.bound ≤ fuel) :
    ∃ t rest, E.beginTuple fuel s = .ok t ∧ P.here t rest := by
  rcases known with fresh | ⟨rest, here⟩
  · obtain ⟨t, begun, there⟩ := P.begins (Or.inl fresh) bound
    exact ⟨t, _, begun, there⟩
  · cases rest with
    | nil =>
      obtain ⟨t, begun, there⟩ := P.restarts here bound
      exact ⟨t, _, begun, there⟩
    | cons tuple rest =>
      obtain ⟨t, begun, there⟩ := P.begins (Or.inr ⟨tuple, rest, here⟩) bound
      exact ⟨t, _, begun, there⟩

end Passes

namespace Iterates
variable {E : Executor} {tuples : List RmRecord} (I : Iterates E tuples)

/-- A position with the tuples of the list still to come. -/
def Behind (s : E.State) (rest : List RmRecord) : Prop := I.here s rest ∧ rest <:+ tuples

theorem restarts_behind {s : E.State} {rest : List RmRecord} {fuel : Nat} (behind : I.Behind s rest)
    (enough : I.bound ≤ fuel) : ∃ t, E.beginTuple fuel s = .ok t ∧ I.Behind t tuples := by
  obtain ⟨t, begun, here⟩ := I.begins (Or.inr ⟨rest, behind.1⟩) enough
  exact ⟨t, begun, here, List.suffix_rfl⟩

theorem begins_behind {s : E.State} {fuel : Nat} (known : s = E.fresh ∨ ∃ tuple rest, I.Behind s (tuple :: rest))
    (enough : I.bound ≤ fuel) : ∃ t, E.beginTuple fuel s = .ok t ∧ I.Behind t tuples := by
  rcases known with fresh | ⟨tuple, rest, behind⟩
  · obtain ⟨t, begun, here⟩ := I.begins (Or.inl fresh) enough
    exact ⟨t, begun, here, List.suffix_rfl⟩
  · exact I.restarts_behind behind enough

theorem steps_behind {s : E.State} {tuple : RmRecord} {rest : List RmRecord} {fuel : Nat}
    (behind : I.Behind s (tuple :: rest)) (enough : I.bound ≤ fuel) :
    ∃ t, E.nextTuple fuel s = .ok t ∧ I.Behind t rest := by
  obtain ⟨t, moved, here⟩ := I.steps behind.1 enough
  exact ⟨t, moved, here, (List.suffix_cons _ _).trans behind.2⟩

/-- An executor that can be started at any time yields the same on every pass. -/
def passes : Passes E tuples tuples where
  here := I.Behind
  bound := I.bound
  again_or := Or.inl rfl
  begins := I.begins_behind
  restarts := I.restarts_behind
  steps := I.steps_behind
  ended behind := I.ended behind.1
  running behind := I.running behind.1
  reads behind := I.reads behind.1
  suffix behind := behind.2
  sized := I.sized

end Iterates

namespace NestedLoopJoinExecutor
variable {x : NestedLoopJoinExecutor}

/-- The pairs of the tuples of the left child, the first one with `rights` and the others with `again`. -/
def pairs (again : List RmRecord) : List RmRecord → List RmRecord → List Pair
  | [], _ => []
  | a :: lefts, rights => rights.map (a, ·) ++ lefts ×ˢ again

theorem pairs_again (again lefts : List RmRecord) : pairs again lefts again = lefts ×ˢ again := by
  cases lefts with
  | nil => rfl
  | cons a lefts => rw [pairs, List.product_cons]

/-- The tuples for a list of pairs. -/
def joined (matching : Pair → Bool) (ps : List Pair) : List RmRecord := (ps.filter matching).map fun p => p.1 ++ p.2

/-- The pairs from the first one that matches on. -/
def fromMatch (matching : Pair → Bool) (ps : List Pair) : List Pair := ps.dropWhile fun p => !matching p

section lists
variable {matching : Pair → Bool} {ps qs : List Pair}

theorem joined_fromMatch (matching : Pair → Bool) (ps : List Pair) :
    joined matching (fromMatch matching ps) = joined matching ps := by
  unfold joined fromMatch
  induction ps with
  | nil => rfl
  | cons p ps ih =>
    cases matched : matching p with
    | true => rw [List.dropWhile_cons_of_neg (by simp [matched])]
    | false => rw [List.dropWhile_cons_of_pos (by simp [matched]), List.filter_cons_of_neg (by simp [matched]), ih]

theorem fromMatch_suffix (matching : Pair → Bool) (ps : List Pair) : fromMatch matching ps <:+ ps :=
  List.dropWhile_suffix _

theorem fromMatch_append (ps qs : List Pair) : fromMatch matching (ps ++ qs) =
    if (fromMatch matching ps).isEmpty then fromMatch matching qs else fromMatch matching ps ++ qs :=
  List.dropWhile_append

/-- What is left begins with a match. -/
theorem fromMatch_head {p : Pair} {rest : List Pair} (found : fromMatch matching ps = p :: rest) :
    matching p = true := by
  have head := List.head?_dropWhile_not (fun p => !matching p) ps
  rw [show ps.dropWhile (fun p => !matching p) = p :: rest from found] at head
  simpa using head

theorem joined_suffix (suffix : qs <:+ ps) : joined matching qs <:+ joined matching ps :=
  (suffix.filter _).map _

theorem joined_cons {p : Pair} {rest : List Pair} (matched : matching p = true) :
    joined matching (p :: rest) = (p.1 ++ p.2) :: joined matching rest := by
  unfold joined
  rw [List.filter_cons_of_pos matched]
  rfl

end lists

section
variable {firstL againL firstR againR : List RmRecord} (L : Passes x.left firstL againL)
  (R : Passes x.right firstR againR)

/-- The join stands at the first of these pairs. -/
def StandAt (l : x.left.State) (r : x.right.State) (ps : List Pair) : Prop :=
  ∃ lefts rights, ps = pairs againR lefts rights ∧ L.here l lefts ∧ R.here r rights ∧ (lefts ≠ [] → rights ≠ [])

/-- The conditions on the pairs of a join can be evaluated. -/
def Evaluates (x : NestedLoopJoinExecutor) (lefts rights : List RmRecord) (matching : Pair → Bool) : Prop :=
  ∀ a ∈ lefts, ∀ b ∈ rights, x.evalConds (some a) (some b) = .ok (matching (a, b))

variable {L R} {matching : Pair → Bool} (evaluates : x.Evaluates firstL firstR matching)
include evaluates

theorem matchRight_passes {l : x.left.State} {r : x.right.State} {a : RmRecord} {lefts rights : List RmRecord}
    {fuel turns : Nat} (leftHere : L.here l (a :: lefts)) (rightHere : R.here r rights)
    (enough : rights.length < turns) (bound : R.bound ≤ fuel) :
    ∃ r' rest, x.matchRight fuel l turns r = .ok (!rest.isEmpty, r') ∧ R.here r' rest ∧
      fromMatch matching (rights.map (a, ·)) = rest.map (a, ·) := by
  have inLeft : a ∈ firstL := (L.suffix leftHere).subset List.mem_cons_self
  induction rights generalizing r turns with
  | nil =>
    obtain ⟨turns, rfl⟩ := Nat.exists_eq_succ_of_ne_zero (by omega : turns ≠ 0)
    rw [matchRight, R.ended rightHere]
    exact ⟨r, [], rfl, rightHere, rfl⟩
  | cons b rights ih =>
    simp only [List.length_cons] at enough
    obtain ⟨turns, rfl⟩ := Nat.exists_eq_succ_of_ne_zero (by omega : turns ≠ 0)
    have holds := evaluates a inLeft b ((R.suffix rightHere).subset List.mem_cons_self)
    rw [matchRight, R.running rightHere, L.reads leftHere, R.reads rightHere]
    simp only [lift_ok, ok_bind, Bool.false_eq_true, if_false, holds]
    cases matched : matching (a, b) with
    | true =>
      refine ⟨r, b :: rights, rfl, rightHere, ?_⟩
      rw [fromMatch, List.map_cons, List.dropWhile_cons_of_neg (by simp [matched])]
    | false =>
      obtain ⟨r₁, moved, there⟩ := R.steps rightHere bound
      obtain ⟨r₂, rest, run, here, same⟩ := ih there (Nat.lt_of_succ_lt_succ enough)
      refine ⟨r₂, rest, ?_, here, ?_⟩
      · simpa only [Bool.false_eq_true, if_false, moved, ok_bind] using run
      · rw [fromMatch, List.map_cons, List.dropWhile_cons_of_pos (by simp [matched])]
        exact same

/-- The outer loops go on with the next tuple of the left child at an end of the right one. -/
theorem nextLoop_passes {l : x.left.State} {r : x.right.State} {lefts : List RmRecord} {fuel turns : Nat}
    (leftHere : L.here l lefts) (rightHere : R.here r []) (enough : lefts.length < turns)
    (room : firstR.length < fuel) (boundL : L.bound ≤ fuel) (boundR : R.bound ≤ fuel) :
    ∃ l' r' rest, x.nextLoop fuel turns l r = .ok (!rest.isEmpty, l', r') ∧ StandAt L R l' r' rest ∧
      fromMatch matching (lefts ×ˢ againR) = rest := by
  induction lefts generalizing l r turns with
  | nil =>
    obtain ⟨turns, rfl⟩ := Nat.exists_eq_succ_of_ne_zero (by omega : turns ≠ 0)
    rw [nextLoop, L.ended leftHere]
    exact ⟨l, r, [], rfl, ⟨[], [], rfl, leftHere, rightHere, fun absurd => (absurd rfl).elim⟩, rfl⟩
  | cons a lefts ih =>
    simp only [List.length_cons] at enough
    obtain ⟨turns, rfl⟩ := Nat.exists_eq_succ_of_ne_zero (by omega : turns ≠ 0)
    obtain ⟨r₁, begun, there⟩ := R.restarts rightHere boundR
    have few : againR.length < fuel := (R.suffix there).length_le.trans_lt room
    obtain ⟨r₂, rights, run, there, same⟩ := matchRight_passes evaluates leftHere there few boundR
    rw [nextLoop, L.running leftHere, List.product_cons, fromMatch_append, same]
    simp only [lift_ok, ok_bind, Bool.false_eq_true, if_false, begun, run]
    cases rights with
    | cons b rights =>
      refine ⟨l, r₂, _, rfl, ⟨a :: lefts, b :: rights, ?_, leftHere, there, by simp⟩, rfl⟩
      simp [pairs]
    | nil =>
      obtain ⟨l₁, moved, here⟩ := L.steps leftHere boundL
      obtain ⟨l₂, r₃, rest, run, stands, same⟩ := ih here there (Nat.lt_of_succ_lt_succ enough)
      refine ⟨l₂, r₃, rest, ?_, stands, same⟩
      simpa [moved, ok_bind] using run

theorem beginLoop_passes {l : x.left.State} {r : x.right.State} {lefts rights : List RmRecord} {fuel turns : Nat}
    (leftHere : L.here l lefts) (rightHere : R.here r rights) (enough : lefts.length < turns)
    (room : firstR.length < fuel) (boundL : L.bound ≤ fuel) (boundR : R.bound ≤ fuel) :
    ∃ l' r' rest, x.beginLoop fuel turns l r = .ok (!rest.isEmpty, l', r') ∧ StandAt L R l' r' rest ∧
      fromMatch matching (pairs againR lefts rights) = rest := by
  induction lefts generalizing l r rights turns with
  | nil =>
    obtain ⟨turns, rfl⟩ := Nat.exists_eq_succ_of_ne_zero (by omega : turns ≠ 0)
    rw [beginLoop, L.ended leftHere]
    exact ⟨l, r, [], rfl, ⟨[], rights, rfl, leftHere, rightHere, fun absurd => (absurd rfl).elim⟩, rfl⟩
  | cons a lefts ih =>
    simp only [List.length_cons] at enough
    obtain ⟨turns, rfl⟩ := Nat.exists_eq_succ_of_ne_zero (by omega : turns ≠ 0)
    have few : rights.length < fuel := (R.suffix rightHere).length_le.trans_lt room
    obtain ⟨r₁, rest, run, there, same⟩ := matchRight_passes evaluates leftHere rightHere few boundR
    rw [beginLoop, L.running leftHere, pairs, fromMatch_append, same]
    simp only [lift_ok, ok_bind, Bool.false_eq_true, if_false, run]
    cases rest with
    | cons b rest =>
      refine ⟨l, r₁, _, rfl, ⟨a :: lefts, b :: rest, ?_, leftHere, there, by simp⟩, rfl⟩
      simp [pairs]
    | nil =>
      obtain ⟨l₁, moved, here⟩ := L.steps leftHere boundL
      cases lefts with
      | nil =>
        obtain ⟨l₂, r₂, rest, run, stands, same⟩ := ih here there (Nat.lt_of_succ_lt_succ enough)
        refine ⟨l₂, r₂, rest, ?_, stands, same⟩
        simpa [moved, ok_bind, L.ended here, lift_ok] using run
      | cons a' lefts =>
        obtain ⟨r₂, begun, there⟩ := R.restarts there boundR
        obtain ⟨l₂, r₃, rest, run, stands, same⟩ := ih here there (Nat.lt_of_succ_lt_succ enough)
        refine ⟨l₂, r₃, rest, ?_, stands, ?_⟩
        · simpa [moved, ok_bind, L.running here, lift_ok, begun] using run
        · rw [← same, pairs_again]
          rfl

end

section
variable {firstL againL firstR againR : List RmRecord} (L : Passes x.left firstL againL)
  (R : Passes x.right firstR againR) (matching : Pair → Bool)

/-- The join is over. Its children stand anywhere; the right one may still be new. -/
def Over (s : x.State) : Prop :=
  s.isend = true ∧ (∃ lefts, L.here s.left lefts) ∧ (s.right = x.right.fresh ∨ ∃ rights, R.here s.right rights)

/-- The join has these tuples still to come. -/
def Here (s : x.State) (rest : List RmRecord) : Prop :=
  (Over L R s ∧ rest = []) ∨
    ∃ p ps, s.isend = false ∧ matching p = true ∧ StandAt L R s.left s.right (p :: ps) ∧
      p :: ps <:+ pairs againR firstL firstR ∧ rest = joined matching (p :: ps)

variable {L R matching}

theorem Here.isOver {s : x.State} (here : Here L R matching s []) : Over L R s := by
  rcases here with ⟨ended, _⟩ | ⟨p, ps, _, matched, _, _, none⟩
  · exact ended
  · rw [joined_cons matched] at none
    cases none

theorem Here.stands {s : x.State} {tuple : RmRecord} {rest : List RmRecord}
    (here : Here L R matching s (tuple :: rest)) :
    ∃ a b lefts rights, s.isend = false ∧ tuple = a ++ b ∧ L.here s.left (a :: lefts) ∧
      R.here s.right (b :: rights) ∧ (a, b) :: (rights.map (a, ·) ++ lefts ×ˢ againR) <:+ pairs againR firstL firstR ∧
      rest = joined matching (rights.map (a, ·) ++ lefts ×ˢ againR) := by
  rcases here with ⟨_, absurd⟩ | ⟨p, ps, running, matched, ⟨lefts, rights, all, left, right, both⟩, suffix, same⟩
  · cases absurd
  · cases lefts with
    | nil => cases all
    | cons a lefts =>
      obtain ⟨b, rights, rfl⟩ := List.exists_cons_of_ne_nil (both (List.cons_ne_nil _ _))
      cases all
      rw [joined_cons matched] at same
      cases same
      exact ⟨a, b, lefts, rights, running, rfl, left, right, suffix, rfl⟩

theorem here_of_stands {s : x.State} {l : x.left.State} {r : x.right.State} {rest ps : List Pair}
    (stands : StandAt L R l r rest) (same : fromMatch matching ps = rest)
    (suffix : ps <:+ pairs againR firstL firstR) (isend : s.isend = rest.isEmpty) (left : s.left = l)
    (right : s.right = r) : Here L R matching s (joined matching ps) := by
  subst left right
  cases rest with
  | nil =>
    obtain ⟨lefts, rights, all, left, right, both⟩ := stands
    refine Or.inl ⟨⟨isend, ⟨lefts, left⟩, Or.inr ⟨rights, right⟩⟩, ?_⟩
    rw [← joined_fromMatch, same]
    rfl
  | cons p rest =>
    refine Or.inr ⟨p, rest, isend, fromMatch_head same, stands, ?_, ?_⟩
    · rw [← same]
      exact (fromMatch_suffix _ _).trans suffix
    · rw [← same, joined_fromMatch]

theorem StandAt.ended {l : x.left.State} {r : x.right.State} (stands : StandAt L R l r []) : L.here l [] := by
  obtain ⟨lefts, rights, all, left, right, both⟩ := stands
  cases lefts with
  | nil => exact left
  | cons a lefts =>
    obtain ⟨b, rights, rfl⟩ := List.exists_cons_of_ne_nil (both (List.cons_ne_nil _ _))
    cases all

/-- The turns that are enough for every loop of the join. -/
def turns (L : Passes x.left firstL againL) (R : Passes x.right firstR againR) : Nat :=
  L.bound + R.bound + firstL.length + firstR.length + 1

variable (evaluates : x.Evaluates firstL firstR matching)
include evaluates

/-- What `beginTuple` does once its children are begun. -/
theorem beginTuple_stands {s : x.State} {l : x.left.State} {r : x.right.State} {lefts rights : List RmRecord}
    {fuel : Nat} (enough : turns L R ≤ fuel) (begun : x.left.beginTuple fuel s.left = .ok l)
    (leftHere : L.here l lefts) (some_left : lefts ≠ []) (begunR : x.right.beginTuple fuel s.right = .ok r)
    (rightHere : R.here r rights) :
    ∃ l' r' rest, x.beginTuple fuel s = .ok ⟨l', r', rest.isEmpty || s.isend⟩ ∧ StandAt L R l' r' rest ∧
      fromMatch matching (pairs againR lefts rights) = rest := by
  unfold turns at enough
  have few := (L.suffix leftHere).length_le
  have running : x.left.isEnd l = .ok false := by
    cases lefts with
    | nil => exact absurd rfl some_left
    | cons a lefts => exact L.running leftHere
  have fewer : lefts.length < fuel := by omega
  have room : firstR.length < fuel := by omega
  obtain ⟨l', r', rest, loop, stands, same⟩ :=
    beginLoop_passes evaluates leftHere rightHere fewer room (by omega) (by omega)
  refine ⟨l', r', rest, ?_, stands, same⟩
  unfold beginTuple
  simp only [begun, running, begunR, loop, ok_bind, lift_ok, Bool.false_eq_true, if_false]
  cases rest with
  | nil => simp only [L.ended stands.ended, lift_ok, ok_bind]; rfl
  | cons p rest => rfl

omit evaluates in
/-- Without a tuple on the left the right child is not begun. -/
theorem beginTuple_empty {s : x.State} {l : x.left.State} {fuel : Nat}
    (begun : x.left.beginTuple fuel s.left = .ok l) (leftHere : L.here l []) :
    x.beginTuple fuel s = .ok ⟨l, s.right, true⟩ := by
  unfold beginTuple
  simp only [begun, L.ended leftHere, ok_bind, lift_ok, if_true]
  rfl

theorem begins_here {s : x.State} {fuel : Nat}
    (known : s = x.executor.fresh ∨ ∃ tuple rest, Here L R matching s (tuple :: rest)) (enough : turns L R ≤ fuel) :
    ∃ t, x.beginTuple fuel s = .ok t ∧ Here L R matching t (joined matching (pairs againR firstL firstR)) := by
  have boundL : L.bound ≤ fuel := by unfold turns at enough; omega
  have boundR : R.bound ≤ fuel := by unfold turns at enough; omega
  have children : s.isend = false ∧ (∃ l, x.left.beginTuple fuel s.left = .ok l ∧ L.here l firstL) ∧
      (∃ r, x.right.beginTuple fuel s.right = .ok r ∧ R.here r firstR) ∧
      (s.right = x.right.fresh ∨ ∃ rights, R.here s.right rights) := by
    rcases known with rfl | ⟨tuple, rest, here⟩
    · exact ⟨rfl, L.begins (Or.inl rfl) boundL, R.begins (Or.inl rfl) boundR, Or.inl rfl⟩
    · obtain ⟨a, b, lefts, rights, running, _, left, right, _⟩ := here.stands
      exact ⟨running, L.begins (Or.inr ⟨a, lefts, left⟩) boundL, R.begins (Or.inr ⟨b, rights, right⟩) boundR,
        Or.inr ⟨_, right⟩⟩
  obtain ⟨running, ⟨l, begun, left⟩, ⟨r, begunR, right⟩, knownR⟩ := children
  by_cases empty : firstL = []
  · subst empty
    exact ⟨_, beginTuple_empty begun left, Or.inl ⟨⟨rfl, ⟨_, left⟩, knownR⟩, rfl⟩⟩
  · obtain ⟨l', r', rest, run, stands, same⟩ := beginTuple_stands evaluates enough begun left empty begunR right
    refine ⟨_, run, here_of_stands stands same List.suffix_rfl ?_ rfl rfl⟩
    rw [running, Bool.or_false]

/-- A join that is over stays over. -/
theorem restarts_here {s : x.State} {fuel : Nat} (here : Here L R matching s []) (enough : turns L R ≤ fuel) :
    ∃ t, x.beginTuple fuel s = .ok t ∧ Here L R matching t [] := by
  have boundL : L.bound ≤ fuel := by unfold turns at enough; omega
  have boundR : R.bound ≤ fuel := by unfold turns at enough; omega
  obtain ⟨isend, known, knownR⟩ := here.isOver
  obtain ⟨l, lefts, begun, left⟩ := L.begins_some (Or.inr known) boundL
  by_cases empty : lefts = []
  · subst empty
    exact ⟨_, beginTuple_empty begun left, Or.inl ⟨⟨rfl, ⟨_, left⟩, knownR⟩, rfl⟩⟩
  · obtain ⟨r, rights, begunR, right⟩ := R.begins_some knownR boundR
    obtain ⟨l', r', rest, run, ⟨lefts', rights', _, left', right', _⟩, _⟩ :=
      beginTuple_stands evaluates enough begun left empty begunR right
    refine ⟨_, run, Or.inl ⟨⟨?_, ⟨lefts', left'⟩, Or.inr ⟨rights', right'⟩⟩, rfl⟩⟩
    rw [isend, Bool.or_true]

theorem steps_here {s : x.State} {tuple : RmRecord} {rest : List RmRecord} {fuel : Nat}
    (here : Here L R matching s (tuple :: rest)) (enough : turns L R ≤ fuel) :
    ∃ t, x.nextTuple fuel s = .ok t ∧ Here L R matching t rest := by
  unfold turns at enough
  have boundL : L.bound ≤ fuel := by omega
  have boundR : R.bound ≤ fuel := by omega
  obtain ⟨a, b, lefts, rights, running, _, left, right, suffix, rfl⟩ := here.stands
  obtain ⟨r, moved, right⟩ := R.steps right boundR
  have few := (R.suffix right).length_le
  have fewL := (L.suffix left).length_le
  have room : rights.length < fuel := by omega
  have behind := (List.suffix_cons (a, b) _).trans suffix
  obtain ⟨r₁, rest, found, right, same⟩ := matchRight_passes evaluates left right room boundR
  unfold nextTuple
  simp only [L.running left, moved, found, lift_ok, ok_bind, Bool.false_eq_true, if_false]
  cases rest with
  | cons b' rest =>
    refine ⟨_, rfl, here_of_stands ⟨a :: lefts, b' :: rest, rfl, left, right, by simp⟩ ?_ behind running rfl rfl⟩
    rw [fromMatch_append, same]
    rfl
  | nil =>
    obtain ⟨l, movedL, left'⟩ := L.steps left boundL
    simp only [List.length_cons] at fewL
    have fewer : lefts.length < fuel := by omega
    have room' : firstR.length < fuel := by omega
    obtain ⟨l₁, r₂, rest, loop, stands, same'⟩ :=
      nextLoop_passes evaluates left' right fewer room' boundL boundR
    have all : fromMatch matching (rights.map (a, ·) ++ lefts ×ˢ againR) = rest := by
      rw [fromMatch_append, same]
      exact same'
    simp only [List.isEmpty_nil, Bool.not_true, Bool.false_eq_true, if_false, movedL, ok_bind, loop]
    cases rest with
    | nil => exact ⟨_, rfl, here_of_stands stands all behind rfl rfl rfl⟩
    | cons p rest => exact ⟨_, rfl, here_of_stands stands all behind running rfl rfl⟩

omit evaluates

theorem isEnd_here {s : x.State} (here : Here L R matching s []) : x.executor.isEnd s = .ok true :=
  congrArg Except.ok here.isOver.1

theorem running_here {s : x.State} {tuple : RmRecord} {rest : List RmRecord}
    (here : Here L R matching s (tuple :: rest)) : x.executor.isEnd s = .ok false := by
  obtain ⟨_, _, _, _, running, _⟩ := here.stands
  exact congrArg Except.ok running

theorem reads_here (small : x.len ≤ intMax) {s : x.State} {tuple : RmRecord} {rest : List RmRecord}
    (here : Here L R matching s (tuple :: rest)) : x.next s = .ok (some tuple) := by
  obtain ⟨a, b, lefts, rights, _, rfl, left, right, _⟩ := here.stands
  have inLeft := (L.suffix left).subset List.mem_cons_self
  have inRight := (R.suffix right).subset List.mem_cons_self
  exact next_append (L.reads left) (R.reads right) (L.sized a inLeft) (R.sized b inRight) small

theorem suffix_here {s : x.State} {rest : List RmRecord} (here : Here L R matching s rest) :
    rest <:+ joined matching (pairs againR firstL firstR) := by
  rcases here with ⟨_, rfl⟩ | ⟨p, ps, _, _, _, suffix, rfl⟩
  · exact List.nil_suffix
  · exact joined_suffix suffix

theorem mem_pairs {a b : RmRecord} (R : Passes x.right firstR againR)
    (member : (a, b) ∈ pairs againR firstL firstR) : a ∈ firstL ∧ b ∈ firstR := by
  have within : ∀ c ∈ againR, c ∈ firstR := by
    rcases R.again_or with same | none
    · simp [same]
    · simp [none]
  cases firstL with
  | nil => cases member
  | cons a' lefts =>
    rcases List.mem_append.mp member with atFirst | later
    · obtain ⟨b, inRight, same⟩ := List.mem_map.mp atFirst
      cases same
      exact ⟨List.mem_cons_self, inRight⟩
    · obtain ⟨inLeft, inRight⟩ := List.mem_product.mp later
      exact ⟨List.mem_cons_of_mem _ inLeft, within b inRight⟩

theorem sized_joined (L : Passes x.left firstL againL) (R : Passes x.right firstR againR)
    (len : x.len = x.left.tupleLen + x.right.tupleLen) :
    ∀ tuple ∈ joined matching (pairs againR firstL firstR), tuple.length = x.len := by
  intro tuple member
  obtain ⟨⟨a, b⟩, inPairs, rfl⟩ := List.mem_map.mp member
  obtain ⟨inLeft, inRight⟩ := mem_pairs R (List.mem_filter.mp inPairs).1
  rw [List.length_append, L.sized a inLeft, R.sized b inRight, len]

end

/-- A join yields the pairs that match once, and then nothing any more. -/
def passes {firstL againL firstR againR : List RmRecord} (L : Passes x.left firstL againL)
    (R : Passes x.right firstR againR) {matching : Pair → Bool} (evaluates : x.Evaluates firstL firstR matching)
    (len : x.len = x.left.tupleLen + x.right.tupleLen) (small : x.len ≤ intMax) :
    Passes x.executor (joined matching (pairs againR firstL firstR)) [] where
  here := Here L R matching
  bound := turns L R
  again_or := Or.inr rfl
  begins := begins_here evaluates
  restarts := restarts_here evaluates
  steps := steps_here evaluates
  ended := isEnd_here
  running := running_here
  reads := reads_here small
  suffix := suffix_here
  sized := sized_joined L R len

end NestedLoopJoinExecutor

/-- A traversal of a projection reads every tuple of the child through it. -/
theorem ProjectionExecutor.traverse_read {x : ProjectionExecutor} {first again : List RmRecord}
    (P : Passes x.prev first again) {read : RmRecord → RmRecord}
    (copies : ∀ s, ∀ tuple ∈ first, x.prev.next s = .ok (some tuple) → x.next s = .ok (some (read tuple)))
    {fuel : Nat} (enough : P.bound + first.length < fuel) :
    x.executor.traverse fuel x.executor.fresh = .ok (first.map fun tuple => some (read tuple)) := by
  obtain ⟨t, begun, here⟩ := P.begins (Or.inl rfl) (by omega : P.bound ≤ fuel)
  rw [Executor.traverse, show x.executor.beginTuple fuel x.executor.fresh = .ok t from begun]
  exact Executor.collect_read (E := x.executor) P.ended P.running
    (fun here => copies _ _ ((P.suffix here).subset List.mem_cons_self) (P.reads here))
    (fun here => P.steps here (by omega)) here (by omega)

end Rmdb
