import Rmdb.Execution.Lockstep

namespace Rmdb

/-- The call returns with the property or throws; its loops get by with their turns. -/
abbrev Returns {α : Type} (post : α → Prop) : Except Stop α → Prop := Ends (· ≠ .outOfFuel) post

theorem Returns.thrown {α : Type} {post : α → Prop} (e : Error) : Returns post (.error (.thrown e)) := by
  intro same
  cases same

theorem returns_lift {α β : Type} {x : Except Error α} {f : α → Except Stop β} {post : β → Prop}
    (rest : ∀ a, x = .ok a → Returns post (f a)) : Returns post (liftM x >>= f) := by
  cases x with
  | ok a => exact rest a rfl
  | error e => exact Returns.thrown e

/-- A bound on the steps of an executor. `left n s` says that at most `n` of them are left. -/
structure Bounded (E : Executor) where
  bound : Nat
  left : Nat → E.State → Prop
  begins : ∀ s {fuel}, bound ≤ fuel → Returns (fun t => ∃ n, n ≤ bound ∧ left n t) (E.beginTuple fuel s)
  steps : ∀ {s n fuel}, left n s → E.isEnd s = .ok false → bound ≤ fuel →
    Returns (fun t => ∃ m, m < n ∧ left m t) (E.nextTuple fuel s)

namespace Bounded
variable {E : Executor} (B : Bounded E)

theorem collect {s : E.State} {n fuel turns : Nat} (left : B.left n s) (enough : n < turns) (bound : B.bound ≤ fuel) :
    Returns (fun _ => True) (E.collect fuel turns s) := by
  induction turns generalizing s n with
  | zero => omega
  | succ turns ih =>
    simp only [Executor.collect]
    refine returns_lift ?_
    intro ended run
    cases ended with
    | true => exact trivial
    | false =>
      refine returns_lift ?_
      intro tuple _
      refine (B.steps left run bound).bind ?_
      rintro t _ ⟨m, less, left⟩
      refine (ih left (by omega)).bind ?_
      intro tuples _ _
      exact trivial

/-- A traversal that is given enough turns comes to its end. -/
theorem traverse (s : E.State) {fuel : Nat} (enough : B.bound < fuel) :
    Returns (fun _ => True) (E.traverse fuel s) := by
  refine (B.begins s (by omega)).bind ?_
  rintro t _ ⟨n, most, left⟩
  exact B.collect left (by omega) (by omega)

end Bounded

namespace SeqScanExecutor
open RmScan
variable {x : SeqScanExecutor}

/-- The scan stands at a record with so many records from there on. -/
def Left (x : SeqScanExecutor) (n : Nat) (s : State) : Prop :=
  ∃ scan later, s.scan = some scan ∧ Position x.fh scan later ∧ later.length = n ∧ n ≤ (rids x.fh).length

theorem next_shorter (inv : x.fh.FileInv) {scan following : RmScan} {later : List Rid} (here : Position x.fh scan later)
    (running : scan.isEnd ≠ true) (read : reading x.fh scan.next = .ok following) :
    ∃ rest, Position x.fh following rest ∧ rest.length + 1 = later.length := by
  cases later with
  | nil =>
    cases (here : scan = atEnd)
    exact absurd rfl running
  | cons first rest =>
    have at_first : scan = ⟨first⟩ := here.1
    subst at_first
    obtain ⟨scan', run, there⟩ := next_spec inv.wellFormed here
    rw [reading, run] at read
    cases read
    exact ⟨rest, there, rfl⟩

theorem search_returns (inv : x.fh.FileInv) {turns : Nat} {scan : RmScan} {later : List Rid} (rid : Option Rid)
    (here : Position x.fh scan later) (most : later.length ≤ (rids x.fh).length) (enough : later.length < turns) :
    Returns (fun t => ∃ n, n ≤ later.length ∧ x.Left n t) (x.search turns scan rid) := by
  induction turns generalizing scan later rid with
  | zero => omega
  | succ turns ih =>
    simp only [search]
    by_cases ended : scan.isEnd = true
    · rw [if_pos ended]
      exact ⟨later.length, le_rfl, scan, later, rfl, here, rfl, most⟩
    · rw [if_neg ended]
      refine returns_lift ?_
      intro r _
      refine returns_lift ?_
      intro holds _
      cases holds with
      | true => exact ⟨later.length, le_rfl, scan, later, rfl, here, rfl, most⟩
      | false =>
        refine returns_lift ?_
        intro following read
        obtain ⟨rest, there, shorter⟩ := next_shorter inv here ended read
        refine (ih _ there (by omega) (by omega)).mono ?_
        rintro t ⟨n, less, left⟩
        exact ⟨n, by omega, left⟩

/-- A scan takes at most as many steps as the file has records. -/
def bounded (inv : x.fh.FileInv) : Bounded x.executor where
  bound := (rids x.fh).length + 1
  left := x.Left
  begins s fuel enough := by
    obtain ⟨scan, run, here⟩ := new_spec inv.wellFormed
    refine returns_lift ?_
    intro scan' read
    rw [reading, run] at read
    cases read
    refine (search_returns inv s.rid here le_rfl (by omega)).mono ?_
    rintro t ⟨n, most, left⟩
    exact ⟨n, by omega, left⟩
  steps {s n fuel} left running enough := by
    obtain ⟨scan, rid⟩ := s
    obtain ⟨scan, later, rfl, here, rfl, most⟩ := left
    have unfinished : scan.isEnd ≠ true := by
      intro ended
      simp [executor, isEnd, ended] at running
    refine returns_lift ?_
    intro following read
    obtain ⟨rest, there, shorter⟩ := next_shorter inv here unfinished read
    refine (search_returns inv rid there (by omega) (by omega)).mono ?_
    rintro t ⟨n, less, left⟩
    exact ⟨n, by omega, left⟩

end SeqScanExecutor

def Executor.stubBounded : Bounded Executor.stub where
  bound := 0
  left _ _ := True
  begins _ _ _ := ⟨0, le_rfl, trivial⟩
  steps _ running _ := by cases running

def ProjectionExecutor.bounded (x : ProjectionExecutor) (B : Bounded x.prev) : Bounded x.executor where
  bound := B.bound
  left := B.left
  begins := B.begins
  steps := B.steps

namespace NestedLoopJoinExecutor
variable {x : NestedLoopJoinExecutor} {L : Bounded x.left} {R : Bounded x.right}

theorem matchRight_returns {l : x.left.State} {r : x.right.State} {j fuel turns : Nat} (right : R.left j r)
    (enough : j < turns) (bound : R.bound ≤ fuel) :
    Returns (fun p => ∃ k, k ≤ j ∧ R.left k p.2 ∧ (p.1 = true → x.right.isEnd p.2 = .ok false))
      (x.matchRight fuel l turns r) := by
  induction turns generalizing r j with
  | zero => omega
  | succ turns ih =>
    simp only [matchRight]
    refine returns_lift ?_
    intro ended run
    cases ended with
    | true => exact ⟨j, le_rfl, right, fun found => by cases found⟩
    | false =>
      refine returns_lift ?_
      intro leftRec _
      refine returns_lift ?_
      intro rightRec _
      refine returns_lift ?_
      intro holds _
      cases holds with
      | true => exact ⟨j, le_rfl, right, fun _ => run⟩
      | false =>
        refine (R.steps right run bound).bind ?_
        rintro t _ ⟨k, less, right⟩
        refine (ih right (by omega)).mono ?_
        rintro p ⟨m, most, right, atMatch⟩
        exact ⟨m, by omega, right, atMatch⟩

variable (L R)

/-- A match with at most `i` steps of the left child left. -/
def Found (i : Nat) (l : x.left.State) (r : x.right.State) : Prop :=
  x.left.isEnd l = .ok false ∧ x.right.isEnd r = .ok false ∧
    ∃ i' j, i' ≤ i ∧ j ≤ R.bound ∧ L.left i' l ∧ R.left j r

variable {L R}

theorem Found.mono {i i' : Nat} {l : x.left.State} {r : x.right.State} (found : Found L R i l r) (most : i ≤ i') :
    Found L R i' l r := by
  obtain ⟨left, right, k, j, less, bound, leftK, rightJ⟩ := found
  exact ⟨left, right, k, j, by omega, bound, leftK, rightJ⟩

theorem beginLoop_returns {l : x.left.State} {r : x.right.State} {i j fuel turns : Nat} (left : L.left i l)
    (right : R.left j r) (small : j ≤ R.bound) (enough : i < turns) (boundL : L.bound ≤ fuel)
    (boundR : R.bound < fuel) :
    Returns (fun p => p.1 = true → Found L R i p.2.1 p.2.2) (x.beginLoop fuel turns l r) := by
  induction turns generalizing l r i j with
  | zero => omega
  | succ turns ih =>
    simp only [beginLoop]
    refine returns_lift ?_
    intro ended run
    cases ended with
    | true => exact fun found => by cases found
    | false =>
      refine (matchRight_returns right (by omega : j < fuel) (by omega)).bind ?_
      rintro ⟨found, r₁⟩ _ ⟨k, less, right, atMatch⟩
      cases found with
      | true => exact fun _ => ⟨run, atMatch rfl, i, k, le_rfl, by omega, left, right⟩
      | false =>
        refine (L.steps left run boundL).bind ?_
        rintro l₁ _ ⟨i', fewer, left⟩
        refine returns_lift ?_
        intro ended _
        cases ended with
        | true =>
          refine (ih left right (by omega) (by omega)).mono ?_
          exact fun p found isFound => (found isFound).mono (by omega)
        | false =>
          refine (R.begins r₁ (by omega)).bind ?_
          rintro r₂ _ ⟨j', small, right⟩
          refine (ih left right small (by omega)).mono ?_
          exact fun p found isFound => (found isFound).mono (by omega)

theorem nextLoop_returns {l : x.left.State} (r : x.right.State) {i fuel turns : Nat} (left : L.left i l)
    (enough : i < turns) (boundL : L.bound ≤ fuel) (boundR : R.bound < fuel) :
    Returns (fun p => p.1 = true → Found L R i p.2.1 p.2.2) (x.nextLoop fuel turns l r) := by
  induction turns generalizing l r i with
  | zero => omega
  | succ turns ih =>
    simp only [nextLoop]
    refine returns_lift ?_
    intro ended run
    cases ended with
    | true => exact fun found => by cases found
    | false =>
      refine (R.begins r (by omega)).bind ?_
      rintro r₁ _ ⟨j, small, right⟩
      refine (matchRight_returns right (by omega : j < fuel) (by omega)).bind ?_
      rintro ⟨found, r₂⟩ _ ⟨k, less, right, atMatch⟩
      cases found with
      | true => exact fun _ => ⟨run, atMatch rfl, i, k, le_rfl, by omega, left, right⟩
      | false =>
        refine (L.steps left run boundL).bind ?_
        rintro l₁ _ ⟨i', fewer, left⟩
        refine (ih r₂ left (by omega)).mono ?_
        exact fun p found isFound => (found isFound).mono (by omega)

variable (L R)

/-- Steps of the join: for each step of the left child all those of the right one. -/
def Left (n : Nat) (s : x.State) : Prop :=
  s.isend = true ∨ (x.left.isEnd s.left = .ok false ∧ x.right.isEnd s.right = .ok false ∧
    ∃ i j, i ≤ L.bound ∧ j ≤ R.bound ∧ L.left i s.left ∧ R.left j s.right ∧ i * (R.bound + 1) + j < n)

variable {L R}

theorem Found.left_of {i n : Nat} {l : x.left.State} {r : x.right.State} {isend : Bool} (found : Found L R i l r)
    (small : i ≤ L.bound) (most : (i + 1) * (R.bound + 1) ≤ n) : Left L R n ⟨l, r, isend⟩ := by
  obtain ⟨left, right, k, j, less, bound, leftK, rightJ⟩ := found
  refine Or.inr ⟨left, right, k, j, by omega, bound, leftK, rightJ, ?_⟩
  have rows : (k + 1) * (R.bound + 1) ≤ (i + 1) * (R.bound + 1) := Nat.mul_le_mul_right _ (by omega)
  rw [Nat.add_mul, Nat.one_mul] at rows
  omega

def bounded (L : Bounded x.left) (R : Bounded x.right) : Bounded x.executor where
  bound := (L.bound + 1) * (R.bound + 1)
  left := Left L R
  begins s fuel enough := by
    have rows : L.bound + 1 ≤ (L.bound + 1) * (R.bound + 1) := Nat.le_mul_of_pos_right _ (by omega)
    have columns : R.bound + 1 ≤ (L.bound + 1) * (R.bound + 1) := Nat.le_mul_of_pos_left _ (by omega)
    refine (L.begins s.left (by omega)).bind ?_
    rintro l _ ⟨i, small, left⟩
    refine returns_lift ?_
    intro ended run
    cases ended with
    | true =>
      refine returns_lift ?_
      intro isend again
      rw [run] at again
      cases again
      exact ⟨0, by omega, Or.inl rfl⟩
    | false =>
      refine (R.begins s.right (by omega)).bind ?_
      rintro r _ ⟨j, smallR, right⟩
      refine (beginLoop_returns left right smallR (by omega : i < fuel) (by omega) (by omega)).bind ?_
      rintro ⟨found, l₁, r₁⟩ loop outcome
      cases found with
      | true =>
        refine ⟨_, le_rfl, (outcome rfl).left_of small ?_⟩
        exact Nat.mul_le_mul_right _ (by omega)
      | false =>
        refine returns_lift ?_
        intro isend again
        rw [show x.left.isEnd l₁ = .ok true from beginLoop_settled loop] at again
        cases again
        exact ⟨0, by omega, Or.inl rfl⟩
  steps {s n fuel} left running enough := by
    have rows : L.bound + 1 ≤ (L.bound + 1) * (R.bound + 1) := Nat.le_mul_of_pos_right _ (by omega)
    have columns : R.bound + 1 ≤ (L.bound + 1) * (R.bound + 1) := Nat.le_mul_of_pos_left _ (by omega)
    rcases left with isend | ⟨leftRuns, rightRuns, i, j, small, smallR, left, right, most⟩
    · rw [show x.executor.isEnd s = .ok s.isend from rfl, isend] at running
      cases running
    refine returns_lift ?_
    intro ended run
    rw [leftRuns] at run
    cases run
    refine (R.steps right rightRuns (by omega)).bind ?_
    rintro r _ ⟨j₁, fewer, right⟩
    refine (matchRight_returns right (by omega : j₁ < fuel) (by omega)).bind ?_
    rintro ⟨found, r₁⟩ _ ⟨j₂, less, right, atMatch⟩
    cases found with
    | true =>
      refine ⟨i * (R.bound + 1) + j, most, Or.inr ⟨leftRuns, atMatch rfl, i, j₂, small, by omega, left,
        right, by omega⟩⟩
    | false =>
      refine (L.steps left leftRuns (by omega)).bind ?_
      rintro l _ ⟨i₁, fewer, left⟩
      refine (nextLoop_returns (R := R) r₁ left (by omega : i₁ < fuel) (by omega) (by omega)).bind ?_
      rintro ⟨found, l₁, r₂⟩ _ outcome
      cases found with
      | true =>
        refine ⟨i * (R.bound + 1) + j, most, (outcome rfl).left_of (by omega) ?_⟩
        have row : (i₁ + 1) * (R.bound + 1) ≤ i * (R.bound + 1) := Nat.mul_le_mul_right _ (by omega)
        omega
      | false => exact ⟨0, by omega, Or.inl rfl⟩

end NestedLoopJoinExecutor

end Rmdb
