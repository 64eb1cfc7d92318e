import Mathlib.Data.List.ProdSigma
import Rmdb.Execution.Restart
import Rmdb.Execution.Update

namespace Rmdb

/-- The iterator contract: `here s rest` says that the executor stands at the first tuple of
`rest`. It can be started when it is new and from every position, with enough turns for
its loops. -/
structure Iterates (E : Executor) (tuples : List RmRecord) where
  here : E.State → List RmRecord → Prop
  bound : Nat
  begins : ∀ {s fuel}, (s = E.fresh ∨ ∃ rest, here s rest) → bound ≤ fuel →
    ∃ t, E.beginTuple fuel s = .ok t ∧ here t tuples
  steps : ∀ {s tuple rest fuel}, here s (tuple :: rest) → bound ≤ fuel → ∃ t, E.nextTuple fuel s = .ok t ∧ here t rest
  ended : ∀ {s}, here s [] → E.isEnd s = .ok true
  running : ∀ {s tuple rest}, here s (tuple :: rest) → E.isEnd s = .ok false
  reads : ∀ {s tuple rest}, here s (tuple :: rest) → E.next s = .ok (some tuple)
  sized : ∀ tuple ∈ tuples, tuple.length = E.tupleLen

namespace SeqScanExecutor
open RmScan
variable {x : SeqScanExecutor}

/-- The records of a list of positions that the scan keeps. -/
def rows (x : SeqScanExecutor) (later : List Rid) : List RmRecord := (later.filter x.keeps).filterMap x.fh.records

/-- The scan stands at the first record of `later`, which it keeps. -/
def Stands (x : SeqScanExecutor) (s : State) (later : List Rid) : Prop :=
  ∃ scan, s.scan = some scan ∧ Position x.fh scan later ∧ later.length ≤ (rids x.fh).length ∧
    (∀ rid ∈ later, ∃ b, x.evalConds (x.fh.records rid) = .ok b) ∧
    ∀ rid rest, later = rid :: rest → s.rid = some rid ∧ x.keeps rid = true

theorem search_stands (inv : x.fh.FileInv) {later : List Rid} {scan : RmScan} {turns : Nat} (rid : Option Rid)
    (here : Position x.fh scan later) (most : later.length ≤ (rids x.fh).length)
    (returns : ∀ rid ∈ later, ∃ b, x.evalConds (x.fh.records rid) = .ok b) (enough : later.length < turns) :
    ∃ t later', x.search turns scan rid = .ok t ∧ x.Stands t later' ∧ x.rows later' = x.rows later := by
  induction later generalizing scan rid turns with
  | nil =>
    obtain ⟨turns, rfl⟩ := Nat.exists_eq_succ_of_ne_zero (by omega : turns ≠ 0)
    cases (here : scan = atEnd)
    refine ⟨_, [], rfl, ⟨atEnd, rfl, rfl, Nat.zero_le _, returns, ?_⟩, rfl⟩
    intro _ _ absurd
    cases absurd
  | cons first rest ih =>
    simp only [List.length_cons] at enough most
    obtain ⟨turns, rfl⟩ := Nat.exists_eq_succ_of_ne_zero (by omega : turns ≠ 0)
    have at_first : scan = ⟨first⟩ := here.1
    subst at_first
    have read : reading x.fh (RmFileHandle.getRecord first) = .ok (x.fh.records first) := by
      rw [reading, inv.getRecord here.2.2.1]
    obtain ⟨following, run, there⟩ := next_spec inv.wellFormed here
    have moved : reading x.fh (RmScan.next ⟨first⟩) = .ok following := by
      rw [reading, run]
    obtain ⟨b, holds⟩ := returns first List.mem_cons_self
    have kept : x.keeps first = b := by simp [keeps, holds]
    rw [search, running_of_position here]
    simp only [Bool.false_eq_true, if_false, read, holds, lift_ok, ok_bind]
    cases b with
    | true =>
      refine ⟨_, first :: rest, rfl, ⟨⟨first⟩, rfl, here, by simpa using most, returns, ?_⟩, rfl⟩
      intro _ _ same
      cases same
      exact ⟨rfl, kept⟩
    | false =>
      simp only [Bool.false_eq_true, if_false, moved, lift_ok, ok_bind]
      obtain ⟨t, later, run, stands, same⟩ := ih (some first) there (by omega)
        (fun rid member => returns rid (List.mem_cons_of_mem _ member)) (by omega : rest.length < turns)
      refine ⟨t, later, run, stands, ?_⟩
      rw [same, rows, rows, List.filter_cons_of_neg (by simp [kept])]

theorem rows_cons {rid : Rid} {rest : List Rid} (kept : x.keeps rid = true) {tuple : RmRecord}
    (live : x.fh.records rid = some tuple) : x.rows (rid :: rest) = tuple :: x.rows rest := by
  rw [rows, List.filter_cons_of_pos kept, List.filterMap_cons_some live]
  rfl

theorem Stands.first {s : State} {later : List Rid} {tuple : RmRecord} {rest : List RmRecord}
    (stands : x.Stands s later)
    (same : x.rows later = tuple :: rest) :
    ∃ rid others, later = rid :: others ∧ s.rid = some rid ∧ x.fh.records rid = some tuple ∧ x.rows others = rest := by
  obtain ⟨scan, _, here, _, _, current⟩ := stands
  cases later with
  | nil => cases same
  | cons rid others =>
    obtain ⟨standing, kept⟩ := current rid others rfl
    obtain ⟨record, live⟩ := Option.isSome_iff_exists.mp here.2.1
    rw [rows_cons kept live] at same
    cases same
    exact ⟨rid, others, rfl, standing, live, rfl⟩

theorem isEnd_of {s : State} {scan : RmScan} (at_scan : s.scan = some scan) : x.executor.isEnd s = .ok scan.isEnd := by
  change SeqScanExecutor.isEnd s = _
  rw [SeqScanExecutor.isEnd, at_scan]

theorem next_of {s : State} {rid : Rid} (standing : s.rid = some rid) :
    x.executor.next s = reading x.fh (RmFileHandle.getRecord rid) := by
  change x.next s = _
  rw [SeqScanExecutor.next, standing]

section
variable (inv : x.fh.FileInv) (returns : ∀ rid ∈ rids x.fh, ∃ b, x.evalConds (x.fh.records rid) = .ok b)
include inv

include returns in
theorem beginTuple_stands (s : State) {fuel : Nat} (enough : (rids x.fh).length + 1 ≤ fuel) :
    ∃ t, x.executor.beginTuple fuel s = .ok t ∧ ∃ later, x.Stands t later ∧ x.rows later = x.rows (rids x.fh) := by
  obtain ⟨scan, run, here⟩ := new_spec inv.wellFormed
  obtain ⟨t, later, found, stands, same⟩ := search_stands inv s.rid here le_rfl returns (by omega : _ < fuel)
  refine ⟨t, ?_, later, stands, same⟩
  change (liftM (reading x.fh RmScan.new) >>= fun scan => x.search fuel scan s.rid) = .ok t
  rw [reading, run]
  exact found

theorem nextTuple_stands {s : State} {tuple : RmRecord} {rest : List RmRecord} {later : List Rid} {fuel : Nat}
    (stands : x.Stands s later) (same : x.rows later = tuple :: rest) (enough : (rids x.fh).length + 1 ≤ fuel) :
    ∃ t, x.executor.nextTuple fuel s = .ok t ∧ ∃ later, x.Stands t later ∧ x.rows later = rest := by
  obtain ⟨rid, others, rfl, _, _, behind⟩ := stands.first same
  obtain ⟨scan, at_scan, here, most, returns, _⟩ := stands
  have at_rid : scan = ⟨rid⟩ := here.1
  subst at_rid
  obtain ⟨following, run, there⟩ := next_spec inv.wellFormed here
  simp only [List.length_cons] at most
  obtain ⟨t, later, found, stands, same⟩ := search_stands inv s.rid there (by omega)
    (fun rid member => returns rid (List.mem_cons_of_mem _ member)) (by omega : _ < fuel)
  refine ⟨t, ?_, later, stands, same.trans behind⟩
  change x.nextTuple fuel s = .ok t
  simp only [nextTuple, at_scan, reading, run]
  exact found

omit inv in
theorem isEnd_stands {s : State} {later : List Rid} (stands : x.Stands s later) (same : x.rows later = []) :
    x.executor.isEnd s = .ok true := by
  obtain ⟨scan, at_scan, here, _, _, current⟩ := stands
  cases later with
  | nil =>
    cases (here : scan = atEnd)
    exact isEnd_of at_scan
  | cons rid others =>
    obtain ⟨record, live⟩ := Option.isSome_iff_exists.mp here.2.1
    rw [rows_cons (current rid others rfl).2 live] at same
    cases same

omit inv in
theorem running_stands {s : State} {tuple : RmRecord} {rest : List RmRecord} {later : List Rid}
    (stands : x.Stands s later) (same : x.rows later = tuple :: rest) : x.executor.isEnd s = .ok false := by
  obtain ⟨rid, others, rfl, _⟩ := stands.first same
  obtain ⟨scan, at_scan, here, _⟩ := stands
  have at_rid : scan = ⟨rid⟩ := here.1
  subst at_rid
  rw [isEnd_of at_scan, running_of_position here]

theorem next_stands {s : State} {tuple : RmRecord} {rest : List RmRecord} {later : List Rid}
    (stands : x.Stands s later) (same : x.rows later = tuple :: rest) : x.executor.next s = .ok (some tuple) := by
  obtain ⟨rid, others, rfl, standing, live, _⟩ := stands.first same
  obtain ⟨scan, _, here, _⟩ := stands
  rw [next_of standing, reading, inv.getRecord here.2.2.1, live]

omit inv in
theorem length_row {tuple : RmRecord} (sized : ∀ rid r, x.fh.records rid = some r → r.length = x.len)
    (member : tuple ∈ x.rows (rids x.fh)) : tuple.length = x.len := by
  obtain ⟨rid, _, live⟩ := List.mem_filterMap.mp member
  exact sized rid tuple live

end

/-- The sequential scan obeys the iterator contract. -/
def iterates (inv : x.fh.FileInv) (returns : ∀ rid ∈ rids x.fh, ∃ b, x.evalConds (x.fh.records rid) = .ok b)
    (sized : ∀ rid r, x.fh.records rid = some r → r.length = x.len) : Iterates x.executor (x.rows (rids x.fh)) where
  here s rest := ∃ later, x.Stands s later ∧ x.rows later = rest
  bound := (rids x.fh).length + 1
  begins {s _} _ enough := beginTuple_stands inv returns s enough
  steps here enough := here.elim fun _ both => nextTuple_stands inv both.1 both.2 enough
  ended here := here.elim fun _ both => isEnd_stands both.1 both.2
  running here := here.elim fun _ both => running_stands both.1 both.2
  reads here := here.elim fun _ both => next_stands inv both.1 both.2
  sized _ member := length_row sized member

end SeqScanExecutor

namespace NestedLoopJoinExecutor
variable {x : NestedLoopJoinExecutor}

abbrev Pair := RmRecord × RmRecord

def holds (x : NestedLoopJoinExecutor) (p : Pair) : Except Error Bool := x.evalConds (some p.1) (some p.2)

/-- The first pair of a list that satisfies the conditions, and the pairs behind it. -/
def findPair (x : NestedLoopJoinExecutor) : List Pair → Except Stop (Option (Pair × List Pair))
  | [] => .ok none
  | p :: ps => do
    if ← x.holds p then return some (p, ps)
    findPair x ps

/-- All pairs that satisfy the conditions, joined, looked at in their order. -/
def joinPairs (x : NestedLoopJoinExecutor) : List Pair → Except Stop (List (Option RmRecord))
  | [] => .ok []
  | p :: ps => do
    let matched ← x.holds p
    let rest ← joinPairs x ps
    return if matched then some (p.1 ++ p.2) :: rest else rest

theorem findPair_append (ps qs : List Pair) :
    x.findPair (ps ++ qs) = (x.findPair ps >>= fun found =>
      match found with
      | some (p, rest) => .ok (some (p, rest ++ qs))
      | none => x.findPair qs) := by
  induction ps with
  | nil => rfl
  | cons p ps ih =>
    rw [List.cons_append, findPair, findPair]
    cases x.holds p with
    | error e => rfl
    | ok matched =>
      cases matched with
      | true => rfl
      | false => exact ih

/-- What is left to yield at a pair that was found. -/
def remaining (x : NestedLoopJoinExecutor) : Option (Pair × List Pair) → Except Stop (List (Option RmRecord))
  | some (p, rest) => do
    let out ← x.joinPairs rest
    return some (p.1 ++ p.2) :: out
  | none => .ok []

theorem joinPairs_eq (ps : List Pair) : x.joinPairs ps = x.findPair ps >>= x.remaining := by
  induction ps with
  | nil => rfl
  | cons p ps ih =>
    rw [joinPairs, findPair]
    cases x.holds p with
    | error e => rfl
    | ok matched =>
      cases matched with
      | true => rfl
      | false =>
        refine Eq.trans ?_ ih
        change (x.joinPairs ps >>= fun rest => .ok rest) = x.joinPairs ps
        cases x.joinPairs ps <;> rfl

theorem findPair_shorter {ps rest : List Pair} {p : Pair} (found : x.findPair ps = .ok (some (p, rest))) :
    rest.length < ps.length ∧ p ∈ ps ∧ ∀ q ∈ rest, q ∈ ps := by
  induction ps with
  | nil => cases found
  | cons q ps ih =>
    obtain ⟨matched, _, found⟩ := bind_eq_ok_iff.mp found
    cases matched with
    | true =>
      cases found
      exact ⟨by simp, List.mem_cons_self, fun q member => List.mem_cons_of_mem _ member⟩
    | false =>
      obtain ⟨less, member, others⟩ := ih found
      refine ⟨by simp only [List.length_cons]; omega, List.mem_cons_of_mem _ member, fun q inside => ?_⟩
      exact List.mem_cons_of_mem _ (others q inside)

section
variable {left right : List RmRecord} (L : Iterates x.left left) (R : Iterates x.right right)

/-- The pairs that are still to come once the join stands at `l` and `r`. -/
def At (found : Option (Pair × List Pair)) (l : x.left.State) (r : x.right.State) : Prop :=
  match found with
  | none => x.left.isEnd l = .ok true
  | some (p, rest) => ∃ ls rs, rest = rs.map (p.1, ·) ++ ls ×ˢ right ∧ p.1 :: ls <:+ left ∧ p.2 :: rs <:+ right ∧
      L.here l (p.1 :: ls) ∧ R.here r (p.2 :: rs)

variable {L R}

theorem matchRight_finds {l : x.left.State} {r : x.right.State} {a : RmRecord} {ls rs : List RmRecord}
    {fuel turns : Nat}
    (leftHere : L.here l (a :: ls)) (rightHere : R.here r rs) (enough : rs.length < turns) (bound : R.bound ≤ fuel) :
    Agree (fun p found => p.1 = found.isSome ∧
        match found with
        | none => R.here p.2 []
        | some (q, rest) => ∃ b bs, q = (a, b) ∧ rest = bs.map (a, ·) ∧ b :: bs <:+ rs ∧ R.here p.2 (b :: bs))
      (x.matchRight fuel l turns r) (x.findPair (rs.map (a, ·))) := by
  induction rs generalizing r turns with
  | nil =>
    obtain ⟨turns, rfl⟩ := Nat.exists_eq_succ_of_ne_zero (by omega : turns ≠ 0)
    rw [matchRight, R.ended rightHere]
    exact .ok ⟨rfl, rightHere⟩
  | cons b bs ih =>
    simp only [List.length_cons] at enough
    obtain ⟨turns, rfl⟩ := Nat.exists_eq_succ_of_ne_zero (by omega : turns ≠ 0)
    rw [matchRight, R.running rightHere, L.reads leftHere, R.reads rightHere, List.map_cons, findPair]
    simp only [lift_ok, ok_bind, Bool.false_eq_true, if_false]
    refine agree_lift (show x.evalConds (some a) (some b) = x.holds (a, b) from rfl) ?_
    intro matched _
    cases matched with
    | true => exact .ok ⟨rfl, b, bs, rfl, rfl, List.suffix_rfl, rightHere⟩
    | false =>
      obtain ⟨r', moved, there⟩ := R.steps rightHere bound
      simp only [moved, ok_bind, Bool.false_eq_true, if_false]
      refine (ih there (by omega)).mono ?_
      rintro p found ⟨same, outcome⟩
      refine ⟨same, ?_⟩
      cases found with
      | none => exact outcome
      | some q =>
        obtain ⟨b', bs', atPair, rest, suffix, here⟩ := outcome
        exact ⟨b', bs', atPair, rest, suffix.trans (List.suffix_cons b bs), here⟩

/-- The outcome of a loop next to that of the search through the pairs. -/
def Outcome (L : Iterates x.left left) (R : Iterates x.right right) (p : Bool × x.left.State × x.right.State)
    (found : Option (Pair × List Pair)) : Prop :=
  p.1 = found.isSome ∧ At L R found p.2.1 p.2.2

theorem beginLoop_finds {l : x.left.State} {r : x.right.State} {ls : List RmRecord} {fuel turns : Nat}
    (leftHere : L.here l ls) (suffix : ls <:+ left) (rightHere : ls ≠ [] → R.here r right) (enough : ls.length < turns)
    (room : right.length < fuel) (boundL : L.bound ≤ fuel) (boundR : R.bound ≤ fuel) :
    Agree (Outcome L R) (x.beginLoop fuel turns l r) (x.findPair (ls ×ˢ right)) := by
  induction ls generalizing l r turns with
  | nil =>
    obtain ⟨turns, rfl⟩ := Nat.exists_eq_succ_of_ne_zero (by omega : turns ≠ 0)
    rw [beginLoop, L.ended leftHere]
    exact .ok ⟨rfl, L.ended leftHere⟩
  | cons a ls ih =>
    simp only [List.length_cons] at enough
    obtain ⟨turns, rfl⟩ := Nat.exists_eq_succ_of_ne_zero (by omega : turns ≠ 0)
    rw [beginLoop, L.running leftHere, List.product_cons, findPair_append]
    simp only [lift_ok, ok_bind, Bool.false_eq_true, if_false]
    refine (matchRight_finds leftHere (rightHere (by simp)) room boundR).bind ?_
    rintro ⟨_, r₁⟩ found _ _ ⟨same, there⟩
    simp only at same there
    subst same
    cases found with
    | some q =>
      obtain ⟨q, rest⟩ := q
      obtain ⟨b, bs, rfl, rfl, within, there⟩ := there
      exact .ok ⟨rfl, ls, bs, rfl, suffix, within, leftHere, there⟩
    | none =>
      obtain ⟨l₁, moved, leftHere⟩ := L.steps leftHere boundL
      simp only [Option.isSome_none, Bool.false_eq_true, if_false, moved, ok_bind]
      cases ls with
      | nil =>
        rw [L.ended leftHere]
        simp only [lift_ok, ok_bind, if_true]
        exact ih leftHere (List.nil_suffix) (fun absurd => (absurd rfl).elim) (by simpa using enough)
      | cons a' ls =>
        rw [L.running leftHere]
        obtain ⟨r₂, begun, rightHere⟩ := R.begins (Or.inr ⟨_, there⟩) boundR
        simp only [lift_ok, ok_bind, Bool.false_eq_true, if_false, begun]
        refine ih leftHere ((List.suffix_cons a _).trans suffix) (fun _ => rightHere)
          (by simp only [List.length_cons] at enough ⊢; omega)

theorem nextLoop_finds {l : x.left.State} {r : x.right.State} {ls rs : List RmRecord} {fuel turns : Nat}
    (leftHere : L.here l ls) (suffix : ls <:+ left) (rightHere : R.here r rs) (enough : ls.length < turns)
    (room : right.length < fuel) (boundL : L.bound ≤ fuel) (boundR : R.bound ≤ fuel) :
    Agree (Outcome L R) (x.nextLoop fuel turns l r) (x.findPair (ls ×ˢ right)) := by
  induction ls generalizing l r rs turns with
  | nil =>
    obtain ⟨turns, rfl⟩ := Nat.exists_eq_succ_of_ne_zero (by omega : turns ≠ 0)
    rw [nextLoop, L.ended leftHere]
    exact .ok ⟨rfl, L.ended leftHere⟩
  | cons a ls ih =>
    simp only [List.length_cons] at enough
    obtain ⟨turns, rfl⟩ := Nat.exists_eq_succ_of_ne_zero (by omega : turns ≠ 0)
    obtain ⟨r₁, begun, rightHere⟩ := R.begins (Or.inr ⟨_, rightHere⟩) boundR
    rw [nextLoop, L.running leftHere, List.product_cons, findPair_append]
    simp only [lift_ok, ok_bind, Bool.false_eq_true, if_false, begun]
    refine (matchRight_finds leftHere rightHere room boundR).bind ?_
    rintro ⟨_, r₂⟩ found _ _ ⟨same, there⟩
    simp only at same there
    subst same
    cases found with
    | some q =>
      obtain ⟨q, rest⟩ := q
      obtain ⟨b, bs, rfl, rfl, within, there⟩ := there
      exact .ok ⟨rfl, ls, bs, rfl, suffix, within, leftHere, there⟩
    | none =>
      obtain ⟨l₁, moved, leftHere⟩ := L.steps leftHere boundL
      simp only [Option.isSome_none, Bool.false_eq_true, if_false, moved, ok_bind]
      exact ih leftHere ((List.suffix_cons a ls).trans suffix) there (by omega)

/-- The state of the join next to the pair it stands at. -/
def StandsAt (L : Iterates x.left left) (R : Iterates x.right right) (s : x.State)
    (found : Option (Pair × List Pair)) : Prop :=
  s.isend = !found.isSome ∧ At L R found s.left s.right

theorem beginTuple_finds {s : x.State} {fuel : Nat} (fresh : s.left = x.left.fresh) (freshR : s.right = x.right.fresh)
    (going : s.isend = false) (room : left.length < fuel) (room' : right.length < fuel) (boundL : L.bound ≤ fuel)
    (boundR : R.bound ≤ fuel) : Agree (StandsAt L R) (x.beginTuple fuel s) (x.findPair (left ×ˢ right)) := by
  obtain ⟨l, begun, leftHere⟩ := L.begins (Or.inl fresh) boundL
  obtain ⟨r, begunR, rightHere⟩ := R.begins (Or.inl freshR) boundR
  unfold beginTuple
  simp only [begun, ok_bind]
  by_cases empty : left = []
  · subst empty
    rw [L.ended leftHere]
    exact .ok ⟨rfl, L.ended leftHere⟩
  · have running : x.left.isEnd l = .ok false := by
      cases left with
      | nil => exact absurd rfl empty
      | cons a ls => exact L.running leftHere
    simp only [running, lift_ok, ok_bind, Bool.false_eq_true, if_false, begunR]
    have search := beginLoop_finds (R := R) leftHere List.suffix_rfl (fun _ => rightHere) room room' boundL boundR
    generalize x.beginLoop fuel fuel l r = loop at search ⊢
    generalize x.findPair (left ×ˢ right) = target at search ⊢
    cases search with
    | error e => exact .error e
    | @ok p found outcome =>
      obtain ⟨same, there⟩ := outcome
      cases found with
      | none =>
        simp only [Option.isSome_none] at same
        simp only [ok_bind, same, Bool.false_eq_true, if_false, show x.left.isEnd p.2.1 = .ok true from there, lift_ok]
        exact .ok ⟨rfl, there⟩
      | some q =>
        simp only [Option.isSome_some] at same
        simp only [ok_bind, same, if_true]
        exact .ok ⟨going, there⟩

theorem nextTuple_finds {s : x.State} {p : Pair} {rest : List Pair} {fuel : Nat}
    (stands : StandsAt L R s (some (p, rest)))
    (room : left.length < fuel) (room' : right.length < fuel) (boundL : L.bound ≤ fuel) (boundR : R.bound ≤ fuel) :
    Agree (StandsAt L R) (x.nextTuple fuel s) (x.findPair rest) := by
  obtain ⟨going, ls, rs, rfl, suffixL, suffixR, leftHere, rightHere⟩ := stands
  have lengthL := suffixL.length_le
  have lengthR := suffixR.length_le
  simp only [List.length_cons] at lengthL lengthR
  obtain ⟨r, moved, rightHere⟩ := R.steps rightHere boundR
  unfold nextTuple
  rw [findPair_append]
  simp only [L.running leftHere, lift_ok, ok_bind, Bool.false_eq_true, if_false, moved]
  refine (matchRight_finds leftHere rightHere (by omega) boundR).bind ?_
  rintro ⟨_, r₁⟩ found _ _ ⟨same, there⟩
  simp only at same there
  subst same
  cases found with
  | some q =>
    obtain ⟨q, rest⟩ := q
    obtain ⟨b, bs, rfl, rfl, within, there⟩ := there
    exact .ok ⟨going, ls, bs, rfl, suffixL, within.trans ((List.suffix_cons _ _).trans suffixR), leftHere, there⟩
  | none =>
    obtain ⟨l, movedL, leftHere⟩ := L.steps leftHere boundL
    simp only [Option.isSome_none, Bool.false_eq_true, if_false, movedL, ok_bind]
    have search := nextLoop_finds leftHere ((List.suffix_cons _ _).trans suffixL) there
      (by omega : ls.length < fuel) room' boundL boundR
    generalize x.nextLoop fuel fuel l r₁ = loop at search ⊢
    generalize x.findPair (ls ×ˢ right) = target at search ⊢
    cases search with
    | error e => exact .error e
    | @ok p found outcome =>
      obtain ⟨same, there⟩ := outcome
      cases found with
      | none =>
        simp only [Option.isSome_none] at same
        simp only [ok_bind, same, Bool.false_eq_true, if_false]
        exact .ok ⟨rfl, there⟩
      | some q =>
        simp only [Option.isSome_some] at same
        simp only [ok_bind, same, if_true]
        exact .ok ⟨going, there⟩

/-- `Next` appends the tuple of the right child to that of the left one. -/
theorem next_append {s : x.State} {l r : RmRecord} (left : x.left.next s.left = .ok (some l))
    (right : x.right.next s.right = .ok (some r)) (sizeL : l.length = x.left.tupleLen)
    (sizeR : r.length = x.right.tupleLen) (small : x.len ≤ intMax) : x.next s = .ok (some (l ++ r)) := by
  have whole : ∀ {E : Executor} {tuple : RmRecord}, tuple.length = E.tupleLen →
      dataAt (some tuple) 0 E.tupleLen = .ok tuple := by
    intro E tuple size
    rw [← size]
    simp [dataAt, RmRecord.bytesAt]
  simp only [next, left, right, ok_bind, if_neg (not_lt.mpr small), whole sizeL, whole sizeR]
  rfl

theorem next_reads {s : x.State} {p : Pair} {rest : List Pair} (stands : StandsAt L R s (some (p, rest)))
    (small : x.len ≤ intMax) : x.next s = .ok (some (p.1 ++ p.2)) := by
  obtain ⟨_, ls, rs, _, suffixL, suffixR, leftHere, rightHere⟩ := stands
  exact next_append (L.reads leftHere) (R.reads rightHere) (L.sized p.1 (suffixL.subset List.mem_cons_self))
    (R.sized p.2 (suffixR.subset List.mem_cons_self)) small

theorem collect_joins {s : x.executor.State} {found : Option (Pair × List Pair)} {fuel turns : Nat}
    (stands : StandsAt L R s found)
    (small : x.len ≤ intMax) (room : left.length < fuel) (room' : right.length < fuel) (boundL : L.bound ≤ fuel)
    (boundR : R.bound ≤ fuel) (enough : ∀ p rest, found = some (p, rest) → rest.length + 1 < turns)
    (positive : 0 < turns) :
    x.executor.collect fuel turns s = x.remaining found := by
  induction turns generalizing s found with
  | zero => omega
  | succ turns ih =>
    have atEnd : x.executor.isEnd s = .ok (!found.isSome) := congrArg Except.ok stands.1
    cases found with
    | none =>
      simp only [Executor.collect, atEnd, Option.isSome_none]
      rfl
    | some q =>
      obtain ⟨p, rest⟩ := q
      have current : x.executor.next s = .ok (some (p.1 ++ p.2)) := next_reads stands small
      have fewer := enough p rest rfl
      have moves : Agree (StandsAt L R) (x.executor.nextTuple fuel s) (x.findPair rest) :=
        nextTuple_finds stands room room' boundL boundR
      rw [remaining, joinPairs_eq, Executor.collect]
      simp only [atEnd, current, Option.isSome_some, lift_ok, ok_bind]
      generalize x.executor.nextTuple fuel s = moved at moves ⊢
      generalize search : x.findPair rest = target at moves ⊢
      cases moves with
      | error e => rfl
      | @ok t following there =>
        have next := ih there (fun p' rest' same => by
          subst same
          have less := (findPair_shorter search).1
          omega) (by omega)
        simp only [ok_bind, next]
        cases following with
        | none => rfl
        | some q => rfl

end

/-- The turns that are enough for every loop of a traversal. -/
def enoughTurns {left right : List RmRecord} (L : Iterates x.left left) (R : Iterates x.right right) : Nat :=
  L.bound + R.bound + left.length + right.length + left.length * right.length + 2

/-- The traversal from the constructor on looks at the pairs in left-major order. -/
theorem traverse_joins {left right : List RmRecord} (L : Iterates x.left left) (R : Iterates x.right right)
    (small : x.len ≤ intMax) {fuel : Nat} (enough : enoughTurns L R ≤ fuel) :
    x.executor.traverse fuel x.executor.fresh = x.joinPairs (left ×ˢ right) := by
  unfold enoughTurns at enough
  have begins : Agree (StandsAt L R) (x.executor.beginTuple fuel x.executor.fresh) (x.findPair (left ×ˢ right)) :=
    beginTuple_finds rfl rfl rfl (by omega) (by omega) (by omega) (by omega)
  rw [Executor.traverse, joinPairs_eq]
  generalize x.executor.beginTuple fuel x.executor.fresh = begun at begins ⊢
  generalize search : x.findPair (left ×ˢ right) = target at begins ⊢
  cases begins with
  | error e => rfl
  | @ok s found stands =>
    have room : left.length < fuel := by omega
    have room' : right.length < fuel := by omega
    refine collect_joins stands small room room' (by omega) (by omega) ?_ (by omega)
    intro p rest same
    subst same
    have less := (findPair_shorter search).1
    rw [List.length_product] at less
    omega

theorem joinPairs_matching {matching : Pair → Bool} {ps : List Pair}
    (evaluates : ∀ p ∈ ps, x.holds p = .ok (matching p)) :
    x.joinPairs ps = .ok ((ps.filter matching).map fun p => some (p.1 ++ p.2)) := by
  induction ps with
  | nil => rfl
  | cons p ps ih =>
    rw [joinPairs, evaluates p List.mem_cons_self, ih fun q member => evaluates q (List.mem_cons_of_mem _ member)]
    cases matched : matching p with
    | true =>
      rw [List.filter_cons_of_pos (by simp [matched])]
      rfl
    | false =>
      rw [List.filter_cons_of_neg (by simp [matched])]
      rfl

theorem findPair_none {ps : List Pair} (evaluates : ∀ p ∈ ps, x.holds p = .ok false) : x.findPair ps = .ok none := by
  induction ps with
  | nil => rfl
  | cons p ps ih =>
    rw [findPair, evaluates p List.mem_cons_self]
    exact ih fun q member => evaluates q (List.mem_cons_of_mem _ member)

theorem new_children {leftChild rightChild : Executor} {conds : List Condition}
    (built : NestedLoopJoinExecutor.new leftChild rightChild conds = .ok x) :
    x.left = leftChild ∧ x.right = rightChild ∧
      x.len = (leftChild.tupleLen + rightChild.tupleLen) % 18446744073709551616 := by
  unfold NestedLoopJoinExecutor.new at built
  split at built
  · cases built
    exact ⟨rfl, rfl, rfl⟩
  · cases built

/-- The first traversal yields the filtered product, in left-major order; a pair whose conditions
cannot be evaluated ends it with that error. -/
theorem filtered_product {leftChild rightChild : Executor} {conds : List Condition}
    (built : NestedLoopJoinExecutor.new leftChild rightChild conds = .ok x) {left right : List RmRecord}
    (L : Iterates leftChild left) (R : Iterates rightChild right)
    (small : leftChild.tupleLen + rightChild.tupleLen ≤ intMax) :
    ∃ enough, ∀ fuel, enough ≤ fuel →
      x.executor.traverse fuel x.executor.fresh = x.joinPairs (left ×ˢ right) ∧
      ∀ matching : Pair → Bool, (∀ p ∈ left ×ˢ right, x.evalConds (some p.1) (some p.2) = .ok (matching p)) →
        x.executor.traverse fuel x.executor.fresh = .ok
          (((left ×ˢ right).filter matching).map fun p => some (p.1 ++ p.2)) ∧
        ((∀ p ∈ left ×ˢ right, matching p = false) →
          ∃ s, x.executor.beginTuple fuel x.executor.fresh = .ok s ∧ x.executor.isEnd s = .ok true) := by
  obtain ⟨rfl, rfl, size⟩ := new_children built
  have small : x.len ≤ intMax := by
    rw [size]
    omega
  refine ⟨enoughTurns L R, fun fuel enough => ?_⟩
  have joins := traverse_joins L R small enough
  refine ⟨joins, fun matching evaluates => ⟨joins.trans (joinPairs_matching evaluates), fun never => ?_⟩⟩
  have nothing : x.findPair (left ×ˢ right) = .ok none := by
    refine findPair_none fun p member => ?_
    rw [← never p member]
    exact evaluates p member
  unfold enoughTurns at enough
  have room : left.length < fuel := by omega
  have room' : right.length < fuel := by omega
  have begins : Agree (StandsAt L R) (x.executor.beginTuple fuel x.executor.fresh) (x.findPair (left ×ˢ right)) :=
    beginTuple_finds rfl rfl rfl room room' (by omega) (by omega)
  rw [nothing] at begins
  generalize x.executor.beginTuple fuel x.executor.fresh = begun at begins ⊢
  cases begins with
  | @ok s _ stands => exact ⟨s, rfl, congrArg Except.ok stands.1⟩

/-- A file of four-byte records, each with one of the bytes four times. -/
def fileOf (v : UInt8) (vs : List UInt8) : RmFile FlatFile :=
  vs.foldl (fun s v => stateAfter (RmFileHandle.insertRecord fun _ => v) s) (Portal.oneRecord v)

theorem fileOf_concat (v : UInt8) (vs : List UInt8) (w : UInt8) (inv : (fileOf v vs).FileInv)
    (space : (fileOf v vs).HasSpace) : (fileOf v (vs ++ [w])).FileInv := by
  obtain ⟨_, t, call, invT, _⟩ := inv.insertRecord space fun _ => w
  rw [fileOf, List.foldl_append]
  change (stateAfter (RmFileHandle.insertRecord fun _ => w) (fileOf v vs)).FileInv
  rw [stateAfter, call]
  exact invT

/-- A scan without conditions over a file of four-byte records. -/
def scanAll (name : String) (fh : RmFile FlatFile) : SeqScanExecutor := ⟨fh, [⟨name, "x", .int, 4, 0, false⟩], 4, []⟩

def scanAllIterates (name : String) {fh : RmFile FlatFile} (inv : fh.FileInv) (size : fh.hdr.recordSize = 4) :
    Iterates (scanAll name fh).executor ((scanAll name fh).rows (RmScan.rids fh)) :=
  SeqScanExecutor.iterates inv (fun _ _ => ⟨true, rfl⟩) fun _ _ live => by
    rw [RmFile.length_of_records live]
    change fh.hdr.recordSize.toNat = 4
    rw [size]
    rfl

/-- `b.x = a.x` between three rows of `b` and two rows of `a`. -/
def equalJoin : NestedLoopJoinExecutor where
  left := (scanAll "b" (fileOf 9 [7, 8])).executor
  right := (scanAll "a" (fileOf 7 [9])).executor
  len := 8
  cols := [⟨"b", "x", .int, 4, 0, false⟩, ⟨"a", "x", .int, 4, 4, false⟩]
  fedConds := [⟨⟨"b", "x"⟩, .eq, false, ⟨"a", "x"⟩, ⟨.int 0, none⟩⟩]

theorem fileOf_left : (fileOf 9 [7, 8]).FileInv ∧ (fileOf 9 [7, 8]).hdr.recordSize = 4 ∧
    (scanAll "b" (fileOf 9 [7, 8])).rows (RmScan.rids (fileOf 9 [7, 8])) =
      [[9, 9, 9, 9], [7, 7, 7, 7], [8, 8, 8, 8]] := by
  refine ⟨?_, by decide +kernel, by decide +kernel⟩
  have two : (fileOf 9 [7]).FileInv :=
    fileOf_concat 9 [] 7 (Portal.oneRecord_inv 9) (Or.inl (by decide +kernel))
  exact fileOf_concat 9 [7] 8 two (Or.inl (by decide +kernel))

theorem fileOf_right : (fileOf 7 [9]).FileInv ∧ (fileOf 7 [9]).hdr.recordSize = 4 ∧
    (scanAll "a" (fileOf 7 [9])).rows (RmScan.rids (fileOf 7 [9])) = [[7, 7, 7, 7], [9, 9, 9, 9]] := by
  refine ⟨?_, by decide +kernel, by decide +kernel⟩
  exact fileOf_concat 7 [] 9 (Portal.oneRecord_inv 7) (Or.inl (by decide +kernel))

/-- The rows 9, 7 and 8 of `b` with the rows 7 and 9 of `a`: two of the six pairs are equal. -/
theorem filtered_product_equal : ∃ enough, ∀ fuel, enough ≤ fuel →
    equalJoin.executor.traverse fuel equalJoin.executor.fresh =
      .ok [some [9, 9, 9, 9, 9, 9, 9, 9], some [7, 7, 7, 7, 7, 7, 7, 7]] := by
  have built : NestedLoopJoinExecutor.new equalJoin.left equalJoin.right equalJoin.fedConds = .ok equalJoin := by
    simp [NestedLoopJoinExecutor.new, SeqScanExecutor.executor, equalJoin, scanAll, wrapInt]
  obtain ⟨inv, size, rows⟩ := fileOf_left
  obtain ⟨inv', size', rows'⟩ := fileOf_right
  obtain ⟨enough, product⟩ := filtered_product built (scanAllIterates "b" inv size) (scanAllIterates "a" inv' size')
    (by decide)
  rw [rows, rows'] at product
  refine ⟨enough, fun fuel large => ?_⟩
  have equal := (product fuel large).2 fun p => p.1 == p.2
  rw [(equal fun p member => ?_).1]
  · rfl
  · obtain ⟨l, r⟩ := p
    obtain ⟨row, row'⟩ := List.pair_mem_product.mp member
    simp only [List.mem_cons, List.not_mem_nil, or_false] at row row'
    rcases row with rfl | rfl | rfl <;> rcases row' with rfl | rfl <;> rfl

end NestedLoopJoinExecutor

end Rmdb
