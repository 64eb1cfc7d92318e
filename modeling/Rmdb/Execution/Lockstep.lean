import Rmdb.Execution.Executors
import Rmdb.Kit.Outcome

namespace Rmdb

variable {α : Type}

theorem lift_ok (a : α) : (liftM (.ok a : Except Error α) : Except Stop α) = .ok a := rfl

theorem lift_eq_ok {x : Except Error α} {a : α} : (liftM x : Except Stop α) = .ok a ↔ x = .ok a := by
  cases x with
  | ok b =>
    change (Except.ok b : Except Stop α) = .ok a ↔ _
    simp
  | error e =>
    change (Except.error (.thrown e) : Except Stop α) = .ok a ↔ _
    simp

/-- A call that does not loop, made by two executors with the same result. -/
theorem agree_lift {β γ : Type} {S : β → γ → Prop} {x y : Except Error α} {f : α → Except Stop β}
    {g : α → Except Stop γ}
    (same : x = y) (rest : ∀ a, x = .ok a → Agree S (f a) (g a)) : Agree S (liftM x >>= f) (liftM y >>= g) := by
  subst same
  refine (Agree.of_eq rfl).bind ?_
  intro a b run _ equal
  subst equal
  exact rest a (lift_eq_ok.mp run)

/-- Two runs of one executor in lockstep. States are `idle` if `beginTuple` does not tell
them apart, and `live` if no call does. -/
structure Lockstep (E : Executor) where
  idle : E.State → E.State → Prop
  live : E.State → E.State → Prop
  idle_of_live : ∀ {s t}, live s t → idle s t
  begins : ∀ {s t}, idle s t → ∀ fuel, Agree live (E.beginTuple fuel s) (E.beginTuple fuel t)
  steps : ∀ {s t}, live s t → ∀ fuel, Agree live (E.nextTuple fuel s) (E.nextTuple fuel t)
  isEnd : ∀ {s t}, live s t → E.isEnd s = E.isEnd t
  next : ∀ {s t}, live s t → E.isEnd s = .ok false → E.next s = E.next t

namespace Lockstep
variable {E : Executor} (W : Lockstep E)

theorem collect_eq {s t : E.State} (live : W.live s t) (fuel turns : Nat) :
    E.collect fuel turns s = E.collect fuel turns t := by
  apply Agree.eq
  induction turns generalizing s t with
  | zero => exact Agree.of_eq rfl
  | succ turns ih =>
    simp only [Executor.collect]
    refine agree_lift (W.isEnd live) ?_
    intro ended run
    cases ended with
    | true => exact .ok rfl
    | false =>
      refine agree_lift (W.next live run) ?_
      intro tuple _
      refine (W.steps live fuel).bind ?_
      intro s' t' _ _ live'
      refine (ih live').bind ?_
      intro rest rest' _ _ same
      subst same
      exact .ok rfl

/-- States that are alike for `beginTuple` give the same tuples. -/
theorem traverse_eq {s t : E.State} (idle : W.idle s t) (fuel : Nat) : E.traverse fuel s = E.traverse fuel t := by
  apply Agree.eq
  refine (W.begins idle fuel).bind ?_
  intro s' t' _ _ live
  exact Agree.of_eq (W.collect_eq live fuel fuel)

/-- A run next to itself. -/
def refl (E : Executor) : Lockstep E where
  idle s t := s = t
  live s t := s = t
  idle_of_live same := same
  begins same _ := Agree.of_eq (by rw [same])
  steps same _ := Agree.of_eq (by rw [same])
  isEnd same := by rw [same]
  next same _ := by rw [same]

end Lockstep

namespace SeqScanExecutor
variable (x : SeqScanExecutor)

/-- What a state of the scan lets later calls see. -/
def Live (s t : State) : Prop := s.scan = t.scan ∧ (isEnd s = .ok false → s.rid = t.rid)

/-- The old `rid_` shows only if the scan is over. -/
theorem search_agree (turns : Nat) (scan : RmScan) (rid rid' : Option Rid) :
    Agree Live (x.search turns scan rid) (x.search turns scan rid') := by
  cases turns with
  | zero => exact .error _
  | succ turns =>
    simp only [search]
    by_cases ended : scan.isEnd = true
    · rw [if_pos ended, if_pos ended]
      refine .ok ⟨rfl, fun running => ?_⟩
      simp [isEnd, ended] at running
    · rw [if_neg ended, if_neg ended]
      refine (Agree.of_eq rfl).mono ?_
      intro s t same
      subst same
      exact ⟨rfl, fun _ => rfl⟩

/-- `beginTuple` makes a new scan, so nothing is left of the old one. -/
def lockstep : Lockstep x.executor where
  idle _ _ := True
  live := Live
  idle_of_live _ := trivial
  begins {s t} _ fuel := by
    refine agree_lift rfl ?_
    intro scan _
    exact x.search_agree fuel scan s.rid t.rid
  steps {s t} live fuel := by
    obtain ⟨scan, rid⟩ := s
    obtain ⟨scan', rid'⟩ := t
    obtain ⟨same, _⟩ := live
    simp only at same
    subst same
    cases scan with
    | none => exact .error _
    | some scan =>
      refine agree_lift rfl ?_
      intro following _
      exact x.search_agree fuel following rid rid'
  isEnd {s t} live := by
    change isEnd s = isEnd t
    unfold isEnd
    rw [live.1]
  next {s t} live running := by
    change x.next s = x.next t
    unfold next
    rw [live.2 running]

end SeqScanExecutor

/-- An executor without calls of its own has no state. -/
def Executor.stubLockstep : Lockstep Executor.stub where
  idle _ _ := True
  live _ _ := True
  idle_of_live _ := trivial
  begins _ _ := .ok trivial
  steps _ _ := .ok trivial
  isEnd _ := rfl
  next _ _ := rfl

/-- A projection has the state of its child. -/
def ProjectionExecutor.lockstep (x : ProjectionExecutor) (W : Lockstep x.prev) : Lockstep x.executor where
  idle := W.idle
  live := W.live
  idle_of_live := W.idle_of_live
  begins := W.begins
  steps := W.steps
  isEnd := W.isEnd
  next {s t} live running := by
    change x.next s = x.next t
    unfold next
    rw [W.next live running]

namespace NestedLoopJoinExecutor
variable {x : NestedLoopJoinExecutor} (L : Lockstep x.left) (R : Lockstep x.right)

/-- The children in lockstep. Once the left one is over the right one is not looked at
before it is started again. -/
structure Paired (l l' : x.left.State) (r r' : x.right.State) : Prop where
  left : L.live l l'
  idle : R.idle r r'
  right : x.left.isEnd l = .ok false → R.live r r'

/-- How an outer loop ends: with a match, or with the left child. -/
def Settled (found : Bool) (l : x.left.State) (r : x.right.State) : Prop :=
  if found then x.left.isEnd l = .ok false ∧ x.right.isEnd r = .ok false else x.left.isEnd l = .ok true

/-- The results of an outer loop. -/
structure Met (p q : Bool × x.left.State × x.right.State) : Prop where
  found : p.1 = q.1
  paired : Paired L R p.2.1 q.2.1 p.2.2 q.2.2
  settled : Settled p.1 p.2.1 p.2.2

variable {L R}

theorem matchRight_agree {l l' : x.left.State} {r r' : x.right.State} (fuel turns : Nat) (left : L.live l l')
    (running : x.left.isEnd l = .ok false) (right : R.live r r') :
    Agree (fun p q => p.1 = q.1 ∧ R.live p.2 q.2 ∧ (p.1 = true → x.right.isEnd p.2 = .ok false))
      (x.matchRight fuel l turns r) (x.matchRight fuel l' turns r') := by
  induction turns generalizing r r' with
  | zero => exact .error _
  | succ turns ih =>
    simp only [matchRight]
    refine agree_lift (R.isEnd right) ?_
    intro ended run
    cases ended with
    | true => exact .ok ⟨rfl, right, fun found => by cases found⟩
    | false =>
      refine agree_lift (L.next left running) ?_
      intro leftRec _
      refine agree_lift (R.next right run) ?_
      intro rightRec _
      refine agree_lift rfl ?_
      intro holds _
      cases holds with
      | true => exact .ok ⟨rfl, right, fun _ => run⟩
      | false =>
        refine (R.steps right fuel).bind ?_
        intro s t _ _ live
        exact ih live

theorem beginLoop_agree {l l' : x.left.State} {r r' : x.right.State} (fuel turns : Nat)
    (paired : Paired L R l l' r r') :
    Agree (Met L R) (x.beginLoop fuel turns l r) (x.beginLoop fuel turns l' r') := by
  induction turns generalizing l l' r r' with
  | zero => exact .error _
  | succ turns ih =>
    simp only [beginLoop]
    refine agree_lift (L.isEnd paired.left) ?_
    intro ended run
    cases ended with
    | true => exact .ok ⟨rfl, paired, run⟩
    | false =>
      refine (matchRight_agree fuel fuel paired.left run (paired.right run)).bind ?_
      rintro ⟨found, r₁⟩ ⟨found', r₁'⟩ _ _ ⟨same, right, atMatch⟩
      simp only at same right atMatch
      subst same
      cases found with
      | true => exact .ok ⟨rfl, ⟨paired.left, R.idle_of_live right, fun _ => right⟩, run, atMatch rfl⟩
      | false =>
        refine (L.steps paired.left fuel).bind ?_
        intro l₁ l₁' _ _ left
        refine agree_lift (L.isEnd left) ?_
        intro ended run
        cases ended with
        | true => exact ih ⟨left, R.idle_of_live right, fun _ => right⟩
        | false =>
          refine (R.begins (R.idle_of_live right) fuel).bind ?_
          intro r₂ r₂' _ _ right
          exact ih ⟨left, R.idle_of_live right, fun _ => right⟩

theorem nextLoop_agree {l l' : x.left.State} {r r' : x.right.State} (fuel turns : Nat) (left : L.live l l')
    (idle : R.live r r') : Agree (Met L R) (x.nextLoop fuel turns l r) (x.nextLoop fuel turns l' r') := by
  induction turns generalizing l l' r r' with
  | zero => exact .error _
  | succ turns ih =>
    simp only [nextLoop]
    refine agree_lift (L.isEnd left) ?_
    intro ended run
    cases ended with
    | true => exact .ok ⟨rfl, ⟨left, R.idle_of_live idle, fun _ => idle⟩, run⟩
    | false =>
      refine (R.begins (R.idle_of_live idle) fuel).bind ?_
      intro r₁ r₁' _ _ right
      refine (matchRight_agree fuel fuel left run right).bind ?_
      rintro ⟨found, r₂⟩ ⟨found', r₂'⟩ _ _ ⟨same, right, atMatch⟩
      simp only at same right atMatch
      subst same
      cases found with
      | true => exact .ok ⟨rfl, ⟨left, R.idle_of_live right, fun _ => right⟩, run, atMatch rfl⟩
      | false =>
        refine (L.steps left fuel).bind ?_
        intro l₁ l₁' _ _ left
        exact ih left right

/-- The outer loop of `beginTuple` stops at a match or at the end of the left child. -/
theorem beginLoop_settled {l l₁ : x.left.State} {r r₁ : x.right.State} {fuel turns : Nat} {found : Bool}
    (run : x.beginLoop fuel turns l r = .ok (found, l₁, r₁)) : Settled found l₁ r₁ := by
  have paired : Paired (Lockstep.refl x.left) (Lockstep.refl x.right) l l r r := ⟨rfl, rfl, fun _ => rfl⟩
  exact ((beginLoop_agree fuel turns paired).of_ok run run).settled

variable (L R)

/-- States of the join that no call tells apart. -/
structure Live (s t : x.State) : Prop where
  isend : s.isend = t.isend
  paired : Paired L R s.left t.left s.right t.right
  running : s.isend = false → x.left.isEnd s.left = .ok false ∧ x.right.isEnd s.right = .ok false

variable {L R}

theorem beginTuple_agree {s t : x.State} (fuel : Nat) (isend : s.isend = t.isend) (left : L.idle s.left t.left)
    (right : R.idle s.right t.right) : Agree (Live L R) (x.beginTuple fuel s) (x.beginTuple fuel t) := by
  refine (L.begins left fuel).bind ?_
  intro l l' _ _ left
  refine agree_lift (L.isEnd left) ?_
  intro ended run
  cases ended with
  | true =>
    refine agree_lift (L.isEnd left) ?_
    intro isend again
    rw [run] at again
    cases again
    refine .ok ⟨rfl, ⟨left, right, fun running => ?_⟩, fun running => by cases running⟩
    rw [run] at running
    cases running
  | false =>
    refine (R.begins right fuel).bind ?_
    intro r r' _ _ right
    refine (beginLoop_agree fuel fuel ⟨left, R.idle_of_live right, fun _ => right⟩).bind ?_
    rintro ⟨found, l₁, r₁⟩ ⟨found', l₁', r₁'⟩ _ _ ⟨same, paired, settled⟩
    simp only at same paired settled
    subst same
    cases found with
    | true => exact .ok ⟨isend, paired, fun _ => settled⟩
    | false =>
      refine agree_lift (L.isEnd paired.left) ?_
      intro isend again
      rw [show x.left.isEnd l₁ = .ok true from settled] at again
      cases again
      exact .ok ⟨rfl, paired, fun running => by cases running⟩

theorem nextTuple_agree {s t : x.State} (fuel : Nat) (isend : s.isend = t.isend)
    (paired : Paired L R s.left t.left s.right t.right) :
    Agree (Live L R) (x.nextTuple fuel s) (x.nextTuple fuel t) := by
  refine agree_lift (L.isEnd paired.left) ?_
  intro ended run
  cases ended with
  | true => exact .error _
  | false =>
    refine (R.steps (paired.right run) fuel).bind ?_
    intro r r' _ _ right
    refine (matchRight_agree fuel fuel paired.left run right).bind ?_
    rintro ⟨found, r₁⟩ ⟨found', r₁'⟩ _ _ ⟨same, right, atMatch⟩
    simp only at same right atMatch
    subst same
    cases found with
    | true =>
      exact .ok ⟨isend, ⟨paired.left, R.idle_of_live right, fun _ => right⟩, fun _ => ⟨run, atMatch rfl⟩⟩
    | false =>
      refine (L.steps paired.left fuel).bind ?_
      intro l l' _ _ left
      refine (nextLoop_agree fuel fuel left right).bind ?_
      rintro ⟨found, l₁, r₂⟩ ⟨found', l₁', r₂'⟩ _ _ ⟨same, paired, settled⟩
      simp only at same paired settled
      subst same
      cases found with
      | true => exact .ok ⟨isend, paired, fun _ => settled⟩
      | false => exact .ok ⟨rfl, paired, fun running => by cases running⟩

/-- A join passes on what its children let see, and its own flag. -/
def lockstep (L : Lockstep x.left) (R : Lockstep x.right) : Lockstep x.executor where
  idle s t := s.isend = t.isend ∧ L.idle s.left t.left ∧ R.idle s.right t.right
  live := Live L R
  idle_of_live live := ⟨live.isend, L.idle_of_live live.paired.left, live.paired.idle⟩
  begins idle fuel := beginTuple_agree fuel idle.1 idle.2.1 idle.2.2
  steps live fuel := nextTuple_agree fuel live.isend live.paired
  isEnd live := congrArg Except.ok live.isend
  next {s t} live running := by
    have not_end : s.isend = false := by simpa [executor] using running
    obtain ⟨left, right⟩ := live.running not_end
    change x.next s = x.next t
    unfold next
    rw [L.next live.paired.left left, R.next (live.paired.right left) right]

end NestedLoopJoinExecutor

end Rmdb
