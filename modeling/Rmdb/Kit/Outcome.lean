import Rmdb.Kit.Result

namespace Rmdb
variable {ε α β γ δ : Type}

/-! A call that may fail, judged by its result. -/

/-- A call returns a value with the property or fails with one of the allowed errors. -/
def Ends (allowed : ε → Prop) (post : α → Prop) : Except ε α → Prop
  | .ok a => post a
  | .error e => allowed e

namespace Ends
variable {allowed : ε → Prop} {post : α → Prop} {x : Except ε α}

theorem of_ok {a : α} (ends : Ends allowed post x) (run : x = .ok a) : post a := by
  subst run
  exact ends

theorem mono {weaker : α → Prop} (ends : Ends allowed post x) (implies : ∀ a, post a → weaker a) :
    Ends allowed weaker x := by
  cases x with
  | ok a => exact implies a ends
  | error e => exact ends

theorem bind {after : β → Prop} {f : α → Except ε β} (first : Ends allowed post x)
    (rest : ∀ a, x = .ok a → post a → Ends allowed after (f a)) : Ends allowed after (x >>= f) := by
  cases x with
  | ok a => exact rest a rfl first
  | error e => exact first

theorem bind_iff {after : β → Prop} {f : α → Except ε β} :
    Ends allowed after (x >>= f) ↔ Ends allowed (fun a => Ends allowed after (f a)) x := by
  cases x with
  | ok a => exact Iff.rfl
  | error e => exact Iff.rfl

/-- A call that ends in order has a first part that does. -/
theorem first {after : β → Prop} {f : α → Except ε β} (ends : Ends allowed after (x >>= f)) :
    Ends allowed (fun _ => True) x := (bind_iff.mp ends).mono fun _ _ => trivial

theorem iff_and_values : Ends allowed post x ↔ Ends allowed (fun _ => True) x ∧ ∀ a, x = .ok a → post a := by
  cases x with
  | ok a =>
    constructor
    · rintro holds
      refine ⟨trivial, ?_⟩
      rintro b ⟨⟩
      exact holds
    · exact fun both => both.2 a rfl
  | error e => exact ⟨fun fails => ⟨fails, fun a same => by cases same⟩, fun both => both.1⟩

/-- Of a call that only fails in allowed ways the values remain to be judged. -/
theorem iff_values (fails : Ends allowed (fun _ => True) x) : Ends allowed post x ↔ ∀ a, x = .ok a → post a :=
  iff_and_values.trans (and_iff_right fails)

end Ends

/-- A property of the elements of a list, of each provided that all before it pass. -/
def UpTo (passes holds : α → Prop) : List α → Prop
  | [] => True
  | a :: as => holds a ∧ (passes a → UpTo passes holds as)

theorem UpTo.of_forall {passes holds : α → Prop} {l : List α} (all : ∀ a ∈ l, holds a) :
    UpTo passes holds l := by
  induction l with
  | nil => trivial
  | cons a as ih =>
    obtain ⟨here, all⟩ := List.forall_mem_cons.mp all
    exact ⟨here, fun _ => ih all⟩

theorem UpTo.congr {passes passes' holds holds' : α → Prop} {l : List α} (pass : ∀ a ∈ l, passes a ↔ passes' a)
    (hold : ∀ a ∈ l, holds a ↔ holds' a) : UpTo passes holds l ↔ UpTo passes' holds' l := by
  induction l with
  | nil => exact Iff.rfl
  | cons a as ih =>
    obtain ⟨passHere, pass⟩ := List.forall_mem_cons.mp pass
    obtain ⟨holdHere, hold⟩ := List.forall_mem_cons.mp hold
    unfold UpTo
    rw [passHere, holdHere, ih pass hold]

/-- A loop that ends with the first call that fails. -/
theorem Ends.mapM_iff {allowed : ε → Prop} {f : α → Except ε β} {l : List α} :
    Ends allowed (fun _ => True) (l.mapM f) ↔
      UpTo (fun a => ∃ b, f a = .ok b) (fun a => Ends allowed (fun _ => True) (f a)) l := by
  induction l with
  | nil => exact iff_of_true trivial trivial
  | cons a as ih =>
    rw [List.mapM_cons, Ends.bind_iff, UpTo, ← ih]
    cases run : f a with
    | error e => simp [Ends]
    | ok b =>
      change Ends allowed _ (as.mapM f >>= fun bs => pure (b :: bs)) ↔ _
      rw [Ends.bind_iff]
      simp only [Ends, true_and, Except.ok.injEq, exists_eq', true_imp_iff]
      cases as.mapM f <;> exact Iff.rfl

/-- Two calls fail alike or return related values. -/
inductive Agree (R : α → β → Prop) : Except ε α → Except ε β → Prop
  | ok {a : α} {b : β} (related : R a b) : Agree R (.ok a) (.ok b)
  | error (e : ε) : Agree R (.error e) (.error e)

namespace Agree
variable {R : α → β → Prop} {x : Except ε α} {y : Except ε β}

theorem bind {S : γ → δ → Prop} {f : α → Except ε γ} {g : β → Except ε δ} (first : Agree R x y)
    (rest : ∀ a b, x = .ok a → y = .ok b → R a b → Agree S (f a) (g b)) : Agree S (x >>= f) (y >>= g) := by
  cases first with
  | ok related => exact rest _ _ rfl rfl related
  | error e => exact .error e

theorem mono {S : α → β → Prop} (agree : Agree R x y) (implies : ∀ a b, R a b → S a b) : Agree S x y := by
  cases agree with
  | ok related => exact .ok (implies _ _ related)
  | error e => exact .error e

theorem of_eq {x y : Except ε α} (same : x = y) : Agree Eq x y := by
  subst same
  cases x with
  | ok a => exact .ok rfl
  | error e => exact .error e

theorem self {P : α → Prop} (x : Except ε α) (property : ∀ a, x = .ok a → P a) :
    Agree (fun a b => a = b ∧ P a) x x := by
  cases x with
  | ok a => exact .ok ⟨rfl, property a rfl⟩
  | error e => exact .error e

theorem of_ok {a : α} {b : β} (agree : Agree R x y) (left : x = .ok a) (right : y = .ok b) : R a b := by
  subst left right
  cases agree with
  | ok related => exact related

theorem eq {x y : Except ε α} (agree : Agree Eq x y) : x = y := by
  cases agree with
  | ok same => rw [same]
  | error e => rfl

end Agree

end Rmdb
