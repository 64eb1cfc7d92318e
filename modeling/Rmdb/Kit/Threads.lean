import Mathlib.Logic.Relation
import Mathlib.Tactic.Common

namespace Rmdb
variable {σ τ : Type}

/-! Threads over a shared state. -/

/-- What a thread does in one step to the shared state and to itself, and the threads that it creates. -/
structure Threads (σ τ : Type) where
  step : σ → τ → σ → τ → List τ → Prop

namespace Threads
variable (T : Threads σ τ)

/-- One of the threads makes a step. -/
inductive Step : σ × List τ → σ × List τ → Prop
  | mk {s s' : σ} {front back new : List τ} {t t' : τ} : T.step s t s' t' new →
      Step (s, front ++ t :: back) (s', front ++ t' :: back ++ new)

/-- Any number of steps, in any order of the threads. -/
def Steps : σ × List τ → σ × List τ → Prop := Relation.ReflTransGen T.Step

variable {T} {c d : σ × List τ}

/-- A mutex: whether it is locked, and which threads have it. Whoever takes it finds it free, and whoever gives it up or
passes it to a new thread has it. -/
structure Mutex (T : Threads σ τ) where
  locked : σ → Bool
  has : τ → Bool
  turns : ∀ s t s' t' new, T.step s t s' t' new → (has t = true → locked s = true) →
    (locked s').toNat + (has t).toNat = (locked s).toNat + (has t').toNat + new.countP has

namespace Mutex
variable (M : Mutex T)

/-- One thread has it when it is locked, and none when it is not. -/
def Kept (c : σ × List τ) : Prop := c.2.countP M.has = (M.locked c.1).toNat

variable {M}

theorem Kept.locked {s : σ} {ts : List τ} (kept : M.Kept (s, ts)) {t : τ} (member : t ∈ ts)
    (holder : M.has t = true) : M.locked s = true := by
  have some : 0 < ts.countP M.has := List.countP_pos_iff.mpr ⟨t, member, holder⟩
  change ts.countP M.has = (M.locked s).toNat at kept
  rw [← Bool.toNat_eq_one]
  have bound := Bool.toNat_le (M.locked s)
  omega

theorem Kept.step (kept : M.Kept c) (step : T.Step c d) : M.Kept d := by
  cases step with
  | @mk s s' front back new t t' step =>
    have turn := M.turns s t s' t' new step fun holder => kept.locked (by simp) holder
    have count : ∀ u, [u].countP M.has = (M.has u).toNat := fun u => by
      cases here : M.has u <;> simp [here]
    have before : (front ++ [t] ++ back).countP M.has = (M.locked s).toNat := by simpa [Kept] using kept
    have after : (front ++ [t'] ++ back ++ new).countP M.has = (M.locked s').toNat := by
      rw [List.countP_append, List.countP_append, count] at before
      rw [List.countP_append, List.countP_append, List.countP_append, count]
      omega
    simpa [Kept] using after

theorem Kept.steps (kept : M.Kept c) (steps : T.Steps c d) : M.Kept d := by
  induction steps with
  | refl => exact kept
  | tail _ last ih => exact ih.step last

/-- Never two threads have it. -/
theorem Kept.others {s : σ} {front back : List τ} {t : τ} (kept : M.Kept (s, front ++ t :: back))
    (holder : M.has t = true) : ∀ u ∈ front ++ back, M.has u = false := by
  have bound := Bool.toNat_le (M.locked s)
  simp only [Kept, List.countP_append, List.countP_cons, holder, if_true] at kept
  have none : (front ++ back).countP M.has = 0 := by
    rw [List.countP_append]
    omega
  intro u member
  rw [← Bool.not_eq_true]
  exact List.countP_eq_zero.mp none u member

/-- Somebody has a locked mutex. -/
theorem Kept.holder {s : σ} {ts : List τ} (kept : M.Kept (s, ts)) (locked : M.locked s = true) :
    ∃ t ∈ ts, M.has t = true := by
  change ts.countP M.has = (M.locked s).toNat at kept
  have one : ts.countP M.has = 1 := by rw [kept, locked, Bool.toNat_true]
  exact List.countP_pos_iff.mp (by omega)

/-- A property holds of all threads if their own steps keep it, and so do those of others that do not have the mutex at
the same time. -/
theorem Kept.all {holds : σ → τ → Prop}
    (own : ∀ s t s' t' new, T.step s t s' t' new → holds s t → holds s' t' ∧ ∀ u ∈ new, holds s' u)
    (others : ∀ s t s' t' new u, T.step s t s' t' new → (M.has t = true → M.has u = false) → holds s u → holds s' u)
    (kept : M.Kept c) (start : ∀ t ∈ c.2, holds c.1 t) (steps : T.Steps c d) : ∀ t ∈ d.2, holds d.1 t := by
  induction steps with
  | refl => exact start
  | tail before last ih =>
    cases last with
    | @mk s s' front back new t t' step =>
      obtain ⟨after, born⟩ := own s t s' t' new step (ih t (by simp))
      have kept' : M.Kept (s, front ++ t :: back) := kept.steps before
      have frame : ∀ u ∈ front ++ back, holds s' u := by
        intro u member
        refine others s t s' t' new u step (fun holder => kept'.others holder u member) (ih u ?_)
        simp only [List.mem_append, List.mem_cons] at member ⊢
        tauto
      intro u member
      simp only [List.mem_append, List.mem_cons] at member frame
      rcases member with (here | rfl | here) | here
      · exact frame u (Or.inl here)
      · exact after
      · exact frame u (Or.inr here)
      · exact born u here

end Mutex

end Threads

end Rmdb
