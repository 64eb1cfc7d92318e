import Mathlib.Data.List.Basic
import Mathlib.Tactic.Common

namespace Rmdb.Clip
variable {α : Type}

/-! Output into limited space, piece by piece. A piece is printed if nothing was cut so far and
it ends before the limit; a piece that is not printed may or may not leave a mark. -/

structure Piece (α : Type) where
  text : List α
  marks : Bool

def texts (ps : List (Piece α)) : List α := (ps.map (·.text)).flatten

@[simp] theorem texts_nil : texts ([] : List (Piece α)) = [] := rfl

@[simp] theorem texts_cons (p : Piece α) (ps : List (Piece α)) : texts (p :: ps) = p.text ++ texts ps := rfl

variable (limit : Nat)

/-- What is printed, and whether a mark was left. -/
def step (out : List α × Bool) (p : Piece α) : List α × Bool :=
  if out.2 = false ∧ out.1.length + p.text.length < limit then (out.1 ++ p.text, false)
  else (out.1, out.2 || p.marks)

def run (out : List α × Bool) (ps : List (Piece α)) : List α × Bool := ps.foldl (step limit) out

/-- A piece without a mark is followed by one that leaves a mark and is not shorter. -/
def Guarded : List (Piece α) → Prop
  | [] => True
  | p :: ps => (p.marks = false → ∃ q rest, ps = q :: rest ∧ q.marks = true ∧ p.text.length ≤ q.text.length) ∧
      Guarded ps

theorem guarded_cons {p : Piece α} {ps : List (Piece α)} (marks : p.marks = true) (guarded : Guarded ps) :
    Guarded (p :: ps) := ⟨fun unmarked => absurd (marks.symm.trans unmarked) (by simp), guarded⟩

theorem guarded_append {ps qs : List (Piece α)} (marks : ∀ p ∈ ps, p.marks = true) (guarded : Guarded qs) :
    Guarded (ps ++ qs) := by
  induction ps with
  | nil => exact guarded
  | cons p ps ih =>
    obtain ⟨here, marks⟩ := List.forall_mem_cons.mp marks
    exact guarded_cons here (ih marks)

variable {limit} {out : List α} {ps : List (Piece α)}

theorem run_append (out : List α × Bool) (ps qs : List (Piece α)) :
    run limit out (ps ++ qs) = run limit (run limit out ps) qs := List.foldl_append

/-- The output stays below the limit. -/
theorem step_length {out : List α × Bool} (small : out.1.length < limit) (p : Piece α) :
    (step limit out p).1.length < limit := by
  unfold step
  split
  · rename_i fits
    rw [List.length_append]
    exact fits.2
  · exact small

theorem run_length {out : List α × Bool} (small : out.1.length < limit) (ps : List (Piece α)) :
    (run limit out ps).1.length < limit := by
  induction ps generalizing out with
  | nil => exact small
  | cons p ps ih => exact ih (step_length small p)

/-- After a mark nothing is printed. -/
theorem run_marked : run limit (out, true) ps = (out, true) := by
  induction ps with
  | nil => rfl
  | cons p ps ih =>
    have skipped : step limit (out, true) p = (out, true) := by simp [step]
    rw [run, List.foldl_cons, skipped]
    exact ih

/-- What is printed is a number of pieces from the front, and there is a mark exactly if it is not all of them. -/
theorem run_guarded (guarded : Guarded ps) : ∃ shown hidden, ps = shown ++ hidden ∧
    run limit (out, false) ps = (out ++ texts shown, !hidden.isEmpty) := by
  induction ps generalizing out with
  | nil => exact ⟨[], [], rfl, by simp [run]⟩
  | cons p ps ih =>
    obtain ⟨follows, guarded⟩ := guarded
    by_cases fits : out.length + p.text.length < limit
    · have printed : step limit (out, false) p = (out ++ p.text, false) := by simp [step, fits]
      obtain ⟨shown, hidden, split, ran⟩ := @ih (out ++ p.text) guarded
      refine ⟨p :: shown, hidden, by rw [split, List.cons_append], ?_⟩
      rw [run, List.foldl_cons, printed, texts_cons, ← List.append_assoc]
      exact ran
    · have skipped : step limit (out, false) p = (out, p.marks) := by simp [step, fits]
      refine ⟨[], p :: ps, rfl, ?_⟩
      rw [run, List.foldl_cons, skipped, texts_nil, List.append_nil]
      cases marks : p.marks with
      | true => exact run_marked
      | false =>
        -- the piece behind it does not fit either
        obtain ⟨q, rest, rfl, marks', longer⟩ := follows marks
        have skipped' : step limit (out, false) q = (out, true) := by
          rw [step, if_neg (by simp only [true_and]; omega), marks']
          rfl
        rw [List.foldl_cons, skipped']
        exact run_marked

end Rmdb.Clip
