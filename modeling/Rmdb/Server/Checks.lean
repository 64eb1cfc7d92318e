import Rmdb.Execution.Converted
import Rmdb.Execution.TypeErrors
import Rmdb.Server.Handler

namespace Rmdb
open Analyze

/-- Something that is looked at before a statement goes on. A message is as long as this if it fails; 0 stands for the
messages that carry no name. -/
structure Check where
  passes : Prop
  len : Nat

def Check.Fits (k : Check) : Prop := k.passes ∨ k.len + 2 ≤ BUFFER_LENGTH

/-- The first check that fails gives a message that fits. -/
abbrev AllFit (ks : List Check) : Prop := UpTo Check.passes Check.Fits ks

/-- The checks are all that a call makes, in order. -/
structure Decides {α : Type} (strerror : String) (ks : List Check) (x : Except Error α) : Prop where
  ends : Throws (Error.Fits strerror) x ↔ AllFit ks
  passes : (∃ a, x = .ok a) ↔ ∀ k ∈ ks, k.passes

theorem AllFit.of_passes {ks : List Check} (all : ∀ k ∈ ks, k.passes) : AllFit ks :=
  .of_forall fun k member => Or.inl (all k member)

theorem allFit_one {k : Check} : AllFit [k] ↔ k.Fits := by
  simp [UpTo]

theorem allFit_cons {k : Check} {ks : List Check} : AllFit (k :: ks) ↔ k.Fits ∧ (k.passes → AllFit ks) := Iff.rfl

theorem allFit_append {ks ls : List Check} : AllFit (ks ++ ls) ↔ AllFit ks ∧ ((∀ k ∈ ks, k.passes) → AllFit ls) := by
  induction ks with
  | nil => simp [UpTo]
  | cons k ks ih =>
    simp only [AllFit, List.cons_append, UpTo, List.forall_mem_cons] at ih ⊢
    rw [ih]
    tauto

namespace Decides
variable {α β : Type} {strerror : String} {ks ls : List Check} {k : Check} {x : Except Error α}

theorem pure (a : α) : Decides strerror [] (.ok a : Except Error α) :=
  ⟨iff_of_true trivial trivial, iff_of_true ⟨a, rfl⟩ fun k member => by cases member⟩

/-- One check with its error. -/
theorem one (ok : k.passes → ∃ a, x = .ok a)
    (fails : ¬k.passes → ∃ e, x = .error e ∧ (e.Fits strerror ↔ k.len + 2 ≤ BUFFER_LENGTH)) :
    Decides strerror [k] x := by
  by_cases pass : k.passes
  · obtain ⟨a, rfl⟩ := ok pass
    exact ⟨iff_of_true trivial ⟨Or.inl pass, fun _ => trivial⟩, iff_of_true ⟨a, rfl⟩ (by simpa using pass)⟩
  · obtain ⟨e, rfl, len⟩ := fails pass
    constructor
    · simp only [UpTo, Check.Fits, pass, false_or, false_imp_iff, and_true]
      exact len
    · simp [pass]

/-- A check whose messages are all short. -/
theorem short {p : Prop} (fits : Throws (Error.Fits strerror) x) (passes : (∃ a, x = .ok a) ↔ p) :
    Decides strerror [⟨p, 0⟩] x :=
  ⟨iff_of_true fits ⟨Or.inr (show 0 + 2 ≤ BUFFER_LENGTH by decide), fun _ => trivial⟩, by simpa using passes⟩

theorem bind {f : α → Except Error β} (first : Decides strerror ks x)
    (rest : ∀ a, x = .ok a → Decides strerror ls (f a)) : Decides strerror (ks ++ ls) (x >>= f) := by
  cases x with
  | error e =>
    have stopped : ¬∀ k ∈ ks, k.passes := fun all => by
      obtain ⟨a, run⟩ := first.passes.mpr all
      cases run
    constructor
    · rw [allFit_append, ← first.ends]
      exact ⟨fun fits => ⟨fits, fun all => (stopped all).elim⟩, fun both => both.1⟩
    · refine iff_of_false (fun ⟨a, run⟩ => by cases run) fun all => stopped fun k member => ?_
      exact all k (List.mem_append_left _ member)
  | ok a =>
    have all := first.passes.mp ⟨a, rfl⟩
    have later := rest a rfl
    constructor
    · rw [allFit_append, ← later.ends]
      exact ⟨fun fits => ⟨.of_passes all, fun _ => fits⟩, fun both => both.2 all⟩
    · rw [List.forall_mem_append, ← later.passes]
      exact ⟨fun ok => ⟨all, ok⟩, fun both => both.2⟩

/-- What follows gives short messages only. -/
theorem andThen {f : α → Except Error β} {p : Prop} (first : Decides strerror ks x)
    (fits : ∀ a, x = .ok a → Throws (Error.Fits strerror) (f a)) (whole : (∃ b, x >>= f = .ok b) ↔ p) :
    Decides strerror (ks ++ [⟨p, 0⟩]) (x >>= f) :=
  first.bind fun a run => .short (fits a run) (by rw [← whole, run, ok_bind])

theorem last (first : Decides strerror ks x) (f : α → β) : Decides strerror ks (x >>= fun a => .ok (f a)) := by
  have whole := first.bind fun a _ => Decides.pure (f a)
  rwa [List.append_nil] at whole

theorem mapM {f : α → Except Error β} {checks : α → List Check} {l : List α}
    (each : ∀ a ∈ l, Decides strerror (checks a) (f a)) : Decides strerror (l.flatMap checks) (l.mapM f) := by
  induction l with
  | nil => exact .pure _
  | cons a l ih =>
    obtain ⟨here, each⟩ := List.forall_mem_cons.mp each
    rw [List.mapM_cons, List.flatMap_cons]
    exact here.bind fun b _ => (ih each).last fun bs => b :: bs

/-- What follows the checks decides the rest. -/
theorem stops_iff {γ : Type} {f : γ → α → Except Stop β} (first : Decides strerror ks x) (inhabited : Nonempty γ)
    (rest : ∀ a, x = .ok a → ((∀ env, Stops (Error.Fits strerror) (f env a)) ↔ AllFit ls)) :
    (∀ env, Stops (Error.Fits strerror) ((liftM x : Except Stop α) >>= f env)) ↔ AllFit (ks ++ ls) := by
  rw [allFit_append, ← first.ends, ← first.passes]
  cases x with
  | error e =>
    have none : ¬∃ a, (.error e : Except Error α) = .ok a := fun ⟨a, run⟩ => by cases run
    exact ⟨fun fits => ⟨fits inhabited.some, fun all => (none all).elim⟩, fun both _ => both.1⟩
  | ok a =>
    rw [← rest a rfl]
    exact ⟨fun fits => ⟨trivial, fun _ => fits⟩, fun both => both.2 ⟨a, rfl⟩⟩

end Decides

end Rmdb
