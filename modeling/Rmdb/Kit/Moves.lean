import Mathlib.Order.Defs.Unbundled
import Rmdb.Kit.Result

namespace Rmdb
variable {ε σ α β : Type} {R : σ → σ → Prop}

/-! What a call does to its state whether it returns or throws. -/

theorem stateAfter_map (g : α → β) (x : EStateM ε σ α) (s : σ) : stateAfter (g <$> x) s = stateAfter x s := by
  unfold stateAfter
  cases run : x s with
  | ok a t => rw [map_eq_ok.mpr ⟨a, run, rfl⟩]
  | error e t => rw [map_eq_error.mpr run]

/-- The state before a call is related to the one after it, whatever comes of the call. -/
def Moves (R : σ → σ → Prop) (x : EStateM ε σ α) : Prop := ∀ s, R s (stateAfter x s)

namespace Moves
variable {x : EStateM ε σ α} {f : α → EStateM ε σ β}

theorem ok (moves : Moves R x) {s t : σ} {a : α} (run : x s = .ok a t) : R s t := by
  have step := moves s
  rwa [stateAfter, run] at step

theorem error (moves : Moves R x) {s t : σ} {e : ε} (run : x s = .error e t) : R s t := by
  have step := moves s
  rwa [stateAfter, run] at step

theorem of_results (returns : ∀ s a t, x s = .ok a t → R s t) (throws : ∀ s e t, x s = .error e t → R s t) :
    Moves R x := by
  intro s
  unfold stateAfter
  split
  · rename_i run
    exact returns _ _ _ run
  · rename_i run
    exact throws _ _ _ run

theorem mono {S : σ → σ → Prop} (moves : Moves R x) (implies : ∀ s t, R s t → S s t) : Moves S x :=
  fun s => implies s _ (moves s)

theorem modify {g : σ → σ} (step : ∀ s, R s (g s)) : Moves R (modify g : EStateM ε σ PUnit) := step

theorem map {g : α → β} (moves : Moves R x) : Moves R (g <$> x) := by
  intro s
  rw [stateAfter_map]
  exact moves s

variable [IsPreorder σ R]

theorem pure (a : α) : Moves R (pure a : EStateM ε σ α) := fun s => refl_of R s

theorem throw (e : ε) : Moves R (throw e : EStateM ε σ α) := fun s => refl_of R s

theorem get : Moves R (get : EStateM ε σ σ) := fun s => refl_of R s

theorem bind (first : Moves R x) (rest : ∀ a, Moves R (f a)) : Moves R (x >>= f) := by
  refine of_results (fun s b t run => ?_) fun s e t run => ?_
  · obtain ⟨a, u, begun, ended⟩ := bind_eq_ok.mp run
    exact trans_of R (first.ok begun) ((rest a).ok ended)
  · rcases bind_eq_error.mp run with stopped | ⟨a, u, begun, ended⟩
    · exact first.error stopped
    · exact trans_of R (first.ok begun) ((rest a).error ended)

theorem forM {ι : Type} {l : List ι} {f : ι → EStateM ε σ PUnit} (each : ∀ a, Moves R (f a)) : Moves R (l.forM f) := by
  induction l with
  | nil => exact pure _
  | cons a l ih => exact (each a).bind fun _ => ih

end Moves

/-- Every exception of a call is one of these. -/
def Raises (allowed : ε → Prop) (x : EStateM ε σ α) : Prop := ∀ s e t, x s = .error e t → allowed e

namespace Raises
variable {allowed : ε → Prop} {x : EStateM ε σ α} {f : α → EStateM ε σ β}

theorem pure (a : α) : Raises allowed (pure a : EStateM ε σ α) := fun _ _ _ run => by cases run

theorem modify (g : σ → σ) : Raises allowed (modify g : EStateM ε σ PUnit) := fun _ _ _ run => by cases run

theorem throw {e : ε} (isAllowed : allowed e) : Raises allowed (throw e : EStateM ε σ α) := by
  rintro s _ t ⟨⟩
  exact isAllowed

theorem bind (first : Raises allowed x) (rest : ∀ a, Raises allowed (f a)) : Raises allowed (x >>= f) := by
  intro s e t run
  rcases bind_eq_error.mp run with stopped | ⟨a, u, _, ended⟩
  · exact first s e t stopped
  · exact rest a u e t ended

theorem forM {ι : Type} {l : List ι} {f : ι → EStateM ε σ PUnit} (each : ∀ a ∈ l, Raises allowed (f a)) :
    Raises allowed (l.forM f) := by
  induction l with
  | nil => exact .pure _
  | cons a l ih =>
    obtain ⟨here, each⟩ := List.forall_mem_cons.mp each
    exact here.bind fun _ => ih each

end Raises

end Rmdb
