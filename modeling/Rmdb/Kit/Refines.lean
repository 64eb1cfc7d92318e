import Rmdb.Kit.Result

namespace Rmdb
variable {ε δ σ τ α β α' β' : Type}

/-- Every normal return of `x` is matched by one of `y`, from related states to related results. -/
def Refines (R : σ → τ → Prop) (x : EStateM ε σ α) (y : EStateM δ τ β) (Q : α → β → σ → τ → Prop) : Prop :=
  ∀ s t a s', R s t → x s = .ok a s' → ∃ b t', y t = .ok b t' ∧ Q a b s' t'

namespace Refines
variable {R R' : σ → τ → Prop} {x : EStateM ε σ α} {y : EStateM δ τ β} {Q Q' : α → β → σ → τ → Prop}

theorem pure {a : α} {b : β} (post : ∀ s t, R s t → Q a b s t) :
    Refines R (pure a : EStateM ε σ α) (pure b : EStateM δ τ β) Q := by
  intro s t a' s' rel run
  cases run
  exact ⟨b, t, rfl, post s t rel⟩

/-- A call that throws has no normal return to match. -/
theorem throw (e : ε) (y : EStateM δ τ β) : Refines R (throw e : EStateM ε σ α) y Q := by
  intro s t a s' _ run
  cases run

theorem bind {f : α → EStateM ε σ α'} {g : β → EStateM δ τ β'} {P : α' → β' → σ → τ → Prop}
    (first : Refines R x y Q) (second : ∀ a b, Refines (Q a b) (f a) (g b) P) : Refines R (x >>= f) (y >>= g) P := by
  intro s t a' s' rel run
  obtain ⟨a, u, runX, runF⟩ := bind_eq_ok.mp run
  obtain ⟨b, v, runY, mid⟩ := first s t a u rel runX
  obtain ⟨b', t', runG, post⟩ := second a b u v a' s' mid runF
  exact ⟨b', t', by rw [bind_ok runY, runG], post⟩

theorem weaken (refines : Refines R x y Q) (pre : ∀ s t, R' s t → R s t) (post : ∀ a b s t, Q a b s t → Q' a b s t) :
    Refines R' x y Q' := by
  intro s t a s' rel run
  obtain ⟨b, t', runY, mid⟩ := refines s t a s' (pre s t rel) run
  exact ⟨b, t', runY, post _ _ _ _ mid⟩

/-- Both sides look at their state; what relates the states is known of what they saw. -/
theorem get {f : σ → EStateM ε σ α} {g : τ → EStateM δ τ β}
    (seen : ∀ s t, R s t → Refines (fun s' t' => R s' t' ∧ s' = s ∧ t' = t) (f s) (g t) Q) :
    Refines R (get >>= f) (get >>= g) Q := by
  intro s t a s' rel run
  exact seen s t rel s t a s' ⟨rel, rfl, rfl⟩ run

theorem modify {f : σ → σ} {g : τ → τ} {Q : PUnit → PUnit → σ → τ → Prop} (post : ∀ s t, R s t → Q ⟨⟩ ⟨⟩ (f s) (g t)) :
    Refines R (modify f : EStateM ε σ PUnit) (modify g : EStateM δ τ PUnit) Q := by
  intro s t a s' rel run
  cases run
  exact ⟨⟨⟩, g t, rfl, post s t rel⟩

theorem ite {p q : Prop} [Decidable p] [Decidable q] {x' : EStateM ε σ α} {y' : EStateM δ τ β} (same : p ↔ q)
    (yes : p → Refines R x y Q) (no : ¬p → Refines R x' y' Q) :
    Refines R (if p then x else x') (if q then y else y') Q := by
  by_cases holds : p
  · rw [if_pos holds, if_pos (same.mp holds)]
    exact yes holds
  · rw [if_neg holds, if_neg fun h => holds (same.mpr h)]
    exact no holds

end Refines

end Rmdb
