import Mathlib.Data.List.Infix

namespace Rmdb
variable {α : Type}

/-! Words that are joined by a separator that they may contain themselves, and how far they can be told apart again. -/

/-- A word and further words, each after the separator. -/
def joined (sep : α) (w : List α) (ws : List (List α)) : List α := w ++ ws.flatMap (sep :: ·)

section
variable [DecidableEq α] {sep : α}

theorem splitOn_joined (w : List α) (ws : List (List α)) :
    (joined sep w ws).splitOn sep = w.splitOn sep ++ ws.flatMap (·.splitOn sep) := by
  unfold joined
  induction ws generalizing w with
  | nil => rw [List.flatMap_nil, List.flatMap_nil, List.append_nil, List.append_nil]
  | cons v ws ih => rw [List.flatMap_cons, List.flatMap_cons, List.cons_append, List.splitOn_append_cons_self, ih]

theorem splitOn_injective {l m : List α} (same : l.splitOn sep = m.splitOn sep) : l = m := by
  have again : [sep].intercalate (l.splitOn sep) = l := List.intercalate_splitOn sep
  rw [← again, same, List.intercalate_splitOn]

/-- Two lists of words become one text if they are the same once cut at every separator. -/
theorem joined_eq_iff {w v : List α} {ws vs : List (List α)} : joined sep w ws = joined sep v vs ↔
    w.splitOn sep ++ ws.flatMap (·.splitOn sep) = v.splitOn sep ++ vs.flatMap (·.splitOn sep) := by
  rw [← splitOn_joined, ← splitOn_joined]
  exact ⟨fun same => by rw [same], splitOn_injective⟩

end

variable {sep : α} {first : α → Prop}

/-- A word may begin where it does. -/
def Begins (first : α → Prop) (w : List α) : Prop := ∃ a rest, w = a :: rest ∧ first a

/-- No other word begins after a separator inside. -/
def Whole (sep : α) (first : α → Prop) (w : List α) : Prop := ∀ a, first a → ¬[sep, a] <:+: w

theorem Whole.not_append {w u v : List α} (whole : Whole sep first w) (begins : Begins first v) :
    w ≠ u ++ sep :: v := by
  rintro rfl
  obtain ⟨a, rest, rfl, isFirst⟩ := begins
  exact whole a isFirst ⟨u, rest, by simp⟩

theorem not_whole_iff {w : List α} : ¬Whole sep first w ↔ ∃ u v, Begins first v ∧ w = u ++ sep :: v := by
  constructor
  · intro broken
    unfold Whole at broken
    push Not at broken
    obtain ⟨a, isFirst, u, rest, rfl⟩ := broken
    exact ⟨u, a :: rest, ⟨a, rest, rfl, isFirst⟩, by simp⟩
  · rintro ⟨u, v, begins, same⟩ whole
    exact whole.not_append begins same

theorem Begins.append {w : List α} (begins : Begins first w) (v : List α) : Begins first (w ++ v) := by
  obtain ⟨a, rest, rfl, isFirst⟩ := begins
  exact ⟨a, rest ++ v, rfl, isFirst⟩

/-- Two words that are whole cannot be cut anywhere else. -/
theorem append_sep_inj {w v w' v' : List α} (notFirst : ¬first sep) (whole : Whole sep first w)
    (whole' : Whole sep first v) (begins' : Begins first v')
    (same : w ++ sep :: v = w' ++ sep :: v') : w = w' ∧ v = v' := by
  rcases List.append_eq_append_iff.mp same with ⟨more, left, right⟩ | ⟨more, left, right⟩
  · cases more with
    | nil =>
      rw [List.append_nil] at left
      rw [List.nil_append] at right
      exact ⟨left.symm, (List.cons.inj right).2⟩
    | cons a more =>
      have inside : v = more ++ sep :: v' := (List.cons.inj right).2
      exact absurd inside (whole'.not_append begins')
  · cases more with
    | nil =>
      rw [List.append_nil] at left
      rw [List.nil_append] at right
      exact ⟨left, (List.cons.inj right).2.symm⟩
    | cons a more =>
      obtain ⟨atSep, inside⟩ : sep = a ∧ v' = more ++ sep :: v := List.cons.inj right
      have begins : Begins first more := by
        obtain ⟨b, rest, value, isFirst⟩ := begins'
        rw [value] at inside
        cases more with
        | nil =>
          have other : b = sep := (List.cons.inj inside).1
          exact absurd (other ▸ isFirst) notFirst
        | cons c more =>
          have other : b = c := (List.cons.inj inside).1
          exact ⟨c, more, rfl, other ▸ isFirst⟩
      rw [← atSep] at left
      exact absurd left (whole.not_append begins)

/-- Two whole words are told apart again from any other words that join to the same text. -/
theorem joined_inj {w c v : List α} {vs : List (List α)} (notFirst : ¬first sep) (whole : Whole sep first w)
    (whole' : Whole sep first c) (begin : ∀ u ∈ vs, Begins first u) (nonempty : vs ≠ [])
    (same : joined sep w [c] = joined sep v vs) : w = v ∧ [c] = vs := by
  obtain ⟨u, us, rfl⟩ := List.exists_cons_of_ne_nil nonempty
  obtain ⟨here, later⟩ := List.forall_mem_cons.mp begin
  have same : w ++ sep :: c = v ++ sep :: (u ++ us.flatMap (sep :: ·)) := by simpa [joined] using same
  obtain ⟨left, right⟩ := append_sep_inj notFirst whole whole' (here.append _) same
  refine ⟨left, ?_⟩
  cases us with
  | nil => rw [right, List.flatMap_nil, List.append_nil]
  | cons x us =>
    have inside : c = u ++ sep :: (x ++ us.flatMap (sep :: ·)) := by simpa using right
    exact absurd inside (whole'.not_append ((later x List.mem_cons_self).append _))

end Rmdb
