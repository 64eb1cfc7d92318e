import Mathlib.Data.List.Lex
import Mathlib.Data.List.TakeDrop
import Mathlib.Data.Prod.Lex

namespace Rmdb

section
variable {α : Type} {pad : α} {s t : List α} {m n : Nat}

theorem takeD_eq_append (small : s.length ≤ n) : s.takeD n pad = s ++ List.replicate (n - s.length) pad := by
  induction s generalizing n with
  | nil => simp
  | cons a s ih =>
    obtain ⟨n, rfl⟩ := Nat.exists_eq_succ_of_ne_zero (Nat.ne_of_gt (Nat.lt_of_lt_of_le (Nat.succ_pos _) small))
    have rest := ih (Nat.le_of_succ_le_succ small)
    simp [rest]

theorem take_takeD (s : List α) (le : m ≤ n) : (s.takeD n pad).take m = s.takeD m pad := by
  induction m generalizing s n with
  | zero => simp
  | succ m ih =>
    obtain ⟨n, rfl⟩ := Nat.exists_eq_succ_of_ne_zero (Nat.ne_of_gt (Nat.lt_of_lt_of_le (Nat.succ_pos _) le))
    have rest := ih s.tail (Nat.le_of_succ_le_succ le)
    simp [rest]

theorem drop_takeD (small : s.length ≤ m) : (s.takeD n pad).drop m = List.replicate (n - m) pad := by
  rcases Nat.le_total s.length n with fits | long
  · rw [takeD_eq_append fits, List.drop_append, List.drop_eq_nil_of_le small, List.nil_append, List.drop_replicate]
    congr 1
    omega
  · have none : n - m = 0 := by omega
    rw [none, List.drop_eq_nil_of_le (by rw [List.takeD_length]; omega)]
    rfl

/-- If a string is filled up to `m` and agrees there with another, it is a prefix of it,
and the same string unless it has the full length. -/
theorem prefix_of_takeD_eq (clean : pad ∉ s) (clean' : pad ∉ t) (small : s.length ≤ m)
    (same : s.takeD m pad = t.takeD m pad) :
    s <+: t ∧ (s.length < m → s = t) := by
  induction m generalizing s t with
  | zero =>
    rw [List.length_eq_zero_iff.mp (Nat.le_zero.mp small)]
    exact ⟨List.nil_prefix, fun absurd => nomatch absurd⟩
  | succ m ih =>
    rw [List.takeD_succ, List.takeD_succ, List.cons.injEq] at same
    cases s with
    | nil =>
      cases t with
      | nil => exact ⟨List.nil_prefix, fun _ => rfl⟩
      | cons b t =>
        cases (same.1 : pad = b)
        exact absurd List.mem_cons_self clean'
    | cons a s =>
      cases t with
      | nil =>
        cases (same.1 : a = pad)
        exact absurd List.mem_cons_self clean
      | cons b t =>
        obtain ⟨first, rest⟩ := same
        cases (first : a = b)
        rw [List.mem_cons, not_or] at clean clean'
        obtain ⟨isPrefix, short⟩ := ih clean.2 clean'.2 (Nat.le_of_succ_le_succ small) rest
        refine ⟨List.prefix_cons_inj a |>.mpr isPrefix, fun less => ?_⟩
        rw [short (Nat.lt_of_succ_lt_succ less)]

/-- Two strings agree on `m` places exactly if they are equal or the first fills these places
and goes on in the second. -/
theorem takeD_eq_iff (clean : pad ∉ s) (clean' : pad ∉ t) (small : s.length ≤ m) :
    s.takeD m pad = t.takeD m pad ↔ s = t ∨ s.length = m ∧ s <+: t := by
  constructor
  · intro same
    obtain ⟨isPrefix, short⟩ := prefix_of_takeD_eq clean clean' small same
    rcases small.lt_or_eq with less | full
    · exact Or.inl (short less)
    · exact Or.inr ⟨full, isPrefix⟩
  · rintro (rfl | ⟨rfl, rest, rfl⟩)
    · rfl
    · rw [List.takeD_left, List.takeD_eq_take _ le_rfl, List.take_length]

end

section
variable {V : Type} [LinearOrder V] {c d : Int} {u v : V}

/-- The sign of a three-way comparison says how two values are ordered. -/
def Orders (c : Int) (u v : V) : Prop := (c < 0 ↔ u < v) ∧ (0 < c ↔ v < u)

theorem Orders.eq_zero_iff (orders : Orders c u v) : c = 0 ↔ u = v := by
  obtain ⟨less, greater⟩ := orders
  constructor
  · rintro rfl
    exact le_antisymm (not_lt.mp fun above => absurd (greater.mpr above) (by decide))
      (not_lt.mp fun below => absurd (less.mpr below) (by decide))
  · rintro rfl
    have notLess := mt less.mp (lt_irrefl u)
    have notGreater := mt greater.mp (lt_irrefl u)
    omega

theorem Orders.neg (orders : Orders c u v) : Orders (-c) v u :=
  ⟨by rw [← orders.2]; omega, by rw [← orders.1]; omega⟩

theorem orders_self_iff : Orders c u u ↔ c = 0 := by
  constructor
  · exact fun orders => orders.eq_zero_iff.mpr rfl
  · rintro rfl
    exact ⟨by simp, by simp⟩

/-- Behind equal heads the rest decides. -/
theorem Orders.cons {s t : List V} (orders : Orders c s t) (u : V) : Orders c (u :: s) (u :: t) := by
  unfold Orders at orders ⊢
  simpa [List.cons_lt_cons_iff] using orders

theorem orders_cons_lt {s t : List V} (below : u < v) : Orders (-1) (u :: s) (v :: t) := by
  refine ⟨by simp [List.cons_lt_cons_iff, below], ?_⟩
  simp [List.cons_lt_cons_iff, below.not_gt, below.ne']

/-- The first of two comparisons decides unless it finds no difference. -/
theorem Orders.head {U : Type} [LinearOrder U] {s t : U} (orders : Orders c u v) (differ : c ≠ 0) :
    Orders c (toLex (u, s)) (toLex (v, t)) := by
  have apart : u ≠ v := fun same => differ (orders.eq_zero_iff.mpr same)
  obtain ⟨less, greater⟩ := orders
  constructor
  · simp [Prod.Lex.toLex_lt_toLex, less, apart]
  · simp [Prod.Lex.toLex_lt_toLex, greater, apart.symm]

theorem Orders.tail {U : Type} [LinearOrder U] {s t : U} (orders : Orders c s t) (u : V) :
    Orders c (toLex (u, s)) (toLex (u, t)) := by
  obtain ⟨less, greater⟩ := orders
  constructor
  · simp [Prod.Lex.toLex_lt_toLex, less]
  · simp [Prod.Lex.toLex_lt_toLex, greater]

end

end Rmdb
