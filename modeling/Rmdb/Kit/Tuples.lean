import Mathlib.Data.Multiset.Bind

namespace Rmdb

/-- A row of a join: for some of the tables, named by `κ`, a row of each. As a partial
function it has no order of columns. -/
abbrev Tuple (κ ρ : Type) := κ → Option ρ

namespace Tuple
variable {κ ρ : Type}

def empty : Tuple κ ρ := fun _ => none

def single [DecidableEq κ] (k : κ) (r : ρ) : Tuple κ ρ := Function.update empty k (some r)

def merge (s t : Tuple κ ρ) : Tuple κ ρ := fun k => (s k).or (t k)

theorem merge_assoc (s t u : Tuple κ ρ) : merge (merge s t) u = merge s (merge t u) := by
  funext k
  exact Option.or_assoc

theorem merge_empty (t : Tuple κ ρ) : merge t empty = t := by
  funext k
  exact Option.or_none

theorem merge_comm {s t : Tuple κ ρ} (apart : ∀ k, s k = none ∨ t k = none) : merge s t = merge t s := by
  funext k
  unfold merge
  rcases apart k with none | none
  · rw [none, Option.none_or, Option.or_none]
  · rw [none, Option.none_or, Option.or_none]

/-- All pairings of two relations. -/
def join (A B : Multiset (Tuple κ ρ)) : Multiset (Tuple κ ρ) := A.bind fun s => B.map (merge s)

/-- A selection on each side is a selection on the join. -/
theorem join_filter (A B : Multiset (Tuple κ ρ)) {p q P : Tuple κ ρ → Prop} [DecidablePred p] [DecidablePred q]
    [DecidablePred P] (split : ∀ s ∈ A, ∀ t ∈ B, P (merge s t) ↔ p s ∧ q t) :
    join (A.filter p) (B.filter q) = (join A B).filter P := by
  unfold join
  rw [Multiset.bind_filter, Multiset.filter_bind]
  refine Multiset.bind_congr fun s inA => ?_
  rw [Multiset.filter_map]
  split
  · rename_i holds
    congr 1
    refine Multiset.filter_congr fun t inB => ?_
    exact ⟨fun h => (split s inA t inB).mpr ⟨holds, h⟩, fun h => ((split s inA t inB).mp h).2⟩
  · rename_i fails
    have nothing : B.filter (P ∘ merge s) = 0 :=
      Multiset.filter_eq_nil.mpr fun t inB h => fails ((split s inA t inB).mp h).1
    rw [nothing, Multiset.map_zero]

theorem mem_join {A B : Multiset (Tuple κ ρ)} {t : Tuple κ ρ} : t ∈ join A B ↔ ∃ s ∈ A, ∃ u ∈ B, merge s u = t := by
  simp only [join, Multiset.mem_bind, Multiset.mem_map]

theorem join_assoc (A B C : Multiset (Tuple κ ρ)) : join (join A B) C = join A (join B C) := by
  unfold join
  rw [Multiset.bind_assoc]
  refine Multiset.bind_congr fun s _ => ?_
  rw [Multiset.bind_map, Multiset.map_bind]
  refine Multiset.bind_congr fun t _ => ?_
  rw [Multiset.map_map]
  exact Multiset.map_congr rfl fun u _ => merge_assoc s t u

theorem join_comm {A B : Multiset (Tuple κ ρ)} (comm : ∀ s ∈ A, ∀ t ∈ B, merge s t = merge t s) :
    join A B = join B A := by
  unfold join
  rw [Multiset.bind_map_comm]
  refine Multiset.bind_congr fun t inB => ?_
  exact Multiset.map_congr rfl fun s inA => comm s inA t inB

theorem join_le {A A' B B' : Multiset (Tuple κ ρ)} (left : A ≤ A') (right : B ≤ B') : join A B ≤ join A' B' := by
  obtain ⟨C, rfl⟩ := Multiset.le_iff_exists_add.mp left
  obtain ⟨D, rfl⟩ := Multiset.le_iff_exists_add.mp right
  unfold join
  rw [Multiset.add_bind]
  simp only [Multiset.map_add, Multiset.bind_add]
  exact (Multiset.le_add_right _ _).trans (Multiset.le_add_right _ _)

/-- The pairings in left-major order. -/
theorem coe_join (l m : List (Tuple κ ρ)) :
    (((l ×ˢ m).map fun p => merge p.1 p.2 : List (Tuple κ ρ)) : Multiset (Tuple κ ρ)) = join l m := by
  unfold join
  rw [← Multiset.map_coe, ← Multiset.coe_product]
  refine (Multiset.map_bind (l : Multiset (Tuple κ ρ)) (fun s => (m : Multiset (Tuple κ ρ)).map (Prod.mk s))
    fun p => merge p.1 p.2).trans ?_
  exact Multiset.bind_congr fun s _ => Multiset.map_map _ _ _

theorem coe_filter (keep : Tuple κ ρ → Bool) (l : List (Tuple κ ρ)) :
    ((l.filter keep : List (Tuple κ ρ)) : Multiset (Tuple κ ρ)) =
      (l : Multiset (Tuple κ ρ)).filter fun t => keep t = true := by
  rw [Multiset.filter_coe]
  simp only [Bool.decide_eq_true]

section product
variable [DecidableEq κ] (rows : κ → Multiset ρ)

/-- The relation of one table. -/
def table (k : κ) : Multiset (Tuple κ ρ) := (rows k).map (single k)

/-- The Cartesian product of some tables. -/
def product : List κ → Multiset (Tuple κ ρ)
  | [] => {empty}
  | k :: ks => join (table rows k) (product ks)

variable {rows}

/-- A row of the product has a row of each of its tables and of no other. -/
theorem product_support {l : List κ} {t : Tuple κ ρ} (member : t ∈ product rows l) (k : κ) : (t k).isSome ↔ k ∈ l := by
  induction l generalizing t with
  | nil =>
    rw [product, Multiset.mem_singleton] at member
    simp [member, empty]
  | cons j l ih =>
    obtain ⟨s, inTable, u, inRest, rfl⟩ := mem_join.mp member
    obtain ⟨r, _, rfl⟩ := Multiset.mem_map.mp inTable
    rw [List.mem_cons, ← ih inRest, merge]
    by_cases same : k = j
    · subst k
      simp [single]
    · simp [single, same, empty]

theorem table_comm {j k : κ} (different : j ≠ k) :
    join (table rows j) (table rows k) = join (table rows k) (table rows j) := by
  refine join_comm fun s inJ t inK => merge_comm fun i => ?_
  obtain ⟨r, _, rfl⟩ := Multiset.mem_map.mp inJ
  obtain ⟨r', _, rfl⟩ := Multiset.mem_map.mp inK
  by_cases same : i = j
  · subst i
    exact Or.inr (Function.update_of_ne different ..)
  · exact Or.inl (Function.update_of_ne same ..)

theorem product_append (l m : List κ) : product rows (l ++ m) = join (product rows l) (product rows m) := by
  induction l with
  | nil =>
    unfold join
    rw [product, Multiset.singleton_bind, List.nil_append]
    exact (Multiset.map_id _).symm
  | cons k l ih => rw [List.cons_append, product, product, ih, join_assoc]

theorem product_singleton (k : κ) : product rows [k] = table rows k := by
  have alone : ∀ s : Tuple κ ρ, Multiset.map (merge s) {empty} = {s} := by
    intro s
    rw [Multiset.map_singleton, merge_empty]
  simp only [product, join, alone]
  exact (Multiset.bind_singleton _ id).trans (Multiset.map_id _)

/-- The order of the tables does not matter. -/
theorem product_perm {l m : List κ} (perm : l.Perm m) (nodup : l.Nodup) : product rows l = product rows m := by
  induction perm with
  | nil => rfl
  | cons k _ ih => rw [product, product, ih (List.nodup_cons.mp nodup).2]
  | swap j k l =>
    have different : k ≠ j := fun same => (List.nodup_cons.mp nodup).1 (same ▸ List.mem_cons_self)
    rw [product, product, product, product, ← join_assoc, ← join_assoc, table_comm different]
  | trans perm _ ih ih' => exact (ih nodup).trans (ih' (perm.nodup nodup))

end product

end Tuple

end Rmdb
