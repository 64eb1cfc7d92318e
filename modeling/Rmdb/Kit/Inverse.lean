import Mathlib.Data.List.Nodup
import Mathlib.Logic.Function.Basic

namespace Rmdb
variable {K V : Type} {m : K → Option V} {w : V → Option K} {l : List (K × V)}

/-- Two finite maps that are inverse to each other, with the list of their entries. -/
structure Inverse (m : K → Option V) (w : V → Option K) (l : List (K × V)) : Prop where
  forth : ∀ k v, m k = some v ↔ (k, v) ∈ l
  back : ∀ k v, w v = some k ↔ (k, v) ∈ l
  nodup : l.Nodup

namespace Inverse

theorem empty : Inverse (fun _ : K => none) (fun _ : V => none) [] :=
  ⟨fun _ _ => by simp, fun _ _ => by simp, .nil⟩

theorem keys_nodup (inverse : Inverse m w l) : (l.map Prod.fst).Nodup := by
  refine inverse.nodup.map_on ?_
  rintro ⟨k, v⟩ member ⟨k', v'⟩ member' rfl
  have atKey := (inverse.forth k v).mpr member
  rw [(inverse.forth k v').mpr member'] at atKey
  cases atKey
  rfl

theorem values_nodup (inverse : Inverse m w l) : (l.map Prod.snd).Nodup := by
  refine inverse.nodup.map_on ?_
  rintro ⟨k, v⟩ member ⟨k', v'⟩ member' rfl
  have atValue := (inverse.back k v).mpr member
  rw [(inverse.back k' v).mpr member'] at atValue
  cases atValue
  rfl

theorem mem_keys (inverse : Inverse m w l) {k : K} : k ∈ l.map Prod.fst ↔ (m k).isSome := by
  rw [Option.isSome_iff_exists]
  constructor
  · intro member
    obtain ⟨⟨k, v⟩, listed, rfl⟩ := List.mem_map.mp member
    exact ⟨v, (inverse.forth k v).mpr listed⟩
  · rintro ⟨v, found⟩
    exact List.mem_map.mpr ⟨(k, v), (inverse.forth k v).mp found, rfl⟩

theorem key_of_mem (inverse : Inverse m w l) {k : K} {v : V} (member : (k, v) ∈ l) : (m k).isSome := by
  rw [(inverse.forth k v).mpr member]
  rfl

theorem value_of_mem (inverse : Inverse m w l) {k : K} {v : V} (member : (k, v) ∈ l) : (w v).isSome := by
  rw [(inverse.back k v).mpr member]
  rfl

variable [DecidableEq K] [DecidableEq V]

/-- A new key gets a new value. -/
theorem insert (inverse : Inverse m w l) {k : K} {v : V} (newKey : m k = none) (newValue : w v = none) :
    Inverse (Function.update m k (some v)) (Function.update w v (some k)) ((k, v) :: l) := by
  have keyOf : ∀ k' v', (k', v') ∈ l → k' ≠ k ∧ v' ≠ v := by
    intro k' v' member
    constructor
    · rintro rfl
      have := inverse.key_of_mem member
      rw [newKey] at this
      cases this
    · rintro rfl
      have := inverse.value_of_mem member
      rw [newValue] at this
      cases this
  constructor
  case forth =>
    intro k' v'
    by_cases same : k' = k
    · subst same
      rw [Function.update_self, List.mem_cons]
      constructor
      · intro found
        cases found
        exact Or.inl rfl
      · rintro (new | old)
        · cases new
          rfl
        · exact absurd rfl (keyOf _ _ old).1
    · rw [Function.update_of_ne same, inverse.forth, List.mem_cons]
      exact ⟨Or.inr, fun member => member.resolve_left fun new => same (Prod.mk.inj new).1⟩
  case back =>
    intro k' v'
    by_cases same : v' = v
    · subst same
      rw [Function.update_self, List.mem_cons]
      constructor
      · intro found
        cases found
        exact Or.inl rfl
      · rintro (new | old)
        · cases new
          rfl
        · exact absurd rfl (keyOf _ _ old).2
    · rw [Function.update_of_ne same, inverse.back, List.mem_cons]
      exact ⟨Or.inr, fun member => member.resolve_left fun new => same (Prod.mk.inj new).2⟩
  case nodup => exact List.nodup_cons.mpr ⟨fun member => (keyOf _ _ member).1 rfl, inverse.nodup⟩

/-- An entry is taken out of both maps. -/
theorem erase (inverse : Inverse m w l) {k : K} {v : V} (found : w v = some k) :
    Inverse (Function.update m k none) (Function.update w v none) (l.filter fun entry => entry.2 ≠ v) := by
  have ofKey : ∀ v', (k, v') ∈ l → v' = v := by
    intro v' member
    have atKey := (inverse.forth k v').mpr member
    rw [(inverse.forth k v).mpr ((inverse.back k v).mp found)] at atKey
    exact (Option.some.inj atKey).symm
  have ofValue : ∀ k', (k', v) ∈ l → k' = k := by
    intro k' member
    have atValue := (inverse.back k' v).mpr member
    rw [found] at atValue
    exact (Option.some.inj atValue).symm
  constructor
  case forth =>
    intro k' v'
    simp only [List.mem_filter, decide_eq_true_eq]
    by_cases same : k' = k
    · subst same
      rw [Function.update_self]
      exact ⟨nofun, fun rest => absurd (ofKey v' rest.1) rest.2⟩
    · rw [Function.update_of_ne same, inverse.forth]
      refine ⟨fun member => ⟨member, ?_⟩, And.left⟩
      rintro rfl
      exact same (ofValue k' member)
  case back =>
    intro k' v'
    simp only [List.mem_filter, decide_eq_true_eq]
    by_cases same : v' = v
    · subst same
      rw [Function.update_self]
      exact ⟨nofun, fun rest => absurd rfl rest.2⟩
    · rw [Function.update_of_ne same, inverse.back]
      exact ⟨fun member => ⟨member, same⟩, And.left⟩
  case nodup => exact inverse.nodup.filter _

end Inverse

end Rmdb
