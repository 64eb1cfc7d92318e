import Mathlib.Algebra.Order.Group.Unbundled.Int
import Mathlib.Data.Finset.Card
import Mathlib.Data.List.Count
import Mathlib.Tactic.Common

namespace Rmdb

/-! Holds on things that are taken one after the other and not given back. A thing with a hold takes
up one of `cap` places, and no thing bears more than `top` holds. -/

section
variable {α : Type} {cap taken : Nat} {top : Int} {held : α → Int}

/-- One more hold on a thing, when `taken` places are taken up. -/
def Holdable (cap : Nat) (top : Int) (taken : Nat) (held : α → Int) (a : α) : Prop :=
  held a < top ∧ (held a = 0 → taken < cap)

/-- The places that are taken up after one more hold. -/
def placesAfter (taken : Nat) (held : α → Int) (a : α) : Nat := if held a = 0 then taken + 1 else taken

theorem placesAfter_le {a : α} (room : taken ≤ cap) (holdable : Holdable cap top taken held a) :
    placesAfter taken held a ≤ cap := by
  unfold placesAfter
  split
  · rename_i first
    exact holdable.2 first
  · exact room

variable [DecidableEq α]

/-- A hold on each member of a list in turn. -/
def AllHoldable (cap : Nat) (top : Int) : Nat → (α → Int) → List α → Prop
  | _, _, [] => True
  | taken, held, a :: rest => Holdable cap top taken held a ∧
      AllHoldable cap top (placesAfter taken held a) (Function.update held a (held a + 1)) rest

/-- The new places are those of the members without a hold. -/
theorem placesAfter_card (nonneg : ∀ a, 0 ≤ held a) (a : α) (rest : List α) :
    placesAfter taken held a + (rest.toFinset.filter fun b => Function.update held a (held a + 1) b = 0).card =
      taken + ((a :: rest).toFinset.filter fun b => held b = 0).card := by
  have used : held a + 1 ≠ 0 := by
    have := nonneg a
    omega
  have others : (rest.toFinset.filter fun b => Function.update held a (held a + 1) b = 0) =
      ((a :: rest).toFinset.filter fun b => held b = 0).erase a := by
    ext b
    rw [Finset.mem_filter, Finset.mem_erase, Finset.mem_filter, List.mem_toFinset, List.mem_toFinset, List.mem_cons]
    by_cases same : b = a
    · subst b
      simp [used]
    · simp [same]
  rw [others]
  unfold placesAfter
  by_cases first : held a = 0
  · rw [if_pos first]
    have member : a ∈ (a :: rest).toFinset.filter fun b => held b = 0 := by simp [first]
    have := Finset.card_erase_add_one member
    omega
  · rw [if_neg first, Finset.erase_eq_of_notMem (by simp [first])]

/-- The first hold counts against the bound like those that follow. -/
theorem counts_cons {a : α} {rest : List α} : (∀ b ∈ a :: rest, held b + (a :: rest).count b ≤ top) ↔
    held a < top ∧ ∀ b ∈ rest, Function.update held a (held a + 1) b + rest.count b ≤ top := by
  constructor
  · intro small
    refine ⟨?_, fun b member => ?_⟩
    · have := small a List.mem_cons_self
      rw [List.count_cons_self] at this
      omega
    · have bound := small b (List.mem_cons_of_mem a member)
      by_cases same : b = a
      · subst b
        rw [List.count_cons_self] at bound
        rw [Function.update_self]
        omega
      · rw [List.count_cons_of_ne (Ne.symm same)] at bound
        rwa [Function.update_of_ne same]
  · rintro ⟨first, small⟩ b member
    by_cases same : b = a
    · subst b
      rw [List.count_cons_self]
      by_cases again : a ∈ rest
      · have := small a again
        rw [Function.update_self] at this
        omega
      · rw [List.count_eq_zero_of_not_mem again]
        omega
    · have := small b ((List.mem_cons.mp member).resolve_left same)
      rw [Function.update_of_ne same] at this
      rwa [List.count_cons_of_ne (Ne.symm same)]

/-- In all, each member needs a place unless it has one, and may get as many holds as it occurs. -/
theorem allHoldable_iff (nonneg : ∀ a, 0 ≤ held a) (room : taken ≤ cap) {list : List α} :
    AllHoldable cap top taken held list ↔ (∀ a ∈ list, held a + list.count a ≤ top) ∧
      taken + (list.toFinset.filter fun a => held a = 0).card ≤ cap := by
  induction list generalizing taken held with
  | nil => simpa [AllHoldable] using room
  | cons a rest ih =>
    have later : ∀ b, 0 ≤ Function.update held a (held a + 1) b := by
      intro b
      have := nonneg a
      by_cases same : b = a
      · rw [same, Function.update_self]
        omega
      · rw [Function.update_of_ne same]
        exact nonneg b
    rw [AllHoldable, counts_cons, ← placesAfter_card nonneg a rest]
    constructor
    · rintro ⟨holdable, rest⟩
      obtain ⟨small, places⟩ := (ih later (placesAfter_le room holdable)).mp rest
      exact ⟨⟨holdable.1, small⟩, places⟩
    · rintro ⟨⟨first, small⟩, places⟩
      have holdable : Holdable cap top taken held a := by
        refine ⟨first, fun unheld => ?_⟩
        unfold placesAfter at places
        rw [if_pos unheld] at places
        omega
      exact ⟨holdable, (ih later (placesAfter_le room holdable)).mpr ⟨small, places⟩⟩

variable {β : Type} {blocks : List β} {thing : β → α} {size : β → Nat}

theorem count_replicates (injective : Function.Injective thing) (nodup : blocks.Nodup) {b : β} (member : b ∈ blocks) :
    (blocks.flatMap fun b => List.replicate (size b) (thing b)).count (thing b) = size b := by
  induction blocks with
  | nil => cases member
  | cons a rest ih =>
    obtain ⟨fresh, nodup⟩ := List.nodup_cons.mp nodup
    rw [List.flatMap_cons, List.count_append, List.count_replicate]
    by_cases same : a = b
    · subst b
      have later : (rest.flatMap fun b => List.replicate (size b) (thing b)).count (thing a) = 0 := by
        refine List.count_eq_zero_of_not_mem fun again => ?_
        obtain ⟨b, inRest, atB⟩ := List.mem_flatMap.mp again
        rw [injective (List.eq_of_mem_replicate atB)] at fresh
        exact fresh inRest
      simp [later]
    · rw [ih nodup ((List.mem_cons.mp member).resolve_left (Ne.symm same))]
      simp [injective.ne same]

/-- Holds taken in blocks, each on one thing of its own. -/
theorem allHoldable_blocks_iff (injective : Function.Injective thing) (nodup : blocks.Nodup)
    (nonneg : ∀ a, 0 ≤ held a) (small : ∀ a, held a ≤ top) (room : taken ≤ cap) :
    AllHoldable cap top taken held (blocks.flatMap fun b => List.replicate (size b) (thing b)) ↔
      (∀ b ∈ blocks, held (thing b) + size b ≤ top) ∧
        taken + (blocks.filter fun b => 0 < size b ∧ held (thing b) = 0).length ≤ cap := by
  have members : ((blocks.flatMap fun b => List.replicate (size b) (thing b)).toFinset.filter fun a => held a = 0) =
      ((blocks.filter fun b => 0 < size b ∧ held (thing b) = 0).map thing).toFinset := by
    ext a
    simp only [Finset.mem_filter, List.mem_toFinset, List.mem_flatMap, List.mem_replicate, List.mem_map,
      List.mem_filter, decide_eq_true_eq]
    constructor
    · rintro ⟨⟨b, member, some, rfl⟩, unheld⟩
      exact ⟨b, ⟨member, by omega, unheld⟩, rfl⟩
    · rintro ⟨b, ⟨member, some, unheld⟩, rfl⟩
      exact ⟨⟨b, member, by omega, rfl⟩, unheld⟩
  have distinct : ((blocks.filter fun b => 0 < size b ∧ held (thing b) = 0).map thing).Nodup :=
    (nodup.filter _).map injective
  rw [allHoldable_iff nonneg room, members, List.toFinset_card_of_nodup distinct, List.length_map]
  refine and_congr_left fun _ => ⟨fun bounds b member => ?_, fun bounds a member => ?_⟩
  · rcases Nat.eq_zero_or_pos (size b) with none | some
    · rw [none]
      simpa using small (thing b)
    · have occurs : thing b ∈ blocks.flatMap fun b => List.replicate (size b) (thing b) :=
        List.mem_flatMap.mpr ⟨b, member, List.mem_replicate.mpr ⟨by omega, rfl⟩⟩
      have := bounds _ occurs
      rwa [count_replicates injective nodup member] at this
  · obtain ⟨b, member, atA⟩ := List.mem_flatMap.mp member
    rw [List.eq_of_mem_replicate atA, count_replicates injective nodup member]
    exact bounds b member

end

end Rmdb
