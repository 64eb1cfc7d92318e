import Mathlib.Data.List.Chain
import Mathlib.Data.List.Nodup
import Mathlib.Tactic.Common

namespace Rmdb

/-! Doubly linked rings that run through a fixed head. -/

section
variable {α : Type} {link link' : α → α} {a b p : α} {nodes : List α}

/-- Following `link` from `a` visits the nodes in this order and then comes to `b`. -/
def Visits (link : α → α) (a : α) (nodes : List α) (b : α) : Prop := (a :: (nodes ++ [b])).IsChain fun x y => link x = y

theorem visits_nil : Visits link a [] b ↔ link a = b := List.isChain_pair

theorem visits_cons {n : α} : Visits link a (n :: nodes) b ↔ link a = n ∧ Visits link n nodes b :=
  List.isChain_cons_cons

/-- Only the links of the nodes that are left on the way matter. -/
theorem Visits.congr (visits : Visits link a nodes b) (same : ∀ x ∈ a :: nodes, link' x = link x) :
    Visits link' a nodes b := by
  induction nodes generalizing a with
  | nil => exact visits_nil.mpr ((same a List.mem_cons_self).trans (visits_nil.mp visits))
  | cons n rest ih =>
    obtain ⟨here, later⟩ := visits_cons.mp visits
    refine visits_cons.mpr ⟨?_, ih later fun x member => same x (List.mem_cons_of_mem a member)⟩
    rw [same a List.mem_cons_self, here]

/-- A way through `p` is one to `p` and one from there. -/
theorem visits_append {l r : List α} : Visits link a (l ++ p :: r) b ↔ Visits link a l p ∧ Visits link p r b := by
  unfold Visits
  rw [List.append_assoc, List.cons_append]
  exact List.isChain_cons_split

/-- Links that undo each step lead back. -/
theorem Visits.reverse {back : α → α} (visits : Visits link a nodes b)
    (inverse : ∀ x ∈ a :: nodes, back (link x) = x) : Visits back b nodes.reverse a := by
  induction nodes generalizing a with
  | nil =>
    rw [← visits_nil.mp visits]
    exact visits_nil.mpr (inverse a List.mem_cons_self)
  | cons n rest ih =>
    obtain ⟨here, later⟩ := visits_cons.mp visits
    have undone := inverse a List.mem_cons_self
    rw [here] at undone
    rw [List.reverse_cons]
    refine visits_append.mpr ⟨ih later fun x member => inverse x (List.mem_cons_of_mem a member), ?_⟩
    exact visits_nil.mpr undone

/-- Some node on the way leads to its end. -/
theorem Visits.reaches (visits : Visits link a nodes b) : ∃ x ∈ a :: nodes, link x = b := by
  induction nodes generalizing a with
  | nil => exact ⟨a, List.mem_cons_self, visits_nil.mp visits⟩
  | cons n rest ih =>
    obtain ⟨x, member, here⟩ := ih (visits_cons.mp visits).2
    exact ⟨x, List.mem_cons_of_mem a member, here⟩

/-- Links that lead around a node visit the others. -/
theorem Visits.bypass {x : α} {l r : List α} [DecidableEq α] (visits : Visits link a (l ++ x :: r) b) (fresh : x ∉ l)
    (around : ∀ y ∈ a :: (l ++ r), link' y = if link y = x then link x else link y)
    (behind : ∀ y ∈ r, link y ≠ x) : Visits link' a (l ++ r) b := by
  induction l generalizing a with
  | nil =>
    have same : ∀ y ∈ r, link' y = link y := by
      intro y member
      rw [around y (List.mem_cons_of_mem a member), if_neg (behind y member)]
    obtain ⟨here, later⟩ := visits_cons.mp visits
    have start : link' a = link x := by rw [around a List.mem_cons_self, if_pos here]
    cases r with
    | nil => exact visits_nil.mpr (start.trans (visits_nil.mp later))
    | cons n r =>
      obtain ⟨next, later⟩ := visits_cons.mp later
      exact visits_cons.mpr ⟨start.trans next, later.congr same⟩
  | cons n l ih =>
    obtain ⟨here, later⟩ := visits_cons.mp visits
    have other : link a ≠ x := fun same => fresh (same.symm.trans here ▸ List.mem_cons_self)
    refine visits_cons.mpr ⟨?_, ih later (fun member => fresh (List.mem_cons_of_mem n member)) ?_⟩
    · rw [around a List.mem_cons_self, if_neg other, here]
    · exact fun y member => around y (List.mem_cons_of_mem a member)

/-- A ring through `head`: `next` visits the other nodes and comes back, and `prev` undoes each step. -/
structure Ring (next prev : α → α) (head : α) (nodes : List α) : Prop where
  nodup : (head :: nodes).Nodup
  forward : Visits next head nodes head
  back : ∀ x ∈ head :: nodes, prev (next x) = x

end

namespace Ring
variable {α : Type} {next prev : α → α} {head x : α} {nodes : List α}

theorem backward (ring : Ring next prev head nodes) : Visits prev head nodes.reverse head :=
  ring.forward.reverse ring.back

theorem next_mem (ring : Ring next prev head nodes) (inside : x ∈ head :: nodes) : next x ∈ head :: nodes := by
  have forward := ring.forward
  rcases List.mem_cons.mp inside with rfl | member
  · cases nodes with
    | nil =>
      rw [visits_nil.mp forward]
      exact List.mem_cons_self
    | cons n rest =>
      rw [(visits_cons.mp forward).1]
      exact List.mem_cons_of_mem _ List.mem_cons_self
  · obtain ⟨l, r, rfl⟩ := List.append_of_mem member
    have later := (visits_append.mp forward).2
    cases r with
    | nil =>
      rw [visits_nil.mp later]
      exact List.mem_cons_self
    | cons n r =>
      rw [(visits_cons.mp later).1]
      exact List.mem_cons_of_mem _ (List.mem_append_right l (List.mem_cons_of_mem x List.mem_cons_self))

theorem next_ne (ring : Ring next prev head nodes) (member : x ∈ nodes) : next x ≠ x := by
  obtain ⟨notHead, nodup⟩ := List.nodup_cons.mp ring.nodup
  obtain ⟨l, r, rfl⟩ := List.append_of_mem member
  have later := (visits_append.mp ring.forward).2
  intro same
  cases r with
  | nil =>
    rw [visits_nil.mp later] at same
    exact notHead (same ▸ member)
  | cons n r =>
    rw [(visits_cons.mp later).1] at same
    have fresh := (List.nodup_cons.mp (List.nodup_append.mp nodup).2.1).1
    exact fresh (same ▸ List.mem_cons_self)

/-- The node before `x` leads to it. -/
theorem prev_spec (ring : Ring next prev head nodes) (member : x ∈ nodes) :
    prev x ∈ head :: nodes ∧ next (prev x) = x := by
  obtain ⟨l, r, rfl⟩ := List.append_of_mem member
  obtain ⟨q, before, here⟩ := (visits_append.mp ring.forward).1.reaches
  have part : l ⊆ l ++ x :: r := List.subset_append_left l (x :: r)
  have inside : q ∈ head :: (l ++ x :: r) := List.cons_subset_cons head part before
  have atX : prev x = q := by rw [← here, ring.back q inside]
  rw [atX]
  exact ⟨inside, here⟩

theorem prev_ne (ring : Ring next prev head nodes) (member : x ∈ nodes) : prev x ≠ x := by
  intro same
  have leads := (ring.prev_spec member).2
  rw [same] at leads
  exact ring.next_ne member leads

/-- Only the node before `x` leads to it. -/
theorem next_eq_iff (ring : Ring next prev head nodes) (member : x ∈ nodes) {y : α} (inside : y ∈ head :: nodes) :
    next y = x ↔ y = prev x := by
  constructor
  · intro same
    rw [← same, ring.back y inside]
  · rintro rfl
    exact (ring.prev_spec member).2

/-- Only the links of the nodes of the ring matter. -/
theorem congr {next' prev' : α → α} (ring : Ring next prev head nodes)
    (sameNext : ∀ y ∈ head :: nodes, next' y = next y) (samePrev : ∀ y ∈ head :: nodes, prev' y = prev y) :
    Ring next' prev' head nodes where
  nodup := ring.nodup
  forward := ring.forward.congr sameNext
  back y inside := by rw [sameNext y inside, samePrev _ (ring.next_mem inside), ring.back y inside]

/-- The two neighbours of `x` linked to each other. -/
theorem erase [DecidableEq α] (ring : Ring next prev head nodes) (member : x ∈ nodes) :
    Ring (Function.update next (prev x) (next x)) (Function.update prev (next x) (prev x)) head (nodes.erase x) := by
  have around : ∀ y ∈ head :: nodes,
      Function.update next (prev x) (next x) y = if next y = x then next x else next y := by
    intro y inside
    rw [Function.update_apply]
    simp only [ring.next_eq_iff member inside]
  obtain ⟨l, r, rfl⟩ := List.append_of_mem member
  obtain ⟨notHead, nodup⟩ := List.nodup_cons.mp ring.nodup
  obtain ⟨_, right, apart⟩ := List.nodup_append.mp nodup
  have notLeft : x ∉ l := fun inLeft => apart x inLeft x List.mem_cons_self rfl
  have notRight : x ∉ r := (List.nodup_cons.mp right).1
  have part : (head :: (l ++ r)).Sublist (head :: (l ++ x :: r)) :=
    ((List.sublist_cons_self x r).append_left l).cons_cons head
  have erased : (l ++ x :: r).erase x = l ++ r := by
    rw [List.erase_append_right _ notLeft, List.erase_cons_head]
  have kept : ∀ y ∈ head :: (l ++ r), y ∈ head :: (l ++ x :: r) ∧ y ≠ x := by
    intro y inside
    refine ⟨part.subset inside, ?_⟩
    rintro rfl
    rcases List.mem_cons.mp inside with rfl | inside
    · exact notHead member
    · exact (List.mem_append.mp inside).elim notLeft notRight
  rw [erased]
  constructor
  case nodup => exact ring.nodup.sublist part
  case forward =>
    refine ring.forward.bypass notLeft (fun y inside => around y (kept y inside).1) fun y inside same => ?_
    -- the node before `x` is not behind it
    obtain ⟨q, before, here⟩ := (visits_append.mp ring.forward).1.reaches
    have inRing : ∀ z ∈ r, z ∈ l ++ x :: r := fun z later => List.mem_append_right l (List.mem_cons_of_mem x later)
    have atY := (ring.next_eq_iff member (List.mem_cons_of_mem head (inRing y inside))).mp same
    rcases List.mem_cons.mp before with rfl | before
    · rw [(ring.next_eq_iff member List.mem_cons_self).mp here, ← atY] at notHead
      exact notHead (inRing y inside)
    · have inLeft : q ∈ head :: (l ++ x :: r) := List.mem_cons_of_mem _ (List.mem_append_left _ before)
      rw [(ring.next_eq_iff member inLeft).mp here, ← atY] at before
      exact apart y before y (List.mem_cons_of_mem x inside) rfl
  case back =>
    intro y inside
    obtain ⟨old, other⟩ := kept y inside
    rw [around y old]
    split
    · rename_i before
      rw [Function.update_self, (ring.next_eq_iff member old).mp before]
    · rename_i elsewhere
      have apart : next y ≠ next x := by
        intro same
        have := ring.back y old
        rw [same, ring.back x (List.mem_cons_of_mem _ member)] at this
        exact other this.symm
      rw [Function.update_of_ne apart, ring.back y old]

end Ring

end Rmdb
