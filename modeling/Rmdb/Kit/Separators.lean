import Mathlib.Data.List.Chain
import Mathlib.Data.Set.Basic
import Mathlib.Logic.Function.Basic
import Mathlib.Tactic.Common

namespace Rmdb

/-! Trees whose nodes bear keys and where a node has, at the place of each child, the first key of that child.
Where one node does not agree with its parent, its key is carried up. -/

section
variable {α κ : Type} {parent : α → Option α} {a p : α} {path path' : List α}

/-- The ancestors of a node, from its parent to the root. -/
def Ancestors (parent : α → Option α) : α → List α → Prop
  | a, [] => parent a = none
  | a, p :: rest => parent a = some p ∧ Ancestors parent p rest

theorem Ancestors.unique (up : Ancestors parent a path) (up' : Ancestors parent a path') : path = path' := by
  induction path generalizing a path' with
  | nil =>
    cases path' with
    | nil => rfl
    | cons p rest => cases up.symm.trans up'.1
  | cons p rest ih =>
    cases path' with
    | nil => cases up.1.symm.trans up'
    | cons p' rest' =>
      cases up.1.symm.trans up'.1
      rw [ih up.2 up'.2]

theorem Ancestors.of_mem (up : Ancestors parent a path) {b : α} (member : b ∈ path) :
    ∃ rest, Ancestors parent b rest ∧ rest.length < path.length := by
  induction path generalizing a with
  | nil => cases member
  | cons p rest ih =>
    rcases List.mem_cons.mp member with rfl | later
    · exact ⟨rest, up.2, Nat.lt_succ_self _⟩
    · obtain ⟨rest', up', shorter⟩ := ih up.2 later
      exact ⟨rest', up', Nat.lt_succ_of_lt shorter⟩

/-- No node is its own ancestor. -/
theorem Ancestors.not_mem (up : Ancestors parent a path) : a ∉ path := by
  intro member
  obtain ⟨rest, up', shorter⟩ := up.of_mem member
  rw [up.unique up'] at shorter
  exact lt_irrefl _ shorter

/-- Nodes that are closed under parents, each with a place of its own in its parent and with finitely many
ancestors. -/
structure Places (nodes : Set α) (parent : α → Option α) (rank : α → Nat) : Prop where
  closed : ∀ a ∈ nodes, ∀ p, parent a = some p → p ∈ nodes
  apart : ∀ a ∈ nodes, ∀ b ∈ nodes, ∀ p, parent a = some p → parent b = some p → rank a = rank b → a = b
  ancestors : ∀ a ∈ nodes, ∃ path, Ancestors parent a path

variable {nodes : Set α} {rank : α → Nat} {keys : α → Nat → κ} {b : α}

theorem Places.ancestors_mem (places : Places nodes parent rank) (member : a ∈ nodes)
    (ancestors : Ancestors parent a path) : ∀ b ∈ path, b ∈ nodes := by
  induction path generalizing a with
  | nil => exact fun b absurd => (List.not_mem_nil absurd).elim
  | cons p rest ih =>
    have memberP := places.closed a member p ancestors.1
    intro b inside
    rcases List.mem_cons.mp inside with rfl | later
    · exact memberP
    · exact ih memberP ancestors.2 b later

theorem Places.ne_parent (places : Places nodes parent rank) (member : a ∈ nodes) (up : parent a = some p) : a ≠ p := by
  rintro rfl
  obtain ⟨path, ancestors⟩ := places.ancestors a member
  cases path with
  | nil => cases ancestors.symm.trans up
  | cons q rest =>
    cases ancestors.1.symm.trans up
    exact ancestors.not_mem List.mem_cons_self

/-- The parent has the first key of the node at its place. -/
def Agrees (parent : α → Option α) (rank : α → Nat) (keys : α → Nat → κ) (a : α) : Prop :=
  ∀ p, parent a = some p → keys p (rank a) = keys a 0

section
variable [DecidableEq κ]

/-- The ancestors of a node up to the parent of the first one that is not a first child. -/
def firstLine (rank : α → Nat) : α → List α → List α
  | _, [] => []
  | a, p :: rest => p :: if rank a = 0 then firstLine rank p rest else rest.take 1

/-- The ancestors that are looked at: only the parent if the node agrees with it. -/
def looked (rank : α → Nat) (keys : α → Nat → κ) (a : α) : List α → List α
  | [] => []
  | p :: rest => if keys p (rank a) = keys a 0 then [p] else firstLine rank a (p :: rest)

theorem looked_congr {keys' : α → Nat → κ} (same : ∀ b ∈ a :: path, keys' b = keys b) :
    looked rank keys' a path = looked rank keys a path := by
  cases path with
  | nil => rfl
  | cons p rest => rw [looked, looked, same a List.mem_cons_self, same p (by simp)]

end

variable [DecidableEq α]

/-- The parent gets the first key of the node. -/
def raise (rank : α → Nat) (keys : α → Nat → κ) (a p : α) : α → Nat → κ :=
  Function.update keys p (Function.update (keys p) (rank a) (keys a 0))

theorem raise_other (different : b ≠ p) : raise rank keys a p b = keys b := Function.update_of_ne different _ _

theorem raise_self (k : Nat) : raise rank keys a p p k = if k = rank a then keys a 0 else keys p k := by
  unfold raise
  rw [Function.update_self, Function.update_apply]

namespace Places
variable (places : Places nodes parent rank)

include places

/-- After one step all nodes but the parent agree. -/
theorem agrees_raise (member : a ∈ nodes) (up : parent a = some p)
    (others : ∀ b ∈ nodes, b ≠ a → Agrees parent rank keys b) :
    ∀ b ∈ nodes, b ≠ p → Agrees parent rank (raise rank keys a p) b := by
  intro b memberB other q upB
  rw [raise_other other]
  by_cases atP : q = p
  · subst q
    rw [raise_self]
    split
    · rename_i place
      rw [places.apart b memberB a member p upB up place]
    · rename_i place
      have different : b ≠ a := by
        rintro rfl
        exact place rfl
      exact others b memberB different p upB
  · rw [raise_other atP]
    have different : b ≠ a := by
      rintro rfl
      exact atP (Option.some.inj (upB.symm.trans up))
    exact others b memberB different q upB

/-- The parent goes on agreeing with its own parent exactly if another of its keys has changed than the first. -/
theorem agrees_raised_iff (member : a ∈ nodes) (up : parent a = some p) (mismatch : keys p (rank a) ≠ keys a 0)
    (others : ∀ b ∈ nodes, b ≠ a → Agrees parent rank keys b) {q : α} (upP : parent p = some q) :
    raise rank keys a p q (rank p) = raise rank keys a p p 0 ↔ rank a ≠ 0 := by
  have memberP := places.closed a member p up
  have agrees := others p memberP (places.ne_parent member up).symm q upP
  rw [raise_other (places.ne_parent memberP upP).symm, agrees, raise_self]
  constructor
  · intro same first
    rw [if_pos first.symm, ← first] at same
    exact mismatch (first ▸ same)
  · intro later
    rw [if_neg (Ne.symm later)]

end Places

/-- Where the node disagrees, its parent is looked at and then what is looked at from there. -/
theorem Places.looked_cons [DecidableEq κ] (places : Places nodes parent rank) (member : a ∈ nodes)
    (ancestors : Ancestors parent a (p :: path)) (mismatch : keys p (rank a) ≠ keys a 0)
    (others : ∀ b ∈ nodes, b ≠ a → Agrees parent rank keys b) :
    looked rank keys a (p :: path) = p :: looked rank (raise rank keys a p) p path := by
  rw [looked, if_neg mismatch, firstLine]
  refine congrArg (p :: ·) ?_
  cases path with
  | nil =>
    unfold firstLine looked
    split <;> rfl
  | cons q rest =>
    have agrees := places.agrees_raised_iff member ancestors.1 mismatch others ancestors.2.1
    rw [looked]
    by_cases first : rank a = 0
    · rw [if_pos first, if_neg fun same => agrees.mp same first]
    · rw [if_neg first, if_pos (agrees.mpr first)]
      rfl

end

end Rmdb
