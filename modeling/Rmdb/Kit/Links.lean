import Mathlib.Tactic.Common

namespace Rmdb
variable {α : Type}

/-- Following `next` from `a` runs through the list and then stops. -/
def Links (next : α → α) (stop : α) : α → List α → Prop
  | a, [] => a = stop
  | a, k :: rest => a = k ∧ k ≠ stop ∧ Links next stop (next k) rest

namespace Links
variable {next next' : α → α} {stop a : α} {l : List α}

theorem congr (links : Links next stop a l) (same : ∀ k ∈ l, next' k = next k) : Links next' stop a l := by
  induction l generalizing a with
  | nil => exact links
  | cons k rest ih =>
    obtain ⟨here, notStop, tail⟩ := links
    refine ⟨here, notStop, ?_⟩
    rw [same k List.mem_cons_self]
    exact ih tail fun j member => same j (List.mem_cons_of_mem k member)

theorem push (links : Links next stop a l) {k : α} (notStop : k ≠ stop) (here : next' k = a)
    (same : ∀ j ∈ l, next' j = next j) : Links next' stop k (k :: l) :=
  ⟨rfl, notStop, by rw [here]; exact links.congr same⟩

theorem empty (links : Links next stop stop l) : l = [] := by
  cases l with
  | nil => rfl
  | cons k rest => exact absurd links.1.symm links.2.1

theorem uncons (links : Links next stop a l) (started : a ≠ stop) :
    ∃ rest, l = a :: rest ∧ Links next stop (next a) rest := by
  cases l with
  | nil => exact absurd links started
  | cons k rest =>
    obtain ⟨rfl, _, tail⟩ := links
    exact ⟨rest, rfl, tail⟩

end Links

end Rmdb
