import Mathlib.Data.Set.Pairwise.Basic
import Mathlib.Order.Bounds.Defs
import Mathlib.Order.CompletePartialOrder
import Rmdb.Kit.Bits

namespace Rmdb

/-! A block of bytes cut into regions, one behind the other. -/

structure Regions (ι : Type) where
  start : ι → Nat
  size : ι → Nat

namespace Regions
variable {ι : Type} (R : Regions ι)

def bytes (i : ι) : Set Nat := {k | R.start i ≤ k ∧ k < R.start i + R.size i}

/-- Regions that lie one behind the other in some order. -/
def Ordered (order : ι → Nat) : Prop := ∀ i j, order i < order j → R.start i + R.size i ≤ R.start j

variable {R} {order : ι → Nat}

theorem Ordered.disjoint (ordered : R.Ordered order) (distinct : order.Injective) :
    Pairwise fun i j => Disjoint (R.bytes i) (R.bytes j) := by
  intro i j different
  rw [Set.disjoint_left]
  intro k inside other
  obtain ⟨lower, upper⟩ := inside
  obtain ⟨lower', upper'⟩ := other
  rcases Nat.lt_or_gt_of_ne fun same => different (distinct same) with less | less
  · have := ordered i j less
    omega
  · have := ordered j i less
    omega

end Regions

namespace Block
variable {n : Nat} {d e : Block n} {off len : Nat} {src : Nat → UInt8}

theorem eqOn_poke (d : Block n) (src : Nat → UInt8) {S : Set Nat} (covers : ∀ k, off ≤ k → k < off + len → k ∈ S) :
    Set.EqOn (d.poke off len src).peek d.peek Sᶜ := by
  intro k outside
  refine peek_poke_outside d src ?_
  by_contra inside
  exact outside (covers k (by omega) (by omega))

theorem bit_eqOn {S : Set Nat} (same : Set.EqOn d.peek e.peek S) {base pos : Nat} (inside : base + pos / 8 ∈ S) :
    d.bit base pos = e.bit base pos :=
  bit_congr (same inside)

end Block

end Rmdb
