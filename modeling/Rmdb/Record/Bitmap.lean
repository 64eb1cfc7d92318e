import Rmdb.Kit.Bits
import Rmdb.Storage.Disk

namespace Rmdb

def BITMAP_WIDTH : Int := 8

/-! The bitmap of a record page. `bm` is the offset of the bitmap in the page;
positions are the `int`s of the source, so the divisions truncate. -/

namespace Bitmap

def getBucket (pos : Int) : Int := pos.tdiv BITMAP_WIDTH

def getBit (pos : Int) : UInt8 := topBit (pos.tmod BITMAP_WIDTH).toNat

/-- The byte of the position lies in the page and the shift count is not negative. -/
def Inside (bm : Nat) (pos : Int) : Prop :=
  0 ≤ pos.tmod BITMAP_WIDTH ∧ 0 ≤ bm + getBucket pos ∧ bm + getBucket pos < PAGE_SIZE

instance (bm : Nat) (pos : Int) : Decidable (Inside bm pos) := inferInstanceAs (Decidable (_ ∧ _))

def isSet (d : PageData) (bm : Nat) (pos : Int) : Bool :=
  d.peek (bm + getBucket pos).toNat &&& getBit pos != 0

def set (d : PageData) (bm : Nat) (pos : Int) : PageData :=
  d.poke (bm + getBucket pos).toNat 1 fun _ => d.peek (bm + getBucket pos).toNat ||| getBit pos

def reset (d : PageData) (bm : Nat) (pos : Int) : PageData :=
  d.poke (bm + getBucket pos).toNat 1 fun _ => d.peek (bm + getBucket pos).toNat &&& ~~~getBit pos

/-- `memset` of the bitmap to zero. -/
def init (d : PageData) (bm size : Nat) : PageData := d.poke bm size fun _ => 0

/-- The loop of `next_bit` from position `i` on, with `fuel` positions left. -/
def nextBitFrom (bit : Bool) (d : PageData) (bm : Nat) (maxN : Int) : Nat → Int → Int
  | 0, _ => maxN
  | fuel + 1, i => if isSet d bm i = bit then i else nextBitFrom bit d bm maxN fuel (i + 1)

def nextBit (bit : Bool) (d : PageData) (bm : Nat) (maxN curr : Int) : Int :=
  nextBitFrom bit d bm maxN (maxN - (curr + 1)).toNat (curr + 1)

def firstBit (bit : Bool) (d : PageData) (bm : Nat) (maxN : Int) : Int := nextBit bit d bm maxN (-1)

theorem getBucket_nat (k : Nat) : getBucket k = (k / 8 : Nat) := rfl

theorem tmod_nat (k : Nat) : (k : Int).tmod BITMAP_WIDTH = (k % 8 : Nat) := rfl

theorem inside_nat {bm k : Nat} : Inside bm k ↔ bm + k / 8 < PAGE_SIZE := by
  unfold Inside
  rw [tmod_nat, getBucket_nat]
  omega

theorem isSet_nat (d : PageData) (bm k : Nat) : isSet d bm k = d.bit bm k := by
  unfold isSet Block.bit getBit
  rw [getBucket_nat, tmod_nat]
  rfl

theorem set_nat (d : PageData) (bm k : Nat) : set d bm k = d.putBit bm k := by
  unfold set Block.putBit getBit
  rw [getBucket_nat, tmod_nat]
  rfl

theorem reset_nat (d : PageData) (bm k : Nat) : reset d bm k = d.clearBit bm k := by
  unfold reset Block.clearBit getBit
  rw [getBucket_nat, tmod_nat]
  rfl

/-- The loop stops at the first position with the wanted bit, or at `max_n`. -/
theorem nextBitFrom_spec (bit : Bool) (d : PageData) (bm : Nat) {maxN : Int} {fuel : Nat} {i : Int}
    (left : i + fuel = maxN) :
    i ≤ nextBitFrom bit d bm maxN fuel i ∧ nextBitFrom bit d bm maxN fuel i ≤ maxN ∧
      (∀ j, i ≤ j → j < nextBitFrom bit d bm maxN fuel i → isSet d bm j ≠ bit) ∧
      (nextBitFrom bit d bm maxN fuel i < maxN → isSet d bm (nextBitFrom bit d bm maxN fuel i) = bit) := by
  induction fuel generalizing i with
  | zero =>
    simp only [nextBitFrom]
    exact ⟨by omega, le_rfl, fun j lower upper => by omega, fun less => absurd less (lt_irrefl _)⟩
  | succ fuel ih =>
    simp only [nextBitFrom]
    split
    · rename_i found
      exact ⟨le_rfl, by omega, fun j lower upper => by omega, fun _ => found⟩
    · rename_i skip
      obtain ⟨lower, upper, before, here⟩ := ih (i := i + 1) (by omega)
      refine ⟨by omega, upper, ?_, here⟩
      intro j fromI belowFound
      by_cases first : j = i
      · rw [first]
        exact skip
      · exact before j (by omega) belowFound

theorem nextBit_spec (bit : Bool) (d : PageData) (bm : Nat) {maxN curr : Int} (inRange : curr < maxN) :
    curr < nextBit bit d bm maxN curr ∧ nextBit bit d bm maxN curr ≤ maxN ∧
      (∀ j, curr < j → j < nextBit bit d bm maxN curr → isSet d bm j ≠ bit) ∧
      (nextBit bit d bm maxN curr < maxN → isSet d bm (nextBit bit d bm maxN curr) = bit) := by
  obtain ⟨lower, upper, before, here⟩ :=
    nextBitFrom_spec bit d bm (by omega : curr + 1 + (maxN - (curr + 1)).toNat = maxN)
  exact ⟨by unfold nextBit; omega, upper, fun j after => before j (by omega), here⟩

/-- A bitmap with a clear bit below `max_n` has its first one found there. -/
theorem firstBit_lt {d : PageData} {bm : Nat} {maxN : Int} {k : Nat} (below : (k : Int) < maxN)
    (clear : isSet d bm k = false) :
    0 ≤ firstBit false d bm maxN ∧ firstBit false d bm maxN < maxN ∧
      isSet d bm (firstBit false d bm maxN) = false := by
  obtain ⟨lower, upper, before, here⟩ := nextBit_spec false d bm (by omega : (-1 : Int) < maxN)
  have less : firstBit false d bm maxN < maxN := by
    by_contra full
    exact before k (by omega) (by unfold firstBit at full; omega) clear
  exact ⟨by unfold firstBit; omega, less, here less⟩

end Bitmap

end Rmdb
