import Mathlib.Data.Finset.Card
import Mathlib.Data.Finset.Range
import Mathlib.Tactic.IntervalCases
import Rmdb.Kit.Bytes

namespace Rmdb

/-! Bit arrays inside a block, the most significant bit of a byte first. -/

/-- The mask of bit `k` of a byte, counted from the top. -/
def topBit (k : Nat) : UInt8 := 128 >>> UInt8.ofNat k

theorem topBit_toBitVec {k : Nat} (small : k < 8) : (topBit k).toBitVec = BitVec.twoPow 8 (7 - k) := by
  interval_cases k <;> decide

theorem and_topBit (b : UInt8) {k : Nat} (small : k < 8) :
    (b &&& topBit k != 0) = b.toBitVec.getLsbD (7 - k) := by
  have bits : (b &&& topBit k).toBitVec = if b.toBitVec.getLsbD (7 - k) then BitVec.twoPow 8 (7 - k) else 0#8 := by
    rw [UInt8.toBitVec_and, topBit_toBitVec small, BitVec.and_twoPow]
  have nonzero : BitVec.twoPow 8 (7 - k) ≠ 0#8 := by
    interval_cases k <;> decide
  cases set : b.toBitVec.getLsbD (7 - k) with
  | false =>
    rw [set, if_neg Bool.false_ne_true] at bits
    have : b &&& topBit k = 0 := UInt8.toBitVec_inj.mp bits
    simp [this]
  | true =>
    rw [set, if_pos rfl] at bits
    have : b &&& topBit k ≠ 0 := fun zero => nonzero (by rw [← bits, zero]; rfl)
    simp [this]

theorem or_topBit (b : UInt8) {j k : Nat} (smallJ : j < 8) (smallK : k < 8) :
    ((b ||| topBit j) &&& topBit k != 0) = (decide (k = j) || (b &&& topBit k != 0)) := by
  rw [and_topBit _ smallK, and_topBit _ smallK, UInt8.toBitVec_or, BitVec.getLsbD_or, topBit_toBitVec smallJ,
    BitVec.getLsbD_twoPow, Bool.or_comm]
  congr 1
  simp only [Nat.sub_lt_succ 7 j, decide_true, Bool.true_and, decide_eq_decide]
  omega

theorem and_not_topBit (b : UInt8) {j k : Nat} (smallJ : j < 8) (smallK : k < 8) :
    ((b &&& ~~~topBit j) &&& topBit k != 0) = (decide (k ≠ j) && (b &&& topBit k != 0)) := by
  rw [and_topBit _ smallK, and_topBit _ smallK, UInt8.toBitVec_and, BitVec.getLsbD_and, UInt8.toBitVec_not,
    BitVec.getLsbD_not, topBit_toBitVec smallJ, BitVec.getLsbD_twoPow, Bool.and_comm]
  congr 1
  have inside : 7 - k < 8 := by omega
  by_cases same : k = j
  · subst k
    simp [inside]
  · have apart : 7 - j ≠ 7 - k := by omega
    simp [same, apart, inside]

namespace Block
variable {n : Nat}

def bit (d : Block n) (base pos : Nat) : Bool := d.peek (base + pos / 8) &&& topBit (pos % 8) != 0

def putBit (d : Block n) (base pos : Nat) : Block n :=
  d.poke (base + pos / 8) 1 fun _ => d.peek (base + pos / 8) ||| topBit (pos % 8)

def clearBit (d : Block n) (base pos : Nat) : Block n :=
  d.poke (base + pos / 8) 1 fun _ => d.peek (base + pos / 8) &&& ~~~topBit (pos % 8)

theorem bit_putBit (d : Block n) {base pos : Nat} (bound : base + pos / 8 < n) (other : Nat) :
    (d.putBit base pos).bit base other = (decide (other = pos) || d.bit base other) := by
  unfold bit putBit
  by_cases same : other / 8 = pos / 8
  · rw [same, peek_poke_inside _ _ le_rfl (by omega) bound, or_topBit _ (by omega) (by omega)]
    congr 1
    rw [decide_eq_decide]
    omega
  · have different : other ≠ pos := fun equal => same (by rw [equal])
    rw [peek_poke_outside _ _ (by omega), decide_eq_false different, Bool.false_or]

theorem bit_clearBit (d : Block n) {base pos : Nat} (bound : base + pos / 8 < n) (other : Nat) :
    (d.clearBit base pos).bit base other = (decide (other ≠ pos) && d.bit base other) := by
  unfold bit clearBit
  by_cases same : other / 8 = pos / 8
  · rw [same, peek_poke_inside _ _ le_rfl (by omega) bound, and_not_topBit _ (by omega) (by omega)]
    congr 1
    rw [decide_eq_decide]
    omega
  · have different : other ≠ pos := fun equal => same (by rw [equal])
    rw [peek_poke_outside _ _ (by omega), decide_eq_true different, Bool.true_and]

theorem bit_congr {d e : Block n} {base pos : Nat} (same : d.peek (base + pos / 8) = e.peek (base + pos / 8)) :
    d.bit base pos = e.bit base pos := by
  unfold bit
  rw [same]

/-- The positions below `m` whose bit is set. -/
def bitsSet (d : Block n) (base m : Nat) : Finset Nat := {i ∈ Finset.range m | d.bit base i = true}

theorem mem_bitsSet {d : Block n} {base m i : Nat} : i ∈ d.bitsSet base m ↔ i < m ∧ d.bit base i = true := by
  simp [bitsSet]

theorem bitsSet_congr {d e : Block n} {base m : Nat} (same : ∀ i, i < m → d.bit base i = e.bit base i) :
    d.bitsSet base m = e.bitsSet base m :=
  Finset.filter_congr fun i member => by rw [same i (Finset.mem_range.mp member)]

theorem card_bitsSet_le (d : Block n) (base m : Nat) : (d.bitsSet base m).card ≤ m := by
  have := Finset.card_filter_le (Finset.range m) fun i => d.bit base i = true
  rwa [Finset.card_range] at this

theorem card_putBit (d : Block n) {base pos m : Nat} (bound : base + pos / 8 < n) (small : pos < m)
    (clear : d.bit base pos = false) : ((d.putBit base pos).bitsSet base m).card = (d.bitsSet base m).card + 1 := by
  have grown : (d.putBit base pos).bitsSet base m = insert pos (d.bitsSet base m) := by
    ext i
    rw [mem_bitsSet, bit_putBit d bound, Finset.mem_insert, mem_bitsSet]
    by_cases same : i = pos
    · simp [same, small]
    · simp [same]
  rw [grown, Finset.card_insert_of_notMem]
  simp [mem_bitsSet, clear]

theorem card_clearBit (d : Block n) {base pos m : Nat} (bound : base + pos / 8 < n) (small : pos < m)
    (set : d.bit base pos = true) : ((d.clearBit base pos).bitsSet base m).card + 1 = (d.bitsSet base m).card := by
  have shrunk : (d.clearBit base pos).bitsSet base m = (d.bitsSet base m).erase pos := by
    ext i
    rw [mem_bitsSet, bit_clearBit d bound, Finset.mem_erase, mem_bitsSet]
    by_cases same : i = pos
    · simp [same]
    · simp [same]
  rw [shrunk, Finset.card_erase_add_one (mem_bitsSet.mpr ⟨small, set⟩)]

/-- All positions are set exactly when as many bits are set as there are positions. -/
theorem card_bitsSet_eq {d : Block n} {base m : Nat} :
    (d.bitsSet base m).card = m ↔ ∀ i, i < m → d.bit base i = true := by
  constructor
  · intro full i small
    have all : d.bitsSet base m = Finset.range m :=
      Finset.eq_of_subset_of_card_le (Finset.filter_subset _ _) (by rw [Finset.card_range, full])
    exact (mem_bitsSet.mp (all ▸ Finset.mem_range.mpr small)).2
  · intro all
    have : d.bitsSet base m = Finset.range m := Finset.filter_true_of_mem fun i mem => all i (Finset.mem_range.mp mem)
    rw [this, Finset.card_range]

end Block

/-! `char`s in an expression: they are signed, become `int`s, and the result is cut back to a byte. -/

def promote (c : UInt8) : BitVec 32 := c.toBitVec.signExtend 32

def narrow (v : BitVec 32) : UInt8 := ⟨v.setWidth 8⟩

theorem narrow_promote (c : UInt8) : narrow (promote c) = c := by
  rw [← UInt8.toBitVec_inj]
  refine BitVec.eq_of_getLsbD_eq fun i small => ?_
  simp [narrow, promote, BitVec.getLsbD_signExtend, small]
  omega

theorem promote_and (a b : UInt8) : promote a &&& promote b = promote (a &&& b) := by
  refine BitVec.eq_of_getLsbD_eq fun i small => ?_
  simp only [promote, BitVec.getLsbD_and, BitVec.getLsbD_signExtend, UInt8.toBitVec_and, BitVec.msb_and]
  split <;> simp [small]

theorem promote_or (a b : UInt8) : promote a ||| promote b = promote (a ||| b) := by
  refine BitVec.eq_of_getLsbD_eq fun i small => ?_
  simp only [promote, BitVec.getLsbD_or, BitVec.getLsbD_signExtend, UInt8.toBitVec_or, BitVec.msb_or]
  split <;> simp [small]

theorem promote_not (a : UInt8) : ~~~promote a = promote (~~~a) := by
  refine BitVec.eq_of_getLsbD_eq fun i small => ?_
  simp only [promote, BitVec.getLsbD_not, BitVec.getLsbD_signExtend, UInt8.toBitVec_not, BitVec.msb_not, small]
  split
  · rename_i inByte
    simp [inByte]
  · simp

theorem promote_eq_zero (a : UInt8) : promote a = 0 ↔ a = 0 := by
  constructor
  · intro zero
    rw [← narrow_promote a, zero]
    rfl
  · intro zero
    rw [zero]
    rfl

end Rmdb
