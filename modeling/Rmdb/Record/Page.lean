import Mathlib.Tactic.Linarith
import Rmdb.Record.FileHandle

namespace Rmdb

/-- The constants of a header as `create_file` computes them for an accepted record size. -/
structure RmFileHdr.Sized (h : RmFileHdr) : Prop where
  size_pos : 1 ≤ h.recordSize
  size_le : h.recordSize ≤ RM_MAX_RECORD_SIZE
  perPage : h.numRecordsPerPage = 32601 / (1 + 8 * h.recordSize)
  bitmap : h.bitmapSize = (h.numRecordsPerPage + 7) / 8

namespace RmFileHdr.Sized
variable {h : RmFileHdr}

theorem create {r : Int} (pos : 1 ≤ r) (le : r ≤ RM_MAX_RECORD_SIZE) : (RmFileHdr.create r).Sized where
  size_pos := pos
  size_le := le
  perPage := by
    simp only [RmFileHdr.create, BITMAP_WIDTH, PAGE_SIZE, RmFileHdr.size]
    rw [Int.tdiv_eq_ediv_of_nonneg (by decide), mul_comm r]
    rfl
  bitmap := by
    simp only [RmFileHdr.create, BITMAP_WIDTH, PAGE_SIZE, RmFileHdr.size]
    have nonneg : 0 ≤ Int.tdiv (8 * ((4096 : Nat) - 1 - (20 : Nat)) + 1) (1 + r * 8) :=
      Int.tdiv_nonneg (by decide) (by omega)
    rw [Int.tdiv_eq_ediv_of_nonneg (by omega), Int.add_sub_assoc]
    rfl

theorem perPage_pos (sized : h.Sized) : 1 ≤ h.numRecordsPerPage := by
  have le := sized.size_le
  have pos := sized.size_pos
  unfold RM_MAX_RECORD_SIZE at le
  rw [sized.perPage, Int.le_ediv_iff_mul_le (by omega)]
  omega

theorem perPage_mul (sized : h.Sized) : h.numRecordsPerPage + 8 * (h.numRecordsPerPage * h.recordSize) ≤ 32601 := by
  have pos := sized.size_pos
  have := Int.ediv_mul_le 32601 (by omega : 1 + 8 * h.recordSize ≠ 0)
  rw [← sized.perPage] at this
  linarith [mul_add h.numRecordsPerPage 1 (8 * h.recordSize), mul_left_comm h.numRecordsPerPage 8 h.recordSize]

theorem perPage_le (sized : h.Sized) : h.numRecordsPerPage ≤ 3622 := by
  have pos := sized.perPage_pos
  have fits := sized.perPage_mul
  have := le_mul_of_one_le_right (by omega : 0 ≤ h.numRecordsPerPage) sized.size_pos
  omega

/-- Page header, bitmap and slots fit into a page. -/
theorem fits (sized : h.Sized) : 12 + h.bitmapSize + h.numRecordsPerPage * h.recordSize ≤ 4096 := by
  have := sized.perPage_mul
  have := sized.bitmap
  omega

theorem bitmap_covers (sized : h.Sized) : h.numRecordsPerPage ≤ 8 * h.bitmapSize ∧ 0 < h.bitmapSize := by
  have := sized.bitmap
  have := sized.perPage_pos
  omega

/-- A slot in range ends where the next one starts, inside the page. -/
theorem slot_bound (sized : h.Sized) {k : Nat} (small : (k : Int) < h.numRecordsPerPage) :
    (k : Int) * h.recordSize + h.recordSize ≤ h.numRecordsPerPage * h.recordSize := by
  have := Int.mul_le_mul_of_nonneg_right (by omega : (k : Int) + 1 ≤ h.numRecordsPerPage)
    (by have := sized.size_pos; omega : 0 ≤ h.recordSize)
  linarith [add_mul (k : Int) 1 h.recordSize]

theorem isHdr (sized : h.Sized) (pages : IsInt h.numPages) (first : IsInt h.firstFreePageNo) : h.IsHdr := by
  have perPage := sized.perPage_pos
  have perPageLe := sized.perPage_le
  have bitmapSize := sized.bitmap
  have sizePos := sized.size_pos
  have sizeLe := sized.size_le
  unfold RM_MAX_RECORD_SIZE at sizeLe
  intro k
  unfold RmFileHdr.field
  split
  case h_2 => exact pages
  case h_4 => exact first
  all_goals
    unfold IsInt intMin intMax
    omega

end RmFileHdr.Sized

/-- The header read back from the page it was written to. -/
theorem RmFileHdr.ofBytes_poke {h : RmFileHdr} (range : h.IsHdr) (d : PageData) :
    ofBytes (d.poke 0 size h.bytes).peek = h := by
  refine Eq.trans (ofBytes_congr fun i small => ?_) (ofBytes_bytes range)
  have : i < PAGE_SIZE := by
    unfold size at small
    unfold PAGE_SIZE
    omega
  exact Block.peek_poke_inside d _ (Nat.zero_le i) (by omega) this

namespace RmPageHandle
variable {h : RmFileHdr}

/-- The bytes of slot `k` start here. -/
def slotAt (h : RmFileHdr) (k : Nat) : Nat := 12 + h.bitmapSize.toNat + k * h.recordSize.toNat

theorem getSlot_nat (sized : h.Sized) (k : Nat) : getSlot h k = slotAt h k := by
  have := sized.bitmap_covers
  have := sized.size_pos
  unfold getSlot slots slotAt bitmap OFFSET_PAGE_HDR
  push_cast
  rw [Int.toNat_of_nonneg (by omega), Int.toNat_of_nonneg (by omega)]

theorem slotAt_bound (sized : h.Sized) {k : Nat} (small : (k : Int) < h.numRecordsPerPage) :
    slotAt h k + h.recordSize.toNat ≤ 4096 := by
  have bound := sized.slot_bound small
  have fits := sized.fits
  have := sized.bitmap_covers
  have := sized.size_pos
  have same := getSlot_nat sized k
  unfold getSlot slots bitmap OFFSET_PAGE_HDR at same
  push_cast at same
  omega

theorem slotAt_lower (h : RmFileHdr) (k : Nat) : 12 + h.bitmapSize.toNat ≤ slotAt h k := Nat.le_add_right _ _

/-- Different slots do not overlap. -/
theorem slotAt_apart (h : RmFileHdr) {j k : Nat} (different : j ≠ k) :
    slotAt h j + h.recordSize.toNat ≤ slotAt h k ∨ slotAt h k + h.recordSize.toNat ≤ slotAt h j := by
  unfold slotAt
  rcases Nat.lt_or_gt_of_ne different with less | less
  · left
    have := Nat.mul_le_mul_right h.recordSize.toNat less
    rw [Nat.succ_mul] at this
    omega
  · right
    have := Nat.mul_le_mul_right h.recordSize.toNat less
    rw [Nat.succ_mul] at this
    omega

theorem slotInside (sized : h.Sized) {k : Nat} (small : (k : Int) < h.numRecordsPerPage) : SlotInside h k := by
  have := sized.size_pos
  have := slotAt_bound sized small
  unfold SlotInside PAGE_SIZE
  rw [getSlot_nat sized]
  omega

theorem bitInside (sized : h.Sized) {k : Nat} (small : (k : Int) < 8 * h.bitmapSize) : Bitmap.Inside bitmap k := by
  have := sized.fits
  have := Int.mul_nonneg (by have := sized.perPage_pos; omega : 0 ≤ h.numRecordsPerPage)
    (by have := sized.size_pos; omega : 0 ≤ h.recordSize)
  rw [Bitmap.inside_nat]
  unfold bitmap OFFSET_PAGE_HDR PAGE_SIZE
  omega

/-- Slot `k` of a page as a record. -/
def slot (h : RmFileHdr) (d : PageData) (k : Nat) : RmRecord :=
  (List.range h.recordSize.toNat).map fun i => d.peek (slotAt h k + i)

theorem readSlot_nat (sized : h.Sized) (d : PageData) (k : Nat) : readSlot h d k = slot h d k := by
  unfold readSlot slot
  rw [getSlot_nat sized]
  rfl

/-! What a write to one part of the page leaves of the others. -/

section frame
variable (d : PageData) {off len : Nat} (src : Nat → UInt8)

theorem nextFreePageNo_poke (after : 8 ≤ off) : nextFreePageNo (d.poke off len src) = nextFreePageNo d :=
  Block.readInt_congr fun i _ upper => Block.peek_poke_outside _ _ (by unfold OFFSET_PAGE_HDR at upper; omega)

theorem numRecords_poke (after : 12 ≤ off) : numRecords (d.poke off len src) = numRecords d :=
  Block.readInt_congr fun i _ upper => Block.peek_poke_outside _ _ (by unfold OFFSET_PAGE_HDR at upper; omega)

theorem bit_poke {k : Nat} (apart : off + len ≤ 12 + k / 8 ∨ 12 + k / 8 < off) :
    (d.poke off len src).bit bitmap k = d.bit bitmap k :=
  Block.bit_congr (Block.peek_poke_outside _ _ (by unfold bitmap OFFSET_PAGE_HDR; omega))

theorem slot_poke {k : Nat} (apart : off + len ≤ slotAt h k ∨ slotAt h k + h.recordSize.toNat ≤ off) :
    slot h (d.poke off len src) k = slot h d k := by
  unfold slot
  apply List.map_congr_left
  intro i member
  have := List.mem_range.mp member
  exact Block.peek_poke_outside _ _ (by omega)

end frame

section parts
variable (d : PageData)

@[simp] theorem nextFreePageNo_setNextFreePageNo {v : Int} (range : IsInt v) :
    nextFreePageNo (setNextFreePageNo d v) = v := Block.readInt_writeInt d range (by decide)

@[simp] theorem numRecords_setNextFreePageNo (v : Int) : numRecords (setNextFreePageNo d v) = numRecords d :=
  Block.readInt_congr fun i lower _ =>
    Block.peek_poke_outside _ _ (by unfold OFFSET_PAGE_HDR at lower ⊢; omega)

@[simp] theorem bit_setNextFreePageNo (v : Int) (k : Nat) :
    (setNextFreePageNo d v).bit bitmap k = d.bit bitmap k :=
  bit_poke d _ (by unfold OFFSET_PAGE_HDR; omega)

@[simp] theorem slot_setNextFreePageNo (v : Int) (k : Nat) : slot h (setNextFreePageNo d v) k = slot h d k :=
  slot_poke d _ (by have := slotAt_lower h k; unfold OFFSET_PAGE_HDR; omega)

@[simp] theorem numRecords_setNumRecords {v : Int} (range : IsInt v) : numRecords (setNumRecords d v) = v :=
  Block.readInt_writeInt d range (by decide)

@[simp] theorem nextFreePageNo_setNumRecords (v : Int) : nextFreePageNo (setNumRecords d v) = nextFreePageNo d :=
  nextFreePageNo_poke d _ (by decide)

@[simp] theorem bit_setNumRecords (v : Int) (k : Nat) : (setNumRecords d v).bit bitmap k = d.bit bitmap k :=
  bit_poke d _ (by unfold OFFSET_PAGE_HDR; omega)

@[simp] theorem slot_setNumRecords (v : Int) (k : Nat) : slot h (setNumRecords d v) k = slot h d k :=
  slot_poke d _ (by have := slotAt_lower h k; unfold OFFSET_PAGE_HDR; omega)

end parts

section slots
variable (d : PageData) (sized : h.Sized) (buf : Nat → UInt8) {k : Nat}
include sized

theorem writeSlot_nat : writeSlot h d k buf = d.poke (slotAt h k) h.recordSize.toNat buf := by
  unfold writeSlot
  rw [getSlot_nat sized]
  rfl

theorem numRecords_writeSlot : numRecords (writeSlot h d k buf) = numRecords d := by
  rw [writeSlot_nat d sized]
  exact numRecords_poke d _ (by have := slotAt_lower h k; omega)

theorem nextFreePageNo_writeSlot : nextFreePageNo (writeSlot h d k buf) = nextFreePageNo d := by
  rw [writeSlot_nat d sized]
  exact nextFreePageNo_poke d _ (by have := slotAt_lower h k; omega)

theorem bit_writeSlot {j : Nat} (small : (j : Int) < 8 * h.bitmapSize) :
    (writeSlot h d k buf).bit bitmap j = d.bit bitmap j := by
  rw [writeSlot_nat d sized]
  exact bit_poke d _ (by have := slotAt_lower h k; omega)

theorem slot_writeSlot_other {j : Nat} (different : j ≠ k) :
    slot h (writeSlot h d k buf) j = slot h d j := by
  rw [writeSlot_nat d sized]
  exact slot_poke d _ (by have := slotAt_apart h different; omega)

theorem slot_writeSlot_self (small : (k : Int) < h.numRecordsPerPage) :
    slot h (writeSlot h d k buf) k = (List.range h.recordSize.toNat).map buf := by
  rw [writeSlot_nat d sized]
  apply List.map_congr_left
  intro i member
  have := List.mem_range.mp member
  have := slotAt_bound sized small
  rw [Block.peek_poke_inside _ _ (by omega) (by omega) (by unfold PAGE_SIZE; omega), Nat.add_sub_cancel_left]

end slots

section bits
variable (d : PageData) (sized : h.Sized) {k : Nat}

theorem bit_set (sized : h.Sized) (small : (k : Int) < 8 * h.bitmapSize) (j : Nat) :
    (Bitmap.set d bitmap k).bit bitmap j = (decide (j = k) || d.bit bitmap j) := by
  rw [Bitmap.set_nat, Block.bit_putBit d (Bitmap.inside_nat.mp (bitInside sized small))]

theorem bit_reset (sized : h.Sized) (small : (k : Int) < 8 * h.bitmapSize) (j : Nat) :
    (Bitmap.reset d bitmap k).bit bitmap j = (decide (j ≠ k) && d.bit bitmap j) := by
  rw [Bitmap.reset_nat, Block.bit_clearBit d (Bitmap.inside_nat.mp (bitInside sized small))]

@[simp] theorem numRecords_set (j : Nat) : numRecords (Bitmap.set d bitmap j) = numRecords d := by
  rw [Bitmap.set_nat]
  exact numRecords_poke d _ (by unfold bitmap OFFSET_PAGE_HDR; omega)

@[simp] theorem numRecords_reset (j : Nat) : numRecords (Bitmap.reset d bitmap j) = numRecords d := by
  rw [Bitmap.reset_nat]
  exact numRecords_poke d _ (by unfold bitmap OFFSET_PAGE_HDR; omega)

@[simp] theorem nextFreePageNo_set (j : Nat) : nextFreePageNo (Bitmap.set d bitmap j) = nextFreePageNo d := by
  rw [Bitmap.set_nat]
  exact nextFreePageNo_poke d _ (by unfold bitmap OFFSET_PAGE_HDR; omega)

@[simp] theorem nextFreePageNo_reset (j : Nat) : nextFreePageNo (Bitmap.reset d bitmap j) = nextFreePageNo d := by
  rw [Bitmap.reset_nat]
  exact nextFreePageNo_poke d _ (by unfold bitmap OFFSET_PAGE_HDR; omega)

theorem slot_set (small : (k : Int) < 8 * h.bitmapSize) (j : Nat) :
    slot h (Bitmap.set d bitmap k) j = slot h d j := by
  rw [Bitmap.set_nat]
  exact slot_poke d _ (by have := slotAt_lower h j; unfold bitmap OFFSET_PAGE_HDR; omega)

theorem slot_reset (small : (k : Int) < 8 * h.bitmapSize) (j : Nat) :
    slot h (Bitmap.reset d bitmap k) j = slot h d j := by
  rw [Bitmap.reset_nat]
  exact slot_poke d _ (by have := slotAt_lower h j; unfold bitmap OFFSET_PAGE_HDR; omega)

end bits

/-- What the record layer keeps true of a record page: the counter counts the
marked slots, and no bit of the bitmap behind the last slot is set. -/
structure Counted (h : RmFileHdr) (d : PageData) : Prop where
  count : numRecords d = (d.bitsSet bitmap h.numRecordsPerPage.toNat).card
  beyond : ∀ k : Nat, h.numRecordsPerPage ≤ k → (k : Int) < 8 * h.bitmapSize → d.bit bitmap k = false

namespace Counted
variable {d : PageData}

/-- Only the number of slots and the size of the bitmap matter. -/
theorem hdr_congr {h' : RmFileHdr} (counted : Counted h d) (perPage : h'.numRecordsPerPage = h.numRecordsPerPage)
    (size : h'.bitmapSize = h.bitmapSize) : Counted h' d := by
  refine ⟨?_, fun k lower upper => ?_⟩
  · rw [perPage]
    exact counted.count
  · exact counted.beyond k (perPage ▸ lower) (size ▸ upper)

theorem le (sized : h.Sized) (counted : Counted h d) : 0 ≤ numRecords d ∧ numRecords d ≤ h.numRecordsPerPage := by
  have := d.card_bitsSet_le bitmap h.numRecordsPerPage.toNat
  have := sized.perPage_pos
  rw [counted.count]
  omega

/-- The counter reaches the number of slots exactly when every slot is marked. -/
theorem full (sized : h.Sized) (counted : Counted h d) :
    numRecords d = h.numRecordsPerPage ↔ ∀ k : Nat, (k : Int) < h.numRecordsPerPage → d.bit bitmap k = true := by
  have pos := sized.perPage_pos
  have all : (Block.bitsSet d bitmap h.numRecordsPerPage.toNat).card = _ ↔ _ := Block.card_bitsSet_eq
  rw [counted.count]
  constructor
  · intro full k small
    exact all.mp (by omega) k (by omega)
  · intro marked
    have := all.mpr fun i small => marked i (by omega)
    omega

end Counted

end RmPageHandle

namespace RmFileHandle
open RmPageHandle
variable {h : RmFileHdr} {d : PageData} {k : Nat}

section place
variable (sized : h.Sized) (buf : Nat → UInt8)
include sized

theorem nextFreePageNo_placeRecord : nextFreePageNo (placeRecord h k buf d) = nextFreePageNo d := by
  simp only [placeRecord, nextFreePageNo_setNumRecords, nextFreePageNo_set, nextFreePageNo_writeSlot d sized]

theorem numRecords_placeRecord (nonneg : 0 ≤ numRecords d) (room : numRecords d < h.numRecordsPerPage) :
    numRecords (placeRecord h k buf d) = numRecords d + 1 := by
  have := sized.perPage_le
  have range : IsInt (numRecords d + 1) := by
    unfold IsInt intMin intMax
    omega
  simp only [placeRecord, numRecords_set, numRecords_writeSlot d sized]
  exact numRecords_setNumRecords _ range

variable (small : (k : Int) < h.numRecordsPerPage)
include small

theorem bit_placeRecord {j : Nat} (inMap : (j : Int) < 8 * h.bitmapSize) :
    (placeRecord h k buf d).bit bitmap j = (decide (j = k) || d.bit bitmap j) := by
  have covers := sized.bitmap_covers
  simp only [placeRecord, bit_setNumRecords]
  rw [bit_set _ sized (by omega), bit_writeSlot d sized buf inMap]

theorem slot_placeRecord (j : Nat) :
    slot h (placeRecord h k buf d) j = if j = k then (List.range h.recordSize.toNat).map buf else slot h d j := by
  have covers := sized.bitmap_covers
  simp only [placeRecord, slot_setNumRecords]
  rw [slot_set _ (by omega)]
  split
  · rename_i same
    rw [same, slot_writeSlot_self d sized buf small]
  · rename_i different
    rw [slot_writeSlot_other d sized buf different]

/-- Filling an empty slot keeps the page counted. -/
theorem counted_placeRecord (counted : Counted h d) (empty : d.bit bitmap k = false) :
    numRecords d < h.numRecordsPerPage ∧ numRecords (placeRecord h k buf d) = numRecords d + 1 ∧
      Counted h (placeRecord h k buf d) := by
  have covers := sized.bitmap_covers
  obtain ⟨nonneg, upper⟩ := counted.le sized
  have room : numRecords d < h.numRecordsPerPage := by
    refine lt_of_le_of_ne upper fun full => ?_
    have := (counted.full sized).mp full k small
    rw [empty] at this
    cases this
  have grown := numRecords_placeRecord sized buf nonneg room (k := k)
  refine ⟨room, grown, ?_, ?_⟩
  · have bound := Bitmap.inside_nat.mp (bitInside sized (by omega : (k : Int) < 8 * h.bitmapSize))
    have bits : (placeRecord h k buf d).bitsSet bitmap h.numRecordsPerPage.toNat =
        (d.putBit bitmap k).bitsSet bitmap h.numRecordsPerPage.toNat := by
      apply Block.bitsSet_congr
      intro i inside
      rw [bit_placeRecord sized buf small (by omega), Block.bit_putBit d bound]
    rw [grown, bits, Block.card_putBit d bound (by omega) empty, counted.count]
    rfl
  · intro j lower upper
    rw [bit_placeRecord sized buf small upper, counted.beyond j lower upper, Bool.or_false]
    exact decide_eq_false (by omega)

end place

section drop

theorem nextFreePageNo_dropRecord : nextFreePageNo (dropRecord k d) = nextFreePageNo d := by
  simp only [dropRecord, nextFreePageNo_setNumRecords, nextFreePageNo_reset]

variable (sized : h.Sized) (small : (k : Int) < h.numRecordsPerPage)
include sized small

theorem bit_dropRecord (j : Nat) : (dropRecord k d).bit bitmap j = (decide (j ≠ k) && d.bit bitmap j) := by
  have covers := sized.bitmap_covers
  simp only [dropRecord, bit_setNumRecords]
  rw [bit_reset d sized (by omega)]

theorem slot_dropRecord (j : Nat) : slot h (dropRecord k d) j = slot h d j := by
  have covers := sized.bitmap_covers
  simp only [dropRecord, slot_setNumRecords]
  rw [slot_reset d (by omega)]

/-- Emptying a marked slot keeps the page counted. -/
theorem counted_dropRecord (counted : Counted h d) (marked : d.bit bitmap k = true) :
    numRecords (dropRecord k d) = numRecords d - 1 ∧ Counted h (dropRecord k d) := by
  have covers := sized.bitmap_covers
  have bound := Bitmap.inside_nat.mp (bitInside sized (by omega : (k : Int) < 8 * h.bitmapSize))
  have shrunk := Block.card_clearBit d bound (by omega : k < h.numRecordsPerPage.toNat) marked
  obtain ⟨nonneg, upper⟩ := counted.le sized
  have := sized.perPage_le
  have range : IsInt (numRecords d - 1) := by
    unfold IsInt intMin intMax
    omega
  have count : numRecords (dropRecord k d) = numRecords d - 1 := by
    simp only [dropRecord, numRecords_reset]
    exact numRecords_setNumRecords _ range
  refine ⟨count, ?_, ?_⟩
  · have bits : (dropRecord k d).bitsSet bitmap h.numRecordsPerPage.toNat =
        (d.clearBit bitmap k).bitsSet bitmap h.numRecordsPerPage.toNat := by
      apply Block.bitsSet_congr
      intro i inside
      rw [bit_dropRecord sized small, Block.bit_clearBit d bound]
    rw [count, bits, counted.count]
    omega
  · intro j lower upper
    rw [bit_dropRecord sized small, counted.beyond j lower upper, Bool.and_false]

end drop

/-- A new page has no record and no successor. -/
theorem initPage_empty (sized : h.Sized) :
    nextFreePageNo (initPage h d) = RM_NO_PAGE ∧ numRecords (initPage h d) = 0 ∧
      ∀ j : Nat, (j : Int) < 8 * h.bitmapSize → (initPage h d).bit bitmap j = false := by
  have minus : IsInt RM_NO_PAGE := by decide
  have nought : IsInt 0 := by decide
  have fits := sized.fits
  have := Int.mul_nonneg (by have := sized.perPage_pos; omega : 0 ≤ h.numRecordsPerPage)
    (by have := sized.size_pos; omega : 0 ≤ h.recordSize)
  unfold initPage Bitmap.init
  refine ⟨?_, ?_, ?_⟩
  · rw [nextFreePageNo_poke _ _ (by decide), nextFreePageNo_setNumRecords, nextFreePageNo_setNextFreePageNo _ minus]
  · rw [numRecords_poke _ _ (by decide), numRecords_setNumRecords _ nought]
  · intro j inMap
    unfold Block.bit
    rw [Block.peek_poke_inside _ _ (by omega) (by omega) (by unfold bitmap OFFSET_PAGE_HDR PAGE_SIZE; omega)]
    simp

theorem counted_initPage (sized : h.Sized) : Counted h (initPage h d) := by
  have covers := sized.bitmap_covers
  obtain ⟨_, none, clear⟩ := initPage_empty (d := d) sized
  refine ⟨?_, fun j _ inMap => clear j inMap⟩
  have bits : (initPage h d).bitsSet bitmap h.numRecordsPerPage.toNat = ∅ := by
    apply Finset.filter_false_of_mem
    intro i member
    have := Finset.mem_range.mp member
    rw [clear i (by omega)]
    exact Bool.false_ne_true
  rw [none, bits, Finset.card_empty, Nat.cast_zero]

theorem counted_setNextFreePageNo (counted : Counted h d) (v : Int) : Counted h (setNextFreePageNo d v) := by
  refine ⟨?_, fun j lower upper => ?_⟩
  · rw [numRecords_setNextFreePageNo, counted.count]
    congr 2
    exact (Block.bitsSet_congr fun i _ => bit_setNextFreePageNo d v i).symm
  · rw [bit_setNextFreePageNo, counted.beyond j lower upper]

theorem counted_writeSlot (sized : h.Sized) (counted : Counted h d) (buf : Nat → UInt8) :
    Counted h (writeSlot h d k buf) := by
  have covers := sized.bitmap_covers
  refine ⟨?_, fun j lower upper => ?_⟩
  · rw [numRecords_writeSlot d sized, counted.count]
    congr 2
    exact (Block.bitsSet_congr fun i inside => bit_writeSlot d sized buf (by omega)).symm
  · rw [bit_writeSlot d sized buf upper, counted.beyond j lower upper]

end RmFileHandle

end Rmdb
