import Rmdb.Kit.Regions
import Rmdb.Record.Page

namespace Rmdb

/-- Where the `lsn_t` of a page is kept. -/
def Page.OFFSET_LSN : Nat := 0

namespace Bitmap

/-! The masks as the source computes them, on `char`s. -/

def getBitChar (pos : Int) : UInt8 := narrow ((128 : BitVec 32) >>> (pos.tmod BITMAP_WIDTH).toNat)

def isSetChar (b : UInt8) (pos : Int) : Bool := promote b &&& promote (getBitChar pos) != 0

def setChar (b : UInt8) (pos : Int) : UInt8 := narrow (promote b ||| promote (getBitChar pos))

def resetChar (b : UInt8) (pos : Int) : UInt8 :=
  narrow (promote b &&& promote (narrow (~~~promote (getBitChar pos))))

theorem getBitChar_nat (k : Nat) : getBitChar k = getBit k := by
  unfold getBitChar getBit
  rw [tmod_nat, Int.toNat_natCast]
  have small : k % 8 < 8 := Nat.mod_lt k (by decide)
  generalize k % 8 = m at small
  interval_cases m <;> decide

theorem isSet_char (d : PageData) (bm k : Nat) : isSet d bm k = isSetChar (d.peek (bm + getBucket k).toNat) k := by
  rw [isSet, isSetChar, getBitChar_nat, promote_and, bne, bne, Bool.not_inj_iff, Bool.eq_iff_iff, beq_iff_eq,
    beq_iff_eq]
  exact (promote_eq_zero _).symm

theorem set_char (d : PageData) (bm k : Nat) : set d bm k =
    d.poke (bm + getBucket k).toNat 1 fun _ => setChar (d.peek (bm + getBucket k).toNat) k := by
  rw [set, setChar, getBitChar_nat, promote_or, narrow_promote]

theorem reset_char (d : PageData) (bm k : Nat) : reset d bm k =
    d.poke (bm + getBucket k).toNat 1 fun _ => resetChar (d.peek (bm + getBucket k).toNat) k := by
  rw [reset, resetChar, getBitChar_nat, promote_not, narrow_promote, promote_and, narrow_promote]

end Bitmap

/-- The parts of a page with `n` slots. -/
inductive Part (n : Nat)
  | lsn
  | pageHdr
  | bitmap
  | slot (i : Fin n)

namespace Part
variable {n : Nat}
open RmPageHandle

/-- The offset the pointer of the part has in `data_`. -/
def start (h : RmFileHdr) : Part n → Int
  | lsn => Page.OFFSET_LSN
  | pageHdr => OFFSET_PAGE_HDR
  | bitmap => RmPageHandle.bitmap
  | slot i => getSlot h i

def size (h : RmFileHdr) : Part n → Int
  | lsn => 4
  | pageHdr => 8
  | bitmap => h.bitmapSize
  | slot _ => h.recordSize

def regions (h : RmFileHdr) : Regions (Part n) := ⟨fun p => (p.start h).toNat, fun p => (p.size h).toNat⟩

/-- The bytes of the part. -/
def bytes (h : RmFileHdr) (p : Part n) : Set Nat := (regions h).bytes p

/-- The parts from the front of the page to its end. -/
def order : Part n → Nat
  | lsn => 0
  | pageHdr => 1
  | bitmap => 2
  | slot i => 3 + i

theorem order_injective : (order (n := n)).Injective := by
  rintro (_ | _ | _ | i) (_ | _ | _ | j) same
  all_goals simp only [order] at same
  case slot.slot => rw [Fin.ext (Nat.add_left_cancel same)]
  all_goals first
    | rfl
    | omega

section
variable {h : RmFileHdr} (sized : h.Sized)
include sized

theorem start_slot (i : Fin n) : (regions h).start (slot i) = slotAt h i := by
  change (getSlot h i).toNat = _
  rw [getSlot_nat sized, Int.toNat_natCast]

/-- The parts lie one behind the other. -/
theorem ordered : (regions (n := n) h).Ordered order := by
  have front : (regions (n := n) h).start bitmap + (regions (n := n) h).size bitmap = 12 + h.bitmapSize.toNat := rfl
  rintro (_ | _ | _ | i) (_ | _ | _ | j) less
  case slot.slot =>
    have first : (i : Nat) < j := Nat.lt_of_add_lt_add_left less
    have next := Nat.mul_le_mul_right h.recordSize.toNat first
    rw [Nat.succ_mul] at next
    rw [start_slot sized, start_slot sized]
    change slotAt h i + h.recordSize.toNat ≤ slotAt h j
    unfold slotAt
    omega
  case lsn.slot =>
    have := slotAt_lower h j
    rw [start_slot sized]
    exact Nat.le_trans (by decide : 0 + 4 ≤ 12) (by omega)
  case pageHdr.slot =>
    have := slotAt_lower h j
    rw [start_slot sized]
    exact Nat.le_trans (by decide : 4 + 8 ≤ 12) (by omega)
  case bitmap.slot =>
    rw [start_slot sized, front]
    exact slotAt_lower h j
  all_goals simp only [order] at less
  case lsn.pageHdr => exact (by decide : 0 + 4 ≤ 4)
  case lsn.bitmap => exact (by decide : 0 + 4 ≤ 12)
  case pageHdr.bitmap => exact (by decide : 4 + 8 ≤ 12)
  all_goals omega

theorem inside (p : Part h.numRecordsPerPage.toNat) :
    0 ≤ p.start h ∧ 0 < p.size h ∧ p.start h + p.size h ≤ PAGE_SIZE := by
  have fits := sized.fits
  have := Int.mul_nonneg (by have := sized.perPage_pos; omega : 0 ≤ h.numRecordsPerPage)
    (by have := sized.size_pos; omega : 0 ≤ h.recordSize)
  have covers := sized.bitmap_covers
  cases p with
  | lsn => exact (by decide : (0 : Int) ≤ Page.OFFSET_LSN ∧ (0 : Int) < 4 ∧ (Page.OFFSET_LSN : Int) + 4 ≤ PAGE_SIZE)
  | pageHdr => exact (by decide : (0 : Int) ≤ OFFSET_PAGE_HDR ∧ (0 : Int) < 8 ∧ (OFFSET_PAGE_HDR : Int) + 8 ≤ PAGE_SIZE)
  | bitmap =>
    change (0 : Int) ≤ (12 : Nat) ∧ 0 < h.bitmapSize ∧ ((12 : Nat) : Int) + h.bitmapSize ≤ (4096 : Nat)
    omega
  | slot i =>
    have small := i.isLt
    obtain ⟨_, lower, upper⟩ := slotInside sized (by omega : ((i : Nat) : Int) < h.numRecordsPerPage)
    exact ⟨lower, sized.size_pos, upper⟩

end

end Part

namespace Bitmap

/-- The least position behind `curr` with the wanted bit, or `max_n`. -/
theorem nextBit_least (bit : Bool) (d : PageData) (bm : Nat) (maxN curr : Int) :
    IsLeast {j | curr < j ∧ j < maxN ∧ isSet d bm j = bit} (nextBit bit d bm maxN curr) ∨
      nextBit bit d bm maxN curr = maxN ∧ ∀ j, curr < j → j < maxN → isSet d bm j ≠ bit := by
  by_cases inRange : curr < maxN
  · obtain ⟨lower, upper, before, here⟩ := nextBit_spec bit d bm inRange
    by_cases found : nextBit bit d bm maxN curr < maxN
    · left
      refine ⟨⟨lower, found, here found⟩, ?_⟩
      intro j inside
      obtain ⟨after, _, holds⟩ := inside
      by_contra less
      exact before j after (by omega) holds
    · right
      have full : nextBit bit d bm maxN curr = maxN := by omega
      exact ⟨full, fun j after below => before j after (by omega)⟩
  · right
    refine ⟨?_, fun j after below => by omega⟩
    rw [nextBit, show (maxN - (curr + 1)).toNat = 0 by omega]
    rfl

end Bitmap

section
open RmPageHandle Bitmap

/-- Operations on one part of a record page with `n` slots leave the other parts alone. -/
structure InterferenceFree (h : RmFileHdr) (n : Nat) (d : PageData) : Prop where
  count : (n : Int) = h.numRecordsPerPage ∧ 0 < n
  inside : ∀ p : Part n, 0 ≤ p.start h ∧ 0 < p.size h ∧ p.start h + p.size h ≤ PAGE_SIZE
  apart : Pairwise fun p q : Part n => Disjoint (p.bytes h) (q.bytes h)
  masks : ∀ i : Fin n, isSet d bitmap (i : Nat) = isSetChar (d.peek (bitmap + getBucket (i : Nat)).toNat) (i : Nat) ∧
    set d bitmap (i : Nat) = d.poke (bitmap + getBucket (i : Nat)).toNat 1
      (fun _ => setChar (d.peek (bitmap + getBucket (i : Nat)).toNat) (i : Nat)) ∧
    reset d bitmap (i : Nat) = d.poke (bitmap + getBucket (i : Nat)).toNat 1
      (fun _ => resetChar (d.peek (bitmap + getBucket (i : Nat)).toNat) (i : Nat))
  set_bits : ∀ (i : Fin n) (j : Nat), isSet (set d bitmap (i : Nat)) bitmap j = (decide (j = i) || isSet d bitmap j)
  set_bytes : ∀ i : Fin n, Set.EqOn (set d bitmap (i : Nat)).peek d.peek (Part.bytes h (.bitmap : Part n))ᶜ
  reset_bits : ∀ (i : Fin n) (j : Nat), isSet (reset d bitmap (i : Nat)) bitmap j =
    (decide (j ≠ i) && isSet d bitmap j)
  reset_bytes : ∀ i : Fin n, Set.EqOn (reset d bitmap (i : Nat)).peek d.peek (Part.bytes h (.bitmap : Part n))ᶜ
  slot_self : ∀ (i : Fin n) (buf : Nat → UInt8),
    readSlot h (writeSlot h d (i : Nat) buf) (i : Nat) = (List.range h.recordSize.toNat).map buf
  slot_bytes : ∀ (i : Fin n) (buf : Nat → UInt8),
    Set.EqOn (writeSlot h d (i : Nat) buf).peek d.peek (Part.bytes h (.slot i))ᶜ
  slot_others : ∀ (i : Fin n) (buf : Nat → UInt8) (p : Part n), p ≠ .slot i →
    Set.EqOn (writeSlot h d (i : Nat) buf).peek d.peek (p.bytes h)
  slot_bits : ∀ (i : Fin n) (buf : Nat → UInt8) (j : Nat), (j : Int) < 8 * h.bitmapSize →
    isSet (writeSlot h d (i : Nat) buf) bitmap j = isSet d bitmap j
  next_bit : ∀ (bit : Bool) (c : Int),
    IsLeast {j | c < j ∧ j < n ∧ isSet d bitmap j = bit} (nextBit bit d bitmap n c) ∨
      nextBit bit d bitmap n c = n ∧ ∀ j, c < j → j < n → isSet d bitmap j ≠ bit

end

section
variable {h : RmFileHdr} {d : PageData} (sized : h.Sized)
open RmPageHandle
include sized

theorem Part.mem_bitmap {n i : Nat} (small : (i : Int) < 8 * h.bitmapSize) :
    RmPageHandle.bitmap + i / 8 ∈ Part.bytes h (.bitmap : Part n) := by
  have covers := sized.bitmap_covers
  exact ⟨Nat.le_add_right _ _, (by omega : 12 + i / 8 < 12 + h.bitmapSize.toNat)⟩

/-- Everything a header of `create_file` needs to keep the parts of its pages apart. -/
theorem InterferenceFree.of_sized : InterferenceFree h h.numRecordsPerPage.toNat d := by
  have positive := sized.perPage_pos
  have covers := sized.bitmap_covers
  have small (i : Fin h.numRecordsPerPage.toNat) : ((i : Nat) : Int) < h.numRecordsPerPage := by
    have := i.isLt
    omega
  have inMap (i : Fin h.numRecordsPerPage.toNat) : ((i : Nat) : Int) < 8 * h.bitmapSize := by
    have := small i
    omega
  have total : (h.numRecordsPerPage.toNat : Int) = h.numRecordsPerPage := by omega
  have apart := (Part.ordered (n := h.numRecordsPerPage.toNat) sized).disjoint Part.order_injective
  have written (i : Fin h.numRecordsPerPage.toNat) (buf : Nat → UInt8) :
      Set.EqOn (writeSlot h d (i : Nat) buf).peek d.peek (Part.bytes h (.slot i))ᶜ := by
    rw [writeSlot_nat d sized]
    refine Block.eqOn_poke d buf fun k lower upper => ⟨?_, ?_⟩
    · rwa [Part.start_slot sized]
    · rw [Part.start_slot sized]
      exact upper
  have others (i : Fin h.numRecordsPerPage.toNat) (buf : Nat → UInt8) (p : Part h.numRecordsPerPage.toNat)
      (other : p ≠ .slot i) : Set.EqOn (writeSlot h d (i : Nat) buf).peek d.peek (p.bytes h) :=
    (written i buf).mono fun k inside outside => Set.disjoint_left.mp (apart other) inside outside
  constructor
  case count => exact ⟨total, by omega⟩
  case inside => exact Part.inside sized
  case apart => exact apart
  case masks => exact fun i => ⟨Bitmap.isSet_char d _ i, Bitmap.set_char d _ i, Bitmap.reset_char d _ i⟩
  case set_bits =>
    intro i j
    rw [Bitmap.isSet_nat, Bitmap.isSet_nat]
    exact bit_set d sized (inMap i) j
  case set_bytes =>
    intro i
    rw [Bitmap.set_nat]
    refine Block.eqOn_poke d _ fun k lower upper => ?_
    rw [show k = RmPageHandle.bitmap + i / 8 by omega]
    exact Part.mem_bitmap sized (inMap i)
  case reset_bits =>
    intro i j
    rw [Bitmap.isSet_nat, Bitmap.isSet_nat]
    exact bit_reset d sized (inMap i) j
  case reset_bytes =>
    intro i
    rw [Bitmap.reset_nat]
    refine Block.eqOn_poke d _ fun k lower upper => ?_
    rw [show k = RmPageHandle.bitmap + i / 8 by omega]
    exact Part.mem_bitmap sized (inMap i)
  case slot_self =>
    intro i buf
    rw [readSlot_nat sized]
    exact slot_writeSlot_self d sized buf (small i)
  case slot_bytes => exact written
  case slot_others => exact others
  case slot_bits =>
    intro i buf j inside
    rw [Bitmap.isSet_nat, Bitmap.isSet_nat]
    exact Block.bit_eqOn (others i buf .bitmap (by simp)) (Part.mem_bitmap sized inside)
  case next_bit =>
    intro bit c
    rw [total]
    exact Bitmap.nextBit_least bit d RmPageHandle.bitmap h.numRecordsPerPage c

end


/-- The layout of the pages of every file that `create_file` accepts: page LSN, page header, bitmap and slots do not
touch, and the operations on bits and slots stay inside their parts. -/
theorem page_interference_free {recordSize : Int} (accepted : 1 ≤ recordSize ∧ recordSize ≤ RM_MAX_RECORD_SIZE)
    (d : PageData) :
    InterferenceFree (RmFileHdr.create recordSize) (RmFileHdr.create recordSize).numRecordsPerPage.toNat d :=
  .of_sized (.create accepted.1 accepted.2)

/-- Seven slots for records of 512 bytes. -/
theorem page_interference_free_largest : InterferenceFree (RmFileHdr.create 512) 7 Block.zero :=
  page_interference_free (by decide) Block.zero

end Rmdb
