import Rmdb.Record.Bitmap

namespace Rmdb

def RM_NO_PAGE : Int := -1

def RM_FILE_HDR_PAGE : Int := 0

def RM_FIRST_RECORD_PAGE : Int := 1

def RM_MAX_RECORD_SIZE : Int := 512

structure Rid where
  pageNo : Int
  slotNo : Int
  deriving DecidableEq, Repr

/-- The file header, stored at the front of page 0. -/
structure RmFileHdr where
  recordSize : Int
  numPages : Int
  numRecordsPerPage : Int
  firstFreePageNo : Int
  bitmapSize : Int
  deriving DecidableEq, Repr

/-- The data of an `RmRecord`; its `size` is the length. -/
abbrev RmRecord := List UInt8

/-- A record's data as the `char*` the source passes on. -/
def RmRecord.ptr (r : RmRecord) : Nat → UInt8 := fun i => r.getD i 0

namespace RmFileHdr

/-- `sizeof(RmFileHdr)`: five `int`s. -/
def size : Nat := 20

def field (h : RmFileHdr) : Nat → Int
  | 0 => h.recordSize
  | 1 => h.numPages
  | 2 => h.numRecordsPerPage
  | 3 => h.firstFreePageNo
  | _ => h.bitmapSize

/-- The header as the bytes written to disk. -/
def bytes (h : RmFileHdr) (i : Nat) : UInt8 := encodeInt (h.field (i / 4)) (i % 4)

def ofBytes (src : Nat → UInt8) : RmFileHdr where
  recordSize := decodeInt src
  numPages := decodeInt fun k => src (4 + k)
  numRecordsPerPage := decodeInt fun k => src (8 + k)
  firstFreePageNo := decodeInt fun k => src (12 + k)
  bitmapSize := decodeInt fun k => src (16 + k)

theorem ofBytes_congr {src src' : Nat → UInt8} (same : ∀ i, i < size → src i = src' i) :
    ofBytes src = ofBytes src' := by
  unfold size at same
  unfold ofBytes
  congr 1
  · exact decodeInt_congr fun k small => same k (by omega)
  · exact decodeInt_congr fun k small => same (4 + k) (by omega)
  · exact decodeInt_congr fun k small => same (8 + k) (by omega)
  · exact decodeInt_congr fun k small => same (12 + k) (by omega)
  · exact decodeInt_congr fun k small => same (16 + k) (by omega)

/-- The fields of the struct are `int`s. -/
def IsHdr (h : RmFileHdr) : Prop := ∀ k, IsInt (h.field k)

theorem decode_field {h : RmFileHdr} (range : h.IsHdr) (k : Nat) :
    decodeInt (fun i => h.bytes (4 * k + i)) = h.field k := by
  have same : ∀ i, i < 4 → h.bytes (4 * k + i) = encodeInt (h.field k) i := by
    intro i small
    unfold bytes
    rw [show (4 * k + i) / 4 = k by omega, show (4 * k + i) % 4 = i by omega]
  rw [decodeInt_congr same, decodeInt_encodeInt, wrapInt_of_isInt (range k)]

theorem ofBytes_bytes {h : RmFileHdr} (range : h.IsHdr) : ofBytes h.bytes = h := by
  have first := decode_field range 0
  simp only [Nat.mul_zero, Nat.zero_add] at first
  have all := decode_field range
  unfold ofBytes
  rw [show decodeInt h.bytes = _ from first, show decodeInt (fun k => h.bytes (4 + k)) = _ from all 1,
    show decodeInt (fun k => h.bytes (8 + k)) = _ from all 2, show decodeInt (fun k => h.bytes (12 + k)) = _ from all 3,
    show decodeInt (fun k => h.bytes (16 + k)) = _ from all 4]
  rfl

/-- The header `create_file` writes for a record size. -/
def create (recordSize : Int) : RmFileHdr where
  recordSize := recordSize
  numPages := 1
  numRecordsPerPage := (BITMAP_WIDTH * (PAGE_SIZE - 1 - size) + 1).tdiv (1 + recordSize * BITMAP_WIDTH)
  firstFreePageNo := RM_NO_PAGE
  bitmapSize :=
    ((BITMAP_WIDTH * (PAGE_SIZE - 1 - size) + 1).tdiv (1 + recordSize * BITMAP_WIDTH) +
      BITMAP_WIDTH - 1).tdiv BITMAP_WIDTH

end RmFileHdr

/-! The parts of a record page: page header, bitmap and slots. -/

namespace RmPageHandle

def OFFSET_PAGE_HDR : Nat := 4

/-- Offset of the bitmap, behind the two `int`s of `RmPageHdr`. -/
def bitmap : Nat := 8 + OFFSET_PAGE_HDR

def nextFreePageNo (d : PageData) : Int := d.readInt OFFSET_PAGE_HDR

def numRecords (d : PageData) : Int := d.readInt (OFFSET_PAGE_HDR + 4)

def setNextFreePageNo (d : PageData) (v : Int) : PageData := d.writeInt OFFSET_PAGE_HDR v

def setNumRecords (d : PageData) (v : Int) : PageData := d.writeInt (OFFSET_PAGE_HDR + 4) v

def slots (h : RmFileHdr) : Int := bitmap + h.bitmapSize

def getSlot (h : RmFileHdr) (slotNo : Int) : Int := slots h + slotNo * h.recordSize

/-- The slot lies in the page. -/
def SlotInside (h : RmFileHdr) (slotNo : Int) : Prop :=
  0 ≤ h.recordSize ∧ 0 ≤ getSlot h slotNo ∧ getSlot h slotNo + h.recordSize ≤ PAGE_SIZE

instance (h : RmFileHdr) (slotNo : Int) : Decidable (SlotInside h slotNo) :=
  inferInstanceAs (Decidable (_ ∧ _))

def readSlot (h : RmFileHdr) (d : PageData) (slotNo : Int) : RmRecord :=
  (List.range h.recordSize.toNat).map fun i => d.peek ((getSlot h slotNo).toNat + i)

/-- `memcpy(slot_data, buf, record_size)`. -/
def writeSlot (h : RmFileHdr) (d : PageData) (slotNo : Int) (buf : Nat → UInt8) : PageData :=
  d.poke (getSlot h slotNo).toNat h.recordSize.toNat buf

end RmPageHandle

end Rmdb
