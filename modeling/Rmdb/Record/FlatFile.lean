import Rmdb.Kit.Links
import Rmdb.Record.Page

namespace Rmdb

/-- One file as a flat store of pages: what the buffer pool stands for. -/
structure FlatFile where
  page : Int → PageData
  counter : Int

namespace FlatFile

/-- An empty file; the counter of its descriptor is left from earlier uses. -/
def blank (counter : Int) : FlatFile := ⟨fun _ => Block.zero, counter⟩

/-- A fetched page is the page itself, and nothing is ever short of frames. A
negative page number is a failed `lseek`. The file has no name or descriptor. -/
instance : PageStore FlatFile PageId where
  fetchPage p := fun s => if p.pageNo < 0 then .error .unix s else .ok (some p) s
  newPage fd := fun s => .ok (some (⟨fd, s.counter⟩, ⟨fd, s.counter⟩))
    ⟨Function.update s.page s.counter Block.zero, wrapInt (s.counter + 1)⟩
  unpinPage _ _ := pure true
  flushAllPages _ := pure ()
  pageId _ p := p
  data s p := s.page p.pageNo
  setData s p d := { s with page := Function.update s.page p.pageNo d }
  readPage _ pageNo _ := fun s => if pageNo < 0 then .error .unix s else .ok (s.page pageNo).peek s
  writePage _ pageNo src n := fun s =>
    if pageNo < 0 then .error .unix s
    else .ok () { s with page := Function.update s.page pageNo ((s.page pageNo).poke 0 n src) }
  setFd2pageno _ n s := { s with counter := n }
  createFile _ _ := fun s => .ok () (blank s.counter)
  openFile _ fd := pure fd
  closeFile _ := pure ()

end FlatFile

namespace RmManager

/-- A new record file, opened as `fd`. -/
def created (recordSize fd : Int) : EStateM Error FlatFile RmFileHandle := do
  createFile "" recordSize fd fd
  openFile "" fd

/-- `close_file` and `open_file` of the same file, now under the descriptor `fd`. -/
def reopen (fd : Int) : RmM FlatFile PUnit := fun s =>
  match (do closeFile s.handle; openFile "" fd : EStateM Error FlatFile RmFileHandle) s.store with
  | .ok h t => .ok ⟨⟩ ⟨h, t⟩
  | .error e t => .error e ⟨s.handle, t⟩

end RmManager

namespace RmFile
open RmPageHandle

def withPage (s : RmFile FlatFile) (k : Int) (d : PageData) : RmFile FlatFile :=
  { s with store := { s.store with page := Function.update s.store.page k d } }

@[simp] theorem withPage_handle (s : RmFile FlatFile) (k : Int) (d : PageData) :
  (s.withPage k d).handle = s.handle := rfl

@[simp] theorem withPage_hdr (s : RmFile FlatFile) (k : Int) (d : PageData) : (s.withPage k d).hdr = s.hdr := rfl

@[simp] theorem withPage_counter (s : RmFile FlatFile) (k : Int) (d : PageData) :
    (s.withPage k d).store.counter = s.store.counter := rfl

@[simp] theorem withPage_self (s : RmFile FlatFile) (k : Int) (d : PageData) : (s.withPage k d).store.page k = d :=
  Function.update_self ..

theorem withPage_other (s : RmFile FlatFile) {j k : Int} (d : PageData) (different : j ≠ k) :
    (s.withPage k d).store.page j = s.store.page j :=
  Function.update_of_ne different ..

@[simp] theorem setHdr_hdr (s : RmFile FlatFile) (h : RmFileHdr) : (s.setHdr h).hdr = h := rfl

@[simp] theorem setHdr_store (s : RmFile FlatFile) (h : RmFileHdr) : (s.setHdr h).store = s.store := rfl

/-- A page that holds records. -/
def IsPage (s : RmFile FlatFile) (k : Int) : Prop := RM_FIRST_RECORD_PAGE ≤ k ∧ k < s.hdr.numPages

instance (s : RmFile FlatFile) (k : Int) : Decidable (s.IsPage k) := inferInstanceAs (Decidable (_ ∧ _))

def HasRoom (s : RmFile FlatFile) (k : Int) : Prop := numRecords (s.store.page k) < s.hdr.numRecordsPerPage

/-- The chain of free pages that starts at `first`. -/
def FreeList (s : RmFile FlatFile) (first : Int) (l : List Int) : Prop :=
  Links (fun k => nextFreePageNo (s.store.page k)) RM_NO_PAGE first l ∧ l.Nodup ∧
    ∀ k, k ∈ l ↔ s.IsPage k ∧ s.HasRoom k

/-- What holds of a record file between two operations. -/
structure FileInv (s : RmFile FlatFile) : Prop where
  sized : s.hdr.Sized
  pages_pos : 1 ≤ s.hdr.numPages
  pages_le : s.hdr.numPages ≤ intMax
  counter : s.store.counter = s.hdr.numPages
  counted : ∀ k, s.IsPage k → Counted s.hdr (s.store.page k)
  free : ∃ l, s.FreeList s.hdr.firstFreePageNo l

/-- A file with a header that fits its pages. Nothing is said of what the bitmaps mark. -/
structure WellFormed (s : RmFile FlatFile) : Prop where
  sized : s.hdr.Sized
  pages_pos : 1 ≤ s.hdr.numPages

theorem FileInv.wellFormed {s : RmFile FlatFile} (inv : FileInv s) : s.WellFormed := ⟨inv.sized, inv.pages_pos⟩

/-- The records of the file: the marked slots of its record pages. -/
def records (s : RmFile FlatFile) (rid : Rid) : Option RmRecord :=
  if s.IsPage rid.pageNo ∧ 0 ≤ rid.slotNo ∧ rid.slotNo < s.hdr.numRecordsPerPage ∧
      Bitmap.isSet (s.store.page rid.pageNo) bitmap rid.slotNo = true then
    some (readSlot s.hdr (s.store.page rid.pageNo) rid.slotNo)
  else none

namespace FileInv
variable {s : RmFile FlatFile} {k : Int} {d : PageData}

/-- One page changes and the head of the free list with it; the pages stay counted. -/
theorem replace (inv : FileInv s) (counted : Counted s.hdr d) {first : Int} {l : List Int}
    (free : (s.withPage k d).FreeList first l) :
    FileInv ((s.withPage k d).setHdr { s.hdr with firstFreePageNo := first }) where
  sized := ⟨inv.sized.size_pos, inv.sized.size_le, inv.sized.perPage, inv.sized.bitmap⟩
  pages_pos := inv.pages_pos
  pages_le := inv.pages_le
  counter := inv.counter
  counted j isPage := by
    by_cases same : j = k
    · subst j
      simp only [setHdr_store, withPage_self]
      exact counted.hdr_congr rfl rfl
    · simp only [setHdr_store, withPage_other s d same]
      exact (inv.counted j isPage).hdr_congr rfl rfl
  free := ⟨l, free⟩

theorem room_self : (s.withPage k d).HasRoom k ↔ numRecords d < s.hdr.numRecordsPerPage := by
  simp [HasRoom]

theorem room_other {j : Int} (different : j ≠ k) : (s.withPage k d).HasRoom j ↔ s.HasRoom j := by
  simp [HasRoom, withPage_other s d different]

theorem next_other {j : Int} (different : j ≠ k) :
    nextFreePageNo ((s.withPage k d).store.page j) = nextFreePageNo (s.store.page j) := by
  rw [withPage_other s d different]

/-- The page keeps its successor and stays in the list or out of it. -/
theorem free_keep {first : Int} {l : List Int} (free : s.FreeList first l)
    (next : nextFreePageNo d = nextFreePageNo (s.store.page k))
    (room : numRecords d < s.hdr.numRecordsPerPage ↔ s.HasRoom k) : (s.withPage k d).FreeList first l := by
  obtain ⟨links, nodup, members⟩ := free
  refine ⟨links.congr fun j _ => ?_, nodup, fun j => ?_⟩
  · by_cases same : j = k
    · rw [same, withPage_self, next]
    · exact next_other same
  · by_cases same : j = k
    · rw [same, members k, room_self, room]
      rfl
    · rw [members j, room_other same]
      rfl

/-- The first page of the list becomes full and leaves it. -/
theorem free_pop {l : List Int} (free : s.FreeList k (k :: l))
    (full : ¬numRecords d < s.hdr.numRecordsPerPage) :
        (s.withPage k d).FreeList (nextFreePageNo (s.store.page k)) l := by
  obtain ⟨⟨_, _, links⟩, nodup, members⟩ := free
  have fresh := (List.nodup_cons.mp nodup).1
  refine ⟨links.congr fun j member => ?_, (List.nodup_cons.mp nodup).2, fun j => ?_⟩
  · exact next_other fun same => fresh (same ▸ member)
  · by_cases same : j = k
    · rw [same, room_self]
      exact ⟨fun member => absurd member fresh, fun h => absurd h.2 full⟩
    · rw [room_other same]
      have := members j
      rw [List.mem_cons, or_iff_right same] at this
      exact this

/-- A full page gets room and becomes the first of the list. -/
theorem free_push {first : Int} {l : List Int} (free : s.FreeList first l) (isPage : s.IsPage k)
    (wasFull : ¬s.HasRoom k) (next : nextFreePageNo d = first) (room : numRecords d < s.hdr.numRecordsPerPage) :
    (s.withPage k d).FreeList k (k :: l) := by
  obtain ⟨links, nodup, members⟩ := free
  have fresh : k ∉ l := fun member => wasFull ((members k).mp member).2
  have notStop : k ≠ RM_NO_PAGE := by
    have := isPage.1
    unfold RM_FIRST_RECORD_PAGE at this
    unfold RM_NO_PAGE
    omega
  refine ⟨links.push notStop (by rw [withPage_self, next]) ?_, List.nodup_cons.mpr ⟨fresh, nodup⟩, fun j => ?_⟩
  · intro j member
    exact next_other fun same => fresh (same ▸ member)
  · rw [List.mem_cons]
    by_cases same : j = k
    · rw [same, room_self]
      exact ⟨fun _ => ⟨isPage, room⟩, fun _ => Or.inl rfl⟩
    · rw [or_iff_right same, room_other same, members j]
      rfl

end FileInv

end RmFile

end Rmdb
