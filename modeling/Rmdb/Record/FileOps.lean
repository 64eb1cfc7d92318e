import Rmdb.Record.FlatFile

namespace Rmdb.RmFileHandle
open RmFile RmPageHandle
variable {s t : RmFile FlatFile} {k : Int}

/-! The record operations on a flat file, one equation each. -/

theorem require_true {σ : Type} {p : Prop} [Decidable p] (holds : p) (s : RmFile σ) : require p s = .ok ⟨⟩ s := by
  unfold require
  rw [if_pos holds]
  rfl

theorem page_flat (s : RmFile FlatFile) (p : PageId) : s.page p = s.store.page p.pageNo := rfl

theorem fetchPageHandle_flat (s : RmFile FlatFile) (k : Int) :
    fetchPageHandle k s =
      if s.hdr.numPages ≤ k then .error (.pageNotExist "" k) s
      else if k < 0 then .error .unix s
      else .ok ⟨s.handle.fd, k⟩ s := by
  unfold fetchPageHandle
  rw [get_bind]
  split
  · rfl
  · split
    · rename_i negative
      exact bind_error (by simp only [onStore, PageStore.fetchPage, if_pos negative])
    · rename_i nonneg
      have found : onStore (PageStore.fetchPage ⟨s.handle.fd, k⟩) s = .ok (some ⟨s.handle.fd, k⟩) s := by
        simp only [onStore, PageStore.fetchPage, if_neg nonneg]
      rw [bind_ok found]
      rfl

theorem fetchPageHandle_ok (nonneg : 0 ≤ k) (below : k < s.hdr.numPages) :
    fetchPageHandle k s = .ok ⟨s.handle.fd, k⟩ s := by
  rw [fetchPageHandle_flat, if_neg (by omega), if_neg (by omega)]

/-- The file after `create_new_page_handle`. -/
def grow (s : RmFile FlatFile) : RmFile FlatFile :=
  { handle := { s.handle with fileHdr := { s.hdr with
      numPages := s.hdr.numPages + 1, firstFreePageNo := s.store.counter } }
    store := ⟨Function.update s.store.page s.store.counter (initPage s.hdr Block.zero), wrapInt (s.store.counter + 1)⟩ }

theorem createNewPageHandle_ok (room : s.hdr.numPages ≠ intMax) :
    createNewPageHandle s = .ok ⟨s.handle.fd, s.store.counter⟩ (grow s) := by
  have made : onStore (PageStore.newPage s.handle.fd) s =
      .ok (some (⟨s.handle.fd, s.store.counter⟩, ⟨s.handle.fd, s.store.counter⟩))
        { s with store := ⟨Function.update s.store.page s.store.counter Block.zero, wrapInt (s.store.counter + 1)⟩ } :=
          rfl
  unfold createNewPageHandle
  rw [get_bind, bind_ok made]
  simp only [modifyPage, modify_bind]
  rw [bind_ok (require_true room _)]
  simp only [modify_bind, pure_apply, PageStore.setData, PageStore.data, PageStore.pageId, setHdr, Function.update_self,
    Function.update_idem]
  rfl

/-- The file after a record was put into slot `slotNo` of page `k`. -/
def fill (s : RmFile FlatFile) (k slotNo : Int) (buf : Nat → UInt8) : RmFile FlatFile :=
  let t := s.withPage k (placeRecord s.hdr slotNo buf (s.store.page k))
  if numRecords (t.store.page k) = t.hdr.numRecordsPerPage then
    t.setHdr { t.hdr with firstFreePageNo := nextFreePageNo (t.store.page k) }
  else t

theorem insertRecord_ok {fd slotNo : Int} {buf : Nat → UInt8} (page : createPageHandle s = .ok ⟨fd, k⟩ t)
    (slot : Bitmap.firstBit false (t.store.page k) bitmap t.hdr.numRecordsPerPage = slotNo)
    (inside : SlotInside t.hdr slotNo ∧ Bitmap.Inside bitmap slotNo) :
    insertRecord buf s = .ok ⟨k, slotNo⟩ (fill t k slotNo buf) := by
  subst slot
  unfold insertRecord
  rw [bind_ok page, get_bind]
  exact bind_ok (require_true inside t)

/-- The file after the marked slot `slotNo` of page `k` was emptied. -/
def empty (s : RmFile FlatFile) (k slotNo : Int) : RmFile FlatFile :=
  let d := dropRecord slotNo (s.store.page k)
  if numRecords (s.store.page k) = s.hdr.numRecordsPerPage then
    (s.withPage k (setNextFreePageNo d s.hdr.firstFreePageNo)).setHdr { s.hdr with firstFreePageNo := k }
  else s.withPage k d

section slots
variable {slotNo : Int} (nonneg : 0 ≤ k) (below : k < s.hdr.numPages) (inside : Bitmap.Inside bitmap slotNo)
include nonneg below inside

theorem isRecord_ok : isRecord ⟨k, slotNo⟩ s = .ok (Bitmap.isSet (s.store.page k) bitmap slotNo) s := by
  unfold isRecord
  rw [bind_ok (fetchPageHandle_ok nonneg below), get_bind, bind_ok (require_true inside _)]
  rfl

theorem getRecord_ok (fits : SlotInside s.hdr slotNo) :
    getRecord ⟨k, slotNo⟩ s =
      .ok (if Bitmap.isSet (s.store.page k) bitmap slotNo then
        some (readSlot s.hdr (s.store.page k) slotNo) else none) s := by
  unfold getRecord
  rw [bind_ok (fetchPageHandle_ok nonneg below), get_bind, bind_ok (require_true inside _)]
  rw [page_flat]
  by_cases marked : Bitmap.isSet (s.store.page k) bitmap slotNo = true
  · rw [if_pos marked, if_pos marked, bind_ok (require_true fits _)]
    rfl
  · rw [if_neg marked, if_neg marked]
    rfl

theorem updateRecord_ok (fits : SlotInside s.hdr slotNo) (buf : Nat → UInt8) :
    updateRecord ⟨k, slotNo⟩ buf s = .ok ⟨⟩
      (if Bitmap.isSet (s.store.page k) bitmap slotNo then s.withPage k (writeSlot s.hdr (s.store.page k) slotNo buf)
        else s) := by
  unfold updateRecord
  rw [bind_ok (fetchPageHandle_ok nonneg below), get_bind, bind_ok (require_true inside _)]
  rw [page_flat]
  by_cases marked : Bitmap.isSet (s.store.page k) bitmap slotNo = true
  · rw [if_pos marked, if_pos marked, bind_ok (require_true fits _)]
    rfl
  · rw [if_neg marked, if_neg marked]
    rfl

theorem deleteRecord_ok :
    deleteRecord ⟨k, slotNo⟩ s = .ok ⟨⟩
      (if Bitmap.isSet (s.store.page k) bitmap slotNo then empty s k slotNo else s) := by
  unfold deleteRecord
  rw [bind_ok (fetchPageHandle_ok nonneg below), get_bind, bind_ok (require_true inside _)]
  rw [page_flat]
  by_cases marked : Bitmap.isSet (s.store.page k) bitmap slotNo = true
  · rw [if_pos marked, if_pos marked]
    unfold empty
    simp only [modifyPage, modify_bind]
    by_cases full : numRecords (s.store.page k) = s.hdr.numRecordsPerPage
    · rw [if_pos full, if_pos full]
      simp only [releasePageHandle, modifyPage, bind_assoc, get_bind, modify_bind, PageStore.setData, PageStore.data,
        PageStore.pageId, Function.update_self, Function.update_idem]
      rfl
    · rw [if_neg full, if_neg full]
      rfl
  · rw [if_neg marked, if_neg marked]
    rfl

end slots

end Rmdb.RmFileHandle
