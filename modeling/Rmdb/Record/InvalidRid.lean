import Rmdb.Record.FreeList

namespace Rmdb
open RmFile RmFileHandle RmPageHandle

namespace RmFileHandle
variable {σ φ : Type} [PageStore σ φ] {s t : RmFile σ} {rid : Rid} {page : φ}

/-- Outside the page, or where the bit is set, `get_record` does not answer with a null pointer. -/
theorem marked (run : fetchPageHandle rid.pageNo s = .ok page t)
    (found : Bitmap.Inside bitmap rid.slotNo → Bitmap.isSet (t.page page) bitmap rid.slotNo = true) :
    (∃ r, getRecord rid s = .ok (some r) t) ∨ getRecord rid s = .error .undefined t := by
  by_cases inside : Bitmap.Inside bitmap rid.slotNo
  · have ok := require_true inside t
    by_cases fits : SlotInside t.hdr rid.slotNo
    · left
      refine ⟨readSlot t.hdr (t.page page) rid.slotNo, ?_⟩
      rw [getRecord, bind_ok run, get_bind, bind_ok ok, found inside, if_pos rfl, bind_ok (require_true fits t)]
      rfl
    · right
      rw [getRecord, bind_ok run, get_bind, bind_ok ok, found inside]
      simp only [if_true, require, if_neg fits]
      rfl
  · right
    rw [getRecord, bind_ok run, get_bind]
    simp only [require, if_neg inside]
    rfl

end RmFileHandle

namespace RmFile
variable {s : RmFile FlatFile} {rid : Rid}

/-- The call comes to an end, and header and pages are as before. -/
def Leaves {α : Type} (s : RmFile FlatFile) (x : RmM FlatFile α) : Prop :=
  ∃ t, Finishes x s t ∧ t.hdr = s.hdr ∧ t.store.page = s.store.page

/-- No call takes the `Rid` for a record. -/
structure Harmless (s : RmFile FlatFile) (rid : Rid) : Prop where
  get : ∃ t, getRecord rid s = .ok none t ∨ getRecord rid s = .error (.pageNotExist "" rid.pageNo) t
  test : ∃ t, isRecord rid s = .ok false t ∨ isRecord rid s = .error (.pageNotExist "" rid.pageNo) t
  delete : s.Leaves (deleteRecord rid)
  update : ∀ buf, s.Leaves (updateRecord rid buf)

theorem harmless_of_refused (above : s.hdr.numPages ≤ rid.pageNo) : s.Harmless rid := by
  have run : fetchPageHandle rid.pageNo s = .error (.pageNotExist "" rid.pageNo) s := by
    rw [fetchPageHandle_flat, if_pos above]
  obtain ⟨get, test, delete, update⟩ := refused run
  have ended : Error.pageNotExist "" rid.pageNo ≠ .undefined := by simp
  exact ⟨⟨s, Or.inr get⟩, ⟨s, Or.inr test⟩, ⟨s, Or.inr ⟨_, ended, delete⟩, rfl, rfl⟩,
    fun buf => ⟨s, Or.inr ⟨_, ended, update buf⟩, rfl, rfl⟩⟩

theorem harmless_of_unmarked (nonneg : 0 ≤ rid.pageNo) (below : rid.pageNo < s.hdr.numPages)
    (clear : s.Unmarked rid) : s.Harmless rid := by
  obtain ⟨get, test, delete, update⟩ := unmarked (fetchPageHandle_ok nonneg below) clear.1 clear.2
  exact ⟨⟨s, Or.inl get⟩, ⟨s, Or.inl test⟩, ⟨s, Or.inl ⟨_, delete⟩, rfl, rfl⟩,
    fun buf => ⟨s, Or.inl ⟨_, update buf⟩, rfl, rfl⟩⟩

theorem harmless_iff : s.Harmless rid ↔
    s.hdr.numPages ≤ rid.pageNo ∨ 0 ≤ rid.pageNo ∧ s.Unmarked rid := by
  constructor
  · intro harmless
    by_contra neither
    obtain ⟨below, neither⟩ := not_or.mp neither
    obtain ⟨t, answer⟩ := harmless.get
    by_cases nonneg : 0 ≤ rid.pageNo
    · have found : Bitmap.Inside bitmap rid.slotNo →
          Bitmap.isSet (s.store.page rid.pageNo) bitmap rid.slotNo = true :=
        fun inside => Bool.not_eq_false _ ▸ fun clear => neither ⟨nonneg, inside, clear⟩
      rcases marked (fetchPageHandle_ok nonneg (by omega)) found with ⟨r, run⟩ | run <;>
        rcases answer with answer | answer <;> rw [run] at answer <;> cases answer
    · have run : fetchPageHandle rid.pageNo s = .error .unix s := by
        rw [fetchPageHandle_flat, if_neg below, if_pos (by omega)]
      obtain ⟨get, _⟩ := refused run
      rcases answer with answer | answer <;> rw [get] at answer <;> cases answer
  · rintro (above | ⟨nonneg, clear⟩)
    · exact harmless_of_refused above
    · by_cases above : s.hdr.numPages ≤ rid.pageNo
      · exact harmless_of_refused above
      · exact harmless_of_unmarked nonneg (by omega) clear

/-- The bits behind the last slot, up to the end of the bitmap, are clear on every record page. -/
theorem unmarked_of_bitmap (inv : s.FileInv) (invalid : s.records rid = none) (isPage : s.IsPage rid.pageNo)
    (lower : 0 ≤ rid.slotNo) (upper : rid.slotNo < 8 * s.hdr.bitmapSize) : s.Unmarked rid := by
  obtain ⟨p, slotNo⟩ := rid
  obtain ⟨j, rfl⟩ := Int.eq_ofNat_of_zero_le lower
  refine ⟨bitInside inv.sized upper, ?_⟩
  rw [Bitmap.isSet_nat]
  by_cases small : (j : Int) < s.hdr.numRecordsPerPage
  · rw [records_nat inv.sized] at invalid
    by_contra set
    rw [if_pos ⟨isPage, small, Bool.not_eq_false _ ▸ set⟩] at invalid
    cases invalid
  · exact (inv.counted p isPage).beyond j (by omega) upper

end RmFile

/-- Which invalid `Rid`s are harmless: those whose page number is not below `num_pages`, and those of
a page from 0 on for which `is_set` looks at a clear bit of the page. On a record page these are
at least all the slots up to the end of the bitmap. -/
theorem invalid_rid_harmless_iff {s : RmFile FlatFile} {rid : Rid} (invalid : s.records rid = none) :
    (s.Harmless rid ↔ s.hdr.numPages ≤ rid.pageNo ∨ 0 ≤ rid.pageNo ∧ s.Unmarked rid) ∧
      (s.FileInv → s.IsPage rid.pageNo → 0 ≤ rid.slotNo → rid.slotNo < 8 * s.hdr.bitmapSize → s.Harmless rid) := by
  refine ⟨harmless_iff, fun inv isPage lower upper => harmless_iff.mpr (Or.inr ⟨?_, ?_⟩)⟩
  · have first := isPage.1
    unfold RM_FIRST_RECORD_PAGE at first
    omega
  · exact unmarked_of_bitmap inv invalid isPage lower upper

/-- A file of 4-byte records with the one record `[v, v, v, v]`, closed and opened again. -/
def reopenedFile (v : UInt8) : RmFile FlatFile :=
  match RmManager.created 4 3 (FlatFile.blank 0) with
  | .ok h f => stateAfter (RmManager.reopen 3) (stateAfter (insertRecord fun _ => v) ⟨h, f⟩)
  | .error _ f => ⟨⟨3, .create 4⟩, f⟩

theorem reopenedFile_reach (v : UInt8) {allowed : RmFile FlatFile → Rid → Prop} :
    FileReach allowed (reopenedFile v) := by
  have created : FileReach allowed _ := .created (show RmManager.created 4 3 (FlatFile.blank 0) = _ from rfl)
  have inserted := created.insert (Or.inl ⟨_, show insertRecord (fun _ => v) _ = _ from rfl⟩)
  exact inserted.reopen (show RmManager.reopen 3 _ = _ from rfl)

/-- Slot 990 of the record page: bits of the bitmap there are without a slot. -/
theorem invalid_rid_harmless_padding : (reopenedFile 7).hdr.numRecordsPerPage = 987 ∧
    (reopenedFile 7).Harmless ⟨1, 990⟩ := by
  refine ⟨by decide +kernel, ?_⟩
  have invalid : (reopenedFile 7).records ⟨1, 990⟩ = none := by decide +kernel
  exact (invalid_rid_harmless_iff invalid).2 (reopenedFile_reach 7).inv (by decide +kernel) (by decide)
    (by decide +kernel)

/-- Slot 7 of page 0, the file header: `get_record` returns four bytes of it as a record. -/
theorem header_page_not_harmless : ¬∀ (s : RmFile FlatFile) (rid : Rid), FileReach Addressable s →
    s.records rid = none → s.Harmless rid := by
  intro claim
  obtain ⟨t, answer⟩ := (claim (reopenedFile 7) ⟨0, 7⟩ (reopenedFile_reach 7) (by decide +kernel)).get
  have run : getRecord ⟨0, 7⟩ (reopenedFile 7) = .ok (some [0, 0, 0, 0]) (reopenedFile 7) := rfl
  rw [run] at answer
  rcases answer with answer | answer <;> cases answer

end Rmdb
