import Rmdb.Record.RecordMap

namespace Rmdb
open RmFile RmFileHandle RmPageHandle

/-- The call returned or threw, and left the state `t`; after undefined behaviour there is none. -/
def Finishes {σ α : Type} (x : EStateM Error σ α) (s t : σ) : Prop :=
  (∃ a, x s = .ok a t) ∨ ∃ e, e ≠ .undefined ∧ x s = .error e t

/-- States of a table file under the operations that change it. `allowed` says which
records the callers delete and update. -/
inductive FileReach (allowed : RmFile FlatFile → Rid → Prop) : RmFile FlatFile → Prop
  | created {recordSize fd : Int} {h : RmFileHandle} {e f : FlatFile} : RmManager.created recordSize fd e = .ok h f →
      FileReach allowed ⟨h, f⟩
  | insert {s t : RmFile FlatFile} {buf : Nat → UInt8} : FileReach allowed s → Finishes (insertRecord buf) s t →
      FileReach allowed t
  | delete {s t : RmFile FlatFile} {rid : Rid} : FileReach allowed s → allowed s rid →
      Finishes (deleteRecord rid) s t → FileReach allowed t
  | update {s t : RmFile FlatFile} {rid : Rid} {buf : Nat → UInt8} : FileReach allowed s → allowed s rid →
      Finishes (updateRecord rid buf) s t → FileReach allowed t
  | reopen {s t : RmFile FlatFile} {fd : Int} : FileReach allowed s → RmManager.reopen fd s = .ok ⟨⟩ t →
      FileReach allowed t

namespace RmFileHandle
variable {σ φ : Type} [PageStore σ φ] {s t : RmFile σ} {rid : Rid} {page : φ} {e : Error}

/-! The calls with a `Rid`, by what becomes of its page and of the bit they test. -/

theorem refused (run : fetchPageHandle rid.pageNo s = .error e t) :
    getRecord rid s = .error e t ∧ isRecord rid s = .error e t ∧ deleteRecord rid s = .error e t ∧
      ∀ buf, updateRecord rid buf s = .error e t :=
  ⟨bind_error run, bind_error run, bind_error run, fun _ => bind_error run⟩

theorem unmarked (run : fetchPageHandle rid.pageNo s = .ok page t) (inside : Bitmap.Inside bitmap rid.slotNo)
    (clear : Bitmap.isSet (t.page page) bitmap rid.slotNo = false) :
    getRecord rid s = .ok none t ∧ isRecord rid s = .ok false t ∧ deleteRecord rid s = .ok ⟨⟩ t ∧
      ∀ buf, updateRecord rid buf s = .ok ⟨⟩ t := by
  have ok := require_true inside t
  refine ⟨?_, ?_, ?_, fun buf => ?_⟩
  · rw [getRecord, bind_ok run, get_bind, bind_ok ok, clear]
    rfl
  · rw [isRecord, bind_ok run, get_bind, bind_ok ok, clear]
    rfl
  · rw [deleteRecord, bind_ok run, get_bind, bind_ok ok, clear]
    rfl
  · rw [updateRecord, bind_ok run, get_bind, bind_ok ok, clear]
    rfl

end RmFileHandle

namespace RmFile
variable {s t : RmFile FlatFile} {rid : Rid}

/-- Not the header page, and a slot a page has. -/
def Addressable (s : RmFile FlatFile) (rid : Rid) : Prop :=
  rid.pageNo ≠ RM_FILE_HDR_PAGE ∧ 0 ≤ rid.slotNo ∧ rid.slotNo < s.hdr.numRecordsPerPage

/-- An addressable record is in range, or its page is refused before anything happens. -/
theorem Addressable.cases (address : s.Addressable rid) :
    s.InRange rid ∨ ∃ e, fetchPageHandle rid.pageNo s = .error e s := by
  obtain ⟨notHeader, slot⟩ := address
  by_cases inside : s.IsPage rid.pageNo
  · exact Or.inl ⟨inside, slot⟩
  · right
    rw [fetchPageHandle_flat]
    split
    · exact ⟨_, rfl⟩
    · rename_i below
      rw [if_pos]
      · exact ⟨_, rfl⟩
      · by_contra nonneg
        unfold RM_FILE_HDR_PAGE at notHeader
        exact inside ⟨by unfold RM_FIRST_RECORD_PAGE; omega, by omega⟩

/-- The bit that stands for the slot is in the page and clear. -/
def Unmarked (s : RmFile FlatFile) (rid : Rid) : Prop :=
  Bitmap.Inside bitmap rid.slotNo ∧ Bitmap.isSet (s.store.page rid.pageNo) bitmap rid.slotNo = false

instance (s : RmFile FlatFile) (rid : Rid) : Decidable (s.Unmarked rid) := inferInstanceAs (Decidable (_ ∧ _))

/-- A slot that a page has, a page that is refused, or a slot whose bit is clear. -/
def Acceptable (s : RmFile FlatFile) (rid : Rid) : Prop :=
  s.Addressable rid ∨ rid.pageNo < 0 ∨ s.hdr.numPages ≤ rid.pageNo ∨ s.Unmarked rid

/-- An acceptable record is in range, or its page is refused, or there is nothing to delete or to update. -/
theorem Acceptable.cases (acceptable : s.Acceptable rid) :
    s.InRange rid ∨ (∃ e, fetchPageHandle rid.pageNo s = .error e s) ∨
      (∃ page, fetchPageHandle rid.pageNo s = .ok page s ∧ page.pageNo = rid.pageNo) ∧ s.Unmarked rid := by
  by_cases above : s.hdr.numPages ≤ rid.pageNo
  · exact Or.inr (Or.inl ⟨_, by rw [fetchPageHandle_flat, if_pos above]⟩)
  · by_cases negative : rid.pageNo < 0
    · exact Or.inr (Or.inl ⟨_, by rw [fetchPageHandle_flat, if_neg above, if_pos negative]⟩)
    · rcases acceptable with address | below | beyond | clear
      · exact address.cases.imp_right Or.inl
      · exact absurd below negative
      · exact absurd beyond above
      · exact Or.inr (Or.inr ⟨⟨_, fetchPageHandle_ok (by omega) (by omega), rfl⟩, clear⟩)

namespace FileInv

theorem finishes_insert (inv : s.FileInv) {buf : Nat → UInt8} (run : Finishes (RmFileHandle.insertRecord buf) s t) :
    t.FileInv := by
  by_cases space : s.HasSpace
  · obtain ⟨rid, u, call, invU, _⟩ := inv.insertRecord space buf
    rcases run with ⟨a, run⟩ | ⟨e, _, run⟩
    · rw [call] at run
      cases run
      exact invU
    · rw [call] at run
      cases run
  · rcases run with ⟨a, run⟩ | ⟨e, notUndefined, run⟩
    · exact absurd (hasSpace_of_insert run) space
    · obtain ⟨u, overflow⟩ := insertRecord_overflow space buf
      rw [overflow] at run
      cases run
      exact absurd rfl notUndefined

theorem finishes_delete (inv : s.FileInv) (acceptable : s.Acceptable rid)
    (run : Finishes (RmFileHandle.deleteRecord rid) s t) :
    t.FileInv := by
  rcases acceptable.cases with range | ⟨e, refused⟩ | ⟨⟨page, fetched, samePage⟩, inside, clear⟩
  · obtain ⟨u, call, invU, _⟩ := inv.deleteRecord range
    rcases run with ⟨a, run⟩ | ⟨e, _, run⟩ <;> rw [call] at run <;> cases run
    exact invU
  · have call : RmFileHandle.deleteRecord rid s = .error e s := bind_error refused
    rcases run with ⟨a, run⟩ | ⟨e, _, run⟩ <;> rw [call] at run <;> cases run
    exact inv
  · rw [← samePage] at clear
    obtain ⟨_, _, call, _⟩ := unmarked fetched inside clear
    rcases run with ⟨a, run⟩ | ⟨e, _, run⟩ <;> rw [call] at run <;> cases run
    exact inv

theorem finishes_update (inv : s.FileInv) (acceptable : s.Acceptable rid) {buf : Nat → UInt8}
    (run : Finishes (RmFileHandle.updateRecord rid buf) s t) : t.FileInv := by
  rcases acceptable.cases with range | ⟨e, refused⟩ | ⟨⟨page, fetched, samePage⟩, inside, clear⟩
  · obtain ⟨u, call, invU, _⟩ := inv.updateRecord range buf
    rcases run with ⟨a, run⟩ | ⟨e, _, run⟩ <;> rw [call] at run <;> cases run
    exact invU
  · have call : RmFileHandle.updateRecord rid buf s = .error e s := bind_error refused
    rcases run with ⟨a, run⟩ | ⟨e, _, run⟩ <;> rw [call] at run <;> cases run
    exact inv
  · rw [← samePage] at clear
    obtain ⟨_, _, _, call⟩ := unmarked fetched inside clear
    rcases run with ⟨a, run⟩ | ⟨e, _, run⟩ <;> rw [call buf] at run <;> cases run
    exact inv

end FileInv

end RmFile

theorem FileReach.inv {s : RmFile FlatFile} (reach : FileReach Acceptable s) : s.FileInv := by
  induction reach with
  | created made => exact (FileInv.created made).1
  | insert _ run ih => exact ih.finishes_insert run
  | delete _ acceptable run ih => exact ih.finishes_delete acceptable run
  | update _ acceptable run ih => exact ih.finishes_update acceptable run
  | reopen _ run ih =>
    obtain ⟨t, expected, invT, _⟩ := ih.reopen _
    rw [run] at expected
    cases expected
    exact invT

end Rmdb
