import Rmdb.Kit.Moves
import Rmdb.Record.FileHandle

namespace Rmdb
open RmFile

/-! The record operations keep the descriptor and the record size, on whatever pages they work. -/

section
variable {σ φ : Type} [PageStore σ φ]

/-- The handle is still one of the same file. -/
structure SameFile (s t : RmFile σ) : Prop where
  fd : t.handle.fd = s.handle.fd
  recordSize : t.hdr.recordSize = s.hdr.recordSize

instance : IsPreorder (RmFile σ) SameFile where
  refl _ := ⟨rfl, rfl⟩
  trans _ _ _ first second := ⟨second.fd.trans first.fd, second.recordSize.trans first.recordSize⟩

namespace RmFileHandle
variable {α : Type}

theorem onStore_same (x : EStateM Error σ α) : Moves SameFile (onStore x) := by
  intro s
  unfold stateAfter onStore
  cases x s.store <;> exact ⟨rfl, rfl⟩

theorem modifyPage_same (page : φ) (f : PageData → PageData) : Moves SameFile (modifyPage page f : RmM σ PUnit) :=
  Moves.modify fun _ => ⟨rfl, rfl⟩

theorem require_same (p : Prop) [Decidable p] : Moves SameFile (require p : RmM σ PUnit) := by
  unfold require
  split
  · exact Moves.pure _
  · exact Moves.throw _

theorem fetchPageHandle_same (pageNo : Int) : Moves SameFile (fetchPageHandle pageNo : RmM σ φ) := by
  refine Moves.get.bind fun s => ?_
  split
  · exact Moves.throw _
  · refine (onStore_same _).bind fun r => ?_
    cases r with
    | none => exact Moves.throw _
    | some page => exact Moves.pure page

theorem createNewPageHandle_same : Moves SameFile (createNewPageHandle : RmM σ φ) := by
  refine Moves.get.bind fun s => (onStore_same _).bind fun r => ?_
  cases r with
  | none => exact Moves.throw _
  | some made =>
    obtain ⟨_, page⟩ := made
    refine (modifyPage_same page _).bind fun _ => (require_same _).bind fun _ => ?_
    exact (Moves.modify fun _ => ⟨rfl, rfl⟩).bind fun _ => Moves.pure page

theorem createPageHandle_same : Moves SameFile (createPageHandle : RmM σ φ) := by
  refine Moves.get.bind fun s => ?_
  split
  · exact createNewPageHandle_same
  · exact fetchPageHandle_same _

theorem releasePageHandle_same (page : φ) : Moves SameFile (releasePageHandle page : RmM σ PUnit) :=
  Moves.get.bind fun _ => (modifyPage_same page _).bind fun _ => Moves.modify fun _ => ⟨rfl, rfl⟩

theorem getRecord_same (rid : Rid) : Moves SameFile (getRecord rid : RmM σ _) := by
  refine (fetchPageHandle_same _).bind fun _ => Moves.get.bind fun _ => (require_same _).bind fun _ => ?_
  split
  · exact (require_same _).bind fun _ => Moves.pure _
  · exact Moves.pure _

theorem insertRecord_same (buf : Nat → UInt8) : Moves SameFile (insertRecord buf : RmM σ Rid) := by
  refine createPageHandle_same.bind fun page => Moves.get.bind fun _ => (require_same _).bind fun _ => ?_
  refine (modifyPage_same page _).bind fun _ => (Moves.modify fun t => ?_).bind fun _ => Moves.get.bind fun _ => ?_
  · split <;> exact ⟨rfl, rfl⟩
  · exact (onStore_same _).bind fun _ => Moves.pure _

theorem deleteRecord_same (rid : Rid) : Moves SameFile (deleteRecord rid : RmM σ PUnit) := by
  refine (fetchPageHandle_same _).bind fun page => Moves.get.bind fun _ => (require_same _).bind fun _ => ?_
  split
  · refine (modifyPage_same page _).bind fun _ => ?_
    split
    · refine (releasePageHandle_same page).bind fun _ => Moves.get.bind fun _ => ?_
      exact (onStore_same _).bind fun _ => Moves.pure _
    · exact Moves.get.bind fun _ => (onStore_same _).bind fun _ => Moves.pure _
  · exact Moves.pure _

theorem updateRecord_same (rid : Rid) (buf : Nat → UInt8) : Moves SameFile (updateRecord rid buf : RmM σ PUnit) := by
  refine (fetchPageHandle_same _).bind fun page => Moves.get.bind fun _ => (require_same _).bind fun _ => ?_
  split
  · refine (require_same _).bind fun _ => (modifyPage_same page _).bind fun _ => Moves.get.bind fun _ => ?_
    exact (onStore_same _).bind fun _ => Moves.pure _
  · exact Moves.pure _

end RmFileHandle

end

end Rmdb
