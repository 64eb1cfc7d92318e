import Rmdb.Common
import Rmdb.Kit.Moves
import Rmdb.Record.FileNames
import Rmdb.Record.Scan

namespace Rmdb
open RmFile RmFileHandle

/-- The errors that carry no name of a request. -/
inductive Error.Plain : Error → Prop
  | io {e : Error} : IoError e → Plain e
  | invalidRecordSize (recordSize : Int) : Plain (.invalidRecordSize recordSize)
  | invalidValueCount : Plain .invalidValueCount
  | stringOverflow : Plain .stringOverflow
  | incompatibleType (lhs rhs : ColType) : Plain (.incompatibleType (coltype2str lhs) (coltype2str rhs))
  | pageNotExist (pageNo : Int) : Plain (.pageNotExist "" pageNo)
  | assertion : Plain .assertion
  | badArrayLength : Plain .badArrayLength
  | outOfRange : Plain .outOfRange
  | undefined : Plain .undefined

/-- The calls on the pages throw none but those. -/
class PlainStore (σ : Type) {φ : Type} [PageStore σ φ] : Prop where
  fetchPage : ∀ p, Raises Error.Plain (PageStore.fetchPage p : EStateM Error σ (Option φ))
  newPage : ∀ fd, Raises Error.Plain (PageStore.newPage fd : EStateM Error σ (Option (PageId × φ)))
  unpinPage : ∀ p isDirty, Raises Error.Plain (PageStore.unpinPage p isDirty : EStateM Error σ Bool)

instance : PlainStore FlatFile where
  fetchPage p s e t run := by
    simp only [PageStore.fetchPage] at run
    split at run
    · cases run
      exact .io .unix
    · cases run
  newPage fd s e t run := by cases run
  unpinPage p isDirty s e t run := by cases run

section
variable {σ φ : Type} [PageStore σ φ]

theorem onStore_raises {α : Type} {x : EStateM Error σ α} (raises : Raises Error.Plain x) :
    Raises Error.Plain (onStore x : RmM σ α) := by
  intro s e t run
  unfold onStore at run
  split at run
  · cases run
  · rename_i stopped
    cases run
    exact raises _ _ _ stopped

theorem require_raises (p : Prop) [Decidable p] : Raises Error.Plain (require p : RmM σ PUnit) := by
  unfold require
  split
  · exact .pure _
  · exact .throw .undefined

theorem modifyPage_raises (page : φ) (f : PageData → PageData) : Raises Error.Plain (modifyPage page f : RmM σ PUnit) :=
  .modify _

theorem get_raises : Raises Error.Plain (get : RmM σ (RmFile σ)) := fun _ _ _ run => by cases run

theorem releasePageHandle_raises (page : φ) : Raises Error.Plain (releasePageHandle page : RmM σ PUnit) :=
  .bind get_raises fun _ => .bind (modifyPage_raises _ _) fun _ => .modify _

end

namespace RmFileHandle
variable {σ φ : Type} [PageStore σ φ] [PlainStore σ]

theorem fetchPageHandle_raises (pageNo : Int) : Raises Error.Plain (fetchPageHandle pageNo : RmM σ φ) := by
  refine .bind get_raises fun s => ?_
  split
  · exact .throw (.pageNotExist pageNo)
  · refine .bind (onStore_raises (PlainStore.fetchPage _)) fun page => ?_
    split
    · exact .throw .undefined
    · exact .pure _

theorem createNewPageHandle_raises : Raises Error.Plain (createNewPageHandle : RmM σ φ) := by
  refine .bind get_raises fun s => .bind (onStore_raises (PlainStore.newPage _)) fun made => ?_
  split
  · exact .throw .undefined
  · exact .bind (modifyPage_raises _ _) fun _ => .bind (require_raises _) fun _ => .bind (.modify _) fun _ => .pure _

theorem createPageHandle_raises : Raises Error.Plain (createPageHandle : RmM σ φ) := by
  refine .bind get_raises fun s => ?_
  split
  · exact createNewPageHandle_raises
  · exact fetchPageHandle_raises _

theorem unpin_raises (page : φ) (isDirty : Bool) : Raises Error.Plain (do
    let s ← get
    let _ ← onStore (PageStore.unpinPage (PageStore.pageId s.store page) isDirty)
    return ⟨⟩ : RmM σ PUnit) :=
  .bind get_raises fun _ => .bind (onStore_raises (PlainStore.unpinPage _ _)) fun _ => .pure _

theorem getRecord_raises (rid : Rid) : Raises Error.Plain (getRecord rid : RmM σ (Option RmRecord)) := by
  refine .bind (fetchPageHandle_raises _) fun page => .bind get_raises fun s => .bind (require_raises _) fun _ => ?_
  split
  · exact .bind (require_raises _) fun _ => .pure _
  · exact .pure _

theorem insertRecord_raises (buf : Nat → UInt8) : Raises Error.Plain (insertRecord buf : RmM σ Rid) :=
  .bind createPageHandle_raises fun _ => .bind get_raises fun _ => .bind (require_raises _) fun _ =>
    .bind (modifyPage_raises _ _) fun _ => .bind (.modify _) fun _ => .bind get_raises fun _ =>
    .bind (onStore_raises (PlainStore.unpinPage _ _)) fun _ => .pure _

theorem deleteRecord_raises (rid : Rid) : Raises Error.Plain (deleteRecord rid : RmM σ PUnit) := by
  refine .bind (fetchPageHandle_raises _) fun page => .bind get_raises fun s => .bind (require_raises _) fun _ => ?_
  split
  · refine .bind (modifyPage_raises _ _) fun _ => ?_
    split
    · exact .bind (releasePageHandle_raises page) fun _ => unpin_raises page true
    · exact unpin_raises page true
  · exact .pure _

theorem updateRecord_raises (rid : Rid) (buf : Nat → UInt8) :
    Raises Error.Plain (updateRecord rid buf : RmM σ PUnit) := by
  refine .bind (fetchPageHandle_raises _) fun page => .bind get_raises fun s => .bind (require_raises _) fun _ => ?_
  split
  · exact .bind (require_raises _) fun _ => .bind (modifyPage_raises _ _) fun _ => unpin_raises page true
  · exact .pure _

end RmFileHandle

namespace RmScan
variable {σ φ : Type} [PageStore σ φ] [PlainStore σ]

theorem nextFrom_raises (pages : Nat) (rid : Rid) : Raises Error.Plain (nextFrom pages rid : RmM σ RmScan) := by
  induction pages generalizing rid with
  | zero => exact .pure _
  | succ pages ih =>
    refine .bind (fetchPageHandle_raises _) fun page => .bind get_raises fun s => ?_
    refine .bind (onStore_raises (PlainStore.unpinPage _ _)) fun _ => ?_
    split
    · exact .pure _
    · exact ih _

theorem next_raises (scan : RmScan) : Raises Error.Plain (next scan : RmM σ RmScan) :=
  .bind get_raises fun _ => nextFrom_raises _ _

theorem new_raises : Raises Error.Plain (new : RmM σ RmScan) := next_raises _

end RmScan

end Rmdb
