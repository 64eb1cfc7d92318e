import Rmdb.Index.IxManager
import Rmdb.Record.Kept
import Rmdb.Storage.OpenFiles

namespace Rmdb
open BufferPoolManager DiskManager
variable {N : Nat} {s t : BufferPoolManager N}

/-- A call that creates a file; the operating system makes it as `made` and opens it as `fd`. -/
inductive Creation
  | table (filename : String) (recordSize made fd : Int)
  | index (filename : String) (indexCols : List ColMeta) (made fd : Int)

namespace Creation

def run : Creation → PoolM N Unit
  | .table filename recordSize made fd => RmManager.createFile filename recordSize made fd
  | .index filename indexCols made fd => IxManager.createIndex filename indexCols made fd

/-- The name of the file. -/
def path : Creation → String
  | .table filename _ _ _ => filename
  | .index filename indexCols _ _ => IxManager.getIndexName filename indexCols

end Creation

/-- The exceptions with which a creation is rejected. -/
def Error.Rejects : Error → Prop
  | .invalidRecordSize _ | .invalidColLength _ | .fileExists _ => True
  | _ => False

instance : DecidablePred Error.Rejects := fun e => by
  unfold Error.Rejects
  split <;> infer_instance

namespace DiskManager

/-- The same names with the same contents, and the same files open. -/
structure SameFiles (dm dm' : DiskManager) : Prop where
  path2fd : dm'.path2fd = dm.path2fd
  fd2path : dm'.fd2path = dm.fd2path
  files : ∀ path, (dm'.os.inode path).map dm'.os.file = (dm.os.inode path).map dm.os.file

theorem SameFiles.refl (dm : DiskManager) : SameFiles dm dm := ⟨rfl, rfl, fun _ => rfl⟩

/-- A file that was not there is a trace. -/
theorem SameFiles.missing {dm dm' : DiskManager} {path : String} (same : SameFiles dm dm')
    (missing : dm.os.inode path = none) : dm'.os.inode path = none := by
  have files := same.files path
  rw [missing, Option.map_none] at files
  exact Option.map_eq_none_iff.mp files

end DiskManager

namespace Creation

/-- When the call is rejected it is as if it had not been made. -/
def LeavesNoTrace (call : Creation) (s : BufferPoolManager N) : Prop :=
  ∀ e t, call.run s = .error e t → e.Rejects → SameFiles s.diskManager t.diskManager

/-- What the call rejects it rejects before it creates the file. -/
def Checked (call : Creation) (dm : DiskManager) : Prop :=
  match call with
  | .table filename recordSize made _ => recordSize < 1 ∨ RM_MAX_RECORD_SIZE < recordSize ∨
    dm.isFile filename = true ∨ ¬Usable dm made ∨ dm.path2fd filename = none
  | .index filename indexCols made fd => dm.isFile (IxManager.getIndexName filename indexCols) = true ∨
    ¬Usable dm made ∨ dm.path2fd (IxManager.getIndexName filename indexCols) = none ∧
      (¬Usable dm fd ∨ IxManager.colTotLen indexCols ≤ IX_MAX_COL_LEN)

/-- What both creations do first. -/
def beginFile (path : String) (made fd : Int) : PoolM N Int := do
  PageStore.createFile path made
  PageStore.openFile path fd

theorem beginFile_exists {path : String} (exist : s.diskManager.isFile path = true) (made fd : Int) :
    beginFile path made fd s = .error (.fileExists path) s := by
  refine bind_error ?_
  simp only [PageStore.createFile, DiskManager.createFile, exist, if_true]

theorem beginFile_refused {path : String} {made : Int} (missing : s.diskManager.os.inode path = none)
    (refused : ¬Usable s.diskManager made) (fd : Int) : beginFile path made fd s = .error .unix s := by
  have notFile : s.diskManager.isFile path = false := by rw [isFile, missing, Option.isSome_none]
  refine bind_error ?_
  simp only [PageStore.createFile, DiskManager.createFile, notFile, Bool.false_eq_true, if_false, if_pos refused]

/-- Where there was no file, there is one once it could be made. -/
theorem beginFile_new {path : String} {made : Int} (missing : s.diskManager.os.inode path = none)
    (granted : Usable s.diskManager made) (fd : Int) : ∃ t : BufferPoolManager N, t.diskManager.os.inode path ≠ none ∧
      ((s.diskManager.path2fd path ≠ none ∧ beginFile path made fd s = .error (.fileExists path) t) ∨
        (s.diskManager.path2fd path = none ∧ ¬Usable s.diskManager fd ∧ beginFile path made fd s = .error .unix t) ∨
        (s.diskManager.path2fd path = none ∧ Usable s.diskManager fd ∧
          beginFile path made fd s = .ok fd t ∧ (t.diskManager.path2fd path).isSome = true)) := by
  let dm : DiskManager := { s.diskManager with os := { s.diskManager.os with
    inode := Function.update s.diskManager.os.inode path (some s.diskManager.os.nextInode)
    file := Function.update s.diskManager.os.file s.diskManager.os.nextInode File.empty
    nextInode := s.diskManager.os.nextInode + 1 } }
  have named : dm.os.inode path = some s.diskManager.os.nextInode := Function.update_self ..
  have created : PageStore.createFile path made s = .ok () { s with diskManager := dm } := by
    have notFile : s.diskManager.isFile path = false := by rw [isFile, missing, Option.isSome_none]
    simp only [PageStore.createFile, DiskManager.createFile, notFile, Bool.false_eq_true, if_false,
      if_neg (not_not.mpr granted), dm]
  have same : beginFile path made fd s = PageStore.openFile path fd { s with diskManager := dm } := bind_ok created
  have there : dm.os.inode path ≠ none := by
    rw [named]
    exact Option.some_ne_none _
  simp only [same, PageStore.openFile, DiskManager.openFile, named]
  by_cases closed : s.diskManager.path2fd path = none
  · have isClosed : dm.path2fd path = none := closed
    by_cases usable : Usable s.diskManager fd
    · have isUsable : Usable dm fd := usable
      refine ⟨{ s with diskManager := { dm with
        path2fd := Function.update dm.path2fd path (some fd)
        fd2path := Function.update dm.fd2path fd (some path)
        os := { dm.os with fds := Function.update dm.os.fds fd (some s.diskManager.os.nextInode) } } }, there,
        Or.inr (Or.inr ⟨closed, usable, ?_, ?_⟩)⟩
      · simp only [isClosed, Option.isSome_none, Bool.false_eq_true, if_false, if_neg (not_not.mpr isUsable)]
      · simp only [Function.update_self, Option.isSome_some]
    · have isRefused : ¬Usable dm fd := usable
      refine ⟨{ s with diskManager := dm }, there, Or.inr (Or.inl ⟨closed, usable, ?_⟩)⟩
      simp only [isClosed, Option.isSome_none, Bool.false_eq_true, if_false, if_pos isRefused]
  · have isOpen : (dm.path2fd path).isSome = true := Option.isSome_iff_ne_none.mpr closed
    refine ⟨{ s with diskManager := dm }, there, Or.inl ⟨closed, ?_⟩⟩
    simp only [isOpen, if_true]

/-- What follows either rejects nothing, or everything. -/
theorem beginFile_leavesNoTrace {path : String} {made fd : Int} {rest : Int → PoolM N Unit} {p : Prop}
    (moves : ∀ out, Moves PoolKept (rest out))
    (either : p ∧ Raises (fun e => ¬e.Rejects) (rest fd) ∨ ¬p ∧ ∀ u, ∃ e v, rest fd u = .error e v ∧ e.Rejects) :
    (∀ e t, (beginFile path made fd >>= rest) s = .error e t → e.Rejects → SameFiles s.diskManager t.diskManager) ↔
      s.diskManager.isFile path = true ∨ ¬Usable s.diskManager made ∨ s.diskManager.path2fd path = none ∧
        (¬Usable s.diskManager fd ∨ p) := by
  cases inode : s.diskManager.os.inode path with
  | some ino =>
    have exist : s.diskManager.isFile path = true := by rw [isFile, inode, Option.isSome_some]
    refine iff_of_true (fun e t run _ => ?_) (Or.inl exist)
    rw [bind_error (beginFile_exists exist made fd)] at run
    cases run
    exact .refl _
  | none =>
    have notFile : ¬s.diskManager.isFile path = true := by simp [isFile, inode]
    rw [or_iff_right notFile]
    by_cases granted : Usable s.diskManager made
    case neg =>
      refine iff_of_true (fun e t run rejects => ?_) (Or.inl granted)
      rw [bind_error (beginFile_refused inode granted fd)] at run
      cases run
      cases rejects
    rw [or_iff_right (not_not.mpr granted)]
    obtain ⟨t, there, ⟨isOpen, run⟩ | ⟨closed, refused, run⟩ | ⟨closed, usable, run, _⟩⟩ :=
      beginFile_new inode granted fd
    · refine iff_of_false (fun noTrace => ?_) fun checked => isOpen checked.1
      exact there ((noTrace _ _ (bind_error run) trivial).missing inode)
    · refine iff_of_true (fun e t' run' rejects => ?_) ⟨closed, Or.inl refused⟩
      rw [bind_error run] at run'
      cases run'
      cases rejects
    · rw [bind_ok run]
      rcases either with ⟨holds, raises⟩ | ⟨fails, all⟩
      · exact iff_of_true (fun e t' run' rejects => absurd rejects (raises _ _ _ run')) ⟨closed, Or.inr holds⟩
      · refine iff_of_false (fun noTrace => ?_) fun checked => ?_
        · obtain ⟨e, v, run', rejects⟩ := all t
          obtain ⟨ino, named⟩ := Option.ne_none_iff_exists'.mp there
          have kept := ((moves fd).error run').names path ino not_false named
          exact Option.some_ne_none ino (kept.symm.trans ((noTrace e v run' rejects).missing inode))
        · exact checked.2.elim (absurd usable) fails

end Creation

theorem ensure_moves {α : Type} (x : Except Error α) : Moves PoolKept (ensure x : PoolM N α) := by
  cases x with
  | ok a => exact Moves.pure a
  | error e => exact Moves.throw e

theorem setFd2pageno_moves (fd n : Int) : Moves PoolKept (modify (PageStore.setFd2pageno fd n) : PoolM N PUnit) :=
  Moves.modify fun _ => Kept.of_same rfl rfl rfl

/-! The exceptions after the checks are no rejections. -/

abbrev Error.Accepts (e : Error) : Prop := ¬e.Rejects

theorem putInt_raises (offset v : Int) : Raises Error.Accepts (IxFileHdr.putInt offset v) := by
  refine Raises.bind (fun dest e dest' run => ?_) fun _ => Raises.pure _
  unfold Buffer.store at run
  split at run
  · cases run
  · cases run
    exact not_false

theorem putEach_raises {β : Type} (write : β → List UInt8) (l : List β) (i n : Nat) (offset : Int) :
    Raises Error.Accepts (Buffer.putEach .undefined write l i n offset) := by
  induction n generalizing i offset with
  | zero => exact Raises.pure _
  | succ n ih =>
    unfold Buffer.putEach
    split
    · exact Raises.throw not_false
    · refine Raises.bind (Raises.bind (fun dest e dest' run => ?_) fun _ => Raises.pure _) fun _ => ih _ _
      unfold Buffer.store at run
      split at run
      · cases run
      · cases run
        exact not_false

theorem serialize_raises (h : IxFileHdr) : Raises Error.Accepts h.serialize := by
  unfold IxFileHdr.serialize
  refine (putInt_raises _ _).bind fun _ => (putInt_raises _ _).bind fun _ => (putInt_raises _ _).bind fun _ => ?_
  refine (putInt_raises _ _).bind fun _ => (putInt_raises _ _).bind fun _ => ?_
  refine (putEach_raises _ _ _ _ _).bind fun _ => (putEach_raises _ _ _ _ _).bind fun _ => ?_
  refine (putInt_raises _ _).bind fun _ => (putInt_raises _ _).bind fun _ => (putInt_raises _ _).bind fun _ => ?_
  refine (putInt_raises _ _).bind fun _ => (putInt_raises _ _).bind fun _ => ?_
  split
  · exact Raises.throw not_false
  · exact Raises.pure _

theorem image_raises (h : IxFileHdr) : Raises Error.Accepts (ensure h.image : PoolM N _) := by
  cases image : h.image with
  | ok data => exact Raises.pure _
  | error e =>
    refine Raises.throw ?_
    unfold IxFileHdr.image Buffer.fill at image
    split at image
    · cases image
      exact not_false
    · split at image
      · cases image
      · rename_i run
        cases image
        exact serialize_raises h _ _ _ run

theorem writePage_raises (fd pageNo : Int) (src : Nat → UInt8) (n : Nat) :
    Raises Error.Accepts (PageStore.writePage fd pageNo src n : PoolM N Unit) := by
  intro s e t run rejects
  cases writePage_fails run <;> exact rejects

theorem closeFile_raises (fd : Int) : Raises Error.Accepts (PageStore.closeFile fd : PoolM N Unit) := by
  intro s e t run rejects
  simp only [PageStore.closeFile] at run
  split at run
  · cases run
  · rename_i refused
    cases run
    unfold DiskManager.closeFile at refused
    split at refused
    · cases refused
      exact rejects
    · split at refused
      · cases refused
        exact rejects
      · cases refused

namespace Creation

/-- `RmManager::create_file` after the file was made and opened. -/
def tableRest (recordSize out : Int) : PoolM N Unit := do
  PageStore.writePage out RM_FILE_HDR_PAGE (RmFileHdr.create recordSize).bytes RmFileHdr.size
  PageStore.closeFile out

theorem table_run (filename : String) (recordSize made fd : Int) :
    ((Creation.table filename recordSize made fd).run : PoolM N Unit) =
      if recordSize < 1 ∨ recordSize > RM_MAX_RECORD_SIZE then throw (.invalidRecordSize recordSize)
      else beginFile filename made fd >>= tableRest recordSize := by
  simp only [beginFile, bind_assoc]
  rfl

theorem tableRest_moves (recordSize out : Int) : Moves PoolKept (tableRest recordSize out : PoolM N Unit) :=
  (writePage_moves _ _ _ _).bind fun _ => closeFile_moves _

theorem tableRest_raises (recordSize out : Int) : Raises Error.Accepts (tableRest recordSize out : PoolM N Unit) :=
  (writePage_raises _ _ _ _).bind fun _ => closeFile_raises _

/-- `IxManager::create_index` after the file was made and opened: the length is checked only then. -/
def indexRest (indexCols : List ColMeta) (out : Int) : PoolM N Unit := do
  let colTotLen := IxManager.colTotLen indexCols
  if IX_MAX_COL_LEN < colTotLen then throw (.invalidColLength colTotLen)
  if (colTotLen + 8) % 18446744073709551616 = 0 then throw .undefined
  if IxManager.btreeOrder colTotLen ≤ 2 then throw .assertion
  let hdr := IxManager.newFileHdr indexCols
  let data ← ensure hdr.image
  PageStore.writePage out IX_FILE_HDR_PAGE (fun i => data.getD i 0) hdr.totLen.toNat
  PageStore.writePage out IX_LEAF_HEADER_PAGE (leafPage IX_INIT_ROOT_PAGE IX_INIT_ROOT_PAGE) PAGE_SIZE
  PageStore.writePage out IX_INIT_ROOT_PAGE (leafPage IX_LEAF_HEADER_PAGE IX_LEAF_HEADER_PAGE) PAGE_SIZE
  modify (PageStore.setFd2pageno out (IX_INIT_NUM_PAGES - 1))
  PageStore.closeFile out

theorem index_run (filename : String) (indexCols : List ColMeta) (made fd : Int) :
    ((Creation.index filename indexCols made fd).run : PoolM N Unit) =
      beginFile (IxManager.getIndexName filename indexCols) made fd >>= indexRest indexCols := by
  simp only [beginFile, bind_assoc]
  rfl

theorem indexRest_rejects {indexCols : List ColMeta} (long : IX_MAX_COL_LEN < IxManager.colTotLen indexCols) (out : Int)
    (u : BufferPoolManager N) :
    indexRest indexCols out u = .error (.invalidColLength (IxManager.colTotLen indexCols)) u := by
  unfold indexRest
  simp only
  rw [if_pos long]
  rfl

theorem indexRest_raises {indexCols : List ColMeta} (short : IxManager.colTotLen indexCols ≤ IX_MAX_COL_LEN) (out : Int) :
    Raises Error.Accepts (indexRest indexCols out : PoolM N Unit) := by
  unfold indexRest
  simp only
  rw [if_neg (not_lt.mpr short)]
  split
  · exact Raises.throw not_false
  · split
    · exact Raises.throw not_false
    · refine (image_raises _).bind fun data => (writePage_raises _ _ _ _).bind fun _ => ?_
      refine (writePage_raises _ _ _ _).bind fun _ => (writePage_raises _ _ _ _).bind fun _ => ?_
      exact (Raises.modify _).bind fun _ => closeFile_raises _

theorem indexRest_moves (indexCols : List ColMeta) (out : Int) :
    Moves PoolKept (indexRest indexCols out : PoolM N Unit) := by
  unfold indexRest
  simp only
  split
  · exact Moves.throw _
  · split
    · exact Moves.throw _
    · split
      · exact Moves.throw _
      · refine (ensure_moves _).bind fun data => (writePage_moves _ _ _ _).bind fun _ => ?_
        refine (writePage_moves _ _ _ _).bind fun _ => (writePage_moves _ _ _ _).bind fun _ => ?_
        exact (setFd2pageno_moves _ _).bind fun _ => closeFile_moves _

/-- A rejected creation leaves no trace exactly if the rejection came before the file was created. -/
theorem leavesNoTrace_iff (call : Creation) (s : BufferPoolManager N) :
    call.LeavesNoTrace s ↔ call.Checked s.diskManager := by
  cases call with
  | index filename indexCols made fd =>
    unfold LeavesNoTrace
    rw [index_run]
    refine beginFile_leavesNoTrace (indexRest_moves indexCols) ?_
    by_cases long : IX_MAX_COL_LEN < IxManager.colTotLen indexCols
    · exact Or.inr ⟨not_le.mpr long, fun u => ⟨_, u, indexRest_rejects long fd u, trivial⟩⟩
    · exact Or.inl ⟨not_lt.mp long, indexRest_raises (not_lt.mp long) fd⟩
  | table filename recordSize made fd =>
    unfold LeavesNoTrace
    rw [table_run]
    by_cases invalid : recordSize < 1 ∨ recordSize > RM_MAX_RECORD_SIZE
    · rw [if_pos invalid]
      refine iff_of_true (fun e t run _ => ?_) (invalid.imp_right Or.inl)
      cases run
      exact .refl _
    · rw [if_neg invalid]
      obtain ⟨low, high⟩ := not_or.mp invalid
      rw [beginFile_leavesNoTrace (p := True) (tableRest_moves recordSize)
        (Or.inl ⟨trivial, tableRest_raises recordSize fd⟩)]
      simp only [or_true, and_true]
      simp only [Checked]
      rw [or_iff_right low, or_iff_right high]

/-- An index on columns that are too long: its file is there afterwards, and open. -/
theorem create_index_leaves_trace : ¬∀ (s : BufferPoolManager 1) (call : Creation), call.LeavesNoTrace s := by
  intro noTrace
  let s : BufferPoolManager 1 := .new (OpenFiles.new OpenFiles.noFiles) fun _ => 0
  let cols : List ColMeta := [⟨"t", "a", .string, 513, 0, false⟩]
  have long : IX_MAX_COL_LEN < IxManager.colTotLen cols := by decide
  have missing : s.diskManager.os.inode (IxManager.getIndexName "t" cols) = none := rfl
  have usable : Usable s.diskManager 3 := by decide
  obtain ⟨t, there, run⟩ := beginFile_new missing usable 3
  have begun : beginFile (IxManager.getIndexName "t" cols) 3 3 s = .ok 3 t := by
    rcases run with ⟨isOpen, _⟩ | ⟨_, refused, _⟩ | ⟨_, _, run, _⟩
    · exact absurd rfl isOpen
    · exact absurd usable refused
    · exact run
  have rejected : (Creation.index "t" cols 3 3).run s = .error (.invalidColLength 513) t := by
    rw [index_run, bind_ok begun]
    exact indexRest_rejects long 3 t
  exact there ((noTrace s (.index "t" cols 3 3) _ t rejected trivial).missing rfl)

/-- After that the file cannot be removed, and nothing else be created under its name. -/
theorem rejected_index_stays {filename : String} {indexCols : List ColMeta} {made fd n : Int}
    (run : (Creation.index filename indexCols made fd).run s = .error (.invalidColLength n) t) :
    (∀ permitted, RmManager.destroyFile (IxManager.getIndexName filename indexCols) permitted t =
        .error (.fileNotClosed (IxManager.getIndexName filename indexCols)) t) ∧
      ∀ call : Creation, call.path = IxManager.getIndexName filename indexCols →
        ∃ e, call.run t = .error e t ∧ e.Rejects := by
  rw [index_run] at run
  have stays : t.diskManager.isFile (IxManager.getIndexName filename indexCols) = true ∧
      (t.diskManager.path2fd (IxManager.getIndexName filename indexCols)).isSome = true := by
    cases inode : s.diskManager.os.inode (IxManager.getIndexName filename indexCols) with
    | some ino =>
      rw [bind_error (beginFile_exists (by rw [isFile, inode, Option.isSome_some]) made fd)] at run
      cases run
    | none =>
      by_cases granted : Usable s.diskManager made
      case neg =>
        rw [bind_error (beginFile_refused inode granted fd)] at run
        cases run
      obtain ⟨u, there, ⟨_, begun⟩ | ⟨_, _, begun⟩ | ⟨_, _, begun, isOpen⟩⟩ := beginFile_new inode granted fd
      · rw [bind_error begun] at run
        cases run
      · rw [bind_error begun] at run
        cases run
      · rw [bind_ok begun] at run
        have long : IX_MAX_COL_LEN < IxManager.colTotLen indexCols := by
          by_contra short
          exact indexRest_raises (not_lt.mp short) fd _ _ _ run trivial
        rw [indexRest_rejects long] at run
        cases run
        exact ⟨Option.isSome_iff_ne_none.mpr there, isOpen⟩
  obtain ⟨exist, isOpen⟩ := stays
  constructor
  · intro permitted
    simp only [RmManager.destroyFile, DiskManager.destroyFile, exist, isOpen, Bool.not_true, Bool.false_eq_true,
      if_false, if_true]
  · intro call same
    rw [← same] at exist
    cases call with
    | index filename' indexCols' made' fd' =>
      refine ⟨.fileExists (IxManager.getIndexName filename' indexCols'), ?_, trivial⟩
      rw [index_run]
      exact bind_error (beginFile_exists exist made' fd')
    | table filename' recordSize' made' fd' =>
      rw [table_run]
      by_cases invalid : recordSize' < 1 ∨ recordSize' > RM_MAX_RECORD_SIZE
      · rw [if_pos invalid]
        exact ⟨.invalidRecordSize recordSize', rfl, trivial⟩
      · rw [if_neg invalid]
        exact ⟨.fileExists filename', bind_error (beginFile_exists exist made' fd'), trivial⟩

end Creation

end Rmdb
