import Rmdb.Record.TableSteps
import Rmdb.Storage.Faults

namespace Rmdb
open BufferPoolManager DiskManager
variable {N : Nat} {s t : BufferPoolManager N} {filename path : String} {recordSize made fd : Int}
  {permitted : Bool} {e : Error}

/-! What the calls on table files do to the names on disk, and which exceptions are left when the operating system does
what it is asked to. -/

/-- The exceptions of `read_page` and `write_page`, as they are thrown. -/
inductive IoError : Error → Prop
  | unix : IoError .unix
  | read : IoError (.internal "DiskManager::read_page Error")
  | write : IoError (.internal "DiskManager::write_page Error")

theorem IoError.isIo (io : IoError e) : IsIo e := by
  cases io <;> trivial

namespace DiskManager
variable {dm dm' : DiskManager}

/-- The two tables of the manager are inverse to each other, too. -/
structure Named (dm : DiskManager) : Prop where
  con : Consistent dm
  back : ∀ path fd, dm.path2fd path = some fd → dm.fd2path fd = some path

namespace Named

theorem file (named : Named dm) (isOpen : dm.path2fd path = some fd) :
    ∃ ino, dm.os.fds fd = some ino ∧ dm.os.inode path = some ino := by
  have toPath := named.back path fd isOpen
  obtain ⟨ino, atFd⟩ := Option.isSome_iff_exists.mp (named.con.path_open fd path toPath)
  obtain ⟨path', toPath', _, inode⟩ := named.con.opened fd ino atFd
  rw [toPath] at toPath'
  cases toPath'
  exact ⟨ino, atFd, inode⟩

theorem unnamed (named : Named dm) (free : dm.os.fds fd = none) : dm.fd2path fd = none := by
  by_contra some
  obtain ⟨other, toPath⟩ := Option.ne_none_iff_exists'.mp some
  have := named.con.path_open fd other toPath
  rw [free] at this
  cases this

theorem create (named : Named dm) (run : dm.createFile path fd = .ok dm') : Named dm' := by
  refine ⟨named.con.create run, ?_⟩
  obtain ⟨_, rfl⟩ := DiskManager.createFile_ok run
  exact named.back

theorem destroy (named : Named dm) (run : dm.destroyFile path permitted = .ok dm') : Named dm' := by
  refine ⟨named.con.destroy run, ?_⟩
  obtain ⟨_, rfl⟩ := DiskManager.destroyFile_ok run
  exact named.back

theorem touched (named : Named dm) (touched : Touched dm dm') : Named dm' := by
  refine ⟨touched.consistent named.con, ?_⟩
  rw [touched.path2fd, touched.fd2path]
  exact named.back

theorem openFile {out : Int} (named : Named dm) (run : dm.openFile path fd = .ok (out, dm')) : Named dm' := by
  refine ⟨named.con.openFile run, ?_⟩
  obtain ⟨ino, _, _, _, free, _, rfl⟩ := DiskManager.openFile_ok run
  intro other fd' isOpen
  by_cases same : other = path
  · subst same
    simp only [Function.update_self, Option.some.injEq] at isOpen
    subst isOpen
    exact Function.update_self ..
  · simp only [Function.update_of_ne same] at isOpen
    have toPath := named.back other fd' isOpen
    have different : fd' ≠ fd := by
      rintro rfl
      rw [named.unnamed free] at toPath
      cases toPath
    exact (Function.update_of_ne different ..).trans toPath

theorem closeFile (named : Named dm) (run : dm.closeFile fd = .ok dm') : Named dm' := by
  refine ⟨named.con.closeFile run, ?_⟩
  obtain ⟨path, _, toPath, _, rfl⟩ := DiskManager.closeFile_ok run
  intro other fd' isOpen
  have different : other ≠ path := by
    rintro rfl
    simp only [Function.update_self] at isOpen
    cases isOpen
  simp only [Function.update_of_ne different] at isOpen
  have back := named.back other fd' isOpen
  have apart : fd' ≠ fd := by
    rintro rfl
    rw [toPath] at back
    exact different (Option.some.inj back).symm
  exact (Function.update_of_ne apart ..).trans back

end Named

theorem Named.setFd2pageno (named : Named dm) (fd n : Int) : Named (dm.setFd2pageno fd n) :=
  ⟨⟨named.con.opened, named.con.path_open, named.con.unique, named.con.old⟩, named.back⟩

/-- The file header that a file has on page 0. -/
def headerOf (file : File) : RmFileHdr := RmFileHdr.ofBytes (file.page 0).peek

/-- The record size in the header of a file on disk. -/
def recordSizeOf (dm : DiskManager) (path : String) : Option Int :=
  (dm.os.inode path).map fun ino => (headerOf (dm.os.file ino)).recordSize

theorem recordSizeOf_congr (inode : dm'.os.inode path = dm.os.inode path)
    (files : ∀ ino, dm.os.inode path = some ino → dm'.os.file ino = dm.os.file ino) :
        dm'.recordSizeOf path = dm.recordSizeOf path := by
  unfold recordSizeOf
  rw [inode]
  exact Option.map_congr fun ino named => by rw [files ino named]

/-- The disk after writes to the file of one descriptor. -/
structure WroteTo (fd : Int) (dm dm' : DiskManager) : Prop where
  touched : Touched dm dm'
  others : ∀ ino, dm.os.fds fd ≠ some ino → dm'.os.file ino = dm.os.file ino

theorem WroteTo.refl (fd : Int) (dm : DiskManager) : WroteTo fd dm dm := ⟨.refl dm, fun _ _ => rfl⟩

theorem WroteTo.trans {dm'' : DiskManager} (first : WroteTo fd dm dm') (second : WroteTo fd dm' dm'') :
    WroteTo fd dm dm'' where
  touched := first.touched.trans second.touched
  others ino apart := (second.others ino (by rw [first.touched.fds]; exact apart)).trans (first.others ino apart)

theorem WroteTo.writePage {pageNo : Int} {src : Nat → UInt8} {n : Nat}
    (run : dm.writePage fd pageNo src n = (dm', none)) :
    WroteTo fd dm dm' := by
  refine ⟨.writePage run, fun ino apart => ?_⟩
  obtain ⟨ino', opened, _, rfl⟩ := DiskManager.writePage_ok run
  have different : ino ≠ ino' := by
    rintro rfl
    exact apart opened
  exact Function.update_of_ne different ..

theorem writePage_ioError {pageNo : Int} {src : Nat → UInt8} {n : Nat}
    (run : dm.writePage fd pageNo src n = (dm', some e)) : IoError e := by
  unfold DiskManager.writePage at run
  split at run
  · cases run
    exact .unix
  · split at run
    · cases run
      exact .unix
    · obtain ⟨_, thrown⟩ := Prod.mk.inj run
      split at thrown
      · cases thrown
      · cases thrown
        exact .write

theorem readPage_ioError {pageNo : Int} {n : Nat} {offset out : Block n}
    (run : dm.readPage fd pageNo offset = (out, some e)) : IoError e := by
  unfold DiskManager.readPage at run
  split at run
  · cases run
    exact .unix
  · split at run
    · cases run
      exact .unix
    · obtain ⟨_, thrown⟩ := Prod.mk.inj run
      split at thrown
      · cases thrown
      · cases thrown
        exact .read

/-- A file that exists and is not open can be opened. -/
theorem openFile_ioError (exist : (dm.os.inode path).isSome) (closed : dm.path2fd path = none)
    (run : dm.openFile path fd = .error e) : IoError e := by
  obtain ⟨ino, named⟩ := Option.isSome_iff_exists.mp exist
  simp only [DiskManager.openFile, named, closed, Option.isSome_none, Bool.false_eq_true, if_false] at run
  split at run
  · cases run
    exact .unix
  · cases run

/-- An open file can be closed. -/
theorem closeFile_ioError (named : dm.fd2path fd = some path) (run : dm.closeFile fd = .error e) : IoError e := by
  simp only [DiskManager.closeFile, named] at run
  split at run
  · cases run
    exact .unix
  · cases run

end DiskManager

namespace BufferPoolManager

theorem writeFrame_ioError {p : PageId} {f : Fin N} (run : writeFrame p f s = .error e t) : IoError e := by
  unfold writeFrame at run
  split at run
  · cases run
  · rename_i wrote
    cases run
    exact writePage_ioError wrote

theorem flushFrames_wroteTo {list : List (Fin N)} {u : Unit} (run : flushFrames fd list s = .ok u t) :
    WroteTo fd s.diskManager t.diskManager :=
  flushFrames_keep (P := fun now => WroteTo fd s.diskManager now.diskManager)
    (fun _ before wrote => WroteTo.trans before (.writePage wrote)) (.refl fd _) run

theorem flushFrames_ioError {list : List (Fin N)} (run : flushFrames fd list s = .error e t) : IoError e := by
  induction list generalizing s with
  | nil => cases run
  | cons f rest ih =>
    rcases bind_eq_error.mp run with first | ⟨_, _, _, later⟩
    · unfold flushFrame at first
      split at first
      · exact writeFrame_ioError first
      · cases first
    · exact ih later

theorem writePage_fails {pageNo : Int} {src : Nat → UInt8} {n : Nat}
    (run : PageStore.writePage fd pageNo src n s = .error e t) : IoError e := by
  simp only [PageStore.writePage] at run
  split at run
  · cases run
  · rename_i wrote
    cases run
    exact writePage_ioError wrote

theorem openFile_fails (exist : (s.diskManager.os.inode path).isSome) (closed : s.diskManager.path2fd path = none)
    (run : PageStore.openFile path fd s = .error e t) : IoError e := by
  simp only [PageStore.openFile] at run
  split at run
  · cases run
  · rename_i refused
    cases run
    exact openFile_ioError exist closed refused

theorem closeFile_fails (named : s.diskManager.fd2path fd = some path) (run : PageStore.closeFile fd s = .error e t) :
    IoError e := by
  simp only [PageStore.closeFile] at run
  split at run
  · cases run
  · rename_i refused
    cases run
    exact closeFile_ioError named refused

end BufferPoolManager

namespace RmManager

/-- A new file changes no name but its own; `create_file` closes it again. -/
theorem createFile_named (named : Named s.diskManager) (run : createFile filename recordSize made fd s = .ok () t) :
    Named t.diskManager ∧ t.diskManager.path2fd = s.diskManager.path2fd ∧ s.diskManager.os.inode filename = none ∧
      s.diskManager.path2fd filename = none := by
  unfold createFile at run
  split at run
  · cases run
  · obtain ⟨_, one, create, run⟩ := bind_eq_ok.mp run
    obtain ⟨out, two, opening, run⟩ := bind_eq_ok.mp run
    obtain ⟨_, three, write, closing⟩ := bind_eq_ok.mp run
    obtain ⟨dm₁, created, rfl⟩ := BufferPoolManager.createFile_ok create
    obtain ⟨dm₂, opened, rfl⟩ := BufferPoolManager.openFile_ok opening
    obtain ⟨dm₃, wrote, rfl⟩ := BufferPoolManager.writePage_ok write
    obtain ⟨dm₄, closed, rfl⟩ := BufferPoolManager.closeFile_ok closing
    have touched := Touched.writePage wrote
    have named₃ := ((named.create created).openFile opened).touched touched
    obtain ⟨missing, rfl⟩ := DiskManager.createFile_ok created
    obtain ⟨ino, _, unopened, _, free, rfl, rfl⟩ := DiskManager.openFile_ok opened
    refine ⟨named₃.closeFile closed, ?_, missing, unopened⟩
    obtain ⟨path, _, toPath, _, rfl⟩ := DiskManager.closeFile_ok closed
    rw [touched.fd2path] at toPath
    simp only [Function.update_self, Option.some.injEq] at toPath
    subst toPath
    simp only [touched.path2fd, Function.update_idem]
    exact Function.update_eq_self_iff.mpr unopened.symm

theorem createFile_sizes (con : Consistent s.diskManager) (run : createFile filename recordSize made fd s = .ok () t) :
    t.diskManager.recordSizeOf filename = some recordSize ∧
      ∀ other, other ≠ filename → t.diskManager.recordSizeOf other = s.diskManager.recordSizeOf other := by
  obtain ⟨lower, upper, dm, rfl, _, _, _, inode, files⟩ := createFile_pool con run
  constructor
  · have sized := RmFileHdr.Sized.create lower upper
    have isHdr := sized.isHdr (show IsInt 1 by decide) (show IsInt RM_NO_PAGE by decide)
    have page := File.page_write_front File.empty 0 RmFileHdr.size (RmFileHdr.create recordSize).bytes
    rw [Nat.zero_mul] at page
    have header : headerOf (File.empty.write 0 RmFileHdr.size (RmFileHdr.create recordSize).bytes) =
        RmFileHdr.create recordSize := by
      rw [headerOf, page, RmFileHdr.ofBytes_poke isHdr]
    simp only [recordSizeOf, inode, files, Function.update_self, Option.map_some, header]
    rfl
  · intro other different
    refine recordSizeOf_congr (by rw [inode, Function.update_of_ne different]) fun ino named => ?_
    rw [files, Function.update_of_ne (con.old other ino named).ne]

/-- An exception that the operating system is not to blame for comes before anything is changed. -/
theorem createFile_fails (named : Named s.diskManager) (run : createFile filename recordSize made fd s = .error e t) :
    IoError e ∨ (e = .invalidRecordSize recordSize ∧ ¬(1 ≤ recordSize ∧ recordSize ≤ RM_MAX_RECORD_SIZE) ∨
      e = .fileExists filename ∧ s.diskManager.isFile filename = true) ∧ t = s := by
  unfold createFile at run
  split at run
  · cases run
    exact Or.inr ⟨Or.inl ⟨rfl, by omega⟩, rfl⟩
  · rcases bind_eq_error.mp run with refused | ⟨_, one, create, run⟩
    · simp only [PageStore.createFile] at refused
      split at refused
      · cases refused
      · rename_i exist
        cases refused
        unfold DiskManager.createFile at exist
        split at exist
        · rename_i isFile
          cases exist
          exact Or.inr ⟨Or.inr ⟨rfl, isFile⟩, rfl⟩
        · split at exist
          · cases exist
            exact Or.inl .unix
          · cases exist
    · left
      obtain ⟨dm₁, created, rfl⟩ := BufferPoolManager.createFile_ok create
      have named₁ := named.create created
      obtain ⟨missing, rfl⟩ := DiskManager.createFile_ok created
      rcases bind_eq_error.mp run with refused | ⟨out, two, opening, run⟩
      · refine openFile_fails ?_ ?_ refused
        · simp
        · cases isOpen : s.diskManager.path2fd filename with
          | none => rfl
          | some fd' =>
            obtain ⟨ino, _, inode⟩ := named.file isOpen
            rw [missing] at inode
            cases inode
      · obtain ⟨dm₂, opened, rfl⟩ := BufferPoolManager.openFile_ok opening
        rcases bind_eq_error.mp run with refused | ⟨_, three, write, refused⟩
        · exact writePage_fails refused
        · obtain ⟨dm₃, wrote, rfl⟩ := BufferPoolManager.writePage_ok write
          obtain ⟨_, _, _, _, _, rfl, rfl⟩ := DiskManager.openFile_ok opened
          have toPath : dm₃.fd2path out = some filename := by
            simp only [(Touched.writePage wrote).fd2path, Function.update_self]
          exact BufferPoolManager.closeFile_fails toPath refused

theorem openFile_named {h : RmFileHandle} (named : Named s.diskManager) (run : openFile filename fd s = .ok h t) :
    Named t.diskManager ∧ t.diskManager.path2fd = Function.update s.diskManager.path2fd filename (some h.fd) ∧
      t.diskManager.recordSizeOf = s.diskManager.recordSizeOf ∧ s.diskManager.path2fd filename = none ∧
      s.diskManager.recordSizeOf filename = some h.fileHdr.recordSize := by
  obtain ⟨ino, dm, opened, inode, _, _, sameInode, sameFile, _, made, rfl⟩ := openFile_pool run
  refine ⟨(named.openFile opened).setFd2pageno _ _, ?_⟩
  obtain ⟨_, _, closed, _, _, _, rfl⟩ := DiskManager.openFile_ok opened
  subst made
  refine ⟨rfl, rfl, closed, ?_⟩
  rw [recordSizeOf, inode]
  rfl

/-- The handle of a new file has the header that was written. -/
theorem openFile_created {u : BufferPoolManager N} {fd' : Int} {h : RmFileHandle} (con : Consistent s.diskManager)
    (created : createFile filename recordSize made fd s = .ok () u) (run : openFile filename fd' u = .ok h t) :
    1 ≤ recordSize ∧ recordSize ≤ RM_MAX_RECORD_SIZE ∧ h = ⟨fd', RmFileHdr.create recordSize⟩ := by
  obtain ⟨lower, upper, dm, rfl, _, _, _, inode, files⟩ := createFile_pool con created
  obtain ⟨ino, _, _, named, _, _, _, _, _, rfl, _⟩ := openFile_pool run
  refine ⟨lower, upper, ?_⟩
  simp only [inode, Function.update_self, Option.some.injEq] at named
  subst named
  have isHdr := (RmFileHdr.Sized.create lower upper).isHdr (show IsInt 1 by decide) (show IsInt RM_NO_PAGE by decide)
  have page := File.page_write_front File.empty 0 RmFileHdr.size (RmFileHdr.create recordSize).bytes
  rw [Nat.zero_mul] at page
  simp only [files, Function.update_self, page, RmFileHdr.ofBytes_poke isHdr]

/-- `open_file` of a file that exists and is not open. -/
theorem openFile_fails (exist : (s.diskManager.os.inode filename).isSome)
    (closed : s.diskManager.path2fd filename = none) (run : openFile filename fd s = .error e t) : IoError e := by
  unfold openFile at run
  rcases bind_eq_error.mp run with refused | ⟨_, _, _, run⟩
  · exact BufferPoolManager.openFile_fails exist closed refused
  · unfold RmFileHandle.new at run
    rcases bind_eq_error.mp run with refused | ⟨_, _, _, absurd⟩
    · simp only [PageStore.readPage] at refused
      split at refused
      · cases refused
      · rename_i read
        cases refused
        exact readPage_ioError read
    · cases absurd

/-- `close_file` takes one name out of the open files and writes to no other file. -/
theorem closeFile_named {h : RmFileHandle} (named : Named s.diskManager)
    (isOpen : s.diskManager.path2fd filename = some h.fd)
    (run : closeFile h s = .ok () t) :
    Named t.diskManager ∧ t.diskManager.path2fd = Function.update s.diskManager.path2fd filename none ∧
      t.diskManager.os.inode = s.diskManager.os.inode ∧
      ∀ other, other ≠ filename → t.diskManager.recordSizeOf other = s.diskManager.recordSizeOf other := by
  obtain ⟨dm, u, dm', wrote, flushed, closed, rfl⟩ := closeFile_pool run
  have written := (WroteTo.writePage wrote).trans (flushFrames_wroteTo flushed)
  have touched := written.touched
  have toPath := named.back filename h.fd isOpen
  obtain ⟨ino, atFd, inode⟩ := named.file isOpen
  refine ⟨(named.touched touched).closeFile closed, ?_⟩
  obtain ⟨path, _, toPath', _, rfl⟩ := DiskManager.closeFile_ok closed
  rw [touched.fd2path, toPath] at toPath'
  cases toPath'
  refine ⟨?_, touched.inode, fun other different => ?_⟩
  · simp only [touched.path2fd]
  · refine recordSizeOf_congr (congrFun touched.inode other) fun ino' inode' => ?_
    refine written.others ino' fun same => different ?_
    rw [atFd] at same
    exact named.con.unique other filename ino' inode' (inode.trans same)

theorem closeFile_fails {h : RmFileHandle} (named : Named s.diskManager)
    (isOpen : s.diskManager.path2fd filename = some h.fd)
    (run : closeFile h s = .error e t) : IoError e := by
  unfold closeFile at run
  rcases bind_eq_error.mp run with refused | ⟨_, one, write, run⟩
  · exact BufferPoolManager.writePage_fails refused
  · rcases bind_eq_error.mp run with refused | ⟨_, two, flushed, refused⟩
    · exact flushFrames_ioError refused
    · obtain ⟨dm, wrote, rfl⟩ := BufferPoolManager.writePage_ok write
      have touched := ((WroteTo.writePage wrote).trans (flushFrames_wroteTo flushed)).touched
      have toPath : two.diskManager.fd2path h.fd = some filename := by
        rw [touched.fd2path]
        exact named.back filename h.fd isOpen
      exact BufferPoolManager.closeFile_fails toPath refused

theorem destroyFile_named (named : Named s.diskManager) (run : destroyFile filename permitted s = .ok () t) :
    Named t.diskManager ∧ t.diskManager.path2fd = s.diskManager.path2fd ∧
      ∀ other, other ≠ filename → t.diskManager.recordSizeOf other = s.diskManager.recordSizeOf other := by
  unfold destroyFile at run
  split at run
  · rename_i dm gone
    cases run
    refine ⟨named.destroy gone, ?_⟩
    obtain ⟨_, rfl⟩ := DiskManager.destroyFile_ok gone
    exact ⟨rfl, fun other different => recordSizeOf_congr (Function.update_of_ne different ..) fun _ _ => rfl⟩
  · cases run

/-- A file that exists and is not open can be removed. -/
theorem destroyFile_fails (exist : (s.diskManager.os.inode filename).isSome)
    (closed : s.diskManager.path2fd filename = none)
    (run : destroyFile filename permitted s = .error e t) : IoError e := by
  unfold destroyFile at run
  split at run
  · cases run
  · rename_i refused
    cases run
    simp only [DiskManager.destroyFile, isFile, exist, closed, Bool.not_true, Bool.false_eq_true, if_false,
      Option.isSome_none] at refused
    split at refused
    · cases refused
      exact .unix
    · cases refused

end RmManager

end Rmdb
