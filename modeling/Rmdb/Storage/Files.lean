import Rmdb.Storage.Disk

namespace Rmdb.DiskManager
variable {dm : DiskManager} {path : String} {fd : Int} {permitted : Bool}

def isFile (dm : DiskManager) (path : String) : Bool := (dm.os.inode path).isSome

/-- The operating system can hand out the descriptor. -/
def Usable (dm : DiskManager) (fd : Int) : Prop := 0 ≤ fd ∧ dm.os.fds fd = none

instance (dm : DiskManager) (fd : Int) : Decidable (Usable dm fd) := inferInstanceAs (Decidable (_ ∧ _))

/-- `open(path, O_CREAT | O_EXCL | O_WRONLY)`, which returns `fd` or fails, and `close` of the new descriptor. -/
def createFile (dm : DiskManager) (path : String) (fd : Int) : Except Error DiskManager :=
  if dm.isFile path then .error (.fileExists path)
  else if ¬Usable dm fd then .error .unix
  else .ok { dm with os := { dm.os with
    inode := Function.update dm.os.inode path (some dm.os.nextInode)
    file := Function.update dm.os.file dm.os.nextInode File.empty
    nextInode := dm.os.nextInode + 1 } }

/-- `unlink`, which may be refused: the name goes, the contents of files that others have open stay. -/
def destroyFile (dm : DiskManager) (path : String) (permitted : Bool) : Except Error DiskManager :=
  if !dm.isFile path then .error (.fileNotFound path)
  else if (dm.path2fd path).isSome then .error (.fileNotClosed path)
  else if !permitted then .error .unix
  else .ok { dm with os := { dm.os with inode := Function.update dm.os.inode path none } }

/-- `open_file`, where `fd` is what `open(path, O_RDWR)` returns: a descriptor not in use, or -1. -/
def openFile (dm : DiskManager) (path : String) (fd : Int) : Except Error (Int × DiskManager) :=
  match dm.os.inode path with
  | none => .error (.fileNotFound path)
  | some ino =>
    if (dm.path2fd path).isSome then .error (.fileExists path)
    else if ¬Usable dm fd then .error .unix
    else .ok (fd, { dm with
      path2fd := Function.update dm.path2fd path (some fd)
      fd2path := Function.update dm.fd2path fd (some path)
      os := { dm.os with fds := Function.update dm.os.fds fd (some ino) } })

/-- `close` fails on a descriptor that is not open. -/
def closeFile (dm : DiskManager) (fd : Int) : Except Error DiskManager :=
  match dm.fd2path fd with
  | none => .error (.fileNotOpen fd)
  | some path =>
    if (dm.os.fds fd).isNone then .error .unix
    else .ok { dm with
      path2fd := Function.update dm.path2fd path none
      fd2path := Function.update dm.fd2path fd none
      os := { dm.os with fds := Function.update dm.os.fds fd none } }

/-- The tables of the manager and of the operating system agree: an open descriptor
belongs to the file its recorded path names, and no two names are one file. -/
structure Consistent (dm : DiskManager) : Prop where
  opened : ∀ fd ino, dm.os.fds fd = some ino →
    ∃ path, dm.fd2path fd = some path ∧ dm.path2fd path = some fd ∧ dm.os.inode path = some ino
  path_open : ∀ fd path, dm.fd2path fd = some path → (dm.os.fds fd).isSome
  unique : ∀ path path' ino, dm.os.inode path = some ino → dm.os.inode path' = some ino → path = path'
  old : ∀ path ino, dm.os.inode path = some ino → ino < dm.os.nextInode

namespace Consistent

theorem distinct (con : Consistent dm) : dm.Distinct := by
  intro fd fd' ino atFd atFd'
  obtain ⟨path, _, toFd, named⟩ := con.opened fd ino atFd
  obtain ⟨path', _, toFd', named'⟩ := con.opened fd' ino atFd'
  have same := con.unique path path' ino named named'
  subst same
  rw [toFd] at toFd'
  exact Option.some.inj toFd'

end Consistent

theorem createFile_ok {dm' : DiskManager} (run : dm.createFile path fd = .ok dm') :
    dm.os.inode path = none ∧ dm' = { dm with os := { dm.os with
      inode := Function.update dm.os.inode path (some dm.os.nextInode)
      file := Function.update dm.os.file dm.os.nextInode File.empty
      nextInode := dm.os.nextInode + 1 } } := by
  unfold createFile isFile at run
  split at run
  · cases run
  · rename_i missing
    split at run
    · cases run
    · cases run
      exact ⟨by simpa using missing, rfl⟩

theorem destroyFile_ok {dm' : DiskManager} (run : dm.destroyFile path permitted = .ok dm') :
    dm.path2fd path = none ∧ dm' = { dm with os := { dm.os with inode := Function.update dm.os.inode path none } } := by
  unfold destroyFile at run
  split at run
  · cases run
  · split at run
    · cases run
    · rename_i closed
      split at run
      · cases run
      · cases run
        exact ⟨by simpa using closed, rfl⟩

theorem openFile_ok {dm' : DiskManager} {out : Int} (run : dm.openFile path fd = .ok (out, dm')) :
    ∃ ino, dm.os.inode path = some ino ∧ dm.path2fd path = none ∧ 0 ≤ fd ∧ dm.os.fds fd = none ∧ out = fd ∧
      dm' = { dm with
        path2fd := Function.update dm.path2fd path (some fd)
        fd2path := Function.update dm.fd2path fd (some path)
        os := { dm.os with fds := Function.update dm.os.fds fd (some ino) } } := by
  unfold openFile at run
  split at run
  · cases run
  · rename_i ino named
    split at run
    · cases run
    · rename_i closed
      split at run
      · cases run
      · rename_i usable
        cases run
        obtain ⟨nonneg, unused⟩ := not_not.mp usable
        exact ⟨ino, named, by simpa using closed, nonneg, unused, rfl, rfl⟩

theorem closeFile_ok {dm' : DiskManager} (run : dm.closeFile fd = .ok dm') :
    ∃ path ino, dm.fd2path fd = some path ∧ dm.os.fds fd = some ino ∧ dm' = { dm with
      path2fd := Function.update dm.path2fd path none
      fd2path := Function.update dm.fd2path fd none
      os := { dm.os with fds := Function.update dm.os.fds fd none } } := by
  unfold closeFile at run
  split at run
  · cases run
  · rename_i path named
    split at run
    · cases run
    · rename_i isOpen
      obtain ⟨ino, opened⟩ := Option.isSome_iff_exists.mp (by simpa [Option.isSome_iff_ne_none] using isOpen)
      cases run
      exact ⟨path, ino, named, opened, rfl⟩

namespace Consistent

theorem create {dm' : DiskManager} (con : Consistent dm) (run : dm.createFile path fd = .ok dm') : Consistent dm' := by
  obtain ⟨missing, rfl⟩ := createFile_ok run
  have named : ∀ other ino, Function.update dm.os.inode path (some dm.os.nextInode) other = some ino →
      (other = path ∧ ino = dm.os.nextInode) ∨ (other ≠ path ∧ dm.os.inode other = some ino) := by
    intro other ino found
    by_cases same : other = path
    · subst other
      rw [Function.update_self] at found
      exact Or.inl ⟨rfl, (Option.some.inj found).symm⟩
    · rw [Function.update_of_ne same] at found
      exact Or.inr ⟨same, found⟩
  constructor
  case opened =>
    intro fd ino atFd
    obtain ⟨other, toPath, toFd, inode⟩ := con.opened fd ino atFd
    refine ⟨other, toPath, toFd, ?_⟩
    have different : other ≠ path := by
      rintro rfl
      rw [missing] at inode
      cases inode
    exact (Function.update_of_ne different ..).trans inode
  case path_open => exact con.path_open
  case unique =>
    intro one two ino atOne atTwo
    rcases named one ino atOne with ⟨rfl, rfl⟩ | ⟨_, oldOne⟩
    · rcases named two _ atTwo with ⟨rfl, _⟩ | ⟨_, oldTwo⟩
      · rfl
      · exact absurd (con.old _ _ oldTwo) (lt_irrefl _)
    · rcases named two ino atTwo with ⟨rfl, rfl⟩ | ⟨_, oldTwo⟩
      · exact absurd (con.old _ _ oldOne) (lt_irrefl _)
      · exact con.unique one two ino oldOne oldTwo
  case old =>
    intro other ino found
    rcases named other ino found with ⟨_, rfl⟩ | ⟨_, old⟩
    · exact Nat.lt_succ_self _
    · exact Nat.lt_succ_of_lt (con.old other ino old)

theorem destroy {dm' : DiskManager} (con : Consistent dm) (run : dm.destroyFile path permitted = .ok dm') :
    Consistent dm' := by
  obtain ⟨closed, rfl⟩ := destroyFile_ok run
  have named : ∀ other ino, Function.update dm.os.inode path none other = some ino → dm.os.inode other = some ino := by
    intro other ino found
    by_cases same : other = path
    · subst other
      rw [Function.update_self] at found
      cases found
    · rwa [Function.update_of_ne same] at found
  constructor
  case opened =>
    intro fd ino atFd
    obtain ⟨other, toPath, toFd, inode⟩ := con.opened fd ino atFd
    refine ⟨other, toPath, toFd, ?_⟩
    have different : other ≠ path := by
      rintro rfl
      rw [closed] at toFd
      cases toFd
    exact (Function.update_of_ne different ..).trans inode
  case path_open => exact con.path_open
  case unique => exact fun one two ino atOne atTwo => con.unique one two ino (named _ _ atOne) (named _ _ atTwo)
  case old => exact fun other ino found => con.old other ino (named _ _ found)

theorem openFile {dm' : DiskManager} {out : Int} (con : Consistent dm) (run : dm.openFile path fd = .ok (out, dm')) :
    Consistent dm' := by
  obtain ⟨ino, named, closed, _, free, _, rfl⟩ := openFile_ok run
  have noPath : dm.fd2path fd = none := by
    by_contra some
    obtain ⟨other, toPath⟩ := Option.ne_none_iff_exists'.mp some
    have := con.path_open fd other toPath
    rw [free] at this
    cases this
  constructor
  case opened =>
    intro other i atFd
    by_cases same : other = fd
    · subst other
      change Function.update dm.os.fds fd _ fd = _ at atFd
      rw [Function.update_self] at atFd
      cases atFd
      exact ⟨path, Function.update_self .., Function.update_self .., named⟩
    · change Function.update dm.os.fds fd _ other = _ at atFd
      rw [Function.update_of_ne same] at atFd
      obtain ⟨p, toPath, toFd, inode⟩ := con.opened other i atFd
      refine ⟨p, (Function.update_of_ne same ..).trans toPath, ?_, inode⟩
      have different : p ≠ path := by
        rintro rfl
        rw [closed] at toFd
        cases toFd
      exact (Function.update_of_ne different ..).trans toFd
  case path_open =>
    intro other p toPath
    by_cases same : other = fd
    · subst other
      change (Function.update dm.os.fds fd _ fd).isSome = true
      rw [Function.update_self]
      rfl
    · change Function.update dm.fd2path fd _ other = _ at toPath
      rw [Function.update_of_ne same] at toPath
      change (Function.update dm.os.fds fd _ other).isSome = true
      rw [Function.update_of_ne same]
      exact con.path_open other p toPath
  case unique => exact con.unique
  case old => exact con.old

theorem closeFile {dm' : DiskManager} (con : Consistent dm) (run : dm.closeFile fd = .ok dm') : Consistent dm' := by
  obtain ⟨path, ino, named, isOpen, rfl⟩ := closeFile_ok run
  constructor
  case opened =>
    intro other i atFd
    have different : other ≠ fd := by
      rintro rfl
      change Function.update dm.os.fds other none other = _ at atFd
      rw [Function.update_self] at atFd
      cases atFd
    change Function.update dm.os.fds fd none other = _ at atFd
    rw [Function.update_of_ne different] at atFd
    obtain ⟨p, toPath, toFd, inode⟩ := con.opened other i atFd
    refine ⟨p, (Function.update_of_ne different ..).trans toPath, ?_, inode⟩
    have apart : p ≠ path := by
      rintro rfl
      obtain ⟨q, toQ, toFd', _⟩ := con.opened fd ino isOpen
      rw [named] at toQ
      cases toQ
      rw [toFd] at toFd'
      exact different (Option.some.inj toFd')
    exact (Function.update_of_ne apart ..).trans toFd
  case path_open =>
    intro other p toPath
    have different : other ≠ fd := by
      rintro rfl
      change Function.update dm.fd2path other none other = _ at toPath
      rw [Function.update_self] at toPath
      cases toPath
    change Function.update dm.fd2path fd none other = _ at toPath
    rw [Function.update_of_ne different] at toPath
    change (Function.update dm.os.fds fd none other).isSome = true
    rw [Function.update_of_ne different]
    exact con.path_open other p toPath
  case unique => exact con.unique
  case old => exact con.old

end Consistent

end Rmdb.DiskManager
