import Rmdb.Record.FileHandle
import Rmdb.Storage.Files
import Rmdb.Storage.Transparent

namespace Rmdb
variable {N : Nat}

namespace BufferPoolManager

/-- The real page store: the buffer pool over the disk manager. -/
instance : PageStore (BufferPoolManager N) (Fin N) where
  fetchPage := fetchPage
  newPage := newPage
  unpinPage := unpinPage
  flushAllPages := flushAllPages
  pageId s f := (s.pages f).id
  data s f := (s.pages f).data
  setData s f d := s.setPage f { s.pages f with data := d }
  readPage fd pageNo n := fun s =>
    match s.diskManager.readPage fd pageNo (Block.zero : Block n) with
    | (buf, none) => .ok buf.peek s
    | (_, some e) => .error e s
  writePage fd pageNo src n := fun s =>
    match s.diskManager.writePage fd pageNo src n with
    | (dm, none) => .ok () { s with diskManager := dm }
    | (dm, some e) => .error e { s with diskManager := dm }
  setFd2pageno fd n s := { s with diskManager := s.diskManager.setFd2pageno fd n }
  createFile path fd := fun s =>
    match s.diskManager.createFile path fd with
    | .ok dm => .ok () { s with diskManager := dm }
    | .error e => .error e s
  openFile path fd := fun s =>
    match s.diskManager.openFile path fd with
    | .ok (fd, dm) => .ok fd { s with diskManager := dm }
    | .error e => .error e s
  closeFile fd := fun s =>
    match s.diskManager.closeFile fd with
    | .ok dm => .ok () { s with diskManager := dm }
    | .error e => .error e s

end BufferPoolManager

namespace DiskManager

/-- The disk after page writes: names and descriptors are as before, and so are the
files that are not open. -/
structure Touched (dm dm' : DiskManager) : Prop where
  path2fd : dm'.path2fd = dm.path2fd
  fd2path : dm'.fd2path = dm.fd2path
  fds : dm'.os.fds = dm.os.fds
  inode : dm'.os.inode = dm.os.inode
  nextInode : dm'.os.nextInode = dm.os.nextInode
  closed : ∀ ino, (∀ fd, dm.os.fds fd ≠ some ino) → dm'.os.file ino = dm.os.file ino

namespace Touched
variable {dm dm' dm'' : DiskManager}

theorem refl (dm : DiskManager) : Touched dm dm := ⟨rfl, rfl, rfl, rfl, rfl, fun _ _ => rfl⟩

theorem trans (first : Touched dm dm') (second : Touched dm' dm'') : Touched dm dm'' where
  path2fd := second.path2fd.trans first.path2fd
  fd2path := second.fd2path.trans first.fd2path
  fds := second.fds.trans first.fds
  inode := second.inode.trans first.inode
  nextInode := second.nextInode.trans first.nextInode
  closed ino unused := (second.closed ino (by rw [first.fds]; exact unused)).trans (first.closed ino unused)

theorem writePage {fd pageNo : Int} {src : Nat → UInt8} {n : Nat} (run : dm.writePage fd pageNo src n = (dm', none)) :
    Touched dm dm' := by
  obtain ⟨ino, opened, _, rfl⟩ := writePage_ok run
  refine ⟨rfl, rfl, rfl, rfl, rfl, fun other unused => ?_⟩
  have different : other ≠ ino := by
    rintro rfl
    exact unused fd opened
  exact Function.update_of_ne different ..

theorem wroteBack {page : Page} (wrote : BufferPoolManager.WroteBack dm dm' page) : Touched dm dm' := by
  unfold BufferPoolManager.WroteBack at wrote
  split at wrote
  · exact .writePage wrote
  · rw [wrote]
    exact .refl dm

theorem consistent (touched : Touched dm dm') (con : Consistent dm) : Consistent dm' where
  opened fd ino atFd := by
    rw [touched.fds] at atFd
    rw [touched.fd2path, touched.path2fd, touched.inode]
    exact con.opened fd ino atFd
  path_open fd path toPath := by
    rw [touched.fd2path] at toPath
    rw [touched.fds]
    exact con.path_open fd path toPath
  unique := by
    rw [touched.inode]
    exact con.unique
  old := by
    rw [touched.inode, touched.nextInode]
    exact con.old

end Touched

end DiskManager

namespace BufferPoolManager
open DiskManager (Touched)
variable {s t : BufferPoolManager N}

theorem fetchPage_touched {p : PageId} {r : Option (Fin N)} (run : fetchPage p s = .ok r t) :
    Touched s.diskManager t.diskManager ∧ t.counter = s.counter := by
  rcases fetchPage_cases run with ⟨_, _, _, rfl⟩ | ⟨_, _, rfl, _⟩ | ⟨_, _, _, _, _, _, _, _, wrote, _, rfl⟩
  · exact ⟨.refl _, rfl⟩
  · exact ⟨.refl _, rfl⟩
  · exact ⟨.wroteBack wrote, wrote.counters⟩

theorem newPage_touched {fd : Int} {p : PageId} {f : Fin N} (run : newPage fd s = .ok (some (p, f)) t) :
    Touched s.diskManager t.diskManager ∧ p = ⟨fd, s.counter fd⟩ ∧
      t.counter = Function.update s.counter fd (wrapInt (s.counter fd + 1)) := by
  rcases newPage_cases run with ⟨same, _⟩ | ⟨_, _, _, dm, _, _, same, _, wrote, allocated, rfl⟩
  · cases same
  · cases same
    obtain ⟨rfl, rfl⟩ := allocatePage_ok allocated
    have counters : dm.fd2pageno = s.counter := wrote.counters
    refine ⟨(Touched.wroteBack wrote).trans ⟨rfl, rfl, rfl, rfl, rfl, fun _ _ => rfl⟩, by rw [counters], ?_⟩
    change Function.update dm.fd2pageno fd (wrapInt (dm.fd2pageno fd + 1)) = _
    rw [counters]

theorem unmap_le {f : Fin N} {q : PageId} {g : Fin N} (found : s.unmap f q = some g) : s.pageTable q = some g := by
  unfold unmap at found
  split at found
  · by_cases same : q = (s.pages f).id
    · rw [same, Function.update_self] at found
      cases found
    · rwa [Function.update_of_ne same] at found
  · exact found

/-- A page that is cached after `fetch_page` is the fetched one or was cached before. -/
theorem fetchPage_table {p q : PageId} {r : Option (Fin N)} {g : Fin N} (run : fetchPage p s = .ok r t)
    (found : t.pageTable q = some g) : q = p ∨ s.pageTable q = some g := by
  rcases fetchPage_cases run with ⟨_, _, _, rfl⟩ | ⟨_, _, rfl, _⟩ | ⟨f, _, _, _, _, _, _, _, _, _, rfl⟩
  · exact Or.inr found
  · exact Or.inr found
  · by_cases same : q = p
    · exact Or.inl same
    · change Function.update (s.unmap f) p (some f) q = some g at found
      rw [Function.update_of_ne same] at found
      exact Or.inr (unmap_le found)

theorem newPage_table {fd : Int} {p q : PageId} {f g : Fin N} (run : newPage fd s = .ok (some (p, f)) t)
    (found : t.pageTable q = some g) : q = p ∨ s.pageTable q = some g := by
  rcases newPage_cases run with ⟨same, _⟩ | ⟨f', _, _, _, _, pageNo, same, _, _, _, rfl⟩
  · cases same
  · cases same
    by_cases same : q = ⟨fd, pageNo⟩
    · exact Or.inl same
    · change Function.update (s.unmap f) ⟨fd, pageNo⟩ (some f) q = some g at found
      rw [Function.update_of_ne same] at found
      exact Or.inr (unmap_le found)

theorem unpinPage_table {p : PageId} {d r : Bool} (run : unpinPage p d s = .ok r t) : t.pageTable = s.pageTable := by
  rcases unpinPage_cases run with ⟨_, rfl, _⟩ | ⟨_, _, _, _, rfl⟩ <;> rfl

theorem unpinPage_disk {p : PageId} {d r : Bool} (run : unpinPage p d s = .ok r t) :
    t.diskManager = s.diskManager := by
  rcases unpinPage_cases run with ⟨_, rfl, _⟩ | ⟨_, _, _, _, rfl⟩ <;> rfl

/-- `flush_all_pages` keeps table and ids and leaves the frames it visited clean. -/
theorem flushFrames_frames {fd : Int} {list : List (Fin N)} {u : Unit} (run : flushFrames fd list s = .ok u t) :
    Touched s.diskManager t.diskManager ∧ t.counter = s.counter ∧ t.pageTable = s.pageTable ∧
      (∀ f, (t.pages f).id = (s.pages f).id ∧ (t.pages f).data = (s.pages f).data ∧
        ((s.pages f).isDirty = false → (t.pages f).isDirty = false)) ∧
      ∀ f ∈ list, (s.pages f).id.fd = fd → (s.pages f).id.pageNo ≠ INVALID_PAGE_ID → (t.pages f).isDirty = false := by
  induction list generalizing s with
  | nil =>
    cases run
    exact ⟨.refl _, rfl, rfl, fun f => ⟨rfl, rfl, id⟩, fun f member => absurd member List.not_mem_nil⟩
  | cons f rest ih =>
    obtain ⟨middle, later, ⟨mine, valid, dm, write, rfl⟩ | ⟨other, rfl⟩⟩ := flushFrames_cons run
    · obtain ⟨touched, counters, table, frames, clean⟩ := ih later
      have page : ∀ g, ({ s with diskManager := dm }.setPage f { s.pages f with isDirty := false }).pages g =
          { s.pages g with isDirty := if g = f then false else (s.pages g).isDirty } := by
        intro g
        by_cases same : g = f
        · subst g
          simp [setPage]
        · simp [setPage, same]
      refine ⟨(Touched.writePage write).trans touched, counters.trans ?_, table, fun g => ?_,
        fun g member atFd isValid => ?_⟩
      · have := DiskManager.writePage_fd2pageno s.diskManager (s.pages f).id.fd (s.pages f).id.pageNo
          (s.pages f).data.peek PAGE_SIZE
        rwa [write] at this
      · obtain ⟨ids, data, stays⟩ := frames g
        rw [page] at ids data stays
        refine ⟨ids, data, fun cleanG => stays ?_⟩
        simp only [cleanG, ite_self]
      · by_cases same : g = f
        · rw [same]
          refine (frames f).2.2 ?_
          rw [page]
          exact if_pos rfl
        · refine clean g ((List.mem_cons.mp member).resolve_left same) ?_ ?_
          · rw [page]
            exact atFd
          · rw [page]
            exact isValid
    · obtain ⟨touched, counters, table, frames, clean⟩ := ih later
      refine ⟨touched, counters, table, frames, fun g member atFd isValid => ?_⟩
      rcases List.mem_cons.mp member with rfl | inRest
      · exact absurd ⟨atFd, isValid⟩ other
      · exact clean g inRest atFd isValid

end BufferPoolManager

end Rmdb
