import Rmdb.Record.Tables

namespace Rmdb
open RmFile BufferPoolManager DiskManager
variable {N : Nat} {s t : BufferPoolManager N} {filename : String} {recordSize made fd : Int} {permitted : Bool}
  {tables : String → Prop}

namespace BufferPoolManager

theorem createFile_ok (run : PageStore.createFile filename fd s = .ok () t) :
    ∃ dm, s.diskManager.createFile filename fd = .ok dm ∧ t = { s with diskManager := dm } := by
  simp only [PageStore.createFile] at run
  split at run
  · rename_i dm created
    cases run
    exact ⟨dm, created, rfl⟩
  · cases run

theorem openFile_ok {out : Int} (run : PageStore.openFile filename fd s = .ok out t) :
    ∃ dm, s.diskManager.openFile filename fd = .ok (out, dm) ∧ t = { s with diskManager := dm } := by
  simp only [PageStore.openFile] at run
  split at run
  · rename_i dm opened
    cases run
    exact ⟨dm, opened, rfl⟩
  · cases run

theorem writePage_ok {pageNo : Int} {src : Nat → UInt8} {n : Nat}
    (run : PageStore.writePage fd pageNo src n s = .ok () t) :
    ∃ dm, s.diskManager.writePage fd pageNo src n = (dm, none) ∧ t = { s with diskManager := dm } := by
  simp only [PageStore.writePage] at run
  split at run
  · rename_i dm wrote
    cases run
    exact ⟨dm, wrote, rfl⟩
  · cases run

theorem readPage_ok {pageNo : Int} {n : Nat} {out : Nat → UInt8} (run : PageStore.readPage fd pageNo n s = .ok out t) :
    ∃ buf, s.diskManager.readPage fd pageNo (Block.zero : Block n) = (buf, none) ∧ out = buf.peek ∧ t = s := by
  simp only [PageStore.readPage] at run
  split at run
  · rename_i buf read
    cases run
    exact ⟨buf, read, rfl, rfl⟩
  · cases run

theorem closeFile_ok (run : PageStore.closeFile fd s = .ok () t) :
    ∃ dm, s.diskManager.closeFile fd = .ok dm ∧ t = { s with diskManager := dm } := by
  simp only [PageStore.closeFile] at run
  split at run
  · rename_i dm closed
    cases run
    exact ⟨dm, closed, rfl⟩
  · cases run

end BufferPoolManager

namespace RmManager

/-- A new file with its header on disk; the descriptor used for it is closed again. -/
theorem createFile_pool (con : Consistent s.diskManager) (run : createFile filename recordSize made fd s = .ok () t) :
    1 ≤ recordSize ∧ recordSize ≤ RM_MAX_RECORD_SIZE ∧ ∃ dm, t = { s with diskManager := dm } ∧ Consistent dm ∧
      dm.fd2pageno = s.diskManager.fd2pageno ∧ dm.os.fds = s.diskManager.os.fds ∧
      dm.os.inode = Function.update s.diskManager.os.inode filename (some s.diskManager.os.nextInode) ∧
      dm.os.file = Function.update s.diskManager.os.file s.diskManager.os.nextInode
        (File.empty.write 0 RmFileHdr.size (RmFileHdr.create recordSize).bytes) := by
  unfold createFile at run
  split at run
  · cases run
  · rename_i accepted
    obtain ⟨_, one, create, run⟩ := bind_eq_ok.mp run
    obtain ⟨out, two, opening, run⟩ := bind_eq_ok.mp run
    obtain ⟨_, three, write, closing⟩ := bind_eq_ok.mp run
    obtain ⟨dm₁, created, rfl⟩ := BufferPoolManager.createFile_ok create
    obtain ⟨dm₂, opened, rfl⟩ := BufferPoolManager.openFile_ok opening
    obtain ⟨dm₃, wrote, rfl⟩ := BufferPoolManager.writePage_ok write
    obtain ⟨dm₄, closed, rfl⟩ := BufferPoolManager.closeFile_ok closing
    have con₁ := con.create created
    have con₂ := con₁.openFile opened
    have con₃ := (Touched.writePage wrote).consistent con₂
    refine ⟨by omega, by omega, dm₄, rfl, con₃.closeFile closed, ?_⟩
    obtain ⟨_, rfl⟩ := DiskManager.createFile_ok created
    obtain ⟨ino, named, _, _, free, rfl, rfl⟩ := DiskManager.openFile_ok opened
    obtain ⟨ino', atFd, _, rfl⟩ := DiskManager.writePage_ok wrote
    obtain ⟨path, ino'', _, _, rfl⟩ := DiskManager.closeFile_ok closed
    simp only [Function.update_self, Option.some.injEq] at named
    subst named
    simp only [Function.update_self, Option.some.injEq] at atFd
    subst atFd
    refine ⟨rfl, ?_, rfl, ?_⟩
    · simp only [setFile, Function.update_idem]
      exact Function.update_eq_self_iff.mpr free.symm
    · simp only [setFile, Function.update_idem, Function.update_self]
      rfl

/-- The header read from the file is the one of its page 0. -/
theorem openFile_pool {h : RmFileHandle} (run : openFile filename fd s = .ok h t) :
    ∃ ino dm, s.diskManager.openFile filename fd = .ok (fd, dm) ∧ s.diskManager.os.inode filename = some ino ∧
      s.diskManager.os.fds fd = none ∧ dm.os.fds = Function.update s.diskManager.os.fds fd (some ino) ∧
      dm.os.inode = s.diskManager.os.inode ∧ dm.os.file = s.diskManager.os.file ∧
      dm.fd2pageno = s.diskManager.fd2pageno ∧
      h = ⟨fd, RmFileHdr.ofBytes ((s.diskManager.os.file ino).page 0).peek⟩ ∧
      t = { s with diskManager := dm.setFd2pageno fd h.fileHdr.numPages } := by
  obtain ⟨out, one, opening, rest⟩ := bind_eq_ok.mp run
  unfold RmFileHandle.new at rest
  obtain ⟨src, two, reading, rest⟩ := bind_eq_ok.mp rest
  obtain ⟨dm, opened, rfl⟩ := BufferPoolManager.openFile_ok opening
  obtain ⟨buf, read, rfl, rfl⟩ := BufferPoolManager.readPage_ok reading
  cases rest
  obtain ⟨ino, named, _, _, free, rfl, rfl⟩ := DiskManager.openFile_ok opened
  obtain ⟨file, atFd, _, rfl⟩ := DiskManager.readPage_ok read
  simp only [fileOf, Function.update_self, Option.map_some, Option.some.injEq] at atFd
  subst atFd
  refine ⟨ino, _, opened, named, free, rfl, rfl, rfl, rfl, ?_, rfl⟩
  rfl

/-- `close_file` in its three steps. -/
theorem closeFile_pool {h : RmFileHandle} (run : closeFile h s = .ok () t) :
    ∃ dm u dm', s.diskManager.writePage h.fd RM_FILE_HDR_PAGE h.fileHdr.bytes RmFileHdr.size = (dm, none) ∧
      flushAllPages h.fd { s with diskManager := dm } = .ok () u ∧ u.diskManager.closeFile h.fd = .ok dm' ∧
      t = { u with diskManager := dm' } := by
  unfold closeFile at run
  obtain ⟨_, one, write, rest⟩ := bind_eq_ok.mp run
  obtain ⟨_, two, flushed, closing⟩ := bind_eq_ok.mp rest
  obtain ⟨dm, wrote, rfl⟩ := BufferPoolManager.writePage_ok write
  obtain ⟨dm', closed, rfl⟩ := BufferPoolManager.closeFile_ok closing
  exact ⟨dm, two, dm', wrote, flushed, closed, rfl⟩

end RmManager

namespace DiskManager

theorem diskPage_open {dm : DiskManager} {fd : Int} {ino : Nat} (atFd : dm.os.fds fd = some ino) (k : Int) :
    dm.diskPage ⟨fd, k⟩ = (dm.os.file ino).page k.toNat := by
  simp only [diskPage, fileOf, atFd, Option.map_some]

/-- The disk shows the same under a descriptor that is as it was and whose file is. -/
theorem diskPage_congr {dm dm' : DiskManager} {p : PageId} (fds : dm'.os.fds p.fd = dm.os.fds p.fd)
    (files : ∀ ino, dm.os.fds p.fd = some ino → dm'.os.file ino = dm.os.file ino) : dm'.diskPage p = dm.diskPage p := by
  unfold diskPage fileOf
  rw [fds]
  cases atFd : dm.os.fds p.fd with
  | none => rfl
  | some ino => simp only [Option.map_some, files ino atFd]

end DiskManager

namespace RmManager

/-- The pages of a new file. -/
def headerOnly (recordSize : Int) : Int → PageData :=
  Function.update (fun _ => Block.zero) RM_FILE_HDR_PAGE
    (Block.zero.poke 0 RmFileHdr.size (RmFileHdr.create recordSize).bytes)

theorem createFile_flat (f : FlatFile) (lower : 1 ≤ recordSize) (upper : recordSize ≤ RM_MAX_RECORD_SIZE) :
    createFile filename recordSize made fd f = .ok () ⟨headerOnly recordSize, f.counter⟩ := by
  unfold createFile
  rw [if_neg (by omega)]
  rfl

theorem createFile_after (f : FlatFile) (lower : 1 ≤ recordSize) (upper : recordSize ≤ RM_MAX_RECORD_SIZE) :
    stateAfter (createFile filename recordSize made fd) f = ⟨headerOnly recordSize, f.counter⟩ := by
  simp only [stateAfter, createFile_flat f lower upper]

theorem created_flat (fd : Int) (f : FlatFile) (lower : 1 ≤ recordSize) (upper : recordSize ≤ RM_MAX_RECORD_SIZE) :
    ∃ t, created recordSize fd f = .ok ⟨fd, RmFileHdr.create recordSize⟩ t := by
  have isHdr := (RmFileHdr.Sized.create lower upper).isHdr (show IsInt 1 by decide) (show IsInt RM_NO_PAGE by decide)
  have read := RmFileHdr.ofBytes_poke isHdr (Block.zero : PageData)
  have run : created recordSize fd f = .ok _ _ := bind_ok (createFile_flat f lower upper)
  simp only [headerOnly, Function.update_self, read] at run
  exact ⟨_, run⟩

end RmManager

namespace Tables.IsTable

/-- A new file is a table. -/
theorem created (f : FlatFile) (lower : 1 ≤ recordSize) (upper : recordSize ≤ RM_MAX_RECORD_SIZE) :
    IsTable (stateAfter (RmManager.createFile filename recordSize made fd) f) := by
  rw [RmManager.createFile_after f lower upper]
  refine ⟨_, rfl, fun fd' => ?_⟩
  have run : RmManager.created recordSize fd' f = .ok _ _ := bind_ok (RmManager.createFile_flat f lower upper)
  exact (FileInv.created run).1

/-- The file that `close_file` leaves is a table. -/
theorem closed {f : FlatFile} {hdr : RmFileHdr} (inv : RmFile.FileInv ⟨⟨fd, hdr⟩, f⟩) :
    IsTable (stateAfter (RmManager.closeFile ⟨fd, hdr⟩) f) := by
  refine ⟨_, rfl, fun fd' => ?_⟩
  obtain ⟨t, run, inv', _⟩ := inv.reopen fd'
  cases run
  exact inv'

/-- An opened table is a record file. -/
theorem opened {f : FlatFile} (table : IsTable f) :
    RmFile.FileInv ⟨⟨fd, RmFileHdr.ofBytes (f.page RM_FILE_HDR_PAGE).peek⟩,
      stateAfter (RmManager.openFile filename fd) f⟩ := by
  obtain ⟨hdr, rfl, inv⟩ := table
  exact inv fd

end Tables.IsTable

namespace Tables.Inv
variable {s : Tables N} {w : World Unit N}

/-- The pool may have written, and files that are not open may have come or gone. -/
theorem keep (inv : Inv tables s w) {t : BufferPoolManager N} {own : Nat → FlatFile}
    (sim : World.Sim (fun fd => s.handle fd ≠ none) { w with pool := t }) (table : t.pageTable = s.pool.pageTable)
    (con : Consistent t.diskManager) (fds : t.diskManager.os.fds = s.disk.os.fds)
    (counters : t.counter = s.pool.counter)
    (same : ∀ fd ino, s.disk.os.fds fd = some ino → own ino = s.own ino)
    (closed : ∀ path ino, t.diskManager.os.inode path = some ino → (∀ fd, s.disk.os.fds fd ≠ some ino) →
      (tables path → IsTable (own ino)) ∧ ∀ k, 0 ≤ k → (t.diskManager.os.file ino).page k.toNat = (own ino).page k) :
    Inv tables ⟨t, s.handle, own⟩ { w with pool := t } where
  pool := rfl
  sim := sim
  con := con
  quiet := inv.quiet
  header := by
    rw [table]
    exact inv.header
  opened fd hdr isOpen := by
    obtain ⟨ino, atFd, file, pages, counter⟩ := inv.opened fd hdr isOpen
    refine ⟨ino, ?_, ?_⟩
    · rw [← atFd, ← fds]
    · simp only [same fd ino atFd, counters]
      exact ⟨file, pages, counter⟩
  handles fd ino atFd := by
    change t.diskManager.os.fds fd = some ino at atFd
    rw [fds] at atFd
    exact inv.handles fd ino atFd
  closed path ino named unused := by
    change ∀ fd, t.diskManager.os.fds fd ≠ some ino at unused
    rw [fds] at unused
    exact closed path ino named unused

theorem createFile (inv : Inv tables s w) {t : BufferPoolManager N}
    (run : RmManager.createFile filename recordSize made fd s.pool = .ok () t) :
    ∃ w', Inv tables { s with
      pool := t
      own := Function.update s.own s.disk.os.nextInode
        (stateAfter (RmManager.createFile filename recordSize made fd) (s.own s.disk.os.nextInode)) } w' := by
  obtain ⟨lower, upper, dm, rfl, con, counters, fds, inode, files⟩ := RmManager.createFile_pool inv.con run
  have isOld : ∀ fd ino, s.disk.os.fds fd = some ino → ino ≠ s.disk.os.nextInode := by
    intro fd ino atFd
    obtain ⟨path, _, _, named⟩ := inv.con.opened fd ino atFd
    exact (inv.con.old path ino named).ne
  refine ⟨_, inv.keep ?_ rfl con fds counters ?_ ?_⟩
  · have sim := inv.sim.setDisk con.distinct (by rw [counters, inv.pool]) ?_
    · rw [inv.pool] at sim
      exact sim
    · intro p _ _
      rw [inv.pool]
      refine diskPage_congr (by rw [fds]) fun ino atFd => ?_
      rw [files, Function.update_of_ne (isOld _ _ atFd)]
  · intro fd ino atFd
    exact Function.update_of_ne (isOld fd ino atFd) ..
  · intro path ino named unused
    simp only [inode] at named
    simp only [files]
    by_cases new : ino = s.disk.os.nextInode
    · subst new
      rw [Function.update_self, Function.update_self]
      refine ⟨fun _ => .created _ lower upper, fun k nonneg => ?_⟩
      rw [RmManager.createFile_after _ lower upper]
      unfold RmManager.headerOnly
      by_cases header : k = RM_FILE_HDR_PAGE
      · subst header
        simp only [Function.update_self]
        exact File.page_write_front File.empty 0 _ _
      · simp only [Function.update_of_ne header]
        have notFirst : k.toNat ≠ 0 := by
          unfold RM_FILE_HDR_PAGE at header
          omega
        exact File.page_write_other File.empty _ notFirst (by decide)
    · rw [Function.update_of_ne new, Function.update_of_ne new]
      have different : path ≠ filename := by
        rintro rfl
        rw [Function.update_self] at named
        exact new (Option.some.inj named).symm
      rw [Function.update_of_ne different] at named
      exact inv.closed path ino named unused

theorem destroyFile (inv : Inv tables s w) {t : BufferPoolManager N}
    (run : RmManager.destroyFile filename permitted s.pool = .ok () t) :
    ∃ w', Inv tables { s with pool := t } w' := by
  unfold RmManager.destroyFile at run
  split at run
  · rename_i dm destroyed
    cases run
    have con := inv.con.destroy destroyed
    obtain ⟨_, rfl⟩ := destroyFile_ok destroyed
    refine ⟨_, inv.keep ?_ rfl con rfl rfl (fun _ _ _ => rfl) ?_⟩
    · have sim := inv.sim.setDisk con.distinct (by rw [inv.pool]) fun p _ _ => by
        rw [inv.pool]
        exact diskPage_congr rfl fun _ _ => rfl
      rw [inv.pool] at sim
      exact sim
    · intro path ino named unused
      change Function.update s.disk.os.inode filename none path = some ino at named
      have different : path ≠ filename := by
        rintro rfl
        rw [Function.update_self] at named
        cases named
      rw [Function.update_of_ne different] at named
      exact inv.closed path ino named unused
  · cases run

/-- A file that nobody has open and that is no table gets other contents. -/
theorem rewrite (inv : Inv tables s w) {ino : Nat} (file : File) (other : ¬tables filename)
    (named : s.disk.os.inode filename = some ino) (unused : ∀ fd, s.disk.os.fds fd ≠ some ino) :
    ∃ w', Inv tables { s with
      pool := { s.pool with diskManager := s.disk.setFile ino file }
      own := Function.update s.own ino (onDisk file) } w' := by
  have con : Consistent (s.disk.setFile ino file) := ⟨inv.con.opened, inv.con.path_open, inv.con.unique, inv.con.old⟩
  have apart : ∀ fd ino', s.disk.os.fds fd = some ino' → ino' ≠ ino := by
    rintro fd _ atFd rfl
    exact unused fd atFd
  refine ⟨_, inv.keep ?_ rfl con rfl rfl (fun fd ino' atFd => Function.update_of_ne (apart fd ino' atFd) ..) ?_⟩
  · have sim := inv.sim.setDisk con.distinct (by rw [inv.pool]; rfl) fun p _ _ => by
      rw [inv.pool]
      exact diskPage_congr rfl fun ino' atFd => Function.update_of_ne (apart _ ino' atFd) ..
    rw [inv.pool] at sim
    exact sim
  · intro path ino' named' unused'
    by_cases same : ino' = ino
    · subst ino'
      have samePath : path = filename := inv.con.unique path filename ino named' named
      refine ⟨fun isTable => absurd (samePath ▸ isTable) other, fun k _ => ?_⟩
      simp only [setFile, Function.update_self]
      rfl
    · simp only [setFile, Function.update_of_ne same]
      exact inv.closed path ino' named' unused'

/-- After `flush_all_pages` every page of the file is on disk. -/
theorem flushAllPages (inv : Inv tables s w) {t : BufferPoolManager N} {hdr : RmFileHdr} {ino : Nat}
    (isOpen : s.handle fd = some hdr) (atFd : s.disk.os.fds fd = some ino) (run : flushAllPages fd s.pool = .ok () t) :
    Inv tables { s with pool := t } { w with pool := t } ∧
      ∀ k, 0 ≤ k → (t.diskManager.os.file ino).page k.toNat = (s.own ino).page k := by
  have isLive : s.handle fd ≠ none := by
    rw [isOpen]
    exact Option.some_ne_none _
  rw [← inv.pool] at run
  obtain ⟨sim, table, onDisk⟩ := inv.sim.flushFrames isLive run
  obtain ⟨touched, counters, _⟩ := flushFrames_frames run
  rw [inv.pool] at table touched counters
  refine ⟨inv.keep sim table (touched.consistent inv.con) touched.fds counters (fun _ _ _ => rfl) ?_,
    fun k nonneg => ?_⟩
  · intro path other named unused
    rw [touched.inode] at named
    rw [touched.closed other unused]
    exact inv.closed path other named unused
  · obtain ⟨ino', atFd', _, pages, _⟩ := inv.opened fd hdr isOpen
    cases atFd.symm.trans atFd'
    have still : t.diskManager.os.fds fd = some ino := by
      rw [touched.fds]
      exact atFd
    rw [← pages k nonneg, ← diskPage_open still]
    refine onDisk ⟨fd, k⟩ ?_
    cases found : w.pool.pageTable ⟨fd, k⟩ with
    | none => exact Or.inr ⟨nonneg, inv.sim.uncached _ isLive found nonneg⟩
    | some f => exact Or.inl ⟨rfl, f, List.mem_finRange f, rfl⟩

/-- A name that is not in the manager's table is a file nobody has open. -/
theorem unused (inv : Inv tables s w) {ino : Nat} (named : s.disk.os.inode filename = some ino)
    (noFd : s.disk.path2fd filename = none) (fd : Int) : s.disk.os.fds fd ≠ some ino := by
  intro atFd
  obtain ⟨path, _, toFd, named'⟩ := inv.con.opened fd ino atFd
  rw [inv.con.unique path filename ino named' named, noFd] at toFd
  cases toFd

/-- The pool of the open files with one file more, whose pages are those on disk. -/
theorem adopt_opened (inv : Inv tables s w) {dm : DiskManager} {ino : Nat} {n : Int} (distinct : dm.Distinct)
    (nonneg : 0 ≤ n) (fds : dm.os.fds = Function.update s.disk.os.fds fd (some ino))
    (files : dm.os.file = s.disk.os.file) (counters : dm.fd2pageno = s.disk.fd2pageno)
    (reusable : ∀ p f, p.fd = fd → s.pool.pageTable p = some f →
      p.pageNo < n ∧ (s.pool.pages f).data = (s.disk.os.file ino).page p.pageNo.toNat) :
    (∀ k, (dm.setFd2pageno fd n).diskPage ⟨fd, k⟩ = (s.disk.os.file ino).page k.toNat) ∧
      World.Sim (fun other => s.handle other ≠ none ∨ other = fd) { w with
        pool := { s.pool with diskManager := dm.setFd2pageno fd n }
        store := fun p => if p.fd = fd then (dm.setFd2pageno fd n).diskPage p else w.store p } := by
  have atFd : (dm.setFd2pageno fd n).os.fds fd = some ino := by
    change dm.os.fds fd = some ino
    rw [fds, Function.update_self]
  have onDisk : ∀ k, (dm.setFd2pageno fd n).diskPage ⟨fd, k⟩ = (s.disk.os.file ino).page k.toNat := by
    intro k
    rw [diskPage_open atFd, ← files]
    rfl
  refine ⟨onDisk, ?_⟩
  rw [← inv.pool]
  refine inv.sim.adopt distinct nonneg ?counters ?same ?reuse
  case counters =>
    change Function.update dm.fd2pageno fd n = _
    rw [counters, inv.pool]
  case same =>
    rw [inv.pool]
    intro p different
    refine diskPage_congr ?_ fun i _ => ?_
    · change dm.os.fds p.fd = _
      rw [fds, Function.update_of_ne different]
    · change dm.os.file i = _
      rw [files]
  case reuse =>
    rw [inv.pool]
    rintro ⟨_, k⟩ f rfl found
    rw [onDisk]
    exact reusable _ f rfl found

theorem openFile (inv : Inv tables s w) {t : BufferPoolManager N} {h : RmFileHandle} {ino : Nat}
    (isTable : tables filename) (named : s.disk.os.inode filename = some ino) (reusable : Reusable s ino fd)
    (run : RmManager.openFile filename fd s.pool = .ok h t) :
    ∃ w', Inv tables ⟨t, Function.update s.handle fd (some h.fileHdr),
      Function.update s.own ino (stateAfter (RmManager.openFile filename fd) (s.own ino))⟩ w' := by
  obtain ⟨ino', dm, opened, named', free, fds, inode, files, counters, rfl, rfl⟩ := RmManager.openFile_pool run
  cases named.symm.trans named'
  obtain ⟨_, _, noFd, _⟩ := openFile_ok opened
  have unused := inv.unused named noFd
  obtain ⟨table, pages⟩ := inv.closed filename ino named unused
  have header : (s.disk.os.file ino).page 0 = (s.own ino).page RM_FILE_HDR_PAGE := pages 0 le_rfl
  unfold Reusable at reusable
  rw [header] at reusable ⊢
  have file : RmFile.FileInv ⟨⟨fd, RmFileHdr.ofBytes ((s.own ino).page RM_FILE_HDR_PAGE).peek⟩,
      stateAfter (RmManager.openFile filename fd) (s.own ino)⟩ := (table isTable).opened
  have con : Consistent dm := inv.con.openFile opened
  have numPages : 0 ≤ (RmFileHdr.ofBytes ((s.own ino).page RM_FILE_HDR_PAGE).peek).numPages :=
    (by decide : (0 : Int) ≤ 1).trans file.pages_pos
  obtain ⟨onDisk, sim⟩ := inv.adopt_opened con.distinct numPages fds files counters reusable
  rw [show (fun other => s.handle other ≠ none ∨ other = fd) = _ from
    funext fun other => propext update_some_ne_none.symm] at sim
  have apart : ∀ other ino', s.disk.os.fds other = some ino' → ino' ≠ ino := by
    rintro other _ atOther rfl
    exact unused other atOther
  refine ⟨_, ⟨?pool, sim, ⟨con.opened, con.path_open, con.unique, con.old⟩, inv.quiet, inv.header, ?opened, ?handles,
    ?closed⟩⟩
  case pool => rfl
  case opened =>
    intro other hdr found
    change Function.update s.handle fd (some _) other = some hdr at found
    change ∃ ino', dm.os.fds other = some ino' ∧ _
    rw [fds]
    by_cases same : other = fd
    · subst other
      rw [Function.update_self] at found
      cases found
      refine ⟨ino, Function.update_self .., ?_, ?_, ?_⟩
      · simp only [Function.update_self]
        exact file
      · intro k nonneg
        simp only [Function.update_self, if_true]
        exact (onDisk k).trans (pages k nonneg)
      · simp only [Function.update_self]
        exact Function.update_self ..
    · simp only [Function.update_of_ne same] at found ⊢
      obtain ⟨ino', atOther, file', pages', counter⟩ := inv.opened other hdr found
      refine ⟨ino', atOther, ?_⟩
      simp only [Function.update_of_ne (apart other ino' atOther), if_neg same]
      refine ⟨file', pages', ?_⟩
      rw [← counter]
      refine (Function.update_of_ne same ..).trans ?_
      rw [counters]
  case handles =>
    intro other ino' found
    change dm.os.fds other = some ino' at found
    rw [fds] at found
    by_cases same : other = fd
    · exact update_some_ne_none.mpr (Or.inr same)
    · rw [Function.update_of_ne same] at found
      exact update_some_ne_none.mpr (Or.inl (inv.handles other ino' found))
  case closed =>
    intro path ino' named'' unused'
    change dm.os.inode path = some ino' at named''
    change ∀ other, dm.os.fds other ≠ some ino' at unused'
    rw [inode] at named''
    rw [fds] at unused'
    have different : ino' ≠ ino := by
      rintro rfl
      exact unused' fd (Function.update_self ..)
    have wasUnused : ∀ other, s.disk.os.fds other ≠ some ino' := by
      intro other atOther
      refine unused' other ((Function.update_of_ne ?_ ..).trans atOther)
      rintro rfl
      rw [free] at atOther
      cases atOther
    have before := inv.closed path ino' named'' wasUnused
    have sameFile : dm.os.file ino' = s.disk.os.file ino' := by rw [files]
    rw [← sameFile] at before
    simp only [Function.update_of_ne different]
    exact before

/-- The first step of `close_file`: the header goes to page 0, past the pool. -/
theorem writeHeader (inv : Inv tables s w) {dm : DiskManager} {hdr : RmFileHdr} {ino : Nat}
    (isOpen : s.handle fd = some hdr) (atFd : s.disk.os.fds fd = some ino)
    (write : s.disk.writePage fd RM_FILE_HDR_PAGE hdr.bytes RmFileHdr.size = (dm, none)) :
    ∃ w', Inv tables { s with
      pool := { s.pool with diskManager := dm }
      own := Function.update s.own ino (stateAfter (RmManager.closeFile ⟨fd, hdr⟩) (s.own ino)) } w' := by
  have touched := Touched.writePage write
  have counters : dm.fd2pageno = s.disk.fd2pageno := by
    have := writePage_fd2pageno s.disk fd RM_FILE_HDR_PAGE hdr.bytes RmFileHdr.size
    rwa [write] at this
  have sim : World.Sim (fun fd => s.handle fd ≠ none) _ :=
    inv.sim.writeThrough (p := ⟨fd, RM_FILE_HDR_PAGE⟩) (by rw [inv.pool]; exact inv.header fd)
      (show RmFileHdr.size ≤ PAGE_SIZE by decide) (by rw [inv.pool]; exact write)
  rw [inv.pool] at sim
  refine ⟨_, ⟨?pool, sim, touched.consistent inv.con, inv.quiet, inv.header, ?opened, ?handles, ?closed⟩⟩
  case pool => rfl
  case opened =>
    intro other hdr' found
    change ∃ ino', dm.os.fds other = some ino' ∧ _
    rw [touched.fds]
    obtain ⟨ino', atOther, file, pages, counter⟩ := inv.opened other hdr' found
    refine ⟨ino', atOther, ?_⟩
    by_cases same : other = fd
    · subst other
      cases isOpen.symm.trans found
      cases atFd.symm.trans atOther
      simp only [Function.update_self]
      refine ⟨?_, fun k nonneg => ?_, ?_⟩
      · obtain ⟨t, run, file', _, kept⟩ := file.reopen fd
        cases run
        change RmFileHdr.ofBytes _ = hdr at kept
        rw [kept] at file'
        have sameCounter : (s.own ino).counter = hdr.numPages := file.counter
        change RmFile.FileInv ⟨⟨fd, hdr⟩, ⟨_, (s.own ino).counter⟩⟩
        rw [sameCounter]
        exact file'
      · change Function.update w.store _ _ _ = Function.update (s.own ino).page _ _ k
        by_cases header : k = RM_FILE_HDR_PAGE
        · subst header
          rw [Function.update_self, Function.update_self, pages _ nonneg]
        · rw [Function.update_of_ne header, Function.update_of_ne fun same => header (congrArg PageId.pageNo same)]
          exact pages k nonneg
      · exact (congrFun counters fd).trans counter
    · have apart := inv.other_ino atFd atOther same
      simp only [Function.update_of_ne apart]
      refine ⟨file, fun k nonneg => ?_, ?_⟩
      · rw [Function.update_of_ne fun same' => same (congrArg PageId.fd same')]
        exact pages k nonneg
      · exact (congrFun counters other).trans counter
  case handles =>
    intro other ino' found
    change dm.os.fds other = some ino' at found
    rw [touched.fds] at found
    exact inv.handles other ino' found
  case closed => exact inv.closed_of_touched atFd touched _

/-- The last step of `close_file`: the descriptor goes. Its pages stay cached, clean. -/
theorem forget (inv : Inv tables s w) {dm : DiskManager} {ino : Nat} (atFd : s.disk.os.fds fd = some ino)
    (table : IsTable (s.own ino)) (onDisk : ∀ k, 0 ≤ k → (s.disk.os.file ino).page k.toNat = (s.own ino).page k)
    (clean : ∀ p f, p.fd = fd → s.pool.pageTable p = some f → (s.pool.pages f).isDirty = false)
    (run : s.disk.closeFile fd = .ok dm) :
    ∃ w', Inv tables { s with
      pool := { s.pool with diskManager := dm }
      handle := Function.update s.handle fd none } w' := by
  have con := inv.con.closeFile run
  obtain ⟨path, _, toPath, _, rfl⟩ := closeFile_ok run
  have sim := inv.sim.retire con.distinct (by rw [inv.pool]) ?same (by rw [inv.pool]; exact clean)
  case same =>
    rw [inv.pool]
    intro p different
    exact diskPage_congr (Function.update_of_ne different ..) fun _ _ => rfl
  have stillLive : (fun other => s.handle other ≠ none ∧ other ≠ fd) = fun other =>
      Function.update s.handle fd none other ≠ none := funext fun other => propext update_none_ne_none.symm
  rw [inv.pool, stillLive] at sim
  have keptFd : ∀ other ino', Function.update s.disk.os.fds fd none other = some ino' →
      other ≠ fd ∧ s.disk.os.fds other = some ino' := by
    intro other ino' found
    by_cases same : other = fd
    · rw [same, Function.update_self] at found
      cases found
    · rw [Function.update_of_ne same] at found
      exact ⟨same, found⟩
  refine ⟨_, ⟨?pool, sim, con, inv.quiet, inv.header, ?opened, ?handles, ?closed⟩⟩
  case pool => rfl
  case opened =>
    intro other hdr found
    change Function.update s.handle fd none other = some hdr at found
    have different : other ≠ fd := by
      rintro rfl
      rw [Function.update_self] at found
      cases found
    rw [Function.update_of_ne different] at found
    obtain ⟨ino', atOther, rest⟩ := inv.opened other hdr found
    exact ⟨ino', (Function.update_of_ne different ..).trans atOther, rest⟩
  case handles =>
    intro other ino' found
    obtain ⟨different, atOther⟩ := keptFd other ino' found
    exact update_none_ne_none.mpr ⟨inv.handles other ino' atOther, different⟩
  case closed =>
    intro path ino' named unused
    by_cases same : ino' = ino
    · subst ino'
      exact ⟨fun _ => table, onDisk⟩
    · refine inv.closed path ino' named fun other atOther => unused other ?_
      refine (Function.update_of_ne ?_ ..).trans atOther
      rintro rfl
      exact same (Option.some.inj (atOther.symm.trans atFd))

/-- `close_file` leaves the file on disk as its own calls made it. -/
theorem closeFile (inv : Inv tables s w) {t : BufferPoolManager N} {hdr : RmFileHdr} {ino : Nat}
    (isOpen : s.handle fd = some hdr) (atFd : s.disk.os.fds fd = some ino)
    (run : RmManager.closeFile ⟨fd, hdr⟩ s.pool = .ok () t) :
    (∃ w', Inv tables ⟨t, Function.update s.handle fd none,
      Function.update s.own ino (stateAfter (RmManager.closeFile ⟨fd, hdr⟩) (s.own ino))⟩ w') ∧
      ∀ k, 0 ≤ k → (t.diskManager.os.file ino).page k.toNat =
        (stateAfter (RmManager.closeFile ⟨fd, hdr⟩) (s.own ino)).page k := by
  obtain ⟨dm, u, dm', write, flush, closing, rfl⟩ := RmManager.closeFile_pool run
  obtain ⟨_, atFd', file, _⟩ := inv.opened fd hdr isOpen
  cases atFd.symm.trans atFd'
  obtain ⟨w₁, written⟩ := inv.writeHeader isOpen atFd write
  have atFd₁ : dm.os.fds fd = some ino := by rw [(Touched.writePage write).fds, atFd]
  obtain ⟨flushed, onDisk⟩ := written.flushAllPages isOpen atFd₁ flush
  obtain ⟨touched, _, _, frames, cleaned⟩ := flushFrames_frames flush
  have atFd₂ : u.diskManager.os.fds fd = some ino := by rw [touched.fds, atFd₁]
  simp only [Function.update_self] at onDisk
  refine ⟨?_, ?_⟩
  · have table : IsTable (Function.update s.own ino (stateAfter (RmManager.closeFile ⟨fd, hdr⟩) (s.own ino)) ino) := by
      rw [Function.update_self]
      exact .closed file
    refine flushed.forget atFd₂ table ?_ ?_ closing
    · simp only [Function.update_self]
      exact onDisk
    · intro p f atP found
      change u.pageTable p = some f at found
      have inv₂ := flushed.sim.inv
      obtain ⟨same, valid⟩ := (inv₂.table_iff p f).mp found
      change (u.pages f).id = p at same
      rw [← same, (frames f).1] at valid atP
      exact cleaned f (List.mem_finRange f) atP valid
  · obtain ⟨_, _, _, _, rfl⟩ := closeFile_ok closing
    exact onDisk

end Tables.Inv

end Rmdb
