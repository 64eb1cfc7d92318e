import Rmdb.Record.PoolOps
import Rmdb.Storage.FileEvents

namespace Rmdb
open RmFile BufferPoolManager DiskManager
variable {N : Nat} {tables : String → Prop}

namespace RmManager

def destroyFile (filename : String) (permitted : Bool) : PoolM N Unit := fun s =>
  match s.diskManager.destroyFile filename permitted with
  | .ok dm => .ok () { s with diskManager := dm }
  | .error e => .error e s

end RmManager

/-- The table files of one server: a pool they share, the handles that are open and,
for every file, the flat file that the calls on it alone would have made. `own` is
the meaning of the files; no step reads it to compute what the pool does. -/
structure Tables (N : Nat) where
  pool : BufferPoolManager N
  handle : Int → Option RmFileHdr
  own : Nat → FlatFile

namespace Tables

abbrev disk (s : Tables N) : DiskManager := s.pool.diskManager

/-- A page table entry under the descriptor is a page the file has, with the file's bytes. -/
def Reusable (s : Tables N) (ino : Nat) (fd : Int) : Prop :=
  ∀ p f, p.fd = fd → s.pool.pageTable p = some f →
    p.pageNo < (RmFileHdr.ofBytes ((s.disk.os.file ino).page 0).peek).numPages ∧
      (s.pool.pages f).data = (s.disk.os.file ino).page p.pageNo.toNat

/-- A call on one handle and its own file. -/
def record (s : Tables N) (fd : Int) (hdr : RmFileHdr) (ino : Nat) (op : RecordOp) (t : RmFile (BufferPoolManager N)) :
    Tables N where
  pool := t.store
  handle := Function.update s.handle fd (some t.hdr)
  own := Function.update s.own ino (stateAfter op.run ⟨⟨fd, hdr⟩, s.own ino⟩).store

/-- The flat file that a file on disk is. -/
def onDisk (file : File) : FlatFile := ⟨fun k => file.page k.toNat, 0⟩

/-- One call that returns. `tables` are the names that `open_file` is called with; `reusable`
says when the operating system's choice of a descriptor for it is accepted. -/
inductive Step (tables : String → Prop) (reusable : Tables N → Nat → Int → Prop) : Tables N → Tables N → Prop
  | createFile {s : Tables N} {t : BufferPoolManager N} {filename : String} {recordSize made fd : Int} :
      RmManager.createFile filename recordSize made fd s.pool = .ok () t →
      Step tables reusable s { s with
        pool := t
        own := Function.update s.own s.disk.os.nextInode
          (stateAfter (RmManager.createFile filename recordSize made fd) (s.own s.disk.os.nextInode)) }
  | openFile {s : Tables N} {t : BufferPoolManager N} {filename : String} {fd : Int} {ino : Nat} {h : RmFileHandle} :
      tables filename → s.disk.os.inode filename = some ino → reusable s ino fd →
      RmManager.openFile filename fd s.pool = .ok h t →
      Step tables reusable s {
        pool := t
        handle := Function.update s.handle fd (some h.fileHdr)
        own := Function.update s.own ino (stateAfter (RmManager.openFile filename fd) (s.own ino)) }
  | closeFile {s : Tables N} {t : BufferPoolManager N} {fd : Int} {hdr : RmFileHdr} {ino : Nat} :
      s.handle fd = some hdr → s.disk.os.fds fd = some ino → RmManager.closeFile ⟨fd, hdr⟩ s.pool = .ok () t →
      Step tables reusable s {
        pool := t
        handle := Function.update s.handle fd none
        own := Function.update s.own ino (stateAfter (RmManager.closeFile ⟨fd, hdr⟩) (s.own ino)) }
  | destroyFile {s : Tables N} {t : BufferPoolManager N} {filename : String} {permitted : Bool} :
      RmManager.destroyFile filename permitted s.pool = .ok () t → Step tables reusable s { s with pool := t }
  | record {s : Tables N} {fd : Int} {hdr : RmFileHdr} {ino : Nat} {op : RecordOp} {r : RecordReply}
      {t : RmFile (BufferPoolManager N)} : s.handle fd = some hdr → s.disk.os.fds fd = some ino →
      op.Addresses hdr → op.run ⟨⟨fd, hdr⟩, s.pool⟩ = .ok r t → Step tables reusable s (s.record fd hdr ino op t)
  | flushAllPages {s : Tables N} {t : BufferPoolManager N} {fd : Int} {hdr : RmFileHdr} :
      s.handle fd = some hdr → flushAllPages fd s.pool = .ok () t → Step tables reusable s { s with pool := t }
  /-- A file that is no table gets other contents, as `db.meta` does in `flush_meta`. -/
  | rewrite {s : Tables N} {filename : String} {ino : Nat} (file : File) : ¬tables filename →
      s.disk.os.inode filename = some ino → (∀ fd, s.disk.os.fds fd ≠ some ino) →
      Step tables reusable s { s with
        pool := { s.pool with diskManager := s.disk.setFile ino file }
        own := Function.update s.own ino (onDisk file) }

/-- A closed table file: its header is on page 0, and with the counter set from it the
file is as the record operations leave it. -/
def IsTable (f : FlatFile) : Prop :=
  ∃ hdr, RmFileHdr.ofBytes (f.page RM_FILE_HDR_PAGE).peek = hdr ∧
    ∀ fd, RmFile.FileInv ⟨⟨fd, hdr⟩, { f with counter := hdr.numPages }⟩

/-- A server that starts: nothing is open, and the files that will be opened are tables. The
others in the directory (`db.meta`, `db.log`) may hold anything. -/
structure Fresh (tables : String → Prop) (dm : DiskManager) : Prop where
  con : Consistent dm
  closed : ∀ fd, dm.os.fds fd = none
  counters : ∀ fd, 0 ≤ dm.fd2pageno fd
  isTable : ∀ path ino, dm.os.inode path = some ino → tables path → IsTable (onDisk (dm.os.file ino))

inductive Reach (tables : String → Prop) (reusable : Tables N → Nat → Int → Prop) : Tables N → Prop
  | start {dm : DiskManager} (junk : Fin N → Int) : Fresh tables dm →
      Reach tables reusable ⟨.new dm junk, fun _ => none, fun ino => onDisk (dm.os.file ino)⟩
  | step {s t : Tables N} : Reach tables reusable s → Step tables reusable s t → Reach tables reusable t

/-- What holds between two calls. `w` describes the pool: what is pinned, and the page
store it stands for. -/
structure Inv (tables : String → Prop) (s : Tables N) (w : World Unit N) : Prop where
  pool : w.pool = s.pool
  sim : w.Sim fun fd => s.handle fd ≠ none
  con : Consistent s.disk
  quiet : ∀ p, w.unsaved () p = false ∧ w.created p = false
  header : ∀ fd, s.pool.pageTable ⟨fd, RM_FILE_HDR_PAGE⟩ = none
  opened : ∀ fd hdr, s.handle fd = some hdr → ∃ ino, s.disk.os.fds fd = some ino ∧
    RmFile.FileInv ⟨⟨fd, hdr⟩, s.own ino⟩ ∧ (∀ k, 0 ≤ k → w.store ⟨fd, k⟩ = (s.own ino).page k) ∧
    s.pool.counter fd = (s.own ino).counter
  handles : ∀ fd ino, s.disk.os.fds fd = some ino → s.handle fd ≠ none
  closed : ∀ path ino, s.disk.os.inode path = some ino → (∀ fd, s.disk.os.fds fd ≠ some ino) →
    (tables path → IsTable (s.own ino)) ∧ ∀ k, 0 ≤ k → (s.disk.os.file ino).page k.toNat = (s.own ino).page k

namespace Inv
variable {s : Tables N} {w : World Unit N}

theorem start {dm : DiskManager} (fresh : Fresh tables dm) (junk : Fin N → Int) :
    Inv tables ⟨.new dm junk, fun _ => none, fun ino => onDisk (dm.os.file ino)⟩ (.start dm junk) where
  pool := rfl
  sim := .start fresh.con.distinct fresh.counters junk _
  con := fresh.con
  quiet _ := ⟨rfl, rfl⟩
  header _ := rfl
  opened _ _ found := by cases found
  handles fd ino found := by
    have unused := fresh.closed fd
    change dm.os.fds fd = some ino at found
    rw [unused] at found
    cases found
  closed path ino named _ := ⟨fresh.isTable path ino named, fun _ _ => rfl⟩

/-- The handle over the pool and over its own file, ready for a call. -/
theorem ready (inv : Inv tables s w) {fd : Int} {hdr : RmFileHdr} {ino : Nat} (isOpen : s.handle fd = some hdr)
    (atFd : s.disk.os.fds fd = some ino) :
    Ready (fun fd => s.handle fd ≠ none) fd w ⟨⟨fd, hdr⟩, s.pool⟩ ⟨⟨fd, hdr⟩, s.own ino⟩ := by
  obtain ⟨ino', atFd', file, pages, counter⟩ := inv.opened fd hdr isOpen
  cases atFd.symm.trans atFd'
  refine ⟨⟨w, ?_⟩, file⟩
  constructor
  case sim => exact inv.sim
  case pool => exact inv.pool
  case handle => rfl
  case atFd => rfl
  case isLive => exact fun h => Option.some_ne_none _ (isOpen.symm.trans h)
  case quiet => exact fun p _ => inv.quiet p
  case header =>
    rw [inv.pool]
    exact inv.header
  case pages => exact pages
  case counter =>
    rw [inv.pool]
    exact counter
  case others => exact fun _ _ => rfl
  case counters => exact fun _ _ => rfl
  case touched => exact .refl _

theorem other_ino (inv : Inv tables s w) {fd fd' : Int} {ino ino' : Nat} (atFd : s.disk.os.fds fd = some ino)
    (atFd' : s.disk.os.fds fd' = some ino') (different : fd' ≠ fd) : ino' ≠ ino := by
  rintro rfl
  exact different (inv.con.distinct _ _ _ atFd' atFd)

/-- What is written to one open file leaves the files that nobody has open. -/
theorem closed_of_touched (inv : Inv tables s w) {fd : Int} {ino : Nat} {dm : DiskManager}
    (atFd : s.disk.os.fds fd = some ino) (touched : Touched s.disk dm) (file : FlatFile) :
      ∀ path ino', dm.os.inode path = some ino' → (∀ fd', dm.os.fds fd' ≠ some ino') →
      (tables path → IsTable (Function.update s.own ino file ino')) ∧
        ∀ k, 0 ≤ k → (dm.os.file ino').page k.toNat = (Function.update s.own ino file ino').page k := by
  intro path ino' named unused
  rw [touched.inode] at named
  rw [touched.fds] at unused
  have apart : ino' ≠ ino := by
    rintro rfl
    exact unused fd atFd
  rw [Function.update_of_ne apart, touched.closed ino' unused]
  exact inv.closed path ino' named unused

/-- The descriptors with a handle when one gets a handle. -/
theorem update_some_ne_none {handle : Int → Option RmFileHdr} {fd other : Int} {hdr : RmFileHdr} :
    Function.update handle fd (some hdr) other ≠ none ↔ handle other ≠ none ∨ other = fd := by
  by_cases same : other = fd
  · subst other
    simp
  · simp [same]

/-- The descriptors with a handle when one loses it. -/
theorem update_none_ne_none {handle : Int → Option RmFileHdr} {fd other : Int} :
    Function.update handle fd none other ≠ none ↔ handle other ≠ none ∧ other ≠ fd := by
  by_cases same : other = fd
  · subst other
    simp
  · simp [same]

/-- A record operation. -/
theorem record (inv : Inv tables s w) {fd : Int} {hdr : RmFileHdr} {ino : Nat} {op : RecordOp} {r : RecordReply}
    {t : RmFile (BufferPoolManager N)} (isOpen : s.handle fd = some hdr) (atFd : s.disk.os.fds fd = some ino)
    (addresses : op.Addresses hdr) (run : op.run ⟨⟨fd, hdr⟩, s.pool⟩ = .ok r t) :
    (∃ t', op.run ⟨⟨fd, hdr⟩, s.own ino⟩ = .ok r t') ∧ ∃ w', Inv tables (s.record fd hdr ino op t) w' := by
  have ready := inv.ready isOpen atFd
  obtain ⟨_, t', flat, rfl, w', tied⟩ := op.refines addresses _ _ r t ready run
  have file := op.fileInv ready.2 addresses flat
  refine ⟨⟨t', flat⟩, w', ?_⟩
  have own : (s.record fd hdr ino op t).own = Function.update s.own ino t'.store := by
    simp only [Tables.record, stateAfter, flat]
  have touched : Touched s.disk t.store.diskManager := by
    have := tied.touched
    rw [inv.pool, tied.pool] at this
    exact this
  have handleFd : t.handle.fd = fd := tied.atFd
  have stillLive : (fun fd' => Function.update s.handle fd (some t.hdr) fd' ≠ none) = fun fd' =>
      s.handle fd' ≠ none := by
    funext other
    rw [update_some_ne_none]
    exact propext (or_iff_left_of_imp fun same => by simp [same, isOpen])
  constructor
  case pool => exact tied.pool
  case sim =>
    change w'.Sim fun fd' => Function.update s.handle fd (some t.hdr) fd' ≠ none
    rw [stillLive]
    exact tied.sim
  case con => exact touched.consistent inv.con
  case quiet => exact fun p => tied.quiet p id
  case header =>
    intro other
    have := tied.header other
    rwa [tied.pool] at this
  case opened =>
    intro other hdr' found
    change Function.update s.handle fd (some t.hdr) other = some hdr' at found
    change ∃ ino', t.store.diskManager.os.fds other = some ino' ∧ _
    rw [touched.fds, own]
    by_cases same : other = fd
    · subst other
      rw [Function.update_self] at found
      cases found
      refine ⟨ino, atFd, ?_, ?_, ?_⟩
      · rw [Function.update_self]
        have handle : (⟨fd, t.hdr⟩ : RmFileHandle) = t'.handle := by
          rw [tied.handle, ← handleFd]
          rfl
        rw [handle]
        exact file
      · intro k nonneg
        rw [Function.update_self, ← handleFd]
        exact tied.pages k nonneg
      · rw [Function.update_self]
        have := tied.counter
        rw [tied.pool, handleFd] at this
        exact this
    · rw [Function.update_of_ne same] at found
      obtain ⟨ino', atOther, file', pages, counter⟩ := inv.opened other hdr' found
      have apart := inv.other_ino atFd atOther same
      refine ⟨ino', atOther, ?_, ?_, ?_⟩
      · rw [Function.update_of_ne apart]
        exact file'
      · intro k nonneg
        rw [Function.update_of_ne apart]
        refine (tied.others ⟨other, k⟩ ?_).trans (pages k nonneg)
        rw [handleFd]
        exact same
      · rw [Function.update_of_ne apart]
        have := tied.counters other (by rw [handleFd]; exact same)
        rw [tied.pool, inv.pool] at this
        exact this.trans counter
  case handles =>
    intro other ino' found
    change t.store.diskManager.os.fds other = some ino' at found
    rw [touched.fds] at found
    exact update_some_ne_none.mpr (Or.inl (inv.handles other ino' found))
  case closed =>
    rw [own]
    exact inv.closed_of_touched atFd touched _

end Inv

end Tables

end Rmdb
