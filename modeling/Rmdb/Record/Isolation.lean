import Rmdb.Record.TableSteps

namespace Rmdb
open RmFile BufferPoolManager DiskManager
variable {N : Nat} {tables : String → Prop}

namespace Tables

theorem Inv.step {s t : Tables N} {w : World Unit N} (inv : Inv tables s w) (step : Step tables Reusable s t) :
    ∃ w', Inv tables t w' := by
  cases step with
  | createFile run => exact inv.createFile run
  | openFile isTable named reusable run => exact inv.openFile isTable named reusable run
  | closeFile isOpen atFd run => exact (inv.closeFile isOpen atFd run).1
  | destroyFile run => exact inv.destroyFile run
  | record isOpen atFd addresses run => exact (inv.record isOpen atFd addresses run).2
  | flushAllPages isOpen run =>
    obtain ⟨ino, atFd, _⟩ := inv.opened _ _ isOpen
    exact ⟨_, (inv.flushAllPages isOpen atFd run).1⟩
  | rewrite file other named unused => exact inv.rewrite file other named unused

theorem Reach.inv {s : Tables N} (reach : Reach tables Reusable s) : ∃ w, Inv tables s w := by
  induction reach with
  | start junk fresh => exact ⟨_, .start fresh junk⟩
  | step _ step ih =>
    obtain ⟨w, inv⟩ := ih
    exact inv.step step

/-- Files that share a pool do not see each other, as long as a descriptor is given to
a file only when what the pool has cached under it are that file's own bytes. Every
call through a handle replies what it would reply on its own file alone; a page has
one frame; closing and flushing leave the file's own bytes on disk, and these stay
there while the file is closed. Only files that are opened need be tables at the start. -/
theorem tables_isolated {s : Tables N} (reach : Reach tables Reusable s) :
    (∀ fd hdr ino op r t, s.handle fd = some hdr → s.disk.os.fds fd = some ino → RecordOp.Addresses hdr op →
      op.run ⟨⟨fd, hdr⟩, s.pool⟩ = .ok r t → ∃ t', op.run ⟨⟨fd, hdr⟩, s.own ino⟩ = .ok r t') ∧
    (∀ f g, (s.pool.pages f).id = (s.pool.pages g).id → (s.pool.pages f).id.pageNo ≠ INVALID_PAGE_ID → f = g) ∧
    (∀ fd hdr ino t, s.handle fd = some hdr → s.disk.os.fds fd = some ino →
      RmManager.closeFile ⟨fd, hdr⟩ s.pool = .ok () t → ∀ k, 0 ≤ k →
      (t.diskManager.os.file ino).page k.toNat = (stateAfter (RmManager.closeFile ⟨fd, hdr⟩) (s.own ino)).page k) ∧
    (∀ fd hdr ino t, s.handle fd = some hdr → s.disk.os.fds fd = some ino → flushAllPages fd s.pool = .ok () t →
      ∀ k, 0 ≤ k → (t.diskManager.os.file ino).page k.toNat = (s.own ino).page k) ∧
    ∀ path ino, s.disk.os.inode path = some ino → (∀ fd, s.disk.os.fds fd ≠ some ino) →
      ∀ k, 0 ≤ k → (s.disk.os.file ino).page k.toNat = (s.own ino).page k := by
  obtain ⟨w, inv⟩ := reach.inv
  refine ⟨?_, ?_, ?_, ?_, ?_⟩
  · intro fd hdr ino op r t isOpen atFd addresses run
    exact (inv.record isOpen atFd addresses run).1
  · intro f g same valid
    have pool := inv.sim.inv
    rw [inv.pool] at pool
    have atF := (pool.table_iff _ f).mpr ⟨rfl, valid⟩
    have atG := (pool.table_iff _ g).mpr ⟨rfl, same ▸ valid⟩
    rw [same, atG] at atF
    exact (Option.some.inj atF).symm
  · intro fd hdr ino t isOpen atFd run
    exact (inv.closeFile isOpen atFd run).2
  · intro fd hdr ino t isOpen atFd run
    exact (inv.flushAllPages isOpen atFd run).2
  · intro path ino named unused
    exact (inv.closed path ino named unused).2

def noFiles : DiskManager where
  path2fd _ := none
  fd2path _ := none
  fd2pageno _ := 0
  os := ⟨fun _ => none, fun _ => none, fun _ => File.empty, 0, fun _ _ => PAGE_SIZE⟩

theorem noFiles_con : Consistent noFiles := by
  constructor
  case opened => exact fun _ _ found => nomatch found
  case path_open => exact fun _ _ found => nomatch found
  case unique => exact fun _ _ _ found => nomatch found
  case old => exact fun _ _ found => nomatch found

theorem noFiles_fresh : Fresh tables noFiles where
  con := noFiles_con
  closed _ := rfl
  counters _ := le_rfl
  isTable _ _ found := nomatch found

/-- The directory that `create_db` leaves: `db.meta` with a text, and an empty `db.log`. -/
def createdDb : DiskManager where
  path2fd _ := none
  fd2path _ := none
  fd2pageno _ := 0
  os := {
    inode := fun path => if path = "db.meta" then some 0 else if path = "db.log" then some 1 else none
    fds := fun _ => none
    file := Function.update (fun _ => File.empty) 0 (File.empty.write 0 4 fun _ => 48)
    nextInode := 2
    room := fun _ _ => PAGE_SIZE }

/-- Neither of the two files is a table. -/
theorem createdDb_fresh : Fresh (fun path => path ≠ "db.meta" ∧ path ≠ "db.log") createdDb where
  con := by
    have named : ∀ path ino, createdDb.os.inode path = some ino →
        (path = "db.meta" ∧ ino = 0) ∨ (path = "db.log" ∧ ino = 1) := by
      intro path ino found
      change (if path = "db.meta" then some 0 else if path = "db.log" then some 1 else none) = some ino at found
      grind
    constructor
    case opened => exact fun _ _ found => nomatch found
    case path_open => exact fun _ _ found => nomatch found
    case unique =>
      intro one two ino atOne atTwo
      rcases named one ino atOne with ⟨rfl, rfl⟩ | ⟨rfl, rfl⟩ <;> rcases named two _ atTwo with ⟨rfl, h⟩ | ⟨rfl, h⟩ <;>
        first | rfl | cases h
    case old =>
      intro path ino found
      rcases named path ino found with ⟨_, rfl⟩ | ⟨_, rfl⟩ <;> decide
  closed _ := rfl
  counters _ := le_rfl
  isTable path ino found isTable := by
    change (if path = "db.meta" then some 0 else if path = "db.log" then some 1 else none) = some ino at found
    rw [if_neg isTable.1, if_neg isTable.2] at found
    cases found

/-- The header of a file of four-byte records with one record page, which has room. -/
def onePage : RmFileHdr := { RmFileHdr.create 4 with numPages := 2, firstFreePageNo := 1 }

/-- In a new database a table is made and `db.meta` is rewritten. The table is closed while its
page stays cached, and opened again under another descriptor: the record written before is
read back. -/
theorem tables_isolated_reopened : ∃ s : Tables 2,
    Reach (fun path => path ≠ "db.meta" ∧ path ≠ "db.log") Reusable s ∧
      s.pool.pageTable ⟨3, 1⟩ = some 0 ∧ s.disk.os.fds 3 = none ∧
      value (RmFileHandle.getRecord ⟨1, 0⟩) (⟨⟨4, onePage⟩, s.own 2⟩ : RmFile FlatFile) = some (some [7, 7, 7, 7]) := by
  have fresh : Reach _ Reusable (_ : Tables 2) := .start (fun _ => 0) createdDb_fresh
  have created := fresh.step (.createFile (run_of_value (x := RmManager.createFile "a" 4 3 3) (by decide +kernel)))
  have opened := created.step (.openFile (by decide : "a" ≠ "db.meta" ∧ "a" ≠ "db.log") (show _ = some 2 by decide +kernel)
    (fun _ _ _ found => nomatch found)
    (run_of_value (x := RmManager.openFile "a" 3) (a := ⟨3, .create 4⟩) (by decide +kernel)))
  have flushed := opened.step (.rewrite (File.empty.write 0 8 fun _ => 49)
    (by decide : ¬("db.meta" ≠ "db.meta" ∧ "db.meta" ≠ "db.log")) (show _ = some 0 by decide +kernel) ?unused)
  case unused =>
    intro fd
    change Function.update (Function.update (Function.update (fun _ => none) 3 (some 2)) 3 none) 3 (some 2) fd ≠ some 0
    rw [Function.update_idem, Function.update_idem]
    by_cases same : fd = 3
    · rw [same, Function.update_self]
      decide
    · rw [Function.update_of_ne same]
      nofun
  have inserted := flushed.step (.record (show Tables.handle _ 3 = some (.create 4) by decide +kernel)
    (show _ = some 2 by decide +kernel) (show RecordOp.Addresses _ (.insertRecord fun _ => 7) from trivial)
    (run_of_value (a := .rid ⟨1, 0⟩) (by decide +kernel)))
  have closed := inserted.step (.closeFile (show Tables.handle _ 3 = some onePage by decide +kernel)
    (show _ = some 2 by decide +kernel) (run_of_value (by decide +kernel)))
  have reopened := closed.step (.openFile (by decide : "a" ≠ "db.meta" ∧ "a" ≠ "db.log") (show _ = some 2 by decide +kernel)
    ?reusable
    (run_of_value (x := RmManager.openFile "a" 4) (a := ⟨4, onePage⟩) (by decide +kernel)))
  case reusable =>
    rintro ⟨_, k⟩ f rfl found
    change Function.update (fun _ => none) ⟨3, 1⟩ (some 0) (⟨4, k⟩ : PageId) = some f at found
    rw [Function.update_of_ne (by simp)] at found
    cases found
  have own := (tables_isolated reopened).1 4 onePage 2 (.getRecord ⟨1, 0⟩) (.record (some [7, 7, 7, 7])) _
    (by decide +kernel) (by decide +kernel) ⟨by decide, by decide, by decide⟩ (run_of_value (by decide +kernel))
  obtain ⟨t, own⟩ := own
  obtain ⟨r, call, same⟩ := map_eq_ok.mp own
  cases same
  exact ⟨_, reopened, by decide +kernel, by decide +kernel, value_of_run call⟩

/-- File `b` is opened under the descriptor that file `a` had. Its page 1 is taken
for the page 1 of `a` that is still cached, and `get_record` reads the record of `a`. -/
theorem not_isolated_on_reuse :
    ¬∀ s : Tables 2, Reach (fun _ => True) (fun _ _ _ => True) s → ∀ fd hdr ino rid r t, s.handle fd = some hdr →
      s.disk.os.fds fd = some ino → RecordOp.Addresses hdr (.getRecord rid) →
      RmFileHandle.getRecord rid ⟨⟨fd, hdr⟩, s.pool⟩ = .ok r t →
      ∃ t', RmFileHandle.getRecord rid ⟨⟨fd, hdr⟩, s.own ino⟩ = .ok r t' := by
  intro isolated
  have fresh : Reach (fun _ => True) (fun _ _ _ => True) (_ : Tables 2) := .start (fun _ => 0) noFiles_fresh
  have createA := fresh.step (.createFile (run_of_value (x := RmManager.createFile "a" 4 3 3) (by decide +kernel)))
  have createB := createA.step (.createFile (run_of_value (x := RmManager.createFile "b" 4 3 3) (by decide +kernel)))
  have openA := createB.step (.openFile trivial (show _ = some 0 by decide +kernel) trivial
    (run_of_value (x := RmManager.openFile "a" 3) (a := ⟨3, .create 4⟩) (by decide +kernel)))
  have openB := openA.step (.openFile trivial (show _ = some 1 by decide +kernel) trivial
    (run_of_value (x := RmManager.openFile "b" 4) (a := ⟨4, .create 4⟩) (by decide +kernel)))
  have insertA := openB.step (.record (show Tables.handle _ 3 = some (.create 4) by decide +kernel)
    (show _ = some 0 by decide +kernel) (show RecordOp.Addresses _ (.insertRecord fun _ => 7) from trivial)
    (run_of_value (a := .rid ⟨1, 0⟩) (by decide +kernel)))
  have insertB := insertA.step (.record (show Tables.handle _ 4 = some (.create 4) by decide +kernel)
    (show _ = some 1 by decide +kernel) (show RecordOp.Addresses _ (.insertRecord fun _ => 9) from trivial)
    (run_of_value (a := .rid ⟨1, 0⟩) (by decide +kernel)))
  have closeA := insertB.step (.closeFile (show Tables.handle _ 3 = some onePage by decide +kernel)
    (show _ = some 0 by decide +kernel) (run_of_value (by decide +kernel)))
  have closeB := closeA.step (.closeFile (show Tables.handle _ 4 = some onePage by decide +kernel)
    (show _ = some 1 by decide +kernel) (run_of_value (by decide +kernel)))
  have reused := closeB.step (.openFile trivial (show _ = some 1 by decide +kernel) trivial
    (run_of_value (x := RmManager.openFile "b" 3) (a := ⟨3, onePage⟩) (by decide +kernel)))
  obtain ⟨t, own⟩ := isolated _ reused 3 onePage 1 ⟨1, 0⟩ (some [7, 7, 7, 7]) _ (by decide +kernel) (by decide +kernel)
    ⟨by decide, by decide, by decide⟩ (run_of_value (by decide +kernel))
  exact absurd (value_of_run own) (by decide +kernel)

end Tables

end Rmdb
