import Rmdb.Kit.Moves
import Rmdb.Record.FileNames

namespace Rmdb
open BufferPoolManager DiskManager RmFile
variable {N : Nat}

/-! What every call leaves of the files, also one that an I/O error ends. -/

namespace DiskManager
variable {dm dm' dm'' : DiskManager} {removed : String → Prop} {path : String} {fd : Int}
  {permitted : Bool}

/-- Files only become longer, and of the names only some are removed. -/
structure Kept (removed : String → Prop) (dm dm' : DiskManager) : Prop where
  nextInode : dm.os.nextInode ≤ dm'.os.nextInode
  longer : ∀ ino < dm.os.nextInode, (dm.os.file ino).len ≤ (dm'.os.file ino).len
  names : ∀ path ino, ¬removed path → dm.os.inode path = some ino → dm'.os.inode path = some ino

namespace Kept

theorem refl (removed : String → Prop) (dm : DiskManager) : Kept removed dm dm :=
  ⟨le_rfl, fun _ _ => le_rfl, fun _ _ _ named => named⟩

theorem trans (first : Kept removed dm dm') (second : Kept removed dm' dm'') : Kept removed dm dm'' where
  nextInode := first.nextInode.trans second.nextInode
  longer ino old := (first.longer ino old).trans (second.longer ino (old.trans_le first.nextInode))
  names path ino stays named := second.names path ino stays (first.names path ino stays named)

/-- A change of the tables of the manager and of the descriptors. -/
theorem of_same (nextInode : dm'.os.nextInode = dm.os.nextInode) (file : dm'.os.file = dm.os.file)
    (inode : dm'.os.inode = dm.os.inode) : Kept removed dm dm' := by
  refine ⟨nextInode.ge, fun ino _ => ?_, fun path ino _ named => ?_⟩
  · rw [file]
  · rw [inode]
    exact named

theorem writePage {pageNo : Int} {src : Nat → UInt8} {n : Nat} {e : Option Error}
    (run : dm.writePage fd pageNo src n = (dm', e)) : Kept removed dm dm' := by
  obtain rfl | ⟨ino, k, _, _, _, rfl⟩ := writePage_effect run
  · exact .refl removed dm'
  · refine ⟨le_rfl, fun other _ => ?_, fun _ _ _ named => named⟩
    by_cases same : other = ino
    · subst same
      simp only [setFile, Function.update_self, File.write]
      split
      · exact le_rfl
      · exact le_max_left _ _
    · simp only [setFile, Function.update_of_ne same, le_refl]

theorem createFile (run : dm.createFile path fd = .ok dm') : Kept removed dm dm' := by
  obtain ⟨missing, rfl⟩ := createFile_ok run
  refine ⟨Nat.le_succ _, fun ino old => ?_, fun other ino _ named => ?_⟩
  · simp only [Function.update_of_ne old.ne, le_refl]
  · have different : other ≠ path := by
      rintro rfl
      rw [missing] at named
      cases named
    exact (Function.update_of_ne different ..).trans named

theorem openFile {out : Int} (run : dm.openFile path fd = .ok (out, dm')) : Kept removed dm dm' := by
  obtain ⟨_, _, _, _, _, _, rfl⟩ := openFile_ok run
  exact of_same rfl rfl rfl

theorem closeFile (run : dm.closeFile fd = .ok dm') : Kept removed dm dm' := by
  obtain ⟨_, _, _, _, rfl⟩ := closeFile_ok run
  exact of_same rfl rfl rfl

theorem destroyFile (run : dm.destroyFile path permitted = .ok dm') : Kept (· = path) dm dm' := by
  obtain ⟨_, rfl⟩ := destroyFile_ok run
  exact ⟨le_rfl, fun _ _ => le_rfl, fun other ino stays named => (Function.update_of_ne stays ..).trans named⟩

theorem mono {more : String → Prop} (kept : Kept removed dm dm') (implies : ∀ path, removed path → more path) :
    Kept more dm dm' :=
  ⟨kept.nextInode, kept.longer, fun path ino stays => kept.names path ino (mt (implies path) stays)⟩

end Kept

/-- A name under which there is a file with a whole header. -/
def HasHeader (os : Os) (inode : String → Option Nat) (path : String) : Prop :=
  ∃ ino, inode path = some ino ∧ ino < os.nextInode ∧ RmFileHdr.size ≤ (os.file ino).len

/-- Such a name of another directory. -/
theorem HasHeader.elsewhere {inode : String → Option Nat} (has : HasHeader dm.os inode path)
    (kept : Kept removed dm dm') : HasHeader dm'.os inode path := by
  obtain ⟨ino, named, old, whole⟩ := has
  exact ⟨ino, named, old.trans_le kept.nextInode, whole.trans (kept.longer ino old)⟩

theorem HasHeader.kept (has : HasHeader dm.os dm.os.inode path) (kept : Kept removed dm dm') (stays : ¬removed path) :
    HasHeader dm'.os dm'.os.inode path := by
  obtain ⟨ino, named, old, whole⟩ := has
  exact ⟨ino, kept.names path ino stays named, old.trans_le kept.nextInode, whole.trans (kept.longer ino old)⟩

end DiskManager

/-- What holds of a pool before and after a call. -/
abbrev PoolKept (s t : BufferPoolManager N) : Prop := Kept (fun _ => False) s.diskManager t.diskManager

instance : IsPreorder (BufferPoolManager N) PoolKept where
  refl s := .refl _ s.diskManager
  trans _ _ _ := .trans

namespace BufferPoolManager

theorem writeFrame_moves (p : PageId) (f : Fin N) : Moves PoolKept (writeFrame p f) := by
  refine .of_results (fun s _ t run => ?_) fun s e t run => ?_
  · unfold writeFrame at run
    split at run
    · rename_i wrote
      cases run
      exact Kept.writePage wrote
    · cases run
  · obtain ⟨dm, wrote, rfl⟩ := writeFrame_fails run
    exact Kept.writePage wrote

theorem writeBack_moves (p : PageId) (f : Fin N) : Moves PoolKept (writeBack p f) := by
  intro s
  unfold writeBack stateAfter
  by_cases dirty : (s.pages f).isDirty = true
  · simp only [if_pos dirty]
    exact writeFrame_moves p f s
  · simp only [if_neg dirty]
    exact .refl _ _

theorem evict_moves (f : Fin N) : Moves PoolKept (evict f) := by
  refine Moves.get.bind fun s => (writeBack_moves _ f).bind fun _ => Moves.modify fun t => ?_
  split <;> exact .refl _ _

theorem findVictimPage_moves : Moves PoolKept (findVictimPage : PoolM N _) := by
  refine .of_results (fun s f t run => ?_) fun s e t run => ?_
  · unfold findVictimPage at run
    split at run <;> cases run <;> exact .refl _ _
  · unfold findVictimPage at run
    split at run <;> cases run

theorem readFrame_moves (p : PageId) (f : Fin N) : Moves PoolKept (readFrame p f) := by
  refine .of_results (fun s _ t run => ?_) fun s e t run => ?_
  · unfold readFrame at run
    split at run
    · cases run
      exact .refl _ _
    · cases run
  · unfold readFrame at run
    split at run
    · cases run
    · cases run
      exact .refl _ _

theorem fetchPage_moves (p : PageId) : Moves PoolKept (fetchPage p : PoolM N _) := by
  refine Moves.get.bind fun s => ?_
  split
  · split
    · exact Moves.throw _
    · exact (Moves.modify fun t => .refl _ _).bind fun _ => Moves.pure _
  · refine findVictimPage_moves.bind fun r => ?_
    cases r with
    | none => exact Moves.pure _
    | some f =>
      refine (evict_moves f).bind fun _ => (readFrame_moves p f).bind fun _ => ?_
      exact (Moves.modify fun t => .refl _ _).bind fun _ => Moves.pure _

theorem newPage_moves (fd : Int) : Moves PoolKept (newPage fd : PoolM N _) := by
  refine findVictimPage_moves.bind fun r => ?_
  cases r with
  | none => exact Moves.pure _
  | some f =>
    refine (evict_moves f).bind fun _ => ?_
    intro s
    rw [stateAfter, get_bind]
    cases allocated : s.diskManager.allocatePage fd with
    | error e => exact .refl _ _
    | ok result =>
      obtain ⟨pageNo, dm⟩ := result
      unfold DiskManager.allocatePage at allocated
      split at allocated
      · cases allocated
        exact Kept.of_same rfl rfl rfl
      · cases allocated

theorem unpinPage_moves (p : PageId) (d : Bool) : Moves PoolKept (unpinPage p d : PoolM N _) := by
  refine .of_results (fun s r t run => ?_) fun s e t run => ?_
  · unfold PoolKept
    rw [unpinPage_disk run]
    exact .refl _ _
  · unfold unpinPage at run
    split at run
    · cases run
    · dsimp only at run
      split at run <;> cases run

theorem flushAllPages_moves (fd : Int) : Moves PoolKept (flushAllPages fd : PoolM N Unit) := by
  unfold flushAllPages
  induction List.finRange N with
  | nil => exact Moves.pure _
  | cons f rest ih =>
    refine Moves.bind (fun s => ?_) fun _ => ih
    unfold flushFrame stateAfter
    by_cases here : (s.pages f).id.fd = fd ∧ (s.pages f).id.pageNo ≠ INVALID_PAGE_ID
    · simp only [if_pos here]
      exact writeFrame_moves _ f s
    · simp only [if_neg here]
      exact .refl _ _

/-! The calls on the disk below the pool. -/

theorem writePage_moves (fd pageNo : Int) (src : Nat → UInt8) (n : Nat) :
    Moves PoolKept (PageStore.writePage fd pageNo src n : PoolM N Unit) := by
  refine .of_results (fun s _ t run => ?_) fun s e t run => ?_
  · obtain ⟨dm, wrote, rfl⟩ := writePage_ok run
    exact Kept.writePage wrote
  · simp only [PageStore.writePage] at run
    split at run
    · cases run
    · rename_i wrote
      cases run
      exact Kept.writePage wrote

theorem readPage_moves (fd pageNo : Int) (n : Nat) :
    Moves PoolKept (PageStore.readPage fd pageNo n : PoolM N _) := by
  refine .of_results (fun s _ t run => ?_) fun s e t run => ?_
  · obtain ⟨_, _, _, rfl⟩ := readPage_ok run
    exact .refl _ _
  · simp only [PageStore.readPage] at run
    split at run
    · cases run
    · cases run
      exact .refl _ _

theorem createFile_moves (path : String) (fd : Int) :
    Moves PoolKept (PageStore.createFile path fd : PoolM N Unit) := by
  refine .of_results (fun s _ t run => ?_) fun s e t run => ?_
  · obtain ⟨dm, created, rfl⟩ := createFile_ok run
    exact Kept.createFile created
  · simp only [PageStore.createFile] at run
    split at run
    · cases run
    · cases run
      exact .refl _ _

theorem openFile_moves (path : String) (fd : Int) :
    Moves PoolKept (PageStore.openFile path fd : PoolM N Int) := by
  refine .of_results (fun s _ t run => ?_) fun s e t run => ?_
  · obtain ⟨dm, opened, rfl⟩ := openFile_ok run
    exact Kept.openFile opened
  · simp only [PageStore.openFile] at run
    split at run
    · cases run
    · cases run
      exact .refl _ _

theorem closeFile_moves (fd : Int) : Moves PoolKept (PageStore.closeFile fd : PoolM N Unit) := by
  refine .of_results (fun s _ t run => ?_) fun s e t run => ?_
  · obtain ⟨dm, closed, rfl⟩ := closeFile_ok run
    exact Kept.closeFile closed
  · simp only [PageStore.closeFile] at run
    split at run
    · cases run
    · cases run
      exact .refl _ _

end BufferPoolManager

/-- What holds of a handle and its pool before and after a record operation. -/
abbrev FileKept (s t : RmFile (BufferPoolManager N)) : Prop := PoolKept s.store t.store

instance : IsPreorder (RmFile (BufferPoolManager N)) FileKept where
  refl s := .refl _ s.store.diskManager
  trans _ _ _ := .trans

namespace RmFileHandle
variable {α : Type}

theorem onStore_moves {x : PoolM N α} (moves : Moves PoolKept x) : Moves FileKept (onStore x) := by
  refine .of_results (fun s a t run => ?_) fun s e t run => ?_
  · unfold onStore at run
    split at run
    · rename_i inner
      cases run
      exact moves.ok inner
    · cases run
  · unfold onStore at run
    split at run
    · cases run
    · rename_i inner
      cases run
      exact moves.error inner

theorem modifyPage_moves (f : Fin N) (g : PageData → PageData) :
    Moves FileKept (modifyPage f g : RmM (BufferPoolManager N) PUnit) :=
  Moves.modify fun s => .refl _ s.store.diskManager

theorem setHdr_moves (h : RmFile (BufferPoolManager N) → RmFileHdr) :
    Moves FileKept (modify fun s => s.setHdr (h s) : RmM (BufferPoolManager N) PUnit) :=
  Moves.modify fun s => .refl _ s.store.diskManager

theorem require_moves (p : Prop) [Decidable p] :
    Moves FileKept (require p : RmM (BufferPoolManager N) PUnit) := by
  unfold require
  split
  · exact Moves.pure _
  · exact Moves.throw _

theorem fetchPageHandle_moves (pageNo : Int) :
    Moves FileKept (fetchPageHandle pageNo : RmM (BufferPoolManager N) _) := by
  refine Moves.get.bind fun s => ?_
  split
  · exact Moves.throw _
  · refine (onStore_moves (fetchPage_moves _)).bind fun r => ?_
    cases r with
    | none => exact Moves.throw _
    | some f => exact Moves.pure f

theorem createNewPageHandle_moves : Moves FileKept (createNewPageHandle : RmM (BufferPoolManager N) _) := by
  refine Moves.get.bind fun s => (onStore_moves (newPage_moves _)).bind fun r => ?_
  cases r with
  | none => exact Moves.throw _
  | some made =>
    obtain ⟨_, f⟩ := made
    refine (modifyPage_moves f _).bind fun _ => (require_moves _).bind fun _ => ?_
    exact (setHdr_moves _).bind fun _ => Moves.pure f

theorem createPageHandle_moves : Moves FileKept (createPageHandle : RmM (BufferPoolManager N) _) := by
  refine Moves.get.bind fun s => ?_
  split
  · exact createNewPageHandle_moves
  · exact fetchPageHandle_moves _

theorem releasePageHandle_moves (f : Fin N) :
    Moves FileKept (releasePageHandle f : RmM (BufferPoolManager N) _) :=
  Moves.get.bind fun _ => (modifyPage_moves f _).bind fun _ => setHdr_moves _

theorem unpin_moves (p : PageId) (d : Bool) :
    Moves FileKept (onStore (PageStore.unpinPage p d) : RmM (BufferPoolManager N) Bool) :=
  onStore_moves (unpinPage_moves p d)

theorem isRecord_moves (rid : Rid) : Moves FileKept (isRecord rid : RmM (BufferPoolManager N) _) :=
  (fetchPageHandle_moves _).bind fun _ => Moves.get.bind fun _ => (require_moves _).bind fun _ => Moves.pure _

theorem getRecord_moves (rid : Rid) : Moves FileKept (getRecord rid : RmM (BufferPoolManager N) _) := by
  refine (fetchPageHandle_moves _).bind fun f => Moves.get.bind fun s => (require_moves _).bind fun _ => ?_
  split
  · exact (require_moves _).bind fun _ => Moves.pure _
  · exact Moves.pure _

theorem insertRecord_moves (buf : Nat → UInt8) :
    Moves FileKept (insertRecord buf : RmM (BufferPoolManager N) _) := by
  refine createPageHandle_moves.bind fun f => Moves.get.bind fun s => (require_moves _).bind fun _ => ?_
  refine (modifyPage_moves f _).bind fun _ => (Moves.modify fun t => ?_).bind fun _ => Moves.get.bind fun t => ?_
  · split <;> exact .refl _ t.store.diskManager
  · exact (unpin_moves _ true).bind fun _ => Moves.pure _

theorem deleteRecord_moves (rid : Rid) : Moves FileKept (deleteRecord rid : RmM (BufferPoolManager N) _) := by
  refine (fetchPageHandle_moves _).bind fun f => Moves.get.bind fun s => (require_moves _).bind fun _ => ?_
  split
  · refine (modifyPage_moves f _).bind fun _ => ?_
    split
    · refine (releasePageHandle_moves f).bind fun _ => Moves.get.bind fun t => ?_
      exact (unpin_moves _ true).bind fun _ => Moves.pure _
    · exact Moves.get.bind fun t => (unpin_moves _ true).bind fun _ => Moves.pure _
  · exact Moves.pure _

theorem updateRecord_moves (rid : Rid) (buf : Nat → UInt8) :
    Moves FileKept (updateRecord rid buf : RmM (BufferPoolManager N) _) := by
  refine (fetchPageHandle_moves _).bind fun f => Moves.get.bind fun s => (require_moves _).bind fun _ => ?_
  split
  · refine (require_moves _).bind fun _ => (modifyPage_moves f _).bind fun _ => Moves.get.bind fun t => ?_
    exact (unpin_moves _ true).bind fun _ => Moves.pure _
  · exact Moves.pure _

end RmFileHandle

namespace RmScan
open RmFileHandle

theorem nextFrom_moves (pages : Nat) (rid : Rid) :
    Moves FileKept (nextFrom pages rid : RmM (BufferPoolManager N) _) := by
  induction pages generalizing rid with
  | zero => exact Moves.pure _
  | succ pages ih =>
    refine (fetchPageHandle_moves _).bind fun f => Moves.get.bind fun s => (unpin_moves _ false).bind fun _ => ?_
    split
    · exact Moves.pure _
    · exact ih _

theorem next_moves (scan : RmScan) : Moves FileKept (scan.next : RmM (BufferPoolManager N) _) :=
  Moves.get.bind fun _ => nextFrom_moves _ _

end RmScan

/-- The operations on records leave all files under their names. -/
theorem RecordOp.run_moves (op : RecordOp) :
    Moves FileKept (op.run : RmM (BufferPoolManager N) RecordReply) := by
  cases op with
  | getRecord rid => exact (RmFileHandle.getRecord_moves rid).map
  | isRecord rid => exact (RmFileHandle.isRecord_moves rid).map
  | insertRecord buf => exact (RmFileHandle.insertRecord_moves buf).map
  | deleteRecord rid => exact (RmFileHandle.deleteRecord_moves rid).map
  | updateRecord rid buf => exact (RmFileHandle.updateRecord_moves rid buf).map
  | scan => exact (RmScan.next_moves _).map
  | scanNext position => exact (RmScan.next_moves position).map

namespace RmManager

theorem createFile_moves (filename : String) (recordSize made fd : Int) :
    Moves PoolKept (createFile filename recordSize made fd : PoolM N Unit) := by
  unfold createFile
  split
  · exact Moves.throw _
  · refine (BufferPoolManager.createFile_moves _ _).bind fun _ => (BufferPoolManager.openFile_moves _ _).bind fun _ => ?_
    exact (writePage_moves _ _ _ _).bind fun _ => BufferPoolManager.closeFile_moves _

theorem openFile_moves (filename : String) (fd : Int) :
    Moves PoolKept (openFile filename fd : PoolM N RmFileHandle) := by
  refine (BufferPoolManager.openFile_moves _ _).bind fun out => (readPage_moves _ _ _).bind fun src => ?_
  have counted : Moves PoolKept
      (modify (PageStore.setFd2pageno out (RmFileHdr.ofBytes src).numPages) : PoolM N PUnit) :=
    Moves.modify fun s => Kept.of_same rfl rfl rfl
  exact counted.bind fun _ => Moves.pure _

theorem closeFile_moves (h : RmFileHandle) : Moves PoolKept (closeFile h : PoolM N Unit) :=
  (writePage_moves _ _ _ _).bind fun _ => (flushAllPages_moves _).bind fun _ => BufferPoolManager.closeFile_moves _

theorem destroyFile_moves (filename : String) (permitted : Bool) :
    Moves (fun s t => Kept (· = filename) s.diskManager t.diskManager) (destroyFile filename permitted : PoolM N Unit) := by
  refine .of_results (fun s _ t run => ?_) fun s e t run => ?_
  · unfold destroyFile at run
    split at run
    · rename_i gone
      cases run
      exact Kept.destroyFile gone
    · cases run
  · unfold destroyFile at run
    split at run
    · cases run
    · cases run
      exact .refl _ _

/-- A file that was created has its header. -/
theorem createFile_header {s t : BufferPoolManager N} {filename : String} {recordSize made fd : Int}
    (run : createFile filename recordSize made fd s = .ok () t) :
    HasHeader t.diskManager.os t.diskManager.os.inode filename := by
  unfold createFile at run
  split at run
  · cases run
  · obtain ⟨_, one, create, run⟩ := bind_eq_ok.mp run
    obtain ⟨out, two, opening, run⟩ := bind_eq_ok.mp run
    obtain ⟨_, three, write, closing⟩ := bind_eq_ok.mp run
    obtain ⟨dm₁, created, rfl⟩ := BufferPoolManager.createFile_ok create
    obtain ⟨dm₂, opened, rfl⟩ := BufferPoolManager.openFile_ok opening
    obtain ⟨dm₃, wrote, rfl⟩ := BufferPoolManager.writePage_ok write
    refine HasHeader.kept ?_ ((BufferPoolManager.closeFile_moves _).ok closing) not_false
    obtain ⟨_, rfl⟩ := DiskManager.createFile_ok created
    obtain ⟨ino, named, _, _, _, rfl, rfl⟩ := DiskManager.openFile_ok opened
    obtain ⟨ino', atFd, _, rfl⟩ := DiskManager.writePage_ok wrote
    simp only [Function.update_self, Option.some.injEq] at named atFd
    subst named atFd
    refine ⟨_, Function.update_self .., Nat.lt_succ_self _, ?_⟩
    simp only [setFile, Function.update_self, File.write]
    split
    · rename_i none
      exact absurd none (by decide)
    · exact (Nat.le_add_left _ _).trans (le_max_right _ _)

end RmManager

end Rmdb
