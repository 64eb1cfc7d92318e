import Rmdb.Record.Isolation
import Rmdb.Storage.Pins

namespace Rmdb
open RmFile RmFileHandle RmPageHandle BufferPoolManager
variable {N : Nat}

/-- An open table file on a pool: the page counter of its descriptor is the `num_pages` of its header. -/
structure OnPool (x : RmFile (BufferPoolManager N)) : Prop where
  pool : PoolInv x.store
  distinct : x.store.diskManager.Distinct
  counter : x.store.counter x.handle.fd = x.hdr.numPages
  small : x.hdr.numPages ≤ intMax

/-- The table files that any run of a server has open. -/
theorem Tables.Reach.onPool {tables : String → Prop} {s : Tables N}
    (reach : Tables.Reach tables Tables.Reusable s) {fd : Int} {hdr : RmFileHdr} (isOpen : s.handle fd = some hdr) :
    OnPool ⟨⟨fd, hdr⟩, s.pool⟩ := by
  obtain ⟨w, inv⟩ := reach.inv
  obtain ⟨ino, _, file, _, counter⟩ := inv.opened fd hdr isOpen
  have sim := inv.sim
  exact ⟨inv.pool ▸ sim.inv, inv.pool ▸ sim.distinct, counter.trans file.counter, file.pages_le⟩

/-- Inside a call: it has pinned page `p`, in frame `f`, once more than the caller of `x` had. -/
structure Pinned (x y : RmFile (BufferPoolManager N)) (p : PageId) (f : Fin N) : Prop where
  onPool : OnPool y
  mapped : y.store.pageTable p = some f
  nonneg : 0 ≤ x.store.pinsOn p
  pins : y.store.pinsOn = Function.update x.store.pinsOn p (x.store.pinsOn p + 1)

namespace Pinned
variable {x y z : RmFile (BufferPoolManager N)} {p : PageId} {f : Fin N}

/-- A call that ends here leaves the page pinned. -/
theorem leaks (pinned : Pinned x y p f) : y.store.pinsOn ≠ x.store.pinsOn := by
  intro same
  have atP := congrFun pinned.pins p
  rw [same, Function.update_self] at atP
  omega

theorem modify (pinned : Pinned x y p f) (g : Fin N) (d : PageData) :
    Pinned x { y with store := PageStore.setData y.store g d } p f where
  onPool := ⟨pinned.onPool.pool.setData g d, pinned.onPool.distinct, pinned.onPool.counter, pinned.onPool.small⟩
  mapped := pinned.mapped
  nonneg := pinned.nonneg
  pins := (pinsOn_setData g d).trans pinned.pins

theorem setHdr (pinned : Pinned x y p f) {h : RmFileHdr} (same : h.numPages = y.hdr.numPages) :
    Pinned x (y.setHdr h) p f where
  onPool := ⟨pinned.onPool.pool, pinned.onPool.distinct, pinned.onPool.counter.trans same.symm,
    same.symm ▸ pinned.onPool.small⟩
  mapped := pinned.mapped
  nonneg := pinned.nonneg
  pins := pinned.pins

/-- A full page leaves the list of free pages. -/
theorem relink (pinned : Pinned x y p f) (full : Prop) [Decidable full] (k : Int) :
    Pinned x (if full then y.setHdr { y.hdr with firstFreePageNo := k } else y) p f := by
  split
  · exact pinned.setHdr rfl
  · exact pinned

theorem pageId (pinned : Pinned x y p f) : PageStore.pageId y.store f = p := pinned.onPool.pool.idOf pinned.mapped

/-- The release gives back what the call took. -/
theorem release (pinned : Pinned x y p f) {d r : Bool} (run : onStore (PageStore.unpinPage p d) y = .ok r z) :
    OnPool z ∧ z.handle = y.handle ∧ z.store.pinsOn = x.store.pinsOn := by
  obtain ⟨pool, call, rfl⟩ := onStore_ok run
  have call : unpinPage p d y.store = .ok r pool := call
  obtain ⟨released, pins⟩ := unpinPage_pins pinned.onPool.pool call
  have disk := unpinPage_disk call
  have nonneg := pinned.nonneg
  have atP : y.store.pinsOn p = x.store.pinsOn p + 1 := by
    rw [pinned.pins, Function.update_self]
  have success : r = true := released.mpr (by omega)
  refine ⟨⟨pinned.onPool.pool.unpinPage call, ?_, ?_, pinned.onPool.small⟩, rfl, ?_⟩
  · change pool.diskManager.Distinct
    rw [disk]
    exact pinned.onPool.distinct
  · change pool.diskManager.fd2pageno y.handle.fd = _
    rw [disk]
    exact pinned.onPool.counter
  · change pool.pinsOn = _
    rw [pins, if_pos success, atP, pinned.pins, Function.update_idem]
    simp

end Pinned

variable {x y z : RmFile (BufferPoolManager N)}

theorem require_ok {σ : Type} {s t : RmFile σ} {p : Prop} [Decidable p] {u : PUnit} (run : require p s = .ok u t) :
    t = s := by
  unfold require at run
  split at run
  · cases run
    rfl
  · cases run

theorem fetchPageHandle_pins (onPool : OnPool x) {k : Int} {f : Fin N} (run : fetchPageHandle k x = .ok f y) :
    Pinned x y ⟨x.handle.fd, k⟩ f ∧ y.page f = x.store.seen ⟨x.handle.fd, k⟩ ∧ y.handle = x.handle := by
  unfold fetchPageHandle at run
  rw [get_bind] at run
  split at run
  · cases run
  · rename_i below
    obtain ⟨found, u, call, rest⟩ := bind_eq_ok.mp run
    obtain ⟨pool, onPool', rfl⟩ := onStore_ok call
    cases found with
    | none => cases rest
    | some g =>
      cases rest
      have fetched : fetchPage ⟨x.handle.fd, k⟩ x.store = .ok (some f) pool := onPool'
      have admissible : k < x.store.counter x.handle.fd := by
        rw [onPool.counter]
        omega
      obtain ⟨pins, mapped⟩ := fetchPage_pins onPool.pool fetched
      obtain ⟨touched, counters⟩ := fetchPage_touched fetched
      refine ⟨⟨⟨onPool.pool.fetchPage admissible fetched, ?_, ?_, onPool.small⟩, mapped, pinsOn_nonneg onPool.pool _,
        pins⟩,
        fetchPage_seen onPool.pool onPool.distinct fetched, rfl⟩
      · change ∀ fd fd' ino, pool.diskManager.os.fds fd = some ino → pool.diskManager.os.fds fd' = some ino → fd = fd'
        rw [touched.fds]
        exact onPool.distinct
      · change pool.counter x.handle.fd = _
        rw [counters]
        exact onPool.counter

theorem createNewPageHandle_pins (onPool : OnPool x) {f : Fin N} (run : createNewPageHandle x = .ok f y) :
    ∃ p, Pinned x y p f := by
  unfold createNewPageHandle at run
  rw [get_bind] at run
  obtain ⟨made, u, call, rest⟩ := bind_eq_ok.mp run
  obtain ⟨pool, onPool', rfl⟩ := onStore_ok call
  cases made with
  | none => cases rest
  | some made =>
    obtain ⟨p, g⟩ := made
    have created : newPage x.handle.fd x.store = .ok (some (p, g)) pool := onPool'
    obtain ⟨_, u, initialised, rest⟩ := bind_eq_ok.mp rest
    cases initialised
    obtain ⟨_, v, required, rest⟩ := bind_eq_ok.mp rest
    cases rest
    have notMax : x.hdr.numPages ≠ intMax := by
      intro last
      rw [require, if_neg fun h => h last] at required
      cases required
    rw [require, if_pos notMax] at required
    cases required
    obtain ⟨touched, atP, counters⟩ := newPage_touched created
    obtain ⟨pins, mapped⟩ := newPage_pins onPool.pool created
    have small := onPool.small
    have nonneg := onPool.pool.counter_nonneg x.handle.fd
    have next : wrapInt (x.store.counter x.handle.fd + 1) = x.hdr.numPages + 1 := by
      rw [wrapInt_of_isInt, onPool.counter]
      rw [onPool.counter] at nonneg ⊢
      unfold IsInt intMin
      omega
    have monotone : ∀ fd, x.store.counter fd ≤ pool.counter fd := by
      rw [counters]
      refine le_update_succ _ ?_
      rw [next, onPool.counter]
      omega
    have poolInv := onPool.pool.newPage monotone created
    refine ⟨p, ⟨poolInv.setData f _, ?_, ?_, ?_⟩, mapped, pinsOn_nonneg onPool.pool p, (pinsOn_setData f _).trans pins⟩
    · change ∀ fd fd' ino, pool.diskManager.os.fds fd = some ino → pool.diskManager.os.fds fd' = some ino → fd = fd'
      rw [touched.fds]
      exact onPool.distinct
    · change pool.counter x.handle.fd = x.hdr.numPages + 1
      rw [counters, Function.update_self, next]
    · change x.hdr.numPages + 1 ≤ intMax
      omega

theorem createPageHandle_pins (onPool : OnPool x) {f : Fin N} (run : createPageHandle x = .ok f y) :
    ∃ p, Pinned x y p f := by
  unfold createPageHandle at run
  rw [get_bind] at run
  split at run
  · exact createNewPageHandle_pins onPool run
  · exact ⟨_, (fetchPageHandle_pins onPool run).1⟩

/-- The end of a call that changed a page. -/
theorem release_pins {α : Type} {p : PageId} {f : Fin N} {a : α} {g : PageId → α} (pinned : Pinned x y p f)
    (run : (do
      let s ← get
      let _ ← onStore (PageStore.unpinPage (PageStore.pageId s.store f) true)
      return g (PageStore.pageId s.store f) : RmM (BufferPoolManager N) α) y = .ok a z) :
    OnPool z ∧ z.store.pinsOn = x.store.pinsOn := by
  rw [get_bind, pinned.pageId] at run
  obtain ⟨r, u, released, rest⟩ := bind_eq_ok.mp run
  cases rest
  obtain ⟨onPool, _, pins⟩ := pinned.release released
  exact ⟨onPool, pins⟩

namespace RecordOp

/-- The calls that give back every pin they take: insertions and scans always, deletions and updates
of a slot that has a record. -/
def Releases (x : RmFile (BufferPoolManager N)) : RecordOp → Prop
  | .insertRecord _ | .scan | .scanNext _ => True
  | .deleteRecord rid | .updateRecord rid _ =>
    Bitmap.isSet (x.store.seen ⟨x.handle.fd, rid.pageNo⟩) bitmap rid.slotNo = true
  | .getRecord _ | .isRecord _ => False

end RecordOp

theorem isRecord_pins (onPool : OnPool x) {rid : Rid} {b : Bool} (run : isRecord rid x = .ok b y) :
    OnPool y ∧ y.store.pinsOn ≠ x.store.pinsOn := by
  obtain ⟨f, u, fetched, rest⟩ := bind_eq_ok.mp run
  obtain ⟨pinned, _⟩ := fetchPageHandle_pins onPool fetched
  rw [get_bind] at rest
  obtain ⟨_, v, required, rest⟩ := bind_eq_ok.mp rest
  cases rest
  cases require_ok required
  exact ⟨pinned.onPool, pinned.leaks⟩

theorem getRecord_pins (onPool : OnPool x) {rid : Rid} {r : Option RmRecord} (run : getRecord rid x = .ok r y) :
    OnPool y ∧ y.store.pinsOn ≠ x.store.pinsOn := by
  obtain ⟨f, u, fetched, rest⟩ := bind_eq_ok.mp run
  obtain ⟨pinned, _⟩ := fetchPageHandle_pins onPool fetched
  rw [get_bind] at rest
  obtain ⟨_, v, required, rest⟩ := bind_eq_ok.mp rest
  cases require_ok required
  split at rest
  · obtain ⟨_, v, required, rest⟩ := bind_eq_ok.mp rest
    cases rest
    cases require_ok required
    exact ⟨pinned.onPool, pinned.leaks⟩
  · cases rest
    exact ⟨pinned.onPool, pinned.leaks⟩

theorem updateRecord_pins (onPool : OnPool x) {rid : Rid} {buf : Nat → UInt8} {u : PUnit}
    (run : updateRecord rid buf x = .ok u y) :
    OnPool y ∧ (y.store.pinsOn = x.store.pinsOn ↔ RecordOp.Releases x (.updateRecord rid buf)) := by
  obtain ⟨f, v, fetched, rest⟩ := bind_eq_ok.mp run
  obtain ⟨pinned, bytes, _⟩ := fetchPageHandle_pins onPool fetched
  rw [get_bind] at rest
  obtain ⟨_, w, required, rest⟩ := bind_eq_ok.mp rest
  cases require_ok required
  rw [RecordOp.Releases, ← bytes]
  split at rest
  · rename_i marked
    obtain ⟨_, w, required, rest⟩ := bind_eq_ok.mp rest
    cases require_ok required
    obtain ⟨onPool, pins⟩ := release_pins (g := fun _ => PUnit.unit) (pinned.modify f _) rest
    exact ⟨onPool, iff_of_true pins marked⟩
  · rename_i unmarked
    cases rest
    exact ⟨pinned.onPool, iff_of_false pinned.leaks unmarked⟩

theorem releasePageHandle_pins {p : PageId} {f : Fin N} {u : PUnit} (pinned : Pinned x y p f)
    (run : releasePageHandle f y = .ok u z) : Pinned x z p f := by
  cases run
  exact (pinned.modify f _).setHdr rfl

theorem deleteRecord_pins (onPool : OnPool x) {rid : Rid} {u : PUnit} (run : deleteRecord rid x = .ok u y) :
    OnPool y ∧ (y.store.pinsOn = x.store.pinsOn ↔ RecordOp.Releases x (.deleteRecord rid)) := by
  obtain ⟨f, v, fetched, rest⟩ := bind_eq_ok.mp run
  obtain ⟨pinned, bytes, _⟩ := fetchPageHandle_pins onPool fetched
  rw [get_bind] at rest
  obtain ⟨_, w, required, rest⟩ := bind_eq_ok.mp rest
  cases require_ok required
  rw [RecordOp.Releases, ← bytes]
  split at rest
  · rename_i marked
    have dropped := pinned.modify f (dropRecord rid.slotNo (v.page f))
    obtain ⟨_, w, modified, rest⟩ := bind_eq_ok.mp rest
    cases modified
    split at rest
    · obtain ⟨_, w, listed, rest⟩ := bind_eq_ok.mp rest
      obtain ⟨onPool, pins⟩ := release_pins (g := fun _ => PUnit.unit) (releasePageHandle_pins dropped listed) rest
      exact ⟨onPool, iff_of_true pins marked⟩
    · obtain ⟨onPool, pins⟩ := release_pins (g := fun _ => PUnit.unit) dropped rest
      exact ⟨onPool, iff_of_true pins marked⟩
  · rename_i unmarked
    cases rest
    exact ⟨pinned.onPool, iff_of_false pinned.leaks unmarked⟩

theorem insertRecord_pins (onPool : OnPool x) {buf : Nat → UInt8} {rid : Rid} (run : insertRecord buf x = .ok rid y) :
    OnPool y ∧ y.store.pinsOn = x.store.pinsOn := by
  obtain ⟨f, v, fetched, rest⟩ := bind_eq_ok.mp run
  obtain ⟨p, pinned⟩ := createPageHandle_pins onPool fetched
  rw [get_bind] at rest
  obtain ⟨_, w, required, rest⟩ := bind_eq_ok.mp rest
  cases require_ok required
  obtain ⟨_, w, modified, rest⟩ := bind_eq_ok.mp rest
  cases modified
  have placed := pinned.modify f
    (placeRecord v.hdr (Bitmap.firstBit false (v.page f) bitmap v.hdr.numRecordsPerPage) buf (v.page f))
  obtain ⟨_, w, counted, rest⟩ := bind_eq_ok.mp rest
  cases counted
  exact release_pins (g := fun page => Rid.mk page.pageNo _) (placed.relink _ _) rest

theorem nextFrom_pins (onPool : OnPool x) {pages : Nat} {rid : Rid} {scan : RmScan}
    (run : RmScan.nextFrom pages rid x = .ok scan y) : OnPool y ∧ y.store.pinsOn = x.store.pinsOn := by
  induction pages generalizing x rid with
  | zero =>
    cases run
    exact ⟨onPool, rfl⟩
  | succ pages ih =>
    obtain ⟨f, v, fetched, rest⟩ := bind_eq_ok.mp run
    obtain ⟨pinned, _⟩ := fetchPageHandle_pins onPool fetched
    rw [get_bind, pinned.pageId] at rest
    obtain ⟨_, w, released, rest⟩ := bind_eq_ok.mp rest
    obtain ⟨onPool, _, pins⟩ := pinned.release released
    split at rest
    · cases rest
      exact ⟨onPool, pins⟩
    · obtain ⟨onPool, later⟩ := ih onPool rest
      exact ⟨onPool, later.trans pins⟩

/-- What a call does to the pins. -/
theorem RecordOp.run_pins (onPool : OnPool x) {op : RecordOp} {r : RecordReply} (run : op.run x = .ok r y) :
    OnPool y ∧ (y.store.pinsOn = x.store.pinsOn ↔ op.Releases x) := by
  cases op with
  | getRecord rid =>
    obtain ⟨_, call, _⟩ := map_eq_ok.mp run
    obtain ⟨onPool, leaks⟩ := getRecord_pins onPool call
    exact ⟨onPool, iff_of_false leaks id⟩
  | isRecord rid =>
    obtain ⟨_, call, _⟩ := map_eq_ok.mp run
    obtain ⟨onPool, leaks⟩ := isRecord_pins onPool call
    exact ⟨onPool, iff_of_false leaks id⟩
  | insertRecord buf =>
    obtain ⟨_, call, _⟩ := map_eq_ok.mp run
    obtain ⟨onPool, pins⟩ := insertRecord_pins onPool call
    exact ⟨onPool, iff_of_true pins trivial⟩
  | deleteRecord rid =>
    obtain ⟨_, call, _⟩ := map_eq_ok.mp run
    exact deleteRecord_pins onPool call
  | updateRecord rid buf =>
    obtain ⟨_, call, _⟩ := map_eq_ok.mp run
    exact updateRecord_pins onPool call
  | scan =>
    obtain ⟨_, call, _⟩ := map_eq_ok.mp run
    obtain ⟨onPool, pins⟩ := nextFrom_pins onPool call
    exact ⟨onPool, iff_of_true pins trivial⟩
  | scanNext position =>
    obtain ⟨_, call, _⟩ := map_eq_ok.mp run
    obtain ⟨onPool, pins⟩ := nextFrom_pins onPool call
    exact ⟨onPool, iff_of_true pins trivial⟩

/-- Any number of calls that return, each of which gives back its pins. -/
inductive Releasing (x : RmFile (BufferPoolManager N)) : RmFile (BufferPoolManager N) → Prop
  | start : Releasing x x
  | call {y z : RmFile (BufferPoolManager N)} {op : RecordOp} {r : RecordReply} : Releasing x y → op.Releases y →
      op.run y = .ok r z → Releasing x z

theorem Releasing.pins (onPool : OnPool x) (run : Releasing x y) : OnPool y ∧ y.store.pinsOn = x.store.pinsOn := by
  induction run with
  | start => exact ⟨onPool, rfl⟩
  | call _ releases call ih =>
    obtain ⟨sound, effect⟩ := RecordOp.run_pins ih.1 call
    exact ⟨sound, (effect.mpr releases).trans ih.2⟩

/-- A frame whose page has no pins can be evicted. -/
theorem evictable_of_unpinned (inv : PoolInv x.store) (unpinned : ∀ p, x.store.pinsOn p = 0) (f : Fin N) :
    f ∈ x.store.freeList ∨ f ∈ x.store.replacer.frames := by
  by_cases free : f ∈ x.store.freeList
  · exact Or.inl free
  · refine Or.inr (inv.evictable f free ?_)
    rw [← pinsOn_some (inv.mapped free)]
    exact unpinned _

/-- A call leaves the pins as they were exactly if it is an insertion, a scan, or a deletion or update
of a record that is there; a run of such calls leaves every frame evictable that was so. -/
theorem pins_balanced_iff (onPool : OnPool x) (run : Releasing x y) :
    (∀ p, y.store.pinsOn p = x.store.pinsOn p) ∧
      ((∀ p, x.store.pinsOn p = 0) → ∀ f, f ∈ y.store.freeList ∨ f ∈ y.store.replacer.frames) ∧
      ∀ (op : RecordOp) r z, op.run y = .ok r z → ((∀ p, z.store.pinsOn p = y.store.pinsOn p) ↔ op.Releases y) := by
  obtain ⟨sound, pins⟩ := run.pins onPool
  refine ⟨congrFun pins, fun unpinned f => ?_, fun op r z call => ?_⟩
  · refine evictable_of_unpinned sound.pool (fun p => ?_) f
    rw [pins]
    exact unpinned p
  · rw [← (RecordOp.run_pins sound call).2]
    exact funext_iff.symm

/-- A pool with nothing cached, after a table file was created. -/
def createdPool : BufferPoolManager 2 := stateAfter (RmManager.createFile "a" 4 3 3) (.new Tables.noFiles fun _ => 0)

/-- The file, opened. -/
def openedFile : RmFile (BufferPoolManager 2) := ⟨⟨3, .create 4⟩, stateAfter (RmManager.openFile "a" 3) createdPool⟩

theorem openedFile_onPool : OnPool openedFile ∧ ∀ p, openedFile.store.pinsOn p = 0 := by
  have fresh : Tables.Reach (fun _ => True) Tables.Reusable (_ : Tables 2) := .start (fun _ => 0) Tables.noFiles_fresh
  have created : RmManager.createFile "a" 4 3 3 (.new Tables.noFiles fun _ => 0) = .ok () createdPool :=
    run_of_value (by decide +kernel)
  have opened : RmManager.openFile "a" 3 createdPool = .ok openedFile.handle openedFile.store :=
    run_of_value (by decide +kernel)
  have reach := (fresh.step (.createFile created)).step (.openFile trivial (show _ = some 0 by decide +kernel)
    (fun _ _ _ found => nomatch found) opened)
  refine ⟨reach.onPool (by decide +kernel), fun p => pinsOn_none ?_⟩
  obtain ⟨_, _, _, before, _⟩ := RmManager.createFile_pool Tables.noFiles_con created
  obtain ⟨_, _, _, _, _, _, _, _, _, _, after⟩ := RmManager.openFile_pool opened
  rw [after, before]
  rfl

/-- After an insertion into the new file every frame can be evicted. -/
theorem pins_balanced_insert : ∃ y, Releasing openedFile y ∧ value (getRecord ⟨1, 0⟩) y = some (some [7, 7, 7, 7]) ∧
    ∀ f, f ∈ y.store.freeList ∨ f ∈ y.store.replacer.frames := by
  have inserted : RecordOp.run (.insertRecord fun _ => 7) openedFile =
      .ok (.rid ⟨1, 0⟩) (stateAfter (RecordOp.run (.insertRecord fun _ => 7)) openedFile) :=
        run_of_value (by decide +kernel)
  have run : Releasing openedFile _ := .call .start
    (show RecordOp.Releases openedFile (.insertRecord fun _ => 7) from trivial) inserted
  obtain ⟨onPool, unpinned⟩ := openedFile_onPool
  exact ⟨_, run, by decide +kernel, (pins_balanced_iff onPool run).2.1 unpinned⟩

/-- `get_record` leaves its page pinned. -/
theorem getRecord_unbalanced : ¬∀ (x y : RmFile (BufferPoolManager 2)) (op : RecordOp) (r : RecordReply), OnPool x →
    op.run x = .ok r y → ∀ p, y.store.pinsOn p = x.store.pinsOn p := by
  intro balanced
  have inserted : insertRecord (fun _ => 7) openedFile = .ok ⟨1, 0⟩ (stateAfter (insertRecord fun _ => 7) openedFile) :=
    run_of_value (by decide +kernel)
  obtain ⟨onPool, _⟩ := insertRecord_pins openedFile_onPool.1 inserted
  have read := run_of_value (x := RecordOp.run (.getRecord ⟨1, 0⟩))
    (s := stateAfter (insertRecord fun _ => 7) openedFile)
    (a := .record (some [7, 7, 7, 7])) (by decide +kernel)
  exact (RecordOp.run_pins onPool read).2.mp (funext (balanced _ _ _ _ onPool read))

end Rmdb
