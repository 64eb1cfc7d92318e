import Rmdb.Storage.Frames

namespace Rmdb.BufferPoolManager
variable {N : Nat}

/-- The representation invariant. Four structures describe the frames: the page
table, the free list, the replacer and the metadata of each frame. -/
structure RepInv (s : BufferPoolManager N) : Prop where
  injective : ∀ p q f, s.pageTable p = some f → s.pageTable q = some f → p = q
  table_iff : ∀ p f, s.pageTable p = some f ↔ (s.pages f).id = p ∧ p.pageNo ≠ INVALID_PAGE_ID
  free_or_mapped : ∀ f,
    (s.freeList.count f = 1 ∧ (∀ p, s.pageTable p ≠ some f) ∧ (s.pages f).pinCount = 0 ∧
        (s.pages f).isDirty = false) ∨
      (f ∉ s.freeList ∧ ∃! p, s.pageTable p = some f)
  pin_nonneg : ∀ f, 0 ≤ (s.pages f).pinCount
  pinned : ∀ f, 0 < (s.pages f).pinCount → f ∉ s.freeList ∧ f ∉ s.replacer.frames
  evictable : ∀ p f, s.pageTable p = some f → (s.pages f).pinCount = 0 → f ∈ s.replacer.frames

/-- The inductive form. A frame is free exactly when its page number is invalid; a
free frame may still be listed in the replacer, since `delete_page` leaves it
there. The counters keep new page ids apart from the cached ones. -/
structure PoolInv (s : BufferPoolManager N) : Prop where
  wf : s.replacer.WF
  capacity : s.replacer.maxSize = N
  table_iff : ∀ p f, s.pageTable p = some f ↔ (s.pages f).id = p ∧ p.pageNo ≠ INVALID_PAGE_ID
  free_nodup : s.freeList.Nodup
  free_iff : ∀ f, f ∈ s.freeList ↔ (s.pages f).id.pageNo = INVALID_PAGE_ID
  free_clean : ∀ f, f ∈ s.freeList → (s.pages f).pinCount = 0 ∧ (s.pages f).isDirty = false
  pin_nonneg : ∀ f, 0 ≤ (s.pages f).pinCount
  pinned_unlisted : ∀ f, 0 < (s.pages f).pinCount → f ∉ s.replacer.frames
  evictable : ∀ f, f ∉ s.freeList → (s.pages f).pinCount = 0 → f ∈ s.replacer.frames
  counted : ∀ f, f ∉ s.freeList → (s.pages f).id.pageNo < s.counter (s.pages f).id.fd
  counter_nonneg : ∀ fd, 0 ≤ s.counter fd

namespace PoolInv
variable {s t : BufferPoolManager N}

/-- No frame is spare. -/
theorem frameInv (inv : PoolInv s) : FrameInv (fun _ => False) s where
  wf := inv.wf
  capacity := inv.capacity
  table_iff := inv.table_iff
  free_nodup := inv.free_nodup
  free_unused f free := (inv.free_iff f).mp free
  clean f invalid := inv.free_clean f ((inv.free_iff f).mpr invalid)
  unused f invalid := Or.inl ((inv.free_iff f).mpr invalid)
  pin_nonneg := inv.pin_nonneg
  pinned_unlisted := inv.pinned_unlisted
  evictable f valid := inv.evictable f fun free => valid ((inv.free_iff f).mp free)
  counted f valid := inv.counted f fun free => valid ((inv.free_iff f).mp free)
  counter_nonneg := inv.counter_nonneg

theorem of_frameInv (inv : FrameInv (fun _ => False) s) : PoolInv s where
  wf := inv.wf
  capacity := inv.capacity
  table_iff := inv.table_iff
  free_nodup := inv.free_nodup
  free_iff f := ⟨inv.free_unused f, fun invalid => (inv.unused f invalid).resolve_right fun spare => spare.1⟩
  free_clean f free := inv.clean f (inv.free_unused f free)
  pin_nonneg := inv.pin_nonneg
  pinned_unlisted := inv.pinned_unlisted
  evictable f used := inv.evictable f fun invalid => used ((inv.unused f invalid).resolve_right fun spare => spare.1)
  counted f used := inv.counted f fun invalid => used ((inv.unused f invalid).resolve_right fun spare => spare.1)
  counter_nonneg := inv.counter_nonneg

theorem idOf (inv : PoolInv s) {p : PageId} {f : Fin N} (found : s.pageTable p = some f) : (s.pages f).id = p :=
  inv.frameInv.idOf found

theorem mapped_not_free (inv : PoolInv s) {p : PageId} {f : Fin N} (found : s.pageTable p = some f) : f ∉ s.freeList :=
  fun free => inv.frameInv.valid found ((inv.free_iff f).mp free)

theorem mapped (inv : PoolInv s) {f : Fin N} (used : f ∉ s.freeList) : s.pageTable (s.pages f).id = some f :=
  (inv.table_iff _ f).mpr ⟨rfl, fun invalid => used ((inv.free_iff f).mpr invalid)⟩

theorem tableInv (inv : PoolInv s) : TableInv s := inv.frameInv.tableInv

theorem valid_mapped (inv : PoolInv s) {f : Fin N} (valid : (s.pages f).id.pageNo ≠ INVALID_PAGE_ID) :
    s.pageTable (s.pages f).id = some f := (inv.table_iff _ f).mpr ⟨rfl, valid⟩

theorem victim_unpinned (inv : PoolInv s) {f : Fin N} {rest : List (Fin N)} {r : LRUReplacer (Fin N)}
    (victim : Victim s f rest r) : (s.pages f).pinCount = 0 := inv.frameInv.victim_unpinned victim

theorem unmap_iff (inv : PoolInv s) {f g : Fin N} {q : PageId} :
    s.unmap f q = some g ↔ s.pageTable q = some g ∧ g ≠ f := inv.frameInv.unmap_iff

theorem counter_missing (inv : PoolInv s) (fd : Int) : s.pageTable ⟨fd, s.counter fd⟩ = none :=
  inv.frameInv.counter_missing fd

theorem repInv (inv : PoolInv s) : RepInv s where
  injective p q f atP atQ := (inv.idOf atP).symm.trans (inv.idOf atQ)
  table_iff := inv.table_iff
  free_or_mapped f := by
    by_cases free : f ∈ s.freeList
    · refine Or.inl ⟨List.count_eq_one_of_mem inv.free_nodup free, ?_, inv.free_clean f free⟩
      exact fun p found => inv.mapped_not_free found free
    · refine Or.inr ⟨free, (s.pages f).id, inv.mapped free, ?_⟩
      exact fun p found => (inv.idOf found).symm
  pin_nonneg := inv.pin_nonneg
  pinned f held := by
    refine ⟨fun free => ?_, inv.pinned_unlisted f held⟩
    have := (inv.free_clean f free).1
    omega
  evictable p f found unpinned := inv.evictable f (inv.mapped_not_free found) unpinned

theorem new {dm : DiskManager} (counters : ∀ fd, 0 ≤ dm.fd2pageno fd) (junk : Fin N → Int) :
    PoolInv (BufferPoolManager.new dm junk) := of_frameInv (.new counters junk)

theorem fetchPage (inv : PoolInv s) {p : PageId} {r : Option (Fin N)} (admissible : p.pageNo < s.counter p.fd)
    (run : fetchPage p s = .ok r t) : PoolInv t := of_frameInv (inv.frameInv.fetchPage admissible run)

theorem newPage (inv : PoolInv s) {fd : Int} {r : Option (PageId × Fin N)}
    (monotone : ∀ fd, s.counter fd ≤ t.counter fd)
    (run : newPage fd s = .ok r t) : PoolInv t := of_frameInv (inv.frameInv.newPage monotone run)

theorem unpinPage (inv : PoolInv s) {p : PageId} {d r : Bool} (run : unpinPage p d s = .ok r t) : PoolInv t :=
  of_frameInv (inv.frameInv.unpinPage run)

theorem wroteFrame (inv : PoolInv s) {dm : DiskManager} (f : Fin N)
    (counters : dm.fd2pageno = s.diskManager.fd2pageno) :
    PoolInv ({ s with diskManager := dm }.setPage f { s.pages f with isDirty := false }) :=
  of_frameInv (inv.frameInv.wroteFrame f counters)

theorem deletePage (inv : PoolInv s) {p : PageId} {r : Bool} (run : deletePage p s = .ok r t) : PoolInv t :=
  of_frameInv (inv.frameInv.deletePage run)

theorem raise (inv : PoolInv s) {fd n : Int} (up : s.counter fd ≤ n) :
    PoolInv { s with diskManager := s.diskManager.setFd2pageno fd n } := of_frameInv (inv.frameInv.raise up)

theorem setDisk (inv : PoolInv s) {dm : DiskManager} (nonneg : ∀ fd, 0 ≤ dm.fd2pageno fd)
    (counted : ∀ p f, s.pageTable p = some f → p.pageNo < dm.fd2pageno p.fd) : PoolInv { s with diskManager := dm } :=
  of_frameInv (inv.frameInv.setDisk nonneg counted)

theorem setData (inv : PoolInv s) (f : Fin N) (data : PageData) :
    PoolInv (s.setPage f { s.pages f with data := data }) := of_frameInv (inv.frameInv.setData f data)

end PoolInv

/-- `fetch_page` is asked only for pages the file has. -/
def Admissible (s : BufferPoolManager N) : Call → Prop
  | .fetchPage p => p.pageNo < s.counter p.fd
  | _ => True

/-- The pools reachable from a fresh one by calls whose disk accesses succeed.
Between calls the owner of a file may raise its page counter and clients may
write bytes into frames; no counter is ever lowered. -/
inductive PoolReach : BufferPoolManager N → Prop
  | fresh {dm : DiskManager} (junk : Fin N → Int) : (∀ fd, 0 ≤ dm.fd2pageno fd) → PoolReach (new dm junk)
  | call {s t : BufferPoolManager N} {c : Call} {r : Reply N} : PoolReach s → Admissible s c →
      call c s = .ok r t → (∀ fd, s.counter fd ≤ t.counter fd) → PoolReach t
  | setFd2pageno {s : BufferPoolManager N} (fd n : Int) : PoolReach s → s.counter fd ≤ n →
      PoolReach { s with diskManager := s.diskManager.setFd2pageno fd n }
  | writeBytes {s : BufferPoolManager N} (f : Fin N) (data : PageData) : PoolReach s →
      PoolReach (s.setPage f { s.pages f with data := data })

theorem FrameInv.call {spare : Fin N → Prop} {s t : BufferPoolManager N} (inv : FrameInv spare s) {c : Call}
    {r : Reply N}
    (admissible : Admissible s c) (monotone : ∀ fd, s.counter fd ≤ t.counter fd) (run : call c s = .ok r t) :
    FrameInv spare t := by
  cases c with
  | fetchPage p =>
    obtain ⟨_, run, _⟩ := map_eq_ok.mp run
    exact inv.fetchPage admissible run
  | unpinPage p d =>
    obtain ⟨_, run, _⟩ := map_eq_ok.mp run
    exact inv.unpinPage run
  | flushPage p =>
    obtain ⟨_, run, _⟩ := map_eq_ok.mp run
    exact inv.flushPage run
  | newPage fd =>
    obtain ⟨_, run, _⟩ := map_eq_ok.mp run
    exact inv.newPage monotone run
  | deletePage p =>
    obtain ⟨_, run, _⟩ := map_eq_ok.mp run
    exact inv.deletePage run
  | flushAllPages fd =>
    obtain ⟨_, run, _⟩ := map_eq_ok.mp run
    exact inv.flushFrames run

theorem PoolInv.call {s t : BufferPoolManager N} (inv : PoolInv s) {c : Call} {r : Reply N}
    (admissible : Admissible s c) (monotone : ∀ fd, s.counter fd ≤ t.counter fd)
    (run : call c s = .ok r t) : PoolInv t := of_frameInv (inv.frameInv.call admissible monotone run)

theorem PoolReach.inv {s : BufferPoolManager N} (reach : PoolReach s) : PoolInv s := by
  induction reach with
  | fresh junk counters => exact .new counters junk
  | call _ admissible run monotone ih => exact ih.call admissible monotone run
  | setFd2pageno fd n _ up ih => exact ih.raise up
  | writeBytes f data _ ih => exact ih.setData f data

/-- In every reachable state the four structures agree, and a frame is handed out
only to the page it already holds or while nobody has it pinned. -/
theorem pool_invariant {s : BufferPoolManager N} (reach : PoolReach s) :
    RepInv s ∧
      (∀ p f t, fetchPage p s = .ok (some f) t → s.pageTable p = some f ∨ (s.pages f).pinCount = 0) ∧
      ∀ fd p f t, newPage fd s = .ok (some (p, f)) t → (s.pages f).pinCount = 0 := by
  have inv := reach.inv
  refine ⟨inv.repInv, ?_, ?_⟩
  · intro p f t run
    rcases fetchPage_cases run with ⟨g, found, same, _⟩ | ⟨_, same, _⟩ | ⟨g, _, _, _, _, _, same, victim, _⟩
    · cases same
      exact Or.inl found
    · cases same
    · cases same
      exact Or.inr (inv.victim_unpinned victim)
  · intro fd p f t run
    rcases newPage_cases run with ⟨same, _⟩ | ⟨g, _, _, _, _, _, same, victim, _⟩
    · cases same
    · cases same
      exact inv.victim_unpinned victim

/-- A disk with one empty open file, descriptor 3. -/
def oneFile : DiskManager where
  path2fd path := if path = "t" then some 3 else none
  fd2path fd := if fd = 3 then some "t" else none
  fd2pageno _ := 0
  os := ⟨fun path => if path = "t" then some 0 else none, fun fd => if fd = 3 then some 0 else none,
    fun _ => File.empty, 1, fun _ _ => PAGE_SIZE⟩

/-- Below the largest `int` an allocation lowers no counter. -/
theorem le_update_succ (counter : Int → Int) {fd : Int} (up : counter fd ≤ wrapInt (counter fd + 1)) (other : Int) :
    counter other ≤ Function.update counter fd (wrapInt (counter fd + 1)) other := by
  by_cases same : other = fd
  · subst other
    rwa [Function.update_self]
  · rw [Function.update_of_ne same]

/-- A created, released and deleted page leaves its frame both free and listed; the
invariant holds there. -/
theorem pool_invariant_after_delete :
    ∃ s : BufferPoolManager 1, PoolReach s ∧ 0 ∈ s.freeList ∧ 0 ∈ s.replacer.frames ∧ RepInv s := by
  have fresh : PoolReach (new oneFile fun _ => 0 : BufferPoolManager 1) := .fresh _ fun _ => le_rfl
  have created := PoolReach.call (c := .newPage 3) fresh trivial rfl (le_update_succ _ (by decide))
  have released := PoolReach.call (c := .unpinPage ⟨3, 0⟩ false) created trivial rfl fun _ => le_rfl
  have deleted := PoolReach.call (c := .deletePage ⟨3, 0⟩) released trivial rfl fun _ => le_rfl
  exact ⟨_, deleted, by decide, by decide, (pool_invariant deleted).1⟩

end Rmdb.BufferPoolManager
