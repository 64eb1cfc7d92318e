import Rmdb.Storage.Transparent

namespace Rmdb.World.Sim
open BufferPoolManager
variable {C : Type} {N : Nat} {live : Int → Prop} {w : World C N} {dm : DiskManager}

/-! Files are opened and closed under the pool. What the pool still caches of a
closed file is clean, and nothing else is asked of it. -/

/-- The disk changed, but not in the pages of live files. -/
theorem setDisk (sim : Sim live w) (distinct : dm.Distinct) (counters : dm.fd2pageno = w.pool.diskManager.fd2pageno)
    (same : ∀ p, live p.fd → 0 ≤ p.pageNo → dm.diskPage p = w.pool.diskManager.diskPage p) :
    Sim live { w with pool := { w.pool with diskManager := dm } } where
  inv := by
    refine sim.inv.setDisk ?_ ?_
    · rw [counters]
      exact sim.inv.counter_nonneg
    · intro p f found
      rw [counters]
      have below := sim.inv.counted f (sim.inv.mapped_not_free found)
      rwa [sim.inv.idOf found] at below
  distinct := distinct
  held := sim.held
  count := sim.count
  nonneg := sim.nonneg
  stale := sim.stale
  cached := sim.cached
  uncached p isLive missing nonneg := (same p isLive nonneg).trans (sim.uncached p isLive missing nonneg)
  saved p f isLive found clean unsaved created :=
    (same p isLive (sim.nonneg p f found)).trans (sim.saved p f isLive found clean unsaved created)
  unsaved_held := sim.unsaved_held
  created_held := sim.created_held

/-- A write to the disk past the pool, to a page that is not cached. -/
theorem writeThrough (sim : Sim live w) {p : PageId} {src : Nat → UInt8} {n : Nat}
    (missing : w.pool.pageTable p = none) (bound : n ≤ PAGE_SIZE)
    (write : w.pool.diskManager.writePage p.fd p.pageNo src n = (dm, none)) :
    Sim live { w with
      pool := { w.pool with diskManager := dm }
      store := Function.update w.store p ((w.store p).poke 0 n src) } := by
  have counters : dm.fd2pageno = w.pool.diskManager.fd2pageno := writePage_counters write
  have other : ∀ q, q ≠ p → 0 ≤ q.pageNo → dm.diskPage q = w.pool.diskManager.diskPage q :=
    fun q => DiskManager.diskPage_writePage_other sim.distinct write bound
  have cachedOther : ∀ q f, w.pool.pageTable q = some f → q ≠ p := by
    rintro q f found rfl
    rw [missing] at found
    cases found
  constructor
  case inv =>
    refine sim.inv.setDisk ?_ ?_
    · rw [counters]
      exact sim.inv.counter_nonneg
    · intro q f found
      rw [counters]
      have below := sim.inv.counted f (sim.inv.mapped_not_free found)
      rwa [sim.inv.idOf found] at below
  case distinct => exact sim.distinct.writePage write
  case held => exact sim.held
  case count => exact sim.count
  case nonneg => exact sim.nonneg
  case stale => exact sim.stale
  case cached =>
    intro q f isLive found
    exact (sim.cached q f isLive found).trans (Function.update_of_ne (cachedOther q f found) ..).symm
  case uncached =>
    intro q isLive absent nonneg
    change dm.diskPage q = Function.update w.store p _ q
    by_cases same : q = p
    · subst q
      rw [Function.update_self, DiskManager.diskPage_writePage_front write, sim.uncached p isLive missing nonneg]
    · rw [Function.update_of_ne same, other q same nonneg]
      exact sim.uncached q isLive absent nonneg
  case saved =>
    intro q f isLive found clean unsaved created
    have different := cachedOther q f found
    change dm.diskPage q = Function.update w.store p _ q
    rw [Function.update_of_ne different, other q different (sim.nonneg q f found)]
    exact sim.saved q f isLive found clean unsaved created
  case unsaved_held => exact sim.unsaved_held
  case created_held => exact sim.created_held

/-- A file stops being live once all that is cached of it is clean. -/
theorem retire (sim : Sim live w) {fd : Int} (distinct : dm.Distinct)
    (counters : dm.fd2pageno = w.pool.diskManager.fd2pageno)
    (same : ∀ p, p.fd ≠ fd → dm.diskPage p = w.pool.diskManager.diskPage p)
    (clean : ∀ p f, p.fd = fd → w.pool.pageTable p = some f → (w.pool.pages f).isDirty = false) :
    Sim (fun other => live other ∧ other ≠ fd) { w with pool := { w.pool with diskManager := dm } } := by
  have fewer : Sim (fun other => live other ∧ other ≠ fd) w :=
    { sim with
      stale := fun p f notLive found => by
        by_cases atFd : p.fd = fd
        · exact clean p f atFd found
        · exact sim.stale p f (fun isLive => notLive ⟨isLive, atFd⟩) found
      cached := fun p f isLive => sim.cached p f isLive.1
      uncached := fun p isLive => sim.uncached p isLive.1
      saved := fun p f isLive => sim.saved p f isLive.1 }
  exact fewer.setDisk distinct counters fun p isLive _ => same p isLive.2

/-- A file becomes live under a descriptor. What is cached under it already must be
pages the file has, with the bytes it has on disk. -/
theorem adopt (sim : Sim live w) {fd n : Int} (distinct : dm.Distinct) (nonneg : 0 ≤ n)
    (counters : dm.fd2pageno = Function.update w.pool.diskManager.fd2pageno fd n)
    (same : ∀ p, p.fd ≠ fd → dm.diskPage p = w.pool.diskManager.diskPage p)
    (reusable : ∀ p f, p.fd = fd → w.pool.pageTable p = some f →
      p.pageNo < n ∧ (w.pool.pages f).data = dm.diskPage p) :
    Sim (fun other => live other ∨ other = fd) { w with
      pool := { w.pool with diskManager := dm }
      store := fun p => if p.fd = fd then dm.diskPage p else w.store p } := by
  have others : ∀ p : PageId, live p.fd ∨ p.fd = fd → p.fd ≠ fd →
    live p.fd := fun p isLive notFd => isLive.resolve_right notFd
  constructor
  case inv =>
    refine sim.inv.setDisk ?_ ?_
    · intro other
      rw [counters]
      by_cases atFd : other = fd
      · subst other
        rwa [Function.update_self]
      · rw [Function.update_of_ne atFd]
        exact sim.inv.counter_nonneg other
    · intro p f found
      rw [counters]
      by_cases atFd : p.fd = fd
      · rw [atFd, Function.update_self]
        exact (reusable p f atFd found).1
      · rw [Function.update_of_ne atFd]
        have below := sim.inv.counted f (sim.inv.mapped_not_free found)
        rwa [sim.inv.idOf found] at below
  case distinct => exact distinct
  case held => exact sim.held
  case count => exact sim.count
  case nonneg => exact sim.nonneg
  case stale => exact fun p f notLive => sim.stale p f fun isLive => notLive (Or.inl isLive)
  case cached =>
    intro p f isLive found
    by_cases atFd : p.fd = fd
    · simp only [if_pos atFd]
      exact (reusable p f atFd found).2
    · simp only [if_neg atFd]
      exact sim.cached p f (others p isLive atFd) found
  case uncached =>
    intro p isLive missing lower
    by_cases atFd : p.fd = fd
    · simp only [if_pos atFd]
    · simp only [if_neg atFd]
      exact (same p atFd).trans (sim.uncached p (others p isLive atFd) missing lower)
  case saved =>
    intro p f isLive found clean unsaved created
    by_cases atFd : p.fd = fd
    · simp only [if_pos atFd]
    · simp only [if_neg atFd]
      exact (same p atFd).trans (sim.saved p f (others p isLive atFd) found clean unsaved created)
  case unsaved_held => exact sim.unsaved_held
  case created_held => exact sim.created_held

end Rmdb.World.Sim
