import Rmdb.Storage.PoolInvariant

namespace Rmdb.BufferPoolManager
variable {N : Nat}

/-- The pools that calls lead to which return, whichever pages they ask for. Between two calls clients write
bytes into frames and anything may happen to the disk, except that no page counter is ever lowered. -/
inductive PoolRun : BufferPoolManager N → Prop
  | fresh {dm : DiskManager} (junk : Fin N → Int) : (∀ fd, 0 ≤ dm.fd2pageno fd) → PoolRun (new dm junk)
  | call {s t : BufferPoolManager N} {c : Call} {r : Reply N} : PoolRun s → call c s = .ok r t →
      (∀ fd, s.counter fd ≤ t.counter fd) → PoolRun t
  | disk {s : BufferPoolManager N} (dm : DiskManager) : PoolRun s → (∀ fd, s.counter fd ≤ dm.fd2pageno fd) →
      PoolRun { s with diskManager := dm }
  | writeBytes {s : BufferPoolManager N} (f : Fin N) (data : PageData) : PoolRun s →
      PoolRun (s.setPage f { s.pages f with data := data })

/-- `*page_id` after `new_page`: what was there, unless a page was created. -/
def pageIdAfter (pageId : PageId) : Option (PageId × Fin N) → PageId
  | none => pageId
  | some (created, _) => created

/-- No frame is lost: those that are not pinned are free or listed in the replacer, some of them both. A page
may have been cached twice here, as a fetch above the page counter can lead to that; the frame that is no
longer in the page table stays pinned for good or is evicted in its turn. -/
structure NoneLost (s : BufferPoolManager N) : Prop where
  wf : s.replacer.WF
  capacity : s.replacer.maxSize = N
  idOf : ∀ p f, s.pageTable p = some f → (s.pages f).id = p ∧ p.pageNo ≠ INVALID_PAGE_ID
  free_nodup : s.freeList.Nodup
  free_unused : ∀ f, f ∈ s.freeList → (s.pages f).id.pageNo = INVALID_PAGE_ID
  pin_nonneg : ∀ f, 0 ≤ (s.pages f).pinCount
  pinned_iff : ∀ f, 0 < (s.pages f).pinCount ↔ f ∉ s.freeList ∧ f ∉ s.replacer.frames
  counter_nonneg : ∀ fd, 0 ≤ s.counter fd

namespace NoneLost
variable {s t : BufferPoolManager N}

theorem new {dm : DiskManager} (counters : ∀ fd, 0 ≤ dm.fd2pageno fd) (junk : Fin N → Int) :
    NoneLost (BufferPoolManager.new dm junk) where
  wf := .new N
  capacity := rfl
  idOf p f found := by cases found
  free_nodup := List.nodup_finRange N
  free_unused _ _ := rfl
  pin_nonneg _ := le_rfl
  pinned_iff f := iff_of_false (lt_irrefl 0) fun h => h.1 (List.mem_finRange f)
  counter_nonneg := counters

theorem tableInv (inv : NoneLost s) : TableInv s := ⟨inv.idOf, inv.free_nodup, inv.free_unused⟩

/-- A step that keeps ids, pins and lists. -/
theorem of_same (inv : NoneLost s) (table : t.pageTable = s.pageTable) (free : t.freeList = s.freeList)
    (lru : t.replacer = s.replacer) (ids : ∀ f, (t.pages f).id = (s.pages f).id)
    (pins : ∀ f, (t.pages f).pinCount = (s.pages f).pinCount) (counters : ∀ fd, s.counter fd ≤ t.counter fd) :
    NoneLost t where
  wf := lru ▸ inv.wf
  capacity := lru ▸ inv.capacity
  idOf := (inv.tableInv.of_same table free ids).idOf
  free_nodup := free ▸ inv.free_nodup
  free_unused := (inv.tableInv.of_same table free ids).free_unused
  pin_nonneg f := (pins f).symm ▸ inv.pin_nonneg f
  pinned_iff f := by rw [pins, free, lru, inv.pinned_iff]
  counter_nonneg fd := (inv.counter_nonneg fd).trans (counters fd)

/-- A frame keeps its id and gets a new pin count, with which the replacer lists it or not. -/
theorem repin (inv : NoneLost s) {p : PageId} {f : Fin N} (found : s.pageTable p = some f) {page : Page}
    {r : LRUReplacer (Fin N)} (same : page.id = (s.pages f).id) (nonneg : 0 ≤ page.pinCount) (wf : r.WF)
    (capacity : r.maxSize = N) (self : f ∈ r.frames ↔ page.pinCount = 0)
    (other : ∀ g, g ≠ f → (g ∈ r.frames ↔ g ∈ s.replacer.frames)) :
    NoneLost { s.setPage f page with replacer := r } := by
  have pages : ∀ g, ({ s.setPage f page with replacer := r } : BufferPoolManager N).pages g =
      if g = f then page else s.pages g := fun g => Function.update_apply ..
  have kept : TableInv { s.setPage f page with replacer := r } := inv.tableInv.of_same rfl rfl (setPage_id same)
  constructor
  case wf => exact wf
  case capacity => exact capacity
  case idOf => exact kept.idOf
  case free_nodup => exact kept.free_nodup
  case free_unused => exact kept.free_unused
  case pin_nonneg =>
    intro g
    rw [pages]
    split
    · exact nonneg
    · exact inv.pin_nonneg g
  case pinned_iff =>
    intro g
    rw [pages]
    split
    · rename_i atF
      subst g
      change _ ↔ f ∉ s.freeList ∧ f ∉ r.frames
      rw [self, and_iff_right (inv.tableInv.mapped_not_free found)]
      omega
    · rename_i atF
      change _ ↔ g ∉ s.freeList ∧ g ∉ r.frames
      rw [other g atF, inv.pinned_iff]
  case counter_nonneg => exact inv.counter_nonneg

/-- A victim becomes the home of a page, which another frame may have been until now. -/
theorem install (inv : NoneLost s) {f : Fin N} {rest : List (Fin N)} {r : LRUReplacer (Fin N)} {dm : DiskManager}
    {p : PageId} (data : PageData) (victim : Victim s f rest r) (valid : p.pageNo ≠ INVALID_PAGE_ID)
    (counters : ∀ fd, s.counter fd ≤ dm.fd2pageno fd) :
    NoneLost (BufferPoolManager.install p f data (s.taken f rest r dm)) := by
  have replaced := inv.tableInv.replace victim dm data valid
  have memRest := (victim.rest_free inv.free_nodup).2
  obtain ⟨wf, capacity, memLru⟩ := victim.pinned inv.wf
  have pages : ∀ g, (BufferPoolManager.install p f data (s.taken f rest r dm)).pages g =
      if g = f then ⟨p, data, false, 1⟩ else s.pages g := fun g => Function.update_apply ..
  constructor
  case wf => exact wf
  case capacity => exact capacity.trans inv.capacity
  case idOf => exact replaced.idOf
  case free_nodup => exact replaced.free_nodup
  case free_unused => exact replaced.free_unused
  case pin_nonneg =>
    intro g
    rw [pages]
    split
    · exact Int.one_nonneg
    · exact inv.pin_nonneg g
  case pinned_iff =>
    intro g
    change _ ↔ g ∉ rest ∧ g ∉ (r.pin f).frames
    rw [pages, memRest, memLru]
    by_cases same : g = f
    · simp [same]
    · rw [if_neg same, inv.pinned_iff]
      simp [same]
  case counter_nonneg => exact fun fd => (inv.counter_nonneg fd).trans (counters fd)

theorem unpinned_of_listed (inv : NoneLost s) {f : Fin N} (listed : f ∈ s.replacer.frames) :
    (s.pages f).pinCount = 0 := by
  have nonneg := inv.pin_nonneg f
  by_contra held
  exact ((inv.pinned_iff f).mp (by omega)).2 listed

theorem victim_unpinned (inv : NoneLost s) {f : Fin N} {rest : List (Fin N)} {r : LRUReplacer (Fin N)}
    (victim : Victim s f rest r) : (s.pages f).pinCount = 0 := by
  cases victim with
  | free list =>
    have nonneg := inv.pin_nonneg f
    by_contra held
    exact ((inv.pinned_iff f).mp (by omega)).1 (list ▸ List.mem_cons_self)
  | listed _ run =>
    apply inv.unpinned_of_listed
    rw [(LRUReplacer.victim_some run).1]
    exact List.mem_append_right _ List.mem_cons_self

theorem fetchPage (inv : NoneLost s) {p : PageId} {r : Option (Fin N)} (run : fetchPage p s = .ok r t) :
    NoneLost t := by
  rcases fetchPage_cases run with ⟨f, found, _, rfl⟩ | ⟨_, _, rfl, _⟩ |
    ⟨f, rest, repl, dm, data, _, _, victim, wrote, read, rfl⟩
  · have nonneg := inv.pin_nonneg f
    refine inv.repin found rfl (by change 0 ≤ _ + 1; omega) (inv.wf.pin f)
      ((LRUReplacer.pin_maxSize _ f).trans inv.capacity) ?_ fun g other => ?_
    · rw [inv.wf.mem_pin]
      simp only [ne_eq, not_true, and_false, false_iff]
      omega
    · rw [inv.wf.mem_pin, and_iff_left other]
  · exact inv
  · refine inv.install data victim ?_ fun fd => by rw [wrote.counters]
    have := (DiskManager.readPage_diskPage read).2
    unfold INVALID_PAGE_ID
    omega

theorem newPage (inv : NoneLost s) {fd : Int} {r : Option (PageId × Fin N)}
    (monotone : ∀ fd, s.counter fd ≤ t.counter fd) (run : newPage fd s = .ok r t) : NoneLost t := by
  rcases newPage_cases run with ⟨_, rfl, _⟩ | ⟨f, rest, repl, dm, dm', pageNo, _, victim, wrote, allocated, rfl⟩
  · exact inv
  · obtain ⟨rfl, _⟩ := allocatePage_ok allocated
    refine inv.install _ victim ?_ monotone
    have := inv.counter_nonneg fd
    change dm.fd2pageno fd ≠ -1
    rw [wrote.counters]
    change s.counter fd ≠ -1
    omega

theorem unpinPage (inv : NoneLost s) {p : PageId} {d r : Bool} (run : unpinPage p d s = .ok r t) : NoneLost t := by
  rcases unpinPage_cases run with ⟨_, rfl, _⟩ | ⟨f, _, found, held, rfl⟩
  · exact inv
  · have absent := ((inv.pinned_iff f).mp held).2
    by_cases last : (s.pages f).pinCount - 1 = 0
    · rw [if_pos last]
      have member : ∀ g, g ∈ (s.replacer.unpin f).frames ↔ g = f ∨ g ∈ s.replacer.frames :=
        fun g => inv.wf.mem_unpin fun _ => room_of_absent inv.wf inv.capacity absent
      refine inv.repin found rfl last.ge (inv.wf.unpin f)
        ((LRUReplacer.unpin_maxSize _ f).trans inv.capacity) ?_ fun g other => ?_
      · simp [member, last]
      · simp [member, other]
    · rw [if_neg last]
      exact inv.repin found rfl (by change 0 ≤ _ - 1; omega) inv.wf inv.capacity (by simp [absent, last])
        fun g _ => Iff.rfl

/-- Writing a frame out changes the disk and clears a dirty bit. -/
theorem wroteFrame (inv : NoneLost s) {dm : DiskManager} (f : Fin N)
    (counters : dm.fd2pageno = s.diskManager.fd2pageno) :
    NoneLost ({ s with diskManager := dm }.setPage f { s.pages f with isDirty := false }) :=
  inv.of_same rfl rfl rfl (setPage_id rfl) (setPage_pinCount rfl) fun fd => (congrFun counters fd).ge

theorem deletePage (inv : NoneLost s) {p : PageId} {r : Bool} (run : deletePage p s = .ok r t) : NoneLost t := by
  rcases deletePage_cases (fun f found => (inv.idOf p f found).1) run with ⟨rfl, _⟩ |
    ⟨f, dm, _, found, unpinned, wrote, rfl⟩
  · exact inv
  · have freed := inv.tableInv.deleted found dm
    constructor
    case wf => exact inv.wf
    case capacity => exact inv.capacity
    case idOf => exact freed.idOf
    case free_nodup => exact freed.free_nodup
    case free_unused => exact freed.free_unused
    case pin_nonneg =>
      intro g
      simp only [setPage, Function.update_apply]
      split
      · exact le_rfl
      · exact inv.pin_nonneg g
    case pinned_iff =>
      intro g
      simp only [setPage, Function.update_apply, List.mem_append, List.mem_singleton]
      by_cases same : g = f
      · simp [same]
      · rw [if_neg same, inv.pinned_iff]
        simp [same]
    case counter_nonneg =>
      intro fd
      simp only [counter, wrote.counters]
      exact inv.counter_nonneg fd

theorem call (inv : NoneLost s) {c : Call} {r : Reply N} (monotone : ∀ fd, s.counter fd ≤ t.counter fd)
    (run : call c s = .ok r t) : NoneLost t := by
  cases c with
  | fetchPage p =>
    obtain ⟨_, run, _⟩ := map_eq_ok.mp run
    exact inv.fetchPage run
  | unpinPage p d =>
    obtain ⟨_, run, _⟩ := map_eq_ok.mp run
    exact inv.unpinPage run
  | flushPage p =>
    obtain ⟨_, run, _⟩ := map_eq_ok.mp run
    rcases flushPage_cases run with ⟨_, _, rfl⟩ | ⟨f, dm, _, _, write, rfl⟩
    · exact inv
    · exact inv.wroteFrame f (writePage_counters write)
  | newPage fd =>
    obtain ⟨_, run, _⟩ := map_eq_ok.mp run
    exact inv.newPage monotone run
  | deletePage p =>
    obtain ⟨_, run, _⟩ := map_eq_ok.mp run
    exact inv.deletePage run
  | flushAllPages fd =>
    obtain ⟨_, run, _⟩ := map_eq_ok.mp run
    exact flushFrames_keep (fun f before write => before.wroteFrame f (writePage_counters write)) inv run

theorem setData (inv : NoneLost s) (f : Fin N) (data : PageData) :
    NoneLost (s.setPage f { s.pages f with data := data }) :=
  inv.of_same rfl rfl rfl (setPage_id rfl) (setPage_pinCount rfl) fun _ => le_rfl

/-- There is no victim exactly if every frame is pinned. -/
theorem empty_iff (inv : NoneLost s) :
    (s.freeList = [] ∧ s.replacer.frames = []) ↔ ∀ f, 0 < (s.pages f).pinCount := by
  constructor
  · rintro ⟨free, listed⟩ f
    rw [inv.pinned_iff, free, listed]
    exact ⟨List.not_mem_nil, List.not_mem_nil⟩
  · intro pinned
    constructor
    · exact List.eq_nil_iff_forall_not_mem.mpr fun f => ((inv.pinned_iff f).mp (pinned f)).1
    · exact List.eq_nil_iff_forall_not_mem.mpr fun f => ((inv.pinned_iff f).mp (pinned f)).2

end NoneLost

theorem PoolRun.inv {s : BufferPoolManager N} (run : PoolRun s) : NoneLost s := by
  induction run with
  | fresh junk counters => exact .new counters junk
  | call _ step monotone ih => exact ih.call monotone step
  | disk dm _ up ih => exact ih.of_same rfl rfl rfl (fun _ => rfl) (fun _ => rfl) up
  | writeBytes f data _ ih => exact ih.setData f data

section
variable {s t : BufferPoolManager N} {p : PageId} {fd : Int}

theorem findVictimPage_none (free : s.freeList = []) (listed : s.replacer.frames = []) :
    findVictimPage s = .ok none s := by
  rcases findVictimPage_cases s with ⟨run, _⟩ | ⟨f, rest, r, victim, _⟩
  · exact run
  · cases victim with
    | free list => cases free.symm.trans list
    | listed _ run =>
      have last := (LRUReplacer.victim_some run).1
      rw [listed] at last
      simp at last

theorem fetchPage_refuses (missing : s.pageTable p = none) (free : s.freeList = [])
    (listed : s.replacer.frames = []) : fetchPage p s = .ok none s := by
  unfold fetchPage
  rw [get_bind]
  simp only [missing]
  exact (bind_ok (findVictimPage_none free listed)).trans rfl

theorem newPage_refuses (free : s.freeList = []) (listed : s.replacer.frames = []) :
    newPage fd s = .ok none s := (bind_ok (findVictimPage_none free listed)).trans rfl

theorem fetchPage_refused (run : fetchPage p s = .ok none t) :
    t = s ∧ s.freeList = [] ∧ s.replacer.frames = [] := by
  rcases fetchPage_cases run with ⟨f, _, same, _⟩ | ⟨_, _, unchanged, free, listed⟩ | ⟨f, _, _, _, _, _, same, _⟩
  · cases same
  · exact ⟨unchanged, free, listed⟩
  · cases same

theorem newPage_refused (run : newPage fd s = .ok none t) : t = s ∧ s.freeList = [] ∧ s.replacer.frames = [] := by
  rcases newPage_cases run with ⟨_, unchanged, free, listed⟩ | ⟨f, _, _, _, _, _, same, _⟩
  · exact ⟨unchanged, free, listed⟩
  · cases same

end

/-- `fetch_page` of a page that is not cached and `new_page` return null exactly when all frames are pinned, and
then nothing has changed, not even the caller's page id. -/
theorem refuses_iff_pinned {s : BufferPoolManager N} (run : PoolRun s) :
    (∀ p, s.pageTable p = none → ((∃ t, fetchPage p s = .ok none t) ↔ ∀ f, 0 < (s.pages f).pinCount)) ∧
      (∀ fd, (∃ t, newPage fd s = .ok none t) ↔ ∀ f, 0 < (s.pages f).pinCount) ∧
      (∀ p t, fetchPage p s = .ok none t → t = s) ∧
      ∀ pageId r t, newPage pageId.fd s = .ok r t → r = none → t = s ∧ pageIdAfter pageId r = pageId := by
  have inv := run.inv
  refine ⟨fun p missing => ?_, fun fd => ?_, fun p t refused => (fetchPage_refused refused).1, ?_⟩
  · rw [← inv.empty_iff]
    constructor
    · rintro ⟨t, refused⟩
      exact (fetchPage_refused refused).2
    · rintro ⟨free, listed⟩
      exact ⟨s, fetchPage_refuses missing free listed⟩
  · rw [← inv.empty_iff]
    constructor
    · rintro ⟨t, refused⟩
      exact (newPage_refused refused).2
    · rintro ⟨free, listed⟩
      exact ⟨s, newPage_refuses free listed⟩
  · rintro pageId r t refused rfl
    exact ⟨(newPage_refused refused).1, rfl⟩

/-- A pool of one frame, which is pinned. -/
theorem refuses_iff_pinned_one : ∃ s : BufferPoolManager 1, PoolRun s ∧ (∀ f, 0 < (s.pages f).pinCount) ∧
    ∃ t, newPage 3 s = .ok none t := by
  have fresh : PoolRun (new oneFile fun _ => 0 : BufferPoolManager 1) := .fresh _ fun _ => le_rfl
  have created := PoolRun.call (c := .newPage 3) fresh rfl (le_update_succ _ (by decide))
  have pinned : ∀ f, 0 < ((stateAfter (call (.newPage 3)) (new oneFile fun _ => 0 : BufferPoolManager 1)).pages
    f).pinCount := by decide
  exact ⟨_, created, pinned, ((refuses_iff_pinned created).2.1 3).mpr pinned⟩

end Rmdb.BufferPoolManager
