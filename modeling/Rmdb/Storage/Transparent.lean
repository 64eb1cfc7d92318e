import Rmdb.Storage.PoolInvariant

namespace Rmdb.BufferPoolManager
variable {N : Nat}

theorem WroteBack.distinct {dm dm' : DiskManager} {page : Page} (wrote : WroteBack dm dm' page)
    (distinct : dm.Distinct) : dm'.Distinct := by
  unfold WroteBack at wrote
  split at wrote
  · exact distinct.writePage wrote
  · exact wrote ▸ distinct

theorem WroteBack.other {dm dm' : DiskManager} {page : Page} (wrote : WroteBack dm dm' page)
    (distinct : dm.Distinct) {q : PageId} (different : q ≠ page.id) (nonneg : 0 ≤ q.pageNo) :
    dm'.diskPage q = dm.diskPage q := by
  unfold WroteBack at wrote
  split at wrote
  · exact DiskManager.diskPage_writePage_other distinct wrote le_rfl different nonneg
  · rw [wrote]

/-- After the write-back the disk holds the page, provided a clean page was there already. -/
theorem WroteBack.self {dm dm' : DiskManager} {page : Page} (wrote : WroteBack dm dm' page)
    (clean : page.isDirty = false → dm.diskPage page.id = page.data) : dm'.diskPage page.id = page.data := by
  unfold WroteBack at wrote
  split at wrote
  · exact DiskManager.diskPage_writePage_self wrote
  · rename_i notDirty
    rw [wrote]
    exact clean (eq_false_of_ne_true notDirty)

end Rmdb.BufferPoolManager

namespace Rmdb

/-- A pin a client holds: the page it asked for and the frame it was given. -/
structure Pin (C : Type) (N : Nat) where
  client : C
  page : PageId
  frame : Fin N
  deriving DecidableEq

/-- The pool together with its clients. `store` is the flat page store the pool
stands for: what any client last left in a page, initially the disk. `unsaved`
marks the pages a client modified since it last flushed them or released them
dirty, `created` the pages of `new_page` not yet released dirty. -/
structure World (C : Type) (N : Nat) where
  pool : BufferPoolManager N
  pins : List (Pin C N)
  unsaved : C → PageId → Bool
  created : PageId → Bool
  store : PageId → PageData

namespace World
variable {C : Type} {N : Nat}
open BufferPoolManager

def start (dm : DiskManager) (junk : Fin N → Int) : World C N :=
  ⟨.new dm junk, [], fun _ _ => false, fun _ => false, dm.diskPage⟩

def mark [DecidableEq C] (unsaved : C → PageId → Bool) (c : C) (p : PageId) (b : Bool) : C → PageId → Bool :=
  Function.update unsaved c (Function.update (unsaved c) p b)

theorem mark_apply [DecidableEq C] (unsaved : C → PageId → Bool) (c d : C) (p q : PageId) (b : Bool) :
    mark unsaved c p b d q = if d = c ∧ q = p then b else unsaved d q := by
  unfold mark
  by_cases client : d = c
  · subst d
    by_cases page : q = p
    · subst q
      simp
    · simp [page]
  · simp [client]

theorem mark_of_ne [DecidableEq C] (unsaved : C → PageId → Bool) (c d : C) {p q : PageId} (b : Bool) (other : q ≠ p) :
    mark unsaved c p b d q = unsaved d q := by
  rw [mark_apply, if_neg fun both => other both.2]

theorem mark_self [DecidableEq C] (unsaved : C → PageId → Bool) (c : C) (p : PageId) (b : Bool) :
    mark unsaved c p b c p = b := by
  rw [mark_apply, if_pos ⟨rfl, rfl⟩]

/-- The simulation, for the files that are `live`. A cached page has the bytes of the
store; a page that is not cached, or is cached clean with no modification on the
way, has them on disk. What is still cached of other files is clean. -/
structure Sim (live : Int → Prop) (w : World C N) : Prop where
  inv : PoolInv w.pool
  distinct : w.pool.diskManager.Distinct
  held : ∀ c p f, ⟨c, p, f⟩ ∈ w.pins → w.pool.pageTable p = some f
  count : ∀ p f, w.pool.pageTable p = some f →
    (w.pool.pages f).pinCount = w.pins.countP (fun pin => pin.page = p)
  nonneg : ∀ p f, w.pool.pageTable p = some f → 0 ≤ p.pageNo
  stale : ∀ p f, ¬live p.fd → w.pool.pageTable p = some f → (w.pool.pages f).isDirty = false
  cached : ∀ p f, live p.fd → w.pool.pageTable p = some f → (w.pool.pages f).data = w.store p
  uncached : ∀ p, live p.fd → w.pool.pageTable p = none → 0 ≤ p.pageNo →
    w.pool.diskManager.diskPage p = w.store p
  saved : ∀ p f, live p.fd → w.pool.pageTable p = some f → (w.pool.pages f).isDirty = false →
    (∀ c, w.unsaved c p = false) → w.created p = false → w.pool.diskManager.diskPage p = w.store p
  unsaved_held : ∀ c p, w.unsaved c p = true → ∃ f, ⟨c, p, f⟩ ∈ w.pins
  created_held : ∀ p, w.created p = true → ∃ c f, ⟨c, p, f⟩ ∈ w.pins

namespace Sim

theorem start {dm : DiskManager} (distinct : dm.Distinct) (counters : ∀ fd, 0 ≤ dm.fd2pageno fd)
    (junk : Fin N → Int) (live : Int → Prop) : Sim live (World.start dm junk : World C N) where
  inv := .new counters junk
  distinct := distinct
  held _ _ _ member := absurd member List.not_mem_nil
  count _ _ found := by cases found
  nonneg _ _ found := by cases found
  stale _ _ _ found := by cases found
  cached _ _ _ found := by cases found
  uncached _ _ _ _ := rfl
  saved _ _ _ found := by cases found
  unsaved_held _ _ h := by cases h
  created_held _ h := by cases h

variable {live : Int → Prop} {w : World C N}

/-- Nothing is in flight on a page nobody has pinned. -/
theorem nobody (sim : Sim live w) {p : PageId} (none : ∀ c g, ⟨c, p, g⟩ ∉ w.pins) :
    (∀ c, w.unsaved c p = false) ∧ w.created p = false := by
  constructor
  · intro c
    by_contra h
    obtain ⟨g, member⟩ := sim.unsaved_held c p (by simpa using h)
    exact none c g member
  · by_contra h
    obtain ⟨c, g, member⟩ := sim.created_held p (by simpa using h)
    exact none c g member

theorem idle (sim : Sim live w) {p : PageId} {f : Fin N} (found : w.pool.pageTable p = some f)
    (unpinned : (w.pool.pages f).pinCount = 0) (c : C) (g : Fin N) : ⟨c, p, g⟩ ∉ w.pins := by
  intro member
  have count := sim.count p f found
  rw [unpinned] at count
  have zero : w.pins.countP (fun pin => pin.page = p) = 0 := by omega
  exact List.countP_eq_zero.mp zero _ member (by simp)

theorem held_at (sim : Sim live w) {p : PageId} {f g : Fin N} {c : C} (found : w.pool.pageTable p = some f)
    (member : ⟨c, p, g⟩ ∈ w.pins) : g = f := Option.some.inj ((sim.held c p g member).symm.trans found)

theorem missing_idle (sim : Sim live w) {p : PageId} (missing : w.pool.pageTable p = none) (c : C) (g : Fin N) :
    ⟨c, p, g⟩ ∉ w.pins := by
  intro member
  have found := sim.held c p g member
  rw [missing] at found
  cases found

theorem idle_disk (sim : Sim live w) {p : PageId} {f : Fin N} (isLive : live p.fd) (found : w.pool.pageTable p = some f)
    (unpinned : (w.pool.pages f).pinCount = 0) (clean : (w.pool.pages f).isDirty = false) :
    w.pool.diskManager.diskPage p = (w.pool.pages f).data := by
  obtain ⟨unsaved, created⟩ := sim.nobody (sim.idle found unpinned)
  rw [sim.cached p f isLive found]
  exact sim.saved p f isLive found clean unsaved created

/-- The disk after the page of an unpinned frame was written back if dirty: it has
the store's bytes for that page and is unchanged elsewhere. -/
theorem wroteBack (sim : Sim live w) {f : Fin N} {dm : DiskManager}
    (unpinned : (w.pool.pages f).pinCount = 0)
    (wrote : WroteBack w.pool.diskManager dm (w.pool.pages f)) :
    dm.Distinct ∧
      (∀ p, live p.fd → w.pool.pageTable p = some f → dm.diskPage p = w.store p) ∧
      ∀ p, 0 ≤ p.pageNo → w.pool.pageTable p ≠ some f →
        dm.diskPage p = w.pool.diskManager.diskPage p := by
  refine ⟨wrote.distinct sim.distinct, ?_, ?_⟩
  · intro p isLive found
    have atP := sim.inv.idOf found
    have disk := wrote.self (fun clean => by rw [atP]; exact sim.idle_disk isLive found unpinned clean)
    rw [atP] at disk
    rw [disk, sim.cached p f isLive found]
  · intro p nonneg notHere
    by_cases same : p = (w.pool.pages f).id
    · -- a frame whose id is an unmapped page is free, hence clean, and nothing was written
      have free : f ∈ w.pool.freeList := by
        by_contra used
        exact notHere (same ▸ sim.inv.mapped used)
      have clean := (sim.inv.free_clean f free).2
      rw [WroteBack, if_neg (by simp [clean])] at wrote
      rw [wrote]
    · exact wrote.other sim.distinct same nonneg

/-- Two worlds that differ at most in one cached page and its frame. -/
structure SameBut (p : PageId) (f : Fin N) (w v : World C N) : Prop where
  table : v.pool.pageTable = w.pool.pageTable
  pages : ∀ g, g ≠ f → v.pool.pages g = w.pool.pages g
  disk : ∀ q, q ≠ p → 0 ≤ q.pageNo → v.pool.diskManager.diskPage q = w.pool.diskManager.diskPage q
  pins : ∀ q, q ≠ p → (v.pins.filter fun pin => pin.page = q).Perm (w.pins.filter fun pin => pin.page = q)
  unsaved : ∀ c q, q ≠ p → v.unsaved c q = w.unsaved c q
  created : ∀ q, q ≠ p → v.created q = w.created q
  store : ∀ q, q ≠ p → v.store q = w.store q

theorem SameBut.pin_iff {p q : PageId} {f g : Fin N} {v : World C N} (same : SameBut p f w v) (different : q ≠ p)
    (c : C) : ⟨c, q, g⟩ ∈ v.pins ↔ ⟨c, q, g⟩ ∈ w.pins := by
  have members := (same.pins q different).mem_iff (a := ⟨c, q, g⟩)
  simpa using members

/-- A step that changes one cached page need only be looked at there. -/
theorem change (sim : Sim live w) {p : PageId} {f : Fin N} {v : World C N} (isLive : live p.fd)
    (found : w.pool.pageTable p = some f) (same : SameBut p f w v) (inv : PoolInv v.pool)
    (distinct : v.pool.diskManager.Distinct) (held : ∀ c g, ⟨c, p, g⟩ ∈ v.pins → g = f)
    (count : (v.pool.pages f).pinCount = v.pins.countP fun pin => pin.page = p)
    (cached : (v.pool.pages f).data = v.store p)
    (saved : (v.pool.pages f).isDirty = false → (∀ c, v.unsaved c p = false) → v.created p = false →
      v.pool.diskManager.diskPage p = v.store p)
    (unsaved_held : ∀ c, v.unsaved c p = true → ∃ g, ⟨c, p, g⟩ ∈ v.pins)
    (created_held : v.created p = true → ∃ c g, ⟨c, p, g⟩ ∈ v.pins) : Sim live v := by
  have other : ∀ q g, q ≠ p → w.pool.pageTable q = some g → v.pool.pages g = w.pool.pages g :=
    fun q g different atQ => same.pages g (sim.inv.frameInv.tableInv.apart found atQ different)
  constructor
  case inv => exact inv
  case distinct => exact distinct
  case held =>
    intro c q g member
    rw [same.table]
    by_cases here : q = p
    · subst q
      rw [held c g member]
      exact found
    · exact sim.held c q g ((same.pin_iff here c).mp member)
  case count =>
    intro q g atQ
    rw [same.table] at atQ
    by_cases here : q = p
    · subst q
      cases found.symm.trans atQ
      exact count
    · rw [other q g here atQ, sim.count q g atQ, List.countP_eq_length_filter, List.countP_eq_length_filter,
        (same.pins q here).length_eq]
  case nonneg =>
    intro q g atQ
    rw [same.table] at atQ
    exact sim.nonneg q g atQ
  case stale =>
    intro q g notLive atQ
    rw [same.table] at atQ
    have different : q ≠ p := by
      rintro rfl
      exact notLive isLive
    rw [other q g different atQ]
    exact sim.stale q g notLive atQ
  case cached =>
    intro q g liveQ atQ
    rw [same.table] at atQ
    by_cases here : q = p
    · subst q
      cases found.symm.trans atQ
      exact cached
    · rw [other q g here atQ, same.store q here]
      exact sim.cached q g liveQ atQ
  case uncached =>
    intro q liveQ missing lower
    rw [same.table] at missing
    have different : q ≠ p := by
      rintro rfl
      cases found.symm.trans missing
    rw [same.disk q different lower, same.store q different]
    exact sim.uncached q liveQ missing lower
  case saved =>
    intro q g liveQ atQ clean notUnsaved notCreated
    rw [same.table] at atQ
    by_cases here : q = p
    · subst q
      cases found.symm.trans atQ
      exact saved clean notUnsaved notCreated
    · rw [other q g here atQ] at clean
      rw [same.created q here] at notCreated
      rw [same.disk q here (sim.nonneg q g atQ), same.store q here]
      exact sim.saved q g liveQ atQ clean (fun c => (same.unsaved c q here).symm.trans (notUnsaved c)) notCreated
  case unsaved_held =>
    intro c q marked
    by_cases here : q = p
    · subst q
      exact unsaved_held c marked
    · rw [same.unsaved c q here] at marked
      obtain ⟨g, member⟩ := sim.unsaved_held c q marked
      exact ⟨g, (same.pin_iff here c).mpr member⟩
  case created_held =>
    intro q isNew
    by_cases here : q = p
    · subst q
      exact created_held isNew
    · rw [same.created q here] at isNew
      obtain ⟨c, g, member⟩ := sim.created_held q isNew
      exact ⟨c, g, (same.pin_iff here c).mpr member⟩

/-- A victim takes over an uncached page `p`, for which the store may be given new
bytes; those are in the frame, and on disk unless `p` counts as created. -/
theorem install (sim : Sim live w) (c : C) {p : PageId} {f : Fin N} {rest : List (Fin N)}
    {r : LRUReplacer (Fin N)} {dm dm' : DiskManager} {data : PageData} {created : PageId → Bool}
    {store : PageId → PageData} (victim : Victim w.pool f rest r)
    (wrote : WroteBack w.pool.diskManager dm (w.pool.pages f)) (sameOs : dm'.os = dm.os)
    (missing : w.pool.pageTable p = none) (nonneg : 0 ≤ p.pageNo) (isLive : live p.fd)
    (inv : PoolInv (BufferPoolManager.install p f data (w.pool.taken f rest r dm')))
    (atP : data = store p) (onDisk : created p = true ∨ dm'.diskPage p = store p)
    (otherStore : ∀ q, q ≠ p → store q = w.store q) (otherCreated : ∀ q, q ≠ p → created q = w.created q) :
    Sim live ⟨BufferPoolManager.install p f data (w.pool.taken f rest r dm'), ⟨c, p, f⟩ :: w.pins, w.unsaved,
      created, store⟩ := by
  have unpinned := sim.inv.victim_unpinned victim
  obtain ⟨distinct, diskSelf, diskOther⟩ := sim.wroteBack unpinned wrote
  have sameDisk : dm'.diskPage = dm.diskPage := by
    funext q
    simp only [DiskManager.diskPage, DiskManager.fileOf, sameOs]
  have table : ∀ q g, (BufferPoolManager.install p f data (w.pool.taken f rest r dm')).pageTable q = some g ↔
      (q = p ∧ g = f) ∨ (q ≠ p ∧ w.pool.pageTable q = some g ∧ g ≠ f) :=
    fun q g => sim.inv.tableInv.install_iff sim.inv.valid_mapped
  constructor
  case inv => exact inv
  case distinct =>
    change ∀ fd fd' ino, dm'.os.fds fd = some ino → dm'.os.fds fd' = some ino → fd = fd'
    rw [sameOs]
    exact distinct
  case held =>
    intro d q g member
    refine (table q g).mpr ?_
    rcases List.mem_cons.mp member with new | old
    · cases new
      exact Or.inl ⟨rfl, rfl⟩
    · have found := sim.held d q g old
      refine Or.inr ⟨?_, found, ?_⟩
      · rintro rfl
        rw [missing] at found
        cases found
      · rintro rfl
        exact sim.idle found unpinned d g old
  case count =>
    intro q g found
    rcases (table q g).mp found with ⟨rfl, rfl⟩ | ⟨other, old, notVictim⟩
    · have zero : w.pins.countP (fun pin => pin.page = q) = 0 := by
        apply List.countP_eq_zero.mpr
        rintro ⟨d, q', g'⟩ member same
        have same : q' = q := by simpa using same
        subst q'
        exact sim.missing_idle missing d g' member
      simp [install_page_self, zero]
    · rw [install_page_other notVictim, sim.count q g old]
      simp [Ne.symm other]
  case nonneg =>
    intro q g found
    rcases (table q g).mp found with ⟨rfl, rfl⟩ | ⟨other, old, notVictim⟩
    · exact nonneg
    · exact sim.nonneg q g old
  case stale =>
    intro q g notLive found
    rcases (table q g).mp found with ⟨rfl, rfl⟩ | ⟨other, old, notVictim⟩
    · exact absurd isLive notLive
    · rw [install_page_other notVictim]
      exact sim.stale q g notLive old
  case cached =>
    intro q g liveQ found
    rcases (table q g).mp found with ⟨rfl, rfl⟩ | ⟨other, old, notVictim⟩
    · rw [install_page_self]
      exact atP
    · rw [install_page_other notVictim]
      change _ = store q
      rw [otherStore q other]
      exact sim.cached q g liveQ old
  case uncached =>
    intro q liveQ absent lower
    have other : q ≠ p := by
      rintro rfl
      rw [install_table_self] at absent
      cases absent
    change dm'.diskPage q = store q
    rw [sameDisk, otherStore q other]
    cases old : w.pool.pageTable q with
    | none => rw [diskOther q lower (by simp [old]), sim.uncached q liveQ old lower]
    | some g =>
      have same : g = f := by
        by_contra notVictim
        rw [(table q g).mpr (Or.inr ⟨other, old, notVictim⟩)] at absent
        cases absent
      subst g
      exact diskSelf q liveQ old
  case saved =>
    intro q g liveQ found clean unsaved notCreated
    change dm'.diskPage q = store q
    rcases (table q g).mp found with ⟨rfl, rfl⟩ | ⟨other, old, notVictim⟩
    · rcases onDisk with isNew | disk
      · cases isNew.symm.trans notCreated
      · exact disk
    · rw [install_page_other notVictim] at clean
      change created q = false at notCreated
      rw [otherCreated q other] at notCreated
      rw [sameDisk, otherStore q other, diskOther q (sim.nonneg q g old) (by simpa [old] using notVictim)]
      exact sim.saved q g liveQ old clean unsaved notCreated
  case unsaved_held =>
    intro d q marked
    obtain ⟨g, member⟩ := sim.unsaved_held d q marked
    exact ⟨g, List.mem_cons_of_mem _ member⟩
  case created_held =>
    intro q isNew
    by_cases other : q = p
    · subst q
      exact ⟨c, f, List.mem_cons_self⟩
    · change created q = true at isNew
      rw [otherCreated q other] at isNew
      obtain ⟨d, g, member⟩ := sim.created_held q isNew
      exact ⟨d, g, List.mem_cons_of_mem _ member⟩

theorem fetch (sim : Sim live w) (c : C) {p : PageId} {f : Fin N} {t : BufferPoolManager N} (isLive : live p.fd)
    (admissible : p.pageNo < w.pool.counter p.fd) (run : fetchPage p w.pool = .ok (some f) t) :
    Sim live { w with pool := t, pins := ⟨c, p, f⟩ :: w.pins } := by
  have inv := sim.inv.fetchPage admissible run
  rcases fetchPage_cases run with ⟨g, found, same, rfl⟩ | ⟨_, same, _⟩ |
    ⟨g, rest, repl, dm, data, missing, same, victim, wrote, read, rfl⟩
  · cases same
    refine sim.change isLive found ?same inv sim.distinct ?held ?count ?cached ?saved ?unsaved_held ?created_held
    case same =>
      refine ⟨rfl, fun g other => Function.update_of_ne other .., fun _ _ _ => rfl, fun q other => ?_,
        fun _ _ _ => rfl, fun _ _ => rfl, fun _ _ => rfl⟩
      rw [List.filter_cons_of_neg (by simpa using Ne.symm other)]
    case held =>
      intro d g member
      rcases List.mem_cons.mp member with new | old
      · cases new
        rfl
      · exact sim.held_at found old
    case count =>
      have count := sim.count p f found
      simp only [setPage, Function.update_self, List.countP_cons, decide_true, if_true]
      omega
    case cached =>
      simp only [setPage, Function.update_self]
      exact sim.cached p f isLive found
    case saved =>
      simp only [setPage, Function.update_self]
      exact sim.saved p f isLive found
    case unsaved_held =>
      intro d marked
      obtain ⟨g, member⟩ := sim.unsaved_held d p marked
      exact ⟨g, List.mem_cons_of_mem _ member⟩
    case created_held =>
      intro isNew
      obtain ⟨d, g, member⟩ := sim.created_held p isNew
      exact ⟨d, g, List.mem_cons_of_mem _ member⟩
  · cases same
  · cases same
    obtain ⟨rfl, nonneg⟩ := DiskManager.readPage_diskPage read
    obtain ⟨_, _, diskOther⟩ := sim.wroteBack (sim.inv.victim_unpinned victim) wrote
    have disk : dm.diskPage p = w.store p := by
      rw [diskOther p nonneg (by simp [missing]), sim.uncached p isLive missing nonneg]
    exact sim.install c victim wrote rfl missing nonneg isLive inv disk (Or.inr disk) (fun _ _ => rfl) (fun _ _ => rfl)

theorem create (sim : Sim live w) (c : C) {fd : Int} {p : PageId} {f : Fin N} {t : BufferPoolManager N}
    (isLive : live fd) (monotone : ∀ fd, w.pool.counter fd ≤ t.counter fd)
    (run : newPage fd w.pool = .ok (some (p, f)) t) :
    Sim live ⟨t, ⟨c, p, f⟩ :: w.pins, w.unsaved, Function.update w.created p true,
      Function.update w.store p Block.zero⟩ := by
  have inv := sim.inv.newPage monotone run
  rcases newPage_cases run with ⟨same, _⟩ |
    ⟨g, rest, repl, dm, dm', pageNo, same, victim, wrote, allocated, rfl⟩
  · cases same
  · cases same
    obtain ⟨rfl, rfl⟩ := allocatePage_ok allocated
    have atCounter : dm.fd2pageno fd = w.pool.counter fd := congrFun wrote.counters fd
    refine sim.install c victim wrote rfl ?_ ?_ isLive inv (by simp) (Or.inl (by simp))
      (fun q other => Function.update_of_ne other ..) (fun q other => Function.update_of_ne other ..)
    · rw [atCounter]
      exact sim.inv.counter_missing fd
    · change 0 ≤ dm.fd2pageno fd
      rw [atCounter]
      exact sim.inv.counter_nonneg fd

/-- A write by a pin holder changes the frame and the store alike. -/
theorem modify [DecidableEq C] (sim : Sim live w) {c : C} {p : PageId} {f : Fin N} (data : PageData)
    (isLive : live p.fd) (member : ⟨c, p, f⟩ ∈ w.pins) :
    Sim live { w with
        pool := w.pool.setPage f { w.pool.pages f with data := data },
        unsaved := mark w.unsaved c p true, store := Function.update w.store p data } := by
  have found := sim.held c p f member
  refine sim.change isLive found ?same (sim.inv.setData f data) sim.distinct (fun _ _ => sim.held_at found) ?count
    ?cached ?saved ?unsaved_held (sim.created_held p)
  case same =>
    exact ⟨rfl, fun g other => Function.update_of_ne other .., fun _ _ _ => rfl, fun _ _ => .refl _,
      fun d q other => mark_of_ne _ c d true other, fun _ _ => rfl, fun q other => Function.update_of_ne other ..⟩
  case count =>
    simp only [setPage, Function.update_self]
    exact sim.count p f found
  case cached => simp only [setPage, Function.update_self]
  case saved =>
    -- the writer has marked the page
    exact fun _ notUnsaved => absurd ((mark_self w.unsaved c p true).symm.trans (notUnsaved c)) (by decide)
  case unsaved_held =>
    intro d marked
    by_cases writer : d = c
    · exact ⟨f, writer ▸ member⟩
    · change mark w.unsaved c p true d p = true at marked
      rw [mark_apply, if_neg fun both => writer both.1] at marked
      exact sim.unsaved_held d p marked

theorem countP_erase [DecidableEq C] {c : C} {p q : PageId} {f : Fin N} (member : ⟨c, p, f⟩ ∈ w.pins) :
    w.pins.countP (fun pin => pin.page = q) =
      (w.pins.erase ⟨c, p, f⟩).countP (fun pin => pin.page = q) + if p = q then 1 else 0 := by
  rw [(List.perm_cons_erase member).countP_eq, List.countP_cons]
  simp

theorem release [DecidableEq C] (sim : Sim live w) {c : C} {p : PageId} {f : Fin N} {isDirty r : Bool}
    {t : BufferPoolManager N} (isLive : live p.fd) (member : ⟨c, p, f⟩ ∈ w.pins)
    (keep : isDirty = false → w.unsaved c p = true → ∃ g, ⟨c, p, g⟩ ∈ w.pins.erase ⟨c, p, f⟩)
    (keepNew : isDirty = false → w.created p = true → ∃ d g, ⟨d, p, g⟩ ∈ w.pins.erase ⟨c, p, f⟩)
    (run : unpinPage p isDirty w.pool = .ok r t) :
    Sim live { w with
        pool := t, pins := w.pins.erase ⟨c, p, f⟩,
        unsaved := if isDirty then mark w.unsaved c p false else w.unsaved,
        created := if isDirty then Function.update w.created p false else w.created } := by
  have inv := sim.inv.unpinPage run
  have found := sim.held c p f member
  have count := sim.count p f found
  have erased := countP_erase (q := p) member
  rw [if_pos rfl] at erased
  rcases unpinPage_cases run with ⟨_, _, low⟩ | ⟨g, _, atP, held, rfl⟩
  · have := low f found
    omega
  cases found.symm.trans atP
  refine sim.change isLive found ?same inv sim.distinct (fun _ _ old => sim.held_at found (List.mem_of_mem_erase old))
    ?count ?cached ?saved ?unsaved_held ?created_held
  case same =>
    refine ⟨rfl, fun g other => Function.update_of_ne other .., fun _ _ _ => rfl, fun q other => ?_,
      fun d q other => ?_, fun q other => ?_, fun _ _ => rfl⟩
    · have pins := (List.perm_cons_erase member).filter fun pin => pin.page = q
      rw [List.filter_cons_of_neg (by simpa using Ne.symm other)] at pins
      exact pins.symm
    · cases isDirty with
      | false => rfl
      | true => exact mark_of_ne _ c d false other
    · cases isDirty with
      | false => rfl
      | true => exact Function.update_of_ne other ..
  case count =>
    simp only [setPage, Function.update_self]
    omega
  case cached =>
    simp only [setPage, Function.update_self]
    exact sim.cached p f isLive found
  case saved =>
    simp only [setPage, Function.update_self, Bool.or_eq_false_iff]
    rintro ⟨clean, rfl⟩
    exact sim.saved p f isLive found clean
  case unsaved_held =>
    intro d marked
    by_cases same : d = c
    · subst d
      cases isDirty with
      | false => exact keep rfl marked
      | true => simp [mark_apply] at marked
    · have old : w.unsaved d p = true := by
        cases isDirty with
        | false => exact marked
        | true => simpa [mark_apply, same] using marked
      obtain ⟨g, still⟩ := sim.unsaved_held d p old
      refine ⟨g, (List.mem_erase_of_ne ?_).mpr still⟩
      intro pin
      cases pin
      exact same rfl
  case created_held =>
    intro isNew
    cases isDirty with
    | false => exact keepNew rfl isNew
    | true => simp at isNew

/-- A cached page is written to disk. The marks may change for that page. -/
theorem wrote (sim : Sim live w) {p : PageId} {f : Fin N} {dm : DiskManager} {unsaved : C → PageId → Bool}
    (isLive : live p.fd) (found : w.pool.pageTable p = some f)
    (write : w.pool.diskManager.writePage p.fd p.pageNo (w.pool.pages f).data.peek PAGE_SIZE = (dm, none))
    (fewer : ∀ d q, unsaved d q = true → w.unsaved d q = true)
    (others : ∀ d q, q ≠ p → unsaved d q = w.unsaved d q) :
    Sim live { w with
        pool := { w.pool with diskManager := dm }.setPage f { w.pool.pages f with isDirty := false },
        unsaved := unsaved } ∧
      dm.diskPage p = w.store p := by
  have disk : dm.diskPage p = w.store p :=
    (DiskManager.diskPage_writePage_self write).trans (sim.cached p f isLive found)
  have diskOther : ∀ q, q ≠ p → 0 ≤ q.pageNo → dm.diskPage q = w.pool.diskManager.diskPage q :=
    fun q => DiskManager.diskPage_writePage_other sim.distinct write le_rfl
  refine ⟨?_, disk⟩
  refine sim.change isLive found ?same (sim.inv.wroteFrame f (writePage_counters write)) (sim.distinct.writePage write)
    (fun _ _ => sim.held_at found) ?count ?cached (fun _ _ _ => disk)
    (fun d marked => sim.unsaved_held d p (fewer d p marked)) (sim.created_held p)
  case same =>
    exact ⟨rfl, fun g other => Function.update_of_ne other .., diskOther, fun _ _ => .refl _, others, fun _ _ => rfl,
      fun _ _ => rfl⟩
  case count =>
    simp only [setPage, Function.update_self]
    exact sim.count p f found
  case cached =>
    simp only [setPage, Function.update_self]
    exact sim.cached p f isLive found

/-- Deleting a page drops an idle frame whose bytes are then on disk. -/
theorem delete (sim : Sim live w) {p : PageId} {r : Bool} {t : BufferPoolManager N}
    (run : deletePage p w.pool = .ok r t) : Sim live { w with pool := t } := by
  have inv := sim.inv.deletePage run
  rcases deletePage_cases (fun f found => sim.inv.idOf found) run with ⟨rfl, _⟩ |
    ⟨f, dm, _, found, unpinned, wrote, rfl⟩
  · exact sim
  · obtain ⟨distinct, diskSelf, diskOther⟩ := sim.wroteBack unpinned wrote
    have other : ∀ q g, Function.update w.pool.pageTable p none q = some g →
        w.pool.pageTable q = some g ∧ g ≠ f := by
      intro q g atQ
      by_cases same : q = p
      · subst q
        simp at atQ
      · rw [Function.update_of_ne same] at atQ
        refine ⟨atQ, ?_⟩
        rintro rfl
        exact same ((sim.inv.idOf atQ).symm.trans (sim.inv.idOf found))
    have page : ∀ g, g ≠ f → Function.update w.pool.pages f
        ⟨⟨(w.pool.pages f).id.fd, INVALID_PAGE_ID⟩, Block.zero, false, 0⟩ g = w.pool.pages g :=
      fun g notF => Function.update_of_ne notF ..
    constructor
    case inv => exact inv
    case distinct => exact distinct
    case held =>
      intro d q g member
      have atQ := sim.held d q g member
      have different : q ≠ p := by
        rintro rfl
        exact sim.idle found unpinned d g member
      change Function.update w.pool.pageTable p none q = some g
      rwa [Function.update_of_ne different]
    case count =>
      intro q g atQ
      obtain ⟨old, notF⟩ := other q g atQ
      change (Function.update w.pool.pages f _ g).pinCount = _
      rw [page g notF]
      exact sim.count q g old
    case nonneg => exact fun q g atQ => sim.nonneg q g (other q g atQ).1
    case stale =>
      intro q g notLive atQ
      obtain ⟨old, notF⟩ := other q g atQ
      change (Function.update w.pool.pages f _ g).isDirty = false
      rw [page g notF]
      exact sim.stale q g notLive old
    case cached =>
      intro q g liveQ atQ
      obtain ⟨old, notF⟩ := other q g atQ
      change (Function.update w.pool.pages f _ g).data = _
      rw [page g notF]
      exact sim.cached q g liveQ old
    case uncached =>
      intro q liveQ missing nonneg
      by_cases same : q = p
      · subst q
        exact diskSelf p liveQ found
      · change Function.update w.pool.pageTable p none q = none at missing
        rw [Function.update_of_ne same] at missing
        exact (diskOther q nonneg (by simp [missing])).trans (sim.uncached q liveQ missing nonneg)
    case saved =>
      intro q g liveQ atQ clean
      obtain ⟨old, notF⟩ := other q g atQ
      change (Function.update w.pool.pages f _ g).isDirty = false at clean
      rw [page g notF] at clean
      intro marks notCreated
      refine (diskOther q (sim.nonneg q g old) ?_).trans (sim.saved q g liveQ old clean marks notCreated)
      simpa [old] using notF
    case unsaved_held => exact sim.unsaved_held
    case created_held => exact sim.created_held

/-- The loop of `flush_all_pages`: what was on disk stays correct, and the
frames the loop has visited are on disk. -/
theorem flushFrames (sim : Sim live w) {fd : Int} {list : List (Fin N)} {u : Unit} {t : BufferPoolManager N}
    (isLive : live fd) (run : flushFrames fd list w.pool = .ok u t) :
    Sim live { w with pool := t } ∧ t.pageTable = w.pool.pageTable ∧
      ∀ p, p.fd = fd ∧ (∃ f ∈ list, w.pool.pageTable p = some f) ∨
        0 ≤ p.pageNo ∧ w.pool.diskManager.diskPage p = w.store p → t.diskManager.diskPage p = w.store p := by
  induction list generalizing w with
  | nil =>
    cases run
    refine ⟨sim, rfl, ?_⟩
    rintro p (⟨_, _, member, _⟩ | ⟨_, disk⟩)
    · exact absurd member List.not_mem_nil
    · exact disk
  | cons f rest ih =>
    obtain ⟨middle, later, ⟨mine, valid, dm, write, rfl⟩ | ⟨other, rfl⟩⟩ := flushFrames_cons run
    · have found : w.pool.pageTable (w.pool.pages f).id = some f := (sim.inv.table_iff _ f).mpr ⟨rfl, valid⟩
      obtain ⟨next, disk⟩ := sim.wrote (mine ▸ isLive) found write (fun _ _ marked => marked) (fun _ _ _ => rfl)
      obtain ⟨last, table, onDisk⟩ := ih next later
      refine ⟨last, table, ?_⟩
      rintro p (⟨atFd, g, member, atP⟩ | ⟨nonneg, before⟩)
      · rcases List.mem_cons.mp member with rfl | inRest
        · have same := sim.inv.idOf atP
          subst p
          exact onDisk _ (Or.inr ⟨sim.nonneg _ g found, disk⟩)
        · exact onDisk p (Or.inl ⟨atFd, g, inRest, atP⟩)
      · refine onDisk p (Or.inr ⟨nonneg, ?_⟩)
        by_cases same : p = (w.pool.pages f).id
        · rw [same]
          exact disk
        · exact (DiskManager.diskPage_writePage_other sim.distinct write le_rfl same nonneg).trans before
    · obtain ⟨last, table, onDisk⟩ := ih sim later
      refine ⟨last, table, ?_⟩
      rintro p (⟨atFd, g, member, atP⟩ | before)
      · rcases List.mem_cons.mp member with rfl | inRest
        · obtain ⟨rfl, valid⟩ := (sim.inv.table_iff p g).mp atP
          exact absurd ⟨atFd, valid⟩ other
        · exact onDisk p (Or.inl ⟨atFd, g, inRest, atP⟩)
      · exact onDisk p (Or.inr before)

end Sim

/-- The page number is below the counter of its file, as `fetch_page_handle` checks. -/
def Allocated (w : World C N) (p : PageId) : Prop := p.pageNo < w.pool.counter p.fd

variable [DecidableEq C]

/-- One call of one client, or one modification of the bytes of a page by a
client that has it pinned, through the frame it was given; `allowed` says which
pages the clients fetch. A release that is not dirty is allowed only if the
client's modifications are saved or it still holds the page, and only if a
created page was released dirty before or stays pinned. -/
inductive Step (allowed : World C N → PageId → Prop) : World C N → World C N → Prop
  | fetch {w : World C N} (c : C) {p : PageId} {f : Fin N} {t : BufferPoolManager N} :
      allowed w p → fetchPage p w.pool = .ok (some f) t →
      Step allowed w { w with pool := t, pins := ⟨c, p, f⟩ :: w.pins }
  | refused {w : World C N} {p : PageId} {t : BufferPoolManager N} :
      fetchPage p w.pool = .ok none t → Step allowed w { w with pool := t }
  | create {w : World C N} (c : C) {fd : Int} {p : PageId} {f : Fin N} {t : BufferPoolManager N} :
      newPage fd w.pool = .ok (some (p, f)) t → (∀ fd, w.pool.counter fd ≤ t.counter fd) →
      Step allowed w { w with
        pool := t, pins := ⟨c, p, f⟩ :: w.pins,
        created := Function.update w.created p true,
        store := Function.update w.store p Block.zero }
  | notCreated {w : World C N} {fd : Int} {t : BufferPoolManager N} :
      newPage fd w.pool = .ok none t → Step allowed w { w with pool := t }
  | modify {w : World C N} {c : C} {p : PageId} {f : Fin N} (data : PageData) : ⟨c, p, f⟩ ∈ w.pins →
      Step allowed w { w with
        pool := w.pool.setPage f { w.pool.pages f with data := data },
        unsaved := mark w.unsaved c p true,
        store := Function.update w.store p data }
  | release {w : World C N} {c : C} {p : PageId} {f : Fin N} {r : Bool} {t : BufferPoolManager N}
      (isDirty : Bool) : ⟨c, p, f⟩ ∈ w.pins →
      (isDirty = false → w.unsaved c p = true → ∃ g, ⟨c, p, g⟩ ∈ w.pins.erase ⟨c, p, f⟩) →
      (isDirty = false → w.created p = true → ∃ d g, ⟨d, p, g⟩ ∈ w.pins.erase ⟨c, p, f⟩) →
      unpinPage p isDirty w.pool = .ok r t →
      Step allowed w { w with
        pool := t, pins := w.pins.erase ⟨c, p, f⟩,
        unsaved := if isDirty then mark w.unsaved c p false else w.unsaved,
        created := if isDirty then Function.update w.created p false else w.created }
  | flush {w : World C N} (c : C) {p : PageId} {r : Bool} {t : BufferPoolManager N} :
      flushPage p w.pool = .ok r t →
      Step allowed w { w with pool := t, unsaved := mark w.unsaved c p false }
  | delete {w : World C N} {p : PageId} {r : Bool} {t : BufferPoolManager N} :
      deletePage p w.pool = .ok r t → Step allowed w { w with pool := t }
  | flushAll {w : World C N} {fd : Int} {u : Unit} {t : BufferPoolManager N} :
      flushAllPages fd w.pool = .ok u t → Step allowed w { w with pool := t }
  | setFd2pageno {w : World C N} (fd n : Int) : w.pool.counter fd ≤ n →
      Step allowed w { w with pool := { w.pool with diskManager := w.pool.diskManager.setFd2pageno fd n } }

inductive Reach (allowed : World C N → PageId → Prop) : World C N → Prop
  | start {dm : DiskManager} (junk : Fin N → Int) : dm.Distinct → (∀ fd, 0 ≤ dm.fd2pageno fd) →
      Reach allowed (start dm junk)
  | step {w v : World C N} : Reach allowed w → Step allowed w v → Reach allowed v

theorem Sim.step {w v : World C N} (sim : Sim (fun _ => True) w) (step : Step Allocated w v) :
    Sim (fun _ => True) v := by
  cases step with
  | fetch c admissible run => exact sim.fetch c trivial admissible run
  | refused run =>
    rcases fetchPage_cases run with ⟨_, _, same, _⟩ | ⟨_, _, rfl, _⟩ | ⟨_, _, _, _, _, _, same, _⟩
    · cases same
    · exact sim
    · cases same
  | create c run monotone => exact sim.create c trivial monotone run
  | notCreated run =>
    rcases newPage_cases run with ⟨_, rfl, _⟩ | ⟨_, _, _, _, _, _, same, _⟩
    · exact sim
    · cases same
  | modify data member => exact sim.modify data trivial member
  | release isDirty member keep keepNew run => exact sim.release trivial member keep keepNew run
  | @flush c p _ _ run =>
    have fewer : ∀ d q, mark w.unsaved c p false d q = true → w.unsaved d q = true := by
      intro d q marked
      rw [mark_apply] at marked
      split at marked
      · cases marked
      · exact marked
    have others : ∀ d q, q ≠ p → mark w.unsaved c p false d q = w.unsaved d q := by
      intro d q different
      simp [mark_apply, different]
    rcases flushPage_cases run with ⟨missing, _, rfl⟩ | ⟨f, dm, found, _, write, rfl⟩
    · have same : mark w.unsaved c p false = w.unsaved := by
        funext d q
        rw [mark_apply]
        split
        · rename_i here
          rw [here.2]
          exact ((sim.nobody (sim.missing_idle missing)).1 d).symm
        · rfl
      rw [same]
      exact sim
    · exact (sim.wrote trivial found write fewer others).1
  | delete run => exact sim.delete run
  | flushAll run => exact (sim.flushFrames trivial run).1
  | setFd2pageno fd n up =>
    exact ⟨sim.inv.raise up, sim.distinct, sim.held, sim.count, sim.nonneg, sim.stale, sim.cached, sim.uncached,
      sim.saved, sim.unsaved_held, sim.created_held⟩

theorem Reach.sim {w : World C N} (reach : Reach Allocated w) : Sim (fun _ => True) w := by
  induction reach with
  | start junk distinct counters => exact .start distinct counters junk _
  | step _ next ih => exact ih.step next

/-- The pool is transparent. Whatever was evicted, flushed or deleted before,
`fetch_page` hands out the bytes the flat store has for the page, and after a
flush the disk has them. -/
theorem pool_refines_store {w : World C N} (reach : Reach Allocated w) :
    (∀ p f t, w.Allocated p → fetchPage p w.pool = .ok (some f) t →
        (t.pages f).data = w.store p) ∧
      (∀ p t, flushPage p w.pool = .ok true t → t.diskManager.diskPage p = w.store p) ∧
      ∀ fd u t, flushAllPages fd w.pool = .ok u t → ∀ p f, t.pageTable p = some f → p.fd = fd →
        t.diskManager.diskPage p = w.store p := by
  have sim := reach.sim
  refine ⟨?_, ?_, ?_⟩
  · intro p f t admissible run
    rcases fetchPage_cases run with ⟨g, found, same, rfl⟩ | ⟨_, same, _⟩ |
      ⟨g, rest, repl, dm, data, missing, same, victim, wrote, read, rfl⟩
    · cases same
      simp only [setPage, Function.update_self]
      exact sim.cached p f trivial found
    · cases same
    · cases same
      obtain ⟨rfl, nonneg⟩ := DiskManager.readPage_diskPage read
      obtain ⟨_, _, diskOther⟩ := sim.wroteBack (sim.inv.victim_unpinned victim) wrote
      simp only [install, setPage, Function.update_self]
      rw [diskOther p nonneg (by simp [missing]), sim.uncached p trivial missing nonneg]
  · intro p t run
    rcases flushPage_cases run with ⟨_, same, _⟩ | ⟨f, dm, found, _, write, rfl⟩
    · cases same
    · exact (DiskManager.diskPage_writePage_self write).trans (sim.cached p f trivial found)
  · intro fd u t run p f found atFd
    obtain ⟨_, table, onDisk⟩ := sim.flushFrames trivial run
    rw [table] at found
    exact onDisk p (Or.inl ⟨atFd, f, List.mem_finRange f, found⟩)

theorem oneFile_distinct : oneFile.Distinct := by
  intro fd fd' ino atFd atFd'
  simp only [oneFile, Option.ite_none_right_eq_some] at atFd atFd'
  rw [atFd.1, atFd'.1]

/-- One frame, two pages: the second page evicts the modified first one, and fetching
that again gives the modified bytes back. -/
theorem pool_refines_store_after_eviction :
    ∃ (w : World Nat 1) (t : BufferPoolManager 1), Reach Allocated w ∧ w.pool.pageTable ⟨3, 0⟩ = none ∧
      fetchPage ⟨3, 0⟩ w.pool = .ok (some 0) t ∧ (t.pages 0).data = fun _ => 7 := by
  have fresh : Reach Allocated (start oneFile fun _ => 0 : World Nat 1) := .start _ oneFile_distinct fun _ => le_rfl
  have created := fresh.step (.create 0 (show newPage 3 _ = _ from rfl) (le_update_succ _ (by decide)))
  have modified := created.step (.modify (c := 0) (p := ⟨3, 0⟩) (f := 0) (fun _ => 7) (by decide))
  have released := modified.step (.release (c := 0) (p := ⟨3, 0⟩) (f := 0) true (by decide) (by simp) (by simp) rfl)
  have second := released.step (.create 1 (show newPage 3 _ = _ from rfl) (le_update_succ _ (by decide)))
  have released := second.step (.release (c := 1) (p := ⟨3, 1⟩) (f := 0) true (by decide) (by simp) (by simp) rfl)
  refine ⟨_, _, released, rfl, rfl, ?_⟩
  exact (pool_refines_store released).1 ⟨3, 0⟩ 0 _ (show (0 : Int) < 2 by decide) rfl

/-- Without the bound on fetched page numbers the pool is not transparent. The counter of a
file with a page on disk starts at zero, so `new_page` hands out the page a client fetched and
modified before; the frame left over writes its bytes back over those of the new page. -/
theorem not_transparent_above_counter :
    ¬∀ w : World Nat 2, Reach (fun _ _ => True) w → ∀ p f t, fetchPage p w.pool = .ok (some f) t →
      (t.pages f).data = w.store p := by
  intro transparent
  have distinct : (oneFile.setFile 0 (File.empty.write 0 PAGE_SIZE fun _ => 7)).Distinct := oneFile_distinct
  have fresh : Reach (fun _ _ => True) (start _ fun _ => 0 : World Nat 2) := .start _ distinct fun _ => le_rfl
  have fetched := fresh.step (.fetch (p := ⟨3, 0⟩) 0 trivial rfl)
  have modified := fetched.step (.modify (c := 0) (p := ⟨3, 0⟩) (f := 0) (fun _ => 9) (by decide))
  have released := modified.step (.release (c := 0) (p := ⟨3, 0⟩) (f := 0) true (by decide) (by simp) (by simp) rfl)
  have created := released.step (.create 1 (show newPage 3 _ = _ from rfl) (le_update_succ _ (by decide)))
  have modified := created.step (.modify (c := 1) (p := ⟨3, 0⟩) (f := 1) (fun _ => 5) (by decide))
  have released := modified.step (.release (c := 1) (p := ⟨3, 0⟩) (f := 1) true (by decide) (by simp) (by simp) rfl)
  have flushed := released.step (.flush (p := ⟨3, 0⟩) 1 rfl)
  have evicted := flushed.step (.create 2 (show newPage 3 _ = _ from rfl) (le_update_succ _ (by decide)))
  have bytes := transparent _ evicted ⟨3, 0⟩ 1 _ rfl
  exact absurd (congrFun bytes ⟨0, by decide⟩) (by decide)

end World

end Rmdb
