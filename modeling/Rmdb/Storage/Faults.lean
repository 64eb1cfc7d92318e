import Rmdb.Storage.PoolInvariant

namespace Rmdb.BufferPoolManager
variable {N : Nat} {s t : BufferPoolManager N}

/-! A call whose disk access throws ends in the middle; the pool keeps what was done until then. -/

/-- The exceptions of `read_page` and `write_page`. -/
def IsIo : Error → Prop
  | .unix | .internal _ => True
  | _ => False

/-- A frame that a later call can get. -/
def Obtainable (s : BufferPoolManager N) (f : Fin N) : Prop := f ∈ s.freeList ∨ f ∈ s.replacer.frames

instance (s : BufferPoolManager N) : DecidablePred s.Obtainable :=
  fun f => inferInstanceAs (Decidable (f ∈ s.freeList ∨ f ∈ s.replacer.frames))

/-- The pool after a failed call: no frame is lost, no cached page is lost, and as many frames can be had. -/
structure Intact (s t : BufferPoolManager N) : Prop where
  kept : ∀ f, t.Obtainable f ∨ (0 < (t.pages f).pinCount ∧ ∃ p, t.pageTable p = some f)
  cached : ∀ p f, s.pageTable p = some f →
    (t.pageTable p = some f ∧ (t.pages f).data = (s.pages f).data ∧ (t.pages f).isDirty = (s.pages f).isDirty) ∨
      t.diskManager.diskPage p = (s.pages f).data
  obtainable : (Finset.univ.filter t.Obtainable).card = (Finset.univ.filter s.Obtainable).card

/-- The state in which a call ends that took a victim and then could not write or read a page. -/
structure Broken (s t : BufferPoolManager N) (f : Fin N) (rest : List (Fin N)) (r : LRUReplacer (Fin N)) : Prop where
  freeList : t.freeList = rest
  replacer : t.replacer = r
  others : ∀ g, g ≠ f → t.pages g = s.pages g
  id : (t.pages f).id = (s.pages f).id
  pinCount : (t.pages f).pinCount = (s.pages f).pinCount
  dirty : (t.pages f).isDirty = true → (s.pages f).isDirty = true
  table : t.pageTable = s.pageTable ∨ t.pageTable = s.unmap f
  counter : t.counter = s.counter

theorem writeFrame_fails {p : PageId} {f : Fin N} {e : Error} (run : writeFrame p f s = .error e t) :
    ∃ dm, s.diskManager.writePage p.fd p.pageNo (s.pages f).data.peek PAGE_SIZE = (dm, some e) ∧
      t = { s with diskManager := dm } := by
  unfold writeFrame at run
  split at run
  · cases run
  · rename_i dm _ write
    cases run
    exact ⟨dm, write, rfl⟩

/-- The disk after a frame could not be written back, or not as a whole. -/
def WriteFailed (dm dm' : DiskManager) (p : PageId) (page : Page) : Prop :=
  page.isDirty = true ∧ ∃ e, dm.writePage p.fd p.pageNo page.data.peek PAGE_SIZE = (dm', some e)

theorem WriteFailed.counters {dm dm' : DiskManager} {p : PageId} {page : Page}
    (failed : WriteFailed dm dm' p page) : dm'.fd2pageno = dm.fd2pageno := by
  obtain ⟨_, e, write⟩ := failed
  exact writePage_counters write

theorem writeBack_fails {p : PageId} {f : Fin N} {e : Error} (run : writeBack p f s = .error e t) :
    ∃ dm, WriteFailed s.diskManager dm p (s.pages f) ∧ t = { s with diskManager := dm } := by
  unfold writeBack at run
  split at run
  · rename_i dirty
    obtain ⟨dm, write, same⟩ := writeFrame_fails run
    exact ⟨dm, ⟨dirty, e, write⟩, same⟩
  · cases run

theorem evict_fails {f : Fin N} {e : Error} (run : evict f s = .error e t) :
    ∃ dm, WriteFailed s.diskManager dm (s.pages f).id (s.pages f) ∧ t = { s with diskManager := dm } := by
  unfold evict at run
  rw [get_bind] at run
  rcases bind_eq_error.mp run with failed | ⟨_, _, _, absurd⟩
  · exact writeBack_fails failed
  · cases absurd

/-- How `fetch_page` can fail: the pins on the page overflow, the victim's page was not written, or the page was
not read. -/
theorem fetchPage_throws {p : PageId} {e : Error} (run : fetchPage p s = .error e t) :
    (e = .undefined ∧ ∃ f, s.pageTable p = some f ∧ (s.pages f).pinCount = intMax) ∨
      s.pageTable p = none ∧ ∃ f rest r, Victim s f rest r ∧
      ((∃ dm, WriteFailed s.diskManager dm (s.pages f).id (s.pages f) ∧
          t = { s with freeList := rest, replacer := r, diskManager := dm }) ∨
        ∃ dm data, WroteBack s.diskManager dm (s.pages f) ∧
          dm.readPage p.fd p.pageNo (s.pages f).data = (data, some e) ∧
          t = (s.taken f rest r dm).setPage f { s.pages f with isDirty := false, data := data }) := by
  unfold fetchPage at run
  rw [get_bind] at run
  cases found : s.pageTable p with
  | some f =>
    simp only [found] at run
    split at run
    · rename_i most
      cases run
      exact Or.inl ⟨rfl, f, rfl, most⟩
    · cases run
  | none =>
    simp only [found] at run
    refine Or.inr ⟨rfl, ?_⟩
    rcases findVictimPage_cases s with ⟨none, _, _⟩ | ⟨f, rest, r, victim, some⟩
    · rw [bind_ok none] at run
      cases run
    · rw [bind_ok some] at run
      refine ⟨f, rest, r, victim, ?_⟩
      rcases bind_eq_error.mp run with failed | ⟨_, u, evicted, run⟩
      · exact Or.inl (evict_fails failed)
      · obtain ⟨dm, wrote, rfl⟩ := evict_ok evicted
        rcases bind_eq_error.mp run with failed | ⟨_, _, _, absurd⟩
        · unfold readFrame at failed
          split at failed
          · cases failed
          · rename_i data _ read
            cases failed
            simp only [setPage, Function.update_self] at read
            refine Or.inr ⟨dm, data, wrote, read, ?_⟩
            simp only [setPage, taken, unmap, Function.update_self, Function.update_idem]
        · cases absurd

/-- An exception ends `new_page` only in the write-back of the victim, the failed assertion of
`allocate_page` after it. -/
theorem newPage_throws {fd : Int} {e : Error} (run : newPage fd s = .error e t) :
    ∃ f rest r dm, Victim s f rest r ∧
      ((e = .assertion ∧ WroteBack s.diskManager dm (s.pages f) ∧
          t = (s.taken f rest r dm).setPage f { s.pages f with isDirty := false }) ∨
        (WriteFailed s.diskManager dm (s.pages f).id (s.pages f) ∧
          t = { s with freeList := rest, replacer := r, diskManager := dm })) := by
  unfold newPage at run
  rcases findVictimPage_cases s with ⟨none, _, _⟩ | ⟨f, rest, r, victim, some⟩
  · rw [bind_ok none] at run
    cases run
  · rw [bind_ok some] at run
    rcases bind_eq_error.mp run with failed | ⟨_, _, evicted, run⟩
    · obtain ⟨dm, failed, same⟩ := evict_fails failed
      exact ⟨f, rest, r, dm, victim, Or.inr ⟨failed, same⟩⟩
    · obtain ⟨dm, wrote, rfl⟩ := evict_ok evicted
      rw [get_bind] at run
      simp only [setPage] at run
      cases allocated : dm.allocatePage fd with
      | ok result =>
        simp only [allocated] at run
        cases run
      | error e' =>
        simp only [allocated] at run
        cases run
        unfold DiskManager.allocatePage at allocated
        split at allocated
        · cases allocated
        · cases allocated
          exact ⟨f, rest, r, dm, victim, Or.inl ⟨rfl, wrote, rfl⟩⟩

/-- A failed write-back leaves the victim's page in the page table. -/
theorem Broken.of_writeFailed {f : Fin N} {rest : List (Fin N)} {r : LRUReplacer (Fin N)} {dm : DiskManager}
    (failed : WriteFailed s.diskManager dm (s.pages f).id (s.pages f)) :
    Broken s { s with freeList := rest, replacer := r, diskManager := dm } f rest r :=
  ⟨rfl, rfl, fun _ _ => rfl, rfl, rfl, fun dirty => dirty, Or.inl rfl, failed.counters⟩

theorem fetchPage_fails {p : PageId} {e : Error} (run : fetchPage p s = .error e t) :
    e = .undefined ∨ ∃ f rest r, Victim s f rest r ∧ Broken s t f rest r := by
  rcases fetchPage_throws run with ⟨abort, _⟩ | ⟨_, f, rest, r, victim, ⟨dm, failed, rfl⟩ | ⟨dm, data, wrote, _, rfl⟩⟩
  · exact Or.inl abort
  · exact Or.inr ⟨f, rest, r, victim, .of_writeFailed failed⟩
  · refine Or.inr ⟨f, rest, r, victim, ?_⟩
    constructor
    case freeList => rfl
    case replacer => rfl
    case others => exact fun g other => Function.update_of_ne other ..
    case id => simp [setPage, taken]
    case pinCount => simp [setPage, taken]
    case dirty => simp [setPage, taken]
    case table => exact Or.inr rfl
    case counter => exact wrote.counters

theorem newPage_fails {fd : Int} {e : Error} (run : newPage fd s = .error e t) :
    e = .assertion ∨ ∃ f rest r, Victim s f rest r ∧ Broken s t f rest r := by
  obtain ⟨f, rest, r, dm, victim, ⟨abort, _⟩ | ⟨failed, rfl⟩⟩ := newPage_throws run
  · exact Or.inl abort
  · exact Or.inr ⟨f, rest, r, victim, .of_writeFailed failed⟩

theorem deletePage_fails {p : PageId} {e : Error} (run : deletePage p s = .error e t) :
    ∃ f dm, s.pageTable p = some f ∧ WriteFailed s.diskManager dm p (s.pages f) ∧ t = { s with diskManager := dm } := by
  unfold deletePage at run
  rw [get_bind] at run
  cases found : s.pageTable p with
  | none =>
    simp only [found] at run
    cases run
  | some f =>
    simp only [found] at run
    split at run
    · cases run
    · rcases bind_eq_error.mp run with failed | ⟨_, _, _, absurd⟩
      · obtain ⟨dm, failed, same⟩ := writeBack_fails failed
        exact ⟨f, dm, rfl, failed, same⟩
      · cases absurd

/-- The front frame of the free list, still listed in the replacer since `delete_page` freed it. -/
def Leftover (s : BufferPoolManager N) : Prop := ∃ f rest, s.freeList = f :: rest ∧ f ∈ s.replacer.frames

namespace Broken
variable {spare : Fin N → Prop} {f : Fin N} {rest : List (Fin N)} {r : LRUReplacer (Fin N)}

/-- The victim is in no list any more, unless it was left over in the replacer. -/
theorem leftover (inv : FrameInv spare s) (victim : Victim s f rest r) (broken : Broken s t f rest r)
    (listed : t.Obtainable f) : s.freeList = f :: rest ∧ r = s.replacer ∧ f ∈ s.replacer.frames := by
  have notFree : f ∉ rest := fun member => (((victim.rest_free inv.free_nodup).2 f).mp member).2 rfl
  have inReplacer : f ∈ r.frames := by
    rcases listed with free | listed
    · exact absurd (broken.freeList ▸ free) notFree
    · exact broken.replacer ▸ listed
  cases victim with
  | free list => exact ⟨list, rfl, inReplacer⟩
  | listed _ run =>
    have nodup := inv.wf.frames_nodup
    rw [(LRUReplacer.victim_some run).1] at nodup
    exact absurd rfl ((List.nodup_append.mp nodup).2.2 f inReplacer f List.mem_cons_self)

theorem unmapped (inv : FrameInv spare s) (broken : Broken s t f rest r) (free : f ∈ s.freeList) :
    t.pageTable = s.pageTable := by
  rcases broken.table with same | unmapped
  · exact same
  · rw [unmapped, unmap, if_neg (not_not.mpr (inv.free_unused f free))]

/-- In that case only the free list is shorter. -/
theorem intact (inv : FrameInv spare s) (broken : Broken s t f rest s.replacer) (list : s.freeList = f :: rest)
    (listed : f ∈ s.replacer.frames) : Intact s t := by
  have free : f ∈ s.freeList := list ▸ List.mem_cons_self
  have same : ∀ g, t.Obtainable g ↔ s.Obtainable g := by
    intro g
    unfold Obtainable
    rw [broken.freeList, broken.replacer, list, List.mem_cons]
    constructor
    · rintro (member | member)
      · exact Or.inl (Or.inr member)
      · exact Or.inr member
    · rintro ((rfl | member) | member)
      · exact Or.inr listed
      · exact Or.inl member
      · exact Or.inr member
  have table := broken.unmapped inv free
  have notHere : ∀ p g, s.pageTable p = some g → g ≠ f := by
    rintro p g found rfl
    exact inv.valid found (inv.free_unused g free)
  constructor
  case kept =>
    intro g
    by_cases atF : g = f
    · exact Or.inl ((same g).mpr (atF ▸ Or.inr listed))
    · by_cases unused : (s.pages g).id.pageNo = INVALID_PAGE_ID
      · refine Or.inl ((same g).mpr ?_)
        rcases inv.unused g unused with isFree | ⟨_, isListed⟩
        · exact Or.inl isFree
        · exact Or.inr isListed
      · rw [broken.others g atF]
        by_cases unpinned : (s.pages g).pinCount = 0
        · exact Or.inl ((same g).mpr (Or.inr (inv.evictable g unused unpinned)))
        · have nonneg := inv.pin_nonneg g
          refine Or.inr ⟨by omega, (s.pages g).id, ?_⟩
          rw [table]
          exact (inv.table_iff _ g).mpr ⟨rfl, unused⟩
  case cached =>
    intro p g found
    rw [table, broken.others g (notHere p g found)]
    exact Or.inl ⟨found, rfl, rfl⟩
  case obtainable =>
    congr 1
    exact Finset.filter_congr fun g _ => same g

/-- Otherwise the victim is neither free nor evictable nor pinned. -/
theorem intact_iff (inv : FrameInv spare s) (victim : Victim s f rest r) (broken : Broken s t f rest r) :
    Intact s t ↔ Leftover s := by
  constructor
  · intro intact
    have unpinned : (t.pages f).pinCount = 0 := broken.pinCount.trans (inv.victim_unpinned victim)
    rcases intact.kept f with listed | ⟨held, _⟩
    · obtain ⟨list, _, member⟩ := broken.leftover inv victim listed
      exact ⟨f, rest, list, member⟩
    · omega
  · rintro ⟨g, others, list, member⟩
    cases victim with
    | free list' =>
      cases list.symm.trans list'
      exact broken.intact inv list member
    | listed empty _ =>
      rw [list] at empty
      cases empty

/-- The leftover frame is a spare one afterwards. -/
theorem frameInv (inv : FrameInv (fun _ => True) s) (broken : Broken s t f rest s.replacer)
    (list : s.freeList = f :: rest)
    (listed : f ∈ s.replacer.frames) : FrameInv (fun _ => True) t := by
  have free : f ∈ s.freeList := list ▸ List.mem_cons_self
  have invalid := inv.free_unused f free
  have table := broken.unmapped inv free
  obtain ⟨nodup, memRest⟩ := (Victim.free list).rest_free inv.free_nodup
  have ids : ∀ g, (t.pages g).id = (s.pages g).id := by
    intro g
    by_cases atF : g = f
    · rw [atF, broken.id]
    · rw [broken.others g atF]
  have pins : ∀ g, (t.pages g).pinCount = (s.pages g).pinCount := by
    intro g
    by_cases atF : g = f
    · rw [atF, broken.pinCount]
    · rw [broken.others g atF]
  constructor
  case wf => exact broken.replacer ▸ inv.wf
  case capacity => exact broken.replacer ▸ inv.capacity
  case table_iff =>
    intro p g
    rw [table, ids]
    exact inv.table_iff p g
  case free_nodup => exact broken.freeList ▸ nodup
  case free_unused =>
    intro g member
    rw [broken.freeList] at member
    rw [ids]
    exact inv.free_unused g ((memRest g).mp member).1
  case clean =>
    intro g unused
    rw [ids] at unused
    obtain ⟨unpinned, clean⟩ := inv.clean g unused
    refine ⟨(pins g).trans unpinned, ?_⟩
    by_cases atF : g = f
    · subst g
      by_contra dirty
      rw [broken.dirty (by simpa using dirty)] at clean
      cases clean
    · rw [broken.others g atF]
      exact clean
  case unused =>
    intro g unused
    rw [ids] at unused
    rw [broken.freeList, broken.replacer]
    by_cases atF : g = f
    · exact Or.inr ⟨trivial, atF ▸ listed⟩
    · exact (inv.unused g unused).imp_left fun isFree => (memRest g).mpr ⟨isFree, atF⟩
  case pin_nonneg => exact fun g => (pins g).symm ▸ inv.pin_nonneg g
  case pinned_unlisted =>
    intro g held
    rw [pins] at held
    rw [broken.replacer]
    exact inv.pinned_unlisted g held
  case evictable =>
    intro g used unpinned
    rw [ids] at used
    rw [pins] at unpinned
    rw [broken.replacer]
    exact inv.evictable g used unpinned
  case counted =>
    intro g used
    rw [ids] at used ⊢
    rw [broken.counter]
    exact inv.counted g used
  case counter_nonneg =>
    rw [broken.counter]
    exact inv.counter_nonneg

end Broken

/-- The failures that do no harm: those of `delete_page`, and those that meet a leftover frame. -/
def Harmless (s : BufferPoolManager N) : Call → Prop
  | .deletePage _ => True
  | _ => Leftover s

/-- The calls that replace or drop a page. -/
def Replaces : Call → Prop
  | .fetchPage _ | .newPage _ | .deletePage _ => True
  | _ => False

/-- A failed `delete_page` has changed nothing but the disk. -/
theorem intact_setDisk {spare : Fin N → Prop} (inv : FrameInv spare s) (dm : DiskManager) :
    Intact s { s with diskManager := dm } where
  kept f := by
    by_cases unused : (s.pages f).id.pageNo = INVALID_PAGE_ID
    · rcases inv.unused f unused with isFree | ⟨_, isListed⟩
      · exact Or.inl (Or.inl isFree)
      · exact Or.inl (Or.inr isListed)
    · by_cases unpinned : (s.pages f).pinCount = 0
      · exact Or.inl (Or.inr (inv.evictable f unused unpinned))
      · have nonneg := inv.pin_nonneg f
        refine Or.inr ⟨?_, (s.pages f).id, (inv.table_iff _ f).mpr ⟨rfl, unused⟩⟩
        change 0 < (s.pages f).pinCount
        omega
  cached p f found := Or.inl ⟨found, rfl, rfl⟩
  obtainable := rfl

/-- How a call that an I/O exception ends leaves the pool. -/
theorem call_fails {c : Call} {e : Error} (replaces : Replaces c) (io : IsIo e) (run : call c s = .error e t) :
    (∃ p dm, c = .deletePage p ∧ dm.fd2pageno = s.diskManager.fd2pageno ∧ t = { s with diskManager := dm }) ∨
      ((Harmless s c ↔ Leftover s) ∧ ∃ f rest r, Victim s f rest r ∧ Broken s t f rest r) := by
  cases c with
  | fetchPage p =>
    rcases fetchPage_fails (map_eq_error.mp run) with rfl | broken
    · cases io
    · exact Or.inr ⟨Iff.rfl, broken⟩
  | newPage fd =>
    rcases newPage_fails (map_eq_error.mp run) with rfl | broken
    · cases io
    · exact Or.inr ⟨Iff.rfl, broken⟩
  | deletePage p =>
    obtain ⟨_, dm, _, failed, same⟩ := deletePage_fails (map_eq_error.mp run)
    exact Or.inl ⟨p, dm, rfl, failed.counters, same⟩
  | unpinPage p d => cases replaces
  | flushPage p => cases replaces
  | flushAllPages fd => cases replaces

/-- The pools that calls lead to of which some end with an I/O exception, harmlessly. -/
inductive FaultReach : BufferPoolManager N → Prop
  | fresh {dm : DiskManager} (junk : Fin N → Int) : (∀ fd, 0 ≤ dm.fd2pageno fd) → FaultReach (new dm junk)
  | call {s t : BufferPoolManager N} {c : Call} {r : Reply N} : FaultReach s → Admissible s c →
      call c s = .ok r t → (∀ fd, s.counter fd ≤ t.counter fd) → FaultReach t
  | failed {s t : BufferPoolManager N} {c : Call} {e : Error} : FaultReach s → Replaces c → IsIo e →
      BufferPoolManager.call c s = .error e t → Harmless s c → FaultReach t
  | setFd2pageno {s : BufferPoolManager N} (fd n : Int) : FaultReach s → s.counter fd ≤ n →
      FaultReach { s with diskManager := s.diskManager.setFd2pageno fd n }
  | writeBytes {s : BufferPoolManager N} (f : Fin N) (data : PageData) : FaultReach s →
      FaultReach (s.setPage f { s.pages f with data := data })

theorem FaultReach.inv (reach : FaultReach s) : FrameInv (fun _ => True) s := by
  induction reach with
  | fresh junk counters => exact .new counters junk
  | call _ admissible run monotone ih => exact ih.call admissible monotone run
  | failed _ replaces io run harmless ih =>
    rcases call_fails replaces io run with ⟨_, dm, _, counters, rfl⟩ | ⟨same, f, rest, r, victim, broken⟩
    · exact ih.of_same rfl rfl rfl (fun _ => rfl) (fun _ => rfl) (fun f invalid => (ih.clean f invalid).2)
        fun fd => (congrFun counters fd).ge
    · obtain ⟨g, others, list, member⟩ := same.mp harmless
      cases victim with
      | free list' =>
        cases list.symm.trans list'
        exact broken.frameInv ih list member
      | listed empty _ =>
        rw [list] at empty
        cases empty
  | setFd2pageno fd n _ up ih => exact ih.raise up
  | writeBytes f data _ ih => exact ih.setData f data

/-- An I/O exception leaves the pool intact exactly if it ends `delete_page`, or meets a victim that is
both free and listed in the replacer. -/
theorem intact_after_failure_iff (reach : FaultReach s) {c : Call} {e : Error} (replaces : Replaces c) (io : IsIo e)
    (run : call c s = .error e t) : Intact s t ↔ Harmless s c := by
  have inv := reach.inv
  rcases call_fails replaces io run with ⟨p, dm, rfl, _, rfl⟩ | ⟨same, f, rest, r, victim, broken⟩
  · exact iff_of_true (intact_setDisk inv dm) trivial
  · rw [same]
    exact broken.intact_iff inv victim

/-- A page beyond the end of its file, read after a page was created, released and deleted. -/
theorem intact_after_failure_leftover : ∃ s t : BufferPoolManager 1, FaultReach s ∧
    fetchPage ⟨3, 7⟩ s = .error (.internal "DiskManager::read_page Error") t ∧ Intact s t := by
  have fresh : FaultReach (new oneFile fun _ => 0 : BufferPoolManager 1) := .fresh _ fun _ => le_rfl
  have created := FaultReach.call (c := .newPage 3) fresh trivial rfl (le_update_succ _ (by decide))
  have released := FaultReach.call (c := .unpinPage ⟨3, 0⟩ false) created trivial rfl fun _ => le_rfl
  have deleted := FaultReach.call (c := .deletePage ⟨3, 0⟩) released trivial rfl fun _ => le_rfl
  refine ⟨_, _, deleted, rfl, (intact_after_failure_iff deleted (c := .fetchPage ⟨3, 7⟩)
    (e := .internal "DiskManager::read_page Error") trivial trivial rfl).mpr ?_⟩
  exact ⟨0, [], rfl, by decide⟩

/-- In a new pool of one frame such a read loses the frame. -/
theorem frame_lost_after_failure : ¬∀ (s t : BufferPoolManager 1) (c : Call) (e : Error), FaultReach s → Replaces c →
    IsIo e → call c s = .error e t → Intact s t := by
  intro intact
  have fresh : FaultReach (new oneFile fun _ => 0 : BufferPoolManager 1) := .fresh _ fun _ => le_rfl
  have after := intact _ _ (.fetchPage ⟨3, 7⟩) (.internal "DiskManager::read_page Error") fresh trivial trivial rfl
  rcases after.kept 0 with (free | listed) | ⟨held, _⟩
  · cases free
  · cases listed
  · cases held

end Rmdb.BufferPoolManager
