import Rmdb.Storage.Transparent

namespace Rmdb.BufferPoolManager
variable {N : Nat} {s t : BufferPoolManager N}

/-- `pin_count_` of a page. A page that is not cached has no pins. -/
def pinsOn (s : BufferPoolManager N) (p : PageId) : Int :=
  match s.pageTable p with
  | some f => (s.pages f).pinCount
  | none => 0

/-- The bytes a page has for its readers: those of its frame, or those on disk. -/
def seen (s : BufferPoolManager N) (p : PageId) : PageData :=
  match s.pageTable p with
  | some f => (s.pages f).data
  | none => s.diskManager.diskPage p

theorem pinsOn_some {p : PageId} {f : Fin N} (found : s.pageTable p = some f) : s.pinsOn p = (s.pages f).pinCount := by
  rw [pinsOn, found]

theorem pinsOn_none {p : PageId} (missing : s.pageTable p = none) : s.pinsOn p = 0 := by
  rw [pinsOn, missing]

theorem seen_some {p : PageId} {f : Fin N} (found : s.pageTable p = some f) : s.seen p = (s.pages f).data := by
  rw [seen, found]

theorem seen_none {p : PageId} (missing : s.pageTable p = none) : s.seen p = s.diskManager.diskPage p := by
  rw [seen, missing]

theorem pinsOn_nonneg (inv : PoolInv s) (p : PageId) : 0 ≤ s.pinsOn p := by
  unfold pinsOn
  split
  · exact inv.pin_nonneg _
  · exact le_rfl

theorem pinsOn_of_same (table : t.pageTable = s.pageTable) (pins : ∀ f, (t.pages f).pinCount = (s.pages f).pinCount) :
    t.pinsOn = s.pinsOn := by
  funext p
  unfold pinsOn
  rw [table]
  cases s.pageTable p with
  | none => rfl
  | some f => exact pins f

theorem pinsOn_setData (f : Fin N) (data : PageData) :
    (s.setPage f { s.pages f with data := data }).pinsOn = s.pinsOn := by
  refine pinsOn_of_same rfl fun g => ?_
  by_cases same : g = f
  · subst g
    simp [setPage]
  · simp [setPage, same]

/-- A change of one cached frame is a change of its page. -/
theorem pinsOn_set (inv : TableInv s) {p : PageId} {f : Fin N} (page : Page) (r : LRUReplacer (Fin N))
    (found : s.pageTable p = some f) :
    { s.setPage f page with replacer := r }.pinsOn = Function.update s.pinsOn p page.pinCount := by
  funext q
  simp only [pinsOn, setPage]
  by_cases same : q = p
  · subst q
    simp [found]
  · rw [Function.update_of_ne same]
    cases other : s.pageTable q with
    | none => exact (pinsOn_none other).symm
    | some g =>
      have different : g ≠ f := by
        rintro rfl
        exact same ((inv.idOf q g other).1.symm.trans (inv.idOf p g found).1)
      simp only [pinsOn_some other, Function.update_of_ne different]

/-- The page that loses its frame had no pins, the one that gets it has one. -/
theorem pinsOn_install (inv : TableInv s) {p : PageId} {f : Fin N} {rest : List (Fin N)} {r : LRUReplacer (Fin N)}
    {dm : DiskManager} {data : PageData} (unpinned : (s.pages f).pinCount = 0)
    (mapped : (s.pages f).id.pageNo ≠ INVALID_PAGE_ID → s.pageTable (s.pages f).id = some f) :
    (install p f data (s.taken f rest r dm)).pinsOn = Function.update s.pinsOn p 1 := by
  funext q
  by_cases same : q = p
  · subst q
    simp [pinsOn, install, setPage]
  · rw [Function.update_of_ne same]
    have table : (install p f data (s.taken f rest r dm)).pageTable q = s.unmap f q := install_table_other same
    cases other : s.unmap f q with
    | some g =>
      obtain ⟨found, different⟩ := inv.unmapped other
      rw [pinsOn_some (table.trans other), pinsOn_some found, install_page_other different]
    | none =>
      rw [pinsOn_none (table.trans other)]
      cases found : s.pageTable q with
      | none => rw [pinsOn_none found]
      | some g =>
        have evicted : g = f := by
          by_contra different
          have still := (inv.unmap_iff mapped).mpr ⟨found, different⟩
          rw [other] at still
          cases still
        subst g
        rw [pinsOn_some found, unpinned]

theorem fetchPage_pins (inv : PoolInv s) {p : PageId} {f : Fin N} (run : fetchPage p s = .ok (some f) t) :
    t.pinsOn = Function.update s.pinsOn p (s.pinsOn p + 1) ∧ t.pageTable p = some f := by
  rcases fetchPage_cases run with ⟨g, found, same, rfl⟩ | ⟨_, same, _⟩ |
    ⟨g, _, _, _, _, missing, same, victim, _, _, rfl⟩
  · cases same
    rw [pinsOn_some found]
    exact ⟨pinsOn_set inv.tableInv _ _ found, found⟩
  · cases same
  · cases same
    rw [pinsOn_install inv.tableInv (inv.victim_unpinned victim) inv.valid_mapped, pinsOn_none missing]
    exact ⟨rfl, Function.update_self ..⟩

/-- `fetch_page` shows the bytes the page had. -/
theorem fetchPage_seen (inv : PoolInv s) (distinct : s.diskManager.Distinct) {p : PageId} {f : Fin N}
    (run : fetchPage p s = .ok (some f) t) : (t.pages f).data = s.seen p := by
  rcases fetchPage_cases run with ⟨g, found, same, rfl⟩ | ⟨_, same, _⟩ |
    ⟨g, _, _, dm, _, missing, same, victim, wrote, read, rfl⟩
  · cases same
    simp [seen, found, setPage]
  · cases same
  · cases same
    obtain ⟨rfl, nonneg⟩ := DiskManager.readPage_diskPage read
    have bytes : dm.diskPage p = s.diskManager.diskPage p := by
      by_cases different : p = (s.pages f).id
      · -- a frame under an uncached id is free, so it is clean and nothing was written
        have free : f ∈ s.freeList := by
          by_contra used
          have found := inv.mapped used
          rw [← different, missing] at found
          cases found
        rw [WroteBack, if_neg (by simp [(inv.free_clean f free).2])] at wrote
        rw [wrote]
      · exact wrote.other distinct different nonneg
    simp [seen, missing, install, setPage, bytes]

theorem newPage_pins (inv : PoolInv s) {fd : Int} {p : PageId} {f : Fin N} (run : newPage fd s = .ok (some (p, f)) t) :
    t.pinsOn = Function.update s.pinsOn p (s.pinsOn p + 1) ∧ t.pageTable p = some f := by
  rcases newPage_cases run with ⟨same, _⟩ | ⟨g, _, _, _, _, pageNo, same, victim, wrote, allocated, rfl⟩
  · cases same
  · cases same
    have missing : s.pageTable ⟨fd, pageNo⟩ = none := by
      rw [(allocatePage_ok allocated).1, wrote.counters]
      exact inv.counter_missing fd
    rw [pinsOn_install inv.tableInv (inv.victim_unpinned victim) inv.valid_mapped, pinsOn_none missing]
    exact ⟨rfl, Function.update_self ..⟩

/-- A release succeeds exactly if the page has a pin. -/
theorem unpinPage_pins (inv : PoolInv s) {p : PageId} {d r : Bool} (run : unpinPage p d s = .ok r t) :
    (r = true ↔ 0 < s.pinsOn p) ∧ t.pinsOn = if r then Function.update s.pinsOn p (s.pinsOn p - 1) else s.pinsOn := by
  rcases unpinPage_cases run with ⟨rfl, rfl, low⟩ | ⟨f, rfl, found, held, rfl⟩
  · refine ⟨⟨fun absurd => Bool.noConfusion absurd, fun held => ?_⟩, rfl⟩
    cases found : t.pageTable p with
    | none =>
      rw [pinsOn_none found] at held
      omega
    | some f =>
      rw [pinsOn_some found] at held
      have := low f found
      omega
  · rw [pinsOn_some found]
    refine ⟨⟨fun _ => held, fun _ => rfl⟩, ?_⟩
    rw [if_pos rfl]
    exact pinsOn_set inv.tableInv _ _ found

theorem pinsOn_wroteFrame (f : Fin N) (dm : DiskManager) :
    ({ s with diskManager := dm }.setPage f { s.pages f with isDirty := false }).pinsOn = s.pinsOn := by
  refine pinsOn_of_same rfl fun g => ?_
  by_cases same : g = f
  · subst g
    simp [setPage]
  · simp [setPage, same]

theorem flushPage_pins {p : PageId} {r : Bool} (run : flushPage p s = .ok r t) : t.pinsOn = s.pinsOn := by
  rcases flushPage_cases run with ⟨_, _, rfl⟩ | ⟨f, dm, _, _, _, rfl⟩
  · rfl
  · exact pinsOn_wroteFrame f dm

theorem flushFrames_pins {fd : Int} {list : List (Fin N)} {u : Unit} (run : flushFrames fd list s = .ok u t) :
    t.pinsOn = s.pinsOn :=
  flushFrames_keep (P := fun now => now.pinsOn = s.pinsOn)
    (fun f before _ => (pinsOn_wroteFrame f _).trans before) rfl run

theorem deletePage_pins (inv : PoolInv s) {p : PageId} {r : Bool} (run : deletePage p s = .ok r t) :
    t.pinsOn = s.pinsOn := by
  rcases deletePage_cases (fun f found => inv.idOf found) run with ⟨rfl, _⟩ | ⟨f, dm, _, found, unpinned, _, rfl⟩
  · rfl
  · funext q
    by_cases same : q = p
    · subst q
      rw [pinsOn_some found, unpinned]
      exact pinsOn_none (Function.update_self ..)
    · have table : Function.update s.pageTable p none q = s.pageTable q := Function.update_of_ne same ..
      unfold pinsOn
      simp only [table]
      cases other : s.pageTable q with
      | none => rfl
      | some g =>
        have different : g ≠ f := by
          rintro rfl
          exact same ((inv.idOf other).symm.trans (inv.idOf found))
        simp [setPage, different]

end Rmdb.BufferPoolManager
