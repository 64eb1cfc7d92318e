import Rmdb.Storage.BufferPool

namespace Rmdb.BufferPoolManager
variable {N : Nat}

/-! What each call of the pool can do, stated once. Every invariant is derived
from these descriptions and never unfolds a call again. -/

/-- The page table after a frame's page was taken out of it. -/
def unmap (s : BufferPoolManager N) (f : Fin N) : PageId → Option (Fin N) :=
  if (s.pages f).id.pageNo ≠ INVALID_PAGE_ID then Function.update s.pageTable (s.pages f).id none
  else s.pageTable

/-- The disk after a page was written back if it was dirty. -/
def WroteBack (dm dm' : DiskManager) (page : Page) : Prop :=
  if page.isDirty then dm.writePage page.id.fd page.id.pageNo page.data.peek PAGE_SIZE = (dm', none)
  else dm' = dm

/-- Where a victim comes from: the front of the free list, and only when that is
empty the back of the replacer's list. -/
inductive Victim (s : BufferPoolManager N) (f : Fin N) : List (Fin N) → LRUReplacer (Fin N) → Prop
  | free {rest} : s.freeList = f :: rest → Victim s f rest s.replacer
  | listed {r} : s.freeList = [] → s.replacer.victim = (some f, r) → Victim s f [] r

/-- The pool with a victim taken from its lists and from the page table. -/
def taken (s : BufferPoolManager N) (f : Fin N) (rest : List (Fin N)) (r : LRUReplacer (Fin N))
    (dm : DiskManager) : BufferPoolManager N :=
  { s with freeList := rest, replacer := r, diskManager := dm, pageTable := s.unmap f }

section
variable {s : BufferPoolManager N} {f : Fin N} {page : Page}

/-- A frame that is given a page like its own in some respect leaves all frames as they were in it. -/
theorem setPage_keeps {α : Type} (field : Page → α) (same : field page = field (s.pages f)) (g : Fin N) :
    field ((s.setPage f page).pages g) = field (s.pages g) := by
  simp only [setPage, Function.update_apply]
  split
  · rename_i atF
    rw [same, atF]
  · rfl

theorem setPage_id (same : page.id = (s.pages f).id) (g : Fin N) : ((s.setPage f page).pages g).id = (s.pages g).id :=
  setPage_keeps Page.id same g

theorem setPage_pinCount (same : page.pinCount = (s.pages f).pinCount) (g : Fin N) :
    ((s.setPage f page).pages g).pinCount = (s.pages g).pinCount := setPage_keeps Page.pinCount same g

theorem setPage_data (same : page.data = (s.pages f).data) (g : Fin N) :
    ((s.setPage f page).pages g).data = (s.pages g).data := setPage_keeps Page.data same g

end

section
variable {s : BufferPoolManager N} {p : PageId} {f g : Fin N} {rest : List (Fin N)} {r : LRUReplacer (Fin N)}
  {dm : DiskManager} {data : PageData}

/-- A victim is the home of its new page, the other frames are as they were. -/
theorem install_page_self : (install p f data (s.taken f rest r dm)).pages f = ⟨p, data, false, 1⟩ :=
  Function.update_self ..

theorem install_page_other (other : g ≠ f) : (install p f data (s.taken f rest r dm)).pages g = s.pages g :=
  Function.update_of_ne other ..

theorem install_table_self : (install p f data (s.taken f rest r dm)).pageTable p = some f := Function.update_self ..

theorem install_table_other {q : PageId} (other : q ≠ p) :
    (install p f data (s.taken f rest r dm)).pageTable q = s.unmap f q := Function.update_of_ne other ..

end

theorem findVictimPage_cases (s : BufferPoolManager N) :
    (findVictimPage s = .ok none s ∧ s.freeList = [] ∧ s.replacer.frames = []) ∨
      ∃ f rest r, Victim s f rest r ∧
        findVictimPage s = .ok (some f) { s with freeList := rest, replacer := r } := by
  cases free : s.freeList with
  | cons f rest => exact Or.inr ⟨f, rest, s.replacer, .free free, by simp only [findVictimPage, free]⟩
  | nil =>
    cases run : s.replacer.victim with
    | mk found r =>
      cases found with
      | none =>
        have same := LRUReplacer.victim_none_state run
        subst r
        refine Or.inl ⟨?_, rfl, LRUReplacer.victim_none.mp (by rw [run])⟩
        simp only [findVictimPage, free, run]
        rw [← free]
      | some f =>
        refine Or.inr ⟨f, [], r, .listed free run, ?_⟩
        simp only [findVictimPage, free, run]

theorem writeFrame_ok {s t : BufferPoolManager N} {p : PageId} {f : Fin N} {u : Unit}
    (run : writeFrame p f s = .ok u t) :
    ∃ dm, s.diskManager.writePage p.fd p.pageNo (s.pages f).data.peek PAGE_SIZE = (dm, none) ∧
      t = { s with diskManager := dm }.setPage f { s.pages f with isDirty := false } := by
  unfold writeFrame at run
  split at run
  · rename_i dm write
    cases run
    exact ⟨dm, write, rfl⟩
  · cases run

/-- A frame written back if it was dirty, everything but the disk and its dirty bit unchanged. -/
theorem writeBack_ok {s t : BufferPoolManager N} {f : Fin N} {u : Unit}
    (run : writeBack (s.pages f).id f s = .ok u t) :
    ∃ dm, WroteBack s.diskManager dm (s.pages f) ∧
      t = { s with diskManager := dm }.setPage f { s.pages f with isDirty := false } := by
  unfold writeBack at run
  split at run
  · rename_i dirty
    obtain ⟨dm, write, same⟩ := writeFrame_ok run
    exact ⟨dm, by rwa [WroteBack, if_pos dirty], same⟩
  · rename_i clean
    cases run
    refine ⟨s.diskManager, by rw [WroteBack, if_neg clean], ?_⟩
    have page : { s.pages f with isDirty := false } = s.pages f := by
      rw [← eq_false_of_ne_true clean]
    rw [page, setPage, Function.update_eq_self]

theorem evict_ok {s t : BufferPoolManager N} {f : Fin N} {u : Unit} (run : evict f s = .ok u t) :
    ∃ dm, WroteBack s.diskManager dm (s.pages f) ∧
      t = { s with diskManager := dm, pageTable := s.unmap f }.setPage f { s.pages f with isDirty := false } := by
  unfold evict at run
  rw [get_bind] at run
  obtain ⟨_, middle, first, rest⟩ := bind_eq_ok.mp run
  obtain ⟨dm, wrote, rfl⟩ := writeBack_ok first
  cases rest
  refine ⟨dm, wrote, ?_⟩
  unfold unmap
  split <;> rfl

theorem readFrame_ok {s t : BufferPoolManager N} {p : PageId} {f : Fin N} {u : Unit}
    (run : readFrame p f s = .ok u t) :
    ∃ data, s.diskManager.readPage p.fd p.pageNo (s.pages f).data = (data, none) ∧
      t = s.setPage f { s.pages f with data := data } := by
  unfold readFrame at run
  split at run
  · rename_i data read
    cases run
    exact ⟨data, read, rfl⟩
  · cases run

/-- The three ways `fetch_page` returns. -/
theorem fetchPage_cases {s t : BufferPoolManager N} {p : PageId} {r : Option (Fin N)}
    (run : fetchPage p s = .ok r t) :
    (∃ f, s.pageTable p = some f ∧ r = some f ∧
        t = { s.setPage f { s.pages f with pinCount := (s.pages f).pinCount + 1 } with
          replacer := s.replacer.pin f }) ∨
      (s.pageTable p = none ∧ r = none ∧ t = s ∧ s.freeList = [] ∧ s.replacer.frames = []) ∨
      ∃ f rest repl dm data, s.pageTable p = none ∧ r = some f ∧ Victim s f rest repl ∧
        WroteBack s.diskManager dm (s.pages f) ∧
        dm.readPage p.fd p.pageNo (s.pages f).data = (data, none) ∧
        t = install p f data (s.taken f rest repl dm) := by
  unfold fetchPage at run
  rw [get_bind] at run
  cases found : s.pageTable p with
  | some f =>
    simp only [found] at run
    split at run
    · cases run
    · cases run
      exact Or.inl ⟨f, rfl, rfl, rfl⟩
  | none =>
    simp only [found] at run
    right
    obtain ⟨found, middle, victim, rest⟩ := bind_eq_ok.mp run
    rcases findVictimPage_cases s with ⟨none, free, listed⟩ | ⟨f, free, repl, source, some⟩
    · rw [none] at victim
      cases victim
      cases rest
      exact Or.inl ⟨rfl, rfl, rfl, free, listed⟩
    · rw [some] at victim
      cases victim
      obtain ⟨_, _, evicted, rest⟩ := bind_eq_ok.mp rest
      obtain ⟨dm, wrote, rfl⟩ := evict_ok evicted
      obtain ⟨_, _, readRun, rest⟩ := bind_eq_ok.mp rest
      obtain ⟨data, read, rfl⟩ := readFrame_ok readRun
      cases rest
      simp only [setPage, Function.update_self] at read
      refine Or.inr ⟨f, free, repl, dm, data, rfl, rfl, source, wrote, read, ?_⟩
      simp only [install, setPage, taken, unmap, Function.update_self, Function.update_idem]

/-- The two ways `new_page` returns. -/
theorem newPage_cases {s t : BufferPoolManager N} {fd : Int} {r : Option (PageId × Fin N)}
    (run : newPage fd s = .ok r t) :
    (r = none ∧ t = s ∧ s.freeList = [] ∧ s.replacer.frames = []) ∨
      ∃ f rest repl dm dm' pageNo, r = some (⟨fd, pageNo⟩, f) ∧ Victim s f rest repl ∧
        WroteBack s.diskManager dm (s.pages f) ∧ dm.allocatePage fd = .ok (pageNo, dm') ∧
        t = install ⟨fd, pageNo⟩ f Block.zero (s.taken f rest repl dm') := by
  unfold newPage at run
  obtain ⟨found, middle, victim, rest⟩ := bind_eq_ok.mp run
  rcases findVictimPage_cases s with ⟨none, free, listed⟩ | ⟨f, free, repl, source, some⟩
  · rw [none] at victim
    cases victim
    cases rest
    exact Or.inl ⟨rfl, rfl, free, listed⟩
  · rw [some] at victim
    cases victim
    obtain ⟨_, _, evicted, rest⟩ := bind_eq_ok.mp rest
    obtain ⟨dm, wrote, rfl⟩ := evict_ok evicted
    rw [get_bind] at rest
    simp only [setPage] at rest
    cases allocated : dm.allocatePage fd with
    | error e =>
      simp only [allocated] at rest
      cases rest
    | ok result =>
      obtain ⟨pageNo, dm'⟩ := result
      simp only [allocated] at rest
      cases rest
      refine Or.inr ⟨f, free, repl, dm, dm', pageNo, rfl, source, wrote, allocated, ?_⟩
      simp only [install, setPage, taken, unmap, Function.update_idem]

theorem unpinPage_cases {s t : BufferPoolManager N} {p : PageId} {d r : Bool}
    (run : unpinPage p d s = .ok r t) :
    (r = false ∧ t = s ∧ ∀ f, s.pageTable p = some f → (s.pages f).pinCount ≤ 0) ∨
      ∃ f, r = true ∧ s.pageTable p = some f ∧ 0 < (s.pages f).pinCount ∧
        t = { s.setPage f { s.pages f with pinCount := (s.pages f).pinCount - 1,
                                           isDirty := (s.pages f).isDirty || d } with
          replacer := if (s.pages f).pinCount - 1 = 0 then s.replacer.unpin f else s.replacer } := by
  unfold unpinPage at run
  split at run
  · rename_i missing
    cases run
    exact Or.inl ⟨rfl, rfl, fun f found => by simp [missing] at found⟩
  · rename_i f found
    dsimp only at run
    split at run
    · rename_i low
      cases run
      refine Or.inl ⟨rfl, rfl, fun g same => ?_⟩
      cases found.symm.trans same
      exact low
    · rename_i high
      cases run
      exact Or.inr ⟨f, rfl, found, by omega, rfl⟩

theorem flushPage_cases {s t : BufferPoolManager N} {p : PageId} {r : Bool}
    (run : flushPage p s = .ok r t) :
    (s.pageTable p = none ∧ r = false ∧ t = s) ∨
      ∃ f dm, s.pageTable p = some f ∧ r = true ∧
        s.diskManager.writePage p.fd p.pageNo (s.pages f).data.peek PAGE_SIZE = (dm, none) ∧
        t = { s with diskManager := dm }.setPage f { s.pages f with isDirty := false } := by
  unfold flushPage at run
  rw [get_bind] at run
  cases found : s.pageTable p with
  | none =>
    simp only [found] at run
    cases run
    exact Or.inl ⟨rfl, rfl, rfl⟩
  | some f =>
    simp only [found] at run
    obtain ⟨_, _, writeRun, rest⟩ := bind_eq_ok.mp run
    obtain ⟨dm, write, rfl⟩ := writeFrame_ok writeRun
    cases rest
    exact Or.inr ⟨f, dm, rfl, rfl, write, rfl⟩

/-- `delete_page` either leaves the pool alone or turns the page's frame into a
clean free one; the frame stays in the replacer. -/
theorem deletePage_cases {s t : BufferPoolManager N} {p : PageId} {r : Bool}
    (idOf : ∀ f, s.pageTable p = some f → (s.pages f).id = p) (run : deletePage p s = .ok r t) :
    (t = s ∧ (r = true ↔ s.pageTable p = none)) ∨
      ∃ f dm, r = true ∧ s.pageTable p = some f ∧ (s.pages f).pinCount = 0 ∧
        WroteBack s.diskManager dm (s.pages f) ∧
        t = { s.setPage f ⟨⟨(s.pages f).id.fd, INVALID_PAGE_ID⟩, Block.zero, false, 0⟩ with
          diskManager := dm, pageTable := Function.update s.pageTable p none,
          freeList := s.freeList ++ [f] } := by
  unfold deletePage at run
  rw [get_bind] at run
  cases found : s.pageTable p with
  | none =>
    simp only [found] at run
    cases run
    exact Or.inl ⟨rfl, by simp⟩
  | some f =>
    simp only [found] at run
    split at run
    · cases run
      exact Or.inl ⟨rfl, by simp⟩
    · rename_i unpinned
      obtain ⟨_, _, writeRun, rest⟩ := bind_eq_ok.mp run
      rw [← idOf f found] at writeRun
      obtain ⟨dm, wrote, rfl⟩ := writeBack_ok writeRun
      cases rest
      refine Or.inr ⟨f, dm, rfl, rfl, by omega, wrote, ?_⟩
      simp only [setPage, Function.update_self, Function.update_idem]

/-- One iteration of the loop of `flush_all_pages`. -/
theorem flushFrames_cons {s t : BufferPoolManager N} {fd : Int} {f : Fin N} {rest : List (Fin N)} {u : Unit}
    (run : flushFrames fd (f :: rest) s = .ok u t) :
    ∃ middle, flushFrames fd rest middle = .ok u t ∧
      (((s.pages f).id.fd = fd ∧ (s.pages f).id.pageNo ≠ INVALID_PAGE_ID ∧ ∃ dm,
          s.diskManager.writePage (s.pages f).id.fd (s.pages f).id.pageNo (s.pages f).data.peek PAGE_SIZE =
            (dm, none) ∧
          middle = { s with diskManager := dm }.setPage f { s.pages f with isDirty := false }) ∨
        (¬((s.pages f).id.fd = fd ∧ (s.pages f).id.pageNo ≠ INVALID_PAGE_ID) ∧ middle = s)) := by
  obtain ⟨_, middle, first, later⟩ := bind_eq_ok.mp run
  refine ⟨middle, later, ?_⟩
  unfold flushFrame at first
  split at first
  · rename_i mine
    obtain ⟨dm, write, same⟩ := writeFrame_ok first
    exact Or.inl ⟨mine.1, mine.2, dm, write, same⟩
  · rename_i other
    cases first
    exact Or.inr ⟨other, rfl⟩

/-- The loop of `flush_all_pages` keeps what writing one frame back keeps. -/
theorem flushFrames_keep {P : BufferPoolManager N → Prop} {fd : Int}
    (step : ∀ {s : BufferPoolManager N} {dm : DiskManager} (f : Fin N),
      P s → s.diskManager.writePage fd (s.pages f).id.pageNo (s.pages f).data.peek PAGE_SIZE = (dm, none) →
        P ({ s with diskManager := dm }.setPage f { s.pages f with isDirty := false }))
    {s t : BufferPoolManager N} {list : List (Fin N)} {u : Unit} (before : P s)
    (run : flushFrames fd list s = .ok u t) : P t := by
  induction list generalizing s with
  | nil =>
    cases run
    exact before
  | cons f rest ih =>
    obtain ⟨middle, later, ⟨atFd, _, dm, write, rfl⟩ | ⟨_, rfl⟩⟩ := flushFrames_cons run
    · rw [atFd] at write
      exact ih (step f before write) later
    · exact ih before later

end Rmdb.BufferPoolManager
