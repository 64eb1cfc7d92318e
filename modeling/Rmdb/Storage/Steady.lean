import Mathlib.Algebra.BigOperators.Group.Finset.Piecewise
import Rmdb.Kit.Holds
import Rmdb.Storage.Faults
import Rmdb.Storage.Pins
import Rmdb.Storage.Refusal

namespace Rmdb

theorem File.len_write_page (f : File) (off : Nat) (src : Nat → UInt8) :
    (f.write off PAGE_SIZE src).len = max f.len (off + PAGE_SIZE) := by
  have page : PAGE_SIZE ≠ 0 := by decide
  simp only [File.write, page, if_false]

namespace DiskManager

/-- The disk has the page as a whole. -/
def Holds (dm : DiskManager) (p : PageId) : Prop :=
  ∃ file, dm.fileOf p.fd = some file ∧ 0 ≤ p.pageNo ∧ p.pageNo.toNat * PAGE_SIZE + PAGE_SIZE ≤ file.len

/-- The disk takes the page as a whole. -/
def Accepts (dm : DiskManager) (p : PageId) : Prop :=
  (∃ ino, dm.os.fds p.fd = some ino) ∧ 0 ≤ p.pageNo ∧ PAGE_SIZE ≤ dm.os.room p.fd p.pageNo

variable {dm dm' : DiskManager} {p : PageId} {src : Nat → UInt8}

theorem Accepts.writePage (accepts : dm.Accepts p) : (dm.writePage p.fd p.pageNo src PAGE_SIZE).2 = none := by
  obtain ⟨⟨ino, opened⟩, nonneg, room⟩ := accepts
  have whole : min PAGE_SIZE (dm.os.room p.fd p.pageNo) = PAGE_SIZE := Nat.min_eq_left room
  unfold DiskManager.writePage
  simp only [opened, whole, if_true]
  rw [if_neg (by omega)]

theorem Holds.readPage (holds : dm.Holds p) (offset : PageData) :
    dm.readPage p.fd p.pageNo offset = (dm.diskPage p, none) := by
  obtain ⟨file, opened, nonneg, inside⟩ := holds
  rw [readPage_whole opened nonneg inside]
  simp only [diskPage, opened]
  rfl

theorem fileOf_setFile {fd : Int} {ino other : Nat} (opened : dm.os.fds fd = some other) (file : File) :
    (dm.setFile ino file).fileOf fd = some (Function.update dm.os.file ino file other) := by
  simp only [fileOf, setFile, opened, Option.map_some]

/-- A write shortens no file. -/
theorem Holds.of_writePage {q : PageId} (holds : dm.Holds q)
    (run : dm.writePage p.fd p.pageNo src PAGE_SIZE = (dm', none)) : dm'.Holds q := by
  obtain ⟨file, opened, nonneg, inside⟩ := holds
  obtain ⟨ino, _, _, rfl⟩ := writePage_ok run
  unfold fileOf at opened
  obtain ⟨other, atQ, rfl⟩ := Option.map_eq_some_iff.mp opened
  refine ⟨_, fileOf_setFile atQ _, nonneg, ?_⟩
  by_cases same : other = ino
  · subst other
    rw [Function.update_self, File.len_write_page]
    exact inside.trans (Nat.le_max_left _ _)
  · rwa [Function.update_of_ne same]

theorem Holds.written (run : dm.writePage p.fd p.pageNo src PAGE_SIZE = (dm', none)) : dm'.Holds p := by
  obtain ⟨ino, opened, nonneg, rfl⟩ := writePage_ok run
  refine ⟨_, fileOf_setFile opened _, nonneg, ?_⟩
  rw [Function.update_self, File.len_write_page]
  exact Nat.le_max_right _ _

theorem Accepts.of_writePage {q : PageId} (accepts : dm.Accepts q)
    (run : dm.writePage p.fd p.pageNo src PAGE_SIZE = (dm', none)) : dm'.Accepts q := by
  obtain ⟨ino, _, _, rfl⟩ := writePage_ok run
  exact accepts

end DiskManager

namespace BufferPoolManager
variable {N : Nat} {s t : BufferPoolManager N} {pages : Set PageId} {p : PageId} {f : Fin N}

theorem WroteBack.holds {dm dm' : DiskManager} {page : Page} (wrote : WroteBack dm dm' page) (holds : dm.Holds p) :
    dm'.Holds p := by
  unfold WroteBack at wrote
  split at wrote
  · exact holds.of_writePage wrote
  · rwa [wrote]

theorem WroteBack.accepts {dm dm' : DiskManager} {page : Page} (wrote : WroteBack dm dm' page)
    (accepts : dm.Accepts p) : dm'.Accepts p := by
  unfold WroteBack at wrote
  split at wrote
  · exact accepts.of_writePage wrote
  · rwa [wrote]

/-- The content of a frame may go: it can be written if it has to be, and otherwise the disk has it. -/
def Disposable (pages : Set PageId) (dm : DiskManager) (page : Page) : Prop :=
  (page.isDirty = true → dm.Accepts page.id) ∧
    (page.isDirty = false → page.id ∈ pages → dm.Holds page.id ∧ dm.diskPage page.id = page.data)

/-- After the write-back the disk has the page. -/
theorem Disposable.wroteBack {dm dm' : DiskManager} {page : Page} (disposable : Disposable pages dm page)
    (wrote : WroteBack dm dm' page) (member : page.id ∈ pages) :
    dm'.Holds page.id ∧ dm'.diskPage page.id = page.data := by
  refine ⟨?_, wrote.self fun clean => (disposable.2 clean member).2⟩
  by_cases dirty : page.isDirty
  · unfold WroteBack at wrote
    rw [if_pos dirty] at wrote
    exact .written wrote
  · exact wrote.holds (disposable.2 (eq_false_of_ne_true dirty) member).1

/-- The write-back of another page changes nothing. -/
theorem Disposable.other {dm dm' : DiskManager} {page written : Page} (disposable : Disposable pages dm page)
    (wrote : WroteBack dm dm' written) (distinct : dm.Distinct)
    (different : page.id.pageNo ≠ INVALID_PAGE_ID → page.id ≠ written.id) : Disposable pages dm' page := by
  refine ⟨fun dirty => wrote.accepts (disposable.1 dirty), fun clean member => ?_⟩
  obtain ⟨holds, same⟩ := disposable.2 clean member
  have nonneg : 0 ≤ page.id.pageNo := holds.choose_spec.2.1
  have valid : page.id.pageNo ≠ INVALID_PAGE_ID := by
    unfold INVALID_PAGE_ID
    omega
  exact ⟨wrote.holds holds, (wrote.other distinct (different valid) nonneg).trans same⟩

/-- The number of frames with pins. -/
def pinned (s : BufferPoolManager N) : Nat := (Finset.univ.filter fun f => 0 < (s.pages f).pinCount).card

theorem pinned_le (s : BufferPoolManager N) : s.pinned ≤ N := by
  have := Finset.card_filter_le Finset.univ fun f => 0 < (s.pages f).pinCount
  rwa [Finset.card_univ, Fintype.card_fin] at this

theorem pinned_eq_iff (s : BufferPoolManager N) : s.pinned = N ↔ ∀ f, 0 < (s.pages f).pinCount := by
  have all : (Finset.univ : Finset (Fin N)).card = N := by rw [Finset.card_univ, Fintype.card_fin]
  constructor
  · intro full f
    have := Finset.filter_card_eq (full.trans all.symm) f (Finset.mem_univ f)
    exact this
  · intro pins
    unfold pinned
    rw [Finset.filter_true_of_mem fun f _ => pins f, all]

/-- One frame gets other pins. -/
theorem pinned_step (others : ∀ g, g ≠ f → (t.pages g).pinCount = (s.pages g).pinCount) :
    t.pinned + (if 0 < (s.pages f).pinCount then 1 else 0) = s.pinned + if 0 < (t.pages f).pinCount then 1 else 0 := by
  have rest : ∀ g ∈ Finset.univ.erase f, (if 0 < (t.pages g).pinCount then 1 else 0) =
      if 0 < (s.pages g).pinCount then 1 else 0 := by
    intro g member
    rw [others g (Finset.ne_of_mem_erase member)]
  unfold pinned
  rw [Finset.card_filter, Finset.card_filter, ← Finset.add_sum_erase _ _ (Finset.mem_univ f),
    ← Finset.add_sum_erase _ _ (Finset.mem_univ f), Finset.sum_congr rfl rest]
  omega

theorem pinned_lt (unpinned : (s.pages f).pinCount = 0) : s.pinned < N := by
  refine lt_of_le_of_ne s.pinned_le fun full => ?_
  have := s.pinned_eq_iff.mp full f
  omega

/-- A frame with the pins of a page gets one more. -/
theorem pinned_up (nonneg : 0 ≤ s.pinsOn p) (others : ∀ g, g ≠ f → (t.pages g).pinCount = (s.pages g).pinCount)
    (before : (s.pages f).pinCount = s.pinsOn p) (after : (t.pages f).pinCount = s.pinsOn p + 1) :
    t.pinned = placesAfter s.pinned s.pinsOn p := by
  have step := pinned_step others
  have positive : 0 < s.pinsOn p + 1 := by omega
  rw [before, after, if_pos positive] at step
  unfold placesAfter
  split
  · rename_i unheld
    rw [unheld, if_neg (lt_irrefl 0)] at step
    exact step
  · rename_i held
    have already : 0 < s.pinsOn p := by omega
    rw [if_pos already] at step
    omega

/-- A fetch of a cached page meets a pin count below the greatest. -/
theorem fetchPage_small {r : Option (Fin N)} (found : s.pageTable p = some f) (run : fetchPage p s = .ok r t) :
    (s.pages f).pinCount ≠ intMax := by
  intro most
  unfold fetchPage at run
  rw [get_bind] at run
  simp only [found, most, if_true] at run
  cases run

/-- A frame bears another page, and nothing else of page table, frames and disk has changed. -/
structure Replaced (f : Fin N) (page : Page) (s t : BufferPoolManager N) : Prop where
  table : t.pageTable = s.pageTable
  disk : t.diskManager = s.diskManager
  pages : t.pages = Function.update s.pages f page

namespace Replaced
variable {page : Page}

theorem self (step : Replaced f page s t) : t.pages f = page := by
  rw [step.pages, Function.update_self]

theorem others (step : Replaced f page s t) (g : Fin N) (other : g ≠ f) : t.pages g = s.pages g := by
  rw [step.pages, Function.update_of_ne other]

theorem id (step : Replaced f page s t) (same : page.id = (s.pages f).id) (g : Fin N) :
    (t.pages g).id = (s.pages g).id := by
  by_cases atF : g = f
  · rw [atF, step.self, same]
  · rw [step.others g atF]

theorem seen (step : Replaced f page s t) (inv : TableInv s) (found : s.pageTable p = some f) :
    t.seen = Function.update s.seen p page.data := by
  funext q
  by_cases same : q = p
  · rw [same, Function.update_self, seen_some (step.table ▸ found), step.self]
  · rw [Function.update_of_ne same]
    cases other : s.pageTable q with
    | none => rw [seen_none other, seen_none (step.table ▸ other), step.disk]
    | some g =>
      have apart : g ≠ f := by
        rintro rfl
        exact same ((inv.idOf q g other).1.symm.trans (inv.idOf p g found).1)
      rw [seen_some other, seen_some (step.table ▸ other), step.others g apart]

theorem pins (step : Replaced f page s t) (inv : TableInv s) (found : s.pageTable p = some f) :
    t.pinsOn = Function.update s.pinsOn p page.pinCount := by
  rw [← pinsOn_set inv page s.replacer found]
  exact pinsOn_of_same step.table fun g => by rw [step.pages]; rfl

end Replaced

/-- A frame bears other pins, and nothing else of page table, frames and disk has changed. -/
structure Repinned (f : Fin N) (k : Int) (s t : BufferPoolManager N) : Prop where
  table : t.pageTable = s.pageTable
  disk : t.diskManager = s.diskManager
  pages : t.pages = Function.update s.pages f { s.pages f with pinCount := k }

namespace Repinned
variable {k : Int}

theorem replaced (step : Repinned f k s t) : Replaced f { s.pages f with pinCount := k } s t :=
  ⟨step.table, step.disk, step.pages⟩

theorem self (step : Repinned f k s t) : t.pages f = { s.pages f with pinCount := k } := step.replaced.self

theorem others (step : Repinned f k s t) (g : Fin N) (other : g ≠ f) : t.pages g = s.pages g :=
  step.replaced.others g other

theorem seen (step : Repinned f k s t) (inv : TableInv s) (found : s.pageTable p = some f) : t.seen = s.seen := by
  rw [step.replaced.seen inv found, ← seen_some found, Function.update_eq_self]

theorem pins (step : Repinned f k s t) (inv : TableInv s) (found : s.pageTable p = some f) :
    t.pinsOn = Function.update s.pinsOn p k := step.replaced.pins inv found

end Repinned

/-- A pool over a disk that works, for a client that fetches and releases some pages: each of them has one frame
or is on disk, and the content of frames without pins may go. -/
structure Steady (pages : Set PageId) (s : BufferPoolManager N) : Prop where
  noneLost : NoneLost s
  mapped : ∀ f, (s.pages f).id.pageNo ≠ INVALID_PAGE_ID → s.pageTable (s.pages f).id = some f
  small : ∀ f, (s.pages f).pinCount ≤ intMax
  distinct : s.diskManager.Distinct
  idle : ∀ f, (s.pages f).pinCount = 0 → Disposable pages s.diskManager (s.pages f)
  missing : ∀ p ∈ pages, s.pageTable p = none → s.diskManager.Holds p

/-- What a fetch of a page leads to. -/
structure Fetched (pages : Set PageId) (p : PageId) (f : Fin N) (s t : BufferPoolManager N) : Prop where
  steady : Steady pages t
  table : t.pageTable p = some f
  pins : t.pinsOn = Function.update s.pinsOn p (s.pinsOn p + 1)
  pinned : t.pinned = placesAfter s.pinned s.pinsOn p
  seen : ∀ q ∈ pages, t.seen q = s.seen q
  idle : s.pinsOn p = 0 → Disposable pages t.diskManager (t.pages f)

theorem PoolInv.noneLost (inv : PoolInv s) : NoneLost s where
  wf := inv.wf
  capacity := inv.capacity
  idOf p f found := (inv.table_iff p f).mp found
  free_nodup := inv.free_nodup
  free_unused f free := (inv.free_iff f).mp free
  pin_nonneg := inv.pin_nonneg
  pinned_iff f := by
    refine ⟨fun held => inv.repInv.pinned f held, fun ⟨used, unlisted⟩ => ?_⟩
    have nonneg := inv.pin_nonneg f
    by_contra unheld
    exact unlisted (inv.evictable f used (by omega))
  counter_nonneg := inv.counter_nonneg

namespace Steady

/-- Every reachable pool is such a one, as long as the disk has and takes what is asked of it. -/
theorem of_reach (reach : PoolReach s) (small : ∀ f, (s.pages f).pinCount ≤ intMax) (distinct : s.diskManager.Distinct)
    (idle : ∀ f, (s.pages f).pinCount = 0 → Disposable pages s.diskManager (s.pages f))
    (missing : ∀ p ∈ pages, s.pageTable p = none → s.diskManager.Holds p) : Steady pages s :=
  ⟨reach.inv.noneLost, fun _ => reach.inv.valid_mapped, small, distinct, idle, missing⟩

/-- A new pool, if the disk has the pages. -/
theorem new {dm : DiskManager} (counters : ∀ fd, 0 ≤ dm.fd2pageno fd) (distinct : dm.Distinct)
    (holds : ∀ p ∈ pages, dm.Holds p) (junk : Fin N → Int) : Steady pages (BufferPoolManager.new dm junk) where
  noneLost := .new counters junk
  mapped f valid := absurd rfl valid
  small f := (by decide : (0 : Int) ≤ intMax)
  distinct := distinct
  idle f _ := by
    refine ⟨fun dirty => Bool.noConfusion dirty, fun _ member => ?_⟩
    obtain ⟨_, _, nonneg, _⟩ := holds _ member
    exact absurd nonneg (by decide : ¬(0 : Int) ≤ INVALID_PAGE_ID)
  missing p member _ := holds p member

theorem pinsOn_nonneg (steady : Steady pages s) (p : PageId) : 0 ≤ s.pinsOn p := by
  unfold pinsOn
  split
  · exact steady.noneLost.pin_nonneg _
  · exact le_rfl

theorem pinsOn_small (steady : Steady pages s) (p : PageId) : s.pinsOn p ≤ intMax := by
  unfold pinsOn
  split
  · exact steady.small _
  · decide

/-- A fetch returns a frame exactly if the page can bear one more pin and has a frame or finds one. -/
theorem fetchPage_iff (steady : Steady pages s) (member : p ∈ pages) :
    (∃ f t, fetchPage p s = .ok (some f) t) ↔ Holdable N intMax s.pinned s.pinsOn p := by
  constructor
  · rintro ⟨f, t, run⟩
    have most := steady.pinsOn_small p
    rcases fetchPage_cases run with ⟨g, found, same, _⟩ | ⟨_, same, _⟩ | ⟨g, _, _, _, _, missing, same, victim, _⟩
    · have below := fetchPage_small found run
      rw [← pinsOn_some found] at below
      exact ⟨by omega, fun unheld => pinned_lt ((pinsOn_some found).symm.trans unheld)⟩
    · cases same
    · refine ⟨?_, fun _ => pinned_lt (steady.noneLost.victim_unpinned victim)⟩
      rw [pinsOn_none missing]
      decide
  · rintro ⟨below, room⟩
    cases run : fetchPage p s with
    | ok r t =>
      cases r with
      | some f => exact ⟨f, t, rfl⟩
      | none =>
        rcases fetchPage_cases run with ⟨_, _, same, _⟩ | ⟨missing, _, _, full⟩ | ⟨_, _, _, _, _, _, same, _⟩
        · cases same
        · have := s.pinned_eq_iff.mpr (steady.noneLost.empty_iff.mp full)
          have := room (pinsOn_none missing)
          omega
        · cases same
    | error e t =>
      exfalso
      rcases fetchPage_throws run with ⟨_, f, found, most⟩ | ⟨missing, f, rest, r, victim, failed⟩
      · rw [pinsOn_some found, most] at below
        exact lt_irrefl _ below
      · have disposable := steady.idle f (steady.noneLost.victim_unpinned victim)
        rcases failed with ⟨dm, ⟨dirty, e, write⟩, _⟩ | ⟨dm, data, wrote, read, _⟩
        · have written : (s.diskManager.writePage (s.pages f).id.fd (s.pages f).id.pageNo (s.pages f).data.peek
              PAGE_SIZE).2 = none := (disposable.1 dirty).writePage
          rw [write] at written
          cases written
        · rw [(wrote.holds (steady.missing p member missing)).readPage] at read
          cases read

/-- A frame may bear its page with other bytes and pins, as long as its content may go when it has no pins. -/
theorem replaced (steady : Steady pages s) {page : Page} (step : Replaced f page s t) (noneLost : NoneLost t)
    (same : page.id = (s.pages f).id) (small : page.pinCount ≤ intMax)
    (idle : page.pinCount = 0 → Disposable pages s.diskManager page) : Steady pages t := by
  constructor
  case noneLost => exact noneLost
  case mapped =>
    intro g valid
    rw [step.id same] at valid ⊢
    rw [step.table]
    exact steady.mapped g valid
  case small =>
    intro g
    by_cases atF : g = f
    · rw [atF, step.self]
      exact small
    · rw [step.others g atF]
      exact steady.small g
  case distinct => exact step.disk ▸ steady.distinct
  case idle =>
    intro g unpinned
    rw [step.disk]
    by_cases atF : g = f
    · rw [atF, step.self] at unpinned ⊢
      exact idle unpinned
    · rw [step.others g atF] at unpinned ⊢
      exact steady.idle g unpinned
  case missing =>
    rw [step.table, step.disk]
    exact steady.missing

/-- A client may fetch and release a page whose frame keeps its content. -/
theorem repinned (steady : Steady pages s) {k : Int} (step : Repinned f k s t) (noneLost : NoneLost t)
    (small : k ≤ intMax) (idle : k = 0 → Disposable pages s.diskManager (s.pages f)) : Steady pages t :=
  steady.replaced step.replaced noneLost rfl small idle

theorem cached (steady : Steady pages s) (found : s.pageTable p = some f) (run : fetchPage p s = .ok (some f) t)
    (step : Repinned f ((s.pages f).pinCount + 1) s t) : Fetched pages p f s t := by
  have nonneg := steady.noneLost.pin_nonneg f
  have below := fetchPage_small found run
  have most := steady.small f
  constructor
  case steady =>
    exact steady.repinned step (steady.noneLost.fetchPage run) (by omega) fun unpinned => by omega
  case table => rw [step.table, found]
  case pins => rw [step.pins steady.noneLost.tableInv found, pinsOn_some found]
  case pinned =>
    refine pinned_up (steady.pinsOn_nonneg p) (fun g other => by rw [step.others g other]) (pinsOn_some found).symm ?_
    rw [step.self, pinsOn_some found]
  case seen => exact fun q _ => congrFun (step.seen steady.noneLost.tableInv found) q
  case idle =>
    intro unheld
    rw [pinsOn_some found] at unheld
    rw [step.self, step.disk]
    exact steady.idle f unheld

theorem valid_of_holds {dm : DiskManager} (holds : dm.Holds p) : 0 ≤ p.pageNo ∧ p.pageNo ≠ INVALID_PAGE_ID := by
  obtain ⟨_, _, nonneg, _⟩ := holds
  refine ⟨nonneg, ?_⟩
  unfold INVALID_PAGE_ID
  omega

/-- No frame bears a page that is not cached. -/
theorem missing_apart (steady : Steady pages s) (member : p ∈ pages) (missing : s.pageTable p = none) (f : Fin N) :
    p ≠ (s.pages f).id := by
  rintro rfl
  have valid := (valid_of_holds (steady.missing _ member missing)).2
  rw [steady.mapped f valid] at missing
  cases missing

/-- A page that has no frame, or loses it to a victim, is on disk then as it was seen. -/
theorem written_back (steady : Steady pages s) {dm : DiskManager} (unpinned : (s.pages f).pinCount = 0)
    (wrote : WroteBack s.diskManager dm (s.pages f)) (member : p ∈ pages) (gone : s.unmap f p = none) :
    dm.Holds p ∧ dm.diskPage p = s.seen p := by
  cases found : s.pageTable p with
  | none =>
    have holds := steady.missing p member found
    rw [seen_none found]
    exact ⟨wrote.holds holds,
      wrote.other steady.distinct (steady.missing_apart member found f) (valid_of_holds holds).1⟩
  | some g =>
    have atF : g = f := by
      by_contra notF
      rw [(steady.noneLost.tableInv.unmap_iff (steady.mapped f)).mpr ⟨found, notF⟩] at gone
      cases gone
    subst g
    rw [seen_some found]
    have bears := (steady.noneLost.idOf p f found).1
    rw [← bears] at member ⊢
    exact (steady.idle f unpinned).wroteBack wrote member

/-- The pool stays such a one when a victim takes over a page as the disk has it. -/
theorem install (steady : Steady pages s) {rest : List (Fin N)} {r : LRUReplacer (Fin N)} {dm : DiskManager}
    {data : PageData} (missing : s.pageTable p = none) (unpinned : (s.pages f).pinCount = 0)
    (wrote : WroteBack s.diskManager dm (s.pages f)) (disposable : Disposable pages dm ⟨p, data, false, 1⟩)
    (noneLost : NoneLost (BufferPoolManager.install p f data (s.taken f rest r dm))) :
    Steady pages (BufferPoolManager.install p f data (s.taken f rest r dm)) := by
  constructor
  case noneLost => exact noneLost
  case mapped =>
    intro g valid
    rw [steady.noneLost.tableInv.install_iff (steady.mapped f)]
    by_cases atF : g = f
    · rw [atF, install_page_self]
      exact Or.inl ⟨rfl, rfl⟩
    · rw [install_page_other atF] at valid ⊢
      have home := steady.mapped g valid
      refine Or.inr ⟨fun absurd => ?_, home, atF⟩
      rw [absurd, missing] at home
      cases home
  case small =>
    intro g
    by_cases atF : g = f
    · rw [atF, install_page_self]
      exact (by decide : (1 : Int) ≤ intMax)
    · rw [install_page_other atF]
      exact steady.small g
  case distinct => exact wrote.distinct steady.distinct
  case idle =>
    intro g idle
    by_cases atF : g = f
    · rw [atF, install_page_self]
      exact disposable
    · rw [install_page_other atF] at idle ⊢
      refine (steady.idle g idle).other wrote steady.distinct fun valid same => ?_
      -- two frames do not bear one page
      have atG := steady.mapped g valid
      rw [same] at atG valid
      exact atF (Option.some.inj (atG.symm.trans (steady.mapped f valid)))
  case missing =>
    intro q memberQ missingQ
    have other : q ≠ p := by
      rintro rfl
      rw [install_table_self] at missingQ
      cases missingQ
    rw [install_table_other other] at missingQ
    exact (steady.written_back unpinned wrote memberQ missingQ).1

theorem installed (steady : Steady pages s) {rest : List (Fin N)} {r : LRUReplacer (Fin N)} {dm : DiskManager}
    {data : PageData} (member : p ∈ pages) (missing : s.pageTable p = none) (victim : Victim s f rest r)
    (wrote : WroteBack s.diskManager dm (s.pages f))
    (read : dm.readPage p.fd p.pageNo (s.pages f).data = (data, none))
    (run : fetchPage p s = .ok (some f) (BufferPoolManager.install p f data (s.taken f rest r dm))) :
    Fetched pages p f s (BufferPoolManager.install p f data (s.taken f rest r dm)) := by
  have inv := steady.noneLost.tableInv
  have unpinned := steady.noneLost.victim_unpinned victim
  have gone : s.unmap f p = none := by
    cases still : s.unmap f p with
    | none => rfl
    | some g =>
      rw [(inv.unmapped still).1] at missing
      cases missing
  have onDisk := steady.written_back unpinned wrote member gone
  have bytes : data = dm.diskPage p := (DiskManager.readPage_diskPage read).1
  have disposable : Disposable pages dm ⟨p, data, false, 1⟩ :=
    ⟨fun dirty => Bool.noConfusion dirty, fun _ _ => ⟨onDisk.1, bytes.symm⟩⟩
  constructor
  case steady => exact steady.install missing unpinned wrote disposable (steady.noneLost.fetchPage run)
  case table => exact install_table_self
  case pins =>
    rw [pinsOn_install inv unpinned (steady.mapped f), pinsOn_none missing]
    rfl
  case pinned =>
    refine pinned_up (steady.pinsOn_nonneg p) (fun g other => by rw [install_page_other other]) ?_ ?_
    · rw [unpinned, pinsOn_none missing]
    · rw [install_page_self, pinsOn_none missing]
      rfl
  case seen =>
    intro q memberQ
    by_cases atQ : q = p
    · rw [atQ, seen_some install_table_self, install_page_self, bytes]
      exact onDisk.2
    · cases still : s.unmap f q with
      | none =>
        rw [seen_none ((install_table_other atQ).trans still)]
        exact (steady.written_back unpinned wrote memberQ still).2
      | some g =>
        obtain ⟨found, notF⟩ := inv.unmapped still
        rw [seen_some ((install_table_other atQ).trans still), seen_some found, install_page_other notF]
  case idle =>
    rw [install_page_self]
    exact fun _ => disposable

/-- What a fetch of one of the pages leads to. -/
theorem fetchPage (steady : Steady pages s) (member : p ∈ pages) (run : fetchPage p s = .ok (some f) t) :
    Fetched pages p f s t := by
  rcases fetchPage_cases run with ⟨g, found, same, rfl⟩ | ⟨_, same, _⟩ |
    ⟨g, rest, repl, dm, data, missing, same, victim, wrote, read, rfl⟩
  · cases same
    exact steady.cached found run ⟨rfl, rfl, rfl⟩
  · cases same
  · cases same
    exact steady.installed member missing victim wrote read run

end Steady

/-- The pages look as before, and so do all pins. -/
structure Restored (pages : Set PageId) (s t : BufferPoolManager N) : Prop where
  steady : Steady pages t
  pins : t.pinsOn = s.pinsOn
  pinned : t.pinned = s.pinned
  seen : ∀ q ∈ pages, t.seen q = s.seen q

theorem Restored.fetched {u : BufferPoolManager N} (restored : Restored pages s t) (fetched : Fetched pages p f t u) :
    Fetched pages p f s u where
  steady := fetched.steady
  table := fetched.table
  pins := restored.pins ▸ fetched.pins
  pinned := by rw [fetched.pinned, restored.pinned, restored.pins]
  seen q member := (fetched.seen q member).trans (restored.seen q member)
  idle := restored.pins ▸ fetched.idle

/-- The pins before a fetch again take up as many frames. -/
theorem Fetched.pinned_back {u : BufferPoolManager N} (nonneg : 0 ≤ s.pinsOn p) (fetched : Fetched pages p f s t)
    (others : ∀ g, g ≠ f → (u.pages g).pinCount = (t.pages g).pinCount) (self : (u.pages f).pinCount = s.pinsOn p) :
    u.pinned = s.pinned := by
  have back := pinned_step others
  have held : (t.pages f).pinCount = s.pinsOn p + 1 := by
    rw [← pinsOn_some fetched.table, fetched.pins, Function.update_self]
  have again : 0 < s.pinsOn p + 1 := by omega
  rw [held, self, fetched.pinned, if_pos again] at back
  unfold placesAfter at back
  by_cases first : s.pinsOn p = 0
  · rw [if_pos first, first, if_neg (lt_irrefl 0)] at back
    omega
  · have before : 0 < s.pinsOn p := by omega
    rw [if_neg first, if_pos before] at back
    omega

/-- A release takes a fetch back, but the page has a frame now. -/
theorem Fetched.unpinPage (nonneg : 0 ≤ s.pinsOn p) (fetched : Fetched pages p f s t) :
    ∃ u, unpinPage p false t = .ok true u ∧ u.pageTable p = some f ∧ Restored pages s u := by
  have steady := fetched.steady
  have held : (t.pages f).pinCount = s.pinsOn p + 1 := by
    rw [← pinsOn_some fetched.table, fetched.pins, Function.update_self]
  have positive : ¬(t.pages f).pinCount ≤ 0 := by omega
  obtain ⟨u, run⟩ : ∃ u, BufferPoolManager.unpinPage p false t = .ok true u := by
    unfold BufferPoolManager.unpinPage
    simp only [fetched.table, positive, if_false]
    exact ⟨_, rfl⟩
  have step : Repinned f (s.pinsOn p) t u := by
    rcases unpinPage_cases run with ⟨absurd, _⟩ | ⟨g, _, found, _, rfl⟩
    · cases absurd
    · cases fetched.table.symm.trans found
      refine ⟨rfl, rfl, ?_⟩
      simp only [setPage, Bool.or_false, held, Int.add_sub_cancel]
  refine ⟨u, run, step.table ▸ fetched.table, ?_⟩
  constructor
  case steady =>
    have small := steady.small f
    exact steady.repinned step (steady.noneLost.unpinPage run) (by omega) fetched.idle
  case pins =>
    rw [step.pins steady.noneLost.tableInv fetched.table, fetched.pins, Function.update_idem, Function.update_eq_self]
  case pinned =>
    refine fetched.pinned_back nonneg (fun g other => congrArg Page.pinCount (step.others g other)) ?_
    rw [step.self]
  case seen =>
    intro q member
    rw [step.seen steady.noneLost.tableInv fetched.table]
    exact fetched.seen q member

end BufferPoolManager

end Rmdb
