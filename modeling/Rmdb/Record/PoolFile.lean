import Rmdb.Kit.Refines
import Rmdb.Record.FreeList
import Rmdb.Record.PoolStore
import Rmdb.Record.Scan

namespace Rmdb
open RmFile RmFileHandle RmPageHandle BufferPoolManager
open DiskManager (Touched)
variable {N : Nat}

/-! A record operation through the pool does what it does on the handle's own file
alone, as long as the pool stands for a page store in which that file is kept. -/

/-- A handle on the pool and the same handle on the flat file its pages make up. `w₀`
is the world at the start of the call on the descriptor `fd₀`; other files are as they
were then. Only the pages in `busy` have changes on the way. -/
structure Tied (live : Int → Prop) (busy : PageId → Prop) (fd₀ : Int) (w₀ w : World Unit N)
    (s : RmFile (BufferPoolManager N)) (t : RmFile FlatFile) : Prop where
  sim : w.Sim live
  pool : w.pool = s.store
  handle : t.handle = s.handle
  atFd : s.handle.fd = fd₀
  isLive : live s.handle.fd
  quiet : ∀ p, ¬busy p → w.unsaved () p = false ∧ w.created p = false
  header : ∀ fd, w.pool.pageTable ⟨fd, RM_FILE_HDR_PAGE⟩ = none
  pages : ∀ k, 0 ≤ k → w.store ⟨s.handle.fd, k⟩ = t.store.page k
  counter : w.pool.counter s.handle.fd = t.store.counter
  others : ∀ q, q.fd ≠ s.handle.fd → w.store q = w₀.store q
  counters : ∀ fd, fd ≠ s.handle.fd → w.pool.counter fd = w₀.pool.counter fd
  touched : Touched w₀.pool.diskManager w.pool.diskManager

section
variable (live : Int → Prop) (fd₀ : Int) (w₀ : World Unit N)

/-- Between two calls: nothing is on the way. -/
def Idle (s : RmFile (BufferPoolManager N)) (t : RmFile FlatFile) : Prop := ∃ w, Tied live (fun _ => False) fd₀ w₀ w s t

/-- Inside a call that holds the page `p` in frame `f`. -/
def Held (modified : Bool) (f : Fin N) (p : PageId) (s : RmFile (BufferPoolManager N)) (t : RmFile FlatFile) : Prop :=
  ∃ w, Tied live (fun q => modified = true ∧ q = p) fd₀ w₀ w s t ∧ ⟨(), p, f⟩ ∈ w.pins ∧ p.fd = s.handle.fd ∧
    0 ≤ p.pageNo

end

variable {live : Int → Prop} {fd₀ : Int} {w₀ : World Unit N} {s : RmFile (BufferPoolManager N)} {t : RmFile FlatFile}

theorem onStore_ok {σ α : Type} {s s' : RmFile σ} {x : EStateM Error σ α} {a : α} (run : onStore x s = .ok a s') :
    ∃ u, x s.store = .ok a u ∧ s' = { s with store := u } := by
  unfold onStore at run
  split at run
  · rename_i found
    cases run
    exact ⟨_, found, rfl⟩
  · cases run

namespace Tied
variable {busy : PageId → Prop} {w : World Unit N} {p : PageId}

theorem hdr_eq (tied : Tied live busy fd₀ w₀ w s t) : t.hdr = s.hdr := by
  unfold hdr
  rw [tied.handle]

/-- New bytes for one page of the file are new bytes for it in the flat file. -/
theorem update_pages (tied : Tied live busy fd₀ w₀ w s t) (atFd : p.fd = s.handle.fd) (data : PageData) {k : Int}
    (lower : 0 ≤ k) :
    Function.update w.store p data ⟨s.handle.fd, k⟩ = Function.update t.store.page p.pageNo data k := by
  by_cases same : k = p.pageNo
  · subst k
    rw [Function.update_self, ← atFd, Function.update_self]
  · rw [Function.update_of_ne same, Function.update_of_ne, tied.pages k lower]
    intro equal
    exact same (by rw [← equal])

theorem update_others (tied : Tied live busy fd₀ w₀ w s t) (atFd : p.fd = s.handle.fd) (data : PageData) {q : PageId}
    (other : q.fd ≠ s.handle.fd) : Function.update w.store p data q = w₀.store q := by
  refine (Function.update_of_ne ?_ ..).trans (tied.others q other)
  rintro rfl
  exact other atFd

end Tied

namespace Held
variable {m : Bool} {f : Fin N} {p : PageId}

/-- The frame holds the page, with the bytes of the flat file. -/
theorem sees (held : Held live fd₀ w₀ m f p s t) :
    s.page f = t.page p ∧ PageStore.pageId s.store f = p ∧ t.handle = s.handle := by
  obtain ⟨w, tied, member, atFd, nonneg⟩ := held
  have found := tied.sim.held () p f member
  have data := tied.sim.cached p f (atFd ▸ tied.isLive) found
  have atP : p = ⟨s.handle.fd, p.pageNo⟩ := by rw [← atFd]
  refine ⟨?_, ?_, tied.handle⟩
  · change (s.store.pages f).data = t.store.page p.pageNo
    rw [← tied.pool, data, ← tied.pages p.pageNo nonneg, ← atP]
  · change (s.store.pages f).id = p
    rw [← tied.pool]
    exact tied.sim.inv.idOf found

theorem hdr_eq (held : Held live fd₀ w₀ m f p s t) : t.hdr = s.hdr := by
  obtain ⟨w, tied, _⟩ := held
  exact tied.hdr_eq

/-- A page that was only read may stay pinned. -/
theorem leave (held : Held live fd₀ w₀ false f p s t) : Idle live fd₀ w₀ s t := by
  obtain ⟨w, tied, _⟩ := held
  exact ⟨w, { tied with quiet := fun q _ => tied.quiet q fun busy => Bool.false_ne_true busy.1 }⟩

theorem setHdr (held : Held live fd₀ w₀ m f p s t) {h h' : RmFileHdr} (same : h = h') :
    Held live fd₀ w₀ m f p (s.setHdr h) (t.setHdr h') := by
  obtain ⟨w, tied, rest⟩ := held
  subst same
  refine ⟨w, { tied with handle := ?_ }, rest⟩
  change { t.handle with fileHdr := h } = { s.handle with fileHdr := h }
  rw [tied.handle]

end Held

theorem fetch_refines {k : Int} (notHeader : k ≠ RM_FILE_HDR_PAGE) :
    Refines (fun s t => Idle live fd₀ w₀ s t ∧ t.store.counter = t.hdr.numPages) (fetchPageHandle k) (fetchPageHandle k)
      (Held live fd₀ w₀ false) := by
  rintro s t f s' ⟨⟨w, tied⟩, counter⟩ run
  have sameHdr := tied.hdr_eq
  unfold fetchPageHandle at run
  rw [get_bind] at run
  split at run
  · cases run
  · rename_i below
    obtain ⟨found, u, call, rest⟩ := bind_eq_ok.mp run
    obtain ⟨pool, onPool, rfl⟩ := onStore_ok call
    cases found with
    | none => cases rest
    | some g =>
      cases rest
      have fetched : fetchPage ⟨s.handle.fd, k⟩ w.pool = .ok (some f) pool := by
        rw [tied.pool]
        exact onPool
      have admissible : k < w.pool.counter s.handle.fd := by
        rw [tied.counter, counter, sameHdr]
        omega
      have sim := tied.sim.fetch () tied.isLive admissible fetched
      have nonneg : 0 ≤ k := sim.nonneg _ f (sim.held () ⟨s.handle.fd, k⟩ f List.mem_cons_self)
      obtain ⟨touched, counters⟩ := fetchPage_touched fetched
      have flat : fetchPageHandle k t = .ok ⟨s.handle.fd, k⟩ t := by
        rw [fetchPageHandle_ok nonneg (by rw [sameHdr]; omega), tied.handle]
      refine ⟨_, t, flat, ⟨pool, ⟨(), ⟨s.handle.fd, k⟩, f⟩ :: w.pins, w.unsaved, w.created, w.store⟩, ?_,
        List.mem_cons_self, rfl, nonneg⟩
      constructor
      case sim => exact sim
      case pool => rfl
      case handle => exact tied.handle
      case atFd => exact tied.atFd
      case isLive => exact tied.isLive
      case quiet => exact fun p _ => tied.quiet p id
      case header =>
        intro fd
        by_contra cached
        obtain ⟨g, found⟩ := Option.ne_none_iff_exists'.mp cached
        rcases fetchPage_table fetched found with same | old
        · cases same
          exact notHeader rfl
        · rw [tied.header fd] at old
          cases old
      case pages => exact tied.pages
      case counter =>
        change pool.counter s.handle.fd = _
        rw [counters]
        exact tied.counter
      case others => exact tied.others
      case counters =>
        intro fd other
        change pool.counter fd = _
        rw [counters]
        exact tied.counters fd other
      case touched => exact tied.touched.trans touched

theorem modifyPage_refines {m : Bool} {f : Fin N} {p : PageId} {g g' : PageData → PageData} (same : g = g') :
    Refines (Held live fd₀ w₀ m f p) (modifyPage f g) (modifyPage p g') fun _ _ => Held live fd₀ w₀ true f p := by
  subst same
  refine Refines.modify fun s t held => ?_
  obtain ⟨sees, _⟩ := held.sees
  obtain ⟨w, tied, member, atFd, nonneg⟩ := held
  have sees : (s.store.pages f).data = t.store.page p.pageNo := sees
  have sim := tied.sim.modify (g (t.store.page p.pageNo)) (atFd ▸ tied.isLive) member
  refine ⟨⟨w.pool.setPage f { w.pool.pages f with data := g (t.store.page p.pageNo) }, w.pins,
    World.mark w.unsaved () p true, w.created, Function.update w.store p (g (t.store.page p.pageNo))⟩, ?_, member, atFd,
    nonneg⟩
  constructor
  case sim => exact sim
  case pool =>
    change w.pool.setPage f { w.pool.pages f with data := g (t.store.page p.pageNo) } =
      s.store.setPage f { s.store.pages f with data := g (s.store.pages f).data }
    rw [tied.pool, sees]
  case handle => exact tied.handle
  case atFd => exact tied.atFd
  case isLive => exact tied.isLive
  case quiet =>
    intro q notBusy
    have different : q ≠ p := fun same => notBusy ⟨rfl, same⟩
    obtain ⟨unsaved, created⟩ := tied.quiet q fun busy => different busy.2
    exact ⟨(World.mark_of_ne _ () () true different).trans unsaved, created⟩
  case header => exact tied.header
  case pages => exact fun k => tied.update_pages atFd _
  case counter => exact tied.counter
  case others => exact fun q => tied.update_others atFd _
  case counters => exact tied.counters
  case touched => exact tied.touched

theorem unpin_refines {m dirty : Bool} {f : Fin N} {p p' : PageId} (saves : m = true → dirty = true) (same : p' = p) :
    Refines (Held live fd₀ w₀ m f p) (onStore (PageStore.unpinPage p' dirty)) (onStore (PageStore.unpinPage p' dirty))
      fun _ _ => Idle live fd₀ w₀ := by
  subst same
  rintro s t r s' ⟨w, tied, member, atFd, nonneg⟩ run
  obtain ⟨pool, onPool, rfl⟩ := onStore_ok run
  have run : unpinPage p' dirty w.pool = .ok r pool := by
    rw [tied.pool]
    exact onPool
  have settled : dirty = false → w.unsaved () p' = false ∧ w.created p' = false := by
    intro clean
    refine tied.quiet p' fun busy => ?_
    rw [saves busy.1] at clean
    cases clean
  have sim := tied.sim.release (atFd ▸ tied.isLive) member
    (fun clean marked => by rw [(settled clean).1] at marked; cases marked)
    (fun clean isNew => by rw [(settled clean).2] at isNew; cases isNew) run
  have disk := unpinPage_disk run
  refine ⟨true, t, rfl, ⟨pool, w.pins.erase ⟨(), p', f⟩,
    if dirty then World.mark w.unsaved () p' false else w.unsaved,
    if dirty then Function.update w.created p' false else w.created, w.store⟩, ?_⟩
  constructor
  case sim => exact sim
  case pool => rfl
  case handle => exact tied.handle
  case atFd => exact tied.atFd
  case isLive => exact tied.isLive
  case quiet =>
    intro q _
    by_cases same : q = p'
    · subst q
      cases dirty with
      | false => exact settled rfl
      | true =>
        constructor
        · exact World.mark_self w.unsaved () p' false
        · exact Function.update_self ..
    · obtain ⟨unsaved, created⟩ := tied.quiet q fun busy => same busy.2
      cases dirty with
      | false => exact ⟨unsaved, created⟩
      | true =>
        constructor
        · exact (World.mark_of_ne _ () () false same).trans unsaved
        · exact (Function.update_of_ne same ..).trans created
  case header =>
    intro fd
    change pool.pageTable _ = none
    rw [unpinPage_table run]
    exact tied.header fd
  case pages => exact tied.pages
  case counter =>
    change pool.diskManager.fd2pageno _ = _
    rw [disk]
    exact tied.counter
  case others => exact tied.others
  case counters =>
    intro fd other
    change pool.diskManager.fd2pageno fd = _
    rw [disk]
    exact tied.counters fd other
  case touched =>
    change Touched _ pool.diskManager
    rw [disk]
    exact tied.touched

theorem require_refines {R : RmFile (BufferPoolManager N) → RmFile FlatFile → Prop} {p q : Prop} [Decidable p]
    [Decidable q] (same : p ↔ q) : Refines R (require p) (require q) fun _ _ => R := by
  refine Refines.ite same (fun _ => Refines.pure fun s t rel => rel) fun _ => Refines.throw _ _

/-- The page that `new_page` makes is the next one of the flat file. -/
theorem newPage_held {w : World Unit N} {p : PageId} {f : Fin N} {pool : BufferPoolManager N}
    (tied : Tied live (fun _ => False) fd₀ w₀ w s t) (lower : 1 ≤ t.store.counter) (upper : t.store.counter < intMax)
    (created : newPage s.handle.fd w.pool = .ok (some (p, f)) pool) :
    p = ⟨s.handle.fd, t.store.counter⟩ ∧ Held live fd₀ w₀ true f p { s with store := pool }
      { t with store := ⟨Function.update t.store.page p.pageNo Block.zero, wrapInt (t.store.counter + 1)⟩ } := by
  obtain ⟨touched, atP, counters⟩ := newPage_touched created
  rw [tied.counter] at atP
  have next : wrapInt (w.pool.counter s.handle.fd + 1) = w.pool.counter s.handle.fd + 1 := by
    rw [wrapInt_of_isInt]
    rw [tied.counter]
    unfold IsInt intMin
    omega
  have monotone : ∀ fd, w.pool.counter fd ≤ pool.counter fd := by
    rw [counters]
    exact le_update_succ w.pool.counter (by rw [next]; omega)
  have atFd : p.fd = s.handle.fd := by rw [atP]
  have pageNo : p.pageNo = t.store.counter := by rw [atP]
  refine ⟨atP, ⟨pool, ⟨(), p, f⟩ :: w.pins, w.unsaved, Function.update w.created p true,
    Function.update w.store p Block.zero⟩, ?_, List.mem_cons_self, atFd, by omega⟩
  constructor
  case sim => exact tied.sim.create () tied.isLive monotone created
  case pool => rfl
  case handle => exact tied.handle
  case atFd => exact tied.atFd
  case isLive => exact tied.isLive
  case quiet =>
    intro q notBusy
    have different : q ≠ p := fun same => notBusy ⟨rfl, same⟩
    obtain ⟨unsaved, notCreated⟩ := tied.quiet q id
    exact ⟨unsaved, (Function.update_of_ne different ..).trans notCreated⟩
  case header =>
    intro fd
    by_contra cached
    obtain ⟨h, found⟩ := Option.ne_none_iff_exists'.mp cached
    rcases newPage_table created found with same | old
    · rw [← same] at pageNo
      simp only [RM_FILE_HDR_PAGE] at pageNo
      omega
    · rw [tied.header fd] at old
      cases old
  case pages => exact fun k => tied.update_pages atFd _
  case counter =>
    change pool.counter s.handle.fd = wrapInt (t.store.counter + 1)
    rw [counters, Function.update_self, tied.counter]
  case others => exact fun q => tied.update_others atFd _
  case counters =>
    intro fd other
    change pool.counter fd = _
    rw [counters, Function.update_of_ne other]
    exact tied.counters fd other
  case touched => exact tied.touched.trans touched

/-- What `create_new_page_handle` does with its page. -/
theorem initPage_refines {p : PageId} {f : Fin N} {h h' : RmFileHdr} (same : h' = h) :
    Refines (Held live fd₀ w₀ true f p)
      (do
        modifyPage f (initPage h)
        require (h.numPages ≠ intMax)
        modify fun s => s.setHdr { s.hdr with
          numPages := s.hdr.numPages + 1
          firstFreePageNo := (PageStore.pageId s.store f).pageNo }
        return f)
      (do
        modifyPage p (initPage h')
        require (h'.numPages ≠ intMax)
        modify fun s => s.setHdr { s.hdr with
          numPages := s.hdr.numPages + 1
          firstFreePageNo := (PageStore.pageId s.store p).pageNo }
        return p) (Held live fd₀ w₀ true) := by
  subst same
  refine Refines.bind (modifyPage_refines rfl) fun _ _ => ?_
  refine Refines.bind (require_refines Iff.rfl) fun _ _ => ?_
  refine Refines.bind (Q := fun _ _ => Held live fd₀ w₀ true f p) (Refines.modify fun s t held => ?_)
    fun _ _ => Refines.pure fun s t held => held
  obtain ⟨_, atPage, _⟩ := held.sees
  exact held.setHdr (by rw [held.hdr_eq, atPage]; rfl)

theorem create_refines :
    Refines (fun s t => Idle live fd₀ w₀ s t ∧ t.store.counter = t.hdr.numPages ∧ 1 ≤ t.hdr.numPages ∧
        t.hdr.numPages ≤ intMax)
      createNewPageHandle createNewPageHandle (Held live fd₀ w₀ true) := by
  rintro s t f s' ⟨⟨w, tied⟩, counter, pos, le⟩ run
  have sameHdr := tied.hdr_eq
  unfold createNewPageHandle at run ⊢
  rw [get_bind] at run
  obtain ⟨made, u, call, rest⟩ := bind_eq_ok.mp run
  obtain ⟨pool, onPool, rfl⟩ := onStore_ok call
  cases made with
  | none => cases rest
  | some made =>
    obtain ⟨p, g⟩ := made
    have small : s.hdr.numPages ≠ intMax := by
      intro last
      obtain ⟨_, _, _, afterInit⟩ := bind_eq_ok.mp rest
      obtain ⟨_, _, required, _⟩ := bind_eq_ok.mp afterInit
      unfold require at required
      rw [if_neg fun h => h last] at required
      cases required
    have created : newPage s.handle.fd w.pool = .ok (some (p, g)) pool := by
      rw [tied.pool]
      exact onPool
    have upper : t.store.counter < intMax := by
      rw [← sameHdr, ← counter] at small
      omega
    obtain ⟨atP, held⟩ := newPage_held tied (by omega) upper created
    have made : onStore (PageStore.newPage t.handle.fd) t = .ok (some (p, p))
        { t with store := ⟨Function.update t.store.page p.pageNo Block.zero, wrapInt (t.store.counter + 1)⟩ } := by
      rw [atP, ← tied.handle]
      rfl
    obtain ⟨b, t', runFlat, post⟩ := initPage_refines sameHdr _ _ f s' held rest
    exact ⟨b, t', by rw [get_bind, bind_ok made]; exact runFlat, post⟩

/-- Between two calls on a file that keeps its invariant. -/
def Ready (live : Int → Prop) (fd₀ : Int) (w₀ : World Unit N) (s : RmFile (BufferPoolManager N))
    (t : RmFile FlatFile) : Prop :=
  Idle live fd₀ w₀ s t ∧ t.FileInv

theorem Ready.hdr_eq (ready : Ready live fd₀ w₀ s t) : t.hdr = s.hdr := by
  obtain ⟨⟨w, tied⟩, _⟩ := ready
  exact tied.hdr_eq

theorem createPageHandle_refines :
    Refines (Ready live fd₀ w₀) createPageHandle createPageHandle (Held live fd₀ w₀ true) := by
  unfold createPageHandle
  refine Refines.get fun s t ready => ?_
  have sameHdr := ready.hdr_eq
  refine Refines.ite (by rw [sameHdr]) (fun _ => ?_) fun started => ?_
  · refine create_refines.weaken (fun s' t' rel => ?_) fun _ _ _ _ held => held
    obtain ⟨⟨idle, inv⟩, _⟩ := rel
    exact ⟨idle, inv.counter, inv.pages_pos, inv.pages_le⟩
  · rw [sameHdr]
    have notHeader : s.hdr.firstFreePageNo ≠ RM_FILE_HDR_PAGE := by
      have isPage := (ready.2.first.resolve_left (by rw [sameHdr]; exact started)).1
      have lower := isPage.1
      rw [sameHdr] at lower
      unfold RM_FIRST_RECORD_PAGE at lower
      unfold RM_FILE_HDR_PAGE
      omega
    refine (fetch_refines notHeader).weaken (fun s' t' rel => ⟨rel.1.1, rel.1.2.counter⟩) fun f p s' t' held => ?_
    obtain ⟨w, tied, rest⟩ := held
    exact ⟨w, { tied with quiet := fun q _ => tied.quiet q fun busy => Bool.false_ne_true busy.1 }, rest⟩

end Rmdb
