import Rmdb.Storage.Faults
import Rmdb.Storage.Transparent

namespace Rmdb

namespace DiskManager
variable {dm dm' : DiskManager}

/-- The file reaches to the end of the page, and the page is zero there. -/
def ZeroPage (dm : DiskManager) (p : PageId) : Prop :=
  0 ≤ p.pageNo ∧ (∃ file, dm.fileOf p.fd = some file ∧ p.pageNo.toNat * PAGE_SIZE + PAGE_SIZE ≤ file.len) ∧
    dm.diskPage p = Block.zero

/-- A write leaves files open and does not shorten them. -/
theorem fileOf_writePage {fd pageNo : Int} {src : Nat → UInt8} {n : Nat} {e : Option Error}
    (run : dm.writePage fd pageNo src n = (dm', e)) {other : Int} {file : File} (opened : dm.fileOf other = some file) :
    ∃ file', dm'.fileOf other = some file' ∧ file.len ≤ file'.len := by
  obtain rfl | ⟨ino, k, _, _, _, rfl⟩ := writePage_effect run
  · exact ⟨file, opened, le_rfl⟩
  · obtain ⟨ino', atOther, rfl⟩ := Option.map_eq_some_iff.mp opened
    refine ⟨_, Option.map_eq_some_iff.mpr ⟨ino', atOther, rfl⟩, ?_⟩
    simp only [setFile, Function.update_apply]
    split
    · rename_i same
      rw [same]
      simp only [File.write]
      split <;> omega
    · exact le_rfl

theorem ZeroPage.write {p q : PageId} {src : Nat → UInt8} {n : Nat} {e : Option Error} (zero : dm.ZeroPage q)
    (distinct : dm.Distinct) (run : dm.writePage p.fd p.pageNo src n = (dm', e)) (bound : n ≤ PAGE_SIZE)
    (different : q ≠ p) : dm'.ZeroPage q := by
  obtain ⟨nonneg, ⟨file, opened, inside⟩, bytes⟩ := zero
  obtain ⟨file', opened', longer⟩ := fileOf_writePage run opened
  exact ⟨nonneg, ⟨file', opened', inside.trans longer⟩,
    (diskPage_writePage_other distinct run bound different nonneg).trans bytes⟩

theorem ZeroPage.written {p : PageId}
    (run : dm.writePage p.fd p.pageNo (Block.zero : PageData).peek PAGE_SIZE = (dm', none)) : dm'.ZeroPage p := by
  have bytes := diskPage_writePage_self run
  obtain ⟨ino, opened, nonneg, rfl⟩ := writePage_ok run
  refine ⟨nonneg, ⟨_, Option.map_eq_some_iff.mpr ⟨ino, opened, rfl⟩, ?_⟩, bytes⟩
  simp only [setFile, Function.update_self, File.write]
  rw [if_neg (by decide)]
  exact Nat.le_max_right ..

theorem ZeroPage.readPage {p : PageId} (zero : dm.ZeroPage p) (offset : PageData) :
    dm.readPage p.fd p.pageNo offset = (Block.zero, none) := by
  obtain ⟨nonneg, ⟨file, opened, inside⟩, bytes⟩ := zero
  rw [readPage_whole opened nonneg inside]
  simp only [diskPage, opened] at bytes
  exact congrArg (·, none) bytes

end DiskManager

namespace BufferPoolManager
variable {N : Nat} {s t : BufferPoolManager N}

theorem WroteBack.zeroPage {dm dm' : DiskManager} {page : Page} (wrote : WroteBack dm dm' page)
    (distinct : dm.Distinct) {q : PageId} (zero : dm.ZeroPage q) (different : q ≠ page.id) : dm'.ZeroPage q := by
  unfold WroteBack at wrote
  split at wrote
  · exact zero.write distinct wrote le_rfl different
  · rw [wrote]
    exact zero

/-- The frames of the page table bear the pages they are found under, and a frame that can be evicted is the
home of the page it bears. Frames that a failed call took from the lists may bear a page that has another
home by now, or none. -/
structure Homes (s : BufferPoolManager N) : Prop where
  wf : s.replacer.WF
  idOf : ∀ p f, s.pageTable p = some f → (s.pages f).id = p ∧ p.pageNo ≠ INVALID_PAGE_ID
  free_nodup : s.freeList.Nodup
  free_unused : ∀ f, f ∈ s.freeList → (s.pages f).id.pageNo = INVALID_PAGE_ID
  listed : ∀ f, f ∈ s.replacer.frames → (s.pages f).id.pageNo ≠ INVALID_PAGE_ID → s.pageTable (s.pages f).id = some f

namespace Homes

theorem tableInv (homes : Homes s) : TableInv s := ⟨homes.idOf, homes.free_nodup, homes.free_unused⟩

theorem new (dm : DiskManager) (junk : Fin N → Int) : Homes (BufferPoolManager.new dm junk) where
  wf := .new N
  idOf _ _ found := by cases found
  free_nodup := List.nodup_finRange N
  free_unused _ _ := rfl
  listed _ member := by cases member

/-- A step that keeps ids and the page table and lists no new frame. -/
theorem of_fewer (homes : Homes s) (table : t.pageTable = s.pageTable) (ids : ∀ f, (t.pages f).id = (s.pages f).id)
    (wf : t.replacer.WF) (nodup : t.freeList.Nodup) (free : ∀ f, f ∈ t.freeList → f ∈ s.freeList)
    (lru : ∀ f, f ∈ t.replacer.frames → f ∈ s.replacer.frames) : Homes t where
  wf := wf
  idOf p f found := by
    rw [table] at found
    rw [ids]
    exact homes.idOf p f found
  free_nodup := nodup
  free_unused f member := by
    rw [ids]
    exact homes.free_unused f (free f member)
  listed f member valid := by
    rw [ids] at valid ⊢
    rw [table]
    exact homes.listed f (lru f member) valid

theorem of_same (homes : Homes s) (table : t.pageTable = s.pageTable) (ids : ∀ f, (t.pages f).id = (s.pages f).id)
    (free : t.freeList = s.freeList) (lru : t.replacer = s.replacer) : Homes t :=
  homes.of_fewer table ids (lru ▸ homes.wf) (free ▸ homes.free_nodup) (fun _ member => free ▸ member)
    fun _ member => lru ▸ member

section
variable {f : Fin N} {rest : List (Fin N)} {r : LRUReplacer (Fin N)} {dm : DiskManager}

/-- The page a victim bears is cached there, if it bears one. -/
theorem victim_home (homes : Homes s) (victim : Victim s f rest r) (valid : (s.pages f).id.pageNo ≠ INVALID_PAGE_ID) :
    s.pageTable (s.pages f).id = some f := by
  cases victim with
  | free list => exact absurd (homes.free_unused f (list ▸ List.mem_cons_self)) valid
  | listed _ run =>
    refine homes.listed f ?_ valid
    rw [(LRUReplacer.victim_some run).1]
    exact List.mem_append_right _ List.mem_cons_self

theorem unmap_iff (homes : Homes s) (victim : Victim s f rest r) {q : PageId} {g : Fin N} :
    s.unmap f q = some g ↔ s.pageTable q = some g ∧ g ≠ f := by
  refine ⟨homes.tableInv.unmapped, ?_⟩
  rintro ⟨found, other⟩
  unfold unmap
  split
  · rename_i valid
    rw [Function.update_of_ne]
    · exact found
    · rintro rfl
      exact other (Option.some.inj (found.symm.trans (homes.victim_home victim valid)))
  · exact found

/-- What a victim leaves in the replacer. -/
theorem victim_listed (homes : Homes s) (victim : Victim s f rest r) :
    r.WF ∧ ∀ g, g ∈ r.frames → g ∈ s.replacer.frames := by
  cases victim with
  | free _ => exact ⟨homes.wf, fun g member => member⟩
  | listed _ run =>
    refine ⟨homes.wf.victim run, fun g member => ?_⟩
    rw [(LRUReplacer.victim_some run).1]
    exact List.mem_append_left _ member

/-- A victim taken from the lists and no more, as a failed write-back leaves it. -/
theorem unlisted (homes : Homes s) (victim : Victim s f rest r) (dm : DiskManager) :
    Homes { s with freeList := rest, replacer := r, diskManager := dm } := by
  obtain ⟨nodup, memRest⟩ := victim.rest_free homes.free_nodup
  obtain ⟨wf, memLru⟩ := homes.victim_listed victim
  exact homes.of_fewer rfl (fun _ => rfl) wf nodup (fun g member => ((memRest g).mp member).1) memLru

/-- A frame that is no longer anybody's home. -/
theorem taken (homes : Homes s) (victim : Victim s f rest r) (dm : DiskManager) :
    Homes (s.taken f rest r dm) := by
  obtain ⟨wf, memLru⟩ := homes.victim_listed victim
  have table := homes.tableInv.taken victim dm
  constructor
  case wf => exact wf
  case idOf => exact table.idOf
  case free_nodup => exact table.free_nodup
  case free_unused => exact table.free_unused
  case listed =>
    intro g member valid
    have home := homes.listed g (memLru g member) valid
    refine (homes.unmap_iff victim).mpr ⟨home, ?_⟩
    rintro rfl
    cases victim with
    | free list => exact valid (homes.free_unused g (list ▸ List.mem_cons_self))
    | listed _ run =>
      have nodup := homes.wf.frames_nodup
      rw [(LRUReplacer.victim_some run).1] at nodup
      exact (List.nodup_append.mp nodup).2.2 g member g List.mem_cons_self rfl

end

/-- A frame that is nobody's home becomes the home of a page. -/
theorem install (homes : Homes s) {p : PageId} {f : Fin N} (data : PageData) (notFree : f ∉ s.freeList)
    (nobody : ∀ q, s.pageTable q ≠ some f) (missing : s.pageTable p = none) (valid : p.pageNo ≠ INVALID_PAGE_ID) :
    Homes (BufferPoolManager.install p f data s) := by
  have pages : ∀ g, (BufferPoolManager.install p f data s).pages g =
      if g = f then ⟨p, data, false, 1⟩ else s.pages g := fun g => Function.update_apply ..
  have table : ∀ q, (BufferPoolManager.install p f data s).pageTable q =
      if q = p then some f else s.pageTable q := fun q => Function.update_apply ..
  have installed := homes.tableInv.install data notFree nobody valid
  constructor
  case wf => exact homes.wf.pin f
  case idOf => exact installed.idOf
  case free_nodup => exact installed.free_nodup
  case free_unused => exact installed.free_unused
  case listed =>
    intro g member used
    obtain ⟨old, other⟩ := homes.wf.mem_pin.mp member
    rw [pages, if_neg other] at used ⊢
    have home := homes.listed g old used
    rw [table, if_neg]
    · exact home
    · intro same
      rw [same, missing] at home
      cases home

section
variable {f : Fin N} {rest : List (Fin N)} {r : LRUReplacer (Fin N)}

theorem nobody (homes : Homes s) (victim : Victim s f rest r) (q : PageId) : s.unmap f q ≠ some f :=
  fun found => ((homes.unmap_iff victim).mp found).2 rfl

theorem replace (homes : Homes s) (victim : Victim s f rest r) (dm : DiskManager) {p : PageId} (data : PageData)
    (missing : s.unmap f p = none) (valid : p.pageNo ≠ INVALID_PAGE_ID) :
    Homes (BufferPoolManager.install p f data (s.taken f rest r dm)) := by
  have notFree : f ∉ rest := fun free => (((victim.rest_free homes.free_nodup).2 f).mp free).2 rfl
  exact (homes.taken victim dm).install data notFree (homes.nobody victim) missing valid

end

theorem unpinPage (homes : Homes s) {p : PageId} {d r : Bool} (run : unpinPage p d s = .ok r t) : Homes t := by
  rcases unpinPage_cases run with ⟨_, rfl, _⟩ | ⟨f, _, found, _, rfl⟩
  · exact homes
  · split
    · have same := homes.of_same (t := s.setPage f { s.pages f with
        pinCount := (s.pages f).pinCount - 1, isDirty := (s.pages f).isDirty || d }) rfl (setPage_id rfl) rfl rfl
      refine ⟨homes.wf.unpin f, same.idOf, same.free_nodup, same.free_unused, fun g member valid => ?_⟩
      rcases LRUReplacer.mem_of_mem_unpin member with rfl | old
      · simp only [setPage, Function.update_self]
        rw [(homes.idOf p g found).1]
        exact found
      · exact same.listed g old valid
    · exact homes.of_same rfl (setPage_id rfl) rfl rfl

theorem deletePage (homes : Homes s) {p : PageId} {r : Bool} (run : deletePage p s = .ok r t) : Homes t := by
  rcases deletePage_cases (fun f found => (homes.idOf p f found).1) run with ⟨rfl, _⟩ |
    ⟨f, dm, _, found, _, _, rfl⟩
  · exact homes
  · have freed := homes.tableInv.deleted found dm
    constructor
    case wf => exact homes.wf
    case idOf => exact freed.idOf
    case free_nodup => exact freed.free_nodup
    case free_unused => exact freed.free_unused
    case listed =>
      intro g member used
      simp only [setPage, Function.update_apply] at used ⊢
      by_cases atF : g = f
      · rw [if_pos atF] at used
        exact absurd rfl used
      · rw [if_neg atF] at used ⊢
        have home := homes.listed g member used
        rw [if_neg]
        · exact home
        · intro same
          rw [same, found] at home
          exact atF (Option.some.inj home).symm

end Homes

/-- A page of zeros, in its frame or else on disk. -/
def HasZeros (s : BufferPoolManager N) (p : PageId) : Prop :=
  (∃ f, s.pageTable p = some f ∧ (s.pages f).data = Block.zero) ∨
    (s.pageTable p = none ∧ s.diskManager.ZeroPage p)

namespace HasZeros
variable {q : PageId}

theorem valid (homes : Homes s) (zeros : HasZeros s q) : q.pageNo ≠ INVALID_PAGE_ID := by
  rcases zeros with ⟨f, found, _⟩ | ⟨_, nonneg, _⟩
  · exact (homes.idOf q f found).2
  · unfold INVALID_PAGE_ID
    omega

theorem of_same (zeros : HasZeros s q) (table : t.pageTable = s.pageTable)
    (data : ∀ f, s.pageTable q = some f → (t.pages f).data = (s.pages f).data)
    (disk : s.diskManager.ZeroPage q → t.diskManager.ZeroPage q) : HasZeros t q := by
  rcases zeros with ⟨f, found, bytes⟩ | ⟨missing, onDisk⟩
  · exact Or.inl ⟨f, table ▸ found, (data f found).trans bytes⟩
  · exact Or.inr ⟨table ▸ missing, disk onDisk⟩

/-- A write of another page, or of a cached one, whether it fails or not. -/
theorem write (zeros : HasZeros s q) (distinct : s.diskManager.Distinct) {p : PageId} {d : PageData}
    {dm : DiskManager} {e : Option Error} (run : s.diskManager.writePage p.fd p.pageNo d.peek PAGE_SIZE = (dm, e))
    (cached : q = p → s.pageTable q ≠ none) : HasZeros { s with diskManager := dm } q := by
  rcases zeros with ⟨f, found, bytes⟩ | ⟨missing, onDisk⟩
  · exact Or.inl ⟨f, found, bytes⟩
  · exact Or.inr ⟨missing, onDisk.write distinct run le_rfl fun same => cached same missing⟩

section
variable {f : Fin N} {rest : List (Fin N)} {r : LRUReplacer (Fin N)} {dm : DiskManager}

/-- A write-back that failed. -/
theorem unlisted (zeros : HasZeros s q) (homes : Homes s) (distinct : s.diskManager.Distinct)
    (victim : Victim s f rest r) (failed : WriteFailed s.diskManager dm (s.pages f).id (s.pages f)) :
    HasZeros { s with freeList := rest, replacer := r, diskManager := dm } q := by
  obtain ⟨_, e, write⟩ := failed
  have written := zeros.write distinct write fun same => by
    rw [same, homes.victim_home victim (same ▸ zeros.valid homes)]
    exact Option.some_ne_none f
  exact written.of_same rfl (fun _ _ => rfl) id

/-- The victim of an eviction may hold the page if it is dirty, or if the disk has the zeros already. -/
theorem taken (zeros : HasZeros s q) (homes : Homes s) (distinct : s.diskManager.Distinct) (victim : Victim s f rest r)
    (wrote : WroteBack s.diskManager dm (s.pages f))
    (spared : q = (s.pages f).id → (s.pages f).isDirty = false → s.diskManager.ZeroPage q) :
    HasZeros (s.taken f rest r dm) q := by
  have gone : (∀ g, s.pageTable q = some g → g = f) → s.unmap f q = none := by
    intro only
    by_contra found
    obtain ⟨g, found⟩ := Option.ne_none_iff_exists'.mp found
    obtain ⟨found, other⟩ := (homes.unmap_iff victim).mp found
    exact other (only g found)
  rcases zeros with ⟨g, found, bytes⟩ | ⟨missing, onDisk⟩
  · by_cases atF : g = f
    · subst g
      refine Or.inr ⟨gone fun g other => Option.some.inj (other.symm.trans found), ?_⟩
      have atQ := (homes.idOf q f found).1
      unfold WroteBack at wrote
      split at wrote
      · rw [bytes] at wrote
        exact atQ ▸ DiskManager.ZeroPage.written wrote
      · rename_i clean
        rw [wrote]
        exact spared atQ.symm (eq_false_of_ne_true clean)
    · exact Or.inl ⟨g, (homes.unmap_iff victim).mpr ⟨found, atF⟩, bytes⟩
  · refine Or.inr ⟨gone fun g other => ?_, wrote.zeroPage distinct onDisk ?_⟩
    · exact absurd (other.symm.trans missing) (Option.some_ne_none g)
    · rintro rfl
      rw [homes.victim_home victim (valid homes (Or.inr ⟨missing, onDisk⟩))] at missing
      cases missing

end

theorem install (zeros : HasZeros s q) {p : PageId} {f : Fin N} (data : PageData)
    (nobody : ∀ q, s.pageTable q ≠ some f) (other : q ≠ p) : HasZeros (BufferPoolManager.install p f data s) q := by
  have table : (BufferPoolManager.install p f data s).pageTable q = s.pageTable q := Function.update_of_ne other ..
  rcases zeros with ⟨g, found, bytes⟩ | ⟨missing, onDisk⟩
  · have notF : g ≠ f := by
      rintro rfl
      exact nobody q found
    refine Or.inl ⟨g, table.trans found, ?_⟩
    simp only [BufferPoolManager.install, setPage, Function.update_of_ne notF]
    exact bytes
  · exact Or.inr ⟨table.trans missing, onDisk⟩

theorem install_self (p : PageId) (f : Fin N) : HasZeros (BufferPoolManager.install p f Block.zero s) p :=
  Or.inl ⟨f, Function.update_self .., by simp [BufferPoolManager.install, setPage]⟩

end HasZeros

/-- A pool, and the pages that `new_page` created and that nobody has modified or deleted since. -/
structure Watched (N : Nat) where
  pool : BufferPoolManager N
  untouched : PageId → Prop

namespace Watched

def start (dm : DiskManager) (junk : Fin N → Int) : Watched N := ⟨.new dm junk, fun _ => False⟩

/-- The untouched pages after a call that returned. -/
def after (untouched : PageId → Prop) : Call → Reply N → PageId → Prop
  | .newPage _, .created (some (p, _)), q => q = p ∨ untouched q
  | .deletePage p, .flag true, q => q ≠ p ∧ untouched q
  | _, _, q => untouched q

/-- The pools that calls lead to which return or end with an I/O exception. Between two calls clients write bytes
into frames, and the files are changed by others: a page they touch is no longer untouched. -/
inductive Run (allowed : Watched N → Call → Prop) : Watched N → Prop
  | start {dm : DiskManager} (junk : Fin N → Int) : dm.Distinct → Run allowed (start dm junk)
  | returned {w : Watched N} {c : Call} {r : Reply N} {t : BufferPoolManager N} : Run allowed w → allowed w c →
      call c w.pool = .ok r t → Run allowed ⟨t, after w.untouched c r⟩
  | thrown {w : Watched N} {c : Call} {e : Error} {t : BufferPoolManager N} : Run allowed w → allowed w c →
      call c w.pool = .error e t → IsIo e → Run allowed ⟨t, w.untouched⟩
  | writeBytes {w : Watched N} (f : Fin N) (data : PageData) : Run allowed w →
      Run allowed ⟨w.pool.setPage f { w.pool.pages f with data := data },
        fun p => w.untouched p ∧ w.pool.pageTable p ≠ some f⟩
  | disk {w : Watched N} (dm : DiskManager) : Run allowed w → dm.Distinct →
      Run allowed ⟨{ w.pool with diskManager := dm },
        fun p => w.untouched p ∧ (w.pool.diskManager.ZeroPage p → dm.ZeroPage p)⟩

/-- No untouched page that is clean is evicted unless the disk has its zeros. -/
def SparesVictim (w : Watched N) : Prop := ∀ f rest r, Victim w.pool f rest r → w.untouched (w.pool.pages f).id →
  (w.pool.pages f).isDirty = false → w.pool.diskManager.ZeroPage (w.pool.pages f).id

/-- `new_page` gives out the number of a page that is not cached, and `flush_all_pages` meets no frame in which
a failed call left an untouched page behind. -/
def Spares (w : Watched N) : Call → Prop
  | .fetchPage p => w.pool.pageTable p = none → w.SparesVictim
  | .newPage fd => w.SparesVictim ∧ w.pool.counter fd ≠ INVALID_PAGE_ID ∧
      ∀ f rest r, Victim w.pool f rest r → w.pool.unmap f ⟨fd, w.pool.counter fd⟩ = none
  | .flushAllPages fd => ∀ f, (w.pool.pages f).id.fd = fd → w.untouched (w.pool.pages f).id →
      w.pool.pageTable (w.pool.pages f).id ≠ none
  | _ => True

/-- The invariant. -/
structure Kept (w : Watched N) : Prop where
  homes : Homes w.pool
  distinct : w.pool.diskManager.Distinct
  zeros : ∀ q, w.untouched q → HasZeros w.pool q

namespace Kept
variable {w : Watched N}

theorem fetchPage (kept : Kept w) {p : PageId} {r : Option (Fin N)} (spares : w.Spares (.fetchPage p))
    (run : fetchPage p w.pool = .ok r t) : Kept ⟨t, w.untouched⟩ := by
  have homes := kept.homes
  rcases fetchPage_cases run with ⟨f, found, _, rfl⟩ | ⟨_, _, rfl, _⟩ |
    ⟨f, rest, repl, dm, data, missing, _, victim, wrote, read, rfl⟩
  · have data : ∀ g, ((w.pool.setPage f { w.pool.pages f with
        pinCount := (w.pool.pages f).pinCount + 1 }).pages g).data = (w.pool.pages g).data := setPage_data rfl
    refine ⟨homes.of_fewer rfl (setPage_id rfl) (homes.wf.pin f) homes.free_nodup (fun _ free => free)
      fun g member => (homes.wf.mem_pin.mp member).1, kept.distinct, fun q untouched => ?_⟩
    exact (kept.zeros q untouched).of_same rfl (fun g _ => data g) id
  · exact kept
  · have valid : p.pageNo ≠ INVALID_PAGE_ID := by
      have := (DiskManager.readPage_diskPage read).2
      unfold INVALID_PAGE_ID
      omega
    have missing' : w.pool.unmap f p = none := by
      by_contra found
      obtain ⟨g, found⟩ := Option.ne_none_iff_exists'.mp found
      rw [((homes.unmap_iff victim).mp found).1] at missing
      cases missing
    refine ⟨homes.replace victim dm data missing' valid, wrote.distinct kept.distinct, ?_⟩
    intro q untouched
    have zeros := (kept.zeros q untouched).taken homes kept.distinct victim wrote
      fun same clean => same ▸ spares missing f rest repl victim (same ▸ untouched) clean
    by_cases same : q = p
    · subst q
      rcases zeros with ⟨g, found, _⟩ | ⟨_, onDisk⟩
      · rw [show (w.pool.taken f rest repl dm).pageTable p = none from missing'] at found
        cases found
      · cases read.symm.trans (onDisk.readPage (w.pool.pages f).data)
        exact .install_self p f
    · exact zeros.install data (homes.nobody victim) same

theorem newPage (kept : Kept w) {fd : Int} {r : Option (PageId × Fin N)} (spares : w.Spares (.newPage fd))
    (run : newPage fd w.pool = .ok r t) : Kept ⟨t, after w.untouched (.newPage fd) (.created r : Reply N)⟩ := by
  have homes := kept.homes
  obtain ⟨spared, valid, fresh⟩ := spares
  rcases newPage_cases run with ⟨rfl, rfl, _⟩ | ⟨f, rest, repl, dm, dm', pageNo, rfl, victim, wrote, allocated, rfl⟩
  · exact kept
  · obtain ⟨rfl, rfl⟩ := allocatePage_ok allocated
    have counter : dm.fd2pageno fd = w.pool.counter fd := congrFun wrote.counters fd
    rw [counter]
    refine ⟨homes.replace victim _ _ (fresh f rest repl victim) valid, wrote.distinct kept.distinct, ?_⟩
    intro q created
    by_cases same : q = ⟨fd, w.pool.counter fd⟩
    · rw [same]
      exact .install_self ..
    · have untouched := created.resolve_left same
      have zeros := (kept.zeros q untouched).taken homes kept.distinct victim wrote
        fun same clean => same ▸ spared f rest repl victim (same ▸ untouched) clean
      have taken := zeros.of_same (t := w.pool.taken f rest repl _) rfl (fun _ _ => rfl) id
      exact taken.install _ (homes.nobody victim) same

theorem unpinPage (kept : Kept w) {p : PageId} {d r : Bool} (run : unpinPage p d w.pool = .ok r t) :
    Kept ⟨t, w.untouched⟩ := by
  have homes := kept.homes.unpinPage run
  rcases unpinPage_cases run with ⟨_, rfl, _⟩ | ⟨f, _, _, _, rfl⟩
  · exact kept
  · have data : ∀ g, ((w.pool.setPage f { w.pool.pages f with
        pinCount := (w.pool.pages f).pinCount - 1, isDirty := (w.pool.pages f).isDirty || d }).pages g).data =
          (w.pool.pages g).data := setPage_data rfl
    exact ⟨homes, kept.distinct, fun q untouched => (kept.zeros q untouched).of_same rfl (fun g _ => data g) id⟩

/-- A write of a frame's page, whether it fails or not; no untouched page may have left the page table. -/
theorem write (kept : Kept w) {f : Fin N} {p : PageId} {dm : DiskManager} {e : Option Error}
    (run : w.pool.diskManager.writePage p.fd p.pageNo (w.pool.pages f).data.peek PAGE_SIZE = (dm, e))
    (cached : w.untouched p → w.pool.pageTable p ≠ none) : Kept ⟨{ w.pool with diskManager := dm }, w.untouched⟩ where
  homes := kept.homes.of_same rfl (fun _ => rfl) rfl rfl
  distinct := kept.distinct.writePage run
  zeros q untouched := (kept.zeros q untouched).write kept.distinct run fun same => by
    subst q
    exact cached untouched

theorem cleaned (kept : Kept w) (f : Fin N) :
    Kept ⟨w.pool.setPage f { w.pool.pages f with isDirty := false }, w.untouched⟩ where
  homes := kept.homes.of_same rfl (setPage_id rfl) rfl rfl
  distinct := kept.distinct
  zeros q untouched := by
    have data : ∀ g, ((w.pool.setPage f { w.pool.pages f with isDirty := false }).pages g).data =
        (w.pool.pages g).data := setPage_data rfl
    exact (kept.zeros q untouched).of_same rfl (fun g _ => data g) id

theorem flushPage (kept : Kept w) {p : PageId} {r : Bool} (run : flushPage p w.pool = .ok r t) :
    Kept ⟨t, w.untouched⟩ := by
  rcases flushPage_cases run with ⟨_, _, rfl⟩ | ⟨f, dm, found, _, write, rfl⟩
  · exact kept
  · exact (kept.write write fun _ => by rw [found]; exact Option.some_ne_none f).cleaned f

theorem deletePage (kept : Kept w) {p : PageId} {r : Bool} (run : deletePage p w.pool = .ok r t) :
    Kept ⟨t, after w.untouched (.deletePage p) (.flag r : Reply N)⟩ := by
  have homes := kept.homes.deletePage run
  rcases deletePage_cases (fun f found => (kept.homes.idOf p f found).1) run with ⟨rfl, _⟩ |
    ⟨f, dm, rfl, found, _, wrote, rfl⟩
  · refine ⟨homes, kept.distinct, fun q untouched => kept.zeros q ?_⟩
    cases r with
    | true => exact untouched.2
    | false => exact untouched
  · refine ⟨homes, wrote.distinct kept.distinct, ?_⟩
    rintro q ⟨other, untouched⟩
    have atP := (kept.homes.idOf p f found).1
    have table : Function.update w.pool.pageTable p none q = w.pool.pageTable q := Function.update_of_ne other ..
    rcases kept.zeros q untouched with ⟨g, here, bytes⟩ | ⟨missing, onDisk⟩
    · have notF : g ≠ f := by
        rintro rfl
        exact other ((kept.homes.idOf q g here).1.symm.trans atP)
      refine Or.inl ⟨g, table.trans here, ?_⟩
      simp only [setPage, Function.update_of_ne notF]
      exact bytes
    · exact Or.inr ⟨table.trans missing, wrote.zeroPage kept.distinct onDisk (atP ▸ other)⟩

/-- The loop of `flush_all_pages`, wherever an exception ends it. -/
theorem flushFrames (kept : Kept w) {fd : Int} (list : List (Fin N)) (spares : w.Spares (.flushAllPages fd)) :
    Kept ⟨stateAfter (flushFrames fd list) w.pool, w.untouched⟩ := by
  induction list generalizing w with
  | nil => exact kept
  | cons f rest ih =>
    have loop : BufferPoolManager.flushFrames fd (f :: rest) =
      flushFrame fd f >>= fun _ => BufferPoolManager.flushFrames fd rest := rfl
    have cached : (w.pool.pages f).id.fd = fd → w.untouched (w.pool.pages f).id →
      w.pool.pageTable (w.pool.pages f).id ≠ none := spares f
    unfold stateAfter
    rw [loop]
    cases first : flushFrame fd f w.pool with
    | ok u m =>
      rw [bind_ok first]
      unfold flushFrame at first
      split at first
      · rename_i mine
        obtain ⟨dm, write, rfl⟩ := writeFrame_ok first
        have ids : ∀ g, ((({ w.pool with diskManager := dm } : BufferPoolManager N).setPage f
          { w.pool.pages f with isDirty := false }).pages g).id = (w.pool.pages g).id := setPage_id rfl
        refine ih ((kept.write write (cached mine.1)).cleaned f) fun g => ?_
        change (_ : PageId).fd = fd → w.untouched _ → w.pool.pageTable _ ≠ none
        rw [ids]
        exact spares g
      · cases first
        exact ih kept spares
    | error e m =>
      rw [bind_error first]
      unfold flushFrame at first
      split at first
      · rename_i mine
        obtain ⟨dm, write, rfl⟩ := writeFrame_fails first
        exact kept.write write (cached mine.1)
      · cases first

theorem call (kept : Kept w) {c : Call} {r : Reply N} (spares : w.Spares c) (run : call c w.pool = .ok r t) :
    Kept ⟨t, after w.untouched c r⟩ := by
  cases c with
  | fetchPage p =>
    obtain ⟨_, run, _⟩ := map_eq_ok.mp run
    exact kept.fetchPage spares run
  | unpinPage p d =>
    obtain ⟨_, run, _⟩ := map_eq_ok.mp run
    exact kept.unpinPage run
  | flushPage p =>
    obtain ⟨_, run, _⟩ := map_eq_ok.mp run
    exact kept.flushPage run
  | newPage fd =>
    obtain ⟨_, created, rfl⟩ := map_eq_ok.mp run
    exact kept.newPage spares created
  | deletePage p =>
    obtain ⟨_, deleted, rfl⟩ := map_eq_ok.mp run
    exact kept.deletePage deleted
  | flushAllPages fd =>
    obtain ⟨_, run, _⟩ := map_eq_ok.mp run
    have loop := kept.flushFrames (List.finRange N) spares
    unfold stateAfter at loop
    rwa [show BufferPoolManager.flushFrames fd (List.finRange N) w.pool = _ from run] at loop

theorem call_fails (kept : Kept w) {c : Call} {e : Error} (spares : w.Spares c)
    (run : BufferPoolManager.call c w.pool = .error e t) (io : IsIo e) : Kept ⟨t, w.untouched⟩ := by
  have homes := kept.homes
  cases c with
  | fetchPage p =>
    rcases fetchPage_throws (map_eq_error.mp run) with ⟨rfl, _⟩ | ⟨missing, f, rest, r, victim, ended⟩
    · cases io
    · rcases ended with ⟨dm, failed, rfl⟩ | ⟨dm, data, wrote, _, rfl⟩
      · exact ⟨homes.unlisted victim dm, kept.distinct.writePage failed.2.choose_spec,
          fun q untouched => (kept.zeros q untouched).unlisted homes kept.distinct victim failed⟩
      · refine ⟨(homes.taken victim dm).of_same rfl (setPage_id rfl) rfl rfl, wrote.distinct kept.distinct, ?_⟩
        intro q untouched
        have zeros := (kept.zeros q untouched).taken homes kept.distinct victim wrote
          fun same clean => same ▸ spares missing f rest r victim (same ▸ untouched) clean
        refine zeros.of_same rfl (fun g found => ?_) id
        have notF : g ≠ f := ((homes.unmap_iff victim).mp found).2
        simp only [setPage, Function.update_of_ne notF]
  | unpinPage p d =>
    have run := map_eq_error.mp run
    unfold BufferPoolManager.unpinPage at run
    split at run
    · cases run
    · dsimp only at run
      split at run <;> cases run
  | flushPage p =>
    have run := map_eq_error.mp run
    unfold BufferPoolManager.flushPage at run
    rw [get_bind] at run
    cases found : w.pool.pageTable p with
    | none =>
      simp only [found] at run
      cases run
    | some f =>
      simp only [found] at run
      rcases bind_eq_error.mp run with failed | ⟨_, _, _, absurd⟩
      · obtain ⟨dm, write, rfl⟩ := writeFrame_fails failed
        exact kept.write write fun _ => by rw [found]; exact Option.some_ne_none f
      · cases absurd
  | newPage fd =>
    obtain ⟨f, rest, r, dm, victim, ⟨rfl, _⟩ | ⟨failed, rfl⟩⟩ := newPage_throws (map_eq_error.mp run)
    · cases io
    · exact ⟨homes.unlisted victim dm, kept.distinct.writePage failed.2.choose_spec,
        fun q untouched => (kept.zeros q untouched).unlisted homes kept.distinct victim failed⟩
  | deletePage p =>
    obtain ⟨f, dm, found, ⟨_, e, write⟩, rfl⟩ := deletePage_fails (map_eq_error.mp run)
    exact kept.write write fun _ => by rw [found]; exact Option.some_ne_none f
  | flushAllPages fd =>
    have loop := kept.flushFrames (List.finRange N) spares
    unfold stateAfter at loop
    rwa [show BufferPoolManager.flushFrames fd (List.finRange N) w.pool = _ from map_eq_error.mp run] at loop

end Kept

theorem Run.kept {w : Watched N} (run : Run Spares w) : Kept w := by
  induction run with
  | start junk distinct => exact ⟨.new _ junk, distinct, fun q created => created.elim⟩
  | returned _ spares run ih => exact ih.call spares run
  | thrown _ spares run io ih => exact ih.call_fails spares run io
  | @writeBytes w f data _ ih =>
    refine ⟨ih.homes.of_same rfl (setPage_id rfl) rfl rfl, ih.distinct, ?_⟩
    rintro q ⟨untouched, other⟩
    refine (ih.zeros q untouched).of_same rfl (fun g found => ?_) id
    have notF : g ≠ f := by
      rintro rfl
      exact other found
    simp only [setPage, Function.update_of_ne notF]
  | @disk w dm _ distinct ih =>
    refine ⟨ih.homes.of_same rfl (fun _ => rfl) rfl rfl, distinct, ?_⟩
    rintro q ⟨untouched, same⟩
    exact (ih.zeros q untouched).of_same rfl (fun _ _ => rfl) same

end Watched

theorem fetchPage_cached {p : PageId} {f : Fin N} (found : s.pageTable p = some f) :
    fetchPage p s = if (s.pages f).pinCount = intMax then .error .undefined s
      else .ok (some f) { s.setPage f { s.pages f with pinCount := (s.pages f).pinCount + 1 } with
        replacer := s.replacer.pin f } := by
  unfold fetchPage
  rw [get_bind]
  simp only [found]
  split <;> rfl

section
variable {f : Fin N} {rest : List (Fin N)} {r : LRUReplacer (Fin N)} {dm : DiskManager}

theorem Victim.found (victim : Victim s f rest r) :
    findVictimPage s = .ok (some f) { s with freeList := rest, replacer := r } := by
  cases victim with
  | free list => simp only [findVictimPage, list]
  | listed empty run =>
    simp only [findVictimPage, empty, run]

theorem evict_runs (wrote : WroteBack s.diskManager dm (s.pages f)) :
    evict f s = .ok () ({ s with diskManager := dm, pageTable := s.unmap f }.setPage f
      { s.pages f with isDirty := false }) := by
  have back : writeBack (s.pages f).id f s =
      .ok () ({ s with diskManager := dm }.setPage f { s.pages f with isDirty := false }) := by
    unfold WroteBack at wrote
    unfold writeBack
    split at wrote
    · rename_i dirty
      rw [if_pos dirty]
      simp only [writeFrame, wrote]
    · rename_i clean
      have page : { s.pages f with isDirty := false } = s.pages f := by
        rw [← eq_false_of_ne_true clean]
      rw [if_neg clean, page, wrote, setPage, Function.update_eq_self]
  unfold evict
  rw [get_bind]
  refine (bind_ok back).trans ?_
  unfold unmap
  split <;> rfl

theorem fetchPage_missed {p : PageId} {data : PageData} (missing : s.pageTable p = none) (victim : Victim s f rest r)
    (wrote : WroteBack s.diskManager dm (s.pages f))
    (read : dm.readPage p.fd p.pageNo (s.pages f).data = (data, none)) :
    fetchPage p s = .ok (some f) (install p f data (s.taken f rest r dm)) := by
  unfold fetchPage
  rw [get_bind]
  simp only [missing]
  rw [bind_ok victim.found]
  have evicting : evict f { s with freeList := rest, replacer := r } =
    .ok () ((s.taken f rest r dm).setPage f { s.pages f with isDirty := false }) := evict_runs wrote
  have reading : readFrame p f ((s.taken f rest r dm).setPage f { s.pages f with isDirty := false }) =
      .ok () ((s.taken f rest r dm).setPage f { s.pages f with isDirty := false, data := data }) := by
    simp only [readFrame, setPage, taken, Function.update_self, read, Function.update_idem]
  simp only [bind_ok evicting, bind_ok reading]
  simp only [modify_bind, pure_apply, install, setPage, taken, Function.update_self, Function.update_idem]

end

/-- `fetch_page` gets a frame: the page is cached and can be pinned once more, or there is a victim that can
be written back if it is dirty. -/
def Fetchable (s : BufferPoolManager N) (p : PageId) : Prop :=
  (∃ f, s.pageTable p = some f ∧ (s.pages f).pinCount ≠ intMax) ∨
    (s.pageTable p = none ∧ ∃ f rest r dm, Victim s f rest r ∧ WroteBack s.diskManager dm (s.pages f))

open Watched in
/-- After any run that spares the created pages on its way, `fetch_page` gives each of them back as the zeros it was
created with. -/
theorem created_page_survives {w : Watched N} (run : Run Spares w) {p : PageId} (untouched : w.untouched p) :
    (∃ f t, fetchPage p w.pool = .ok (some f) t ∧ (t.pages f).data = Block.zero) ↔ Fetchable w.pool p := by
  have kept := run.kept
  constructor
  · rintro ⟨f, t, fetched, _⟩
    rcases fetchPage_cases fetched with ⟨g, found, _, _⟩ | ⟨_, same, _⟩ |
      ⟨g, rest, r, dm, data, missing, _, victim, wrote, _, _⟩
    · refine Or.inl ⟨g, found, fun full => ?_⟩
      rw [fetchPage_cached found, if_pos full] at fetched
      cases fetched
    · cases same
    · exact Or.inr ⟨missing, g, rest, r, dm, victim, wrote⟩
  · rintro (⟨f, found, room⟩ | ⟨missing, f, rest, r, dm, victim, wrote⟩)
    · refine ⟨f, _, by rw [fetchPage_cached found, if_neg room], ?_⟩
      rcases kept.zeros p untouched with ⟨g, here, bytes⟩ | ⟨absent, _⟩
      · cases found.symm.trans here
        simp only [setPage, Function.update_self]
        exact bytes
      · rw [found] at absent
        cases absent
    · rcases kept.zeros p untouched with ⟨g, here, _⟩ | ⟨_, onDisk⟩
      · rw [missing] at here
        cases here
      · have different : p ≠ (w.pool.pages f).id := by
          rintro rfl
          rw [kept.homes.victim_home victim ((kept.zeros _ untouched).valid kept.homes)] at missing
          cases missing
        have after := wrote.zeroPage kept.distinct onDisk different
        refine ⟨f, _, fetchPage_missed missing victim wrote (after.readPage _), ?_⟩
        simp only [install, setPage, Function.update_self]

open Watched in
/-- In a pool of one frame a page is created, released dirty, and evicted by the next one. -/
theorem created_page_survives_dirty : ∃ w : Watched 1, Run Spares w ∧ w.pool.pageTable ⟨3, 0⟩ = none ∧
    ∃ f t, fetchPage ⟨3, 0⟩ w.pool = .ok (some f) t ∧ (t.pages f).data = Block.zero := by
  have fresh : Run Spares (start oneFile fun _ => 0 : Watched 1) := .start _ World.oneFile_distinct
  have created := fresh.returned (c := .newPage 3)
    ⟨fun _ _ _ _ none _ => none.elim, by decide, fun f _ _ _ => by rw [Subsingleton.elim f 0]; rfl⟩ rfl
  have released := created.returned (c := .unpinPage ⟨3, 0⟩ true) trivial rfl
  have second := released.returned (c := .newPage 3)
    ⟨fun f _ _ _ _ clean => absurd (Subsingleton.elim f 0 ▸ clean) (by decide), by decide,
      fun f _ _ _ => by rw [Subsingleton.elim f 0]; rfl⟩ rfl
  have evicted := second.returned (c := .unpinPage ⟨3, 1⟩ false) trivial rfl
  refine ⟨_, evicted, rfl, (created_page_survives evicted (Or.inr (Or.inl rfl))).mpr ?_⟩
  exact Or.inr ⟨rfl, 0, _, _, _, .listed rfl rfl, rfl⟩

open Watched in
/-- Released clean, the page is dropped: its file is still too short for it to be read. -/
theorem created_page_lost : ¬∀ (w : Watched 1) (p : PageId), Run (fun _ _ => True) w → w.untouched p →
    Fetchable w.pool p → ∃ f t, fetchPage p w.pool = .ok (some f) t ∧ (t.pages f).data = Block.zero := by
  intro survives
  have fresh : Run (fun _ _ => True) (start oneFile fun _ => 0 : Watched 1) := .start _ World.oneFile_distinct
  have created := fresh.returned (c := .newPage 3) trivial rfl
  have released := created.returned (c := .unpinPage ⟨3, 0⟩ false) trivial rfl
  have second := released.returned (c := .newPage 3) trivial rfl
  have evicted := second.returned (c := .unpinPage ⟨3, 1⟩ false) trivial rfl
  obtain ⟨f, t, run, _⟩ := survives _ ⟨3, 0⟩ evicted (Or.inr (Or.inl rfl))
    (Or.inr ⟨rfl, 0, _, _, _, .listed rfl rfl, rfl⟩)
  cases run

end BufferPoolManager

end Rmdb
