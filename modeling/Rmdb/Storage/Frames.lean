import Mathlib.Data.Fintype.Card
import Rmdb.Storage.PoolSteps

namespace Rmdb.BufferPoolManager
variable {N : Nat}

/-- The page counter of a file. -/
abbrev counter (s : BufferPoolManager N) : Int → Int := s.diskManager.fd2pageno

/-- What holds of every frame between two calls. A frame with an invalid page number is unused: it is
clean and free, or it is one of the `spare` frames, which only the replacer lists. The counters keep new page
ids apart from the cached ones. -/
structure FrameInv (spare : Fin N → Prop) (s : BufferPoolManager N) : Prop where
  wf : s.replacer.WF
  capacity : s.replacer.maxSize = N
  table_iff : ∀ p f, s.pageTable p = some f ↔ (s.pages f).id = p ∧ p.pageNo ≠ INVALID_PAGE_ID
  free_nodup : s.freeList.Nodup
  free_unused : ∀ f, f ∈ s.freeList → (s.pages f).id.pageNo = INVALID_PAGE_ID
  clean : ∀ f, (s.pages f).id.pageNo = INVALID_PAGE_ID → (s.pages f).pinCount = 0 ∧ (s.pages f).isDirty = false
  unused : ∀ f, (s.pages f).id.pageNo = INVALID_PAGE_ID → f ∈ s.freeList ∨ (spare f ∧ f ∈ s.replacer.frames)
  pin_nonneg : ∀ f, 0 ≤ (s.pages f).pinCount
  pinned_unlisted : ∀ f, 0 < (s.pages f).pinCount → f ∉ s.replacer.frames
  evictable : ∀ f, (s.pages f).id.pageNo ≠ INVALID_PAGE_ID → (s.pages f).pinCount = 0 → f ∈ s.replacer.frames
  counted : ∀ f, (s.pages f).id.pageNo ≠ INVALID_PAGE_ID → (s.pages f).id.pageNo < s.counter (s.pages f).id.fd
  counter_nonneg : ∀ fd, 0 ≤ s.counter fd

namespace Victim
variable {s : BufferPoolManager N} {f : Fin N} {rest : List (Fin N)} {r : LRUReplacer (Fin N)}

/-- What is left of the free list. -/
theorem rest_free (victim : Victim s f rest r) (nodup : s.freeList.Nodup) :
    rest.Nodup ∧ ∀ g, g ∈ rest ↔ g ∈ s.freeList ∧ g ≠ f := by
  cases victim with
  | free list =>
    rw [list, List.nodup_cons] at nodup
    refine ⟨nodup.2, fun g => ?_⟩
    rw [list, List.mem_cons]
    constructor
    · intro member
      exact ⟨Or.inr member, fun same => nodup.1 (same ▸ member)⟩
    · rintro ⟨same | member, other⟩
      · exact absurd same other
      · exact member
  | listed list _ => exact ⟨.nil, fun g => by simp [list]⟩

/-- After the `pin` call that follows, the replacer lists the same frames as
before, without the victim; this also removes a deleted frame it still listed. -/
theorem pinned (victim : Victim s f rest r) (wf : s.replacer.WF) :
    (r.pin f).WF ∧ (r.pin f).maxSize = s.replacer.maxSize ∧
      ∀ g, g ∈ (r.pin f).frames ↔ g ∈ s.replacer.frames ∧ g ≠ f := by
  cases victim with
  | free _ => exact ⟨wf.pin f, LRUReplacer.pin_maxSize _ f, fun g => wf.mem_pin⟩
  | listed _ run =>
    have wf' := wf.victim run
    obtain ⟨list, size⟩ := LRUReplacer.victim_some run
    refine ⟨wf'.pin f, (LRUReplacer.pin_maxSize _ f).trans size, fun g => ?_⟩
    rw [wf'.mem_pin, list, List.mem_append, List.mem_singleton]
    constructor
    · rintro ⟨member, other⟩
      exact ⟨Or.inl member, other⟩
    · rintro ⟨member | same, other⟩
      · exact ⟨member, other⟩
      · exact absurd same other

end Victim

/-- The replacer never refuses a frame: it has room for every frame it does not list. -/
theorem room_of_absent {r : LRUReplacer (Fin N)} (wf : r.WF) (capacity : r.maxSize = N) {f : Fin N}
    (absent : f ∉ r.frames) : r.lruList.length < r.maxSize := by
  have nodup : (f :: r.frames).Nodup := List.nodup_cons.mpr ⟨absent, wf.frames_nodup⟩
  have bound := nodup.length_le_card
  rw [Fintype.card_fin, List.length_cons, LRUReplacer.length_frames] at bound
  omega

theorem WroteBack.counters {dm dm' : DiskManager} {page : Page} (wrote : WroteBack dm dm' page) :
    dm'.fd2pageno = dm.fd2pageno := by
  unfold WroteBack at wrote
  split at wrote
  · have := DiskManager.writePage_fd2pageno dm page.id.fd page.id.pageNo page.data.peek PAGE_SIZE
    rwa [wrote] at this
  · rw [wrote]

theorem writePage_counters {dm dm' : DiskManager} {fd pageNo : Int} {src : Nat → UInt8} {n : Nat} {e : Option Error}
    (run : dm.writePage fd pageNo src n = (dm', e)) : dm'.fd2pageno = dm.fd2pageno := by
  have := DiskManager.writePage_fd2pageno dm fd pageNo src n
  rwa [run] at this

theorem allocatePage_ok {dm dm' : DiskManager} {fd pageNo : Int}
    (run : dm.allocatePage fd = .ok (pageNo, dm')) :
    pageNo = dm.fd2pageno fd ∧
      dm' = { dm with fd2pageno := Function.update dm.fd2pageno fd (wrapInt (dm.fd2pageno fd + 1)) } := by
  unfold DiskManager.allocatePage at run
  split at run
  · cases run
    exact ⟨rfl, rfl⟩
  · cases run

/-- The frames of the page table bear the pages they are found under, and the free frames bear none. Every
invariant of the pool has this. -/
structure TableInv (s : BufferPoolManager N) : Prop where
  idOf : ∀ p f, s.pageTable p = some f → (s.pages f).id = p ∧ p.pageNo ≠ INVALID_PAGE_ID
  free_nodup : s.freeList.Nodup
  free_unused : ∀ f, f ∈ s.freeList → (s.pages f).id.pageNo = INVALID_PAGE_ID

namespace TableInv
variable {s t : BufferPoolManager N} {p : PageId} {f : Fin N}

theorem mapped_not_free (inv : TableInv s) (found : s.pageTable p = some f) : f ∉ s.freeList := by
  intro free
  obtain ⟨atP, valid⟩ := inv.idOf p f found
  have unused := inv.free_unused f free
  rw [atP] at unused
  exact valid unused

/-- Two pages are in different frames. -/
theorem apart (inv : TableInv s) (found : s.pageTable p = some f) {q : PageId} {g : Fin N}
    (atQ : s.pageTable q = some g) (different : q ≠ p) : g ≠ f := by
  rintro rfl
  exact different ((inv.idOf q g atQ).1.symm.trans (inv.idOf p g found).1)

theorem of_same (inv : TableInv s) (table : t.pageTable = s.pageTable) (free : t.freeList = s.freeList)
    (ids : ∀ f, (t.pages f).id = (s.pages f).id) : TableInv t where
  idOf p f found := by
    rw [table] at found
    rw [ids]
    exact inv.idOf p f found
  free_nodup := free ▸ inv.free_nodup
  free_unused f member := by
    rw [ids]
    exact inv.free_unused f (free ▸ member)

/-- The page a frame bears has left the page table, the others are where they were. -/
theorem unmapped (inv : TableInv s) {q : PageId} {g : Fin N} (found : s.unmap f q = some g) :
    s.pageTable q = some g ∧ g ≠ f := by
  unfold unmap at found
  split at found
  · rw [Function.update_apply] at found
    split at found
    · cases found
    · rename_i other
      refine ⟨found, ?_⟩
      rintro rfl
      exact other (inv.idOf q g found).1.symm
  · rename_i unused
    refine ⟨found, ?_⟩
    rintro rfl
    obtain ⟨rfl, valid⟩ := inv.idOf q g found
    exact unused valid

/-- If the page table knows the page, that is all that has left it. -/
theorem unmap_iff (inv : TableInv s) {q : PageId} {g : Fin N}
    (mapped : (s.pages f).id.pageNo ≠ INVALID_PAGE_ID → s.pageTable (s.pages f).id = some f) :
    s.unmap f q = some g ↔ s.pageTable q = some g ∧ g ≠ f := by
  refine ⟨inv.unmapped, ?_⟩
  rintro ⟨found, other⟩
  unfold unmap
  split
  · rename_i valid
    rw [Function.update_of_ne]
    · exact found
    · rintro rfl
      exact other (Option.some.inj (found.symm.trans (mapped valid)))
  · exact found

/-- The pages that are cached after a victim took one over. -/
theorem install_iff (inv : TableInv s) {rest : List (Fin N)} {r : LRUReplacer (Fin N)} {dm : DiskManager}
    {data : PageData} {q : PageId} {g : Fin N}
    (mapped : (s.pages f).id.pageNo ≠ INVALID_PAGE_ID → s.pageTable (s.pages f).id = some f) :
    (BufferPoolManager.install p f data (s.taken f rest r dm)).pageTable q = some g ↔
      (q = p ∧ g = f) ∨ (q ≠ p ∧ s.pageTable q = some g ∧ g ≠ f) := by
  by_cases same : q = p
  · subst q
    rw [install_table_self]
    simp [eq_comm]
  · rw [install_table_other same, inv.unmap_iff mapped]
    simp [same]

theorem install (inv : TableInv s) (data : PageData) (notFree : f ∉ s.freeList) (nobody : ∀ q, s.pageTable q ≠ some f)
    (valid : p.pageNo ≠ INVALID_PAGE_ID) : TableInv (BufferPoolManager.install p f data s) := by
  have pages : ∀ g, (BufferPoolManager.install p f data s).pages g =
      if g = f then ⟨p, data, false, 1⟩ else s.pages g := fun g => Function.update_apply ..
  constructor
  case idOf =>
    intro q g found
    change Function.update s.pageTable p (some f) q = some g at found
    rw [Function.update_apply] at found
    rw [pages]
    split at found
    · rename_i same
      cases found
      rw [if_pos rfl, same]
      exact ⟨rfl, valid⟩
    · rw [if_neg]
      · exact inv.idOf q g found
      · rintro rfl
        exact nobody q found
  case free_nodup => exact inv.free_nodup
  case free_unused =>
    intro g free
    rw [pages, if_neg]
    · exact inv.free_unused g free
    · rintro rfl
      exact notFree free

section
variable {rest : List (Fin N)} {r : LRUReplacer (Fin N)}

theorem taken (inv : TableInv s) (victim : Victim s f rest r) (dm : DiskManager) : TableInv (s.taken f rest r dm) := by
  obtain ⟨nodup, memRest⟩ := victim.rest_free inv.free_nodup
  constructor
  case idOf => exact fun q g found => inv.idOf q g (inv.unmapped found).1
  case free_nodup => exact nodup
  case free_unused => exact fun g free => inv.free_unused g ((memRest g).mp free).1

/-- A victim becomes the home of a page. -/
theorem replace (inv : TableInv s) (victim : Victim s f rest r) (dm : DiskManager) (data : PageData)
    (valid : p.pageNo ≠ INVALID_PAGE_ID) : TableInv (BufferPoolManager.install p f data (s.taken f rest r dm)) := by
  have notFree : f ∉ rest := fun free => (((victim.rest_free inv.free_nodup).2 f).mp free).2 rfl
  exact (inv.taken victim dm).install data notFree (fun q found => (inv.unmapped found).2 rfl) valid

end

/-- The frame of a deleted page becomes free. -/
theorem deleted (inv : TableInv s) (found : s.pageTable p = some f) (dm : DiskManager) :
    TableInv { s.setPage f ⟨⟨(s.pages f).id.fd, INVALID_PAGE_ID⟩, Block.zero, false, 0⟩ with
      diskManager := dm, pageTable := Function.update s.pageTable p none, freeList := s.freeList ++ [f] } := by
  constructor
  case idOf =>
    intro q g atQ
    simp only [setPage, Function.update_apply] at atQ ⊢
    split at atQ
    · cases atQ
    · rename_i other
      rw [if_neg (inv.apart found atQ other)]
      exact inv.idOf q g atQ
  case free_nodup =>
    refine List.nodup_append.mpr ⟨inv.free_nodup, List.nodup_singleton f, fun g free g' atF same => ?_⟩
    rw [List.mem_singleton.mp atF] at same
    exact inv.mapped_not_free found (same ▸ free)
  case free_unused =>
    intro g free
    simp only [setPage, Function.update_apply, List.mem_append, List.mem_singleton] at free ⊢
    split
    · rfl
    · rename_i other
      exact inv.free_unused g (free.resolve_right other)

end TableInv

namespace FrameInv
variable {spare : Fin N → Prop} {s t : BufferPoolManager N}

theorem tableInv (inv : FrameInv spare s) : TableInv s where
  idOf p f := (inv.table_iff p f).mp
  free_nodup := inv.free_nodup
  free_unused := inv.free_unused

theorem new {dm : DiskManager} (counters : ∀ fd, 0 ≤ dm.fd2pageno fd) (junk : Fin N → Int) :
    FrameInv spare (BufferPoolManager.new dm junk) where
  wf := .new N
  capacity := rfl
  table_iff p f := by
    simp only [BufferPoolManager.new, reduceCtorEq, false_iff]
    rintro ⟨rfl, valid⟩
    exact valid rfl
  free_nodup := List.nodup_finRange N
  free_unused _ _ := rfl
  clean _ _ := ⟨rfl, rfl⟩
  unused f _ := Or.inl (List.mem_finRange f)
  pin_nonneg f := le_rfl
  pinned_unlisted f held := absurd held (lt_irrefl 0)
  evictable _ valid := absurd rfl valid
  counted _ valid := absurd rfl valid
  counter_nonneg := counters

theorem idOf (inv : FrameInv spare s) {p : PageId} {f : Fin N} (found : s.pageTable p = some f) : (s.pages f).id = p :=
  ((inv.table_iff p f).mp found).1

theorem valid (inv : FrameInv spare s) {p : PageId} {f : Fin N} (found : s.pageTable p = some f) :
    (s.pages f).id.pageNo ≠ INVALID_PAGE_ID := by
  obtain ⟨rfl, valid⟩ := (inv.table_iff p f).mp found
  exact valid

/-- A step that keeps ids, pins and lists keeps the invariant, whatever it does to
bytes, to the disk contents and to the dirty bits of frames in use. -/
theorem of_same (inv : FrameInv spare s) (table : t.pageTable = s.pageTable) (free : t.freeList = s.freeList)
    (lru : t.replacer = s.replacer) (ids : ∀ f, (t.pages f).id = (s.pages f).id)
    (pins : ∀ f, (t.pages f).pinCount = (s.pages f).pinCount)
    (clean : ∀ f, (s.pages f).id.pageNo = INVALID_PAGE_ID → (t.pages f).isDirty = false)
    (counters : ∀ fd, s.counter fd ≤ t.counter fd) : FrameInv spare t where
  wf := lru ▸ inv.wf
  capacity := lru ▸ inv.capacity
  table_iff p f := by rw [table, ids, inv.table_iff]
  free_nodup := free ▸ inv.free_nodup
  free_unused := (inv.tableInv.of_same table free ids).free_unused
  clean f invalid := by
    rw [ids] at invalid
    exact ⟨(pins f).trans (inv.clean f invalid).1, clean f invalid⟩
  unused f invalid := by
    rw [ids] at invalid
    rw [free, lru]
    exact inv.unused f invalid
  pin_nonneg f := (pins f).symm ▸ inv.pin_nonneg f
  pinned_unlisted f held := lru ▸ inv.pinned_unlisted f (pins f ▸ held)
  evictable f valid unpinned := by
    rw [ids] at valid
    rw [lru]
    exact inv.evictable f valid (pins f ▸ unpinned)
  counted f valid := by
    rw [ids] at valid ⊢
    exact (inv.counted f valid).trans_le (counters _)
  counter_nonneg fd := (inv.counter_nonneg fd).trans (counters fd)

theorem unpinned_of_listed (inv : FrameInv spare s) {f : Fin N} (listed : f ∈ s.replacer.frames) :
    (s.pages f).pinCount = 0 := by
  by_contra held
  exact inv.pinned_unlisted f (lt_of_le_of_ne (inv.pin_nonneg f) (Ne.symm held)) listed

/-- A victim is never pinned, so handing it out takes it from nobody. -/
theorem victim_unpinned (inv : FrameInv spare s) {f : Fin N} {rest : List (Fin N)} {r : LRUReplacer (Fin N)}
    (victim : Victim s f rest r) : (s.pages f).pinCount = 0 := by
  cases victim with
  | free list => exact (inv.clean f (inv.free_unused f (list ▸ List.mem_cons_self))).1
  | listed _ run =>
    apply inv.unpinned_of_listed
    rw [(LRUReplacer.victim_some run).1]
    exact List.mem_append_right _ List.mem_cons_self

theorem unmap_iff (inv : FrameInv spare s) {f g : Fin N} {q : PageId} :
    s.unmap f q = some g ↔ s.pageTable q = some g ∧ g ≠ f :=
  inv.tableInv.unmap_iff fun valid => (inv.table_iff _ f).mpr ⟨rfl, valid⟩

/-- Giving a victim to a page that is not cached keeps the invariant. -/
theorem install (inv : FrameInv spare s) {f : Fin N} {rest : List (Fin N)} {r : LRUReplacer (Fin N)} {dm : DiskManager}
    {p : PageId} (data : PageData) (victim : Victim s f rest r) (missing : s.pageTable p = none)
    (valid : p.pageNo ≠ INVALID_PAGE_ID) (counters : ∀ fd, s.counter fd ≤ dm.fd2pageno fd)
    (counted : p.pageNo < dm.fd2pageno p.fd) :
    FrameInv spare (BufferPoolManager.install p f data (s.taken f rest r dm)) := by
  have replaced := inv.tableInv.replace victim dm data valid
  have memRest := (victim.rest_free inv.free_nodup).2
  obtain ⟨wf, capacity, memLru⟩ := victim.pinned inv.wf
  have unusedOther : ∀ g, ((BufferPoolManager.install p f data (s.taken f rest r dm)).pages g).id.pageNo =
      INVALID_PAGE_ID → g ≠ f := by
    rintro g invalid rfl
    rw [install_page_self] at invalid
    exact valid invalid
  constructor
  case wf => exact wf
  case capacity => exact capacity.trans inv.capacity
  case table_iff =>
    intro q g
    rw [inv.tableInv.install_iff fun valid => (inv.table_iff _ f).mpr ⟨rfl, valid⟩]
    by_cases atF : g = f
    · subst g
      rw [install_page_self]
      constructor
      · rintro (⟨rfl, _⟩ | ⟨_, _, absurd⟩)
        · exact ⟨rfl, valid⟩
        · exact False.elim (absurd rfl)
      · rintro ⟨rfl, _⟩
        exact Or.inl ⟨rfl, rfl⟩
    · rw [install_page_other atF, ← inv.table_iff]
      constructor
      · rintro (⟨_, absurd⟩ | ⟨_, found, _⟩)
        · exact False.elim (atF absurd)
        · exact found
      · intro found
        refine Or.inr ⟨?_, found, atF⟩
        rintro rfl
        rw [missing] at found
        cases found
  case free_nodup => exact replaced.free_nodup
  case free_unused => exact replaced.free_unused
  case clean =>
    intro g invalid
    have atF := unusedOther g invalid
    rw [install_page_other atF] at invalid ⊢
    exact inv.clean g invalid
  case unused =>
    intro g invalid
    have atF := unusedOther g invalid
    rw [install_page_other atF] at invalid
    rcases inv.unused g invalid with free | ⟨isSpare, listed⟩
    · exact Or.inl ((memRest g).mpr ⟨free, atF⟩)
    · exact Or.inr ⟨isSpare, (memLru g).mpr ⟨listed, atF⟩⟩
  case pin_nonneg =>
    intro g
    by_cases atF : g = f
    · subst g
      simp [install_page_self]
    · rw [install_page_other atF]
      exact inv.pin_nonneg g
  case pinned_unlisted =>
    intro g held listed
    obtain ⟨old, atF⟩ := (memLru g).mp listed
    rw [install_page_other atF] at held
    exact inv.pinned_unlisted g held old
  case evictable =>
    intro g used unpinned
    by_cases atF : g = f
    · subst g
      simp [install_page_self] at unpinned
    · rw [install_page_other atF] at used unpinned
      exact (memLru g).mpr ⟨inv.evictable g used unpinned, atF⟩
  case counted =>
    intro g used
    change _ < dm.fd2pageno _
    by_cases atF : g = f
    · subst g
      rw [install_page_self]
      exact counted
    · rw [install_page_other atF] at used ⊢
      exact (inv.counted g used).trans_le (counters _)
  case counter_nonneg => exact fun fd => (inv.counter_nonneg fd).trans (counters fd)

/-- A change of one mapped frame's pin count and dirty bit, with a replacer that
differs in that frame only and lists it exactly when it is unpinned. -/
theorem repin (inv : FrameInv spare s) {f : Fin N} (used : (s.pages f).id.pageNo ≠ INVALID_PAGE_ID)
    {page : Page} {r : LRUReplacer (Fin N)} (same : page.id = (s.pages f).id) (nonneg : 0 ≤ page.pinCount)
    (wf : r.WF) (capacity : r.maxSize = N) (self : f ∈ r.frames ↔ page.pinCount = 0)
    (other : ∀ g, g ≠ f → (g ∈ r.frames ↔ g ∈ s.replacer.frames)) :
    FrameInv spare { s.setPage f page with replacer := r } := by
  have pageSelf : ({ s.setPage f page with replacer := r } : BufferPoolManager N).pages f = page :=
    Function.update_self ..
  have pageOther : ∀ g, g ≠ f →
      ({ s.setPage f page with replacer := r } : BufferPoolManager N).pages g = s.pages g :=
    fun g atG => Function.update_of_ne atG ..
  have ids : ∀ g, (({ s.setPage f page with replacer := r } : BufferPoolManager N).pages g).id = (s.pages g).id :=
    setPage_id same
  have kept : TableInv { s.setPage f page with replacer := r } := inv.tableInv.of_same rfl rfl ids
  have unusedOther : ∀ g, (s.pages g).id.pageNo = INVALID_PAGE_ID → g ≠ f := by
    rintro g invalid rfl
    exact used invalid
  constructor
  case wf => exact wf
  case capacity => exact capacity
  case table_iff =>
    intro p g
    rw [ids]
    exact inv.table_iff p g
  case free_nodup => exact inv.free_nodup
  case free_unused => exact kept.free_unused
  case clean =>
    intro g invalid
    rw [ids] at invalid
    rw [pageOther g (unusedOther g invalid)]
    exact inv.clean g invalid
  case unused =>
    intro g invalid
    rw [ids] at invalid
    rcases inv.unused g invalid with free | ⟨isSpare, listed⟩
    · exact Or.inl free
    · exact Or.inr ⟨isSpare, (other g (unusedOther g invalid)).mpr listed⟩
  case pin_nonneg =>
    intro g
    by_cases atF : g = f
    · subst g
      rwa [pageSelf]
    · rw [pageOther g atF]
      exact inv.pin_nonneg g
  case pinned_unlisted =>
    intro g held listed
    by_cases atF : g = f
    · subst g
      rw [pageSelf] at held
      have := self.mp listed
      omega
    · rw [pageOther g atF] at held
      exact inv.pinned_unlisted g held ((other g atF).mp listed)
  case evictable =>
    intro g valid unpinned
    by_cases atF : g = f
    · subst g
      rw [pageSelf] at unpinned
      exact self.mpr unpinned
    · rw [pageOther g atF] at valid unpinned
      exact (other g atF).mpr (inv.evictable g valid unpinned)
  case counted =>
    intro g valid
    rw [ids] at valid ⊢
    exact inv.counted g valid
  case counter_nonneg => exact inv.counter_nonneg

theorem fetchPage (inv : FrameInv spare s) {p : PageId} {r : Option (Fin N)} (admissible : p.pageNo < s.counter p.fd)
    (run : fetchPage p s = .ok r t) : FrameInv spare t := by
  rcases fetchPage_cases run with ⟨f, found, _, rfl⟩ | ⟨_, _, rfl, _, _⟩ |
    ⟨f, rest, repl, dm, data, missing, _, victim, wrote, read, rfl⟩
  · have nonneg := inv.pin_nonneg f
    refine inv.repin (inv.valid found) rfl (by change 0 ≤ _ + 1; omega) (inv.wf.pin f)
      (by simpa using inv.capacity) ?_ ?_
    · rw [inv.wf.mem_pin]
      simp only [ne_eq, not_true, and_false, false_iff]
      omega
    · intro g other
      rw [inv.wf.mem_pin]
      exact and_iff_left other
  · exact inv
  · have valid : p.pageNo ≠ INVALID_PAGE_ID := by
      have := (DiskManager.readPage_diskPage read).2
      unfold INVALID_PAGE_ID
      omega
    exact inv.install data victim missing valid (fun fd => by rw [wrote.counters])
      (by rwa [wrote.counters])

/-- A cached page has a number below its file's counter, so the page the counter
names is not cached. -/
theorem counter_missing (inv : FrameInv spare s) (fd : Int) : s.pageTable ⟨fd, s.counter fd⟩ = none := by
  cases found : s.pageTable ⟨fd, s.counter fd⟩ with
  | none => rfl
  | some g =>
    have below := inv.counted g (inv.valid found)
    rw [inv.idOf found] at below
    exact absurd below (lt_irrefl _)

theorem newPage (inv : FrameInv spare s) {fd : Int} {r : Option (PageId × Fin N)}
    (monotone : ∀ fd, s.counter fd ≤ t.counter fd) (run : newPage fd s = .ok r t) : FrameInv spare t := by
  rcases newPage_cases run with ⟨_, rfl, _, _⟩ |
    ⟨f, rest, repl, dm, dm', pageNo, _, victim, wrote, allocated, rfl⟩
  · exact inv
  · obtain ⟨rfl, rfl⟩ := allocatePage_ok allocated
    have nonneg := inv.counter_nonneg fd
    rw [wrote.counters] at monotone ⊢
    have grows := monotone fd
    change s.counter fd ≤ Function.update s.counter fd (wrapInt (s.counter fd + 1)) fd at grows
    rw [Function.update_self] at grows
    refine inv.install _ victim (inv.counter_missing fd)
      (by unfold INVALID_PAGE_ID; change s.counter fd ≠ -1; omega) monotone ?_
    change s.counter fd < Function.update s.counter fd (wrapInt (s.counter fd + 1)) fd
    rw [Function.update_self]
    exact lt_of_le_of_ne grows (Ne.symm (wrapInt_succ_ne _))

theorem unpinPage (inv : FrameInv spare s) {p : PageId} {d r : Bool} (run : unpinPage p d s = .ok r t) :
    FrameInv spare t := by
  rcases unpinPage_cases run with ⟨_, rfl, _⟩ | ⟨f, _, found, held, rfl⟩
  · exact inv
  · have used := inv.valid found
    have absent := inv.pinned_unlisted f held
    by_cases last : (s.pages f).pinCount - 1 = 0
    · rw [if_pos last]
      have member : ∀ g, g ∈ (s.replacer.unpin f).frames ↔ g = f ∨ g ∈ s.replacer.frames :=
        fun g => inv.wf.mem_unpin fun _ => room_of_absent inv.wf inv.capacity absent
      refine inv.repin used rfl last.ge (inv.wf.unpin f) (by simpa using inv.capacity) ?_ ?_
      · simp [member, last]
      · intro g other
        simp [member, other]
    · rw [if_neg last]
      exact inv.repin used rfl (by change 0 ≤ _ - 1; omega) inv.wf inv.capacity (by simp [absent, last])
        (fun g _ => Iff.rfl)

/-- Writing a frame out changes the disk and clears a dirty bit. -/
theorem wroteFrame (inv : FrameInv spare s) {dm : DiskManager} (f : Fin N)
    (counters : dm.fd2pageno = s.diskManager.fd2pageno) :
    FrameInv spare ({ s with diskManager := dm }.setPage f { s.pages f with isDirty := false }) := by
  refine inv.of_same rfl rfl rfl (setPage_id rfl) (setPage_pinCount rfl) (fun g invalid => ?_)
    (fun fd => (congrFun counters fd).ge)
  simp only [setPage, Function.update_apply]
  split
  · rfl
  · exact (inv.clean g invalid).2

theorem flushPage (inv : FrameInv spare s) {p : PageId} {r : Bool} (run : flushPage p s = .ok r t) :
    FrameInv spare t := by
  rcases flushPage_cases run with ⟨_, _, rfl⟩ | ⟨f, dm, _, _, write, rfl⟩
  · exact inv
  · exact inv.wroteFrame f (writePage_counters write)

theorem deletePage (inv : FrameInv spare s) {p : PageId} {r : Bool} (run : deletePage p s = .ok r t) :
    FrameInv spare t := by
  rcases deletePage_cases (fun f found => inv.idOf found) run with ⟨rfl, _⟩ |
    ⟨f, dm, _, found, unpinned, wrote, rfl⟩
  · exact inv
  · have used := inv.valid found
    have listed := inv.evictable f used unpinned
    have counters := wrote.counters
    constructor
    case wf => exact inv.wf
    case capacity => exact inv.capacity
    case table_iff =>
      intro q g
      simp only [setPage, Function.update_apply]
      by_cases atF : g = f
      · subst g
        have notOther : q ≠ p → s.pageTable q ≠ some f := fun other here => inv.tableInv.apart found here other rfl
        simp only [if_true]
        split
        · rename_i same
          subst q
          simp only [reduceCtorEq, false_iff]
          rintro ⟨rfl, bad⟩
          exact bad rfl
        · rename_i other
          simp only [notOther other, false_iff]
          rintro ⟨rfl, bad⟩
          exact bad rfl
      · simp only [if_neg atF]
        split
        · rename_i same
          subst q
          simp only [reduceCtorEq, false_iff, ← inv.table_iff, found, Option.some.injEq]
          exact Ne.symm atF
        · exact inv.table_iff q g
    case free_nodup => exact (inv.tableInv.deleted found dm).free_nodup
    case free_unused => exact (inv.tableInv.deleted found dm).free_unused
    case clean =>
      intro g invalid
      simp only [setPage, Function.update_apply] at invalid ⊢
      split
      · exact ⟨rfl, rfl⟩
      · rename_i other
        rw [if_neg other] at invalid
        exact inv.clean g invalid
    case unused =>
      intro g invalid
      simp only [setPage, Function.update_apply, List.mem_append, List.mem_singleton] at invalid ⊢
      by_cases atF : g = f
      · exact Or.inl (Or.inr atF)
      · rw [if_neg atF] at invalid
        exact (inv.unused g invalid).imp_left Or.inl
    case pin_nonneg =>
      intro g
      simp only [setPage, Function.update_apply]
      split
      · exact le_rfl
      · exact inv.pin_nonneg g
    case pinned_unlisted =>
      intro g held
      simp only [setPage, Function.update_apply] at held
      split at held
      · exact absurd held (lt_irrefl 0)
      · exact inv.pinned_unlisted g held
    case evictable =>
      intro g notFree notPinned
      by_cases atF : g = f
      · exact atF ▸ listed
      · simp only [setPage, Function.update_apply, if_neg atF] at notFree notPinned
        exact inv.evictable g notFree notPinned
    case counted =>
      intro g notFree
      by_cases atF : g = f
      · subst g
        simp [setPage] at notFree
      · simp only [setPage, Function.update_apply, if_neg atF, counter, counters] at notFree ⊢
        exact inv.counted g notFree
    case counter_nonneg =>
      intro fd
      simp only [counter, counters]
      exact inv.counter_nonneg fd

theorem flushFrames (inv : FrameInv spare s) {fd : Int} {list : List (Fin N)} {u : Unit}
    (run : flushFrames fd list s = .ok u t) : FrameInv spare t :=
  flushFrames_keep (fun f before write => before.wroteFrame f (writePage_counters write)) inv run

/-- A file's counter may also fall, as long as no cached page of the file is at or above it. -/
theorem setDisk (inv : FrameInv spare s) {dm : DiskManager} (nonneg : ∀ fd, 0 ≤ dm.fd2pageno fd)
    (counted : ∀ p f, s.pageTable p = some f → p.pageNo < dm.fd2pageno p.fd) :
    FrameInv spare { s with diskManager := dm } where
  wf := inv.wf
  capacity := inv.capacity
  table_iff := inv.table_iff
  free_nodup := inv.free_nodup
  free_unused := inv.free_unused
  clean := inv.clean
  unused := inv.unused
  pin_nonneg := inv.pin_nonneg
  pinned_unlisted := inv.pinned_unlisted
  evictable := inv.evictable
  counted f valid := counted _ f ((inv.table_iff _ f).mpr ⟨rfl, valid⟩)
  counter_nonneg := nonneg

theorem raise (inv : FrameInv spare s) {fd n : Int} (up : s.counter fd ≤ n) :
    FrameInv spare { s with diskManager := s.diskManager.setFd2pageno fd n } := by
  refine inv.of_same rfl rfl rfl (fun _ => rfl) (fun _ => rfl) (fun f invalid => (inv.clean f invalid).2) ?_
  intro other
  change s.counter other ≤ Function.update s.counter fd n other
  by_cases same : other = fd
  · subst other
    rwa [Function.update_self]
  · rw [Function.update_of_ne same]

theorem setData (inv : FrameInv spare s) (f : Fin N) (data : PageData) :
    FrameInv spare (s.setPage f { s.pages f with data := data }) := by
  refine inv.of_same rfl rfl rfl (setPage_id rfl) (setPage_pinCount rfl) (fun g invalid => ?_) (fun _ => le_rfl)
  simp only [setPage, Function.update_apply]
  split
  · rename_i same
    exact (inv.clean f (same ▸ invalid)).2
  · exact (inv.clean g invalid).2

end FrameInv

end Rmdb.BufferPoolManager
