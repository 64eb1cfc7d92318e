import Rmdb.Record.FileOps

namespace Rmdb.RmFile
open RmPageHandle RmFileHandle
variable {s t : RmFile FlatFile}

/-- The first `record_size` bytes behind `buf`. -/
def recordOf (h : RmFileHdr) (buf : Nat → UInt8) : RmRecord := (List.range h.recordSize.toNat).map buf

/-- A page and slot number that `insert_record` could return. -/
def InRange (s : RmFile FlatFile) (rid : Rid) : Prop :=
  s.IsPage rid.pageNo ∧ 0 ≤ rid.slotNo ∧ rid.slotNo < s.hdr.numRecordsPerPage

instance (s : RmFile FlatFile) (rid : Rid) : Decidable (s.InRange rid) := inferInstanceAs (Decidable (_ ∧ _))

theorem records_nat (sized : s.hdr.Sized) (p : Int) (j : Nat) :
    s.records ⟨p, j⟩ =
      if s.IsPage p ∧ (j : Int) < s.hdr.numRecordsPerPage ∧ (s.store.page p).bit bitmap j = true then
        some (slot s.hdr (s.store.page p) j)
      else none := by
  unfold records
  simp only [Bitmap.isSet_nat, readSlot_nat sized, Int.natCast_nonneg, true_and]

theorem records_negative {rid : Rid} (negative : rid.slotNo < 0) : s.records rid = none := by
  unfold records
  rw [if_neg]
  omega

/-- Two files agree on a slot that is marked alike in both and holds the same bytes. -/
theorem records_congr (sizedS : s.hdr.Sized) (sizedT : t.hdr.Sized) {p slotNo : Int}
    (perPage : t.hdr.numRecordsPerPage = s.hdr.numRecordsPerPage) (isPage : t.IsPage p ↔ s.IsPage p)
    (same : ∀ j : Nat, slotNo = j → s.IsPage p → (j : Int) < s.hdr.numRecordsPerPage →
      (t.store.page p).bit bitmap j = (s.store.page p).bit bitmap j ∧
        slot t.hdr (t.store.page p) j = slot s.hdr (s.store.page p) j) :
    t.records ⟨p, slotNo⟩ = s.records ⟨p, slotNo⟩ := by
  by_cases negative : slotNo < 0
  · rw [records_negative negative, records_negative negative]
  · obtain ⟨j, rfl⟩ := Int.eq_ofNat_of_zero_le (by omega : 0 ≤ slotNo)
    rw [records_nat sizedS, records_nat sizedT]
    by_cases inside : s.IsPage p ∧ (j : Int) < s.hdr.numRecordsPerPage
    · obtain ⟨bits, slots⟩ := same j rfl inside.1 inside.2
      simp only [bits, slots, isPage, perPage]
    · rw [if_neg (fun h => inside ⟨isPage.mp h.1, perPage ▸ h.2.1⟩), if_neg (fun h => inside ⟨h.1, h.2.1⟩)]

/-- A change of one slot of one page, and of the head of the free list, is an update of the record map. -/
theorem records_replace (sized : s.hdr.Sized) {k : Int} {j : Nat} {d : PageData} (isPage : s.IsPage k)
    (small : (j : Int) < s.hdr.numRecordsPerPage)
    (others : ∀ i : Nat, i ≠ j → (i : Int) < s.hdr.numRecordsPerPage →
      d.bit bitmap i = (s.store.page k).bit bitmap i ∧ slot s.hdr d i = slot s.hdr (s.store.page k) i) (first : Int) :
    ((s.withPage k d).setHdr { s.hdr with firstFreePageNo := first }).records =
      Function.update s.records ⟨k, j⟩ (if d.bit bitmap j then some (slot s.hdr d j) else none) := by
  have sizedT : ((s.withPage k d).setHdr { s.hdr with firstFreePageNo := first }).hdr.Sized :=
    ⟨sized.size_pos, sized.size_le, sized.perPage, sized.bitmap⟩
  funext ⟨p, slotNo⟩
  by_cases target : (⟨p, slotNo⟩ : Rid) = ⟨k, j⟩
  · rw [target, Function.update_self, records_nat sizedT]
    simp only [setHdr_store, withPage_self]
    by_cases marked : d.bit bitmap j = true
    · rw [if_pos ⟨isPage, small, marked⟩, if_pos marked]
      rfl
    · rw [if_neg fun h => marked h.2.2, if_neg marked]
  · rw [Function.update_of_ne target]
    refine records_congr sized sizedT rfl Iff.rfl fun i slotEq _ inside => ?_
    subst slotNo
    by_cases same : p = k
    · subst p
      simp only [setHdr_store, withPage_self]
      exact others i (fun equal => target (by rw [equal])) inside
    · simp only [setHdr_store, withPage_other s d same]
      exact ⟨trivial, rfl⟩

/-- A page has room, or there are fewer pages than an `int` can count. -/
def HasSpace (s : RmFile FlatFile) : Prop := s.hdr.numPages ≠ intMax ∨ s.hdr.firstFreePageNo ≠ RM_NO_PAGE

/-- Without space the increment of `num_pages` overflows. -/
theorem createPageHandle_overflow (full : ¬s.HasSpace) :
    ∃ t, RmFileHandle.createPageHandle s = .error .undefined t := by
  unfold HasSpace at full
  push Not at full
  obtain ⟨last, stop⟩ := full
  unfold RmFileHandle.createPageHandle createNewPageHandle
  rw [get_bind, if_pos stop, get_bind, last]
  exact ⟨_, rfl⟩

theorem insertRecord_overflow (full : ¬s.HasSpace) (buf : Nat → UInt8) :
    ∃ t, RmFileHandle.insertRecord buf s = .error .undefined t := by
  obtain ⟨t, overflow⟩ := createPageHandle_overflow full
  exact ⟨t, bind_error overflow⟩

theorem hasSpace_of_insert {buf : Nat → UInt8} {rid : Rid} (run : RmFileHandle.insertRecord buf s = .ok rid t) :
    s.HasSpace := by
  by_contra full
  obtain ⟨u, overflow⟩ := insertRecord_overflow full buf
  rw [overflow] at run
  cases run

namespace FileInv

/-- A record page that is not full has an empty slot, and `first_bit` finds it. -/
theorem empty_slot (inv : FileInv s) {k : Int} (isPage : s.IsPage k) (room : s.HasRoom k) :
    ∃ j : Nat, Bitmap.firstBit false (s.store.page k) bitmap s.hdr.numRecordsPerPage = j ∧
      (j : Int) < s.hdr.numRecordsPerPage ∧ (s.store.page k).bit bitmap j = false := by
  have notFull : ¬∀ j : Nat, (j : Int) < s.hdr.numRecordsPerPage → (s.store.page k).bit bitmap j = true := by
    intro all
    have := ((inv.counted k isPage).full inv.sized).mpr all
    exact absurd this (ne_of_lt room)
  push Not at notFull
  obtain ⟨i, small, clear⟩ := notFull
  have unset : Bitmap.isSet (s.store.page k) bitmap i = false := by
    rw [Bitmap.isSet_nat]
    exact eq_false_of_ne_true clear
  obtain ⟨nonneg, below, found⟩ := Bitmap.firstBit_lt small unset
  obtain ⟨j, same⟩ := Int.eq_ofNat_of_zero_le nonneg
  rw [same] at below found
  exact ⟨j, same, below, by rw [← Bitmap.isSet_nat]; exact found⟩

/-- `create_new_page_handle` appends an empty page, the only one with room. -/
theorem grow (inv : FileInv s) (none : s.hdr.firstFreePageNo = RM_NO_PAGE) (small : s.hdr.numPages ≠ intMax) :
    FileInv (grow s) ∧ (RmFileHandle.grow s).records = s.records := by
  have pos := inv.pages_pos
  have le := inv.pages_le
  have counter := inv.counter
  have perPage := inv.sized.perPage_pos
  have covers := inv.sized.bitmap_covers
  obtain ⟨next, noRecords, clear⟩ := initPage_empty (d := Block.zero) inv.sized
  obtain ⟨l, free⟩ := inv.free
  rw [none] at free
  have empty := free.1.empty
  subst l
  have sized : (RmFileHandle.grow s).hdr.Sized :=
    ⟨inv.sized.size_pos, inv.sized.size_le, inv.sized.perPage, inv.sized.bitmap⟩
  have last : (RmFileHandle.grow s).store.page s.hdr.numPages = initPage s.hdr Block.zero := by
    rw [← counter]
    exact Function.update_self ..
  have others : ∀ j, j ≠ s.hdr.numPages → (RmFileHandle.grow s).store.page j = s.store.page j := by
    intro j different
    rw [← counter] at different
    exact Function.update_of_ne different ..
  have pages : ∀ j, (RmFileHandle.grow s).IsPage j ↔ s.IsPage j ∨ j = s.hdr.numPages := by
    intro j
    unfold IsPage RM_FIRST_RECORD_PAGE
    simp only [RmFileHandle.grow, hdr]
    simp only [hdr] at pos
    omega
  refine ⟨⟨sized, ?_, ?_, ?_, ?_, [s.hdr.numPages], ?_, List.nodup_singleton _, ?_⟩, ?_⟩
  · change 1 ≤ s.hdr.numPages + 1
    omega
  · change s.hdr.numPages + 1 ≤ intMax
    omega
  · change wrapInt (s.store.counter + 1) = s.hdr.numPages + 1
    rw [counter, wrapInt_of_isInt]
    unfold IsInt intMin
    omega
  · intro j isPage
    by_cases same : j = s.hdr.numPages
    · rw [same, last]
      exact (counted_initPage inv.sized).hdr_congr rfl rfl
    · rw [others j same]
      exact (inv.counted j (((pages j).mp isPage).resolve_right same)).hdr_congr rfl rfl
  · refine ⟨counter, ?_, ?_⟩
    · unfold RM_NO_PAGE
      omega
    · simp only [last]
      exact next
  · intro j
    rw [List.mem_singleton, pages]
    by_cases same : j = s.hdr.numPages
    · subst j
      simp only [or_true, true_and, true_iff]
      unfold HasRoom
      rw [last, noRecords]
      change 0 < s.hdr.numRecordsPerPage
      omega
    · rw [iff_false_left same, or_iff_left same]
      rintro ⟨isPage, room⟩
      unfold HasRoom at room
      rw [others j same] at room
      exact absurd ((free.2.2 j).mpr ⟨isPage, room⟩) List.not_mem_nil
  · funext ⟨p, slotNo⟩
    by_cases same : p = s.hdr.numPages
    · subst p
      rw [show s.records ⟨s.hdr.numPages, slotNo⟩ = Option.none from if_neg fun h => absurd h.1.2 (lt_irrefl _)]
      by_cases negative : slotNo < 0
      · exact records_negative negative
      · obtain ⟨j, rfl⟩ := Int.eq_ofNat_of_zero_le (by omega : 0 ≤ slotNo)
        rw [records_nat sized, if_neg]
        rintro ⟨_, inside, marked⟩
        have inside : (j : Int) < s.hdr.numRecordsPerPage := inside
        rw [last, clear j (by omega)] at marked
        cases marked
    · refine records_congr inv.sized sized rfl ?_ fun j _ _ _ => ?_
      · rw [pages, or_iff_left same]
      · rw [others p same]
        exact ⟨rfl, rfl⟩

theorem notStop {k : Int} (isPage : s.IsPage k) : k ≠ RM_NO_PAGE := by
  have := isPage.1
  unfold RM_FIRST_RECORD_PAGE at this
  unfold RM_NO_PAGE
  omega

/-- A record put into an empty slot of the first free page. -/
theorem fill (inv : FileInv s) {k : Int} {j : Nat} (first : s.hdr.firstFreePageNo = k) (isPage : s.IsPage k)
    (small : (j : Int) < s.hdr.numRecordsPerPage) (clear : (s.store.page k).bit bitmap j = false)
    (buf : Nat → UInt8) :
    FileInv (fill s k j buf) ∧ (RmFileHandle.fill s k j buf).records =
      Function.update s.records ⟨k, j⟩ (some (recordOf s.hdr buf)) := by
  have sized := inv.sized
  have covers := sized.bitmap_covers
  obtain ⟨room, grown, counted⟩ := counted_placeRecord sized buf small (inv.counted k isPage) clear
  have next : nextFreePageNo (placeRecord s.hdr j buf (s.store.page k)) = nextFreePageNo (s.store.page k) :=
    nextFreePageNo_placeRecord sized buf
  obtain ⟨l, free⟩ := inv.free
  have records := records_replace sized isPage small (d := placeRecord s.hdr j buf (s.store.page k)) (by
    intro i apart inside
    rw [bit_placeRecord sized buf small (by omega), slot_placeRecord sized buf small, if_neg apart,
      decide_eq_false apart, Bool.false_or]
    exact ⟨rfl, rfl⟩)
  rw [bit_placeRecord sized buf small (by omega), slot_placeRecord sized buf small, if_pos rfl, decide_eq_true rfl,
    Bool.true_or, if_pos rfl] at records
  unfold RmFileHandle.fill
  simp only [withPage_self, withPage_hdr]
  split
  · rename_i full
    refine ⟨?_, records _⟩
    rw [first] at free
    obtain ⟨rest, rfl, _⟩ := free.1.uncons (notStop isPage)
    rw [next]
    exact inv.replace counted (free_pop free (by rw [full]; exact lt_irrefl _))
  · rename_i notFull
    refine ⟨?_, records s.hdr.firstFreePageNo⟩
    have upper := (counted.le sized).2
    exact inv.replace counted (free_keep free next ⟨fun _ => room, fun _ => lt_of_le_of_ne upper notFull⟩)

/-- The first free page is a record page, if there is one. -/
theorem first (inv : FileInv s) :
    s.hdr.firstFreePageNo = RM_NO_PAGE ∨ s.IsPage s.hdr.firstFreePageNo ∧ s.HasRoom s.hdr.firstFreePageNo := by
  obtain ⟨l, links, _, members⟩ := inv.free
  by_cases stop : s.hdr.firstFreePageNo = RM_NO_PAGE
  · exact Or.inl stop
  · obtain ⟨rest, rfl, _⟩ := links.uncons stop
    exact Or.inr ((members _).mp List.mem_cons_self)

theorem isHdr (inv : FileInv s) : s.hdr.IsHdr := by
  have pages := inv.pages_le
  have pos := inv.pages_pos
  refine inv.sized.isHdr ?_ ?_
  · unfold IsInt intMin
    omega
  · rcases inv.first with stop | ⟨⟨lower, below⟩, _⟩
    · rw [stop]
      decide
    · unfold RM_FIRST_RECORD_PAGE at lower
      unfold IsInt intMin
      omega

/-- A marked slot emptied; a full page returns to the free list. -/
theorem empty (inv : FileInv s) {k : Int} {j : Nat} (isPage : s.IsPage k)
    (small : (j : Int) < s.hdr.numRecordsPerPage) (marked : (s.store.page k).bit bitmap j = true) :
    FileInv (empty s k j) ∧ (RmFileHandle.empty s k j).records = Function.update s.records ⟨k, j⟩ none := by
  have sized := inv.sized
  have pages := inv.pages_le
  obtain ⟨shrunk, counted⟩ := counted_dropRecord sized small (inv.counted k isPage) marked
  obtain ⟨l, free⟩ := inv.free
  have upper := ((inv.counted k isPage).le sized).2
  have bits : ∀ i, (dropRecord j (s.store.page k)).bit bitmap i = (decide (i ≠ j) && (s.store.page k).bit bitmap i) :=
    bit_dropRecord sized small
  have slots : ∀ i, slot s.hdr (dropRecord j (s.store.page k)) i = slot s.hdr (s.store.page k) i :=
    slot_dropRecord sized small
  have apart : ∀ i, i ≠ j →
      (dropRecord j (s.store.page k)).bit bitmap i = (s.store.page k).bit bitmap i ∧
        slot s.hdr (dropRecord j (s.store.page k)) i = slot s.hdr (s.store.page k) i := by
    intro i different
    rw [bits, slots, decide_eq_true different, Bool.true_and]
    exact ⟨rfl, rfl⟩
  have here : (dropRecord j (s.store.page k)).bit bitmap j = false := by
    rw [bits]
    simp
  unfold RmFileHandle.empty
  split
  · rename_i full
    constructor
    · refine inv.replace (counted_setNextFreePageNo counted _) (free_push free isPage ?_ ?_ ?_)
      · unfold HasRoom
        omega
      · exact nextFreePageNo_setNextFreePageNo _ (inv.isHdr 3)
      · rw [numRecords_setNextFreePageNo]
        omega
    · have records := records_replace sized isPage small
        (d := setNextFreePageNo (dropRecord j (s.store.page k)) s.hdr.firstFreePageNo)
        (fun i different _ => by rw [bit_setNextFreePageNo, slot_setNextFreePageNo]; exact apart i different) k
      rwa [bit_setNextFreePageNo, here, if_neg Bool.false_ne_true] at records
  · rename_i notFull
    constructor
    · refine inv.replace counted (free_keep free nextFreePageNo_dropRecord ?_)
      unfold HasRoom
      omega
    · have records := records_replace sized isPage small (fun i different _ => apart i different) s.hdr.firstFreePageNo
      rwa [here, if_neg Bool.false_ne_true] at records

/-- The bytes of a marked slot replaced. -/
theorem rewrite (inv : FileInv s) {k : Int} {j : Nat} (isPage : s.IsPage k)
    (small : (j : Int) < s.hdr.numRecordsPerPage) (marked : (s.store.page k).bit bitmap j = true) (buf : Nat → UInt8) :
    FileInv (s.withPage k (writeSlot s.hdr (s.store.page k) j buf)) ∧
      (s.withPage k (writeSlot s.hdr (s.store.page k) j buf)).records =
        Function.update s.records ⟨k, j⟩ (some (recordOf s.hdr buf)) := by
  have sized := inv.sized
  have covers := sized.bitmap_covers
  obtain ⟨l, free⟩ := inv.free
  constructor
  · refine inv.replace (counted_writeSlot sized (inv.counted k isPage) buf) (free_keep free ?_ ?_)
    · exact nextFreePageNo_writeSlot _ sized buf
    · rw [numRecords_writeSlot _ sized buf]
      rfl
  · have records := records_replace sized isPage small (d := writeSlot s.hdr (s.store.page k) j buf) (by
      intro i different inside
      rw [bit_writeSlot _ sized buf (by omega), slot_writeSlot_other _ sized buf different]
      exact ⟨rfl, rfl⟩) s.hdr.firstFreePageNo
    rwa [bit_writeSlot _ sized buf (by omega), marked, if_pos rfl, slot_writeSlot_self _ sized buf small] at records

/-- The header survives closing and opening; only the descriptor may change. -/
theorem reopen (inv : FileInv s) (fd : Int) :
    ∃ t, RmManager.reopen fd s = .ok ⟨⟩ t ∧ FileInv t ∧ t.records = s.records ∧ t.hdr = s.hdr := by
  let page := (s.store.page RM_FILE_HDR_PAGE).poke 0 RmFileHdr.size s.hdr.bytes
  have read : RmFileHdr.ofBytes page.peek = s.hdr := RmFileHdr.ofBytes_poke inv.isHdr _
  have run : RmManager.reopen fd s = .ok ⟨⟩ ⟨⟨fd, RmFileHdr.ofBytes page.peek⟩,
      ⟨Function.update s.store.page RM_FILE_HDR_PAGE page, (RmFileHdr.ofBytes page.peek).numPages⟩⟩ := rfl
  rw [read] at run
  have others : ∀ k, s.IsPage k → Function.update s.store.page RM_FILE_HDR_PAGE page k = s.store.page k := by
    intro k isPage
    have := isPage.1
    unfold RM_FIRST_RECORD_PAGE at this
    exact Function.update_of_ne (by unfold RM_FILE_HDR_PAGE; omega) ..
  obtain ⟨l, links, nodup, members⟩ := inv.free
  let t : RmFile FlatFile :=
    ⟨⟨fd, s.hdr⟩, ⟨Function.update s.store.page RM_FILE_HDR_PAGE page, s.hdr.numPages⟩⟩
  refine ⟨t, run, ⟨inv.sized, inv.pages_pos, inv.pages_le, rfl, ?_, l, ?_, nodup, ?_⟩, ?_, rfl⟩
  · intro k isPage
    simp only [t, others k isPage]
    exact inv.counted k isPage
  · refine links.congr fun k member => ?_
    simp only [t, others k ((members k).mp member).1]
  · intro k
    rw [members k]
    refine and_congr_right fun isPage => ?_
    unfold HasRoom
    simp only [t, others k isPage]
    rfl
  · funext ⟨p, slotNo⟩
    refine records_congr (s := s) (t := t) inv.sized inv.sized rfl Iff.rfl fun j _ isPage _ => ?_
    simp only [t, others p isPage]
    exact ⟨trivial, rfl⟩

/-- `create_page_handle` gives the first free page, after adding one if there was none. -/
theorem createPageHandle (inv : FileInv s) (room : s.HasSpace) :
    ∃ t, createPageHandle s = .ok ⟨s.handle.fd, t.hdr.firstFreePageNo⟩ t ∧ FileInv t ∧
      t.IsPage t.hdr.firstFreePageNo ∧ t.HasRoom t.hdr.firstFreePageNo ∧ t.records = s.records ∧
      t.hdr.recordSize = s.hdr.recordSize ∧ (t = s ∨ s.hdr.firstFreePageNo = RM_NO_PAGE) := by
  unfold RmFileHandle.createPageHandle
  rw [get_bind]
  rcases inv.first with stop | ⟨isPage, hasRoom⟩
  · have small : s.hdr.numPages ≠ intMax := room.resolve_right fun h => h stop
    obtain ⟨grown, records⟩ := inv.grow stop small
    have started : (RmFileHandle.grow s).hdr.firstFreePageNo ≠ RM_NO_PAGE := by
      change s.store.counter ≠ RM_NO_PAGE
      have := inv.pages_pos
      rw [inv.counter]
      unfold RM_NO_PAGE
      omega
    obtain ⟨isPage, hasRoom⟩ := grown.first.resolve_left started
    refine ⟨RmFileHandle.grow s, ?_, grown, isPage, hasRoom, records, rfl, Or.inr stop⟩
    rw [if_pos stop]
    exact createNewPageHandle_ok small
  · refine ⟨s, ?_, inv, isPage, hasRoom, rfl, rfl, Or.inl rfl⟩
    have nonneg := isPage.1
    unfold RM_FIRST_RECORD_PAGE at nonneg
    rw [if_neg (notStop isPage)]
    exact fetchPageHandle_ok (by omega) isPage.2

/-- `insert_record` puts the record into a slot that was empty. -/
theorem insertRecord (inv : FileInv s) (room : s.HasSpace) (buf : Nat → UInt8) :
    ∃ rid t, insertRecord buf s = .ok rid t ∧ FileInv t ∧ t.InRange rid ∧ s.records rid = none ∧
      t.records = Function.update s.records rid (some (recordOf s.hdr buf)) ∧
      (t.hdr.numPages = s.hdr.numPages ∨ s.hdr.firstFreePageNo = RM_NO_PAGE) := by
  obtain ⟨t, run, invT, isPage, hasRoom, records, size, grown⟩ := inv.createPageHandle room
  obtain ⟨j, found, small, clear⟩ := invT.empty_slot isPage hasRoom
  have covers := invT.sized.bitmap_covers
  have inside : SlotInside t.hdr j ∧ Bitmap.Inside bitmap j :=
    ⟨slotInside invT.sized small, bitInside invT.sized (by omega)⟩
  obtain ⟨filled, updated⟩ := invT.fill rfl isPage small clear buf
  have header : (RmFileHandle.fill t t.hdr.firstFreePageNo j buf).hdr.numPages = t.hdr.numPages ∧
      (RmFileHandle.fill t t.hdr.firstFreePageNo j buf).hdr.numRecordsPerPage = t.hdr.numRecordsPerPage := by
    unfold RmFileHandle.fill
    simp only
    split <;> exact ⟨rfl, rfl⟩
  refine ⟨_, _, insertRecord_ok run found inside, filled, ?_, ?_, ?_, ?_⟩
  · refine ⟨⟨isPage.1, ?_⟩, Int.natCast_nonneg j, ?_⟩
    · rw [header.1]
      exact isPage.2
    · rw [header.2]
      exact small
  · rw [← records, records_nat invT.sized, if_neg]
    rintro ⟨_, _, marked⟩
    rw [clear] at marked
    cases marked
  · rw [updated, records]
    simp only [recordOf, size]
  · rw [header.1]
    exact grown.imp_left fun same => by rw [same]

section rid
variable {rid : Rid}

/-- A `Rid` in range names a page and a slot that exist. -/
theorem inRange (inv : FileInv s) (range : s.InRange rid) :
    ∃ j : Nat, rid = ⟨rid.pageNo, j⟩ ∧ (j : Int) < s.hdr.numRecordsPerPage ∧ 0 ≤ rid.pageNo ∧
      rid.pageNo < s.hdr.numPages ∧ Bitmap.Inside bitmap j ∧ SlotInside s.hdr j := by
  obtain ⟨p, slotNo⟩ := rid
  obtain ⟨⟨lower, below⟩, nonneg, small⟩ := range
  obtain ⟨j, rfl⟩ := Int.eq_ofNat_of_zero_le nonneg
  have covers := inv.sized.bitmap_covers
  simp only [RM_FIRST_RECORD_PAGE] at lower small below
  have page : 0 ≤ p := by omega
  exact ⟨j, rfl, small, page, below, bitInside inv.sized (by omega), slotInside inv.sized small⟩

theorem getRecord (inv : FileInv s) (range : s.InRange rid) : getRecord rid s = .ok (s.records rid) s := by
  obtain ⟨j, same, small, nonneg, below, inMap, inPage⟩ := inv.inRange range
  rw [same, getRecord_ok nonneg below inMap inPage, records_nat inv.sized, Bitmap.isSet_nat, readSlot_nat inv.sized]
  simp only [range.1, small, true_and]

theorem isRecord (inv : FileInv s) (range : s.InRange rid) : isRecord rid s = .ok (s.records rid).isSome s := by
  obtain ⟨j, same, small, nonneg, below, inMap, inPage⟩ := inv.inRange range
  rw [same, isRecord_ok nonneg below inMap, records_nat inv.sized, Bitmap.isSet_nat]
  simp only [range.1, small, true_and]
  cases (s.store.page rid.pageNo).bit bitmap j <;> rfl

theorem deleteRecord (inv : FileInv s) (range : s.InRange rid) :
    ∃ t, deleteRecord rid s = .ok ⟨⟩ t ∧ FileInv t ∧ t.records = Function.update s.records rid none := by
  obtain ⟨j, same, small, nonneg, below, inMap, inPage⟩ := inv.inRange range
  rw [same, deleteRecord_ok nonneg below inMap, Bitmap.isSet_nat]
  refine ⟨_, rfl, ?_⟩
  by_cases marked : (s.store.page rid.pageNo).bit bitmap j = true
  · rw [if_pos marked]
    exact inv.empty range.1 small marked
  · rw [if_neg marked]
    refine ⟨inv, ?_⟩
    rw [eq_comm, Function.update_eq_self_iff, records_nat inv.sized, if_neg fun h => marked h.2.2]

theorem updateRecord (inv : FileInv s) (range : s.InRange rid) (buf : Nat → UInt8) :
    ∃ t, updateRecord rid buf s = .ok ⟨⟩ t ∧ FileInv t ∧
      t.records = if (s.records rid).isSome then Function.update s.records rid (some (recordOf s.hdr buf))
        else s.records := by
  obtain ⟨j, same, small, nonneg, below, inMap, inPage⟩ := inv.inRange range
  rw [same, updateRecord_ok nonneg below inMap inPage, Bitmap.isSet_nat, records_nat inv.sized]
  simp only [range.1, small, true_and]
  refine ⟨_, rfl, ?_⟩
  by_cases marked : (s.store.page rid.pageNo).bit bitmap j = true
  · simp only [if_pos marked, Option.isSome_some, if_true]
    exact inv.rewrite range.1 small marked buf
  · simp only [if_neg marked, Option.isSome_none]
    exact ⟨inv, rfl⟩

end rid

/-- A created and opened file is an empty record file. -/
theorem created {recordSize fd : Int} {h : RmFileHandle} {e f : FlatFile}
    (run : RmManager.created recordSize fd e = .ok h f) :
    FileInv ⟨h, f⟩ ∧ (⟨h, f⟩ : RmFile FlatFile).records = fun _ => none := by
  obtain ⟨_, u, create, opened⟩ := bind_eq_ok.mp run
  unfold RmManager.createFile at create
  split at create
  · cases create
  · rename_i accepted
    have sized := RmFileHdr.Sized.create (by omega : 1 ≤ recordSize) (by omega)
    have isHdr := sized.isHdr (show IsInt 1 by decide) (show IsInt RM_NO_PAGE by decide)
    have read := RmFileHdr.ofBytes_poke isHdr (Block.zero : PageData)
    cases create
    cases opened
    simp only [FlatFile.blank, Function.update_self, read]
    have noPage : ∀ (g : FlatFile) k, ¬(⟨⟨fd, RmFileHdr.create recordSize⟩, g⟩ : RmFile FlatFile).IsPage k := by
      rintro g k ⟨lower, upper⟩
      have upper : k < 1 := upper
      unfold RM_FIRST_RECORD_PAGE at lower
      omega
    refine ⟨⟨sized, le_rfl, show (1 : Int) ≤ intMax by decide, rfl, fun k isPage => absurd isPage (noPage _ k), [],
      rfl, List.nodup_nil, ?_⟩, ?_⟩
    · intro k
      exact ⟨fun member => absurd member List.not_mem_nil, fun h => absurd h.1 (noPage _ k)⟩
    · funext rid
      exact if_neg fun h => noPage _ _ h.1

end FileInv

end Rmdb.RmFile
