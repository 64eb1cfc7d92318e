import Rmdb.Record.FileSpec

namespace Rmdb

/-- The order of pages and of slots in a page. -/
def Rid.Before (a b : Rid) : Prop := a.pageNo < b.pageNo ∨ a.pageNo = b.pageNo ∧ a.slotNo < b.slotNo

theorem Rid.Before.ne {a b : Rid} (before : a.Before b) : a ≠ b := by
  rintro rfl
  unfold Rid.Before at before
  omega

/-- The position of a scan over the records of a file. -/
structure RmScan where
  rid : Rid
  deriving DecidableEq

namespace RmScan
open RmFile RmFileHandle RmPageHandle
section
variable {σ φ : Type} [PageStore σ φ]

def atEnd : RmScan := ⟨⟨RM_NO_PAGE, -1⟩⟩

/-- The loop of `next`, with so many pages left. -/
def nextFrom : Nat → Rid → RmM σ RmScan
  | 0, _ => return atEnd
  | pages + 1, rid => do
    let page ← fetchPageHandle rid.pageNo
    let s ← get
    let slotNo := Bitmap.nextBit true (s.page page) bitmap s.hdr.numRecordsPerPage rid.slotNo
    let _ ← onStore (PageStore.unpinPage (PageStore.pageId s.store page) false)
    if slotNo < s.hdr.numRecordsPerPage then return ⟨⟨rid.pageNo, slotNo⟩⟩
    else nextFrom pages ⟨rid.pageNo + 1, -1⟩

def next (scan : RmScan) : RmM σ RmScan := do
  let s ← get
  nextFrom (s.hdr.numPages - scan.rid.pageNo).toNat scan.rid

/-- The constructor: the first record, found from before the first slot of the first record page. -/
def new : RmM σ RmScan := next ⟨⟨RM_FIRST_RECORD_PAGE, -1⟩⟩

def isEnd (scan : RmScan) : Bool := scan.rid.pageNo == RM_NO_PAGE

end

/-- The marked slots of a page among the `count` from `from` on. -/
def slotsFrom (d : PageData) (start count : Nat) : List Nat := (List.range' start count).filter (d.bit bitmap)

/-- The records of the pages from `p` on, in the order of the scan; in page `p` only
those from slot `start` on. -/
def ridsFrom (s : RmFile FlatFile) : Nat → Nat → Nat → List Rid
  | 0, _, _ => []
  | pages + 1, p, start =>
    (slotsFrom (s.store.page p) start (s.hdr.numRecordsPerPage.toNat - start)).map (fun k => ⟨p, k⟩) ++
      ridsFrom s pages (p + 1) 0

/-- All records, in the order of the scan. -/
def rids (s : RmFile FlatFile) : List Rid := ridsFrom s (s.hdr.numPages - 1).toNat 1 0

/-- The records behind a position. -/
def after (s : RmFile FlatFile) (rid : Rid) : List Rid :=
  ridsFrom s (s.hdr.numPages - rid.pageNo).toNat rid.pageNo.toNat (rid.slotNo + 1).toNat

/-- `next_bit` of a one gives the first marked slot. -/
theorem nextBitFrom_slots (d : PageData) {maxN : Int} {count start : Nat} (left : (start : Int) + count = maxN) :
    (Bitmap.nextBitFrom true d bitmap maxN count start = maxN ∧ slotsFrom d start count = []) ∨
      ∃ k rest : Nat, Bitmap.nextBitFrom true d bitmap maxN count start = k ∧ (k : Int) + 1 + rest = maxN ∧
        start ≤ k ∧ d.bit bitmap k = true ∧ slotsFrom d start count = k :: slotsFrom d (k + 1) rest := by
  induction count generalizing start with
  | zero => exact Or.inl ⟨rfl, rfl⟩
  | succ count ih =>
    simp only [Bitmap.nextBitFrom, Bitmap.isSet_nat]
    split
    · rename_i marked
      refine Or.inr ⟨start, count, rfl, by omega, le_rfl, marked, ?_⟩
      rw [slotsFrom, List.range'_succ, List.filter_cons_of_pos marked]
      rfl
    · rename_i clear
      have skip : slotsFrom d start (count + 1) = slotsFrom d (start + 1) count := by
        rw [slotsFrom, List.range'_succ, List.filter_cons_of_neg clear]
        rfl
      rw [skip]
      rcases @ih (start + 1) (by omega) with ⟨stop, none⟩ | ⟨k, rest, found, sum, lower, marked, slots⟩
      · exact Or.inl ⟨stop, none⟩
      · exact Or.inr ⟨k, rest, found, sum, by omega, marked, slots⟩

theorem nextBit_slots (d : PageData) {n : Int} {start : Nat} (inside : (start : Int) ≤ n) :
    (Bitmap.nextBit true d bitmap n (start - 1) = n ∧ slotsFrom d start (n.toNat - start) = []) ∨
      ∃ k : Nat, Bitmap.nextBit true d bitmap n (start - 1) = k ∧ (k : Int) < n ∧ start ≤ k ∧ d.bit bitmap k = true ∧
        slotsFrom d start (n.toNat - start) = k :: slotsFrom d (k + 1) (n.toNat - (k + 1)) := by
  have fuel : (n - ((start : Int) - 1 + 1)).toNat = n.toNat - start := by omega
  have first : (start : Int) - 1 + 1 = start := by omega
  unfold Bitmap.nextBit
  rw [fuel, first]
  rcases nextBitFrom_slots d (by omega : (start : Int) + (n.toNat - start : Nat) = n) with
    stop | ⟨k, rest, found, sum, lower, marked, slots⟩
  · exact Or.inl stop
  · refine Or.inr ⟨k, found, by omega, lower, marked, ?_⟩
    rw [slots, show n.toNat - (k + 1) = rest by omega]

section flat
variable {s : RmFile FlatFile}

/-- The scan stops at the first record behind its position, or at the end. -/
theorem nextFrom_spec (wf : s.WellFormed) {pages p start : Nat} (pos : 1 ≤ p)
    (left : (p : Int) + pages = s.hdr.numPages) (inside : (start : Int) ≤ s.hdr.numRecordsPerPage) :
    (nextFrom pages ⟨p, start - 1⟩ s = .ok atEnd s ∧ ridsFrom s pages p start = []) ∨
      ∃ q k : Nat, nextFrom pages ⟨p, start - 1⟩ s = .ok ⟨⟨q, k⟩⟩ s ∧ p ≤ q ∧ s.IsPage q ∧
        (k : Int) < s.hdr.numRecordsPerPage ∧ (s.store.page q).bit bitmap k = true ∧
        ridsFrom s pages p start = ⟨q, k⟩ :: after s ⟨q, k⟩ := by
  induction pages generalizing p start with
  | zero => exact Or.inl ⟨rfl, rfl⟩
  | succ pages ih =>
    have below : (p : Int) < s.hdr.numPages := by omega
    have perPage := wf.sized.perPage_pos
    have step : nextFrom (pages + 1) ⟨p, (start : Int) - 1⟩ s =
        (if Bitmap.nextBit true (s.store.page p) bitmap s.hdr.numRecordsPerPage (start - 1) < s.hdr.numRecordsPerPage
          then pure ⟨⟨p, Bitmap.nextBit true (s.store.page p) bitmap s.hdr.numRecordsPerPage (start - 1)⟩⟩
          else nextFrom pages ⟨p + 1, -1⟩ : RmM FlatFile RmScan) s := by
      rw [nextFrom, bind_ok (fetchPageHandle_ok (by omega) below)]
      rfl
    rw [step]
    rcases nextBit_slots (s.store.page p) inside with ⟨stop, none⟩ | ⟨k, found, small, lower, marked, slots⟩
    · rw [stop, if_neg (lt_irrefl _)]
      have rest : ridsFrom s (pages + 1) p start = ridsFrom s pages (p + 1) 0 := by
        rw [ridsFrom, none, List.map_nil, List.nil_append]
      rw [rest]
      rcases @ih (p + 1) 0 (by omega) (by omega) (by omega) with
        ⟨run, nothing⟩ | ⟨q, k, run, later, isPage, small, marked, rids⟩
      · exact Or.inl ⟨run, nothing⟩
      · exact Or.inr ⟨q, k, run, by omega, isPage, small, marked, rids⟩
    · rw [found, if_pos small]
      refine Or.inr ⟨p, k, rfl, le_rfl, ⟨?_, below⟩, small, marked, ?_⟩
      · unfold RM_FIRST_RECORD_PAGE
        omega
      · rw [ridsFrom, slots, after]
        simp only [Int.toNat_natCast]
        rw [show (s.hdr.numPages - (p : Int)).toNat = pages + 1 by omega, show ((k : Int) + 1).toNat = k + 1 by omega,
          ridsFrom]
        rfl

/-- A position of a scan: a record of the file or the end. -/
def Position (s : RmFile FlatFile) (scan : RmScan) : List Rid → Prop
  | [] => scan = atEnd
  | rid :: rest => scan = ⟨rid⟩ ∧ (s.records rid).isSome ∧ s.InRange rid ∧ rest = after s rid

theorem running_of_position {rid : Rid} {rest : List Rid} (here : Position s ⟨rid⟩ (rid :: rest)) :
    (⟨rid⟩ : RmScan).isEnd = false := by
  have page := here.2.2.1.1.1
  unfold RM_FIRST_RECORD_PAGE at page
  simp only [isEnd, RM_NO_PAGE, beq_eq_false_iff_ne]
  omega

theorem position_of (wf : s.WellFormed) {pages p start : Nat} (pos : 1 ≤ p) (left : (p : Int) + pages = s.hdr.numPages)
    (inside : (start : Int) ≤ s.hdr.numRecordsPerPage) :
    ∃ scan, nextFrom pages ⟨p, start - 1⟩ s = .ok scan s ∧ Position s scan (ridsFrom s pages p start) := by
  rcases nextFrom_spec wf pos left inside with ⟨run, none⟩ | ⟨q, k, run, _, isPage, small, marked, rids⟩
  · refine ⟨atEnd, run, ?_⟩
    rw [none]
    rfl
  · refine ⟨⟨⟨q, k⟩⟩, run, ?_⟩
    rw [rids]
    refine ⟨rfl, ?_, ⟨isPage, Int.natCast_nonneg k, small⟩, rfl⟩
    rw [records_nat wf.sized, if_pos ⟨isPage, small, marked⟩]
    rfl

/-- The constructor stands at the first record. -/
theorem new_spec (wf : s.WellFormed) : ∃ scan, new s = .ok scan s ∧ Position s scan (rids s) := by
  have pos := wf.pages_pos
  have perPage := wf.sized.perPage_pos
  exact @position_of s wf (s.hdr.numPages - 1).toNat 1 0 le_rfl (by omega) (by omega)

/-- `next` moves on to the next record. -/
theorem next_spec (wf : s.WellFormed) {rid : Rid} {rest : List Rid} (here : Position s ⟨rid⟩ (rid :: rest)) :
    ∃ scan, next ⟨rid⟩ s = .ok scan s ∧ Position s scan rest := by
  obtain ⟨_, _, ⟨⟨lower, upper⟩, nonneg, small⟩, rfl⟩ := here
  unfold RM_FIRST_RECORD_PAGE at lower
  obtain ⟨p, slotNo⟩ := rid
  obtain ⟨q, rfl⟩ := Int.eq_ofNat_of_zero_le (by simp only at lower; omega : 0 ≤ p)
  obtain ⟨k, rfl⟩ := Int.eq_ofNat_of_zero_le nonneg
  simp only at lower upper small
  obtain ⟨scan, run, position⟩ :=
    @position_of s wf (s.hdr.numPages - q).toNat q (k + 1) (by omega) (by omega) (by omega)
  refine ⟨scan, ?_, position⟩
  rw [show (((k + 1 : Nat) : Int) - 1) = k by omega] at run
  exact run

/-! The scan meets every record once. -/

theorem mem_ridsFrom {pages p start : Nat} {rid : Rid} :
    rid ∈ ridsFrom s pages p start ↔ ∃ q k : Nat, rid = ⟨q, k⟩ ∧ p ≤ q ∧ q < p + pages ∧ (q = p → start ≤ k) ∧
      (k : Int) < s.hdr.numRecordsPerPage ∧ (s.store.page q).bit bitmap k = true := by
  induction pages generalizing p start with
  | zero =>
    rw [ridsFrom]
    constructor
    · intro member
      cases member
    · rintro ⟨q, k, _, lower, upper, _⟩
      omega
  | succ pages ih =>
    rw [ridsFrom, List.mem_append, ih, List.mem_map]
    constructor
    · rintro (⟨k, member, rfl⟩ | ⟨q, k, rfl, lower, upper, _, small, marked⟩)
      · obtain ⟨range, marked⟩ := List.mem_filter.mp member
        have := List.mem_range'_1.mp range
        exact ⟨p, k, rfl, le_rfl, by omega, fun _ => by omega, by omega, marked⟩
      · exact ⟨q, k, rfl, by omega, by omega, fun same => by omega, small, marked⟩
    · rintro ⟨q, k, rfl, lower, upper, fromStart, small, marked⟩
      by_cases same : q = p
      · subst q
        have := fromStart rfl
        exact Or.inl ⟨k, List.mem_filter.mpr ⟨List.mem_range'_1.mpr (by omega), marked⟩, rfl⟩
      · exact Or.inr ⟨q, k, rfl, by omega, by omega, fun _ => Nat.zero_le k, small, marked⟩

theorem sorted_ridsFrom (pages p start : Nat) : (ridsFrom s pages p start).Pairwise Rid.Before := by
  induction pages generalizing p start with
  | zero => exact .nil
  | succ pages ih =>
    rw [ridsFrom, List.pairwise_append]
    refine ⟨?_, ih _ _, fun rid member later found => ?_⟩
    · have marked : (slotsFrom (s.store.page p) start (s.hdr.numRecordsPerPage.toNat - start)).Pairwise (· < ·) :=
        List.Pairwise.filter _ List.pairwise_lt_range'
      exact List.pairwise_map.mpr (marked.imp fun less => Or.inr ⟨rfl, Int.ofNat_lt.mpr less⟩)
    · obtain ⟨k, _, rfl⟩ := List.mem_map.mp member
      obtain ⟨q, j, rfl, lower, _⟩ := mem_ridsFrom.mp found
      left
      simp only
      omega

theorem mem_rids (wf : s.WellFormed) {rid : Rid} : rid ∈ rids s ↔ (s.records rid).isSome = true := by
  have pos := wf.pages_pos
  rw [rids, mem_ridsFrom]
  constructor
  · rintro ⟨q, k, rfl, lower, upper, _, small, marked⟩
    rw [records_nat wf.sized, if_pos]
    · rfl
    · exact ⟨⟨by unfold RM_FIRST_RECORD_PAGE; omega, by omega⟩, small, marked⟩
  · intro live
    obtain ⟨p, slotNo⟩ := rid
    by_cases negative : slotNo < 0
    · rw [records_negative negative] at live
      cases live
    · obtain ⟨k, rfl⟩ := Int.eq_ofNat_of_zero_le (by omega : 0 ≤ slotNo)
      rw [records_nat wf.sized] at live
      split at live
      · rename_i marked
        obtain ⟨⟨lower, upper⟩, small, marked⟩ := marked
        unfold RM_FIRST_RECORD_PAGE at lower
        obtain ⟨q, rfl⟩ := Int.eq_ofNat_of_zero_le (by omega : 0 ≤ p)
        exact ⟨q, k, rfl, by omega, by omega, fun _ => Nat.zero_le k, small, marked⟩
      · cases live

theorem nodup_rids : (rids s).Nodup := (sorted_ridsFrom ..).imp Rid.Before.ne

end flat

end RmScan

end Rmdb
