import Rmdb.Record.Scan

namespace Rmdb.RmScan
open RmFile RmFileHandle RmPageHandle

section
variable {σ φ : Type} [PageStore σ φ]

/-- The loop over a scan: the positions from the present one to the end, unless that takes more turns. -/
def collect : Nat → RmScan → RmM σ (Option (List Rid))
  | 0, _ => return none
  | turns + 1, scan =>
    if scan.isEnd then return some []
    else do
      let following ← next scan
      let rids ← collect turns following
      return rids.map (scan.rid :: ·)

/-- A scan from its constructor to the end. -/
def traverse (turns : Nat) : RmM σ (Option (List Rid)) := do
  let scan ← new
  collect turns scan

end

variable {s : RmFile FlatFile}

theorem collect_of_position (wf : s.WellFormed) {scan : RmScan} {later : List Rid} {turns : Nat}
    (here : Position s scan later) (enough : later.length < turns) : collect turns scan s = .ok (some later) s := by
  induction later generalizing scan turns with
  | nil =>
    obtain ⟨turns, rfl⟩ := Nat.exists_eq_succ_of_ne_zero (by omega : turns ≠ 0)
    cases (here : scan = atEnd)
    rfl
  | cons rid rest ih =>
    simp only [List.length_cons] at enough
    obtain ⟨turns, rfl⟩ := Nat.exists_eq_succ_of_ne_zero (by omega : turns ≠ 0)
    have atRid : scan = ⟨rid⟩ := here.1
    subst atRid
    obtain ⟨following, moved, there⟩ := next_spec wf here
    rw [collect, running_of_position here]
    change (next ⟨rid⟩ >>= fun following => _) s = _
    rw [bind_ok moved, bind_ok (ih there (by omega))]
    rfl

/-- The record positions of a file: a marked bit in the bitmap of a record page. -/
theorem mem_rids_iff (wf : s.WellFormed) {rid : Rid} :
    rid ∈ rids s ↔ 1 ≤ rid.pageNo ∧ rid.pageNo < s.hdr.numPages ∧ 0 ≤ rid.slotNo ∧
      rid.slotNo < s.hdr.numRecordsPerPage ∧ Bitmap.isSet (s.store.page rid.pageNo) bitmap rid.slotNo = true := by
  have pos := wf.pages_pos
  rw [rids, mem_ridsFrom]
  constructor
  · rintro ⟨q, k, rfl, lower, upper, _, small, marked⟩
    have first : (1 : Int) ≤ q := by omega
    have last : (q : Int) < s.hdr.numPages := by omega
    rw [Bitmap.isSet_nat]
    exact ⟨first, last, Int.natCast_nonneg k, small, marked⟩
  · obtain ⟨pageNo, slotNo⟩ := rid
    rintro ⟨lower, upper, nonneg, small, marked⟩
    simp only at lower upper nonneg small marked
    obtain ⟨q, rfl⟩ := Int.eq_ofNat_of_zero_le (by omega : 0 ≤ pageNo)
    obtain ⟨k, rfl⟩ := Int.eq_ofNat_of_zero_le nonneg
    rw [Bitmap.isSet_nat] at marked
    exact ⟨q, k, rfl, by omega, by omega, fun _ => Nat.zero_le k, small, marked⟩

/-- A scan of a well-formed file ends and meets each marked slot once, in the order of pages and slots. -/
theorem scan_enumerates (wf : s.WellFormed) : ∃ visited : List Rid,
    (∀ turns, visited.length < turns → traverse turns s = .ok (some visited) s) ∧
      (∀ rid, rid ∈ visited ↔ 1 ≤ rid.pageNo ∧ rid.pageNo < s.hdr.numPages ∧ 0 ≤ rid.slotNo ∧
        rid.slotNo < s.hdr.numRecordsPerPage ∧ Bitmap.isSet (s.store.page rid.pageNo) bitmap rid.slotNo = true) ∧
      visited.Nodup ∧ visited.Pairwise Rid.Before := by
  refine ⟨rids s, fun turns enough => ?_, fun rid => mem_rids_iff wf, nodup_rids, sorted_ridsFrom ..⟩
  obtain ⟨scan, made, here⟩ := new_spec wf
  exact (bind_ok made).trans (collect_of_position wf here enough)

/-- A file whose second record page is empty: 15 slots to a page, the last one marked in the first page and the
first one in the third. -/
def gapFile : RmFile FlatFile where
  handle := ⟨3, { RmFileHdr.create 256 with numPages := 4 }⟩
  store := ⟨fun pageNo =>
    if pageNo = 1 then Bitmap.set Block.zero bitmap 14 else if pageNo = 3 then Bitmap.set Block.zero bitmap 0
    else Block.zero, 4⟩

/-- The scan passes over the empty page. -/
theorem scan_enumerates_gap : ∃ visited : List Rid, traverse (visited.length + 1) gapFile = .ok (some visited) gapFile ∧
    ⟨1, 14⟩ ∈ visited ∧ ⟨3, 0⟩ ∈ visited := by
  have wf : gapFile.WellFormed := ⟨⟨by decide, by decide, by decide, by decide⟩, by decide⟩
  obtain ⟨visited, run, member, _⟩ := scan_enumerates wf
  exact ⟨visited, run _ (Nat.lt_succ_self _), (member _).mpr (by decide), (member _).mpr (by decide)⟩

end Rmdb.RmScan
