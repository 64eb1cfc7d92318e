import Rmdb.Index.IxScan

namespace Rmdb
open BufferPoolManager IxNodeHandle
variable {N : Nat}

/-! The leaf level of an index: what a scan over it meets. -/

/-- A node of at most `get_max_size` entries lies in its page. -/
structure IxFileHdr.Fits (hdr : IxFileHdr) : Prop where
  keys_nonneg : 0 ≤ hdr.keysSize
  inside : 24 + hdr.keysSize + 8 * (hdr.btreeOrder + 1) ≤ PAGE_SIZE

/-- `create_index` makes headers of this kind. -/
theorem IxManager.newFileHdr_fits {cols : List ColMeta} (nonneg : 0 ≤ colTotLen cols)
    (short : colTotLen cols ≤ IX_MAX_COL_LEN) : (newFileHdr cols).Fits := by
  have order := btreeOrder_succ nonneg short
  have entries := Int.ediv_mul_le 4072 (by omega : colTotLen cols + 8 ≠ 0)
  have nodes := Int.ediv_nonneg (by decide : (0 : Int) ≤ 4072) (by omega : 0 ≤ colTotLen cols + 8)
  rw [← order] at entries nodes
  constructor
  · exact mul_nonneg nodes nonneg
  · change 24 + (btreeOrder _ + 1) * colTotLen cols + 8 * (btreeOrder _ + 1) ≤ (PAGE_SIZE : Int)
    rw [mul_add] at entries
    unfold PAGE_SIZE
    omega

/-- A leaf with at most `get_max_size` entries. -/
structure IsLeaf (hdr : IxFileHdr) (leaf : PageData) : Prop where
  isLeaf : isLeafPage leaf = true
  size_nonneg : 0 ≤ getSize leaf
  size_le : getSize leaf ≤ hdr.btreeOrder + 1

theorem IsLeaf.entrySlot {hdr : IxFileHdr} {leaf : PageData} (isLeaf : IsLeaf hdr leaf) (fits : hdr.Fits) {k : Nat}
    (below : k < (getSize leaf).toNat) : EntrySlot hdr leaf k := by
  have keys := fits.keys_nonneg
  have inside := fits.inside
  have most := isLeaf.size_le
  refine ⟨isLeaf.isLeaf, by omega, ?_⟩
  unfold RidInside ridAt
  omega

namespace IxIndexHandle

/-- Leaves that are linked by `next_leaf`, from one on to the last one of the index. Each before the last one has
an entry. -/
structure LeafChain (ih : IxIndexHandle) (look : PageId → PageData) (first : Int) (leaves : List Int) : Prop where
  first : leaves.head? = some first
  last : leaves.getLast? = some ih.fileHdr.lastLeaf
  nodup : leaves.Nodup
  linked : leaves.IsChain fun l m => getNextLeaf (look ⟨ih.fd, l⟩) = m
  fits : ih.fileHdr.Fits
  isLeaf : ∀ l ∈ leaves, IsLeaf ih.fileHdr (look ⟨ih.fd, l⟩)
  filled : ∀ l ∈ leaves, l ≠ ih.fileHdr.lastLeaf → 0 < getSize (look ⟨ih.fd, l⟩)

/-- The `Rid`s of all entries, leaf by leaf and by slot within a leaf. -/
def entries (ih : IxIndexHandle) (look : PageId → PageData) (leaves : List Int) : List Rid :=
  leaves.flatMap fun l => (List.range (getSize (look ⟨ih.fd, l⟩)).toNat).map fun k : Nat =>
    IxNodeHandle.getRid ih.fileHdr (look ⟨ih.fd, l⟩) k

/-- The positions of the entries. -/
def positions (ih : IxIndexHandle) (look : PageId → PageData) (leaves : List Int) : List Iid :=
  leaves.flatMap fun l => (List.range (getSize (look ⟨ih.fd, l⟩)).toNat).map fun k : Nat => ⟨l, k⟩

/-- The pages of the leaves. -/
def leafPages (ih : IxIndexHandle) (leaves : List Int) : Set PageId := {p | p.fd = ih.fd ∧ p.pageNo ∈ leaves}

variable {ih : IxIndexHandle} {look : PageId → PageData} {first : Int} {leaves : List Int}

theorem entries_eq (ih : IxIndexHandle) (look : PageId → PageData) (leaves : List Int) :
    entries ih look leaves = (positions ih look leaves).map (IxScan.ridOf ih look) := by
  unfold entries positions
  rw [List.map_flatMap]
  simp only [List.map_map]
  rfl

theorem pages_positions (ih : IxIndexHandle) (look : PageId → PageData) (leaves : List Int) :
    (positions ih look leaves).map (pageOf ih) =
      leaves.flatMap fun l => List.replicate (getSize (look ⟨ih.fd, l⟩)).toNat ⟨ih.fd, l⟩ := by
  unfold positions
  rw [List.map_flatMap]
  simp only [List.map_map]
  refine List.flatMap_congr fun l _ => ?_
  exact List.eq_replicate_iff.mpr ⟨by simp, by simp [pageOf]⟩

theorem mem_positions {iid : Iid} : iid ∈ positions ih look leaves ↔
    ∃ l ∈ leaves, ∃ k < (getSize (look ⟨ih.fd, l⟩)).toNat, iid = ⟨l, k⟩ := by
  unfold positions
  simp only [List.mem_flatMap, List.mem_map, List.mem_range, eq_comm]

/-- The slots of a leaf follow each other. -/
theorem slots_linked {l : Int} {n : Nat}
    (inside : l = ih.fileHdr.lastLeaf ∨ (n : Int) + 1 ≤ getSize (look ⟨ih.fd, l⟩)) :
    ((List.range (n + 1)).map fun k : Nat => (⟨l, k⟩ : Iid)).IsChain
      fun a b => IxScan.advance ih (look (pageOf ih a)) a = b := by
  rw [List.isChain_map, List.isChain_range_succ]
  intro k below
  unfold IxScan.advance
  rw [if_neg]
  · rfl
  · rintro ⟨notLast, atEnd⟩
    have := inside.resolve_left notLast
    simp only [pageOf] at atEnd
    omega

theorem LeafChain.tail {l m : Int} {rest : List Int} (chain : LeafChain ih look first (l :: m :: rest)) :
    LeafChain ih look m (m :: rest) ∧ l ≠ ih.fileHdr.lastLeaf ∧ getNextLeaf (look ⟨ih.fd, l⟩) = m := by
  obtain ⟨linked, later⟩ := List.isChain_cons_cons.mp chain.linked
  obtain ⟨fresh, nodup⟩ := List.nodup_cons.mp chain.nodup
  have last : (m :: rest).getLast? = some ih.fileHdr.lastLeaf := by
    have := chain.last
    rwa [List.getLast?_cons_cons] at this
  refine ⟨⟨rfl, last, nodup, later, chain.fits, ?_, ?_⟩, ?_, linked⟩
  · exact fun k member => chain.isLeaf k (List.mem_cons_of_mem _ member)
  · exact fun k member => chain.filled k (List.mem_cons_of_mem _ member)
  · rintro rfl
    exact fresh (List.mem_of_getLast? last)

/-- Every position of a scan over the chain is followed by the next one, the last one by the end. -/
theorem positions_linked (chain : LeafChain ih look first leaves) {end_ : Iid}
    (ends : end_ = ⟨ih.fileHdr.lastLeaf, getSize (look ⟨ih.fd, ih.fileHdr.lastLeaf⟩)⟩) :
    (positions ih look leaves ++ [end_]).IsChain (fun a b => IxScan.advance ih (look (pageOf ih a)) a = b) ∧
      (positions ih look leaves ++ [end_]).head? = some ⟨first, 0⟩ := by
  induction leaves generalizing first with
  | nil => cases chain.first
  | cons l rest ih' =>
    cases chain.first
    have size := (chain.isLeaf l List.mem_cons_self).size_nonneg
    cases rest with
    | nil =>
      -- the end is one more slot of the last leaf
      cases chain.last
      have all : positions ih look [ih.fileHdr.lastLeaf] ++ [end_] =
          (List.range ((getSize (look ⟨ih.fd, ih.fileHdr.lastLeaf⟩)).toNat + 1)).map fun k : Nat =>
            ⟨ih.fileHdr.lastLeaf, k⟩ := by
        rw [ends, List.range_succ, List.map_append, List.map_singleton, Int.toNat_of_nonneg size]
        simp [positions]
      rw [all]
      refine ⟨slots_linked (Or.inl rfl), ?_⟩
      rw [List.range_succ_eq_map]
      rfl
    | cons m rest =>
      obtain ⟨later, notLast, next⟩ := chain.tail
      obtain ⟨linked, head⟩ := ih' later
      have filled := chain.filled l List.mem_cons_self notLast
      obtain ⟨n, count⟩ := Int.eq_ofNat_of_zero_le (by omega : 0 ≤ getSize (look ⟨ih.fd, l⟩) - 1)
      have succ : (getSize (look ⟨ih.fd, l⟩)).toNat = n + 1 := by omega
      have front : positions ih look (l :: m :: rest) =
          ((List.range (n + 1)).map fun k : Nat => (⟨l, k⟩ : Iid)) ++ positions ih look (m :: rest) := by
        unfold positions
        rw [List.flatMap_cons, succ]
      rw [front, List.append_assoc]
      constructor
      · have lastSlot : ((List.range (n + 1)).map fun k : Nat => (⟨l, k⟩ : Iid)).getLast? = some ⟨l, n⟩ := by
          rw [List.range_succ, List.map_append, List.map_singleton, List.getLast?_concat]
        refine List.IsChain.append (slots_linked (Or.inr (by omega))) linked ?_
        intro a atLast b atHead
        cases lastSlot.symm.trans atLast
        cases head.symm.trans atHead
        have jump : (⟨l, n⟩ : Iid).pageNo ≠ ih.fileHdr.lastLeaf ∧
            (⟨l, n⟩ : Iid).slotNo + 1 = getSize (look (pageOf ih ⟨l, n⟩)) := ⟨notLast, by simp only [pageOf]; omega⟩
        unfold IxScan.advance
        rw [if_pos jump]
        exact congrArg (Iid.mk · 0) next
      · rw [List.range_succ_eq_map]
        rfl

theorem LeafChain.lastLeaf_mem (chain : LeafChain ih look first leaves) : ih.fileHdr.lastLeaf ∈ leaves :=
  List.mem_of_getLast? chain.last

theorem LeafChain.ahead (chain : LeafChain ih look first leaves) :
    IxScan.Ahead ih (ih.leafPages leaves) look ⟨ih.fileHdr.lastLeaf, getSize (look ⟨ih.fd, ih.fileHdr.lastLeaf⟩)⟩
      (positions ih look leaves) := by
  constructor
  case member =>
    intro iid member
    obtain ⟨l, atLeaf, k, _, rfl⟩ := mem_positions.mp member
    exact ⟨rfl, atLeaf⟩
  case entry =>
    intro iid member
    obtain ⟨l, atLeaf, k, below, rfl⟩ := mem_positions.mp member
    exact (chain.isLeaf l atLeaf).entrySlot chain.fits below
  case within =>
    intro iid member same
    obtain ⟨l, atLeaf, k, below, rfl⟩ := mem_positions.mp member
    obtain ⟨rfl, atEnd⟩ := Iid.mk.inj same
    omega
  case linked => exact (positions_linked chain rfl).1

end IxIndexHandle

namespace IxScan
open IxIndexHandle
variable {s : BufferPoolManager N} {ih : IxIndexHandle} {leaves : List Int}

/-- The pool has the frames and the pin counts the room that a scan takes: `leaf_end` fetches the last leaf for a
moment, and each entry leaves one pin on its leaf. -/
def Room (ih : IxIndexHandle) (leaves : List Int) (s : BufferPoolManager N) : Prop :=
  Holdable N intMax s.pinned s.pinsOn ⟨ih.fd, ih.fileHdr.lastLeaf⟩ ∧
    (∀ l ∈ leaves, s.pinsOn ⟨ih.fd, l⟩ + (getSize (s.seen ⟨ih.fd, l⟩)).toNat ≤ intMax) ∧
    s.pinned + (leaves.filter fun l => 0 < (getSize (s.seen ⟨ih.fd, l⟩)).toNat ∧ s.pinsOn ⟨ih.fd, l⟩ = 0).length ≤ N

theorem room_iff (chain : LeafChain ih s.seen ih.fileHdr.firstLeaf leaves) (steady : Steady (ih.leafPages leaves) s) :
    Room ih leaves s ↔ Holdable N intMax s.pinned s.pinsOn ⟨ih.fd, ih.fileHdr.lastLeaf⟩ ∧
      AllHoldable N intMax s.pinned s.pinsOn ((positions ih s.seen leaves).map (pageOf ih)) := by
  have injective : Function.Injective fun l => (⟨ih.fd, l⟩ : PageId) := fun l m same => (PageId.mk.inj same).2
  rw [pages_positions]
  exact and_congr_right fun _ =>
    (allHoldable_blocks_iff injective chain.nodup steady.pinsOn_nonneg steady.pinsOn_small s.pinned_le).symm

/-- A scan over the leaf chain returns all entries in order if and only if the pool has room for the pins that
it leaves behind. -/
theorem walks_chain_iff (chain : LeafChain ih s.seen ih.fileHdr.firstLeaf leaves)
    (steady : Steady (ih.leafPages leaves) s) :
    (∃ t, ∀ turns, (entries ih s.seen leaves).length < turns →
      traverse ih turns s = .ok (some (entries ih s.seen leaves)) t) ↔ Room ih leaves s := by
  have last : (⟨ih.fd, ih.fileHdr.lastLeaf⟩ : PageId) ∈ ih.leafPages leaves := ⟨rfl, chain.lastLeaf_mem⟩
  rw [room_iff chain steady, entries_eq, List.length_map]
  have head := (positions_linked chain rfl).2
  constructor
  · rintro ⟨t, walked⟩
    obtain ⟨end_, u, ended, collected⟩ := bind_eq_ok.mp (walked _ (Nat.lt_succ_self _))
    have holdable := leafEnd_holdable steady last ended
    obtain ⟨v, ended', restored⟩ := leafEnd_returns steady last rfl holdable
    cases ended.symm.trans ended'
    have all := collect_holdable restored.steady restored.seen chain.ahead head collected
    rw [restored.pinned, restored.pins] at all
    exact ⟨holdable, all⟩
  · rintro ⟨holdable, all⟩
    obtain ⟨u, ended, restored⟩ := leafEnd_returns steady last rfl holdable
    rw [← restored.pinned, ← restored.pins] at all
    obtain ⟨t, collected⟩ := collect_returns restored.steady restored.seen chain.ahead head all
    exact ⟨t, fun turns enough => (bind_ok ended).trans (collected turns enough)⟩

/-- A leaf with one entry, of an index with 1356 bytes of keys. -/
def oneEntry (prevLeaf nextLeaf slotNo : Int) (i : Nat) : UInt8 :=
  if i < 1380 then wordBytes [IX_NO_PAGE, 4, 1, 1, prevLeaf, nextLeaf] i else wordBytes [1, slotNo] (i - 1380)

/-- The pages of an index with two leaves. -/
def twoLeaves : File where
  len := 20480
  byte i :=
    if i / 4096 = 2 then oneEntry 1 3 0 (i % 4096) else if i / 4096 = 3 then oneEntry 2 1 1 (i % 4096) else 0
  past_end i after := by rw [if_neg (by omega), if_neg (by omega)]

def twoLeavesDisk : DiskManager := { oneFile with os := { oneFile.os with file := fun _ => twoLeaves } }

def oneColumn : List ColMeta := [⟨"t", "a", .int, 4, 0, true⟩]

/-- Its handle. -/
def twoLeavesHandle : IxIndexHandle :=
  ⟨3, { IxManager.newFileHdr oneColumn with numPages := 5, rootPage := 4, lastLeaf := 3 }⟩

theorem twoLeaves_chain : LeafChain twoLeavesHandle twoLeavesDisk.diskPage 2 [2, 3] where
  first := rfl
  last := rfl
  nodup := by decide
  linked := by
    rw [List.isChain_pair]
    decide +kernel
  fits := by
    have fits : (IxManager.newFileHdr oneColumn).Fits := IxManager.newFileHdr_fits (by decide) (by decide)
    exact ⟨fits.keys_nonneg, fits.inside⟩
  isLeaf l member := by
    have leaf : ∀ l ∈ [(2 : Int), 3], isLeafPage (twoLeavesDisk.diskPage ⟨3, l⟩) = true ∧
        getSize (twoLeavesDisk.diskPage ⟨3, l⟩) = 1 := by decide +kernel
    obtain ⟨isLeaf, size⟩ := leaf l member
    have size : getSize (twoLeavesDisk.diskPage ⟨twoLeavesHandle.fd, l⟩) = 1 := size
    exact ⟨isLeaf, by omega, by rw [size]; decide⟩
  filled := by decide +kernel

theorem twoLeaves_steady :
    Steady (twoLeavesHandle.leafPages [2, 3]) (new twoLeavesDisk fun _ => 0 : BufferPoolManager N) := by
  have distinct : twoLeavesDisk.Distinct := World.oneFile_distinct
  refine Steady.new (fun _ => le_rfl) distinct (fun p member => ?_) _
  obtain ⟨fd, pageNo⟩ := p
  obtain ⟨rfl, leaf⟩ := member
  refine ⟨twoLeaves, rfl, ?_⟩
  have inside : ∀ l ∈ [(2 : Int), 3], 0 ≤ l ∧ l.toNat * PAGE_SIZE + PAGE_SIZE ≤ 20480 := by decide
  exact inside pageNo leaf

/-- A pool of two frames has room for the scan over two leaves. -/
theorem walks_chain_two : ∃ t : BufferPoolManager 2, ∀ turns, 2 < turns →
    traverse twoLeavesHandle turns (new twoLeavesDisk fun _ => 0) = .ok (some [⟨1, 0⟩, ⟨1, 1⟩]) t := by
  have entries : twoLeavesHandle.entries twoLeavesDisk.diskPage [2, 3] = [⟨1, 0⟩, ⟨1, 1⟩] := by decide +kernel
  have room : Room twoLeavesHandle [2, 3] (new twoLeavesDisk fun _ => 0 : BufferPoolManager 2) := by
    unfold Room Holdable
    decide +kernel
  obtain ⟨t, walked⟩ := (walks_chain_iff twoLeaves_chain twoLeaves_steady).mpr room
  have seen : (new twoLeavesDisk fun _ => 0 : BufferPoolManager 2).seen = twoLeavesDisk.diskPage := rfl
  rw [seen, entries] at walked
  exact ⟨t, walked⟩

/-- A pool of one frame does not: the scan asks for the second leaf while the first one is still pinned. -/
theorem scan_keeps_pins : ¬∀ (s : BufferPoolManager 1) (ih : IxIndexHandle) (leaves : List Int),
    LeafChain ih s.seen ih.fileHdr.firstLeaf leaves → Steady (ih.leafPages leaves) s →
      ∃ t, ∀ turns, (ih.entries s.seen leaves).length < turns →
        traverse ih turns s = .ok (some (ih.entries s.seen leaves)) t := by
  intro walks
  obtain ⟨t, walked⟩ := walks _ _ _ twoLeaves_chain twoLeaves_steady
  have fails : value (traverse twoLeavesHandle 3) (new twoLeavesDisk fun _ => 0 : BufferPoolManager 1) = none := by
    decide +kernel
  have short : (twoLeavesHandle.entries twoLeavesDisk.diskPage [2, 3]).length < 3 := by decide +kernel
  rw [value_of_run (walked 3 short)] at fails
  cases fails

end IxScan

end Rmdb
