import Mathlib.Data.List.Chain
import Rmdb.Index.IxManager
import Rmdb.Storage.Steady

namespace Rmdb
open BufferPoolManager
variable {N : Nat}

/-- A position in an index. -/
structure Iid where
  pageNo : Int
  slotNo : Int
  deriving DecidableEq

/-! A node in its page: six words of `IxPageHdr`, the keys and behind them the `Rid`s. -/

namespace IxNodeHandle

def getSize (d : PageData) : Int := d.readInt 8

def isLeafPage (d : PageData) : Bool := d.peek 12 != 0

def getNextLeaf (d : PageData) : Int := d.readInt 20

/-- Offset of a `Rid`. -/
def ridAt (hdr : IxFileHdr) (ridIdx : Int) : Int := 24 + hdr.keysSize + 8 * ridIdx

/-- The `Rid` lies in the page. -/
def RidInside (hdr : IxFileHdr) (ridIdx : Int) : Prop := 0 ≤ ridAt hdr ridIdx ∧ ridAt hdr ridIdx + 8 ≤ PAGE_SIZE

instance (hdr : IxFileHdr) (ridIdx : Int) : Decidable (RidInside hdr ridIdx) := inferInstanceAs (Decidable (_ ∧ _))

def getRid (hdr : IxFileHdr) (d : PageData) (ridIdx : Int) : Rid :=
  ⟨d.readInt (ridAt hdr ridIdx).toNat, d.readInt ((ridAt hdr ridIdx).toNat + 4)⟩

end IxNodeHandle

open IxNodeHandle

namespace IxIndexHandle

/-- `fetch_node` pins the page. Without a frame the node would be made of a null page. -/
def fetchNode (ih : IxIndexHandle) (pageNo : Int) : PoolM N (Fin N) := do
  match ← fetchPage ⟨ih.fd, pageNo⟩ with
  | none => throw .undefined
  | some node => return node

def getRid (ih : IxIndexHandle) (iid : Iid) : PoolM N Rid := do
  let node ← fetchNode ih iid.pageNo
  let s ← get
  if getSize (s.pages node).data ≤ iid.slotNo then throw .indexEntryNotFound
  let _ ← unpinPage (s.pages node).id false
  let s ← get
  if ¬RidInside ih.fileHdr iid.slotNo then throw .undefined
  return IxNodeHandle.getRid ih.fileHdr (s.pages node).data iid.slotNo

def leafEnd (ih : IxIndexHandle) : PoolM N Iid := do
  let node ← fetchNode ih ih.fileHdr.lastLeaf
  let s ← get
  let iid := ⟨ih.fileHdr.lastLeaf, getSize (s.pages node).data⟩
  let _ ← unpinPage (s.pages node).id false
  return iid

def leafBegin (ih : IxIndexHandle) : Iid := ⟨ih.fileHdr.firstLeaf, 0⟩

end IxIndexHandle

structure IxScan where
  iid : Iid
  end_ : Iid

namespace IxScan

def isEnd (scan : IxScan) : Bool := scan.iid = scan.end_

/-- What `next` does to the position in a leaf: on to the next slot, or behind the last slot of a leaf
that is not the last one to the next leaf. -/
def advance (ih : IxIndexHandle) (leaf : PageData) (iid : Iid) : Iid :=
  if iid.pageNo ≠ ih.fileHdr.lastLeaf ∧ iid.slotNo + 1 = getSize leaf then ⟨getNextLeaf leaf, 0⟩
  else ⟨iid.pageNo, iid.slotNo + 1⟩

/-- `next`; the page it fetches is not released. -/
def next (ih : IxIndexHandle) (scan : IxScan) : PoolM N IxScan := do
  if scan.isEnd then throw .assertion
  let node ← ih.fetchNode scan.iid.pageNo
  let s ← get
  if isLeafPage (s.pages node).data = false then throw .assertion
  if getSize (s.pages node).data ≤ scan.iid.slotNo then throw .assertion
  return { scan with iid := advance ih (s.pages node).data scan.iid }

def rid (ih : IxIndexHandle) (scan : IxScan) : PoolM N Rid := ih.getRid scan.iid

/-- The loop over a scan: the `Rid`s from the present position to the end, unless that takes more turns. -/
def collect (ih : IxIndexHandle) : Nat → IxScan → PoolM N (Option (List Rid))
  | 0, _ => return none
  | turns + 1, scan =>
    if scan.isEnd then return some []
    else do
      let found ← rid ih scan
      let following ← next ih scan
      let rids ← collect ih turns following
      return rids.map (found :: ·)

/-- A scan from `leaf_begin` to `leaf_end`. -/
def traverse (ih : IxIndexHandle) (turns : Nat) : PoolM N (Option (List Rid)) := do
  let last ← ih.leafEnd
  collect ih turns ⟨ih.leafBegin, last⟩

end IxScan

/-- The page of a position. -/
def pageOf (ih : IxIndexHandle) (iid : Iid) : PageId := ⟨ih.fd, iid.pageNo⟩

/-- A slot that holds an entry of a leaf. -/
structure EntrySlot (hdr : IxFileHdr) (leaf : PageData) (slotNo : Int) : Prop where
  isLeaf : isLeafPage leaf = true
  below : slotNo < getSize leaf
  inside : RidInside hdr slotNo

namespace IxIndexHandle
variable {ih : IxIndexHandle} {pages : Set PageId} {s t : BufferPoolManager N} {pageNo : Int} {iid : Iid} {f : Fin N}
variable {leaf : PageData}

theorem fetchNode_page (run : ih.fetchNode pageNo s = .ok f t) : fetchPage ⟨ih.fd, pageNo⟩ s = .ok (some f) t := by
  unfold fetchNode at run
  obtain ⟨found, u, fetched, rest⟩ := bind_eq_ok.mp run
  cases found with
  | none => cases rest
  | some node =>
    cases rest
    exact fetched

theorem fetchNode_fetched (steady : Steady pages s) (member : ⟨ih.fd, pageNo⟩ ∈ pages)
    (run : ih.fetchNode pageNo s = .ok f t) : Fetched pages ⟨ih.fd, pageNo⟩ f s t ∧
      Holdable N intMax s.pinned s.pinsOn ⟨ih.fd, pageNo⟩ := by
  have fetched := fetchNode_page run
  exact ⟨steady.fetchPage member fetched, (steady.fetchPage_iff member).mp ⟨_, _, fetched⟩⟩

/-- The node shows what was seen of its page. -/
theorem fetchNode_returns (steady : Steady pages s) (member : ⟨ih.fd, pageNo⟩ ∈ pages)
    (shows : s.seen ⟨ih.fd, pageNo⟩ = leaf) (holdable : Holdable N intMax s.pinned s.pinsOn ⟨ih.fd, pageNo⟩) :
    ∃ f t, ih.fetchNode pageNo s = .ok f t ∧ Fetched pages ⟨ih.fd, pageNo⟩ f s t ∧
      (t.pages f).data = leaf ∧ (t.pages f).id = ⟨ih.fd, pageNo⟩ := by
  obtain ⟨f, t, run⟩ := (steady.fetchPage_iff member).mpr holdable
  have fetched := steady.fetchPage member run
  refine ⟨f, t, bind_ok run, fetched, ?_, (fetched.steady.noneLost.idOf _ f fetched.table).1⟩
  rw [← seen_some fetched.table, fetched.seen _ member, shows]

theorem getRid_returns (steady : Steady pages s) (member : pageOf ih iid ∈ pages)
    (shows : s.seen (pageOf ih iid) = leaf) (entry : EntrySlot ih.fileHdr leaf iid.slotNo)
    (holdable : Holdable N intMax s.pinned s.pinsOn (pageOf ih iid)) :
    ∃ u, ih.getRid iid s = .ok (IxNodeHandle.getRid ih.fileHdr leaf iid.slotNo) u ∧ Restored pages s u := by
  have below := entry.below
  obtain ⟨f, t, run, fetched, data, id⟩ := fetchNode_returns steady member shows holdable
  obtain ⟨u, released, table, restored⟩ := fetched.unpinPage (steady.pinsOn_nonneg _)
  have still : (u.pages f).data = leaf := (seen_some table).symm.trans ((restored.seen _ member).trans shows)
  refine ⟨u, ?_, restored⟩
  unfold getRid
  rw [bind_ok run, get_bind, data, if_neg (by omega), id]
  change (unpinPage ⟨ih.fd, iid.pageNo⟩ false >>= fun _ => _) t = _
  rw [bind_ok released, get_bind, if_neg (not_not.mpr entry.inside), still]
  rfl

/-- Without a frame for its page there is no `Rid`. -/
theorem getRid_holdable {rid : Rid} (steady : Steady pages s) (member : pageOf ih iid ∈ pages)
    (run : ih.getRid iid s = .ok rid t) : Holdable N intMax s.pinned s.pinsOn (pageOf ih iid) := by
  obtain ⟨f, u, fetched, _⟩ := bind_eq_ok.mp run
  exact (fetchNode_fetched steady member fetched).2

theorem leafEnd_returns (steady : Steady pages s) (member : ⟨ih.fd, ih.fileHdr.lastLeaf⟩ ∈ pages)
    (shows : s.seen ⟨ih.fd, ih.fileHdr.lastLeaf⟩ = leaf)
    (holdable : Holdable N intMax s.pinned s.pinsOn ⟨ih.fd, ih.fileHdr.lastLeaf⟩) :
    ∃ u, ih.leafEnd s = .ok ⟨ih.fileHdr.lastLeaf, getSize leaf⟩ u ∧ Restored pages s u := by
  obtain ⟨f, t, run, fetched, data, id⟩ := fetchNode_returns steady member shows holdable
  obtain ⟨u, released, _, restored⟩ := fetched.unpinPage (steady.pinsOn_nonneg _)
  refine ⟨u, ?_, restored⟩
  unfold leafEnd
  rw [bind_ok run, get_bind, data, id]
  exact bind_ok released

theorem leafEnd_holdable (steady : Steady pages s) (member : ⟨ih.fd, ih.fileHdr.lastLeaf⟩ ∈ pages)
    (run : ih.leafEnd s = .ok iid t) : Holdable N intMax s.pinned s.pinsOn ⟨ih.fd, ih.fileHdr.lastLeaf⟩ := by
  obtain ⟨f, u, fetched, _⟩ := bind_eq_ok.mp run
  exact (fetchNode_fetched steady member fetched).2

end IxIndexHandle

namespace IxScan
open IxIndexHandle
variable {ih : IxIndexHandle} {pages : Set PageId} {s t : BufferPoolManager N} {iid end_ : Iid} {leaf : PageData}

/-- A step to the next position leaves one more pin on the page. -/
theorem next_returns (steady : Steady pages s) (member : pageOf ih iid ∈ pages)
    (shows : s.seen (pageOf ih iid) = leaf) (entry : EntrySlot ih.fileHdr leaf iid.slotNo) (within : iid ≠ end_)
    (holdable : Holdable N intMax s.pinned s.pinsOn (pageOf ih iid)) :
    ∃ f u, next ih ⟨iid, end_⟩ s = .ok ⟨advance ih leaf iid, end_⟩ u ∧ Fetched pages (pageOf ih iid) f s u := by
  have below := entry.below
  obtain ⟨f, t, run, fetched, data, _⟩ := fetchNode_returns steady member shows holdable
  have notEnd : isEnd ⟨iid, end_⟩ = false := decide_eq_false within
  refine ⟨f, t, ?_, fetched⟩
  unfold next
  simp only [notEnd, Bool.false_eq_true, if_false]
  change (ih.fetchNode iid.pageNo >>= fun _ => _) s = _
  rw [bind_ok run, get_bind, data, entry.isLeaf]
  simp only [Bool.true_eq_false, if_false]
  rw [if_neg (by omega)]
  rfl

/-- The `Rid` at a position. -/
def ridOf (ih : IxIndexHandle) (look : PageId → PageData) (iid : Iid) : Rid :=
  IxNodeHandle.getRid ih.fileHdr (look (pageOf ih iid)) iid.slotNo

variable {look : PageId → PageData}

/-- One turn of the loop over a scan. -/
theorem collect_turn (steady : Steady pages s) (member : pageOf ih iid ∈ pages)
    (shows : s.seen (pageOf ih iid) = look (pageOf ih iid))
    (entry : EntrySlot ih.fileHdr (look (pageOf ih iid)) iid.slotNo) (within : iid ≠ end_)
    (holdable : Holdable N intMax s.pinned s.pinsOn (pageOf ih iid)) :
    ∃ u f, Fetched pages (pageOf ih iid) f s u ∧ ∀ turns, collect ih (turns + 1) ⟨iid, end_⟩ s =
      ((·.map (ridOf ih look iid :: ·)) <$> collect ih turns ⟨advance ih (look (pageOf ih iid)) iid, end_⟩) u := by
  have notEnd : isEnd ⟨iid, end_⟩ = false := decide_eq_false within
  obtain ⟨middle, read, restored⟩ := getRid_returns steady member shows entry holdable
  rw [← restored.pins, ← restored.pinned] at holdable
  rw [← restored.seen _ member] at shows
  obtain ⟨f, u, moved, fetched⟩ := next_returns restored.steady member shows entry within holdable
  refine ⟨u, f, restored.fetched fetched, fun turns => ?_⟩
  have found : rid ih ⟨iid, end_⟩ s = .ok (ridOf ih look iid) middle := read
  rw [collect, notEnd]
  change (rid ih ⟨iid, end_⟩ >>= fun _ => _) s = _
  rw [bind_ok found, bind_ok moved]
  rfl

/-- The positions a scan has before it, each the next one of that before, and its end. -/
structure Ahead (ih : IxIndexHandle) (pages : Set PageId) (look : PageId → PageData) (end_ : Iid)
    (later : List Iid) : Prop where
  member : ∀ iid ∈ later, pageOf ih iid ∈ pages
  entry : ∀ iid ∈ later, EntrySlot ih.fileHdr (look (pageOf ih iid)) iid.slotNo
  within : ∀ iid ∈ later, iid ≠ end_
  linked : (later ++ [end_]).IsChain fun a b => advance ih (look (pageOf ih a)) a = b

variable {later : List Iid}

theorem Ahead.tail (ahead : Ahead ih pages look end_ (iid :: later)) : Ahead ih pages look end_ later ∧
    (later ++ [end_]).head? = some (advance ih (look (pageOf ih iid)) iid) := by
  have linked := ahead.linked
  rw [List.cons_append, List.isChain_cons] at linked
  refine ⟨⟨?_, ?_, ?_, linked.2⟩, ?_⟩
  · exact fun a member => ahead.member a (List.mem_cons_of_mem _ member)
  · exact fun a member => ahead.entry a (List.mem_cons_of_mem _ member)
  · exact fun a member => ahead.within a (List.mem_cons_of_mem _ member)
  · cases first : (later ++ [end_]).head? with
    | none => simp at first
    | some a => rw [linked.1 a first]

theorem collect_atEnd (turns : Nat) : collect ih (turns + 1) ⟨end_, end_⟩ s = .ok (some []) s := by
  have ended : isEnd ⟨end_, end_⟩ = true := decide_eq_true rfl
  rw [collect, ended]
  rfl

/-- If every step finds a frame for its page, the loop ends with the `Rid`s of all positions. -/
theorem collect_returns (steady : Steady pages s) (same : ∀ p ∈ pages, s.seen p = look p)
    (ahead : Ahead ih pages look end_ later) (first : (later ++ [end_]).head? = some iid)
    (holdable : AllHoldable N intMax s.pinned s.pinsOn (later.map (pageOf ih))) :
    ∃ t, ∀ turns, later.length < turns → collect ih turns ⟨iid, end_⟩ s = .ok (some (later.map (ridOf ih look))) t := by
  induction later generalizing s iid with
  | nil =>
    cases first
    refine ⟨s, fun turns enough => ?_⟩
    obtain ⟨turns, rfl⟩ := Nat.exists_eq_succ_of_ne_zero (Nat.ne_of_gt enough)
    exact collect_atEnd turns
  | cons a later ih' =>
    cases first
    obtain ⟨now, rest⟩ := holdable
    have member := ahead.member a List.mem_cons_self
    obtain ⟨u, f, fetched, turn⟩ := collect_turn steady member (same _ member) (ahead.entry a List.mem_cons_self)
      (ahead.within a List.mem_cons_self) now
    obtain ⟨later', next⟩ := ahead.tail
    rw [← fetched.pinned, ← fetched.pins] at rest
    obtain ⟨t, collected⟩ := ih' fetched.steady (fun p member => (fetched.seen p member).trans (same p member)) later'
      next rest
    refine ⟨t, fun turns enough => ?_⟩
    rw [List.length_cons] at enough
    obtain ⟨turns, rfl⟩ := Nat.exists_eq_succ_of_ne_zero (by omega : turns ≠ 0)
    rw [turn]
    exact map_eq_ok.mpr ⟨_, collected turns (by omega), rfl⟩

/-- A loop that ends has found a frame for its page in every step. -/
theorem collect_holdable {turns : Nat} {rids : List Rid} (steady : Steady pages s)
    (same : ∀ p ∈ pages, s.seen p = look p) (ahead : Ahead ih pages look end_ later)
    (first : (later ++ [end_]).head? = some iid)
    (run : collect ih turns ⟨iid, end_⟩ s = .ok (some rids) t) :
    AllHoldable N intMax s.pinned s.pinsOn (later.map (pageOf ih)) := by
  induction later generalizing s iid turns rids with
  | nil => trivial
  | cons a later ih' =>
    cases first
    have member := ahead.member a List.mem_cons_self
    have notEnd : isEnd ⟨a, end_⟩ = false := decide_eq_false (ahead.within a List.mem_cons_self)
    cases turns with
    | zero => cases run
    | succ turns =>
      have now : Holdable N intMax s.pinned s.pinsOn (pageOf ih a) := by
        rw [collect, notEnd] at run
        obtain ⟨_, _, read, _⟩ := bind_eq_ok.mp run
        exact getRid_holdable steady member read
      obtain ⟨u, f, fetched, turn⟩ := collect_turn steady member (same _ member) (ahead.entry a List.mem_cons_self)
        (ahead.within a List.mem_cons_self) now
      obtain ⟨later', next⟩ := ahead.tail
      rw [turn] at run
      obtain ⟨found, run, some⟩ := map_eq_ok.mp run
      obtain ⟨rids, rfl, _⟩ := Option.map_eq_some_iff.mp some
      have rest := ih' fetched.steady (fun p member => (fetched.seen p member).trans (same p member)) later' next run
      rw [fetched.pinned, fetched.pins] at rest
      exact ⟨now, rest⟩

end IxScan

end Rmdb
