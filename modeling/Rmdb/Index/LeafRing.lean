import Rmdb.Index.LeafChain
import Rmdb.Kit.Ring
import Rmdb.Storage.Rewrite

namespace Rmdb
open BufferPoolManager

namespace IxNodeHandle

def getPrevLeaf (d : PageData) : Int := d.readInt 16

def setNextLeaf (d : PageData) (pageNo : Int) : PageData := d.writeInt 20 pageNo

def setPrevLeaf (d : PageData) (pageNo : Int) : PageData := d.writeInt 16 pageNo

section
variable {d : PageData} {pageNo : Int} {i : Nat}

theorem peek_setNextLeaf (outside : ¬(20 ≤ i ∧ i < 24)) : (setNextLeaf d pageNo).peek i = d.peek i :=
  Block.peek_poke_outside d _ (by omega)

theorem peek_setPrevLeaf (outside : ¬(16 ≤ i ∧ i < 20)) : (setPrevLeaf d pageNo).peek i = d.peek i :=
  Block.peek_poke_outside d _ (by omega)

@[simp] theorem getNextLeaf_setNextLeaf (range : IsInt pageNo) : getNextLeaf (setNextLeaf d pageNo) = pageNo :=
  Block.readInt_writeInt d range (by decide)

@[simp] theorem getPrevLeaf_setPrevLeaf (range : IsInt pageNo) : getPrevLeaf (setPrevLeaf d pageNo) = pageNo :=
  Block.readInt_writeInt d range (by decide)

@[simp] theorem getPrevLeaf_setNextLeaf (d : PageData) (pageNo : Int) :
    getPrevLeaf (setNextLeaf d pageNo) = getPrevLeaf d :=
  Block.readInt_congr fun _ _ _ => peek_setNextLeaf (by omega)

@[simp] theorem getNextLeaf_setPrevLeaf (d : PageData) (pageNo : Int) :
    getNextLeaf (setPrevLeaf d pageNo) = getNextLeaf d :=
  Block.readInt_congr fun _ _ _ => peek_setPrevLeaf (by omega)

end

end IxNodeHandle

open IxNodeHandle

namespace BufferPoolManager
variable {N : Nat}

/-- A client writes the bytes of a frame. -/
def writeBytes (f : Fin N) (data : PageData) : PoolM N Unit :=
  modify fun s => s.setPage f { s.pages f with data := data }

end BufferPoolManager

namespace IxIndexHandle
variable {N : Nat}

/-- A neighbour of the leaf gets a link from it and is released. -/
def relink (node leaf : Fin N) (set : PageData → PageData → PageData) : PoolM N Unit := do
  let s ← get
  writeBytes node (set (s.pages node).data (s.pages leaf).data)
  let _ ← unpinPage (s.pages node).id true

def eraseLeaf (ih : IxIndexHandle) (leaf : Fin N) : PoolM N Unit := do
  let s ← get
  if isLeafPage (s.pages leaf).data = false then throw .assertion
  let prev ← ih.fetchNode (getPrevLeaf (s.pages leaf).data)
  relink prev leaf fun prev leaf => setNextLeaf prev (getNextLeaf leaf)
  let s ← get
  let next ← ih.fetchNode (getNextLeaf (s.pages leaf).data)
  relink next leaf fun next leaf => setPrevLeaf next (getPrevLeaf leaf)

/-- The leaves of an index as a ring through the page of the leaf list. -/
structure LeafRing (ih : IxIndexHandle) (look : PageId → PageData) (leaves : List Int) : Prop where
  ring : Ring (fun l => getNextLeaf (look ⟨ih.fd, l⟩)) (fun l => getPrevLeaf (look ⟨ih.fd, l⟩)) IX_LEAF_HEADER_PAGE
    leaves
  isLeaf : ∀ l ∈ leaves, isLeafPage (look ⟨ih.fd, l⟩) = true

variable {s t : BufferPoolManager N} {ih : IxIndexHandle} {pages : Set PageId} {pageNo leaf : Int} {leaves : List Int}
variable {f g : Fin N}

/-- A caller's handle: the node has a frame with a pin. -/
structure Handle (ih : IxIndexHandle) (pageNo : Int) (f : Fin N) (s : BufferPoolManager N) : Prop where
  home : s.pageTable ⟨ih.fd, pageNo⟩ = some f
  held : 0 < s.pinsOn ⟨ih.fd, pageNo⟩

theorem Handle.data (handle : Handle ih pageNo f s) : (s.pages f).data = s.seen ⟨ih.fd, pageNo⟩ :=
  (seen_some handle.home).symm

/-- The leaf keeps its frame while a neighbour is fetched, written and released. -/
theorem relink_returns (writable : Writable pages s) (handle : Handle ih leaf g s) (other : leaf ≠ pageNo)
    (memberLeaf : ⟨ih.fd, leaf⟩ ∈ pages) (member : ⟨ih.fd, pageNo⟩ ∈ pages) (run : ih.fetchNode pageNo s = .ok f t)
    (set : PageData → PageData → PageData) : ∃ u, relink f g set t = .ok () u ∧ Handle ih leaf g u ∧
      Rewritten pages ⟨ih.fd, pageNo⟩ (set (s.seen ⟨ih.fd, pageNo⟩) (s.seen ⟨ih.fd, leaf⟩)) s u := by
  have steady := writable.steady
  have fetchedPage := fetchNode_page run
  have fetched := (fetchNode_fetched steady member run).1
  have apart : (⟨ih.fd, leaf⟩ : PageId) ≠ ⟨ih.fd, pageNo⟩ := fun same => other (PageId.mk.inj same).2
  have still := fetchPage_keeps steady fetchedPage apart handle.home handle.held
  have node : (t.pages f).data = s.seen ⟨ih.fd, pageNo⟩ := by
    rw [← seen_some fetched.table, fetched.seen _ member]
  have source : (t.pages g).data = s.seen ⟨ih.fd, leaf⟩ := by
    rw [← seen_some still, fetched.seen _ memberLeaf]
  have id : (t.pages f).id = ⟨ih.fd, pageNo⟩ := (fetched.steady.noneLost.idOf _ f fetched.table).1
  have accepts : ∀ q ∈ pages, t.diskManager.Accepts q := fun q memberQ =>
    fetchPage_accepts fetchedPage (writable.accepts q memberQ)
  obtain ⟨u, released, table, rewritten, _⟩ := unpinPage_rewrites (steady.pinsOn_nonneg _) (steady.pinsOn_small _)
    fetched accepts member (set (s.seen ⟨ih.fd, pageNo⟩) (s.seen ⟨ih.fd, leaf⟩))
  refine ⟨u, ?_, ⟨table ▸ still, rewritten.pins ▸ handle.held⟩, rewritten⟩
  unfold relink writeBytes
  rw [get_bind, node, source, id, modify_bind]
  exact bind_ok released

/-- What the pages show after `erase_leaf`. -/
def erased (ih : IxIndexHandle) (look : PageId → PageData) (leaf : Int) : PageId → PageData :=
  let prev := getPrevLeaf (look ⟨ih.fd, leaf⟩)
  let next := getNextLeaf (look ⟨ih.fd, leaf⟩)
  let linked := Function.update look ⟨ih.fd, prev⟩ (setNextLeaf (look ⟨ih.fd, prev⟩) next)
  Function.update linked ⟨ih.fd, next⟩ (setPrevLeaf (linked ⟨ih.fd, next⟩) prev)

section
variable {look look' : PageId → PageData} {q : PageId} {i : Nat}

/-- Only the link of each neighbour to the leaf changes. -/
theorem erased_bytes (changed : (erased ih look leaf q).peek i ≠ (look q).peek i) :
    (q = ⟨ih.fd, getPrevLeaf (look ⟨ih.fd, leaf⟩)⟩ ∧ 20 ≤ i ∧ i < 24) ∨
      (q = ⟨ih.fd, getNextLeaf (look ⟨ih.fd, leaf⟩)⟩ ∧ 16 ≤ i ∧ i < 20) := by
  by_contra outside
  obtain ⟨notNext, notPrev⟩ := not_or.mp outside
  refine changed ?_
  unfold erased
  simp only [Function.update_apply]
  split_ifs with atNext same atPrev
  · rw [peek_setPrevLeaf fun inside => notPrev ⟨atNext, inside⟩,
      peek_setNextLeaf fun inside => notNext ⟨atNext.trans same, inside⟩, ← same, ← atNext]
  · rw [peek_setPrevLeaf fun inside => notPrev ⟨atNext, inside⟩, ← atNext]
  · rw [peek_setNextLeaf fun inside => notNext ⟨atPrev, inside⟩, ← atPrev]
  · rfl

theorem isLeafPage_erased (ih : IxIndexHandle) (look : PageId → PageData) (leaf : Int) (q : PageId) :
    isLeafPage (erased ih look leaf q) = isLeafPage (look q) := by
  have same : (erased ih look leaf q).peek 12 = (look q).peek 12 := by
    by_contra changed
    rcases erased_bytes changed with ⟨_, inside⟩ | ⟨_, inside⟩ <;> omega
  unfold isLeafPage
  rw [same]

theorem getNextLeaf_erased (ih : IxIndexHandle) (look : PageId → PageData) (leaf l : Int) :
    getNextLeaf (erased ih look leaf ⟨ih.fd, l⟩) = Function.update (fun l => getNextLeaf (look ⟨ih.fd, l⟩))
      (getPrevLeaf (look ⟨ih.fd, leaf⟩)) (getNextLeaf (look ⟨ih.fd, leaf⟩)) l := by
  have range : IsInt (getNextLeaf (look ⟨ih.fd, leaf⟩)) := Block.isInt_readInt _ _
  unfold erased
  simp only [Function.update_apply, PageId.mk.injEq, true_and]
  split_ifs <;> simp_all

theorem getPrevLeaf_erased (ih : IxIndexHandle) (look : PageId → PageData) (leaf l : Int) :
    getPrevLeaf (erased ih look leaf ⟨ih.fd, l⟩) = Function.update (fun l => getPrevLeaf (look ⟨ih.fd, l⟩))
      (getNextLeaf (look ⟨ih.fd, leaf⟩)) (getPrevLeaf (look ⟨ih.fd, leaf⟩)) l := by
  have range : IsInt (getPrevLeaf (look ⟨ih.fd, leaf⟩)) := Block.isInt_readInt _ _
  unfold erased
  simp only [Function.update_apply, PageId.mk.injEq, true_and]
  split_ifs <;> simp_all

theorem LeafRing.congr (chain : LeafRing ih look leaves)
    (same : ∀ l ∈ IX_LEAF_HEADER_PAGE :: leaves, look' ⟨ih.fd, l⟩ = look ⟨ih.fd, l⟩) : LeafRing ih look' leaves where
  ring := chain.ring.congr (fun l inside => congrArg getNextLeaf (same l inside))
    fun l inside => congrArg getPrevLeaf (same l inside)
  isLeaf l member := by
    rw [same l (List.mem_cons_of_mem _ member)]
    exact chain.isLeaf l member

/-- The neighbours of a leaf of the ring are linked to each other, also where they are one page. -/
theorem LeafRing.erase (chain : LeafRing ih look leaves) (member : leaf ∈ leaves) :
    LeafRing ih (erased ih look leaf) (leaves.erase leaf) where
  ring := (chain.ring.erase member).congr (fun l _ => getNextLeaf_erased ih look leaf l)
    fun l _ => getPrevLeaf_erased ih look leaf l
  isLeaf l rest := by
    rw [isLeafPage_erased]
    exact chain.isLeaf l (List.mem_of_mem_erase rest)

end

section
variable (writable : Writable pages s) (chain : LeafRing ih s.seen leaves)
  (members : ∀ l ∈ IX_LEAF_HEADER_PAGE :: leaves, ⟨ih.fd, l⟩ ∈ pages) (member : leaf ∈ leaves)
  (handle : Handle ih leaf g s)

include chain member handle in
theorem eraseLeaf_start :
    ∃ rest, ih.eraseLeaf g s = (ih.fetchNode (getPrevLeaf (s.seen ⟨ih.fd, leaf⟩)) >>= rest) s := by
  unfold eraseLeaf
  rw [get_bind, handle.data, chain.isLeaf leaf member]
  exact ⟨_, rfl⟩

include writable chain members member handle

/-- The second neighbour is looked for with the pins of the beginning, and the leaf is as it was. -/
theorem eraseLeaf_half (run : ih.fetchNode (getPrevLeaf (s.seen ⟨ih.fd, leaf⟩)) s = .ok f t) :
    ∃ u, Handle ih leaf g u ∧ u.seen ⟨ih.fd, leaf⟩ = s.seen ⟨ih.fd, leaf⟩ ∧
      Rewritten pages ⟨ih.fd, getPrevLeaf (s.seen ⟨ih.fd, leaf⟩)⟩
        (setNextLeaf (s.seen ⟨ih.fd, getPrevLeaf (s.seen ⟨ih.fd, leaf⟩)⟩) (getNextLeaf (s.seen ⟨ih.fd, leaf⟩))) s u ∧
      ih.eraseLeaf g s = (ih.fetchNode (getNextLeaf (s.seen ⟨ih.fd, leaf⟩)) >>= fun next =>
        relink next g fun next leaf => setPrevLeaf next (getPrevLeaf leaf)) u := by
  have atLeaf := members leaf (List.mem_cons_of_mem _ member)
  have other : leaf ≠ getPrevLeaf (s.seen ⟨ih.fd, leaf⟩) := (chain.ring.prev_ne member).symm
  obtain ⟨u, linked, handle', rewritten⟩ := relink_returns writable handle other atLeaf
    (members _ (chain.ring.prev_spec member).1) run fun prev leaf => setNextLeaf prev (getNextLeaf leaf)
  have shows : u.seen ⟨ih.fd, leaf⟩ = s.seen ⟨ih.fd, leaf⟩ := by
    rw [rewritten.seen _ atLeaf, Function.update_of_ne fun same => other (PageId.mk.inj same).2]
  refine ⟨u, handle', shows, rewritten, ?_⟩
  unfold eraseLeaf
  rw [get_bind, handle.data, chain.isLeaf leaf member]
  simp only [Bool.true_eq_false, if_false]
  rw [bind_ok run, bind_ok linked, get_bind, handle'.data, shows]

theorem eraseLeaf_holdable (run : ih.eraseLeaf g s = .ok () t) :
    Holdable N intMax s.pinned s.pinsOn ⟨ih.fd, getPrevLeaf (s.seen ⟨ih.fd, leaf⟩)⟩ ∧
      Holdable N intMax s.pinned s.pinsOn ⟨ih.fd, getNextLeaf (s.seen ⟨ih.fd, leaf⟩)⟩ := by
  obtain ⟨rest, start⟩ := eraseLeaf_start chain member handle
  rw [start] at run
  obtain ⟨f, v, first, _⟩ := bind_eq_ok.mp run
  obtain ⟨u, _, _, rewritten, later⟩ := eraseLeaf_half writable chain members member handle first
  rw [← start, later] at run
  obtain ⟨h, w, second, _⟩ := bind_eq_ok.mp run
  have prev := (fetchNode_fetched writable.steady (members _ (chain.ring.prev_spec member).1) first).2
  have next := (fetchNode_fetched rewritten.writable.steady
    (members _ (chain.ring.next_mem (List.mem_cons_of_mem _ member))) second).2
  rw [rewritten.pinned, rewritten.pins] at next
  exact ⟨prev, next⟩

theorem eraseLeaf_returns (prev : Holdable N intMax s.pinned s.pinsOn ⟨ih.fd, getPrevLeaf (s.seen ⟨ih.fd, leaf⟩)⟩)
    (next : Holdable N intMax s.pinned s.pinsOn ⟨ih.fd, getNextLeaf (s.seen ⟨ih.fd, leaf⟩)⟩) :
    ∃ t, ih.eraseLeaf g s = .ok () t ∧ Writable pages t ∧ ∀ q ∈ pages, t.seen q = erased ih s.seen leaf q := by
  have atLeaf := members leaf (List.mem_cons_of_mem _ member)
  have atPrev := members _ (chain.ring.prev_spec member).1
  have atNext := members _ (chain.ring.next_mem (List.mem_cons_of_mem _ member))
  obtain ⟨f, t, first, _⟩ := fetchNode_returns writable.steady atPrev rfl prev
  obtain ⟨u, handle', shows, rewritten, later⟩ := eraseLeaf_half writable chain members member handle first
  rw [← rewritten.pinned, ← rewritten.pins] at next
  obtain ⟨h, v, second, _⟩ := fetchNode_returns rewritten.writable.steady atNext rfl next
  have other : leaf ≠ getNextLeaf (s.seen ⟨ih.fd, leaf⟩) := (chain.ring.next_ne member).symm
  obtain ⟨w, linked, _, rewritten'⟩ := relink_returns rewritten.writable handle' other atLeaf atNext second
    fun next leaf => setPrevLeaf next (getPrevLeaf leaf)
  refine ⟨w, ?_, rewritten'.writable, fun q inside => ?_⟩
  · rw [later, bind_ok second]
    exact linked
  · rw [rewritten'.seen q inside, rewritten.seen _ atNext, shows]
    unfold erased
    by_cases same : q = ⟨ih.fd, getNextLeaf (s.seen ⟨ih.fd, leaf⟩)⟩
    · rw [same, Function.update_self, Function.update_self]
    · rw [Function.update_of_ne same, Function.update_of_ne same, rewritten.seen q inside]

/-- `erase_leaf` returns exactly if both neighbours find a frame. Then the ring visits the other leaves in both
directions, and no other field of any page has changed. -/
theorem eraseLeaf_keeps_ring : ((∃ t, ih.eraseLeaf g s = .ok () t) ↔
      Holdable N intMax s.pinned s.pinsOn ⟨ih.fd, getPrevLeaf (s.seen ⟨ih.fd, leaf⟩)⟩ ∧
        Holdable N intMax s.pinned s.pinsOn ⟨ih.fd, getNextLeaf (s.seen ⟨ih.fd, leaf⟩)⟩) ∧
    ∀ t, ih.eraseLeaf g s = .ok () t →
      LeafRing ih t.seen (leaves.erase leaf) ∧
      Visits (fun l => getNextLeaf (t.seen ⟨ih.fd, l⟩)) IX_LEAF_HEADER_PAGE (leaves.erase leaf) IX_LEAF_HEADER_PAGE ∧
      Visits (fun l => getPrevLeaf (t.seen ⟨ih.fd, l⟩)) IX_LEAF_HEADER_PAGE (leaves.erase leaf).reverse
        IX_LEAF_HEADER_PAGE ∧
      ∀ q ∈ pages, ∀ i, (t.seen q).peek i ≠ (s.seen q).peek i →
        (q = ⟨ih.fd, getPrevLeaf (s.seen ⟨ih.fd, leaf⟩)⟩ ∧ 20 ≤ i ∧ i < 24) ∨
          (q = ⟨ih.fd, getNextLeaf (s.seen ⟨ih.fd, leaf⟩)⟩ ∧ 16 ≤ i ∧ i < 20) := by
  constructor
  · constructor
    · rintro ⟨t, run⟩
      exact eraseLeaf_holdable writable chain members member handle run
    · rintro ⟨prev, next⟩
      obtain ⟨t, run, _⟩ := eraseLeaf_returns writable chain members member handle prev next
      exact ⟨t, run⟩
  · intro t run
    obtain ⟨prev, next⟩ := eraseLeaf_holdable writable chain members member handle run
    obtain ⟨t', run', _, shows⟩ := eraseLeaf_returns writable chain members member handle prev next
    cases run.symm.trans run'
    have kept : LeafRing ih t.seen (leaves.erase leaf) := by
      refine (chain.erase member).congr fun l inside => shows _ (members l ?_)
      exact List.cons_subset_cons _ List.erase_subset inside
    refine ⟨kept, kept.ring.forward, kept.ring.backward, fun q inside i changed => ?_⟩
    rw [shows q inside] at changed
    exact erased_bytes changed

end

/-- The pages of a new index: the page of the leaf list and the only leaf. -/
def oneLeaf : File where
  len := 12288
  byte i :=
    if i / 4096 = 1 then leafPage 2 2 (i % 4096) else if i / 4096 = 2 then leafPage 1 1 (i % 4096) else 0
  past_end i after := by rw [if_neg (by omega), if_neg (by omega)]

def oneLeafDisk : DiskManager := { oneFile with os := { oneFile.os with file := fun _ => oneLeaf } }

def oneLeafHandle : IxIndexHandle := ⟨3, IxManager.newFileHdr IxScan.oneColumn⟩

def oneLeafPool : BufferPoolManager 2 := .new oneLeafDisk fun _ => 0

/-- The page of the leaf list and the leaf. -/
def oneLeafPages : Set PageId := {p | p.fd = 3 ∧ p.pageNo ∈ [(1 : Int), 2]}

theorem oneLeaf_ring : LeafRing oneLeafHandle oneLeafDisk.diskPage [2] where
  ring := by
    constructor
    case nodup => decide
    case forward =>
      refine visits_cons.mpr ⟨?_, visits_nil.mpr ?_⟩ <;> decide +kernel
    case back => decide +kernel
  isLeaf := by decide +kernel

theorem oneLeaf_writable : Writable oneLeafPages oneLeafPool := by
  have distinct : oneLeafDisk.Distinct := World.oneFile_distinct
  have inside : ∀ l ∈ [(1 : Int), 2], 0 ≤ l ∧ l.toNat * PAGE_SIZE + PAGE_SIZE ≤ 12288 := by decide
  constructor
  case steady =>
    refine Steady.new (fun _ => le_rfl) distinct (fun p member => ?_) _
    obtain ⟨fd, pageNo⟩ := p
    obtain ⟨rfl, atPage⟩ := member
    exact ⟨oneLeaf, rfl, inside pageNo atPage⟩
  case accepts =>
    rintro ⟨fd, pageNo⟩ ⟨rfl, atPage⟩
    exact ⟨⟨0, rfl⟩, (inside pageNo atPage).1, le_rfl⟩

/-- The only leaf leaves the page of the leaf list linked to itself. -/
theorem eraseLeaf_keeps_ring_single : ∃ (s t : BufferPoolManager 2) (g : Fin 2), LeafRing oneLeafHandle s.seen [2] ∧
    oneLeafHandle.eraseLeaf g s = .ok () t ∧ LeafRing oneLeafHandle t.seen [] := by
  have writable := oneLeaf_writable
  have members : ∀ l ∈ [IX_LEAF_HEADER_PAGE, 2], (⟨oneLeafHandle.fd, l⟩ : PageId) ∈ oneLeafPages :=
    fun l inside => ⟨rfl, inside⟩
  have room : Holdable 2 intMax oneLeafPool.pinned oneLeafPool.pinsOn ⟨oneLeafHandle.fd, 2⟩ := by
    unfold Holdable
    decide +kernel
  have unheld : ∀ p, oneLeafPool.pinsOn p = 0 := fun p => pinsOn_none rfl
  have none : oneLeafPool.pinned = 0 := by decide +kernel
  obtain ⟨g, s, run, fetched, _⟩ := fetchNode_returns writable.steady (members 2 (by decide)) rfl room
  have shows : ∀ l ∈ [IX_LEAF_HEADER_PAGE, 2],
      s.seen ⟨oneLeafHandle.fd, l⟩ = oneLeafDisk.diskPage ⟨oneLeafHandle.fd, l⟩ :=
    fun l inside => fetched.seen _ (members l inside)
  have ring : LeafRing oneLeafHandle s.seen [2] := oneLeaf_ring.congr shows
  have pins : s.pinsOn = Function.update oneLeafPool.pinsOn ⟨oneLeafHandle.fd, 2⟩ 1 := by rw [fetched.pins, unheld]; rfl
  have handle : Handle oneLeafHandle 2 g s := ⟨fetched.table, by rw [pins, Function.update_self]; decide⟩
  have accepts : ∀ q ∈ oneLeafPages, s.diskManager.Accepts q := fun q inside =>
    fetchPage_accepts (fetchNode_page run) (writable.accepts q inside)
  have prev : getPrevLeaf (s.seen ⟨oneLeafHandle.fd, 2⟩) = 1 := by
    rw [shows 2 (by decide)]
    decide +kernel
  have next : getNextLeaf (s.seen ⟨oneLeafHandle.fd, 2⟩) = 1 := by
    rw [shows 2 (by decide)]
    decide +kernel
  have free : Holdable 2 intMax s.pinned s.pinsOn ⟨oneLeafHandle.fd, 1⟩ := by
    have other : (⟨oneLeafHandle.fd, 1⟩ : PageId) ≠ ⟨oneLeafHandle.fd, 2⟩ := by decide
    unfold Holdable
    rw [pins, Function.update_of_ne other, unheld, fetched.pinned, placesAfter, unheld, none]
    decide
  have keeps := eraseLeaf_keeps_ring ⟨fetched.steady, accepts⟩ ring members List.mem_cons_self handle
  rw [prev, next] at keeps
  obtain ⟨t, erased⟩ := keeps.1.mpr ⟨free, free⟩
  exact ⟨s, t, g, ring, erased, (keeps.2 t erased).1⟩

end IxIndexHandle

end Rmdb
