import Rmdb.Index.IxManager
import Rmdb.Record.Isolation
import Rmdb.Storage.Faults

namespace Rmdb
open BufferPoolManager IxManager
variable {N : Nat}

/-! The pages of one index file. Nothing but the counter of its descriptor says which page
number comes next, and the counter belongs to the process, not to the file. -/

/-- An index file in a process: its handle, if it is open, and the page numbers in use, which are
those of `create_index` and all that `create_node` has returned. -/
structure IxWorld (N : Nat) where
  pool : BufferPoolManager N
  handle : Option IxIndexHandle
  used : List Int

inductive IxCall
  | openIndex (fd : Int)
  | createNode
  | closeIndex

namespace IxWorld

/-- The calls on the index that `allowed` admits, returning or throwing, and what happens around
them. Other files leave the counter of an open descriptor alone; a later process starts with
all counters zero. An index that is open is not opened again, since `open_file` refuses it. -/
inductive Step (filename : String) (cols : List ColMeta)
    (allowed : IxWorld N → IxCall → Prop) : IxWorld N → IxWorld N → Prop
  | opened {w : IxWorld N} {fd : Int} {h : IxIndexHandle} {t : BufferPoolManager N} : w.handle = none →
      allowed w (.openIndex fd) → openIndex filename cols fd w.pool = .ok h t →
      Step filename cols allowed w ⟨t, some h, w.used⟩
  | notOpened {w : IxWorld N} {fd : Int} {e : Error} {t : BufferPoolManager N} : w.handle = none →
      allowed w (.openIndex fd) → openIndex filename cols fd w.pool = .error e t →
      Step filename cols allowed w { w with pool := t }
  | created {w : IxWorld N} {h h' : IxIndexHandle} {p : PageId} {f : Fin N} {t : BufferPoolManager N} :
      w.handle = some h →
      allowed w .createNode → IxIndexHandle.createNode (h, w.pool) = .ok (p, f) (h', t) →
      Step filename cols allowed w ⟨t, some h', w.used ++ [p.pageNo]⟩
  | notCreated {w : IxWorld N} {h h' : IxIndexHandle} {e : Error} {t : BufferPoolManager N} : w.handle = some h →
      allowed w .createNode → IxIndexHandle.createNode (h, w.pool) = .error e (h', t) →
      Step filename cols allowed w ⟨t, some h', w.used⟩
  | closed {w : IxWorld N} {h : IxIndexHandle} {t : BufferPoolManager N} : w.handle = some h →
      allowed w .closeIndex → closeIndex h w.pool = .ok () t → Step filename cols allowed w ⟨t, none, w.used⟩
  | notClosed {w : IxWorld N} {h : IxIndexHandle} {e : Error} {t : BufferPoolManager N} : w.handle = some h →
      allowed w .closeIndex → closeIndex h w.pool = .error e t → Step filename cols allowed w { w with pool := t }
  | other {w : IxWorld N} {t : BufferPoolManager N} : (∀ h, w.handle = some h → t.counter h.fd = w.pool.counter h.fd) →
      Step filename cols allowed w { w with pool := t }
  | restart {w : IxWorld N} {t : BufferPoolManager N} : (∀ fd, t.counter fd = 0) →
      Step filename cols allowed w ⟨t, none, w.used⟩

/-- From `create_index` on. -/
inductive Reach (filename : String) (cols : List ColMeta) (allowed : IxWorld N → IxCall → Prop) : IxWorld N → Prop
  | created {s t : BufferPoolManager N} {made fd : Int} : createIndex filename cols made fd s = .ok () t →
      Reach filename cols allowed ⟨t, none, [IX_FILE_HDR_PAGE, IX_LEAF_HEADER_PAGE, IX_INIT_ROOT_PAGE]⟩
  | step {w v : IxWorld N} : Reach filename cols allowed w → Step filename cols allowed w v →
      Reach filename cols allowed v

/-- The counter of the descriptor is not behind the pages in use when the index is opened, and page
numbers have not run out when a node is created. -/
def Continues (w : IxWorld N) : IxCall → Prop
  | .openIndex fd => ∀ k ∈ w.used, k ≤ w.pool.counter fd
  | .createNode => ∀ h, w.handle = some h → 0 ≤ w.pool.counter h.fd ∧ w.pool.counter h.fd ≤ intMax
  | .closeIndex => True

end IxWorld

section
variable {s t : BufferPoolManager N} {fd : Int} {h h' : IxIndexHandle}

theorem newPage_counters {r : Option (PageId × Fin N)} (run : newPage fd s = .ok r t) :
    (r = none ∧ t = s) ∨ ∃ f, r = some (⟨fd, s.counter fd⟩, f) ∧ t.counter fd = wrapInt (s.counter fd + 1) := by
  rcases newPage_cases run with ⟨none, same, _⟩ | ⟨f, rest, repl, dm, dm', pageNo, found, _, wrote, allocated, rfl⟩
  · exact Or.inl ⟨none, same⟩
  · obtain ⟨rfl, rfl⟩ := allocatePage_ok allocated
    rw [wrote.counters] at found ⊢
    exact Or.inr ⟨f, found, Function.update_self ..⟩

theorem newPage_fails_counters {e : Error} (run : newPage fd s = .error e t) : t.counter = s.counter := by
  obtain ⟨f, rest, r, dm, _, ⟨_, wrote, rfl⟩ | ⟨failed, rfl⟩⟩ := newPage_throws run
  · exact wrote.counters
  · exact failed.counters

/-- A call that leaves all page counters alone, whether it returns or throws. -/
def KeepsCounters {α : Type} (x : PoolM N α) : Prop := ∀ s, (stateAfter x s).counter = s.counter

namespace KeepsCounters
variable {α β : Type}

theorem bind {x : PoolM N α} {f : α → PoolM N β} (first : KeepsCounters x) (later : ∀ a, KeepsCounters (f a)) :
    KeepsCounters (x >>= f) := by
  intro s
  have kept := first s
  unfold stateAfter at kept ⊢
  cases run : x s with
  | ok a u =>
    rw [run] at kept
    rw [bind_ok run]
    exact (later a u).trans kept
  | error e u =>
    rw [run] at kept
    rw [bind_error run]
    exact kept

theorem writePage (fd pageNo : Int) (src : Nat → UInt8) (n : Nat) :
    KeepsCounters (PageStore.writePage fd pageNo src n : PoolM N Unit) := by
  intro s
  have kept := DiskManager.writePage_fd2pageno s.diskManager fd pageNo src n
  unfold stateAfter
  simp only [PageStore.writePage]
  split
  · rename_i run
    split at run
    · rename_i write
      cases run
      rwa [write] at kept
    · cases run
  · rename_i run
    split at run
    · cases run
    · rename_i write
      cases run
      rwa [write] at kept

theorem writeFrame (p : PageId) (f : Fin N) : KeepsCounters (BufferPoolManager.writeFrame p f) := by
  intro s
  unfold stateAfter
  cases run : BufferPoolManager.writeFrame p f s with
  | ok u t =>
    obtain ⟨dm, write, rfl⟩ := writeFrame_ok run
    exact writePage_counters write
  | error e t =>
    obtain ⟨dm, write, rfl⟩ := writeFrame_fails run
    exact writePage_counters write

theorem flushFrames (fd : Int) (list : List (Fin N)) : KeepsCounters (BufferPoolManager.flushFrames fd list) := by
  induction list with
  | nil => exact fun _ => rfl
  | cons f rest ih =>
    refine bind (fun s => ?_) fun _ => ih
    by_cases mine : (s.pages f).id.fd = fd ∧ (s.pages f).id.pageNo ≠ INVALID_PAGE_ID
    · have same : stateAfter (flushFrame fd f) s = stateAfter (BufferPoolManager.writeFrame (s.pages f).id f) s := by
        simp only [stateAfter, flushFrame, if_pos mine]
      rw [same]
      exact writeFrame _ f s
    · simp only [stateAfter, flushFrame, if_neg mine]

theorem closeFile (fd : Int) : KeepsCounters (PageStore.closeFile fd : PoolM N Unit) := by
  intro s
  unfold stateAfter
  simp only [PageStore.closeFile]
  cases run : s.diskManager.closeFile fd with
  | error e => rfl
  | ok dm =>
    obtain ⟨_, _, _, _, rfl⟩ := DiskManager.closeFile_ok run
    rfl

theorem closeIndex (ih : IxIndexHandle) : KeepsCounters (IxManager.closeIndex ih : PoolM N Unit) := by
  unfold IxManager.closeIndex
  refine bind ?_ fun data => ?_
  · cases ih.fileHdr.image <;> exact fun _ => rfl
  · exact bind (writePage _ _ _ _) fun _ => bind (flushFrames _ _) fun _ => closeFile _

end KeepsCounters

theorem openFile_counters {path : String} {out : Int} (run : (PageStore.openFile path fd : PoolM N Int) s = .ok out t) :
    out = fd ∧ t.counter = s.counter := by
  simp only [PageStore.openFile] at run
  split at run
  · rename_i opened
    cases run
    obtain ⟨_, _, _, _, _, rfl, rfl⟩ := DiskManager.openFile_ok opened
    exact ⟨rfl, rfl⟩
  · cases run

theorem readPage_same {pageNo : Int} {n : Nat} {buf : Nat → UInt8}
    (run : (PageStore.readPage fd pageNo n : PoolM N (Nat → UInt8)) s = .ok buf t) : t = s := by
  simp only [PageStore.readPage] at run
  split at run
  · cases run
    rfl
  · cases run

theorem ensure_ok {α : Type} {x : Except Error α} {a : α} (run : (ensure x : PoolM N α) s = .ok a t) :
    x = .ok a ∧ t = s := by
  cases x with
  | error e => cases run
  | ok b =>
    cases run
    exact ⟨rfl, rfl⟩

/-- The constructor moves the counter on by one, wherever it stands. -/
theorem openIndex_ok {filename : String} {cols : List ColMeta} (run : openIndex filename cols fd s = .ok h t) :
    h.fd = fd ∧ t.counter fd = s.counter fd + 1 := by
  obtain ⟨opened, u, first, made⟩ := bind_eq_ok.mp run
  obtain ⟨rfl, counters⟩ := openFile_counters first
  unfold IxIndexHandle.new at made
  obtain ⟨_, _, read, made⟩ := bind_eq_ok.mp made
  cases readPage_same read
  obtain ⟨_, _, read, made⟩ := bind_eq_ok.mp made
  cases readPage_same read
  obtain ⟨hdr, _, parsed, made⟩ := bind_eq_ok.mp made
  cases (ensure_ok parsed).2
  rw [get_bind] at made
  simp only at made
  split at made
  · cases made
  · cases made
    refine ⟨rfl, ?_⟩
    rw [← counters]
    exact Function.update_self ..

theorem createNode_ok {p : PageId} {f : Fin N} (run : IxIndexHandle.createNode (h, s) = .ok (p, f) (h', t)) :
    h'.fd = h.fd ∧ p.pageNo = s.counter h.fd ∧ t.counter h.fd = wrapInt (s.counter h.fd + 1) := by
  unfold IxIndexHandle.createNode at run
  simp only at run
  split at run
  · cases run
  · split at run
    · rename_i node made
      cases run
      rcases newPage_counters made with ⟨none, _⟩ | ⟨g, found, counter⟩
      · cases none
      · cases found
        exact ⟨rfl, rfl, counter⟩
    · cases run
    · cases run

theorem createNode_fails {e : Error} (run : IxIndexHandle.createNode (h, s) = .error e (h', t)) :
    h'.fd = h.fd ∧ t.counter h.fd = s.counter h.fd := by
  unfold IxIndexHandle.createNode at run
  simp only at run
  split at run
  · cases run
    exact ⟨rfl, rfl⟩
  · split at run
    · cases run
    · rename_i refused
      cases run
      rcases newPage_counters refused with ⟨_, rfl⟩ | ⟨_, absurd, _⟩
      · exact ⟨rfl, rfl⟩
      · cases absurd
    · rename_i failed
      cases run
      exact ⟨rfl, congrFun (newPage_fails_counters failed) _⟩

end

namespace IxWorld
variable {filename : String} {cols : List ColMeta} {w v : IxWorld N}

/-- No page number is in use twice, and the counter of an open index is ahead of all of them until it wraps. -/
structure Ahead (w : IxWorld N) : Prop where
  nodup : w.used.Nodup
  ahead : ∀ h, w.handle = some h → 0 ≤ w.pool.counter h.fd → ∀ k ∈ w.used, k < w.pool.counter h.fd

namespace Ahead

theorem of_same {t : BufferPoolManager N} {h h' : IxIndexHandle} (ahead : Ahead w) (isOpen : w.handle = some h)
    (same : h'.fd = h.fd)
    (counter : t.counter h.fd = w.pool.counter h.fd) : Ahead ⟨t, some h', w.used⟩ := by
  refine ⟨ahead.nodup, fun _ found => ?_⟩
  cases found
  rw [same, counter]
  exact ahead.ahead h isOpen

theorem of_closed {t : BufferPoolManager N} (ahead : Ahead w) : Ahead ⟨t, none, w.used⟩ :=
  ⟨ahead.nodup, fun _ found => by cases found⟩

theorem created {t : BufferPoolManager N} {h h' : IxIndexHandle} {p : PageId} {f : Fin N} (ahead : Ahead w)
    (isOpen : w.handle = some h) (continues : Continues w .createNode)
    (run : IxIndexHandle.createNode (h, w.pool) = .ok (p, f) (h', t)) : Ahead ⟨t, some h', w.used ++ [p.pageNo]⟩ := by
  obtain ⟨same, number, counter⟩ := createNode_ok run
  obtain ⟨nonneg, small⟩ := continues h isOpen
  have below := ahead.ahead h isOpen nonneg
  constructor
  case nodup =>
    refine List.nodup_append.mpr ⟨ahead.nodup, List.nodup_singleton _, ?_⟩
    rintro k member _ last rfl
    have := below k member
    rw [List.mem_singleton.mp last, number] at this
    exact absurd this (lt_irrefl _)
  case ahead =>
    intro _ found positive k member
    cases found
    simp only [same, counter] at positive ⊢
    have next : wrapInt (w.pool.counter h.fd + 1) = w.pool.counter h.fd + 1 := by
      unfold intMax at small
      unfold wrapInt at positive ⊢
      omega
    rw [next]
    rcases List.mem_append.mp member with old | last
    · have := below k old
      omega
    · rw [List.mem_singleton.mp last, number]
      omega

theorem step (ahead : Ahead w) (step : Step filename cols Continues w v) : Ahead v := by
  cases step with
  | opened _ continues run =>
    obtain ⟨rfl, counter⟩ := openIndex_ok run
    refine ⟨ahead.nodup, fun _ found _ k member => ?_⟩
    cases found
    have := continues k member
    simp only [counter]
    omega
  | notOpened closed _ _ =>
    refine ⟨ahead.nodup, fun _ found => ?_⟩
    rw [closed] at found
    cases found
  | created isOpen continues run => exact ahead.created isOpen continues run
  | notCreated isOpen _ run =>
    obtain ⟨same, counter⟩ := createNode_fails run
    exact ahead.of_same isOpen same counter
  | closed => exact ahead.of_closed
  | @notClosed h e t isOpen _ run =>
    have kept := KeepsCounters.closeIndex h w.pool
    unfold stateAfter at kept
    rw [run] at kept
    rw [isOpen]
    exact ahead.of_same isOpen rfl (congrFun kept _)
  | other counters =>
    refine ⟨ahead.nodup, fun h isOpen => ?_⟩
    rw [counters h isOpen]
    exact ahead.ahead h isOpen
  | restart => exact ahead.of_closed

end Ahead

theorem Reach.ahead (reach : Reach filename cols Continues w) : Ahead w := by
  induction reach with
  | created =>
    refine ⟨?_, fun _ found => by cases found⟩
    simp [IX_FILE_HDR_PAGE, IX_LEAF_HEADER_PAGE, IX_INIT_ROOT_PAGE]
  | step _ step ih => exact ih.step step

/-- As long as every opening finds a counter that is not behind the pages in use, `create_node` returns only page
numbers that were not in use. -/
theorem page_number_unused (reach : Reach filename cols Continues w) : w.used.Nodup ∧
    ∀ h h' p f t, w.handle = some h → Continues w .createNode →
      IxIndexHandle.createNode (h, w.pool) = .ok (p, f) (h', t) → p.pageNo ∉ w.used := by
  refine ⟨reach.ahead.nodup, fun h h' p f t isOpen continues run member => ?_⟩
  have later := (reach.ahead.created isOpen continues run).nodup
  exact (List.nodup_append.mp later).2.2 p.pageNo member p.pageNo (List.mem_singleton_self _) rfl

def keyCols : List ColMeta := [⟨"t", "a", .int, 4, 0, true⟩]

/-- The index was made under descriptor 3. -/
def indexed : BufferPoolManager 1 := stateAfter (createIndex "t" keyCols 3 3) (.new Tables.noFiles fun _ => 0)

/-- The handle of an index without nodes. -/
def bareHandle : IxIndexHandle := ⟨3, ⟨-1, 3, 2, 1, [.int], [4], 4, 338, 1356, 2, 2, 48⟩⟩

theorem indexed_made : createIndex "t" keyCols 3 3 (.new Tables.noFiles fun _ => 0) = .ok () indexed :=
    run_of_value (by decide +kernel)

/-- Opened and asked for one node, in a pool that still has its frame. -/
def firstNode (s : BufferPoolManager 1) : IxIndexHandle × BufferPoolManager 1 :=
  stateAfter IxIndexHandle.createNode (bareHandle, stateAfter (openIndex "t" keyCols 3) s)

theorem reach_firstNode {allowed : IxWorld 1 → IxCall → Prop} {s : BufferPoolManager 1} {used : List Int} {k : Int}
    (reach : Reach "t" keyCols allowed ⟨s, none, used⟩) (opens : allowed ⟨s, none, used⟩ (.openIndex 3))
    (creates : allowed ⟨stateAfter (openIndex "t" keyCols 3) s, some bareHandle, used⟩ .createNode)
    (opened : value (openIndex "t" keyCols 3) s = some bareHandle)
    (created : value IxIndexHandle.createNode (bareHandle, stateAfter (openIndex "t" keyCols 3) s) = some (⟨3, k⟩, 0)) :
    Reach "t" keyCols allowed ⟨(firstNode s).2, some (firstNode s).1, used ++ [k]⟩ := by
  have isOpen := reach.step (.opened rfl opens (run_of_value opened))
  exact isOpen.step (.created rfl creates (run_of_value created))

/-- The same descriptor in the same process: the first node gets page 3. -/
theorem page_number_unused_three : ∃ w : IxWorld 1, Reach "t" keyCols Continues w ∧ w.used = [0, 1, 2, 3] ∧
    w.used.Nodup := by
  have made : Reach "t" keyCols Continues ⟨indexed, none, _⟩ := .created indexed_made
  have opens : Continues ⟨indexed, none, [0, 1, 2]⟩ (.openIndex 3) :=
    (by decide +kernel : ∀ k ∈ [0, 1, 2], k ≤ indexed.counter 3)
  have creates : Continues ⟨stateAfter (openIndex "t" keyCols 3) indexed, some bareHandle, [0, 1, 2]⟩ .createNode := by
    intro h found
    cases found
    decide +kernel
  have reach := reach_firstNode made opens creates (k := 3) (by decide +kernel) (by decide +kernel)
  exact ⟨_, reach, rfl, (page_number_unused reach).1⟩

/-- The next process, where every counter is zero. -/
def restarted : BufferPoolManager 1 := .new { indexed.diskManager with fd2pageno := fun _ => 0 } fun _ => 0

/-- After a restart the first node gets the page of the leaf list. -/
theorem page_number_reused : ¬∀ w : IxWorld 1, Reach "t" keyCols (fun _ _ => True) w → w.used.Nodup := by
  intro unused
  have made : Reach "t" keyCols (fun _ _ => True) ⟨indexed, none, _⟩ := .created indexed_made
  have later := made.step (.restart (t := restarted) fun _ => rfl)
  have reach := reach_firstNode later trivial trivial (k := 1) (by decide +kernel) (by decide +kernel)
  exact absurd (unused _ reach) (by decide)

end IxWorld

end Rmdb
