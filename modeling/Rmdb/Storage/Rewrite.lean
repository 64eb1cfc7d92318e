import Rmdb.Storage.Steady

namespace Rmdb

/-! A client that writes into pages: it fetches one, changes its bytes and releases it as dirty. -/

namespace BufferPoolManager
variable {N : Nat} {s t : BufferPoolManager N} {pages : Set PageId} {p q : PageId} {f g : Fin N}

/-- The disk takes each of the pages. -/
structure Writable (pages : Set PageId) (s : BufferPoolManager N) : Prop where
  steady : Steady pages s
  accepts : ∀ p ∈ pages, s.diskManager.Accepts p

theorem fetchPage_accepts {r : Option (Fin N)} (run : fetchPage p s = .ok r t) (accepts : s.diskManager.Accepts q) :
    t.diskManager.Accepts q := by
  rcases fetchPage_cases run with ⟨_, _, _, rfl⟩ | ⟨_, _, rfl, _⟩ | ⟨_, _, _, _, _, _, _, _, wrote, _, rfl⟩
  · exact accepts
  · exact accepts
  · exact wrote.accepts accepts

/-- A page keeps its frame unless the fetch of another page gets that frame. -/
theorem fetchPage_home (steady : Steady pages s) (run : fetchPage p s = .ok (some f) t) (other : q ≠ p)
    (home : s.pageTable q = some g) : t.pageTable q = some g ↔ g ≠ f := by
  rcases fetchPage_cases run with ⟨h, found, same, rfl⟩ | ⟨_, same, _⟩ | ⟨h, _, _, _, _, _, same, _, _, _, rfl⟩
  · cases same
    refine iff_of_true home ?_
    rintro rfl
    exact other ((steady.noneLost.idOf q g home).1.symm.trans (steady.noneLost.idOf p g found).1)
  · cases same
  · cases same
    rw [steady.noneLost.tableInv.install_iff (steady.mapped f)]
    simp [other, home]

/-- A fetch gets the frame the page has, or one without pins. -/
theorem fetchPage_source (steady : Steady pages s) (run : fetchPage p s = .ok (some f) t) :
    s.pageTable p = some f ∨ s.pageTable p = none ∧ (s.pages f).pinCount = 0 ∧
      ((∃ rest, s.freeList = f :: rest) ∨ s.freeList = [] ∧ ∃ rest, s.replacer.frames = rest ++ [f]) := by
  rcases fetchPage_cases run with ⟨g, found, same, _⟩ | ⟨_, same, _⟩ | ⟨g, rest, _, _, _, missing, same, victim, _⟩
  · cases same
    exact Or.inl found
  · cases same
  · cases same
    refine Or.inr ⟨missing, steady.noneLost.victim_unpinned victim, ?_⟩
    cases victim with
    | free list => exact Or.inl ⟨rest, list⟩
    | listed empty run => exact Or.inr ⟨empty, _, (LRUReplacer.victim_some run).1⟩

theorem fetchPage_keeps (steady : Steady pages s) (run : fetchPage p s = .ok (some f) t) (other : q ≠ p)
    (home : s.pageTable q = some g) (held : 0 < s.pinsOn q) : t.pageTable q = some g := by
  rw [fetchPage_home steady run other home]
  rintro rfl
  rw [pinsOn_some home] at held
  rcases fetchPage_source steady run with found | ⟨_, unpinned, _⟩
  · exact other ((steady.noneLost.idOf q g home).1.symm.trans (steady.noneLost.idOf p g found).1)
  · omega

theorem pinned_two (unpinned : (s.pages f).pinCount = 0) (unpinned' : (s.pages g).pinCount = 0) (other : g ≠ f) :
    s.pinned + 2 ≤ N := by
  have apart : Disjoint (Finset.univ.filter fun h => 0 < (s.pages h).pinCount) {f, g} := by
    rw [Finset.disjoint_right]
    intro h member held
    have held := (Finset.mem_filter.mp held).2
    rcases Finset.mem_insert.mp member with rfl | member
    · omega
    · rw [Finset.mem_singleton.mp member] at held
      omega
  have all := Finset.card_le_univ ((Finset.univ.filter fun h => 0 < (s.pages h).pinCount) ∪ {f, g})
  rw [Finset.card_union_of_disjoint apart, Finset.card_pair other.symm, Fintype.card_fin] at all
  exact all

theorem pinned_but_one (held : ∀ h, h ≠ f → 0 < (s.pages h).pinCount) : N ≤ s.pinned + 1 := by
  have part : Finset.univ.erase f ⊆ Finset.univ.filter fun h => 0 < (s.pages h).pinCount := by
    intro h member
    exact Finset.mem_filter.mpr ⟨Finset.mem_univ h, held h (Finset.ne_of_mem_erase member)⟩
  have rest := Finset.card_le_card part
  rw [Finset.card_erase_of_mem (Finset.mem_univ f), Finset.card_univ, Fintype.card_fin] at rest
  unfold pinned
  omega

/-- The page that was released last keeps its frame unless that is the only one without pins and is needed. -/
theorem fetchPage_spares_iff (steady : Steady pages s) (run : fetchPage p s = .ok (some f) t) (other : q ≠ p)
    (home : s.pageTable q = some g) (recent : s.pinsOn q = 0 → ∃ rest, s.replacer.frames = g :: rest) :
    t.pageTable q = some g ↔ 0 < s.pinsOn q ∨ 0 < s.pinsOn p ∨ s.pinned + 2 ≤ N := by
  have nonneg := steady.pinsOn_nonneg q
  by_cases held : 0 < s.pinsOn q
  · exact iff_of_true (fetchPage_keeps steady run other home held) (Or.inl held)
  have unheld : s.pinsOn q = 0 := by omega
  have unpinned : (s.pages g).pinCount = 0 := (pinsOn_some home).symm.trans unheld
  rw [fetchPage_home steady run other home]
  rcases fetchPage_source steady run with found | ⟨missing, victim, source⟩
  · have apart : g ≠ f := by
      rintro rfl
      exact other ((steady.noneLost.idOf q g home).1.symm.trans (steady.noneLost.idOf p g found).1)
    refine iff_of_true apart (Or.inr ?_)
    have nonneg := steady.pinsOn_nonneg p
    by_cases again : 0 < s.pinsOn p
    · exact Or.inl again
    · rw [pinsOn_some found] at nonneg again
      exact Or.inr (pinned_two (by omega) unpinned apart)
  · rw [pinsOn_none missing]
    constructor
    · exact fun apart => Or.inr (Or.inr (pinned_two victim unpinned apart))
    · rintro room rfl
      have free : s.freeList = [] ∧ ∃ rest, s.replacer.frames = rest ++ [g] := by
        rcases source with ⟨rest, list⟩ | listed
        · have notFree := steady.noneLost.tableInv.mapped_not_free home
          rw [list] at notFree
          exact absurd List.mem_cons_self notFree
        · exact listed
      obtain ⟨empty, front, last⟩ := free
      obtain ⟨back, first⟩ := recent unheld
      -- the most recent frame is also the oldest
      have single : s.replacer.frames = [g] := by
        have nodup := steady.noneLost.wf.frames_nodup
        cases front with
        | nil => exact last
        | cons h front =>
          rw [last] at first nodup
          obtain ⟨rfl, _⟩ := List.cons.inj first
          exact absurd (List.mem_append_right front List.mem_cons_self) (List.nodup_cons.mp nodup).1
      have others := pinned_but_one (s := s) (f := g) fun h apart => by
        rw [steady.noneLost.pinned_iff, empty, single]
        exact ⟨List.not_mem_nil, fun member => apart (List.mem_singleton.mp member)⟩
      omega

/-- A page has other bytes, and all pins are as before. -/
structure Rewritten (pages : Set PageId) (p : PageId) (d : PageData) (s u : BufferPoolManager N) : Prop where
  writable : Writable pages u
  pins : u.pinsOn = s.pinsOn
  pinned : u.pinned = s.pinned
  seen : ∀ q ∈ pages, u.seen q = Function.update s.seen p d q

/-- The bytes of a fetched page are written, and the page is released as dirty. Unless it bears pins it is the last
one that the replacer gives away. -/
theorem unpinPage_rewrites (nonneg : 0 ≤ s.pinsOn p) (small : s.pinsOn p ≤ intMax) (fetched : Fetched pages p f s t)
    (accepts : ∀ q ∈ pages, t.diskManager.Accepts q) (member : p ∈ pages) (d : PageData) :
    ∃ u, unpinPage p true (t.setPage f { t.pages f with data := d }) = .ok true u ∧ u.pageTable = t.pageTable ∧
      Rewritten pages p d s u ∧ (s.pinsOn p = 0 → ∃ rest, u.replacer.frames = f :: rest) := by
  have steady := fetched.steady
  have inv := steady.noneLost.tableInv
  have held : (t.pages f).pinCount = s.pinsOn p + 1 := by
    rw [← pinsOn_some fetched.table, fetched.pins, Function.update_self]
  have positive : ¬(t.pages f).pinCount ≤ 0 := by omega
  have self : (t.setPage f { t.pages f with data := d }).pages f = { t.pages f with data := d } :=
    Function.update_self ..
  obtain ⟨u, run⟩ : ∃ u, unpinPage p true (t.setPage f { t.pages f with data := d }) = .ok true u := by
    have found : (t.setPage f { t.pages f with data := d }).pageTable p = some f := fetched.table
    unfold unpinPage
    simp only [found, self, positive, if_false]
    exact ⟨_, rfl⟩
  have noneLost := (steady.noneLost.setData f d).unpinPage run
  have absent := ((steady.noneLost.pinned_iff f).mp (by omega)).2
  obtain ⟨step, front⟩ : Replaced f ⟨p, d, true, s.pinsOn p⟩ t u ∧
      (s.pinsOn p = 0 → u.replacer.frames = f :: t.replacer.frames) := by
    rcases unpinPage_cases run with ⟨absurd, _⟩ | ⟨g, _, found, _, rfl⟩
    · cases absurd
    · cases fetched.table.symm.trans found
      rw [self]
      refine ⟨⟨rfl, rfl, ?_⟩, fun last => ?_⟩
      · simp only [setPage, Function.update_idem, Bool.or_true, held, Int.add_sub_cancel,
          (steady.noneLost.idOf p f fetched.table).1]
      · have zero : (t.pages f).pinCount - 1 = 0 := by omega
        have wf := steady.noneLost.wf
        simp only [zero, if_true]
        exact LRUReplacer.frames_unpin _ (fun listed => absent (wf.mem_frames.mpr listed))
          (room_of_absent wf steady.noneLost.capacity absent)
  refine ⟨u, run, step.table, ?_, fun last => ⟨_, front last⟩⟩
  constructor
  case writable =>
    constructor
    case steady =>
      refine steady.replaced step noneLost (steady.noneLost.idOf p f fetched.table).1.symm small fun _ => ?_
      exact ⟨fun _ => accepts p member, fun clean => Bool.noConfusion clean⟩
    case accepts => exact step.disk ▸ accepts
  case pins =>
    rw [step.pins inv fetched.table, fetched.pins, Function.update_idem, Function.update_eq_self]
  case pinned =>
    refine fetched.pinned_back nonneg (fun g other => congrArg Page.pinCount (step.others g other)) ?_
    rw [step.self]
  case seen =>
    intro q memberQ
    rw [step.seen inv fetched.table, Function.update_apply, Function.update_apply]
    split
    · rfl
    · exact fetched.seen q memberQ

end BufferPoolManager

end Rmdb
