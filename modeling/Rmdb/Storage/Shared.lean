import Rmdb.Storage.Pins

namespace Rmdb.BufferPoolManager
variable {N : Nat} {s t : BufferPoolManager N}

/-- Page `p` stays in frame `f` with its bytes. -/
structure Keeps (s t : BufferPoolManager N) (p : PageId) (f : Fin N) : Prop where
  mapped : t.pageTable p = some f
  id : (t.pages f).id = p
  data : (t.pages f).data = (s.pages f).data

theorem Keeps.refl (inv : PoolInv s) {p : PageId} {f : Fin N} (found : s.pageTable p = some f) : Keeps s s p f :=
  ⟨found, inv.idOf found, rfl⟩

/-- A change of some frame's counters or dirty bit. -/
theorem Keeps.set (inv : PoolInv s) {p : PageId} {f g : Fin N} {page : Page} (found : s.pageTable p = some f)
    (table : t.pageTable = s.pageTable) (pages : t.pages = Function.update s.pages g page)
    (id : page.id = (s.pages g).id)
    (data : page.data = (s.pages g).data) : Keeps s t p f := by
  refine ⟨table ▸ found, ?_, ?_⟩
  · rw [pages]
    by_cases same : f = g
    · subst g
      rw [Function.update_self, id]
      exact inv.idOf found
    · rw [Function.update_of_ne same]
      exact inv.idOf found
  · rw [pages]
    by_cases same : f = g
    · subst g
      rw [Function.update_self, data]
    · rw [Function.update_of_ne same]

/-- A victim is not the frame of a pinned page. -/
theorem Keeps.install (inv : PoolInv s) {p q : PageId} {f g : Fin N} {rest : List (Fin N)} {r : LRUReplacer (Fin N)}
    {dm : DiskManager} {data : PageData} (victim : Victim s g rest r) (missing : s.pageTable q = none)
    (found : s.pageTable p = some f) (held : 0 < (s.pages f).pinCount) :
    Keeps s (install q g data (s.taken g rest r dm)) p f := by
  have different : f ≠ g := by
    rintro rfl
    have := inv.victim_unpinned victim
    omega
  have other : p ≠ q := by
    rintro rfl
    rw [missing] at found
    cases found
  have page : (BufferPoolManager.install q g data (s.taken g rest r dm)).pages f = s.pages f :=
    Function.update_of_ne different ..
  refine ⟨?_, ?_, ?_⟩
  · change Function.update (s.unmap g) q (some g) p = some f
    rw [Function.update_of_ne other]
    exact inv.unmap_iff.mpr ⟨found, different⟩
  · rw [page]
    exact inv.idOf found
  · rw [page]

theorem Keeps.trans {m : BufferPoolManager N} {p : PageId} {f : Fin N} (first : Keeps s m p f)
    (second : Keeps m t p f) :
    Keeps s t p f := ⟨second.mapped, second.id, second.data.trans first.data⟩

theorem flushFrames_keeps (inv : PoolInv s) {fd : Int} {list : List (Fin N)} {u : Unit} {p : PageId} {f : Fin N}
    (found : s.pageTable p = some f) (run : flushFrames fd list s = .ok u t) : Keeps s t p f := by
  refine (flushFrames_keep (P := fun now => PoolInv now ∧ Keeps s now p f) ?_ ⟨inv, .refl inv found⟩ run).2
  rintro now dm g ⟨invNow, kept⟩ write
  exact ⟨invNow.wroteFrame g (writePage_counters write), kept.trans (.set invNow kept.mapped rfl rfl rfl rfl)⟩

/-- No call moves a pinned page or changes its bytes. -/
theorem call_keeps (inv : PoolInv s) {c : Call} {r : Reply N} {p : PageId} {f : Fin N} (found : s.pageTable p = some f)
    (held : 0 < (s.pages f).pinCount) (run : call c s = .ok r t) : Keeps s t p f := by
  cases c with
  | fetchPage q =>
    obtain ⟨_, run, _⟩ := map_eq_ok.mp run
    rcases fetchPage_cases run with ⟨g, _, _, rfl⟩ | ⟨_, _, rfl, _⟩ | ⟨g, _, _, _, _, missing, _, victim, _, _, rfl⟩
    · exact .set inv found rfl rfl rfl rfl
    · exact .refl inv found
    · exact .install inv victim missing found held
  | unpinPage q d =>
    obtain ⟨_, run, _⟩ := map_eq_ok.mp run
    rcases unpinPage_cases run with ⟨_, rfl, _⟩ | ⟨g, _, _, _, rfl⟩
    · exact .refl inv found
    · exact .set inv found rfl rfl rfl rfl
  | flushPage q =>
    obtain ⟨_, run, _⟩ := map_eq_ok.mp run
    rcases flushPage_cases run with ⟨_, _, rfl⟩ | ⟨g, dm, _, _, _, rfl⟩
    · exact .refl inv found
    · exact .set inv found rfl rfl rfl rfl
  | newPage fd =>
    obtain ⟨_, run, _⟩ := map_eq_ok.mp run
    rcases newPage_cases run with ⟨_, rfl, _⟩ | ⟨g, _, _, _, _, pageNo, _, victim, wrote, allocated, rfl⟩
    · exact .refl inv found
    · have missing : s.pageTable ⟨fd, pageNo⟩ = none := by
        rw [(allocatePage_ok allocated).1, wrote.counters]
        exact inv.counter_missing fd
      exact .install inv victim missing found held
  | deletePage q =>
    obtain ⟨_, run, _⟩ := map_eq_ok.mp run
    rcases deletePage_cases (fun f found => inv.idOf found) run with ⟨rfl, _⟩ | ⟨g, dm, _, atQ, unpinned, _, rfl⟩
    · exact .refl inv found
    · have different : f ≠ g := by
        rintro rfl
        omega
      have other : p ≠ q := by
        rintro rfl
        exact different (Option.some.inj (found.symm.trans atQ))
      refine ⟨?_, ?_, ?_⟩
      · change Function.update s.pageTable q none p = some f
        rw [Function.update_of_ne other]
        exact found
      · simp only [setPage, Function.update_of_ne different]
        exact inv.idOf found
      · simp only [setPage, Function.update_of_ne different]
  | flushAllPages fd =>
    obtain ⟨_, run, _⟩ := map_eq_ok.mp run
    exact flushFrames_keeps inv found run

end Rmdb.BufferPoolManager

namespace Rmdb

/-- The pool and the pins its clients hold. -/
structure Shared (C : Type) (N : Nat) where
  pool : BufferPoolManager N
  pins : List (Pin C N)

namespace Shared
open BufferPoolManager
variable {C : Type} {N : Nat} [DecidableEq C]

/-- A successful `fetch_page` or `new_page` grants its caller a pin, a successful `unpin_page` takes
one back. -/
def afterCall (w : Shared C N) (c : C) (call : Call) (r : Reply N) (t : BufferPoolManager N) : Shared C N where
  pool := t
  pins :=
    match call, r with
    | .fetchPage p, .page (some f) => ⟨c, p, f⟩ :: w.pins
    | .newPage _, .created (some (p, f)) => ⟨c, p, f⟩ :: w.pins
    | .unpinPage p _, .flag true => w.pins.eraseP fun pin => pin.client = c ∧ pin.page = p
    | _, _ => w.pins

/-- The client unpins only a page it has pinned. -/
def Owns (w : Shared C N) (c : C) : Call → Prop
  | .unpinPage p _ => ∃ f, ⟨c, p, f⟩ ∈ w.pins
  | _ => True

/-- One call of one client, a write of a client to a page it has pinned, or a counter raised by the
owner of a file. `allowed` says which calls the clients make. -/
inductive Step (allowed : BufferPoolManager N → Call → Prop) : Shared C N → Shared C N → Prop
  | call {w : Shared C N} {c : C} {k : Call} {r : Reply N} {t : BufferPoolManager N} : allowed w.pool k →
      w.Owns c k → BufferPoolManager.call k w.pool = .ok r t → (∀ fd, w.pool.counter fd ≤ t.counter fd) →
      Step allowed w (w.afterCall c k r t)
  | write {w : Shared C N} {pin : Pin C N} (data : PageData) : pin ∈ w.pins →
      Step allowed w { w with pool := w.pool.setPage pin.frame { w.pool.pages pin.frame with data := data } }
  | setFd2pageno {w : Shared C N} (fd n : Int) : w.pool.counter fd ≤ n →
      Step allowed w { w with pool := { w.pool with diskManager := w.pool.diskManager.setFd2pageno fd n } }

inductive Reach (allowed : BufferPoolManager N → Call → Prop) : Shared C N → Prop
  | start {dm : DiskManager} (junk : Fin N → Int) : (∀ fd, 0 ≤ dm.fd2pageno fd) → Reach allowed ⟨.new dm junk, []⟩
  | step {w v : Shared C N} : Reach allowed w → Step allowed w v → Reach allowed v

/-- The pins outstanding on a page. -/
def outstanding (w : Shared C N) (p : PageId) : Nat := w.pins.countP fun pin => pin.page = p

structure Inv (w : Shared C N) : Prop where
  pool : PoolInv w.pool
  count : ∀ p, w.pool.pinsOn p = w.outstanding p
  held : ∀ pin ∈ w.pins, w.pool.pageTable pin.page = some pin.frame

namespace Inv
variable {w : Shared C N}

omit [DecidableEq C] in
theorem pinned (inv : Inv w) {pin : Pin C N} (member : pin ∈ w.pins) : 0 < (w.pool.pages pin.frame).pinCount := by
  have count := inv.count pin.page
  rw [pinsOn_some (inv.held pin member)] at count
  have positive : 0 < w.outstanding pin.page := List.countP_pos_iff.mpr ⟨pin, member, by simp⟩
  omega

omit [DecidableEq C] in
theorem grant (inv : Inv w) {t : BufferPoolManager N} {c : C} {p : PageId} {f : Fin N} (pool : PoolInv t)
    (pins : t.pinsOn = Function.update w.pool.pinsOn p (w.pool.pinsOn p + 1)) (found : t.pageTable p = some f)
    (keeps : ∀ pin ∈ w.pins, Keeps w.pool t pin.page pin.frame) : Inv (⟨t, ⟨c, p, f⟩ :: w.pins⟩ : Shared C N) where
  pool := pool
  count q := by
    simp only [outstanding, List.countP_cons]
    rw [pins, Function.update_apply]
    by_cases same : q = p
    · subst q
      simp [inv.count, outstanding]
    · simp [inv.count, outstanding, same, Ne.symm same]
  held pin member := by
    rcases List.mem_cons.mp member with rfl | old
    · exact found
    · exact (keeps pin old).mapped

/-- The caller's pin goes, and no other. -/
theorem release (inv : Inv w) {t : BufferPoolManager N} {c : C} {p : PageId} {f : Fin N} (pool : PoolInv t)
    (owned : ⟨c, p, f⟩ ∈ w.pins) (pins : t.pinsOn = Function.update w.pool.pinsOn p (w.pool.pinsOn p - 1))
    (keeps : ∀ pin ∈ w.pins, Keeps w.pool t pin.page pin.frame) :
    Inv (⟨t, w.pins.eraseP fun pin => pin.client = c ∧ pin.page = p⟩ : Shared C N) where
  pool := pool
  count q := by
    obtain ⟨pin, before, behind, _, mine, whole, erased⟩ :=
      List.exists_of_eraseP (p := fun pin : Pin C N => pin.client = c ∧ pin.page = p) owned (by simp)
    have atPage : pin.page = p := (of_decide_eq_true mine).2
    have count := inv.count q
    simp only [outstanding, whole, List.countP_append, List.countP_cons] at count
    simp only [outstanding, erased, List.countP_append]
    rw [pins, Function.update_apply]
    by_cases same : q = p
    · subst q
      simp only [atPage, decide_true, if_true] at count ⊢
      omega
    · have other : decide (pin.page = q) = false := by simp [atPage, Ne.symm same]
      simp only [other, Bool.false_eq_true, if_false, if_neg same] at count ⊢
      omega
  held pin member := (keeps pin (List.mem_of_mem_eraseP member)).mapped

omit [DecidableEq C] in
theorem same (inv : Inv w) {t : BufferPoolManager N} (pool : PoolInv t) (pins : t.pinsOn = w.pool.pinsOn)
    (keeps : ∀ pin ∈ w.pins, Keeps w.pool t pin.page pin.frame) : Inv (⟨t, w.pins⟩ : Shared C N) where
  pool := pool
  count p := by
    rw [pins]
    exact inv.count p
  held pin member := (keeps pin member).mapped

theorem call (inv : Inv w) {c : C} {call : Call} {r : Reply N} {t : BufferPoolManager N}
    (admissible : Admissible w.pool call) (owns : w.Owns c call) (run : BufferPoolManager.call call w.pool = .ok r t)
    (monotone : ∀ fd, w.pool.counter fd ≤ t.counter fd) : Inv (w.afterCall c call r t) := by
  have pool := inv.pool.call admissible monotone run
  have keeps : ∀ pin ∈ w.pins, Keeps w.pool t pin.page pin.frame :=
    fun pin member => call_keeps inv.pool (inv.held pin member) (inv.pinned member) run
  cases call with
  | fetchPage p =>
    obtain ⟨found, ran, rfl⟩ := map_eq_ok.mp run
    cases found with
    | some f =>
      obtain ⟨pins, found⟩ := fetchPage_pins inv.pool ran
      exact inv.grant pool pins found keeps
    | none =>
      rcases fetchPage_cases ran with ⟨_, _, absurd, _⟩ | ⟨_, _, rfl, _⟩ | ⟨_, _, _, _, _, _, absurd, _⟩
      · cases absurd
      · exact inv
      · cases absurd
  | newPage fd =>
    obtain ⟨made, ran, rfl⟩ := map_eq_ok.mp run
    cases made with
    | some made =>
      obtain ⟨p, f⟩ := made
      obtain ⟨pins, found⟩ := newPage_pins inv.pool ran
      exact inv.grant pool pins found keeps
    | none =>
      rcases newPage_cases ran with ⟨_, rfl, _⟩ | ⟨_, _, _, _, _, _, absurd, _⟩
      · exact inv
      · cases absurd
  | unpinPage p d =>
    obtain ⟨released, ran, rfl⟩ := map_eq_ok.mp run
    obtain ⟨f, owned⟩ := owns
    obtain ⟨_, pins⟩ := unpinPage_pins inv.pool ran
    cases released with
    | true => exact inv.release pool owned pins keeps
    | false => exact inv.same pool pins keeps
  | flushPage p =>
    obtain ⟨_, ran, rfl⟩ := map_eq_ok.mp run
    exact inv.same pool (flushPage_pins ran) keeps
  | deletePage p =>
    obtain ⟨_, ran, rfl⟩ := map_eq_ok.mp run
    exact inv.same pool (deletePage_pins inv.pool ran) keeps
  | flushAllPages fd =>
    obtain ⟨_, ran, rfl⟩ := map_eq_ok.mp run
    exact inv.same pool (flushFrames_pins ran) keeps

theorem step {v : Shared C N} (inv : Inv w) (step : Step Admissible w v) : Inv v := by
  cases step with
  | call admissible owns run monotone => exact inv.call admissible owns run monotone
  | @write pin data member =>
    refine ⟨inv.pool.setData pin.frame data, fun p => ?_, inv.held⟩
    rw [pinsOn_setData]
    exact inv.count p
  | setFd2pageno fd n up => exact ⟨inv.pool.raise up, inv.count, inv.held⟩

end Inv

theorem Reach.inv {w : Shared C N} (reach : Reach Admissible w) : Inv w := by
  induction reach with
  | start junk counters => exact ⟨.new counters junk, fun _ => rfl, fun _ member => absurd member List.not_mem_nil⟩
  | step _ next ih => exact ih.step next

/-- In every state that interleaved calls reach, the pin counts are the numbers of outstanding pins, and
a page with a pin stays in the frame it was granted in, cannot be deleted and keeps its bytes whoever calls. -/
theorem pinned_stable {w : Shared C N} (reach : Reach Admissible w) :
    (∀ p, w.pool.pinsOn p = w.outstanding p) ∧
      ∀ pin ∈ w.pins, w.pool.pageTable pin.page = some pin.frame ∧ (w.pool.pages pin.frame).id = pin.page ∧
        deletePage pin.page w.pool = .ok false w.pool ∧
        (∀ d, ∃ t, unpinPage pin.page d w.pool = .ok true t) ∧
        ∀ call r t, BufferPoolManager.call call w.pool = .ok r t →
          t.pageTable pin.page = some pin.frame ∧ (t.pages pin.frame).id = pin.page ∧
            (t.pages pin.frame).data = (w.pool.pages pin.frame).data := by
  have inv := reach.inv
  refine ⟨inv.count, fun pin member => ?_⟩
  have found := inv.held pin member
  have held := inv.pinned member
  refine ⟨found, inv.pool.idOf found, ?_, ?_, ?_⟩
  · unfold deletePage
    rw [get_bind]
    simp only [found]
    rw [if_pos (by omega)]
    rfl
  · intro d
    unfold unpinPage
    simp only [found, if_neg (not_le.mpr held)]
    exact ⟨_, rfl⟩
  · intro call r t run
    have keeps := call_keeps inv.pool found held run
    exact ⟨keeps.mapped, keeps.id, keeps.data⟩

/-- Two clients share a page in the only frame: it has two pins, and a third client cannot delete it. -/
theorem pinned_stable_shared : ∃ w : Shared Nat 1, Reach Admissible w ∧ w.pins = [⟨1, ⟨3, 0⟩, 0⟩, ⟨0, ⟨3, 0⟩, 0⟩] ∧
    w.pool.pinsOn ⟨3, 0⟩ = 2 ∧ deletePage ⟨3, 0⟩ w.pool = .ok false w.pool := by
  have fresh : Reach Admissible (⟨.new oneFile fun _ => 0, []⟩ : Shared Nat 1) := .start _ fun _ => le_rfl
  have created := fresh.step (.call (c := 0) (k := .newPage 3) trivial trivial rfl (le_update_succ _ (by decide)))
  have fetched := created.step (.call (c := 1) (k := .fetchPage ⟨3, 0⟩) (show (0 : Int) < 1 by decide) trivial rfl
    fun _ => le_rfl)
  obtain ⟨count, stable⟩ := pinned_stable fetched
  refine ⟨_, fetched, rfl, (count ⟨3, 0⟩).trans rfl, (stable ⟨1, ⟨3, 0⟩, 0⟩ ?_).2.2.1⟩
  exact List.mem_cons_self

/-- A page at the counter of its file can be fetched if the file has it on disk. `new_page` then gives another
frame to the same page while it is pinned. -/
theorem not_stable_above_counter : ¬∀ w : Shared Nat 2, Reach (fun _ _ => True) w →
    ∀ pin ∈ w.pins, w.pool.pageTable pin.page = some pin.frame := by
  intro stable
  have fresh : Reach (fun _ _ => True)
      (⟨.new (oneFile.setFile 0 (File.empty.write 0 PAGE_SIZE fun _ => 7)) fun _ => 0, []⟩ : Shared Nat 2) :=
    .start _ fun _ => le_rfl
  have fetched := fresh.step (.call (c := 0) (k := .fetchPage ⟨3, 0⟩) trivial trivial rfl fun _ => le_rfl)
  have created := fetched.step (.call (c := 1) (k := .newPage 3) trivial trivial rfl (le_update_succ _ (by decide)))
  have moved := stable _ created ⟨0, ⟨3, 0⟩, 0⟩ (List.mem_cons_of_mem _ List.mem_cons_self)
  cases moved

end Shared

end Rmdb
