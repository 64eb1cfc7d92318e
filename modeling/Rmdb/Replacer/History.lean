import Mathlib.Data.Finset.Card
import Mathlib.Data.Finset.Dedup
import Rmdb.Replacer.Lru

namespace Rmdb.LRUReplacer
variable {F : Type} [DecidableEq F]

/-- A call and what came of it: `victim` names the frame it took out, if there was one. -/
inductive Event (F : Type)
  | pin (f : F)
  | unpin (f : F)
  | victim (found : Option F)
  deriving DecidableEq

namespace Event

/-- The event is a call for this frame, or its eviction. -/
def Concerns (f : F) : Event F → Bool
  | .pin g => g = f
  | .unpin g => g = f
  | .victim found => found = some f

/-- The frame a caller named. -/
def named : Event F → List F
  | .pin f => [f]
  | .unpin f => [f]
  | .victim _ => []

end Event

/-- The runs of a replacer with their histories, the latest event first. -/
inductive Run (numPages : Nat) : List (Event F) → LRUReplacer F → Prop
  | new : Run numPages [] (new numPages)
  | pin {history : List (Event F)} {r : LRUReplacer F} (f : F) : Run numPages history r →
      Run numPages (.pin f :: history) (r.pin f)
  | unpin {history : List (Event F)} {r : LRUReplacer F} (f : F) : Run numPages history r →
      Run numPages (.unpin f :: history) (r.unpin f)
  | victim {history : List (Event F)} {r : LRUReplacer F} : Run numPages history r →
      Run numPages (.victim r.victim.1 :: history) r.victim.2

/-- The last event that concerns the frame is an `unpin`. -/
def LastUnpinned (history : List (Event F)) (f : F) : Prop :=
  history.find? (Event.Concerns f) = some (.unpin f)

instance (history : List (Event F)) (f : F) : Decidable (LastUnpinned history f) :=
  inferInstanceAs (Decidable (_ = _))

/-- When the frame was last unpinned without being listed already. -/
def entry : List (Event F) → F → Nat
  | [], _ => 0
  | .unpin g :: history, f => if g = f ∧ ¬LastUnpinned history f then history.length else entry history f
  | .pin _ :: history, f => entry history f
  | .victim _ :: history, f => entry history f

/-- All frames the callers named. -/
def framesNamed (history : List (Event F)) : Finset F := (history.flatMap Event.named).toFinset

section
variable {history : List (Event F)} {f g : F}

theorem lastUnpinned_nil : ¬LastUnpinned [] f := by
  intro listed
  cases listed

theorem lastUnpinned_pin : LastUnpinned (.pin g :: history) f ↔ LastUnpinned history f ∧ f ≠ g := by
  unfold LastUnpinned
  by_cases same : g = f
  · simp [Event.Concerns, same]
  · simp [Event.Concerns, same, Ne.symm same]

theorem lastUnpinned_unpin : LastUnpinned (.unpin g :: history) f ↔ f = g ∨ LastUnpinned history f := by
  unfold LastUnpinned
  by_cases same : g = f
  · simp [Event.Concerns, same]
  · simp [Event.Concerns, same, Ne.symm same]

theorem lastUnpinned_victim {found : Option F} :
    LastUnpinned (.victim found :: history) f ↔ LastUnpinned history f ∧ found ≠ some f := by
  unfold LastUnpinned
  by_cases same : found = some f
  · simp [Event.Concerns, same]
  · simp [Event.Concerns, same]

theorem framesNamed_mono (e : Event F) (history : List (Event F)) :
    framesNamed history ⊆ framesNamed (e :: history) := by
  intro f member
  simp only [framesNamed, List.mem_toFinset, List.flatMap_cons, List.mem_append] at member ⊢
  exact Or.inr member

theorem entry_lt (listed : LastUnpinned history f) : entry history f < history.length := by
  induction history with
  | nil => exact absurd listed lastUnpinned_nil
  | cons e history ih =>
    cases e with
    | pin g =>
      have := ih (lastUnpinned_pin.mp listed).1
      simp only [entry, List.length_cons]
      omega
    | victim found =>
      have := ih (lastUnpinned_victim.mp listed).1
      simp only [entry, List.length_cons]
      omega
    | unpin g =>
      simp only [entry, List.length_cons]
      split
      · omega
      · rename_i old
        rcases lastUnpinned_unpin.mp listed with same | listed
        · have := ih (by_contra fun new => old ⟨same.symm, new⟩)
          omega
        · have := ih listed
          omega

end

theorem pin_sublist (r : LRUReplacer F) (f : F) : (r.pin f).frames.Sublist r.frames := by
  unfold pin
  split
  · exact List.Sublist.refl _
  · exact List.filter_sublist.map _

/-- The list is what the history says: the frames last unpinned, the one that entered last in front. -/
structure Ordered (history : List (Event F)) (r : LRUReplacer F) : Prop where
  wf : r.WF
  listed : ∀ f, f ∈ r.frames ↔ LastUnpinned history f
  sorted : r.frames.Pairwise fun f g => entry history g < entry history f
  named : ∀ f ∈ r.frames, f ∈ framesNamed history

namespace Ordered
variable {history : List (Event F)} {r : LRUReplacer F}

theorem new (numPages : Nat) : Ordered [] (LRUReplacer.new numPages : LRUReplacer F) where
  wf := .new numPages
  listed _ := iff_of_false List.not_mem_nil lastUnpinned_nil
  sorted := .nil
  named _ member := absurd member List.not_mem_nil

theorem pin (ordered : Ordered history r) (f : F) : Ordered (.pin f :: history) (r.pin f) where
  wf := ordered.wf.pin f
  listed g := by
    rw [ordered.wf.mem_pin, lastUnpinned_pin, ordered.listed]
  sorted := ordered.sorted.sublist (pin_sublist r f)
  named g member := framesNamed_mono _ _ (ordered.named g ((pin_sublist r f).subset member))

/-- There is room for a frame that is not listed as long as no more frames are named than fit. -/
theorem room (ordered : Ordered history r) {f : F}
    (few : (framesNamed (.unpin f :: history)).card ≤ r.maxSize) (absent : f ∉ r.frames) :
    r.lruList.length < r.maxSize := by
  have within : insert f r.frames.toFinset ⊆ framesNamed (.unpin f :: history) := by
    intro g member
    rcases Finset.mem_insert.mp member with rfl | member
    · simp [framesNamed, Event.named]
    · exact framesNamed_mono _ _ (ordered.named g (List.mem_toFinset.mp member))
  have card := Finset.card_le_card within
  rw [Finset.card_insert_of_notMem (by rwa [List.mem_toFinset]), List.toFinset_card_of_nodup ordered.wf.frames_nodup,
    length_frames] at card
  omega

theorem unpin (ordered : Ordered history r) (f : F)
    (few : (framesNamed (.unpin f :: history)).card ≤ r.maxSize) : Ordered (.unpin f :: history) (r.unpin f) := by
  have member : ∀ g, g ∈ (r.unpin f).frames ↔ g = f ∨ g ∈ r.frames :=
    fun g => ordered.wf.mem_unpin (ordered.room few)
  have before : ∀ g, LastUnpinned history g → entry (.unpin f :: history) g = entry history g := by
    intro g listed
    simp only [entry]
    rw [if_neg fun new => new.2 listed]
  constructor
  case wf => exact ordered.wf.unpin f
  case listed =>
    intro g
    rw [member, lastUnpinned_unpin, ordered.listed]
  case sorted =>
    have old : r.frames.Pairwise fun a b => entry (.unpin f :: history) b < entry (.unpin f :: history) a := by
      refine ordered.sorted.imp_of_mem fun {a b} atA atB less => ?_
      rwa [before a ((ordered.listed a).mp atA), before b ((ordered.listed b).mp atB)]
    by_cases listed : f ∈ r.frames
    · rwa [LRUReplacer.unpin, if_pos (ordered.wf.mem_frames.mp listed)]
    · rw [frames_unpin r (fun found => listed (ordered.wf.mem_frames.mpr found)) (ordered.room few listed)]
      refine List.pairwise_cons.mpr ⟨fun g atG => ?_, old⟩
      have listedG := (ordered.listed g).mp atG
      have newest : entry (.unpin f :: history) f = history.length := by
        simp only [entry]
        rw [if_pos ⟨trivial, fun old => listed ((ordered.listed f).mpr old)⟩]
      rw [newest, before g listedG]
      exact entry_lt listedG
  case named =>
    intro g inside
    rcases (member g).mp inside with rfl | inside
    · simp [framesNamed, Event.named]
    · exact framesNamed_mono _ _ (ordered.named g inside)

theorem victim (ordered : Ordered history r) : Ordered (.victim r.victim.1 :: history) r.victim.2 := by
  cases run : r.victim with
  | mk found r' =>
    cases found with
    | none =>
      rw [victim_none_state run]
      refine ⟨ordered.wf, fun f => ?_, ordered.sorted, fun f member => framesNamed_mono _ _ (ordered.named f member)⟩
      rw [lastUnpinned_victim, ordered.listed]
      simp
    | some f =>
      have frames := (victim_some run).1
      have front : r'.frames.Sublist r.frames := by
        rw [frames]
        exact List.sublist_append_left _ _
      refine ⟨ordered.wf.victim run, fun g => ?_, ordered.sorted.sublist front,
        fun g member => framesNamed_mono _ _ (ordered.named g (front.subset member))⟩
      have nodup := ordered.wf.frames_nodup
      rw [frames] at nodup
      have gone : f ∉ r'.frames := fun member =>
        (List.nodup_append.mp nodup).2.2 f member f (List.mem_singleton_self f) rfl
      rw [lastUnpinned_victim, ← ordered.listed, frames, List.mem_append, List.mem_singleton]
      constructor
      · intro member
        refine ⟨Or.inl member, fun same => ?_⟩
        cases same
        exact gone member
      · rintro ⟨member | rfl, other⟩
        · exact member
        · exact absurd rfl other

/-- The frame at the back entered before all others. -/
theorem oldest (ordered : Ordered history r) {f : F} (found : r.victim.1 = some f) :
    f ∈ r.frames ∧ ∀ g ∈ r.frames, g ≠ f → entry history f < entry history g := by
  have frames := (victim_some (show r.victim = (some f, r.victim.2) by rw [← found])).1
  refine ⟨by rw [frames]; simp, fun g member other => ?_⟩
  have sorted := ordered.sorted
  rw [frames] at sorted member
  rcases List.mem_append.mp member with front | last
  · exact (List.pairwise_append.mp sorted).2.2 g front f (List.mem_singleton_self f)
  · exact absurd (List.mem_singleton.mp last) other

end Ordered

theorem Run.maxSize {numPages : Nat} {history : List (Event F)} {r : LRUReplacer F} (run : Run numPages history r) :
    r.maxSize = numPages := by
  induction run with
  | new => rfl
  | pin f _ ih => rw [pin_maxSize, ih]
  | unpin f _ ih => rw [unpin_maxSize, ih]
  | @victim history r _ ih =>
    rw [← ih]
    cases run : r.victim with
    | mk found r' =>
      cases found with
      | none => rw [victim_none_state run]
      | some f => exact (victim_some run).2

theorem Run.ordered {numPages : Nat} {history : List (Event F)} {r : LRUReplacer F} (run : Run numPages history r)
    (few : (framesNamed history).card ≤ numPages) : Ordered history r := by
  induction run with
  | new => exact .new numPages
  | pin f _ ih => exact (ih ((Finset.card_le_card (framesNamed_mono _ _)).trans few)).pin f
  | unpin f previous ih =>
    refine (ih ((Finset.card_le_card (framesNamed_mono _ _)).trans few)).unpin f ?_
    rwa [previous.maxSize]
  | victim _ ih => exact (ih ((Finset.card_le_card (framesNamed_mono _ _)).trans few)).victim

/-- After any calls for at most as many frames as fit, the list holds each frame last
unpinned once, under the node its hash entry points to; `victim` takes the one that
entered first, and fails only on an empty list. -/
theorem lru_order {numPages : Nat} {history : List (Event F)} {r : LRUReplacer F} (run : Run numPages history r)
    (few : (framesNamed history).card ≤ numPages) :
    r.frames.Nodup ∧ (r.lruList.map Prod.fst).Nodup ∧ (∀ f node, r.lruHash f = some node ↔ (node, f) ∈ r.lruList) ∧
      (∀ f, f ∈ r.frames ↔ LastUnpinned history f) ∧ (r.victim.1 = none ↔ r.frames = []) ∧
      (∀ f, r.victim.1 = some f → f ∈ r.frames ∧ ∀ g ∈ r.frames, g ≠ f → entry history f < entry history g) ∧
      r.size = r.frames.toFinset.card ∧ r.size ≤ numPages := by
  have ordered := run.ordered few
  have size : r.size = r.frames.toFinset.card := by
    rw [List.toFinset_card_of_nodup ordered.wf.frames_nodup, length_frames]
    rfl
  refine ⟨ordered.wf.frames_nodup, ordered.wf.nodes, ordered.wf.hash, ordered.listed, victim_none,
    fun f found => ordered.oldest found, size, ?_⟩
  rw [size]
  refine (Finset.card_le_card fun f member => ?_).trans few
  exact ordered.named f (List.mem_toFinset.mp member)

/-- Unpinning a listed frame again does not make it younger. -/
theorem lru_order_repeated :
    ∃ (history : List (Event (Fin 2))) (r : LRUReplacer (Fin 2)), Run 2 history r ∧
      history = [.unpin 0, .unpin 1, .unpin 0] ∧ r.victim.1 = some 0 ∧
      ∀ g ∈ r.frames, g ≠ 0 → entry history 0 < entry history g := by
  have run : Run 2 [.unpin 0, .unpin 1, .unpin 0] (((new 2 : LRUReplacer (Fin 2)).unpin 0).unpin 1 |>.unpin 0) :=
    ((Run.new.unpin 0).unpin 1).unpin 0
  have order := lru_order run (by decide)
  exact ⟨_, _, run, rfl, by decide, (order.2.2.2.2.2.1 0 (by decide)).2⟩

end Rmdb.LRUReplacer
