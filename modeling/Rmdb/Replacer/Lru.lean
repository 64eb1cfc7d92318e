import Mathlib.Data.List.Nodup
import Mathlib.Logic.Function.Basic

namespace Rmdb

/-- `LRUReplacer`. A list node is identified by the number it was created with,
which is what an iterator stored in `LRUhash_` points to; the head of the list
is the most recent frame. -/
structure LRUReplacer (F : Type) where
  lruList : List (Nat × F)
  lruHash : F → Option Nat
  maxSize : Nat
  nextNode : Nat

namespace LRUReplacer
variable {F : Type}

def new (numPages : Nat) : LRUReplacer F := ⟨[], fun _ => none, numPages, 0⟩

def size (r : LRUReplacer F) : Nat := r.lruList.length

/-- The listed frames, most recent first. -/
def frames (r : LRUReplacer F) : List F := r.lruList.map Prod.snd

/-- List and hash describe each other: every node is reachable through exactly
the frame it holds. -/
structure WF (r : LRUReplacer F) : Prop where
  nodes : (r.lruList.map Prod.fst).Nodup
  created : ∀ node f, (node, f) ∈ r.lruList → node < r.nextNode
  hash : ∀ f node, r.lruHash f = some node ↔ (node, f) ∈ r.lruList

theorem WF.new (numPages : Nat) : (new numPages : LRUReplacer F).WF :=
  ⟨.nil, by simp [LRUReplacer.new], by simp [LRUReplacer.new]⟩

theorem WF.frames_nodup {r : LRUReplacer F} (wf : r.WF) : r.frames.Nodup := by
  have entries : r.lruList.Nodup := wf.nodes.of_map _
  apply entries.map_on
  rintro ⟨node, f⟩ atF ⟨node', f'⟩ atF' same
  change f = f' at same
  subst f'
  have := ((wf.hash f node).mpr atF).symm.trans ((wf.hash f node').mpr atF')
  rw [Option.some.inj this]

theorem WF.mem_frames {r : LRUReplacer F} (wf : r.WF) {f : F} :
    f ∈ r.frames ↔ (r.lruHash f).isSome := by
  simp only [frames, List.mem_map, Option.isSome_iff_exists, wf.hash]
  constructor
  · rintro ⟨⟨node, _⟩, member, rfl⟩
    exact ⟨node, member⟩
  · rintro ⟨node, member⟩
    exact ⟨(node, f), member, rfl⟩

theorem length_frames (r : LRUReplacer F) : r.frames.length = r.lruList.length := List.length_map _

theorem WF.pin_entry {r : LRUReplacer F} (wf : r.WF) {f : F} {node : Nat} (found : r.lruHash f = some node)
    (entry : Nat × F) :
    entry ∈ r.lruList.filter (fun e => e.1 ≠ node) ↔ entry ∈ r.lruList ∧ entry.2 ≠ f := by
  obtain ⟨other, g⟩ := entry
  simp only [List.mem_filter, decide_not, Bool.not_eq_true', decide_eq_false_iff_not, ne_eq]
  refine and_congr_right fun member => not_congr ⟨?_, ?_⟩
  · rintro rfl
    have same := List.inj_on_of_nodup_map wf.nodes member ((wf.hash f other).mp found) rfl
    exact congrArg Prod.snd same
  · rintro rfl
    exact Option.some.inj (((wf.hash g other).mpr member).symm.trans found)

variable [DecidableEq F]

/-- `victim`: the frame at the back of the list leaves the list and the hash. -/
def victim (r : LRUReplacer F) : Option F × LRUReplacer F :=
  match r.lruList.getLast? with
  | none => (none, r)
  | some (_, f) =>
    (some f, { r with lruList := r.lruList.dropLast, lruHash := Function.update r.lruHash f none })

def pin (r : LRUReplacer F) (f : F) : LRUReplacer F :=
  match r.lruHash f with
  | none => r
  | some node =>
    { r with lruList := r.lruList.filter (fun entry => entry.1 ≠ node),
             lruHash := Function.update r.lruHash f none }

def unpin (r : LRUReplacer F) (f : F) : LRUReplacer F :=
  if (r.lruHash f).isSome then r
  else if r.maxSize ≤ r.lruList.length then r
  else { r with lruList := (r.nextNode, f) :: r.lruList,
                lruHash := Function.update r.lruHash f (some r.nextNode),
                nextNode := r.nextNode + 1 }

/-- Dropping the nodes outside a set of list entries keeps the tables consistent
when the hash forgets exactly the frames that were dropped. -/
theorem WF.remove {r : LRUReplacer F} (wf : r.WF) {f : F} {rest : List (Nat × F)}
    (sub : rest.Sublist r.lruList) (gone : ∀ entry, entry ∈ rest ↔ entry ∈ r.lruList ∧ entry.2 ≠ f) :
    ({ r with lruList := rest, lruHash := Function.update r.lruHash f none } : LRUReplacer F).WF where
  nodes := wf.nodes.sublist (sub.map _)
  created node g member := wf.created node g (sub.subset member)
  hash g node := by
    change Function.update r.lruHash f none g = some node ↔ (node, g) ∈ rest
    rw [gone]
    by_cases same : g = f
    · subst g
      simp
    · rw [Function.update_of_ne same, wf.hash]
      exact (and_iff_left same).symm

theorem victim_none {r : LRUReplacer F} : r.victim.1 = none ↔ r.frames = [] := by
  unfold victim
  cases last : r.lruList.getLast? with
  | none => simp [frames, List.getLast?_eq_none_iff.mp last]
  | some entry =>
    have nonempty : r.lruList ≠ [] := by
      rintro empty
      simp [empty] at last
    simpa [frames] using nonempty

theorem victim_none_state {r r' : LRUReplacer F} (run : r.victim = (none, r')) : r' = r := by
  unfold victim at run
  split at run
  · exact (Prod.mk.inj run).2.symm
  · cases run

theorem victim_some {r r' : LRUReplacer F} {f : F} (run : r.victim = (some f, r')) :
    r.frames = r'.frames ++ [f] ∧ r'.maxSize = r.maxSize := by
  unfold victim at run
  split at run
  · cases run
  · rename_i node g last
    cases run
    have split := List.dropLast_append_getLast? _ last
    refine ⟨?_, rfl⟩
    conv_lhs => rw [frames, ← split]
    simp only [List.map_append, List.map_cons, List.map_nil, frames]

theorem WF.victim {r r' : LRUReplacer F} {f : F} (wf : r.WF) (run : r.victim = (some f, r')) : r'.WF := by
  have nodup := wf.frames_nodup
  rw [(victim_some run).1] at nodup
  unfold LRUReplacer.victim at run
  split at run
  · cases run
  · rename_i node g last
    cases run
    have split := List.dropLast_append_getLast? _ last
    apply wf.remove (List.dropLast_sublist _)
    intro entry
    constructor
    · intro member
      refine ⟨List.dropLast_subset _ member, ?_⟩
      rintro rfl
      exact (List.nodup_append.mp nodup).2.2 _ (List.mem_map_of_mem member) _ (by simp) rfl
    · rintro ⟨member, other⟩
      rw [← split, List.mem_append, List.mem_singleton] at member
      rcases member with inside | atEnd
      · exact inside
      · subst entry
        exact absurd rfl other

theorem WF.pin {r : LRUReplacer F} (wf : r.WF) (f : F) : (r.pin f).WF := by
  unfold LRUReplacer.pin
  split
  · exact wf
  · rename_i node found
    exact wf.remove List.filter_sublist (wf.pin_entry found)

theorem WF.mem_pin {r : LRUReplacer F} (wf : r.WF) {f g : F} :
    g ∈ (r.pin f).frames ↔ g ∈ r.frames ∧ g ≠ f := by
  rw [(wf.pin f).mem_frames, wf.mem_frames]
  unfold LRUReplacer.pin
  cases found : r.lruHash f with
  | none =>
    refine ⟨fun listed => ⟨listed, ?_⟩, fun h => h.1⟩
    rintro rfl
    simp [found] at listed
  | some node =>
    by_cases same : g = f
    · subst g
      simp
    · simp [same]

@[simp] theorem pin_maxSize (r : LRUReplacer F) (f : F) : (r.pin f).maxSize = r.maxSize := by
  unfold pin
  split <;> rfl

@[simp] theorem unpin_maxSize (r : LRUReplacer F) (f : F) : (r.unpin f).maxSize = r.maxSize := by
  unfold unpin
  split
  · rfl
  · split <;> rfl

theorem WF.unpin {r : LRUReplacer F} (wf : r.WF) (f : F) : (r.unpin f).WF := by
  unfold LRUReplacer.unpin
  split
  · exact wf
  · rename_i absent
    split
    · exact wf
    · have fresh : ∀ g, (r.nextNode, g) ∉ r.lruList := fun g member =>
        Nat.lt_irrefl _ (wf.created _ g member)
      have noEntry : ∀ node, (node, f) ∉ r.lruList := fun node member =>
        absent (by simp [(wf.hash f node).mpr member])
      refine ⟨?_, ?_, ?_⟩
      · simp only [List.map_cons, List.nodup_cons]
        refine ⟨?_, wf.nodes⟩
        intro member
        obtain ⟨⟨node, g⟩, atG, rfl⟩ := List.mem_map.mp member
        exact fresh g atG
      · intro node g member
        rcases List.mem_cons.mp member with new | old
        · cases new
          exact Nat.lt_succ_self _
        · exact Nat.lt_succ_of_lt (wf.created node g old)
      · intro g node
        change Function.update r.lruHash f (some r.nextNode) g = some node ↔ (node, g) ∈ (r.nextNode, f) :: r.lruList
        by_cases same : g = f
        · subst g
          simp [noEntry, eq_comm]
        · simp [wf.hash, same]

theorem frames_unpin (r : LRUReplacer F) {f : F} (absent : ¬(r.lruHash f).isSome)
    (room : r.lruList.length < r.maxSize) : (r.unpin f).frames = f :: r.frames := by
  unfold unpin
  rw [if_neg absent, if_neg (by omega)]
  rfl

theorem mem_of_mem_unpin {r : LRUReplacer F} {f g : F} (member : g ∈ (r.unpin f).frames) : g = f ∨ g ∈ r.frames := by
  unfold unpin at member
  split at member
  · exact Or.inr member
  · split at member
    · exact Or.inr member
    · exact List.mem_cons.mp member

/-- With room for one more distinct frame, `unpin` lists the frame and keeps the rest. -/
theorem WF.mem_unpin {r : LRUReplacer F} (wf : r.WF) {f g : F}
    (room : f ∉ r.frames → r.lruList.length < r.maxSize) :
    g ∈ (r.unpin f).frames ↔ g = f ∨ g ∈ r.frames := by
  by_cases listed : f ∈ r.frames
  · have same : r.unpin f = r := by
      rw [LRUReplacer.unpin, if_pos (wf.mem_frames.mp listed)]
    rw [same]
    refine ⟨Or.inr, ?_⟩
    rintro (rfl | member)
    · exact listed
    · exact member
  · rw [frames_unpin r (fun found => listed (wf.mem_frames.mpr found)) (room listed), List.mem_cons]

end LRUReplacer

end Rmdb
