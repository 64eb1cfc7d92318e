import Rmdb.Index.LeafRing
import Rmdb.Kit.Separators

namespace Rmdb
open BufferPoolManager

/-- The keys of a node of at most `get_max_size` entries lie before its `Rid`s. -/
structure IxFileHdr.KeysFit (hdr : IxFileHdr) : Prop where
  fits : hdr.Fits
  len_nonneg : 0 ≤ hdr.colTotLen
  keys : (hdr.btreeOrder + 1) * hdr.colTotLen ≤ hdr.keysSize

/-- `create_index` makes headers of this kind. -/
theorem IxManager.newFileHdr_keysFit {cols : List ColMeta} (nonneg : 0 ≤ colTotLen cols)
    (short : colTotLen cols ≤ IX_MAX_COL_LEN) : (newFileHdr cols).KeysFit :=
  ⟨newFileHdr_fits nonneg short, nonneg, le_rfl⟩

/-- The bytes of the keys of a node. -/
def IxFileHdr.keyArea (hdr : IxFileHdr) : Set Nat := {i | 24 ≤ i ∧ (i : Int) < 24 + hdr.keysSize}

/-! The keys of a node and the children of an inner one. -/

namespace IxNodeHandle

def getParentPageNo (d : PageData) : Int := d.readInt 4

def valueAt (hdr : IxFileHdr) (d : PageData) (i : Int) : Int := (getRid hdr d i).pageNo

def keyOffset (hdr : IxFileHdr) (keyIdx : Int) : Int := 24 + keyIdx * hdr.colTotLen

/-- The key lies in the page. -/
def KeyInside (hdr : IxFileHdr) (keyIdx : Int) : Prop :=
  0 ≤ hdr.colTotLen ∧ 0 ≤ keyOffset hdr keyIdx ∧ keyOffset hdr keyIdx + hdr.colTotLen ≤ PAGE_SIZE

instance (hdr : IxFileHdr) (keyIdx : Int) : Decidable (KeyInside hdr keyIdx) :=
  inferInstanceAs (Decidable (_ ∧ _ ∧ _))

/-- The `col_tot_len` bytes at `get_key`. -/
def getKey (hdr : IxFileHdr) (d : PageData) (keyIdx : Int) : List UInt8 :=
  (List.range hdr.colTotLen.toNat).map fun i => d.peek ((keyOffset hdr keyIdx).toNat + i)

def setKey (hdr : IxFileHdr) (d : PageData) (keyIdx : Int) (key : List UInt8) : PageData :=
  d.poke (keyOffset hdr keyIdx).toNat hdr.colTotLen.toNat fun i => key.getD i 0

/-- The loop of `find_child`, with so many children left. -/
def findChildFrom (hdr : IxFileHdr) (d : PageData) (child : Int) : Nat → Nat → Except Error Nat
  | 0, _ => .error .assertion
  | left + 1, ridIdx =>
    if ¬RidInside hdr ridIdx then .error .undefined
    else if valueAt hdr d ridIdx = child then .ok ridIdx
    else findChildFrom hdr d child left (ridIdx + 1)

def findChild (hdr : IxFileHdr) (d : PageData) (child : Int) : Except Error Nat :=
  findChildFrom hdr d child (getSize d).toNat 0

section
variable {hdr : IxFileHdr} {d : PageData} {child : Int} {left i j k : Nat}

theorem findChildFrom_found (inside : ∀ j < i + left, RidInside hdr (j : Nat)) (lower : i ≤ k) (upper : k < i + left)
    (here : valueAt hdr d k = child) (before : ∀ j, i ≤ j → j < k → valueAt hdr d j ≠ child) :
    findChildFrom hdr d child left i = .ok k := by
  induction left generalizing i with
  | zero => omega
  | succ left ih =>
    rw [findChildFrom, if_neg (not_not.mpr (inside i (by omega)))]
    by_cases first : i = k
    · subst i
      rw [if_pos here]
    · rw [if_neg (before i le_rfl (by omega))]
      exact ih (fun j below => inside j (by omega)) (by omega) (by omega) fun j after => before j (by omega)

theorem findChildFrom_missing (inside : ∀ j < i + left, RidInside hdr (j : Nat))
    (nowhere : ∀ j, i ≤ j → j < i + left → valueAt hdr d j ≠ child) :
    findChildFrom hdr d child left i = .error .assertion := by
  induction left generalizing i with
  | zero => rfl
  | succ left ih =>
    rw [findChildFrom, if_neg (not_not.mpr (inside i (by omega))), if_neg (nowhere i le_rfl (by omega))]
    exact ih (fun j below => inside j (by omega)) fun j after below => nowhere j (by omega) (by omega)

theorem findChildFrom_congr {e : PageData} (same : ∀ j : Nat, valueAt hdr d j = valueAt hdr e j) (left i : Nat) :
    findChildFrom hdr d child left i = findChildFrom hdr e child left i := by
  induction left generalizing i with
  | zero => rfl
  | succ left ih =>
    unfold findChildFrom
    rw [same, ih]

@[simp] theorem length_getKey (hdr : IxFileHdr) (d : PageData) (keyIdx : Int) :
    (getKey hdr d keyIdx).length = hdr.colTotLen.toNat := by
  unfold getKey
  rw [List.length_map, List.length_range]

theorem getKey_congr {e : PageData} {keyIdx : Int}
    (same : ∀ i < hdr.colTotLen.toNat, d.peek ((keyOffset hdr keyIdx).toNat + i) =
      e.peek ((keyOffset hdr keyIdx).toNat + i)) : getKey hdr d keyIdx = getKey hdr e keyIdx :=
  List.map_congr_left fun i below => same i (List.mem_range.mp below)

theorem getKey_setKey {keyIdx : Int} {key : List UInt8} (inside : KeyInside hdr keyIdx)
    (length : key.length = hdr.colTotLen.toNat) : getKey hdr (setKey hdr d keyIdx key) keyIdx = key := by
  obtain ⟨nonneg, lower, upper⟩ := inside
  have bytes : getKey hdr (setKey hdr d keyIdx key) keyIdx = (List.range key.length).map fun i => key.getD i 0 := by
    rw [length]
    refine List.map_congr_left fun i below => ?_
    have below := List.mem_range.mp below
    rw [setKey, Block.peek_poke_inside d _ (by omega) (by omega) (by omega), Nat.add_sub_cancel_left]
  rw [bytes]
  refine List.ext_getElem (by rw [List.length_map, List.length_range]) fun i _ below => ?_
  rw [List.getElem_map, List.getElem_range, List.getD_eq_getElem?_getD, List.getElem?_eq_getElem below]
  rfl

/-- Two keys of a node have no bytes in common. -/
theorem keyOffset_apart (nonneg : 0 ≤ hdr.colTotLen) (less : j < k) :
    (keyOffset hdr j).toNat + hdr.colTotLen.toNat ≤ (keyOffset hdr k).toNat := by
  have step : ((j : Int) + 1) * hdr.colTotLen ≤ k * hdr.colTotLen :=
    mul_le_mul_of_nonneg_right (by omega) nonneg
  have start : 0 ≤ (j : Int) * hdr.colTotLen := mul_nonneg (by omega) nonneg
  rw [add_mul, one_mul] at step
  unfold keyOffset
  omega

theorem getKey_setKey_ne {key : List UInt8} (nonneg : 0 ≤ hdr.colTotLen) (different : j ≠ k) :
    getKey hdr (setKey hdr d k key) j = getKey hdr d j := by
  refine getKey_congr fun i below => Block.peek_poke_outside d _ ?_
  rcases Nat.lt_or_gt_of_ne different with less | less
  · have := keyOffset_apart nonneg less
    omega
  · have := keyOffset_apart nonneg less
    omega

theorem peek_setKey {key : List UInt8} (fit : hdr.KeysFit) (below : (k : Int) < hdr.btreeOrder + 1)
    (outside : i ∉ hdr.keyArea) : (setKey hdr d k key).peek i = d.peek i := by
  have nonneg := fit.len_nonneg
  have last : ((k : Int) + 1) * hdr.colTotLen ≤ (hdr.btreeOrder + 1) * hdr.colTotLen :=
    mul_le_mul_of_nonneg_right (by omega) nonneg
  have start : 0 ≤ (k : Int) * hdr.colTotLen := mul_nonneg (by omega) nonneg
  have keys := fit.keys
  rw [add_mul, one_mul] at last
  refine Block.peek_poke_outside d _ ?_
  by_contra inside
  refine outside ⟨?_, ?_⟩ <;> unfold keyOffset at inside <;> omega

theorem keyInside (fit : hdr.KeysFit) (below : (k : Int) < hdr.btreeOrder + 1) : KeyInside hdr k := by
  have nonneg := fit.len_nonneg
  have last : ((k : Int) + 1) * hdr.colTotLen ≤ (hdr.btreeOrder + 1) * hdr.colTotLen :=
    mul_le_mul_of_nonneg_right (by omega) nonneg
  have start : 0 ≤ (k : Int) * hdr.colTotLen := mul_nonneg (by omega) nonneg
  have keys := fit.keys
  have inside := fit.fits.inside
  rw [add_mul, one_mul] at last
  unfold KeyInside keyOffset
  omega

theorem ridInside (fit : hdr.KeysFit) (below : (k : Int) < hdr.btreeOrder + 1) : RidInside hdr k := by
  have keys := fit.fits.keys_nonneg
  have inside := fit.fits.inside
  unfold RidInside ridAt
  omega

end

end IxNodeHandle

open IxNodeHandle

namespace IxIndexHandle
variable {ih : IxIndexHandle} {look look' : PageId → PageData} {nodes : Set Int} {a c p : Int} {k : Nat}

/-- Node `c` is the `k`-th child of the inner node `a`. -/
structure ChildAt (ih : IxIndexHandle) (look : PageId → PageData) (a : Int) (k : Nat) (c : Int) : Prop where
  inner : isLeafPage (look ⟨ih.fd, a⟩) = false
  below : (k : Int) < getSize (look ⟨ih.fd, a⟩)
  value : valueAt ih.fileHdr (look ⟨ih.fd, a⟩) k = c

/-- A tree of nodes that are not empty; each child occurs once in its parent and points back to it. -/
structure IxTree (ih : IxIndexHandle) (look : PageId → PageData) (nodes : Set Int) : Prop where
  keysFit : ih.fileHdr.KeysFit
  valid : ∀ a ∈ nodes, a ≠ IX_NO_PAGE
  filled : ∀ a ∈ nodes, 0 < getSize (look ⟨ih.fd, a⟩)
  size_le : ∀ a ∈ nodes, getSize (look ⟨ih.fd, a⟩) ≤ ih.fileHdr.btreeOrder + 1
  child : ∀ a ∈ nodes, ∀ k c, ChildAt ih look a k c → c ∈ nodes ∧ getParentPageNo (look ⟨ih.fd, c⟩) = a
  once : ∀ a ∈ nodes, ∀ j k c, ChildAt ih look a j c → ChildAt ih look a k c → j = k
  rooted : ∃ root ∈ nodes, getParentPageNo (look ⟨ih.fd, root⟩) = IX_NO_PAGE ∧
    ∀ a ∈ nodes, Relation.ReflTransGen (fun a c => ∃ k, ChildAt ih look a k c) root a

/-- Where the node is a child, the key of its parent at its position is its first key. -/
def Separated (ih : IxIndexHandle) (look : PageId → PageData) (nodes : Set Int) (c : Int) : Prop :=
  ∀ a ∈ nodes, ∀ k : Nat, ChildAt ih look a k c →
    getKey ih.fileHdr (look ⟨ih.fd, a⟩) k = getKey ih.fileHdr (look ⟨ih.fd, c⟩) 0

def parentOf (ih : IxIndexHandle) (look : PageId → PageData) (a : Int) : Option Int :=
  if getParentPageNo (look ⟨ih.fd, a⟩) = IX_NO_PAGE then none else some (getParentPageNo (look ⟨ih.fd, a⟩))

/-- The position of a node in its parent. -/
def rankOf (ih : IxIndexHandle) (look : PageId → PageData) (a : Int) : Nat :=
  match findChild ih.fileHdr (look ⟨ih.fd, getParentPageNo (look ⟨ih.fd, a⟩)⟩) a with
  | .ok k => k
  | .error _ => 0

def keysOf (ih : IxIndexHandle) (look : PageId → PageData) (a : Int) (k : Nat) : List UInt8 :=
  getKey ih.fileHdr (look ⟨ih.fd, a⟩) k

theorem parentOf_some (ih : IxIndexHandle) (look : PageId → PageData) (a p : Int) :
    parentOf ih look a = some p ↔ getParentPageNo (look ⟨ih.fd, a⟩) = p ∧ p ≠ IX_NO_PAGE := by
  unfold parentOf
  split
  · rename_i root
    refine iff_of_false (by rintro ⟨⟩) ?_
    rintro ⟨same, other⟩
    exact other (same.symm.trans root)
  · rename_i inner
    rw [Option.some.injEq]
    constructor
    · rintro rfl
      exact ⟨rfl, inner⟩
    · exact fun both => both.1

namespace IxTree
variable (tree : IxTree ih look nodes)

include tree

theorem findChild_childAt (member : a ∈ nodes) (at_k : ChildAt ih look a k c) :
    findChild ih.fileHdr (look ⟨ih.fd, a⟩) c = .ok k := by
  have below := at_k.below
  have most := tree.size_le a member
  refine findChildFrom_found (fun j before => ridInside tree.keysFit (by omega)) (Nat.zero_le k) (by omega)
    at_k.value ?_
  intro j _ before here
  have again := tree.once a member j k c ⟨at_k.inner, by omega, here⟩ at_k
  omega

/-- A node that is not a child of `a` is not found there. -/
theorem findChild_missing (member : a ∈ nodes) (nowhere : ∀ k, ¬ChildAt ih look a k c)
    (inner : isLeafPage (look ⟨ih.fd, a⟩) = false) : findChild ih.fileHdr (look ⟨ih.fd, a⟩) c = .error .assertion := by
  have most := tree.size_le a member
  refine findChildFrom_missing (fun j before => ridInside tree.keysFit (by omega)) ?_
  intro j _ before here
  exact nowhere j ⟨inner, by omega, here⟩

theorem parentOf_child (member : a ∈ nodes) (at_k : ChildAt ih look a k c) : parentOf ih look c = some a := by
  rw [parentOf_some]
  exact ⟨(tree.child a member k c at_k).2, tree.valid a member⟩

theorem rankOf_child (member : a ∈ nodes) (at_k : ChildAt ih look a k c) : rankOf ih look c = k := by
  unfold rankOf
  rw [(tree.child a member k c at_k).2, tree.findChild_childAt member at_k]

theorem reached_mem (top : p ∈ nodes) (reach : Relation.ReflTransGen (fun a c => ∃ k, ChildAt ih look a k c) p a) :
    a ∈ nodes := by
  induction reach with
  | refl => exact top
  | tail _ step before =>
    obtain ⟨k, at_k⟩ := step
    exact (tree.child _ before k _ at_k).1

/-- A node with a parent is the child at its position there. -/
theorem childAt_parent (member : c ∈ nodes) (up : parentOf ih look c = some a) :
    a ∈ nodes ∧ ChildAt ih look a (rankOf ih look c) c := by
  obtain ⟨root, memberRoot, top, reach⟩ := tree.rooted
  rcases Relation.ReflTransGen.cases_tail (reach c member) with same | ⟨b, before, k, at_k⟩
  · rw [same, parentOf, if_pos top] at up
    cases up
  · have memberB := tree.reached_mem memberRoot before
    rw [tree.rankOf_child memberB at_k]
    cases up.symm.trans (tree.parentOf_child memberB at_k)
    exact ⟨memberB, at_k⟩

theorem places : Places nodes (parentOf ih look) (rankOf ih look) := by
  constructor
  case closed => exact fun a member p up => (tree.childAt_parent member up).1
  case apart =>
    intro a memberA b memberB p upA upB same
    rw [← (tree.childAt_parent memberA upA).2.value, ← (tree.childAt_parent memberB upB).2.value, same]
  case ancestors =>
    intro a member
    obtain ⟨root, memberRoot, top, reach⟩ := tree.rooted
    induction reach a member with
    | refl => exact ⟨[], if_pos top⟩
    | @tail b c before step ih =>
      obtain ⟨k, at_k⟩ := step
      have memberB := tree.reached_mem memberRoot before
      obtain ⟨path, ancestors⟩ := ih memberB
      exact ⟨b :: path, tree.parentOf_child memberB at_k, ancestors⟩

end IxTree

/-- The nodes have the same bytes but for their keys. -/
def SameShape (ih : IxIndexHandle) (nodes : Set Int) (look look' : PageId → PageData) : Prop :=
  ∀ a ∈ nodes, ∀ i ∉ ih.fileHdr.keyArea, (look' ⟨ih.fd, a⟩).peek i = (look ⟨ih.fd, a⟩).peek i

namespace SameShape
variable (shape : SameShape ih nodes look look') (fit : ih.fileHdr.KeysFit)

include shape

theorem readInt (member : a ∈ nodes) {off : Nat} (outside : ∀ i, off ≤ i → i < off + 4 → i ∉ ih.fileHdr.keyArea) :
    (look' ⟨ih.fd, a⟩).readInt off = (look ⟨ih.fd, a⟩).readInt off :=
  Block.readInt_congr fun i lower upper => shape a member i (outside i lower upper)

/-- The header of a node. -/
theorem header (member : a ∈ nodes) : getParentPageNo (look' ⟨ih.fd, a⟩) = getParentPageNo (look ⟨ih.fd, a⟩) ∧
    getSize (look' ⟨ih.fd, a⟩) = getSize (look ⟨ih.fd, a⟩) ∧
    isLeafPage (look' ⟨ih.fd, a⟩) = isLeafPage (look ⟨ih.fd, a⟩) := by
  have before : ∀ i < 24, i ∉ ih.fileHdr.keyArea := fun i below inside => by
    have := inside.1
    omega
  refine ⟨shape.readInt member fun i _ upper => before i (by omega),
    shape.readInt member fun i _ upper => before i (by omega), ?_⟩
  unfold isLeafPage
  rw [shape a member 12 (before 12 (by decide))]

include fit

theorem getRid (member : a ∈ nodes) (k : Nat) :
    IxNodeHandle.getRid ih.fileHdr (look' ⟨ih.fd, a⟩) k = IxNodeHandle.getRid ih.fileHdr (look ⟨ih.fd, a⟩) k := by
  have keys := fit.fits.keys_nonneg
  have behind : ∀ i, (ridAt ih.fileHdr k).toNat ≤ i → i ∉ ih.fileHdr.keyArea := by
    intro i lower inside
    have := inside.2
    unfold ridAt at lower
    omega
  unfold IxNodeHandle.getRid
  rw [shape.readInt member fun i lower _ => behind i lower, shape.readInt member fun i lower _ => behind i (by omega)]

theorem valueAt (member : a ∈ nodes) (k : Nat) :
    IxNodeHandle.valueAt ih.fileHdr (look' ⟨ih.fd, a⟩) k = IxNodeHandle.valueAt ih.fileHdr (look ⟨ih.fd, a⟩) k :=
  congrArg Rid.pageNo (shape.getRid fit member k)

theorem findChild (member : a ∈ nodes) (c : Int) :
    IxNodeHandle.findChild ih.fileHdr (look' ⟨ih.fd, a⟩) c = IxNodeHandle.findChild ih.fileHdr (look ⟨ih.fd, a⟩) c := by
  unfold IxNodeHandle.findChild
  rw [(shape.header member).2.1]
  exact findChildFrom_congr (shape.valueAt fit member) _ _

theorem childAt_iff (member : a ∈ nodes) : ChildAt ih look' a k c ↔ ChildAt ih look a k c := by
  obtain ⟨_, size, isLeaf⟩ := shape.header member
  have value := shape.valueAt fit member k
  constructor
  · rintro ⟨inner, below, at_k⟩
    exact ⟨isLeaf ▸ inner, size ▸ below, value ▸ at_k⟩
  · rintro ⟨inner, below, at_k⟩
    exact ⟨isLeaf.symm ▸ inner, size.symm ▸ below, value.symm ▸ at_k⟩

end SameShape

/-- In a tree of this shape the separators are right where the keys agree. -/
theorem IxTree.separated_iff (tree : IxTree ih look nodes) (shape : SameShape ih nodes look look')
    (member : c ∈ nodes) :
    Separated ih look' nodes c ↔ Agrees (parentOf ih look) (rankOf ih look) (keysOf ih look') c := by
  constructor
  · intro separated p up
    obtain ⟨memberP, at_k⟩ := tree.childAt_parent member up
    exact separated p memberP _ ((shape.childAt_iff tree.keysFit memberP).mpr at_k)
  · intro agrees a memberA k at_k
    have at_k := (shape.childAt_iff tree.keysFit memberA).mp at_k
    have same := agrees a (tree.parentOf_child memberA at_k)
    rwa [tree.rankOf_child memberA at_k] at same

section
variable (fit : ih.fileHdr.KeysFit) (below : (k : Int) < ih.fileHdr.btreeOrder + 1)
  (written : ∀ b ∈ nodes, look' ⟨ih.fd, b⟩ = Function.update look ⟨ih.fd, p⟩
    (setKey ih.fileHdr (look ⟨ih.fd, p⟩) k (getKey ih.fileHdr (look ⟨ih.fd, a⟩) 0)) ⟨ih.fd, b⟩)

include fit below written

/-- A key of a node written over by the first key of another. -/
theorem keysOf_written {rank : Int → Nat} (place : rank a = k) : ∀ b ∈ nodes,
    keysOf ih look' b = raise rank (keysOf ih look) a p b := by
  intro b member
  funext j
  unfold keysOf
  rw [written b member]
  by_cases atP : b = p
  · subst b
    rw [Function.update_self, raise_self, place]
    by_cases same : j = k
    · rw [if_pos same, same]
      exact getKey_setKey (keyInside fit below) (length_getKey _ _ _)
    · rw [if_neg same]
      exact getKey_setKey_ne fit.len_nonneg same
  · rw [Function.update_of_ne (fun same => atP (PageId.mk.inj same).2), raise_other atP]

theorem sameShape_written : SameShape ih nodes look look' := by
  intro b member i outside
  rw [written b member, Function.update_apply]
  split
  · rename_i same
    rw [same]
    exact peek_setKey fit below outside
  · rfl

end

theorem SameShape.trans {look'' : PageId → PageData} (first : SameShape ih nodes look look')
    (second : SameShape ih nodes look' look'') : SameShape ih nodes look look'' := fun a member i outside =>
  (second a member i outside).trans (first a member i outside)

end IxIndexHandle

end Rmdb
