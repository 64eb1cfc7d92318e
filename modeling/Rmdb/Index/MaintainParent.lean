import Mathlib.Logic.Relation
import Rmdb.Index.Tree

namespace Rmdb
open BufferPoolManager IxNodeHandle

namespace IxIndexHandle
variable {N : Nat}

/-- The asserted release of a node. -/
def releaseNode (node : Fin N) : PoolM N Unit := do
  let s ← get
  let released ← unpinPage (s.pages node).id true
  if released = false then throw .assertion

/-- What a turn of `maintain_parent` does with the parent it has fetched; whether the loop ends there. -/
def maintainKey (ih : IxIndexHandle) (curr parent : Fin N) : PoolM N Bool := do
  let s ← get
  let rank ← ensure (findChild ih.fileHdr (s.pages parent).data (s.pages curr).id.pageNo)
  if ¬(KeyInside ih.fileHdr rank ∧ KeyInside ih.fileHdr 0) then throw .undefined
  let childFirstKey := getKey ih.fileHdr (s.pages curr).data 0
  if getKey ih.fileHdr (s.pages parent).data rank = childFirstKey then
    releaseNode parent
    return true
  else
    writeBytes parent (setKey ih.fileHdr (s.pages parent).data rank childFirstKey)
    releaseNode parent
    return false

/-- `maintain_parent`, unless the loop takes more turns. A parent is released before the next turn looks at it as
the child. -/
def maintainParent (ih : IxIndexHandle) : Nat → Fin N → PoolM N (Option Unit)
  | 0, _ => return none
  | turns + 1, curr => do
    let s ← get
    if getParentPageNo (s.pages curr).data = IX_NO_PAGE then return some ()
    else
      let parent ← ih.fetchNode (getParentPageNo (s.pages curr).data)
      let ended ← maintainKey ih curr parent
      if ended then return some () else maintainParent ih turns parent

section
variable {s t u : BufferPoolManager N} {ih : IxIndexHandle} {pages : Set PageId} {p : PageId} {f g : Fin N} {a : Int}
variable {dp da : PageData} {rank : Nat}

theorem releaseNode_returns {node : Fin N} (id : (s.pages node).id = p) (run : unpinPage p true s = .ok true t) :
    releaseNode node s = .ok () t := by
  unfold releaseNode
  rw [get_bind, id, bind_ok run]
  rfl

theorem setPage_same (s : BufferPoolManager N) (f : Fin N) : s.setPage f (s.pages f) = s := by
  unfold setPage
  rw [Function.update_eq_self]

/-- The turn, when the frame of the child still bears it. -/
theorem maintainKey_returns (writable : Writable pages u) (member : p ∈ pages) (run : fetchPage p u = .ok (some f) t)
    (parent : (t.pages f).data = dp) (child : (t.pages g).data = da) (id : (t.pages g).id.pageNo = a)
    (found : findChild ih.fileHdr dp a = .ok rank) (inside : KeyInside ih.fileHdr rank)
    (first : KeyInside ih.fileHdr 0) :
    (getKey ih.fileHdr dp rank = getKey ih.fileHdr da 0 →
      ∃ v, maintainKey ih g f t = .ok true v ∧ Rewritten pages p dp u v) ∧
    (getKey ih.fileHdr dp rank ≠ getKey ih.fileHdr da 0 →
      ∃ v, maintainKey ih g f t = .ok false v ∧ v.pageTable p = some f ∧
        Rewritten pages p (setKey ih.fileHdr dp rank (getKey ih.fileHdr da 0)) u v ∧
        (u.pinsOn p = 0 → ∃ rest, v.replacer.frames = f :: rest)) := by
  have steady := writable.steady
  have fetched := steady.fetchPage member run
  have bears : (t.pages f).id = p := (fetched.steady.noneLost.idOf p f fetched.table).1
  have accepts : ∀ q ∈ pages, t.diskManager.Accepts q := fun q memberQ =>
    fetchPage_accepts run (writable.accepts q memberQ)
  have written := fun d => unpinPage_rewrites (steady.pinsOn_nonneg p) (steady.pinsOn_small p) fetched accepts member d
  have start : ∀ rest : Nat → PoolM N Bool,
      (ensure (findChild ih.fileHdr (t.pages f).data (t.pages g).id.pageNo) >>= rest) t = rest rank t := by
    intro rest
    rw [parent, id, found]
    rfl
  constructor
  · intro same
    obtain ⟨v, released, _, rewritten, _⟩ := written (t.pages f).data
    rw [setPage_same] at released
    rw [parent] at rewritten
    refine ⟨v, ?_, rewritten⟩
    unfold maintainKey
    rw [get_bind, start, if_neg (not_not.mpr ⟨inside, first⟩), parent, child, if_pos same]
    exact bind_ok (releaseNode_returns bears released)
  · intro different
    obtain ⟨v, released, table, rewritten, front⟩ := written (setKey ih.fileHdr dp rank (getKey ih.fileHdr da 0))
    refine ⟨v, ?_, table ▸ fetched.table, rewritten, front⟩
    unfold maintainKey
    rw [get_bind, start, if_neg (not_not.mpr ⟨inside, first⟩), parent, child, if_neg different]
    change (releaseNode f >>= fun _ => (pure false : PoolM N Bool))
      (t.setPage f { t.pages f with data := setKey ih.fileHdr dp rank (getKey ih.fileHdr da 0) }) = _
    refine bind_ok (releaseNode_returns ?_ released)
    simp only [setPage, Function.update_self, bears]

/-- The turn, when the parent has taken the frame of the child. -/
theorem maintainKey_fails (missing : findChild ih.fileHdr (t.pages f).data (t.pages g).id.pageNo = .error .assertion)
    (s' : BufferPoolManager N) (ended : Bool) : maintainKey ih g f t ≠ .ok ended s' := by
  intro run
  unfold maintainKey at run
  rw [get_bind, missing] at run
  cases run

end

/-- Node `a`, which was released last, keeps its frame when `b` is fetched. -/
def Spared (ih : IxIndexHandle) (s : BufferPoolManager N) (a b : Int) : Prop :=
  0 < s.pinsOn ⟨ih.fd, a⟩ ∨ 0 < s.pinsOn ⟨ih.fd, b⟩ ∨ s.pinned + 2 ≤ N

/-- What the loop needs of the pool from node `a` on: a frame for each ancestor it looks at, and another one than that
of the node before. -/
def RoomFrom (ih : IxIndexHandle) (s : BufferPoolManager N) (keys : Int → Nat → List UInt8) (a : Int)
    (path : List Int) : Prop :=
  (∀ b ∈ looked (rankOf ih s.seen) keys a path, Holdable N intMax s.pinned s.pinsOn ⟨ih.fd, b⟩) ∧
    (a :: looked (rankOf ih s.seen) keys a path).IsChain (Spared ih s)

section
variable {s : BufferPoolManager N} {ih : IxIndexHandle} {nodes : Set Int} {keys keys' : Int → Nat → List UInt8}
variable {a p : Int} {path : List Int}

theorem roomFrom_agree (agree : keys p (rankOf ih s.seen a) = keys a 0) : RoomFrom ih s keys a (p :: path) ↔
    Holdable N intMax s.pinned s.pinsOn ⟨ih.fd, p⟩ ∧ Spared ih s a p := by
  unfold RoomFrom
  rw [looked, if_pos agree, List.forall_mem_singleton, List.isChain_pair]

/-- Where the node disagrees, there has to be room for the turns after this one, too. -/
theorem roomFrom_cons (tree : IxTree ih s.seen nodes) (member : a ∈ nodes)
    (ancestors : Ancestors (parentOf ih s.seen) a (p :: path)) (mismatch : keys p (rankOf ih s.seen a) ≠ keys a 0)
    (others : ∀ b ∈ nodes, b ≠ a → Agrees (parentOf ih s.seen) (rankOf ih s.seen) keys b)
    (raised : ∀ b ∈ nodes, keys' b = raise (rankOf ih s.seen) keys a p b) : RoomFrom ih s keys a (p :: path) ↔
      Holdable N intMax s.pinned s.pinsOn ⟨ih.fd, p⟩ ∧ Spared ih s a p ∧ RoomFrom ih s keys' p path := by
  have nodesUp := tree.places.ancestors_mem member ancestors
  have line : looked (rankOf ih s.seen) keys' p path =
      looked (rankOf ih s.seen) (raise (rankOf ih s.seen) keys a p) p path :=
    looked_congr fun b inside => raised b (nodesUp b inside)
  unfold RoomFrom
  rw [tree.places.looked_cons member ancestors mismatch others, line, List.forall_mem_cons, List.isChain_cons_cons]
  exact ⟨fun room => ⟨room.1.1, room.2.1, room.1.2, room.2.2⟩, fun room => ⟨⟨room.1, room.2.2.1⟩, room.2.1, room.2.2.2⟩⟩

end

/-- Where the loop stands that began in pool `s`: node `a` is the next child, and the others agree with their
parents. -/
structure Climb (ih : IxIndexHandle) (pages : Set PageId) (nodes : Set Int) (s : BufferPoolManager N) (a : Int)
    (g : Fin N) (u : BufferPoolManager N) : Prop where
  writable : Writable pages u
  pins : u.pinsOn = s.pinsOn
  pinned : u.pinned = s.pinned
  home : u.pageTable ⟨ih.fd, a⟩ = some g
  recent : s.pinsOn ⟨ih.fd, a⟩ = 0 → ∃ rest, u.replacer.frames = g :: rest
  shape : SameShape ih nodes s.seen u.seen
  others : ∀ b ∈ nodes, b ≠ a → Agrees (parentOf ih s.seen) (rankOf ih s.seen) (keysOf ih u.seen) b

namespace Climb
variable {s t u : BufferPoolManager N} {ih : IxIndexHandle} {pages : Set PageId} {nodes : Set Int} {f g : Fin N}
variable {a p : Int} {path : List Int}

section
variable (climb : Climb ih pages nodes s a g u) (tree : IxTree ih s.seen nodes)
  (members : ∀ a ∈ nodes, ⟨ih.fd, a⟩ ∈ pages) (member : a ∈ nodes)

include climb member

theorem parentNo : getParentPageNo (u.pages g).data = getParentPageNo (s.seen ⟨ih.fd, a⟩) := by
  rw [← seen_some climb.home]
  exact (climb.shape.header member).1

theorem ends (top : parentOf ih s.seen a = none) (turns : Nat) :
    maintainParent ih (turns + 1) g u = .ok (some ()) u := by
  have root : getParentPageNo (s.seen ⟨ih.fd, a⟩) = IX_NO_PAGE := by
    unfold parentOf at top
    split at top
    · assumption
    · cases top
  rw [maintainParent, get_bind, climb.parentNo member, if_pos root]
  rfl

theorem goes_up (up : parentOf ih s.seen a = some p) (turns : Nat) :
    maintainParent ih (turns + 1) g u = (ih.fetchNode p >>= fun parent => do
      let ended ← maintainKey ih g parent
      if ended then return some () else maintainParent ih turns parent) u := by
  obtain ⟨same, inner⟩ := (parentOf_some ih s.seen a p).mp up
  rw [maintainParent, get_bind, climb.parentNo member, same, if_neg inner]

include tree

theorem spared_iff (up : parentOf ih s.seen a = some p) (run : ih.fetchNode p u = .ok f t) :
    t.pageTable ⟨ih.fd, a⟩ = some g ↔ Spared ih s a p := by
  have other : (⟨ih.fd, a⟩ : PageId) ≠ ⟨ih.fd, p⟩ := fun same =>
    tree.places.ne_parent member up (PageId.mk.inj same).2
  rw [fetchPage_spares_iff climb.writable.steady (fetchNode_page run) other climb.home (climb.pins ▸ climb.recent),
    climb.pins, climb.pinned]
  rfl

include members

/-- The turn of the loop once it has the parent. -/
theorem turn (up : parentOf ih s.seen a = some p) (run : ih.fetchNode p u = .ok f t) (spared : Spared ih s a p) :
    (keysOf ih u.seen p (rankOf ih s.seen a) = keysOf ih u.seen a 0 →
      ∃ v, maintainKey ih g f t = .ok true v ∧ Rewritten pages ⟨ih.fd, p⟩ (u.seen ⟨ih.fd, p⟩) u v) ∧
    (keysOf ih u.seen p (rankOf ih s.seen a) ≠ keysOf ih u.seen a 0 →
      ∃ v, maintainKey ih g f t = .ok false v ∧ v.pageTable ⟨ih.fd, p⟩ = some f ∧
        Rewritten pages ⟨ih.fd, p⟩ (setKey ih.fileHdr (u.seen ⟨ih.fd, p⟩) (rankOf ih s.seen a)
          (getKey ih.fileHdr (u.seen ⟨ih.fd, a⟩) 0)) u v ∧
        (u.pinsOn ⟨ih.fd, p⟩ = 0 → ∃ rest, v.replacer.frames = f :: rest)) := by
  obtain ⟨memberP, at_k⟩ := tree.childAt_parent member up
  have steady := climb.writable.steady
  have fetched := (fetchNode_fetched steady (members p memberP) run).1
  have still := (climb.spared_iff tree member up run).mpr spared
  have parent : (t.pages f).data = u.seen ⟨ih.fd, p⟩ := by
    rw [← seen_some fetched.table, fetched.seen _ (members p memberP)]
  have child : (t.pages g).data = u.seen ⟨ih.fd, a⟩ := by
    rw [← seen_some still, fetched.seen _ (members a member)]
  have id : (t.pages g).id.pageNo = a := by rw [(fetched.steady.noneLost.idOf _ g still).1]
  have found : findChild ih.fileHdr (u.seen ⟨ih.fd, p⟩) a = .ok (rankOf ih s.seen a) := by
    rw [climb.shape.findChild tree.keysFit memberP]
    exact tree.findChild_childAt memberP at_k
  have below := at_k.below
  have most := tree.size_le p memberP
  exact maintainKey_returns climb.writable (members p memberP) (fetchNode_page run) parent child id found
    (keyInside tree.keysFit (by omega)) (keyInside (k := 0) tree.keysFit (by omega))

theorem turn_ends (up : parentOf ih s.seen a = some p)
    (holdable : Holdable N intMax s.pinned s.pinsOn ⟨ih.fd, p⟩) (spared : Spared ih s a p)
    (agree : keysOf ih u.seen p (rankOf ih s.seen a) = keysOf ih u.seen a 0) :
    ∃ v, (∀ turns, maintainParent ih (turns + 1) g u = .ok (some ()) v) ∧ Writable pages v ∧
      ∀ q ∈ pages, v.seen q = u.seen q := by
  have memberP := (tree.childAt_parent member up).1
  rw [← climb.pinned, ← climb.pins] at holdable
  obtain ⟨f, t, run, _⟩ := fetchNode_returns climb.writable.steady (members p memberP) rfl holdable
  obtain ⟨v, ended, rewritten⟩ := (climb.turn tree members member up run spared).1 agree
  refine ⟨v, fun turns => ?_, rewritten.writable, fun q inside => ?_⟩
  · rw [climb.goes_up member up, bind_ok run, bind_ok ended]
    rfl
  · rw [rewritten.seen q inside, Function.update_eq_self]

theorem turn_climbs (up : parentOf ih s.seen a = some p)
    (holdable : Holdable N intMax s.pinned s.pinsOn ⟨ih.fd, p⟩) (spared : Spared ih s a p)
    (mismatch : keysOf ih u.seen p (rankOf ih s.seen a) ≠ keysOf ih u.seen a 0) :
    ∃ f v, Climb ih pages nodes s p f v ∧ (∀ turns, maintainParent ih (turns + 1) g u = maintainParent ih turns f v) ∧
      (∀ b ∈ nodes, keysOf ih v.seen b = raise (rankOf ih s.seen) (keysOf ih u.seen) a p b) ∧
      ∀ q ∈ pages, q ≠ ⟨ih.fd, p⟩ → v.seen q = u.seen q := by
  obtain ⟨memberP, at_k⟩ := tree.childAt_parent member up
  have below := at_k.below
  have most := tree.size_le p memberP
  have holdable' := holdable
  rw [← climb.pinned, ← climb.pins] at holdable'
  obtain ⟨f, t, run, _⟩ := fetchNode_returns climb.writable.steady (members p memberP) rfl holdable'
  obtain ⟨v, ended, table, rewritten, front⟩ := (climb.turn tree members member up run spared).2 mismatch
  have written := fun b (inside : b ∈ nodes) => rewritten.seen _ (members b inside)
  have keys := keysOf_written tree.keysFit (by omega) written rfl
  refine ⟨f, v, ?_, fun turns => ?_, keys, fun q inside other => ?_⟩
  · constructor
    case writable => exact rewritten.writable
    case pins => exact rewritten.pins.trans climb.pins
    case pinned => exact rewritten.pinned.trans climb.pinned
    case home => exact table
    case recent => exact climb.pins ▸ front
    case shape => exact climb.shape.trans (sameShape_written tree.keysFit (by omega) written)
    case others =>
      intro b inside other q upB
      have memberQ := tree.places.closed b inside q upB
      rw [keys q memberQ, keys b inside]
      exact tree.places.agrees_raise member up climb.others b inside other q upB
  · rw [climb.goes_up member up, bind_ok run, bind_ok ended]
    rfl
  · rw [rewritten.seen q inside, Function.update_of_ne other]

/-- A turn that goes through has found a frame for the parent, and another one than the child's. -/
theorem turn_needs {turns : Nat} {done : Option Unit} (up : parentOf ih s.seen a = some p)
    (run : maintainParent ih (turns + 1) g u = .ok done t) :
    Holdable N intMax s.pinned s.pinsOn ⟨ih.fd, p⟩ ∧ Spared ih s a p := by
  obtain ⟨memberP, at_k⟩ := tree.childAt_parent member up
  rw [climb.goes_up member up] at run
  obtain ⟨f, v, fetchedNode, rest⟩ := bind_eq_ok.mp run
  obtain ⟨fetched, holdable⟩ := fetchNode_fetched climb.writable.steady (members p memberP) fetchedNode
  rw [climb.pinned, climb.pins] at holdable
  refine ⟨holdable, ?_⟩
  by_contra notSpared
  obtain ⟨ended, w, key, _⟩ := bind_eq_ok.mp rest
  have other : (⟨ih.fd, a⟩ : PageId) ≠ ⟨ih.fd, p⟩ := fun same =>
    tree.places.ne_parent member up (PageId.mk.inj same).2
  -- the frame of the child bears its parent
  have lost : g = f := by
    by_contra apart
    have still := (fetchPage_home climb.writable.steady (fetchNode_page fetchedNode) other climb.home).mpr apart
    exact notSpared ((climb.spared_iff tree member up fetchedNode).mp still)
  subst g
  have data : (v.pages f).data = u.seen ⟨ih.fd, p⟩ := by
    rw [← seen_some fetched.table, fetched.seen _ (members p memberP)]
  have id : (v.pages f).id.pageNo = p := by rw [(fetched.steady.noneLost.idOf _ f fetched.table).1]
  refine maintainKey_fails ?_ w ended key
  rw [data, id, climb.shape.findChild tree.keysFit memberP]
  refine tree.findChild_missing memberP (fun k own => ?_) at_k.inner
  exact tree.places.ne_parent memberP (tree.parentOf_child memberP own) rfl

end

section
variable (tree : IxTree ih s.seen nodes) (members : ∀ a ∈ nodes, ⟨ih.fd, a⟩ ∈ pages)

include tree members

/-- With room for it the loop ends after a turn for each ancestor at most. -/
theorem returns (climb : Climb ih pages nodes s a g u) (member : a ∈ nodes)
    (ancestors : Ancestors (parentOf ih s.seen) a path) (room : RoomFrom ih s (keysOf ih u.seen) a path) :
    ∃ t, (∀ turns, path.length < turns → maintainParent ih turns g u = .ok (some ()) t) ∧
      (∀ c ∈ nodes, Agrees (parentOf ih s.seen) (rankOf ih s.seen) (keysOf ih t.seen) c) ∧
      SameShape ih nodes s.seen t.seen ∧ ∀ q ∈ pages, (∀ b ∈ path, q ≠ ⟨ih.fd, b⟩) → t.seen q = u.seen q := by
  induction path generalizing a g u with
  | nil =>
    refine ⟨u, fun turns enough => ?_, fun c inside => ?_, climb.shape, fun q _ _ => rfl⟩
    · obtain ⟨turns, rfl⟩ := Nat.exists_eq_succ_of_ne_zero (Nat.ne_of_gt enough)
      exact climb.ends member ancestors turns
    · by_cases here : c = a
      · intro p up
        rw [here, ancestors] at up
        cases up
      · exact climb.others c inside here
  | cons p rest ih' =>
    obtain ⟨up, later⟩ := ancestors
    have memberP := tree.places.closed a member p up
    by_cases agree : keysOf ih u.seen p (rankOf ih s.seen a) = keysOf ih u.seen a 0
    · obtain ⟨holdable, spared⟩ := (roomFrom_agree agree).mp room
      obtain ⟨v, ends, _, same⟩ := climb.turn_ends tree members member up holdable spared agree
      have keys : ∀ b ∈ nodes, keysOf ih v.seen b = keysOf ih u.seen b := fun b inside => by
        funext k
        rw [keysOf, same _ (members b inside), keysOf]
      refine ⟨v, fun turns enough => ?_, fun c inside q upC => ?_, ?_, fun q inside _ => same q inside⟩
      · obtain ⟨turns, rfl⟩ := Nat.exists_eq_succ_of_ne_zero (Nat.ne_of_gt (Nat.zero_lt_of_lt enough))
        exact ends turns
      · rw [keys q (tree.places.closed c inside q upC), keys c inside]
        by_cases here : c = a
        · subst c
          cases up.symm.trans upC
          exact agree
        · exact climb.others c inside here q upC
      · intro b inside i outside
        rw [same _ (members b inside)]
        exact climb.shape b inside i outside
    · have ⟨holdable, spared⟩ : Holdable N intMax s.pinned s.pinsOn ⟨ih.fd, p⟩ ∧ Spared ih s a p := by
        have raised : ∀ b ∈ nodes, raise (rankOf ih s.seen) (keysOf ih u.seen) a p b = _ := fun b _ => rfl
        obtain ⟨holdable, spared, _⟩ := (roomFrom_cons tree member ⟨up, later⟩ agree climb.others raised).mp room
        exact ⟨holdable, spared⟩
      obtain ⟨f, v, climb', step, keys, same⟩ := climb.turn_climbs tree members member up holdable spared agree
      have room' := ((roomFrom_cons tree member ⟨up, later⟩ agree climb.others keys).mp room).2.2
      obtain ⟨t, ends, agrees, shape, kept⟩ := ih' climb' memberP later room'
      refine ⟨t, fun turns enough => ?_, agrees, shape, fun q inside others => ?_⟩
      · obtain ⟨turns, rfl⟩ := Nat.exists_eq_succ_of_ne_zero (Nat.ne_of_gt (Nat.zero_lt_of_lt enough))
        rw [step]
        exact ends turns (Nat.lt_of_succ_lt_succ enough)
      · rw [kept q inside fun b later => others b (List.mem_cons_of_mem p later)]
        exact same q inside (others p List.mem_cons_self)

/-- A loop that ends had room. -/
theorem needs {turns : Nat} (climb : Climb ih pages nodes s a g u) (member : a ∈ nodes)
    (ancestors : Ancestors (parentOf ih s.seen) a path) (run : maintainParent ih turns g u = .ok (some ()) t) :
    RoomFrom ih s (keysOf ih u.seen) a path := by
  induction path generalizing a g u turns with
  | nil => exact ⟨fun b absurd => (List.not_mem_nil absurd).elim, List.isChain_singleton a⟩
  | cons p rest ih' =>
    obtain ⟨up, later⟩ := ancestors
    have memberP := tree.places.closed a member p up
    cases turns with
    | zero => cases run
    | succ turns =>
      obtain ⟨holdable, spared⟩ := climb.turn_needs tree members member up run
      by_cases agree : keysOf ih u.seen p (rankOf ih s.seen a) = keysOf ih u.seen a 0
      · exact (roomFrom_agree agree).mpr ⟨holdable, spared⟩
      · obtain ⟨f, v, climb', step, keys, _⟩ := climb.turn_climbs tree members member up holdable spared agree
        rw [step] at run
        exact (roomFrom_cons tree member ⟨up, later⟩ agree climb.others keys).mpr
          ⟨holdable, spared, ih' climb' memberP later run⟩

end

end Climb

/-- Node `b` is above `x`. -/
def IsAncestor (ih : IxIndexHandle) (look : PageId → PageData) (b x : Int) : Prop :=
  Relation.TransGen (fun a c => ∃ k, ChildAt ih look a k c) b x

/-- The separators are right, and but for the keys of the ancestors of `x` the pages are as before. -/
structure Maintained (ih : IxIndexHandle) (pages : Set PageId) (nodes : Set Int) (look look' : PageId → PageData)
    (x : Int) : Prop where
  separated : ∀ c ∈ nodes, Separated ih look' nodes c
  shape : SameShape ih nodes look look'
  children : ∀ a ∈ nodes, ∀ k : Nat,
    IxNodeHandle.getRid ih.fileHdr (look' ⟨ih.fd, a⟩) k = IxNodeHandle.getRid ih.fileHdr (look ⟨ih.fd, a⟩) k
  leaves : ∀ l ∈ nodes, isLeafPage (look ⟨ih.fd, l⟩) = true → look' ⟨ih.fd, l⟩ = look ⟨ih.fd, l⟩
  others : ∀ q ∈ pages, (∀ b, IsAncestor ih look b x → q ≠ ⟨ih.fd, b⟩) → look' q = look q

/-- The pool has a frame for each ancestor that `maintain_parent` looks at, and one that is not that of the node
before, which has been released. -/
def Room (ih : IxIndexHandle) (s : BufferPoolManager N) (x : Int) : Prop :=
  ∃ path, Ancestors (parentOf ih s.seen) x path ∧ RoomFrom ih s (keysOf ih s.seen) x path

section
variable {s : BufferPoolManager N} {ih : IxIndexHandle} {pages : Set PageId} {nodes : Set Int} {g : Fin N} {x : Int}
variable {path : List Int} {look : PageId → PageData}

theorem IxTree.isAncestor (tree : IxTree ih look nodes) (member : x ∈ nodes)
    (ancestors : Ancestors (parentOf ih look) x path) : ∀ b ∈ path, IsAncestor ih look b x := by
  induction path generalizing x with
  | nil => exact fun b absurd => (List.not_mem_nil absurd).elim
  | cons p rest ih' =>
    obtain ⟨memberP, at_k⟩ := tree.childAt_parent member ancestors.1
    intro b inside
    rcases List.mem_cons.mp inside with rfl | above
    · exact .single ⟨_, at_k⟩
    · exact (ih' memberP ancestors.2 b above).tail ⟨_, at_k⟩

theorem Climb.start (writable : Writable pages s) (tree : IxTree ih s.seen nodes) (handle : Handle ih x g s)
    (others : ∀ c ∈ nodes, c ≠ x → Separated ih s.seen nodes c) : Climb ih pages nodes s x g s := by
  have same : SameShape ih nodes s.seen s.seen := fun _ _ _ _ => rfl
  refine ⟨writable, rfl, rfl, handle.home, fun unheld => ?_, same, fun b inside other => ?_⟩
  · have held := handle.held
    omega
  · exact (tree.separated_iff same inside).mp (others b inside other)

end

/-- A node with one entry, of an index with 1356 bytes of keys. -/
def treeNode (parent isLeaf key child : Int) (i : Nat) : UInt8 :=
  if i < 1380 then wordBytes [IX_NO_PAGE, parent, 1, isLeaf, IX_NO_PAGE, IX_NO_PAGE, key] i
  else wordBytes [child, 0] (i - 1380)

def treeBytes (i : Nat) : UInt8 :=
  if i / 4096 = 2 then treeNode 3 1 9 7 (i % 4096)
  else if i / 4096 = 3 then treeNode 4 0 5 2 (i % 4096)
  else if i / 4096 = 4 then treeNode IX_NO_PAGE 0 5 3 (i % 4096) else 0

theorem treeBytes_past_end (i : Nat) (after : 20480 ≤ i) : treeBytes i = 0 := by
  rw [treeBytes, if_neg (by omega), if_neg (by omega), if_neg (by omega)]

/-- The pages of an index of three levels, whose leaf has got another first key. -/
def threeLevels : File := ⟨20480, treeBytes, treeBytes_past_end⟩

def treeDisk : DiskManager := { oneFile with os := { oneFile.os with file := fun _ => threeLevels } }

def treeHandle : IxIndexHandle := ⟨3, { IxManager.newFileHdr IxScan.oneColumn with numPages := 5, rootPage := 4 }⟩

def treeNodes : Set Int := {a | a ∈ [(2 : Int), 3, 4]}

instance (a : Int) : Decidable (a ∈ treeNodes) := inferInstanceAs (Decidable (a ∈ [(2 : Int), 3, 4]))

def treePages : Set PageId := {q | q.fd = 3 ∧ q.pageNo ∈ [(2 : Int), 3, 4]}

/-- Its leaf in a pool of `N` frames. -/
def leafFetched (N : Nat) : BufferPoolManager N := stateAfter (treeHandle.fetchNode 2) (.new treeDisk fun _ => 0)

theorem threeLevels_words : ∀ node ∈ [((2 : Int), true, (3 : Int), (7 : Int)), (3, false, 4, 2), (4, false, -1, 3)],
    isLeafPage (treeDisk.diskPage ⟨3, node.1⟩) = node.2.1 ∧ getSize (treeDisk.diskPage ⟨3, node.1⟩) = 1 ∧
      getParentPageNo (treeDisk.diskPage ⟨3, node.1⟩) = node.2.2.1 ∧
      valueAt treeHandle.fileHdr (treeDisk.diskPage ⟨3, node.1⟩) 0 = node.2.2.2 := by decide +kernel

section
variable {N : Nat} {look : PageId → PageData} (same : ∀ a ∈ treeNodes, look ⟨3, a⟩ = treeDisk.diskPage ⟨3, a⟩)
  {a c : Int} {k : Nat}

include same

/-- The two links of the tree. -/
theorem threeLevels_childAt (member : a ∈ treeNodes) (at_k : ChildAt treeHandle look a k c) :
    (a = 3 ∧ k = 0 ∧ c = 2) ∨ (a = 4 ∧ k = 0 ∧ c = 3) := by
  obtain ⟨inner, below, value⟩ := at_k
  have atA : look ⟨treeHandle.fd, a⟩ = treeDisk.diskPage ⟨3, a⟩ := same a member
  rw [atA] at inner below value
  have words := threeLevels_words
  simp only [List.forall_mem_cons, List.not_mem_nil, false_implies, implies_true, and_true] at words
  obtain ⟨two, three, four⟩ := words
  rcases List.mem_cons.mp member with rfl | member
  · rw [two.1] at inner
    cases inner
  · rcases List.mem_cons.mp member with rfl | member
    · rw [three.2.1] at below
      obtain rfl : k = 0 := by omega
      exact Or.inl ⟨rfl, rfl, value.symm.trans three.2.2.2⟩
    · obtain rfl := List.mem_singleton.mp member
      rw [four.2.1] at below
      obtain rfl : k = 0 := by omega
      exact Or.inr ⟨rfl, rfl, value.symm.trans four.2.2.2⟩

theorem threeLevels_link (member : a ∈ treeNodes) (leads : (a = 3 ∧ c = 2) ∨ (a = 4 ∧ c = 3)) :
    ChildAt treeHandle look a 0 c := by
  have atA : look ⟨treeHandle.fd, a⟩ = treeDisk.diskPage ⟨3, a⟩ := same a member
  rcases leads with ⟨rfl, rfl⟩ | ⟨rfl, rfl⟩
  all_goals constructor <;> rw [atA] <;> decide +kernel

theorem threeLevels_tree : IxTree treeHandle look treeNodes := by
  have shows : ∀ a ∈ treeNodes, look ⟨treeHandle.fd, a⟩ = treeDisk.diskPage ⟨3, a⟩ := same
  have three : (3 : Int) ∈ treeNodes := by decide
  have four : (4 : Int) ∈ treeNodes := by decide
  have fit : (IxManager.newFileHdr IxScan.oneColumn).KeysFit := IxManager.newFileHdr_keysFit (by decide) (by decide)
  constructor
  case keysFit => exact ⟨⟨fit.fits.keys_nonneg, fit.fits.inside⟩, fit.len_nonneg, fit.keys⟩
  case valid => exact (by decide : ∀ a ∈ [(2 : Int), 3, 4], a ≠ IX_NO_PAGE)
  case filled =>
    intro a member
    rw [shows a member]
    exact (by decide +kernel : ∀ a ∈ [(2 : Int), 3, 4], 0 < getSize (treeDisk.diskPage ⟨3, a⟩)) a member
  case size_le =>
    intro a member
    rw [shows a member]
    exact (by decide +kernel : ∀ a ∈ [(2 : Int), 3, 4],
      getSize (treeDisk.diskPage ⟨3, a⟩) ≤ treeHandle.fileHdr.btreeOrder + 1) a member
  case child =>
    intro a member k c at_k
    rcases threeLevels_childAt same member at_k with ⟨rfl, _, rfl⟩ | ⟨rfl, _, rfl⟩
    · exact ⟨by decide, by rw [shows 2 (by decide)]; decide +kernel⟩
    · exact ⟨three, by rw [shows 3 three]; decide +kernel⟩
  case once =>
    intro a member j k c at_j at_k
    rcases threeLevels_childAt same member at_j with ⟨_, rfl, _⟩ | ⟨_, rfl, _⟩ <;>
      rcases threeLevels_childAt same member at_k with ⟨_, rfl, _⟩ | ⟨_, rfl, _⟩ <;> rfl
  case rooted =>
    refine ⟨4, four, by rw [shows 4 four]; decide +kernel, fun a member => ?_⟩
    have down := threeLevels_link same four (c := 3) (Or.inr ⟨rfl, rfl⟩)
    rcases List.mem_cons.mp member with rfl | member
    · exact .tail (.single ⟨0, down⟩) ⟨0, threeLevels_link same three (Or.inl ⟨rfl, rfl⟩)⟩
    · rcases List.mem_cons.mp member with rfl | member
      · exact .single ⟨0, down⟩
      · rw [List.mem_singleton.mp member]

/-- Only the leaf does not agree with its parent. -/
theorem threeLevels_others : ∀ c ∈ treeNodes, c ≠ 2 → Separated treeHandle look treeNodes c := by
  intro c inside other a member k at_k
  rcases threeLevels_childAt same member at_k with ⟨_, _, atC⟩ | ⟨rfl, rfl, rfl⟩
  · exact absurd atC other
  · have atA : look ⟨treeHandle.fd, 4⟩ = treeDisk.diskPage ⟨3, 4⟩ := same 4 member
    have atC : look ⟨treeHandle.fd, 3⟩ = treeDisk.diskPage ⟨3, 3⟩ := same 3 inside
    rw [atA, atC]
    decide +kernel

end

theorem threeLevels_writable (N : Nat) : Writable treePages (.new treeDisk fun _ => 0 : BufferPoolManager N) := by
  have distinct : treeDisk.Distinct := World.oneFile_distinct
  have inside : ∀ l ∈ [(2 : Int), 3, 4], 0 ≤ l ∧ l.toNat * PAGE_SIZE + PAGE_SIZE ≤ 20480 := by decide
  constructor
  case steady =>
    refine Steady.new (fun _ => le_rfl) distinct (fun p member => ?_) _
    obtain ⟨fd, pageNo⟩ := p
    obtain ⟨rfl, atPage⟩ := member
    exact ⟨threeLevels, rfl, inside pageNo atPage⟩
  case accepts =>
    rintro ⟨fd, pageNo⟩ ⟨rfl, atPage⟩
    exact ⟨⟨0, rfl⟩, (inside pageNo atPage).1, le_rfl⟩

theorem threeLevels_members : ∀ a ∈ treeNodes, (⟨treeHandle.fd, a⟩ : PageId) ∈ treePages :=
  fun _ inside => ⟨rfl, inside⟩

/-- The pool in which the leaf has been fetched. -/
theorem leafFetched_ready {N : Nat} {g : Fin N}
    (found : value (treeHandle.fetchNode 2) (.new treeDisk fun _ => 0) = some g) :
    Writable treePages (leafFetched N) ∧ Handle treeHandle 2 g (leafFetched N) ∧
      (∀ a ∈ treeNodes, (leafFetched N).seen ⟨3, a⟩ = treeDisk.diskPage ⟨3, a⟩) ∧
      (leafFetched N).pinsOn = Function.update (fun _ => 0) ⟨3, 2⟩ 1 := by
  have run : treeHandle.fetchNode 2 (.new treeDisk fun _ => 0) = .ok g (leafFetched N) := run_of_value found
  have writable := threeLevels_writable N
  have fetched := (fetchNode_fetched writable.steady (threeLevels_members 2 (by decide)) run).1
  have accepts : ∀ q ∈ treePages, (leafFetched N).diskManager.Accepts q := fun q inside =>
    fetchPage_accepts (fetchNode_page run) (writable.accepts q inside)
  refine ⟨⟨fetched.steady, accepts⟩, ?_, ?_, ?_⟩
  · refine ⟨fetched.table, ?_⟩
    rw [fetched.pins, Function.update_self]
    exact Int.zero_lt_one
  · exact fun a inside => fetched.seen _ (threeLevels_members a inside)
  · exact fetched.pins

end IxIndexHandle

end Rmdb
