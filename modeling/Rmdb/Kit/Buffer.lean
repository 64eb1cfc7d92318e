import Rmdb.Kit.Bytes
import Rmdb.Kit.Result

namespace Rmdb

/-! Records laid out in a buffer by a program that keeps the offset of the next field itself.
A writer fills the buffer from the front; a reader finds each field where a writer put it. -/

/-- The low bytes of a number, least significant byte first. -/
def littleEndian : Nat → Nat → List UInt8
  | 0, _ => []
  | width + 1, n => UInt8.ofNat n :: littleEndian width (n / 256)

def ofLittleEndian : List UInt8 → Nat
  | [] => 0
  | b :: rest => b.toNat + 256 * ofLittleEndian rest

@[simp] theorem length_littleEndian (width n : Nat) : (littleEndian width n).length = width := by
  induction width generalizing n with
  | zero => rfl
  | succ width ih => rw [littleEndian, List.length_cons, ih]

/-- The codec is exact on numbers that fit; others are reduced. -/
theorem ofLittleEndian_littleEndian (width n : Nat) : ofLittleEndian (littleEndian width n) = n % 256 ^ width := by
  induction width generalizing n with
  | zero => rw [littleEndian, ofLittleEndian, Nat.pow_zero, Nat.mod_one]
  | succ width ih =>
    have split : n % 256 ^ (width + 1) = n % 256 + 256 * (n / 256 % 256 ^ width) := by
      rw [Nat.pow_succ', Nat.mod_mul]
    rw [littleEndian, ofLittleEndian, ih, UInt8.toNat_ofNat', split]

theorem ofLittleEndian_of_lt {width n : Nat} (small : n < 256 ^ width) : ofLittleEndian (littleEndian width n) = n := by
  rw [ofLittleEndian_littleEndian, Nat.mod_eq_of_lt small]

/-- The bytes of an `int`. -/
def intBytes (v : Int) : List UInt8 := (List.range 4).map (encodeInt v)

def ofIntBytes (bytes : List UInt8) : Int := decodeInt fun k => bytes.getD k 0

@[simp] theorem length_intBytes (v : Int) : (intBytes v).length = 4 := by
  rw [intBytes, List.length_map, List.length_range]

theorem ofIntBytes_intBytes {v : Int} (range : IsInt v) : ofIntBytes (intBytes v) = v := by
  have bytes : ∀ k, k < 4 → (intBytes v).getD k 0 = encodeInt v k := by
    intro k small
    rw [intBytes, List.getD_eq_getElem?_getD, List.getElem?_map, List.getElem?_range small, Option.map_some,
      Option.getD_some]
  rw [ofIntBytes, decodeInt_congr bytes, decodeInt_encodeInt, wrapInt_of_isInt range]

namespace Buffer
variable {ε α β : Type}

/-! An access outside the buffer is undefined; `outside` stands for that. -/

section
variable (outside : ε)

/-- `memcpy(dest + offset, src, n)` of the `n` bytes of `src`. -/
def store (offset : Int) (src : List UInt8) : EStateM ε (List UInt8) Unit := fun dest =>
  if 0 ≤ offset ∧ offset + src.length ≤ dest.length then
    .ok () (dest.take offset.toNat ++ (src ++ dest.drop (offset.toNat + src.length)))
  else .error outside dest

/-- A `memcpy`, and what `offset += sizeof` makes of the `int` then. -/
def put (offset : Int) (src : List UInt8) : EStateM ε (List UInt8) Int := do
  store outside offset src
  return wrapInt (offset + src.length)

/-- A loop that puts `n` members of a vector from index `i` on. -/
def putEach (write : β → List UInt8) (l : List β) (i : Nat) : Nat → Int → EStateM ε (List UInt8) Int
  | 0, offset => pure offset
  | n + 1, offset =>
    match l[i]? with
    | none => throw outside
    | some b => do
      let offset ← put outside offset (write b)
      putEach write l (i + 1) n offset

/-- `n` bytes behind `src + offset`. -/
def load (src : List UInt8) (offset : Int) (n : Nat) : Except ε (List UInt8) :=
  if 0 ≤ offset ∧ offset + n ≤ src.length then .ok ((src.drop offset.toNat).take n) else .error outside

/-- An `int` behind `src + offset`, and the offset behind it. -/
def getInt (src : List UInt8) (offset : Int) : Except ε (Int × Int) := do
  let bytes ← load outside src offset 4
  return (ofIntBytes bytes, wrapInt (offset + 4))

end

/-- A loop that reads `n` items one behind the other. -/
def getEach (read : Int → Except ε (β × Int)) : Nat → Int → Except ε (List β × Int)
  | 0, offset => .ok ([], offset)
  | n + 1, offset => do
    let (b, offset) ← read offset
    let (rest, offset) ← getEach read n offset
    return (b :: rest, offset)

/-- At offset `k` the program writes the text, changes nothing behind it, and returns `a`. -/
def Writes (k : Nat) (x : EStateM ε (List UInt8) α) (text : List UInt8) (a : α) : Prop :=
  ∀ front back, front.length = k → text.length ≤ back.length →
    x (front ++ back) = .ok a (front ++ (text ++ back.drop text.length))

namespace Writes
variable {outside : ε} {k : Nat} {a : α} {b : β} {u v : List UInt8}

theorem pure (a : α) : Writes k (pure a : EStateM ε (List UInt8) α) [] a :=
  fun _ _ _ _ => rfl

theorem bind {x : EStateM ε (List UInt8) α} {f : α → EStateM ε (List UInt8) β} (first : Writes k x u a)
    (later : Writes (k + u.length) (f a) v b) : Writes k (x >>= f) (u ++ v) b := by
  intro front back at_k room
  rw [List.length_append] at room
  rw [bind_ok (first front back at_k (by omega)), ← List.append_assoc]
  rw [later (front ++ u) (back.drop u.length) (by rw [List.length_append, at_k]) (by rw [List.length_drop]; omega)]
  rw [List.append_assoc, List.append_assoc, List.drop_drop, List.length_append]

theorem map {x : EStateM ε (List UInt8) α} (first : Writes k x u a) (f : α → β) :
    Writes k (x >>= fun a => Pure.pure (f a)) u (f a) := by
  intro front back at_k room
  rw [bind_ok (first front back at_k room)]
  rfl

theorem store {offset : Int} (src : List UInt8) (here : offset = k) : Writes k (store outside offset src) src () := by
  intro front back at_k room
  have inside : (0 : Int) ≤ offset ∧ offset + src.length ≤ (front ++ back).length := by
    rw [List.length_append]
    omega
  rw [Buffer.store, if_pos inside, here, Int.toNat_natCast, List.take_append_of_le_length (by omega),
    List.take_of_length_le (by omega), List.drop_append, List.drop_eq_nil_of_le (by omega), List.nil_append,
    show k + src.length - front.length = src.length by omega]

theorem put {src : List UInt8} (small : (k : Int) + src.length ≤ intMax) :
    Writes k (put outside k src) src ((k + src.length : Nat) : Int) := by
  have next : wrapInt ((k : Int) + src.length) = ((k + src.length : Nat) : Int) := by
    rw [wrapInt_of_isInt ⟨by unfold intMin; omega, small⟩, Int.natCast_add]
  unfold Buffer.put
  rw [next]
  exact (store src rfl).map fun _ => _

theorem putFrom {write : β → List UInt8} (front l : List β)
    (small : (k : Int) + (l.flatMap write).length ≤ intMax) :
    Writes k (putEach outside write (front ++ l) front.length l.length k) (l.flatMap write)
      ((k + (l.flatMap write).length : Nat) : Int) := by
  induction l generalizing front k with
  | nil => exact Writes.pure _
  | cons b l ih =>
    rw [List.flatMap_cons, List.length_append] at small ⊢
    have here : (front ++ b :: l)[front.length]? = some b := by
      rw [List.getElem?_append_right le_rfl, Nat.sub_self, List.getElem?_cons_zero]
    rw [List.length_cons, Buffer.putEach, here]
    refine (Writes.put (by omega)).bind ?_
    have rest := ih (k := k + (write b).length) (front ++ [b]) (by omega)
    rwa [List.append_assoc, List.singleton_append, List.length_append, List.length_singleton,
      Nat.add_assoc] at rest

theorem putEach {write : β → List UInt8} {l : List β} (small : (k : Int) + (l.flatMap write).length ≤ intMax) :
    Writes k (putEach outside write l 0 l.length k) (l.flatMap write) ((k + (l.flatMap write).length : Nat) : Int) :=
  putFrom [] l small

end Writes

/-- The buffer has the text at offset `k`. -/
def Holds (src : List UInt8) (k : Nat) (text : List UInt8) : Prop :=
  ∃ front back, src = front ++ (text ++ back) ∧ front.length = k

namespace Holds
variable {outside : ε} {src u v : List UInt8} {k : Nat}

theorem front (text back : List UInt8) : Holds (text ++ back) 0 text := ⟨[], back, rfl, rfl⟩

/-- The text at the front of what a pointer shows. -/
theorem of_pointer {f : Nat → UInt8} {n : Nat} (inside : u.length ≤ n) (same : ∀ i, i < u.length → f i = u.getD i 0) :
    Holds ((List.range n).map f) 0 u := by
  refine ⟨[], ((List.range n).map f).drop u.length, ?_, rfl⟩
  have start : ((List.range n).map f).take u.length = u := by
    refine List.ext_getElem (by simp; omega) fun i below small => ?_
    rw [List.getElem_take, List.getElem_map, List.getElem_range, same i small, List.getD_eq_getElem?_getD,
      List.getElem?_eq_getElem small, Option.getD_some]
  conv_lhs => rw [← List.take_append_drop u.length ((List.range n).map f), start]
  rfl

theorem left (holds : Holds src k (u ++ v)) : Holds src k u := by
  obtain ⟨front, back, rfl, at_k⟩ := holds
  exact ⟨front, v ++ back, by rw [List.append_assoc], at_k⟩

theorem right (holds : Holds src k (u ++ v)) : Holds src (k + u.length) v := by
  obtain ⟨front, back, rfl, at_k⟩ := holds
  exact ⟨front ++ u, back, by simp only [List.append_assoc], by rw [List.length_append, at_k]⟩

theorem drop {j : Nat} (holds : Holds src (j + k) u) : Holds (src.drop j) k u := by
  obtain ⟨front, back, rfl, at_k⟩ := holds
  refine ⟨front.drop j, back, ?_, by rw [List.length_drop]; omega⟩
  rw [List.drop_append_of_le_length (by omega)]

theorem load {offset : Int} {n : Nat} (holds : Holds src k u) (here : offset = k) (size : u.length = n) :
    load outside src offset n = .ok u := by
  subst size here
  obtain ⟨front, back, rfl, at_k⟩ := holds
  have inside : (0 : Int) ≤ k ∧ (k : Int) + u.length ≤ (front ++ (u ++ back)).length := by
    rw [List.length_append, List.length_append]
    omega
  rw [Buffer.load, if_pos inside, Int.toNat_natCast, ← at_k, List.drop_left, List.take_left]

theorem load_bind {offset : Int} {n : Nat} {f : List UInt8 → Except ε β} (holds : Holds src k (u ++ v))
    (here : offset = k) (size : u.length = n) : (Buffer.load outside src offset n >>= f) = f u := by
  rw [holds.left.load here size, ok_bind]

theorem getInt {n : Int} (holds : Holds src k (intBytes n)) (range : IsInt n) (small : (k : Int) + 4 ≤ intMax) :
    getInt outside src k = .ok (n, ((k + 4 : Nat) : Int)) := by
  rw [Buffer.getInt, holds.load rfl (length_intBytes n), ok_bind, ofIntBytes_intBytes range,
    wrapInt_of_isInt ⟨by unfold intMin; omega, small⟩]
  rfl

theorem getInt_bind {n : Int} {f : Int × Int → Except ε β} (holds : Holds src k (intBytes n ++ u)) (range : IsInt n)
    (small : (k : Int) + 4 ≤ intMax) : (Buffer.getInt outside src k >>= f) = f (n, ((k + 4 : Nat) : Int)) := by
  rw [holds.left.getInt range small, ok_bind]

theorem behindInt {n : Int} (holds : Holds src k (intBytes n ++ u)) : Holds src (k + 4) u := by
  have later := holds.right
  rwa [length_intBytes] at later

theorem getEach {read : Int → Except ε (β × Int)} {write : β → List UInt8} {l : List β}
    (each : ∀ b k, b ∈ l → Holds src k (write b) → (k : Int) + (write b).length ≤ intMax →
      read k = .ok (b, ((k + (write b).length : Nat) : Int)))
    (holds : Holds src k (l.flatMap write)) (small : (k : Int) + (l.flatMap write).length ≤ intMax) :
    getEach read l.length k = .ok (l, ((k + (l.flatMap write).length : Nat) : Int)) := by
  induction l generalizing k with
  | nil => rfl
  | cons b l ih =>
    rw [List.flatMap_cons] at holds small ⊢
    rw [List.length_append] at small ⊢
    have later := ih (fun c k member => each c k (List.mem_cons_of_mem b member)) holds.right (by omega)
    rw [List.length_cons, Buffer.getEach, each b k List.mem_cons_self holds.left (by omega), ok_bind]
    simp only [later, ok_bind, Nat.add_assoc]
    rfl

end Holds

/-- An `int` is read inside the buffer. -/
theorem getInt_ok {outside : ε} {src : List UInt8} {offset next v : Int}
    (run : getInt outside src offset = .ok (v, next)) (small : (src.length : Int) ≤ intMax) :
    0 ≤ offset ∧ next = offset + 4 ∧ next ≤ src.length := by
  obtain ⟨bytes, loaded, rest⟩ := bind_eq_ok_iff.mp run
  unfold load at loaded
  split at loaded
  · rename_i inside
    cases rest
    have next : wrapInt (offset + 4) = offset + 4 := wrapInt_of_isInt ⟨by unfold intMin; omega, by omega⟩
    omega
  · cases loaded

/-- A record of `len` bytes: `write` fills them in front of a large enough buffer, and `read`
gets the record back from them, whatever stands behind. -/
def RoundTrips (len : Int) (write : EStateM ε (List UInt8) Unit) (read : List UInt8 → Except ε α) (a : α) : Prop :=
  ∃ bytes : List UInt8, (bytes.length : Int) = len ∧
    (∀ dest : List UInt8, len ≤ dest.length → write dest = .ok () (bytes ++ dest.drop bytes.length)) ∧
    ∀ trailing, read (bytes ++ trailing) = .ok a

theorem Writes.roundTrips {write : EStateM ε (List UInt8) Unit} {read : List UInt8 → Except ε α} {text : List UInt8}
    {a : α} (writes : Writes 0 write text ()) (reads : ∀ src, Holds src 0 text → read src = .ok a) :
    RoundTrips text.length write read a :=
  ⟨text, rfl, fun dest room => writes [] dest rfl (by omega), fun trailing => reads _ (.front text trailing)⟩

/-- A new buffer and what is written into it. -/
def fill (n : Nat) (write : EStateM ε (List UInt8) Unit) : Except ε (List UInt8) :=
  match write (List.replicate n 0) with
  | .ok () dest => .ok dest
  | .error e _ => .error e

theorem Writes.fill {write : EStateM ε (List UInt8) Unit} {text : List UInt8} {n : Nat}
    (writes : Writes 0 write text ()) (size : text.length = n) : fill n write = .ok text := by
  have run := writes [] (List.replicate n 0) rfl (by rw [List.length_replicate, size])
  rw [List.nil_append, List.nil_append, List.drop_eq_nil_of_le (by rw [List.length_replicate, size]),
    List.append_nil] at run
  rw [Buffer.fill, run]

/-- Records one behind the other, taken apart by stepping over the length that each one states. -/
def split (stuck : ε) (read : List UInt8 → Except ε α) (size : α → Nat) : Nat → List UInt8 → Except ε (List α)
  | _, [] => .ok []
  | 0, _ :: _ => .error stuck
  | fuel + 1, b :: rest => do
    let a ← read (b :: rest)
    let later ← split stuck read size fuel ((b :: rest).drop (size a))
    return a :: later

theorem split_flatMap {stuck : ε} {read : List UInt8 → Except ε α} {size : α → Nat} {text : α → List UInt8}
    {items : List α} (each : ∀ a ∈ items, size a = (text a).length ∧ 0 < size a ∧
      ∀ trailing, read (text a ++ trailing) = .ok a) (fuel : Nat) (enough : (items.flatMap text).length ≤ fuel) :
    split stuck read size fuel (items.flatMap text) = .ok items := by
  induction items generalizing fuel with
  | nil =>
    cases fuel <;> rfl
  | cons a items ih =>
    obtain ⟨length, positive, reads⟩ := each a List.mem_cons_self
    rw [List.flatMap_cons] at enough ⊢
    rw [List.length_append] at enough
    cases start : text a ++ items.flatMap text with
    | nil =>
      have := congrArg List.length start
      rw [List.length_append, List.length_nil] at this
      omega
    | cons b rest =>
      cases fuel with
      | zero => omega
      | succ fuel =>
        have later := ih (fun c member => each c (List.mem_cons_of_mem a member)) fuel (by omega)
        rw [split, ← start, reads, ok_bind, length, List.drop_left, later, ok_bind]
        rfl

end Buffer

end Rmdb
