import Mathlib.Algebra.Group.Nat.Defs
import Mathlib.Algebra.Ring.Int.Defs
import Mathlib.Data.Int.Basic
import Mathlib.Tactic.Common

namespace Rmdb

/-- A fixed block of bytes, such as a page or a header buffer. -/
abbrev Block (n : Nat) := Fin n → UInt8

namespace Block
variable {n : Nat}

/-- The byte at an offset; an offset outside the block reads zero. -/
def peek (d : Block n) (i : Nat) : UInt8 := if h : i < n then d ⟨i, h⟩ else 0

/-- `memcpy` of `len` bytes from the pointer `src` to offset `off`. -/
def poke (d : Block n) (off len : Nat) (src : Nat → UInt8) : Block n :=
  fun i => if off ≤ i.val ∧ i.val < off + len then src (i.val - off) else d i

def zero : Block n := fun _ => 0

/-- The block that holds the first `n` bytes behind a pointer. -/
def ofPtr (src : Nat → UInt8) : Block n := fun i => src i.val

theorem peek_of_lt (d : Block n) {i : Nat} (bound : i < n) : d.peek i = d ⟨i, bound⟩ := by
  simp only [peek, dif_pos bound]

@[simp] theorem peek_zero (i : Nat) : (zero : Block n).peek i = 0 := by
  unfold peek zero
  split <;> rfl

theorem peek_poke_inside (d : Block n) {off len i : Nat} (src : Nat → UInt8)
    (lower : off ≤ i) (upper : i < off + len) (bound : i < n) :
    (d.poke off len src).peek i = src (i - off) := by
  simp only [peek, dif_pos bound, poke, if_pos (And.intro lower upper)]

theorem peek_poke_outside (d : Block n) {off len i : Nat} (src : Nat → UInt8)
    (outside : i < off ∨ off + len ≤ i) : (d.poke off len src).peek i = d.peek i := by
  unfold peek
  split
  · simp only [poke, if_neg (by omega : ¬(off ≤ i ∧ i < off + len))]
  · rfl

theorem poke_full (d : Block n) (src : Nat → UInt8) : d.poke 0 n src = ofPtr src := by
  funext i
  simp only [poke, ofPtr, Nat.zero_le, Nat.zero_add, i.isLt, and_self, if_true, Nat.sub_zero]

end Block

/-! Two's complement integers of four bytes, least significant byte first. -/

def intMax : Int := 2147483647

def intMin : Int := -2147483648

/-- Values of the 32-bit `int`. -/
def IsInt (v : Int) : Prop := intMin ≤ v ∧ v ≤ intMax

instance (v : Int) : Decidable (IsInt v) := inferInstanceAs (Decidable (_ ∧ _))

/-- Reduction into the range of `int`, as an atomic increment does. -/
def wrapInt (v : Int) : Int := (v + 2147483648) % 4294967296 - 2147483648

theorem wrapInt_of_isInt {v : Int} (range : IsInt v) : wrapInt v = v := by
  unfold IsInt intMin intMax at range
  unfold wrapInt
  omega

theorem isInt_wrapInt (v : Int) : IsInt (wrapInt v) := by
  unfold IsInt intMin intMax wrapInt
  omega

theorem wrapInt_wrapInt_add (v w : Int) : wrapInt (wrapInt v + w) = wrapInt (v + w) := by
  unfold wrapInt
  omega

/-- A sum that is kept in an `int`. -/
def sumInt (l : List Int) : Int := l.foldl (fun total v => wrapInt (total + v)) 0

theorem sumInt_eq (l : List Int) : sumInt l = wrapInt l.sum := by
  have behind : ∀ total, l.foldl (fun total v => wrapInt (total + v)) (wrapInt total) = wrapInt (total + l.sum) := by
    induction l with
    | nil => simp
    | cons v l ih =>
      intro total
      rw [List.foldl_cons, wrapInt_wrapInt_add, ih, List.sum_cons, Int.add_assoc]
  have whole := behind 0
  rwa [Int.zero_add] at whole

theorem wrapInt_succ_ne (v : Int) : wrapInt (v + 1) ≠ v := by
  unfold wrapInt
  omega

def encodeInt (v : Int) (k : Nat) : UInt8 :=
  UInt8.ofNat ((v % 4294967296).toNat / 256 ^ k % 256)

def decodeInt (src : Nat → UInt8) : Int :=
  let raw := (src 0).toNat + 256 * (src 1).toNat + 65536 * (src 2).toNat + 16777216 * (src 3).toNat
  if raw < 2147483648 then (raw : Int) else (raw : Int) - 4294967296

theorem decodeInt_congr {src src' : Nat → UInt8} (same : ∀ k, k < 4 → src k = src' k) :
    decodeInt src = decodeInt src' := by
  unfold decodeInt
  rw [same 0 (by decide), same 1 (by decide), same 2 (by decide), same 3 (by decide)]

theorem isInt_decodeInt (src : Nat → UInt8) : IsInt (decodeInt src) := by
  have byte : ∀ k, (src k).toNat < 256 := fun k => UInt8.toNat_lt (src k)
  have first := byte 0
  have second := byte 1
  have third := byte 2
  have fourth := byte 3
  unfold IsInt intMin intMax decodeInt
  simp only
  split <;> omega

/-- The codec is exact on `int`; outside it the value is reduced. -/
theorem decodeInt_encodeInt (v : Int) : decodeInt (encodeInt v) = wrapInt v := by
  have bound := Int.emod_lt_of_pos v (by decide : (0 : Int) < 4294967296)
  have lower := Int.emod_nonneg v (by decide : (4294967296 : Int) ≠ 0)
  have byte (k : Nat) : (encodeInt v k).toNat = (v % 4294967296).toNat / 256 ^ k % 256 := by
    simp only [encodeInt, UInt8.toNat_ofNat', Nat.reducePow, Nat.mod_mod]
  simp only [decodeInt, wrapInt, byte, Nat.reducePow, Nat.div_one]
  split <;> omega

namespace Block
variable {n : Nat}

def readInt (d : Block n) (off : Nat) : Int := decodeInt fun k => d.peek (off + k)

def writeInt (d : Block n) (off : Nat) (v : Int) : Block n := d.poke off 4 (encodeInt v)

theorem isInt_readInt (d : Block n) (off : Nat) : IsInt (d.readInt off) := isInt_decodeInt _

theorem readInt_writeInt (d : Block n) {off : Nat} {v : Int} (range : IsInt v) (bound : off + 4 ≤ n) :
    (d.writeInt off v).readInt off = v := by
  have bytes : ∀ k, k < 4 → (d.writeInt off v).peek (off + k) = encodeInt v k := by
    intro k small
    rw [writeInt, peek_poke_inside _ _ (by omega) (by omega) (by omega), Nat.add_sub_cancel_left]
  rw [readInt, decodeInt_congr bytes, decodeInt_encodeInt, wrapInt_of_isInt range]

theorem readInt_congr {d e : Block n} {off : Nat} (same : ∀ i, off ≤ i → i < off + 4 → d.peek i = e.peek i) :
    d.readInt off = e.readInt off :=
  decodeInt_congr fun k small => same (off + k) (by omega) (by omega)

end Block

end Rmdb
