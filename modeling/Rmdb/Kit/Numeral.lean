import Mathlib.Data.List.TakeWhile
import Mathlib.Data.Nat.Digits.Defs
import Rmdb.Kit.Buffer
import Rmdb.Kit.Stream

namespace Rmdb

/-! Decimal numerals of any length, and how the C library reads and prints them. -/

inductive Sign
  | none
  | plus
  | minus
  deriving DecidableEq, Repr

/-- An optional sign and one or more digits. -/
structure Numeral where
  sign : Sign
  digits : List (Fin 10)
  nonempty : digits ≠ []

def digitByte (d : Fin 10) : UInt8 := 48 + UInt8.ofNat d

def Sign.text : Sign → List UInt8
  | .none => []
  | .plus => [43]
  | .minus => [45]

def Sign.apply : Sign → Nat → Int
  | .minus, n => -n
  | _, n => n

namespace Numeral

def text (n : Numeral) : List UInt8 := n.sign.text ++ n.digits.map digitByte

/-- The number the text denotes. -/
def value (n : Numeral) : Int := n.sign.apply (Nat.ofDigits 10 (n.digits.reverse.map (·.val)))

end Numeral

/-- `isdigit` -/
def isDigitByte (b : UInt8) : Bool := 48 ≤ b && b ≤ 57

/-- `isspace` -/
def isSpaceByte (b : UInt8) : Bool := b = 32 || (9 ≤ b && b ≤ 13)

def scanSign : List UInt8 → Sign × List UInt8
  | [] => (.none, [])
  | b :: rest => if b = 45 then (.minus, rest) else if b = 43 then (.plus, rest) else (.none, b :: rest)

def scanDigits (digits : List UInt8) : Nat := digits.foldl (fun n b => 10 * n + (b - 48).toNat) 0

def LONG_MAX : Int := 9223372036854775807

/-- In base ten. What does not fit into a `long` becomes the greatest or the least one. -/
def strtol (text : List UInt8) : Int :=
  let (sign, rest) := scanSign (text.dropWhile isSpaceByte)
  max (-LONG_MAX - 1) (min (sign.apply (scanDigits (rest.takeWhile isDigitByte))) LONG_MAX)

/-- `strtol`, narrowed to an `int`. -/
def atoi (text : List UInt8) : Int := wrapInt (strtol text)

def charByte (c : Char) : UInt8 := UInt8.ofNat c.toNat

/-- `std::to_string` of an `int`. -/
def intToString (v : Int) : List UInt8 := (insertInt v).map charByte

theorem digitByte_digit (d : Fin 10) : isDigitByte (digitByte d) = true := by
  revert d
  decide

theorem digitByte_value (d : Fin 10) : (digitByte d - 48).toNat = d := by
  revert d
  decide

theorem digitByte_notSpace (d : Fin 10) : isSpaceByte (digitByte d) = false := by
  revert d
  decide

theorem digitByte_notSign (d : Fin 10) : digitByte d ≠ 45 ∧ digitByte d ≠ 43 := by
  revert d
  decide

theorem exists_digit {b : UInt8} (digit : isDigitByte b = true) : ∃ d, digitByte d = b := by
  simp only [isDigitByte, Bool.and_eq_true, decide_eq_true_eq, UInt8.le_iff_toNat_le] at digit
  obtain ⟨lower, upper⟩ := digit
  simp only [UInt8.toNat_ofNat] at lower upper
  refine ⟨⟨b.toNat - 48, by omega⟩, ?_⟩
  rw [← UInt8.toNat_inj, digitByte, UInt8.toNat_add, UInt8.toNat_ofNat']
  simp only [UInt8.toNat_ofNat]
  omega

/-- Every text of digits is the text of a list of digits. -/
theorem exists_digits {bytes : List UInt8} (digits : ∀ b ∈ bytes, isDigitByte b = true) :
    ∃ l : List (Fin 10), l.map digitByte = bytes := by
  induction bytes with
  | nil => exact ⟨[], rfl⟩
  | cons b bytes ih =>
    obtain ⟨here, digits⟩ := List.forall_mem_cons.mp digits
    obtain ⟨d, same⟩ := exists_digit here
    obtain ⟨l, rest⟩ := ih digits
    exact ⟨d :: l, by rw [List.map_cons, same, rest]⟩

/-- The fold over the digits, from any number read before. -/
theorem scanDigits_from (l : List (Fin 10)) (n : Nat) :
    (l.map digitByte).foldl (fun n b => 10 * n + (b - 48).toNat) n =
      Nat.ofDigits 10 (l.reverse.map (·.val)) + 10 ^ l.length * n := by
  induction l generalizing n with
  | nil => simp
  | cons d l ih =>
    rw [List.map_cons, List.foldl_cons, ih, digitByte_value, List.reverse_cons, List.map_append, Nat.ofDigits_append,
      List.length_map, List.length_reverse, List.length_cons, Nat.pow_succ]
    simp only [List.map_cons, List.map_nil, Nat.ofDigits_singleton]
    ring

theorem scanDigits_map (l : List (Fin 10)) :
    scanDigits (l.map digitByte) = Nat.ofDigits 10 (l.reverse.map (·.val)) := by
  rw [scanDigits, scanDigits_from, Nat.mul_zero, Nat.add_zero]

namespace Numeral

theorem digits_takeWhile (n : Numeral) : (n.digits.map digitByte).takeWhile isDigitByte = n.digits.map digitByte := by
  rw [List.takeWhile_eq_self_iff]
  intro b member
  obtain ⟨d, _, rfl⟩ := List.mem_map.mp member
  exact digitByte_digit d

theorem text_begin (n : Numeral) : n.text.dropWhile isSpaceByte = n.text := by
  obtain ⟨sign, digits, nonempty⟩ := n
  obtain ⟨d, l, rfl⟩ := List.exists_cons_of_ne_nil nonempty
  cases sign with
  | none => exact List.dropWhile_cons_of_neg (by rw [digitByte_notSpace]; exact Bool.false_ne_true)
  | plus => rfl
  | minus => rfl

theorem scanSign_text (n : Numeral) : scanSign n.text = (n.sign, n.digits.map digitByte) := by
  obtain ⟨sign, digits, nonempty⟩ := n
  obtain ⟨d, l, rfl⟩ := List.exists_cons_of_ne_nil nonempty
  cases sign with
  | none =>
    obtain ⟨minus, plus⟩ := digitByte_notSign d
    simp [text, Sign.text, scanSign, minus, plus]
  | plus => rfl
  | minus => rfl

theorem strtol_text (n : Numeral) : strtol n.text = max (-LONG_MAX - 1) (min n.value LONG_MAX) := by
  rw [strtol, text_begin, scanSign_text]
  simp only [digits_takeWhile, scanDigits_map, value]

/-- The number an `int` can hold is read as it is, every other one is not. -/
theorem atoi_text_iff (n : Numeral) : atoi n.text = n.value ↔ IsInt n.value := by
  constructor
  · intro same
    rw [← same]
    exact isInt_wrapInt _
  · intro range
    have inside : max (-LONG_MAX - 1) (min n.value LONG_MAX) = n.value := by
      unfold IsInt intMin intMax at range
      unfold LONG_MAX
      omega
    rw [atoi, strtol_text, inside, wrapInt_of_isInt range]

end Numeral

theorem charByte_digitChar (d : Fin 10) : charByte (Nat.digitChar d) = digitByte d := by
  revert d
  decide

/-- The digits `to_string` prints, by the digits of the number without its last one. -/
theorem exists_toDigits (n : Nat) : ∃ l : List (Fin 10), l ≠ [] ∧
    (Nat.toDigits 10 n).map charByte = l.map digitByte ∧ Nat.ofDigits 10 (l.reverse.map (·.val)) = n := by
  induction n using Nat.strongRecOn with
  | ind n ih =>
    have last := charByte_digitChar ⟨n % 10, by omega⟩
    rw [Nat.toDigits_eq_if (by decide)]
    split
    · refine ⟨[⟨n % 10, by omega⟩], by simp, ?_, ?_⟩
      · rw [← Nat.mod_eq_of_lt (by assumption : n < 10)]
        simpa using last
      · simp only [List.reverse_singleton, List.map_singleton, Nat.ofDigits_singleton]
        omega
    · obtain ⟨l, _, printed, number⟩ := ih (n / 10) (by omega)
      refine ⟨l ++ [⟨n % 10, by omega⟩], by simp, ?_, ?_⟩
      · rw [List.map_append, printed, List.map_append, List.map_singleton, List.map_singleton, last]
      · rw [List.reverse_append, List.map_append, Nat.ofDigits_append, number]
        simp only [List.reverse_singleton, List.map_singleton, Nat.ofDigits_singleton, List.length_singleton, pow_one]
        omega

/-- What `to_string` prints denotes the number. -/
theorem intToString_numeral (v : Int) : ∃ n : Numeral, n.text = intToString v ∧ n.value = v := by
  obtain ⟨l, nonempty, printed, number⟩ := exists_toDigits v.natAbs
  by_cases negative : v < 0
  · refine ⟨⟨.minus, l, nonempty⟩, ?_, ?_⟩
    · rw [intToString, insertInt, if_pos negative, List.map_cons, insertNat, printed]
      rfl
    · rw [Numeral.value, number, Sign.apply]
      omega
  · refine ⟨⟨.none, l, nonempty⟩, ?_, ?_⟩
    · rw [intToString, insertInt, if_neg negative, insertNat, printed]
      rfl
    · rw [Numeral.value, number]
      exact Int.natAbs_of_nonneg (by omega)

end Rmdb
