import Mathlib.Data.Char
import Mathlib.Data.String.Basic
import Rmdb.Kit.Bytes

namespace Rmdb

/-! Formatted streams. `<<` writes the characters of a value; `>>` skips white space and takes the
longest token that can be one. A text is parsed up to the white space around it, so a writer
and a reader agree as soon as they agree on the tokens. -/

/-- `isspace` in the C locale. -/
def isSpace (c : Char) : Bool :=
  c = ' ' || c = '\t' || c = '\n' || c = '\r' || c = Char.ofNat 11 || c = Char.ofNat 12

def skipSpace (s : List Char) : List Char := s.dropWhile isSpace

/-- An extraction from a stream; after a failure nothing more is read. -/
abbrev Extract (α : Type) := StateT (List Char) Option α

/-- A name that `>>` reads as one token. -/
def IsWord (w : String) : Prop := w ≠ "" ∧ ∀ c ∈ w.toList, isSpace c = false

instance (w : String) : Decidable (IsWord w) := @instDecidableAnd _ _ _ (List.decidableBAll _ _)

def extractWord : Extract String := fun s =>
  let s := skipSpace s
  let token := s.takeWhile fun c => !isSpace c
  if token = [] then none else some (String.ofList token, s.dropWhile fun c => !isSpace c)

def takeSign : List Char → Bool × List Char
  | [] => (false, [])
  | c :: rest => if c = '-' then (true, rest) else if c = '+' then (false, rest) else (false, c :: rest)

/-- A sign and decimal digits. -/
def extractDigits : Extract (Bool × Nat) := fun s =>
  let signed := takeSign (skipSpace s)
  let digits := signed.2.takeWhile Char.isDigit
  if digits = [] then none else some ((signed.1, Nat.ofDigitChars 10 digits 0), signed.2.dropWhile Char.isDigit)

def extractInt : Extract Int := do
  let (negative, n) ← extractDigits
  let v : Int := if negative then -n else n
  if IsInt v then return v else failure

/-- A `size_t`; a minus sign is taken modulo 2^64. -/
def extractSize : Extract Nat := do
  let (negative, n) ← extractDigits
  if n < 18446744073709551616 then
    return if negative then (18446744073709551616 - n) % 18446744073709551616 else n
  else failure

def extractBool : Extract Bool := do
  let v ← extractInt
  if v = 0 then return false else if v = 1 then return true else failure

/-- A loop of `n` extractions. -/
def extractMany {α : Type} (x : Extract α) : Nat → Extract (List α)
  | 0 => pure []
  | n + 1 => do
    let a ← x
    let rest ← extractMany x n
    return a :: rest

def insertWord (w : String) : List Char := w.toList

def insertNat (n : Nat) : List Char := Nat.toDigits 10 n

def insertInt (v : Int) : List Char := if v < 0 then '-' :: insertNat v.natAbs else insertNat v.natAbs

def insertBool (b : Bool) : List Char := insertNat b.toNat

variable {α β : Type}

/-- The text is read as the value, whatever follows it, up to white space in front of either. -/
def Parses (x : Extract α) (text : List Char) (a : α) : Prop :=
  ∀ s rest, skipSpace s = skipSpace (text ++ rest) → ∃ rest', x s = some (a, rest') ∧ skipSpace rest' = skipSpace rest

theorem skipSpace_cons {c : Char} (space : isSpace c = true) (s : List Char) : skipSpace (c :: s) = skipSpace s := by
  simp [skipSpace, space]

namespace Parses

theorem pure (a : α) : Parses (pure a) [] a := fun s _ same => ⟨s, rfl, same⟩

theorem bind {x : Extract α} {f : α → Extract β} {u v : List Char} {a : α} {b : β} (first : Parses x u a)
    (later : Parses (f a) v b) :
    Parses (x >>= f) (u ++ v) b := by
  intro s rest same
  rw [List.append_assoc] at same
  obtain ⟨middle, run, blank⟩ := first s (v ++ rest) same
  obtain ⟨rest', run', blank'⟩ := later middle rest blank
  refine ⟨rest', ?_, blank'⟩
  change ((x s).bind fun p => f p.1 p.2) = _
  rw [run]
  exact run'

/-- A conversion of what was read. -/
theorem map {x : Extract α} {f : α → β} {u : List Char} {a : α} (first : Parses x u a) :
    Parses (x >>= fun a => Pure.pure (f a)) u (f a) := by
  have both := first.bind (f := fun a => Pure.pure (f a)) (Parses.pure (f a))
  rwa [List.append_nil] at both

theorem spaceAfter {x : Extract α} {u : List Char} {a : α} {c : Char} (parses : Parses x u a)
    (space : isSpace c = true) :
    Parses x (u ++ [c]) a := by
  intro s rest same
  rw [List.append_assoc] at same
  obtain ⟨rest', run, blank⟩ := parses s ([c] ++ rest) same
  exact ⟨rest', run, blank.trans (skipSpace_cons space rest)⟩

theorem many {x : Extract α} {write : α → List Char} {l : List α} (each : ∀ a ∈ l, Parses x (write a) a) :
    Parses (extractMany x l.length) (l.flatMap write) l := by
  induction l with
  | nil => exact Parses.pure []
  | cons a l ih =>
    obtain ⟨here, each⟩ := List.forall_mem_cons.mp each
    rw [List.flatMap_cons]
    exact here.bind (ih each).map

end Parses

/-- Separators in front of the parts or behind them. -/
theorem flatMap_separators (write : α → List Char) (c : Char) (l : List α) :
    (l.flatMap fun a => c :: write a) ++ [c] = c :: l.flatMap fun a => write a ++ [c] := by
  induction l with
  | nil => rfl
  | cons a l ih =>
    rw [List.flatMap_cons, List.flatMap_cons, List.append_assoc, ih]
    simp

/-- A token ends at the first white space. -/
theorem takeWhile_token {p : Char → Bool} {token : List Char} (all : ∀ d ∈ token, p d = true) (c : Char)
    (stop : p c = false)
    (rest : List Char) : (token ++ c :: rest).takeWhile p = token ∧ (token ++ c :: rest).dropWhile p = c :: rest := by
  constructor
  · rw [List.takeWhile_append_of_pos all, List.takeWhile_cons, stop]
    simp
  · rw [List.dropWhile_append_of_pos all, List.dropWhile_cons, stop]
    simp

theorem skipSpace_token {token : List Char} (nonempty : token ≠ []) (all : ∀ d ∈ token, isSpace d = false)
    (rest : List Char) :
    skipSpace (token ++ rest) = token ++ rest := by
  cases token with
  | nil => exact absurd rfl nonempty
  | cons d token => simp [skipSpace, all d List.mem_cons_self]

theorem parses_word {w : String} {c : Char} (word : IsWord w) (space : isSpace c = true) :
    Parses extractWord (insertWord w ++ [c]) w := by
  obtain ⟨nonempty, plain⟩ := word
  have some : w.toList ≠ [] := by
    intro none
    exact nonempty (String.toList_inj.mp none)
  intro s rest same
  unfold insertWord at same
  rw [List.append_assoc, List.singleton_append, skipSpace_token some plain] at same
  obtain ⟨taken, left⟩ := takeWhile_token (p := fun c => !isSpace c) (by simpa using plain) c (by simp [space]) rest
  refine ⟨c :: rest, ?_, skipSpace_cons space rest⟩
  simp only [extractWord, same, taken, left, if_neg some, String.ofList_toList]

theorem isAlphanum_not_space {c : Char} (letter : c.isAlphanum = true) : isSpace c = false := by
  cases space : isSpace c with
  | false => rfl
  | true =>
    simp only [isSpace, Bool.or_eq_true, decide_eq_true_eq] at space
    rcases space with ((((rfl | rfl) | rfl) | rfl) | rfl) | rfl <;> exact absurd letter (by decide)

theorem isDigit_not_space {c : Char} (digit : c.isDigit = true) : isSpace c = false :=
  isAlphanum_not_space (by simp [Char.isAlphanum, digit])

theorem insertNat_digit {n : Nat} {c : Char} (member : c ∈ insertNat n) : c.isDigit = true :=
  Nat.isDigit_of_mem_toDigits (by decide) (by decide) member

theorem insertNat_ne_nil (n : Nat) : insertNat n ≠ [] := Nat.toDigits_ne_nil

theorem takeSign_insertNat (n : Nat) (rest : List Char) :
    takeSign (insertNat n ++ rest) = (false, insertNat n ++ rest) := by
  have nonempty := insertNat_ne_nil n
  have digits := @insertNat_digit n
  generalize insertNat n = token at nonempty digits ⊢
  cases token with
  | nil => exact absurd rfl nonempty
  | cons d token =>
    have digit := digits (c := d) List.mem_cons_self
    have minus : d ≠ '-' := by
      rintro rfl
      exact absurd digit (by decide)
    have plus : d ≠ '+' := by
      rintro rfl
      exact absurd digit (by decide)
    rw [List.cons_append, takeSign, if_neg minus, if_neg plus]

/-- The digits of a number behind its sign. -/
theorem extractDigits_insertNat {s rest : List Char} {c : Char} {negative : Bool} {n : Nat} (space : isSpace c = true)
    (signed : takeSign (skipSpace s) = (negative, insertNat n ++ c :: rest)) :
    extractDigits s = some ((negative, n), c :: rest) := by
  have stop : c.isDigit = false := by
    cases digit : c.isDigit with
    | false => rfl
    | true =>
      rw [isDigit_not_space digit] at space
      cases space
  obtain ⟨taken, left⟩ := takeWhile_token (fun d member => insertNat_digit (n := n) member) c stop rest
  simp only [extractDigits, signed, taken, left, if_neg (insertNat_ne_nil n)]
  simp only [insertNat, Nat.ofDigitChars_ten_toDigits]

theorem skipSpace_insertNat (n : Nat) (rest : List Char) : skipSpace (insertNat n ++ rest) = insertNat n ++ rest :=
  skipSpace_token (insertNat_ne_nil n) (fun _ member => isDigit_not_space (insertNat_digit member)) rest

theorem parses_size {n : Nat} {c : Char} (small : n < 18446744073709551616) (space : isSpace c = true) :
    Parses extractSize (insertNat n ++ [c]) n := by
  intro s rest same
  rw [List.append_assoc, List.singleton_append, skipSpace_insertNat] at same
  have read := extractDigits_insertNat (s := s) space (by rw [same, takeSign_insertNat])
  refine ⟨c :: rest, ?_, skipSpace_cons space rest⟩
  change ((extractDigits s).bind _) = _
  rw [read]
  simp only [Option.bind_some, if_pos small]
  rfl

theorem parses_int {v : Int} {c : Char} (range : IsInt v) (space : isSpace c = true) :
    Parses extractInt (insertInt v ++ [c]) v := by
  intro s rest same
  have read : extractDigits s = some ((decide (v < 0), v.natAbs), c :: rest) := by
    apply extractDigits_insertNat space
    rw [same]
    unfold insertInt
    by_cases negative : v < 0
    · rw [if_pos negative, decide_eq_true negative]
      simp [skipSpace, takeSign, isSpace]
    · rw [if_neg negative, decide_eq_false negative, List.append_assoc, List.singleton_append, skipSpace_insertNat,
        takeSign_insertNat]
  refine ⟨c :: rest, ?_, skipSpace_cons space rest⟩
  have value : (if decide (v < 0) = true then -(v.natAbs : Int) else v.natAbs) = v := by
    split <;> rename_i negative <;> simp only [decide_eq_true_eq] at negative <;> omega
  change ((extractDigits s).bind _) = _
  rw [read]
  simp only [Option.bind_some, value, if_pos range]
  rfl

theorem parses_bool {b : Bool} {c : Char} (space : isSpace c = true) : Parses extractBool (insertBool b ++ [c]) b := by
  have number : insertBool b = insertInt b.toNat := by
    cases b <;> rfl
  rw [number]
  have read := parses_int (v := b.toNat) (by cases b <;> decide) space
  have both := read.bind (f := fun v => if v = 0 then pure false else if v = 1 then pure true else failure) (v := [])
    (b := b)
    (by cases b <;> exact Parses.pure _)
  rwa [List.append_nil] at both

end Rmdb
