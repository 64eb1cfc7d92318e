import Mathlib.Data.List.TakeWhile
import Rmdb.Parser.Lexer

namespace Rmdb.Lexer
open Flex

/-! Keywords and identifiers: two of them never stand directly behind one another. -/

/-- The letters of a keyword. -/
def Keyword.size (k : Keyword) : Nat := ((keywords.find? fun entry => entry.2 = k).map (·.1.length)).getD 0

def Token.isWord : Token → Bool
  | .keyword _ => true
  | .identifier _ => true
  | _ => false

def Token.size : Token → Nat
  | .keyword k => k.size
  | .identifier text => text.length
  | _ => 0

theorem size_of_mem : ∀ entry ∈ keywords, entry.2.size = (bytes entry.1).length := by decide

theorem keyword_letters : ∀ entry ∈ keywords, ∀ b ∈ bytes entry.1, isAlpha b = true := by
  decide +kernel

theorem isAlpha_lower (b : UInt8) : isAlpha b = (byte 'a' ≤ lower b && lower b ≤ byte 'z') := by
  have all : ∀ i : Fin 256, isAlpha (.ofFin i) = (byte 'a' ≤ lower (.ofFin i) && lower (.ofFin i) ≤ byte 'z') := by
    decide +kernel
  exact all b.toFin

theorem countWhile_ge {p : UInt8 → Bool} {l : List UInt8} {n : Nat} (all : ∀ b ∈ l.take n, p b = true)
    (inside : n ≤ l.length) : n ≤ countWhile p l := by
  induction l generalizing n with
  | nil => exact inside
  | cons b l ih =>
    cases n with
    | zero => exact Nat.zero_le _
    | succ n =>
      rw [List.take_succ_cons] at all
      obtain ⟨here, later⟩ := List.forall_mem_cons.mp all
      rw [countWhile, List.takeWhile_cons_of_pos here]
      exact Nat.succ_le_succ (ih later (Nat.le_of_succ_le_succ inside))

theorem drop_countWhile (p : UInt8 → Bool) (l : List UInt8) : l.drop (countWhile p l) = l.dropWhile p := by
  have parts := List.takeWhile_append_dropWhile (p := p) (l := l)
  have cut : (l.takeWhile p ++ l.dropWhile p).drop (countWhile p l) = l.dropWhile p := List.drop_left
  rwa [parts] at cut

/-- Letters are an identifier, or the front of one. -/
theorem identifier_ge {input : List UInt8} {n : Nat} (letters : ∀ b ∈ input.take n, isAlpha b = true)
    (inside : n ≤ input.length) : n ≤ identifier input := by
  cases n with
  | zero => exact Nat.zero_le _
  | succ n =>
    cases input with
    | nil => cases inside
    | cons a rest =>
      rw [List.take_succ_cons] at letters
      obtain ⟨first, later⟩ := List.forall_mem_cons.mp letters
      have others : n ≤ countWhile (fun b => b = byte '_' || isAlpha b || isDigit b) rest :=
        countWhile_ge (fun b member => by simp [later b member]) (Nat.le_of_succ_le_succ inside)
      rw [identifier, if_pos first]
      omega

/-- What stands behind an identifier is no letter. -/
theorem identifier_ends {input rest : List UInt8} {b : UInt8} (some : 0 < identifier input)
    (behind : input.drop (identifier input) = b :: rest) : isAlpha b = false := by
  cases input with
  | nil => cases behind
  | cons a later =>
    rw [identifier] at some behind
    split at some
    · rename_i first
      rw [if_pos first, Nat.add_comm, List.drop_succ_cons, drop_countWhile] at behind
      have ends := List.head?_dropWhile_not (fun b => b = byte '_' || isAlpha b || isDigit b) later
      rw [behind] at ends
      simp only [List.head?_cons, Bool.or_eq_false_iff] at ends
      exact ends.1.2
    · cases some

/-- The text of a keyword is made of letters. -/
theorem literal_letters {s : String} (letters : ∀ b ∈ bytes s, isAlpha b = true) {input : List UInt8}
    (some : 0 < literal s input) :
    literal s input = (bytes s).length ∧ literal s input ≤ identifier input ∧
      ∃ b rest, input = b :: rest ∧ isAlpha b = true := by
  unfold literal at some ⊢
  split at some
  · rename_i front
    rw [if_pos front]
    have front := List.isPrefixOf_iff_prefix.mp front
    have inside : (bytes s).length ≤ input.length := by simpa using front.length_le
    have same : (input.take (bytes s).length).map lower = (bytes s).map lower := by
      have taken := List.prefix_iff_eq_take.mp front
      rw [List.length_map, ← List.map_take] at taken
      exact taken.symm
    have alpha : ∀ b ∈ input.take (bytes s).length, isAlpha b = true := by
      intro b member
      have lowered : lower b ∈ (bytes s).map lower := same ▸ List.mem_map_of_mem member
      obtain ⟨b', member', equal⟩ := List.mem_map.mp lowered
      rw [isAlpha_lower, ← equal, ← isAlpha_lower]
      exact letters b' member'
    refine ⟨rfl, identifier_ge alpha inside, ?_⟩
    cases input with
    | nil =>
      simp only [List.length_nil] at inside
      omega
    | cons b rest =>
      refine ⟨b, rest, rfl, alpha b ?_⟩
      obtain ⟨m, length⟩ := Nat.exists_eq_succ_of_ne_zero (by omega : (bytes s).length ≠ 0)
      rw [length, List.take_succ_cons]
      exact List.mem_cons_self
  · cases some

/-- How a word comes about: its match is that of an identifier, and it starts with a letter. -/
theorem word_of_pick {c : StartCondition} {input : List UInt8} {n : Nat} {f : List UInt8 → Token}
    (picked : pick (scanner c) input = some (n, .token f)) (isWord : (f (input.take n)).isWord = true) :
    c = .initial ∧ n = identifier input ∧ (f (input.take n)).size ≤ n ∧ 0 < n ∧
      ∃ b rest, input = b :: rest ∧ isAlpha b = true := by
  obtain ⟨rule, member, action, longest, some⟩ := mem_of_pick picked
  obtain rfl := tokens_initial c rule member f action
  have most := longest_le_of_pick picked ⟨identifier, .token .identifier⟩
    (List.mem_append_right _ (by simp))
  simp only [scanner, initialRules, List.mem_append, List.mem_map, List.mem_cons, List.not_mem_nil, or_false] at member
  rcases member with ((rfl | rfl | rfl | rfl) | ⟨⟨text, k⟩, listed, rfl⟩) |
    rfl | rfl | rfl | rfl | rfl | rfl | rfl | rfl | rfl
  case inl.inr =>
    cases action
    subst longest
    obtain ⟨length, less, first⟩ := literal_letters (keyword_letters _ listed) some
    refine ⟨rfl, Nat.le_antisymm less most, ?_, some, first⟩
    exact Nat.le_of_eq ((size_of_mem _ listed).trans length.symm)
  case inr.inr.inr.inr.inr.inl =>
    cases action
    subst longest
    refine ⟨rfl, rfl, ?_, some, ?_⟩
    · exact List.length_take_le _ _
    · cases input with
      | nil => cases some
      | cons b rest =>
        refine ⟨b, rest, rfl, ?_⟩
        by_contra other
        simp only [identifier, if_neg other] at some
        cases some
  all_goals cases action
  all_goals cases isWord

theorem scanner_spaced : Spaced Token.isWord Token.size scanner := by
  intro c input n f picked isWord
  obtain ⟨_, longest, small, some, _⟩ := word_of_pick picked isWord
  refine ⟨small, ?_⟩
  rintro ⟨m, g, next, isWord'⟩
  obtain ⟨_, _, _, _, b, rest, behind, first⟩ := word_of_pick next isWord'
  rw [longest] at some behind
  rw [identifier_ends some behind] at first
  cases first

/-- What the rule for identifiers matches. -/
def Lettered : List UInt8 → Prop
  | [] => False
  | a :: rest => isAlpha a = true ∧ ∀ b ∈ rest, (b = byte '_' || isAlpha b || isDigit b) = true

/-- What the scanner makes of identifiers. -/
def Written : Token → Prop
  | .identifier text => Lettered text
  | _ => True

theorem lettered_identifier (input : List UInt8) (some : 0 < identifier input) :
    Lettered (input.take (identifier input)) := by
  cases input with
  | nil => cases some
  | cons a rest =>
    by_cases first : isAlpha a = true
    · rw [identifier, if_pos first, Nat.add_comm, List.take_succ_cons]
      refine ⟨first, fun b member => ?_⟩
      have front : rest.take (countWhile (fun b => b = byte '_' || isAlpha b || isDigit b) rest) =
          rest.takeWhile fun b => b = byte '_' || isAlpha b || isDigit b :=
        List.prefix_iff_eq_take.mp (List.takeWhile_prefix _) |>.symm
      rw [front] at member
      have holds := List.mem_takeWhile_imp member
      exact holds
    · rw [identifier, if_neg first] at some
      cases some

theorem written_of_scanner {c : StartCondition} {request : List UInt8} :
    ∀ t ∈ (tokens scanner c request).1, Written t := by
  intro t member
  obtain ⟨c', rule, active, rest, f, action, some, rfl⟩ := mem_tokens member
  obtain rfl := tokens_initial c' rule active f action
  simp only [scanner, initialRules, List.mem_append, List.mem_map, List.mem_cons, List.not_mem_nil, or_false] at active
  rcases active with ((rfl | rfl | rfl | rfl) | ⟨⟨text, k⟩, listed, rfl⟩) |
    rfl | rfl | rfl | rfl | rfl | rfl | rfl | rfl | rfl
  case inr.inr.inr.inr.inr.inl =>
    cases action
    exact lettered_identifier rest some
  all_goals cases action
  all_goals trivial

end Rmdb.Lexer
