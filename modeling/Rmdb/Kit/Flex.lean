import Mathlib.Algebra.GroupWithZero.Nat
import Mathlib.Data.List.Basic
import Mathlib.Tactic.Common

namespace Rmdb.Flex
variable {κ τ ρ : Type}

/-! Scanners as flex generates them: start conditions, the longest match, the first rule
among equal matches, and a parser that asks for one token after the other. -/

/-- What a rule does with its match. -/
inductive Action (κ τ : Type)
  | begin (c : κ)
  | ignore
  | token (f : List UInt8 → τ)

/-- A rule; `longest` is the length of the longest match at the front of the input, or 0. -/
structure Rule (κ τ : Type) where
  longest : List UInt8 → Nat
  action : Action κ τ

/-- The rules that are active in each start condition. -/
abbrev Scanner (κ τ : Type) := κ → List (Rule κ τ)

/-- The longest match, and among equal ones that of the first rule. -/
def pick : List (Rule κ τ) → List UInt8 → Option (Nat × Action κ τ)
  | [], _ => none
  | rule :: rules, input =>
    match pick rules input with
    | none => if 0 < rule.longest input then some (rule.longest input, rule.action) else none
    | some (n, action) => if n ≤ rule.longest input then some (rule.longest input, rule.action) else some (n, action)

/-- A parser takes tokens until it has a result. The token for the end of the input always ends it. -/
structure Parser (τ ρ : Type) where
  State : Type
  start : State
  step : State → τ → State ⊕ ρ
  atEof : State → ρ

/-- The parser that takes all tokens. -/
def Parser.tokens : Parser τ (List τ) where
  State := List τ
  start := []
  step ts t := .inl (ts ++ [t])
  atEof ts := ts

variable (S : Scanner κ τ) (P : Parser τ ρ)

/-- A parse of the input, `skip` bytes of which belong to the last match: its result and the
start condition it leaves. A byte that no rule matches is echoed. -/
def parseFrom : P.State → κ → Nat → List UInt8 → ρ × κ
  | q, c, _, [] => (P.atEof q, c)
  | q, c, skip + 1, _ :: rest => parseFrom q c skip rest
  | q, c, 0, b :: rest =>
    match pick (S c) (b :: rest) with
    | none => parseFrom q c 0 rest
    | some (n, .begin c') => parseFrom q c' (n - 1) rest
    | some (n, .ignore) => parseFrom q c (n - 1) rest
    | some (n, .token f) =>
      match P.step q (f ((b :: rest).take n)) with
      | .inl q' => parseFrom q' c (n - 1) rest
      | .inr result => (result, c)

/-- The parse of a new buffer. The start condition is the one left by the last. -/
def parse (c : κ) (input : List UInt8) : ρ × κ := parseFrom S P P.start c 0 input

/-- All tokens of the input, and the start condition at its end. -/
def tokens (c : κ) (input : List UInt8) : List τ × κ := parse S Parser.tokens c input

/-- The start condition after a sequence of parses. -/
def afterAll (c : κ) (history : List (List UInt8)) : κ := history.foldl (fun c input => (parse S P c input).2) c

theorem mem_of_pick {rules : List (Rule κ τ)} {input : List UInt8} {n : Nat} {action : Action κ τ}
    (picked : pick rules input = some (n, action)) :
    ∃ rule ∈ rules, rule.action = action ∧ rule.longest input = n ∧ 0 < n := by
  induction rules generalizing n action with
  | nil => cases picked
  | cons rule rules ih =>
    rw [pick] at picked
    split at picked
    · split at picked
      · rename_i some
        cases picked
        exact ⟨rule, List.mem_cons_self, rfl, rfl, some⟩
      · cases picked
    · rename_i m later found
      obtain ⟨rule', member, action', longest, some⟩ := ih found
      split at picked
      · rename_i longer
        cases picked
        exact ⟨rule, List.mem_cons_self, rfl, rfl, by omega⟩
      · cases picked
        exact ⟨rule', List.mem_cons_of_mem _ member, action', longest, some⟩

variable {S P}

/-- Where all tokens come from one start condition, a parse leaves this one, or the one at
the end of the input. -/
theorem parseFrom_condition {base : κ} (only : ∀ c, ∀ rule ∈ S c, ∀ f, rule.action = .token f → c = base)
    (q : P.State) (ts : List τ) (c : κ) (skip : Nat) (input : List UInt8) :
    (parseFrom S P q c skip input).2 = base ∨
      (parseFrom S P q c skip input).2 = (parseFrom S Parser.tokens ts c skip input).2 := by
  induction input generalizing q ts c skip with
  | nil =>
    simp only [parseFrom]
    exact Or.inr trivial
  | cons b rest ih =>
    cases skip with
    | succ skip =>
      simp only [parseFrom]
      exact ih q ts c skip
    | zero =>
      simp only [parseFrom]
      split
      · exact ih q ts c 0
      · exact ih q ts _ _
      · exact ih q ts _ _
      · rename_i n f picked
        obtain ⟨rule, member, action, _⟩ := mem_of_pick picked
        have here := only c rule member f action
        split
        · exact ih _ _ _ _
        · exact Or.inl here

theorem parse_condition {base : κ} (only : ∀ c, ∀ rule ∈ S c, ∀ f, rule.action = .token f → c = base) (c : κ)
    (input : List UInt8) : (parse S P c input).2 = base ∨ (parse S P c input).2 = (tokens S c input).2 :=
  parseFrom_condition only P.start [] c 0 input

theorem mem_parseFrom {q : List τ} {c : κ} {skip : Nat} {input : List UInt8} {t : τ}
    (member : t ∈ (parseFrom S Parser.tokens q c skip input).1) :
    t ∈ q ∨ ∃ c', ∃ rule ∈ S c', ∃ rest f, rule.action = .token f ∧ 0 < rule.longest rest ∧
      t = f (rest.take (rule.longest rest)) := by
  induction input generalizing q c skip with
  | nil => exact Or.inl member
  | cons b rest ih =>
    cases skip with
    | succ skip => exact ih member
    | zero =>
      simp only [parseFrom] at member
      split at member
      · exact ih member
      · exact ih member
      · exact ih member
      · rename_i n f picked
        obtain ⟨rule, mem, action, longest, some⟩ := mem_of_pick picked
        rcases ih member with before | after
        · rcases List.mem_append.mp before with before | here
          · exact Or.inl before
          · rw [List.mem_singleton] at here
            subst longest
            exact Or.inr ⟨c, rule, mem, b :: rest, f, action, some, here⟩
        · exact Or.inr after

/-- Every token is what its rule makes of its match. -/
theorem mem_tokens {c : κ} {input : List UInt8} {t : τ} (member : t ∈ (tokens S c input).1) :
    ∃ c', ∃ rule ∈ S c', ∃ rest f, rule.action = .token f ∧ 0 < rule.longest rest ∧
      t = f (rest.take (rule.longest rest)) := by
  rcases mem_parseFrom member with before | found
  · cases before
  · exact found

/-- Inputs that end in the base condition leave it whatever the parser takes of them. -/
theorem afterAll_base {base : κ} (only : ∀ c, ∀ rule ∈ S c, ∀ f, rule.action = .token f → c = base)
    {history : List (List UInt8)} (closed : ∀ input ∈ history, (tokens S base input).2 = base) :
    afterAll S P base history = base := by
  induction history with
  | nil => rfl
  | cons input history ih =>
    obtain ⟨first, closed⟩ := List.forall_mem_cons.mp closed
    have left : (parse S P base input).2 = base := by
      rcases parse_condition (P := P) only base input with same | same
      · exact same
      · rw [same, first]
    rw [afterAll, List.foldl_cons, left]
    exact ih closed

theorem longest_of_pick_none {rules : List (Rule κ τ)} {input : List UInt8} (picked : pick rules input = none) :
    ∀ rule ∈ rules, rule.longest input = 0 := by
  induction rules with
  | nil => exact fun _ member => absurd member List.not_mem_nil
  | cons rule rules ih =>
    rw [pick] at picked
    split at picked
    · rename_i nothing
      split at picked
      · cases picked
      · exact List.forall_mem_cons.mpr ⟨by omega, ih nothing⟩
    · split at picked <;> cases picked

/-- The match is a longest one. -/
theorem longest_le_of_pick {rules : List (Rule κ τ)} {input : List UInt8} {n : Nat} {action : Action κ τ}
    (picked : pick rules input = some (n, action)) : ∀ rule ∈ rules, rule.longest input ≤ n := by
  induction rules generalizing n action with
  | nil => cases picked
  | cons rule rules ih =>
    rw [pick] at picked
    refine List.forall_mem_cons.mpr ?_
    split at picked
    · rename_i nothing
      split at picked
      · cases picked
        refine ⟨Nat.le_refl _, fun rule' member => ?_⟩
        have empty : rule'.longest input = 0 := longest_of_pick_none nothing rule' member
        omega
      · cases picked
    · rename_i m later found
      have rest := ih found
      split at picked
      · rename_i longer
        cases picked
        exact ⟨Nat.le_refl _, fun rule' member => Nat.le_trans (rest rule' member) longer⟩
      · rename_i shorter
        cases picked
        exact ⟨by omega, rest⟩

/-- The first of the rules with the longest match is taken. -/
theorem pick_of_longest {before after : List (Rule κ τ)} {rule : Rule κ τ} {input : List UInt8}
    (some : 0 < rule.longest input) (first : ∀ r ∈ before, r.longest input < rule.longest input)
    (rest : ∀ r ∈ after, r.longest input ≤ rule.longest input) :
    pick (before ++ rule :: after) input = .some (rule.longest input, rule.action) := by
  induction before with
  | nil =>
    rw [List.nil_append, pick]
    split
    · exact if_pos some
    · rename_i n action picked
      obtain ⟨other, member, _, longest, _⟩ := mem_of_pick picked
      exact if_pos (longest ▸ rest other member)
  | cons r before ih =>
    obtain ⟨here, first⟩ := List.forall_mem_cons.mp first
    rw [List.cons_append, pick, ih first]
    exact if_neg (Nat.not_le.mpr here)

/-! Tokens that cannot stand directly behind one another, such as two words. -/

section spaced
variable (word : τ → Bool) (size : τ → Nat)

/-- The next token starts right here, and it is a word. -/
def Front (S : Scanner κ τ) (word : τ → Bool) (c : κ) (input : List UInt8) : Prop :=
  ∃ n f, pick (S c) input = some (n, .token f) ∧ word (f (input.take n)) = true

/-- A word takes up its size, and no other word starts where it ends. -/
def Spaced (S : Scanner κ τ) : Prop :=
  ∀ c input n f, pick (S c) input = some (n, .token f) → word (f (input.take n)) = true →
    size (f (input.take n)) ≤ n ∧ ¬Front S word c (input.drop n)

/-- The bytes that the words among some tokens take up, each with the byte behind it. -/
def room (ts : List τ) : Nat := (ts.map fun t => if word t then size t + 1 else 0).sum

end spaced

/-- The tokens found are put behind those that are there. -/
theorem parseFrom_tokens (q : List τ) (c : κ) (skip : Nat) (input : List UInt8) :
    (parseFrom S Parser.tokens q c skip input).1 = q ++ (tokens S c (input.drop skip)).1 := by
  induction input generalizing q c skip with
  | nil =>
    rw [List.drop_nil]
    exact (List.append_nil q).symm
  | cons b rest ih =>
    cases skip with
    | succ skip => exact ih q c skip
    | zero =>
      change _ = q ++ (parseFrom S Parser.tokens Parser.tokens.start c 0 (b :: rest)).1
      simp only [parseFrom]
      split
      · exact ih q c 0
      · exact (ih q _ _).trans (congrArg (q ++ ·) (ih [] _ _).symm)
      · exact (ih q _ _).trans (congrArg (q ++ ·) (ih [] _ _).symm)
      · rename_i n f picked
        refine (ih (q ++ [f ((b :: rest).take n)]) c (n - 1)).trans ?_
        rw [List.append_assoc]
        exact congrArg (q ++ ·) (ih [f ((b :: rest).take n)] c (n - 1)).symm

section
variable {c : κ} {b : UInt8} {rest : List UInt8} {n : Nat}

theorem tokens_echo (picked : pick (S c) (b :: rest) = none) :
    (tokens S c (b :: rest)).1 = (tokens S c rest).1 := by
  simp only [tokens, parse, parseFrom, picked]

theorem tokens_begin {c' : κ} (picked : pick (S c) (b :: rest) = some (n, .begin c')) :
    (tokens S c (b :: rest)).1 = (tokens S c' (rest.drop (n - 1))).1 := by
  simp only [tokens, parse, parseFrom, picked]
  exact parseFrom_tokens [] c' (n - 1) rest

theorem tokens_ignore (picked : pick (S c) (b :: rest) = some (n, .ignore)) :
    (tokens S c (b :: rest)).1 = (tokens S c (rest.drop (n - 1))).1 := by
  simp only [tokens, parse, parseFrom, picked]
  exact parseFrom_tokens [] c (n - 1) rest

theorem tokens_token {f : List UInt8 → τ} (picked : pick (S c) (b :: rest) = some (n, .token f)) :
    (tokens S c (b :: rest)).1 = f ((b :: rest).take n) :: (tokens S c (rest.drop (n - 1))).1 := by
  simp only [tokens, parse, parseFrom, picked]
  exact parseFrom_tokens [f ((b :: rest).take n)] c (n - 1) rest

end

theorem room_cons (word : τ → Bool) (size : τ → Nat) (t : τ) (ts : List τ) :
    room word size (t :: ts) = (if word t then size t + 1 else 0) + room word size ts := rfl

/-- The words in front of a token fit into the input, each with a byte of its own behind it. -/
theorem room_le {word : τ → Bool} {size : τ → Nat} (spaced : Spaced word size S) {c : κ} {input : List UInt8}
    {pre post : List τ} {t : τ} (read : (tokens S c input).1 = pre ++ t :: post) :
    room word size pre ≤ input.length ∧ (¬Front S word c input → room word size pre + 1 ≤ input.length) := by
  -- by the length of the input: what is left behind a match is shorter
  induction length : input.length using Nat.strongRecOn generalizing c input pre with
  | ind n ih =>
    subst length
    have shorter : ∀ (c' : κ) (rest : List UInt8), rest.length < input.length →
        (tokens S c' rest).1 = pre ++ t :: post → room word size pre + 1 ≤ input.length :=
      fun c' rest less read => Nat.le_trans (Nat.succ_le_succ (ih _ less read rfl).1) less
    cases input with
    | nil =>
      have none : ([] : List τ) = pre ++ t :: post := read
      simp at none
    | cons b rest =>
      have behind : ∀ m : Nat, (rest.drop m).length < (b :: rest).length := by
        intro m
        simp only [List.length_drop, List.length_cons]
        omega
      match picked : pick (S c) (b :: rest) with
      | none =>
        rw [tokens_echo picked] at read
        have fits := shorter _ _ (behind 0) read
        exact ⟨by omega, fun _ => fits⟩
      | some (n, .begin c') =>
        rw [tokens_begin picked] at read
        have fits := shorter _ _ (behind _) read
        exact ⟨by omega, fun _ => fits⟩
      | some (n, .ignore) =>
        rw [tokens_ignore picked] at read
        have fits := shorter _ _ (behind _) read
        exact ⟨by omega, fun _ => fits⟩
      | some (n, .token f) =>
        obtain ⟨_, _, _, _, some⟩ := mem_of_pick picked
        rw [tokens_token picked] at read
        obtain ⟨n, rfl⟩ : ∃ m, n = m + 1 := ⟨n - 1, by omega⟩
        cases pre with
        | nil =>
          refine ⟨Nat.zero_le _, fun _ => ?_⟩
          simp [room]
        | cons first pre =>
          obtain ⟨rfl, later⟩ := List.cons.inj read
          have inside := ih _ (behind n) later rfl
          have left : (rest.drop n).length ≤ rest.length - n := by simp
          cases isWord : word (f ((b :: rest).take (n + 1))) with
          | true =>
            obtain ⟨small, apart⟩ := spaced c (b :: rest) (n + 1) f picked isWord
            have tight := inside.2 apart
            refine ⟨?_, fun free => absurd ⟨n + 1, f, picked, isWord⟩ free⟩
            rw [room_cons, if_pos isWord, List.length_cons]
            omega
          | false =>
            have fits := inside.1
            rw [room_cons, if_neg (by rw [isWord]; exact Bool.false_ne_true), List.length_cons]
            exact ⟨by omega, fun _ => by omega⟩

end Rmdb.Flex
