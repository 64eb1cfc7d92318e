import Mathlib.Logic.Relation
import Rmdb.Kit.Flex

namespace Rmdb.Lalr
variable {σ τ V O : Type}

/-! Parsers as bison generates them. Tables tell what to do in the state on top of the stack; the slots of the value
stack keep what was popped from them. -/

structure Rule (σ : Type) where
  lhs : σ
  rhs : List σ

inductive Move
  | shift (s : Nat)
  | reduce (r : Nat)
  deriving DecidableEq

structure Tables (σ : Type) where
  rule : Nat → Option (Rule σ)
  /-- Whether the state looks at a token before it decides. -/
  asks : Nat → Bool
  table : Nat → σ → Option Move
  default : Nat → Option Nat
  goto : Nat → σ → Nat
  final : Nat
  /-- The token at the end of the input, which comes again and again. -/
  stop : σ
  /-- The length of the stacks. -/
  depth : Nat

def Tables.move (T : Tables σ) (s : Nat) (k : σ) : Option Move :=
  match if T.asks s then T.table s k else none with
  | some m => some m
  | none => (T.default s).map .reduce

structure Automaton (σ τ V O : Type) extends Tables σ where
  /-- `$$`, or what the parse ends with, from what `$$` is before the action and the values `$1`, `$2`, .. -/
  act : Nat → V → List V → Option (V ⊕ O)
  kind : τ → σ
  /-- What the scanner leaves in `yylval` with a token. -/
  load : V → τ → V
  blank : V

structure Config (τ V : Type) where
  /-- States and their values, above the first state. -/
  stack : List (Nat × V)
  /-- The slots above the stack, as far as they were written. -/
  above : List V
  yylval : V
  input : List τ

/-- How a parse ends. -/
inductive Stop (O : Type)
  | accepted (o : O)
  | final
  | error
  | exhausted
  | stuck
  | outOfFuel
  deriving DecidableEq

def top : List (Nat × V) → Nat
  | [] => 0
  | e :: _ => e.1

@[simp] theorem top_nil : top ([] : List (Nat × V)) = 0 := rfl

@[simp] theorem top_cons (e : Nat × V) (st : List (Nat × V)) : top (e :: st) = e.1 := rfl

/-- The values from the bottom to the top, as `$1`, `$2`, .. -/
def values (st : List (Nat × V)) : List V := (st.map Prod.snd).reverse

@[simp] theorem values_nil : values ([] : List (Nat × V)) = [] := rfl

@[simp] theorem values_cons (e : Nat × V) (st : List (Nat × V)) : values (e :: st) = values st ++ [e.2] := by
  simp [values]

@[simp] theorem values_append (st st' : List (Nat × V)) : values (st ++ st') = values st' ++ values st := by
  simp [values]

@[simp] theorem length_values (st : List (Nat × V)) : (values st).length = st.length := by
  simp [values]

abbrev Config.state (c : Config τ V) : Nat := top c.stack

namespace Automaton
variable (A : Automaton σ τ V O)

def look : List τ → σ
  | [] => A.stop
  | t :: _ => A.kind t

def shift (c : Config τ V) (s : Nat) : Config τ V :=
  match c.input with
  | [] => { c with stack := (s, c.yylval) :: c.stack, above := c.above.tail }
  | t :: rest => ⟨(s, A.load c.yylval t) :: c.stack, c.above.tail, A.load c.yylval t, rest⟩

/-- The popped values stay in their slots, up to the one that takes the new value. -/
def reduce (c : Config τ V) (r : Nat) (rule : Rule σ) : Config τ V ⊕ Stop O :=
  let popped := values (c.stack.take rule.rhs.length)
  let slots := popped ++ c.above
  match A.act r (slots.headD A.blank) popped with
  | none => .inr .stuck
  | some (.inr o) => .inr (.accepted o)
  | some (.inl v) =>
    let rest := c.stack.drop rule.rhs.length
    .inl { c with stack := (A.goto (top rest) rule.lhs, v) :: rest, above := slots.tail }

/-- The loop of `yyparse`, from one pushed state to the next. Without a rule for it an error pops all states. -/
def step (c : Config τ V) : Config τ V ⊕ Stop O :=
  if A.depth ≤ c.stack.length + 1 then .inr .exhausted
  else if c.state = A.final then .inr .final
  else
    match A.move c.state (A.look c.input) with
    | none => .inr .error
    | some (.shift s) => .inl (A.shift c s)
    | some (.reduce r) =>
      match A.rule r with
      | none => .inr .stuck
      | some rule => A.reduce c r rule

def Steps : Config τ V → Config τ V → Prop := Relation.ReflTransGen fun c c' => A.step c = .inl c'

def Ends (c : Config τ V) (o : Stop O) : Prop := ∃ c', A.Steps c c' ∧ A.step c' = .inr o

def init (input : List τ) : Config τ V := ⟨[], [], A.blank, input⟩

/-- A token is read only where the tables need it. -/
def waits (c : Config τ V) : Bool := c.input.isEmpty && A.asks c.state && decide (c.stack.length + 1 < A.depth)

/-- The steps up to the next token. -/
def pause : Nat → Config τ V → Config τ V ⊕ Stop O
  | 0, _ => .inr .outOfFuel
  | n + 1, c =>
    if A.waits c then .inl c
    else
      match A.step c with
      | .inl c' => pause n c'
      | .inr o => .inr o

/-- The steps at the end of the input. -/
def finish : Nat → Config τ V → Stop O
  | 0, _ => .outOfFuel
  | n + 1, c =>
    match A.step c with
    | .inl c' => finish n c'
    | .inr o => o

/-- What the empty rules find in their slots, whatever was read. -/
def Fresh (fresh : σ → V → Prop) (input : List τ) : Prop := ∀ c, A.Steps (A.init input) c → ∀ r rule,
  A.rule r = some rule → A.move c.state (A.look c.input) = some (.reduce r) → rule.rhs = [] →
  fresh rule.lhs (c.above.headD A.blank)

/-- The parser that takes one token after the other. -/
def parser (fuel : Nat) : Flex.Parser τ (Stop O) where
  State := Config τ V
  start := A.init []
  step c t := A.pause fuel { c with input := [t] }
  atEof c := A.finish fuel c

end Automaton

/-! What the tables fit: every state is entered by one symbol, and a rule is reduced only where its right-hand side is
on the stack. -/

/-- Whether all chains of states down from this one spell the symbols, and `ok` holds of the states below. -/
def pops [DecidableEq σ] (below : Nat → List Nat) (symbol : Nat → σ) (ok : Nat → Bool) : List σ → Nat → Bool
  | [], s => ok s
  | X :: Xs, s => s != 0 && symbol s = X && (below s).all (pops below symbol ok Xs)

/-- Whether no chain of states down from this one has more than `n`, and `ok` holds of all but the first state. -/
def chains (below : Nat → List Nat) (ok : Nat → Bool) : Nat → Nat → Bool
  | 0, s => (below s).isEmpty
  | n + 1, s => (below s).all fun p => ok s && chains below ok n p

/-- The tables fit the rules. -/
structure Frame [DecidableEq σ] (T : Tables σ) where
  start : σ
  kinds : List σ
  count : Nat
  /-- The states that a state can stand on. -/
  below : Nat → List Nat
  symbol : Nat → σ
  rank : Nat → Nat
  height : Nat
  stop_mem : T.stop ∈ kinds
  shifts : ∀ s < count, ∀ k ∈ kinds, ∀ s', T.move s k = some (.shift s') → s ∈ below s' ∧ symbol s' = k
  reduces : ∀ s < count, ∀ k ∈ kinds, ∀ r, T.move s k = some (.reduce r) →
    ∃ rule, T.rule r = some rule ∧ pops below symbol (fun p => if rule.lhs = start then p == 0
      else p ∈ below (T.goto p rule.lhs) && symbol (T.goto p rule.lhs) = rule.lhs) rule.rhs.reverse s = true
  inside : ∀ s, ∀ p ∈ below s, s < count
  ranked : ∀ s < count, ∀ p ∈ below s, rank p < rank s ∧ rank s ≤ height ∧ s ≠ T.final ∧ s ≠ 0
  first : 0 < count ∧ T.final ≠ 0
  deep : height + 1 < T.depth

/-- The actions fit the tables: those of the start symbol end the parse. -/
structure Shape [DecidableEq σ] (A : Automaton σ τ V O) extends Frame A.toTables where
  kind_mem : ∀ t, A.kind t ∈ kinds
  ends : ∀ r rule, A.rule r = some rule → ∀ slot vs,
    match A.act r slot vs with
    | none => True
    | some (.inl _) => rule.lhs ≠ start
    | some (.inr _) => rule.lhs = start

section
variable {below : Nat → List Nat} {symbol : Nat → σ} {st : List (Nat × V)}

/-- A stack of states that can stand on one another. -/
def Linked (below : Nat → List Nat) : List (Nat × V) → Prop
  | [] => True
  | e :: st => top st ∈ below e.1 ∧ Linked below st

/-- The symbols on the stack, from the bottom to the top. -/
def symbols (symbol : Nat → σ) (st : List (Nat × V)) : List σ := (st.map fun e => symbol e.1).reverse

@[simp] theorem symbols_nil : symbols symbol ([] : List (Nat × V)) = [] := rfl

@[simp] theorem symbols_cons (e : Nat × V) (st : List (Nat × V)) :
    symbols symbol (e :: st) = symbols symbol st ++ [symbol e.1] := by
  simp [symbols]

@[simp] theorem symbols_append (st st' : List (Nat × V)) :
    symbols symbol (st ++ st') = symbols symbol st' ++ symbols symbol st := by
  simp [symbols]

theorem Linked.rest {front : List (Nat × V)} (linked : Linked below (front ++ st)) : Linked below st := by
  induction front with
  | nil => exact linked
  | cons e front ih => exact ih linked.2

/-- What a chain of states allows to pop. -/
theorem pops_sound [DecidableEq σ] {ok : Nat → Bool} {Xs : List σ} (linked : Linked below st)
    (checked : pops below symbol ok Xs (top st) = true) :
    ∃ front rest, st = front ++ rest ∧ symbols symbol front = Xs.reverse ∧ ok (top rest) = true := by
  induction Xs generalizing st with
  | nil => exact ⟨[], st, rfl, rfl, checked⟩
  | cons X Xs ih =>
    simp only [pops, Bool.and_eq_true, bne_iff_ne, decide_eq_true_eq, List.all_eq_true] at checked
    obtain ⟨⟨inside, here⟩, deeper⟩ := checked
    cases st with
    | nil => exact absurd rfl inside
    | cons e st =>
      obtain ⟨front, rest, rfl, spelled, exposed⟩ := ih linked.2 (deeper _ linked.1)
      exact ⟨e :: front, rest, rfl, by rw [symbols_cons, spelled, List.reverse_cons, ← here]; rfl, exposed⟩

theorem chains_sound {ok : Nat → Bool} {n : Nat} (linked : Linked below st)
    (checked : chains below ok n (top st) = true) : ∀ e ∈ st, ok e.1 = true := by
  induction st generalizing n with
  | nil => exact fun e member => absurd member List.not_mem_nil
  | cons e st ih =>
    cases n with
    | zero => exact absurd linked.1 (List.isEmpty_iff.mp checked ▸ List.not_mem_nil)
    | succ n =>
      have found := List.all_eq_true.mp checked _ linked.1
      rw [Bool.and_eq_true] at found
      exact List.forall_mem_cons.mpr ⟨found.1, ih linked.2 found.2⟩

end

namespace Shape
variable [DecidableEq σ] {A : Automaton σ τ V O} (S : Shape A) {c c' : Config τ V}

abbrev Sound (c : Config τ V) : Prop := Linked S.below c.stack

include S

theorem look_mem (input : List τ) : A.look input ∈ S.kinds := by
  cases input with
  | nil => exact S.stop_mem
  | cons t rest => exact S.kind_mem t

theorem top_lt {st : List (Nat × V)} (linked : Linked S.below st) : top st < S.count := by
  cases st with
  | nil => exact S.first.1
  | cons e st => exact S.inside _ _ linked.1

theorem length_le_rank {st : List (Nat × V)} (linked : Linked S.below st) : st.length ≤ S.rank (top st) := by
  induction st with
  | nil => exact Nat.zero_le _
  | cons e st ih =>
    have higher := (S.ranked _ (S.inside _ _ linked.1) _ linked.1).1
    exact Nat.succ_le_of_lt (Nat.lt_of_le_of_lt (ih linked.2) higher)

theorem eq_nil_of_top {st : List (Nat × V)} (linked : Linked S.below st) (first : top st = 0) : st = [] := by
  cases st with
  | nil => rfl
  | cons e st => exact absurd first (S.ranked _ (S.inside _ _ linked.1) _ linked.1).2.2.2

/-- What one step of a parse can do. -/
inductive Next (c : Config τ V) : Config τ V → Prop
  | shift {s : Nat} : A.move c.state (A.look c.input) = some (.shift s) → S.symbol s = A.look c.input →
      c.state ∈ S.below s → Next c (A.shift c s)
  | reduce {r : Nat} {rule : Rule σ} {front rest : List (Nat × V)} {v : V} :
      A.move c.state (A.look c.input) = some (.reduce r) → A.rule r = some rule → c.stack = front ++ rest →
      symbols S.symbol front = rule.rhs →
      A.act r ((values front ++ c.above).headD A.blank) (values front) = some (.inl v) →
      top rest ∈ S.below (A.goto (top rest) rule.lhs) → S.symbol (A.goto (top rest) rule.lhs) = rule.lhs →
      Next c { c with
        stack := (A.goto (top rest) rule.lhs, v) :: rest, above := (values front ++ c.above).tail }

theorem next (sound : S.Sound c) (run : A.step c = .inl c') : S.Next c c' := by
  unfold Automaton.step at run
  split at run
  · cases run
  split at run
  · cases run
  split at run
  · cases run
  · rename_i s moved
    cases run
    obtain ⟨edge, entered⟩ := S.shifts _ (S.top_lt sound) _ (S.look_mem _) _ moved
    exact .shift moved entered edge
  · rename_i r moved
    obtain ⟨rule, found, popped⟩ := S.reduces _ (S.top_lt sound) _ (S.look_mem _) _ moved
    obtain ⟨front, rest, cut, spelled, exposed⟩ := pops_sound sound popped
    rw [List.reverse_reverse] at spelled
    have length : rule.rhs.length = front.length := by
      rw [← spelled, symbols, List.length_reverse, List.length_map]
    have took : c.stack.take rule.rhs.length = front := by rw [cut, length, List.take_left]
    have dropped : c.stack.drop rule.rhs.length = rest := by rw [cut, length, List.drop_left]
    simp only [found, Automaton.reduce, took, dropped] at run
    split at run
    · cases run
    · cases run
    · rename_i v acted
      cases run
      have inside := S.ends r rule found ((values front ++ c.above).headD A.blank) (values front)
      rw [acted] at inside
      simp only [if_neg inside, decide_eq_true_eq, Bool.and_eq_true] at exposed
      exact .reduce moved found cut spelled acted exposed.1 exposed.2

theorem next_sound (sound : S.Sound c) (next : S.Next c c') : S.Sound c' := by
  cases next with
  | @shift s _ _ edge =>
    unfold Automaton.shift
    split
    · exact ⟨edge, sound⟩
    · exact ⟨edge, sound⟩
  | reduce _ _ cut _ _ edge _ =>
    have whole : S.Sound c := sound
    rw [Sound, cut] at whole
    exact ⟨edge, whole.rest⟩

theorem steps_sound (sound : S.Sound c) (run : A.Steps c c') : S.Sound c' := by
  induction run with
  | refl => exact sound
  | tail _ last ih => exact S.next_sound ih (S.next ih last)

theorem init_sound (input : List τ) : S.Sound (A.init input) := trivial

/-- The stack never gets higher, however long the input is, and the last state is not reached. -/
theorem low_stack (sound : S.Sound c) : c.stack.length ≤ S.height ∧ c.state ≠ A.final := by
  have length := S.length_le_rank sound
  unfold Config.state
  cases stack : c.stack with
  | nil => exact ⟨Nat.zero_le _, fun same => S.first.2 same.symm⟩
  | cons e st =>
    rw [Sound, stack] at sound
    rw [stack] at length
    obtain ⟨_, low, other, _⟩ := S.ranked _ (S.inside _ _ sound.1) _ sound.1
    exact ⟨Nat.le_trans length low, other⟩

/-- Behind the end of the input nothing is left. -/
theorem stop_last (apart : ∀ t, A.kind t ≠ A.stop) (inner : ∀ r rule, A.rule r = some rule → rule.lhs ≠ A.stop)
    {input : List τ} (run : A.Steps (A.init input) c) (ended : A.stop ∈ symbols S.symbol c.stack) : c.input = [] := by
  induction run with
  | refl => cases ended
  | @tail c c' before last ih =>
    cases S.next (S.steps_sound (S.init_sound input) before) last with
    | @shift s _ entered _ =>
      unfold Automaton.shift at ended ⊢
      split at ended
      · assumption
      · rename_i t rest more
        rw [symbols_cons, List.mem_append, List.mem_singleton, entered, more] at ended
        rcases ended with below | here
        · rw [ih below] at more
          cases more
        · exact absurd here.symm (apart t)
    | @reduce r rule front rest v _ found stack _ _ _ same =>
      rw [symbols_cons, List.mem_append, List.mem_singleton, same] at ended
      refine ih ?_
      rw [stack, symbols_append]
      exact List.mem_append_left _ (ended.resolve_right fun here => inner r rule found here.symm)

/-- How a parse can end. -/
theorem stops (sound : S.Sound c) {o : Stop O} (run : A.step c = .inr o) :
    o = .error ∨ ∃ r rule front rest, A.move c.state (A.look c.input) = some (.reduce r) ∧ A.rule r = some rule ∧
      c.stack = front ++ rest ∧ symbols S.symbol front = rule.rhs ∧
      match A.act r ((values front ++ c.above).headD A.blank) (values front) with
      | none => o = .stuck
      | some (.inl _) => False
      | some (.inr result) => rest = [] ∧ o = .accepted result := by
  obtain ⟨low, other⟩ := S.low_stack sound
  have room := S.deep
  unfold Automaton.step at run
  rw [if_neg (by omega), if_neg other] at run
  split at run
  · cases run
    exact Or.inl rfl
  · cases run
  · rename_i r moved
    obtain ⟨rule, found, popped⟩ := S.reduces _ (S.top_lt sound) _ (S.look_mem _) _ moved
    obtain ⟨front, rest, cut, spelled, exposed⟩ := pops_sound sound popped
    rw [List.reverse_reverse] at spelled
    have length : rule.rhs.length = front.length := by
      rw [← spelled, symbols, List.length_reverse, List.length_map]
    have took : c.stack.take rule.rhs.length = front := by rw [cut, length, List.take_left]
    refine Or.inr ⟨r, rule, front, rest, moved, found, cut, spelled, ?_⟩
    simp only [found, Automaton.reduce, took] at run
    split at run
    · rename_i acted
      cases run
      rw [acted]
    · rename_i acted
      cases run
      have last := S.ends r rule found ((values front ++ c.above).headD A.blank) (values front)
      have whole : S.Sound c := sound
      rw [acted] at last ⊢
      rw [if_pos last, beq_iff_eq] at exposed
      rw [Sound, cut] at whole
      exact ⟨S.eq_nil_of_top whole.rest exposed, rfl⟩
    · cases run

end Shape

/-! What the slots above the stack hold. -/

/-- A property that only values of marked symbols lack. A mark stays on the stack. -/
structure Marks [DecidableEq σ] {A : Automaton σ τ V O} (S : Shape A) where
  clean : V → Prop
  marked : σ → Bool
  blank : clean A.blank
  load : ∀ v t, clean v → clean (A.load v t)
  kept : ∀ r rule, A.rule r = some rule → marked rule.lhs = false → ∀ X ∈ rule.rhs, marked X = false
  act : ∀ r rule, A.rule r = some rule → marked rule.lhs = false → ∀ slot vs v, clean slot → (∀ v' ∈ vs, clean v') →
    A.act r slot vs = some (.inl v) → clean v

namespace Marks
variable [DecidableEq σ] {A : Automaton σ τ V O} {S : Shape A} (M : Marks S) {c c' : Config τ V}

/-- Without a marked symbol on the stack no slot was ever written otherwise. -/
def Clean (c : Config τ V) : Prop :=
  M.clean c.yylval ∧ ((∀ X ∈ symbols S.symbol c.stack, M.marked X = false) →
    (∀ v ∈ values c.stack, M.clean v) ∧ ∀ v ∈ c.above, M.clean v)

include M

theorem next_clean (clean : M.Clean c) (next : S.Next c c') : M.Clean c' := by
  obtain ⟨last, slots⟩ := clean
  cases next with
  | @shift s _ entered edge =>
    unfold Automaton.shift
    split
    · refine ⟨last, fun unmarked => ?_⟩
      rw [symbols_cons, List.forall_mem_append] at unmarked
      obtain ⟨below, above⟩ := slots unmarked.1
      rw [values_cons, List.forall_mem_append, List.forall_mem_singleton]
      exact ⟨⟨below, last⟩, fun v member => above v (List.mem_of_mem_tail member)⟩
    · refine ⟨M.load _ _ last, fun unmarked => ?_⟩
      rw [symbols_cons, List.forall_mem_append] at unmarked
      obtain ⟨below, above⟩ := slots unmarked.1
      rw [values_cons, List.forall_mem_append, List.forall_mem_singleton]
      exact ⟨⟨below, M.load _ _ last⟩, fun v member => above v (List.mem_of_mem_tail member)⟩
  | @reduce r rule front rest v _ found cut spelled acted _ same =>
    refine ⟨last, fun unmarked => ?_⟩
    rw [symbols_cons, List.forall_mem_append, List.forall_mem_singleton, same] at unmarked
    rw [cut, symbols_append, values_append, List.forall_mem_append, List.forall_mem_append, spelled] at slots
    obtain ⟨⟨below, popped⟩, above⟩ := slots ⟨unmarked.1, M.kept r rule found unmarked.2⟩
    have written : ∀ v ∈ values front ++ c.above, M.clean v := List.forall_mem_append.mpr ⟨popped, above⟩
    have slot : M.clean ((values front ++ c.above).headD A.blank) := by
      cases list : values front ++ c.above with
      | nil => exact M.blank
      | cons v vs => exact written v (list ▸ List.mem_cons_self)
    rw [values_cons, List.forall_mem_append, List.forall_mem_singleton]
    exact ⟨⟨below, M.act r rule found unmarked.2 _ _ _ slot popped acted⟩,
      fun v member => written v (List.mem_of_mem_tail member)⟩

theorem steps_clean {input : List τ} (run : A.Steps (A.init input) c) : M.Clean c := by
  induction run with
  | refl => exact ⟨M.blank, fun _ => ⟨fun v member => absurd member List.not_mem_nil, fun v member =>
      absurd member List.not_mem_nil⟩⟩
  | tail before last ih => exact M.next_clean ih (S.next (S.steps_sound (S.init_sound input) before) last)

/-- The slot above a stack without marks. -/
theorem slot_clean {input : List τ} (run : A.Steps (A.init input) c)
    (unmarked : ∀ X ∈ symbols S.symbol c.stack, M.marked X = false) : M.clean (c.above.headD A.blank) := by
  have above := ((M.steps_clean run).2 unmarked).2
  cases list : c.above with
  | nil => exact M.blank
  | cons v vs => exact above v (list ▸ List.mem_cons_self)

end Marks

/-! What the tokens that were read stand for. -/

section
variable (means : σ → List τ → V → Prop)

/-- Each symbol over its own tokens. -/
def Spans : List σ → List τ → List V → Prop
  | [], ts, vs => ts = [] ∧ vs = []
  | X :: Xs, ts, vs => ∃ us rest v vs', ts = us ++ rest ∧ vs = v :: vs' ∧ means X us v ∧ Spans Xs rest vs'

variable {means} {Xs Ys : List σ} {ts us : List τ} {vs ws : List V}

theorem Spans.append (first : Spans means Xs ts vs) (second : Spans means Ys us ws) :
    Spans means (Xs ++ Ys) (ts ++ us) (vs ++ ws) := by
  induction Xs generalizing ts vs with
  | nil =>
    obtain ⟨rfl, rfl⟩ := first
    exact second
  | cons X Xs ih =>
    obtain ⟨us', rest, v, vs', rfl, rfl, here, later⟩ := first
    exact ⟨us', rest ++ us, v, vs' ++ ws, List.append_assoc _ _ _, rfl, here, ih later⟩

theorem Spans.split (spans : Spans means (Xs ++ Ys) ts (vs ++ ws)) (length : Xs.length = vs.length) :
    ∃ us us', ts = us ++ us' ∧ Spans means Xs us vs ∧ Spans means Ys us' ws := by
  induction Xs generalizing ts vs with
  | nil =>
    obtain rfl := List.eq_nil_of_length_eq_zero length.symm
    exact ⟨[], ts, rfl, ⟨rfl, rfl⟩, spans⟩
  | cons X Xs ih =>
    cases vs with
    | nil => cases length
    | cons v vs =>
      obtain ⟨us, rest, v', vs', rfl, same, here, later⟩ := spans
      cases same
      obtain ⟨us₁, us₂, rfl, first, second⟩ := ih later (Nat.succ.inj length)
      exact ⟨us ++ us₁, us₂, (List.append_assoc _ _ _).symm, ⟨us, us₁, v, vs, rfl, rfl, here, first⟩, second⟩

theorem Spans.snoc {X : σ} {v : V} (first : Spans means Xs ts vs) (last : means X us v) :
    Spans means (Xs ++ [X]) (ts ++ us) (vs ++ [v]) :=
  first.append ⟨us, [], v, [], (List.append_nil us).symm, rfl, last, rfl, rfl⟩

end

/-- A meaning that the rules keep. -/
structure Meaning [DecidableEq σ] {A : Automaton σ τ V O} (S : Shape A) where
  means : σ → List τ → V → Prop
  fresh : σ → V → Prop
  /-- The tokens that were read, and those that were not. -/
  result : List τ → List τ → O → Prop
  /-- What the scanner makes tokens of. -/
  good : τ → Prop
  apart : ∀ t, A.kind t ≠ A.stop
  inner : ∀ r rule, A.rule r = some rule → rule.lhs ≠ A.stop
  token : ∀ v t, good t → means (A.kind t) [t] (A.load v t)
  stop : ∀ v, means A.stop [] v
  act : ∀ r rule ts rest vs above, A.rule r = some rule → Spans means rule.rhs ts vs →
    (rule.rhs = [] → fresh rule.lhs (above.headD A.blank)) → (A.stop ∈ rule.rhs → rest = []) →
    match A.act r ((vs ++ above).headD A.blank) vs with
    | none => False
    | some (.inl v) => means rule.lhs ts v
    | some (.inr o) => result ts rest o

namespace Meaning
variable [DecidableEq σ] {A : Automaton σ τ V O} {S : Shape A} (M : Meaning S) {c c' : Config τ V} {input : List τ}

def Read (input : List τ) (c : Config τ V) : Prop :=
  ∃ ts, input = ts ++ c.input ∧ Spans M.means (symbols S.symbol c.stack) ts (values c.stack)

include M

theorem split {front rest : List (Nat × V)} {ts : List τ}
    (spans : Spans M.means (symbols S.symbol (front ++ rest)) ts (values (front ++ rest))) :
    ∃ us vs, ts = us ++ vs ∧ Spans M.means (symbols S.symbol rest) us (values rest) ∧
      Spans M.means (symbols S.symbol front) vs (values front) := by
  rw [symbols_append, values_append] at spans
  exact spans.split (by simp [symbols])

theorem rest_read {front rest : List (Nat × V)} (run : A.Steps (A.init input) c) (stack : c.stack = front ++ rest)
    (ended : A.stop ∈ symbols S.symbol front) : c.input = [] := by
  refine S.stop_last M.apart M.inner run ?_
  rw [stack, symbols_append]
  exact List.mem_append_right _ ended

theorem next_read (good : ∀ t ∈ input, M.good t) (fresh : A.Fresh M.fresh input) (run : A.Steps (A.init input) c)
    (read : M.Read input c) (next : S.Next c c') : M.Read input c' := by
  obtain ⟨ts, cut, spans⟩ := read
  cases next with
  | @shift s _ entered edge =>
    unfold Automaton.shift
    split
    · rename_i ended
      refine ⟨ts, cut.trans (by rw [ended]), ?_⟩
      rw [symbols_cons, values_cons, ← List.append_nil ts]
      refine spans.snoc ?_
      simp only [entered, ended]
      exact M.stop _
    · rename_i t rest more
      refine ⟨ts ++ [t], cut.trans (by rw [more]; simp), ?_⟩
      rw [symbols_cons, values_cons]
      refine spans.snoc ?_
      simp only [entered, more]
      exact M.token _ t (good t (cut ▸ List.mem_append_right _ (more ▸ List.mem_cons_self)))
  | @reduce r rule front rest v moved found stack spelled acted _ same =>
    rw [stack] at spans
    obtain ⟨us, vs, rfl, below, popped⟩ := M.split spans
    rw [spelled] at popped
    have kept := M.act r rule vs c.input (values front) c.above found popped (fresh c run r rule found moved)
      (spelled ▸ M.rest_read run stack)
    rw [acted] at kept
    refine ⟨us ++ vs, cut, ?_⟩
    rw [symbols_cons, values_cons]
    refine below.snoc ?_
    rw [same]
    exact kept

theorem steps_read (good : ∀ t ∈ input, M.good t) (fresh : A.Fresh M.fresh input) (run : A.Steps (A.init input) c) :
    M.Read input c := by
  induction run with
  | refl => exact ⟨[], rfl, rfl, rfl⟩
  | tail before last ih =>
    exact M.next_read good fresh before ih (S.next (S.steps_sound (S.init_sound input) before) last)

/-- A parse ends with what the tokens at the front of its input stand for, or with an error. -/
theorem ends_sound (good : ∀ t ∈ input, M.good t) (fresh : A.Fresh M.fresh input) {o : Stop O}
    (ends : A.Ends (A.init input) o) :
    o = .error ∨ ∃ result ts rest, o = .accepted result ∧ input = ts ++ rest ∧ M.result ts rest result := by
  obtain ⟨c, run, last⟩ := ends
  obtain ⟨ts, cut, spans⟩ := M.steps_read good fresh run
  rcases S.stops (S.steps_sound (S.init_sound input) run) last with
    error | ⟨r, rule, front, rest, moved, found, stack, spelled, ended⟩
  · exact Or.inl error
  · rw [stack] at spans
    obtain ⟨us, vs, rfl, below, popped⟩ := M.split spans
    rw [spelled] at popped
    have kept := M.act r rule vs c.input (values front) c.above found popped (fresh c run r rule found moved)
      (spelled ▸ M.rest_read run stack)
    split at ended
    · rename_i acted
      rw [acted] at kept
      exact kept.elim
    · exact ended.elim
    · rename_i result acted
      rw [acted] at kept
      obtain ⟨rfl, same⟩ := ended
      obtain ⟨rfl, _⟩ := below
      exact Or.inr ⟨result, vs, c.input, same, cut, kept⟩

end Meaning

end Rmdb.Lalr
