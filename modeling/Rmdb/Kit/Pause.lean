import Rmdb.Kit.Lalr

namespace Rmdb

namespace Flex
variable {κ τ ρ : Type} {S : Scanner κ τ}

/-- A parser on tokens that were all read before. -/
def Parser.feed (P : Parser τ ρ) : P.State → List τ → ρ
  | q, [] => P.atEof q
  | q, t :: ts =>
    match P.step q t with
    | .inl q' => P.feed q' ts
    | .inr result => result

/-- The tokens that are read one by one are those of the input. -/
theorem parseFrom_eq_feed {P : Parser τ ρ} (q : P.State) (c : κ) (skip : Nat) (input : List UInt8) :
    (parseFrom S P q c skip input).1 = P.feed q (tokens S c (input.drop skip)).1 := by
  induction input generalizing q c skip with
  | nil =>
    rw [List.drop_nil]
    rfl
  | cons b rest ih =>
    cases skip with
    | succ skip => exact ih q c skip
    | zero =>
      rw [List.drop_zero]
      simp only [parseFrom]
      split
      · rename_i picked
        rw [tokens_echo picked]
        exact ih q c 0
      · rename_i picked
        rw [tokens_begin picked]
        exact ih q _ _
      · rename_i picked
        rw [tokens_ignore picked]
        exact ih q _ _
      · rename_i n f picked
        rw [tokens_token picked, Parser.feed]
        cases step : P.step q (f ((b :: rest).take n)) with
        | inl q' => exact ih q' c (n - 1)
        | inr result => rfl

end Flex

namespace Lalr
variable {σ τ V O : Type} {A : Automaton σ τ V O} {c c' : Config τ V}

/-! A parser that takes its tokens one by one ends like one that has them all. -/

theorem Automaton.Ends.unique {A : Automaton σ τ V O} {c : Config τ V} {o o' : Stop O} (ends : A.Ends c o)
    (ends' : A.Ends c o') : o = o' := by
  obtain ⟨c₁, run, last⟩ := ends
  obtain ⟨c₂, run', last'⟩ := ends'
  induction run using Relation.ReflTransGen.head_induction_on with
  | refl =>
    rcases run'.cases_head with rfl | ⟨_, step, _⟩
    · exact Sum.inr.inj (last.symm.trans last')
    · cases last.symm.trans step
  | head step _ ih =>
    rcases run'.cases_head with rfl | ⟨_, step', later⟩
    · cases step.symm.trans last'
    · cases step.symm.trans step'
      exact ih later

theorem Automaton.Steps.ends {o : Stop O} (steps : A.Steps c c') (ends : A.Ends c' o) : A.Ends c o := by
  obtain ⟨c'', run, last⟩ := ends
  exact ⟨c'', steps.trans run, last⟩

/-- More tokens at the end of the input. -/
def Config.more (c : Config τ V) (us : List τ) : Config τ V := { c with input := c.input ++ us }

/-- A step that does not wait for a token does not notice those behind. -/
theorem step_more (us : List τ) (moves : c.input = [] → A.asks c.state = false) :
    A.step (c.more us) = (A.step c).map (·.more us) id := by
  have same : A.move c.state (A.look (c.input ++ us)) = A.move c.state (A.look c.input) := by
    cases input : c.input with
    | nil => rw [Tables.move, Tables.move, moves input]; rfl
    | cons t rest => rfl
  have stack : (c.more us).stack = c.stack := rfl
  have state : (c.more us).state = c.state := rfl
  have input : (c.more us).input = c.input ++ us := rfl
  unfold Automaton.step
  rw [stack, state, input, same]
  split
  · rfl
  split
  · rfl
  split
  · rfl
  · rename_i s moved
    refine congrArg Sum.inl ?_
    cases list : c.input with
    | nil =>
      rw [Tables.move, moves list] at moved
      simp at moved
    | cons t rest => simp only [Automaton.shift, Config.more, list, List.cons_append]
  · split
    · rfl
    · unfold Automaton.reduce Config.more
      simp only
      split
      · rfl
      · rfl
      · rfl

/-- Weights of the symbols that each reduction makes less. What is shifted at the end of the input ends the parse. -/
structure Weights [DecidableEq σ] {T : Tables σ} (F : Frame T) where
  weight : σ → Nat
  cost : Nat
  shift : ∀ k ∈ F.kinds, weight k + 1 < cost
  reduce : ∀ s < F.count, ∀ k ∈ F.kinds, ∀ r, T.move s k = some (.reduce r) → ∀ rule, T.rule r = some rule →
    rule.lhs ≠ F.start → weight rule.lhs + 1 < weight (F.symbol s) + rule.rhs.length
  stop : ∀ s < F.count, ∀ s', T.move s T.stop = some (.shift s') →
    T.asks s' = false ∧ ∃ r rule, T.default s' = some r ∧ T.rule r = some rule ∧ rule.lhs = F.start

namespace Weights
variable [DecidableEq σ] {S : Shape A} (W : Weights S.toFrame)

def potential (c : Config τ V) : Nat := W.weight (S.symbol c.state) + c.stack.length + W.cost * c.input.length

include W

theorem next_less (sound : S.Sound c) (next : S.Next c c') :
    W.potential c' < W.potential c ∨ c.input = [] ∧ A.move c.state A.stop = some (.shift c'.state) := by
  cases next with
  | @shift s moved entered edge =>
    cases input : c.input with
    | nil =>
      rw [input] at moved
      refine Or.inr ⟨rfl, moved.trans ?_⟩
      simp only [Automaton.shift, input]
      rfl
    | cons t rest =>
      rw [input] at entered
      have small := W.shift _ (S.look_mem (t :: rest))
      have cost : W.cost * (rest.length + 1) = W.cost * rest.length + W.cost := rfl
      refine Or.inl ?_
      simp only [potential, Config.state, Automaton.shift, input, top_cons, entered, List.length_cons, cost]
      omega
  | @reduce r rule front rest v moved found cut spelled acted edge same =>
    have inner := S.ends r rule found ((values front ++ c.above).headD A.blank) (values front)
    rw [acted] at inner
    have small := W.reduce _ (S.top_lt sound) _ (S.look_mem _) r moved rule found inner
    have length : front.length = rule.rhs.length := by rw [← spelled, symbols, List.length_reverse, List.length_map]
    refine Or.inl ?_
    rw [cut] at small
    simp only [potential, Config.state, top_cons, same, cut, List.length_append, List.length_cons]
    omega

/-- The potential in a state, with so many tokens left. -/
theorem potential_le {bound : Nat} (sound : S.Sound c)
    (light : ∀ s < S.count, W.weight (S.symbol s) ≤ bound) :
    W.potential c ≤ bound + S.height + W.cost * c.input.length := by
  have here := light _ (S.top_lt sound)
  have low := (S.low_stack sound).1
  simp only [potential, Config.state]
  omega

theorem finish_ends {n : Nat} (sound : S.Sound c) (enough : W.potential c + 2 ≤ n) : A.Ends c (A.finish n c) := by
  induction n generalizing c with
  | zero => omega
  | succ n ih =>
    rw [Automaton.finish]
    cases step : A.step c with
    | inr o => exact ⟨c, .refl, step⟩
    | inl c' =>
      have next := S.next sound step
      have sound' := S.next_sound sound next
      have one : A.Steps c c' := .single step
      rcases W.next_less sound next with less | ⟨ended, shifted⟩
      · exact one.ends (ih sound' (by omega))
      · -- the end of the input was shifted, and the next step is the last
        obtain ⟨m, rfl⟩ := Nat.exists_eq_add_one.mpr (by omega : 0 < n)
        obtain ⟨quiet, r, rule, only, found, start⟩ := W.stop _ (S.top_lt sound) _ shifted
        refine one.ends ?_
        simp only [Automaton.finish]
        cases last : A.step c' with
        | inr o => exact ⟨c', .refl, last⟩
        | inl c'' =>
          exfalso
          cases S.next sound' last with
          | shift moved =>
            rw [Tables.move, quiet] at moved
            simp at moved
          | @reduce r' rule' front rest v moved found' _ _ acted =>
            rw [Tables.move, quiet, only] at moved
            cases moved
            cases found.symm.trans found'
            have inner := S.ends r rule found ((values front ++ c'.above).headD A.blank) (values front)
            rw [acted] at inner
            exact inner start

theorem pause_ends {n : Nat} (sound : S.Sound c) (enough : W.potential c + 1 ≤ n) (us : List τ) :
    match A.pause n c with
    | .inl c' => S.Sound c' ∧ c'.input = [] ∧ A.Steps (c.more us) (c'.more us)
    | .inr o => A.Ends (c.more us) o := by
  induction n generalizing c with
  | zero => omega
  | succ n ih =>
    rw [Automaton.pause]
    by_cases waits : A.waits c = true
    · rw [if_pos waits]
      simp only [Automaton.waits, Bool.and_eq_true, List.isEmpty_iff] at waits
      exact ⟨sound, waits.1.1, .refl⟩
    · have moves : c.input = [] → A.asks c.state = false := by
        intro none
        have low := (S.low_stack sound).1
        have deep := S.deep
        have room : c.stack.length + 1 < A.depth := by omega
        simpa [Automaton.waits, none, room] using waits
      have longer := step_more us moves
      rw [if_neg waits]
      cases step : A.step c with
      | inr o =>
        rw [step] at longer
        exact ⟨_, .refl, longer⟩
      | inl c' =>
        rw [step] at longer
        have next := S.next sound step
        have less : W.potential c' < W.potential c := by
          refine (W.next_less sound next).resolve_right fun ended => ?_
          rw [Tables.move, moves ended.1] at ended
          simp at ended
        have one : A.Steps (c.more us) (c'.more us) := .single longer
        have rest := ih (S.next_sound sound next) (by omega : W.potential c' + 1 ≤ n)
        revert rest
        simp only
        cases A.pause n c' with
        | inl c'' => exact fun rest => ⟨rest.1, rest.2.1, one.trans rest.2.2⟩
        | inr o => exact fun rest => one.ends rest

/-- Every parse ends as the steps on all its tokens do. -/
theorem feed_ends {bound fuel : Nat} (light : ∀ s < S.count, W.weight (S.symbol s) ≤ bound)
    (enough : bound + S.height + W.cost + 2 ≤ fuel) {ts : List τ} (sound : S.Sound c) (none : c.input = []) :
    A.Ends (c.more ts) ((A.parser fuel).feed c ts) := by
  induction ts generalizing c with
  | nil =>
    have low := W.potential_le sound light
    rw [none] at low
    have same : c.more [] = c := by rw [Config.more, List.append_nil]
    rw [same]
    exact W.finish_ends sound (by simp only [List.length_nil, Nat.mul_zero] at low; omega)
  | cons t ts ih =>
    have sound' : S.Sound { c with input := [t] } := sound
    have low := W.potential_le sound' light
    simp only [List.length_singleton, Nat.mul_one] at low
    have paused := W.pause_ends sound' (by omega : W.potential { c with input := [t] } + 1 ≤ fuel) ts
    have same : c.more (t :: ts) = Config.more { c with input := [t] } ts := by
      rw [Config.more, none]
      rfl
    have step : (A.parser fuel).step c t = A.pause fuel { c with input := [t] } := rfl
    rw [same]
    simp only [Flex.Parser.feed, step]
    cases result : A.pause fuel { c with input := [t] } with
    | inl c' =>
      rw [result] at paused
      obtain ⟨sound₁, none₁, steps⟩ := paused
      exact steps.ends (ih sound₁ none₁)
    | inr o =>
      rw [result] at paused
      exact paused

end Weights

end Lalr

end Rmdb
