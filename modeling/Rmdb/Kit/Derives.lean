import Rmdb.Kit.Lalr

namespace Rmdb.Lalr
variable {σ τ V O : Type}

/-! A parser reads all that the rules derive. -/

/-- Each value as it is known to be. -/
def Known : List (V → Prop) → List V → Prop
  | [], vs => vs = []
  | P :: Ps, vs => ∃ v vs', vs = v :: vs' ∧ P v ∧ Known Ps vs'

theorem Known.length_eq {Ps : List (V → Prop)} {vs : List V} (known : Known Ps vs) : Ps.length = vs.length := by
  induction Ps generalizing vs with
  | nil =>
    obtain rfl := known
    rfl
  | cons P Ps ih =>
    obtain ⟨v, vs', rfl, _, later⟩ := known
    exact congrArg Nat.succ (ih later)

/-- The tokens that a list of symbols derives, and what is known of the values of the symbols. -/
inductive Derives (A : Automaton σ τ V O) (fresh : σ → V → Prop) : List σ → List τ → List (V → Prop) → Prop
  | nil : Derives A fresh [] [] []
  | token {Xs : List σ} {t : τ} {us : List τ} {P : V → Prop} {Ps : List (V → Prop)} : (∀ v, P (A.load v t)) →
      Derives A fresh Xs us Ps → Derives A fresh (A.kind t :: Xs) (t :: us) (P :: Ps)
  | rule {r : Nat} {rule : Rule σ} {Xs : List σ} {ts us : List τ} {Qs Ps : List (V → Prop)} {P : V → Prop} :
      A.rule r = some rule → Derives A fresh rule.rhs ts Qs →
      (∀ vs above, Known Qs vs → (rule.rhs = [] → fresh rule.lhs (above.headD A.blank)) →
        ∃ v, A.act r ((vs ++ above).headD A.blank) vs = some (.inl v) ∧ P v) →
      Derives A fresh Xs us Ps → Derives A fresh (rule.lhs :: Xs) (ts ++ us) (P :: Ps)

theorem Derives.length_eq {A : Automaton σ τ V O} {fresh : σ → V → Prop} {Xs : List σ} {ts : List τ}
    {Ps : List (V → Prop)} (derives : Derives A fresh Xs ts Ps) : Ps.length = Xs.length := by
  induction derives with
  | nil => rfl
  | token _ _ ih => exact congrArg Nat.succ ih
  | rule _ _ _ _ _ ih => exact congrArg Nat.succ ih

namespace Tables
variable {T : Tables σ}

/-- Whether the rule is reduced in the state before each of the tokens. -/
def reducesAll (T : Tables σ) (s r : Nat) (L : List σ) : Bool :=
  if T.asks s then L.all fun k => T.move s k = some (.reduce r) else T.default s = some r

theorem move_of_quiet {s : Nat} (quiet : T.asks s = false) (k : σ) : T.move s k = (T.default s).map .reduce := by
  rw [move, quiet]
  rfl

theorem move_of_reducesAll {s r : Nat} {L : List σ} {k : σ} (all : T.reducesAll s r L = true) (member : k ∈ L) :
    T.move s k = some (.reduce r) := by
  unfold reducesAll at all
  cases asked : T.asks s with
  | true =>
    rw [if_pos asked] at all
    exact of_decide_eq_true (List.all_eq_true.mp all k member)
  | false =>
    rw [if_neg (by rw [asked]; exact Bool.false_ne_true), decide_eq_true_eq] at all
    rw [move_of_quiet asked, all]
    rfl

end Tables

section
variable [DecidableEq σ] {T : Tables σ}

namespace Frame
variable (F : Frame T)

/-- The state behind these symbols. -/
def walk : Nat → List σ → Nat
  | s, [] => s
  | s, X :: Xs =>
    if X ∈ F.kinds then
      match T.move s X with
      | some (.shift s') => walk s' Xs
      | _ => s
    else walk (T.goto s X) Xs

end Frame

/-- Where the symbols of left-hand sides start, and what they may start with. -/
structure Guide (F : Frame T) where
  rules : Nat
  starts : Nat → σ → Bool
  first : σ → List σ
  follow : σ → List σ
  nullable : σ → Bool

namespace Guide
variable {F : Frame T} (G : Guide F)

/-- What may come next before these symbols and what follows them. -/
def firsts : List σ → List σ → List σ
  | [], L => L
  | X :: Xs, L => G.first X ++ if G.nullable X then firsts Xs L else []

/-- The tokens before which the rule is reduced, once its symbols are on the stack above `s`. -/
def looks (s r : Nat) (rule : Rule σ) : List σ :=
  (G.follow rule.lhs).filter fun k => T.move (F.walk s rule.rhs) k = some (.reduce r)

/-- Whether the tables lead through these symbols, with one of `L` behind them. -/
def ready (L : List σ) : List σ → Nat → Bool
  | [], _ => true
  | X :: Xs, s =>
    if X ∈ F.kinds then
      match T.move s X with
      | some (.shift s') => ready L Xs s'
      | _ => false
    else
      G.starts s X && ready L Xs (T.goto s X) && (G.firsts Xs L).all (G.follow X).contains &&
      (List.range G.rules).all fun r =>
        match T.rule r with
        | none => true
        | some rule => decide (rule.lhs ≠ X) || T.reducesAll (F.walk s rule.rhs) r (G.firsts Xs L)

/-- The tables lead through every rule, wherever its left-hand side may start. -/
structure Valid (G : Guide F) : Prop where
  bounded : ∀ r rule, T.rule r = some rule → r < G.rules ∧ rule.lhs ∉ F.kinds
  kinds : ∀ k ∈ F.kinds, k ∈ G.first k
  firsts : ∀ r rule, T.rule r = some rule → (∀ k ∈ G.firsts rule.rhs [], k ∈ G.first rule.lhs) ∧
    (rule.rhs.all G.nullable = true → G.nullable rule.lhs = true)
  starts : ∀ s r rule, T.rule r = some rule → G.starts s rule.lhs = true →
    G.ready (G.looks s r rule) rule.rhs s = true

end Guide

end

/-- Less may be known of a value. -/
theorem Derives.mono {A : Automaton σ τ V O} {fresh : σ → V → Prop} {X : σ} {Xs : List σ} {ts : List τ}
    {P Q : V → Prop} {Ps : List (V → Prop)} (derives : Derives A fresh (X :: Xs) ts (P :: Ps))
    (weaker : ∀ v, P v → Q v) : Derives A fresh (X :: Xs) ts (Q :: Ps) := by
  cases derives with
  | token holds rest => exact .token (fun v => weaker _ (holds v)) rest
  | rule found inner acts rest =>
    refine .rule found inner (fun vs above known unused => ?_) rest
    obtain ⟨v, acted, holds⟩ := acts vs above known unused
    exact ⟨v, acted, weaker v holds⟩

variable [DecidableEq σ] {A : Automaton σ τ V O}

namespace Shape
variable {S : Shape A} {c : Config τ V}

theorem step_shift (sound : S.Sound c) {s : Nat} (moved : A.move c.state (A.look c.input) = some (.shift s)) :
    A.step c = .inl (A.shift c s) := by
  obtain ⟨low, other⟩ := S.low_stack sound
  have room := S.deep
  rw [Automaton.step, if_neg (by omega), if_neg other, moved]

section
variable {r : Nat} {rule : Rule σ} {front rest : List (Nat × V)} {v : V} {o : O}

theorem step_rule (sound : S.Sound c) (moved : A.move c.state (A.look c.input) = some (.reduce r))
    (found : A.rule r = some rule) : A.step c = A.reduce c r rule := by
  obtain ⟨low, other⟩ := S.low_stack sound
  have room := S.deep
  rw [Automaton.step, if_neg (by omega), if_neg other, moved]
  simp only [found]

theorem step_reduce (sound : S.Sound c) (moved : A.move c.state (A.look c.input) = some (.reduce r))
    (found : A.rule r = some rule) (cut : c.stack = front ++ rest) (length : front.length = rule.rhs.length)
    (acted : A.act r ((values front ++ c.above).headD A.blank) (values front) = some (.inl v)) :
    A.step c = .inl { c with
      stack := (A.goto (top rest) rule.lhs, v) :: rest, above := (values front ++ c.above).tail } := by
  have took : c.stack.take rule.rhs.length = front := by rw [cut, ← length, List.take_left]
  have dropped : c.stack.drop rule.rhs.length = rest := by rw [cut, ← length, List.drop_left]
  rw [step_rule sound moved found]
  simp only [Automaton.reduce, took, dropped, acted]

theorem step_accept (sound : S.Sound c) (moved : A.move c.state (A.look c.input) = some (.reduce r))
    (found : A.rule r = some rule) (cut : c.stack = front ++ rest) (length : front.length = rule.rhs.length)
    (acted : A.act r ((values front ++ c.above).headD A.blank) (values front) = some (.inr o)) :
    A.step c = .inr (.accepted o) := by
  have took : c.stack.take rule.rhs.length = front := by rw [cut, ← length, List.take_left]
  rw [step_rule sound moved found]
  simp only [Automaton.reduce, took, acted]

end

end Shape

namespace Guide
variable {S : Shape A} (G : Guide S.toFrame)

theorem mem_firsts {Xs : List σ} {L : List σ} {k : σ} :
    k ∈ G.firsts Xs L ↔ k ∈ G.firsts Xs [] ∨ Xs.all G.nullable = true ∧ k ∈ L := by
  induction Xs with
  | nil => simp [firsts]
  | cons X Xs ih =>
    rw [firsts, firsts, List.all_cons, List.mem_append, List.mem_append]
    split
    · rename_i empty
      rw [ih, empty, Bool.true_and, or_assoc]
    · rename_i solid
      simp [solid]

variable {G} (valid : G.Valid) {fresh : σ → V → Prop}

include valid

theorem look_firsts {Xs : List σ} {ts rest : List τ} {Ps : List (V → Prop)} {L : List σ}
    (derives : Derives A fresh Xs ts Ps) (next : A.look rest ∈ L) : A.look (ts ++ rest) ∈ G.firsts Xs L := by
  induction derives generalizing rest L with
  | nil => exact next
  | @token Xs t us P Ps _ _ _ =>
    rw [firsts]
    exact List.mem_append_left _ (valid.kinds _ (S.look_mem (t :: us)))
  | @rule r rule Xs ts us Qs Ps P found _ _ _ ih ih' =>
    have inner := ih (ih' next)
    obtain ⟨firsts, empty⟩ := valid.firsts r rule found
    rw [List.append_assoc, Guide.firsts, List.mem_append]
    rcases G.mem_firsts.mp inner with here | ⟨none, behind⟩
    · exact Or.inl (firsts _ here)
    · rw [if_pos (empty none)]
      exact Or.inr behind

/-- A parse puts the symbols on the stack, with values as they are known to be. -/
theorem reads {input : List τ} (clean : A.Fresh fresh input) {Xs : List σ} {ts rest : List τ} {Ps : List (V → Prop)}
    {L : List σ} {c : Config τ V} (derives : Derives A fresh Xs ts Ps) (run : A.Steps (A.init input) c)
    (ready : G.ready L Xs c.state = true) (more : c.input = ts ++ rest) (next : A.look rest ∈ L) :
    ∃ c' front, A.Steps c c' ∧ c'.stack = front ++ c.stack ∧ c'.state = S.toFrame.walk c.state Xs ∧ c'.input = rest ∧
      Known Ps (values front) := by
  induction derives generalizing rest L c with
  | nil => exact ⟨c, [], .refl, rfl, rfl, more, rfl⟩
  | @token Xs t us P Ps holds later ih =>
    have sound := S.steps_sound (S.init_sound input) run
    have first : A.look c.input = A.kind t := by rw [more]; rfl
    have terminal : A.kind t ∈ S.kinds := S.look_mem (t :: us)
    rw [Guide.ready, if_pos terminal] at ready
    split at ready
    · rename_i s moved
      have step := Shape.step_shift sound (first ▸ moved)
      have shifted : A.shift c s =
          ⟨(s, A.load c.yylval t) :: c.stack, c.above.tail, A.load c.yylval t, us ++ rest⟩ := by
        rw [Automaton.shift, more]
        rfl
      rw [shifted] at step
      obtain ⟨c', front, steps, stack, state, input', all⟩ := ih (run.tail step) ready rfl next
      refine ⟨c', front ++ [(s, A.load c.yylval t)], .head step steps, ?_, ?_, input', ?_⟩
      · rw [stack, List.append_assoc]
        rfl
      · rw [state, Frame.walk, if_pos terminal, moved]
        rfl
      · rw [values_append]
        exact ⟨_, _, rfl, holds _, all⟩
    · cases ready
  | @rule r rule Xs ts us Qs Ps P found inner acts later ih ih' =>
    obtain ⟨bound, nonterminal⟩ := valid.bounded r rule found
    rw [Guide.ready, if_neg nonterminal] at ready
    simp only [Bool.and_eq_true, List.all_eq_true, List.mem_range, List.contains_iff_mem] at ready
    obtain ⟨⟨⟨start, ready⟩, follows⟩, reduces⟩ := ready
    have moves := reduces r bound
    simp only [found, ne_eq, not_true_eq_false, decide_false, Bool.false_or] at moves
    have next' := look_firsts valid later next
    have moved := Tables.move_of_reducesAll moves next'
    have inside : A.look (us ++ rest) ∈ G.looks c.state r rule :=
      List.mem_filter.mpr ⟨follows _ next', decide_eq_true moved⟩
    obtain ⟨c₁, front, steps, stack, state, input₁, all⟩ :=
      ih run (valid.starts _ r rule found start) (more.trans (List.append_assoc _ _ _)) inside
    have run₁ := run.trans steps
    have sound := S.steps_sound (S.init_sound input) run₁
    have moved₁ : A.move c₁.state (A.look c₁.input) = some (.reduce r) := by rw [state, input₁, moved]
    have length : front.length = rule.rhs.length := by
      rw [← length_values, ← all.length_eq, inner.length_eq]
    obtain ⟨v, acted, holds⟩ := acts (values front) c₁.above all fun none => clean c₁ run₁ r rule found moved₁ none
    have step := Shape.step_reduce sound moved₁ found stack length acted
    obtain ⟨c', front', steps', stack', state', input', all'⟩ := ih' (run₁.tail step) ready input₁ next
    refine ⟨c', front' ++ [(A.goto c.state rule.lhs, v)], steps.trans (.head step steps'), ?_, ?_, input', ?_⟩
    · rw [stack', List.append_assoc]
      rfl
    · rw [state', Frame.walk, if_neg nonterminal]
      rfl
    · rw [values_append]
      exact ⟨_, _, rfl, holds, all'⟩

/-- A parse accepts what a rule of the start symbol derives, if it is reduced before anything that can come. -/
theorem accepts {r : Nat} {rule : Rule σ} {ts rest : List τ} {Qs : List (V → Prop)} {result : O → Prop}
    (clean : A.Fresh fresh (ts ++ rest)) (found : A.rule r = some rule) (start : G.starts 0 rule.lhs = true)
    (derives : Derives A fresh rule.rhs ts Qs) (next : A.look rest ∈ G.looks 0 r rule)
    (acts : ∀ vs above, Known Qs vs →
      ∃ o, A.act r ((vs ++ above).headD A.blank) vs = some (.inr o) ∧ result o) :
    ∃ o, A.Ends (A.init (ts ++ rest)) (.accepted o) ∧ result o := by
  obtain ⟨c, front, run, stack, state, input, all⟩ := reads valid clean derives .refl
    (valid.starts _ r rule found start) rfl next
  obtain ⟨o, acted, holds⟩ := acts (values front) c.above all
  have moved : A.move c.state (A.look c.input) = some (.reduce r) := by
    rw [state, input]
    exact of_decide_eq_true (List.mem_filter.mp next).2
  have length : front.length = rule.rhs.length := by
    rw [← length_values, ← all.length_eq, derives.length_eq]
  exact ⟨o, ⟨c, run, Shape.step_accept (S.steps_sound (S.init_sound _) run) moved found stack length acted⟩, holds⟩

end Guide

end Rmdb.Lalr
