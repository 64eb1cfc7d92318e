import Rmdb.Parser.Derivations
import Rmdb.Parser.Reductions

namespace Rmdb.Yacc
open Ast Lexer Rmdb.Parser Lalr

/-! `yyparse` reads the statements of the grammar, and nothing else. -/

section
variable (atof : List UInt8 → UInt32)

theorem act_of_yyrule {r : Nat} {rule : Rule} (found : yyrule r = some rule) : (automaton atof).act r = rule.act := by
  funext slot vs
  change (yyrule r).bind _ = _
  rw [found]
  rfl

def shape : Shape (automaton atof) where
  toFrame := frame
  kind_mem := kind_mem
  ends := by
    intro r rule found slot vs
    obtain ⟨rule', found', rfl⟩ := yyrule_of_rule found
    have ends := rules_end rule' (mem_of_yyrule found').1 slot vs
    rw [act_of_yyrule atof found']
    cases acted : rule'.act slot vs with
    | none => trivial
    | some made =>
      rw [acted] at ends
      cases made with
      | inl v => exact ends
      | inr parseTree => exact ends

/-- What is written into a field by the rules of marked symbols alone. -/
def marks {α : Type} (field : SemValue → α) (empty : α) (marked : Symbol → Bool) (blank : field {} = empty)
    (load_field : ∀ v t, field (load atof v t) = field v)
    (kept : ∀ rule ∈ rules, marked rule.lhs = false → ∀ X ∈ rule.rhs, marked X = false)
    (leaves : ∀ rule ∈ rules, marked rule.lhs = false → Leaves field rule) : Marks (shape atof) where
  clean v := field v = empty
  marked := marked
  blank := blank
  load := fun v t clean => (load_field v t).trans clean
  kept := by
    intro r rule found plain
    obtain ⟨rule', found', rfl⟩ := yyrule_of_rule found
    exact kept rule' (mem_of_yyrule found').1 plain
  act := by
    intro r rule found plain slot vs v clean _ acted
    obtain ⟨rule', found', rfl⟩ := yyrule_of_rule found
    rw [act_of_yyrule atof found'] at acted
    exact (leaves rule' (mem_of_yyrule found').1 plain slot vs v acted).trans clean

theorem load_svConds (v : SemValue) (t : Token) : (load atof v t).svConds = v.svConds := by cases t <;> rfl

theorem load_svOrderby (v : SemValue) (t : Token) : (load atof v t).svOrderby = v.svOrderby := by cases t <;> rfl

theorem not_mem_of_unmarked {X : Symbol} {l l' : List Symbol} (none : decide (X ∈ l) = false)
    (sub : ∀ Y ∈ l', Y ∈ l) : X ∉ l' := fun member => of_decide_eq_false none (sub X member)

def condsMarks : Marks (shape atof) :=
  marks atof SemValue.svConds [] condsMarked rfl (load_svConds atof) (by decide +kernel)
    fun rule member plain => (rules_leave rule member).1 (not_mem_of_unmarked plain (by decide))

def orderMarks : Marks (shape atof) :=
  marks atof SemValue.svOrderby none orderMarked rfl (load_svOrderby atof) (by decide +kernel)
    fun rule member plain => (rules_leave rule member).2 (not_mem_of_unmarked plain (by decide))

theorem symbols_of_chains {marked : Symbol → Bool} {st : List (Nat × SemValue)} (linked : Linked below st) {n : Nat}
    (checked : chains below (fun s => !marked (symbol s)) n (top st) = true) :
    ∀ X ∈ symbols symbol st, marked X = false := by
  intro X member
  obtain ⟨e, inside, rfl⟩ := List.mem_map.mp (List.mem_reverse.mp member)
  have plain := chains_sound linked checked e inside
  rwa [Bool.not_eq_true'] at plain

/-- The empty clauses take what is in their slots, and there nothing was ever written. -/
theorem slots_unused (input : List Token) : (automaton atof).Fresh Unused input := by
  intro c run r rule found moved empty
  obtain ⟨rule', found', rfl⟩ := yyrule_of_rule found
  have sound := (shape atof).steps_sound ((shape atof).init_sound input) run
  have inside : c.state < YYNSTATES := (shape atof).top_lt sound
  obtain ⟨rule'', found'', _, plain, _⟩ := fits_reduce inside ((shape atof).look_mem c.input) moved
  cases found'.symm.trans found''
  have plain := plain empty
  unfold Unused
  split
  · rename_i same
    rw [same] at plain
    exact (condsMarks atof).slot_clean run (symbols_of_chains sound plain)
  · rename_i same
    rw [same] at plain
    exact (orderMarks atof).slot_clean run (symbols_of_chains sound plain)
  · trivial

theorem kind_ne_stop (t : Token) : kind t ≠ .tEof := by
  cases t with
  | keyword k => cases k <;> exact Symbol.noConfusion
  | op c =>
    simp only [kind]
    split_ifs <;> exact Symbol.noConfusion
  | _ => exact Symbol.noConfusion

theorem stop_mem : Symbol.tEof ∈ kinds := by decide

theorem load_means (v : SemValue) (t : Token) (named : Named t) : Means (kind t) [t] (load atof v t) := by
  cases t with
  | keyword k => cases k <;> exact fun t one => by cases one; rfl
  | geq => exact fun t one => by cases one; rfl
  | leq => exact fun t one => by cases one; rfl
  | neq => exact fun t one => by cases one; rfl
  | op c =>
    simp only [kind]
    split_ifs with h₁ h₂ h₃ h₄ h₅ h₆ h₇ h₈ h₉
    · exact fun t one => by cases one; rw [h₁]
    · exact fun t one => by cases one; rw [h₂]
    · exact fun t one => by cases one; rw [h₃]
    · exact fun t one => by cases one; rw [h₄]
    · exact fun t one => by cases one; rw [h₅]
    · exact fun t one => by cases one; rw [h₆]
    · exact fun t one => by cases one; rw [h₇]
    · exact fun t one => by cases one; rw [h₈]
    · exact fun t one => by cases one; rw [h₉]
    · intro _ one
      cases one
  | identifier text =>
    cases text with
    | nil => exact absurd rfl named
    | cons a text => exact .mk a text
  | valueInt text => exact ⟨text, rfl, rfl⟩
  | valueFloat text => exact ⟨text, rfl⟩
  | valueString text => rfl

def meaning : Meaning (shape atof) where
  means := Means
  fresh := Unused
  result := Accepts
  good := Named
  apart := kind_ne_stop
  inner := by
    intro r rule found
    obtain ⟨rule', found', rfl⟩ := yyrule_of_rule found
    exact fun same => lhs_ok rule' (mem_of_yyrule found').1 (same ▸ stop_mem)
  token := load_means atof
  stop := fun _ => rfl
  act := by
    intro r rule ts rest vs above found spans unused ended
    obtain ⟨rule', found', rfl⟩ := yyrule_of_rule found
    have keeps := rules_keep rule' (mem_of_yyrule found').1 ts rest vs above spans unused ended
    rw [act_of_yyrule atof found']
    cases acted : rule'.act ((vs ++ above).headD {}) vs with
    | none =>
      rw [acted] at keeps
      exact keeps.elim
    | some made =>
      have acted' : rule'.act ((vs ++ above).headD (automaton atof).blank) vs = some made := acted
      rw [acted] at keeps
      rw [acted']
      cases made with
      | inl v => exact keeps
      | inr parseTree => exact keeps

/-- `yyparse` as one run over all tokens of the request. -/
theorem yyparse_ends (c : StartCondition) (request : List UInt8) :
    (automaton atof).Ends ((automaton atof).init (Flex.tokens scanner c request).1)
      (Flex.parse scanner (yyparse atof) c request).1 := by
  have light : ∀ s < YYNSTATES, weight (symbol s) ≤ 6 := by decide +kernel
  have enough : 6 + 12 + 8 + 2 ≤ 40 := by decide
  have fed : (Flex.parse scanner (yyparse atof) c request).1 =
      (yyparse atof).feed ((automaton atof).init []) (Flex.tokens scanner c request).1 :=
    Flex.parseFrom_eq_feed _ c 0 request
  rw [fed]
  exact Weights.feed_ends (S := shape atof) weights light enough ((shape atof).init_sound []) rfl

end

theorem named_of_scanner {c : StartCondition} {request : List UInt8} :
    ∀ t ∈ (Flex.tokens scanner c request).1, Named t := by
  intro t member
  have written := written_of_scanner t member
  cases t with
  | identifier text =>
    rintro rfl
    exact written
  | _ => trivial

section
variable (atof : List UInt8 → UInt32) (c : StartCondition) (request : List UInt8)

/-- The parser ends with a statement of the grammar or a null tree, or with an error. -/
theorem yyparse_sound : (Flex.parse scanner (yyparse atof) c request).1 = .error ∨ ∃ parseTree ts rest,
    (Flex.parse scanner (yyparse atof) c request).1 = .accepted parseTree ∧
      (Flex.tokens scanner c request).1 = ts ++ rest ∧ Accepts ts rest parseTree :=
  (meaning atof).ends_sound named_of_scanner (slots_unused atof _) (yyparse_ends atof c request)

/-- The rules of a request that starts with a token are reduced before anything that can come. -/
theorem start_looks : ∀ k ∈ kinds, k ∈ guide.looks 0 2 ⟨.start, [.stmt, .semicolon]⟩ ∧
    k ∈ guide.looks 0 3 ⟨.start, [.help]⟩ ∧ k ∈ guide.looks 0 4 ⟨.start, [.exit]⟩ := by
  decide +kernel

variable {c request}

theorem accepts_stmt {ts rest : List Token} {stmt : TreeNode} (rule : Stmt ts stmt)
    (cut : (Flex.tokens scanner c request).1 = ts ++ .op (byte ';') :: rest) : ∃ parseTree,
      (Flex.parse scanner (yyparse atof) c request).1 = .accepted (some parseTree) ∧
        parseTree.settled = stmt.settled := by
  have made : Made atof .stmt ts (Makes stmt) := stmt_made rule
  have derives := made.before ((Made.plain atof (.op (byte ';'))).before .nil)
  have cut' : (Flex.tokens scanner c request).1 = (ts ++ ([.op (byte ';')] ++ [])) ++ rest := by simp [cut]
  have ends := yyparse_ends atof c request
  have clean := slots_unused atof (Flex.tokens scanner c request).1
  rw [cut'] at ends clean
  have next := (start_looks _ ((shape atof).look_mem rest)).1
  have acts : ∀ vs above, Known [Makes stmt, fun _ => True] vs → ∃ o, (automaton atof).act 2
      ((vs ++ above).headD (automaton atof).blank) vs = some (.inr o) ∧
        ∃ parseTree, o = some parseTree ∧ parseTree.settled = stmt.settled := by
    rintro _ above ⟨v, _, rfl, ⟨parseTree, node, same⟩, _, _, rfl, _, rfl⟩
    exact ⟨_, rfl, parseTree, node, same⟩
  obtain ⟨_, accepted, parseTree, rfl, same⟩ :=
    Guide.accepts (S := shape atof) (G := guide) guide_valid clean rfl rfl derives next acts
  exact ⟨parseTree, ends.unique accepted, same⟩

/-- `HELP` and `EXIT` stand alone, and what follows is not read. -/
theorem accepts_word {k : Keyword} {rest : List Token} {r : Nat} {parseTree : Option TreeNode}
    (found : (automaton atof).rule r = some ⟨.start, [kind (.keyword k)]⟩)
    (next : (automaton atof).look rest ∈ guide.looks 0 r ⟨.start, [kind (.keyword k)]⟩)
    (acts : ∀ slot v, (automaton atof).act r slot [v] = some (.inr parseTree))
    (cut : (Flex.tokens scanner c request).1 = .keyword k :: rest) :
    (Flex.parse scanner (yyparse atof) c request).1 = .accepted parseTree := by
  have derives := (Made.plain atof (.keyword k)).before .nil
  have cut' : (Flex.tokens scanner c request).1 = ([.keyword k] ++ []) ++ rest := cut
  have ends := yyparse_ends atof c request
  have clean := slots_unused atof (Flex.tokens scanner c request).1
  rw [cut'] at ends clean
  have acts' : ∀ vs above, Known [fun _ => True] vs → ∃ o, (automaton atof).act r
      ((vs ++ above).headD (automaton atof).blank) vs = some (.inr o) ∧ o = parseTree := by
    rintro _ above ⟨v, _, rfl, _, rfl⟩
    exact ⟨_, acts _ v, rfl⟩
  obtain ⟨_, accepted, rfl⟩ :=
    Guide.accepts (S := shape atof) (G := guide) guide_valid clean found rfl derives next acts'
  exact ends.unique accepted

theorem accepts_help {rest : List Token} (cut : (Flex.tokens scanner c request).1 = .keyword .help :: rest) :
    (Flex.parse scanner (yyparse atof) c request).1 = .accepted (some .help) :=
  accepts_word atof (r := 3) rfl (start_looks _ ((shape atof).look_mem rest)).2.1 (fun _ _ => rfl) cut

theorem accepts_exit {rest : List Token} (cut : (Flex.tokens scanner c request).1 = .keyword .exit :: rest) :
    (Flex.parse scanner (yyparse atof) c request).1 = .accepted none :=
  accepts_word atof (r := 4) rfl (start_looks _ ((shape atof).look_mem rest)).2.2 (fun _ _ => rfl) cut

theorem accepts_eof (empty : (Flex.tokens scanner c request).1 = []) :
    (Flex.parse scanner (yyparse atof) c request).1 = .accepted none := by
  have ends := yyparse_ends atof c request
  rw [empty] at ends
  exact ends.unique ⟨_, .tail .refl rfl, rfl⟩

/-- What the grammar derives is accepted. -/
theorem yyparse_complete {stmt : TreeNode} (parses : Parser.Parses c request stmt) : ∃ parseTree,
    (Flex.parse scanner (yyparse atof) c request).1 = .accepted (some parseTree) ∧
      parseTree.settled = stmt.settled := by
  cases parses with
  | stmt cut rule => exact accepts_stmt atof rule cut
  | help cut => exact ⟨.help, accepts_help atof cut, rfl⟩

/-- What is accepted, the grammar derives. -/
theorem parses_of_accepted {parseTree : TreeNode}
    (accepted : (Flex.parse scanner (yyparse atof) c request).1 = .accepted (some parseTree)) :
    Parser.Parses c request parseTree := by
  rcases yyparse_sound atof c request with error | ⟨_, ts, rest, accepted', cut, accepts⟩
  · cases accepted.symm.trans error
  cases accepted.symm.trans accepted'
  cases accepts with
  | stmt rule => exact .stmt (by simpa using cut) rule
  | help => exact .help cut

variable (c request)

/-- `yyparse` accepts what the grammar derives and nothing else. Its tree is the one of the grammar up to what `atof`
makes of the floats; it is null for `EXIT` and for a request without tokens. -/
theorem yyparse_parses :
    (∀ parseTree, (Flex.parse scanner (yyparse atof) c request).1 = .accepted (some parseTree) →
      Parser.Parses c request parseTree) ∧
    (∀ stmt, Parser.Parses c request stmt → ∃ parseTree,
      (Flex.parse scanner (yyparse atof) c request).1 = .accepted (some parseTree) ∧
        parseTree.settled = stmt.settled) ∧
    ((Flex.parse scanner (yyparse atof) c request).1 = .accepted none ↔
      (Flex.tokens scanner c request).1 = [] ∨ ∃ rest, (Flex.tokens scanner c request).1 = .keyword .exit :: rest) ∧
    ((Flex.parse scanner (yyparse atof) c request).1 = .error ∨
      ∃ parseTree, (Flex.parse scanner (yyparse atof) c request).1 = .accepted parseTree) := by
  have sound := yyparse_sound atof c request
  refine ⟨fun parseTree => parses_of_accepted atof, fun stmt => yyparse_complete atof, ⟨fun accepted => ?_, ?_⟩, ?_⟩
  · rcases sound with error | ⟨_, ts, rest, accepted', cut, accepts⟩
    · cases accepted.symm.trans error
    cases accepted.symm.trans accepted'
    cases accepts with
    | exit => exact Or.inr ⟨rest, cut⟩
    | eof => exact Or.inl cut
  · rintro (empty | ⟨rest, cut⟩)
    · exact accepts_eof atof empty
    · exact accepts_exit atof cut
  · rcases sound with error | ⟨parseTree, _, _, accepted, _⟩
    · exact Or.inl error
    · exact Or.inr ⟨parseTree, accepted⟩

end

/-- The grammar is not ambiguous: a request has one tree, up to the numbers of floats. -/
theorem parses_unique {c : StartCondition} {request : List UInt8} {stmt stmt' : TreeNode}
    (parses : Parser.Parses c request stmt) (parses' : Parser.Parses c request stmt') :
    stmt.settled = stmt'.settled := by
  obtain ⟨parseTree, accepted, same⟩ := yyparse_complete (fun _ => 0) parses
  obtain ⟨parseTree', accepted', same'⟩ := yyparse_complete (fun _ => 0) parses'
  cases accepted.symm.trans accepted'
  exact same.symm.trans same'

def insertRequest : List UInt8 := bytes "insert into t values (1.5);"

theorem insertRequest_parses (bits : UInt32) :
    Parser.Parses .initial insertRequest (.insertStmt "t" [.float bits]) := by
  have cut : (Flex.tokens scanner .initial insertRequest).1 = [.keyword .insert, .keyword .into,
    .identifier (bytes "t"), .keyword .values, .op (byte '('), .valueFloat (bytes "1.5"), .op (byte ')')] ++
      .op (byte ';') :: [] := by decide +kernel
  exact .stmt cut (.insertStmt (.mk _ []) (.one (.float _ bits)))

theorem parses_unique_insert :
    (TreeNode.insertStmt "t" [.float 0]).settled = (TreeNode.insertStmt "t" [.float 1]).settled :=
  parses_unique (insertRequest_parses 0) (insertRequest_parses 1)

end Rmdb.Yacc
