import Rmdb.Parser.Grammar
import Rmdb.Parser.Literals

namespace Rmdb

/-! The tree of a parsed request is that of a statement text with the literals of the request. -/

namespace Parser
open Ast Lexer

/-- The texts of the integer literals among the tokens. -/
def intTexts (ts : List Token) : List (List UInt8) :=
  ts.filterMap fun
    | .valueInt text => some text
    | _ => none

/-- Each of them is the text of a numeral. -/
def Spelled (ts : List Token) : Prop := ∀ text, .valueInt text ∈ ts → ∃ n : Numeral, n.text = text

/-- `b` is made of something whose numerals are the integer literals among the tokens. -/
def Writes {α β : Type} (make : (Numeral → Int) → α → β) (numerals : α → List Numeral) (ts : List Token) (b : β) :
    Prop :=
  ∃ a, make (fun n => atoi n.text) a = b ∧ (numerals a).map Numeral.text = intTexts ts

section
variable {ts us : List Token}

@[simp] theorem intTexts_nil : intTexts [] = [] := rfl

@[simp] theorem intTexts_append : intTexts (ts ++ us) = intTexts ts ++ intTexts us := List.filterMap_append

@[simp] theorem intTexts_keyword (k : Keyword) : intTexts (.keyword k :: ts) = intTexts ts := rfl

@[simp] theorem intTexts_op (b : UInt8) : intTexts (.op b :: ts) = intTexts ts := rfl

theorem intTexts_cons (t : Token) : intTexts (t :: ts) = intTexts [t] ++ intTexts ts := by
  rw [← intTexts_append, List.singleton_append]

theorem Spelled.left (spelled : Spelled (ts ++ us)) : Spelled ts :=
  fun text member => spelled text (List.mem_append_left us member)

theorem Spelled.right (spelled : Spelled (ts ++ us)) : Spelled us :=
  fun text member => spelled text (List.mem_append_right ts member)

theorem Spelled.tail {t : Token} (spelled : Spelled (t :: ts)) : Spelled ts :=
  fun text member => spelled text (List.mem_cons_of_mem t member)

/-! The rules for names have no literals. -/

theorem Identifier.intTexts_eq {text : String} (rule : Identifier ts text) : intTexts ts = [] := by
  cases rule
  rfl

theorem Column.intTexts_eq {c : Col} (rule : Column ts c) : intTexts ts = [] := by
  cases rule with
  | qualified tb col => simp [tb.intTexts_eq, col.intTexts_eq]
  | bare col => exact col.intTexts_eq

theorem Op.intTexts_eq {t : Token} {op : SvCompOp} (rule : Op t op) : intTexts (t :: ts) = intTexts ts := by
  cases rule <;> rfl

theorem Listed.intTexts_eq {α : Type} {item : List Token → α → Prop} {between : Token → Prop} {l : List α}
    (rule : Listed item between ts l) (each : ∀ {ts a}, item ts a → intTexts ts = [])
    (apart : ∀ t, between t → intTexts [t] = []) : intTexts ts = [] := by
  induction rule with
  | one rule => exact each rule
  | more _ isBetween rule ih => rw [intTexts_append, ih, intTexts_cons, apart _ isBetween, each rule]; rfl

theorem Selector.intTexts_eq {cols : List Col} (rule : Selector ts cols) : intTexts ts = [] := by
  cases rule with
  | all => rfl
  | cols rule => exact rule.intTexts_eq Column.intTexts_eq fun t comma => by rw [comma]; rfl

theorem OptOrderClause.intTexts_eq {order : Option OrderBy} (rule : OptOrderClause ts order) : intTexts ts = [] := by
  cases rule with
  | some col dir => cases dir <;> simp [col.intTexts_eq]
  | none => rfl

/-! The rules with literals. -/

theorem Value.writes {v : Lit} (rule : Value ts v) (spelled : Spelled ts) :
    Writes ValueText.lit ValueText.numerals ts v := by
  cases rule with
  | int text =>
    obtain ⟨n, rfl⟩ := spelled text List.mem_cons_self
    exact ⟨.int n, rfl, rfl⟩
  | float text bits => exact ⟨.float bits, rfl, rfl⟩
  | string text => exact ⟨.string text, rfl, rfl⟩

theorem Expression.writes {e : Expr} (rule : Expression ts e) (spelled : Spelled ts) :
    Writes ExprText.expr ExprText.numerals ts e := by
  cases rule with
  | value rule =>
    obtain ⟨v, rfl, same⟩ := rule.writes spelled
    exact ⟨.val v, rfl, same⟩
  | @col c rule => exact ⟨.col c, rfl, rule.intTexts_eq.symm⟩

theorem Condition.writes {e : BinaryExpr} (rule : Condition ts e) (spelled : Spelled ts) :
    Writes ConditionText.binaryExpr (fun cond => cond.rhs.numerals) ts e := by
  obtain ⟨lhs, op, rhs⟩ := rule
  obtain ⟨e, rfl, same⟩ := rhs.writes spelled.right.tail
  refine ⟨⟨_, _, e⟩, rfl, ?_⟩
  rw [intTexts_append, lhs.intTexts_eq, op.intTexts_eq]
  exact same

theorem TypeRule.writes {type : TypeLen} (rule : TypeRule ts type) (spelled : Spelled ts) :
    Writes TypeText.typeLen TypeText.numerals ts type := by
  cases rule with
  | int => exact ⟨.int, rfl, rfl⟩
  | char text =>
    obtain ⟨n, rfl⟩ := spelled text (by simp)
    exact ⟨.char n, rfl, rfl⟩
  | float => exact ⟨.float, rfl, rfl⟩

theorem Field.writes {field : Ast.ColDef} (rule : Field ts field) (spelled : Spelled ts) :
    Writes FieldText.colDef (fun field => field.type.numerals) ts field := by
  obtain ⟨name, type⟩ := rule
  obtain ⟨typeText, rfl, same⟩ := type.writes spelled.right
  refine ⟨⟨_, typeText⟩, rfl, ?_⟩
  rw [intTexts_append, name.intTexts_eq]
  exact same

theorem SetRule.writes {clause : Ast.SetClause} (rule : SetRule ts clause) (spelled : Spelled ts) :
    Writes SetClauseText.setClause (fun clause => clause.val.numerals) ts clause := by
  obtain ⟨name, value⟩ := rule
  obtain ⟨val, rfl, same⟩ := value.writes spelled.right.tail
  refine ⟨⟨_, val⟩, rfl, ?_⟩
  rw [intTexts_append, name.intTexts_eq]
  exact same

theorem Listed.writes {α β : Type} {make : (Numeral → Int) → α → β} {numerals : α → List Numeral}
    {item : List Token → β → Prop} {between : Token → Prop} {l : List β} (rule : Listed item between ts l)
    (spelled : Spelled ts) (each : ∀ {ts b}, item ts b → Spelled ts → Writes make numerals ts b)
    (apart : ∀ t, between t → intTexts [t] = []) :
    Writes (fun read => List.map (make read)) (List.flatMap numerals) ts l := by
  induction rule with
  | one rule =>
    obtain ⟨a, rfl, same⟩ := each rule spelled
    refine ⟨[a], rfl, ?_⟩
    rw [List.flatMap_singleton, same]
  | more _ isBetween rule ih =>
    obtain ⟨as, rfl, front⟩ := ih spelled.left
    obtain ⟨a, rfl, last⟩ := each rule spelled.right.tail
    refine ⟨as ++ [a], List.map_append, ?_⟩
    rw [List.flatMap_append, List.map_append, front, List.flatMap_singleton, last, intTexts_append, intTexts_cons,
      apart _ isBetween, List.nil_append]

theorem comma_intTexts (t : Token) (comma : Comma t) : intTexts [t] = [] := by
  rw [comma]
  rfl

theorem OptWhereClause.writes {conds : List BinaryExpr} (rule : OptWhereClause ts conds) (spelled : Spelled ts) :
    Writes (fun read => List.map (ConditionText.binaryExpr read)) (List.flatMap fun cond => cond.rhs.numerals) ts
      conds := by
  cases rule with
  | none => exact ⟨[], rfl, rfl⟩
  | some rule => exact rule.writes spelled.tail Condition.writes fun t isAnd => by rw [isAnd]; rfl

/-- The statements in which an integer literal may stand. -/
def TakesLiterals : TreeNode → Prop
  | .createTable _ _ | .insertStmt _ _ | .deleteStmt _ _ | .updateStmt _ _ _ | .selectStmt _ _ _ _ => True
  | _ => False

theorem Stmt.writes {stmt : TreeNode} (rule : Stmt ts stmt) (takes : TakesLiterals stmt) (spelled : Spelled ts) :
    Writes StatementText.treeWith StatementText.numerals ts stmt := by
  cases rule with
  | createTable tb fields =>
    obtain ⟨texts, rfl, same⟩ := fields.writes spelled.tail.tail.right.tail.left Field.writes comma_intTexts
    refine ⟨.createTable _ texts, rfl, ?_⟩
    simpa [StatementText.numerals, tb.intTexts_eq] using same
  | insertStmt tb vals =>
    obtain ⟨texts, rfl, same⟩ := vals.writes spelled.tail.tail.right.tail.tail.left Value.writes comma_intTexts
    refine ⟨.insertStmt _ texts, rfl, ?_⟩
    simpa [StatementText.numerals, tb.intTexts_eq] using same
  | deleteStmt tb conds =>
    obtain ⟨texts, rfl, same⟩ := conds.writes spelled.tail.tail.right
    refine ⟨.deleteStmt _ texts, rfl, ?_⟩
    simpa [StatementText.numerals, tb.intTexts_eq] using same
  | updateStmt tb clauses conds =>
    obtain ⟨set, rfl, first⟩ := clauses.writes spelled.tail.right.tail.left SetRule.writes comma_intTexts
    obtain ⟨texts, rfl, second⟩ := conds.writes spelled.tail.right.tail.right
    refine ⟨.updateStmt _ set texts, rfl, ?_⟩
    simp [StatementText.numerals, tb.intTexts_eq, ← first, ← second]
  | selectStmt selector tabs conds order =>
    obtain ⟨texts, rfl, same⟩ := conds.writes spelled.tail.right.tail.left.right
    refine ⟨.selectStmt _ _ texts _, rfl, ?_⟩
    have tables := tabs.intTexts_eq Identifier.intTexts_eq fun t sep => by rcases sep with rfl | rfl <;> rfl
    simpa [StatementText.numerals, selector.intTexts_eq, tables, order.intTexts_eq] using same
  | _ => cases takes

end

/-- The tree that the parser makes of a request is the tree of a statement text, and the numerals of that text
are the integer literals that the scanner reads up to the semicolon, in their order. -/
theorem Parses.writes {c : StartCondition} {request : List UInt8} {stmt : TreeNode} (parses : Parses c request stmt)
    (takes : TakesLiterals stmt) :
    ∃ ts rest, (Flex.tokens scanner c request).1 = ts ++ .op (byte ';') :: rest ∧
      ∃ s : StatementText, s.tree = stmt ∧ s.numerals.map Numeral.text = intTexts ts := by
  cases parses with
  | @stmt ts rest _ read rule =>
    have spelled : Spelled ts := fun text member => token_numeral (read ▸ List.mem_append_left _ member)
    exact ⟨ts, rest, read, rule.writes takes spelled⟩
  | help => cases takes

end Parser

end Rmdb
