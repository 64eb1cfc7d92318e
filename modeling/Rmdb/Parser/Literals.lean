import Rmdb.Kit.Numeral
import Rmdb.Parser.Ast
import Rmdb.Parser.Lexer

namespace Rmdb

namespace Lexer
open Flex

theorem countWhile_digits (n : Numeral) : countWhile isDigit (n.digits.map digitByte) = n.digits.length := by
  change ((n.digits.map digitByte).takeWhile isDigitByte).length = _
  rw [n.digits_takeWhile, List.length_map]

/-- The rule for an integer matches the whole text of a numeral. -/
theorem valueInt_text (n : Numeral) : valueInt n.text = n.text.length := by
  have some : n.digits.length ≠ 0 := by
    intro none
    exact n.nonempty (List.length_eq_zero_iff.mp none)
  have signed : signLen n.text = n.sign.text.length := by
    obtain ⟨sign, digits, nonempty⟩ := n
    obtain ⟨d, l, rfl⟩ := List.exists_cons_of_ne_nil nonempty
    cases sign with
    | none =>
      obtain ⟨minus, plus⟩ := digitByte_notSign d
      exact if_neg (by simpa [not_or] using ⟨plus, minus⟩)
    | plus => rfl
    | minus => rfl
  unfold valueInt
  rw [signed, Numeral.text, List.drop_left, countWhile_digits, if_neg some, List.length_append, List.length_map]

/-- What the rule matches is the text of a numeral. -/
theorem exists_numeral {input : List UInt8} (found : 0 < valueInt input) :
    ∃ n : Numeral, n.text = input.take (valueInt input) := by
  have digits : ∀ b ∈ (input.drop (signLen input)).takeWhile isDigitByte, isDigitByte b = true :=
    fun b member => List.mem_takeWhile_imp member
  obtain ⟨l, same⟩ := exists_digits digits
  have count : countWhile isDigit (input.drop (signLen input)) = l.length := by
    rw [← List.length_map (f := digitByte), same]
    rfl
  have nonempty : l ≠ [] := by
    rintro rfl
    simp [valueInt, count] at found
  have whole : valueInt input = signLen input + l.length := by
    unfold valueInt
    rw [count]
    exact if_neg fun none => nonempty (List.length_eq_zero_iff.mp none)
  have taken : (input.drop (signLen input)).take l.length = l.map digitByte := by
    rw [same, ← List.length_map (f := digitByte), same]
    exact (List.prefix_iff_eq_take.mp (List.takeWhile_prefix _)).symm
  obtain ⟨sign, signed⟩ : ∃ sign : Sign, sign.text = input.take (signLen input) := by
    cases input with
    | nil => exact ⟨.none, rfl⟩
    | cons a rest =>
      by_cases plus : a = 43
      · exact ⟨.plus, by rw [plus]; rfl⟩
      · by_cases minus : a = 45
        · exact ⟨.minus, by rw [minus]; rfl⟩
        · refine ⟨.none, ?_⟩
          have neither : signLen (a :: rest) = 0 := if_neg (by simpa [not_or] using ⟨plus, minus⟩)
          rw [neither]
          rfl
  refine ⟨⟨sign, l, nonempty⟩, ?_⟩
  rw [whole, List.take_add, taken, ← signed]
  rfl

theorem token_numeral {c : StartCondition} {input text : List UInt8}
    (member : .valueInt text ∈ (tokens scanner c input).1) : ∃ n : Numeral, n.text = text := by
  obtain ⟨c', rule, member, rest, f, action, found, same⟩ := mem_tokens member
  cases c' with
  | comment =>
    simp only [scanner, commentRules, List.mem_cons, List.not_mem_nil, or_false] at member
    rcases member with rfl | rfl | rfl <;> cases action
  | initial =>
    simp only [scanner, initialRules, List.mem_append, List.mem_map, List.mem_cons, List.not_mem_nil, or_false]
      at member
    rcases member with ((rfl | rfl | rfl | rfl) | ⟨⟨word, k⟩, _, rfl⟩) |
      rfl | rfl | rfl | rfl | rfl | rfl | rfl | rfl | rfl
    all_goals cases action
    all_goals cases same
    exact exists_numeral found

end Lexer

/-! The statements as they are written, with the text of each integer literal. -/

inductive ValueText
  | int (n : Numeral)
  | float (bits : UInt32)
  | string (val : List UInt8)

inductive TypeText
  | int
  | char (n : Numeral)
  | float

structure FieldText where
  colName : String
  type : TypeText

structure SetClauseText where
  colName : String
  val : ValueText

inductive ExprText
  | val (v : ValueText)
  | col (c : Ast.Col)

structure ConditionText where
  lhs : Ast.Col
  op : Ast.SvCompOp
  rhs : ExprText

/-- The statements in which an integer literal may stand. -/
inductive StatementText
  | createTable (tabName : String) (fields : List FieldText)
  | insertStmt (tabName : String) (vals : List ValueText)
  | deleteStmt (tabName : String) (conds : List ConditionText)
  | updateStmt (tabName : String) (setClauses : List SetClauseText) (conds : List ConditionText)
  | selectStmt (cols : List Ast.Col) (tabs : List String) (conds : List ConditionText) (order : Option Ast.OrderBy)

section
variable (read : Numeral → Int)

/-! The actions of `yacc.y`; `read` gives `sv_int`. -/

def ValueText.lit : ValueText → Ast.Lit
  | .int n => .int (read n)
  | .float bits => .float bits
  | .string val => .string val

def TypeText.typeLen : TypeText → Ast.TypeLen
  | .int => ⟨.int, 4⟩
  | .char n => ⟨.string, read n⟩
  | .float => ⟨.float, 4⟩

def FieldText.colDef (field : FieldText) : Ast.ColDef := ⟨field.colName, field.type.typeLen read⟩

def SetClauseText.setClause (clause : SetClauseText) : Ast.SetClause := ⟨clause.colName, clause.val.lit read⟩

def ExprText.expr : ExprText → Ast.Expr
  | .val v => .val (v.lit read)
  | .col c => .col c

def ConditionText.binaryExpr (cond : ConditionText) : Ast.BinaryExpr := ⟨cond.lhs, cond.op, cond.rhs.expr read⟩

def StatementText.treeWith : StatementText → Ast.TreeNode
  | .createTable tabName fields => .createTable tabName (fields.map (FieldText.colDef read))
  | .insertStmt tabName vals => .insertStmt tabName (vals.map (ValueText.lit read))
  | .deleteStmt tabName conds => .deleteStmt tabName (conds.map (ConditionText.binaryExpr read))
  | .updateStmt tabName clauses conds =>
    .updateStmt tabName (clauses.map (SetClauseText.setClause read)) (conds.map (ConditionText.binaryExpr read))
  | .selectStmt cols tabs conds order => .selectStmt cols tabs (conds.map (ConditionText.binaryExpr read)) order

end

/-- The tree the parser makes: the scanner sets `sv_int` to `atoi(yytext)`. -/
def StatementText.tree : StatementText → Ast.TreeNode := treeWith fun n => atoi n.text

/-! The integer literals of a statement. -/

def ValueText.numerals : ValueText → List Numeral
  | .int n => [n]
  | _ => []

def TypeText.numerals : TypeText → List Numeral
  | .char n => [n]
  | _ => []

def ExprText.numerals : ExprText → List Numeral
  | .val v => v.numerals
  | .col _ => []

def StatementText.numerals : StatementText → List Numeral
  | .createTable _ fields => fields.flatMap fun field => field.type.numerals
  | .insertStmt _ vals => vals.flatMap ValueText.numerals
  | .deleteStmt _ conds => conds.flatMap fun cond => cond.rhs.numerals
  | .updateStmt _ clauses conds =>
    (clauses.flatMap fun clause => clause.val.numerals) ++ conds.flatMap fun cond => cond.rhs.numerals
  | .selectStmt _ _ conds _ => conds.flatMap fun cond => cond.rhs.numerals

section
variable {f g : Numeral → Int}

theorem ValueText.lit_eq_iff (v : ValueText) : v.lit f = v.lit g ↔ ∀ n ∈ v.numerals, f n = g n := by
  cases v <;> simp [lit, numerals]

theorem FieldText.colDef_eq_iff (field : FieldText) :
    field.colDef f = field.colDef g ↔ ∀ n ∈ field.type.numerals, f n = g n := by
  obtain ⟨colName, type⟩ := field
  cases type <;> simp [colDef, TypeText.typeLen, TypeText.numerals]

theorem SetClauseText.setClause_eq_iff (clause : SetClauseText) :
    clause.setClause f = clause.setClause g ↔ ∀ n ∈ clause.val.numerals, f n = g n := by
  simp [setClause, ValueText.lit_eq_iff]

theorem ConditionText.binaryExpr_eq_iff (cond : ConditionText) :
    cond.binaryExpr f = cond.binaryExpr g ↔ ∀ n ∈ cond.rhs.numerals, f n = g n := by
  obtain ⟨lhs, op, rhs⟩ := cond
  cases rhs <;> simp [binaryExpr, ExprText.expr, ExprText.numerals, ValueText.lit_eq_iff]

theorem map_eq_iff {α β : Type} {text : α → List Numeral} {make : (Numeral → Int) → α → β} (l : List α)
    (each : ∀ a, make f a = make g a ↔ ∀ n ∈ text a, f n = g n) :
    l.map (make f) = l.map (make g) ↔ ∀ n ∈ l.flatMap text, f n = g n := by
  rw [List.map_inj_left]
  simp only [each, List.mem_flatMap]
  exact ⟨fun all n ⟨a, member, here⟩ => all a member n here, fun all a member n here => all n ⟨a, member, here⟩⟩

namespace StatementText

/-- Two ways to read the literals make the same tree only if they agree on each literal. -/
theorem treeWith_eq_iff (s : StatementText) : s.treeWith f = s.treeWith g ↔ ∀ n ∈ s.numerals, f n = g n := by
  cases s with
  | createTable tabName fields =>
    simp only [treeWith, numerals, Ast.TreeNode.createTable.injEq, true_and]
    exact map_eq_iff fields FieldText.colDef_eq_iff
  | insertStmt tabName vals =>
    simp only [treeWith, numerals, Ast.TreeNode.insertStmt.injEq, true_and]
    exact map_eq_iff vals ValueText.lit_eq_iff
  | deleteStmt tabName conds =>
    simp only [treeWith, numerals, Ast.TreeNode.deleteStmt.injEq, true_and]
    exact map_eq_iff conds ConditionText.binaryExpr_eq_iff
  | updateStmt tabName clauses conds =>
    simp only [treeWith, numerals, Ast.TreeNode.updateStmt.injEq, true_and, List.forall_mem_append]
    exact and_congr (map_eq_iff clauses SetClauseText.setClause_eq_iff)
      (map_eq_iff conds ConditionText.binaryExpr_eq_iff)
  | selectStmt cols tabs conds order =>
    simp only [treeWith, numerals, Ast.TreeNode.selectStmt.injEq, true_and, and_true]
    exact map_eq_iff conds ConditionText.binaryExpr_eq_iff

theorem tree_exact_iff (s : StatementText) : s.tree = s.treeWith Numeral.value ↔ ∀ n ∈ s.numerals, IsInt n.value := by
  rw [tree, treeWith_eq_iff]
  exact forall₂_congr fun n _ => n.atoi_text_iff

end StatementText

end

end Rmdb
