import Rmdb.Kit.Numeral
import Rmdb.Parser.Ast
import Rmdb.Parser.Words

namespace Rmdb

namespace Ast

/-- A column as it is written. -/
def Col.text (c : Col) : String := if c.tabName = "" then c.colName else c.tabName ++ "." ++ c.colName

/-! The bytes that the words of a statement take up, each with a byte behind it. A name has a letter. -/

def nameRoom (name : String) : Nat := max 2 (name.length + 1)

def Col.room (c : Col) : Nat := nameRoom c.text

def Expr.room : Expr → Nat
  | .val _ => 0
  | .col c => c.room

def BinaryExpr.room (e : BinaryExpr) : Nat := e.lhs.room + e.rhs.room

/-- `WHERE` and the conditions, with `AND` between them. -/
def whereRoom (conds : List BinaryExpr) : Nat :=
  if conds = [] then 0 else 2 + (conds.map fun e => e.room + 4).sum

def orderRoom (order : Option OrderBy) : Nat := if order = none then 0 else 11

def TreeNode.room : TreeNode → Nat
  | .deleteStmt tabName conds => 12 + nameRoom tabName + whereRoom conds
  | .updateStmt tabName clauses conds =>
    11 + nameRoom tabName + (clauses.map fun clause => nameRoom clause.colName).sum + whereRoom conds
  | .selectStmt cols tabs conds order =>
    12 + (cols.map Col.room).sum + (tabs.map nameRoom).sum + whereRoom conds + orderRoom order
  | _ => 0

theorem nameRoom_pos (name : String) : 2 ≤ nameRoom name ∧ name.length + 1 ≤ nameRoom name :=
  ⟨Nat.le_max_left _ _, Nat.le_max_right _ _⟩

theorem Col.room_pos (c : Col) : 2 ≤ c.room := (nameRoom_pos _).1

/-- A table name and the dot take two bytes more. -/
theorem Col.room_qualified {c : Col} (qualified : c.tabName ≠ "") : 3 ≤ c.room := by
  have letters := (nameRoom_pos c.text).2
  have dot : ".".length = 1 := rfl
  have table : c.tabName.length ≠ 0 := fun empty => qualified (String.length_eq_zero_iff.mp empty)
  rw [text, if_neg qualified, String.length_append, String.length_append, dot] at letters
  unfold room
  rw [text, if_neg qualified]
  omega

theorem BinaryExpr.room_pos (e : BinaryExpr) : 2 ≤ e.room := e.lhs.room_pos.trans (Nat.le_add_right _ _)

theorem length_le_sum {α : Type} {size : α → Nat} {least : Nat} {l : List α} (each : ∀ a ∈ l, least ≤ size a) :
    l.length * least ≤ (l.map size).sum := by
  induction l with
  | nil => simp
  | cons a l ih =>
    obtain ⟨here, each⟩ := List.forall_mem_cons.mp each
    have later := ih each
    rw [List.map_cons, List.sum_cons, List.length_cons, Nat.succ_mul]
    omega

/-- One item of a list in full and the others with the least they can take. -/
theorem size_le_sum {α : Type} {size : α → Nat} {least : Nat} {l : List α} (each : ∀ a ∈ l, least ≤ size a) {a : α}
    (member : a ∈ l) : size a + (l.length - 1) * least ≤ (l.map size).sum := by
  obtain ⟨before, after, rfl⟩ := List.append_of_mem member
  obtain ⟨front, _, back⟩ := List.forall_mem_append.mp each |>.imp_right List.forall_mem_cons.mp
  have first := length_le_sum front
  have second := length_le_sum back
  rw [List.map_append, List.map_cons, List.sum_append, List.sum_cons, List.length_append, List.length_cons]
  have count : before.length + (after.length + 1) - 1 = before.length + after.length := by omega
  rw [count, Nat.add_mul]
  omega

theorem whereRoom_le {e : BinaryExpr} {conds : List BinaryExpr} (member : e ∈ conds) :
    e.room + 6 * conds.length ≤ whereRoom conds := by
  have least : ∀ d ∈ conds, 6 ≤ d.room + 4 := fun d _ => by
    have letter := d.room_pos
    omega
  have sum := size_le_sum least member
  have positive := List.length_pos_of_mem member
  rw [whereRoom, if_neg (List.ne_nil_of_mem member)]
  omega

end Ast

namespace Parser
open Ast Lexer

/-! The rules of `yacc.y`: the tokens each stands for and the value it has. -/

/-- The characters of `yytext`, one for each byte. -/
def name (text : List UInt8) : String := String.ofList (text.map fun b => Char.ofNat b.toNat)

@[simp] theorem length_name (text : List UInt8) : (name text).length = text.length := by
  simp [name]

/-- `tbName` and `colName` -/
inductive Identifier : List Token → String → Prop
  | mk (a : UInt8) (text : List UInt8) : Identifier [.identifier (a :: text)] (name (a :: text))

/-- A list with one of some tokens between any two items. -/
inductive Listed {α : Type} (item : List Token → α → Prop) (between : Token → Prop) : List Token → List α → Prop
  | one {ts : List Token} {a : α} : item ts a → Listed item between ts [a]
  | more {ts us : List Token} {t : Token} {l : List α} {a : α} : Listed item between ts l → between t → item us a →
      Listed item between (ts ++ t :: us) (l ++ [a])

def Comma (t : Token) : Prop := t = .op (byte ',')

/-- `value`; what `atof` makes of the text of a float is left open. -/
inductive Value : List Token → Lit → Prop
  | int (text : List UInt8) : Value [.valueInt text] (.int (atoi text))
  | float (text : List UInt8) (bits : UInt32) : Value [.valueFloat text] (.float bits)
  | string (text : List UInt8) : Value [.valueString text] (.string text)

inductive Column : List Token → Col → Prop
  | qualified {ts us : List Token} {tbName colName : String} : Identifier ts tbName → Identifier us colName →
      Column (ts ++ .op (byte '.') :: us) ⟨tbName, colName⟩
  | bare {ts : List Token} {colName : String} : Identifier ts colName → Column ts ⟨"", colName⟩

inductive Op : Token → SvCompOp → Prop
  | eq : Op (.op (byte '=')) .eq
  | lt : Op (.op (byte '<')) .lt
  | gt : Op (.op (byte '>')) .gt
  | ne : Op .neq .ne
  | le : Op .leq .le
  | ge : Op .geq .ge

inductive Expression : List Token → Expr → Prop
  | value {ts : List Token} {v : Lit} : Value ts v → Expression ts (.val v)
  | col {ts : List Token} {c : Col} : Column ts c → Expression ts (.col c)

inductive Condition : List Token → BinaryExpr → Prop
  | mk {ts us : List Token} {t : Token} {lhs : Col} {op : SvCompOp} {rhs : Expr} : Column ts lhs → Op t op →
      Expression us rhs → Condition (ts ++ t :: us) ⟨lhs, op, rhs⟩

inductive OptWhereClause : List Token → List BinaryExpr → Prop
  | none : OptWhereClause [] []
  | some {ts : List Token} {conds : List BinaryExpr} : Listed Condition (· = .keyword .and) ts conds →
      OptWhereClause (.keyword .where :: ts) conds

inductive OptAscDesc : List Token → OrderByDir → Prop
  | asc : OptAscDesc [.keyword .asc] .asc
  | desc : OptAscDesc [.keyword .desc] .desc
  | default : OptAscDesc [] .default

inductive OptOrderClause : List Token → Option OrderBy → Prop
  | some {ts us : List Token} {c : Col} {dir : OrderByDir} : Column ts c → OptAscDesc us dir →
      OptOrderClause (.keyword .order :: .keyword .by :: (ts ++ us)) (.some ⟨c, dir⟩)
  | none : OptOrderClause [] .none

inductive TypeRule : List Token → TypeLen → Prop
  | int : TypeRule [.keyword .int] ⟨.int, 4⟩
  | char (text : List UInt8) :
      TypeRule [.keyword .char, .op (byte '('), .valueInt text, .op (byte ')')] ⟨.string, atoi text⟩
  | float : TypeRule [.keyword .float] ⟨.float, 4⟩

inductive Field : List Token → Ast.ColDef → Prop
  | mk {ts us : List Token} {colName : String} {type : TypeLen} : Identifier ts colName → TypeRule us type →
      Field (ts ++ us) ⟨colName, type⟩

inductive SetRule : List Token → Ast.SetClause → Prop
  | mk {ts us : List Token} {colName : String} {v : Lit} : Identifier ts colName → Value us v →
      SetRule (ts ++ .op (byte '=') :: us) ⟨colName, v⟩

inductive Selector : List Token → List Col → Prop
  | all : Selector [.op (byte '*')] []
  | cols {ts : List Token} {cols : List Col} : Listed Column Comma ts cols → Selector ts cols

def TableSep (t : Token) : Prop := Comma t ∨ t = .keyword .join

/-- `stmt` -/
inductive Stmt : List Token → TreeNode → Prop
  | txnBegin : Stmt [.keyword .txnBegin] .txnBegin
  | txnCommit : Stmt [.keyword .txnCommit] .txnCommit
  | txnAbort : Stmt [.keyword .txnAbort] .txnAbort
  | txnRollback : Stmt [.keyword .txnRollback] .txnRollback
  | showTables : Stmt [.keyword .show, .keyword .tables] .showTables
  | createTable {ts us : List Token} {tbName : String} {fields : List Ast.ColDef} : Identifier ts tbName →
      Listed Field Comma us fields →
      Stmt (.keyword .create :: .keyword .table :: (ts ++ .op (byte '(') :: (us ++ [.op (byte ')')])))
        (.createTable tbName fields)
  | dropTable {ts : List Token} {tbName : String} : Identifier ts tbName →
      Stmt (.keyword .drop :: .keyword .table :: ts) (.dropTable tbName)
  | descTable {ts : List Token} {tbName : String} : Identifier ts tbName →
      Stmt (.keyword .desc :: ts) (.descTable tbName)
  | createIndex {ts us : List Token} {tbName : String} {colNames : List String} : Identifier ts tbName →
      Listed Identifier Comma us colNames →
      Stmt (.keyword .create :: .keyword .index :: (ts ++ .op (byte '(') :: (us ++ [.op (byte ')')])))
        (.createIndex tbName colNames)
  | dropIndex {ts us : List Token} {tbName : String} {colNames : List String} : Identifier ts tbName →
      Listed Identifier Comma us colNames →
      Stmt (.keyword .drop :: .keyword .index :: (ts ++ .op (byte '(') :: (us ++ [.op (byte ')')])))
        (.dropIndex tbName colNames)
  | insertStmt {ts us : List Token} {tbName : String} {vals : List Lit} : Identifier ts tbName →
      Listed Value Comma us vals →
      Stmt (.keyword .insert :: .keyword .into ::
          (ts ++ .keyword .values :: .op (byte '(') :: (us ++ [.op (byte ')')])))
        (.insertStmt tbName vals)
  | deleteStmt {ts us : List Token} {tbName : String} {conds : List BinaryExpr} : Identifier ts tbName →
      OptWhereClause us conds →
      Stmt (.keyword .delete :: .keyword .from :: (ts ++ us)) (.deleteStmt tbName conds)
  | updateStmt {ts us vs : List Token} {tbName : String} {clauses : List Ast.SetClause} {conds : List BinaryExpr} :
      Identifier ts tbName → Listed SetRule Comma us clauses → OptWhereClause vs conds →
      Stmt (.keyword .update :: (ts ++ .keyword .set :: (us ++ vs))) (.updateStmt tbName clauses conds)
  | selectStmt {ts us vs ws : List Token} {cols : List Col} {tabs : List String} {conds : List BinaryExpr}
      {order : Option OrderBy} : Selector ts cols → Listed Identifier TableSep us tabs → OptWhereClause vs conds →
      OptOrderClause ws order →
      Stmt (.keyword .select :: (ts ++ .keyword .from :: (us ++ vs ++ ws))) (.selectStmt cols tabs conds order)

/-- `yyparse` on a request: a statement and the semicolon behind it, or `HELP`. What follows is not read. -/
inductive Parses (c : StartCondition) (request : List UInt8) : TreeNode → Prop
  | stmt {ts rest : List Token} {stmt : TreeNode} : (Flex.tokens scanner c request).1 = ts ++ .op (byte ';') :: rest →
      Stmt ts stmt → Parses c request stmt
  | help {rest : List Token} : (Flex.tokens scanner c request).1 = .keyword .help :: rest → Parses c request .help

/-! The words of a statement are those of its tokens. -/

def room (ts : List Token) : Nat := Flex.room Token.isWord Token.size ts

@[simp] theorem room_nil : room [] = 0 := rfl

def tokenRoom (t : Token) : Nat := if t.isWord then t.size + 1 else 0

theorem room_cons (t : Token) (ts : List Token) : room (t :: ts) = tokenRoom t + room ts := rfl

@[simp] theorem room_append (ts us : List Token) : room (ts ++ us) = room ts + room us := by
  simp [room, Flex.room]

section
variable {ts us : List Token}

theorem Identifier.room_le {text : String} (rule : Identifier ts text) : nameRoom text ≤ room ts := by
  obtain ⟨a, text⟩ := rule
  have size : room [.identifier (a :: text)] = text.length + 2 := rfl
  rw [size, nameRoom, length_name, List.length_cons]
  omega

theorem Column.room_le {c : Col} (rule : Column ts c) : c.room ≤ room ts := by
  cases rule with
  | qualified tb col =>
    have first := tb.room_le
    have second := col.room_le
    rw [room_append, room_cons]
    unfold Col.room Col.text
    unfold nameRoom at first second ⊢
    simp only
    split
    · omega
    · have dot : ".".length = 1 := rfl
      rw [String.length_append, String.length_append, dot]
      omega
  | bare col => exact col.room_le

theorem Expression.room_le {e : Expr} (rule : Expression ts e) : e.room ≤ room ts := by
  cases rule with
  | value => exact Nat.zero_le _
  | col rule => exact rule.room_le

theorem Condition.room_le {e : BinaryExpr} (rule : Condition ts e) : e.room ≤ room ts := by
  obtain ⟨lhs, op, rhs⟩ := rule
  have first := lhs.room_le
  have second := rhs.room_le
  rw [room_append, room_cons, BinaryExpr.room]
  simp only
  omega

theorem SetRule.room_le {clause : Ast.SetClause} (rule : SetRule ts clause) :
    nameRoom clause.colName ≤ room ts := by
  obtain ⟨col, value⟩ := rule
  have first := col.room_le
  rw [room_append]
  simp only
  omega

theorem Listed.ne_nil {α : Type} {item : List Token → α → Prop} {between : Token → Prop} {l : List α}
    (rule : Listed item between ts l) : l ≠ [] := by
  cases rule <;> simp

/-- The items, and the separators between them. -/
theorem Listed.room_le {α : Type} {item : List Token → α → Prop} {between : Token → Prop} {l : List α} {size : α → Nat}
    (rule : Listed item between ts l) (sep : Nat) (each : ∀ {ts a}, item ts a → size a ≤ room ts)
    (apart : ∀ t, between t → sep ≤ tokenRoom t) : (l.map fun a => size a + sep).sum ≤ room ts + sep := by
  induction rule with
  | one rule =>
    have small := each rule
    simp
    omega
  | more _ isBetween rule ih =>
    have small := each rule
    have separator := apart _ isBetween
    rw [List.map_append, List.sum_append, room_append, room_cons]
    simp only [List.map_cons, List.map_nil, List.sum_cons, List.sum_nil]
    omega

/-- The items alone. -/
theorem Listed.items_le {α : Type} {item : List Token → α → Prop} {between : Token → Prop} {l : List α} {size : α → Nat}
    (rule : Listed item between ts l) (each : ∀ {ts a}, item ts a → size a ≤ room ts) :
    (l.map size).sum ≤ room ts := rule.room_le 0 each fun _ _ => Nat.zero_le _

theorem OptWhereClause.room_le {conds : List BinaryExpr} (rule : OptWhereClause ts conds) :
    whereRoom conds ≤ room ts := by
  unfold whereRoom
  cases rule with
  | none => exact Nat.zero_le _
  | some rule =>
    have conditions := rule.room_le 4 Condition.room_le fun t isAnd => by rw [isAnd]; decide
    have keyword : tokenRoom (.keyword .where) = 6 := by decide
    rw [room_cons, keyword]
    split
    · exact Nat.zero_le _
    · omega

theorem OptOrderClause.room_le {order : Option OrderBy} (rule : OptOrderClause ts order) :
    orderRoom order ≤ room ts := by
  cases rule with
  | none => exact Nat.zero_le _
  | @some ts us c dir col _ =>
    have column := col.room_le
    have keywords : tokenRoom (.keyword .order) + tokenRoom (.keyword .by) = 9 := by decide
    have letter : 2 ≤ c.room := Nat.le_max_left _ _
    rw [room_cons, room_cons, room_append]
    change 11 ≤ _
    omega

theorem Selector.room_le {cols : List Col} (rule : Selector ts cols) : (cols.map Col.room).sum ≤ room ts := by
  cases rule with
  | all => exact Nat.zero_le _
  | cols rule => exact rule.items_le Column.room_le

theorem Stmt.room_le {stmt : TreeNode} (rule : Stmt ts stmt) : stmt.room ≤ room ts := by
  cases rule with
  | deleteStmt tb conds =>
    have table := tb.room_le
    have clause := conds.room_le
    have keywords : tokenRoom (.keyword .delete) + tokenRoom (.keyword .from) = 12 := by decide
    rw [room_cons, room_cons, room_append, TreeNode.room]
    omega
  | updateStmt tb clauses conds =>
    have table := tb.room_le
    have set := clauses.items_le SetRule.room_le
    have clause := conds.room_le
    have keywords : tokenRoom (.keyword .update) + tokenRoom (.keyword .set) = 11 := by decide
    rw [room_cons, room_append, room_cons, room_append, TreeNode.room]
    omega
  | selectStmt selector tabs conds order =>
    have columns := selector.room_le
    have tables := tabs.items_le Identifier.room_le
    have clause := conds.room_le
    have sorted := order.room_le
    have keywords : tokenRoom (.keyword .select) + tokenRoom (.keyword .from) = 12 := by decide
    rw [room_cons, room_append, room_cons, room_append, room_append, TreeNode.room]
    omega
  | _ => exact Nat.zero_le _

end

theorem Parses.tabs_ne_nil {c : StartCondition} {request : List UInt8} {cols : List Col} {tabs : List String}
    {conds : List BinaryExpr} {order : Option OrderBy} (parses : Parses c request (.selectStmt cols tabs conds order)) :
    tabs ≠ [] := by
  cases parses with
  | stmt _ rule =>
    cases rule with
    | selectStmt _ listed _ _ => exact listed.ne_nil

/-- A request has room for the words of its statement. -/
theorem Parses.room_le {c : StartCondition} {request : List UInt8} {stmt : TreeNode} (parses : Parses c request stmt) :
    stmt.room ≤ request.length := by
  cases parses with
  | stmt read rule => exact rule.room_le.trans (Flex.room_le scanner_spaced read).1
  | help => exact Nat.zero_le _

end Parser

end Rmdb
