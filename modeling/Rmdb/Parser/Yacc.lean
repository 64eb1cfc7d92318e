import Rmdb.Kit.Pause
import Rmdb.Parser.Grammar
import Rmdb.Parser.Tables

namespace Rmdb.Yacc
open Ast Lexer Rmdb.Parser

/-! `yyparse`: the rules of `yacc.y` with their actions, on the tables. -/

/-- Pointers may be null. A number that was never written is 0 here. -/
structure SemValue where
  svInt : Int := 0
  svFloat : UInt32 := 0
  svStr : List UInt8 := []
  svOrderbyDir : OrderByDir := .default
  svStrs : List String := []
  svNode : Option TreeNode := none
  svCompOp : SvCompOp := .eq
  svTypeLen : Option TypeLen := none
  svField : Option Ast.ColDef := none
  svFields : List Ast.ColDef := []
  svExpr : Option Expr := none
  svVal : Option Lit := none
  svVals : List Lit := []
  svCol : Option Col := none
  svCols : List Col := []
  svSetClause : Option Ast.SetClause := none
  svSetClauses : List Ast.SetClause := []
  svCond : Option BinaryExpr := none
  svConds : List BinaryExpr := []
  svOrderby : Option OrderBy := none

structure Rule extends Lalr.Rule Symbol where
  act : SemValue → List SemValue → Option (SemValue ⊕ Option TreeNode)

/-- A rule whose action changes `$$`, given `$1`, `$2`, ..; none if it would use a null pointer. -/
def rule (lhs : Symbol) (rhs : List Symbol) (action : SemValue → (Nat → SemValue) → Option SemValue) : Rule :=
  ⟨⟨lhs, rhs⟩, fun yyval vs => (action yyval fun i => vs.getD (i - 1) {}).map .inl⟩

/-- A rule whose action sets `parse_tree` and accepts. -/
def accepting (rhs : List Symbol) (parseTree : SemValue → Option TreeNode) : Rule :=
  ⟨⟨.start, rhs⟩, fun _ vs => some (.inr (parseTree (vs.getD 0 {})))⟩

/-- A rule without an action: `$$ = $1`. -/
def copies (lhs : Symbol) (rhs : List Symbol) : Rule := rule lhs rhs fun yyval _ => some yyval

/-- A list: its first item, and one item more behind a separator. -/
def listed {α : Type} (list item : Symbol) (seps : List Symbol) (get : SemValue → Option α)
    (set : SemValue → (List α → List α) → SemValue) : List Rule :=
  rule list [item] (fun yyval a => (get (a 1)).map fun x => set yyval fun _ => [x]) ::
    seps.map fun sep => rule list [list, sep, item] fun yyval a => (get (a 3)).map fun x => set yyval (· ++ [x])

def startRules : List Rule := [
  rule .accept [.start, .eof] fun yyval _ => some yyval,
  accepting [.stmt, .semicolon] SemValue.svNode,
  accepting [.help] fun _ => some .help,
  accepting [.exit] fun _ => none,
  accepting [.tEof] fun _ => none]

def stmtRules : List Rule := [
  copies .stmt [.dbStmt],
  copies .stmt [.ddl],
  copies .stmt [.dml],
  copies .stmt [.txnStmt]]

def txnStmtRules : List Rule := [
  rule .txnStmt [.txnBegin] fun yyval _ => some { yyval with svNode := some .txnBegin },
  rule .txnStmt [.txnCommit] fun yyval _ => some { yyval with svNode := some .txnCommit },
  rule .txnStmt [.txnAbort] fun yyval _ => some { yyval with svNode := some .txnAbort },
  rule .txnStmt [.txnRollback] fun yyval _ => some { yyval with svNode := some .txnRollback }]

def dbStmtRules : List Rule := [
  rule .dbStmt [.show, .tables] fun yyval _ => some { yyval with svNode := some .showTables }]

def ddlRules : List Rule := [
  rule .ddl [.create, .table, .tbName, .lparen, .fieldList, .rparen] fun yyval a =>
    some { yyval with svNode := some (.createTable (name (a 3).svStr) (a 5).svFields) },
  rule .ddl [.drop, .table, .tbName] fun yyval a => some { yyval with svNode := some (.dropTable (name (a 3).svStr)) },
  rule .ddl [.desc, .tbName] fun yyval a => some { yyval with svNode := some (.descTable (name (a 2).svStr)) },
  rule .ddl [.create, .index, .tbName, .lparen, .colNameList, .rparen] fun yyval a =>
    some { yyval with svNode := some (.createIndex (name (a 3).svStr) (a 5).svStrs) },
  rule .ddl [.drop, .index, .tbName, .lparen, .colNameList, .rparen] fun yyval a =>
    some { yyval with svNode := some (.dropIndex (name (a 3).svStr) (a 5).svStrs) }]

def dmlRules : List Rule := [
  rule .dml [.insert, .into, .tbName, .values, .lparen, .valueList, .rparen] fun yyval a =>
    some { yyval with svNode := some (.insertStmt (name (a 3).svStr) (a 6).svVals) },
  rule .dml [.delete, .from, .tbName, .optWhereClause] fun yyval a =>
    some { yyval with svNode := some (.deleteStmt (name (a 3).svStr) (a 4).svConds) },
  rule .dml [.update, .tbName, .set, .setClauses, .optWhereClause] fun yyval a =>
    some { yyval with svNode := some (.updateStmt (name (a 2).svStr) (a 4).svSetClauses (a 5).svConds) },
  rule .dml [.select, .selector, .from, .tableList, .optWhereClause, .optOrderClause] fun yyval a =>
    some { yyval with svNode := some (.selectStmt (a 2).svCols (a 4).svStrs (a 5).svConds (a 6).svOrderby) }]

def fieldListRules : List Rule :=
  listed .fieldList .field [.comma] SemValue.svField fun yyval f => { yyval with svFields := f yyval.svFields }

def colNameListRules : List Rule :=
  listed .colNameList .colName [.comma] (fun v => some (name v.svStr)) fun yyval f =>
    { yyval with svStrs := f yyval.svStrs }

def fieldRules : List Rule := [
  rule .field [.colName, .type] fun yyval a =>
    (a 2).svTypeLen.map fun typeLen => { yyval with svField := some ⟨name (a 1).svStr, typeLen⟩ }]

def typeRules : List Rule := [
  rule .type [.int] fun yyval _ => some { yyval with svTypeLen := some ⟨.int, 4⟩ },
  rule .type [.char, .lparen, .valueInt, .rparen] fun yyval a =>
    some { yyval with svTypeLen := some ⟨.string, (a 3).svInt⟩ },
  rule .type [.float] fun yyval _ => some { yyval with svTypeLen := some ⟨.float, 4⟩ }]

def valueListRules : List Rule :=
  listed .valueList .value [.comma] SemValue.svVal fun yyval f => { yyval with svVals := f yyval.svVals }

def valueRules : List Rule := [
  rule .value [.valueInt] fun yyval a => some { yyval with svVal := some (.int (a 1).svInt) },
  rule .value [.valueFloat] fun yyval a => some { yyval with svVal := some (.float (a 1).svFloat) },
  rule .value [.valueString] fun yyval a => some { yyval with svVal := some (.string (a 1).svStr) }]

def conditionRules : List Rule := [
  rule .condition [.col, .op, .expr] fun yyval a => do
    let lhs ← (a 1).svCol
    let rhs ← (a 3).svExpr
    return { yyval with svCond := some ⟨lhs, (a 2).svCompOp, rhs⟩ }]

/-- The first action is left out, and `$$` is what an older value left in its slot. -/
def optWhereClauseRules : List Rule := [
  rule .optWhereClause [] fun yyval _ => some yyval,
  rule .optWhereClause [.where, .whereClause] fun yyval a => some { yyval with svConds := (a 2).svConds }]

def whereClauseRules : List Rule :=
  listed .whereClause .condition [.and] SemValue.svCond fun yyval f => { yyval with svConds := f yyval.svConds }

def colRules : List Rule := [
  rule .col [.tbName, .dot, .colName] fun yyval a =>
    some { yyval with svCol := some ⟨name (a 1).svStr, name (a 3).svStr⟩ },
  rule .col [.colName] fun yyval a => some { yyval with svCol := some ⟨"", name (a 1).svStr⟩ }]

def colListRules : List Rule :=
  listed .colList .col [.comma] SemValue.svCol fun yyval f => { yyval with svCols := f yyval.svCols }

def opRules : List Rule := [
  rule .op [.eq] fun yyval _ => some { yyval with svCompOp := .eq },
  rule .op [.lt] fun yyval _ => some { yyval with svCompOp := .lt },
  rule .op [.gt] fun yyval _ => some { yyval with svCompOp := .gt },
  rule .op [.neq] fun yyval _ => some { yyval with svCompOp := .ne },
  rule .op [.leq] fun yyval _ => some { yyval with svCompOp := .le },
  rule .op [.geq] fun yyval _ => some { yyval with svCompOp := .ge }]

def exprRules : List Rule := [
  rule .expr [.value] fun yyval a => (a 1).svVal.map fun v => { yyval with svExpr := some (.val v) },
  rule .expr [.col] fun yyval a => (a 1).svCol.map fun c => { yyval with svExpr := some (.col c) }]

def setClausesRules : List Rule :=
  listed .setClauses .setClause [.comma] SemValue.svSetClause
    fun yyval f => { yyval with svSetClauses := f yyval.svSetClauses }

def setClauseRules : List Rule := [
  rule .setClause [.colName, .eq, .value] fun yyval a =>
    (a 3).svVal.map fun v => { yyval with svSetClause := some ⟨name (a 1).svStr, v⟩ }]

def selectorRules : List Rule := [
  rule .selector [.star] fun yyval _ => some { yyval with svCols := [] },
  copies .selector [.colList]]

def tableListRules : List Rule :=
  listed .tableList .tbName [.comma, .join] (fun v => some (name v.svStr))
    fun yyval f => { yyval with svStrs := f yyval.svStrs }

def optOrderClauseRules : List Rule := [
  rule .optOrderClause [.order, .by, .orderClause] fun yyval a => some { yyval with svOrderby := (a 3).svOrderby },
  rule .optOrderClause [] fun yyval _ => some yyval]

def orderClauseRules : List Rule := [
  rule .orderClause [.col, .optAscDesc] fun yyval a =>
    (a 1).svCol.map fun c => { yyval with svOrderby := some ⟨c, (a 2).svOrderbyDir⟩ }]

def optAscDescRules : List Rule := [
  rule .optAscDesc [.asc] fun yyval _ => some { yyval with svOrderbyDir := .asc },
  rule .optAscDesc [.desc] fun yyval _ => some { yyval with svOrderbyDir := .desc },
  rule .optAscDesc [] fun yyval _ => some { yyval with svOrderbyDir := .default }]

def nameRules : List Rule := [
  copies .tbName [.identifier],
  copies .colName [.identifier]]

def groups : List (List Rule) := [
  startRules, stmtRules, txnStmtRules, dbStmtRules, ddlRules, dmlRules, fieldListRules, colNameListRules, fieldRules,
  typeRules, valueListRules, valueRules, conditionRules, optWhereClauseRules, whereClauseRules, colRules,
  colListRules, opRules, exprRules, setClausesRules, setClauseRules, selectorRules, tableListRules,
  optOrderClauseRules, orderClauseRules, optAscDescRules, nameRules]

/-- The rules from rule 1 on. -/
def rules : List Rule := groups.flatten

theorem yyr1_eq : yyr1 = 0 :: rules.map fun rule => rule.lhs.ctorIdx := by decide +kernel

theorem yyr2_eq : yyr2 = 0 :: rules.map fun rule => rule.rhs.length := by decide +kernel

/-- What the scanner sets with a token. -/
def load (atof : List UInt8 → UInt32) (yylval : SemValue) : Token → SemValue
  | .identifier text => { yylval with svStr := text }
  | .valueInt text => { yylval with svInt := atoi text }
  | .valueFloat text => { yylval with svFloat := atof text }
  | .valueString text => { yylval with svStr := text }
  | _ => yylval

/-- Rule 0 does not exist. -/
def yyrule (yyn : Nat) : Option Rule := if yyn = 0 then none else rules[yyn - 1]?

def tables : Lalr.Tables Symbol where
  rule yyn := (yyrule yyn).map Rule.toRule
  asks := asks
  table := entry
  default := default
  goto := goto
  final := YYFINAL
  stop := .tEof
  depth := YYINITDEPTH

/-- `atof` reads the text of a float. -/
def automaton (atof : List UInt8 → UInt32) : Lalr.Automaton Symbol Token SemValue (Option TreeNode) where
  toTables := tables
  act yyn yyval vs := (yyrule yyn).bind fun rule => rule.act yyval vs
  kind := kind
  load := load atof
  blank := {}

/-- It stops with `parse_tree` when it accepts. -/
def yyparse (atof : List UInt8 → UInt32) : Flex.Parser Token (Lalr.Stop (Option TreeNode)) :=
  (automaton atof).parser 40

end Rmdb.Yacc
