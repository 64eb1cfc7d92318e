import Rmdb.Parser.States

namespace Rmdb

namespace Ast

/-! Statements without the numbers that `atof` reads. -/

def Lit.settled : Lit → Lit
  | .float _ => .float 0
  | v => v

def Expr.settled : Expr → Expr
  | .val v => .val v.settled
  | .col c => .col c

def BinaryExpr.settled (e : BinaryExpr) : BinaryExpr := ⟨e.lhs, e.op, e.rhs.settled⟩

def SetClause.settled (clause : SetClause) : SetClause := ⟨clause.colName, clause.val.settled⟩

def TreeNode.settled : TreeNode → TreeNode
  | .insertStmt tabName vals => .insertStmt tabName (vals.map Lit.settled)
  | .deleteStmt tabName conds => .deleteStmt tabName (conds.map BinaryExpr.settled)
  | .updateStmt tabName clauses conds =>
    .updateStmt tabName (clauses.map SetClause.settled) (conds.map BinaryExpr.settled)
  | .selectStmt cols tabs conds order => .selectStmt cols tabs (conds.map BinaryExpr.settled) order
  | stmt => stmt

end Ast

namespace Yacc
open Ast Lexer Rmdb.Parser Lalr

/-! What the grammar derives, the rules of `yyparse` do. -/

/-- A property of all values that are known to be such. -/
def Given : List (SemValue → Prop) → (List SemValue → Prop) → Prop
  | [], Q => Q []
  | P :: Ps, Q => ∀ v, P v → Given Ps fun vs => Q (v :: vs)

theorem Given.of_known {Ps : List (SemValue → Prop)} {Q : List SemValue → Prop} (given : Given Ps Q)
    {vs : List SemValue} (known : Known Ps vs) : Q vs := by
  induction Ps generalizing Q vs with
  | nil =>
    obtain rfl := known
    exact given
  | cons P Ps ih =>
    obtain ⟨v, vs', rfl, here, later⟩ := known
    exact ih (given v here) later

section
variable (atof : List UInt8 → UInt32)

/-- The symbol derives these tokens, with such a value. -/
structure Made (X : Symbol) (ts : List Token) (P : SemValue → Prop) : Prop where
  before : ∀ {Xs us Ps}, Derives (automaton atof) Unused Xs us Ps →
    Derives (automaton atof) Unused (X :: Xs) (ts ++ us) (P :: Ps)

variable {atof}

theorem Made.token {t : Token} {P : SemValue → Prop} (holds : ∀ v, P (load atof v t)) : Made atof (kind t) [t] P :=
  ⟨fun rest => .token holds rest⟩

theorem Made.mono {X : Symbol} {ts : List Token} {P Q : SemValue → Prop} (made : Made atof X ts P)
    (weaker : ∀ v, P v → Q v) : Made atof X ts Q := ⟨fun rest => (made.before rest).mono weaker⟩

variable (atof) in
/-- A token that stands for nothing but itself. -/
theorem Made.plain (t : Token) : Made atof (kind t) [t] fun _ => True := .token fun _ => trivial

theorem Made.rule {r : Nat} {lhs : Symbol} {rhs : List Symbol}
    {action : SemValue → (Nat → SemValue) → Option SemValue} {ts us : List Token} {Qs : List (SemValue → Prop)}
    {P : SemValue → Prop} (found : yyrule r = some (Yacc.rule lhs rhs action))
    (derives : Derives (automaton atof) Unused rhs us Qs) (same : us = ts)
    (makes : ∀ above, (rhs = [] → Unused lhs (above.headD {})) → Given Qs fun vs =>
      ∃ v, action ((vs ++ above).headD {}) (fun i => vs.getD (i - 1) {}) = some v ∧ P v) : Made atof lhs ts P := by
  refine ⟨fun {Xs us' Ps} rest => ?_⟩
  have found' : (automaton atof).rule r = some ⟨lhs, rhs⟩ := congrArg (Option.map Rule.toRule) found
  subst same
  refine Derives.rule found' derives (fun vs above known unused => ?_) rest
  obtain ⟨v, made, holds⟩ := (makes above unused).of_known known
  refine ⟨v, ?_, holds⟩
  change (yyrule r).bind _ = _
  rw [found]
  exact congrArg (Option.map Sum.inl) made

section
variable {ts us : List Token}

/-- Rules 68 and 69. -/
theorem name_made {s : String} (rule : Identifier ts s) (lhs : Symbol) (isName : lhs = .tbName ∨ lhs = .colName) :
    Made atof lhs ts fun v => name v.svStr = s := by
  obtain ⟨a, text⟩ := rule
  have word : Made atof .identifier [.identifier (a :: text)] fun v => v.svStr = a :: text :=
    .token (t := .identifier (a :: text)) fun _ => rfl
  rcases isName with rfl | rfl
  · exact .rule (r := 68) rfl (word.before .nil) rfl fun _ _ v same => ⟨v, rfl, congrArg name same⟩
  · exact .rule (r := 69) rfl (word.before .nil) rfl fun _ _ v same => ⟨v, rfl, congrArg name same⟩

theorem tbName_made {s : String} (rule : Identifier ts s) : Made atof .tbName ts fun v => name v.svStr = s :=
  name_made rule .tbName (.inl rfl)

theorem colName_made {s : String} (rule : Identifier ts s) : Made atof .colName ts fun v => name v.svStr = s :=
  name_made rule .colName (.inr rfl)

theorem value_made {l : Lit} (rule : Parser.Value ts l) :
    Made atof .value ts fun v => ∃ l', v.svVal = some l' ∧ l'.settled = l.settled := by
  cases rule with
  | int text =>
    have word : Made atof .valueInt [.valueInt text] fun v => v.svInt = atoi text :=
      .token (t := .valueInt text) fun _ => rfl
    exact .rule (r := 34) rfl (word.before .nil) rfl fun _ _ v same =>
      ⟨_, rfl, _, rfl, congrArg (fun n => (Lit.int n).settled) same⟩
  | float text bits =>
    have word := Made.plain atof (.valueFloat text)
    exact .rule (r := 35) rfl (word.before .nil) rfl fun _ _ v _ => ⟨_, rfl, _, rfl, rfl⟩
  | string text =>
    have word : Made atof .valueString [.valueString text] fun v => v.svStr = text :=
      .token (t := .valueString text) fun _ => rfl
    exact .rule (r := 36) rfl (word.before .nil) rfl fun _ _ v same =>
      ⟨_, rfl, _, rfl, congrArg (fun s => (Lit.string s).settled) same⟩

theorem col_made {c : Col} (rule : Column ts c) : Made atof .col ts fun v => v.svCol = some c := by
  cases rule with
  | qualified tb col =>
    have dot := Made.plain atof (.op (byte '.'))
    refine .rule (r := 42) rfl ((tbName_made tb).before (dot.before ((colName_made col).before .nil))) (by simp) ?_
    rintro _ _ v rfl _ _ w rfl
    exact ⟨_, rfl, rfl⟩
  | bare col =>
    refine .rule (r := 43) rfl ((colName_made col).before .nil) (by simp) ?_
    rintro _ _ v rfl
    exact ⟨_, rfl, rfl⟩

theorem op_made {t : Token} {op : SvCompOp} (rule : Op t op) : Made atof .op [t] fun v => v.svCompOp = op := by
  cases rule with
  | eq => exact .rule (r := 46) rfl ((Made.plain atof (.op (byte '='))).before .nil) rfl fun _ _ _ _ => ⟨_, rfl, rfl⟩
  | lt => exact .rule (r := 47) rfl ((Made.plain atof (.op (byte '<'))).before .nil) rfl fun _ _ _ _ => ⟨_, rfl, rfl⟩
  | gt => exact .rule (r := 48) rfl ((Made.plain atof (.op (byte '>'))).before .nil) rfl fun _ _ _ _ => ⟨_, rfl, rfl⟩
  | ne => exact .rule (r := 49) rfl ((Made.plain atof .neq).before .nil) rfl fun _ _ _ _ => ⟨_, rfl, rfl⟩
  | le => exact .rule (r := 50) rfl ((Made.plain atof .leq).before .nil) rfl fun _ _ _ _ => ⟨_, rfl, rfl⟩
  | ge => exact .rule (r := 51) rfl ((Made.plain atof .geq).before .nil) rfl fun _ _ _ _ => ⟨_, rfl, rfl⟩

theorem expr_made {e : Expr} (rule : Expression ts e) :
    Made atof .expr ts fun v => ∃ e', v.svExpr = some e' ∧ e'.settled = e.settled := by
  cases rule with
  | value rule =>
    refine .rule (r := 52) rfl ((value_made rule).before .nil) (by simp) ?_
    rintro _ _ v ⟨l', got, same⟩
    exact ⟨_, congrArg (Option.map _) got, _, rfl, congrArg Expr.val same⟩
  | col rule =>
    refine .rule (r := 53) rfl ((col_made rule).before .nil) (by simp) ?_
    rintro _ _ v got
    exact ⟨_, congrArg (Option.map _) got, _, rfl, rfl⟩

theorem condition_made {e : BinaryExpr} (rule : Parser.Condition ts e) :
    Made atof .condition ts fun v => ∃ e', v.svCond = some e' ∧ e'.settled = e.settled := by
  obtain ⟨lhs, op, rhs⟩ := rule
  refine .rule (r := 37) rfl ((col_made lhs).before ((op_made op).before ((expr_made rhs).before .nil))) (by simp) ?_
  rintro _ _ v left w rfl w' ⟨e', right, same⟩
  refine ⟨{ v with svCond := some ⟨_, w.svCompOp, e'⟩ }, ?_, _, rfl, congrArg (BinaryExpr.mk _ _) same⟩
  simp [left, right]

/-- A list of items whose values are known up to what `g` forgets. -/
theorem listed_made {α β : Type} (group : List Rule) (items : SemValue → List α) (g : α → β) (n : Nat)
    {list item : Symbol} {seps : List Symbol} {get : SemValue → Option α}
    {set : SemValue → (List α → List α) → SemValue} {R : List Token → α → Prop} {Sep : Token → Prop}
    (shared : group = listed list item seps get set) (first : yyrule n = group[0]?)
    (more : ∀ t, Sep t → ∃ m sep, kind t = sep ∧ yyrule m = some (rule list [list, sep, item] fun yyval a =>
      (get (a 3)).map fun x => set yyval (· ++ [x])))
    (item_made : ∀ ts a, R ts a → Made atof item ts fun v => ∃ a', get v = some a' ∧ g a' = g a)
    (items_set : ∀ v f, items (set v f) = f (items v)) {l : List α} (rule : Listed R Sep ts l) :
    Made atof list ts fun v => (items v).map g = l.map g := by
  subst shared
  induction rule with
  | one rule =>
    refine .rule first ((item_made _ _ rule).before .nil) (by simp) ?_
    rintro _ _ v ⟨a', got, same⟩
    refine ⟨_, congrArg (Option.map _) got, ?_⟩
    rw [items_set, List.map_singleton, List.map_singleton, same]
  | @more ts us t l a _ isSep rule ih =>
    obtain ⟨m, sep, rfl, found⟩ := more t isSep
    refine .rule found (ih.before ((Made.plain atof t).before ((item_made _ _ rule).before .nil))) (by simp) ?_
    rintro _ _ v same _ _ w ⟨a', got, same'⟩
    refine ⟨_, congrArg (Option.map _) got, ?_⟩
    rw [items_set, List.map_append, List.map_append, List.map_singleton, List.map_singleton, same']
    exact congrArg (· ++ _) same

theorem whereClause_made {conds : List BinaryExpr} (rule : Listed Parser.Condition (· = .keyword .and) ts conds) :
    Made atof .whereClause ts fun v => v.svConds.map BinaryExpr.settled = conds.map BinaryExpr.settled :=
  listed_made whereClauseRules SemValue.svConds BinaryExpr.settled 40 rfl rfl
    (fun _ isAnd => ⟨41, _, congrArg kind isAnd, rfl⟩)
    (fun _ _ => condition_made) (fun _ _ => rfl) rule

theorem optWhereClause_made {conds : List BinaryExpr} (rule : OptWhereClause ts conds) :
    Made atof .optWhereClause ts fun v => v.svConds.map BinaryExpr.settled = conds.map BinaryExpr.settled := by
  cases rule with
  | none => exact .rule (r := 38) rfl .nil rfl fun _ unused => ⟨_, rfl, congrArg (List.map _) (unused rfl)⟩
  | some rule =>
    have word := Made.plain atof (.keyword .where)
    exact .rule (r := 39) rfl (word.before ((whereClause_made rule).before .nil)) (by simp)
      fun _ _ _ _ v same => ⟨_, rfl, same⟩

theorem colList_made {cols : List Col} (rule : Listed Column Comma ts cols) :
    Made atof .colList ts fun v => v.svCols = cols := by
  have made : Made atof .colList ts fun v => v.svCols.map id = cols.map id :=
    listed_made colListRules SemValue.svCols id 44 rfl rfl (fun _ isComma => ⟨45, _, congrArg kind isComma, rfl⟩)
      (fun _ c rule => (col_made rule).mono fun _ got => ⟨c, got, rfl⟩) (fun _ _ => rfl) rule
  simpa only [List.map_id] using made

theorem selector_made {cols : List Col} (rule : Selector ts cols) :
    Made atof .selector ts fun v => v.svCols = cols := by
  cases rule with
  | all =>
    exact .rule (r := 57) rfl ((Made.plain atof (.op (byte '*'))).before .nil) rfl fun _ _ _ _ => ⟨_, rfl, rfl⟩
  | cols rule => exact .rule (r := 58) rfl ((colList_made rule).before .nil) (by simp) fun _ _ v same => ⟨v, rfl, same⟩

theorem tableList_made {tabs : List String} (rule : Listed Identifier TableSep ts tabs) :
    Made atof .tableList ts fun v => v.svStrs = tabs := by
  have more : ∀ t, TableSep t → ∃ m sep, kind t = sep ∧ yyrule m = some (Yacc.rule .tableList [.tableList, sep, .tbName]
      fun yyval a => (some (name (a 3).svStr)).map fun x => { yyval with svStrs := yyval.svStrs ++ [x] }) := by
    rintro t (isComma | isJoin)
    · exact ⟨60, .comma, congrArg kind isComma, rfl⟩
    · exact ⟨61, .join, congrArg kind isJoin, rfl⟩
  have made : Made atof .tableList ts fun v => v.svStrs.map id = tabs.map id :=
    listed_made tableListRules SemValue.svStrs id 59 rfl rfl more
      (fun _ s rule => (tbName_made rule).mono fun _ same => ⟨s, congrArg some same, rfl⟩) (fun _ _ => rfl) rule
  simpa only [List.map_id] using made

theorem colNameList_made {colNames : List String} (rule : Listed Identifier Comma ts colNames) :
    Made atof .colNameList ts fun v => v.svStrs = colNames := by
  have made : Made atof .colNameList ts fun v => v.svStrs.map id = colNames.map id :=
    listed_made colNameListRules SemValue.svStrs id 26 rfl rfl (fun _ isComma => ⟨27, _, congrArg kind isComma, rfl⟩)
      (fun _ s rule => (colName_made rule).mono fun _ same => ⟨s, congrArg some same, rfl⟩) (fun _ _ => rfl) rule
  simpa only [List.map_id] using made

theorem valueList_made {vals : List Lit} (rule : Listed Parser.Value Comma ts vals) :
    Made atof .valueList ts fun v => v.svVals.map Lit.settled = vals.map Lit.settled :=
  listed_made valueListRules SemValue.svVals Lit.settled 32 rfl rfl
    (fun _ isComma => ⟨33, _, congrArg kind isComma, rfl⟩) (fun _ _ => value_made) (fun _ _ => rfl) rule

theorem type_made {typeLen : TypeLen} (rule : TypeRule ts typeLen) :
    Made atof .type ts fun v => v.svTypeLen = some typeLen := by
  cases rule with
  | int => exact .rule (r := 29) rfl ((Made.plain atof (.keyword .int)).before .nil) rfl fun _ _ _ _ => ⟨_, rfl, rfl⟩
  | char text =>
    have len : Made atof .valueInt [.valueInt text] fun v => v.svInt = atoi text :=
      .token (t := Token.valueInt text) fun _ => rfl
    refine .rule (r := 30) rfl ((Made.plain atof (.keyword .char)).before ((Made.plain atof (.op (byte '('))).before
      (len.before ((Made.plain atof (.op (byte ')'))).before .nil)))) rfl ?_
    rintro _ _ _ _ _ _ v same _ _
    exact ⟨_, rfl, congrArg (fun n => some (TypeLen.mk .string n)) same⟩
  | float =>
    exact .rule (r := 31) rfl ((Made.plain atof (.keyword .float)).before .nil) rfl fun _ _ _ _ => ⟨_, rfl, rfl⟩

theorem field_made {field : Ast.ColDef} (rule : Field ts field) :
    Made atof .field ts fun v => v.svField = some field := by
  obtain ⟨col, type⟩ := rule
  refine .rule (r := 28) rfl ((colName_made col).before ((type_made type).before .nil)) (by simp) ?_
  rintro _ _ v rfl w got
  exact ⟨_, congrArg (Option.map _) got, rfl⟩

theorem fieldList_made {fields : List Ast.ColDef} (rule : Listed Field Comma ts fields) :
    Made atof .fieldList ts fun v => v.svFields = fields := by
  have made : Made atof .fieldList ts fun v => v.svFields.map id = fields.map id :=
    listed_made fieldListRules SemValue.svFields id 24 rfl rfl (fun _ isComma => ⟨25, _, congrArg kind isComma, rfl⟩)
      (fun _ field rule => (field_made rule).mono fun _ got => ⟨field, got, rfl⟩) (fun _ _ => rfl) rule
  simpa only [List.map_id] using made

theorem setClause_made {clause : Ast.SetClause} (rule : SetRule ts clause) :
    Made atof .setClause ts fun v => ∃ c', v.svSetClause = some c' ∧ c'.settled = clause.settled := by
  obtain ⟨col, value⟩ := rule
  refine .rule (r := 56) rfl ((colName_made col).before ((Made.plain atof (.op (byte '='))).before
    ((value_made value).before .nil))) (by simp) ?_
  rintro _ _ v rfl _ _ w ⟨l', got, same⟩
  exact ⟨_, congrArg (Option.map _) got, _, rfl, congrArg (Ast.SetClause.mk _) same⟩

theorem setClauses_made {clauses : List Ast.SetClause} (rule : Listed SetRule Comma ts clauses) :
    Made atof .setClauses ts fun v => v.svSetClauses.map SetClause.settled = clauses.map SetClause.settled :=
  listed_made setClausesRules SemValue.svSetClauses SetClause.settled 54 rfl rfl
    (fun _ isComma => ⟨55, _, congrArg kind isComma, rfl⟩) (fun _ _ => setClause_made) (fun _ _ => rfl) rule

theorem optAscDesc_made {dir : OrderByDir} (rule : OptAscDesc ts dir) :
    Made atof .optAscDesc ts fun v => v.svOrderbyDir = dir := by
  cases rule with
  | asc => exact .rule (r := 65) rfl ((Made.plain atof (.keyword .asc)).before .nil) rfl fun _ _ _ _ => ⟨_, rfl, rfl⟩
  | desc => exact .rule (r := 66) rfl ((Made.plain atof (.keyword .desc)).before .nil) rfl fun _ _ _ _ => ⟨_, rfl, rfl⟩
  | default => exact .rule (r := 67) rfl .nil rfl fun _ _ => ⟨_, rfl, rfl⟩

theorem optOrderClause_made {order : Option OrderBy} (rule : OptOrderClause ts order) :
    Made atof .optOrderClause ts fun v => v.svOrderby = order := by
  cases rule with
  | @some ts us c dir col rule =>
    have clause : Made atof .orderClause (ts ++ us) fun v => v.svOrderby = some ⟨c, dir⟩ := by
      refine .rule (r := 64) rfl ((col_made col).before ((optAscDesc_made rule).before .nil)) (by simp) ?_
      rintro _ _ v got w rfl
      exact ⟨_, congrArg (Option.map _) got, rfl⟩
    exact .rule (r := 62) rfl ((Made.plain atof (.keyword .order)).before ((Made.plain atof (.keyword .by)).before
      (clause.before .nil))) (by simp) fun _ _ _ _ _ _ v same => ⟨_, rfl, same⟩
  | none => exact .rule (r := 63) rfl .nil rfl fun _ unused => ⟨_, rfl, unused rfl⟩

/-- The tree that was made is the one of the grammar, up to what the texts of floats are read as. -/
def Makes (stmt : TreeNode) (v : SemValue) : Prop := ∃ made, v.svNode = some made ∧ made.settled = stmt.settled

section
variable {stmt : TreeNode}

theorem stmt_of_dbStmt (made : Made atof .dbStmt ts (Makes stmt)) : Made atof .stmt ts (Makes stmt) :=
  .rule (r := 6) rfl (made.before .nil) (by simp) fun _ _ v makes => ⟨v, rfl, makes⟩

theorem stmt_of_ddl (made : Made atof .ddl ts (Makes stmt)) : Made atof .stmt ts (Makes stmt) :=
  .rule (r := 7) rfl (made.before .nil) (by simp) fun _ _ v makes => ⟨v, rfl, makes⟩

theorem stmt_of_dml (made : Made atof .dml ts (Makes stmt)) : Made atof .stmt ts (Makes stmt) :=
  .rule (r := 8) rfl (made.before .nil) (by simp) fun _ _ v makes => ⟨v, rfl, makes⟩

theorem stmt_of_txnStmt (made : Made atof .txnStmt ts (Makes stmt)) : Made atof .stmt ts (Makes stmt) :=
  .rule (r := 9) rfl (made.before .nil) (by simp) fun _ _ v makes => ⟨v, rfl, makes⟩

theorem stmt_made (rule : Stmt ts stmt) : Made atof .stmt ts (Makes stmt) := by
  have word := fun k => Made.plain atof (.keyword k)
  have op := fun c => Made.plain atof (.op (byte c))
  cases rule with
  | txnBegin =>
    exact stmt_of_txnStmt (.rule (r := 10) rfl ((word .txnBegin).before .nil) rfl fun _ _ _ _ => ⟨_, rfl, _, rfl, rfl⟩)
  | txnCommit =>
    exact stmt_of_txnStmt (.rule (r := 11) rfl ((word .txnCommit).before .nil) rfl fun _ _ _ _ => ⟨_, rfl, _, rfl, rfl⟩)
  | txnAbort =>
    exact stmt_of_txnStmt (.rule (r := 12) rfl ((word .txnAbort).before .nil) rfl fun _ _ _ _ => ⟨_, rfl, _, rfl, rfl⟩)
  | txnRollback =>
    exact stmt_of_txnStmt
      (.rule (r := 13) rfl ((word .txnRollback).before .nil) rfl fun _ _ _ _ => ⟨_, rfl, _, rfl, rfl⟩)
  | showTables =>
    exact stmt_of_dbStmt (.rule (r := 14) rfl ((word .show).before ((word .tables).before .nil)) rfl
      fun _ _ _ _ _ _ => ⟨_, rfl, _, rfl, rfl⟩)
  | createTable tb fields =>
    refine stmt_of_ddl (.rule (r := 15) rfl ((word .create).before ((word .table).before ((tbName_made tb).before
      ((op '(').before ((fieldList_made fields).before ((op ')').before .nil)))))) (by simp) ?_)
    rintro _ _ _ _ _ _ v rfl _ _ w rfl _ _
    exact ⟨_, rfl, _, rfl, rfl⟩
  | dropTable tb =>
    refine stmt_of_ddl (.rule (r := 16) rfl
      ((word .drop).before ((word .table).before ((tbName_made tb).before .nil))) (by simp) ?_)
    rintro _ _ _ _ _ _ v rfl
    exact ⟨_, rfl, _, rfl, rfl⟩
  | descTable tb =>
    refine stmt_of_ddl (.rule (r := 17) rfl ((word .desc).before ((tbName_made tb).before .nil)) (by simp) ?_)
    rintro _ _ _ _ v rfl
    exact ⟨_, rfl, _, rfl, rfl⟩
  | createIndex tb cols =>
    refine stmt_of_ddl (.rule (r := 18) rfl ((word .create).before ((word .index).before ((tbName_made tb).before
      ((op '(').before ((colNameList_made cols).before ((op ')').before .nil)))))) (by simp) ?_)
    rintro _ _ _ _ _ _ v rfl _ _ w rfl _ _
    exact ⟨_, rfl, _, rfl, rfl⟩
  | dropIndex tb cols =>
    refine stmt_of_ddl (.rule (r := 19) rfl ((word .drop).before ((word .index).before ((tbName_made tb).before
      ((op '(').before ((colNameList_made cols).before ((op ')').before .nil)))))) (by simp) ?_)
    rintro _ _ _ _ _ _ v rfl _ _ w rfl _ _
    exact ⟨_, rfl, _, rfl, rfl⟩
  | insertStmt tb vals =>
    refine stmt_of_dml (.rule (r := 20) rfl ((word .insert).before ((word .into).before ((tbName_made tb).before
      ((word .values).before ((op '(').before ((valueList_made vals).before ((op ')').before .nil))))))) (by simp) ?_)
    rintro _ _ _ _ _ _ v rfl _ _ _ _ w same _ _
    exact ⟨_, rfl, _, rfl, congrArg (TreeNode.insertStmt _) same⟩
  | deleteStmt tb conds =>
    refine stmt_of_dml (.rule (r := 21) rfl ((word .delete).before ((word .from).before ((tbName_made tb).before
      ((optWhereClause_made conds).before .nil)))) (by simp) ?_)
    rintro _ _ _ _ _ _ v rfl w same
    exact ⟨_, rfl, _, rfl, congrArg (TreeNode.deleteStmt _) same⟩
  | updateStmt tb clauses conds =>
    refine stmt_of_dml (.rule (r := 22) rfl ((word .update).before ((tbName_made tb).before ((word .set).before
      ((setClauses_made clauses).before ((optWhereClause_made conds).before .nil))))) (by simp) ?_)
    rintro _ _ _ _ v rfl _ _ w same w' same'
    exact ⟨_, rfl, _, rfl, congrArg₂ (TreeNode.updateStmt _) same same'⟩
  | selectStmt selector tabs conds order =>
    refine stmt_of_dml (.rule (r := 23) rfl ((word .select).before ((selector_made selector).before
      ((word .from).before ((tableList_made tabs).before ((optWhereClause_made conds).before
        ((optOrderClause_made order).before .nil)))))) (by simp) ?_)
    rintro _ _ _ _ v rfl _ _ w rfl w' same w'' rfl
    exact ⟨_, rfl, _, rfl, congrArg (fun conds => TreeNode.selectStmt _ _ conds _) same⟩

end

end

end

end Yacc

end Rmdb
