import Rmdb.Parser.States

namespace Rmdb.Yacc
open Ast Lexer Rmdb.Parser Lalr

/-! Each action of `yyparse` keeps to the rule it belongs to. -/

/-- The token of a symbol that has only one. -/
def fixed : Symbol → Option Token
  | .show => some (.keyword .show)
  | .tables => some (.keyword .tables)
  | .create => some (.keyword .create)
  | .table => some (.keyword .table)
  | .drop => some (.keyword .drop)
  | .desc => some (.keyword .desc)
  | .insert => some (.keyword .insert)
  | .into => some (.keyword .into)
  | .values => some (.keyword .values)
  | .delete => some (.keyword .delete)
  | .from => some (.keyword .from)
  | .asc => some (.keyword .asc)
  | .order => some (.keyword .order)
  | .by => some (.keyword .by)
  | .where => some (.keyword .where)
  | .update => some (.keyword .update)
  | .set => some (.keyword .set)
  | .select => some (.keyword .select)
  | .int => some (.keyword .int)
  | .char => some (.keyword .char)
  | .float => some (.keyword .float)
  | .index => some (.keyword .index)
  | .and => some (.keyword .and)
  | .join => some (.keyword .join)
  | .exit => some (.keyword .exit)
  | .help => some (.keyword .help)
  | .txnBegin => some (.keyword .txnBegin)
  | .txnCommit => some (.keyword .txnCommit)
  | .txnAbort => some (.keyword .txnAbort)
  | .txnRollback => some (.keyword .txnRollback)
  | .leq => some .leq
  | .neq => some .neq
  | .geq => some .geq
  | .semicolon => some (.op (byte ';'))
  | .lparen => some (.op (byte '('))
  | .rparen => some (.op (byte ')'))
  | .comma => some (.op (byte ','))
  | .dot => some (.op (byte '.'))
  | .eq => some (.op (byte '='))
  | .lt => some (.op (byte '<'))
  | .gt => some (.op (byte '>'))
  | .star => some (.op (byte '*'))
  | _ => none

/-- What the tokens under a symbol and its value have to do with each other. -/
def Means (X : Symbol) (ts : List Token) (v : SemValue) : Prop :=
  match X with
  | .tEof => ts = []
  | .identifier | .tbName | .colName => Identifier ts (name v.svStr)
  | .valueInt => ∃ text, ts = [.valueInt text] ∧ v.svInt = atoi text
  | .valueFloat => ∃ text, ts = [.valueFloat text]
  | .valueString => ts = [.valueString v.svStr]
  | .stmt | .txnStmt | .dbStmt | .ddl | .dml => ∃ stmt, v.svNode = some stmt ∧ Stmt ts stmt
  | .fieldList => Listed Field Comma ts v.svFields
  | .colNameList => Listed Identifier Comma ts v.svStrs
  | .field => ∃ field, v.svField = some field ∧ Field ts field
  | .type => ∃ typeLen, v.svTypeLen = some typeLen ∧ TypeRule ts typeLen
  | .valueList => Listed Parser.Value Comma ts v.svVals
  | .value => ∃ val, v.svVal = some val ∧ Parser.Value ts val
  | .condition => ∃ cond, v.svCond = some cond ∧ Parser.Condition ts cond
  | .optWhereClause => OptWhereClause ts v.svConds
  | .whereClause => Listed Parser.Condition (· = .keyword .and) ts v.svConds
  | .col => ∃ col, v.svCol = some col ∧ Column ts col
  | .colList => Listed Column Comma ts v.svCols
  | .op => ∃ t, ts = [t] ∧ Op t v.svCompOp
  | .expr => ∃ expr, v.svExpr = some expr ∧ Expression ts expr
  | .setClauses => Listed SetRule Comma ts v.svSetClauses
  | .setClause => ∃ clause, v.svSetClause = some clause ∧ SetRule ts clause
  | .selector => Selector ts v.svCols
  | .tableList => Listed Identifier TableSep ts v.svStrs
  | .optOrderClause => OptOrderClause ts v.svOrderby
  | .orderClause => ∃ us vs col dir, ts = us ++ vs ∧ Column us col ∧ OptAscDesc vs dir ∧ v.svOrderby = some ⟨col, dir⟩
  | .optAscDesc => OptAscDesc ts v.svOrderbyDir
  | X => ∀ t, fixed X = some t → ts = [t]

/-- `parse_tree` after these tokens, with the others not read. -/
inductive Accepts : List Token → List Token → Option TreeNode → Prop
  | stmt {ts rest : List Token} {stmt : TreeNode} : Stmt ts stmt → Accepts (ts ++ [.op (byte ';')]) rest (some stmt)
  | help {rest : List Token} : Accepts [.keyword .help] rest (some .help)
  | exit {rest : List Token} : Accepts [.keyword .exit] rest none
  | eof : Accepts [] [] none

/-- The scanner makes no other identifiers. -/
def Named : Token → Prop
  | .identifier text => text ≠ []
  | _ => True

/-- A property of whatever stands for some symbols. -/
def Under : List Symbol → (List Token → List SemValue → Prop) → Prop
  | [], Q => Q [] []
  | [X], Q => match fixed X with
    | some t => ∀ v, Q [t] [v]
    | none => ∀ us v, Means X us v → Q us [v]
  | X :: Xs, Q => match fixed X with
    | some t => ∀ v, Under Xs fun rest vs => Q (t :: rest) (v :: vs)
    | none => ∀ us v, Means X us v → Under Xs fun rest vs => Q (us ++ rest) (v :: vs)

theorem fixed_means {X : Symbol} {t : Token} {ts : List Token} {v : SemValue} (one : fixed X = some t)
    (means : Means X ts v) : ts = [t] := by
  cases X <;> first | exact means t one | cases one

theorem Under.of_spans {Xs : List Symbol} {Q : List Token → List SemValue → Prop} (under : Under Xs Q)
    {ts : List Token} {vs : List SemValue} (spans : Spans Means Xs ts vs) : Q ts vs := by
  induction Xs generalizing Q ts vs with
  | nil =>
    obtain ⟨rfl, rfl⟩ := spans
    exact under
  | cons X Xs ih =>
    obtain ⟨us, rest, v, vs', rfl, rfl, here, later⟩ := spans
    cases Xs with
    | nil =>
      obtain ⟨rfl, rfl⟩ := later
      rw [Under] at under
      rw [List.append_nil]
      cases one : fixed X with
      | none =>
        rw [one] at under
        exact under us v here
      | some t =>
        rw [one] at under
        obtain rfl := fixed_means one here
        exact under v
    | cons Y Ys =>
      rw [Under] at under
      cases one : fixed X with
      | none =>
        rw [one] at under
        exact ih (under us v here) later
      | some t =>
        rw [one] at under
        obtain rfl := fixed_means one here
        exact ih (under v) later
      exact fun none => absurd none (List.cons_ne_nil _ _)

/-- The action of a rule makes what its left-hand side means of what its right-hand side does. -/
def Keeps (rule : Rule) : Prop := ∀ ts rest vs above, Spans Means rule.rhs ts vs →
  (rule.rhs = [] → Unused rule.lhs (above.headD {})) → (.tEof ∈ rule.rhs → rest = []) →
  match rule.act ((vs ++ above).headD {}) vs with
  | none => False
  | some (.inl v) => Means rule.lhs ts v
  | some (.inr parseTree) => Accepts ts rest parseTree

section
variable {lhs : Symbol} {rhs : List Symbol}

theorem rule_keeps {action : SemValue → (Nat → SemValue) → Option SemValue}
    (makes : ∀ above, (rhs = [] → Unused lhs (above.headD {})) → Under rhs fun ts vs =>
      ∃ v, action ((vs ++ above).headD {}) (fun i => vs.getD (i - 1) {}) = some v ∧ Means lhs ts v) :
    Keeps (rule lhs rhs action) := by
  intro ts rest vs above spans unused _
  obtain ⟨v, made, means⟩ := (makes above unused).of_spans spans
  simp only [rule, made, Option.map_some]
  exact means

theorem accepting_keeps {parseTree : SemValue → Option TreeNode}
    (makes : ∀ rest, (.tEof ∈ rhs → rest = []) → Under rhs fun ts vs => Accepts ts rest (parseTree (vs.getD 0 {}))) :
    Keeps (accepting rhs parseTree) :=
  fun _ rest _ _ spans _ ended => (makes rest ended).of_spans spans

theorem copies_keeps {X : Symbol} (same : ∀ ts v, Means X ts v → Means lhs ts v)
    (open' : fixed X = none) : Keeps (copies lhs [X]) := by
  refine rule_keeps fun above _ => ?_
  simp only [Under, open']
  exact fun us v means => ⟨v, rfl, same us v means⟩

end

theorem startRules_keep : ∀ rule ∈ startRules, Keeps rule := by
  simp only [startRules, List.forall_mem_cons, List.not_mem_nil, false_implies, implies_true, and_true]
  refine ⟨?_, ?_, ?_, ?_, ?_⟩
  · exact rule_keeps fun _ _ _ _ _ _ _ _ => ⟨_, rfl, fun _ one => nomatch one⟩
  · refine accepting_keeps ?_
    rintro rest _ us v ⟨stmt, node, rule⟩ _
    change Accepts _ rest v.svNode
    rw [node]
    exact .stmt rule
  · exact accepting_keeps fun _ _ _ => .help
  · exact accepting_keeps fun _ _ _ => .exit
  · refine accepting_keeps ?_
    rintro rest ended us v rfl
    rw [ended List.mem_cons_self]
    exact .eof

theorem stmtRules_keep : ∀ rule ∈ stmtRules, Keeps rule := by
  simp only [stmtRules, List.forall_mem_cons, List.not_mem_nil, false_implies, implies_true, and_true]
  refine ⟨?_, ?_, ?_, ?_⟩
  all_goals exact copies_keeps (fun _ _ means => means) rfl

theorem txnStmtRules_keep : ∀ rule ∈ txnStmtRules, Keeps rule := by
  simp only [txnStmtRules, List.forall_mem_cons, List.not_mem_nil, false_implies, implies_true, and_true]
  refine ⟨?_, ?_, ?_, ?_⟩
  · exact rule_keeps fun _ _ _ => ⟨_, rfl, _, rfl, .txnBegin⟩
  · exact rule_keeps fun _ _ _ => ⟨_, rfl, _, rfl, .txnCommit⟩
  · exact rule_keeps fun _ _ _ => ⟨_, rfl, _, rfl, .txnAbort⟩
  · exact rule_keeps fun _ _ _ => ⟨_, rfl, _, rfl, .txnRollback⟩

theorem dbStmtRules_keep : ∀ rule ∈ dbStmtRules, Keeps rule :=
  List.forall_mem_singleton.mpr (rule_keeps fun _ _ _ _ => ⟨_, rfl, _, rfl, .showTables⟩)

theorem ddlRules_keep : ∀ rule ∈ ddlRules, Keeps rule := by
  simp only [ddlRules, List.forall_mem_cons, List.not_mem_nil, false_implies, implies_true, and_true]
  refine ⟨?_, ?_, ?_, ?_, ?_⟩
  · exact rule_keeps fun _ _ _ _ _ _ tb _ _ _ fields _ => ⟨_, rfl, _, rfl, .createTable tb fields⟩
  · exact rule_keeps fun _ _ _ _ _ _ tb => ⟨_, rfl, _, rfl, .dropTable tb⟩
  · exact rule_keeps fun _ _ _ _ _ tb => ⟨_, rfl, _, rfl, .descTable tb⟩
  · exact rule_keeps fun _ _ _ _ _ _ tb _ _ _ cols _ => ⟨_, rfl, _, rfl, .createIndex tb cols⟩
  · exact rule_keeps fun _ _ _ _ _ _ tb _ _ _ cols _ => ⟨_, rfl, _, rfl, .dropIndex tb cols⟩

theorem dmlRules_keep : ∀ rule ∈ dmlRules, Keeps rule := by
  simp only [dmlRules, List.forall_mem_cons, List.not_mem_nil, false_implies, implies_true, and_true]
  refine ⟨?_, ?_, ?_, ?_⟩
  · exact rule_keeps fun _ _ _ _ _ _ tb _ _ _ _ vals _ => ⟨_, rfl, _, rfl, .insertStmt tb vals⟩
  · exact rule_keeps fun _ _ _ _ _ _ tb _ _ conds => ⟨_, rfl, _, rfl, .deleteStmt tb conds⟩
  · exact rule_keeps fun _ _ _ _ _ tb _ _ _ clauses _ _ conds =>
      ⟨_, rfl, _, rfl, .updateStmt tb clauses conds⟩
  · refine rule_keeps fun _ _ _ ts _ selector _ us _ tabs vs _ conds ws _ order => ⟨_, rfl, _, rfl, ?_⟩
    rw [← List.append_assoc us]
    exact .selectStmt selector tabs conds order

/-- The items of a list and what stands between them. -/
theorem listed_keeps {α : Type} {list item : Symbol} {seps : List Symbol} {get : SemValue → Option α}
    {set : SemValue → (List α → List α) → SemValue} (items : SemValue → List α) {R : List Token → α → Prop}
    {Sep : Token → Prop} (free : fixed list = none ∧ fixed item = none)
    (item_means : ∀ ts v, Means item ts v → ∃ a, get v = some a ∧ R ts a)
    (list_means : ∀ ts v, Means list ts v ↔ Listed R Sep ts (items v))
    (items_set : ∀ v f, items (set v f) = f (items v))
    (separates : ∀ sep ∈ seps, ∃ t, fixed sep = some t ∧ Sep t) :
    ∀ rule ∈ listed list item seps get set, Keeps rule := by
  refine List.forall_mem_cons.mpr ⟨?_, ?_⟩
  · refine rule_keeps fun above _ => ?_
    simp only [Under, free]
    intro us v means
    obtain ⟨a, got, rule⟩ := item_means us v means
    refine ⟨_, congrArg (Option.map _) got, (list_means _ _).mpr ?_⟩
    rw [items_set]
    exact .one rule
  · rintro _ member
    obtain ⟨sep, inside, rfl⟩ := List.mem_map.mp member
    obtain ⟨t, one, isSep⟩ := separates sep inside
    refine rule_keeps fun above _ => ?_
    simp only [Under, free, one]
    intro ts v means _ us v' means'
    obtain ⟨a, got, rule⟩ := item_means us v' means'
    refine ⟨_, congrArg (Option.map _) got, (list_means _ _).mpr ?_⟩
    rw [items_set]
    exact .more ((list_means _ _).mp means) isSep rule

theorem fieldListRules_keep : ∀ rule ∈ fieldListRules, Keeps rule :=
  listed_keeps SemValue.svFields ⟨rfl, rfl⟩ (fun _ _ means => means) (fun _ _ => Iff.rfl) (fun _ _ => rfl)
    (List.forall_mem_singleton.mpr ⟨_, rfl, rfl⟩)

theorem colNameListRules_keep : ∀ rule ∈ colNameListRules, Keeps rule :=
  listed_keeps SemValue.svStrs ⟨rfl, rfl⟩ (fun _ _ means => ⟨_, rfl, means⟩) (fun _ _ => Iff.rfl)
    (fun _ _ => rfl) (List.forall_mem_singleton.mpr ⟨_, rfl, rfl⟩)

theorem fieldRules_keep : ∀ rule ∈ fieldRules, Keeps rule := by
  refine List.forall_mem_singleton.mpr (rule_keeps ?_)
  rintro _ _ _ _ col ts v ⟨typeLen, got, rule⟩
  exact ⟨_, congrArg (Option.map _) got, _, rfl, .mk col rule⟩

theorem typeRules_keep : ∀ rule ∈ typeRules, Keeps rule := by
  simp only [typeRules, List.forall_mem_cons, List.not_mem_nil, false_implies, implies_true, and_true]
  refine ⟨?_, ?_, ?_⟩
  · exact rule_keeps fun _ _ _ => ⟨_, rfl, _, rfl, .int⟩
  · refine rule_keeps ?_
    rintro _ _ _ _ _ v ⟨text, rfl, number⟩ _
    refine ⟨_, rfl, _, rfl, ?_⟩
    change TypeRule _ ⟨.string, v.svInt⟩
    rw [number]
    exact .char text
  · exact rule_keeps fun _ _ _ => ⟨_, rfl, _, rfl, .float⟩

theorem valueListRules_keep : ∀ rule ∈ valueListRules, Keeps rule :=
  listed_keeps SemValue.svVals ⟨rfl, rfl⟩ (fun _ _ means => means) (fun _ _ => Iff.rfl) (fun _ _ => rfl)
    (List.forall_mem_singleton.mpr ⟨_, rfl, rfl⟩)

theorem valueRules_keep : ∀ rule ∈ valueRules, Keeps rule := by
  simp only [valueRules, List.forall_mem_cons, List.not_mem_nil, false_implies, implies_true, and_true]
  refine ⟨?_, ?_, ?_⟩
  · refine rule_keeps ?_
    rintro _ _ _ v ⟨text, rfl, number⟩
    refine ⟨_, rfl, _, rfl, ?_⟩
    change Parser.Value _ (.int v.svInt)
    rw [number]
    exact .int text
  · refine rule_keeps ?_
    rintro _ _ _ v ⟨text, rfl⟩
    exact ⟨_, rfl, _, rfl, .float text _⟩
  · refine rule_keeps ?_
    rintro _ _ _ v rfl
    exact ⟨_, rfl, _, rfl, .string _⟩

theorem conditionRules_keep : ∀ rule ∈ conditionRules, Keeps rule := by
  refine List.forall_mem_singleton.mpr (rule_keeps ?_)
  rintro above _ ts v ⟨lhs, left, col⟩ us w ⟨t, rfl, op⟩ us' w' ⟨rhs, right, expr⟩
  refine ⟨{ v with svCond := some ⟨lhs, w.svCompOp, rhs⟩ }, ?_, _, rfl, .mk col op expr⟩
  simp [left, right]

theorem optWhereClauseRules_keep : ∀ rule ∈ optWhereClauseRules, Keeps rule := by
  simp only [optWhereClauseRules, List.forall_mem_cons, List.not_mem_nil, false_implies, implies_true, and_true]
  refine ⟨?_, ?_⟩
  · refine rule_keeps fun above unused => ⟨_, rfl, ?_⟩
    change OptWhereClause [] (above.headD {}).svConds
    have none : (above.headD {}).svConds = [] := unused rfl
    rw [none]
    exact .none
  · exact rule_keeps fun _ _ _ _ _ conds => ⟨_, rfl, .some conds⟩

theorem whereClauseRules_keep : ∀ rule ∈ whereClauseRules, Keeps rule :=
  listed_keeps SemValue.svConds ⟨rfl, rfl⟩ (fun _ _ means => means) (fun _ _ => Iff.rfl) (fun _ _ => rfl)
    (List.forall_mem_singleton.mpr ⟨_, rfl, rfl⟩)

theorem colRules_keep : ∀ rule ∈ colRules, Keeps rule := by
  simp only [colRules, List.forall_mem_cons, List.not_mem_nil, false_implies, implies_true, and_true]
  refine ⟨?_, ?_⟩
  · exact rule_keeps fun _ _ _ _ tb _ _ _ col => ⟨_, rfl, _, rfl, .qualified tb col⟩
  · exact rule_keeps fun _ _ _ _ col => ⟨_, rfl, _, rfl, .bare col⟩

theorem colListRules_keep : ∀ rule ∈ colListRules, Keeps rule :=
  listed_keeps SemValue.svCols ⟨rfl, rfl⟩ (fun _ _ means => means) (fun _ _ => Iff.rfl) (fun _ _ => rfl)
    (List.forall_mem_singleton.mpr ⟨_, rfl, rfl⟩)

theorem opRules_keep : ∀ rule ∈ opRules, Keeps rule := by
  simp only [opRules, List.forall_mem_cons, List.not_mem_nil, false_implies, implies_true, and_true]
  refine ⟨?_, ?_, ?_, ?_, ?_, ?_⟩
  · exact rule_keeps fun _ _ _ => ⟨_, rfl, _, rfl, .eq⟩
  · exact rule_keeps fun _ _ _ => ⟨_, rfl, _, rfl, .lt⟩
  · exact rule_keeps fun _ _ _ => ⟨_, rfl, _, rfl, .gt⟩
  · exact rule_keeps fun _ _ _ => ⟨_, rfl, _, rfl, .ne⟩
  · exact rule_keeps fun _ _ _ => ⟨_, rfl, _, rfl, .le⟩
  · exact rule_keeps fun _ _ _ => ⟨_, rfl, _, rfl, .ge⟩

theorem exprRules_keep : ∀ rule ∈ exprRules, Keeps rule := by
  simp only [exprRules, List.forall_mem_cons, List.not_mem_nil, false_implies, implies_true, and_true]
  refine ⟨?_, ?_⟩
  · refine rule_keeps ?_
    rintro _ _ _ _ ⟨val, got, rule⟩
    exact ⟨_, congrArg (Option.map _) got, _, rfl, .value rule⟩
  · refine rule_keeps ?_
    rintro _ _ _ _ ⟨col, got, rule⟩
    exact ⟨_, congrArg (Option.map _) got, _, rfl, .col rule⟩

theorem setClausesRules_keep : ∀ rule ∈ setClausesRules, Keeps rule :=
  listed_keeps SemValue.svSetClauses ⟨rfl, rfl⟩ (fun _ _ means => means) (fun _ _ => Iff.rfl)
    (fun _ _ => rfl) (List.forall_mem_singleton.mpr ⟨_, rfl, rfl⟩)

theorem setClauseRules_keep : ∀ rule ∈ setClauseRules, Keeps rule := by
  refine List.forall_mem_singleton.mpr (rule_keeps ?_)
  rintro _ _ _ _ col _ _ _ ⟨val, got, rule⟩
  exact ⟨_, congrArg (Option.map _) got, _, rfl, .mk col rule⟩

theorem selectorRules_keep : ∀ rule ∈ selectorRules, Keeps rule := by
  simp only [selectorRules, List.forall_mem_cons, List.not_mem_nil, false_implies, implies_true, and_true]
  refine ⟨?_, ?_⟩
  · exact rule_keeps fun _ _ _ => ⟨_, rfl, .all⟩
  · exact copies_keeps (fun _ _ cols => .cols cols) rfl

theorem tableListRules_keep : ∀ rule ∈ tableListRules, Keeps rule :=
  listed_keeps SemValue.svStrs ⟨rfl, rfl⟩ (fun _ _ means => ⟨_, rfl, means⟩) (fun _ _ => Iff.rfl)
    (fun _ _ => rfl) (List.forall_mem_cons.mpr ⟨⟨_, rfl, .inl rfl⟩, List.forall_mem_singleton.mpr ⟨_, rfl, .inr rfl⟩⟩)

theorem optOrderClauseRules_keep : ∀ rule ∈ optOrderClauseRules, Keeps rule := by
  simp only [optOrderClauseRules, List.forall_mem_cons, List.not_mem_nil, false_implies, implies_true, and_true]
  refine ⟨?_, ?_⟩
  · refine rule_keeps ?_
    rintro _ _ _ _ _ v ⟨us, vs, col, dir, rfl, rule, order, got⟩
    refine ⟨_, rfl, ?_⟩
    change OptOrderClause _ v.svOrderby
    rw [got]
    exact .some rule order
  · refine rule_keeps fun above unused => ⟨_, rfl, ?_⟩
    change OptOrderClause [] (above.headD {}).svOrderby
    have none : (above.headD {}).svOrderby = .none := unused rfl
    rw [none]
    exact .none

theorem orderClauseRules_keep : ∀ rule ∈ orderClauseRules, Keeps rule := by
  refine List.forall_mem_singleton.mpr (rule_keeps ?_)
  rintro _ _ _ _ ⟨col, got, rule⟩ _ _ order
  exact ⟨_, congrArg (Option.map _) got, _, _, col, _, rfl, rule, order, rfl⟩

theorem optAscDescRules_keep : ∀ rule ∈ optAscDescRules, Keeps rule := by
  simp only [optAscDescRules, List.forall_mem_cons, List.not_mem_nil, false_implies, implies_true, and_true]
  refine ⟨?_, ?_, ?_⟩
  · exact rule_keeps fun _ _ _ => ⟨_, rfl, .asc⟩
  · exact rule_keeps fun _ _ _ => ⟨_, rfl, .desc⟩
  · exact rule_keeps fun _ _ => ⟨_, rfl, .default⟩

theorem nameRules_keep : ∀ rule ∈ nameRules, Keeps rule := by
  simp only [nameRules, List.forall_mem_cons, List.not_mem_nil, false_implies, implies_true, and_true]
  refine ⟨?_, ?_⟩
  · exact copies_keeps (fun _ _ means => means) rfl
  · exact copies_keeps (fun _ _ means => means) rfl

theorem rules_keep : ∀ rule ∈ rules, Keeps rule := by
  have each : ∀ group ∈ groups, ∀ rule ∈ group, Keeps rule := by
    simp only [groups, List.forall_mem_cons, List.not_mem_nil, false_implies, implies_true, and_true]
    exact ⟨startRules_keep, stmtRules_keep, txnStmtRules_keep, dbStmtRules_keep, ddlRules_keep, dmlRules_keep,
      fieldListRules_keep, colNameListRules_keep, fieldRules_keep, typeRules_keep, valueListRules_keep,
      valueRules_keep, conditionRules_keep, optWhereClauseRules_keep, whereClauseRules_keep, colRules_keep,
      colListRules_keep, opRules_keep, exprRules_keep, setClausesRules_keep, setClauseRules_keep, selectorRules_keep,
      tableListRules_keep, optOrderClauseRules_keep, orderClauseRules_keep, optAscDescRules_keep, nameRules_keep⟩
  intro rule member
  obtain ⟨group, inside, member⟩ := List.mem_flatten.mp member
  exact each group inside rule member

/-! What the actions leave as it was. -/

def Leaves {α : Type} (get : SemValue → α) (rule : Rule) : Prop :=
  ∀ slot vs v, rule.act slot vs = some (.inl v) → get v = get slot

theorem leaves_of_action {α : Type} {get : SemValue → α} {lhs : Symbol} {rhs : List Symbol}
    {action : SemValue → (Nat → SemValue) → Option SemValue}
    (same : ∀ slot a v, action slot a = some v → get v = get slot) : Leaves get (rule lhs rhs action) := by
  intro slot vs v acted
  obtain ⟨v', made, same'⟩ := Option.map_eq_some_iff.mp acted
  cases same'
  exact same slot _ _ made

theorem leaves_of_accepting {α : Type} {get : SemValue → α} {rhs : List Symbol}
    {parseTree : SemValue → Option TreeNode} :
    Leaves get (accepting rhs parseTree) := fun _ _ _ acted => nomatch acted

/-- Conditions and the order are written by the rules of their clauses alone. -/
theorem rules_leave : ∀ rule ∈ rules,
    (rule.lhs ∉ [.whereClause, .optWhereClause] → Leaves SemValue.svConds rule) ∧
      (rule.lhs ∉ [.orderClause, .optOrderClause] → Leaves SemValue.svOrderby rule) := by
  have each : ∀ group ∈ groups, ∀ rule ∈ group,
      (rule.lhs ∉ [.whereClause, .optWhereClause] → Leaves SemValue.svConds rule) ∧
        (rule.lhs ∉ [.orderClause, .optOrderClause] → Leaves SemValue.svOrderby rule) := by
    simp only [groups, startRules, stmtRules, txnStmtRules, dbStmtRules, ddlRules, dmlRules, fieldListRules,
      colNameListRules, fieldRules, typeRules, valueListRules, valueRules, conditionRules, optWhereClauseRules,
      whereClauseRules, colRules, colListRules, opRules, exprRules, setClausesRules, setClauseRules, selectorRules,
      tableListRules, optOrderClauseRules, orderClauseRules, optAscDescRules, nameRules, listed, copies, List.map_cons,
      List.map_nil, List.forall_mem_cons, List.not_mem_nil, false_implies, implies_true, and_true]
    and_intros
    all_goals intro other
    -- the rules of the clauses, those that accept, and those that set one field each
    all_goals first
      | exact absurd (by decide) other
      | exact leaves_of_accepting
      | refine leaves_of_action fun slot a v made => ?_
    all_goals simp only [Option.some.injEq, Option.map_eq_some_iff, Option.bind_eq_bind, Option.bind_eq_some_iff,
      Option.pure_def] at made
    all_goals first
      | (subst made; rfl)
      | (obtain ⟨_, _, rfl⟩ := made; rfl)
      | (obtain ⟨_, _, _, _, rfl⟩ := made; rfl)
  intro rule member
  obtain ⟨group, inside, member⟩ := List.mem_flatten.mp member
  exact each group inside rule member

theorem rules_end : ∀ rule ∈ rules, ∀ slot vs,
    match rule.act slot vs with
    | none => True
    | some (.inl _) => rule.lhs ≠ .start
    | some (.inr _) => rule.lhs = .start := by
  have each : ∀ group ∈ groups, ∀ yyrule ∈ group, (∃ lhs rhs action, lhs ≠ .start ∧ yyrule = rule lhs rhs action) ∨
      ∃ rhs parseTree, yyrule = accepting rhs parseTree := by
    simp only [groups, startRules, stmtRules, txnStmtRules, dbStmtRules, ddlRules, dmlRules, fieldListRules,
      colNameListRules, fieldRules, typeRules, valueListRules, valueRules, conditionRules, optWhereClauseRules,
      whereClauseRules, colRules, colListRules, opRules, exprRules, setClausesRules, setClauseRules, selectorRules,
      tableListRules, optOrderClauseRules, orderClauseRules, optAscDescRules, nameRules, listed, copies, List.map_cons,
      List.map_nil, List.forall_mem_cons, List.not_mem_nil, false_implies, implies_true, and_true]
    and_intros
    all_goals first
      | exact Or.inr ⟨_, _, rfl⟩
      | exact Or.inl ⟨_, _, _, by decide, rfl⟩
  intro yyrule member slot vs
  obtain ⟨group, inside, member⟩ := List.mem_flatten.mp member
  rcases each group inside yyrule member with ⟨lhs, rhs, action, inner, rfl⟩ | ⟨rhs, parseTree, rfl⟩
  · simp only [rule]
    cases action slot fun i => vs.getD (i - 1) {} with
    | none => trivial
    | some v => exact inner
  · rfl

end Rmdb.Yacc
