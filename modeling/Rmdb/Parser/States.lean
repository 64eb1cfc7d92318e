import Mathlib.Data.List.GetD
import Rmdb.Kit.Derives
import Rmdb.Parser.Yacc

namespace Rmdb.Yacc
open Ast Lexer Rmdb.Parser Lalr

/-! What the tables of `yyparse` have in common with its rules. -/

/-- The symbols of tokens. -/
def kinds : List Symbol := [
  .undef, .show, .tables, .create, .table, .drop, .desc, .insert, .into, .values, .delete, .from, .asc, .order, .by,
  .where, .update, .set, .select, .int, .char, .float, .index, .and, .join, .exit, .help, .txnBegin, .txnCommit,
  .txnAbort, .txnRollback, .leq, .neq, .geq, .tEof, .identifier, .valueString, .valueInt, .valueFloat, .semicolon,
  .lparen, .rparen, .comma, .dot, .eq, .lt, .gt, .star]

theorem kind_mem (t : Token) : kind t ∈ kinds := by
  cases t with
  | keyword k => cases k <;> decide
  | op c =>
    simp only [kind]
    split_ifs <;> decide
  | identifier => exact (by decide : Symbol.identifier ∈ kinds)
  | valueInt => exact (by decide : Symbol.valueInt ∈ kinds)
  | valueFloat => exact (by decide : Symbol.valueFloat ∈ kinds)
  | valueString => exact (by decide : Symbol.valueString ∈ kinds)
  | _ => decide

/-- The states that each state can stand on. -/
def belows : List (List Nat) := [
  [], [0], [0], [0], [0], [0], [0], [0], [0], [0], [0], [0], [0], [0], [0], [0], [], [0], [0], [0], [0], [0], [1],
  [2], [2], [3], [3], [4, 7, 23, 24, 25, 26, 29, 30, 49, 78, 79], [4], [5], [6], [7], [8, 48, 55, 95, 102, 118], [8],
  [8], [8], [8], [8, 48, 55, 95, 102, 118], [8, 48, 55, 95, 102, 118], [], [17], [23], [24], [25], [26], [29], [30],
  [31], [35], [36], [37], [41], [42], [44], [45], [46, 58, 62], [46], [47, 50, 51, 52, 53, 75, 82, 88], [47], [47],
  [47, 75], [48], [49], [49], [50], [51], [51], [51, 82], [52], [52, 53], [53], [54], [55], [55], [55, 95], [58],
  [58], [60], [62], [62], [62], [65], [65], [67], [67], [67], [67], [68], [68, 70], [70], [71, 77, 102, 113],
  [71, 77, 102, 113], [71, 77, 102, 113], [71], [71], [73], [74], [74], [74], [74], [74], [74], [74], [75], [77],
  [78], [79], [80], [80], [82], [84], [88], [93], [93], [95], [102], [102], [102], [107], [110], [113], [118], [118],
  [119], [121], [121], [121]]

/-- How many states there can be up to each one. -/
def ranks : List Nat := [
  0, 1, 1, 1, 1, 1, 1, 1, 1, 1, 1, 1, 1, 1, 1, 1, 0, 1, 1, 1, 1, 1, 2, 2, 2, 2, 2, 6, 2, 2, 2, 2, 10, 2, 2, 2, 2, 10,
  10, 0, 2, 3, 3, 3, 3, 3, 3, 3, 3, 3, 11, 4, 4, 4, 4, 5, 4, 12, 4, 4, 6, 4, 4, 4, 12, 5, 5, 7, 5, 5, 5, 5, 6, 6, 8,
  5, 5, 7, 5, 5, 5, 6, 6, 8, 8, 8, 8, 6, 6, 6, 10, 10, 10, 6, 6, 7, 9, 9, 9, 9, 9, 9, 9, 6, 8, 6, 6, 6, 6, 7, 9, 7,
  7, 7, 8, 10, 10, 10, 7, 10, 8, 8, 8, 11, 9, 9, 9]

def below (yystate : Nat) : List Nat := belows.getD yystate []

def rank (yystate : Nat) : Nat := ranks.getD yystate 0

/-- All symbols, by their numbers. -/
def allSymbols : List Symbol := [
  .eof, .error, .undef, .show, .tables, .create, .table, .drop, .desc, .insert, .into, .values, .delete, .from, .asc,
  .order, .by, .where, .update, .set, .select, .int, .char, .float, .index, .and, .join, .exit, .help, .txnBegin,
  .txnCommit, .txnAbort, .txnRollback, .orderBy, .leq, .neq, .geq, .tEof, .identifier, .valueString, .valueInt,
  .valueFloat, .semicolon, .lparen, .rparen, .comma, .dot, .eq, .lt, .gt, .star, .accept, .start, .stmt, .txnStmt,
  .dbStmt, .ddl, .dml, .fieldList, .colNameList, .field, .type, .valueList, .value, .condition, .optWhereClause,
  .whereClause, .col, .colList, .op, .expr, .setClauses, .setClause, .selector, .tableList, .optOrderClause,
  .orderClause, .optAscDesc, .tbName, .colName]

theorem allSymbols_eq (X : Symbol) : allSymbols[X.ctorIdx]? = some X := by cases X <;> rfl

def symbol (yystate : Nat) : Symbol := allSymbols.getD (yystos.getD yystate 0) .undef

def YYNSTATES : Nat := 127

theorem below_lt (s : Nat) : ∀ p ∈ below s, s < YYNSTATES := by
  intro p member
  by_contra outside
  have none : below s = [] := List.getD_eq_default _ _ (Nat.le_of_not_lt outside)
  rw [none] at member
  cases member

theorem ranked : ∀ s < YYNSTATES, ∀ p ∈ below s, rank p < rank s ∧ rank s ≤ 12 ∧ s ≠ YYFINAL ∧ s ≠ 0 := by
  decide +kernel

def weight : Symbol → Nat
  | .identifier => 6
  | .valueString | .valueInt | .valueFloat | .tbName | .setClause => 5
  | .value | .setClauses | .tableList | .colName => 4
  | .condition | .col => 3
  | .int | .float | .txnBegin | .txnCommit | .txnAbort | .txnRollback | .optWhereClause | .whereClause | .expr => 2
  | .tables | .desc | .asc | .leq | .neq | .geq | .eq | .lt | .gt | .star | .txnStmt | .dbStmt | .ddl | .dml | .field
  | .type | .colList => 1
  | _ => 0

/-- The symbols that are not on the stack before the conditions are read; the last are those of whole statements. -/
def condsMarked (X : Symbol) : Bool := X ∈ [.whereClause, .optWhereClause, .dml, .stmt, .start, .accept]

/-- The symbols that are not on the stack before the order is read. -/
def orderMarked (X : Symbol) : Bool := X ∈ [.orderClause, .optOrderClause, .dml, .stmt, .start, .accept]

/-- What an empty rule needs of what it finds in its slot. -/
def Unused (lhs : Symbol) (slot : SemValue) : Prop :=
  match lhs with
  | .optWhereClause => slot.svConds = []
  | .optOrderClause => slot.svOrderby = none
  | _ => True

/-- Whether no marked symbol is below an empty clause. -/
def unmarked (lhs : Symbol) (yystate : Nat) : Bool :=
  match lhs with
  | .optWhereClause => chains below (fun s => !condsMarked (symbol s)) 12 yystate
  | .optOrderClause => chains below (fun s => !orderMarked (symbol s)) 12 yystate
  | _ => true

/-- Whether what the state does before the token fits the rules. -/
def fits (yystate : Nat) (yytoken : Symbol) : Bool :=
  match tables.move yystate yytoken with
  | none => true
  | some (.shift s) => yystate ∈ below s && symbol s = yytoken
  | some (.reduce r) =>
    match yyrule r with
    | none => false
    | some rule => (rule.lhs = .start || weight rule.lhs + 1 < weight (symbol yystate) + rule.rhs.length) &&
        (rule.rhs ≠ [] || unmarked rule.lhs yystate) &&
        pops below symbol (fun p => if rule.lhs = .start then p == 0
          else p ∈ below (goto p rule.lhs) && symbol (goto p rule.lhs) = rule.lhs) rule.rhs.reverse yystate

theorem fits_asking : ∀ s < YYNSTATES, asks s = true → ∀ k ∈ kinds, fits s k = true := by decide +kernel

theorem fits_quiet : ∀ s < YYNSTATES, asks s = false → fits s .undef = true := by decide +kernel

theorem fits_all {s : Nat} (inside : s < YYNSTATES) {k : Symbol} (token : k ∈ kinds) : ∃ k', fits s k' = true ∧
    tables.move s k = tables.move s k' ∧ ∀ s', tables.move s k = some (.shift s') → k' = k := by
  cases asked : asks s with
  | true => exact ⟨k, fits_asking s inside asked k token, rfl, fun _ _ => rfl⟩
  | false =>
    have quiet : tables.asks s = false := asked
    refine ⟨.undef, fits_quiet s inside asked, ?_, fun s' shifted => ?_⟩
    · rw [Tables.move_of_quiet quiet, Tables.move_of_quiet quiet]
    · rw [Tables.move_of_quiet quiet] at shifted
      simp at shifted

theorem fits_reduce {s : Nat} (inside : s < YYNSTATES) {k : Symbol} (token : k ∈ kinds) {r : Nat}
    (moved : tables.move s k = some (.reduce r)) : ∃ rule, yyrule r = some rule ∧
      (rule.lhs ≠ .start → weight rule.lhs + 1 < weight (symbol s) + rule.rhs.length) ∧
      (rule.rhs = [] → unmarked rule.lhs s = true) ∧
      pops below symbol (fun p => if rule.lhs = .start then p == 0
        else p ∈ below (goto p rule.lhs) && symbol (goto p rule.lhs) = rule.lhs) rule.rhs.reverse s = true := by
  obtain ⟨k', checked, same, _⟩ := fits_all inside token
  rw [same] at moved
  unfold fits at checked
  rw [moved] at checked
  cases found : yyrule r with
  | none => simp [found] at checked
  | some rule =>
    simp only [found, Bool.and_eq_true, Bool.or_eq_true, decide_eq_true_eq] at checked
    exact ⟨rule, rfl, checked.1.1.resolve_left, fun empty => checked.1.2.resolve_left fun full => full empty, checked.2⟩

def frame : Frame tables where
  start := .start
  kinds := kinds
  count := YYNSTATES
  below := below
  symbol := symbol
  rank := rank
  height := 12
  stop_mem := by decide
  shifts := by
    intro s inside k token s' moved
    obtain ⟨k', checked, same, only⟩ := fits_all inside token
    obtain rfl := only s' moved
    simpa [fits, moved] using checked
  reduces := by
    intro s inside k token r moved
    obtain ⟨rule, found, _, _, popped⟩ := fits_reduce inside token moved
    exact ⟨rule.toRule, congrArg (Option.map Rule.toRule) found, popped⟩
  inside := below_lt
  ranked := ranked
  first := by decide
  deep := by decide

theorem stop_ok : ∀ s < YYNSTATES,
    (match tables.move s .tEof with
      | some (.shift s') => !asks s' && (match default s' with
        | none => false
        | some r => match yyrule r with
          | none => false
          | some rule => rule.lhs = .start)
      | _ => true) = true := by
  decide +kernel

def weights : Weights frame where
  weight := weight
  cost := 8
  shift := by decide +kernel
  reduce := by
    intro s inside k token r moved rule found inner
    obtain ⟨rule', found', less, _⟩ := fits_reduce inside token moved
    have same : tables.rule r = some rule'.toRule := congrArg (Option.map Rule.toRule) found'
    cases same.symm.trans found
    exact less inner
  stop := by
    intro s inside s' moved
    have checked := stop_ok s inside
    have moved' : tables.move s .tEof = some (.shift s') := moved
    rw [moved'] at checked
    cases only : default s' with
    | none => simp [only] at checked
    | some r =>
      cases found : yyrule r with
      | none => simp [only, found] at checked
      | some rule =>
        simp only [only, found, Bool.and_eq_true, Bool.not_eq_true', decide_eq_true_eq] at checked
        exact ⟨checked.1, r, rule.toRule, only, congrArg (Option.map Rule.toRule) found, checked.2⟩

/-! Where the left-hand sides start. -/

def first : Symbol → List Symbol
  | .accept | .start => [.show, .create, .drop, .desc, .insert, .delete, .update, .select, .txnBegin, .txnCommit,
    .txnAbort, .txnRollback, .help, .exit, .tEof]
  | .stmt => [.show, .create, .drop, .desc, .insert, .delete, .update, .select, .txnBegin, .txnCommit, .txnAbort,
    .txnRollback]
  | .txnStmt => [.txnBegin, .txnCommit, .txnAbort, .txnRollback]
  | .dbStmt => [.show]
  | .ddl => [.create, .drop, .desc]
  | .dml => [.insert, .delete, .update, .select]
  | .type => [.int, .char, .float]
  | .valueList | .value => [.valueInt, .valueFloat, .valueString]
  | .optWhereClause => [.where]
  | .op => [.eq, .lt, .gt, .neq, .leq, .geq]
  | .expr => [.identifier, .valueInt, .valueFloat, .valueString]
  | .selector => [.identifier, .star]
  | .optOrderClause => [.order]
  | .optAscDesc => [.asc, .desc]
  | .fieldList | .colNameList | .field | .condition | .whereClause | .col | .colList | .setClauses | .setClause
  | .tableList | .orderClause | .tbName | .colName => [.identifier]
  | k => [k]

/-- What can stand behind a left-hand side; behind a whole statement it is not looked at. -/
def follow : Symbol → List Symbol
  | .start => kinds
  | .stmt | .txnStmt | .dbStmt | .ddl | .dml | .optOrderClause | .orderClause | .optAscDesc => [.semicolon]
  | .fieldList | .colNameList | .field | .type | .valueList => [.rparen, .comma]
  | .value => [.order, .where, .and, .semicolon, .rparen, .comma]
  | .condition | .whereClause | .expr => [.order, .and, .semicolon]
  | .optWhereClause => [.order, .semicolon]
  | .col => [.desc, .from, .asc, .order, .and, .leq, .neq, .geq, .semicolon, .comma, .eq, .lt, .gt]
  | .colList => [.from, .comma]
  | .op => [.identifier, .valueString, .valueInt, .valueFloat]
  | .setClauses | .setClause => [.where, .semicolon, .comma]
  | .selector => [.from]
  | .tableList => [.order, .where, .join, .semicolon, .comma]
  | .tbName => [.values, .order, .where, .set, .join, .semicolon, .lparen, .comma, .dot]
  | .colName => [.desc, .from, .asc, .order, .int, .char, .float, .and, .leq, .neq, .geq, .semicolon, .rparen, .comma,
    .eq, .lt, .gt]
  | _ => []

def nullable : Symbol → Bool
  | .optWhereClause | .optOrderClause | .optAscDesc => true
  | _ => false

/-- Whether the symbol can start in the state. -/
def starts (yystate : Nat) (X : Symbol) : Bool :=
  yystate = 0 && X = .start || yystate ∈ below (goto yystate X) && symbol (goto yystate X) = X

def guide : Guide frame where
  rules := rules.length + 1
  starts := starts
  first := first
  follow := follow
  nullable := nullable

theorem yyrule_of_rule {r : Nat} {rule : Lalr.Rule Symbol} (found : tables.rule r = some rule) :
    ∃ rule', yyrule r = some rule' ∧ rule'.toRule = rule := Option.map_eq_some_iff.mp found

theorem mem_of_yyrule {r : Nat} {rule : Rule} (found : yyrule r = some rule) :
    rule ∈ rules ∧ r < rules.length + 1 := by
  unfold yyrule at found
  split at found
  · cases found
  · obtain ⟨inside, rfl⟩ := List.getElem?_eq_some_iff.mp found
    exact ⟨List.getElem_mem inside, by omega⟩

theorem lhs_ok : ∀ rule ∈ rules, rule.lhs ∉ kinds := by decide +kernel

theorem firsts_ok : ∀ rule ∈ rules, (∀ k ∈ guide.firsts rule.rhs [], k ∈ first rule.lhs) ∧
    (rule.rhs.all nullable = true → nullable rule.lhs = true) := by
  decide +kernel

def readyAt (r : Nat) (rule : Rule) (yystate : Nat) : Bool :=
  guide.ready (guide.looks yystate r rule.toRule) rule.rhs yystate

theorem starts_ok : ∀ r < rules.length + 1,
    (match yyrule r with
      | none => true
      | some rule => (rule.lhs ≠ .start || readyAt r rule 0) &&
        (List.range YYNSTATES).all fun q => symbol q ≠ rule.lhs || (below q).all (readyAt r rule)) = true := by
  decide +kernel

theorem guide_valid : guide.Valid where
  bounded := by
    intro r rule found
    obtain ⟨rule', found', rfl⟩ := yyrule_of_rule found
    obtain ⟨member, bound⟩ := mem_of_yyrule found'
    exact ⟨bound, lhs_ok rule' member⟩
  kinds := by decide +kernel
  firsts := by
    intro r rule found
    obtain ⟨rule', found', rfl⟩ := yyrule_of_rule found
    exact firsts_ok rule' (mem_of_yyrule found').1
  starts := by
    intro s r rule found start
    obtain ⟨rule', found', rfl⟩ := yyrule_of_rule found
    have checked := starts_ok r (mem_of_yyrule found').2
    simp only [found', Bool.and_eq_true, Bool.or_eq_true, decide_eq_true_eq, List.all_eq_true, List.mem_range]
      at checked
    have begins : starts s rule'.lhs = true := start
    simp only [starts, Bool.or_eq_true, Bool.and_eq_true, decide_eq_true_eq] at begins
    rcases begins with ⟨rfl, whole⟩ | ⟨stands, named⟩
    · exact checked.1.resolve_left fun inner => inner whole
    · exact (checked.2 _ (below_lt _ s stands)).resolve_left (fun other => other named) s stands

end Rmdb.Yacc
