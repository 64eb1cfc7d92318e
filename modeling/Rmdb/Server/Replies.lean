import Rmdb.Server.Ddl
import Rmdb.Server.Dml
import Rmdb.Server.Projection

namespace Rmdb
open Analyze

/-! The reply to a statement that throws. -/

namespace ClientHandler
variable {N : Nat} {s : ClientHandler N} {strerror : String} {stmt : Ast.TreeNode} {query : Query}

/-- What is looked at after the analysis. -/
def executionChecks (s : ClientHandler N) : Ast.TreeNode → List Check
  | .createTable tabName fields => createChecks s.sys tabName fields
  | .dropTable tabName => [tableCheck s.sys.db tabName]
  | .descTable tabName => [tableCheck s.sys.db tabName]
  | .insertStmt tabName _ => [tableCheck s.sys.db tabName]
  | .updateStmt tabName _ conds => conds.flatMap (s.scanChecks tabName)
  | .deleteStmt tabName conds => conds.flatMap (s.scanChecks tabName)
  | .selectStmt cols tabs conds order => s.selectChecks cols tabs conds order
  | _ => []

/-- What a statement looks at, in order, with the lengths of the messages. -/
def checks (s : ClientHandler N) (stmt : Ast.TreeNode) : List Check :=
  analysisChecks s.sys.db stmt ++ s.executionChecks stmt

theorem execute_decides (short : strerror.length ≤ 1024) (valid : s.Valid) (small : stmt.room < BUFFER_LENGTH)
    (listed : ∀ cols tabs conds order, stmt = .selectStmt cols tabs conds order → tabs ≠ [])
    (analyzed : doAnalyze s.sys.db stmt = .ok query) :
    (∀ env, Stops (Error.Fits strerror) (s.execute env query stmt)) ↔ AllFit (s.executionChecks stmt) := by
  cases stmt with
  | createTable tabName fields =>
    refine Iff.trans (forall_congr' fun env => ?_) (createTable_decides short valid.agrees)
    exact throws_lift_iff
  | dropTable tabName =>
    refine Iff.trans (forall_congr' fun env => ?_) (dropTable_decides short valid.agrees)
    exact throws_lift_iff
  | descTable tabName =>
    have looked : Decides strerror [tableCheck s.sys.db tabName] (s.sys.db.getTable tabName) := getTable_decides
    rw [executionChecks, ← looked.ends]
    have each (env : Env) : Stops (Error.Fits strerror) (s.execute env query (.descTable tabName)) ↔
        Throws (Error.Fits strerror) (s.sys.db.getTable tabName) := Throws.bind_iff fun _ _ => trivial
    exact ⟨fun stops => (each default).mp (stops _), fun throws env => (each env).mpr throws⟩
  | insertStmt tabName vals => exact insert_decides short tabName vals
  | updateStmt tabName clauses conds => exact update_decides short valid small analyzed
  | deleteStmt tabName conds => exact delete_decides short valid small analyzed
  | selectStmt cols tabs conds order => exact select_decides short valid (listed _ _ _ _ rfl) small analyzed
  | txnBegin => exact iff_of_true (fun _ => Error.Plain.undefined.fits short) trivial
  | _ => exact iff_of_true (fun _ => trivial) trivial

/-- The call of a statement, with the analysis. -/
theorem handle_decides (short : strerror.length ≤ 1024) (valid : s.Valid) (small : stmt.room < BUFFER_LENGTH)
    (listed : ∀ cols tabs conds order, stmt = .selectStmt cols tabs conds order → tabs ≠ []) :
    s.RepliesFit strerror stmt ↔ AllFit (s.checks stmt) := by
  rw [repliesFit_iff short]
  refine (doAnalyze_decides short valid.wf stmt).stops_iff ⟨default⟩ fun query analyzed => ?_
  exact execute_decides short valid small listed analyzed

/-- The reply to a request fits exactly if the first thing that fails in it has a name that leaves room. -/
theorem repliesFit_iff_checks {c : Lexer.StartCondition} {request : List UInt8} (short : strerror.length ≤ 1024)
    (valid : s.Valid) (parsed : Parser.Parses c request stmt) (small : request.length < BUFFER_LENGTH) :
    s.RepliesFit strerror stmt ↔ AllFit (s.checks stmt) := by
  refine handle_decides short valid (parsed.room_le.trans_lt small) ?_
  rintro cols tabs conds order rfl
  exact parsed.tabs_ne_nil

/-! `DROP TABLE` in an empty database. -/

def opened : ClientHandler 1 := ⟨Database.openedDb, fun _ => none⟩

theorem opened_tabs : opened.sys.db.tabs = [] := by decide +kernel

theorem opened_valid : opened.Valid where
  agrees := Database.openedDb_reach.agrees
  wf t tab found := by
    rw [opened_tabs] at found
    cases found
  opened t tab found := by
    have stored := getTable_ok found
    rw [opened_tabs] at stored
    cases stored
  handles _ _ none := by cases none

/-- A name of `n + 1` letters. -/
def letters (n : Nat) : List UInt8 := List.replicate (n + 1) (Lexer.byte 'x')

def dropRequest (n : Nat) : List UInt8 := Lexer.bytes "drop table " ++ (letters n ++ Lexer.bytes ";")

section
open Lexer Flex

theorem identifier_letters (n : Nat) : identifier (letters n ++ bytes ";") = n + 1 := by
  have others : countWhile (fun b => b = byte '_' || isAlpha b || isDigit b)
      (List.replicate n (byte 'x') ++ bytes ";") = n := by
    rw [countWhile, List.takeWhile_append_of_pos fun b member => by rw [List.eq_of_mem_replicate member]; rfl]
    exact (congrArg List.length (List.append_nil _)).trans List.length_replicate
  rw [letters, List.replicate_succ, List.cons_append, identifier, others, Nat.add_comm]
  rfl

theorem pick_letters (n : Nat) :
    pick (scanner .initial) (letters n ++ bytes ";") = some (n + 1, .token .identifier) := by
  have split : scanner .initial =
    initialRules.take 38 ++ ⟨identifier, .token .identifier⟩ :: initialRules.drop 39 := rfl
  obtain ⟨b, rest, input⟩ : ∃ b rest, letters n ++ bytes ";" = byte 'x' :: b :: rest := by
    cases n with
    | zero => exact ⟨_, _, rfl⟩
    | succ n => exact ⟨_, _, rfl⟩
  have before : ((initialRules.take 38).all fun r => decide (r.longest (byte 'x' :: b :: rest) = 0)) = true := rfl
  have after : ((initialRules.drop 39).all fun r => decide (r.longest (byte 'x' :: b :: rest) ≤ 1)) = true := rfl
  rw [← input] at before after
  have longest := identifier_letters n
  have picked : pick (initialRules.take 38 ++ ⟨identifier, .token .identifier⟩ :: initialRules.drop 39)
      (letters n ++ bytes ";") = some (identifier (letters n ++ bytes ";"), .token .identifier) := by
    refine pick_of_longest (by simp only; omega) (fun r member => ?_) fun r member => ?_
    · have none := of_decide_eq_true (List.all_eq_true.mp before r member)
      simp only
      omega
    · have one := of_decide_eq_true (List.all_eq_true.mp after r member)
      simp only
      omega
  rw [split, picked, longest]

theorem tokens_drop (n : Nat) : (tokens scanner .initial (dropRequest n)).1 =
    [.keyword .drop, .keyword .table, .identifier (letters n)] ++ .op (byte ';') :: [] := by
  have named : ∃ rest, letters n ++ bytes ";" = byte 'x' :: rest ∧ rest.drop n = bytes ";" := by
    refine ⟨List.replicate n (byte 'x') ++ bytes ";", rfl, ?_⟩
    exact List.drop_left' List.length_replicate
  have picked := pick_letters n
  obtain ⟨rest, input, behind⟩ := named
  have text : (letters n ++ bytes ";").take (n + 1) = letters n := List.take_left' List.length_replicate
  rw [input] at picked text
  have drop : pick (scanner .initial) (bytes "drop table " ++ byte 'x' :: rest) =
    some (4, .token fun _ => .keyword .drop) := rfl
  have space : pick (scanner .initial) (bytes " table " ++ byte 'x' :: rest) = some (1, .ignore) := rfl
  have table : pick (scanner .initial) (bytes "table " ++ byte 'x' :: rest) =
    some (5, .token fun _ => .keyword .table) := rfl
  have space' : pick (scanner .initial) (bytes " " ++ byte 'x' :: rest) = some (1, .ignore) := rfl
  have semicolon : (tokens scanner .initial (bytes ";")).1 = [.op (byte ';')] := rfl
  have read : (tokens scanner .initial (byte 'x' :: rest)).1 = [.identifier (letters n), .op (byte ';')] := by
    rw [tokens_token picked, text, Nat.add_sub_cancel, behind, semicolon]
  rw [dropRequest, input]
  refine (tokens_token drop).trans (congrArg (_ :: ·) ?_)
  refine (tokens_ignore space).trans ((tokens_token table).trans (congrArg (_ :: ·) ?_))
  exact (tokens_ignore space').trans read

theorem length_dropRequest (n : Nat) : (dropRequest n).length = n + 13 := by
  have front : (bytes "drop table ").length = 11 := rfl
  have back : (bytes ";").length = 1 := rfl
  rw [dropRequest, List.length_append, List.length_append, letters, List.length_replicate, front, back]
  omega

theorem parses_drop (n : Nat) : Parser.Parses .initial (dropRequest n) (.dropTable (Parser.name (letters n))) :=
  .stmt (tokens_drop n) (.dropTable (.mk _ _))

end

theorem opened_drop_iff (short : strerror.length ≤ 1024) (n : Nat) :
    opened.RepliesFit strerror (.dropTable (Parser.name (letters n))) ↔ 24 + (n + 1) + 2 ≤ BUFFER_LENGTH := by
  have missing : ¬opened.sys.db.isTable (Parser.name (letters n)) = true := by
    rw [DbMeta.isTable, opened_tabs]
    exact Bool.false_ne_true
  have small : (Ast.TreeNode.dropTable (Parser.name (letters n))).room < BUFFER_LENGTH :=
    (by decide : 0 < BUFFER_LENGTH)
  rw [handle_decides short opened_valid small fun _ _ _ _ other => by cases other]
  change AllFit [tableCheck _ _] ↔ _
  rw [allFit_one, Check.Fits, tableCheck, or_iff_right missing, Parser.length_name, letters, List.length_replicate]

theorem repliesFit_iff_checks_drop : opened.RepliesFit "" (.dropTable (Parser.name (letters 0))) := by
  have small : (dropRequest 0).length < BUFFER_LENGTH := by
    rw [length_dropRequest]
    decide
  exact (repliesFit_iff_checks (by decide) opened_valid (parses_drop 0) small).mpr (allFit_one.mpr (Or.inr (by decide)))

/-- The longest request: the message names the table again, and its front is longer than that of the request. -/
theorem reply_overflows : opened.Valid ∧ (dropRequest 8178).length = BUFFER_LENGTH - 1 ∧
    Parser.Parses .initial (dropRequest 8178) (.dropTable (Parser.name (letters 8178))) ∧
      ¬opened.RepliesFit "" (.dropTable (Parser.name (letters 8178))) := by
  refine ⟨opened_valid, length_dropRequest 8178, parses_drop 8178, ?_⟩
  rw [opened_drop_iff (by decide)]
  decide

end ClientHandler

end Rmdb
