import Rmdb.Parser.Ast
import Rmdb.Parser.Lexer

namespace Rmdb.Lexer
open Flex

/-! The requests of all clients go through one scanner: `yy_scan_string` gives it a new
buffer, `yyparse` takes tokens from it, `yy_delete_buffer` drops what is left. The start
condition stays. -/

/-- What `yyparse` leaves: nothing after a syntax error, else `parse_tree`, which may be null. -/
abbrev ParseResult := Option (Option Ast.TreeNode)

/-- The start condition a server has after these requests. -/
def after (P : Parser Token ParseResult) (history : List (List UInt8)) : StartCondition :=
  afterAll scanner P .initial history

/-- A request without a block comment that is never closed. -/
def Terminated (request : List UInt8) : Prop := (tokens scanner .initial request).2 = .initial

instance (request : List UInt8) : Decidable (Terminated request) := inferInstanceAs (Decidable (_ = _))

/-- A semicolon is a token outside a comment only. -/
theorem semicolon_tells {c c' : StartCondition}
    (same : (tokens scanner c (bytes ";")).1 = (tokens scanner c' (bytes ";")).1) :
    c = c' := by
  cases c with
  | initial =>
    cases c' with
    | initial => rfl
    | comment => exact absurd same (by decide)
  | comment =>
    cases c' with
    | initial => exact absurd same (by decide)
    | comment => rfl

theorem after_terminated {P : Parser Token ParseResult} {history : List (List UInt8)}
    (closed : ∀ request ∈ history, Terminated request) : after P history = .initial :=
  afterAll_base tokens_initial closed

/-- When requests are independent of those before them. After histories without a comment
left open, every request is read alike; and two histories are told apart by some request
exactly if one leaves the scanner inside a comment and the other does not. -/
theorem requests_independent (P : Parser Token ParseResult) (h h' : List (List UInt8)) :
    ((∀ request ∈ h ++ h', Terminated request) →
      ∀ r, (tokens scanner (after P h) r).1 = (tokens scanner (after P h') r).1 ∧
        (parse scanner P (after P h) r).1 = (parse scanner P (after P h') r).1) ∧
      ((∀ r, (tokens scanner (after P h) r).1 = (tokens scanner (after P h') r).1 ∧
        (parse scanner P (after P h) r).1 = (parse scanner P (after P h') r).1) ↔ after P h = after P h') := by
  refine ⟨?_, ?_, ?_⟩
  · intro closed r
    have first := after_terminated (P := P) fun request member => closed request (List.mem_append_left h' member)
    have second := after_terminated (P := P) fun request member => closed request (List.mem_append_right h member)
    rw [first, second]
    exact ⟨rfl, rfl⟩
  · intro same
    exact semicolon_tells (same (bytes ";")).1
  · intro same r
    rw [same]
    exact ⟨rfl, rfl⟩

/-- What the generated parser does on `show tables;` and on an empty request. -/
def showTables : Parser Token ParseResult where
  State := Nat
  start := 0
  step q t :=
    if q = 0 ∧ t = .keyword .show then .inl 1
    else if q = 1 ∧ t = .keyword .tables then .inl 2
    else if q = 2 ∧ t = .op (byte ';') then .inr (some (some .showTables))
    else .inr none
  atEof q := if q = 0 then some none else none

theorem requests_independent_closed : Terminated (bytes "/* x */ exit") ∧
    (parse scanner showTables (after showTables [bytes "/* x */ exit"]) (bytes "show tables;")).1 =
      (parse scanner showTables (after showTables []) (bytes "show tables;")).1 :=
  ⟨by decide, ((requests_independent showTables [bytes "/* x */ exit"] []).1 (by decide) _).2⟩

/-- One client leaves a comment open, and the next request of any client is not read. -/
theorem requests_interfere : ¬∀ (P : Parser Token ParseResult) (h h' : List (List UInt8)) (r : List UInt8),
    (tokens scanner (after P h) r).1 = (tokens scanner (after P h') r).1 ∧
      (parse scanner P (after P h) r).1 = (parse scanner P (after P h') r).1 := by
  intro independent
  have same := (independent showTables [bytes "/* x"] [] (bytes "show tables;")).2
  exact absurd same (by decide)

end Rmdb.Lexer
