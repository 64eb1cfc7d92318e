import Rmdb.Kit.Flex

namespace Rmdb.Lexer
open Flex

/-! The rules of `lex.l`. -/

inductive StartCondition
  | initial
  | comment
  deriving DecidableEq, Repr

inductive Keyword
  | show
  | txnBegin
  | txnCommit
  | txnAbort
  | txnRollback
  | tables
  | create
  | table
  | drop
  | desc
  | insert
  | into
  | values
  | delete
  | from
  | where
  | update
  | set
  | select
  | int
  | char
  | float
  | index
  | and
  | join
  | exit
  | help
  | order
  | by
  | asc
  deriving DecidableEq, Repr

/-- The tokens other than `T_EOF`. Literals keep their text. -/
inductive Token
  | keyword (k : Keyword)
  | geq
  | leq
  | neq
  | op (c : UInt8)
  | identifier (text : List UInt8)
  | valueInt (text : List UInt8)
  | valueFloat (text : List UInt8)
  | valueString (text : List UInt8)
  deriving DecidableEq, Repr

def byte (c : Char) : UInt8 := UInt8.ofNat c.toNat

def bytes (s : String) : List UInt8 := s.toList.map byte

def isDigit (b : UInt8) : Bool := byte '0' ≤ b && b ≤ byte '9'

def isAlpha (b : UInt8) : Bool := (byte 'a' ≤ b && b ≤ byte 'z') || (byte 'A' ≤ b && b ≤ byte 'Z')

def lower (b : UInt8) : UInt8 := if byte 'A' ≤ b && b ≤ byte 'Z' then b + 32 else b

def countWhile (p : UInt8 → Bool) (input : List UInt8) : Nat := (input.takeWhile p).length

/-- A fixed text; the scanner is caseless. -/
def literal (s : String) (input : List UInt8) : Nat :=
  if ((bytes s).map lower).isPrefixOf (input.map lower) then (bytes s).length else 0

/-- `"--".*`, to the end of the line. -/
def lineComment (input : List UInt8) : Nat :=
  if (bytes "--").isPrefixOf input then countWhile (· ≠ byte '\n') input else 0

def whiteSpace (input : List UInt8) : Nat := countWhile (fun b => b = byte ' ' || b = byte '\t') input

def newLine : List UInt8 → Nat
  | a :: b :: _ => if a = byte '\r' && b = byte '\n' then 2 else if a = byte '\r' || a = byte '\n' then 1 else 0
  | [a] => if a = byte '\r' || a = byte '\n' then 1 else 0
  | [] => 0

def singleOp : List UInt8 → Nat
  | a :: _ => if a ∈ bytes ";(),*=><." then 1 else 0
  | [] => 0

def identifier : List UInt8 → Nat
  | a :: rest => if isAlpha a then 1 + countWhile (fun b => b = byte '_' || isAlpha b || isDigit b) rest else 0
  | [] => 0

/-- The optional sign of a number. -/
def signLen : List UInt8 → Nat
  | a :: _ => if a = byte '+' || a = byte '-' then 1 else 0
  | [] => 0

def valueInt (input : List UInt8) : Nat :=
  let digits := countWhile isDigit (input.drop (signLen input))
  if digits = 0 then 0 else signLen input + digits

def valueFloat (input : List UInt8) : Nat :=
  match input.drop (valueInt input) with
  | a :: rest => if valueInt input ≠ 0 && a = byte '.' then valueInt input + 1 + countWhile isDigit rest else 0
  | [] => 0

def valueString : List UInt8 → Nat
  | a :: rest =>
    if a = byte '\'' && (rest.contains (byte '\'')) then 2 + countWhile (· ≠ byte '\'') rest else 0
  | [] => 0

/-- `.` -/
def anyChar : List UInt8 → Nat
  | a :: _ => if a = byte '\n' then 0 else 1
  | [] => 0

/-- `[^*]` -/
def notStar : List UInt8 → Nat
  | a :: _ => if a = byte '*' then 0 else 1
  | [] => 0

def keywords : List (String × Keyword) := [
  ("SHOW", .show), ("BEGIN", .txnBegin), ("COMMIT", .txnCommit), ("ABORT", .txnAbort), ("ROLLBACK", .txnRollback),
  ("TABLES", .tables), ("CREATE", .create), ("TABLE", .table), ("DROP", .drop), ("DESC", .desc), ("INSERT", .insert),
  ("INTO", .into), ("VALUES", .values), ("DELETE", .delete), ("FROM", .from), ("WHERE", .where), ("UPDATE", .update),
  ("SET", .set), ("SELECT", .select), ("INT", .int), ("CHAR", .char), ("FLOAT", .float), ("INDEX", .index),
    ("AND", .and),
  ("JOIN", .join), ("EXIT", .exit), ("HELP", .help), ("ORDER", .order), ("BY", .by), ("ASC", .asc)]

/-- The rules outside a comment. An unexpected character is only reported. -/
def initialRules : List (Rule StartCondition Token) :=
  [⟨literal "/*", .begin .comment⟩, ⟨lineComment, .ignore⟩, ⟨whiteSpace, .ignore⟩, ⟨newLine, .ignore⟩] ++
    keywords.map (fun (text, k) => ⟨literal text, .token fun _ => .keyword k⟩) ++
    [⟨literal ">=", .token fun _ => .geq⟩, ⟨literal "<=", .token fun _ => .leq⟩, ⟨literal "<>", .token fun _ => .neq⟩,
      ⟨singleOp, .token fun text => .op (text.headD 0)⟩, ⟨identifier, .token .identifier⟩, ⟨valueInt, .token .valueInt⟩,
      ⟨valueFloat, .token .valueFloat⟩, ⟨valueString, .token fun text => .valueString ((text.drop 1).dropLast)⟩,
      ⟨anyChar, .ignore⟩]

def commentRules : List (Rule StartCondition Token) :=
  [⟨literal "*/", .begin .initial⟩, ⟨notStar, .ignore⟩, ⟨literal "*", .ignore⟩]

def scanner : Scanner StartCondition Token
  | .initial => initialRules
  | .comment => commentRules

/-- A comment has no tokens. -/
theorem tokens_initial (c : StartCondition) : ∀ rule ∈ scanner c, ∀ f, rule.action = .token f → c = .initial := by
  intro rule member f action
  cases c with
  | initial => rfl
  | comment =>
    simp only [scanner, commentRules, List.mem_cons, List.not_mem_nil, or_false] at member
    rcases member with rfl | rfl | rfl
    · cases action
    · cases action
    · cases action

end Rmdb.Lexer
