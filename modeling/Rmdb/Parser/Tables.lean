import Rmdb.Kit.Lalr
import Rmdb.Parser.Lexer

namespace Rmdb.Yacc
open Lexer

/-! The tables of `yacc.tab.cpp`. -/

/-- `yysymbol_kind_t` -/
inductive Symbol
  | eof
  | error
  | undef
  | show
  | tables
  | create
  | table
  | drop
  | desc
  | insert
  | into
  | values
  | delete
  | from
  | asc
  | order
  | by
  | where
  | update
  | set
  | select
  | int
  | char
  | float
  | index
  | and
  | join
  | exit
  | help
  | txnBegin
  | txnCommit
  | txnAbort
  | txnRollback
  | orderBy
  | leq
  | neq
  | geq
  | tEof
  | identifier
  | valueString
  | valueInt
  | valueFloat
  | semicolon
  | lparen
  | rparen
  | comma
  | dot
  | eq
  | lt
  | gt
  | star
  | accept
  | start
  | stmt
  | txnStmt
  | dbStmt
  | ddl
  | dml
  | fieldList
  | colNameList
  | field
  | type
  | valueList
  | value
  | condition
  | optWhereClause
  | whereClause
  | col
  | colList
  | op
  | expr
  | setClauses
  | setClause
  | selector
  | tableList
  | optOrderClause
  | orderClause
  | optAscDesc
  | tbName
  | colName
  deriving DecidableEq, Repr

def YYFINAL : Nat := 39

def YYLAST : Int := 112

def YYNTOKENS : Nat := 51

def YYPACT_NINF : Int := -75

def YYINITDEPTH : Nat := 200

/-- Where the part of a state starts in `yytable`. -/
def yypact : List Int := [
  42, 21, 5, 8, -2, 32, 31, -2, -26, -75, -75, -75, -75, -75, -75, -75, 52, 6, -75, -75, -75, -75, -75, -2, -2, -2,
  -2, -75, -75, -2, -2, 34, 13, -75, -75, 16, 55, 39, -75, -75, -75, 43, 44, -75, 45, 78, 73, 53, 54, -2, 53, 53,
  53, 53, 50, 54, -75, -75, -4, -75, 51, -75, -7, -75, -75, -11, -75, -5, 22, -75, 33, 24, -75, 74, 48, 53, -75,
  24, -2, -2, 85, -75, 53, -75, 58, -75, -75, -75, 53, -75, -75, -75, -75, 36, -75, 54, -75, -75, -75, -75, -75,
  -75, 17, -75, -75, -75, -75, 86, -75, -75, 63, -75, -75, 24, -75, -75, -75, -75, 54, 60, -75, 1, -75, -75, -75,
  -75, -75]

/-- The rule to reduce if `yytable` has nothing else; 0 is an error. -/
def yydefact : List Nat := [
  0, 0, 0, 0, 0, 0, 0, 0, 0, 4, 3, 10, 11, 12, 13, 5, 0, 0, 9, 6, 7, 8, 14, 0, 0, 0, 0, 68, 17, 0, 0, 0, 69, 57,
  44, 58, 0, 0, 43, 1, 2, 0, 0, 16, 0, 0, 38, 0, 0, 0, 0, 0, 0, 0, 0, 0, 21, 69, 38, 54, 0, 45, 38, 59, 42, 0, 24,
  0, 0, 26, 0, 0, 40, 39, 0, 0, 22, 0, 0, 0, 63, 15, 0, 29, 0, 31, 28, 18, 0, 19, 36, 34, 35, 0, 32, 0, 50, 49, 51,
  46, 47, 48, 0, 55, 56, 61, 60, 0, 23, 25, 0, 27, 20, 0, 41, 52, 53, 37, 0, 0, 33, 67, 62, 30, 66, 65, 64]

def yypgoto : List Int := [
  -75, -75, -75, -75, -75, -75, -75, -75, 56, 23, -75, -75, -74, 11, -27, -75, -8, -75, -75, -75, -75, 37, -75,
  -75, -75, -75, -75, -3, -45]

def yydefgoto : List Nat := [
  0, 16, 17, 18, 19, 20, 21, 65, 68, 66, 86, 93, 94, 72, 56, 73, 74, 35, 102, 117, 58, 59, 36, 62, 108, 122, 126,
  37, 38]

/-- A state to shift to, or the negative of a rule to reduce. -/
def yytable : List Int := [
  34, 28, 60, 104, 31, 64, 67, 69, 69, 124, 55, 23, 32, 55, 25, 125, 83, 84, 85, 78, 41, 42, 43, 44, 33, 22, 45,
  46, 115, 24, 60, 76, 26, 81, 82, 80, 27, 67, 79, 120, 61, 75, 29, 111, 30, 1, 63, 2, 40, 3, 4, 5, 39, 47, 6, 32,
  90, 91, 92, -68, 7, 48, 8, 90, 91, 92, 87, 88, 49, 9, 10, 11, 12, 13, 14, 105, 106, 89, 88, 15, 112, 113, 96, 97,
  98, 50, 51, 52, 53, 54, 55, 57, 32, 71, 116, 99, 100, 101, 77, 95, 107, 110, 118, 119, 123, 109, 114, 0, 0, 70,
  121, 0, 103]

def yycheck : List Int := [
  8, 4, 47, 77, 7, 50, 51, 52, 53, 8, 17, 6, 38, 17, 6, 14, 21, 22, 23, 26, 23, 24, 25, 26, 50, 4, 29, 30, 102, 24,
  75, 58, 24, 44, 45, 62, 38, 82, 45, 113, 48, 45, 10, 88, 13, 3, 49, 5, 42, 7, 8, 9, 0, 19, 12, 38, 39, 40, 41,
  46, 18, 45, 20, 39, 40, 41, 44, 45, 13, 27, 28, 29, 30, 31, 32, 78, 79, 44, 45, 37, 44, 45, 34, 35, 36, 46, 43,
  43, 43, 11, 17, 38, 38, 43, 102, 47, 48, 49, 47, 25, 15, 43, 16, 40, 44, 82, 95, -1, -1, 53, 118, -1, 75]

/-- The symbol of each state. -/
def yystos : List Nat := [
  0, 3, 5, 7, 8, 9, 12, 18, 20, 27, 28, 29, 30, 31, 32, 37, 52, 53, 54, 55, 56, 57, 4, 6, 24, 6, 24, 38, 78, 10,
  13, 78, 38, 50, 67, 68, 73, 78, 79, 0, 42, 78, 78, 78, 78, 78, 78, 19, 45, 13, 46, 43, 43, 43, 11, 17, 65, 38,
  71, 72, 79, 67, 74, 78, 79, 58, 60, 79, 59, 79, 59, 43, 64, 66, 67, 45, 65, 47, 26, 45, 65, 44, 45, 21, 22, 23,
  61, 44, 45, 44, 39, 40, 41, 62, 63, 25, 34, 35, 36, 47, 48, 49, 69, 72, 63, 78, 78, 15, 75, 60, 43, 79, 44, 45,
  64, 63, 67, 70, 16, 40, 63, 67, 76, 44, 8, 14, 77]

/-- The symbol on the left of each rule. -/
def yyr1 : List Nat := [
  0, 51, 52, 52, 52, 52, 53, 53, 53, 53, 54, 54, 54, 54, 55, 56, 56, 56, 56, 56, 57, 57, 57, 57, 58, 58, 59, 59,
  60, 61, 61, 61, 62, 62, 63, 63, 63, 64, 65, 65, 66, 66, 67, 67, 68, 68, 69, 69, 69, 69, 69, 69, 70, 70, 71, 71,
  72, 73, 73, 74, 74, 74, 75, 75, 76, 77, 77, 77, 78, 79]

/-- The length of the right-hand side. -/
def yyr2 : List Nat := [
  0, 2, 2, 1, 1, 1, 1, 1, 1, 1, 1, 1, 1, 1, 2, 6, 3, 2, 6, 6, 7, 4, 5, 6, 1, 3, 1, 3, 2, 1, 4, 1, 1, 3, 1, 1, 1, 3,
  0, 2, 1, 3, 3, 1, 1, 3, 1, 1, 1, 1, 1, 1, 1, 1, 1, 3, 3, 1, 1, 1, 3, 3, 3, 0, 2, 1, 1, 0, 1, 1]

/-- `yytranslate` of what the scanner returns. -/
def kind : Token → Symbol
  | .keyword .show => .show
  | .keyword .txnBegin => .txnBegin
  | .keyword .txnCommit => .txnCommit
  | .keyword .txnAbort => .txnAbort
  | .keyword .txnRollback => .txnRollback
  | .keyword .tables => .tables
  | .keyword .create => .create
  | .keyword .table => .table
  | .keyword .drop => .drop
  | .keyword .desc => .desc
  | .keyword .insert => .insert
  | .keyword .into => .into
  | .keyword .values => .values
  | .keyword .delete => .delete
  | .keyword .from => .from
  | .keyword .where => .where
  | .keyword .update => .update
  | .keyword .set => .set
  | .keyword .select => .select
  | .keyword .int => .int
  | .keyword .char => .char
  | .keyword .float => .float
  | .keyword .index => .index
  | .keyword .and => .and
  | .keyword .join => .join
  | .keyword .exit => .exit
  | .keyword .help => .help
  | .keyword .order => .order
  | .keyword .by => .by
  | .keyword .asc => .asc
  | .geq => .geq
  | .leq => .leq
  | .neq => .neq
  | .op c =>
    if c = byte ';' then .semicolon
    else if c = byte '(' then .lparen
    else if c = byte ')' then .rparen
    else if c = byte ',' then .comma
    else if c = byte '.' then .dot
    else if c = byte '=' then .eq
    else if c = byte '<' then .lt
    else if c = byte '>' then .gt
    else if c = byte '*' then .star
    else .undef
  | .identifier _ => .identifier
  | .valueInt _ => .valueInt
  | .valueFloat _ => .valueFloat
  | .valueString _ => .valueString

/-- Whether the state looks at a token. -/
def asks (yystate : Nat) : Bool := yypact.getD yystate 0 != YYPACT_NINF

/-- What `yytable` has for the state and the token. -/
def entry (yystate : Nat) (yytoken : Symbol) : Option Lalr.Move :=
  let yyn := yypact.getD yystate 0 + yytoken.ctorIdx
  if yyn < 0 ∨ YYLAST < yyn ∨ yycheck.getD yyn.toNat (-1) ≠ yytoken.ctorIdx then none
  else
    let m := yytable.getD yyn.toNat 0
    if m ≤ 0 then some (.reduce (-m).toNat) else some (.shift m.toNat)

/-- `yydefault` -/
def default (yystate : Nat) : Option Nat :=
  let yyn := yydefact.getD yystate 0
  if yyn = 0 then none else some yyn

/-- The state behind a reduction. -/
def goto (yystate : Nat) (lhs : Symbol) : Nat :=
  let yylhs := lhs.ctorIdx - YYNTOKENS
  let yyi := yypgoto.getD yylhs 0 + yystate
  if 0 ≤ yyi ∧ yyi ≤ YYLAST ∧ yycheck.getD yyi.toNat (-1) = yystate then (yytable.getD yyi.toNat 0).toNat
  else yydefgoto.getD yylhs 0

end Rmdb.Yacc
