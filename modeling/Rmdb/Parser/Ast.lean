import Rmdb.Common

namespace Rmdb.Ast

/-! The syntax trees the parser makes. -/

inductive SvCompOp
  | eq
  | ne
  | lt
  | gt
  | le
  | ge
  deriving DecidableEq, Repr

inductive OrderByDir
  | default
  | asc
  | desc
  deriving DecidableEq, Repr

inductive Lit
  | int (val : Int)
  | float (bits : UInt32)
  | string (val : List UInt8)
  deriving DecidableEq

structure Col where
  tabName : String
  colName : String
  deriving DecidableEq, Repr

inductive Expr
  | val (v : Lit)
  | col (c : Col)
  deriving DecidableEq

structure BinaryExpr where
  lhs : Col
  op : SvCompOp
  rhs : Expr
  deriving DecidableEq

structure SetClause where
  colName : String
  val : Lit
  deriving DecidableEq

structure TypeLen where
  type : ColType
  len : Int
  deriving DecidableEq, Repr

structure ColDef where
  colName : String
  typeLen : TypeLen
  deriving DecidableEq, Repr

structure OrderBy where
  cols : Col
  dir : OrderByDir
  deriving DecidableEq, Repr

inductive TreeNode
  | help
  | showTables
  | txnBegin
  | txnCommit
  | txnAbort
  | txnRollback
  | createTable (tabName : String) (fields : List ColDef)
  | dropTable (tabName : String)
  | descTable (tabName : String)
  | createIndex (tabName : String) (colNames : List String)
  | dropIndex (tabName : String) (colNames : List String)
  | insertStmt (tabName : String) (vals : List Lit)
  | deleteStmt (tabName : String) (conds : List BinaryExpr)
  | updateStmt (tabName : String) (setClauses : List SetClause) (conds : List BinaryExpr)
  | selectStmt (cols : List Col) (tabs : List String) (conds : List BinaryExpr) (order : Option OrderBy)
  deriving DecidableEq

end Rmdb.Ast
