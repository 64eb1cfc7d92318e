import Rmdb.Kit.Bytes

namespace Rmdb

/-- What can end a call: the exceptions of `errors.h`, a failed `assert`, a `new[]` of
negative length, a key that `at` does not find, and undefined behaviour of the source (a null
page, an access outside a page, a signed overflow), after which nothing is promised. -/
inductive Error
  | internal (msg : String)
  | unix
  | fileNotOpen (fd : Int)
  | fileNotClosed (filename : String)
  | fileExists (filename : String)
  | fileNotFound (filename : String)
  | invalidRecordSize (recordSize : Int)
  | invalidColLength (colLen : Int)
  | tableNotFound (tabName : String)
  | tableExists (tabName : String)
  | columnNotFound (colName : String)
  | ambiguousColumn (colName : String)
  | indexNotFound (tabName : String) (colNames : List String)
  | indexEntryNotFound
  | invalidValueCount
  | stringOverflow
  | incompatibleType (lhs rhs : String)
  | pageNotExist (tableName : String) (pageNo : Int)
  | assertion
  | badArrayLength
  | outOfRange
  | undefined
  deriving DecidableEq, Repr

end Rmdb
