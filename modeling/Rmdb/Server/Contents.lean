import Rmdb.Execution.Answer
import Rmdb.Execution.Leaves
import Rmdb.Server.Serve

namespace Rmdb
open Rmdb.Tuple Analyze Portal

/-! A database as its clients see it, and what statements do to it. -/

/-- The catalog, and the rows of each table. -/
structure Contents where
  db : DbMeta
  rows : String → RecordMap

namespace Contents

/-- The table gets other rows. -/
def put (c : Contents) (tabName : String) (rows : RecordMap) : Contents where
  db := c.db
  rows := Function.update c.rows tabName rows

/-- The statements that leave everything as it is. -/
def Idle : Ast.TreeNode → Prop
  | .createTable .. | .dropTable _ | .insertStmt .. | .updateStmt .. | .deleteStmt .. => False
  | _ => True

/-- What a statement does that returns. Conditions are those of the analyzed query. -/
inductive Does (query : Query) : Ast.TreeNode → Contents → Contents → Prop
  | createTable {c : Contents} {tabName : String} {fields : List Ast.ColDef} {cols : List ColMeta} {recordSize : Int} :
      c.db.isTable tabName = false → Database.layOut tabName 0 (Planner.colDefs fields) = (cols, recordSize) →
      Does query (.createTable tabName fields) c {
        db := ⟨c.db.name, DbMeta.assign tabName ⟨tabName, cols, []⟩ c.db.tabs⟩
        rows := Function.update c.rows tabName fun _ => none }
  | dropTable {c : Contents} {tabName : String} : c.db.isTable tabName = true →
      Does query (.dropTable tabName) c {
        db := Database.dropped c.db tabName
        rows := Function.update c.rows tabName fun _ => none }
  | insert {c : Contents} {tabName : String} {vals : List Ast.Lit} {tab : TabMeta} {rid : Rid} {r : RmRecord} :
      c.db.getTable tabName = .ok tab → c.rows tabName rid = none → tab.Stores query.values r →
      Does query (.insertStmt tabName vals) c (c.put tabName (Function.update (c.rows tabName) rid (some r)))
  | change {c : Contents} {stmt : Ast.TreeNode} {tabName : String} {tab : TabMeta} : Changes tabName stmt →
      c.db.getTable tabName = .ok tab →
      Does query stmt c (c.put tabName fun rid => (c.rows tabName rid).bind fun r =>
        if query.conds.all (c.db.holds · (single tabName r)) then effect tab query stmt r else some r)
  | idle {c : Contents} {stmt : Ast.TreeNode} : Idle stmt → Does query stmt c c

/-- Statements one after the other, each with the exception it ended with, if any. -/
inductive Run : Contents → List (Ast.TreeNode × Option Error) → Contents → Prop
  | nil (c : Contents) : Run c [] c
  | returned {c d e : Contents} {stmt : Ast.TreeNode} {query : Query} {rest : List (Ast.TreeNode × Option Error)} :
      doAnalyze c.db stmt = .ok query → Does query stmt c d → Run d rest e → Run c ((stmt, none) :: rest) e
  | thrown {c d : Contents} {stmt : Ast.TreeNode} {e : Error} {rest : List (Ast.TreeNode × Option Error)} :
      Run c rest d → Run c ((stmt, some e) :: rest) d

end Contents

namespace ClientHandler
variable {N : Nat}

/-- A table without a file has no rows. -/
def rowsOf : Option (RmFile FlatFile) → RecordMap
  | some fh => fh.records
  | none => fun _ => none

def contents (s : ClientHandler N) : Contents where
  db := s.sys.db
  rows t := rowsOf (s.files t)

section
variable {s : ClientHandler N} {tabName : String} {fh fh' : RmFile FlatFile}

theorem contents_rows (file : s.files tabName = some fh) : s.contents.rows tabName = fh.records := by
  simp only [contents, file, rowsOf]

/-- Only the rows of that table are different. -/
theorem contents_update (s : ClientHandler N) (sys : Database N) (tabName : String) (f : Option (RmFile FlatFile)) :
    contents ⟨sys, Function.update s.files tabName f⟩ =
      ⟨sys.db, Function.update s.contents.rows tabName (rowsOf f)⟩ := by
  unfold contents
  congr 1
  exact funext fun t => Function.apply_update (fun _ => rowsOf) s.files tabName f t

theorem contents_putFile (s : ClientHandler N) (tabName : String) (fh : RmFile FlatFile) :
    (s.putFile tabName fh).contents = s.contents.put tabName fh.records := contents_update s _ tabName (some fh)

end

end ClientHandler

/-! What the scan of a single table makes of the conditions. -/

section
variable {db : DbMeta} {tabName : String} {tab : TabMeta} {r : RmRecord} {c : Condition}

theorem mem_getCol {cols : List ColMeta} {target : TabCol} {col : ColMeta} (found : getCol cols target = .ok col) :
    col ∈ cols ∧ col.tabName = target.tabName ∧ col.name = target.colName := by
  unfold getCol at found
  split at found
  · rename_i hit
    cases found
    refine ⟨List.mem_of_find?_eq_some hit, ?_⟩
    simpa using List.find?_some hit
  · cases found

/-- A column that a scan of the table finds is one of the catalog. -/
theorem column_of_getCol (wf : db.WF) (table : db.getTable tabName = .ok tab) {target : TabCol} {col : ColMeta}
    (found : getCol tab.cols target = .ok col) : target.tabName = tabName ∧ db.column target = .ok col := by
  obtain ⟨member, ofTable, name⟩ := mem_getCol found
  have owned := (wf _ _ (getTable_ok table)).2.2.2
  have own : target.tabName = tabName := ofTable.symm.trans (owned col member)
  obtain ⟨col', inTab⟩ := getCol_of_mem member
  rw [name] at inTab
  have same := getCol_owned owned own inTab
  cases found.symm.trans same
  exact ⟨own, column_ok_iff.mpr ⟨tab, own.symm ▸ table, inTab⟩⟩

/-- What a condition comes to on a record of the table it comes to on the row of that record. -/
theorem evalRow_test (wf : db.WF) (table : db.getTable tabName = .ok tab) {b : Bool}
    (run : evalRow tab.cols r c = .ok b) : db.test (single tabName r) c = .ok b := by
  have record : single tabName r tabName = some r := Function.update_self ..
  obtain ⟨lhs, found, rest⟩ := bind_eq_ok_iff.mp run
  obtain ⟨own, left⟩ := column_of_getCol wf table found
  rw [DbMeta.test, left, ok_bind, own, record]
  cases kind : c.isRhsVal with
  | true =>
    simp only [kind, if_true] at rest ⊢
    cases raw : c.rhsVal.raw with
    | none =>
      rw [raw] at rest
      cases rest
    | some raw' =>
      rw [raw] at rest
      exact rest
  | false =>
    simp only [kind, Bool.false_eq_true, if_false] at rest ⊢
    obtain ⟨rhs, found', rest⟩ := bind_eq_ok_iff.mp rest
    obtain ⟨own', right⟩ := column_of_getCol wf table found'
    simp only [right, ok_bind, own', record]
    exact rest

theorem evalRows_holds (wf : db.WF) (table : db.getTable tabName = .ok tab) {conds : List Condition} {b : Bool}
    (run : evalRows tab.cols r conds = .ok b) : conds.all (db.holds · (single tabName r)) = b := by
  unfold evalRows at run
  induction conds with
  | nil =>
    cases run
    rfl
  | cons c conds ih =>
    rw [allOf] at run
    obtain ⟨first, here, rest⟩ := bind_eq_ok_iff.mp run
    have holds : db.holds c (single tabName r) = first := by
      rw [DbMeta.holds, evalRow_test wf table here]
      cases first <;> rfl
    rw [List.all_cons, holds]
    cases first with
    | true => exact ih rest
    | false =>
      cases rest
      rfl

end

end Rmdb
