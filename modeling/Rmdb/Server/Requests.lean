import Rmdb.Parser.Identifiers
import Rmdb.Parser.Yyparse
import Rmdb.Server.Runs

namespace Rmdb.ClientHandler
open Lexer Ast Yacc

/-! From the bytes of a request to the contents of the tables. -/

variable {N : Nat}

/-- What the code does not check of a CREATE TABLE: the columns have different names, take some bytes each and can be added
up, and the numbers of columns and tables are sizes. -/
def Fair (s : ClientHandler N) : TreeNode → Prop
  | .createTable _ fields => (fields.map (·.colName)).Nodup ∧ (∀ field ∈ fields, 0 < field.typeLen.len) ∧
      (fields.map (·.typeLen.len)).sum ≤ intMax ∧ IsSize fields.length ∧ IsSize (s.sys.db.tabs.length + 1)
  | _ => True

/-- A request, the condition in which the scanner reads it, and the statement executed for it, if any, with the exception
that this ended with. -/
structure Event where
  start : StartCondition
  request : List UInt8
  executed : Option (TreeNode × Option Error)

variable (atof : List UInt8 → UInt32)

/-- Requests one after the other. One that is not accepted, or has a null tree, is answered without a statement. -/
inductive Requests : StartCondition → ClientHandler N → List Event → ClientHandler N → Prop
  | nil (c : StartCondition) (s : ClientHandler N) : Requests c s [] s
  | idle {c : StartCondition} {s t : ClientHandler N} {request : List UInt8} {rest : List Event} :
      (∀ stmt, (Flex.parse scanner (yyparse atof) c request).1 ≠ .accepted (some stmt)) →
      Requests (Flex.parse scanner (yyparse atof) c request).2 s rest t → Requests c s (⟨c, request, none⟩ :: rest) t
  | returned {c : StartCondition} {s t u : ClientHandler N} {request : List UInt8} {stmt : TreeNode}
      {rest : List Event} :
      (Flex.parse scanner (yyparse atof) c request).1 = .accepted (some stmt) → s.Fair stmt →
      s.Comes stmt (.ok () t) → Requests (Flex.parse scanner (yyparse atof) c request).2 t rest u →
      Requests c s (⟨c, request, some (stmt, none)⟩ :: rest) u
  | thrown {c : StartCondition} {s t u : ClientHandler N} {request : List UInt8} {stmt : TreeNode} {e : Error}
      {rest : List Event} :
      (Flex.parse scanner (yyparse atof) c request).1 = .accepted (some stmt) → s.Fair stmt →
      s.Comes stmt (.error (.thrown e) t) → e ≠ .undefined → ¬IoError e →
      Requests (Flex.parse scanner (yyparse atof) c request).2 t rest u →
      Requests c s (⟨c, request, some (stmt, some e)⟩ :: rest) u

variable {atof} {s t : ClientHandler N} {c : StartCondition}

theorem asks_of_parses {request : List UInt8} {stmt : TreeNode} (parses : Parser.Parses c request stmt)
    (fair : s.Fair stmt) : s.Asks stmt := by
  cases stmt with
  | createTable tabName fields =>
    obtain ⟨named, list⟩ := parses.createTable
    obtain ⟨distinct, positive, small, few, fewTables⟩ := fair
    refine ⟨⟨named, ?_, ?_, fewTables⟩, list, distinct, positive, small⟩
    · intro colDef member
      obtain ⟨field, inside, rfl⟩ := List.mem_map.mp member
      exact ⟨(list.fields field inside).1, (list.fields field inside).2.isInt⟩
    · rw [Planner.colDefs, List.length_map]
      exact few
  | _ => trivial

/-- What is executed is what the grammar derives in the condition the request is read in. -/
def Event.Follows (event : Event) : Prop :=
  match event.executed with
  | some (stmt, _) => Parser.Parses event.start event.request stmt
  | none => ∀ stmt, ¬Parser.Parses event.start event.request stmt

/-- Whatever requests come, the server keeps its tables in order. What the grammar derives is executed and nothing else,
and what the clients see of the tables is what these statements say. -/
theorem requests_refine {events : List Event} (sound : s.Sound) (requests : Requests atof c s events t) :
    t.Sound ∧ Contents.Run s.contents (events.filterMap (·.executed)) t.contents ∧
      ∀ event ∈ events, event.Follows := by
  induction requests with
  | nil c s => exact ⟨sound, .nil _, fun _ member => nomatch member⟩
  | @idle c s t request rest refused _ ih =>
    obtain ⟨last, run, follow⟩ := ih sound
    refine ⟨last, run, List.forall_mem_cons.mpr ⟨fun stmt parses => ?_, follow⟩⟩
    obtain ⟨parseTree, accepted, _⟩ := yyparse_complete atof parses
    exact refused parseTree accepted
  | @returned c s t u request stmt rest accepted fair comes _ ih =>
    have parses := parses_of_accepted atof accepted
    obtain ⟨sound', query, analyzed, does⟩ := sound.comes_ok (asks_of_parses parses fair) comes
    obtain ⟨last, run, follow⟩ := ih sound'
    exact ⟨last, .returned analyzed does run, List.forall_mem_cons.mpr ⟨parses, follow⟩⟩
  | @thrown c s t u request stmt e rest accepted fair comes defined noIo _ ih =>
    have parses := parses_of_accepted atof accepted
    obtain rfl := sound.comes_error (asks_of_parses parses fair) comes defined noIo
    obtain ⟨last, run, follow⟩ := ih sound
    exact ⟨last, .thrown run, List.forall_mem_cons.mpr ⟨parses, follow⟩⟩

/-! `drop; create table t (a int, b char(2));` -/

def createRequest : List UInt8 := bytes "create table t (a int, b char(2));"

theorem createRequest_accepted : Flex.parse scanner (yyparse fun _ => 0) .initial createRequest =
    (.accepted (some createStmt), .initial) := by decide +kernel

theorem drop_error : Flex.parse scanner (yyparse fun _ => 0) .initial (bytes "drop;") = (.error, .initial) := rfl

theorem requests_refine_create : withTable.Sound ∧
    Contents.Run opened.contents [(createStmt, none)] withTable.contents ∧
      (∀ stmt, ¬Parser.Parses .initial (bytes "drop;") stmt) ∧ Parser.Parses .initial createRequest createStmt := by
  have fair : opened.Fair createStmt := ⟨by decide, by decide, by decide, by decide, by decide +kernel⟩
  have requests : Requests (fun _ => 0) .initial opened
      [⟨.initial, bytes "drop;", none⟩, ⟨.initial, createRequest, some (createStmt, none)⟩] withTable := by
    refine .idle ?_ (.returned (congrArg Prod.fst createRequest_accepted) fair opened_creates (.nil _ _))
    intro stmt same
    cases (congrArg Prod.fst drop_error).symm.trans same
  obtain ⟨sound, run, follow⟩ := requests_refine opened_sound requests
  exact ⟨sound, run, follow _ List.mem_cons_self, follow _ (List.mem_cons_of_mem _ List.mem_cons_self)⟩

end Rmdb.ClientHandler
