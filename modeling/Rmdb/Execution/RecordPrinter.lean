import Rmdb.Errors
import Rmdb.Kit.Buffer
import Rmdb.Kit.Clip
import Rmdb.Kit.Stream

namespace Rmdb

def BUFFER_LENGTH : Nat := 8192

def RECORD_COUNT_LENGTH : Nat := 40

/-- A text of the program as the bytes of a `std::string`. -/
def ofText (text : List Char) : List UInt8 := text.map fun c => UInt8.ofNat c.toNat

/-- What the printer uses of a `Context`: `data_send_`, `*offset_` and `ellipsis_`. -/
structure Context where
  dataSend : List UInt8
  offset : Int
  ellipsis : Bool

/-- A `memcpy` to the end of the reply, which then ends behind it. -/
def Context.write (str : List UInt8) : EStateM Error Context Unit := fun c =>
  match Buffer.put .undefined c.offset str c.dataSend with
  | .ok offset dataSend => .ok () { c with dataSend, offset }
  | .error e dataSend => .error e { c with dataSend }

structure RecordPrinter where
  numCols : Nat

namespace RecordPrinter

def COL_WIDTH : Nat := 16

/-- The fit test. `marks` says whether the place has the `else` branch that sets `ellipsis_`. -/
def printPiece (marks : Bool) (str : List UInt8) : EStateM Error Context Unit := do
  let c ← get
  if c.ellipsis = false ∧ c.offset + RECORD_COUNT_LENGTH + str.length < BUFFER_LENGTH then Context.write str
  else if marks then modify fun c => { c with ellipsis := true }

/-- `"+" + std::string(COL_WIDTH + 2, '-')` -/
def dashes : List UInt8 := ofText ('+' :: List.replicate (COL_WIDTH + 2) '-')

/-- A cell: a long text is cut and ends with three dots, a short one is filled up on the left. -/
def cell (col : List UInt8) : List UInt8 :=
  let col := if COL_WIDTH < col.length then col.take (COL_WIDTH - 3) ++ ofText ['.', '.', '.'] else col
  ofText ['|', ' '] ++ (List.replicate (COL_WIDTH - col.length) 32 ++ col) ++ ofText [' ']

def new (numCols : Nat) : EStateM Error Context RecordPrinter :=
  if 0 < numCols then return ⟨numCols⟩ else throw .assertion

variable (x : RecordPrinter)

def printSeparator : EStateM Error Context Unit := do
  (List.range x.numCols).forM fun _ => printPiece true dashes
  printPiece true (ofText ['+', '\n'])

def printRecord (recStr : List (List UInt8)) : EStateM Error Context Unit := do
  if recStr.length ≠ x.numCols then throw .assertion
  else do
    recStr.forM fun col => printPiece true (cell col)
    printPiece false (ofText ['|', '\n'])

def printRecordCount (numRec : Nat) : EStateM Error Context Unit := do
  let c ← get
  let str := if c.ellipsis then ofText "... ...\n".toList else []
  Context.write (str ++ (ofText "Total record(s): ".toList ++ (ofText (insertNat numRec) ++ ofText ['\n'])))

end RecordPrinter

/-- What every reply of more than a message starts with: the captions and the rows between separators. -/
def RecordPrinter.printTable (captions : List (List UInt8)) (rows : List (List (List UInt8))) :
    EStateM Error Context Unit := do
  let printer ← RecordPrinter.new captions.length
  printer.printSeparator
  printer.printRecord captions
  printer.printSeparator
  rows.forM printer.printRecord
  printer.printSeparator

/-- `select_from` as far as it prints; `rows` are the cells of the tuples the executors give. -/
def QlManager.printRows (captions : List (List UInt8)) (rows : List (List (List UInt8))) :
    EStateM Error Context Unit := do
  let printer ← RecordPrinter.new captions.length
  printer.printSeparator
  printer.printRecord captions
  printer.printSeparator
  rows.forM printer.printRecord
  printer.printSeparator
  RecordPrinter.printRecordCount (rows.length % 18446744073709551616)

namespace RecordPrinter
open Clip
variable {buffer : List UInt8}

/-- A reply of which these bytes are printed, in a buffer that is otherwise as it was. -/
def reply (buffer : List UInt8) (out : List UInt8 × Bool) : Context :=
  ⟨out.1 ++ buffer.drop out.1.length, out.1.length, out.2⟩

/-- Printed text ends before this offset: 40 bytes are kept for the record count. -/
def limit : Nat := BUFFER_LENGTH - RECORD_COUNT_LENGTH

theorem write_reply {out : List UInt8 × Bool} {str : List UInt8} (size : buffer.length = BUFFER_LENGTH)
    (fits : out.1.length + str.length ≤ BUFFER_LENGTH) :
    Context.write str (reply buffer out) = .ok () (reply buffer (out.1 ++ str, out.2)) := by
  unfold BUFFER_LENGTH at size fits
  have room : (out.1.length : Int) + str.length ≤ intMax := by
    unfold intMax
    omega
  have written := @Buffer.Writes.put Error .undefined out.1.length str room out.1 (buffer.drop out.1.length) rfl
    (by rw [List.length_drop]; omega)
  unfold Context.write reply
  simp only [written, List.length_append, List.drop_drop, List.append_assoc]

/-- A part of the program prints these pieces as far as there is room. -/
def Prints (buffer : List UInt8) (x : EStateM Error Context Unit) (ps : List (Piece UInt8)) : Prop :=
  ∀ out : List UInt8 × Bool, out.1.length < limit → x (reply buffer out) = .ok () (reply buffer (run limit out ps))

namespace Prints
variable {x y : EStateM Error Context Unit} {ps qs : List (Piece UInt8)}

theorem bind (first : Prints buffer x ps) (later : Prints buffer y qs) :
    Prints buffer (x >>= fun _ => y) (ps ++ qs) := by
  intro out small
  rw [bind_ok (first out small), later _ (run_length small ps), run_append]

theorem forM {β : Type} {f : β → EStateM Error Context Unit} {pieces : β → List (Piece UInt8)} {l : List β}
    (each : ∀ b ∈ l, Prints buffer (f b) (pieces b)) : Prints buffer (l.forM f) (l.flatMap pieces) := by
  induction l with
  | nil => exact fun out _ => rfl
  | cons b l ih =>
    obtain ⟨here, each⟩ := List.forall_mem_cons.mp each
    exact here.bind (ih each)

theorem piece (size : buffer.length = BUFFER_LENGTH) (marks : Bool) (str : List UInt8) :
    Prints buffer (printPiece marks str) [⟨str, marks⟩] := by
  intro out small
  have same : (reply buffer out).ellipsis = false ∧
      (reply buffer out).offset + RECORD_COUNT_LENGTH + str.length < BUFFER_LENGTH ↔
      out.2 = false ∧ out.1.length + str.length < limit := by
    change _ ∧ (out.1.length : Int) + (40 : Nat) + str.length < (8192 : Nat) ↔ _ ∧ _ < 8152
    exact and_congr_right fun _ => by omega
  change printPiece marks str (reply buffer out) = .ok () (reply buffer (step limit out ⟨str, marks⟩))
  unfold printPiece step
  rw [get_bind]
  by_cases fits : out.2 = false ∧ out.1.length + str.length < limit
  · rw [if_pos (same.mpr fits), if_pos fits, write_reply size (le_of_lt (fits.2.trans (by decide))), fits.1]
  · rw [if_neg fun both => fits (same.mp both), if_neg fits]
    cases marks with
    | true =>
      rw [if_pos rfl, Bool.or_true]
      rfl
    | false =>
      rw [if_neg (by simp), Bool.or_false]
      rfl

end Prints

/-! The pieces of the reply. -/

def separatorPieces (n : Nat) : List (Piece UInt8) := List.replicate n ⟨dashes, true⟩ ++ [⟨ofText ['+', '\n'], true⟩]

def recordPieces (recStr : List (List UInt8)) : List (Piece UInt8) :=
  recStr.map (fun col => ⟨cell col, true⟩) ++ [⟨ofText ['|', '\n'], false⟩]

def pieces (captions : List (List UInt8)) (rows : List (List (List UInt8))) : List (Piece UInt8) :=
  separatorPieces captions.length ++ (recordPieces captions ++ (separatorPieces captions.length ++
    (rows.flatMap recordPieces ++ separatorPieces captions.length)))

/-- The untruncated rendering: the reply without fit tests, up to the record count. -/
def rendering (captions : List (List UInt8)) (rows : List (List (List UInt8))) : List (List UInt8) :=
  (pieces captions rows).map (·.text)

section
variable (size : buffer.length = BUFFER_LENGTH) (x : RecordPrinter)
include size

theorem printSeparator_prints : Prints buffer x.printSeparator (separatorPieces x.numCols) := by
  have cells : Prints buffer ((List.range x.numCols).forM fun _ => printPiece true dashes)
      ((List.range x.numCols).flatMap fun _ => [⟨dashes, true⟩]) := Prints.forM fun _ _ => Prints.piece size true dashes
  rw [← List.map_eq_flatMap, List.map_const', List.length_range] at cells
  exact cells.bind (Prints.piece size true _)

theorem printRecord_prints {recStr : List (List UInt8)} (count : recStr.length = x.numCols) :
    Prints buffer (x.printRecord recStr) (recordPieces recStr) := by
  have cells : Prints buffer (recStr.forM fun col => printPiece true (cell col))
      (recStr.flatMap fun col => [⟨cell col, true⟩]) := Prints.forM fun col _ => Prints.piece size true (cell col)
  rw [← List.map_eq_flatMap] at cells
  unfold printRecord
  rw [if_neg (not_not.mpr count)]
  exact cells.bind (Prints.piece size false _)

end

/-! The end of a line is the one piece without a mark. What follows it is never shorter. -/

theorem length_cell (col : List UInt8) : (cell col).length = 19 := by
  unfold cell COL_WIDTH ofText
  split
  · simp
    omega
  · simp
    omega

/-- The next piece leaves a mark and has at least the two bytes of a line end. -/
def Opens (ps : List (Piece UInt8)) : Prop := ∃ q rest, ps = q :: rest ∧ q.marks = true ∧ 2 ≤ q.text.length

theorem opens_separator (n : Nat) (ps : List (Piece UInt8)) : Opens (separatorPieces n ++ ps) := by
  cases n with
  | zero => exact ⟨_, ps, rfl, rfl, le_rfl⟩
  | succ n => exact ⟨⟨dashes, true⟩, separatorPieces n ++ ps, rfl, rfl, by decide⟩

theorem guarded_separator (n : Nat) {ps : List (Piece UInt8)} (guarded : Guarded ps) :
    Guarded (separatorPieces n ++ ps) := by
  refine guarded_append (fun p member => ?_) guarded
  rcases List.mem_append.mp member with member | member
  · rw [List.eq_of_mem_replicate member]
  · rw [List.mem_singleton.mp member]

theorem guarded_record {recStr : List (List UInt8)} (some : recStr ≠ []) {ps : List (Piece UInt8)} (opens : Opens ps)
    (guarded : Guarded ps) : Opens (recordPieces recStr ++ ps) ∧ Guarded (recordPieces recStr ++ ps) := by
  constructor
  · obtain ⟨col, rest, rfl⟩ := List.exists_cons_of_ne_nil some
    exact ⟨⟨cell col, true⟩, _, rfl, rfl, by rw [length_cell]; omega⟩
  · unfold recordPieces
    rw [List.append_assoc]
    refine guarded_append (fun p member => ?_) ⟨fun _ => ?_, guarded⟩
    · obtain ⟨col, _, rfl⟩ := List.mem_map.mp member
      rfl
    · obtain ⟨q, rest, same, marks, long⟩ := opens
      exact ⟨q, rest, same, marks, long⟩

theorem guarded_pieces {captions : List (List UInt8)} {rows : List (List (List UInt8))} (some : captions ≠ [])
    (count : ∀ row ∈ rows, row.length = captions.length) : Guarded (pieces captions rows) := by
  have tail : Opens (rows.flatMap recordPieces ++ separatorPieces captions.length) ∧
      Guarded (rows.flatMap recordPieces ++ separatorPieces captions.length) := by
    induction rows with
    | nil =>
      have opens := opens_separator captions.length []
      have guarded := @guarded_separator captions.length [] trivial
      rw [List.append_nil] at opens guarded
      exact ⟨opens, guarded⟩
    | cons row rows ih =>
      obtain ⟨here, count⟩ := List.forall_mem_cons.mp count
      obtain ⟨opens, guarded⟩ := ih count
      rw [List.flatMap_cons, List.append_assoc]
      refine guarded_record (fun empty => some ?_) opens guarded
      rw [empty] at here
      exact List.eq_nil_of_length_eq_zero here.symm
  refine guarded_separator _ (guarded_record some (opens_separator _ _) (guarded_separator _ tail.2)).2

/-- The record count. -/
def countLine (numRec : Nat) : List UInt8 :=
  ofText "Total record(s): ".toList ++ (ofText (insertNat numRec) ++ ofText ['\n'])

/-- What `print_record_count` puts in front of it after a cut. -/
def marker (cut : Bool) : List UInt8 := if cut then ofText "... ...\n".toList else []

theorem length_count {numRec : Nat} (few : numRec < 100000000000000) (cut : Bool) :
    (marker cut ++ countLine numRec).length ≤ RECORD_COUNT_LENGTH := by
  have digits : (insertNat numRec).length ≤ 14 := (Nat.length_toDigits_le_iff (by decide) (by decide)).mpr few
  have dots : (marker cut).length ≤ 8 := by cases cut <;> decide
  have text : (countLine numRec).length = 17 + ((insertNat numRec).length + 1) := by
    simp only [countLine, ofText, List.length_append, List.length_map]
    rfl
  rw [List.length_append, text]
  unfold RECORD_COUNT_LENGTH
  omega

theorem printRecordCount_reply (size : buffer.length = BUFFER_LENGTH) {numRec : Nat} (few : numRec < 100000000000000)
    {out : List UInt8 × Bool} (small : out.1.length < limit) : printRecordCount numRec (reply buffer out) =
      .ok () (reply buffer (out.1 ++ (marker out.2 ++ countLine numRec), out.2)) := by
  have room : out.1.length + (marker out.2 ++ countLine numRec).length ≤ BUFFER_LENGTH := by
    have fits := length_count few out.2
    unfold limit at small
    unfold BUFFER_LENGTH RECORD_COUNT_LENGTH at *
    omega
  exact write_reply size room

theorem printTable_pieces (size : buffer.length = BUFFER_LENGTH) {captions : List (List UInt8)}
    {rows : List (List (List UInt8))} (some : captions ≠ []) (count : ∀ row ∈ rows, row.length = captions.length) :
    printTable captions rows (reply buffer ([], false)) =
      .ok () (reply buffer (run limit ([], false) (pieces captions rows))) := by
  have made : new captions.length (reply buffer ([], false)) = .ok ⟨captions.length⟩ (reply buffer ([], false)) := by
    unfold new
    rw [if_pos (List.length_pos_iff.mpr some)]
    rfl
  have separator := printSeparator_prints size ⟨captions.length⟩
  have header := @printRecord_prints buffer size ⟨captions.length⟩ captions rfl
  have body : Prints buffer (rows.forM (printRecord ⟨captions.length⟩)) (rows.flatMap recordPieces) :=
    Prints.forM fun row member => printRecord_prints size ⟨captions.length⟩ (count row member)
  have start : ([] : List UInt8).length < limit := by decide
  unfold printTable
  rw [bind_ok made]
  exact (separator.bind (header.bind (separator.bind (body.bind separator)))) ([], false) start

theorem printRows_pieces (size : buffer.length = BUFFER_LENGTH) {captions : List (List UInt8)}
    {rows : List (List (List UInt8))} (some : captions ≠ []) (count : ∀ row ∈ rows, row.length = captions.length) :
    QlManager.printRows captions rows (reply buffer ([], false)) =
      printRecordCount (rows.length % 18446744073709551616)
        (reply buffer (run limit ([], false) (pieces captions rows))) := by
  have first : QlManager.printRows captions rows =
      printTable captions rows >>= fun _ => printRecordCount (rows.length % 18446744073709551616) := by
    simp only [QlManager.printRows, printTable, bind_assoc]
  rw [first, bind_ok (printTable_pieces size some count)]

end RecordPrinter

open RecordPrinter in
/-- The reply is a prefix of the untruncated rendering, whole cells and line ends of it, with the
mark exactly if something is missing, and the record count. The buffer has room for it and one byte more. -/
theorem QlManager.reply_bounded_prefix {buffer : List UInt8} {captions : List (List UInt8)}
    {rows : List (List (List UInt8))} (some : captions ≠ []) (count : ∀ row ∈ rows, row.length = captions.length)
    (few : rows.length < 100000000000000) (size : buffer.length = BUFFER_LENGTH) :
    ∃ shown hidden text c, rendering captions rows = shown ++ hidden ∧
      text = shown.flatten ++ (marker (!hidden.isEmpty) ++ countLine rows.length) ∧
      printRows captions rows ⟨buffer, 0, false⟩ = .ok () c ∧ c.dataSend = text ++ buffer.drop text.length ∧
      c.offset = text.length ∧ c.offset + 1 ≤ BUFFER_LENGTH := by
  obtain ⟨shown, hidden, split, ran⟩ := @Clip.run_guarded _ limit [] _ (guarded_pieces some count)
  have small : (Clip.run limit ([], false) (pieces captions rows)).1.length < limit :=
    Clip.run_length (by decide) _
  have call := printRows_pieces size some count
  rw [Nat.mod_eq_of_lt (by omega), printRecordCount_reply size few small, ran, List.nil_append] at call
  rw [ran] at small
  change (Clip.texts shown).length < limit at small
  have room : (Clip.texts shown).length + (marker (!hidden.isEmpty) ++ countLine rows.length).length <
      BUFFER_LENGTH := by
    have fits := length_count few !hidden.isEmpty
    unfold limit at small
    unfold RECORD_COUNT_LENGTH BUFFER_LENGTH at *
    omega
  refine ⟨shown.map (·.text), hidden.map (·.text), _, _, ?_, ?_, call, rfl, rfl, ?_⟩
  · rw [rendering, split, List.map_append]
  · rw [List.isEmpty_map]
    rfl
  · rw [← List.length_append] at room
    change ((Clip.texts shown ++ (marker (!hidden.isEmpty) ++ countLine rows.length)).length : Int) + 1 ≤ _
    omega

/-- Rows of two columns, more than the buffer takes. -/
def manyRows : List (List (List UInt8)) := List.replicate 250 [[97], [98]]

open RecordPrinter in
/-- Some of them are left out, and the reply says so. -/
theorem QlManager.reply_bounded_prefix_cut : ∃ shown hidden c, hidden ≠ [] ∧
    rendering [[97], [98]] manyRows = shown ++ hidden ∧
      printRows [[97], [98]] manyRows ⟨List.replicate BUFFER_LENGTH 0, 0, false⟩ = .ok () c ∧
      c.dataSend.take c.offset.toNat = shown.flatten ++ (marker true ++ countLine 250) ∧ c.offset + 1 ≤ BUFFER_LENGTH := by
  have length : manyRows.length = 250 := List.length_replicate
  have count : ∀ row ∈ manyRows, row.length = [[97], [98]].length := by
    intro row member
    rw [List.eq_of_mem_replicate member]
    rfl
  obtain ⟨shown, hidden, text, c, split, printed, call, sent, offset, room⟩ := @QlManager.reply_bounded_prefix
    (List.replicate BUFFER_LENGTH 0) [[97], [98]] manyRows (by simp) count (by omega) List.length_replicate
  have long : BUFFER_LENGTH < (rendering [[97], [98]] manyRows).flatten.length := by decide +kernel
  have some : hidden ≠ [] := by
    rintro rfl
    rw [List.append_nil] at split
    rw [split] at long
    rw [printed, List.length_append] at offset
    omega
  have cut : (!hidden.isEmpty) = true := by simp [some]
  refine ⟨shown, hidden, c, some, split, call, ?_, room⟩
  rw [sent, offset, Int.toNat_natCast, List.take_left, printed, cut, length]

end Rmdb
