import Rmdb.Execution.RecordPrinter
import Rmdb.Execution.Yields
import Rmdb.Kit.Numeral

namespace Rmdb

/-! `select_from`: what the executors give goes to the reply, row by row. -/

/-- The text of a value; `std::to_string` of a `float` is left open. -/
def Datum.text (ftoa : UInt32 → List UInt8) : Datum → List UInt8
  | .int v => intToString v
  | .float bits => ftoa bits
  | .str s => s

namespace QlManager
open RecordPrinter
variable {α β : Type}

/-- A call of the printer. -/
def printing (x : EStateM Error Context α) : EStateM Stop Context α := fun c =>
  match x c with
  | .ok a c => .ok a c
  | .error e c => .error (.thrown e) c

/-- A call of an executor. -/
def asking (x : Except Stop α) : EStateM Stop Context α := fun c =>
  match x with
  | .ok a => .ok a c
  | .error stop => .error stop c

section
variable (ftoa : UInt32 → List UInt8) (E : Executor)

/-- The texts of a tuple, one for each column of the executor. -/
def columns (tuple : Option RmRecord) : Except Error (List (List UInt8)) :=
  match E.cols, tuple with
  | some cols, some r => cols.mapM fun col => (readColumn r col).map (Datum.text ftoa)
  | _, _ => .error .undefined

/-- The loop over the tuples, and how many there were. -/
def printTuples (printer : RecordPrinter) (fuel : Nat) : Nat → E.State → EStateM Stop Context Nat
  | 0, _ => throw .outOfFuel
  | turns + 1, s => do
    if ← asking (liftM (E.isEnd s)) then return 0
    let tuple ← asking (liftM (E.next s))
    let columns ← asking (liftM (columns ftoa E tuple))
    printing (printer.printRecord columns)
    let s ← asking (E.nextTuple fuel s)
    let numRec ← printTuples printer fuel turns s
    return numRec + 1

def selectFrom (selCols : List TabCol) (fuel : Nat) : EStateM Stop Context Unit := do
  let captions := selCols.map fun selCol => ofText selCol.colName.toList
  let printer ← printing (RecordPrinter.new captions.length)
  printing printer.printSeparator
  printing (printer.printRecord captions)
  printing printer.printSeparator
  let s ← asking (E.beginTuple fuel E.fresh)
  let numRec ← printTuples ftoa E printer fuel fuel s
  printing printer.printSeparator
  printing (RecordPrinter.printRecordCount (numRec % 18446744073709551616))

end

theorem printing_bind (x : EStateM Error Context α) (f : α → EStateM Error Context β) :
    printing (x >>= f) = printing x >>= fun a => printing (f a) := by
  funext c
  cases run : x c with
  | ok a c' =>
    have first : printing x c = .ok a c' := by simp only [printing, run]
    rw [bind_ok first]
    simp only [printing, bind_ok run]
  | error e c' =>
    have first : printing x c = .error (.thrown e) c' := by simp only [printing, run]
    rw [bind_error first]
    simp only [printing, bind_error run]

theorem asking_ok {x : Except Stop α} {a : α} (run : x = .ok a) (f : α → EStateM Stop Context β) :
    (asking x >>= f) = f a := by
  subst run
  rfl

section
variable {ftoa : UInt32 → List UInt8} {E : Executor} {ι : Type} {row : ι → RmRecord}
  {texts : ι → List (List UInt8)} {fuel : Nat}

theorem printTuples_eq {printer : RecordPrinter} {turns : Nat} {s : E.State} {rows : List ι}
    (collected : E.collect fuel turns s = .ok ((rows.map row).map some))
    (cells : ∀ r ∈ rows, columns ftoa E (some (row r)) = .ok (texts r)) :
    printTuples ftoa E printer fuel turns s =
      (printing ((rows.map texts).forM printer.printRecord) >>= fun _ => pure rows.length) := by
  induction turns generalizing s rows with
  | zero => cases collected
  | succ turns ih =>
    rw [Executor.collect] at collected
    obtain ⟨ended, isEnd, collected⟩ := bind_eq_ok_iff.mp collected
    rw [printTuples, asking_ok isEnd]
    cases ended with
    | true =>
      cases rows with
      | nil => rfl
      | cons _ _ => cases collected
    | false =>
      obtain ⟨tuple, next, collected⟩ := bind_eq_ok_iff.mp collected
      obtain ⟨s', moved, collected⟩ := bind_eq_ok_iff.mp collected
      obtain ⟨tuples, later, collected⟩ := bind_eq_ok_iff.mp collected
      cases rows with
      | nil => cases collected
      | cons r rows =>
        obtain ⟨rfl, rfl⟩ : tuple = some (row r) ∧ tuples = (rows.map row).map some :=
          List.cons_eq_cons.mp (Except.ok.inj collected)
        obtain ⟨here, cells⟩ := List.forall_mem_cons.mp cells
        have texted : (liftM (columns ftoa E (some (row r))) : Except Stop (List (List UInt8))) = .ok (texts r) := by
          rw [here]
          rfl
        have whole : printing ((texts r :: rows.map texts).forM printer.printRecord) =
            printing (printer.printRecord (texts r)) >>= fun _ =>
              printing ((rows.map texts).forM printer.printRecord) := printing_bind _ _
        simp only [Bool.false_eq_true, if_false]
        rw [asking_ok next, asking_ok texted, List.map_cons, whole, bind_assoc]
        simp only [asking_ok moved, ih later cells, bind_assoc, pure_bind, List.length_cons]

/-- `select_from` prints the cells of the tuples that the executors give. -/
theorem selectFrom_eq {rows : List ι} (selCols : List TabCol)
    (run : E.traverse fuel E.fresh = .ok ((rows.map row).map some))
    (cells : ∀ r ∈ rows, columns ftoa E (some (row r)) = .ok (texts r)) :
    selectFrom ftoa E selCols fuel =
      printing (printRows (selCols.map fun selCol => ofText selCol.colName.toList) (rows.map texts)) := by
  obtain ⟨s, begun, collected⟩ := bind_eq_ok_iff.mp run
  unfold selectFrom printRows
  simp only [printing_bind, asking_ok begun, printTuples_eq collected cells, bind_assoc, pure_bind, List.length_map]

end

/-- The value in the bytes of a column. -/
def decode (type : ColType) (bytes : List UInt8) : Datum :=
  match type with
  | .int => .int (decodeInt (RmRecord.ptr (bytes.take 4)))
  | .float => .float (UInt32.ofInt (decodeInt (RmRecord.ptr (bytes.take 4))))
  | .string => .str (bytes.takeWhile (· ≠ 0))

theorem readColumn_of_bytes {r : RmRecord} {col : ColMeta} {part : List UInt8}
    (read : r.bytesAt col.offset col.len = .ok part) (wide : compareLen col.type col.len ≤ col.len) :
    readColumn r col = .ok (decode col.type part) := by
  obtain ⟨fits, rfl⟩ := bytesAt_ok_iff.mp read
  have number (four : 4 ≤ col.len) :
      r.bytesAt col.offset 4 = .ok (((r.drop col.offset.toNat).take col.len.toNat).take 4) := by
    refine bytesAt_ok_iff.mpr ⟨⟨fits.1, by omega, by have := fits.2.2; omega⟩, ?_⟩
    rw [List.take_take, Nat.min_eq_left (by omega)]
    rfl
  unfold readColumn decode
  cases type : col.type with
  | int =>
    rw [type] at wide
    simp only [number wide]
    rfl
  | float =>
    rw [type] at wide
    simp only [number wide]
    rfl
  | string =>
    simp only [read]
    rfl

end QlManager

/-- The text of a column of a row. -/
def DbMeta.cell (db : DbMeta) (ftoa : UInt32 → List UInt8) (t : Tuple String RmRecord) (target : TabCol) : List UInt8 :=
  match db.column target with
  | .ok col => (QlManager.decode col.type (db.field t target)).text ftoa
  | .error _ => []

section
open QlManager
variable {ftoa : UInt32 → List UInt8} {sm : SmManager} {plan : Plan} {cols selected news : List ColMeta}
  {sel : List TabCol} {t : Tuple String RmRecord} {record : RmRecord}

theorem cells_of_parts (each : List.Forall₂ (Picks sm plan cols) sel selected) (full : sm.db.Full plan.tables t)
    (placed : List.Forall₂ (fun col new => new = { col with offset := new.offset } ∧ ∃ part,
      dataAt (some (flat plan.tables t)) col.offset col.len = .ok part ∧
        record.bytesAt new.offset new.len = .ok part) selected news) :
    (news.mapM fun col => (readColumn record col).map (Datum.text ftoa)) = .ok (sel.map (sm.db.cell ftoa t)) := by
  induction each generalizing news with
  | nil =>
    cases placed
    rfl
  | @cons target c sel selected picks _ ih =>
    cases placed with
    | @cons _ new _ news here later =>
      obtain ⟨same, part, bytes, read⟩ := here
      obtain ⟨col, column, _⟩ := picks.column
      obtain ⟨type, wide⟩ := picks.kind col column
      cases bytes.symm.trans (picks.field t full)
      have sameType : new.type = c.type := by rw [same]
      have sameLen : new.len = c.len := by rw [same]
      rw [← sameType, ← sameLen] at wide
      rw [List.mapM_cons, readColumn_of_bytes read wide, sameType, type, ih later, List.map_cons, DbMeta.cell, column]
      rfl

/-- The executor of a SELECT has the chosen columns, and its tuples their texts. -/
theorem columns_of_picks {E : Executor} (each : List.Forall₂ (Picks sm plan cols) sel selected)
    (full : sm.db.Full plan.tables t) (small : totalLen selected ≤ intMax) :
    columns ftoa (ProjectionExecutor.executor ⟨E, selected⟩) (some (sm.db.chosen sel t)) =
      .ok (sel.map (sm.db.cell ftoa t)) := by
  obtain ⟨_, positive⟩ := picks_len each
  have copied : List.Forall₂ (fun col part => dataAt (some (flat plan.tables t)) col.offset col.len = .ok part)
      selected (sel.map (sm.db.field t)) :=
    List.forall₂_map_right_iff.mpr (List.Forall₂.flip (each.imp fun _ _ picks => picks.field t full))
  have start : ([] : RmRecord).length = 0 := rfl
  have placed := ProjectionExecutor.place_parts copied
    (fun col member part read => width_of_read (positive col member) read) positive (by simpa using small) start
  exact cells_of_parts each full placed

end

end Rmdb
