import Rmdb.Execution.RecordPrinter
import Rmdb.System.Meta

namespace Rmdb
open RecordPrinter

/-! What SHOW TABLES and DESC print of the catalog. -/

def SmManager.showTables (db : DbMeta) : EStateM Error Context Unit :=
  printTable [ofText "Tables".toList] (db.tabs.map fun entry => [ofText entry.2.name.toList])

/-- The row of a column. -/
def ColMeta.fieldInfo (col : ColMeta) : List (List UInt8) :=
  [ofText col.name.toList, ofText (coltype2str col.type).toList, ofText (if col.index then "YES" else "NO").toList]

def SmManager.descTable (db : DbMeta) (tabName : String) : EStateM Error Context Unit :=
  match db.getTable tabName with
  | .error e => throw e
  | .ok tab =>
    printTable [ofText "Field".toList, ofText "Type".toList, ofText "Index".toList] (tab.cols.map ColMeta.fieldInfo)

/-- The reply is a prefix of the table, in whole cells and line ends, and below the place that is kept for a record
count. That something is missing is only in `ellipsis_`, which nobody prints here. -/
def Shows (buffer : List UInt8) (x : EStateM Error Context Unit) (captions : List (List UInt8))
    (rows : List (List (List UInt8))) : Prop :=
  ∃ shown hidden c, rendering captions rows = shown ++ hidden ∧ x ⟨buffer, 0, false⟩ = .ok () c ∧
    c.dataSend = shown.flatten ++ buffer.drop shown.flatten.length ∧ c.offset = shown.flatten.length ∧
    c.offset + RECORD_COUNT_LENGTH < BUFFER_LENGTH ∧ c.ellipsis = !hidden.isEmpty

section
variable {buffer : List UInt8}

theorem printTable_shows (size : buffer.length = BUFFER_LENGTH) {captions : List (List UInt8)}
    {rows : List (List (List UInt8))} (some : captions ≠ []) (count : ∀ row ∈ rows, row.length = captions.length) :
    Shows buffer (printTable captions rows) captions rows := by
  obtain ⟨shown, hidden, split, ran⟩ := @Clip.run_guarded _ limit [] _ (guarded_pieces some count)
  have small : (Clip.run limit ([], false) (pieces captions rows)).1.length < limit :=
    Clip.run_length (by decide) _
  have call := printTable_pieces size some count
  rw [ran] at call small
  refine ⟨shown.map (·.text), hidden.map (·.text), _, ?_, call, rfl, rfl, ?_, ?_⟩
  · rw [rendering, split, List.map_append]
  · change (Clip.texts shown).length < limit at small
    change ((Clip.texts shown).length : Int) + _ < _
    unfold limit RECORD_COUNT_LENGTH BUFFER_LENGTH at *
    omega
  · rw [List.isEmpty_map]
    rfl

/-- SHOW TABLES shows the names of all tables, and DESC all columns of a table that exists, as far as there is room. -/
theorem SmManager.catalog_shows (size : buffer.length = BUFFER_LENGTH) (db : DbMeta) :
    Shows buffer (showTables db) [ofText "Tables".toList] (db.tabs.map fun entry => [ofText entry.2.name.toList]) ∧
    ∀ tabName, (∀ tab, db.getTable tabName = .ok tab → Shows buffer (descTable db tabName)
      [ofText "Field".toList, ofText "Type".toList, ofText "Index".toList] (tab.cols.map ColMeta.fieldInfo)) ∧
      ∀ e c, db.getTable tabName = .error e → descTable db tabName c = .error e c := by
  refine ⟨printTable_shows size (List.cons_ne_nil _ _) fun row member => ?_, fun tabName =>
    ⟨fun tab found => ?_, fun e c missing => ?_⟩⟩
  · obtain ⟨_, _, rfl⟩ := List.mem_map.mp member
    rfl
  · unfold descTable
    rw [found]
    refine printTable_shows size (List.cons_ne_nil _ _) fun row member => ?_
    obtain ⟨_, _, rfl⟩ := List.mem_map.mp member
    rfl
  · unfold descTable
    rw [missing]
    rfl

/-- Where nothing is missing the reply is the whole table. -/
theorem Shows.whole {x : EStateM Error Context Unit} {captions : List (List UInt8)} {rows : List (List (List UInt8))}
    (shows : Shows buffer x captions rows) (complete : (stateAfter x ⟨buffer, 0, false⟩).ellipsis = false) :
    ∃ c, x ⟨buffer, 0, false⟩ = .ok () c ∧ c.dataSend.take c.offset.toNat = (rendering captions rows).flatten := by
  obtain ⟨shown, hidden, c, split, call, sent, offset, _, cut⟩ := shows
  rw [stateAfter, call] at complete
  have none : hidden = [] := by
    rw [← List.isEmpty_iff, ← Bool.not_eq_false', ← cut]
    exact complete
  subst none
  refine ⟨c, call, ?_⟩
  rw [split, List.append_nil, sent, offset, Int.toNat_natCast, List.take_left]

/-- `create table t (a int, b char(4)); create table u (c float);` -/
def twoTabs : DbMeta := ⟨"db", [("t", ⟨"t", [⟨"t", "a", .int, 4, 0, false⟩, ⟨"t", "b", .string, 4, 4, false⟩], []⟩),
  ("u", ⟨"u", [⟨"u", "c", .float, 4, 0, false⟩], []⟩)]⟩

/-- Both tables, and both columns of one of them. -/
theorem SmManager.catalog_shows_two : ∃ c c',
    showTables twoTabs ⟨List.replicate BUFFER_LENGTH 0, 0, false⟩ = .ok () c ∧
      c.dataSend.take c.offset.toNat = (rendering [ofText "Tables".toList]
        [[ofText "t".toList], [ofText "u".toList]]).flatten ∧
      descTable twoTabs "t" ⟨List.replicate BUFFER_LENGTH 0, 0, false⟩ = .ok () c' ∧
      c'.dataSend.take c'.offset.toNat = (rendering [ofText "Field".toList, ofText "Type".toList, ofText "Index".toList]
        [[ofText "a".toList, ofText "INT".toList, ofText "NO".toList],
          [ofText "b".toList, ofText "STRING".toList, ofText "NO".toList]]).flatten := by
  obtain ⟨tables, columns⟩ := catalog_shows (List.length_replicate (a := (0 : UInt8))) twoTabs
  obtain ⟨c, call, sent⟩ := tables.whole (by decide +kernel)
  obtain ⟨c', call', sent'⟩ := ((columns "t").1 _ rfl).whole (by decide +kernel)
  exact ⟨c, c', call, sent, call', sent'⟩

end

end Rmdb
