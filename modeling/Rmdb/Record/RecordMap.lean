import Rmdb.Record.FileSpec

namespace Rmdb
open RmFile RmFileHandle

/-- What a record file is for: a finite map from record numbers to record bytes. -/
abbrev RecordMap := Rid → Option RmRecord

/-- A run of the record operations on one file, next to the map the same calls
make of the empty one. The map never looks at the file. -/
inductive RecordRun : RmFile FlatFile → RecordMap → Prop
  | created {recordSize fd : Int} {h : RmFileHandle} {e f : FlatFile} : RmManager.created recordSize fd e = .ok h f →
      RecordRun ⟨h, f⟩ fun _ => none
  | insert {s t : RmFile FlatFile} {m : RecordMap} {buf : Nat → UInt8} {rid : Rid} : RecordRun s m →
      insertRecord buf s = .ok rid t → RecordRun t (Function.update m rid (some (recordOf s.hdr buf)))
  | delete {s t : RmFile FlatFile} {m : RecordMap} {rid : Rid} : RecordRun s m → s.InRange rid →
      deleteRecord rid s = .ok ⟨⟩ t → RecordRun t (Function.update m rid none)
  | update {s t : RmFile FlatFile} {m : RecordMap} {rid : Rid} {buf : Nat → UInt8} : RecordRun s m → s.InRange rid →
      updateRecord rid buf s = .ok ⟨⟩ t →
      RecordRun t (if (m rid).isSome then Function.update m rid (some (recordOf s.hdr buf)) else m)
  | get {s t : RmFile FlatFile} {m : RecordMap} {rid : Rid} {r : Option RmRecord} : RecordRun s m → s.InRange rid →
      getRecord rid s = .ok r t → RecordRun t m
  | isRecord {s t : RmFile FlatFile} {m : RecordMap} {rid : Rid} {b : Bool} : RecordRun s m → s.InRange rid →
      isRecord rid s = .ok b t → RecordRun t m
  | reopen {s t : RmFile FlatFile} {m : RecordMap} {fd : Int} : RecordRun s m →
      RmManager.reopen fd s = .ok ⟨⟩ t → RecordRun t m

namespace RecordRun
variable {s : RmFile FlatFile} {m : RecordMap}

/-- The file keeps its invariant and holds exactly the map. -/
theorem holds (run : RecordRun s m) : s.FileInv ∧ s.records = m := by
  induction run with
  | created made => exact FileInv.created made
  | insert _ call ih =>
    obtain ⟨inv, rfl⟩ := ih
    obtain ⟨rid, t, expected, invT, _, _, records, _⟩ := inv.insertRecord (hasSpace_of_insert call) _
    rw [call] at expected
    cases expected
    exact ⟨invT, records⟩
  | delete _ range call ih =>
    obtain ⟨inv, rfl⟩ := ih
    obtain ⟨t, expected, invT, records⟩ := inv.deleteRecord range
    rw [call] at expected
    cases expected
    exact ⟨invT, records⟩
  | update _ range call ih =>
    obtain ⟨inv, rfl⟩ := ih
    obtain ⟨t, expected, invT, records⟩ := inv.updateRecord range _
    rw [call] at expected
    cases expected
    exact ⟨invT, records⟩
  | get _ range call ih =>
    rw [ih.1.getRecord range] at call
    cases call
    exact ih
  | isRecord _ range call ih =>
    rw [ih.1.isRecord range] at call
    cases call
    exact ih
  | reopen _ call ih =>
    obtain ⟨inv, rfl⟩ := ih
    obtain ⟨t, expected, invT, records, _⟩ := inv.reopen _
    rw [call] at expected
    cases expected
    exact ⟨invT, records⟩

end RecordRun

/-- After every run each operation returns, with the reply and the effect it has on
the map: an insertion picks a `Rid` that is not live, an update or a deletion
touches the given `Rid` only, and reopening changes nothing. -/
theorem record_file_refines_map {s : RmFile FlatFile} {m : RecordMap} (run : RecordRun s m) :
    (∀ buf, s.HasSpace → ∃ rid t, insertRecord buf s = .ok rid t ∧ t.InRange rid ∧ m rid = none ∧
        t.records = Function.update m rid (some (recordOf s.hdr buf))) ∧
      (∀ rid, s.InRange rid →
        getRecord rid s = .ok (m rid) s ∧ isRecord rid s = .ok (m rid).isSome s ∧
        (∃ t, deleteRecord rid s = .ok ⟨⟩ t ∧ t.records = Function.update m rid none) ∧
        ∀ buf, ∃ t, updateRecord rid buf s = .ok ⟨⟩ t ∧
          t.records = if (m rid).isSome then Function.update m rid (some (recordOf s.hdr buf)) else m) ∧
      ∀ fd, ∃ t, RmManager.reopen fd s = .ok ⟨⟩ t ∧ t.records = m := by
  obtain ⟨inv, rfl⟩ := run.holds
  refine ⟨?_, ?_, ?_⟩
  · intro buf space
    obtain ⟨rid, t, call, _, range, fresh, records, _⟩ := inv.insertRecord space buf
    exact ⟨rid, t, call, range, fresh, records⟩
  · intro rid range
    refine ⟨inv.getRecord range, inv.isRecord range, ?_, fun buf => ?_⟩
    · obtain ⟨t, call, _, records⟩ := inv.deleteRecord range
      exact ⟨t, call, records⟩
    · obtain ⟨t, call, _, records⟩ := inv.updateRecord range buf
      exact ⟨t, call, records⟩
  · intro fd
    obtain ⟨t, call, _, records, _⟩ := inv.reopen fd
    exact ⟨t, call, records⟩

/-- A record inserted into a new file with four-byte records is read back. -/
theorem record_read_back : ∃ (s : RmFile FlatFile) (m : RecordMap) (rid : Rid), RecordRun s m ∧ s.InRange rid ∧
    getRecord rid s = .ok (some [7, 8, 9, 10]) s := by
  have created := RecordRun.created (show RmManager.created 4 3 (FlatFile.blank 0) = _ from rfl)
  obtain ⟨rid, t, call, range, _⟩ :=
    (record_file_refines_map created).1 (fun i => UInt8.ofNat (i + 7)) (Or.inl (by decide))
  have inserted := created.insert call
  have read := ((record_file_refines_map inserted).2.1 rid range).1
  refine ⟨t, _, rid, inserted, range, ?_⟩
  rw [read, Function.update_self]
  rfl

end Rmdb
