import Rmdb.Execution.Insert
import Rmdb.Execution.Statement
import Rmdb.Record.SameFile

namespace Rmdb
open RmFile RmFileHandle

/-! What INSERT, UPDATE and DELETE leave of a record file. -/

/-- A row that holds the values, each in its column. -/
structure TabMeta.Stores (tab : TabMeta) (values : List Value) (r : RmRecord) : Prop where
  count : values.length = tab.cols.length
  length : (r.length : Int) = totalLen tab.cols
  reads : ∀ p ∈ tab.cols.zip values, p.2.Plain → QlManager.readColumn r p.1 = .ok p.2.data

theorem checked_same {σ φ α : Type} [PageStore σ φ] (x : Except Error α) : Moves SameFile (checked x : RmM σ α) := by
  cases x with
  | ok a => exact Moves.pure a
  | error e => exact Moves.throw e

theorem checked_ok {σ α : Type} {x : Except Error α} {s t : RmFile σ} {a : α} (run : checked x s = .ok a t) :
    x = .ok a ∧ t = s := by
  cases x with
  | ok b =>
    cases run
    exact ⟨rfl, rfl⟩
  | error e => cases run

namespace InsertExecutor
variable {x : InsertExecutor} {ihs : String → Bool} {junk : Nat → UInt8}

theorem next_same {σ φ : Type} [PageStore σ φ] : Moves SameFile (x.next ihs junk : RmM σ Rid) := by
  refine Moves.get.bind fun s => ?_
  split
  · exact Moves.throw _
  · refine (checked_same _).bind fun r => (insertRecord_same _).bind fun rid => ?_
    exact (checked_same _).bind fun _ => Moves.pure _

/-- An insertion that returns leaves a file in order. -/
theorem next_inv {s t : RmFile FlatFile} {rid : Rid} (inv : s.FileInv) (run : x.next ihs junk s = .ok rid t) :
    t.FileInv := by
  rw [next, get_bind] at run
  split at run
  · cases run
  · change (checked _ >>= _) s = _ at run
    obtain ⟨r, u, made, rest⟩ := bind_eq_ok.mp run
    obtain ⟨rid', v, inserted, rest⟩ := bind_eq_ok.mp rest
    obtain ⟨_, w, indexed, rest⟩ := bind_eq_ok.mp rest
    cases rest
    obtain ⟨_, rfl⟩ := checked_ok made
    obtain ⟨_, rfl⟩ := checked_ok indexed
    obtain ⟨_, _, expected, invT, _⟩ := inv.insertRecord (hasSpace_of_insert inserted) r.ptr
    cases inserted.symm.trans expected
    exact invT

/-- An insertion into a table without indexes: refused with the file as it was, out of page numbers, or done. -/
theorem next_cases {s : RmFile FlatFile} (inv : s.FileInv) (laid : Consecutive 0 x.tab.cols)
    (size : s.hdr.recordSize = totalLen x.tab.cols) (bare : x.tab.indexes = [])
    (count : x.values.length = x.tab.cols.length) (unused : ∀ v ∈ x.values, v.raw = none) :
    (∃ e t, x.next ihs junk s = .error e t ∧ (e = .undefined ∨ t = s)) ∨
      ∃ rid t r, x.next ihs junk s = .ok rid t ∧ t.FileInv ∧ SameFile s t ∧ s.records rid = none ∧
        t.records = Function.update s.records rid (some r) ∧ x.tab.Stores x.values r := by
  have ready : ∀ index ∈ x.tab.indexes, IndexReady ihs x.tabName x.tab index := by
    rw [bare]
    exact fun index member => by cases member
  by_cases storable : ∀ p ∈ x.tab.cols.zip x.values, p.2.Storable p.1
  · rcases next_storable inv laid size ready count unused storable junk with
      ⟨_, t, overflow⟩ | ⟨rid, t, r, run, fresh, records, reads⟩
    · exact Or.inl ⟨_, t, overflow, Or.inl rfl⟩
    · have same := next_same.ok run
      have length := length_of_records (show t.records rid = some r by rw [records, Function.update_self])
      have recordSize := same.recordSize.trans size
      have positive := inv.sized.size_pos
      exact Or.inr ⟨rid, t, r, run, next_inv inv run, same, fresh, records, count, by omega, reads⟩
  · obtain ⟨_, _, _, refused⟩ := next_refused laid size count unused storable junk
    exact Or.inl ⟨_, s, refused, Or.inr rfl⟩

end InsertExecutor

namespace UpdateExecutor

theorem updateOne_same {σ φ : Type} [PageStore σ φ] (tab : TabMeta) (clauses : List SetClause) (rid : Rid) :
    Moves SameFile (updateOne tab clauses rid : RmM σ PUnit) := by
  refine (getRecord_same rid).bind fun r => (checked_same _).bind fun r => ?_
  split
  · exact Moves.throw _
  · exact updateRecord_same rid _

end UpdateExecutor

namespace Portal

theorem DmlRoot.run_same {σ φ : Type} [PageStore σ φ] (root : DmlRoot) : Moves SameFile (root.run : RmM σ PUnit) := by
  cases root with
  | update x => exact Moves.forM (UpdateExecutor.updateOne_same x.tab x.setClauses)
  | delete x => exact Moves.forM deleteRecord_same

end Portal

namespace RmFile.FileInv
variable {s t : RmFile FlatFile} {rids : List Rid}

/-- Each step keeps the file in order and the other records alive. -/
theorem forM {f : Rid → RmM FlatFile PUnit} (step : ∀ {s t : RmFile FlatFile} {rid : Rid}, s.FileInv →
      (s.records rid).isSome → f rid s = .ok ⟨⟩ t →
      t.FileInv ∧ ∀ other, other ≠ rid → t.records other = s.records other)
    (inv : s.FileInv) (nodup : rids.Nodup) (live : ∀ rid ∈ rids, (s.records rid).isSome)
    (run : rids.forM f s = .ok ⟨⟩ t) : t.FileInv := by
  induction rids generalizing s with
  | nil =>
    cases run
    exact inv
  | cons first rest ih =>
    obtain ⟨fresh, nodup⟩ := List.nodup_cons.mp nodup
    obtain ⟨here, live⟩ := List.forall_mem_cons.mp live
    obtain ⟨_, u, one, later⟩ := bind_eq_ok.mp run
    obtain ⟨invU, others⟩ := step inv here one
    refine ih invU nodup (fun rid member => ?_) later
    rw [others rid fun same => fresh (same ▸ member)]
    exact live rid member

theorem deletes (inv : s.FileInv) (nodup : rids.Nodup) (live : ∀ rid ∈ rids, (s.records rid).isSome)
    (run : rids.forM RmFileHandle.deleteRecord s = .ok ⟨⟩ t) : t.FileInv := by
  refine forM (fun {s t rid} inv here run => ?_) inv nodup live run
  obtain ⟨r, here⟩ := Option.isSome_iff_exists.mp here
  obtain ⟨_, expected, invT, records⟩ := inv.deleteRecord (inRange_of_records here)
  cases run.symm.trans expected
  exact ⟨invT, fun other different => by rw [records, Function.update_of_ne different]⟩

theorem updates {tab : TabMeta} {clauses : List SetClause} (inv : s.FileInv) (nodup : rids.Nodup)
    (live : ∀ rid ∈ rids, (s.records rid).isSome)
    (run : rids.forM (UpdateExecutor.updateOne tab clauses) s = .ok ⟨⟩ t) :
    t.FileInv := by
  refine forM (fun {s t rid} inv here run => ?_) inv nodup live run
  obtain ⟨r, here⟩ := Option.isSome_iff_exists.mp here
  have range := inRange_of_records here
  rw [UpdateExecutor.updateOne, bind_ok (inv.getRecord range)] at run
  obtain ⟨r', u, rewritten, run⟩ := bind_eq_ok.mp run
  obtain ⟨_, rfl⟩ := checked_ok rewritten
  cases r' with
  | none => cases run
  | some r' =>
    obtain ⟨_, expected, invT, records⟩ := inv.updateRecord range r'.ptr
    cases run.symm.trans expected
    refine ⟨invT, fun other different => ?_⟩
    rw [records, here, Option.isSome_some, if_pos rfl, Function.update_of_ne different]

end RmFile.FileInv

namespace Portal
open Analyze RmScan
variable {sm : SmManager} {tabName : String} {tab : TabMeta} {fh : RmFile FlatFile} {stmt : Ast.TreeNode}
  {query : Query}

/-- What `start` makes of an UPDATE or DELETE of the found records. -/
def rootOf (tab : TabMeta) (query : Query) (found : List Rid) : Ast.TreeNode → DmlRoot
  | .updateStmt .. => .update ⟨tab, found, query.setClauses⟩
  | _ => .delete ⟨found⟩

/-- The records that match, in the order of the scan. -/
def matching (fh : RmFile FlatFile) (tab : TabMeta) (last : ColMeta) (conds : List Condition) : List Rid :=
  (rids fh).filter (scanOf fh tab last conds).keeps

theorem matching_live {last : ColMeta} {conds : List Condition} (inv : fh.FileInv) :
    ∀ rid ∈ matching fh tab last conds, (fh.records rid).isSome := by
  intro rid member
  obtain ⟨r, live, _⟩ := (mem_found inv).mp member
  rw [live]
  rfl

/-- The change of the matching records returns, and leaves a file in order. -/
theorem run_matching (last : ColMeta) (inv : fh.FileInv) (kind : Changes tabName stmt)
    (settable : ∀ clause ∈ query.setClauses, Settable tab clause)
    (writable : ∀ clause ∈ query.setClauses, UpdateExecutor.Writable tab fh.hdr.recordSize clause) :
    ∃ t, (rootOf tab query (matching fh tab last query.conds) stmt).run fh = .ok ⟨⟩ t ∧ t.FileInv ∧ SameFile fh t ∧
      ∀ rid, t.records rid = (fh.records rid).bind fun r =>
        if evalRows tab.cols r query.conds = .ok true then effect tab query stmt r else some r := by
  have nodup : (matching fh tab last query.conds).Nodup := List.Nodup.filter _ nodup_rids
  have size : ∀ rid r, fh.records rid = some r → (r.length : Int) = fh.hdr.recordSize :=
    fun _ _ live => inv.record_length live
  cases stmt with
  | updateStmt t clauses svConds =>
    obtain ⟨t, run, changed⟩ := inv.updateAll (f := UpdateExecutor.overwriteAll tab query.setClauses) nodup
      fun rid member => by
        obtain ⟨r, live, _⟩ := (mem_found inv).mp member
        exact ⟨r, live, UpdateExecutor.rewrite_inside (r := r) settable (by rw [size _ _ live]; exact writable)⟩
    have same := @DmlRoot.run_same FlatFile _ _ (.update ⟨tab, matching fh tab last query.conds, query.setClauses⟩)
    refine ⟨t, run, inv.updates nodup (matching_live inv) run, same.ok run, fun rid => ?_⟩
    have after : t.records rid = if rid ∈ matching fh tab last query.conds
        then (fh.records rid).bind (effect tab query (.updateStmt tabName clauses svConds)) else fh.records rid := by
      rw [changed]
      cases fh.records rid <;> rfl
    exact records_after inv after
  | deleteStmt t svConds =>
    obtain ⟨t, run, changed⟩ := inv.deleteAll nodup (matching_live inv)
    have same := @DmlRoot.run_same FlatFile _ _ (.delete ⟨matching fh tab last query.conds⟩)
    refine ⟨t, run, inv.deletes nodup (matching_live inv) run, same.ok run, fun rid => ?_⟩
    have after : t.records rid = if rid ∈ matching fh tab last query.conds
        then (fh.records rid).bind (effect tab query (.deleteStmt tabName svConds)) else fh.records rid := by
      rw [changed]
      cases fh.records rid <;> rfl
    exact records_after inv after
  | _ => cases kind

end Portal

end Rmdb
