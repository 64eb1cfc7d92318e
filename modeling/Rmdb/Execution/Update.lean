import Rmdb.Analyze.Accepted
import Rmdb.Execution.Dml
import Rmdb.Execution.Lockstep

namespace Rmdb
open RmScan

theorem Portal.collectRids_running {E : Executor} {s : E.State} {rid : Rid} {fuel turns : Nat}
    (running : E.isEnd s = .ok false)
    (here : E.rid s = some rid) : Portal.collectRids E fuel (turns + 1) s =
      (E.nextTuple fuel s >>= fun s => Portal.collectRids E fuel turns s >>= fun rids => pure (rid :: rids)) := by
  rw [Portal.collectRids, running, here]
  rfl

namespace SeqScanExecutor
variable {x : SeqScanExecutor}

/-- The records of a list that satisfy the conditions, looked at in order. -/
def sweep (x : SeqScanExecutor) : List Rid → Except Error (List Rid)
  | [] => .ok []
  | rid :: rest => do
    let holds ← x.evalConds (x.fh.records rid)
    let rids ← sweep x rest
    return if holds then rid :: rids else rids

/-- The scan of `start` collects the records that satisfy the conditions. -/
theorem collect_sweep (inv : x.fh.FileInv) {later : List Rid} {scan : RmScan} {turns left fuel : Nat} (rid : Option Rid)
    (here : Position x.fh scan later) (enough : later.length < turns) (enough' : later.length < left)
    (bound : later.length < fuel) :
    (x.search turns scan rid >>= Portal.collectRids x.executor fuel left) = liftM (x.sweep later) := by
  induction later generalizing scan rid turns left with
  | nil =>
    obtain ⟨turns, rfl⟩ := Nat.exists_eq_succ_of_ne_zero (by omega : turns ≠ 0)
    obtain ⟨left, rfl⟩ := Nat.exists_eq_succ_of_ne_zero (by omega : left ≠ 0)
    cases (here : scan = atEnd)
    rfl
  | cons first rest ih =>
    simp only [List.length_cons] at enough enough' bound
    obtain ⟨turns, rfl⟩ := Nat.exists_eq_succ_of_ne_zero (by omega : turns ≠ 0)
    obtain ⟨left, rfl⟩ := Nat.exists_eq_succ_of_ne_zero (by omega : left ≠ 0)
    have at_first : scan = ⟨first⟩ := here.1
    subst at_first
    have running := running_of_position here
    have read : reading x.fh (RmFileHandle.getRecord first) = .ok (x.fh.records first) := by
      rw [reading, inv.getRecord here.2.2.1]
    obtain ⟨following, run, there⟩ := next_spec inv.wellFormed here
    have moved : reading x.fh (RmScan.next ⟨first⟩) = .ok following := by
      rw [reading, run]
    rw [search, running, sweep]
    simp only [Bool.false_eq_true, if_false, read, lift_ok, ok_bind]
    cases holds : x.evalConds (x.fh.records first) with
    | error e => rfl
    | ok b =>
      simp only [lift_ok, ok_bind, moved]
      cases b with
      | false =>
        simp only [Bool.false_eq_true, if_false]
        rw [ih (some first) there (by omega) (by omega) (by omega)]
        cases x.sweep rest <;> rfl
      | true =>
        simp only [if_true]
        have unfinished : x.executor.isEnd ⟨some ⟨first⟩, some first⟩ = .ok false := congrArg Except.ok running
        have step : x.executor.nextTuple fuel ⟨some ⟨first⟩, some first⟩ = x.search fuel following (some first) := by
          change (liftM (reading x.fh (RmScan.next ⟨first⟩)) >>= _) = _
          rw [moved]
          rfl
        change Portal.collectRids x.executor fuel (left + 1) ⟨some ⟨first⟩, some first⟩ = _
        rw [Portal.collectRids_running unfinished rfl, step]
        refine (bind_assoc (x.search fuel following (some first)) (Portal.collectRids x.executor fuel left)
          fun rids => pure (first :: rids)).symm.trans ?_
        rw [ih (some first) there (by omega) (by omega) (by omega)]
        cases x.sweep rest <;> rfl

/-- Whether the scan keeps a record. -/
def keeps (x : SeqScanExecutor) (rid : Rid) : Bool := x.evalConds (x.fh.records rid) = .ok true

theorem sweep_ok_iff {later rids : List Rid} :
    x.sweep later = .ok rids ↔ (∀ rid ∈ later, ∃ b, x.evalConds (x.fh.records rid) = .ok b) ∧
        rids = later.filter x.keeps := by
  induction later generalizing rids with
  | nil => simp [sweep, eq_comm]
  | cons first rest ih =>
    rw [sweep]
    cases holds : x.evalConds (x.fh.records first) with
    | error e =>
      constructor
      · intro run
        cases run
      · intro ⟨returns, _⟩
        obtain ⟨b, run⟩ := returns first List.mem_cons_self
        rw [holds] at run
        cases run
    | ok b =>
      have kept : x.keeps first = b := by simp [keeps, holds]
      rw [ok_bind, bind_eq_ok_iff, List.forall_mem_cons, List.filter_cons, kept]
      constructor
      · intro ⟨more, run, same⟩
        obtain ⟨returns, rfl⟩ := ih.mp run
        cases same
        exact ⟨⟨⟨b, holds⟩, returns⟩, rfl⟩
      · intro ⟨⟨_, returns⟩, same⟩
        refine ⟨_, ih.mpr ⟨returns, rfl⟩, ?_⟩
        rw [same]
        rfl

end SeqScanExecutor

namespace RmFile
open RmFileHandle
variable {s : RmFile FlatFile} {rid : Rid}

theorem inRange_of_records {r : RmRecord} (live : s.records rid = some r) : s.InRange rid := by
  unfold records at live
  split at live
  · rename_i marked
    exact ⟨marked.1, marked.2.1, marked.2.2.1⟩
  · cases live

theorem length_of_records {r : RmRecord} (live : s.records rid = some r) : r.length = s.hdr.recordSize.toNat := by
  unfold records at live
  split at live
  · cases live
    simp [RmPageHandle.readSlot]
  · cases live

theorem recordOf_ptr {h : RmFileHdr} {r : RmRecord} (size : r.length = h.recordSize.toNat) : recordOf h r.ptr = r := by
  unfold recordOf
  rw [← size]
  apply List.ext_getElem
  · simp
  · intro i _ inside
    simp [RmRecord.ptr, inside]

namespace FileInv

theorem record_length (inv : s.FileInv) {r : RmRecord} (live : s.records rid = some r) :
    (r.length : Int) = s.hdr.recordSize := by
  have positive := inv.sized.size_pos
  rw [length_of_records live]
  omega

/-- A list of deletions takes away exactly its records. -/
theorem deleteAll {rids : List Rid} (inv : s.FileInv) (nodup : rids.Nodup)
    (live : ∀ rid ∈ rids, (s.records rid).isSome) :
    ∃ t, rids.forM RmFileHandle.deleteRecord s = .ok ⟨⟩ t ∧ ∀ rid,
        t.records rid = if rid ∈ rids then none else s.records rid := by
  induction rids generalizing s with
  | nil => exact ⟨s, rfl, fun _ => rfl⟩
  | cons first rest ih =>
    obtain ⟨fresh, nodup⟩ := List.nodup_cons.mp nodup
    obtain ⟨r, here⟩ := Option.isSome_iff_exists.mp (live first List.mem_cons_self)
    obtain ⟨u, run, invU, changed⟩ := inv.deleteRecord (inRange_of_records here)
    have others : ∀ rid ∈ rest, u.records rid = s.records rid := by
      intro rid member
      rw [changed, Function.update_of_ne]
      intro same
      exact fresh (same ▸ member)
    obtain ⟨t, later, records⟩ := ih invU nodup fun rid member => by
      rw [others rid member]
      exact live rid (List.mem_cons_of_mem _ member)
    refine ⟨t, ?_, fun rid => ?_⟩
    · exact (bind_ok run).trans later
    · rw [records, changed]
      by_cases same : rid = first
      · subst same
        simp
      · simp [same]

/-- A list of updates rewrites exactly its records. -/
theorem updateAll {rids : List Rid} {tab : TabMeta} {clauses : List SetClause} {f : RmRecord → RmRecord}
    (inv : s.FileInv)
    (nodup : rids.Nodup) (live : ∀ rid ∈ rids, ∃ r, s.records rid = some r ∧
      UpdateExecutor.rewrite tab clauses (some r) = .ok (some (f r)) ∧ (f r).length = r.length) :
    ∃ t, rids.forM (UpdateExecutor.updateOne tab clauses) s = .ok ⟨⟩ t ∧
      ∀ rid, t.records rid = if rid ∈ rids then (s.records rid).map f else s.records rid := by
  induction rids generalizing s with
  | nil => exact ⟨s, rfl, fun _ => rfl⟩
  | cons first rest ih =>
    obtain ⟨fresh, nodup⟩ := List.nodup_cons.mp nodup
    obtain ⟨r, here, rewritten, same_length⟩ := live first List.mem_cons_self
    have range := inRange_of_records here
    obtain ⟨u, run, invU, changed⟩ := inv.updateRecord range (f r).ptr
    rw [here, Option.isSome_some, if_pos rfl, recordOf_ptr (same_length.trans (length_of_records here))] at changed
    have one : UpdateExecutor.updateOne tab clauses first s = .ok ⟨⟩ u := by
      rw [UpdateExecutor.updateOne, bind_ok (inv.getRecord range), here, rewritten]
      exact run
    have others : ∀ rid ∈ rest, u.records rid = s.records rid := by
      intro rid member
      rw [changed, Function.update_of_ne]
      intro same
      exact fresh (same ▸ member)
    obtain ⟨t, later, records⟩ := ih invU nodup fun rid member => by
      rw [others rid member]
      exact live rid (List.mem_cons_of_mem _ member)
    refine ⟨t, ?_, fun rid => ?_⟩
    · exact (bind_ok one).trans later
    · rw [records, changed]
      by_cases same : rid = first
      · subst same
        simp [fresh, here]
      · simp [same]

end FileInv

end RmFile

end Rmdb
