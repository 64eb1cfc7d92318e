import Rmdb.Execution.Inside
import Rmdb.Execution.Update
import Rmdb.Record.RecordMap

namespace Rmdb
open Analyze RmScan

/-- The plan scans its table from end to end. -/
def DMLPlan.Sequential : DMLPlan → Prop
  | .update (.scan p) _ _ => p.tag = .seqScan
  | .delete (.scan p) _ => p.tag = .seqScan
  | _ => False

namespace Portal
open UpdateExecutor

/-- An UPDATE or DELETE of the table. -/
def Changes (tabName : String) : Ast.TreeNode → Prop
  | .updateStmt t _ _ => t = tabName
  | .deleteStmt t _ => t = tabName
  | _ => False

/-- What becomes of a record that matches. -/
def effect (tab : TabMeta) (query : Query) : Ast.TreeNode → RmRecord → Option RmRecord
  | .updateStmt _ _ _, r => some (overwriteAll tab query.setClauses r)
  | _, _ => none

/-- The statement returns, and has changed exactly the records that matched before it. -/
def Acts (sm : SmManager) (plan : DMLPlan) (fh : RmFile FlatFile) (cols : List ColMeta) (conds : List Condition)
    (effect : RmRecord → Option RmRecord) : Prop :=
  ∃ enough, ∀ fuel, enough ≤ fuel → ∃ root t, start sm fuel plan = .ok root ∧ root.run fh = .ok ⟨⟩ t ∧
    ∀ rid, t.records rid = (fh.records rid).bind fun r => if evalRows cols r conds = .ok true then effect r else some r

section
variable {sm : SmManager} {tabName : String} {tab : TabMeta} {fh : RmFile FlatFile} {conds : List Condition}

/-- The scan of a table with these conditions. -/
def scanOf (fh : RmFile FlatFile) (tab : TabMeta) (last : ColMeta) (conds : List Condition) : SeqScanExecutor :=
  ⟨fh, tab.cols, sizeT (last.offset + last.len), conds⟩

theorem scanRids_eq {p : ScanPlan} {last : ColMeta} {fuel : Nat} (tag : p.tag = .seqScan)
    (table : sm.db.getTable p.tabName = .ok tab)
    (file : sm.fhs p.tabName = some fh) (end_col : tab.cols.getLast? = some last) (inv : fh.FileInv)
    (enough : (rids fh).length < fuel) : scanRids sm (.scan p) fuel =
        liftM ((scanOf fh tab last p.conds).sweep (rids fh)) := by
  have made : SeqScanExecutor.new sm p.tabName p.conds = .ok (scanOf fh tab last p.conds) := by
    rw [SeqScanExecutor.new, table, ok_bind]
    simp only [file, end_col]
    rfl
  have built : convertPlanExecutor sm (.scan p) = .ok (scanOf fh tab last p.conds).executor := by
    simp only [convertPlanExecutor, tag, made]
  obtain ⟨scan, run, here⟩ := new_spec inv.wellFormed
  have begun : (scanOf fh tab last p.conds).executor.beginTuple fuel (scanOf fh tab last p.conds).executor.fresh =
      (scanOf fh tab last p.conds).search fuel scan none := by
    change (liftM (reading fh RmScan.new) >>= _) = _
    rw [reading, run]
    rfl
  simp only [scanRids, built, begun]
  exact SeqScanExecutor.collect_sweep (x := scanOf fh tab last p.conds) inv none here enough enough enough

/-- The records the scan finds are those that match. -/
theorem mem_found {last : ColMeta} (inv : fh.FileInv) {rid : Rid} :
    rid ∈ (rids fh).filter (scanOf fh tab last conds).keeps ↔
      ∃ r, fh.records rid = some r ∧ evalRows tab.cols r conds = .ok true := by
  rw [List.mem_filter, mem_rids inv.wellFormed, Option.isSome_iff_exists]
  constructor
  · intro ⟨⟨r, live⟩, keeps⟩
    refine ⟨r, live, ?_⟩
    have holds : (scanOf fh tab last conds).evalConds (fh.records rid) = .ok true := of_decide_eq_true keeps
    rw [live] at holds
    exact holds
  · intro ⟨r, live, holds⟩
    refine ⟨⟨r, live⟩, decide_eq_true ?_⟩
    change (scanOf fh tab last conds).evalConds (fh.records rid) = .ok true
    rw [live]
    exact holds

theorem sweep_found {last : ColMeta} (inv : fh.FileInv) {found : List Rid} :
    (scanOf fh tab last conds).sweep (rids fh) = .ok found ↔
      (∀ rid r, fh.records rid = some r → ∃ b, evalRows tab.cols r conds = .ok b) ∧
        found = (rids fh).filter (scanOf fh tab last conds).keeps := by
  rw [SeqScanExecutor.sweep_ok_iff]
  refine and_congr_left fun _ => ?_
  constructor
  · intro returns rid r live
    have := returns rid ((mem_rids inv.wellFormed).mpr (by rw [live]; rfl))
    change ∃ b, (scanOf fh tab last conds).evalConds (fh.records rid) = .ok b at this
    rw [live] at this
    exact this
  · intro returns rid member
    obtain ⟨r, live⟩ := Option.isSome_iff_exists.mp ((mem_rids inv.wellFormed).mp member)
    change ∃ b, (scanOf fh tab last conds).evalConds (fh.records rid) = .ok b
    rw [live]
    exact returns rid r live

/-- The records after a change of the found ones. -/
theorem records_after {last : ColMeta} (inv : fh.FileInv) {f : RmRecord → Option RmRecord} {rid : Rid}
    {after : Option RmRecord}
    (changed : after =
      if rid ∈ (rids fh).filter (scanOf fh tab last conds).keeps then (fh.records rid).bind f else fh.records rid) :
    after = (fh.records rid).bind fun r => if evalRows tab.cols r conds = .ok true then f r else some r := by
  rw [changed]
  cases live : fh.records rid with
  | none => simp
  | some r =>
    by_cases holds : evalRows tab.cols r conds = .ok true
    · have found : rid ∈ (rids fh).filter (scanOf fh tab last conds).keeps := (mem_found inv).mpr ⟨r, live, holds⟩
      rw [if_pos found, Option.bind_some, Option.bind_some, if_pos holds]
    · have missed : rid ∉ (rids fh).filter (scanOf fh tab last conds).keeps := by
        intro found
        obtain ⟨r', live', holds'⟩ := (mem_found inv).mp found
        rw [live] at live'
        cases live'
        exact holds holds'
      rw [if_neg missed, Option.bind_some, if_neg holds]

/-- A statement that returns has looked at every record. -/
theorem returns_of_acts {plan : DMLPlan} {p : ScanPlan} {last : ColMeta} {root : List Rid → DmlRoot}
    {f : RmRecord → Option RmRecord}
    (tag : p.tag = .seqScan) (table : sm.db.getTable p.tabName = .ok tab) (file : sm.fhs p.tabName = some fh)
    (end_col : tab.cols.getLast? = some last) (inv : fh.FileInv)
    (started : ∀ fuel, start sm fuel plan = scanRids sm (.scan p) fuel >>= fun found => .ok (root found))
    (acts : Acts sm plan fh tab.cols p.conds f) :
    (∀ rid r, fh.records rid = some r → ∃ b, evalRows tab.cols r p.conds = .ok b) ∧
      ∃ t, (root ((rids fh).filter (scanOf fh tab last p.conds).keeps)).run fh = .ok ⟨⟩ t := by
  obtain ⟨enough, run⟩ := acts
  obtain ⟨_, t, begun, changed, _⟩ := run (max enough ((rids fh).length + 1)) (by omega)
  rw [started, scanRids_eq tag table file end_col inv (by omega)] at begun
  obtain ⟨found, swept, same⟩ := bind_eq_ok_iff.mp begun
  cases same
  obtain ⟨returns, rfl⟩ := (sweep_found inv).mp (lift_eq_ok.mp swept)
  exact ⟨returns, t, changed⟩

theorem acts_of_returns {plan : DMLPlan} {p : ScanPlan} {last : ColMeta} {root : List Rid → DmlRoot}
    {f : RmRecord → Option RmRecord}
    (tag : p.tag = .seqScan) (table : sm.db.getTable p.tabName = .ok tab) (file : sm.fhs p.tabName = some fh)
    (end_col : tab.cols.getLast? = some last) (inv : fh.FileInv)
    (started : ∀ fuel, start sm fuel plan = scanRids sm (.scan p) fuel >>= fun found => .ok (root found))
    (returns : ∀ rid r, fh.records rid = some r → ∃ b, evalRows tab.cols r p.conds = .ok b) {t : RmFile FlatFile}
    (run : (root ((rids fh).filter (scanOf fh tab last p.conds).keeps)).run fh = .ok ⟨⟩ t)
    (changed : ∀ rid, t.records rid = if rid ∈ (rids fh).filter (scanOf fh tab last p.conds).keeps
      then (fh.records rid).bind f else fh.records rid) : Acts sm plan fh tab.cols p.conds f := by
  refine ⟨(rids fh).length + 1, fun fuel enough => ?_⟩
  refine ⟨_, t, ?_, run, fun rid => records_after inv (changed rid)⟩
  rw [started, scanRids_eq tag table file end_col inv (by omega), (sweep_found inv).mpr ⟨returns, rfl⟩]
  rfl

theorem delete_acts_iff {p : ScanPlan} {last : ColMeta} (tag : p.tag = .seqScan)
    (table : sm.db.getTable p.tabName = .ok tab)
    (file : sm.fhs p.tabName = some fh) (end_col : tab.cols.getLast? = some last) (inv : fh.FileInv) :
    Acts sm (.delete (.scan p) p.tabName) fh tab.cols p.conds (fun _ => none) ↔
      ∀ rid r, fh.records rid = some r → ∃ b, evalRows tab.cols r p.conds = .ok b := by
  have started : ∀ fuel, start sm fuel (.delete (.scan p) p.tabName) =
      scanRids sm (.scan p) fuel >>= fun found => .ok (.delete ⟨found⟩) := by
    intro fuel
    simp only [start, table, fileOf, file]
    rfl
  constructor
  · intro acts
    exact (returns_of_acts tag table file end_col inv started acts).1
  · intro returns
    obtain ⟨t, run, changed⟩ := inv.deleteAll
        (List.Nodup.filter (scanOf fh tab last p.conds).keeps nodup_rids) fun rid member => by
      obtain ⟨r, live, _⟩ := (mem_found inv).mp member
      rw [live]
      rfl
    refine acts_of_returns tag table file end_col inv started returns run fun rid => ?_
    rw [changed]
    cases fh.records rid <;> rfl

theorem update_acts_iff {p : ScanPlan} {last : ColMeta} {clauses : List SetClause} (tag : p.tag = .seqScan)
    (table : sm.db.getTable p.tabName = .ok tab) (file : sm.fhs p.tabName = some fh)
    (end_col : tab.cols.getLast? = some last)
    (inv : fh.FileInv) (settable : ∀ clause ∈ clauses, Settable tab clause) :
    Acts sm (.update (.scan p) p.tabName clauses) fh tab.cols p.conds (fun r => some (overwriteAll tab clauses r)) ↔
      (∀ rid r, fh.records rid = some r → ∃ b, evalRows tab.cols r p.conds = .ok b) ∧
        ((∃ rid r, fh.records rid = some r ∧ evalRows tab.cols r p.conds = .ok true) →
          ∀ clause ∈ clauses, Writable tab fh.hdr.recordSize clause) := by
  have started : ∀ fuel, start sm fuel (.update (.scan p) p.tabName clauses) =
      scanRids sm (.scan p) fuel >>= fun found => .ok (.update ⟨tab, found, clauses⟩) := by
    intro fuel
    simp only [start, table, fileOf, file]
    rfl
  have size : ∀ rid r, fh.records rid = some r → (r.length : Int) = fh.hdr.recordSize :=
    fun _ _ live => inv.record_length live
  constructor
  · intro acts
    obtain ⟨returns, t, run⟩ := returns_of_acts tag table file end_col inv started acts
    refine ⟨returns, ?_⟩
    rintro ⟨rid, r, live, holds⟩ clause member
    have found : rid ∈ (rids fh).filter (scanOf fh tab last p.conds).keeps := (mem_found inv).mpr ⟨r, live, holds⟩
    by_contra outside
    change List.forM _ (updateOne tab clauses) fh = _ at run
    cases list : (rids fh).filter (scanOf fh tab last p.conds).keeps with
    | nil =>
      rw [list] at found
      cases found
    | cons first rest =>
      rw [list] at run
      obtain ⟨_, u, one, _⟩ := bind_eq_ok.mp run
      have member' : first ∈ (rids fh).filter (scanOf fh tab last p.conds).keeps := list ▸ List.mem_cons_self
      obtain ⟨r', live', _⟩ := (mem_found inv).mp member'
      have stuck := rewrite_outside (r := r') settable member (by rw [size _ _ live']; exact outside)
      rw [updateOne, bind_ok (inv.getRecord (RmFile.inRange_of_records live')), live', stuck] at one
      cases one
  · rintro ⟨returns, writable⟩
    obtain ⟨t, run, changed⟩ := inv.updateAll (f := overwriteAll tab clauses)
      (List.Nodup.filter (scanOf fh tab last p.conds).keeps nodup_rids) fun rid member => by
        obtain ⟨r, live, holds⟩ := (mem_found inv).mp member
        have inside := rewrite_inside (r := r) settable (by rw [size _ _ live]; exact writable ⟨rid, r, live, holds⟩)
        exact ⟨r, live, inside⟩
    refine acts_of_returns tag table file end_col inv started returns run fun rid => ?_
    rw [changed]
    cases fh.records rid <;> rfl

end

/-- When UPDATE and DELETE act on exactly the records that matched before them: if the
comparisons that are made stay inside the records, and so do the columns that are set. -/
theorem dml_acts_iff {sm : SmManager} {stmt : Ast.TreeNode} {query : Query} {plan : DMLPlan} {tabName : String}
    {tab : TabMeta}
    {fh : RmFile FlatFile} (wf : sm.db.WF) (kind : Changes tabName stmt) (analyzed : doAnalyze sm.db stmt = .ok query)
    (own : ∀ c ∈ query.conds, c.Own tabName) (planned : Planner.doPlanner sm.db query stmt = .ok plan)
    (sequential : plan.Sequential) (table : sm.db.getTable tabName = .ok tab) (file : sm.fhs tabName = some fh)
    (inv : fh.FileInv) :
    Acts sm plan fh tab.cols query.conds (effect tab query stmt) ↔
      (∀ rid r, fh.records rid = some r → StaysInside tab.cols r query.conds) ∧
        ((∃ rid r, fh.records rid = some r ∧ evalRows tab.cols r query.conds = .ok true) →
          ∀ clause ∈ query.setClauses, Writable tab fh.hdr.recordSize clause) := by
  obtain ⟨last, end_col⟩ : ∃ last, tab.cols.getLast? = some last := by
    have nonempty := (wf _ _ (getTable_ok table)).2.2.1
    exact ⟨_, List.getLast?_eq_some_getLast nonempty⟩
  have inside : (∀ c ∈ query.conds, Typed sm.db c) →
      ((∀ rid r, fh.records rid = some r → StaysInside tab.cols r query.conds) ↔
        ∀ rid r, fh.records rid = some r → ∃ b, evalRows tab.cols r query.conds = .ok b) := by
    intro typed
    refine forall_congr' fun rid => forall_congr' fun r => imp_congr_right fun _ => ?_
    exact (evalRows_returns_iff wf table fun c member => ⟨typed c member, own c member⟩).symm
  cases stmt with
  | updateStmt t clauses svConds =>
    cases kind
    obtain ⟨tab', table', rest⟩ := bind_eq_ok_iff.mp analyzed
    rw [table] at table'
    cases table'
    obtain ⟨set, accepted, rest⟩ := bind_eq_ok_iff.mp rest
    obtain ⟨conds, checked, rest⟩ := bind_eq_ok_iff.mp rest
    cases rest
    obtain ⟨p, scan, rest⟩ := bind_eq_ok_iff.mp planned
    cases rest
    obtain ⟨rfl, rfl, _⟩ := Planner.scanPlan_ok scan
    have settable : ∀ clause ∈ set, Settable tab clause := by
      intro clause member
      obtain ⟨_, _, run⟩ := mem_mapM accepted member
      exact setClause_settable run
    rw [inside (checkClause_typed checked)]
    exact update_acts_iff sequential table file end_col inv settable
  | deleteStmt t svConds =>
    cases kind
    obtain ⟨conds, checked, rest⟩ := bind_eq_ok_iff.mp analyzed
    cases rest
    obtain ⟨p, scan, rest⟩ := bind_eq_ok_iff.mp planned
    cases rest
    obtain ⟨rfl, rfl, _⟩ := Planner.scanPlan_ok scan
    rw [inside (checkClause_typed checked)]
    refine (delete_acts_iff sequential table file end_col inv).trans ⟨fun returns => ⟨returns, ?_⟩, fun both => both.1⟩
    intro _ clause member
    cases member
  | _ => cases kind

/-- The table `t (a char(8), b char(4))`. -/
def charTable : TabMeta := ⟨"t", [⟨"t", "a", .string, 8, 0, false⟩, ⟨"t", "b", .string, 4, 8, false⟩], []⟩

def charFile : RmFile FlatFile :=
  match RmManager.created 12 3 (FlatFile.blank 0) with
  | .ok h f => stateAfter (RmFileHandle.insertRecord fun _ => 107) ⟨h, f⟩
  | .error _ f => ⟨⟨3, .create 12⟩, f⟩

theorem charFile_inv : charFile.FileInv := by
  have created := RecordRun.created (show RmManager.created 12 3 (FlatFile.blank 0) = _ from rfl)
  have inserted := created.insert (run_of_value (x := RmFileHandle.insertRecord fun _ => 107) (a := ⟨1, 0⟩) (by rfl))
  exact inserted.holds.1

/-- The table with one row. -/
def charSm : SmManager where
  db := ⟨"d", [("t", charTable)]⟩
  fhs t := if t = "t" then some charFile else none

theorem charSm_wf : charSm.db.WF := by
  apply DbMeta.wf_of_entries
  simp [charSm, charTable]

/-- `update t set b = 'x' where a = rhs`. -/
def updateWhere (rhs : Ast.Expr) : Ast.TreeNode := .updateStmt "t" [⟨"b", .string [120]⟩] [⟨⟨"", "a"⟩, .eq, rhs⟩]

theorem updateWhere_changes (rhs : Ast.Expr) : Changes "t" (updateWhere rhs) := rfl

theorem charFile_records {rid : Rid} {r : RmRecord} (live : charFile.records rid = some r) :
    r.length = 12 := by
  rw [RmFile.length_of_records live]
  rfl

/-- What the analyzer and the planner make of it. -/
def charQuery (c : Condition) : Query := ⟨[c], [], [], [⟨⟨"", "b"⟩, ⟨.str [120], some [120, 0, 0, 0]⟩⟩], []⟩

def charPlan (c : Condition) : DMLPlan :=
  .update (.scan ⟨.seqScan, "t", charTable.cols, [c], 12, []⟩) "t" (charQuery c).setClauses

def charLiteral : List UInt8 := List.replicate 8 107

/-- `a = 'kkkkkkkk'` with the literal encoded. -/
def literalCond : Condition := ⟨⟨"t", "a"⟩, .eq, true, ⟨"", ""⟩, ⟨.str charLiteral, some charLiteral⟩⟩

/-- `a = b`. -/
def columnCond : Condition := ⟨⟨"t", "a"⟩, .eq, false, ⟨"t", "b"⟩, ⟨.int 0, none⟩⟩

/-- The one row matches, and its `b` becomes `'x'`. -/
theorem dml_acts_literal : doAnalyze charSm.db (updateWhere (.val (.string charLiteral))) = .ok (charQuery literalCond) ∧
    Planner.doPlanner charSm.db (charQuery literalCond) (updateWhere (.val (.string charLiteral))) =
      .ok (charPlan literalCond) ∧
    charFile.records ⟨1, 0⟩ = some (List.replicate 12 107) ∧
    evalRows charTable.cols (List.replicate 12 107) [literalCond] = .ok true ∧
    Acts charSm (charPlan literalCond) charFile charTable.cols [literalCond]
      (effect charTable (charQuery literalCond) (updateWhere (.val (.string charLiteral)))) := by
  have analyzed : doAnalyze charSm.db (updateWhere (.val (.string charLiteral))) = .ok (charQuery literalCond) := rfl
  have planned : Planner.doPlanner charSm.db (charQuery literalCond) (updateWhere (.val (.string charLiteral))) =
      .ok (charPlan literalCond) := rfl
  refine ⟨analyzed, planned, by decide +kernel, rfl, ?_⟩
  refine (dml_acts_iff charSm_wf (updateWhere_changes _) analyzed ?_ planned rfl rfl rfl charFile_inv).mpr ⟨?_, ?_⟩
  · intro c member
    cases List.mem_singleton.mp member
    exact ⟨rfl, fun column => by cases column⟩
  · intro rid r live
    refine ⟨?_, fun _ => trivial⟩
    intro lhs found
    cases found
    rw [charFile_records live]
    exact ⟨⟨by decide, by decide, by decide⟩, fun column => by cases column⟩
  · intro _ clause member
    cases List.mem_singleton.mp member
    intro col found
    cases found
    exact ⟨by decide, by decide, by decide⟩

/-- `a = b` is accepted and compares eight bytes, but only four are left from `b` on. -/
theorem dml_reads_outside :
    ¬∀ (sm : SmManager) (stmt : Ast.TreeNode) (query : Query) (plan : DMLPlan) (tabName : String)
    (tab : TabMeta) (fh : RmFile FlatFile), sm.db.WF → Changes tabName stmt → doAnalyze sm.db stmt = .ok query →
    (∀ c ∈ query.conds, c.Own tabName) → Planner.doPlanner sm.db query stmt = .ok plan → plan.Sequential →
    sm.db.getTable tabName = .ok tab → sm.fhs tabName = some fh → fh.FileInv →
    Acts sm plan fh tab.cols query.conds (effect tab query stmt) := by
  intro always
  have analyzed : doAnalyze charSm.db (updateWhere (.col ⟨"", "b"⟩)) = .ok (charQuery columnCond) := rfl
  have planned : Planner.doPlanner charSm.db (charQuery columnCond) (updateWhere (.col ⟨"", "b"⟩)) =
      .ok (charPlan columnCond) := rfl
  have own : ∀ c ∈ (charQuery columnCond).conds, c.Own "t" := by
    intro c member
    cases List.mem_singleton.mp member
    exact ⟨rfl, fun _ => rfl⟩
  have settable : ∀ clause ∈ (charQuery columnCond).setClauses, Settable charTable clause := by
    intro clause member
    cases List.mem_singleton.mp member
    exact ⟨_, _, rfl, rfl, by decide, rfl⟩
  have acts := always charSm _ _ _ "t" charTable charFile charSm_wf
    (updateWhere_changes _) analyzed own planned rfl rfl rfl charFile_inv
  have returns := ((update_acts_iff rfl rfl rfl rfl charFile_inv settable).mp acts).1
  obtain ⟨b, run⟩ := returns ⟨1, 0⟩ (List.replicate 12 107) (by decide +kernel)
  cases run

end Portal

end Rmdb
