import Rmdb.Execution.Insert
import Rmdb.Server.Scans

namespace Rmdb
open Analyze Portal

/-! INSERT, UPDATE and DELETE. -/

section
variable {σ φ : Type} [PageStore σ φ]

theorem checked_raises {α : Type} {x : Except Error α} (throws : Throws Error.Plain x) :
    Raises Error.Plain (checked x : RmM σ α) := by
  cases x with
  | ok a => exact .pure a
  | error e => exact .throw throws

theorem RmRecord.write_throws (r : RmRecord) (offset : Int) (src : List UInt8) :
    Throws Error.Plain (r.write offset src) := by
  unfold RmRecord.write
  split
  · trivial
  · exact Error.Plain.undefined

namespace InsertExecutor

theorem setColumn_throws (r : RmRecord) (col : ColMeta) (v : Value) : Throws Error.Plain (setColumn r col v) := by
  unfold setColumn
  split
  · exact Error.Plain.incompatibleType _ _
  · refine Ends.bind (initRaw_throws (fun _ plain => plain) v col.len) fun v _ _ => ?_
    split
    · exact Error.Plain.undefined
    · exact RmRecord.write_throws ..

theorem setColumns_throws (cols : List ColMeta) (values : List Value) (r : RmRecord) :
    Throws Error.Plain (setColumns cols values r) := by
  induction cols generalizing values r with
  | nil =>
    cases values with
    | nil => trivial
    | cons v values => exact Error.Plain.undefined
  | cons col cols ih =>
    cases values with
    | nil => trivial
    | cons v values => exact Ends.bind (setColumn_throws r col v) fun r _ _ => ih values r

theorem copyKey_throws (r : RmRecord) (num : Nat) (cols : List ColMeta) (offset : Int) (key : RmRecord) :
    Throws Error.Plain (copyKey r num cols offset key) := by
  induction num generalizing cols offset key with
  | zero => trivial
  | succ num ih =>
    cases cols with
    | nil => exact Error.Plain.undefined
    | cons col cols =>
      refine Ends.bind (dataAt_throws .undefined (some r) _ _) fun bytes _ _ => ?_
      exact Ends.bind (RmRecord.write_throws ..) fun key _ _ => ih cols _ key

theorem insertIndex_throws (ihs : String → Bool) (junk : Nat → UInt8) (tabName : String) (r : RmRecord) (rid : Rid)
    (index : IndexMeta) : Throws Error.Plain (insertIndex ihs junk tabName r rid index) := by
  unfold insertIndex
  dsimp only
  split
  · exact Error.Plain.outOfRange
  · split
    · exact Error.Plain.badArrayLength
    · exact Ends.bind (copyKey_throws ..) fun _ _ _ => trivial

theorem next_raises [PlainStore σ] (x : InsertExecutor) (ihs : String → Bool) (junk : Nat → UInt8) :
    Raises Error.Plain (x.next ihs junk : RmM σ Rid) := by
  refine .bind get_raises fun s => ?_
  split
  · exact .throw .badArrayLength
  · refine .bind (checked_raises (setColumns_throws ..)) fun r => ?_
    refine .bind (RmFileHandle.insertRecord_raises _) fun rid => ?_
    refine .bind (checked_raises (Ends.mapM_iff.mpr (.of_forall fun index _ => ?_))) fun _ => .pure _
    exact insertIndex_throws ..

end InsertExecutor

namespace UpdateExecutor

theorem rewrite_throws {tab : TabMeta} {clauses : List SetClause} (settable : ∀ clause ∈ clauses, Settable tab clause)
    (r : Option RmRecord) : Throws Error.Plain (rewrite tab clauses r) := by
  unfold rewrite
  induction clauses generalizing r with
  | nil => trivial
  | cons clause clauses ih =>
    obtain ⟨⟨col, raw, found, _⟩, settable⟩ := List.forall_mem_cons.mp settable
    have first : Throws Error.Plain (setColumn tab r clause) := by
      rw [setColumn, found, ok_bind]
      split
      · exact Error.Plain.incompatibleType _ _
      · refine Ends.bind (initRaw_throws (fun _ plain => plain) _ _) fun v _ _ => ?_
        split
        · rename_i r raw _
          have written := RmRecord.write_throws r col.offset raw
          cases wrote : r.write col.offset raw with
          | ok _ => trivial
          | error e =>
            rw [wrote] at written
            exact written
        · exact Error.Plain.undefined
    rw [List.foldlM_cons]
    exact Ends.bind first fun r _ _ => ih settable r

theorem next_raises [PlainStore σ] {x : UpdateExecutor} (settable : ∀ clause ∈ x.setClauses, Settable x.tab clause) :
    Raises Error.Plain (x.next : RmM σ PUnit) := by
  refine .forM fun rid _ => .bind (RmFileHandle.getRecord_raises rid) fun r => ?_
  refine .bind (checked_raises (rewrite_throws settable r)) fun r => ?_
  split
  · exact .throw .undefined
  · exact RmFileHandle.updateRecord_raises _ _

end UpdateExecutor

theorem DeleteExecutor.next_raises [PlainStore σ] (x : DeleteExecutor) : Raises Error.Plain (x.next : RmM σ PUnit) :=
  .forM fun rid _ => RmFileHandle.deleteRecord_raises rid

end

namespace ClientHandler
variable {N : Nat} {s : ClientHandler N} {strerror : String} {p : ScanPlan} {x : SeqScanExecutor} {tab : TabMeta}
  {query : Query}

theorem fileOf_throws (tabName : String) : Throws Error.Plain (fileOf s.sm tabName) := by
  unfold fileOf
  split
  · exact Error.Plain.outOfRange
  · trivial

theorem insert_decides (short : strerror.length ≤ 1024) (tabName : String) (vals : List Ast.Lit) :
    (∀ env, Stops (Error.Fits strerror) (s.execute env query (.insertStmt tabName vals))) ↔
      AllFit [tableCheck s.sys.db tabName] := by
  have plain : ∀ e : Error, e.Plain → e.Fits strerror := fun _ isPlain => isPlain.fits short
  have fileOf_fits : Throws (Error.Fits strerror) (fileOf s.sm tabName) := (fileOf_throws tabName).weaken plain
  have each (env : Env) : Stops (Error.Fits strerror) (s.execute env query (.insertStmt tabName vals)) ↔
      Throws (Error.Fits strerror) (s.sys.db.getTable tabName) := by
    refine (Throws.bind_iff fun x _ => fileOf_fits.bind fun fh _ => ?_).trans ?_
    · refine Throws.bind (reading_throws fun _ _ _ run => plain _ ?_) fun _ _ => trivial
      exact InsertExecutor.next_raises x _ _ _ _ _ run
    · refine ⟨Ends.first, fun first => Ends.bind first fun tab _ _ => ?_⟩
      split
      · exact plain _ .invalidValueCount
      · exact Ends.bind fileOf_fits fun _ _ _ => trivial
  have env : Env := default
  have looked : Decides strerror [tableCheck s.sys.db tabName] (s.sys.db.getTable tabName) := getTable_decides
  rw [← looked.ends]
  exact ⟨fun all => (each env).mp (all env), fun fits env => (each env).mpr fits⟩

/-- After the scan no exception carries a name. -/
theorem Scans.runDml_iff (scans : s.Scans p tab x) {allowed : Error → Prop} (plain : ∀ e, e.Plain → allowed e)
    {plan : DMLPlan} (planned : plan = .delete (.scan p) p.tabName ∨
      ∃ clauses, plan = .update (.scan p) p.tabName clauses ∧ ∀ clause ∈ clauses, Settable tab clause) (env : Env) :
    Stops allowed (s.runDml env p.tabName plan) ↔ Stops allowed (scanRids s.sm (.scan p) env.fuel) := by
  have file : fileOf s.sm p.tabName = .ok x.fh := by
    simp only [fileOf, scans.opens.file]
  have table : s.sm.db.getTable p.tabName = .ok tab := scans.table
  have finish (root : DmlRoot) (raises : Raises Error.Plain (root.run : RmM FlatFile PUnit)) :
      Stops allowed (do
        let fh ← fileOf s.sm p.tabName
        let _ ← reading fh root.run
        return () : Except Stop Unit) := by
    refine Throws.bind (by rw [file]; trivial) fun fh _ => ?_
    exact Throws.bind (reading_throws fun _ _ _ run => plain _ (raises _ _ _ run)) fun _ _ => trivial
  rcases planned with rfl | ⟨clauses, rfl, settable⟩
  · have started : start s.sm env.fuel (.delete (.scan p) p.tabName) =
        scanRids s.sm (.scan p) env.fuel >>= fun rids => .ok (.delete ⟨rids⟩) := by
      simp only [start, table, file]
      rfl
    unfold runDml
    rw [started]
    refine ⟨fun stops => Ends.first (Ends.first stops), fun first => Stops.bind (first.bind fun _ _ => trivial) ?_⟩
    intro root run
    obtain ⟨rids, _, same⟩ := bind_eq_ok_iff.mp run
    cases same
    exact finish _ (DeleteExecutor.next_raises _)
  · have started : start s.sm env.fuel (.update (.scan p) p.tabName clauses) =
        scanRids s.sm (.scan p) env.fuel >>= fun rids => .ok (.update ⟨tab, rids, clauses⟩) := by
      simp only [start, table, file]
      rfl
    unfold runDml
    rw [started]
    refine ⟨fun stops => Ends.first (Ends.first stops), fun first => Stops.bind (first.bind fun _ _ => trivial) ?_⟩
    intro root run
    obtain ⟨rids, _, same⟩ := bind_eq_ok_iff.mp run
    cases same
    exact finish _ (UpdateExecutor.next_raises settable)

variable (short : strerror.length ≤ 1024) (valid : s.Valid)
include short valid

/-- A scan of the plan of an UPDATE or DELETE has all conditions. -/
theorem changes_decides {t : String} {es : List Ast.BinaryExpr} {conds : List Condition} {plan : DMLPlan}
    (resolved : List.Forall₂ (Resolved s.sys.db [t]) es conds) (scanned : Planner.scanPlan s.sys.db t conds = .ok p)
    (planned : plan = .delete (.scan p) t ∨ ∃ clauses, plan = .update (.scan p) t clauses ∧
      ∀ tab, s.sys.db.getTable t = .ok tab → ∀ clause ∈ clauses, Settable tab clause)
    (few : es.length ≤ 1 ∨ ∀ e ∈ es, ∀ r ∈ e.references, r.owner s.sys.db [t] = t ∨ r.Short s.sys.db [t]) :
    (∀ env, Stops (Error.Fits strerror) (s.runDml env t plan)) ↔ AllFit (es.flatMap (s.scanChecks t)) := by
  have plain : ∀ e : Error, e.Plain → e.Fits strerror := fun _ isPlain => isPlain.fits short
  obtain ⟨rfl, rfl, tab, x, scans⟩ := valid.scans scanned
  have planned := planned.imp_right fun ⟨clauses, same, settable⟩ =>
    (⟨clauses, same, settable tab scans.table⟩ : ∃ clauses, plan = DMLPlan.update (.scan p) p.tabName clauses ∧
      ∀ clause ∈ clauses, Settable tab clause)
  rw [← scans.scanRids_decides short valid.wf resolved few]
  constructor
  · exact fun all fuel => (scans.runDml_iff plain planned { (default : Env) with fuel := fuel }).mp (all _)
  · exact fun all env => (scans.runDml_iff plain planned env).mpr (all env.fuel)

omit short in
/-- Next to a second condition there is no room for a long name of another table. -/
theorem few_of_room {t : String} {es : List Ast.BinaryExpr} {conds : List Condition}
    (resolved : List.Forall₂ (Resolved s.sys.db [t]) es conds)
    (small : 11 + Ast.nameRoom t + Ast.whereRoom es < BUFFER_LENGTH) :
    es.length ≤ 1 ∨ ∀ e ∈ es, ∀ r ∈ e.references, r.owner s.sys.db [t] = t ∨ r.Short s.sys.db [t] := by
  refine or_iff_not_imp_left.mpr fun several e member r inside => ?_
  obtain ⟨_, first⟩ := exists_of_forall₂ resolved.flip member
  by_cases bare : r.tabName = ""
  · exact Or.inl (List.mem_singleton.mp ((resolves_owner valid.wf (first.2.resolves r inside)).2.1 bare))
  · have letters := length_qualified s.sys.db [t] bare
    have room := Ast.whereRoom_le member
    have column := Ast.BinaryExpr.room_reference inside
    have table := (Ast.nameRoom_pos t).1
    refine Or.inr ?_
    unfold Ast.Col.Short
    unfold BUFFER_LENGTH at small ⊢
    omega

theorem delete_decides {t : String} {es : List Ast.BinaryExpr}
    (small : (Ast.TreeNode.deleteStmt t es).room < BUFFER_LENGTH)
    (analyzed : doAnalyze s.sys.db (.deleteStmt t es) = .ok query) :
    (∀ env, Stops (Error.Fits strerror) (s.execute env query (.deleteStmt t es))) ↔
      AllFit (es.flatMap (s.scanChecks t)) := by
  obtain ⟨conds, clause, rest⟩ := bind_eq_ok_iff.mp analyzed
  cases rest
  obtain ⟨allCols, listed, _⟩ := bind_eq_ok_iff.mp clause
  have found : ∀ u ∈ [t], s.sys.db.isTable u = true := fun u member =>
    isTable_of_stored (getAllCols_found listed u member)
  have resolved := checkClause_resolved valid.wf found clause
  have catalog := (inCatalog_of_found valid.wf (getAllCols_found listed)).2 t List.mem_cons_self
  obtain ⟨tab, stored, cols⟩ := catalog
  obtain ⟨p, scanned⟩ := Planner.scanPlan_returns stored cols conds
  have planned : Planner.doPlanner s.sys.db ⟨conds, [], [], [], []⟩ (.deleteStmt t es) = .ok (.delete (.scan p) t) := by
    simp only [Planner.doPlanner, scanned, ok_bind]
    rfl
  have few := few_of_room valid resolved (by rw [Ast.TreeNode.room] at small; omega)
  rw [← changes_decides short valid resolved scanned (Or.inl rfl) few]
  refine forall_congr' fun env => ?_
  change Stops _ ((liftM (Planner.doPlanner _ _ _) : Except Stop DMLPlan) >>= _) ↔ _
  rw [planned]
  exact Iff.rfl

theorem update_decides {t : String} {clauses : List Ast.SetClause} {es : List Ast.BinaryExpr}
    (small : (Ast.TreeNode.updateStmt t clauses es).room < BUFFER_LENGTH)
    (analyzed : doAnalyze s.sys.db (.updateStmt t clauses es) = .ok query) :
    (∀ env, Stops (Error.Fits strerror) (s.execute env query (.updateStmt t clauses es))) ↔
      AllFit (es.flatMap (s.scanChecks t)) := by
  obtain ⟨tab, table, rest⟩ := bind_eq_ok_iff.mp analyzed
  obtain ⟨set, accepted, rest⟩ := bind_eq_ok_iff.mp rest
  obtain ⟨conds, clause, rest⟩ := bind_eq_ok_iff.mp rest
  cases rest
  have found : ∀ u ∈ [t], s.sys.db.isTable u = true := fun u member => by
    rw [List.mem_singleton.mp member]
    exact isTable_iff.mpr ⟨tab, table⟩
  have resolved := checkClause_resolved valid.wf found clause
  obtain ⟨p, scanned⟩ := Planner.scanPlan_returns (getTable_ok table) (valid.wf _ _ (getTable_ok table)).2.2.1 conds
  have planned : Planner.doPlanner s.sys.db ⟨conds, [], [], set, []⟩ (.updateStmt t clauses es) =
      .ok (.update (.scan p) t set) := by
    simp only [Planner.doPlanner, scanned, ok_bind]
    rfl
  have settable : ∀ tab, s.sys.db.getTable t = .ok tab → ∀ clause ∈ set, Settable tab clause := by
    intro tab' table' clause member
    rw [table] at table'
    cases table'
    obtain ⟨_, _, run⟩ := mem_mapM accepted member
    exact setClause_settable run
  have few := few_of_room valid resolved (by rw [Ast.TreeNode.room] at small; omega)
  rw [← changes_decides short valid resolved scanned (Or.inr ⟨set, rfl, settable⟩) few]
  refine forall_congr' fun env => ?_
  change Stops _ ((liftM (Planner.doPlanner _ _ _) : Except Stop DMLPlan) >>= _) ↔ _
  rw [planned]
  exact Iff.rfl

end ClientHandler

end Rmdb
