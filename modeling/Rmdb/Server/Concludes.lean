import Rmdb.Execution.Stuck
import Rmdb.Server.Projection
import Rmdb.Server.Runs

namespace Rmdb
open Analyze Planner Plan Portal RmScan InsertExecutor

/-! Statements that return or throw an `RMDBError`. -/

/-- No exception but an `RMDBError`, and the turns suffice. -/
def Stop.IsRmdb : Stop → Prop
  | .outOfFuel => False
  | .thrown e => IsRmdbError e

/-- With enough turns the call returns or throws an `RMDBError`. -/
def Concludes (call : Env → Except Stop Unit) : Prop :=
  ∃ enough, ∀ env, enough ≤ env.fuel → Ends Stop.IsRmdb (fun _ => True) (call env)

section
variable {α : Type} {e : Error} {call : Env → Except Stop Unit}

theorem concludes_throw : (Concludes fun _ => .error (.thrown e)) ↔ IsRmdbError e :=
  ⟨fun ⟨enough, ends⟩ => ends { (default : Env) with fuel := enough } le_rfl, fun allowed => ⟨0, fun _ _ => allowed⟩⟩

/-- First a call without loops. -/
theorem concludes_bind {x : Except Error α} {f : α → Env → Except Stop Unit} :
    (Concludes fun env => (liftM x : Except Stop α) >>= fun a => f a env) ↔
      Orderly x ∧ ∀ a, x = .ok a → Concludes (f a) := by
  cases x with
  | error e => exact concludes_throw.trans ⟨fun allowed => ⟨allowed, nofun⟩, fun both => both.1⟩
  | ok a => exact ⟨fun ends => ⟨trivial, fun _ same => Except.ok.inj same ▸ ends⟩, fun both => both.2 a rfl⟩

/-- A call without loops of which only the exception is used. -/
theorem orderly_iff {x : Except Error α} :
    Ends Stop.IsRmdb (fun _ => True) ((liftM x : Except Stop α) >>= fun _ => pure ()) ↔ Orderly x := by
  cases x <;> exact Iff.rfl

/-- No exception but an `RMDBError`, and the loops come to an end. -/
theorem Concludes.of_both (stops : ∃ enough, ∀ env : Env, enough ≤ env.fuel → Stops IsRmdbError (call env))
    (returns : ∃ enough, ∀ env : Env, enough ≤ env.fuel → Returns (fun _ => True) (call env)) : Concludes call := by
  obtain ⟨enough, stops⟩ := stops
  obtain ⟨enough', returns⟩ := returns
  refine ⟨max enough enough', fun env most => ?_⟩
  have allowed := stops env (by omega)
  have ended := returns env (by omega)
  cases run : call env with
  | ok _ => trivial
  | error stop =>
    rw [run] at allowed ended
    cases stop with
    | outOfFuel => exact ended rfl
    | thrown e => exact allowed

theorem Concludes.stops (concludes : Concludes call) :
    ∃ enough, ∀ env : Env, enough ≤ env.fuel → Stops IsRmdbError (call env) := by
  obtain ⟨enough, ends⟩ := concludes
  refine ⟨enough, fun env most => ?_⟩
  have ended := ends env most
  cases run : call env with
  | ok _ => trivial
  | error stop =>
    rw [run] at ended
    cases stop with
    | outOfFuel => trivial
    | thrown e => exact ended

end

namespace ClientHandler
variable {N : Nat}

/-- The tables have their files, all files are in order, the indexes are open, and an INSERT has a page number left. -/
structure Stocked (s : ClientHandler N) (stmt : Ast.TreeNode) : Prop where
  tables : s.sm.Stocked
  files : s.sm.Sound
  indexes : ∀ tabName tab, s.sys.db.getTable tabName = .ok tab → ∀ index ∈ tab.indexes,
    (s.sys.ihs (IxManager.getIndexName tabName index.cols)).isSome
  space : ∀ tabName vals, stmt = .insertStmt tabName vals → ∀ fh, s.files tabName = some fh → fh.HasSpace

end ClientHandler

namespace ClientHandler
variable {N : Nat} {s : ClientHandler N} {stmt : Ast.TreeNode} {query : Query} {tabName : String} {tab : TabMeta}

theorem handle_concludes : (Concludes fun env => s.handle env stmt) ↔
    Orderly (doAnalyze s.sys.db stmt) ∧
      ∀ query, doAnalyze s.sys.db stmt = .ok query → Concludes fun env => s.execute env query stmt :=
  concludes_bind (f := fun query env => s.execute env query stmt)

/-- The constructor of the executor counts the values. -/
theorem insert_new (tables : s.sm.Stocked) (table : s.sys.db.getTable tabName = .ok tab) (vals : List Ast.Lit) :
    InsertExecutor.new s.sm tabName (vals.map convertSvValue) =
      if vals.length = tab.cols.length then .ok ⟨tab, vals.map convertSvValue, tabName⟩
      else .error .invalidValueCount := by
  obtain ⟨fh, file, _⟩ := tables _ _ table
  rw [InsertExecutor.new, show s.sm.db.getTable tabName = .ok tab from table, ok_bind, List.length_map, fileOf, file]
  by_cases count : vals.length = tab.cols.length
  · rw [if_neg (not_not.mpr count), if_pos count]
    rfl
  · rw [if_pos count, if_neg count]
    rfl

/-- INSERT encodes its values in the executor. -/
theorem insert_concludes {vals : List Ast.Lit} (ready : s.sys.db.Ready) (stocked : s.Stocked (.insertStmt tabName vals))
    (analyzed : doAnalyze s.sys.db (.insertStmt tabName vals) = .ok query) :
    (Concludes fun env => s.execute env query (.insertStmt tabName vals)) ↔
      NumbersMeet s.sys.db (.insertStmt tabName vals) := by
  cases analyzed
  have unused : ∀ v ∈ vals.map convertSvValue, v.raw = none := by
    intro v member
    obtain ⟨val, _, rfl⟩ := List.mem_map.mp member
    exact convertSvValue_raw val
  cases table : s.sys.db.getTable tabName with
  | error e =>
    have failed : InsertExecutor.new s.sm tabName (vals.map convertSvValue) = .error e := by
      rw [InsertExecutor.new, show s.sm.db.getTable tabName = .error e from table]
      rfl
    have missing : Orderly (s.sys.db.getTable tabName) := getTable_orderly tabName
    rw [table] at missing
    refine iff_of_true (concludes_bind.mpr ?_) fun tab found => ?_
    · rw [failed]
      exact ⟨missing, fun _ made => by cases made⟩
    · cases table.symm.trans found
  | ok tab =>
    obtain ⟨fh, file, inv, size⟩ := stocked.tables _ _ table
    have laid := (ready.laid _ _ table).1
    have indexed : ∀ index ∈ tab.indexes,
        IndexReady (fun indexName => (s.sys.ihs indexName).isSome) tabName tab index := fun index member =>
      { ready.indexed _ _ table index member with isOpen := stocked.indexes _ _ table index member }
    have only : NumbersMeet s.sys.db (.insertStmt tabName vals) ↔ (vals.length = tab.cols.length →
        UpTo (fun p => p.2.Storable p.1) (fun p => p.2.type = p.1.type → p.2.Meets p.1)
          (tab.cols.zip (vals.map convertSvValue))) := by
      refine ⟨fun meets => meets tab table, fun meets tab' found => ?_⟩
      cases table.symm.trans found
      exact meets
    refine (concludes_bind.trans ?_).trans only.symm
    rw [insert_new stocked.tables table]
    by_cases count : vals.length = tab.cols.length
    · have next := next_orderly_iff (x := ⟨tab, vals.map convertSvValue, tabName⟩) inv
        (stocked.space _ _ rfl fh file) laid size indexed (by rwa [List.length_map]) unused
      simp only [if_pos count, Except.ok.injEq, forall_eq']
      refine (and_iff_right trivial).trans ((concludes_bind.trans ?_).trans (imp_iff_right count).symm)
      have opens : fileOf s.sm tabName = .ok fh := by
        rw [fileOf, file]
      simp only [opens, Except.ok.injEq, forall_eq']
      refine (and_iff_right trivial).trans ?_
      constructor
      · rintro ⟨enough, ends⟩
        have ends := ends { (default : Env) with fuel := enough } le_rfl
        exact (next _).mp (orderly_iff.mp ends)
      · intro meets
        exact ⟨0, fun env _ => orderly_iff.mpr ((next env.junk).mpr meets)⟩
    · rw [if_neg count]
      exact iff_of_true ⟨trivial, fun _ made => by cases made⟩ fun same => absurd same count

theorem scan_table (ready : s.sys.db.Ready) (table : s.sys.db.getTable tabName = .ok tab) :
    ∃ last, tab.cols.getLast? = some last :=
  ⟨_, List.getLast?_eq_some_getLast (ready.wf _ _ (getTable_ok table)).2.2.1⟩

section
variable {fh : RmFile FlatFile} {p : ScanPlan} (kind : Changes tabName stmt)
  (analyzed : doAnalyze s.sys.db stmt = .ok query) (table : s.sys.db.getTable tabName = .ok tab)
  (file : s.files tabName = some fh) (scanned : scanPlan s.sys.db tabName query.conds = .ok p)
include kind analyzed table file scanned

theorem execute_change (env : Env) : s.execute env query stmt = (do
    let found ← scanRids s.sm (.scan p) env.fuel
    let _ ← reading fh (rootOf tab query found stmt).run
    return ()) := by
  have started := start_change kind analyzed table file env.fuel
  have opens : fileOf s.sm tabName = .ok fh := sm_fileOf file
  have same : s.execute env query stmt = (do
      let root ← (do
        let plan ← doPlanner s.sys.db query stmt
        Portal.start s.sm env.fuel plan : Except Stop DmlRoot)
      let fh ← fileOf s.sm tabName
      let _ ← reading fh root.run
      return ()) := by
    rw [bind_assoc]
    cases stmt with
    | updateStmt => cases kind; rfl
    | deleteStmt => cases kind; rfl
    | _ => cases kind
  rw [same, started, scanned, opens]
  simp only [lift_ok, ok_bind, bind_assoc, pure_bind]

/-- The records that match are changed inside, and a scan that finds none changes nothing. -/
theorem change_concludes (ready : s.sys.db.Ready) (tables : s.sm.Stocked) (careful : p.Careful) :
    Concludes fun env => s.execute env query stmt := by
  obtain ⟨rfl, takes, tab', table', cols⟩ := scanPlan_ok scanned
  cases table'.symm.trans table
  obtain ⟨fh', file', inv, size⟩ := tables _ _ table
  cases file'.symm.trans file
  simp only [execute_change kind analyzed table file scanned]
  cases tag : p.tag with
  | indexScan =>
    have made : scanPlan s.sm.db p.tabName p.conds = .ok p := by
      rw [takes]
      exact scanned
    obtain ⟨_, built⟩ := (convert_index tables ready made tag).resolve_right fun wrong => wrong.1 careful
    have idle : (rootOf tab query [] stmt).run fh = .ok ⟨⟩ fh := by
      cases stmt <;> rfl
    refine ⟨1, fun env enough => ?_⟩
    obtain ⟨turns, more⟩ := Nat.exists_eq_add_of_le' enough
    have found : scanRids s.sm (.scan p) env.fuel = .ok [] := by
      simp only [scanRids, built, more]
      rfl
    simp only [found, ok_bind, reading, idle]
    trivial
  | seqScan =>
    obtain ⟨last, end_col⟩ := scan_table ready table
    have careful : (Plan.scan p).Careful := by
      rwa [ScanPlan.Careful, tag] at careful
    have looks : (scanOf fh tab last p.conds).Looks IsRmdbError := by
      intro rid r live
      have length : (r.length : Int) = totalLen p.cols := by
        rw [cols]
        exact (inv.record_length live).trans size
      have fine := evalRows_orderly_iff.mpr (careful r length)
      rw [cols] at fine
      exact fine
    have ends : Throws IsRmdbError ((scanOf fh tab last p.conds).sweep (rids fh)) :=
      looks.sweep inv fun _ member => member
    refine ⟨(rids fh).length + 1, fun env enough => ?_⟩
    dsimp only
    rw [scanRids_eq tag table file end_col inv (by omega)]
    cases swept : (scanOf fh tab last p.conds).sweep (rids fh) with
    | error e =>
      rw [swept] at ends
      exact ends
    | ok found =>
      obtain ⟨_, rfl⟩ := (sweep_found inv).mp swept
      obtain ⟨tab', table', settable⟩ := changes_table kind analyzed
      cases table'.symm.trans table
      have writable : ∀ clause ∈ query.setClauses, UpdateExecutor.Writable tab fh.hdr.recordSize clause := by
        intro clause _ col found
        have fits := (fits_of_mem (ready.laid _ _ table).1 le_rfl (mem_of_getCol found)).2
        rwa [Int.zero_add, ← size] at fits
      obtain ⟨t, run, _⟩ := run_matching last inv kind settable writable
      rw [matching, ← takes] at run
      simp only [lift_ok, ok_bind, reading, run]
      trivial

theorem change_breaks {e : Error} (wrong : ¬IsRmdbError e)
    (breaks : ∃ enough, ∀ fuel, enough ≤ fuel → scanRids s.sm (.scan p) fuel = .error (.thrown e)) :
    ¬Concludes fun env => s.execute env query stmt := by
  rintro ⟨enough, ends⟩
  obtain ⟨enough', breaks⟩ := breaks
  have ended : Ends Stop.IsRmdb _ (s.execute _ query stmt) :=
    ends { (default : Env) with fuel := max enough enough' } (le_max_left _ _)
  rw [execute_change kind analyzed table file scanned, breaks _ (le_max_right _ _)] at ended
  exact wrong ended

end

end ClientHandler

namespace ClientHandler
variable {N : Nat} {s : ClientHandler N} {plan : Plan} {out : List TabCol}

theorem runSelect_stuck (stuck : Stuck s.sm plan) : ¬Concludes fun env => s.runSelect env (.projection plan out) := by
  obtain ⟨e, failed, wrong⟩ : ∃ e, convertPlanExecutor s.sm (.projection plan out) = .error e ∧ ¬IsRmdbError e :=
    stuck.projection
  simp only [runSelect, failed]
  exact fun concludes => wrong (concludes_throw.mp concludes)

theorem runSelect_concludes_iff {E : Executor} {cols : List ColMeta} (files : s.sm.Sound)
    (built : convertPlanExecutor s.sm plan = .ok E) (hasCols : E.cols = some cols) :
    (Concludes fun env => s.runSelect env (.projection plan out)) ↔ ∀ selected, out.mapM (getCol cols) = .ok selected →
      ∃ enough, ∀ fuel, enough ≤ fuel →
        Stops IsRmdbError ((⟨E, selected⟩ : ProjectionExecutor).executor.traverse fuel E.fresh) := by
  have looked : Orderly (out.mapM (getCol cols)) :=
    Ends.mapM_iff.mpr (.of_forall fun target _ => getCol_orderly cols target)
  simp only [runSelect_eq built hasCols]
  constructor
  · intro concludes selected run
    obtain ⟨enough, stops⟩ := concludes.stops
    refine ⟨enough, fun fuel most => ?_⟩
    have ended := stops { (default : Env) with fuel := fuel } most
    rw [run] at ended
    exact Ends.first ended
  · intro stops
    refine concludes_bind.mpr ⟨looked, fun selected run => ?_⟩
    obtain ⟨enough, stops⟩ := stops selected run
    refine .of_both ⟨enough, fun env most => (stops env.fuel most).bind fun _ _ => trivial⟩ ?_
    obtain ⟨enough, returns⟩ := runSelect_ends (s := s) files (.projection plan out)
    refine ⟨enough, fun env most => ?_⟩
    have ended := returns env most
    rw [runSelect_eq built hasCols, run] at ended
    exact ended

end ClientHandler

end Rmdb
