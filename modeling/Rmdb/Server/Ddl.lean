import Rmdb.Server.Analysis

namespace Rmdb
open Analyze Error Database

/-! CREATE TABLE, DROP TABLE and DESC. -/

/-- The length of a record, as `create_table` adds it up. -/
def recordLen (fields : List Ast.ColDef) : Int := wrapInt (fields.map (·.typeLen.len)).sum

/-- What `create_table` looks at before it writes anything. -/
def createChecks {N : Nat} (sys : Database N) (tabName : String) (fields : List Ast.ColDef) : List Check :=
  [⟨sys.db.isTable tabName = false, 29 + tabName.length⟩,
    ⟨1 ≤ recordLen fields ∧ recordLen fields ≤ RM_MAX_RECORD_SIZE, 0⟩,
    ⟨sys.pool.diskManager.isFile tabName = false, 28 + tabName.length⟩]

section
variable {N : Nat} {sys : Database N} {tabName : String} {fields : List Ast.ColDef} {made fd fd' : Int}

theorem layOut_recordLen (tabName : String) (fields : List Ast.ColDef) :
    (layOut tabName 0 (Planner.colDefs fields)).2 = recordLen fields := by
  rw [layOut_size, Planner.colLens_colDefs]
  rfl

theorem createTable_exists (isTable : sys.db.isTable tabName = true) :
    createTable tabName (Planner.colDefs fields) made fd fd' sys = .error (.tableExists tabName) sys := by
  rw [createTable, get_bind, if_pos isTable]
  rfl

/-- The file of a new table is refused. -/
theorem createTable_stopped (fresh : sys.db.isTable tabName = false) {e : Error}
    (refused : RmManager.createFile tabName (recordLen fields) made fd sys.pool = .error e sys.pool) :
    createTable tabName (Planner.colDefs fields) made fd fd' sys = .error e sys := by
  have stopped : onPool (RmManager.createFile tabName (layOut tabName 0 (Planner.colDefs fields)).2 made fd) sys =
      .error e sys := by rw [layOut_recordLen, onPool, refused]
  rw [createTable, get_bind, if_neg (by simp [fresh])]
  exact bind_error stopped

theorem createFile_unsized {recordSize : Int} (unsized : ¬(1 ≤ recordSize ∧ recordSize ≤ RM_MAX_RECORD_SIZE)) :
    RmManager.createFile tabName recordSize made fd sys.pool = .error (.invalidRecordSize recordSize) sys.pool := by
  unfold RmManager.createFile
  rw [if_pos (by omega)]
  rfl

theorem createFile_exists {recordSize : Int} (sized : 1 ≤ recordSize ∧ recordSize ≤ RM_MAX_RECORD_SIZE)
    (isFile : sys.pool.diskManager.isFile tabName = true) :
    RmManager.createFile tabName recordSize made fd sys.pool = .error (.fileExists tabName) sys.pool := by
  unfold RmManager.createFile
  rw [if_neg (by omega)]
  refine bind_error ?_
  simp only [PageStore.createFile, DiskManager.createFile, if_pos isFile]

end

namespace ClientHandler
variable {N : Nat} {s : ClientHandler N} {strerror : String} {tabName : String} {fields : List Ast.ColDef}

theorem calling_error {x : SmM N Unit} {e : Error} {t : Database N} (run : x s.sys = .error e t) :
    s.calling x = .error e := by
  rw [calling, run]

theorem calling_throws {allowed : Error → Prop} {x : SmM N Unit} :
    Throws allowed (s.calling x) ↔ ∀ e t, x s.sys = .error e t → allowed e := by
  unfold calling
  cases x s.sys with
  | ok _ _ => exact iff_of_true trivial fun _ _ run => by cases run
  | error e t =>
    constructor
    · rintro ends _ _ ⟨⟩
      exact ends
    · exact fun all => all e t rfl

variable (short : strerror.length ≤ 1024)
include short

theorem createTable_decides (agrees : s.sys.Agrees) : (∀ env : Env, Throws (Error.Fits strerror)
    (s.calling (Database.createTable tabName (Planner.colDefs fields) env.made env.fd env.fd'))) ↔
      AllFit (createChecks s.sys tabName fields) := by
  have plain : ∀ e : Error, e.Plain → e.Fits strerror := fun _ isPlain => isPlain.fits short
  have env : Env := default
  have stopped : ∀ {e : Error}, (∀ made fd fd' : Int, Database.createTable tabName (Planner.colDefs fields) made fd fd'
      s.sys = .error e s.sys) → ((∀ env : Env, Throws (Error.Fits strerror)
        (s.calling (Database.createTable tabName (Planner.colDefs fields) env.made env.fd env.fd'))) ↔
          e.Fits strerror) := by
    intro e run
    simp only [calling_error (run _ _ _)]
    exact ⟨fun all => all env, fun fits _ => fits⟩
  simp only [createChecks, allFit_cons, Check.Fits]
  cases fresh : s.sys.db.isTable tabName with
  | true =>
    rw [stopped fun made fd fd' => createTable_exists fresh, tableExists_fits]
    simp
  | false =>
    by_cases sized : 1 ≤ recordLen fields ∧ recordLen fields ≤ RM_MAX_RECORD_SIZE
    · cases isFile : s.sys.pool.diskManager.isFile tabName with
      | true =>
        rw [stopped fun made fd fd' => createTable_stopped fresh (createFile_exists sized isFile), fileExists_fits]
        simp [sized, AllFit, UpTo]
      | false =>
        refine iff_of_true (fun env => calling_throws.mpr fun e t run => ?_) (by simp [AllFit, UpTo, BUFFER_LENGTH])
        rcases agrees.toTracks.createTable_refused run with io | ⟨refusal, _⟩
        · exact plain _ (.io io)
        · cases refusal with
          | tableExists isTable =>
            rw [fresh] at isTable
            cases isTable
          | invalidRecordSize => exact plain _ (.invalidRecordSize _)
          | fileExists exist =>
            rw [isFile] at exist
            cases exist
    · rw [stopped fun made fd fd' => createTable_stopped fresh (createFile_unsized sized)]
      refine iff_of_true (plain _ (.invalidRecordSize _)) ?_
      simp [sized, BUFFER_LENGTH]

theorem dropTable_decides (agrees : s.sys.Agrees) : (∀ env : Env, Throws (Error.Fits strerror)
    (s.calling (Database.dropTable tabName env.permitted))) ↔ AllFit [tableCheck s.sys.db tabName] := by
  have looked : Decides strerror [tableCheck s.sys.db tabName] (s.sys.db.getTable tabName) := getTable_decides
  rw [← looked.ends]
  simp only [calling_throws]
  cases found : s.sys.db.isTable tabName with
  | true =>
    obtain ⟨tab, table⟩ := isTable_iff.mp found
    rw [table]
    refine iff_of_true (fun env e t run => ?_) trivial
    rcases agrees.toTracks.dropTable_refused run with io | ⟨_, missing, _⟩
    · exact (Plain.io io).fits short
    · rw [found] at missing
      cases missing
  | false =>
    have missing : ¬s.sys.db.isTable tabName = true := by simp [found]
    have run (permitted : String → Bool) :
        Database.dropTable tabName permitted s.sys = .error (.tableNotFound tabName) s.sys := by
      have none : s.sys.db.tabs.lookup tabName = none := by simpa [DbMeta.isTable] using found
      simp only [Database.dropTable, get_bind, none]
      rfl
    simp only [getTable_missing missing, run]
    constructor
    · exact fun all => all default _ _ rfl
    · rintro fits _ _ _ ⟨⟩
      exact fits

end ClientHandler

end Rmdb
