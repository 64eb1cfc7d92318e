import Rmdb.Execution.Leaves
import Rmdb.Server.Contents
import Rmdb.Server.Scans

namespace Rmdb
open Rmdb.Tuple Analyze Portal InsertExecutor BufferPoolManager

/-! What a statement promises, and that INSERT, UPDATE and DELETE keep it. -/

namespace ClientHandler
variable {N : Nat} {s t : ClientHandler N} {tabName : String} {tab : TabMeta} {fh fh' : RmFile FlatFile}
  {stmt : Ast.TreeNode} {query : Query} {env : Env}

/-- Valid, and each table has a layout that fits its columns. -/
structure Sound (s : ClientHandler N) : Prop where
  valid : s.Valid
  tables : ∀ tabName tab, s.sys.db.getTable tabName = .ok tab → tab.LaidOut tabName ∧ tab.Wide

/-- How a statement ends: it returns and has done what it says, or throws and has done nothing. Of an exception of the
operating system, and of undefined behaviour, no more is said. -/
def Promise (s : ClientHandler N) (query : Query) (stmt : Ast.TreeNode) :
    EStateM.Result Stop (ClientHandler N) Unit → Prop
  | .ok _ t => t.Sound ∧ Contents.Does query stmt s.contents t.contents
  | .error (.thrown e) t => e = .undefined ∨ IoError e ∨ t = s
  | .error .outOfFuel _ => False

/-- A table with its file comes, goes or changes; the others stay. -/
theorem Sound.update {sys : Database N} {f : Option (RmFile FlatFile)} (sound : s.Sound) (agrees : sys.Agrees)
    (fhs : sys.fhs = Function.update s.sys.fhs tabName (f.map (·.handle)))
    (others : ∀ t, t ≠ tabName → sys.db.tabs.lookup t = s.sys.db.tabs.lookup t)
    (own : ∀ tab, sys.db.tabs.lookup tabName = some tab → tabName ≠ "" ∧ tab.name = tabName ∧ tab.cols ≠ [] ∧
      tab.LaidOut tabName ∧ tab.Wide ∧ ∃ fh, f = some fh ∧ fh.FileInv) :
    Sound ⟨sys, Function.update s.files tabName f⟩ := by
  have valid := sound.valid
  refine ⟨⟨agrees, fun t tab found => ?wf, fun t tab table => ?opened, fun t fh found => ?handles⟩,
    fun t tab table => ?tables⟩
  case wf =>
    change sys.db.tabs.lookup t = some tab at found
    by_cases same : t = tabName
    · subst same
      obtain ⟨named, name, nonempty, laid, _⟩ := own tab found
      exact ⟨named, name, nonempty, laid.owned⟩
    · exact valid.wf t tab (others t same ▸ found)
  case opened =>
    have found := getTable_ok table
    change sys.db.tabs.lookup t = some tab at found
    by_cases same : t = tabName
    · subst same
      obtain ⟨_, _, _, _, _, fh, rfl, inv⟩ := own tab found
      exact ⟨fh, Function.update_self .., inv⟩
    · rw [others t same] at found
      obtain ⟨fh, isOpen, inv⟩ := valid.opened t tab (Database.Agrees.getTable_iff.mpr found)
      exact ⟨fh, (Function.update_of_ne same ..).trans isOpen, inv⟩
  case handles =>
    change Function.update s.files tabName f t = some fh at found
    change sys.fhs t = some fh.handle
    rw [fhs]
    by_cases same : t = tabName
    · subst same
      rw [Function.update_self] at found ⊢
      rw [found]
      rfl
    · rw [Function.update_of_ne same] at found ⊢
      exact valid.handles t fh found
  case tables =>
    have found := getTable_ok table
    change sys.db.tabs.lookup t = some tab at found
    by_cases same : t = tabName
    · subst same
      obtain ⟨_, _, _, laid, wide, _⟩ := own tab found
      exact ⟨laid, wide⟩
    · rw [others t same] at found
      exact sound.tables t tab (Database.Agrees.getTable_iff.mpr found)

/-- The handle of a table changes, but neither its descriptor nor its record size. -/
theorem agrees_putFile (agrees : s.sys.Agrees) (handle : s.sys.fhs tabName = some fh.handle) (same : SameFile fh fh') :
    (s.putFile tabName fh').sys.Agrees where
  storable := agrees.storable
  bare := agrees.bare
  named := agrees.named
  handles t := by
    refine (agrees.handles t).trans ?_
    by_cases own : t = tabName <;> simp [own, handle]
  opened t h found := by
    rw [putFile_fhs] at found
    by_cases own : t = tabName
    · subst own
      cases (Function.update_self ..).symm.trans found
      exact (agrees.opened t _ handle).trans (by rw [same.fd])
    · rw [Function.update_of_ne own] at found
      exact agrees.opened t h found
  tables t named isOpen := by
    rw [putFile_fhs]
    by_cases own : t = tabName
    · simp [own]
    · rw [Function.update_of_ne own]
      exact agrees.tables t named isOpen
  sizes t tab found := by
    refine ⟨(agrees.sizes t tab found).1, fun h isOpen => ?_⟩
    rw [putFile_fhs] at isOpen
    by_cases own : t = tabName
    · subst own
      cases (Function.update_self ..).symm.trans isOpen
      exact same.recordSize.trans ((agrees.sizes t tab found).2 _ handle)
    · rw [Function.update_of_ne own] at isOpen
      exact (agrees.sizes t tab found).2 h isOpen
  flushed := agrees.flushed

/-- A file in order takes the place of the one before it. -/
theorem Sound.putFile (sound : s.Sound) (file : s.files tabName = some fh) (inv : fh'.FileInv)
    (same : SameFile fh fh') :
    (s.putFile tabName fh').Sound := by
  have valid := sound.valid
  have agrees := agrees_putFile valid.agrees (valid.handles tabName fh file) same
  refine sound.update (f := some fh') agrees rfl (fun _ _ => rfl) fun tab found => ?_
  obtain ⟨named, name, nonempty, _⟩ := valid.wf tabName tab found
  obtain ⟨laid, wide⟩ := sound.tables tabName tab (Database.Agrees.getTable_iff.mpr found)
  exact ⟨named, name, nonempty, laid, wide, fh', rfl, inv⟩

/-- A call that throws before it changes its file changes nothing. -/
theorem putFile_self (handle : s.sys.fhs tabName = some fh.handle) (file : s.files tabName = some fh) :
    s.putFile tabName fh = s := by
  have handles : Function.update s.sys.fhs tabName (some fh.handle) = s.sys.fhs :=
    Function.update_eq_self_iff.mpr handle.symm
  have files : Function.update s.files tabName (some fh) = s.files := Function.update_eq_self_iff.mpr file.symm
  unfold putFile
  rw [handles, files]

/-- The file of a table in the catalog. -/
theorem Sound.file (sound : s.Sound) (table : s.sys.db.getTable tabName = .ok tab) : ∃ fh, s.files tabName = some fh ∧
    fh.FileInv ∧ s.sys.fhs tabName = some fh.handle ∧ fh.hdr.recordSize = totalLen tab.cols ∧ tab.indexes = [] := by
  obtain ⟨fh, file, inv⟩ := sound.valid.opened tabName tab table
  have handle := sound.valid.handles tabName fh file
  have stored := getTable_ok table
  have agrees := sound.valid.agrees
  exact ⟨fh, file, inv, handle, (agrees.sizes _ _ stored).2 _ handle, (agrees.bare _ (mem_of_lookup stored)).2⟩

theorem Sound.returned {α : Type} {x : RmM FlatFile α} {a : α} (sound : s.Sound) (file : s.files tabName = some fh)
    (run : x fh = .ok a fh') (inv : fh'.FileInv) (same : SameFile fh fh')
    (does : Contents.Does query stmt s.contents (s.contents.put tabName fh'.records)) :
    s.Promise query stmt ((do let _ ← onFile tabName x; return () : ServeM N Unit) s) := by
  rw [bind_ok (onFile_ok file run)]
  exact ⟨sound.putFile file inv same, contents_putFile s tabName fh' ▸ does⟩

/-- INSERT. -/
theorem Sound.insert {vals : List Ast.Lit} (sound : s.Sound) (unused : ∀ v ∈ query.values, v.raw = none) :
    s.Promise query (.insertStmt tabName vals) (perform env query (.insertStmt tabName vals) s) := by
  change s.Promise query _ ((looking _ >>= _ : ServeM N Unit) s)
  cases made : InsertExecutor.new s.sm tabName query.values with
  | error e =>
    rw [looking_error (by rw [made]; rfl)]
    exact Or.inr (Or.inr rfl)
  | ok x =>
    rw [looking_ok (by rw [made]; rfl)]
    obtain ⟨tab, table, rest⟩ := bind_eq_ok_iff.mp made
    split at rest
    · cases rest
    · rename_i count
      obtain ⟨_, _, rest⟩ := bind_eq_ok_iff.mp rest
      cases rest
      have laid := (sound.tables tabName tab table).1.tiles
      obtain ⟨fh, file, inv, handle, size, bare⟩ := sound.file table
      rcases next_cases (x := ⟨tab, query.values, tabName⟩) inv laid size bare (not_not.mp count) unused with
        ⟨e, fh', run, undone⟩ | ⟨rid, fh', r, run, inv', same, fresh, records, stores⟩
      · rw [bind_error (onFile_error file run)]
        refine undone.imp_right fun same => Or.inr ?_
        rw [same, putFile_self handle file]
      · refine sound.returned file run inv' same ?_
        rw [records]
        rw [← contents_rows file] at fresh ⊢
        exact .insert table fresh stores

theorem perform_change (kind : Changes tabName stmt) : (perform env query stmt : ServeM N Unit) = (do
    let root ← looking fun s => do
      let plan ← Planner.doPlanner s.sys.db query stmt
      Portal.start s.sm env.fuel plan
    let _ ← onFile tabName root.run
    return ()) := by
  cases stmt with
  | updateStmt => cases kind; rfl
  | deleteStmt => cases kind; rfl
  | _ => cases kind

/-- What is found of the table before the records are looked at. -/
theorem changes_table (kind : Changes tabName stmt) (analyzed : doAnalyze s.sys.db stmt = .ok query) : ∃ tab,
    s.sys.db.getTable tabName = .ok tab ∧ ∀ clause ∈ query.setClauses, Settable tab clause := by
  cases stmt with
  | updateStmt t clauses conds =>
    cases kind
    obtain ⟨tab, table, rest⟩ := bind_eq_ok_iff.mp analyzed
    obtain ⟨set, accepted, rest⟩ := bind_eq_ok_iff.mp rest
    obtain ⟨conds, _, rest⟩ := bind_eq_ok_iff.mp rest
    cases rest
    refine ⟨tab, table, fun clause member => ?_⟩
    obtain ⟨_, _, run⟩ := mem_mapM accepted member
    exact setClause_settable run
  | deleteStmt t conds =>
    cases kind
    obtain ⟨conds, checked, rest⟩ := bind_eq_ok_iff.mp analyzed
    cases rest
    obtain ⟨cols, gathered, _⟩ := bind_eq_ok_iff.mp checked
    obtain ⟨tab, table⟩ := getAllCols_found gathered tabName List.mem_cons_self
    exact ⟨tab, by rw [DbMeta.getTable, table], fun clause member => by cases member⟩
  | _ => cases kind

/-- The records to be changed are collected first. -/
theorem start_change (kind : Changes tabName stmt) (analyzed : doAnalyze s.sys.db stmt = .ok query)
    (table : s.sys.db.getTable tabName = .ok tab) (file : s.files tabName = some fh) (fuel : Nat) :
    (do
      let plan ← Planner.doPlanner s.sys.db query stmt
      Portal.start s.sm fuel plan : Except Stop DmlRoot) = (do
        let p ← Planner.scanPlan s.sys.db tabName query.conds
        let found ← scanRids s.sm (.scan p) fuel
        return rootOf tab query found stmt) := by
  have table' : s.sm.db.getTable tabName = .ok tab := table
  have isOpen := sm_fileOf file
  cases stmt with
  | updateStmt t clauses conds =>
    cases kind
    cases scan : Planner.scanPlan s.sys.db tabName query.conds with
    | error e =>
      simp only [Planner.doPlanner, scan]
      rfl
    | ok p =>
      simp only [Planner.doPlanner, scan]
      change Portal.start s.sm fuel (.update (.scan p) _ query.setClauses) = _
      simp only [Portal.start, table', isOpen]
      rfl
  | deleteStmt t conds =>
    cases kind
    cases scan : Planner.scanPlan s.sys.db tabName query.conds with
    | error e =>
      simp only [Planner.doPlanner, scan]
      rfl
    | ok p =>
      simp only [Planner.doPlanner, scan]
      change Portal.start s.sm fuel (.delete (.scan p) _) = _
      simp only [Portal.start, table', isOpen]
      rfl
  | _ => cases kind

/-- UPDATE and DELETE. -/
theorem Sound.change (sound : s.Sound) (kind : Changes tabName stmt) (analyzed : doAnalyze s.sys.db stmt = .ok query) :
    ∃ enough, ∀ env : Env, enough ≤ env.fuel → s.Promise query stmt (perform env query stmt s) := by
  obtain ⟨tab, table, settable⟩ := changes_table kind analyzed
  obtain ⟨fh, file, inv, handle, size, bare⟩ := sound.file table
  have wf := sound.valid.wf
  refine ⟨(RmScan.rids fh).length + 1, fun env enough => ?_⟩
  rw [perform_change kind]
  have started := start_change kind analyzed table file env.fuel
  cases scan : Planner.scanPlan s.sys.db tabName query.conds with
  | error e =>
    rw [scan] at started
    rw [looking_error started]
    exact Or.inr (Or.inr rfl)
  | ok p =>
    obtain ⟨rfl, takes, tab', x, scans⟩ := sound.valid.scans scan
    cases scans.table.symm.trans table
    obtain ⟨last, end_col⟩ : ∃ last, tab.cols.getLast? = some last :=
      ⟨_, List.getLast?_eq_some_getLast (wf _ _ (getTable_ok table)).2.2.1⟩
    have short : (RmScan.rids fh).length < env.fuel := by omega
    have table' : s.sm.db.getTable p.tabName = .ok tab := table
    have swept := Portal.scanRids_eq scans.opens.tag table' file end_col inv short
    rw [scan, lift_ok, ok_bind, swept, takes] at started
    cases found : (scanOf fh tab last query.conds).sweep (RmScan.rids fh) with
    | error e =>
      rw [found] at started
      rw [looking_error started]
      exact Or.inr (Or.inr rfl)
    | ok found =>
      rw [found] at started
      rw [looking_ok started]
      obtain ⟨returns, rfl⟩ := (sweep_found inv).mp found
      have laid := (sound.tables _ tab table).1.tiles
      have writable : ∀ clause ∈ query.setClauses, UpdateExecutor.Writable tab fh.hdr.recordSize clause := by
        intro clause _ col found
        have fits := (fits_of_mem laid le_rfl (mem_of_getCol found)).2
        rwa [Int.zero_add, ← size] at fits
      obtain ⟨t, run, inv', same, records⟩ := run_matching last inv kind settable writable
      refine sound.returned file run inv' same ?_
      have after : t.records = fun rid => (s.contents.rows p.tabName rid).bind fun r =>
          if query.conds.all (s.contents.db.holds · (single p.tabName r)) then effect tab query stmt r else some r := by
        funext rid
        rw [records, contents_rows file]
        refine Option.bind_congr fun r live => ?_
        obtain ⟨b, run⟩ := returns rid r live
        have same : query.conds.all (s.contents.db.holds · (single p.tabName r)) = b := evalRows_holds wf table run
        rw [run, same]
        cases b <;> rfl
      rw [after]
      exact .change kind table

end ClientHandler

end Rmdb
