import Rmdb.Execution.Insert
import Rmdb.Execution.Statement
import Rmdb.Kit.Outcome

namespace Rmdb
open Analyze Portal

/-- The classes derived from `RMDBError`. -/
def IsRmdbError : Error → Prop
  | .assertion | .badArrayLength | .outOfRange | .undefined => False
  | _ => True

/-- A call that returns or throws an `RMDBError`. -/
abbrev Orderly {α : Type} (x : Except Error α) : Prop := Ends IsRmdbError (fun _ => True) x

/-- The columns of each table lie one behind the other in a record, none of them empty, and its indexes have keys that
are made of them. -/
structure DbMeta.Ready (db : DbMeta) : Prop where
  wf : db.WF
  laid : ∀ tabName tab, db.getTable tabName = .ok tab →
    Consecutive 0 tab.cols ∧ totalLen tab.cols ≤ RM_MAX_RECORD_SIZE
  indexed : ∀ tabName tab, db.getTable tabName = .ok tab → ∀ index ∈ tab.indexes,
    InsertExecutor.IndexReady (fun _ => true) tabName tab index

/-- If the value is a number, the column has the four bytes of one. -/
def Value.Meets (v : Value) (col : ColMeta) : Prop := v.type ≠ .string → col.len = 4

namespace Analyze

/-- The column that a name in a statement refers to. -/
def Finds (db : DbMeta) (allCols : List ColMeta) (target : TabCol) (col : ColMeta) : Prop :=
  ∃ found tab, checkColumn db allCols target = .ok found ∧ db.getTable found.tabName = .ok tab ∧
    tab.getCol found.colName = .ok col

/-- A condition that is in order. -/
def WellTyped (db : DbMeta) (allCols : List ColMeta) (c : Condition) : Prop :=
  ∃ col, Finds db allCols c.lhsCol col ∧ (c.isRhsVal = true → c.rhsVal.Storable col) ∧
    (c.isRhsVal = false → ∃ rhs, Finds db allCols c.rhsCol rhs ∧ rhs.type = col.type)

/-- A literal of a condition meets the left column whatever the type of that is. -/
def CondMeets (db : DbMeta) (allCols : List ColMeta) (c : Condition) : Prop :=
  c.isRhsVal = true → ∀ col, Finds db allCols c.lhsCol col → c.rhsVal.Meets col

/-- The same for each condition that is reached, that is up to the first one that is not in order. -/
def WhereMeets (db : DbMeta) (tabNames : List String) (svConds : List Ast.BinaryExpr) : Prop :=
  ∀ allCols, getAllCols db tabNames = .ok allCols →
    UpTo (WellTyped db allCols) (CondMeets db allCols) (getClause svConds)

def SetFits (tab : TabMeta) (clause : Ast.SetClause) : Prop :=
  ∃ col, tab.getCol clause.colName = .ok col ∧ (convertSvValue clause.val).Storable col

/-- A literal of SET or VALUES meets its column only if that has its type. -/
def SetMeets (tab : TabMeta) (clause : Ast.SetClause) : Prop :=
  ∀ col, tab.getCol clause.colName = .ok col → (convertSvValue clause.val).type = col.type →
    (convertSvValue clause.val).Meets col

end Analyze

/-- Every number that a statement gets to encode meets a column of four bytes. -/
def NumbersMeet (db : DbMeta) : Ast.TreeNode → Prop
  | .selectStmt cols tabs svConds _ => checkTables db tabs = .ok () →
      (∃ out, selectCols db tabs (cols.map fun c => ⟨c.tabName, c.colName⟩) = .ok out) →
      WhereMeets db tabs svConds
  | .updateStmt tabName clauses svConds => ∀ tab, db.getTable tabName = .ok tab →
      UpTo (SetFits tab) (SetMeets tab) clauses ∧
        ((∀ clause ∈ clauses, SetFits tab clause) → WhereMeets db [tabName] svConds)
  | .deleteStmt tabName svConds => WhereMeets db [tabName] svConds
  | .insertStmt tabName vals => ∀ tab, db.getTable tabName = .ok tab → vals.length = tab.cols.length →
      UpTo (fun p => p.2.Storable p.1) (fun p => p.2.type = p.1.type → p.2.Meets p.1)
        (tab.cols.zip (vals.map convertSvValue))
  | _ => True

namespace Value

theorem initRaw_orderly_iff {v : Value} {col : ColMeta} (unused : v.raw = none) (nonneg : 0 ≤ col.len) :
    Orderly (v.initRaw col.len) ↔ v.Meets col := by
  unfold initRaw Meets Value.type encode
  rw [unused, if_neg (by omega)]
  cases v.data with
  | int i =>
    by_cases four : col.len = 4
    · simp [four, Ends, Except.map]
    · simp [four, Ends, Except.map, IsRmdbError]
  | float bits =>
    by_cases four : col.len = 4
    · simp [four, Ends, Except.map]
    · simp [four, Ends, Except.map, IsRmdbError]
  | str s =>
    by_cases long : col.len < s.length
    · simp [long, Ends, Except.map, IsRmdbError]
    · simp [long, Ends, Except.map]

theorem meets_of_storable {v : Value} {col : ColMeta} (storable : v.Storable col) : v.Meets col := by
  obtain ⟨_, size⟩ := storable
  unfold Meets type
  cases kind : v.data with
  | int i =>
    rw [kind] at size
    exact fun _ => size
  | float bits =>
    rw [kind] at size
    exact fun _ => size
  | str s => exact fun number => absurd rfl number

theorem Storable.nonneg {v : Value} {col : ColMeta} (storable : v.Storable col) : 0 ≤ col.len := by
  obtain ⟨_, size⟩ := storable
  cases kind : v.data with
  | int i =>
    rw [kind] at size
    exact size ▸ by decide
  | float bits =>
    rw [kind] at size
    exact size ▸ by decide
  | str s =>
    rw [kind] at size
    exact (Int.natCast_nonneg _).trans size

/-- Only a number for a column of its type that is not of four bytes is refused by an assertion. -/
theorem refusal_rmdb_iff {v : Value} {col : ColMeta} (refused : ¬v.Storable col) :
    IsRmdbError (v.refusal col) ↔ (v.type = col.type → v.Meets col) := by
  unfold refusal
  split
  · rename_i different
    exact iff_of_true trivial fun sameType => absurd sameType different
  · rename_i sameType
    split
    · rename_i isString
      exact iff_of_true trivial fun _ number => absurd isString number
    · rename_i number
      refine iff_of_false id fun meets => refused ⟨not_not.mp sameType, ?_⟩
      have four := meets (not_not.mp sameType) number
      unfold type at number
      cases kind : v.data with
      | int i => exact four
      | float bits => exact four
      | str s =>
        rw [kind] at number
        exact absurd rfl number

end Value

namespace Analyze
variable {db : DbMeta} {allCols : List ColMeta} {c : Condition}

theorem convertSvValue_raw (val : Ast.Lit) : (convertSvValue val).raw = none := by
  cases val <;> rfl

theorem getTable_orderly (tabName : String) : Orderly (db.getTable tabName) := by
  unfold DbMeta.getTable
  split <;> trivial

theorem getCol_orderly (tab : TabMeta) (colName : String) : Orderly (tab.getCol colName) := by
  unfold TabMeta.getCol
  split <;> trivial

theorem inferTable_orderly (colName : String) (cols : List ColMeta) (tabName : String) :
    Orderly (inferTable colName cols tabName) := by
  induction cols generalizing tabName with
  | nil => trivial
  | cons col cols ih =>
    unfold inferTable
    split
    · split
      · trivial
      · exact ih _
    · exact ih _

theorem checkColumn_orderly (target : TabCol) : Orderly (checkColumn db allCols target) := by
  unfold checkColumn
  split
  · refine Ends.bind (inferTable_orderly ..) fun tabName _ _ => ?_
    split <;> trivial
  · split
    · split <;> trivial
    · trivial

theorem getAllCols_orderly (tabNames : List String) : Orderly (getAllCols db tabNames) := by
  induction tabNames with
  | nil => trivial
  | cons tabName tabNames ih =>
    refine Ends.bind (getTable_orderly tabName) fun tab _ _ => ?_
    exact Ends.bind ih fun _ _ _ => trivial

theorem checkTables_orderly (tabNames : List String) : Orderly (checkTables db tabNames) := by
  induction tabNames with
  | nil => trivial
  | cons tabName tabNames ih =>
    unfold checkTables
    split
    · exact ih
    · trivial

theorem selectCols_orderly (tabNames : List String) (cols : List TabCol) : Orderly (selectCols db tabNames cols) := by
  refine Ends.bind (getAllCols_orderly tabNames) fun allCols _ _ => ?_
  split
  · trivial
  · exact Ends.mapM_iff.mpr (.of_forall fun target _ => checkColumn_orderly target)

/-- A condition with a literal, its steps in a row. -/
theorem checkCond_literal (literal : c.isRhsVal = true) : checkCond db allCols c = (do
    let found ← checkColumn db allCols c.lhsCol
    let tab ← db.getTable found.tabName
    let lhs ← tab.getCol found.colName
    let rhsVal ← c.rhsVal.initRaw lhs.len
    if lhs.type ≠ rhsVal.type then throw (.incompatibleType (coltype2str lhs.type) (coltype2str rhsVal.type))
    else return { c with lhsCol := found, rhsVal := rhsVal }) := by
  unfold checkCond resolveCond checkRhs
  simp only [literal, if_true]
  cases checkColumn db allCols c.lhsCol with
  | error e => rfl
  | ok found =>
    simp only [ok_bind]
    change (db.getTable found.tabName >>= _) = _
    congr 1
    funext tab
    congr 1
    funext lhs
    simp only [if_true]
    cases c.rhsVal.initRaw lhs.len with
    | error e => rfl
    | ok v => rfl

/-- A condition that compares two columns. -/
theorem checkCond_columns (columns : c.isRhsVal = false) : checkCond db allCols c = (do
    let found ← checkColumn db allCols c.lhsCol
    let found' ← checkColumn db allCols c.rhsCol
    let tab ← db.getTable found.tabName
    let lhs ← tab.getCol found.colName
    let tab' ← db.getTable found'.tabName
    let rhs ← tab'.getCol found'.colName
    if lhs.type ≠ rhs.type then throw (.incompatibleType (coltype2str lhs.type) (coltype2str rhs.type))
    else return { c with lhsCol := found, rhsCol := found' }) := by
  unfold checkCond resolveCond checkRhs
  simp only [columns, Bool.false_eq_true, if_false]
  cases checkColumn db allCols c.lhsCol with
  | error e => rfl
  | ok found =>
    simp only [ok_bind]
    cases checkColumn db allCols c.rhsCol with
    | error e => rfl
    | ok found' =>
      simp only [ok_bind]
      change (db.getTable found.tabName >>= _) = _
      congr 1
      funext tab
      congr 1
      funext lhs
      simp only [Bool.false_eq_true, if_false]
      cases db.getTable found'.tabName with
      | error e => rfl
      | ok tab' =>
        simp only [ok_bind]
        cases tab'.getCol found'.colName with
        | error e => rfl
        | ok rhs => rfl

theorem checkCond_orderly_iff (unused : c.rhsVal.raw = none)
    (nonneg : ∀ col, Finds db allCols c.lhsCol col → 0 ≤ col.len) :
    Orderly (checkCond db allCols c) ↔ CondMeets db allCols c := by
  cases kind : c.isRhsVal with
  | false =>
    refine iff_of_true ?_ fun literal => (by rw [kind] at literal; cases literal)
    rw [checkCond_columns kind]
    refine Ends.bind (checkColumn_orderly _) fun found _ _ => ?_
    refine Ends.bind (checkColumn_orderly _) fun found' _ _ => ?_
    refine Ends.bind (getTable_orderly _) fun tab _ _ => ?_
    refine Ends.bind (getCol_orderly tab _) fun lhs _ _ => ?_
    refine Ends.bind (getTable_orderly _) fun tab' _ _ => ?_
    refine Ends.bind (getCol_orderly tab' _) fun rhs _ _ => ?_
    split <;> trivial
  | true =>
    rw [checkCond_literal kind]
    constructor
    · rintro orderly _ col ⟨found, tab, column, table, here⟩
      rw [column, ok_bind, table, ok_bind, here, ok_bind] at orderly
      exact (Value.initRaw_orderly_iff unused (nonneg col ⟨found, tab, column, table, here⟩)).mp (Ends.first orderly)
    · intro meets
      refine Ends.bind (checkColumn_orderly _) fun found column _ => ?_
      refine Ends.bind (getTable_orderly _) fun tab table _ => ?_
      refine Ends.bind (getCol_orderly tab _) fun lhs here _ => ?_
      have finds : Finds db allCols c.lhsCol lhs := ⟨found, tab, column, table, here⟩
      have encodes := (Value.initRaw_orderly_iff unused (nonneg lhs finds)).mpr (meets kind lhs finds)
      refine Ends.bind encodes fun v _ _ => ?_
      split <;> trivial

theorem checkCond_passes_iff (unused : c.rhsVal.raw = none) :
    (∃ c', checkCond db allCols c = .ok c') ↔ WellTyped db allCols c := by
  cases kind : c.isRhsVal with
  | false =>
    rw [checkCond_columns kind]
    constructor
    · rintro ⟨c', run⟩
      obtain ⟨found, column, run⟩ := bind_eq_ok_iff.mp run
      obtain ⟨found', column', run⟩ := bind_eq_ok_iff.mp run
      obtain ⟨tab, table, run⟩ := bind_eq_ok_iff.mp run
      obtain ⟨lhs, here, run⟩ := bind_eq_ok_iff.mp run
      obtain ⟨tab', table', run⟩ := bind_eq_ok_iff.mp run
      obtain ⟨rhs, here', run⟩ := bind_eq_ok_iff.mp run
      split at run
      · cases run
      · rename_i same
        refine ⟨lhs, ⟨found, tab, column, table, here⟩, fun literal => ?_, fun _ => ?_⟩
        · rw [kind] at literal
          cases literal
        · exact ⟨rhs, ⟨found', tab', column', table', here'⟩, (not_not.mp same).symm⟩
    · rintro ⟨lhs, ⟨found, tab, column, table, here⟩, _, columns⟩
      obtain ⟨rhs, ⟨found', tab', column', table', here'⟩, same⟩ := columns kind
      rw [column, ok_bind, column', ok_bind, table, ok_bind, here, ok_bind, table', ok_bind, here', ok_bind,
        if_neg (not_not.mpr same.symm)]
      exact ⟨_, rfl⟩
  | true =>
    rw [checkCond_literal kind]
    constructor
    · rintro ⟨c', run⟩
      obtain ⟨found, column, run⟩ := bind_eq_ok_iff.mp run
      obtain ⟨tab, table, run⟩ := bind_eq_ok_iff.mp run
      obtain ⟨lhs, here, run⟩ := bind_eq_ok_iff.mp run
      obtain ⟨v, made, run⟩ := bind_eq_ok_iff.mp run
      split at run
      · cases run
      · rename_i same
        obtain ⟨_, raw, encoded, rfl⟩ := Value.initRaw_ok made
        have sameType : c.rhsVal.type = lhs.type := (not_not.mp same).symm
        refine ⟨lhs, ⟨found, tab, column, table, here⟩, fun _ => ?_, fun columns => ?_⟩
        · exact (Value.encode_ok_iff sameType).mp ⟨raw, encoded⟩
        · rw [kind] at columns
          cases columns
    · rintro ⟨lhs, finds, literal, _⟩
      have storable := literal kind
      obtain ⟨raw, encoded⟩ := (Value.encode_ok_iff storable.1).mpr storable
      have made : c.rhsVal.initRaw lhs.len = .ok ⟨c.rhsVal.data, some raw⟩ := by
        have again := Value.initRaw_of_encode storable.nonneg encoded
        rwa [← unused] at again
      have sameType : lhs.type = Value.type ⟨c.rhsVal.data, some raw⟩ := storable.1.symm
      obtain ⟨found, tab, column, table, here⟩ := finds
      rw [column, ok_bind, table, ok_bind, here, ok_bind, made, ok_bind, if_neg (not_not.mpr sameType)]
      exact ⟨_, rfl⟩

theorem mem_of_getCol {tab : TabMeta} {colName : String} {col : ColMeta} (found : tab.getCol colName = .ok col) :
    col ∈ tab.cols := by
  unfold TabMeta.getCol at found
  split at found
  · rename_i here
    cases found
    exact List.mem_of_find?_eq_some here
  · cases found

/-- The loop over the conditions of a WHERE clause. -/
theorem checkClause_orderly_iff (laid : ∀ tabName tab, db.getTable tabName = .ok tab → Consecutive 0 tab.cols)
    (tabNames : List String) (svConds : List Ast.BinaryExpr) :
    Orderly (checkClause db tabNames (getClause svConds)) ↔ WhereMeets db tabNames svConds := by
  unfold checkClause WhereMeets
  refine Ends.bind_iff.trans ((Ends.iff_values (getAllCols_orderly tabNames)).trans (forall₂_congr fun allCols _ => ?_))
  have nonneg : ∀ target col, Finds db allCols target col → 0 ≤ col.len := by
    rintro target col ⟨found, tab, _, table, here⟩
    exact InsertExecutor.len_nonneg (laid _ tab table) col (mem_of_getCol here)
  have unused : ∀ c ∈ getClause svConds, c.rhsVal.raw = none := by
    intro c member
    obtain ⟨expr, _, rfl⟩ := List.mem_map.mp member
    unfold getCond
    split
    · exact convertSvValue_raw _
    · rfl
  exact Ends.mapM_iff.trans (UpTo.congr (fun c member => checkCond_passes_iff (unused c member))
    fun c member => checkCond_orderly_iff (unused c member) (nonneg c.lhsCol))

section
variable {tab : TabMeta} {clause : Ast.SetClause}

theorem setClause_orderly_iff (nonneg : ∀ col ∈ tab.cols, 0 ≤ col.len) :
    Orderly (setClause tab clause) ↔ SetMeets tab clause := by
  unfold setClause SetMeets
  constructor
  · intro orderly col found sameType
    rw [found, ok_bind, if_neg (not_not.mpr sameType.symm)] at orderly
    exact (Value.initRaw_orderly_iff (convertSvValue_raw _) (nonneg col (mem_of_getCol found))).mp (Ends.first orderly)
  · intro meets
    refine Ends.bind (getCol_orderly tab _) fun col found _ => ?_
    split
    · trivial
    · rename_i sameType
      have encodes := (Value.initRaw_orderly_iff (convertSvValue_raw _) (nonneg col (mem_of_getCol found))).mpr
        (meets col found (not_not.mp sameType).symm)
      exact Ends.bind encodes fun _ _ _ => trivial

theorem setClause_passes_iff : (∃ out, setClause tab clause = .ok out) ↔ SetFits tab clause := by
  unfold setClause SetFits
  constructor
  · rintro ⟨out, run⟩
    obtain ⟨col, found, run⟩ := bind_eq_ok_iff.mp run
    split at run
    · cases run
    · rename_i sameType
      obtain ⟨v, made, _⟩ := bind_eq_ok_iff.mp run
      obtain ⟨_, raw, encoded, rfl⟩ := Value.initRaw_ok made
      exact ⟨col, found, (Value.encode_ok_iff (not_not.mp sameType).symm).mp ⟨raw, encoded⟩⟩
  · rintro ⟨col, found, storable⟩
    obtain ⟨raw, encoded⟩ := (Value.encode_ok_iff storable.1).mpr storable
    have made := Value.initRaw_of_encode storable.nonneg encoded
    rw [← convertSvValue_raw clause.val] at made
    rw [found, ok_bind, if_neg (not_not.mpr storable.1.symm), made]
    exact ⟨_, rfl⟩

/-- The loop over the clauses of SET. -/
theorem setClauses_orderly_iff (nonneg : ∀ col ∈ tab.cols, 0 ≤ col.len) (clauses : List Ast.SetClause) :
    Orderly (clauses.mapM (setClause tab)) ↔ UpTo (SetFits tab) (SetMeets tab) clauses :=
  Ends.mapM_iff.trans (UpTo.congr (fun _ _ => setClause_passes_iff) fun _ _ => setClause_orderly_iff nonneg)

end

end Analyze

namespace InsertExecutor
variable {r : RmRecord} {cols : List ColMeta} {values : List Value} {offset : Int}

/-- The loop over the values ends with the first that is not stored. -/
theorem setColumns_orderly_iff (laid : Consecutive offset cols) (nonneg : 0 ≤ offset)
    (count : values.length = cols.length) (unused : ∀ v ∈ values, v.raw = none)
    (fits : offset + totalLen cols ≤ r.length) :
    Orderly (setColumns cols values r) ↔
      UpTo (fun p => p.2.Storable p.1) (fun p => p.2.type = p.1.type → p.2.Meets p.1) (cols.zip values) := by
  induction cols generalizing offset values r with
  | nil =>
    cases values with
    | nil => exact iff_of_true trivial trivial
    | cons v values => cases count
  | cons col cols ih =>
    cases values with
    | nil => cases count
    | cons v values =>
      obtain ⟨start, positive, laid⟩ := laid
      obtain ⟨free, unused⟩ := List.forall_mem_cons.mp unused
      rw [List.zip_cons_cons, UpTo]
      by_cases here : v.Storable col
      · have rest := totalLen_nonneg (len_nonneg laid)
        simp only [totalLen, List.map_cons, List.sum_cons] at fits rest
        obtain ⟨_, w, _, _, first, width, _⟩ := setColumn_storable (r := r) here free ⟨by omega, by omega, by omega⟩
        have later := ih (r := w) laid (by omega) (by simpa using count) unused
          (by rw [width]; simp only [totalLen]; omega)
        rw [setColumns, first, ok_bind, later]
        exact ⟨fun rest => ⟨fun _ => Value.meets_of_storable here, fun _ => rest⟩, fun both => both.2 here⟩
      · rw [setColumns, setColumn_refused here free (by omega)]
        refine (Value.refusal_rmdb_iff here).trans ?_
        exact ⟨fun meets => ⟨meets, fun storable => absurd storable here⟩, fun both => both.1⟩

/-- The executor after its constructor, on a file with room. -/
theorem next_orderly_iff {x : InsertExecutor} {s : RmFile FlatFile} {ihs : String → Bool} (inv : s.FileInv)
    (space : s.HasSpace) (laid : Consecutive 0 x.tab.cols) (size : s.hdr.recordSize = totalLen x.tab.cols)
    (ready : ∀ index ∈ x.tab.indexes, IndexReady ihs x.tabName x.tab index)
    (count : x.values.length = x.tab.cols.length) (unused : ∀ v ∈ x.values, v.raw = none) (junk : Nat → UInt8) :
    Orderly (reading s (x.next ihs junk)) ↔
      UpTo (fun p => p.2.Storable p.1) (fun p => p.2.type = p.1.type → p.2.Meets p.1) (x.tab.cols.zip x.values) := by
  by_cases storable : ∀ p ∈ x.tab.cols.zip x.values, p.2.Storable p.1
  · refine iff_of_true ?_ (.of_forall fun p member _ => Value.meets_of_storable (storable p member))
    rcases next_storable inv laid size ready count unused storable junk with ⟨full, _⟩ | ⟨rid, t, _, run, _⟩
    · exact absurd space full
    · rw [reading, run]
      trivial
  · obtain ⟨nonneg, length⟩ := buffer_length laid size junk
    rw [← setColumns_orderly_iff (r := (List.range s.hdr.recordSize.toNat).map junk) laid le_rfl count unused (by omega)]
    obtain ⟨p, _, _, refused⟩ := setColumns_refused (r := (List.range s.hdr.recordSize.toNat).map junk) laid le_rfl count
      unused (by omega) storable
    have run : x.next ihs junk s = .error (p.2.refusal p.1) s := by
      rw [next, get_bind, if_neg nonneg, refused]
      rfl
    rw [reading, run, refused]
    exact Iff.rfl

end InsertExecutor

namespace Analyze
variable {db : DbMeta}

/-- Whether `do_analyze` meets an assertion of `init_raw`. The check of WHERE encodes a literal before it compares the
types, unlike that of SET; the values of INSERT are left to the executor. -/
theorem doAnalyze_orderly_iff (ready : db.Ready) {stmt : Ast.TreeNode}
    (encodes : ∀ tabName vals, stmt ≠ .insertStmt tabName vals) : Orderly (doAnalyze db stmt) ↔ NumbersMeet db stmt := by
  have laid := fun tabName tab table => (ready.laid tabName tab table).1
  cases stmt with
  | selectStmt cols tabs svConds order =>
    refine Ends.bind_iff.trans ((Ends.iff_values (checkTables_orderly tabs)).trans ?_)
    refine Unique.forall_iff.trans (imp_congr_right fun _ => ?_)
    refine Ends.bind_iff.trans ((Ends.iff_values (selectCols_orderly tabs _)).trans ?_)
    rw [exists_imp, ← checkClause_orderly_iff laid]
    exact forall₂_congr fun out _ => Ends.bind_iff
  | updateStmt tabName clauses svConds =>
    refine Ends.bind_iff.trans ((Ends.iff_values (getTable_orderly tabName)).trans (forall₂_congr fun tab table => ?_))
    have nonneg := InsertExecutor.len_nonneg (laid _ _ table)
    have passes : (∀ clause ∈ clauses, SetFits tab clause) ↔ ∃ out, clauses.mapM (setClause tab) = .ok out :=
      (forall₂_congr fun _ _ => setClause_passes_iff.symm).trans mapM_ok_iff.symm
    rw [passes, exists_imp, ← setClauses_orderly_iff nonneg, ← checkClause_orderly_iff laid]
    refine Ends.bind_iff.trans (Ends.iff_and_values.trans (and_congr_right fun _ => ?_))
    exact forall₂_congr fun out _ => Ends.bind_iff
  | deleteStmt tabName svConds => exact Ends.bind_iff.trans (checkClause_orderly_iff laid [tabName] svConds)
  | insertStmt tabName vals => exact absurd rfl (encodes tabName vals)
  | _ => exact iff_of_true trivial trivial

end Analyze

end Rmdb
