import Rmdb.Parser.Ast
import Rmdb.System.Catalog

namespace Rmdb
open DiskManager

namespace Ast

/-- The rule `type` of the grammar. The literal of CHAR is any `VALUE_INT`, signed or not. -/
inductive IsType : TypeLen → Prop
  | int : IsType ⟨.int, 4⟩
  | char (len : Int) : IsInt len → IsType ⟨.string, len⟩
  | float : IsType ⟨.float, 4⟩

theorem IsType.isInt {type : TypeLen} (rule : IsType type) : IsInt type.len := by
  cases rule with
  | int => decide
  | char len isInt => exact isInt
  | float => decide

/-- The rule `field`. -/
def IsField (field : ColDef) : Prop := IsIdentifier field.colName ∧ IsType field.typeLen

/-- The rule `fieldList`. -/
inductive IsFieldList : List ColDef → Prop
  | field {field : ColDef} : IsField field → IsFieldList [field]
  | comma {fields : List ColDef} {field : ColDef} : IsFieldList fields → IsField field → IsFieldList (fields ++ [field])

theorem IsFieldList.fields {fields : List ColDef} (list : IsFieldList fields) : ∀ field ∈ fields, IsField field := by
  induction list with
  | field isField =>
    intro field member
    rw [List.mem_singleton.mp member]
    exact isField
  | comma _ isField ih =>
    intro field member
    rcases List.mem_append.mp member with before | last
    · exact ih field before
    · rw [List.mem_singleton.mp last]
      exact isField

end Ast

/-- `do_planner` for CREATE TABLE. -/
def Planner.colDefs (fields : List Ast.ColDef) : List ColDef :=
  fields.map fun field => ⟨field.colName, field.typeLen.type, field.typeLen.len⟩

theorem Planner.colLens_colDefs (fields : List Ast.ColDef) :
    Database.colLens (Planner.colDefs fields) = (fields.map (·.typeLen.len)).sum := by
  rw [Database.colLens, Planner.colDefs, List.map_map]
  rfl

/-- A byte of a record belongs to a column. -/
def ColMeta.Holds (col : ColMeta) (i : Int) : Prop := col.offset ≤ i ∧ i < col.offset + col.len

/-- Columns that share a record among them. -/
structure SoundLayout (cols : List ColMeta) (recordSize : Int) : Prop where
  names : (cols.map (·.name)).Nodup
  nonneg : ∀ col ∈ cols, 0 ≤ col.len
  disjoint : cols.Pairwise fun a b => ∀ i, ¬(a.Holds i ∧ b.Holds i)
  covers : ∀ i, (∃ col ∈ cols, col.Holds i) ↔ 0 ≤ i ∧ i < recordSize

namespace Database
variable {N : Nat} {s t : Database N} {tabName : String} {colDefs : List ColDef} {cols : List ColMeta}
  {offset recordSize : Int} {made fd fd' : Int}

/-- The columns take over what they have from the statement, in order. -/
theorem layOut_map {β : Type} {f : ColMeta → β} {g : ColDef → β}
    (same : ∀ colDef offset, f ⟨tabName, colDef.name, colDef.type, colDef.len, offset, false⟩ = g colDef)
    (run : layOut tabName offset colDefs = (cols, recordSize)) : cols.map f = colDefs.map g := by
  induction colDefs generalizing offset cols with
  | nil =>
    cases run
    rfl
  | cons colDef colDefs ih =>
    unfold layOut at run
    cases run
    rw [List.map_cons, List.map_cons, ih rfl, same]

theorem layOut_fields (run : layOut tabName offset colDefs = (cols, recordSize)) :
    cols.map (fun col => (col.name, col.len)) = colDefs.map fun colDef => (colDef.name, colDef.len) :=
  layOut_map (fun _ _ => rfl) run

theorem colLens_nonneg (nonneg : ∀ colDef ∈ colDefs, 0 ≤ colDef.len) : 0 ≤ colLens colDefs := by
  induction colDefs with
  | nil => exact le_rfl
  | cons colDef colDefs ih =>
    obtain ⟨here, nonneg⟩ := List.forall_mem_cons.mp nonneg
    exact add_nonneg here (ih nonneg)

/-- Lengths that are not negative can be added up on the way if they can in the end. -/
theorem step_inRange {colDef : ColDef} (lower : 0 ≤ offset) (here : 0 ≤ colDef.len)
    (nonneg : ∀ colDef ∈ colDefs, 0 ≤ colDef.len) (small : offset + colLens (colDef :: colDefs) ≤ intMax) :
    wrapInt (offset + colDef.len) = offset + colDef.len ∧ 0 ≤ offset + colDef.len ∧
      offset + colDef.len + colLens colDefs ≤ intMax := by
  have rest := colLens_nonneg nonneg
  simp only [colLens, List.map_cons, List.sum_cons] at small rest ⊢
  exact ⟨wrapInt_of_isInt ⟨by unfold intMin; omega, by omega⟩, by omega, by omega⟩

/-- Without negative lengths and overflow every column starts where the one before it ends. -/
theorem layOut_sound (lower : 0 ≤ offset) (nonneg : ∀ colDef ∈ colDefs, 0 ≤ colDef.len)
    (small : offset + colLens colDefs ≤ intMax) (run : layOut tabName offset colDefs = (cols, recordSize)) :
    (∀ i, (∃ col ∈ cols, col.Holds i) ↔ offset ≤ i ∧ i < recordSize) ∧ offset ≤ recordSize ∧
      cols.Pairwise fun a b => ∀ i, ¬(a.Holds i ∧ b.Holds i) := by
  induction colDefs generalizing offset cols with
  | nil =>
    cases run
    refine ⟨fun i => ?_, le_rfl, .nil⟩
    constructor
    · rintro ⟨col, member, _⟩
      cases member
    · rintro ⟨lower, upper⟩
      omega
  | cons colDef colDefs ih =>
    obtain ⟨here, nonneg⟩ := List.forall_mem_cons.mp nonneg
    obtain ⟨noWrap, lower', small⟩ := step_inRange lower here nonneg small
    unfold layOut at run
    rw [noWrap] at run
    cases run
    obtain ⟨covers, grows, disjoint⟩ := ih lower' nonneg small rfl
    refine ⟨fun i => ?_, by omega, List.pairwise_cons.mpr ⟨fun col member i both => ?_, disjoint⟩⟩
    · rw [List.exists_mem_cons_iff, covers]
      unfold ColMeta.Holds
      dsimp only
      omega
    · have after := (covers i).mp ⟨col, member, both.2⟩
      have before := both.1.2
      dsimp only at before
      omega

/-- Columns that take some bytes lie one behind the other. -/
theorem layOut_tiles (lower : 0 ≤ offset) (positive : ∀ colDef ∈ colDefs, 0 < colDef.len)
    (small : offset + colLens colDefs ≤ intMax) (run : layOut tabName offset colDefs = (cols, recordSize)) :
    Consecutive offset cols := by
  induction colDefs generalizing offset cols with
  | nil =>
    cases run
    trivial
  | cons colDef colDefs ih =>
    obtain ⟨here, positive⟩ := List.forall_mem_cons.mp positive
    obtain ⟨noWrap, lower', small⟩ := step_inRange lower here.le (fun colDef member => (positive colDef member).le) small
    unfold layOut at run
    rw [noWrap] at run
    cases run
    exact ⟨rfl, here, ih lower' positive small rfl⟩

/-- Where no column ends behind the record the lengths can be added up. -/
theorem layOut_inRange (isInt : IsInt offset) (nonneg : ∀ colDef ∈ colDefs, 0 ≤ colDef.len)
    (small : recordSize ≤ intMax) (run : layOut tabName offset colDefs = (cols, recordSize))
    (inside : ∀ col ∈ cols, ∀ i, col.Holds i → i < recordSize) : offset + colLens colDefs ≤ intMax := by
  induction colDefs generalizing offset cols with
  | nil =>
    rw [colLens, List.map_nil, List.sum_nil, add_zero]
    exact isInt.2
  | cons colDef colDefs ih =>
    obtain ⟨here, nonneg⟩ := List.forall_mem_cons.mp nonneg
    unfold layOut at run
    cases run
    obtain ⟨first, inside⟩ := List.forall_mem_cons.mp inside
    have ends : IsInt (offset + colDef.len) := by
      have last := first (offset + colDef.len - 1)
      unfold ColMeta.Holds at last
      dsimp only at last
      obtain ⟨lower, upper⟩ := isInt
      exact ⟨by omega, by by_contra above; exact above (by omega)⟩
    have rest := ih (isInt_wrapInt _) nonneg rfl inside
    rw [wrapInt_of_isInt ends] at rest
    simp only [colLens, List.map_cons, List.sum_cons] at rest ⊢
    omega

/-- The layout that `create_table` makes is sound if and only if the names differ, no length is negative and the
lengths can be added up. -/
theorem layOut_sound_iff (run : layOut tabName 0 colDefs = (cols, recordSize)) (sized : recordSize ≤ RM_MAX_RECORD_SIZE) :
    SoundLayout cols recordSize ↔
      (colDefs.map (·.name)).Nodup ∧ (∀ colDef ∈ colDefs, 0 ≤ colDef.len) ∧ colLens colDefs ≤ intMax := by
  have fields := layOut_fields run
  have names : cols.map (·.name) = colDefs.map (·.name) := by
    have firsts := congrArg (List.map Prod.fst) fields
    simpa only [List.map_map, Function.comp_def] using firsts
  have lens : cols.map (·.len) = colDefs.map (·.len) := by
    have seconds := congrArg (List.map Prod.snd) fields
    simpa only [List.map_map, Function.comp_def] using seconds
  have nonneg : (∀ col ∈ cols, 0 ≤ col.len) ↔ ∀ colDef ∈ colDefs, 0 ≤ colDef.len := by
    rw [← List.forall_mem_map (P := fun len => 0 ≤ len), lens, List.forall_mem_map]
  have small : recordSize ≤ intMax := by
    unfold RM_MAX_RECORD_SIZE at sized
    unfold intMax
    omega
  constructor
  · intro sound
    have positive := nonneg.mp sound.nonneg
    have whole := layOut_inRange (by decide) positive small run fun col member i holds =>
      ((sound.covers i).mp ⟨col, member, holds⟩).2
    rw [zero_add] at whole
    exact ⟨names ▸ sound.names, positive, whole⟩
  · rintro ⟨distinct, positive, whole⟩
    obtain ⟨covers, _, disjoint⟩ := layOut_sound le_rfl positive (by rwa [zero_add]) run
    exact ⟨names ▸ distinct, nonneg.mpr positive, disjoint, covers⟩

theorem createTable_sound_iff (named : Named s.pool.diskManager)
    (run : createTable tabName colDefs made fd fd' s = .ok () t) : ∃ tab recordSize, t.db.getTable tabName = .ok tab ∧
      t.pool.diskManager.recordSizeOf tabName = some recordSize ∧
      (SoundLayout tab.cols recordSize ↔
        (colDefs.map (·.name)).Nodup ∧ (∀ colDef ∈ colDefs, 0 ≤ colDef.len) ∧ colLens colDefs ≤ intMax) := by
  obtain ⟨cols, recordSize, u, v, h, _, laid, created, opened, rfl⟩ := createTable_ok run
  obtain ⟨_, sized, _⟩ := RmManager.createFile_pool named.con created
  have size := (RmManager.createFile_sizes named.con created).1
  have sizes := (RmManager.openFile_named (RmManager.createFile_named named created).1 opened).2.2.1
  have table : (DbMeta.assign tabName ⟨tabName, cols, []⟩ s.db.tabs).lookup tabName = some ⟨tabName, cols, []⟩ := by
    rw [DbMeta.lookup_assign, if_pos rfl]
  exact ⟨⟨tabName, cols, []⟩, recordSize, Agrees.getTable_iff.mpr table, by rw [sizes, size],
    layOut_sound_iff laid sized⟩

/-- A CREATE TABLE that succeeds, after whatever statements, gives a sound layout exactly if its columns have different
names, none is a CHAR of negative length, and their lengths add up to an `int`. -/
theorem schema_sound_iff {allowed : Database N → Ddl → Prop} (reach : Reach allowed s) {fields : List Ast.ColDef}
    (list : Ast.IsFieldList fields) (run : createTable tabName (Planner.colDefs fields) made fd fd' s = .ok () t) :
    ∃ tab recordSize, t.db.getTable tabName = .ok tab ∧
      t.pool.diskManager.recordSizeOf tabName = some recordSize ∧
      (SoundLayout tab.cols recordSize ↔ (fields.map (·.colName)).Nodup ∧
        (∀ field ∈ fields, field.typeLen.type = .string → 0 ≤ field.typeLen.len) ∧
        (fields.map (·.typeLen.len)).sum ≤ intMax) := by
  obtain ⟨tab, recordSize, found, size, sound⟩ := createTable_sound_iff reach.tracks.named run
  have names : (Planner.colDefs fields).map (·.name) = fields.map (·.colName) := by
    rw [Planner.colDefs, List.map_map]
    rfl
  have nonneg : (∀ colDef ∈ Planner.colDefs fields, 0 ≤ colDef.len) ↔
      ∀ field ∈ fields, field.typeLen.type = .string → 0 ≤ field.typeLen.len := by
    rw [Planner.colDefs, List.forall_mem_map]
    refine forall₂_congr fun field member => ⟨fun long _ => long, fun long => ?_⟩
    obtain ⟨name, typeLen⟩ := field
    cases (list.fields _ member).2 with
    | int => exact show (0 : Int) ≤ 4 by decide
    | char len _ => exact long rfl
    | float => exact show (0 : Int) ≤ 4 by decide
  rw [names, nonneg, Planner.colLens_colDefs] at sound
  exact ⟨tab, recordSize, found, size, sound⟩

def columnsOk : List Ast.ColDef := [⟨"a", .int, 4⟩, ⟨"b", .string, 8⟩]

/-- Two columns that lie side by side. -/
theorem schema_sound_two : ∃ tab recordSize, SoundLayout tab.cols recordSize ∧
    (stateAfter (createTable "t" (Planner.colDefs columnsOk) 3 3 3) openedDb).db.getTable "t" = .ok tab := by
  have list : Ast.IsFieldList columnsOk :=
    @Ast.IsFieldList.comma [_] _ (.field ⟨by decide, .int⟩) ⟨by decide, .char 8 (by decide)⟩
  have reach : Reach (fun _ _ => True) openedDb := openedDb_reach
  obtain ⟨tab, recordSize, found, _, sound⟩ := schema_sound_iff reach list
    (run_of_value (by decide +kernel : value (createTable "t" (Planner.colDefs columnsOk) 3 3 3) openedDb = some ()))
  exact ⟨tab, recordSize, sound.mpr ⟨by decide, by decide, by decide⟩, found⟩

def columnsOver : List Ast.ColDef := [⟨"a", .string, -4⟩, ⟨"a", .string, 8⟩]

/-- Two columns of one name, the second of which starts in front of the record. -/
theorem schema_unsound : ¬∀ (s t : Database 1) (tabName : String) (fields : List Ast.ColDef)
    (made fd fd' : Int), Reach (fun _ _ => True) s → Ast.IsFieldList fields →
    createTable tabName (Planner.colDefs fields) made fd fd' s = .ok () t → ∀ tab recordSize,
    t.db.getTable tabName = .ok tab → t.pool.diskManager.recordSizeOf tabName = some recordSize →
    SoundLayout tab.cols recordSize := by
  intro sound
  have list : Ast.IsFieldList columnsOver :=
    @Ast.IsFieldList.comma [_] _ (.field ⟨by decide, .char (-4) (by decide)⟩) ⟨by decide, .char 8 (by decide)⟩
  have run : createTable "t" (Planner.colDefs columnsOver) 3 3 3 openedDb =
    .ok () (stateAfter (createTable "t" (Planner.colDefs columnsOver) 3 3 3) openedDb) :=
      run_of_value (by decide +kernel)
  obtain ⟨tab, recordSize, found, size, iff⟩ := createTable_sound_iff openedDb_reach.agrees.named run
  have layout := sound openedDb _ "t" columnsOver 3 3 3 openedDb_reach list run tab recordSize found size
  exact absurd (iff.mp layout).1 (by decide)

end Database

end Rmdb
