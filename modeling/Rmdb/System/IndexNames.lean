import Rmdb.Kit.Joined
import Rmdb.System.Catalog

namespace Rmdb

/-- `get_index_name` from the names of the columns. -/
def IxManager.getIndexNameOf (filename : String) (indexCols : List String) : String :=
  indexCols.foldl (fun name col => name ++ "_" ++ col) filename ++ ".idx"

/-- What an index is on: a table and columns of it, under names as the scanner accepts them. -/
@[ext] structure IndexKey where
  tabName : String
  colNames : List String
  tab_identifier : IsIdentifier tabName
  col_identifiers : ∀ col ∈ colNames, IsIdentifier col
  nonempty : colNames ≠ []

namespace IndexKey

/-- The file of the index, which is also its key in `ihs_`. -/
def fileName (key : IndexKey) : String := IxManager.getIndexNameOf key.tabName key.colNames

abbrev IsLetter (c : Char) : Prop := c.isAlpha = true

/-- The names cut at all their underscores. -/
def pieces (key : IndexKey) : List (List Char) :=
  key.tabName.toList.splitOn '_' ++ key.colNames.flatMap (·.toList.splitOn '_')

/-- An index on one column where no letter follows an underscore, in neither name. -/
def Plain (key : IndexKey) : Prop :=
  ∃ col, key.colNames = [col] ∧ Whole '_' IsLetter key.tabName.toList ∧ Whole '_' IsLetter col.toList

end IndexKey

theorem IxManager.getIndexName_eq (filename : String) (indexCols : List ColMeta) :
    getIndexName filename indexCols = getIndexNameOf filename (indexCols.map (·.name)) := by
  unfold getIndexName getIndexNameOf
  rw [List.foldl_map]

theorem IxManager.getIndexNameOf_toList (filename : String) (indexCols : List String) :
    (getIndexNameOf filename indexCols).toList =
      joined '_' filename.toList (indexCols.map (·.toList)) ++ ".idx".toList := by
  have loop : ∀ name : String, (indexCols.foldl (fun name col => name ++ "_" ++ col) name).toList =
      joined '_' name.toList (indexCols.map (·.toList)) := by
    induction indexCols with
    | nil => intro name; simp [joined]
    | cons col cols ih =>
      intro name
      rw [List.foldl_cons, ih]
      simp [joined]
  rw [getIndexNameOf, String.toList_append, loop]

theorem IsIdentifier.begins {name : String} (identifier : IsIdentifier name) :
    Begins IndexKey.IsLetter name.toList := by
  unfold IsIdentifier at identifier
  split at identifier
  · cases identifier
  · rename_i c rest letters
    exact ⟨c, rest, letters, identifier.1⟩

/-- The characters after a letter. -/
def IsNameChar (c : Char) : Prop := c.isAlphanum = true ∨ c = '_'

theorem IsIdentifier.of_toList {w : List Char} (begins : Begins IndexKey.IsLetter w) (chars : ∀ c ∈ w, IsNameChar c) :
    IsIdentifier (String.ofList w) := by
  obtain ⟨a, rest, rfl, letter⟩ := begins
  unfold IsIdentifier
  rw [String.toList_ofList]
  exact ⟨letter, fun c member => chars c (List.mem_cons_of_mem _ member)⟩

theorem IsIdentifier.chars {name : String} (identifier : IsIdentifier name) : ∀ c ∈ name.toList, IsNameChar c := by
  unfold IsIdentifier at identifier
  split at identifier
  · cases identifier
  · rename_i c rest letters
    rw [letters]
    refine List.forall_mem_cons.mpr ⟨Or.inl ?_, identifier.2⟩
    simp [Char.isAlphanum, identifier.1]

namespace IndexKey
variable {x y : IndexKey}

theorem fileName_eq_iff : x.fileName = y.fileName ↔
    joined '_' x.tabName.toList (x.colNames.map (·.toList)) =
      joined '_' y.tabName.toList (y.colNames.map (·.toList)) := by
  unfold fileName
  rw [← String.toList_inj, IxManager.getIndexNameOf_toList, IxManager.getIndexNameOf_toList, List.append_left_inj]

theorem fileName_eq_iff_pieces : x.fileName = y.fileName ↔ x.pieces = y.pieces := by
  rw [fileName_eq_iff, joined_eq_iff, List.flatMap_map, List.flatMap_map]
  rfl

/-- A name that is not whole is two names with an underscore between them. -/
theorem cut_identifier {name : String} (identifier : IsIdentifier name) (broken : ¬Whole '_' IsLetter name.toList) :
    ∃ u v, IsIdentifier u ∧ IsIdentifier v ∧ name = u ++ "_" ++ v := by
  obtain ⟨u, v, begins, same⟩ := not_whole_iff.mp broken
  have chars := identifier.chars
  rw [same] at chars
  have first : Begins IsLetter u := by
    obtain ⟨a, rest, whole, letter⟩ := identifier.begins
    rw [same] at whole
    cases u with
    | nil =>
      have other : '_' = a := (List.cons.inj whole).1
      exact absurd (other ▸ letter) (by decide)
    | cons b u =>
      have other : b = a := (List.cons.inj whole).1
      exact ⟨b, u, rfl, other ▸ letter⟩
  refine ⟨String.ofList u, String.ofList v, .of_toList first fun c member => ?_,
    .of_toList begins fun c member => ?_, ?_⟩
  · exact chars c (List.mem_append_left _ member)
  · exact chars c (List.mem_append_right _ (List.mem_cons_of_mem _ member))
  · rw [← String.toList_inj, same]
    simp

theorem joined_identifier {u v : String} (first : IsIdentifier u) (second : IsIdentifier v) :
    IsIdentifier (u ++ "_" ++ v) := by
  have chars : ∀ c ∈ u.toList ++ '_' :: v.toList, IsNameChar c := by
    refine List.forall_mem_append.mpr ⟨first.chars, List.forall_mem_cons.mpr ⟨Or.inr rfl, second.chars⟩⟩
  have made := IsIdentifier.of_toList (first.begins.append _) chars
  have same : String.ofList (u.toList ++ '_' :: v.toList) = u ++ "_" ++ v := by
    rw [← String.toList_inj]
    simp
  rwa [same] at made

/-- A plain name is no other's. -/
theorem Plain.unique (plain : x.Plain) (same : y.fileName = x.fileName) : y = x := by
  obtain ⟨col, only, wholeTab, wholeCol⟩ := plain
  have text := fileName_eq_iff.mp same.symm
  rw [only] at text
  have begin : ∀ u ∈ y.colNames.map (·.toList), Begins IsLetter u :=
    List.forall_mem_map.mpr fun col member => (y.col_identifiers col member).begins
  obtain ⟨tab, cols⟩ := joined_inj (by decide : ¬IsLetter '_') wholeTab wholeCol begin
    (by simpa using y.nonempty) text
  have names : y.colNames = [col] := by
    apply List.map_injective_iff.mpr (fun _ _ => String.toList_inj.mp)
    exact cols.symm
  ext1
  · exact String.toList_inj.mp tab.symm
  · rw [names, only]

/-- Every other name is also that of an index on other columns. -/
theorem exists_clash (notPlain : ¬x.Plain) : ∃ y : IndexKey, y.fileName = x.fileName ∧ y ≠ x := by
  obtain ⟨tab, cols, tabOk, colsOk, nonempty⟩ := x
  obtain ⟨c, rest, rfl⟩ := List.exists_cons_of_ne_nil nonempty
  obtain ⟨colOk, restOk⟩ := List.forall_mem_cons.mp colsOk
  cases rest with
  | cons d rest =>
    refine ⟨⟨tab ++ "_" ++ c, d :: rest, joined_identifier tabOk colOk, restOk, List.cons_ne_nil _ _⟩, rfl, ?_⟩
    intro same
    have lengths := congrArg (fun key => key.colNames.length) same
    simp at lengths
  | nil =>
    by_cases wholeTab : Whole '_' IsLetter tab.toList
    · have broken : ¬Whole '_' IsLetter c.toList := fun whole => notPlain ⟨c, rfl, wholeTab, whole⟩
      obtain ⟨u, v, first, second, rfl⟩ := cut_identifier colOk broken
      refine ⟨⟨tab, [u, v], tabOk, ?_, List.cons_ne_nil _ _⟩, ?_, ?_⟩
      · exact List.forall_mem_cons.mpr ⟨first, List.forall_mem_singleton.mpr second⟩
      · rw [fileName_eq_iff]
        simp [joined]
      · intro same
        have lengths := congrArg (fun key => key.colNames.length) same
        simp at lengths
    · obtain ⟨u, v, first, second, rfl⟩ := cut_identifier tabOk wholeTab
      refine ⟨⟨u, [v, c], first, ?_, List.cons_ne_nil _ _⟩, rfl, ?_⟩
      · exact List.forall_mem_cons.mpr ⟨second, List.forall_mem_singleton.mpr colOk⟩
      · intro same
        have lengths := congrArg (fun key => key.colNames.length) same
        simp at lengths

/-- The two overloads agree. Two indexes have one file exactly if their names are the same once cut at the underscores,
and the file of an index is no other's exactly if the index is plain. -/
theorem file_name_unique_iff (x : IndexKey) :
    (∀ (filename : String) (indexCols : List ColMeta), IxManager.getIndexName filename indexCols =
      IxManager.getIndexNameOf filename (indexCols.map (·.name))) ∧
      (∀ y : IndexKey, (x.fileName = y.fileName → x = y) ↔ x = y ∨ x.pieces ≠ y.pieces) ∧
      ((∀ y : IndexKey, y.fileName = x.fileName → y = x) ↔ x.Plain) := by
  refine ⟨IxManager.getIndexName_eq, fun y => ?_, fun unique => ?_, fun plain y => plain.unique⟩
  · rw [fileName_eq_iff_pieces]
    tauto
  · by_contra notPlain
    obtain ⟨y, same, different⟩ := exists_clash notPlain
    exact different (unique y same)

/-- The index of table `a` on `b` and `c`. -/
def twoColumns : IndexKey := ⟨"a", ["b", "c"], by decide, by decide, by decide⟩

/-- The index of table `a_b` on `c`. -/
def otherTable : IndexKey := ⟨"a_b", ["c"], by decide, by decide, by decide⟩

theorem file_name_clash : ¬∀ x y : IndexKey, x.fileName = y.fileName → x = y := by
  intro unique
  have same := congrArg IndexKey.tabName (unique twoColumns otherTable (by decide))
  exact absurd same (by decide)

end IndexKey

end Rmdb
