import Rmdb.Execution.Insert
import Rmdb.Parser.Literals

namespace Rmdb
open Analyze

def Condition.literal (c : Condition) : Option Value := if c.isRhsVal then some c.rhsVal else none

/-- The values of a resolved statement that come from literals. -/
def Query.literals (query : Query) : List Value :=
  query.values ++ query.setClauses.map (·.rhs) ++ query.conds.filterMap Condition.literal

def ConditionText.literal (cond : ConditionText) : Option ValueText :=
  match cond.rhs with
  | .val v => some v
  | .col _ => none

def StatementText.literals : StatementText → List ValueText
  | .createTable _ _ => []
  | .insertStmt _ vals => vals
  | .deleteStmt _ conds => conds.filterMap ConditionText.literal
  | .updateStmt _ clauses conds => clauses.map (·.val) ++ conds.filterMap ConditionText.literal
  | .selectStmt _ _ conds _ => conds.filterMap ConditionText.literal

/-- What a literal denotes. -/
def ValueText.datum : ValueText → Datum
  | .int n => .int n.value
  | .float bits => .float bits
  | .string val => .str val

/-- The bytes of the value are the four bytes of the number, or will be after `init_raw`. -/
structure Value.Stores (v : Value) (i : Int) : Prop where
  now : ∀ raw, v.raw = some raw → raw.length = 4 ∧ decodeInt (RmRecord.ptr raw) = i
  later : ∀ len w, v.initRaw len = .ok w → ∃ raw, w.raw = some raw ∧ raw.length = 4 ∧ decodeInt (RmRecord.ptr raw) = i

/-- What a SELECT prints for the column is a numeral of the number. -/
def QlManager.Prints (r : RmRecord) (col : ColMeta) (i : Int) : Prop :=
  ∃ v, readColumn r col = .ok (.int v) ∧ ∃ n : Numeral, n.text = intToString v ∧ n.value = i

namespace StatementText

/-- The literals of a statement keep their values: in the tree, in the resolved statement, in its bytes, and in a
row that INSERT makes and SELECT prints. -/
structure Exact (sm : SmManager) (s : StatementText) : Prop where
  tree : s.tree = s.treeWith Numeral.value
  values : ∀ query, doAnalyze sm.db s.tree = .ok query → query.literals.map (·.data) = s.literals.map ValueText.datum
  stored : ∀ query, doAnalyze sm.db s.tree = .ok query → ∀ v ∈ query.literals, ∀ i, v.data = .int i → v.Stores i
  printed : ∀ tabName vals query x r row, s = .insertStmt tabName vals → doAnalyze sm.db s.tree = .ok query →
    InsertExecutor.new sm tabName query.values = .ok x → Consecutive 0 x.tab.cols →
    totalLen x.tab.cols ≤ (r : RmRecord).length → InsertExecutor.setColumns x.tab.cols x.values r = .ok row →
    ∀ p ∈ x.tab.cols.zip vals, ∀ n, p.2 = .int n → QlManager.Prints row p.1 n.value

end StatementText

section
variable {db : DbMeta} {allCols : List ColMeta} {f : Numeral → Int}

theorem map_mapM {ε α β γ : Type} {f : α → Except ε β} {g : α → γ} {h : β → γ} {l : List α} {m : List β}
    (run : l.mapM f = .ok m) (each : ∀ a b, f a = .ok b → h b = g a) : m.map h = l.map g := by
  have related := mapM_ok run
  clear run
  induction related with
  | nil => rfl
  | cons first _ ih => rw [List.map_cons, List.map_cons, each _ _ first, ih]

theorem checkCond_literal {c c' : Condition} (accepted : checkCond db allCols c = .ok c') :
    c'.literal.map (·.data) = c.literal.map (·.data) := by
  obtain ⟨r, resolved, rest⟩ := bind_eq_ok_iff.mp accepted
  obtain ⟨tab, _, rest⟩ := bind_eq_ok_iff.mp rest
  obtain ⟨lhs, _, rest⟩ := bind_eq_ok_iff.mp rest
  obtain ⟨⟨d, rhsType⟩, right, rest⟩ := bind_eq_ok_iff.mp rest
  simp only at rest
  have same : r.isRhsVal = c.isRhsVal ∧ r.rhsVal = c.rhsVal := by
    obtain ⟨lhsCol, _, rest⟩ := bind_eq_ok_iff.mp resolved
    split at rest
    · cases rest
      exact ⟨rfl, rfl⟩
    · obtain ⟨rhsCol, _, rest⟩ := bind_eq_ok_iff.mp rest
      cases rest
      exact ⟨rfl, rfl⟩
  split at rest
  · cases rest
  · cases rest
    unfold checkRhs at right
    split at right
    · rename_i literal
      obtain ⟨w, raw, rest⟩ := bind_eq_ok_iff.mp right
      obtain ⟨_, bytes, _, rfl⟩ := Value.initRaw_ok raw
      cases rest
      simp [Condition.literal, ← same.1, ← same.2, literal]
    · rename_i isCol
      obtain ⟨rtab, _, rest⟩ := bind_eq_ok_iff.mp right
      obtain ⟨rhs, _, rest⟩ := bind_eq_ok_iff.mp rest
      cases rest
      rw [Condition.literal, Condition.literal, same.1, same.2]

theorem setClause_rhs {tab : TabMeta} {clause : Ast.SetClause} {out : SetClause}
    (run : setClause tab clause = .ok out) :
    ∃ len raw, (convertSvValue clause.val).encode len = .ok raw ∧
      out.rhs = { convertSvValue clause.val with raw := some raw } := by
  obtain ⟨col, _, rest⟩ := bind_eq_ok_iff.mp run
  split at rest
  · cases rest
  · obtain ⟨w, made, rest⟩ := bind_eq_ok_iff.mp rest
    obtain ⟨_, raw, encoded, rfl⟩ := Value.initRaw_ok made
    cases rest
    exact ⟨col.len, raw, encoded, rfl⟩

/-- What the scanner and the analysis make of a literal. -/
def ValueText.read (f : Numeral → Int) (v : ValueText) : Datum := (convertSvValue (v.lit f)).data

theorem checkClause_literals {tables : List String} {conds : List ConditionText} {out : List Condition}
    (run : checkClause db tables (getClause (conds.map (ConditionText.binaryExpr f))) = .ok out) :
    (out.filterMap Condition.literal).map (·.data) =
      (conds.filterMap ConditionText.literal).map (ValueText.read f) := by
  obtain ⟨cols, _, rest⟩ := bind_eq_ok_iff.mp run
  have same := congrArg (List.filterMap id) (map_mapM rest fun _ _ accepted => checkCond_literal accepted)
  rw [getClause, List.map_map, List.map_map, List.filterMap_map, List.filterMap_map] at same
  rw [List.map_filterMap, List.map_filterMap]
  refine same.trans (List.filterMap_congr fun cond _ => ?_)
  obtain ⟨lhs, op, rhs⟩ := cond
  cases rhs <;> rfl

theorem setClauses_literals {tab : TabMeta} {clauses : List SetClauseText} {out : List SetClause}
    (run : (clauses.map (SetClauseText.setClause f)).mapM (setClause tab) = .ok out) :
    (out.map (·.rhs)).map (·.data) = (clauses.map (·.val)).map (ValueText.read f) := by
  have same := map_mapM (g := fun clause => (convertSvValue clause.val).data) (h := fun clause => clause.rhs.data) run
    fun clause out done => by
      obtain ⟨len, raw, _, rhs⟩ := setClause_rhs done
      rw [rhs]
  rw [List.map_map] at same
  rw [List.map_map, List.map_map]
  exact same

theorem doAnalyze_literals {s : StatementText} {query : Query} (run : doAnalyze db (s.treeWith f) = .ok query) :
    query.literals.map (·.data) = s.literals.map (ValueText.read f) := by
  cases s with
  | createTable tabName fields =>
    cases run
    rfl
  | insertStmt tabName vals =>
    cases run
    simp [Query.literals, StatementText.literals, ValueText.read]
  | deleteStmt tabName conds =>
    obtain ⟨out, checked, rest⟩ := bind_eq_ok_iff.mp run
    cases rest
    exact checkClause_literals checked
  | updateStmt tabName clauses conds =>
    obtain ⟨tab, _, rest⟩ := bind_eq_ok_iff.mp run
    obtain ⟨sets, set, rest⟩ := bind_eq_ok_iff.mp rest
    obtain ⟨out, checked, rest⟩ := bind_eq_ok_iff.mp rest
    cases rest
    rw [Query.literals, StatementText.literals, List.nil_append, List.map_append, List.map_append,
      setClauses_literals set, checkClause_literals checked]
  | selectStmt cols tabs conds order =>
    obtain ⟨⟨⟩, _, rest⟩ := bind_eq_ok_iff.mp run
    obtain ⟨selected, _, rest⟩ := bind_eq_ok_iff.mp rest
    obtain ⟨out, checked, rest⟩ := bind_eq_ok_iff.mp rest
    cases rest
    exact checkClause_literals checked

theorem checkClause_raw {tables : List String} {conds out : List Condition}
    (run : checkClause db tables conds = .ok out) {v : Value} (member : v ∈ out.filterMap Condition.literal)
    {raw : RmRecord} (bytes : v.raw = some raw) :
    ∃ len, v.encode len = .ok raw := by
  obtain ⟨c, member, literal⟩ := List.mem_filterMap.mp member
  obtain ⟨tab, lhs, _, _, encoded, _⟩ := checkClause_typed run c member
  unfold Condition.literal at literal
  split at literal
  · rename_i isVal
    cases literal
    obtain ⟨_, raw', here, encoded, _⟩ := encoded isVal
    rw [bytes] at here
    cases here
    exact ⟨lhs.len, encoded⟩
  · cases literal

/-- The bytes of a literal of a resolved statement are those `init_raw` gave it. -/
theorem doAnalyze_raw {tree : Ast.TreeNode} {query : Query} (run : doAnalyze db tree = .ok query) {v : Value}
    (member : v ∈ query.literals) {raw : RmRecord} (bytes : v.raw = some raw) : ∃ len, v.encode len = .ok raw := by
  cases tree with
  | insertStmt tabName vals =>
    cases run
    simp only [Query.literals, List.map_nil, List.filterMap_nil, List.append_nil, List.mem_map] at member
    obtain ⟨lit, _, rfl⟩ := member
    cases lit <;> cases bytes
  | deleteStmt tabName conds =>
    obtain ⟨out, checked, rest⟩ := bind_eq_ok_iff.mp run
    cases rest
    exact checkClause_raw checked member bytes
  | updateStmt tabName clauses conds =>
    obtain ⟨tab, _, rest⟩ := bind_eq_ok_iff.mp run
    obtain ⟨sets, set, rest⟩ := bind_eq_ok_iff.mp rest
    obtain ⟨out, checked, rest⟩ := bind_eq_ok_iff.mp rest
    cases rest
    rcases List.mem_append.mp member with inSets | inConds
    · obtain ⟨clause, inside, rfl⟩ := List.mem_map.mp inSets
      obtain ⟨source, _, done⟩ := mem_mapM set inside
      obtain ⟨len, raw', encoded, rhs⟩ := setClause_rhs done
      rw [rhs] at bytes ⊢
      cases bytes
      exact ⟨len, encoded⟩
    · exact checkClause_raw checked inConds bytes
  | selectStmt cols tabs conds order =>
    obtain ⟨⟨⟩, _, rest⟩ := bind_eq_ok_iff.mp run
    obtain ⟨selected, _, rest⟩ := bind_eq_ok_iff.mp rest
    obtain ⟨out, checked, rest⟩ := bind_eq_ok_iff.mp rest
    cases rest
    exact checkClause_raw checked member bytes
  | _ =>
    cases run
    cases member

theorem encode_int {v : Value} {i len : Int} {raw : RmRecord} (data : v.data = .int i) (range : IsInt i)
    (encoded : v.encode len = .ok raw) : raw.length = 4 ∧ decodeInt (RmRecord.ptr raw) = i := by
  unfold Value.encode at encoded
  rw [data] at encoded
  simp only at encoded
  split at encoded
  · cases encoded
    exact ⟨rfl, (decodeInt_range i).trans (wrapInt_of_isInt range)⟩
  · cases encoded

end

namespace StatementText
variable {sm : SmManager} {s : StatementText}

theorem mem_numerals {n : Numeral} (member : .int n ∈ s.literals) : n ∈ s.numerals := by
  have cond : ∀ conds : List ConditionText, .int n ∈ conds.filterMap ConditionText.literal →
      n ∈ conds.flatMap fun cond => cond.rhs.numerals := by
    intro conds member
    obtain ⟨⟨lhs, op, rhs⟩, inside, literal⟩ := List.mem_filterMap.mp member
    refine List.mem_flatMap.mpr ⟨_, inside, ?_⟩
    cases rhs with
    | val v =>
      cases literal
      exact List.mem_singleton.mpr rfl
    | col c => cases literal
  cases s with
  | createTable tabName fields => cases member
  | insertStmt tabName vals => exact List.mem_flatMap.mpr ⟨_, member, List.mem_singleton.mpr rfl⟩
  | deleteStmt tabName conds => exact cond conds member
  | updateStmt tabName clauses conds =>
    refine List.mem_append.mpr ((List.mem_append.mp member).imp (fun inSets => ?_) (cond conds))
    obtain ⟨clause, inside, same⟩ := List.mem_map.mp inSets
    refine List.mem_flatMap.mpr ⟨clause, inside, ?_⟩
    rw [same]
    exact List.mem_singleton.mpr rfl
  | selectStmt cols tabs conds order => exact cond conds member

theorem read_exact (range : ∀ n ∈ s.numerals, IsInt n.value) :
    ∀ v ∈ s.literals, v.read (fun n => atoi n.text) = v.datum := by
  intro v member
  cases v with
  | int n => exact congrArg Datum.int (n.atoi_text_iff.mpr (range n (mem_numerals member)))
  | float bits => rfl
  | string val => rfl

theorem values_exact (range : ∀ n ∈ s.numerals, IsInt n.value) {query : Query}
    (run : doAnalyze sm.db s.tree = .ok query) : query.literals.map (·.data) = s.literals.map ValueText.datum := by
  rw [doAnalyze_literals run]
  exact List.map_congr_left (read_exact range)

theorem isInt_literal (range : ∀ n ∈ s.numerals, IsInt n.value) {query : Query}
    (run : doAnalyze sm.db s.tree = .ok query) {v : Value} (member : v ∈ query.literals) {i : Int}
    (data : v.data = .int i) : IsInt i := by
  have found : Datum.int i ∈ s.literals.map ValueText.datum := by
    rw [← values_exact range run, ← data]
    exact List.mem_map_of_mem member
  obtain ⟨text, inside, same⟩ := List.mem_map.mp found
  cases text with
  | int n =>
    cases same
    exact range n (mem_numerals inside)
  | float bits => cases same
  | string val => cases same

theorem stored_exact (range : ∀ n ∈ s.numerals, IsInt n.value) {query : Query}
    (run : doAnalyze sm.db s.tree = .ok query) {v : Value} (member : v ∈ query.literals) {i : Int}
    (data : v.data = .int i) : v.Stores i where
  now raw bytes := by
    obtain ⟨len, encoded⟩ := doAnalyze_raw run member bytes
    exact encode_int data (isInt_literal range run member data) encoded
  later len w made := by
    obtain ⟨_, raw, encoded, rfl⟩ := Value.initRaw_ok made
    exact ⟨raw, rfl, encode_int data (isInt_literal range run member data) encoded⟩

theorem insertExecutor_new {tabName : String} {values : List Value} {x : InsertExecutor}
    (made : InsertExecutor.new sm tabName values = .ok x) : x.values = values ∧ values.length = x.tab.cols.length := by
  obtain ⟨tab, _, rest⟩ := bind_eq_ok_iff.mp made
  split at rest
  · cases rest
  · rename_i count
    obtain ⟨fh, _, rest⟩ := bind_eq_ok_iff.mp rest
    cases rest
    exact ⟨rfl, not_not.mp count⟩

theorem printed_exact {tabName : String} {vals : List ValueText} {query : Query} {x : InsertExecutor} {r row : RmRecord}
    (range : ∀ n ∈ (insertStmt tabName vals).numerals, IsInt n.value)
    (run : doAnalyze sm.db (insertStmt tabName vals).tree = .ok query)
    (made : InsertExecutor.new sm tabName query.values = .ok x) (laid : Consecutive 0 x.tab.cols)
    (size : totalLen x.tab.cols ≤ r.length) (filled : InsertExecutor.setColumns x.tab.cols x.values r = .ok row) :
    ∀ p ∈ x.tab.cols.zip vals, ∀ n, p.2 = .int n → QlManager.Prints row p.1 n.value := by
  rintro ⟨col, v⟩ member n rfl
  cases run
  obtain ⟨same, count⟩ := insertExecutor_new made
  have unused : ∀ v ∈ x.values, v.raw = none := by
    rw [same]
    intro v member
    obtain ⟨lit, _, rfl⟩ := List.mem_map.mp member
    cases lit <;> rfl
  have storable : ∀ p ∈ x.tab.cols.zip x.values, p.2.Storable p.1 := by
    by_contra refused
    obtain ⟨_, _, _, error⟩ := InsertExecutor.setColumns_refused (r := r) laid le_rfl (same ▸ count) unused (by omega)
      refused
    rw [filled] at error
    cases error
  obtain ⟨q, run, _, _, stored⟩ := InsertExecutor.setColumns_storable (r := r) laid le_rfl (same ▸ count) unused
    (by omega) storable
  rw [filled] at run
  cases run
  have here : (col, convertSvValue (.int (atoi n.text))) ∈ x.tab.cols.zip x.values := by
    rw [same, List.map_map, List.zip_map_right]
    exact List.mem_map.mpr ⟨_, member, rfl⟩
  have isInt : IsInt n.value := range n (mem_numerals (List.of_mem_zip member).2)
  have value : atoi n.text = n.value := n.atoi_text_iff.mpr isInt
  rw [value] at here
  obtain ⟨raw, encoded, bytes⟩ := stored _ here
  exact ⟨n.value, QlManager.readColumn_encoded (storable _ here) encoded bytes isInt, intToString_numeral n.value⟩

/-- When integer literals keep their value: exactly if each is a value of an `int`, or the statement is refused for
another reason. -/
theorem literals_exact_iff (rejected : Ast.TreeNode → Prop) (sm : SmManager) (s : StatementText) :
    (rejected s.tree ∨ s.Exact sm) ↔ (rejected s.tree ∨ ∀ n ∈ s.numerals, IsInt n.value) := by
  refine or_congr_right ⟨fun exact => s.tree_exact_iff.mp exact.tree, fun range => ?_⟩
  exact {
    tree := s.tree_exact_iff.mpr range
    values := fun query run => values_exact range run
    stored := fun query run v member i data => stored_exact range run member data
    printed := by
      rintro tabName vals query x r row rfl run made laid size filled
      exact printed_exact range run made laid size filled }

/-- `4294967297`, one more than the number of values of an `int`. -/
def wide : Numeral := ⟨.none, [4, 2, 9, 4, 9, 6, 7, 2, 9, 7], by simp⟩

def insertWide : StatementText := .insertStmt "t" [.int wide]

def numberTab : TabMeta := ⟨"t", [⟨"t", "a", .int, 4, 0, false⟩], []⟩

theorem insertWide_tree : insertWide.tree = .insertStmt "t" [.int 1] := by
  decide +kernel

/-- The row that is inserted holds and prints 1. -/
theorem insert_wide : ∃ (sm : SmManager) (s t : RmFile FlatFile) (query : Query) (x : InsertExecutor) (rid : Rid)
    (r : RmRecord), (Flex.tokens Lexer.scanner .initial (Lexer.bytes "insert into t values (4294967297);")).1 =
      [.keyword .insert, .keyword .into, .identifier (Lexer.bytes "t"), .keyword .values, .op 40, .valueInt wide.text,
        .op 41, .op 59] ∧ wide.value = 4294967297 ∧ sm.fhs "t" = some s ∧
      doAnalyze sm.db insertWide.tree = .ok query ∧ InsertExecutor.new sm "t" query.values = .ok x ∧
      x.next (fun _ => false) (fun _ => 0) s = .ok rid t ∧ t.records rid = some r ∧
      QlManager.readColumn r ⟨"t", "a", .int, 4, 0, false⟩ = .ok (.int 1) ∧ intToString 1 = Lexer.bytes "1" ∧
      ¬insertWide.Exact sm := by
  have created := RecordRun.created (show RmManager.created 4 3 (FlatFile.blank 0) = _ from rfl)
  have storable : ∀ p ∈ numberTab.cols.zip [(⟨.int 1, none⟩ : Value)], p.2.Storable p.1 := by
    simp [numberTab, Value.Storable, Value.type]
  have outcome := @InsertExecutor.next_storable ⟨numberTab, [⟨.int 1, none⟩], "t"⟩ _ (fun _ => false)
    created.holds.1 (by simp [numberTab, Consecutive]) rfl (fun index member => by cases member) rfl (by simp) storable
    (fun _ => 0)
  rcases outcome with ⟨full, _⟩ | ⟨rid, t, r, run, _, records, read⟩
  · exact absurd (Or.inl (by decide)) full
  · refine ⟨⟨⟨"db", [("t", numberTab)]⟩, fun _ => some _⟩, _, t, ⟨[], [], [], [], [⟨.int 1, none⟩]⟩, _, rid, r,
      by decide +kernel, by decide +kernel, rfl, by rw [insertWide_tree]; rfl, rfl, run, ?_, ?_, by decide +kernel, ?_⟩
    · rw [records, Function.update_self]
    · exact read (⟨"t", "a", .int, 4, 0, false⟩, ⟨.int 1, none⟩) (by simp [numberTab]) (show IsInt 1 by decide)
    · intro exact
      have other : (Ast.TreeNode.insertStmt "t" [.int 1]) = .insertStmt "t" [.int 4294967297] := by
        rw [← insertWide_tree, exact.tree]
        decide +kernel
      exact absurd other (by decide)

end StatementText

end Rmdb
