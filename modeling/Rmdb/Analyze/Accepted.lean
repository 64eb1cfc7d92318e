import Rmdb.Analyze.Names

namespace Rmdb

theorem Value.encode_length {v : Value} {len : Int} {raw : RmRecord} (nonneg : 0 ≤ len) (run : v.encode len = .ok raw) :
    (raw.length : Int) = len := by
  unfold Value.encode at run
  split at run
  · split at run
    · rename_i four
      cases run
      rw [four]
      rfl
    · cases run
  · split at run
    · rename_i four
      cases run
      rw [four]
      rfl
    · cases run
  · split at run
    · cases run
    · cases run
      rw [List.length_append, List.length_replicate]
      omega

/-- `init_raw` of a value that has no bytes yet. -/
theorem Value.initRaw_ok {v w : Value} {len : Int} (run : v.initRaw len = .ok w) :
    0 ≤ len ∧ ∃ raw, v.encode len = .ok raw ∧ w = { v with raw := some raw } := by
  unfold Value.initRaw at run
  split at run
  · cases run
  · split at run
    · cases run
    · rename_i nonneg
      cases encoded : v.encode len with
      | error e =>
        rw [encoded] at run
        cases run
      | ok raw =>
        rw [encoded] at run
        cases run
        exact ⟨by omega, raw, rfl, rfl⟩

theorem Value.initRaw_of_encode {v : Value} {len : Int} {raw : RmRecord} (nonneg : 0 ≤ len)
    (encoded : v.encode len = .ok raw) :
    { v with raw := none }.initRaw len = .ok { v with raw := some raw } := by
  have same : ({ v with raw := none } : Value).encode len = .ok raw := encoded
  rw [Value.initRaw, if_neg (by omega), same]
  rfl

namespace Analyze
variable {db : DbMeta} {allCols : List ColMeta}

/-- A condition with its columns found, of one type, and its literal encoded to the
length of the left column. -/
def Typed (db : DbMeta) (c : Condition) : Prop :=
  ∃ tab lhs, db.getTable c.lhsCol.tabName = .ok tab ∧ tab.getCol c.lhsCol.colName = .ok lhs ∧
    (c.isRhsVal = true → 0 ≤ lhs.len ∧ ∃ raw, c.rhsVal.raw = some raw ∧ c.rhsVal.encode lhs.len = .ok raw ∧
      c.rhsVal.type = lhs.type) ∧
    (c.isRhsVal = false → ∃ rtab rhs, db.getTable c.rhsCol.tabName = .ok rtab ∧ rtab.getCol c.rhsCol.colName = .ok rhs ∧
      rhs.type = lhs.type)

theorem checkCond_typed {c c' : Condition} (accepted : checkCond db allCols c = .ok c') : Typed db c' := by
  obtain ⟨r, _, rest⟩ := bind_eq_ok_iff.mp accepted
  obtain ⟨tab, table, rest⟩ := bind_eq_ok_iff.mp rest
  obtain ⟨lhs, col, rest⟩ := bind_eq_ok_iff.mp rest
  obtain ⟨⟨d, rhsType⟩, right, rest⟩ := bind_eq_ok_iff.mp rest
  simp only at rest
  split at rest
  · cases rest
  · rename_i sameType
    cases rest
    have sameType : rhsType = lhs.type := by
      by_contra different
      exact sameType fun same => different same.symm
    unfold checkRhs at right
    split at right
    · rename_i literal
      obtain ⟨w, raw, rest⟩ := bind_eq_ok_iff.mp right
      obtain ⟨nonneg, bytes, encoded, rfl⟩ := Value.initRaw_ok raw
      cases rest
      refine ⟨tab, lhs, table, col, fun _ => ⟨nonneg, bytes, rfl, encoded, sameType⟩, fun isCol => ?_⟩
      rw [show r.isRhsVal = false from isCol] at literal
      cases literal
    · rename_i isCol
      obtain ⟨rtab, rtable, rest⟩ := bind_eq_ok_iff.mp right
      obtain ⟨rhs, rcol, rest⟩ := bind_eq_ok_iff.mp rest
      cases rest
      exact ⟨tab, lhs, table, col, fun literal => absurd literal isCol, fun _ => ⟨rtab, rhs, rtable, rcol, sameType⟩⟩

theorem mem_mapM {ε α β : Type} {f : α → Except ε β} {l : List α} {m : List β} (run : l.mapM f = .ok m) {b : β}
    (member : b ∈ m) : ∃ a ∈ l, f a = .ok b := exists_of_forall₂ (mapM_ok run) member

theorem checkClause_typed {tables : List String} {conds out : List Condition}
    (run : checkClause db tables conds = .ok out) :
    ∀ c ∈ out, Typed db c := by
  intro c member
  obtain ⟨cols, _, rest⟩ := bind_eq_ok_iff.mp run
  obtain ⟨_, _, accepted⟩ := mem_mapM rest member
  exact checkCond_typed accepted

/-- A clause of SET with a value that fits its column. -/
def Settable (tab : TabMeta) (clause : SetClause) : Prop :=
  ∃ col raw, tab.getCol clause.lhs.colName = .ok col ∧ col.type = clause.rhs.type ∧ 0 ≤ col.len ∧
    clause.rhs.encode col.len = .ok raw

theorem setClause_settable {tab : TabMeta} {clause : Ast.SetClause} {out : SetClause}
    (run : setClause tab clause = .ok out) :
    Settable tab out := by
  obtain ⟨col, found, rest⟩ := bind_eq_ok_iff.mp run
  split at rest
  · cases rest
  · rename_i sameType
    obtain ⟨w, raw, rest⟩ := bind_eq_ok_iff.mp rest
    obtain ⟨nonneg, bytes, encoded, rfl⟩ := Value.initRaw_ok raw
    cases rest
    exact ⟨col, bytes, found, not_not.mp sameType, nonneg, encoded⟩

end Analyze

end Rmdb
