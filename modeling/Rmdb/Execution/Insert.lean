import Rmdb.Execution.Inside
import Rmdb.Execution.Update
import Rmdb.Record.RecordMap

namespace Rmdb

/-- What `select_from` takes out of a tuple for a column, before it is printed. -/
def QlManager.readColumn (r : RmRecord) (col : ColMeta) : Except Error Datum :=
  match col.type with
  | .int => (r.bytesAt col.offset 4).map fun bytes => .int (decodeInt (RmRecord.ptr bytes))
  | .float => (r.bytesAt col.offset 4).map fun bytes => .float (UInt32.ofInt (decodeInt (RmRecord.ptr bytes)))
  | .string => (r.bytesAt col.offset col.len).map fun bytes => .str (bytes.takeWhile (· ≠ 0))

/-- `insert_entry` is not written yet. -/
def IxIndexHandle.insertEntry (_key : RmRecord) (_value : Rid) : Int := -1

structure InsertExecutor where
  tab : TabMeta
  values : List Value
  tabName : String

namespace InsertExecutor
open RmFileHandle

def new (sm : SmManager) (tabName : String) (values : List Value) : Except Error InsertExecutor := do
  let tab ← sm.db.getTable tabName
  if values.length ≠ tab.cols.length then throw .invalidValueCount
  let _ ← Portal.fileOf sm tabName
  return ⟨tab, values, tabName⟩

/-- One turn of the loop over the values. -/
def setColumn (r : RmRecord) (col : ColMeta) (val : Value) : Except Error RmRecord := do
  if col.type ≠ val.type then throw (.incompatibleType (coltype2str col.type) (coltype2str val.type))
  let val ← val.initRaw col.len
  match val.raw with
  | none => throw .undefined
  | some raw => r.write col.offset raw

def setColumns : List ColMeta → List Value → RmRecord → Except Error RmRecord
  | _, [], r => .ok r
  | [], _ :: _, _ => .error .undefined
  | col :: cols, val :: values, r => do
    let r ← setColumn r col val
    setColumns cols values r

/-- The loop that copies `num` columns of an index into its key. -/
def copyKey (r : RmRecord) : Nat → List ColMeta → Int → RmRecord → Except Error RmRecord
  | 0, _, _, key => .ok key
  | _ + 1, [], _, _ => .error .undefined
  | num + 1, col :: cols, offset, key => do
    let bytes ← r.bytesAt col.offset col.len
    let key ← key.write offset bytes
    copyKey r num cols (offset + col.len) key

/-- The entry for one index. `ihs` says which indexes are open, `junk` is what `new char[]` holds. -/
def insertIndex (ihs : String → Bool) (junk : Nat → UInt8) (tabName : String) (r : RmRecord) (rid : Rid)
    (index : IndexMeta) :
    Except Error Int := do
  if !ihs (IxManager.getIndexName tabName index.cols) then throw .outOfRange
  if index.colTotLen < 0 then throw .badArrayLength
  let key ← copyKey r (sizeT index.colNum) index.cols 0 ((List.range index.colTotLen.toNat).map junk)
  return IxIndexHandle.insertEntry key rid

section
variable {σ φ : Type} [PageStore σ φ]

def next (x : InsertExecutor) (ihs : String → Bool) (junk : Nat → UInt8) : RmM σ Rid := do
  let s ← get
  if s.hdr.recordSize < 0 then throw .badArrayLength
  let r ← checked (setColumns x.tab.cols x.values ((List.range s.hdr.recordSize.toNat).map junk))
  let rid ← insertRecord r.ptr
  let _ ← checked (x.tab.indexes.mapM (insertIndex ihs junk x.tabName r rid))
  return rid

end

end InsertExecutor

namespace Value

/-- The column can hold the value. -/
def Storable (v : Value) (col : ColMeta) : Prop :=
  v.type = col.type ∧
    match v.data with
    | .int _ => col.len = 4
    | .float _ => col.len = 4
    | .str s => s.length ≤ col.len

/-- Why it is refused: the type, a string that is too long, or a number column that is not of four bytes. -/
def refusal (v : Value) (col : ColMeta) : Error :=
  if v.type ≠ col.type then .incompatibleType (coltype2str col.type) (coltype2str v.type)
  else if v.type = .string then .stringOverflow
  else .assertion

/-- An `int`, a float, or a string without NUL. -/
def Plain (v : Value) : Prop :=
  match v.data with
  | .int i => IsInt i
  | .float _ => True
  | .str s => 0 ∉ s

theorem encode_ok_iff {v : Value} {col : ColMeta} (sameType : v.type = col.type) :
    (∃ raw, v.encode col.len = .ok raw) ↔ v.Storable col := by
  unfold Storable encode
  cases v.data with
  | int i =>
    by_cases four : col.len = 4
    · simp [four, sameType]
    · simp [four]
  | float bits =>
    by_cases four : col.len = 4
    · simp [four, sameType]
    · simp [four]
  | str s =>
    by_cases long : col.len < s.length
    · simp [long]
    · simp only [if_neg long, sameType, true_and]
      exact ⟨fun _ => by omega, fun _ => ⟨_, rfl⟩⟩

theorem encode_refused {v : Value} {col : ColMeta} (sameType : v.type = col.type) (refused : ¬v.Storable col) :
    v.encode col.len = .error (v.refusal col) := by
  rw [refusal, if_neg (not_not.mpr sameType)]
  cases kind : v.data with
  | int i =>
    have other : col.len ≠ 4 := by simpa [Storable, kind, sameType] using refused
    simp [encode, type, kind, other]
  | float bits =>
    have other : col.len ≠ 4 := by simpa [Storable, kind, sameType] using refused
    simp [encode, type, kind, other]
  | str s =>
    have long : col.len < s.length := by simpa [Storable, kind, sameType] using refused
    simp [encode, type, kind, long]

end Value

section
variable {r : RmRecord} {col : ColMeta} {v : Value} {raw : RmRecord} {offset : Int}

theorem ptr_range (f : Nat → UInt8) {n k : Nat} (small : k < n) : RmRecord.ptr ((List.range n).map f) k = f k := by
  simp [RmRecord.ptr, small]

theorem decodeInt_range (i : Int) : decodeInt (RmRecord.ptr ((List.range 4).map (encodeInt i))) = wrapInt i := by
  rw [← decodeInt_encodeInt]
  exact decodeInt_congr fun k small => ptr_range _ small

theorem ofInt_wrapInt (bits : UInt32) : UInt32.ofInt (wrapInt bits.toNat) = bits := by
  have small := bits.toNat_lt
  have same : wrapInt bits.toNat % 4294967296 = bits.toNat := by
    unfold wrapInt
    omega
  change UInt32.ofNat (wrapInt bits.toNat % 4294967296).toNat = bits
  rw [same, Int.toNat_natCast, UInt32.ofNat_toNat]

theorem takeWhile_padded {s : List UInt8} (plain : 0 ∉ s) (n : Nat) :
    (s ++ List.replicate n 0).takeWhile (· ≠ 0) = s := by
  have all : ∀ b ∈ s, decide (b ≠ 0) = true := by
    intro b member
    rw [decide_eq_true_eq]
    intro zero
    exact plain (zero ▸ member)
  rw [List.takeWhile_append_of_pos all]
  cases n with
  | zero => simp
  | succ n => simp [List.replicate_succ]

theorem RmRecord.write_ok (r raw : RmRecord) (lower : 0 ≤ offset) (fits : offset + raw.length ≤ r.length) :
    ∃ q, r.write offset raw = .ok q ∧ q.length = r.length ∧
        q.take (offset.toNat + raw.length) = r.take offset.toNat ++ raw := by
  have front : (r.take offset.toNat ++ raw).length = offset.toNat + raw.length := by
    simp only [List.length_append, List.length_take]
    omega
  refine ⟨_, if_pos ⟨lower, fits⟩, ?_, ?_⟩
  · rw [List.length_append, front, List.length_drop]
    omega
  · rw [← front, List.take_left]

/-- `select_from` reads back what `init_raw` encoded. -/
theorem QlManager.readColumn_encoded (storable : v.Storable col) (encoded : v.encode col.len = .ok raw)
    (stored : r.bytesAt col.offset col.len = .ok raw) (plain : v.Plain) : readColumn r col = .ok v.data := by
  obtain ⟨sameType, size⟩ := storable
  unfold readColumn
  rw [← sameType]
  unfold Value.type
  unfold Value.encode at encoded
  unfold Value.Plain at plain
  cases kind : v.data with
  | int i =>
    simp only [kind] at size plain encoded ⊢
    rw [size] at stored
    rw [if_pos size] at encoded
    cases encoded
    rw [stored, Except.map, decodeInt_range, wrapInt_of_isInt plain]
  | float bits =>
    simp only [kind] at size encoded ⊢
    rw [size] at stored
    rw [if_pos size] at encoded
    cases encoded
    rw [stored, Except.map, decodeInt_range, ofInt_wrapInt]
  | str s =>
    simp only [kind] at plain encoded ⊢
    split at encoded
    · cases encoded
    · cases encoded
      rw [stored, Except.map, takeWhile_padded plain]

end

namespace InsertExecutor
open RmFileHandle
variable {r : RmRecord} {col : ColMeta} {cols : List ColMeta} {v : Value} {values : List Value} {offset : Int}

theorem setColumn_storable (storable : v.Storable col) (unused : v.raw = none)
    (fits : Fits col.offset col.len r.length) :
    ∃ raw q, v.encode col.len = .ok raw ∧ (raw.length : Int) = col.len ∧ setColumn r col v = .ok q ∧
      q.length = r.length ∧
      q.take (col.offset.toNat + raw.length) = r.take col.offset.toNat ++ raw := by
  obtain ⟨raw, encoded⟩ := (Value.encode_ok_iff storable.1).mpr storable
  obtain ⟨lower, nonneg, upper⟩ := fits
  have length := Value.encode_length nonneg encoded
  obtain ⟨q, run, same, front⟩ := RmRecord.write_ok r raw lower (by omega)
  refine ⟨raw, q, encoded, length, ?_, same, front⟩
  have made : v.initRaw col.len = .ok { v with raw := some raw } := by
    rw [Value.initRaw, unused, if_neg (by omega), encoded]
    rfl
  rw [setColumn, if_neg (not_not.mpr storable.1.symm)]
  change (v.initRaw col.len >>= _) = _
  rw [made]
  exact run

theorem setColumn_refused (refused : ¬v.Storable col) (unused : v.raw = none) (nonneg : 0 ≤ col.len) :
    setColumn r col v = .error (v.refusal col) := by
  unfold setColumn
  by_cases sameType : col.type = v.type
  · rw [if_neg (not_not.mpr sameType)]
    change (v.initRaw col.len >>= _) = _
    rw [Value.initRaw, unused, if_neg (by omega), Value.encode_refused sameType.symm refused]
    rfl
  · rw [if_pos sameType, Value.refusal, if_pos (Ne.symm sameType)]
    rfl

theorem totalLen_nonneg (nonneg : ∀ col ∈ cols, 0 ≤ col.len) : 0 ≤ totalLen cols := by
  induction cols with
  | nil => exact le_rfl
  | cons col cols ih =>
    obtain ⟨here, nonneg⟩ := List.forall_mem_cons.mp nonneg
    exact Int.add_nonneg here (ih nonneg)

theorem len_nonneg (laid : Consecutive offset cols) : ∀ col ∈ cols, 0 ≤ col.len := by
  induction cols generalizing offset with
  | nil => exact fun col member => by cases member
  | cons col cols ih => exact List.forall_mem_cons.mpr ⟨le_of_lt laid.2.1, ih laid.2.2⟩

/-- A column lies between the first offset and the end of the layout. -/
theorem fits_of_mem (laid : Consecutive offset cols) (nonneg : 0 ≤ offset) (member : col ∈ cols) :
    offset ≤ col.offset ∧ Fits col.offset col.len (offset + totalLen cols) := by
  induction cols generalizing offset with
  | nil => cases member
  | cons first cols ih =>
    obtain ⟨start, positive, later⟩ := laid
    have rest := totalLen_nonneg (len_nonneg later)
    simp only [totalLen, List.map_cons, List.sum_cons] at rest ⊢
    rcases List.mem_cons.mp member with rfl | member
    · exact ⟨by omega, by omega, by omega, by omega⟩
    · obtain ⟨above, lower, len, upper⟩ := ih later (by omega) member
      simp only [totalLen] at upper
      exact ⟨by omega, lower, len, by omega⟩

/-- The loop over the values: each column holds its value, and what is in front of them stays. -/
theorem setColumns_storable (laid : Consecutive offset cols) (nonneg : 0 ≤ offset) (count : values.length = cols.length)
    (unused : ∀ v ∈ values, v.raw = none) (fits : offset + totalLen cols ≤ r.length)
    (storable : ∀ p ∈ cols.zip values, p.2.Storable p.1) :
    ∃ q, setColumns cols values r = .ok q ∧ q.length = r.length ∧ q.take offset.toNat = r.take offset.toNat ∧
      ∀ p ∈ cols.zip values, ∃ raw, p.2.encode p.1.len = .ok raw ∧ q.bytesAt p.1.offset p.1.len = .ok raw := by
  induction cols generalizing offset values r with
  | nil =>
    cases values with
    | nil => exact ⟨r, rfl, rfl, rfl, fun p member => by cases member⟩
    | cons v values => cases count
  | cons col cols ih =>
    cases values with
    | nil => cases count
    | cons v values =>
      obtain ⟨start, positive, laid⟩ := laid
      obtain ⟨here, storable⟩ := List.forall_mem_cons.mp storable
      obtain ⟨free, unused⟩ := List.forall_mem_cons.mp unused
      have rest := totalLen_nonneg (len_nonneg laid)
      simp only [totalLen, List.map_cons, List.sum_cons] at fits rest here
      obtain ⟨raw, w, encoded, length, first, width, written⟩ :=
        setColumn_storable (r := r) here free ⟨by omega, by omega, by omega⟩
      obtain ⟨q, run, same, front, stored⟩ := ih laid (by omega) (by simpa using count) unused
        (by rw [width]; simp only [totalLen]; omega) storable
      -- the bytes up to the end of this column, which the later columns do not touch
      have upTo : q.take (offset.toNat + raw.length) = r.take offset.toNat ++ raw := by
        rw [start] at written
        rw [← written, show offset.toNat + raw.length = (offset + col.len).toNat by omega]
        exact front
      have before : (r.take offset.toNat).length = offset.toNat := by
        rw [List.length_take]
        omega
      refine ⟨q, ?_, same.trans width, ?_, ?_⟩
      · rw [setColumns, first, ok_bind]
        exact run
      · have shorter := congrArg (List.take offset.toNat) upTo
        rw [List.take_take, Nat.min_eq_left (by omega)] at shorter
        exact shorter.trans (List.take_left' before)
      · refine List.forall_mem_cons.mpr ⟨⟨raw, encoded, ?_⟩, stored⟩
        refine bytesAt_ok_iff.mpr ⟨⟨?_, ?_, ?_⟩, ?_⟩
        · exact (by omega : 0 ≤ col.offset)
        · exact (by omega : 0 ≤ col.len)
        · exact (by omega : col.offset + col.len ≤ q.length)
        · have cut := congrArg (List.drop offset.toNat) upTo
          rw [List.drop_take, Nat.add_sub_cancel_left] at cut
          change raw = (q.drop col.offset.toNat).take col.len.toNat
          rw [start, show col.len.toNat = raw.length by omega, cut]
          exact (List.drop_left' before).symm

/-- A value that does not fit ends the loop, whatever was copied before. -/
theorem setColumns_refused (laid : Consecutive offset cols) (nonneg : 0 ≤ offset) (count : values.length = cols.length)
    (unused : ∀ v ∈ values, v.raw = none) (fits : offset + totalLen cols ≤ r.length)
    (refused : ¬∀ p ∈ cols.zip values, p.2.Storable p.1) :
    ∃ p ∈ cols.zip values, ¬p.2.Storable p.1 ∧ setColumns cols values r = .error (p.2.refusal p.1) := by
  induction cols generalizing offset values r with
  | nil =>
    cases values with
    | nil => exact absurd (fun p member => by cases member) refused
    | cons v values => cases count
  | cons col cols ih =>
    cases values with
    | nil => cases count
    | cons v values =>
      obtain ⟨start, positive, laid⟩ := laid
      obtain ⟨free, unused⟩ := List.forall_mem_cons.mp unused
      by_cases here : v.Storable col
      · have rest := totalLen_nonneg (len_nonneg laid)
        simp only [totalLen, List.map_cons, List.sum_cons] at fits rest
        obtain ⟨_, w, _, _, first, width, _⟩ := setColumn_storable (r := r) here free ⟨by omega, by omega, by omega⟩
        obtain ⟨p, member, unfit, run⟩ := ih (r := w) laid (by omega) (by simpa using count) unused
          (by rw [width]; simp only [totalLen]; omega) (fun all => refused (List.forall_mem_cons.mpr ⟨here, all⟩))
        refine ⟨p, List.mem_cons_of_mem _ member, unfit, ?_⟩
        rw [setColumns, first, ok_bind]
        exact run
      · refine ⟨(col, v), List.mem_cons_self, here, ?_⟩
        rw [setColumns, setColumn_refused here free (by omega)]
        rfl

/-- What `open_db` leaves for an index: it is open, and its key is made of columns of the table. -/
structure IndexReady (ihs : String → Bool) (tabName : String) (tab : TabMeta) (index : IndexMeta) : Prop where
  isOpen : ihs (IxManager.getIndexName tabName index.cols) = true
  count : index.colNum = index.cols.length
  isInt : IsInt index.colNum
  length : index.colTotLen = totalLen index.cols
  columns : ∀ col ∈ index.cols, col ∈ tab.cols

theorem copyKey_ok (key : RmRecord) (inside : ∀ col ∈ cols, Fits col.offset col.len r.length) (nonneg : 0 ≤ offset)
    (fits : offset + totalLen cols ≤ key.length) : ∃ q, copyKey r cols.length cols offset key = .ok q := by
  induction cols generalizing offset key with
  | nil => exact ⟨key, rfl⟩
  | cons col cols ih =>
    obtain ⟨here, inside⟩ := List.forall_mem_cons.mp inside
    have rest := totalLen_nonneg fun col member => (inside col member).2.1
    simp only [totalLen, List.map_cons, List.sum_cons] at fits rest
    have width : ((r.drop col.offset.toNat).take col.len.toNat).length = col.len.toNat := by
      obtain ⟨lower, _, upper⟩ := here
      rw [List.length_take, List.length_drop]
      omega
    have positive := here.2.1
    obtain ⟨w, written, same, _⟩ := RmRecord.write_ok key ((r.drop col.offset.toNat).take col.len.toNat) nonneg
      (by rw [width]; omega)
    obtain ⟨q, run⟩ := @ih (offset + col.len) w inside (by omega) (by rw [same]; simp only [totalLen]; omega)
    refine ⟨q, ?_⟩
    rw [List.length_cons, copyKey, bytesAt_ok_iff.mpr ⟨here, rfl⟩, ok_bind, written, ok_bind]
    exact run

theorem insertIndex_ok {ihs : String → Bool} {junk : Nat → UInt8} {tabName : String} {tab : TabMeta} {rid : Rid}
    {index : IndexMeta}
    (laid : Consecutive 0 tab.cols) (size : (r.length : Int) = totalLen tab.cols)
    (ready : IndexReady ihs tabName tab index) :
    insertIndex ihs junk tabName r rid index = .ok (-1) := by
  have inside : ∀ col ∈ index.cols, Fits col.offset col.len r.length := by
    intro col member
    have fits := (fits_of_mem laid le_rfl (ready.columns col member)).2
    rwa [Int.zero_add, ← size] at fits
  have nonneg := totalLen_nonneg fun col member => (inside col member).2.1
  obtain ⟨key, run⟩ := copyKey_ok ((List.range index.colTotLen.toNat).map junk) inside le_rfl
    (by rw [List.length_map, List.length_range, ready.length]; omega)
  have count : sizeT index.colNum = index.cols.length := by
    have range := ready.isInt
    rw [ready.count] at range ⊢
    unfold IsInt intMin intMax at range
    unfold sizeT
    omega
  have total : ¬index.colTotLen < 0 := by
    rw [ready.length]
    omega
  rw [insertIndex, ready.isOpen, count, if_neg (by simp), if_neg total]
  change (copyKey _ _ _ _ _ >>= _) = _
  rw [run]
  rfl

section
variable {x : InsertExecutor} {s : RmFile FlatFile} {ihs : String → Bool}

theorem indexes_ok {indexes : List IndexMeta} {tabName : String} (junk : Nat → UInt8) (rid : Rid)
    (done : ∀ index ∈ indexes, insertIndex ihs junk tabName r rid index = .ok (-1)) :
    ∃ replies, indexes.mapM (insertIndex ihs junk tabName r rid) = .ok replies := by
  induction indexes with
  | nil => exact ⟨[], rfl⟩
  | cons index indexes ih =>
    obtain ⟨here, done⟩ := List.forall_mem_cons.mp done
    obtain ⟨replies, run⟩ := ih done
    refine ⟨-1 :: replies, ?_⟩
    rw [List.mapM_cons, here, ok_bind, run]
    rfl

theorem buffer_length (laid : Consecutive 0 x.tab.cols) (size : s.hdr.recordSize = totalLen x.tab.cols)
    (junk : Nat → UInt8) :
    ¬s.hdr.recordSize < 0 ∧ (((List.range s.hdr.recordSize.toNat).map junk).length : Int) = totalLen x.tab.cols := by
  have nonneg := totalLen_nonneg (len_nonneg laid)
  rw [List.length_map, List.length_range, size]
  omega

theorem next_storable (inv : s.FileInv) (laid : Consecutive 0 x.tab.cols)
    (size : s.hdr.recordSize = totalLen x.tab.cols)
    (ready : ∀ index ∈ x.tab.indexes, IndexReady ihs x.tabName x.tab index)
    (count : x.values.length = x.tab.cols.length) (unused : ∀ v ∈ x.values, v.raw = none)
    (storable : ∀ p ∈ x.tab.cols.zip x.values, p.2.Storable p.1) (junk : Nat → UInt8) :
    (¬s.HasSpace ∧ ∃ t, x.next ihs junk s = .error .undefined t) ∨
      ∃ rid t r, x.next ihs junk s = .ok rid t ∧ s.records rid = none ∧
        t.records = Function.update s.records rid (some r) ∧
        ∀ p ∈ x.tab.cols.zip x.values, p.2.Plain → QlManager.readColumn r p.1 = .ok p.2.data := by
  obtain ⟨nonneg, length⟩ := buffer_length laid size junk
  obtain ⟨r, filled, same, _, stored⟩ := setColumns_storable
    (r := (List.range s.hdr.recordSize.toNat).map junk) laid le_rfl
    count unused (by omega) storable
  by_cases room : s.HasSpace
  · obtain ⟨rid, t, inserted, _, _, fresh, records, _⟩ := inv.insertRecord room r.ptr
    rw [RmFile.recordOf_ptr (by rw [same, List.length_map, List.length_range])] at records
    refine Or.inr ⟨rid, t, r, ?_, fresh, records, ?_⟩
    · obtain ⟨replies, indexed⟩ := indexes_ok junk rid fun index member =>
        insertIndex_ok laid (by rw [same, length]) (ready index member)
      rw [next, get_bind, if_neg nonneg, filled]
      refine (bind_ok inserted).trans ?_
      rw [indexed]
      rfl
    · intro p member plain
      obtain ⟨raw, encoded, here⟩ := stored p member
      exact QlManager.readColumn_encoded (storable p member) encoded here plain
  · obtain ⟨t, overflow⟩ := RmFile.insertRecord_overflow room r.ptr
    refine Or.inl ⟨room, t, ?_⟩
    rw [next, get_bind, if_neg nonneg, filled]
    exact (bind_error overflow).trans rfl

theorem next_refused (laid : Consecutive 0 x.tab.cols) (size : s.hdr.recordSize = totalLen x.tab.cols)
    (count : x.values.length = x.tab.cols.length) (unused : ∀ v ∈ x.values, v.raw = none)
    (refused : ¬∀ p ∈ x.tab.cols.zip x.values, p.2.Storable p.1) (junk : Nat → UInt8) :
    ∃ p ∈ x.tab.cols.zip x.values, ¬p.2.Storable p.1 ∧ x.next ihs junk s = .error (p.2.refusal p.1) s := by
  obtain ⟨nonneg, length⟩ := buffer_length laid size junk
  obtain ⟨p, member, unfit, run⟩ := setColumns_refused (r := (List.range s.hdr.recordSize.toNat).map junk) laid le_rfl
    count unused (by omega) refused
  refine ⟨p, member, unfit, ?_⟩
  rw [next, get_bind, if_neg nonneg, run]
  rfl

/-- INSERT on a table whose file was reached by any run: a wrong number of values is refused, a value that its column
cannot hold ends the call with the file as it was, and otherwise one record more is live, from which every column
is read back. Only when all page numbers are in use does a new page overflow `num_pages`. -/
theorem insert_outcomes {m : RecordMap} {sm : SmManager} {tabName : String} {tab : TabMeta} (run : RecordRun s m)
    (table : sm.db.getTable tabName = .ok tab) (file : sm.fhs tabName = some s) (laid : Consecutive 0 tab.cols)
    (size : s.hdr.recordSize = totalLen tab.cols) (ready : ∀ index ∈ tab.indexes, IndexReady ihs tabName tab index)
    (unused : ∀ v ∈ values, v.raw = none) (junk : Nat → UInt8) :
    (values.length ≠ tab.cols.length ∧ new sm tabName values = .error .invalidValueCount) ∨
      values.length = tab.cols.length ∧ ∃ x, new sm tabName values = .ok x ∧
        ((∃ p ∈ tab.cols.zip values, ¬p.2.Storable p.1 ∧ x.next ihs junk s = .error (p.2.refusal p.1) s) ∨
          (∀ p ∈ tab.cols.zip values, p.2.Storable p.1) ∧
            ((¬s.HasSpace ∧ ∃ t, x.next ihs junk s = .error .undefined t) ∨
              ∃ rid t r, x.next ihs junk s = .ok rid t ∧ m rid = none ∧
                t.records = Function.update m rid (some r) ∧
                ∀ p ∈ tab.cols.zip values, p.2.Plain → QlManager.readColumn r p.1 = .ok p.2.data)) := by
  obtain ⟨inv, rfl⟩ := run.holds
  by_cases count : values.length = tab.cols.length
  · right
    refine ⟨count, ⟨tab, values, tabName⟩, ?_, ?_⟩
    · rw [new, table, ok_bind, if_neg (not_not.mpr count), Portal.fileOf, file]
      rfl
    · by_cases storable : ∀ p ∈ tab.cols.zip values, p.2.Storable p.1
      · exact Or.inr ⟨storable, next_storable (x :=
          ⟨tab, values, tabName⟩) inv laid size ready count unused storable junk⟩
      · exact Or.inl (next_refused (x := ⟨tab, values, tabName⟩) laid size count unused storable junk)
  · left
    refine ⟨count, ?_⟩
    rw [new, table, ok_bind, if_pos count]
    rfl

/-- The statement throws, for one of three reasons and with the file as it was, or it makes one record more live, whose
columns are read back as the values. -/
def ReadsBack (sm : SmManager) (tabName : String) (tab : TabMeta) (values : List Value) (ihs : String → Bool)
    (junk : Nat → UInt8) (s : RmFile FlatFile) (m : RecordMap) : Prop :=
  (values.length ≠ tab.cols.length ∧ new sm tabName values = .error .invalidValueCount) ∨
    ∃ x, new sm tabName values = .ok x ∧
      ((∃ p ∈ tab.cols.zip values, p.2.type ≠ p.1.type ∧
          x.next ihs junk s = .error (.incompatibleType (coltype2str p.1.type) (coltype2str p.2.type)) s) ∨
        (∃ p ∈ tab.cols.zip values, ∃ str, p.2.data = .str str ∧ p.1.len < str.length ∧
          x.next ihs junk s = .error .stringOverflow s) ∨
        ∃ rid t r, x.next ihs junk s = .ok rid t ∧ m rid = none ∧ t.records = Function.update m rid (some r) ∧
          ∀ p ∈ tab.cols.zip values, p.2.Plain → QlManager.readColumn r p.1 = .ok p.2.data)

/-- Where the number columns have four bytes, a value of the right type is refused only as a string that is too long. -/
theorem refusal_of_wide {col : ColMeta} {v : Value} (wide : col.type ≠ .string → col.len = 4) (refused : ¬v.Storable col) :
    (v.type ≠ col.type ∧ v.refusal col = .incompatibleType (coltype2str col.type) (coltype2str v.type)) ∨
      ∃ str, v.data = .str str ∧ col.len < str.length ∧ v.refusal col = .stringOverflow := by
  by_cases sameType : v.type = col.type
  · right
    cases kind : v.data with
    | int i =>
      have number : col.type = .int := by rw [← sameType, Value.type, kind]
      simp [Value.Storable, kind, sameType, wide (by rw [number]; decide)] at refused
    | float bits =>
      have number : col.type = .float := by rw [← sameType, Value.type, kind]
      simp [Value.Storable, kind, sameType, wide (by rw [number]; decide)] at refused
    | str str =>
      have isString : v.type = .string := by rw [Value.type, kind]
      refine ⟨str, rfl, by simpa [Value.Storable, kind, sameType] using refused, ?_⟩
      rw [Value.refusal, if_neg (not_not.mpr sameType), if_pos isString]
  · exact Or.inl ⟨sameType, by rw [Value.refusal, if_pos sameType]⟩

/-- INSERT on a table whose file was reached by any run and has a page number left, and whose number columns have four
bytes: it throws and changes nothing, or the new record reads back. -/
theorem insert_read_back {m : RecordMap} {sm : SmManager} {tabName : String} {tab : TabMeta} (run : RecordRun s m)
    (table : sm.db.getTable tabName = .ok tab) (file : sm.fhs tabName = some s) (laid : Consecutive 0 tab.cols)
    (size : s.hdr.recordSize = totalLen tab.cols) (ready : ∀ index ∈ tab.indexes, IndexReady ihs tabName tab index)
    (unused : ∀ v ∈ values, v.raw = none) (wide : ∀ col ∈ tab.cols, col.type ≠ .string → col.len = 4)
    (space : s.HasSpace) (junk : Nat → UInt8) : ReadsBack sm tabName tab values ihs junk s m := by
  rcases insert_outcomes run table file laid size ready unused junk with count | ⟨_, x, made, refused | stored⟩
  · exact Or.inl count
  · obtain ⟨p, member, unfit, thrown⟩ := refused
    refine Or.inr ⟨x, made, ?_⟩
    rcases refusal_of_wide (wide p.1 (List.of_mem_zip member).1) unfit with ⟨other, same⟩ | ⟨str, data, long, same⟩
    · exact Or.inl ⟨p, member, other, same ▸ thrown⟩
    · exact Or.inr (Or.inl ⟨p, member, str, data, long, same ▸ thrown⟩)
  · rcases stored with ⟨_, ⟨full, _⟩ | inserted⟩
    · exact absurd space full
    · exact Or.inr ⟨x, made, Or.inr (Or.inr inserted)⟩

def pairTab : TabMeta := ⟨"t", [⟨"t", "a", .int, 4, 0, false⟩, ⟨"t", "b", .string, 4, 4, false⟩], []⟩

def pairValues : List Value := [⟨.int (-7), none⟩, ⟨.str [114, 109, 100, 98], none⟩]

/-- A row whose string fills its column. -/
theorem insert_read_back_pair :
    ∃ (s t : RmFile FlatFile) (m : RecordMap) (x : InsertExecutor) (rid : Rid) (r : RmRecord),
    RecordRun s m ∧ new ⟨⟨"db", [("t", pairTab)]⟩, fun _ => some s⟩ "t" pairValues = .ok x ∧
      x.next (fun _ => false) (fun _ => 0) s = .ok rid t ∧ t.records rid = some r ∧
      QlManager.readColumn r ⟨"t", "a", .int, 4, 0, false⟩ = .ok (.int (-7)) ∧
      QlManager.readColumn r ⟨"t", "b", .string, 4, 4, false⟩ = .ok (.str [114, 109, 100, 98]) := by
  have created := RecordRun.created (show RmManager.created 8 3 (FlatFile.blank 0) = _ from rfl)
  have outcome := @insert_read_back pairValues _ (fun _ => false) _
    ⟨⟨"db", [("t", pairTab)]⟩, fun _ => some _⟩ "t" pairTab created
    rfl rfl (by simp [pairTab, Consecutive]) rfl (fun index member => by cases member)
    (by simp [pairValues]) (by decide) (Or.inl (by decide)) (fun _ => 0)
  rcases outcome with ⟨count, _⟩ | ⟨x, made, ⟨p, member, other, _⟩ | ⟨p, member, str, data, long, _⟩ | ⟨rid, t, r, run, _,
    records, read⟩⟩
  · exact absurd rfl count
  · rcases List.mem_cons.mp member with rfl | member
    · exact absurd rfl other
    · cases List.mem_singleton.mp member
      exact absurd rfl other
  · rcases List.mem_cons.mp member with rfl | member
    · cases data
    · cases List.mem_singleton.mp member
      cases data
      exact absurd long (by decide)
  · refine ⟨_, t, _, x, rid, r, created, made, run, ?_, ?_, ?_⟩
    · rw [records, Function.update_self]
    · exact read (⟨"t", "a", .int, 4, 0, false⟩, ⟨.int (-7), none⟩) (by simp [pairTab, pairValues])
        (show IsInt (-7) by decide)
    · exact read (⟨"t", "b", .string, 4, 4, false⟩, ⟨.str [114, 109, 100, 98], none⟩) (by simp [pairTab, pairValues])
        (show (0 : UInt8) ∉ _ by decide)

def longIntTab : TabMeta := ⟨"t", [⟨"t", "a", .int, 8, 0, false⟩], []⟩

/-- An INT column of eight bytes: the assertion of `init_raw` fails, and nothing is thrown. -/
theorem not_insert_read_back : ¬∀ (s : RmFile FlatFile) (m : RecordMap) (sm : SmManager) (tabName : String) (tab : TabMeta)
    (values : List Value) (ihs : String → Bool) (junk : Nat → UInt8), RecordRun s m →
    sm.db.getTable tabName = .ok tab → sm.fhs tabName = some s → Consecutive 0 tab.cols →
    s.hdr.recordSize = totalLen tab.cols → (∀ index ∈ tab.indexes, IndexReady ihs tabName tab index) →
    (∀ v ∈ values, v.raw = none) → ReadsBack sm tabName tab values ihs junk s m := by
  intro readsBack
  have created := RecordRun.created (show RmManager.created 8 3 (FlatFile.blank 0) = _ from rfl)
  have outcome := readsBack _ _ ⟨⟨"db", [("t", longIntTab)]⟩, fun _ => some _⟩ "t" longIntTab [⟨.int 7, none⟩]
    (fun _ => false) (fun _ => 0) created rfl rfl (by simp [longIntTab, Consecutive]) rfl
    (fun index member => by cases member) (by simp)
  rcases outcome with ⟨count, _⟩ | ⟨x, made, ⟨p, member, other, _⟩ | ⟨p, member, str, data, _⟩ | ⟨rid, t, r, run, _⟩⟩
  · exact absurd rfl count
  · cases List.mem_singleton.mp member
    exact absurd rfl other
  · cases List.mem_singleton.mp member
    cases data
  · cases made
    cases run

end

end InsertExecutor

end Rmdb
