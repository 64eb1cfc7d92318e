import Rmdb.Common
import Rmdb.Kit.Buffer

namespace Rmdb
open Buffer

structure IxFileHdr where
  firstFreePageNo : Int
  numPages : Int
  rootPage : Int
  colNum : Int
  colTypes : List ColType
  colLens : List Int
  colTotLen : Int
  btreeOrder : Int
  keysSize : Int
  firstLeaf : Int
  lastLeaf : Int
  totLen : Int
  deriving DecidableEq

namespace IxFileHdr

/-- Four `page_id_t` and six `int`, and a type and a length for each column. The sizes are
unsigned, the sum goes back into an `int`. -/
def updateTotLen (h : IxFileHdr) : IxFileHdr := { h with totLen := wrapInt (40 + 8 * h.colNum) }

def putInt (offset v : Int) : EStateM Error (List UInt8) Int := put .undefined offset (intBytes v)

def typeBytes (type : ColType) : List UInt8 := intBytes type.code

def serialize (h : IxFileHdr) : EStateM Error (List UInt8) Unit := do
  let offset ← putInt 0 h.totLen
  let offset ← putInt offset h.firstFreePageNo
  let offset ← putInt offset h.numPages
  let offset ← putInt offset h.rootPage
  let offset ← putInt offset h.colNum
  let offset ← putEach .undefined typeBytes h.colTypes 0 h.colNum.toNat offset
  let offset ← putEach .undefined intBytes h.colLens 0 h.colNum.toNat offset
  let offset ← putInt offset h.colTotLen
  let offset ← putInt offset h.btreeOrder
  let offset ← putInt offset h.keysSize
  let offset ← putInt offset h.firstLeaf
  let offset ← putInt offset h.lastLeaf
  if offset ≠ h.totLen then throw .assertion

/-- The `ColType` behind `src + offset`; a value that names none is not defined. -/
def getType (src : List UInt8) (offset : Int) : Except Error (ColType × Int) := do
  let (v, offset) ← getInt .undefined src offset
  match ColType.ofCode v with
  | none => throw .undefined
  | some type => return (type, offset)

/-- `deserialize` into a fresh header, whose vectors are empty. -/
def deserialize (src : List UInt8) : Except Error IxFileHdr := do
  let (totLen, offset) ← getInt .undefined src 0
  let (firstFreePageNo, offset) ← getInt .undefined src offset
  let (numPages, offset) ← getInt .undefined src offset
  let (rootPage, offset) ← getInt .undefined src offset
  let (colNum, offset) ← getInt .undefined src offset
  let (colTypes, offset) ← getEach (getType src) colNum.toNat offset
  let (colLens, offset) ← getEach (getInt .undefined src) colNum.toNat offset
  let (colTotLen, offset) ← getInt .undefined src offset
  let (btreeOrder, offset) ← getInt .undefined src offset
  let (keysSize, offset) ← getInt .undefined src offset
  let (firstLeaf, offset) ← getInt .undefined src offset
  let (lastLeaf, offset) ← getInt .undefined src offset
  if offset ≠ totLen then throw .assertion
  return ⟨firstFreePageNo, numPages, rootPage, colNum, colTypes, colLens, colTotLen, btreeOrder, keysSize, firstLeaf,
    lastLeaf, totLen⟩

/-- `new char[tot_len_]` and `serialize` into it. -/
def image (h : IxFileHdr) : Except Error (List UInt8) :=
  if h.totLen < 0 then .error .badArrayLength else fill h.totLen.toNat h.serialize

/-- What the fields say, in the order of the file; all of them are four bytes long. -/
def words (h : IxFileHdr) : List Int :=
  [h.totLen, h.firstFreePageNo, h.numPages, h.rootPage, h.colNum] ++ h.colTypes.map ColType.code ++ h.colLens ++
    [h.colTotLen, h.btreeOrder, h.keysSize, h.firstLeaf, h.lastLeaf]

def text (h : IxFileHdr) : List UInt8 := h.words.flatMap intBytes

/-- The vectors have a member for each column, and the fields are `int`s. -/
structure WellFormed (h : IxFileHdr) : Prop where
  types : (h.colTypes.length : Int) = h.colNum
  lens : (h.colLens.length : Int) = h.colNum
  ints : ∀ v ∈ h.words, IsInt v

section
variable {h : IxFileHdr}

theorem text_eq (h : IxFileHdr) : h.text = intBytes h.totLen ++ (intBytes h.firstFreePageNo ++ (intBytes h.numPages ++
    (intBytes h.rootPage ++ (intBytes h.colNum ++ (h.colTypes.flatMap typeBytes ++ (h.colLens.flatMap intBytes ++
    (intBytes h.colTotLen ++ (intBytes h.btreeOrder ++ (intBytes h.keysSize ++ (intBytes h.firstLeaf ++
    intBytes h.lastLeaf)))))))))) := by
  simp only [text, words, List.flatMap_append, List.flatMap_cons, List.flatMap_nil, List.flatMap_map, List.append_assoc,
    List.append_nil]
  rfl

@[simp] theorem length_words_bytes (l : List Int) : (l.flatMap intBytes).length = 4 * l.length := by
  induction l with
  | nil => rfl
  | cons v l ih =>
    rw [List.flatMap_cons, List.length_append, ih, length_intBytes, List.length_cons]
    omega

@[simp] theorem length_types_bytes (l : List ColType) : (l.flatMap typeBytes).length = 4 * l.length := by
  have words := length_words_bytes (l.map ColType.code)
  rw [List.flatMap_map, List.length_map] at words
  exact words

theorem length_text (h : IxFileHdr) : h.text.length = 4 * h.words.length := length_words_bytes h.words

theorem WellFormed.length_words (wf : h.WellFormed) : (4 * h.words.length : Int) = 40 + 8 * h.colNum := by
  have types := wf.types
  have lens := wf.lens
  simp only [words, List.length_append, List.length_map, List.length_cons, List.length_nil]
  omega

theorem putInt_writes {k : Nat} (v : Int) (small : (k : Int) + 4 ≤ intMax) :
    Writes k (putInt k v) (intBytes v) ((k + 4 : Nat) : Int) := by
  have put : Writes k (putInt k v) (intBytes v) _ := Writes.put (by rw [length_intBytes]; exact small)
  rwa [length_intBytes] at put

/-- A field, and the rest of the header behind it. -/
theorem putInt_then {k : Nat} {v : Int} {f : Int → EStateM Error (List UInt8) Unit} {rest : List UInt8}
    (small : (k : Int) + 4 ≤ intMax) (later : Writes (k + 4) (f ((k + 4 : Nat) : Int)) rest ()) :
    Writes k (putInt k v >>= f) (intBytes v ++ rest) () :=
  (putInt_writes v small).bind (by rwa [length_intBytes])

/-- `serialize` writes the words one behind the other, and its assertion holds. -/
theorem WellFormed.writes (wf : h.WellFormed) (whole : h.totLen = 40 + 8 * h.colNum) (small : h.totLen ≤ intMax) :
    Writes 0 h.serialize h.text () := by
  have types := wf.types
  have lens := wf.lens
  have typeCount : h.colNum.toNat = h.colTypes.length := by omega
  have lenCount : h.colNum.toNat = h.colLens.length := by omega
  rw [text_eq]
  unfold serialize
  refine putInt_then (k := 0) (by decide) ?_
  refine putInt_then (by decide) ?_
  refine putInt_then (by decide) ?_
  refine putInt_then (by decide) ?_
  refine putInt_then (by decide) ?_
  refine Writes.bind (a := ((20 + 4 * h.colTypes.length : Nat) : Int)) ?_ ?_
  · rw [typeCount, ← length_types_bytes]
    exact Writes.putEach (by rw [length_types_bytes]; omega)
  rw [length_types_bytes]
  refine Writes.bind (a := ((20 + 4 * h.colTypes.length + 4 * h.colLens.length : Nat) : Int)) ?_ ?_
  · rw [lenCount, ← length_words_bytes]
    exact Writes.putEach (by rw [length_words_bytes]; omega)
  rw [length_words_bytes]
  refine putInt_then (by omega) ?_
  refine putInt_then (by omega) ?_
  refine putInt_then (by omega) ?_
  refine putInt_then (by omega) ?_
  rw [← List.append_nil (intBytes h.lastLeaf)]
  refine putInt_then (by omega) ?_
  rw [if_neg (by omega)]
  exact Writes.pure ()

theorem getType_holds {src : List UInt8} {k : Nat} (type : ColType) (holds : Holds src k (typeBytes type))
    (small : (k : Int) + (typeBytes type).length ≤ intMax) :
    getType src k = .ok (type, ((k + (typeBytes type).length : Nat) : Int)) := by
  have range : IsInt type.code := by cases type <;> decide
  rw [typeBytes, length_intBytes] at small ⊢
  rw [getType, holds.getInt range small, ok_bind]
  simp only [ColType.ofCode_code]
  rfl

/-- `deserialize` finds every word where `serialize` puts it. -/
theorem WellFormed.deserialize {src : List UInt8} (wf : h.WellFormed) (whole : h.totLen = 40 + 8 * h.colNum)
    (small : h.totLen ≤ intMax) (holds : Holds src 0 h.text) : deserialize src = .ok h := by
  have types := wf.types
  have lens := wf.lens
  have typeCount : h.colNum.toNat = h.colTypes.length := by omega
  have lenCount : h.colTypes.length = h.colLens.length := by omega
  have range : ∀ v, v ∈ h.words → IsInt v := wf.ints
  simp only [words, List.mem_append, List.mem_cons, List.not_mem_nil, or_false] at range
  rw [text_eq] at holds
  unfold IxFileHdr.deserialize
  have second := holds.behindInt
  have third := second.behindInt
  have fourth := third.behindInt
  have fifth := fourth.behindInt
  have vectors := fifth.behindInt
  have behindTypes := vectors.right
  have behindVectors := behindTypes.right
  refine (holds.getInt_bind (range _ (by simp)) (by decide)).trans ?_
  refine (second.getInt_bind (range _ (by simp)) (by decide)).trans ?_
  refine (third.getInt_bind (range _ (by simp)) (by decide)).trans ?_
  refine (fourth.getInt_bind (range _ (by simp)) (by decide)).trans ?_
  refine (fifth.getInt_bind (range _ (by simp)) (by decide)).trans ?_
  simp only
  rw [typeCount, Holds.getEach (fun type k _ => getType_holds type) vectors.left (by rw [length_types_bytes]; omega),
    ok_bind]
  simp only
  have readLens : ∀ n k, n ∈ h.colLens → Holds src k (intBytes n) → (k : Int) + (intBytes n).length ≤ intMax →
      getInt Error.undefined src k = .ok (n, ((k + (intBytes n).length : Nat) : Int)) := by
    intro n k member at_k small
    rw [length_intBytes] at small ⊢
    exact at_k.getInt (range n (by simp [member])) small
  rw [lenCount, Holds.getEach readLens behindTypes.left (by rw [length_types_bytes, length_words_bytes]; omega),
    ok_bind]
  rw [length_types_bytes, length_words_bytes] at behindVectors
  rw [length_types_bytes, length_words_bytes]
  have order := behindVectors.behindInt
  have keys := order.behindInt
  have firstLeaf := keys.behindInt
  have lastLeaf := firstLeaf.behindInt
  refine (behindVectors.getInt_bind (range _ (by simp)) (by omega)).trans ?_
  refine (order.getInt_bind (range _ (by simp)) (by omega)).trans ?_
  refine (keys.getInt_bind (range _ (by simp)) (by omega)).trans ?_
  refine (firstLeaf.getInt_bind (range _ (by simp)) (by omega)).trans ?_
  rw [← List.append_nil (intBytes h.lastLeaf)] at lastLeaf
  refine (lastLeaf.getInt_bind (range _ (by simp)) (by omega)).trans ?_
  simp only
  rw [if_neg (by omega)]
  rfl

/-- All that `deserialize` reads lies in the buffer, so the length it reads does not go past it. -/
theorem deserialize_totLen {src : List UInt8} (run : IxFileHdr.deserialize src = .ok h)
    (small : (src.length : Int) ≤ intMax) : h.totLen ≤ src.length := by
  unfold IxFileHdr.deserialize at run
  obtain ⟨⟨totLen, _⟩, _, run⟩ := bind_eq_ok_iff.mp run
  obtain ⟨⟨firstFreePageNo, _⟩, _, run⟩ := bind_eq_ok_iff.mp run
  obtain ⟨⟨numPages, _⟩, _, run⟩ := bind_eq_ok_iff.mp run
  obtain ⟨⟨rootPage, _⟩, _, run⟩ := bind_eq_ok_iff.mp run
  obtain ⟨⟨colNum, _⟩, _, run⟩ := bind_eq_ok_iff.mp run
  obtain ⟨⟨colTypes, _⟩, _, run⟩ := bind_eq_ok_iff.mp run
  obtain ⟨⟨colLens, _⟩, _, run⟩ := bind_eq_ok_iff.mp run
  obtain ⟨⟨colTotLen, _⟩, _, run⟩ := bind_eq_ok_iff.mp run
  obtain ⟨⟨btreeOrder, _⟩, _, run⟩ := bind_eq_ok_iff.mp run
  obtain ⟨⟨keysSize, _⟩, _, run⟩ := bind_eq_ok_iff.mp run
  obtain ⟨⟨firstLeaf, _⟩, _, run⟩ := bind_eq_ok_iff.mp run
  obtain ⟨⟨lastLeaf, last⟩, read, run⟩ := bind_eq_ok_iff.mp run
  obtain ⟨_, _, inside⟩ := getInt_ok read small
  simp only at run
  split at run
  · cases run
  · rename_i whole
    cases run
    exact (not_not.mp whole) ▸ inside

theorem WellFormed.image (wf : h.WellFormed) (whole : h.totLen = 40 + 8 * h.colNum) (small : h.totLen ≤ intMax) :
    h.image = .ok h.text := by
  have size := wf.length_words
  rw [← whole] at size
  have length := length_text h
  rw [IxFileHdr.image, if_neg (by omega)]
  exact (wf.writes whole small).fill (by omega)

theorem WellFormed.updateTotLen (wf : h.WellFormed) : h.updateTotLen.WellFormed where
  types := wf.types
  lens := wf.lens
  ints v member := by
    rcases List.mem_cons.mp member with rfl | other
    · exact isInt_wrapInt _
    · exact wf.ints v (List.mem_cons_of_mem _ other)

/-- Other page numbers in the header, as an index gets them while it is open. -/
def withPages (h : IxFileHdr) (firstFreePageNo numPages rootPage firstLeaf lastLeaf : Int) : IxFileHdr :=
  { h with
    firstFreePageNo := firstFreePageNo
    numPages := numPages
    rootPage := rootPage
    firstLeaf := firstLeaf
    lastLeaf := lastLeaf }

theorem WellFormed.withPages (wf : h.WellFormed) {firstFreePageNo numPages rootPage firstLeaf lastLeaf : Int}
    (ints : ∀ v ∈ [firstFreePageNo, numPages, rootPage, firstLeaf, lastLeaf], IsInt v) :
    (h.withPages firstFreePageNo numPages rootPage firstLeaf lastLeaf).WellFormed where
  types := wf.types
  lens := wf.lens
  ints v member := by
    have old := wf.ints v
    have new := ints v
    simp only [words, IxFileHdr.withPages, List.mem_append, List.mem_cons, List.not_mem_nil, or_false] at member old new
    tauto

/-- `serialize` fills the `tot_len_` bytes in front of a large enough buffer, and `deserialize`
reads the header from them, whatever stands behind. -/
def RoundTrips (h : IxFileHdr) : Prop := Buffer.RoundTrips h.totLen h.serialize IxFileHdr.deserialize h

theorem WellFormed.roundTrips (wf : h.WellFormed) (whole : h.totLen = 40 + 8 * h.colNum) (small : h.totLen ≤ intMax) :
    h.RoundTrips := by
  have size : ((h.text.length : Nat) : Int) = h.totLen := by
    rw [length_text, whole, ← wf.length_words]
    rfl
  have trips := (wf.writes whole small).roundTrips fun src => wf.deserialize whole small
  rwa [size] at trips

/-- A header whose length is an `int` is written in exactly that many bytes and read back from them, and so is
the header read back after its page numbers have changed. -/
theorem header_round_trip (wf : h.WellFormed) (small : 40 + 8 * h.colNum ≤ intMax) :
    h.updateTotLen.RoundTrips ∧
      ∀ dest out trailing read, h.updateTotLen.totLen ≤ dest.length → h.updateTotLen.serialize dest = .ok () out →
        IxFileHdr.deserialize (out ++ trailing) = .ok read →
        ∀ firstFreePageNo numPages rootPage firstLeaf lastLeaf,
          (∀ v ∈ [firstFreePageNo, numPages, rootPage, firstLeaf, lastLeaf], IsInt v) →
          (read.withPages firstFreePageNo numPages rootPage firstLeaf lastLeaf).RoundTrips := by
  have types := wf.types
  have updated := wf.updateTotLen
  have whole : h.updateTotLen.totLen = 40 + 8 * h.updateTotLen.colNum :=
    wrapInt_of_isInt ⟨by unfold intMin; omega, small⟩
  obtain ⟨bytes, size, writes, reads⟩ := updated.roundTrips whole (whole.trans_le small)
  refine ⟨⟨bytes, size, writes, reads⟩, ?_⟩
  intro dest out trailing read room written parsed _ _ _ _ _ ints
  rw [writes dest room] at written
  cases written
  rw [List.append_assoc, reads] at parsed
  cases parsed
  exact (updated.withPages ints).roundTrips whole (whole.trans_le small)

/-- A header for `n` columns of one kind. -/
def uniform (n : Nat) : IxFileHdr :=
  ⟨-1, 3, 2, n, List.replicate n .int, List.replicate n 4, 4, 338, 1356, 2, 2, 0⟩

theorem uniform_wellFormed {n : Nat} (small : (n : Int) ≤ intMax) : (uniform n).WellFormed where
  types := by rw [uniform, List.length_replicate]
  lens := by rw [uniform, List.length_replicate]
  ints v member := by
    simp only [uniform, words, List.mem_append, List.map_replicate, List.mem_replicate, List.mem_cons, List.not_mem_nil,
      or_false, ColType.code] at member
    unfold IsInt intMin intMax at *
    omega

/-- A header for an INT and a CHAR(8) column. -/
def pair : IxFileHdr := ⟨-1, 3, 2, 2, [.int, .string], [4, 8], 12, 202, 2436, 2, 2, 0⟩

theorem header_round_trip_two : pair.updateTotLen.totLen = 56 ∧ pair.updateTotLen.RoundTrips :=
  ⟨by decide, (header_round_trip (h := pair) ⟨rfl, rfl, by decide⟩ (by decide)).1⟩

/-- From 268435451 columns on the length does not fit into `tot_len_`. -/
theorem header_round_trip_overflow : ¬∀ h : IxFileHdr, h.WellFormed → h.updateTotLen.RoundTrips := by
  intro trips
  obtain ⟨bytes, size, _⟩ := trips (uniform 268435451) (uniform_wellFormed (by decide))
  have negative : (uniform 268435451).updateTotLen.totLen = -2147483648 := by decide
  rw [negative] at size
  omega

end

end IxFileHdr

end Rmdb
