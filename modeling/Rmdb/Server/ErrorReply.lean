import Rmdb.Execution.RecordPrinter
import Rmdb.Record.Raises

namespace Rmdb

namespace Error

/-- `std::to_string` of an `int`. -/
def decimal (v : Int) : String := String.ofList (insertInt (wrapInt v))

/-- `what()` of an `RMDBError`; `strerror` is the text for `errno`. The other ends of a call have no such text. -/
def what (strerror : String) : Error → Option String
  | .internal msg => some ("Error: " ++ msg)
  | .unix => some ("Error: " ++ strerror)
  | .fileNotOpen fd => some ("Error: " ++ ("Invalid file descriptor: " ++ decimal fd))
  | .fileNotClosed filename => some ("Error: " ++ ("File is opened: " ++ filename))
  | .fileExists filename => some ("Error: " ++ ("File already exists: " ++ filename))
  | .fileNotFound filename => some ("Error: " ++ ("File not found: " ++ filename))
  | .invalidRecordSize recordSize => some ("Error: " ++ ("Invalid record size: " ++ decimal recordSize))
  | .invalidColLength colLen => some ("Error: " ++ ("Invalid column length: " ++ decimal colLen))
  | .tableNotFound tabName => some ("Error: " ++ ("Table not found: " ++ tabName))
  | .tableExists tabName => some ("Error: " ++ ("Table already exists: " ++ tabName))
  | .columnNotFound colName => some ("Error: " ++ ("Column not found: " ++ colName))
  | .ambiguousColumn colName => some ("Error: " ++ ("Ambiguous column: " ++ colName))
  | .indexNotFound tabName colNames =>
    some ("Error: " ++ ("Index not found: " ++ tabName ++ ".(" ++ ", ".intercalate colNames ++ ")"))
  | .indexEntryNotFound => some ("Error: " ++ "Index entry not found")
  | .invalidValueCount => some ("Error: " ++ "Invalid value count")
  | .stringOverflow => some ("Error: " ++ "String is too long")
  | .incompatibleType lhs rhs => some ("Error: " ++ ("Incompatible type error: lhs " ++ lhs ++ ", rhs " ++ rhs))
  | .pageNotExist tableName pageNo =>
    some ("Error: " ++ ("Page " ++ decimal pageNo ++ " in table " ++ tableName ++ "not exits"))
  | .assertion | .badArrayLength | .outOfRange | .undefined => none

end Error

namespace Context

/-- A `memcpy` into `data_send`. -/
def store (offset : Int) (src : List UInt8) : EStateM Error Context Unit := fun c =>
  match Buffer.store .undefined offset src c.dataSend with
  | .ok _ dataSend => .ok () { c with dataSend }
  | .error e dataSend => .error e { c with dataSend }

/-- The handler of `RMDBError`: no write is checked against the length of the buffer. -/
def sendError (str : List UInt8) : EStateM Error Context Unit := do
  store 0 str
  store str.length [10]
  store (str.length + 1) [0]
  modify fun c => { c with offset := str.length + 1 }

theorem store_inside {c : Context} {offset : Nat} {src : List UInt8}
    (inside : offset + src.length ≤ c.dataSend.length) :
    ∃ c', store offset src c = .ok () c' ∧ c'.dataSend.length = c.dataSend.length := by
  have room : (0 : Int) ≤ offset ∧ (offset : Int) + src.length ≤ c.dataSend.length := by omega
  unfold store Buffer.store
  rw [if_pos room]
  refine ⟨_, rfl, ?_⟩
  simp only [Int.toNat_natCast, List.length_append, List.length_take, List.length_drop]
  omega

theorem store_outside {c : Context} {offset : Nat} {src : List UInt8}
    (outside : ¬offset + src.length ≤ c.dataSend.length) : ∃ c', store offset src c = .error .undefined c' := by
  have room : ¬((0 : Int) ≤ offset ∧ (offset : Int) + src.length ≤ c.dataSend.length) := by omega
  unfold store Buffer.store
  rw [if_neg room]
  exact ⟨_, rfl⟩

/-- The writes stay in the buffer exactly if it has room for the message and two bytes more. -/
theorem sendError_ok_iff {c : Context} (size : c.dataSend.length = BUFFER_LENGTH) (str : List UInt8) :
    (∃ c', sendError str c = .ok () c') ↔ str.length + 2 ≤ BUFFER_LENGTH := by
  constructor
  · rintro ⟨c', run⟩
    obtain ⟨_, c₁, first, run⟩ := bind_eq_ok.mp run
    obtain ⟨_, c₂, second, run⟩ := bind_eq_ok.mp run
    obtain ⟨_, c₃, third, _⟩ := bind_eq_ok.mp run
    by_contra long
    have copied : 0 + str.length ≤ c.dataSend.length := by
      by_contra outside
      obtain ⟨_, refused⟩ := store_outside outside
      cases first.symm.trans refused
    obtain ⟨_, same, size₁⟩ := store_inside copied
    cases first.symm.trans same
    have ended : str.length + [(10 : UInt8)].length ≤ c₁.dataSend.length := by
      by_contra outside
      obtain ⟨_, refused⟩ := store_outside outside
      cases second.symm.trans refused
    obtain ⟨_, same, size₂⟩ := store_inside ended
    cases second.symm.trans same
    have closed : ¬str.length + 1 + [(0 : UInt8)].length ≤ c₂.dataSend.length := by
      rw [size₂, size₁, size, List.length_singleton]
      exact long
    obtain ⟨_, refused⟩ := store_outside closed
    cases third.symm.trans refused
  · intro fits
    obtain ⟨c₁, first, size₁⟩ := @store_inside c 0 str (by omega)
    obtain ⟨c₂, second, size₂⟩ := @store_inside c₁ str.length [10]
      (by rw [List.length_singleton]; omega)
    obtain ⟨c₃, third, _⟩ := @store_inside c₂ (str.length + 1) [0]
      (by rw [List.length_singleton]; omega)
    refine ⟨{ c₃ with offset := str.length + 1 }, ?_⟩
    unfold sendError
    exact (bind_ok first).trans ((bind_ok second).trans (bind_ok third))

end Context

namespace Error
variable {strerror : String} {e : Error}

/-- The message, if there is one, fits the reply buffer. -/
def Fits (strerror : String) (e : Error) : Prop := ∀ str, e.what strerror = some str → str.length + 2 ≤ BUFFER_LENGTH

theorem fits_iff {str : String} (text : e.what strerror = some str) :
    e.Fits strerror ↔ str.length + 2 ≤ BUFFER_LENGTH := by
  unfold Fits
  rw [text]
  simp only [Option.some.injEq, forall_eq']

theorem length_decimal (v : Int) : (decimal v).length ≤ 11 := by
  have range := isInt_wrapInt v
  unfold IsInt intMin intMax at range
  have digits : (insertNat (wrapInt v).natAbs).length ≤ 10 :=
    (Nat.length_toDigits_le_iff (by decide) (by decide)).mpr (by omega)
  rw [decimal, String.length_ofList, insertInt]
  split
  · rw [List.length_cons]
    omega
  · omega

/-- A message that ends in a text which varies. -/
theorem fits_iff_length (before : String) {text : String}
    (message : e.what strerror = some ("Error: " ++ (before ++ text))) :
    e.Fits strerror ↔ 7 + before.length + text.length + 2 ≤ BUFFER_LENGTH := by
  have error : "Error: ".length = 7 := rfl
  rw [fits_iff message, String.length_append, String.length_append, error, ← Nat.add_assoc]

theorem tableNotFound_fits (tabName : String) :
    (tableNotFound tabName).Fits strerror ↔ 24 + tabName.length + 2 ≤ BUFFER_LENGTH :=
  fits_iff_length "Table not found: " rfl

theorem tableExists_fits (tabName : String) :
    (tableExists tabName).Fits strerror ↔ 29 + tabName.length + 2 ≤ BUFFER_LENGTH :=
  fits_iff_length "Table already exists: " rfl

theorem fileExists_fits (filename : String) :
    (fileExists filename).Fits strerror ↔ 28 + filename.length + 2 ≤ BUFFER_LENGTH :=
  fits_iff_length "File already exists: " rfl

theorem columnNotFound_fits (colName : String) :
    (columnNotFound colName).Fits strerror ↔ 25 + colName.length + 2 ≤ BUFFER_LENGTH :=
  fits_iff_length "Column not found: " rfl

theorem ambiguousColumn_fits (colName : String) :
    (ambiguousColumn colName).Fits strerror ↔ 25 + colName.length + 2 ≤ BUFFER_LENGTH :=
  fits_iff_length "Ambiguous column: " rfl

theorem Plain.fits (plain : e.Plain) (short : strerror.length ≤ 1024) : e.Fits strerror := by
  cases plain with
  | io io =>
    cases io with
    | unix =>
      have error : "Error: ".length = 7 := rfl
      refine (fits_iff rfl).mpr ?_
      rw [String.length_append, error, BUFFER_LENGTH]
      omega
    | read => exact (fits_iff rfl).mpr (by decide)
    | write => exact (fits_iff rfl).mpr (by decide)
  | invalidRecordSize recordSize =>
    have digits := length_decimal recordSize
    refine (fits_iff_length "Invalid record size: " rfl).mpr ?_
    change 7 + 21 + (decimal recordSize).length + 2 ≤ 8192
    omega
  | invalidValueCount => exact (fits_iff rfl).mpr (by decide)
  | stringOverflow => exact (fits_iff rfl).mpr (by decide)
  | incompatibleType lhs rhs =>
    refine (fits_iff rfl).mpr ?_
    cases lhs <;> cases rhs <;> decide
  | pageNotExist pageNo =>
    have digits := length_decimal pageNo
    have texts : "Error: ".length + ("Page ".length + " in table ".length + "not exits".length) = 31 := rfl
    refine (fits_iff rfl).mpr ?_
    rw [BUFFER_LENGTH]
    simp only [String.length_append, String.length_empty]
    omega
  | assertion => exact fun _ none => nomatch none
  | badArrayLength => exact fun _ none => nomatch none
  | outOfRange => exact fun _ none => nomatch none
  | undefined => exact fun _ none => nomatch none

end Error

end Rmdb
