import Rmdb.Kit.Buffer
import Rmdb.Record.Layout

namespace Rmdb
open Buffer

inductive LogType
  | update
  | insert
  | delete
  | begin
  | commit
  | abort
  | other (v : Int)
  deriving DecidableEq

namespace LogType

/-- The value of the enumerator; an `enum` over `int` also holds values without a name. -/
def code : LogType → Int
  | .update => 0
  | .insert => 1
  | .delete => 2
  | .begin => 3
  | .commit => 4
  | .abort => 5
  | .other v => v

def ofCode (v : Int) : LogType :=
  if v = 0 then .update else if v = 1 then .insert else if v = 2 then .delete else if v = 3 then .begin
  else if v = 4 then .commit else if v = 5 then .abort else .other v

end LogType

def INVALID_LSN : Int := -1

def OFFSET_LOG_TYPE : Int := 0

def OFFSET_LSN : Int := 4

def OFFSET_LOG_TOT_LEN : Int := OFFSET_LSN + 4

def OFFSET_LOG_TID : Int := OFFSET_LOG_TOT_LEN + 4

def OFFSET_PREV_LSN : Int := OFFSET_LOG_TID + 4

def OFFSET_LOG_DATA : Int := OFFSET_PREV_LSN + 4

def LOG_HEADER_SIZE : Nat := OFFSET_LOG_DATA.toNat

/-- Reduction into the range of `uint32_t`. -/
def wrapUInt32 (n : Nat) : Nat := n % 4294967296

/-- The header of all log records. -/
structure LogRecord where
  logType : LogType
  lsn : Int
  logTotLen : Nat
  logTid : Int
  prevLsn : Int
  deriving DecidableEq

namespace LogRecord

def serialize (r : LogRecord) : EStateM Error (List UInt8) Unit := do
  store .undefined OFFSET_LOG_TYPE (intBytes r.logType.code)
  store .undefined OFFSET_LSN (intBytes r.lsn)
  store .undefined OFFSET_LOG_TOT_LEN (littleEndian 4 r.logTotLen)
  store .undefined OFFSET_LOG_TID (intBytes r.logTid)
  store .undefined OFFSET_PREV_LSN (intBytes r.prevLsn)

def deserialize (src : List UInt8) : Except Error LogRecord := do
  let logType ← load .undefined src 0 4
  let lsn ← load .undefined src OFFSET_LSN 4
  let logTotLen ← load .undefined src OFFSET_LOG_TOT_LEN 4
  let logTid ← load .undefined src OFFSET_LOG_TID 4
  let prevLsn ← load .undefined src OFFSET_PREV_LSN 4
  return ⟨LogType.ofCode (ofIntBytes logType), ofIntBytes lsn, ofLittleEndian logTotLen, ofIntBytes logTid,
    ofIntBytes prevLsn⟩

end LogRecord

/-- `int` plus `int`, which must not overflow. -/
def addInt {m : Type → Type} [Monad m] [MonadExceptOf Error m] (a b : Int) : m Int :=
  if IsInt (a + b) then pure (a + b) else throw .undefined

theorem addInt_of_isInt {m : Type → Type} [Monad m] [MonadExceptOf Error m] {a b : Int} (range : IsInt (a + b)) :
    addInt a b = (pure (a + b) : m Int) := if_pos range

structure BeginLogRecord extends LogRecord
  deriving DecidableEq

namespace BeginLogRecord

/-- The constructor for a transaction. -/
def new (txnId : Int) : BeginLogRecord where
  logType := .begin
  lsn := INVALID_LSN
  logTotLen := LOG_HEADER_SIZE
  logTid := txnId
  prevLsn := INVALID_LSN

def serialize (r : BeginLogRecord) : EStateM Error (List UInt8) Unit := r.toLogRecord.serialize

def deserialize (src : List UInt8) : Except Error BeginLogRecord := do
  let header ← LogRecord.deserialize src
  return ⟨header⟩

end BeginLogRecord

/-- The table name is an array of `table_name_size_` characters. -/
structure InsertLogRecord extends LogRecord where
  insertValue : RmRecord
  rid : Rid
  tableName : List UInt8
  tableNameSize : Nat
  deriving DecidableEq

def Rid.bytes (rid : Rid) : List UInt8 := intBytes rid.pageNo ++ intBytes rid.slotNo

def Rid.ofBytes (bytes : List UInt8) : Rid := ⟨ofIntBytes (bytes.take 4), ofIntBytes (bytes.drop 4)⟩

namespace InsertLogRecord

/-- The constructor for a transaction; the length is added up in a `uint32_t`. -/
def new (txnId : Int) (insertValue : RmRecord) (rid : Rid) (tableName : List UInt8) : InsertLogRecord :=
  let logTotLen := wrapUInt32 (LOG_HEADER_SIZE + 4)
  let logTotLen := wrapUInt32 (logTotLen + insertValue.length)
  let logTotLen := wrapUInt32 (logTotLen + 8)
  let logTotLen := wrapUInt32 (logTotLen + (8 + tableName.length))
  { logType := .insert
    lsn := INVALID_LSN
    logTotLen := logTotLen
    logTid := txnId
    prevLsn := INVALID_LSN
    insertValue := insertValue
    rid := rid
    tableName := tableName
    tableNameSize := tableName.length }

def serialize (r : InsertLogRecord) : EStateM Error (List UInt8) Unit := do
  r.toLogRecord.serialize
  let offset ← put .undefined OFFSET_LOG_DATA (intBytes r.insertValue.length)
  store .undefined offset r.insertValue
  let offset ← addInt offset r.insertValue.length
  let offset ← put .undefined offset r.rid.bytes
  let offset ← put .undefined offset (littleEndian 8 r.tableNameSize)
  if r.tableName.length < r.tableNameSize then throw .undefined
  else store .undefined offset (r.tableName.take r.tableNameSize)

end InsertLogRecord

/-- `RmRecord::Deserialize`. -/
def RmRecord.deserialize (data : List UInt8) : Except Error RmRecord := do
  let bytes ← load .undefined data 0 4
  let size := ofIntBytes bytes
  if size < 0 then throw .badArrayLength else load .undefined data 4 size.toNat

namespace InsertLogRecord

def deserialize (src : List UInt8) : Except Error InsertLogRecord := do
  let header ← LogRecord.deserialize src
  let insertValue ← RmRecord.deserialize (src.drop OFFSET_LOG_DATA.toNat)
  let offset ← addInt OFFSET_LOG_DATA insertValue.length
  let offset := wrapInt (offset + 4)
  let rid ← load .undefined src offset 8
  let offset := wrapInt (offset + 8)
  let tableNameSize ← load .undefined src offset 8
  let offset := wrapInt (offset + 8)
  let tableName ← load .undefined src offset (ofLittleEndian tableNameSize)
  return ⟨header, insertValue, Rid.ofBytes rid, tableName, ofLittleEndian tableNameSize⟩

end InsertLogRecord

/-! The bytes of a record, in the order of the buffer. -/

namespace LogRecord
variable {r : LogRecord} {src : List UInt8}

def text (r : LogRecord) : List UInt8 :=
  intBytes r.logType.code ++ (intBytes r.lsn ++ (littleEndian 4 r.logTotLen ++ (intBytes r.logTid ++
    intBytes r.prevLsn)))

@[simp] theorem length_text (r : LogRecord) : r.text.length = 20 := by
  simp only [text, List.length_append, length_intBytes, length_littleEndian]

/-- The fields hold what their types can hold. -/
structure Ranged (r : LogRecord) : Prop where
  type : IsInt r.logType.code ∧ LogType.ofCode r.logType.code = r.logType
  lsn : IsInt r.lsn
  totLen : r.logTotLen < 4294967296
  tid : IsInt r.logTid
  prev : IsInt r.prevLsn

theorem writes (r : LogRecord) : Writes 0 r.serialize r.text () := by
  have type : Writes 0 (store Error.undefined OFFSET_LOG_TYPE (intBytes r.logType.code)) _ _ := .store _ rfl
  refine type.bind ?_
  rw [length_intBytes]
  refine (Writes.store _ rfl).bind ?_
  rw [length_intBytes]
  refine (Writes.store _ rfl).bind ?_
  rw [length_littleEndian]
  refine (Writes.store _ rfl).bind ?_
  rw [length_intBytes]
  exact Writes.store _ rfl

theorem reads (ranged : r.Ranged) (holds : Holds src 0 r.text) : deserialize src = .ok r := by
  have lsn := holds.behindInt
  have totLen := lsn.behindInt
  have tid := totLen.right
  rw [length_littleEndian] at tid
  have prev := tid.behindInt
  rw [← List.append_nil (intBytes r.prevLsn)] at prev
  unfold deserialize
  refine (holds.load_bind rfl (length_intBytes _)).trans ?_
  refine (lsn.load_bind rfl (length_intBytes _)).trans ?_
  refine (totLen.load_bind rfl (length_littleEndian _ _)).trans ?_
  refine (tid.load_bind rfl (length_intBytes _)).trans ?_
  refine (prev.load_bind rfl (length_intBytes _)).trans ?_
  rw [ofIntBytes_intBytes ranged.type.1, ranged.type.2, ofIntBytes_intBytes ranged.lsn,
    ofLittleEndian_of_lt ranged.totLen, ofIntBytes_intBytes ranged.tid, ofIntBytes_intBytes ranged.prev]
  rfl

end LogRecord

namespace BeginLogRecord

theorem reads {r : BeginLogRecord} {src : List UInt8} (ranged : r.Ranged) (holds : Holds src 0 r.text) :
    deserialize src = .ok r := by
  rw [deserialize, LogRecord.reads ranged holds]
  rfl

end BeginLogRecord

theorem Rid.ofBytes_bytes {rid : Rid} (page : IsInt rid.pageNo) (slot : IsInt rid.slotNo) :
    Rid.ofBytes rid.bytes = rid := by
  rw [Rid.ofBytes, Rid.bytes, List.take_append_of_le_length (by simp), List.take_of_length_le (by simp),
    List.drop_append, List.drop_eq_nil_of_le (by simp), List.nil_append, length_intBytes, Nat.sub_self, List.drop_zero,
    ofIntBytes_intBytes page, ofIntBytes_intBytes slot]

theorem Rid.length_bytes (rid : Rid) : rid.bytes.length = 8 := by
  simp only [Rid.bytes, List.length_append, length_intBytes]

theorem RmRecord.reads {src : List UInt8} {r : RmRecord} {v : List UInt8} (small : (r.length : Int) ≤ intMax)
    (holds : Holds src 0 (intBytes r.length ++ (r ++ v))) : RmRecord.deserialize src = .ok r := by
  have range : IsInt (r.length : Int) := ⟨by unfold intMin; omega, small⟩
  unfold RmRecord.deserialize
  refine (holds.load_bind rfl (length_intBytes _)).trans ?_
  simp only [ofIntBytes_intBytes range]
  rw [if_neg (by omega)]
  exact holds.behindInt.left.load rfl (by omega)

namespace InsertLogRecord
variable {r : InsertLogRecord} {src : List UInt8}

def text (r : InsertLogRecord) : List UInt8 :=
  r.toLogRecord.text ++ (intBytes r.insertValue.length ++ (r.insertValue ++ (r.rid.bytes ++
    (littleEndian 8 r.tableNameSize ++ r.tableName))))

theorem length_text (r : InsertLogRecord) : r.text.length = 40 + r.insertValue.length + r.tableName.length := by
  simp only [text, List.length_append, LogRecord.length_text, length_intBytes, Rid.length_bytes, length_littleEndian]
  omega

/-- The fields hold what their types can hold, and the offsets stay in the range of `int`. -/
structure Ranged (r : InsertLogRecord) : Prop where
  header : r.toLogRecord.Ranged
  value : 40 + (r.insertValue.length : Int) ≤ intMax
  page : IsInt r.rid.pageNo
  slot : IsInt r.rid.slotNo
  name : r.tableName.length = r.tableNameSize
  nameSize : r.tableNameSize < 18446744073709551616

theorem writes (ranged : r.Ranged) : Writes 0 r.serialize r.text () := by
  have small := ranged.value
  have range : IsInt (((0 + 20 + 4 : Nat) : Int) + r.insertValue.length) := by
    unfold IsInt intMin
    omega
  have size : Writes (0 + 20) (put Error.undefined OFFSET_LOG_DATA (intBytes r.insertValue.length)) _ _ :=
    .put (by rw [length_intBytes]; decide)
  refine (r.toLogRecord.writes).bind ?_
  rw [LogRecord.length_text]
  refine size.bind ?_
  rw [length_intBytes]
  refine (Writes.store _ rfl).bind ?_
  rw [addInt_of_isInt range, pure_bind, ← Int.natCast_add]
  refine (Writes.put (by rw [Rid.length_bytes]; omega)).bind ?_
  rw [Rid.length_bytes]
  refine (Writes.put (by rw [length_littleEndian]; omega)).bind ?_
  rw [if_neg (by rw [ranged.name]; exact lt_irrefl _), ← ranged.name, List.take_length]
  exact Writes.store _ rfl

theorem reads (ranged : r.Ranged) (holds : Holds src 0 r.text) : deserialize src = .ok r := by
  have small := ranged.value
  have data := holds.right
  rw [LogRecord.length_text] at data
  have value : Holds (src.drop 20) 0 _ := Holds.drop (j := 20) (k := 0) data
  have rid := data.behindInt.right
  have nameSize := rid.right
  have name := nameSize.right
  rw [Rid.length_bytes] at nameSize name
  rw [length_littleEndian] at name
  have range : IsInt (OFFSET_LOG_DATA + r.insertValue.length) := by
    unfold IsInt intMin
    rw [show OFFSET_LOG_DATA = 20 from rfl]
    omega
  have later : ∀ k : Nat, (k : Int) + 8 ≤ 40 + r.insertValue.length → wrapInt ((k : Int) + 8) = ((k + 8 : Nat) : Int) :=
    fun k bound => wrapInt_of_isInt ⟨by unfold intMin; omega, by omega⟩
  unfold deserialize
  rw [LogRecord.reads ranged.header holds.left, ok_bind, show OFFSET_LOG_DATA.toNat = 20 from rfl,
    RmRecord.reads (by omega) value, ok_bind, addInt_of_isInt range, pure_bind]
  have ridAt :
      wrapInt (OFFSET_LOG_DATA + r.insertValue.length + 4) = ((0 + 20 + 4 + r.insertValue.length : Nat) : Int) := by
    rw [show OFFSET_LOG_DATA = 20 from rfl, wrapInt_of_isInt ⟨by unfold intMin; omega, by omega⟩]
    omega
  simp only [ridAt]
  rw [later _ (by omega), later _ (by omega)]
  refine (rid.load_bind rfl (Rid.length_bytes _)).trans ?_
  refine (nameSize.load_bind rfl (length_littleEndian _ _)).trans ?_
  rw [ofLittleEndian_of_lt ranged.nameSize, name.load rfl ranged.name, ok_bind,
    Rid.ofBytes_bytes ranged.page ranged.slot]
  rfl

/-- The constructor's sum, as long as it fits. -/
theorem new_logTotLen (txnId : Int) {insertValue : RmRecord} (rid : Rid) {tableName : List UInt8}
    (small : 40 + insertValue.length + tableName.length < 4294967296) :
    (new txnId insertValue rid tableName).logTotLen = 40 + insertValue.length + tableName.length := by
  simp only [new, wrapUInt32, show LOG_HEADER_SIZE = 20 from rfl]
  omega

end InsertLogRecord

/-! Records as a transaction makes them: the constructor, and the two sequence numbers later. -/

namespace BeginLogRecord

def Built (r : BeginLogRecord) : Prop :=
  ∃ txnId lsn prevLsn, IsInt txnId ∧ IsInt lsn ∧ IsInt prevLsn ∧ r = { new txnId with lsn := lsn, prevLsn := prevLsn }

variable {r : BeginLogRecord}

theorem Built.ranged (built : r.Built) : r.toLogRecord.Ranged := by
  obtain ⟨txnId, lsn, prevLsn, tid, atLsn, prev, rfl⟩ := built
  have range : IsInt (LogType.code .begin) := by decide
  exact ⟨⟨range, rfl⟩, atLsn, (by decide : LOG_HEADER_SIZE < 4294967296), tid, prev⟩

theorem Built.logTotLen (built : r.Built) : r.logTotLen = 20 := by
  obtain ⟨_, _, _, _, _, _, rfl⟩ := built
  rfl

end BeginLogRecord

namespace InsertLogRecord

/-- The size of a record is an `int`, that of a string a `size_t`. -/
def Built (r : InsertLogRecord) : Prop :=
  ∃ txnId lsn prevLsn insertValue rid tableName, IsInt txnId ∧ IsInt lsn ∧ IsInt prevLsn ∧
    (List.length insertValue : Int) ≤ intMax ∧ IsInt rid.pageNo ∧ IsInt rid.slotNo ∧
    List.length tableName < 18446744073709551616 ∧
    r = { new txnId insertValue rid tableName with lsn := lsn, prevLsn := prevLsn }

/-- The offsets fit into an `int`, and the length into `log_tot_len_`. -/
def Short (r : InsertLogRecord) : Prop :=
  40 + (r.insertValue.length : Int) ≤ intMax ∧ 40 + r.insertValue.length + r.tableName.length < 4294967296

variable {r : InsertLogRecord}

theorem Built.logTotLen (built : r.Built) (short : r.Short) : r.logTotLen = r.text.length := by
  obtain ⟨txnId, _, _, _, rid, _, _, _, _, _, _, _, _, rfl⟩ := built
  rw [length_text]
  exact new_logTotLen txnId rid short.2

theorem Built.ranged (built : r.Built) (short : r.Short) : r.Ranged := by
  have total := built.logTotLen short
  rw [length_text] at total
  obtain ⟨txnId, lsn, prevLsn, insertValue, rid, tableName, tid, atLsn, prev, value, page, slot, name, rfl⟩ := built
  have range : IsInt (LogType.code .insert) := by decide
  exact ⟨⟨⟨range, rfl⟩, atLsn, total.trans_lt short.2, tid, prev⟩, short.1, page, slot, rfl, name⟩

end InsertLogRecord

/-- The records that have a codec of their own. -/
inductive AnyLogRecord
  | begin (r : BeginLogRecord)
  | insert (r : InsertLogRecord)
  deriving DecidableEq

namespace AnyLogRecord

def logTotLen : AnyLogRecord → Nat
  | .begin r => r.logTotLen
  | .insert r => r.logTotLen

/-- What `serialize` leaves in a buffer of `log_tot_len_` bytes. -/
def image : AnyLogRecord → Except Error (List UInt8)
  | .begin r => fill r.logTotLen r.serialize
  | .insert r => fill r.logTotLen r.serialize

/-- The header tells the kind of the record. -/
def deserialize (src : List UInt8) : Except Error AnyLogRecord := do
  let header ← LogRecord.deserialize src
  match header.logType with
  | .begin => return .begin (← BeginLogRecord.deserialize src)
  | .insert => return .insert (← InsertLogRecord.deserialize src)
  | _ => throw .undefined

def Built : AnyLogRecord → Prop
  | .begin r => r.Built
  | .insert r => r.Built ∧ r.Short

def text : AnyLogRecord → List UInt8
  | .begin r => r.text
  | .insert r => r.text

variable {r : AnyLogRecord} {src : List UInt8}

theorem image_built (built : r.Built) : r.image = .ok r.text := by
  cases r with
  | begin r => exact (LogRecord.writes r.toLogRecord).fill (by rw [LogRecord.length_text, built.logTotLen])
  | insert r =>
    obtain ⟨built, short⟩ := built
    exact (InsertLogRecord.writes (built.ranged short)).fill (built.logTotLen short).symm

theorem length_built (built : r.Built) : r.logTotLen = r.text.length ∧ 0 < r.logTotLen := by
  cases r with
  | begin r =>
    rw [logTotLen, text, LogRecord.length_text, built.logTotLen]
    decide
  | insert r =>
    obtain ⟨built, short⟩ := built
    have total := built.logTotLen short
    have length := InsertLogRecord.length_text r
    exact ⟨total, by rw [logTotLen]; omega⟩

theorem reads (built : r.Built) (holds : Holds src 0 r.text) : deserialize src = .ok r := by
  cases r with
  | begin r =>
    have ranged := built.ranged
    have type : r.logType = .begin := by
      obtain ⟨_, _, _, _, _, _, rfl⟩ := built
      rfl
    rw [deserialize, LogRecord.reads ranged holds, ok_bind, type]
    simp only
    rw [BeginLogRecord.reads ranged holds]
    rfl
  | insert r =>
    obtain ⟨built, short⟩ := built
    have ranged := built.ranged short
    have type : r.logType = .insert := by
      obtain ⟨_, _, _, _, _, _, _, _, _, _, _, _, _, rfl⟩ := built
      rfl
    rw [deserialize, LogRecord.reads ranged.header holds.left, ok_bind, type]
    simp only
    rw [InsertLogRecord.reads ranged holds]
    rfl

end AnyLogRecord

/-- Every begin record, and every insert record whose length fits, is written in exactly `log_tot_len_` bytes and
read back from them; a row of such records is taken apart again by these lengths. -/
theorem log_records_round_trip :
    (∀ r : BeginLogRecord, r.Built → RoundTrips r.logTotLen r.serialize BeginLogRecord.deserialize r) ∧
      (∀ r : InsertLogRecord, r.Built → r.Short →
        RoundTrips r.logTotLen r.serialize InsertLogRecord.deserialize r) ∧
      ∀ records : List AnyLogRecord, (∀ r ∈ records, r.Built) →
        ∃ images, records.mapM AnyLogRecord.image = .ok images ∧
          split .undefined AnyLogRecord.deserialize AnyLogRecord.logTotLen images.flatten.length images.flatten =
            .ok records := by
  refine ⟨fun r built => ?_, fun r built short => ?_, fun records built => ?_⟩
  · have trips := (LogRecord.writes r.toLogRecord).roundTrips fun src => BeginLogRecord.reads (r := r) built.ranged
    rw [LogRecord.length_text] at trips
    rw [built.logTotLen]
    exact trips
  · have ranged := built.ranged short
    rw [built.logTotLen short]
    exact (InsertLogRecord.writes ranged).roundTrips fun src => InsertLogRecord.reads ranged
  · refine ⟨_, mapM_of_ok fun r member => AnyLogRecord.image_built (built r member), ?_⟩
    rw [← List.flatMap_def]
    refine split_flatMap (fun r member => ?_) _ le_rfl
    obtain ⟨length, positive⟩ := AnyLogRecord.length_built (built r member)
    exact ⟨length, positive, fun trailing => AnyLogRecord.reads (built r member) (.front _ trailing)⟩

/-- The insertion of three bytes into a table `ab`. -/
def insertion : InsertLogRecord := InsertLogRecord.new 7 [1, 2, 3] ⟨1, 0⟩ [97, 98]

theorem log_records_round_trip_insertion :
    RoundTrips 45 insertion.serialize InsertLogRecord.deserialize insertion :=
  log_records_round_trip.2.1 insertion ⟨7, -1, -1, [1, 2, 3], ⟨1, 0⟩, [97, 98], by decide⟩ ⟨by decide, by decide⟩

/-- With a name of 4294967256 characters the length wraps to zero. -/
theorem log_records_round_trip_overflow :
    ¬∀ r : InsertLogRecord, r.Built → RoundTrips r.logTotLen r.serialize InsertLogRecord.deserialize r := by
  intro trips
  obtain ⟨name, length⟩ : ∃ name : List UInt8, name.length = 4294967256 :=
    ⟨List.replicate 4294967256 97, List.length_replicate⟩
  have built : (InsertLogRecord.new 7 [] ⟨1, 0⟩ name).Built :=
    ⟨7, -1, -1, [], ⟨1, 0⟩, name, by decide, by decide, by decide, by decide, by decide, by decide, by omega, rfl⟩
  have zero : (InsertLogRecord.new 7 [] ⟨1, 0⟩ name).logTotLen = 0 := by
    simp only [InsertLogRecord.new, wrapUInt32, length]
    decide
  obtain ⟨bytes, size, _, reads⟩ := trips _ built
  rw [zero] at size
  have empty : bytes = [] := List.length_eq_zero_iff.mp (Int.natCast_eq_zero.mp size)
  subst empty
  exact nomatch reads []

end Rmdb
