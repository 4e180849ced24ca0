import WasmDbms.Migration.StoredValue

/-!
# The record codec of migrations

Records are read and written by the columns of a snapshot. The bytes are those the
derived `Encode` implementation of the table type writes field by field.
-/
namespace WasmDbms
open ByteString Result

section Codec
variable {D J : Type} (formats : Formats D J)

def identityError {α : Type} (message : String) : Except Fault α :=
  .error (.error (.decodeError (.identityDecodeError message)))

/-- `decode_fixed`. -/
def decodeFixed {α : Type} (decode : List UInt8 → Except Fault α) (bytes : List UInt8) (size : ℕ) :
    Except Fault (α × ℕ) := do
  if bytes.length < size then truncated
  else
    let slice ← sliceTo bytes size
    let value ← decode slice
    return (value, size)

/-- The bytes of a value with a length prefix, the prefix included. -/
def prefixedSlice (bytes : List UInt8) : Except Fault (List UInt8) := do
  if bytes.length < 2 then truncated
  else
    let len ← decodeLength bytes
    if bytes.length < 2 + len then truncated
    else sliceTo bytes (2 + len)

/-- `decode_length_prefixed`. -/
def decodeLengthPrefixed {α : Type} (decode : List UInt8 → Except Fault α) (bytes : List UInt8) :
    Except Fault (α × ℕ) := do
  let slice ← prefixedSlice bytes
  let value ← decode slice
  return (value, slice.length)

/-- The bytes of a value of a custom type. -/
def customSlice (wireSize : WireSize) (bytes : List UInt8) : Except Fault (List UInt8) :=
  match wireSize with
  | .fixed size => if bytes.length < size then truncated else sliceTo bytes size
  | .lengthPrefixed => prefixedSlice bytes

def decodeCustom (type : CustomDataTypeSnapshot) (bytes : List UInt8) : Except Fault (StoredValue D J × ℕ) := do
  let slice ← customSlice type.wireSize bytes
  return (.custom ⟨type.tag, slice, ""⟩, slice.length)

/-- `decode_non_nullable`. -/
def decodeNonNullable (dt : DataTypeSnapshot) (bytes : List UInt8) : Except Fault (StoredValue D J × ℕ) :=
  match dt with
  | .int8 => decodeFixed (decodeInt 1 fun n => .int8 (UInt8.ofNat n).toInt8) bytes 1
  | .uint8 => decodeFixed (decodeInt 1 fun n => .uint8 (UInt8.ofNat n)) bytes 1
  | .boolean => decodeFixed (fun data => .boolean <$> decodeBoolean data) bytes 1
  | .int16 => decodeFixed (decodeInt 2 fun n => .int16 (UInt16.ofNat n).toInt16) bytes 2
  | .uint16 => decodeFixed (decodeInt 2 fun n => .uint16 (UInt16.ofNat n)) bytes 2
  | .int32 => decodeFixed (decodeInt 4 fun n => .int32 (UInt32.ofNat n).toInt32) bytes 4
  | .uint32 => decodeFixed (decodeInt 4 fun n => .uint32 (UInt32.ofNat n)) bytes 4
  | .date => decodeFixed (fun data => .date <$> Date.decode data) bytes 4
  | .int64 => decodeFixed (decodeInt 8 fun n => .int64 (UInt64.ofNat n).toInt64) bytes 8
  | .uint64 => decodeFixed (decodeInt 8 fun n => .uint64 (UInt64.ofNat n)) bytes 8
  | .datetime => decodeFixed (fun data => .dateTime <$> DateTime.decode data) bytes 13
  | .decimal => decodeFixed (fun data => .decimal <$> decodeDecimal formats data) bytes 16
  | .uuid => decodeFixed (fun data => .uuid <$> decodeUuid data) bytes 16
  | .text => decodeLengthPrefixed (fun data => .text <$> decodeText data) bytes
  | .blob => decodeLengthPrefixed (fun data => .blob <$> decodePayload data) bytes
  | .json => decodeLengthPrefixed (fun data => .json <$> decodeJson formats data) bytes
  | .custom type => decodeCustom type bytes
  | .float32 | .float64 =>
      identityError s!"Float types are not yet wired into the snapshot codec: {formats.debugType dt}"

/-- `{v:#x}`. -/
def hex (v : UInt8) : String := s!"0x{String.ofList (Nat.toDigits 16 v.toNat)}"

def decodeColumn (dt : DataTypeSnapshot) (nullable : Bool) (bytes : List UInt8) :
    Except Fault (StoredValue D J × ℕ) :=
  if nullable then
    if bytes.isEmpty then truncated
    else do
      let flag ← byteAt bytes 0
      if flag = 0 then return (.null, 1)
      else if flag = 1 then
        let body ← sliceFrom bytes 1
        let (value, consumed) ← decodeNonNullable formats dt body
        return (value, 1 + consumed)
      else identityError s!"Invalid nullable flag: {hex flag}"
  else decodeNonNullable formats dt bytes

/-- The loop of `decode_record_by_snapshot`. -/
def decodeColumns (bytes : List UInt8) : List (ColumnSnapshot (StoredValue D J)) → ℕ →
    Except Fault (List (String × StoredValue D J))
  | [], _ => .ok []
  | col :: cols, offset =>
      if offset > bytes.length then truncated
      else do
        let rest ← sliceFrom bytes offset
        let (value, consumed) ← decodeColumn formats col.dataType col.nullable rest
        let later ← decodeColumns bytes cols (offset + consumed)
        return (col.name, value) :: later

def decodeRecordBySnapshot (bytes : List UInt8) (snapshot : TableSchemaSnapshot (StoredValue D J)) :
    Except Fault (List (String × StoredValue D J)) :=
  decodeColumns formats bytes snapshot.columns 0

/-- `encode_non_nullable`. -/
def encodeNonNullable (dt : DataTypeSnapshot) (value : StoredValue D J) : Except Fault (List UInt8) :=
  match dt, value with
  | .int8, .int8 _ | .uint8, .uint8 _ | .boolean, .boolean _ | .int16, .int16 _ | .uint16, .uint16 _
  | .int32, .int32 _ | .uint32, .uint32 _ | .date, .date _ | .int64, .int64 _ | .uint64, .uint64 _
  | .datetime, .dateTime _ | .decimal, .decimal _ | .uuid, .uuid _ | .text, .text _ | .blob, .blob _
  | .json, .json _ | .custom _, .custom _ => .ok (value.encode formats)
  | .float32, _ | .float64, _ =>
      identityError s!"Float types are not yet wired into the snapshot codec: {formats.debugType dt}"
  | dt, value =>
      identityError
        s!"Value variant does not match data type: {formats.debugType dt} vs {formats.debugValue value}"

def encodeColumn (dt : DataTypeSnapshot) (nullable : Bool) (value : StoredValue D J) : Except Fault (List UInt8) :=
  match nullable, value with
  | true, .null => .ok [0]
  | true, value => (1 :: ·) <$> encodeNonNullable formats dt value
  | false, .null => identityError "Value::Null in non-nullable column"
  | false, value => encodeNonNullable formats dt value

/-- The loop of `encode_record_by_snapshot`. -/
def encodeColumns : List (ColumnSnapshot (StoredValue D J)) → List (String × StoredValue D J) →
    Except Fault (List UInt8)
  | col :: cols, (name, value) :: values =>
      if col.name = name then do
        let code ← encodeColumn formats col.dataType col.nullable value
        let rest ← encodeColumns cols values
        return code ++ rest
      else identityError s!"value name `{name}` does not match column `{col.name}`"
  | _, _ => .ok []

def encodeRecordBySnapshot (values : List (String × StoredValue D J))
    (snapshot : TableSchemaSnapshot (StoredValue D J)) : Except Fault (List UInt8) :=
  if values.length ≠ snapshot.columns.length then
    identityError
      s!"value count ({values.length}) does not match column count ({snapshot.columns.length})"
  else encodeColumns formats snapshot.columns values

end Codec

/-! ## Rows of a table type -/

section Rows
variable {D J : Type}

/-- The values of a type. -/
inductive FieldType.Holds : FieldType → StoredValue D J → Prop
  | blob (bytes : List UInt8) : Holds .blob (.blob bytes)
  | boolean (b : Bool) : Holds .boolean (.boolean b)
  | custom {tag : String} {encoding : Encoding} {code : List UInt8} (display : String)
      (made : code ∈ encoding.codes) : Holds (.custom tag encoding) (.custom ⟨tag, code, display⟩)
  | date (d : Date) : Holds .date (.date d)
  | dateTime (d : DateTime) : Holds .dateTime (.dateTime d)
  | decimal (d : D) : Holds .decimal (.decimal d)
  | int8 (i : Int8) : Holds .int8 (.int8 i)
  | int16 (i : Int16) : Holds .int16 (.int16 i)
  | int32 (i : Int32) : Holds .int32 (.int32 i)
  | int64 (i : Int64) : Holds .int64 (.int64 i)
  | json (j : Json J) : Holds .json (.json j)
  | text (s : String) : Holds .text (.text s)
  | uint8 (n : UInt8) : Holds .uint8 (.uint8 n)
  | uint16 (n : UInt16) : Holds .uint16 (.uint16 n)
  | uint32 (n : UInt32) : Holds .uint32 (.uint32 n)
  | uint64 (n : UInt64) : Holds .uint64 (.uint64 n)
  | uuid (bytes : {bytes : List UInt8 // bytes.length = 16}) : Holds .uuid (.uuid bytes)

/-- The values of a field: those of its type, and `Null` if it is nullable. -/
inductive Field.Holds (field : Field (StoredValue D J)) : StoredValue D J → Prop
  | value {v : StoredValue D J} (typed : field.type.Holds v) : Field.Holds field v
  | null (nullable : field.nullable = true) : Field.Holds field .null

/-- A row of a table type: a value for each field. -/
structure TableType.Record (table : TableType (StoredValue D J)) where
  values : List (StoredValue D J)
  typed : List.Forall₂ Field.Holds table.fields values

/-- `encode` of the type of a field. -/
def Field.encode (formats : Formats D J) (field : Field (StoredValue D J)) (v : StoredValue D J) : List UInt8 :=
  if field.nullable then
    match v with
    | .null => [0]
    | v => 1 :: v.encode formats
  else v.encode formats

/-- The body of `impl_encode`: the fields one after the other. -/
def encodeFields (formats : Formats D J) : List (Field (StoredValue D J)) → List (StoredValue D J) → List UInt8
  | field :: fields, v :: values => field.encode formats v ++ encodeFields formats fields values
  | _, _ => []

namespace TableType.Record
variable {table : TableType (StoredValue D J)}

/-- `encode`. -/
def encode (formats : Formats D J) (row : Record table) : List UInt8 := encodeFields formats table.fields row.values

/-- The names and values of `to_values`. -/
def toValues (row : Record table) : List (String × StoredValue D J) := (table.fields.map Field.name).zip row.values

end TableType.Record
end Rows

/-! ## Decoding returns -/

section Returns
variable {D J : Type} (formats : Formats D J)

theorem decodeFixed_returns {α : Type} {decode : List UInt8 → Except Fault α} (each : ∀ data, Returns (decode data))
    (bytes : List UInt8) (size : ℕ) : Returns (decodeFixed decode bytes size) := by
  unfold decodeFixed
  split
  next => exact .error
  next long =>
    refine .bind (sliceTo_returns (by omega)) fun slice _ => ?_
    exact .bind (each slice) fun _ _ => .ok

theorem prefixedSlice_returns (bytes : List UInt8) : Returns (prefixedSlice bytes) := by
  unfold prefixedSlice
  split
  next => exact .error
  next two =>
    refine .bind (.map (bytesAt_returns (by omega))) fun len _ => ?_
    split
    next => exact .error
    next long => exact sliceTo_returns (by omega)

theorem decodeLengthPrefixed_returns {α : Type} {decode : List UInt8 → Except Fault α}
    (each : ∀ data, Returns (decode data)) (bytes : List UInt8) : Returns (decodeLengthPrefixed decode bytes) := by
  refine .bind (prefixedSlice_returns bytes) fun slice _ => ?_
  exact .bind (each slice) fun _ _ => .ok

theorem decodeCustom_returns (type : CustomDataTypeSnapshot) (bytes : List UInt8) :
    Returns (decodeCustom type bytes : Except Fault (StoredValue D J × ℕ)) := by
  have slice : Returns (customSlice type.wireSize bytes) := by
    unfold customSlice
    split
    next size _ =>
      split
      next => exact .error
      next long => exact sliceTo_returns (by omega)
    next => exact prefixedSlice_returns bytes
  exact slice.bind fun _ _ => .ok

theorem decodeNonNullable_returns (dt : DataTypeSnapshot) (bytes : List UInt8) :
    Returns (decodeNonNullable formats dt bytes) := by
  cases dt with
  | int8 | uint8 | int16 | uint16 | int32 | uint32 | int64 | uint64 =>
      exact decodeFixed_returns (decodeInt_returns _ _) bytes _
  | boolean => exact decodeFixed_returns (fun data => .map (decodeBoolean_returns data)) bytes 1
  | date => exact decodeFixed_returns (fun data => .map (Date.decode_returns data)) bytes 4
  | datetime => exact decodeFixed_returns (fun data => .map (DateTime.decode_returns data)) bytes 13
  | decimal => exact decodeFixed_returns (fun data => .map (decodeDecimal_returns formats data)) bytes 16
  | uuid => exact decodeFixed_returns (fun data => .map (decodeUuid_returns data)) bytes 16
  | text => exact decodeLengthPrefixed_returns (fun data => .map (decodeText_returns data)) bytes
  | blob => exact decodeLengthPrefixed_returns (fun data => .map (decodePayload_returns data)) bytes
  | json => exact decodeLengthPrefixed_returns (fun data => .map (decodeJson_returns formats data)) bytes
  | custom type => exact decodeCustom_returns type bytes
  | float32 | float64 => exact .error

theorem decodeColumn_returns (dt : DataTypeSnapshot) (nullable : Bool) (bytes : List UInt8) :
    Returns (decodeColumn formats dt nullable bytes) := by
  unfold decodeColumn
  split
  next =>
    split
    next => exact .error
    next some_ =>
      rw [List.isEmpty_iff] at some_
      have long := List.length_pos_iff.mpr some_
      refine .bind (byteAt_returns long) fun flag _ => ?_
      split
      · exact .ok
      · split
        · refine .bind (sliceFrom_returns long) fun body _ => ?_
          exact .bind (decodeNonNullable_returns formats dt body) fun _ _ => .ok
        · exact .error
  next => exact decodeNonNullable_returns formats dt bytes

theorem decodeColumns_returns (bytes : List UInt8) (columns : List (ColumnSnapshot (StoredValue D J))) (offset : ℕ) :
    Returns (decodeColumns formats bytes columns offset) := by
  induction columns generalizing offset with
  | nil => exact .ok
  | cons col cols ih =>
      rw [decodeColumns]
      split
      next => exact .error
      next inside =>
        refine .bind (sliceFrom_returns (by omega)) fun rest _ => ?_
        refine .bind (decodeColumn_returns formats _ _ rest) fun decoded _ => ?_
        exact .bind (ih (offset + decoded.2)) fun _ _ => .ok

/-- Reading a record never panics, whatever its bytes are. -/
theorem decodeRecordBySnapshot_returns (bytes : List UInt8) (snapshot : TableSchemaSnapshot (StoredValue D J)) :
    Returns (decodeRecordBySnapshot formats bytes snapshot) :=
  decodeColumns_returns formats bytes snapshot.columns 0

end Returns

/-! ## The two codecs agree -/

/-- The encoding is its length, in two bytes, and as many bytes. -/
def Delimited (code : List UInt8) : Prop := code.length = 2 + ofLE (code.take 2)

instance (code : List UInt8) : Decidable (Delimited code) := inferInstanceAs (Decidable (_ = _))

theorem encodePayload_delimited {payload : List UInt8} (small : payload.length ≤ msizeMax) :
    Delimited (encodePayload payload) := by
  rw [Delimited, encodePayload_length, encodePayload, List.take_left' (lengthPrefix_length _),
    ofLE_lengthPrefix small]

theorem prefixedSlice_eq_ok {bytes slice : List UInt8} :
    prefixedSlice bytes = .ok slice ↔
      2 + ofLE (bytes.take 2) ≤ bytes.length ∧ slice = bytes.take (2 + ofLE (bytes.take 2)) := by
  unfold prefixedSlice
  by_cases short : bytes.length < 2
  · rw [if_pos short]
    constructor
    · intro made
      cases made
    · intro inside
      omega
  · have length : decodeLength bytes = .ok (ofLE (bytes.take 2)) := by
      rw [decodeLength, bytesAt_eq (by omega), List.drop_zero]
      rfl
    rw [if_neg short, length]
    simp only [bind, Except.bind]
    by_cases long : bytes.length < 2 + ofLE (bytes.take 2)
    · rw [if_pos long]
      constructor
      · intro made
        cases made
      · intro inside
        omega
    · rw [if_neg long, sliceTo_eq (by omega)]
      constructor
      · intro made
        cases made
        exact ⟨by omega, rfl⟩
      · rintro ⟨_, rfl⟩
        rfl

/-- A value is cut out of a record by its length prefix if and only if it has one. -/
theorem prefixedSlice_append {code rest : List UInt8} :
    prefixedSlice (code ++ rest) = .ok code ↔ Delimited code := by
  rw [prefixedSlice_eq_ok, Delimited]
  constructor
  · rintro ⟨inside, cut⟩
    have length := congrArg List.length cut
    rw [List.length_take, Nat.min_eq_left inside] at length
    rw [List.take_append_of_le_length (by omega)] at length
    exact length
  · intro delimited
    have two : (code ++ rest).take 2 = code.take 2 := List.take_append_of_le_length (by omega)
    rw [two, ← delimited, List.take_left, List.length_append]
    exact ⟨Nat.le_add_right _ _, rfl⟩

theorem decodeFixed_append {α : Type} {decode : List UInt8 → Except Fault α} {code : List UInt8} {size : ℕ} {a : α}
    (length : code.length = size) (decoded : decode code = .ok a) (rest : List UInt8) :
    decodeFixed decode (code ++ rest) size = .ok (a, code.length) := by
  have inside : size ≤ (code ++ rest).length := by
    rw [List.length_append]
    omega
  rw [decodeFixed, if_neg (by omega), sliceTo_eq inside, List.take_left' length]
  simp only [bind, Except.bind, decoded]
  rw [length]
  rfl

theorem decodeLengthPrefixed_append {α : Type} {decode : List UInt8 → Except Fault α} {code : List UInt8}
    (delimited : Delimited code) (rest : List UInt8) :
    decodeLengthPrefixed decode (code ++ rest) = (fun a => (a, code.length)) <$> decode code := by
  rw [decodeLengthPrefixed, prefixedSlice_append.mpr delimited]
  simp only [bind, Except.bind]
  cases decode code with
  | ok a => rfl
  | error e => rfl

section Agreement
variable {D J : Type} (formats : Formats D J)

/-- The value is read back from its encoding: a document is what the parser makes of its
text, and the encoding of a dynamic custom type is delimited. -/
def StoredValue.ReadsBack (type : FieldType) : StoredValue D J → Prop
  | .json j => formats.parse j.repr = .ok j.value
  | .custom value => type.dataSize = .dynamic → Delimited value.encoded
  | _ => True

/-- Reading a value that is followed by other bytes. -/
theorem decodeNonNullable_append {type : FieldType} {v : StoredValue D J} (typed : type.Holds v)
    (fits : (v.encode formats).length ≤ pageSize) (reads : v.ReadsBack formats type) (rest : List UInt8) :
    decodeNonNullable formats type.snapshot (v.encode formats ++ rest) =
      .ok (v.withoutDisplay, (v.encode formats).length) := by
  have payload : ∀ {p : List UInt8}, (encodePayload p).length ≤ pageSize → p.length ≤ msizeMax := by
    intro p inside
    rw [encodePayload_length, pageSize_eq] at inside
    unfold msizeMax
    omega
  cases typed with
  | blob bytes =>
      refine (decodeLengthPrefixed_append (encodePayload_delimited (payload fits)) rest).trans ?_
      rw [decodePayload_encode (payload fits)]
      rfl
  | text s =>
      refine (decodeLengthPrefixed_append (encodePayload_delimited (payload fits)) rest).trans ?_
      rw [decodeText_encode (payload fits)]
      rfl
  | json j =>
      refine (decodeLengthPrefixed_append (encodePayload_delimited (payload fits)) rest).trans ?_
      rw [decodeJson_encode formats (payload fits), parseJson, reads]
      rfl
  | boolean b => exact decodeFixed_append rfl (congrArg (StoredValue.boolean <$> ·) (decodeBoolean_encode b)) rest
  | date d => exact decodeFixed_append rfl (congrArg (StoredValue.date <$> ·) (Date.decode_encode d)) rest
  | dateTime d => exact decodeFixed_append rfl (congrArg (StoredValue.dateTime <$> ·) (DateTime.decode_encode d)) rest
  | decimal d =>
      have back := congrArg (StoredValue.decimal (J := J) <$> ·) (decodeDecimal_encode formats d)
      exact decodeFixed_append (formats.serialize_length d) back rest
  | uuid bytes =>
      exact decodeFixed_append bytes.2 (congrArg (StoredValue.uuid <$> ·) (decodeUuid_encode bytes)) rest
  | int8 i =>
      refine decodeFixed_append rfl ((decodeInt_toLE _ i.toUInt8.toNat_lt).trans ?_) rest
      rw [UInt8.ofNat_toNat]
      rfl
  | int16 i =>
      refine decodeFixed_append rfl ((decodeInt_toLE _ i.toUInt16.toNat_lt).trans ?_) rest
      rw [UInt16.ofNat_toNat]
      rfl
  | int32 i =>
      refine decodeFixed_append rfl ((decodeInt_toLE _ i.toUInt32.toNat_lt).trans ?_) rest
      rw [UInt32.ofNat_toNat]
      rfl
  | int64 i =>
      refine decodeFixed_append rfl ((decodeInt_toLE _ i.toUInt64.toNat_lt).trans ?_) rest
      rw [UInt64.ofNat_toNat]
      rfl
  | uint8 n =>
      refine decodeFixed_append rfl ((decodeInt_toLE _ n.toNat_lt).trans ?_) rest
      rw [UInt8.ofNat_toNat]
      rfl
  | uint16 n =>
      refine decodeFixed_append rfl ((decodeInt_toLE _ n.toNat_lt).trans ?_) rest
      rw [UInt16.ofNat_toNat]
      rfl
  | uint32 n =>
      refine decodeFixed_append rfl ((decodeInt_toLE _ n.toNat_lt).trans ?_) rest
      rw [UInt32.ofNat_toNat]
      rfl
  | uint64 n =>
      refine decodeFixed_append rfl ((decodeInt_toLE _ n.toNat_lt).trans ?_) rest
      rw [UInt64.ofNat_toNat]
      rfl
  | @custom tag encoding code display made =>
      have cut : customSlice (.fromDataSize encoding.dataSize) (code ++ rest) = .ok code := by
        cases size : encoding.dataSize with
        | fixed n =>
            have length := encoding.fixed n size code made
            have inside : n ≤ (code ++ rest).length := by
              rw [List.length_append]
              omega
            rw [WireSize.fromDataSize, customSlice, if_neg (by omega), sliceTo_eq inside, List.take_left' length]
        | dynamic => exact prefixedSlice_append.mpr (reads size)
      show decodeCustom _ (code ++ rest) = _
      rw [decodeCustom, cut]
      rfl

theorem readsBack_of_decode {type : FieldType} {v : StoredValue D J} (typed : type.Holds v)
    (fits : (v.encode formats).length ≤ pageSize) {rest : List UInt8} {n : ℕ}
    (decoded : decodeNonNullable formats type.snapshot (v.encode formats ++ rest) = .ok (v.withoutDisplay, n)) :
    v.ReadsBack formats type := by
  cases typed with
  | json j =>
      have small : (utf8 j.repr).length ≤ msizeMax := by
        rw [StoredValue.encode, encodePayload_length, pageSize_eq] at fits
        unfold msizeMax
        omega
      have reads : decodeLengthPrefixed (fun data => StoredValue.json (D := D) <$> decodeJson formats data)
          (encodePayload (utf8 j.repr) ++ rest) = _ := decodeLengthPrefixed_append (encodePayload_delimited small) rest
      have parsed := reads.symm.trans decoded
      rw [decodeJson_encode formats small] at parsed
      unfold parseJson at parsed
      split at parsed
      next value same =>
        obtain ⟨document, _⟩ := Prod.mk.inj (Except.ok.inj parsed)
        exact same.trans (congrArg (fun j => Except.ok (Json.value j)) (StoredValue.json.inj document))
      next => cases parsed
  | @custom tag encoding code display made =>
      intro dynamic
      have cut : decodeCustom ⟨tag, .fromDataSize encoding.dataSize⟩ (code ++ rest) =
          .ok ((.custom ⟨tag, code, ""⟩ : StoredValue D J), n) := decoded
      obtain ⟨slice, sliced, made⟩ := bind_eq_ok.mp cut
      cases made
      rw [show encoding.dataSize = .dynamic from dynamic] at sliced
      exact prefixedSlice_append.mp sliced
  | _ => trivial

theorem FieldType.Holds.ne_null {type : FieldType} {v : StoredValue D J} (typed : type.Holds v) : v ≠ .null := by
  cases typed <;> exact nofun

theorem Field.encode_value {field : Field (StoredValue D J)} {v : StoredValue D J} (some_ : v ≠ .null)
    (nullable : field.nullable = true) : field.encode formats v = 1 :: v.encode formats := by
  unfold Field.encode
  rw [if_pos nullable]
  cases v with
  | null => exact absurd rfl some_
  | _ => rfl

theorem Field.encode_plain {field : Field (StoredValue D J)} {v : StoredValue D J} (plain : field.nullable = false) :
    field.encode formats v = v.encode formats := by
  unfold Field.encode
  rw [plain]
  rfl

theorem encodeNonNullable_eq {type : FieldType} {v : StoredValue D J} (typed : type.Holds v) :
    encodeNonNullable formats type.snapshot v = .ok (v.encode formats) := by
  cases typed <;> rfl

/-- A field is written as its column is. -/
theorem encodeColumn_eq {field : Field (StoredValue D J)} {v : StoredValue D J} (held : field.Holds v) :
    encodeColumn formats field.type.snapshot field.nullable v = .ok (field.encode formats v) := by
  cases held with
  | null nullable =>
      rw [nullable, Field.encode, if_pos nullable]
      rfl
  | value typed =>
      have code := encodeNonNullable_eq formats typed
      cases nullable : field.nullable with
      | true =>
          rw [Field.encode_value formats typed.ne_null nullable]
          cases v with
          | null => exact absurd rfl typed.ne_null
          | _ => exact congrArg ((1 :: ·) <$> ·) code
      | false =>
          rw [Field.encode_plain formats nullable]
          cases v with
          | null => exact absurd rfl typed.ne_null
          | _ => exact code

theorem decodeColumn_flag (dt : DataTypeSnapshot) (body : List UInt8) :
    decodeColumn formats dt true (1 :: body) = (fun decoded => (decoded.1, 1 + decoded.2)) <$> decodeNonNullable formats dt body := by
  have inside : 1 ≤ (1 :: body).length := Nat.succ_le_succ (Nat.zero_le _)
  unfold decodeColumn
  rw [if_pos rfl, if_neg (by simp), byteAt, List.getElem?_cons_zero]
  simp only [bind, Except.bind, sliceFrom, if_pos inside, List.drop_succ_cons, List.drop_zero]
  cases decodeNonNullable formats dt body <;> rfl

/-- Reading the column of a field that is followed by others. -/
theorem decodeColumn_append {field : Field (StoredValue D J)} {v : StoredValue D J} (held : field.Holds v)
    (fits : (field.encode formats v).length ≤ pageSize) (reads : v.ReadsBack formats field.type) (rest : List UInt8) :
    decodeColumn formats field.type.snapshot field.nullable (field.encode formats v ++ rest) =
      .ok (v.withoutDisplay, (field.encode formats v).length) := by
  cases held with
  | null nullable =>
      rw [nullable, Field.encode, if_pos nullable]
      rfl
  | value typed =>
      cases nullable : field.nullable with
      | true =>
          rw [Field.encode_value formats typed.ne_null nullable] at fits ⊢
          rw [List.length_cons] at fits ⊢
          rw [List.cons_append, decodeColumn_flag, decodeNonNullable_append formats typed (by omega) reads rest, Nat.add_comm]
          rfl
      | false =>
          rw [Field.encode_plain formats nullable] at fits ⊢
          exact decodeNonNullable_append formats typed fits reads rest

theorem readsBack_of_column {field : Field (StoredValue D J)} {v : StoredValue D J} (held : field.Holds v)
    (fits : (field.encode formats v).length ≤ pageSize) {rest : List UInt8} {n : ℕ}
    (decoded : decodeColumn formats field.type.snapshot field.nullable (field.encode formats v ++ rest) =
      .ok (v.withoutDisplay, n)) : v.ReadsBack formats field.type := by
  cases held with
  | null nullable => trivial
  | value typed =>
      cases nullable : field.nullable with
      | true =>
          rw [Field.encode_value formats typed.ne_null nullable] at decoded fits
          rw [List.length_cons] at fits
          rw [nullable, List.cons_append, decodeColumn_flag] at decoded
          obtain ⟨⟨w, m⟩, body, made⟩ := map_eq_ok.mp decoded
          cases (Prod.mk.inj made).1
          exact readsBack_of_decode formats typed (by omega) body
      | false =>
          rw [Field.encode_plain formats nullable] at decoded fits
          rw [nullable] at decoded
          exact readsBack_of_decode formats typed fits decoded

/-- The columns of fields with their values, and the values that are read back. -/
def readValues (fields : List (Field (StoredValue D J))) (values : List (StoredValue D J)) :
    List (String × StoredValue D J) :=
  (fields.map Field.name).zip (values.map StoredValue.withoutDisplay)

/-- The values of the fields are read back. -/
def ReadBack (fields : List (Field (StoredValue D J))) (values : List (StoredValue D J)) : Prop :=
  ∀ entry ∈ fields.zip values, entry.2.ReadsBack formats entry.1.type

theorem encodeColumns_eq {fields : List (Field (StoredValue D J))} {values : List (StoredValue D J)}
    (typed : List.Forall₂ Field.Holds fields values) :
    encodeColumns formats (fields.map TableType.columnSnapshot) ((fields.map Field.name).zip values) =
      .ok (encodeFields formats fields values) := by
  induction typed with
  | nil => rfl
  | @cons field v fields values held typed ih =>
      have named : (TableType.columnSnapshot field).name = field.name := rfl
      rw [List.map_cons, List.map_cons, List.zip_cons_cons, encodeColumns, if_pos named]
      simp only [bind, Except.bind, TableType.columnSnapshot, encodeColumn_eq formats held]
      rw [ih]
      rfl

/-- The columns of a record are read back if and only if each of its values is. -/
theorem decodeColumns_append {fields : List (Field (StoredValue D J))} {values : List (StoredValue D J)}
    (typed : List.Forall₂ Field.Holds fields values) (before : List UInt8)
    (fits : (encodeFields formats fields values).length ≤ pageSize) :
    decodeColumns formats (before ++ encodeFields formats fields values) (fields.map TableType.columnSnapshot)
        before.length = .ok (readValues fields values) ↔
      ReadBack formats fields values := by
  induction typed generalizing before with
  | nil => exact ⟨fun _ _ member => absurd member List.not_mem_nil, fun _ => rfl⟩
  | @cons field v fields values held typed ih =>
      have parts : encodeFields formats (field :: fields) (v :: values) =
          field.encode formats v ++ encodeFields formats fields values := rfl
      rw [parts, List.length_append] at fits
      have all : ReadBack formats (field :: fields) (v :: values) ↔
          v.ReadsBack formats field.type ∧ ReadBack formats fields values := by
        unfold ReadBack
        rw [List.zip_cons_cons]
        exact List.forall_mem_cons
      have later := ih (before ++ field.encode formats v) (by omega)
      rw [List.length_append, List.append_assoc] at later
      rw [parts, all, ← later, List.map_cons, decodeColumns,
        if_neg (by rw [List.length_append]; omega), sliceFrom, if_pos (by rw [List.length_append]; omega),
        List.drop_left]
      constructor
      · intro decoded
        obtain ⟨slice, sliced, decoded⟩ := bind_eq_ok.mp decoded
        cases sliced
        obtain ⟨⟨w, n⟩, first, decoded⟩ := bind_eq_ok.mp decoded
        obtain ⟨others, rest, made⟩ := bind_eq_ok.mp decoded
        obtain ⟨same, tail⟩ := List.cons.inj (Except.ok.inj made)
        cases (Prod.mk.inj same).2
        have reads := readsBack_of_column formats held (by omega) first
        have known := (decodeColumn_append formats held (by omega) reads _).symm.trans first
        cases (Prod.mk.inj (Except.ok.inj known)).2
        exact ⟨reads, rest.trans (congrArg Except.ok tail)⟩
      · rintro ⟨reads, rest⟩
        simp only [bind, Except.bind, TableType.columnSnapshot,
          decodeColumn_append formats held (by omega) reads (encodeFields formats fields values)]
        rw [rest]
        rfl

namespace TableType.Record
variable {formats} {table : TableType (StoredValue D J)}

/-- The names and values that reading the record is to give. -/
def readBack (row : Record table) : List (String × StoredValue D J) := readValues table.fields row.values

/-- The snapshot codec writes the bytes of the derived one, reads the values back, and
never panics. -/
structure CodecsAgree (formats : Formats D J) (row : Record table) : Prop where
  encoded : encodeRecordBySnapshot formats row.toValues table.schemaSnapshot = .ok (row.encode formats)
  decoded : decodeRecordBySnapshot formats (row.encode formats) table.schemaSnapshot = .ok row.readBack
  returns : ∀ bytes, Returns (decodeRecordBySnapshot formats bytes table.schemaSnapshot)

theorem encode_by_snapshot (row : Record table) :
    encodeRecordBySnapshot formats row.toValues table.schemaSnapshot = .ok (row.encode formats) := by
  have count : row.toValues.length = table.schemaSnapshot.columns.length := by
    have length := row.typed.length_eq
    unfold toValues TableType.schemaSnapshot
    rw [List.length_zip, List.length_map, List.length_map, ← length, Nat.min_self]
  unfold encodeRecordBySnapshot
  rw [if_neg (not_not_intro count)]
  exact encodeColumns_eq formats row.typed

/-- The codecs agree on a row if and only if its documents are what the parser makes of
their texts and its values of dynamic custom types are delimited. -/
theorem codecs_agree (row : Record table) (fits : (row.encode formats).length ≤ pageSize) :
    row.CodecsAgree formats ↔ ReadBack formats table.fields row.values := by
  have reads := decodeColumns_append formats row.typed [] fits
  constructor
  · intro agree
    exact reads.mp agree.decoded
  · intro each
    exact ⟨row.encode_by_snapshot, reads.mpr each, fun bytes => decodeRecordBySnapshot_returns formats bytes _⟩

end TableType.Record
end Agreement

/-! ### A struct of texts -/

namespace Contacts

/-- Decimals by their bytes, and no document but `null`. -/
def formats : Formats {bytes : List UInt8 // bytes.length = 16} Unit where
  number _ := 0
  serialize := Subtype.val
  deserialize bytes := if sixteen : bytes.length = 16 then ⟨bytes, sixteen⟩ else ⟨List.replicate 16 0, rfl⟩
  parse s := if s = "null" then .ok () else .error "expected value"
  debugType _ := ""
  debugValue _ := ""
  serialize_length d := d.2
  deserialize_serialize d := dif_pos d.2

abbrev Cell := StoredValue {bytes : List UInt8 // bytes.length = 16} Unit

/-- The encodings of `Text`. -/
def text : Encoding where
  dataSize := .dynamic
  codes := {code | ∃ s : String, code = encodePayload (utf8 s)}
  fixed _ known := by cases known

/-- `struct Address { street: Text, city: Text, zip: Text }` with `#[derive(Encode)]`. -/
def address : Encoding := .derive [text, text, text]

/-- `struct Label { name: Text }` with `#[derive(Encode)]`. -/
def label : Encoding := .derive [text]

def field (name : String) (type : FieldType) : Field Cell :=
  ⟨name, type, false, false, false, name == "id", none, none, []⟩

theorem names_nodup : ["id", "details"].Nodup := by decide

def table (type : FieldType) : TableType Cell :=
  ⟨"contacts", "id", [field "id" .uint32, field "details" type], [["id"]], none, names_nodup⟩

theorem text_mem (s : String) : encodePayload (utf8 s) ∈ text.codes := ⟨s, rfl⟩

theorem codes_address : encodePayload (utf8 "A") ++ (encodePayload (utf8 "B") ++ (encodePayload (utf8 "1") ++ [])) ∈
    address.codes :=
  .cons (text_mem "A") (.cons (text_mem "B") (.cons (text_mem "1") .nil))

theorem codes_label : encodePayload (utf8 "A") ++ [] ∈ label.codes := .cons (text_mem "A") .nil

/-- A row with an address. -/
def addressed : TableType.Record (table (.custom "address" address)) where
  values := [.uint32 7, .custom ⟨"address", _, "A, B 1"⟩]
  typed := .cons (.value (.uint32 7)) (.cons (.value (.custom "A, B 1" codes_address)) .nil)

/-- A row with a label. -/
def labelled : TableType.Record (table (.custom "label" label)) where
  values := [.uint32 7, .custom ⟨"label", _, "A"⟩]
  typed := .cons (.value (.uint32 7)) (.cons (.value (.custom "A" codes_label)) .nil)

/-- Of an address, only the street is read back. -/
theorem address_cut : ¬ addressed.CodecsAgree formats := by
  intro agree
  have cut : decodeRecordBySnapshot formats (addressed.encode formats) (table (.custom "address" address)).schemaSnapshot =
      .ok [("id", .uint32 7), ("details", .custom ⟨"address", [1, 0, 65], ""⟩)] := by rfl
  cases cut.symm.trans agree.decoded

theorem label_fits : (labelled.encode formats).length ≤ pageSize := by
  rw [pageSize_eq]
  decide

theorem label_readBack : ReadBack formats (table (.custom "label" label)).fields labelled.values :=
  List.forall_mem_cons.mpr ⟨trivial, List.forall_mem_cons.mpr
    ⟨fun _ => rfl, fun _ member => absurd member List.not_mem_nil⟩⟩

theorem label_agrees : labelled.CodecsAgree formats :=
  (TableType.Record.codecs_agree labelled label_fits).mpr label_readBack

end Contacts
end WasmDbms
