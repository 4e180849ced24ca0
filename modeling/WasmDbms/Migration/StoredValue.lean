import WasmDbms.Lib.ByteString
import WasmDbms.Lib.Result
import WasmDbms.Migration.Snapshot

/-!
# Values as records hold them

`Value` with all that the encodings use of it, and the `Encode` implementation of each
data type. A slice or an index past the end of the bytes panics.
-/
namespace WasmDbms
open ByteString Result

structure CustomValue where
  typeTag : String
  encoded : List UInt8
  display : String
  deriving DecidableEq

/-- A JSON document with the text it was made from. -/
structure Json (J : Type) where
  value : J
  repr : String
  deriving DecidableEq

/-- `Value`, with the representation of a decimal, the text of a document and the
display string of a custom value. -/
inductive StoredValue (D J : Type) where
  | blob (bytes : List UInt8)
  | boolean (b : Bool)
  | date (d : Date)
  | dateTime (d : DateTime)
  | decimal (d : D)
  | int8 (i : Int8)
  | int16 (i : Int16)
  | int32 (i : Int32)
  | int64 (i : Int64)
  | json (j : Json J)
  | null
  | text (s : String)
  | uint8 (n : UInt8)
  | uint16 (n : UInt16)
  | uint32 (n : UInt32)
  | uint64 (n : UInt64)
  | uuid (bytes : {bytes : List UInt8 // bytes.length = 16})
  | custom (value : CustomValue)
  deriving DecidableEq

/-- What the codec uses of other crates: the number and the sixteen bytes of a decimal,
the parser of JSON documents, and what `Debug` prints. -/
structure Formats (D J : Type) where
  number : D → ℚ
  serialize : D → List UInt8
  deserialize : List UInt8 → D
  parse : String → Except String J
  debugType : DataTypeSnapshot → String
  debugValue : StoredValue D J → String
  serialize_length : ∀ d, (serialize d).length = 16
  deserialize_serialize : ∀ d, deserialize (serialize d) = d

namespace StoredValue
variable {D J : Type}

def isNull : StoredValue D J → Bool
  | null => true
  | _ => false

/-- The value that is stored. -/
def toValue (formats : Formats D J) : StoredValue D J → Value J
  | blob bytes => .blob bytes
  | boolean b => .boolean b
  | date d => .date d
  | dateTime d => .dateTime d
  | decimal d => .decimal (formats.number d)
  | int8 i => .int8 i
  | int16 i => .int16 i
  | int32 i => .int32 i
  | int64 i => .int64 i
  | json j => .json j.value
  | null => .null
  | text s => .text s
  | uint8 n => .uint8 n
  | uint16 n => .uint16 n
  | uint32 n => .uint32 n
  | uint64 n => .uint64 n
  | uuid bytes => .uuid (BitVec.ofNat 128 (ofLE bytes.1.reverse))
  | custom value => .custom value.typeTag value.encoded

end StoredValue

/-- The display string of a custom value left empty. -/
def StoredValue.withoutDisplay {D J : Type} : StoredValue D J → StoredValue D J
  | .custom value => .custom { value with display := "" }
  | v => v

/-! ## Encoding -/

def utf8 (s : String) : List UInt8 := s.toUTF8.data.toList

/-- `length_prefix`. -/
def lengthPrefix (len : ℕ) : List UInt8 := toLE 2 (min len msizeMax)

/-- `encode` of `Text`, `Blob` and `Json`. -/
def encodePayload (payload : List UInt8) : List UInt8 := lengthPrefix payload.length ++ payload

def Date.encode (d : Date) : List UInt8 := toLE 2 d.year.toNat ++ [d.month, d.day]

def DateTime.encode (d : DateTime) : List UInt8 :=
  toLE 2 d.year.toNat ++ [d.month, d.day, d.hour, d.minute, d.second] ++ toLE 4 d.microsecond.toNat ++
    toLE 2 d.timezoneOffsetMinutes.toUInt16.toNat

section Encode
variable {D J : Type} (formats : Formats D J)

/-- `encode` of the type of a value, `Nullable` stripped. -/
def StoredValue.encode : StoredValue D J → List UInt8
  | .blob bytes => encodePayload bytes
  | .boolean b => [b.toUInt8]
  | .date d => d.encode
  | .dateTime d => d.encode
  | .decimal d => formats.serialize d
  | .int8 i => toLE 1 i.toUInt8.toNat
  | .int16 i => toLE 2 i.toUInt16.toNat
  | .int32 i => toLE 4 i.toUInt32.toNat
  | .int64 i => toLE 8 i.toUInt64.toNat
  | .json j => encodePayload (utf8 j.repr)
  | .null => []
  | .text s => encodePayload (utf8 s)
  | .uint8 n => toLE 1 n.toNat
  | .uint16 n => toLE 2 n.toNat
  | .uint32 n => toLE 4 n.toNat
  | .uint64 n => toLE 8 n.toNat
  | .uuid bytes => bytes.1
  | .custom value => value.encoded

end Encode

/-! ## Decoding -/

def truncated {α : Type} : Except Fault α := .error (.error (.decodeError .tooShort))

/-- `&bytes[start..]`. -/
def sliceFrom (bytes : List UInt8) (start : ℕ) : Except Fault (List UInt8) :=
  if start ≤ bytes.length then .ok (bytes.drop start) else .error .panic

/-- `&bytes[..stop]`. -/
def sliceTo (bytes : List UInt8) (stop : ℕ) : Except Fault (List UInt8) :=
  if stop ≤ bytes.length then .ok (bytes.take stop) else .error .panic

/-- `bytes[i]`. -/
def byteAt (bytes : List UInt8) (i : ℕ) : Except Fault UInt8 :=
  match bytes[i]? with
  | some b => .ok b
  | none => .error .panic

/-- `[bytes[start], .., bytes[start + len - 1]]`. -/
def bytesAt (bytes : List UInt8) (start : ℕ) : ℕ → Except Fault (List UInt8)
  | 0 => .ok []
  | len + 1 => do
      let b ← byteAt bytes start
      let rest ← bytesAt bytes (start + 1) len
      return b :: rest

/-- `String::from_utf8`. -/
def decodeUtf8 (bytes : List UInt8) : Except Fault String :=
  match String.fromUTF8? ⟨bytes.toArray⟩ with
  | some s => .ok s
  | none => .error (.error (.decodeError .utf8Error))

/-- `decode` of the integer types. -/
def decodeInt {α : Type} (width : ℕ) (make : ℕ → α) (data : List UInt8) : Except Fault α := do
  if data.length < width then truncated
  else
    let array ← sliceTo data width
    return make (ofLE array)

/-- The two bytes of a length prefix. -/
def decodeLength (data : List UInt8) : Except Fault ℕ := ofLE <$> bytesAt data 0 2

/-- `decode` of `Blob`, and of `Text` and `Json` up to the bytes of the text. -/
def decodePayload (data : List UInt8) : Except Fault (List UInt8) := do
  if data.length < 2 then truncated
  else
    let len ← decodeLength data
    if data.length < 2 + len then truncated
    else
      let all ← sliceTo data (2 + len)
      sliceFrom all 2

def decodeBoolean (data : List UInt8) : Except Fault Bool := do
  if data.isEmpty then truncated
  else
    let b ← byteAt data 0
    return b != 0

def Date.decode (data : List UInt8) : Except Fault Date := do
  if data.length < 4 then truncated
  else
    let year ← bytesAt data 0 2
    let month ← byteAt data 2
    let day ← byteAt data 3
    return ⟨UInt16.ofNat (ofLE year), month, day⟩

def DateTime.decode (data : List UInt8) : Except Fault DateTime := do
  if data.length < 13 then truncated
  else
    let year ← bytesAt data 0 2
    let month ← byteAt data 2
    let day ← byteAt data 3
    let hour ← byteAt data 4
    let minute ← byteAt data 5
    let second ← byteAt data 6
    let microsecond ← bytesAt data 7 4
    let offset ← bytesAt data 11 2
    return ⟨UInt16.ofNat (ofLE year), month, day, hour, minute, second, UInt32.ofNat (ofLE microsecond),
      (UInt16.ofNat (ofLE offset)).toInt16⟩

/-- `uuid::Uuid::from_slice`. -/
def uuidFromSlice (bytes : List UInt8) : Except Fault {bytes : List UInt8 // bytes.length = 16} :=
  if sixteen : bytes.length = 16 then .ok ⟨bytes, sixteen⟩ else .error (.error (.decodeError .uuidError))

def decodeUuid (data : List UInt8) : Except Fault {bytes : List UInt8 // bytes.length = 16} := do
  if data.length < 16 then truncated
  else
    let bytes ← sliceTo data 16
    uuidFromSlice bytes

section Decode
variable {D J : Type} (formats : Formats D J)

def decodeDecimal (data : List UInt8) : Except Fault D := do
  if data.length < 16 then truncated
  else
    let bytes ← sliceTo data 16
    return formats.deserialize bytes

/-- `decode` of `Text`. -/
def decodeText (data : List UInt8) : Except Fault String := decodePayload data >>= decodeUtf8

def parseJson (s : String) : Except Fault (Json J) :=
  match formats.parse s with
  | .ok value => .ok ⟨value, s⟩
  | .error message => .error (.error (.decodeError (.invalidJson message)))

def decodeJson (data : List UInt8) : Except Fault (Json J) := decodeText data >>= parseJson formats

end Decode

/-! ## Decoding returns -/

/-- A value or an error, no panic. -/
def Returns {α : Type} : Except Fault α → Prop
  | .ok _ | .error (.error _) => True
  | .error _ => False

section Returns
variable {α β : Type}

theorem Returns.ok {a : α} : Returns (.ok a) := trivial

theorem Returns.error {e : MemoryError} : Returns (.error (.error e) : Except Fault α) := trivial

theorem Returns.bind {x : Except Fault α} {f : α → Except Fault β} (first : Returns x)
    (later : ∀ a, x = .ok a → Returns (f a)) : Returns (x >>= f) := by
  cases x with
  | ok a => exact later a rfl
  | error e => cases e <;> exact first

theorem Returns.map {x : Except Fault α} {f : α → β} (first : Returns x) : Returns (f <$> x) := by
  cases x with
  | ok a => trivial
  | error e => cases e <;> exact first

theorem sliceFrom_returns {bytes : List UInt8} {start : ℕ} (inside : start ≤ bytes.length) :
    Returns (sliceFrom bytes start) := by
  rw [sliceFrom, if_pos inside]
  trivial

theorem sliceTo_eq {bytes : List UInt8} {stop : ℕ} (inside : stop ≤ bytes.length) :
    sliceTo bytes stop = .ok (bytes.take stop) := if_pos inside

theorem sliceTo_returns {bytes : List UInt8} {stop : ℕ} (inside : stop ≤ bytes.length) :
    Returns (sliceTo bytes stop) := by
  rw [sliceTo_eq inside]
  trivial

theorem byteAt_returns {bytes : List UInt8} {i : ℕ} (inside : i < bytes.length) : Returns (byteAt bytes i) := by
  rw [byteAt, List.getElem?_eq_getElem inside]
  trivial

theorem bytesAt_returns {bytes : List UInt8} {start len : ℕ} (inside : start + len ≤ bytes.length) :
    Returns (bytesAt bytes start len) := by
  induction len generalizing start with
  | zero => exact .ok
  | succ len ih =>
      refine .bind (byteAt_returns (by omega)) fun b _ => ?_
      exact .bind (ih (by omega)) fun _ _ => .ok

theorem decodeInt_returns (width : ℕ) (make : ℕ → α) (data : List UInt8) : Returns (decodeInt width make data) := by
  unfold decodeInt
  split
  next => exact .error
  next long => exact .bind (sliceTo_returns (by omega)) fun _ _ => .ok

theorem decodePayload_returns (data : List UInt8) : Returns (decodePayload data) := by
  unfold decodePayload
  split
  next => exact .error
  next two =>
    refine .bind (.map (bytesAt_returns (by omega))) fun len _ => ?_
    split
    next => exact .error
    next long =>
      have inside : 2 + len ≤ data.length := by omega
      refine .bind (sliceTo_returns inside) fun all made => sliceFrom_returns ?_
      rw [sliceTo_eq inside] at made
      cases made
      rw [List.length_take]
      omega

theorem decodeUtf8_returns (bytes : List UInt8) : Returns (decodeUtf8 bytes) := by
  unfold decodeUtf8
  split
  · exact .ok
  · exact .error

theorem decodeText_returns (data : List UInt8) : Returns (decodeText data) :=
  .bind (decodePayload_returns data) fun bytes _ => decodeUtf8_returns bytes

theorem decodeBoolean_returns (data : List UInt8) : Returns (decodeBoolean data) := by
  unfold decodeBoolean
  split
  next => exact .error
  next some_ =>
    rw [List.isEmpty_iff] at some_
    exact .bind (byteAt_returns (List.length_pos_iff.mpr some_)) fun _ _ => .ok

theorem Date.decode_returns (data : List UInt8) : Returns (Date.decode data) := by
  unfold Date.decode
  split
  next => exact .error
  next long =>
    refine .bind (bytesAt_returns (by omega)) fun _ _ => ?_
    refine .bind (byteAt_returns (by omega)) fun _ _ => ?_
    exact .bind (byteAt_returns (by omega)) fun _ _ => .ok

theorem DateTime.decode_returns (data : List UInt8) : Returns (DateTime.decode data) := by
  unfold DateTime.decode
  split
  next => exact .error
  next long =>
    refine .bind (bytesAt_returns (by omega)) fun _ _ => ?_
    refine .bind (byteAt_returns (by omega)) fun _ _ => ?_
    refine .bind (byteAt_returns (by omega)) fun _ _ => ?_
    refine .bind (byteAt_returns (by omega)) fun _ _ => ?_
    refine .bind (byteAt_returns (by omega)) fun _ _ => ?_
    refine .bind (byteAt_returns (by omega)) fun _ _ => ?_
    refine .bind (bytesAt_returns (by omega)) fun _ _ => ?_
    exact .bind (bytesAt_returns (by omega)) fun _ _ => .ok

theorem decodeUuid_returns (data : List UInt8) : Returns (decodeUuid data) := by
  unfold decodeUuid
  split
  next => exact .error
  next long =>
    refine .bind (sliceTo_returns (by omega)) fun bytes _ => ?_
    unfold uuidFromSlice
    split
    · exact .ok
    · exact .error

variable {D J : Type} (formats : Formats D J)

theorem decodeDecimal_returns (data : List UInt8) : Returns (decodeDecimal formats data) := by
  unfold decodeDecimal
  split
  next => exact .error
  next long => exact .bind (sliceTo_returns (by omega)) fun _ _ => .ok

theorem decodeJson_returns (data : List UInt8) : Returns (decodeJson formats data) := by
  refine .bind (decodeText_returns data) fun s _ => ?_
  unfold parseJson
  split
  · exact .ok
  · exact .error

end Returns

/-! ## Decoding what was encoded -/

section RoundTrip

theorem bytesAt_eq {bytes : List UInt8} {start len : ℕ} (inside : start + len ≤ bytes.length) :
    bytesAt bytes start len = .ok ((bytes.drop start).take len) := by
  induction len generalizing start with
  | zero => rfl
  | succ len ih =>
      have here : start < bytes.length := by omega
      rw [bytesAt, byteAt, List.getElem?_eq_getElem here, ih (by omega), List.drop_eq_getElem_cons here,
        List.take_succ_cons]
      rfl

theorem utf8_decode (s : String) : decodeUtf8 (utf8 s) = .ok s := by
  have valid : s.toUTF8.IsValidUTF8 := s.isValidUTF8
  have whole : (⟨(utf8 s).toArray⟩ : ByteArray) = s.toUTF8 := by
    rw [utf8, Array.toArray_toList]
  rw [decodeUtf8, whole, String.fromUTF8?, dif_pos valid]
  rfl

theorem decodeInt_toLE {α : Type} {width n : ℕ} (make : ℕ → α) (small : n < 256 ^ width) :
    decodeInt width make (toLE width n) = .ok (make n) := by
  have whole : (toLE width n).take width = toLE width n := List.take_of_length_le (by rw [toLE_length])
  rw [decodeInt, if_neg (by rw [toLE_length]; omega), sliceTo_eq (by rw [toLE_length]), whole]
  exact congrArg (fun m => Except.ok (make m)) (ofLE_toLE_of_lt small)

theorem lengthPrefix_length (len : ℕ) : (lengthPrefix len).length = 2 := toLE_length _ _

theorem ofLE_lengthPrefix {len : ℕ} (small : len ≤ msizeMax) : ofLE (lengthPrefix len) = len := by
  rw [lengthPrefix, Nat.min_eq_left small]
  refine ofLE_toLE_of_lt ?_
  unfold msizeMax at small
  omega

theorem encodePayload_length (payload : List UInt8) : (encodePayload payload).length = 2 + payload.length := by
  rw [encodePayload, List.length_append, lengthPrefix_length]

theorem decodePayload_encode {payload : List UInt8} (small : payload.length ≤ msizeMax) :
    decodePayload (encodePayload payload) = .ok payload := by
  have long := encodePayload_length payload
  have two : bytesAt (encodePayload payload) 0 2 = .ok (lengthPrefix payload.length) := by
    rw [bytesAt_eq (by omega), List.drop_zero, encodePayload, List.take_left' (lengthPrefix_length _)]
  have size : decodeLength (encodePayload payload) = .ok payload.length := by
    rw [decodeLength, two]
    exact congrArg Except.ok (ofLE_lengthPrefix small)
  have whole : sliceTo (encodePayload payload) (2 + payload.length) = .ok (encodePayload payload) := by
    rw [sliceTo_eq (by omega), List.take_of_length_le (by omega)]
  have body : sliceFrom (encodePayload payload) 2 = .ok payload := by
    rw [sliceFrom, if_pos (by omega), encodePayload, List.drop_left' (lengthPrefix_length _)]
  rw [decodePayload, if_neg (by omega), size]
  simp only [bind, Except.bind]
  rw [if_neg (by omega), whole]
  exact body

theorem decodeText_encode {s : String} (small : (utf8 s).length ≤ msizeMax) :
    decodeText (encodePayload (utf8 s)) = .ok s := by
  rw [decodeText, decodePayload_encode small]
  exact utf8_decode s

theorem decodeBoolean_encode (b : Bool) : decodeBoolean [b.toUInt8] = .ok b := by
  cases b <;> rfl

theorem Date.decode_encode (d : Date) : Date.decode d.encode = .ok d := by
  have year : UInt16.ofNat (ofLE (toLE 2 d.year.toNat)) = d.year := by
    rw [ofLE_toLE_of_lt d.year.toNat_lt, UInt16.ofNat_toNat]
  refine Eq.trans ?_ (congrArg (fun y => Except.ok (Date.mk y d.month d.day)) year)
  rfl

theorem DateTime.decode_encode (d : DateTime) : DateTime.decode d.encode = .ok d := by
  have year : UInt16.ofNat (ofLE (toLE 2 d.year.toNat)) = d.year := by
    rw [ofLE_toLE_of_lt d.year.toNat_lt, UInt16.ofNat_toNat]
  have microsecond : UInt32.ofNat (ofLE (toLE 4 d.microsecond.toNat)) = d.microsecond := by
    rw [ofLE_toLE_of_lt d.microsecond.toNat_lt, UInt32.ofNat_toNat]
  have offset : (UInt16.ofNat (ofLE (toLE 2 d.timezoneOffsetMinutes.toUInt16.toNat))).toInt16 =
      d.timezoneOffsetMinutes := by
    rw [ofLE_toLE_of_lt d.timezoneOffsetMinutes.toUInt16.toNat_lt, UInt16.ofNat_toNat]
    rfl
  refine Eq.trans (b := .ok ⟨UInt16.ofNat (ofLE (toLE 2 d.year.toNat)), d.month, d.day, d.hour, d.minute, d.second,
    UInt32.ofNat (ofLE (toLE 4 d.microsecond.toNat)),
    (UInt16.ofNat (ofLE (toLE 2 d.timezoneOffsetMinutes.toUInt16.toNat))).toInt16⟩) ?_ ?_
  · rfl
  · rw [year, microsecond, offset]

theorem decodeUuid_encode (bytes : {bytes : List UInt8 // bytes.length = 16}) : decodeUuid bytes.1 = .ok bytes := by
  have whole : bytes.1.take 16 = bytes.1 := List.take_of_length_le (le_of_eq bytes.2)
  rw [decodeUuid, if_neg (by rw [bytes.2]; omega), sliceTo_eq (le_of_eq bytes.2.symm), whole]
  exact dif_pos bytes.2

variable {D J : Type} (formats : Formats D J)

theorem decodeDecimal_encode (d : D) : decodeDecimal formats (formats.serialize d) = .ok d := by
  have sixteen := formats.serialize_length d
  have whole : (formats.serialize d).take 16 = formats.serialize d := List.take_of_length_le (le_of_eq sixteen)
  rw [decodeDecimal, if_neg (by omega), sliceTo_eq (le_of_eq sixteen.symm), whole]
  exact congrArg Except.ok (formats.deserialize_serialize d)

theorem decodeJson_encode {j : Json J} (small : (utf8 j.repr).length ≤ msizeMax) :
    decodeJson formats (encodePayload (utf8 j.repr)) = parseJson formats j.repr := by
  rw [decodeJson, decodeText_encode small]
  rfl

end RoundTrip
end WasmDbms
