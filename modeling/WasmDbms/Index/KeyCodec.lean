import WasmDbms.Migration.StoredValue

/-!
# The encoding of values

`Encode` for `Value` and for the lists of values that are the keys of indexes: what
is encoded is decoded, and the size is the length up to the largest one.
-/
namespace WasmDbms
open ByteString Result

/-- `saturating_size`. -/
def saturatingSize (header payloadLen : ℕ) : ℕ :=
  if payloadLen ≤ msizeMax then min (header + payloadLen) msizeMax else msizeMax

theorem saturatingSize_eq (header payloadLen : ℕ) :
    saturatingSize header payloadLen = min (header + payloadLen) msizeMax := by
  rw [saturatingSize]
  split
  · rfl
  · omega

namespace StoredValue
variable {D J : Type}

/-- The byte in front of the encoding of a variant. -/
def discriminant : StoredValue D J → UInt8
  | blob _ => 0
  | boolean _ => 1
  | date _ => 2
  | dateTime _ => 3
  | decimal _ => 4
  | int8 _ => 5
  | int16 _ => 6
  | int32 _ => 7
  | int64 _ => 8
  | json _ => 9
  | null => 10
  | text _ => 11
  | uint8 _ => 12
  | uint16 _ => 13
  | uint32 _ => 14
  | uint64 _ => 15
  | uuid _ => 16
  | custom _ => 17

end StoredValue

section Values
variable {D J : Type} (formats : Formats D J)

/-- What follows the discriminant. A custom value has its type tag in front. -/
def encodeContent : StoredValue D J → List UInt8
  | .custom value => encodePayload (utf8 value.typeTag) ++ encodePayload value.encoded
  | v => v.encode formats

/-- `<Value as Encode>::encode`. -/
def encodeValue (v : StoredValue D J) : List UInt8 := v.discriminant :: encodeContent formats v

/-- The size of the content of a value. -/
def contentSize : StoredValue D J → ℕ
  | .blob bytes => saturatingSize 2 bytes.length
  | .boolean _ => 1
  | .date _ => 4
  | .dateTime _ => 13
  | .decimal _ => 16
  | .int8 _ => 1
  | .int16 _ => 2
  | .int32 _ => 4
  | .int64 _ => 8
  | .json j => saturatingSize 2 (utf8 j.repr).length
  | .null => 0
  | .text s => saturatingSize 2 (utf8 s).length
  | .uint8 _ => 1
  | .uint16 _ => 2
  | .uint32 _ => 4
  | .uint64 _ => 8
  | .uuid _ => 16
  | .custom value => saturatingSize 2 ((utf8 value.typeTag).length + 2 + value.encoded.length)

/-- `<Value as Encode>::size`. -/
def valueSize (v : StoredValue D J) : ℕ := min (contentSize v + 1) msizeMax

/-- `decode_custom_value`. -/
def decodeCustomValue (data : List UInt8) : Except Fault (StoredValue D J) := do
  if data.length < 2 then truncated
  else
    let tagLen ← decodeLength data
    if data.length < 2 + tagLen + 2 then truncated
    else
      let tagBytes ← bytesAt data 2 tagLen
      let typeTag ← decodeUtf8 tagBytes
      let dataLen ← bytesAt data (2 + tagLen) 2
      if data.length < 2 + tagLen + 2 + ofLE dataLen then truncated
      else
        let encoded ← bytesAt data (2 + tagLen + 2) (ofLE dataLen)
        return .custom ⟨typeTag, encoded, ""⟩

/-- The content behind a discriminant. -/
def decodeContent (discriminant : UInt8) (rest : List UInt8) : Except Fault (StoredValue D J) :=
  match discriminant with
  | 0 => .blob <$> decodePayload rest
  | 1 => .boolean <$> decodeBoolean rest
  | 2 => .date <$> Date.decode rest
  | 3 => .dateTime <$> DateTime.decode rest
  | 4 => .decimal <$> decodeDecimal formats rest
  | 5 => decodeInt 1 (fun n => .int8 (UInt8.ofNat n).toInt8) rest
  | 6 => decodeInt 2 (fun n => .int16 (UInt16.ofNat n).toInt16) rest
  | 7 => decodeInt 4 (fun n => .int32 (UInt32.ofNat n).toInt32) rest
  | 8 => decodeInt 8 (fun n => .int64 (UInt64.ofNat n).toInt64) rest
  | 9 => .json <$> decodeJson formats rest
  | 10 => .ok .null
  | 11 => .text <$> decodeText rest
  | 12 => decodeInt 1 (fun n => .uint8 (UInt8.ofNat n)) rest
  | 13 => decodeInt 2 (fun n => .uint16 (UInt16.ofNat n)) rest
  | 14 => decodeInt 4 (fun n => .uint32 (UInt32.ofNat n)) rest
  | 15 => decodeInt 8 (fun n => .uint64 (UInt64.ofNat n)) rest
  | 16 => .uuid <$> decodeUuid rest
  | 17 => decodeCustomValue rest
  | other => .error (.error (.decodeError (.invalidDiscriminant other.toNat)))

/-- `<Value as Encode>::decode`. -/
def decodeValue : List UInt8 → Except Fault (StoredValue D J)
  | [] => truncated
  | discriminant :: rest => decodeContent formats discriminant rest

/-! ## Lists of values -/

/-- `MIN_ENCODED_VEC_ENTRY_SIZE`. -/
def minEncodedVecEntrySize : ℕ := 5

/-- One entry of the list. -/
def encodeEntry (v : StoredValue D J) : List UInt8 := toLE 4 (encodeValue formats v).length ++ encodeValue formats v

/-- `<Vec<Value> as Encode>::encode`. -/
def encodeKey (values : List (StoredValue D J)) : List UInt8 :=
  toLE 4 values.length ++ values.flatMap (encodeEntry formats)

/-- The loop of `decode`, with the entries that are left and the offset. -/
def decodeEntries (data : List UInt8) : ℕ → ℕ → Except Fault (List (StoredValue D J))
  | 0, _ => .ok []
  | count + 1, offset =>
      if offset + 4 > data.length then truncated
      else do
        let prefixBytes ← bytesAt data offset 4
        let size := ofLE prefixBytes
        if offset + 4 + size > data.length then truncated
        else
          let entry ← bytesAt data (offset + 4) size
          let value ← decodeValue formats entry
          let values ← decodeEntries data count (offset + 4 + size)
          return value :: values

/-- `<Vec<Value> as Encode>::decode`. -/
def decodeKey (data : List UInt8) : Except Fault (List (StoredValue D J)) :=
  if data.length < 4 then truncated
  else do
    let prefixBytes ← bytesAt data 0 4
    let count := ofLE prefixBytes
    if count > (data.length - 4) / minEncodedVecEntrySize then truncated
    else decodeEntries formats data count 4

/-- `<Vec<Value> as Encode>::size`. -/
def keySize (values : List (StoredValue D J)) : ℕ :=
  values.foldl (fun total v => min (min (total + 4) msizeMax + valueSize v) msizeMax) 4

/-! ## Sizes -/

theorem contentSize_eq (v : StoredValue D J) : contentSize v = min (encodeContent formats v).length msizeMax := by
  have payload (bytes : List UInt8) : saturatingSize 2 bytes.length = min (encodePayload bytes).length msizeMax := by
    rw [saturatingSize_eq, encodePayload_length]
  cases v with
  | blob bytes => exact payload bytes
  | json j => exact payload (utf8 j.repr)
  | text s => exact payload (utf8 s)
  | decimal d =>
      have sixteen : (encodeContent formats (.decimal d)).length = 16 := formats.serialize_length d
      rw [sixteen]
      rfl
  | uuid bytes =>
      have sixteen : (encodeContent formats (.uuid bytes)).length = 16 := bytes.2
      rw [sixteen]
      rfl
  | custom value =>
      rw [contentSize, saturatingSize_eq, encodeContent, List.length_append, encodePayload_length, encodePayload_length]
      congr 1
      omega
  | _ => rfl

/-- The size of a value is the length of its encoding up to the largest size. -/
theorem valueSize_eq (v : StoredValue D J) : valueSize v = min (encodeValue formats v).length msizeMax := by
  rw [valueSize, contentSize_eq formats, encodeValue, List.length_cons]
  omega

theorem encodeEntry_length (v : StoredValue D J) : (encodeEntry formats v).length = 4 + (encodeValue formats v).length := by
  rw [encodeEntry, List.length_append, toLE_length]

/-- The size of a list of values is the length of its encoding up to the largest size. -/
theorem keySize_eq (values : List (StoredValue D J)) : keySize values = min (encodeKey formats values).length msizeMax := by
  have loop : ∀ total, values.foldl (fun total v => min (min (total + 4) msizeMax + valueSize v) msizeMax)
      (min total msizeMax) = min (total + (values.flatMap (encodeEntry formats)).length) msizeMax := by
    induction values with
    | nil => exact fun total => rfl
    | cons v values ih =>
        intro total
        have step : min (min (min total msizeMax + 4) msizeMax + valueSize v) msizeMax =
            min (total + (encodeEntry formats v).length) msizeMax := by
          rw [valueSize_eq formats, encodeEntry_length]
          omega
        rw [List.foldl_cons, step, ih, List.flatMap_cons, List.length_append, Nat.add_assoc]
  have four : 4 = min 4 msizeMax := rfl
  rw [keySize, encodeKey, List.length_append, toLE_length]
  conv_lhs => rw [four]
  exact loop 4

/-! ## Decoding what was encoded -/

/-- What a value is read back as: a document is parsed again from its text. -/
def readBack : StoredValue D J → Except Fault (StoredValue D J)
  | .json j => .json <$> parseJson formats j.repr
  | v => .ok v.withoutDisplay

/-- The bytes between two parts of a sequence. -/
theorem bytesAt_append {front middle : List UInt8} {start len : ℕ} (before : front.length = start)
    (width : middle.length = len) (rest : List UInt8) : bytesAt (front ++ (middle ++ rest)) start len = .ok middle := by
  have inside : start + len ≤ (front ++ (middle ++ rest)).length := by
    rw [List.length_append, List.length_append]
    omega
  rw [bytesAt_eq inside, List.drop_left' before, List.take_left' width]

theorem bytesAt_front {first : List UInt8} {len : ℕ} (width : first.length = len) (rest : List UInt8) :
    bytesAt (first ++ rest) 0 len = .ok first :=
  @bytesAt_append [] first 0 len rfl width rest

theorem decodeCustomValue_encode {value : CustomValue} (tag_fits : (utf8 value.typeTag).length ≤ msizeMax)
    (data_fits : value.encoded.length ≤ msizeMax) :
    (decodeCustomValue (encodePayload (utf8 value.typeTag) ++ encodePayload value.encoded) :
      Except Fault (StoredValue D J)) = .ok (.custom { value with display := "" }) := by
  have data : encodePayload (utf8 value.typeTag) ++ encodePayload value.encoded =
      lengthPrefix (utf8 value.typeTag).length ++ (utf8 value.typeTag ++
        (lengthPrefix value.encoded.length ++ (value.encoded ++ []))) := by
    rw [List.append_nil, encodePayload, encodePayload, List.append_assoc]
  generalize encodePayload (utf8 value.typeTag) ++ encodePayload value.encoded = bytes at data ⊢
  have tagWidth := lengthPrefix_length (utf8 value.typeTag).length
  have dataWidth := lengthPrefix_length value.encoded.length
  have long : bytes.length = 2 + (utf8 value.typeTag).length + 2 + value.encoded.length := by
    rw [data]
    simp only [List.length_append, lengthPrefix_length, List.length_nil]
    omega
  have tagLen : decodeLength bytes = .ok (utf8 value.typeTag).length := by
    rw [decodeLength, data, bytesAt_front tagWidth]
    exact congrArg Except.ok (ofLE_lengthPrefix tag_fits)
  have tagBytes : bytesAt bytes 2 (utf8 value.typeTag).length = .ok (utf8 value.typeTag) := by
    rw [data]
    exact bytesAt_append tagWidth rfl _
  have dataLen : bytesAt bytes (2 + (utf8 value.typeTag).length) 2 = .ok (lengthPrefix value.encoded.length) := by
    rw [data, ← List.append_assoc]
    refine bytesAt_append ?_ dataWidth _
    rw [List.length_append, tagWidth]
  have encoded : bytesAt bytes (2 + (utf8 value.typeTag).length + 2) value.encoded.length = .ok value.encoded := by
    rw [data, ← List.append_assoc, ← List.append_assoc]
    refine bytesAt_append ?_ rfl _
    rw [List.length_append, List.length_append, tagWidth, dataWidth]
  have dataSize : ofLE (lengthPrefix value.encoded.length) = value.encoded.length := ofLE_lengthPrefix data_fits
  rw [decodeCustomValue, if_neg (by omega)]
  apply bind_eq_ok.mpr ⟨_, tagLen, ?_⟩
  rw [if_neg (by omega)]
  refine bind_eq_ok.mpr ⟨_, tagBytes, bind_eq_ok.mpr ⟨_, utf8_decode value.typeTag, bind_eq_ok.mpr ⟨_, dataLen, ?_⟩⟩⟩
  rw [dataSize, if_neg (by omega)]
  exact bind_eq_ok.mpr ⟨_, encoded, rfl⟩

theorem decodeContent_encode {v : StoredValue D J} (fits : (encodeContent formats v).length ≤ msizeMax) :
    decodeContent formats v.discriminant (encodeContent formats v) = readBack formats v := by
  have payload {bytes : List UInt8} (small : (encodePayload bytes).length ≤ msizeMax) : bytes.length ≤ msizeMax := by
    rw [encodePayload_length] at small
    omega
  cases v with
  | blob bytes => exact congrArg (StoredValue.blob <$> ·) (decodePayload_encode (payload fits))
  | boolean b => exact congrArg (StoredValue.boolean <$> ·) (decodeBoolean_encode b)
  | date d => exact congrArg (StoredValue.date <$> ·) (Date.decode_encode d)
  | dateTime d => exact congrArg (StoredValue.dateTime <$> ·) (DateTime.decode_encode d)
  | decimal d => exact congrArg (StoredValue.decimal <$> ·) (decodeDecimal_encode formats d)
  | int8 i =>
      have read : decodeInt 1 (fun n => (.int8 (UInt8.ofNat n).toInt8 : StoredValue D J)) (toLE 1 i.toUInt8.toNat) =
          .ok (.int8 (UInt8.ofNat i.toUInt8.toNat).toInt8) := decodeInt_toLE _ i.toUInt8.toNat_lt
      rw [UInt8.ofNat_toNat] at read
      exact read
  | int16 i =>
      have read : decodeInt 2 (fun n => (.int16 (UInt16.ofNat n).toInt16 : StoredValue D J)) (toLE 2 i.toUInt16.toNat) =
          .ok (.int16 (UInt16.ofNat i.toUInt16.toNat).toInt16) := decodeInt_toLE _ i.toUInt16.toNat_lt
      rw [UInt16.ofNat_toNat] at read
      exact read
  | int32 i =>
      have read : decodeInt 4 (fun n => (.int32 (UInt32.ofNat n).toInt32 : StoredValue D J)) (toLE 4 i.toUInt32.toNat) =
          .ok (.int32 (UInt32.ofNat i.toUInt32.toNat).toInt32) := decodeInt_toLE _ i.toUInt32.toNat_lt
      rw [UInt32.ofNat_toNat] at read
      exact read
  | int64 i =>
      have read : decodeInt 8 (fun n => (.int64 (UInt64.ofNat n).toInt64 : StoredValue D J)) (toLE 8 i.toUInt64.toNat) =
          .ok (.int64 (UInt64.ofNat i.toUInt64.toNat).toInt64) := decodeInt_toLE _ i.toUInt64.toNat_lt
      rw [UInt64.ofNat_toNat] at read
      exact read
  | json j => exact congrArg (StoredValue.json <$> ·) (decodeJson_encode formats (payload fits))
  | null => rfl
  | text s => exact congrArg (StoredValue.text <$> ·) (decodeText_encode (payload fits))
  | uint8 n =>
      have read : decodeInt 1 (fun n => (.uint8 (UInt8.ofNat n) : StoredValue D J)) (toLE 1 n.toNat) =
          .ok (.uint8 (UInt8.ofNat n.toNat)) := decodeInt_toLE _ n.toNat_lt
      rw [UInt8.ofNat_toNat] at read
      exact read
  | uint16 n =>
      have read : decodeInt 2 (fun n => (.uint16 (UInt16.ofNat n) : StoredValue D J)) (toLE 2 n.toNat) =
          .ok (.uint16 (UInt16.ofNat n.toNat)) := decodeInt_toLE _ n.toNat_lt
      rw [UInt16.ofNat_toNat] at read
      exact read
  | uint32 n =>
      have read : decodeInt 4 (fun n => (.uint32 (UInt32.ofNat n) : StoredValue D J)) (toLE 4 n.toNat) =
          .ok (.uint32 (UInt32.ofNat n.toNat)) := decodeInt_toLE _ n.toNat_lt
      rw [UInt32.ofNat_toNat] at read
      exact read
  | uint64 n =>
      have read : decodeInt 8 (fun n => (.uint64 (UInt64.ofNat n) : StoredValue D J)) (toLE 8 n.toNat) =
          .ok (.uint64 (UInt64.ofNat n.toNat)) := decodeInt_toLE _ n.toNat_lt
      rw [UInt64.ofNat_toNat] at read
      exact read
  | uuid bytes => exact congrArg (StoredValue.uuid <$> ·) (decodeUuid_encode bytes)
  | custom value =>
      have both : (encodePayload (utf8 value.typeTag) ++ encodePayload value.encoded).length ≤ msizeMax := fits
      rw [List.length_append, encodePayload_length, encodePayload_length] at both
      exact decodeCustomValue_encode (by omega) (by omega)

theorem decodeValue_encode {v : StoredValue D J} (fits : (encodeValue formats v).length ≤ msizeMax) :
    decodeValue formats (encodeValue formats v) = readBack formats v := by
  rw [encodeValue, List.length_cons] at fits
  exact decodeContent_encode formats (by omega)

/-- The entries behind `front` are read back one after the other. -/
theorem decodeEntries_encode {values : List (StoredValue D J)}
    (fits : ∀ v ∈ values, (encodeValue formats v).length ≤ msizeMax) (front : List UInt8) :
    decodeEntries formats (front ++ values.flatMap (encodeEntry formats)) values.length front.length =
      values.mapM (readBack formats) := by
  induction values generalizing front with
  | nil => rfl
  | cons v values ih =>
      rw [List.forall_mem_cons] at fits
      have bound := fits.1
      rw [msizeMax] at bound
      have data : front ++ (v :: values).flatMap (encodeEntry formats) =
          front ++ (toLE 4 (encodeValue formats v).length ++ (encodeValue formats v ++
            values.flatMap (encodeEntry formats))) := by
        rw [List.flatMap_cons, encodeEntry, List.append_assoc]
      have rest := ih fits.2 (front ++ encodeEntry formats v)
      rw [List.append_assoc, ← List.flatMap_cons, List.length_append, encodeEntry_length] at rest
      have long : (front ++ (v :: values).flatMap (encodeEntry formats)).length =
          front.length + (4 + (encodeValue formats v).length + (values.flatMap (encodeEntry formats)).length) := by
        rw [List.length_append, List.flatMap_cons, List.length_append, encodeEntry_length]
      have size : bytesAt (front ++ (v :: values).flatMap (encodeEntry formats)) front.length 4 =
          .ok (toLE 4 (encodeValue formats v).length) := by
        rw [data]
        exact bytesAt_append rfl (toLE_length _ _) _
      have entry : bytesAt (front ++ (v :: values).flatMap (encodeEntry formats)) (front.length + 4)
          (encodeValue formats v).length = .ok (encodeValue formats v) := by
        rw [data, ← List.append_assoc]
        refine bytesAt_append ?_ rfl _
        rw [List.length_append, toLE_length]
      have number : ofLE (toLE 4 (encodeValue formats v).length) = (encodeValue formats v).length :=
        ofLE_toLE_of_lt (by omega)
      rw [List.length_cons, decodeEntries, if_neg (by omega), size]
      simp only [bind, Except.bind, number]
      rw [if_neg (by omega), entry]
      simp only [decodeValue_encode formats fits.1]
      rw [Nat.add_assoc front.length, rest, List.mapM_cons]
      rfl

theorem entry_le {v : StoredValue D J} {values : List (StoredValue D J)} (member : v ∈ values) :
    (encodeEntry formats v).length ≤ (values.flatMap (encodeEntry formats)).length := by
  obtain ⟨before, behind, rfl⟩ := List.append_of_mem member
  rw [List.flatMap_append, List.flatMap_cons, List.length_append, List.length_append]
  omega

theorem entries_le (values : List (StoredValue D J)) :
    minEncodedVecEntrySize * values.length ≤ (values.flatMap (encodeEntry formats)).length := by
  rw [minEncodedVecEntrySize]
  induction values with
  | nil => exact Nat.le_refl _
  | cons v values ih =>
      rw [List.flatMap_cons, List.length_append, encodeEntry_length, encodeValue, List.length_cons, List.length_cons]
      omega

/-- A list of values is read back value by value. -/
theorem decodeKey_encode {values : List (StoredValue D J)} (fits : (encodeKey formats values).length ≤ msizeMax) :
    decodeKey formats (encodeKey formats values) = values.mapM (readBack formats) := by
  have long : (encodeKey formats values).length = 4 + (values.flatMap (encodeEntry formats)).length := by
    rw [encodeKey, List.length_append, toLE_length]
  have each : ∀ v ∈ values, (encodeValue formats v).length ≤ msizeMax := by
    intro v member
    have part := entry_le formats member
    rw [encodeEntry_length] at part
    omega
  have many := entries_le formats values
  have count : bytesAt (encodeKey formats values) 0 4 = .ok (toLE 4 values.length) :=
    bytesAt_front (toLE_length _ _) _
  have number : ofLE (toLE 4 values.length) = values.length := by
    rw [minEncodedVecEntrySize] at many
    rw [msizeMax] at fits
    exact ofLE_toLE_of_lt (by omega)
  have enough : ¬values.length > ((encodeKey formats values).length - 4) / minEncodedVecEntrySize := by
    rw [long, Nat.add_sub_cancel_left]
    exact Nat.not_lt.mpr ((Nat.le_div_iff_mul_le (by decide)).mpr (by rw [Nat.mul_comm]; exact many))
  rw [decodeKey, if_neg (by omega), count]
  simp only [bind, Except.bind, number]
  rw [if_neg enough]
  exact decodeEntries_encode formats each (toLE 4 values.length)

end Values

/-! ## Documents that are read back -/

/-- What `serde_json` prints and parses: printing and parsing gives a document back, but
nothing nested deeper than 128 levels is parsed. -/
structure SerdeJson {D J : Type} (formats : Formats D J) where
  print : J → String
  depth : J → ℕ
  parse_print : ∀ j, depth j ≤ 128 → formats.parse (print j) = .ok j
  parse_print_deep : ∀ j, 128 < depth j → ∃ message, formats.parse (print j) = .error message
  depth_parse : ∀ s j, formats.parse s = .ok j → depth j ≤ 128

section Documents
variable {D J : Type} {formats : Formats D J}

/-- How a document comes about: from a `serde_json` value, or from a text that is parsed. -/
inductive Json.Constructed (serde : SerdeJson formats) : Json J → Prop
  | ofValue (value : J) : Json.Constructed serde ⟨value, serde.print value⟩
  | parsed {value : J} {s : String} (parses : formats.parse s = .ok value) : Json.Constructed serde ⟨value, s⟩

/-- The document of a value, if it is one, is constructed. -/
def StoredValue.Constructed (serde : SerdeJson formats) : StoredValue D J → Prop
  | .json j => j.Constructed serde
  | _ => True

/-- The document of a value, if it is one, has at most 128 levels. -/
def StoredValue.Shallow (serde : SerdeJson formats) : StoredValue D J → Prop
  | .json j => serde.depth j.value ≤ 128
  | _ => True

/-- A document is parsed again exactly when it is not nested too deep. -/
theorem Json.Constructed.parse_iff {serde : SerdeJson formats} {j : Json J} (constructed : j.Constructed serde) :
    formats.parse j.repr = .ok j.value ↔ serde.depth j.value ≤ 128 := by
  cases constructed with
  | parsed parses => exact ⟨fun _ => serde.depth_parse _ _ parses, fun _ => parses⟩
  | ofValue value =>
      constructor
      · intro parses
        by_contra deep
        obtain ⟨message, rejected⟩ := serde.parse_print_deep value (Nat.lt_of_not_le deep)
        cases parses.symm.trans rejected
      · exact serde.parse_print value

/-- A document that is parsed again at all is read back as it was. -/
theorem Json.Constructed.parse_ok {serde : SerdeJson formats} {j : Json J} {value : J}
    (constructed : j.Constructed serde) (parses : formats.parse j.repr = .ok value) : formats.parse j.repr = .ok j.value := by
  cases constructed with
  | parsed given => exact given
  | ofValue made =>
      refine serde.parse_print made ?_
      by_contra deep
      obtain ⟨message, rejected⟩ := serde.parse_print_deep made (Nat.lt_of_not_le deep)
      cases parses.symm.trans rejected

theorem readBack_shallow {serde : SerdeJson formats} {v : StoredValue D J} (constructed : v.Constructed serde)
    (shallow : v.Shallow serde) : readBack formats v = .ok v.withoutDisplay := by
  cases v with
  | json j =>
      have parses := (Json.Constructed.parse_iff constructed).mpr shallow
      simp only [readBack, parseJson, parses]
      rfl
  | _ => rfl

theorem readBack_rejected {j : Json J} {message : String} (rejected : formats.parse j.repr = .error message) :
    readBack formats (.json j : StoredValue D J) = .error (.error (.decodeError (.invalidJson message))) := by
  simp only [readBack, parseJson, rejected]
  rfl

theorem shallow_of_readBack {serde : SerdeJson formats} {v w : StoredValue D J} (constructed : v.Constructed serde)
    (read : readBack formats v = .ok w) : v.Shallow serde := by
  cases v with
  | json j =>
      rw [readBack, map_eq_ok] at read
      obtain ⟨back, parses, _⟩ := read
      rw [parseJson] at parses
      split at parses
      · rename_i value given
        exact (Json.Constructed.parse_iff constructed).mp (Json.Constructed.parse_ok constructed given)
      · cases parses
  | _ => trivial

/-- What is encoded in at most `MSize::MAX` bytes is decoded and has its length as its
size, and what is longer has the size `MSize::MAX`. -/
def RoundTrips {α : Type} (encoded : List UInt8) (decoded : Except Fault α) (size : ℕ) (expected : α) : Prop :=
  (encoded.length ≤ msizeMax → decoded = .ok expected ∧ size = encoded.length) ∧
    (msizeMax < encoded.length → size = msizeMax)

/-- The round trip of one value, up to the display string of a custom value. -/
def ValueRoundTrips (formats : Formats D J) (v : StoredValue D J) : Prop :=
  RoundTrips (encodeValue formats v) (decodeValue formats (encodeValue formats v)) (valueSize v) v.withoutDisplay

/-- The round trip of a list of values. -/
def KeyRoundTrips (formats : Formats D J) (values : List (StoredValue D J)) : Prop :=
  RoundTrips (encodeKey formats values) (decodeKey formats (encodeKey formats values)) (keySize values)
    (values.map StoredValue.withoutDisplay)

theorem valueRoundTrips_iff {serde : SerdeJson formats} {v : StoredValue D J} (constructed : v.Constructed serde) :
    ValueRoundTrips formats v ↔ ((encodeValue formats v).length ≤ msizeMax → v.Shallow serde) := by
  have size := valueSize_eq formats v
  constructor
  · intro trips fits
    have read := (trips.1 fits).1
    rw [decodeValue_encode formats fits] at read
    exact shallow_of_readBack constructed read
  · intro shallow
    refine ⟨fun fits => ⟨?_, by omega⟩, fun long => by omega⟩
    rw [decodeValue_encode formats fits]
    exact readBack_shallow constructed (shallow fits)

theorem keyRoundTrips_iff {serde : SerdeJson formats} {values : List (StoredValue D J)}
    (constructed : ∀ v ∈ values, v.Constructed serde) :
    KeyRoundTrips formats values ↔ ((encodeKey formats values).length ≤ msizeMax → ∀ v ∈ values, v.Shallow serde) := by
  have size := keySize_eq formats values
  constructor
  · intro trips fits v member
    have read := (trips.1 fits).1
    rw [decodeKey_encode formats fits] at read
    obtain ⟨w, single⟩ := mapM_each read v member
    exact shallow_of_readBack (constructed v member) single
  · intro shallow
    refine ⟨fun fits => ⟨?_, by omega⟩, fun long => by omega⟩
    rw [decodeKey_encode formats fits]
    exact mapM_eq_map fun v member => readBack_shallow (constructed v member) (shallow fits v member)

/-- A value, and a list of values, is read back exactly when it is too long to be stored
or none of its documents is nested deeper than 128 levels. -/
theorem roundTrips_iff (serde : SerdeJson formats) :
    (∀ v : StoredValue D J, v.Constructed serde →
      (ValueRoundTrips formats v ↔ ((encodeValue formats v).length ≤ msizeMax → v.Shallow serde))) ∧
    ∀ values : List (StoredValue D J), (∀ v ∈ values, v.Constructed serde) →
      (KeyRoundTrips formats values ↔ ((encodeKey formats values).length ≤ msizeMax → ∀ v ∈ values, v.Shallow serde)) :=
  ⟨fun _ => valueRoundTrips_iff, fun _ => keyRoundTrips_iff⟩

end Documents

/-! ## A document of 129 arrays -/

namespace NestedArrays

/-- `n` arrays, one in the other, around `null`. -/
def print (n : ℕ) : String := String.ofList (List.replicate n '[' ++ 'n' :: ("ull".toList ++ List.replicate n ']'))

def opened (s : String) : ℕ := (s.toList.takeWhile fun c => c == '[').length

theorem opened_print (n : ℕ) : opened (print n) = n := by
  have all : ∀ c ∈ List.replicate n '[', (c == '[') = true := by
    intro c member
    rw [List.eq_of_mem_replicate member]
    rfl
  rw [opened, print, String.toList_ofList, List.takeWhile_append_of_pos all, List.takeWhile_cons_of_neg (by decide),
    List.append_nil, List.length_replicate]

theorem utf8Encode_size {l : List Char} (ascii : ∀ c ∈ l, [c].utf8Encode.size = 1) : l.utf8Encode.size = l.length := by
  induction l with
  | nil => rfl
  | cons c l ih =>
      rw [List.forall_mem_cons] at ascii
      rw [List.utf8Encode_cons, ByteArray.size_append, ascii.1, ih ascii.2, List.length_cons, Nat.add_comm]

theorem utf8_print (n : ℕ) : (utf8 (print n)).length = 2 * n + 4 := by
  have ascii : ∀ c ∈ List.replicate n '[' ++ 'n' :: ("ull".toList ++ List.replicate n ']'), [c].utf8Encode.size = 1 := by
    intro c member
    rw [List.mem_append, List.mem_cons, List.mem_append] at member
    obtain brackets | rfl | text | brackets := member
    · rw [List.eq_of_mem_replicate brackets]
      decide
    · decide
    · have letters : "ull".toList = ['u', 'l', 'l'] := rfl
      rw [letters, List.mem_cons, List.mem_cons, List.mem_singleton] at text
      rcases text with rfl | rfl | rfl <;> decide
    · rw [List.eq_of_mem_replicate brackets]
      decide
  have size : (utf8 (print n)).length = (print n).toByteArray.size := Array.length_toList
  rw [size, print, String.toByteArray_ofList, utf8Encode_size ascii]
  simp only [List.length_append, List.length_cons, List.length_replicate]
  have three : "ull".toList.length = 3 := rfl
  omega

attribute [irreducible] print

/-- The parser on the texts of nested arrays. -/
def parse (s : String) : Except String ℕ :=
  if s = print (opened s) then
    if opened s ≤ 128 then .ok (opened s) else .error "recursion limit exceeded at line 1 column 128"
  else .error "expected value at line 1 column 1"

theorem zeros_length : (List.replicate 16 (0 : UInt8)).length = 16 := List.length_replicate

theorem decimal_length (d : {bytes : List UInt8 // bytes.length = 16}) : (Subtype.val d).length = 16 := d.2

/-- Decimals by their bytes, and documents by the number of their arrays. -/
def formats : Formats {bytes : List UInt8 // bytes.length = 16} ℕ where
  number _ := 0
  serialize := Subtype.val
  deserialize bytes := if sixteen : bytes.length = 16 then ⟨bytes, sixteen⟩ else ⟨List.replicate 16 0, zeros_length⟩
  parse := parse
  debugType _ := ""
  debugValue _ := ""
  serialize_length := decimal_length
  deserialize_serialize d := dif_pos (decimal_length d)

theorem parse_print (n : ℕ) : parse (print n) =
    if n ≤ 128 then .ok n else .error "recursion limit exceeded at line 1 column 128" := by
  rw [parse, opened_print, if_pos rfl]

def serde : SerdeJson formats where
  print := print
  depth n := n
  parse_print n low := (parse_print n).trans (if_pos low)
  parse_print_deep n deep := by
    refine ⟨"recursion limit exceeded at line 1 column 128", ?_⟩
    have rejected := parse_print n
    rw [if_neg (Nat.not_le.mpr deep)] at rejected
    exact rejected
  depth_parse s j parses := by
    have given : parse s = .ok j := parses
    rw [parse] at given
    split at given
    · split at given
      · rename_i low
        cases given
        exact low
      · cases given
    · cases given

/-- A document made from a value of 129 arrays. -/
def deep : StoredValue {bytes : List UInt8 // bytes.length = 16} ℕ := .json ⟨129, print 129⟩

theorem deep_length : (encodeValue formats deep).length = 265 := by
  have content : encodeContent formats deep = encodePayload (utf8 (print 129)) := rfl
  rw [encodeValue, List.length_cons, content, encodePayload_length, utf8_print]

theorem deep_constructed : deep.Constructed serde := Json.Constructed.ofValue 129

/-- It can be written, and then not be read. -/
theorem deep_unreadable : deep.Constructed serde ∧ (encodeValue formats deep).length ≤ msizeMax ∧
    decodeValue formats (encodeValue formats deep) =
      .error (.error (.decodeError (.invalidJson "recursion limit exceeded at line 1 column 128"))) ∧
    ¬ ValueRoundTrips formats deep := by
  have fits : (encodeValue formats deep).length ≤ msizeMax := by
    rw [deep_length]
    decide
  have unread : decodeValue formats (encodeValue formats deep) =
      .error (.error (.decodeError (.invalidJson "recursion limit exceeded at line 1 column 128"))) := by
    have rejected : formats.parse (print 129) = .error "recursion limit exceeded at line 1 column 128" := parse_print 129
    exact (decodeValue_encode formats fits).trans (readBack_rejected rejected)
  refine ⟨deep_constructed, fits, unread, fun trips => ?_⟩
  cases (trips.1 fits).1.symm.trans unread

/-- A document in one array. -/
def shallow : StoredValue {bytes : List UInt8 // bytes.length = 16} ℕ := .json ⟨1, print 1⟩

theorem shallow_constructed : shallow.Constructed serde := Json.Constructed.ofValue 1

theorem shallow_shallow : shallow.Shallow serde := (by decide : 1 ≤ 128)

/-- It is read back, alone and in a key. -/
theorem shallow_trips : ValueRoundTrips formats shallow ∧ KeyRoundTrips formats [.null, shallow] := by
  have constructed : ∀ v ∈ [.null, shallow], v.Constructed serde :=
    List.forall_mem_cons.mpr ⟨trivial, List.forall_mem_singleton.mpr shallow_constructed⟩
  have flat : ∀ v ∈ [.null, shallow], v.Shallow serde :=
    List.forall_mem_cons.mpr ⟨trivial, List.forall_mem_singleton.mpr shallow_shallow⟩
  exact ⟨((roundTrips_iff serde).1 shallow shallow_constructed).mpr fun _ => shallow_shallow,
    ((roundTrips_iff serde).2 [.null, shallow] constructed).mpr fun _ => flat⟩

end NestedArrays
end WasmDbms
