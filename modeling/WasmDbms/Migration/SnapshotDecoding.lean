import WasmDbms.Index.KeyDecoder
import WasmDbms.Migration.SnapshotEncoding

/-!
# The decoding of schema snapshots

A decoder checks that the bytes it is about to read are there. It never panics, and it
reads back what was written of a snapshot that fits its fields.
-/
namespace WasmDbms
open ByteString Result

/-- `if data.len() < stop`: the input is too short. -/
def need (data : List UInt8) (stop : ℕ) : Except Fault Unit := if data.length < stop then truncated else .ok ()

def unknownTag {α : Type} (message : String) : Except Fault α :=
  .error (.error (.decodeError (.identityDecodeError message)))

/-- `{:#x}`. -/
def hexByte (b : UInt8) : String := "0x" ++ String.ofList (Nat.toDigits 16 b.toNat)

/-! ## `decode` -/

/-- A string behind its length, with `spare` bytes behind it, and the offset it ends at. -/
def readName (data : List UInt8) (offset spare : ℕ) : Except Fault (String × ℕ) := do
  let len ← byteAt data offset
  need data (offset + 1 + len.toNat + spare)
  let bytes ← bytesAt data (offset + 1) len.toNat
  let name ← decodeUtf8 bytes
  return (name, offset + 1 + len.toNat)

/-- What is behind a length of two bytes, decoded. -/
def readPart {α : Type} (decode : List UInt8 → Except Fault α) (data : List UInt8) (offset : ℕ) :
    Except Fault (α × ℕ) := do
  need data (offset + 2)
  let len ← ofLE <$> bytesAt data offset 2
  need data (offset + 2 + len)
  let part ← bytesAt data (offset + 2) len
  let a ← decode part
  return (a, offset + 2 + len)

def readOption {α : Type} (decode : List UInt8 → Except Fault α) (data : List UInt8) (offset : ℕ) :
    Except Fault (Option α × ℕ) := do
  need data (offset + 1)
  let flag ← byteAt data offset
  if flag != 0 then
    let (a, offset) ← readPart decode data (offset + 1)
    return (some a, offset)
  else return (none, offset + 1)

def readParts {α : Type} (decode : List UInt8 → Except Fault α) (data : List UInt8) : ℕ → ℕ → Except Fault (List α × ℕ)
  | 0, offset => .ok ([], offset)
  | count + 1, offset => do
      let (a, offset) ← readPart decode data offset
      let (rest, offset) ← readParts decode data count offset
      return (a :: rest, offset)

/-- The parts behind their count. -/
def readCounted {α : Type} (decode : List UInt8 → Except Fault α) (data : List UInt8) (offset : ℕ) :
    Except Fault (List α × ℕ) := do
  need data (offset + 2)
  let count ← ofLE <$> bytesAt data offset 2
  readParts decode data count (offset + 2)

def readColumnNames (data : List UInt8) : ℕ → ℕ → Except Fault (List String × ℕ)
  | 0, offset => .ok ([], offset)
  | count + 1, offset => do
      need data (offset + 1)
      let (name, offset) ← readName data offset 1
      let (names, offset) ← readColumnNames data count offset
      return (name :: names, offset)

def IndexSnapshot.decode (data : List UInt8) : Except Fault IndexSnapshot := do
  need data 2
  let count ← byteAt data 0
  let (columns, offset) ← readColumnNames data count.toNat 1
  let unique ← byteAt data offset
  return ⟨columns, unique != 0⟩

def OnDeleteSnapshot.decode : UInt8 → Except Fault OnDeleteSnapshot
  | 0x01 => .ok .restrict
  | 0x02 => .ok .cascade
  | value => unknownTag ("Unknown `OnDeleteSnapshot`: " ++ hexByte value)

def ForeignKeySnapshot.decode (data : List UInt8) : Except Fault ForeignKeySnapshot := do
  need data 3
  let (table, offset) ← readName data 0 1
  let (column, offset) ← readName data offset 1
  let onDelete ← byteAt data offset >>= OnDeleteSnapshot.decode
  return ⟨table, column, onDelete⟩

/-- The length of the tag and the wire size of a custom type. -/
def wireHeaderLen : UInt8 → Except Fault ℕ
  | 0x01 => .ok 6
  | 0x02 => .ok 2
  | value => unknownTag ("Unknown WireSize tag: " ++ hexByte value)

def decodeWireSize (data : List UInt8) : UInt8 → Except Fault WireSize
  | 0x01 => do
      need data 6
      let size ← bytesAt data 2 4
      return .fixed (ofLE size)
  | 0x02 => .ok .lengthPrefixed
  | value => unknownTag ("Unknown WireSize tag: " ++ hexByte value)

def CustomDataTypeSnapshot.decode (data : List UInt8) : Except Fault CustomDataTypeSnapshot := do
  need data 2
  let kind ← byteAt data 1
  let wireSize ← decodeWireSize data kind
  let headerLen ← wireHeaderLen kind
  need data (headerLen + 1)
  let (tag, _) ← readName data headerLen 0
  return ⟨tag, wireSize⟩

def DataTypeSnapshot.decode (data : List UInt8) : Except Fault DataTypeSnapshot := do
  need data 1
  match ← byteAt data 0 with
  | 0x01 => return .int8
  | 0x02 => return .int16
  | 0x03 => return .int32
  | 0x04 => return .int64
  | 0x10 => return .uint8
  | 0x11 => return .uint16
  | 0x12 => return .uint32
  | 0x13 => return .uint64
  | 0x20 => return .float32
  | 0x21 => return .float64
  | 0x22 => return .decimal
  | 0x30 => return .boolean
  | 0x40 => return .date
  | 0x41 => return .datetime
  | 0x50 => return .blob
  | 0x51 => return .text
  | 0x52 => return .uuid
  | 0x60 => return .json
  | 0xF0 => .custom <$> CustomDataTypeSnapshot.decode data
  | value => unknownTag ("Unknown `DataTypeSnapshot` tag: " ++ hexByte value)

/-- The length of the type at an offset, from its tag. -/
def dataTypeLen (data : List UInt8) (offset : ℕ) : Except Fault ℕ := do
  let tag ← byteAt data offset
  if tag = 0xF0 then
    need data (offset + 2)
    let header ← byteAt data (offset + 1) >>= wireHeaderLen
    need data (offset + header + 1)
    let nameLen ← byteAt data (offset + header)
    return header + 1 + nameLen.toNat
  else return 1

section Decode
variable {D J : Type} (formats : Formats D J)

def ColumnSnapshot.decode (data : List UInt8) : Except Fault (ColumnSnapshot (StoredValue D J)) := do
  need data 1
  let (name, offset) ← readName data 0 0
  need data (offset + 1)
  let consumed ← dataTypeLen data offset
  need data (offset + consumed)
  let dataType ← bytesAt data offset consumed >>= DataTypeSnapshot.decode
  need data (offset + consumed + 1)
  let flags ← byteAt data (offset + consumed)
  let (foreignKey, offset) ← readOption ForeignKeySnapshot.decode data (offset + consumed + 1)
  let (default, _) ← readOption (decodeValue formats) data offset
  return {
    name, dataType
    nullable := flags &&& 1 != 0
    autoIncrement := flags &&& 2 != 0
    unique := flags &&& 4 != 0
    primaryKey := flags &&& 8 != 0
    foreignKey, default }

def TableSchemaSnapshot.decode (data : List UInt8) : Except Fault (TableSchemaSnapshot (StoredValue D J)) := do
  need data 1
  let version ← byteAt data 0
  if version.toNat ≠ schemaSnapshotVersion then
    unknownTag ("Unsupported `TableSchemaSnapshot` version: " ++ hexByte version)
  else
    need data 2
    let (name, offset) ← readName data 1 0
    need data (offset + 1)
    let (primaryKey, offset) ← readName data offset 0
    need data (offset + 4)
    let alignment ← ofLE <$> bytesAt data offset 4
    let (columns, offset) ← readCounted (ColumnSnapshot.decode formats) data (offset + 4)
    let (indexes, _) ← readCounted IndexSnapshot.decode data offset
    return { version := version.toNat, name, primaryKey, alignment, columns, indexes }

end Decode
/-! ## Decoding returns -/

/-- The reader returns, and leaves at least `spare` bytes behind the offset it ends at. -/
structure Stops {α : Type} (data : List UInt8) (spare : ℕ) (x : Except Fault (α × ℕ)) : Prop where
  returns : Returns x
  within : ∀ a offset, x = .ok (a, offset) → offset + spare ≤ data.length

section Returns
variable {α β : Type} {data : List UInt8} {spare : ℕ}

theorem need_ok {stop : ℕ} : need data stop = .ok () ↔ stop ≤ data.length := by
  rw [need]
  by_cases short : data.length < stop
  · rw [if_pos short]
    exact ⟨fun no => (by cases no), fun fits => absurd fits (not_le.mpr short)⟩
  · rw [if_neg short]
    exact ⟨fun _ => not_lt.mp short, fun _ => rfl⟩

theorem Returns.need {stop : ℕ} {rest : Except Fault β} (later : stop ≤ data.length → Returns rest) :
    Returns (do need data stop; rest) := by
  refine .bind ?_ fun _ here => later (need_ok.mp here)
  rw [WasmDbms.need]
  split
  · exact .error
  · exact .ok

theorem unknownTag_returns {message : String} : Returns (unknownTag message : Except Fault α) := .error

namespace Stops

theorem ok {a : α} {offset : ℕ} (fits : offset + spare ≤ data.length) : Stops data spare (.ok (a, offset)) :=
  ⟨.ok, fun _ _ same => by cases same; exact fits⟩

theorem bind {x : Except Fault β} {f : β → Except Fault (α × ℕ)} (first : Returns x)
    (later : ∀ b, x = .ok b → Stops data spare (f b)) : Stops data spare (x >>= f) := by
  refine ⟨first.bind fun b here => (later b here).returns, fun a offset run => ?_⟩
  obtain ⟨b, here, run⟩ := bind_eq_ok.mp run
  exact (later b here).within a offset run

theorem need {stop : ℕ} {rest : Except Fault (α × ℕ)} (later : stop ≤ data.length → Stops data spare rest) :
    Stops data spare (do WasmDbms.need data stop; rest) :=
  ⟨.need fun fits => (later fits).returns, fun a offset run => by
    obtain ⟨_, here, run⟩ := bind_eq_ok.mp run
    exact (later (need_ok.mp here)).within a offset run⟩

/-- What follows a reader starts inside the input. -/
theorem followed {x : Except Fault (α × ℕ)} (first : Stops data spare x) {f : α × ℕ → Except Fault β}
    (later : ∀ a offset, offset + spare ≤ data.length → Returns (f (a, offset))) : Returns (x >>= f) :=
  first.returns.bind fun pair here => later pair.1 pair.2 (first.within _ _ here)

end Stops

theorem readName_stops {offset : ℕ} (inside : offset < data.length) : Stops data spare (readName data offset spare) := by
  refine .bind (byteAt_returns inside) fun len _ => .need fun fits => ?_
  refine .bind (bytesAt_returns (by omega)) fun bytes _ => .bind (decodeUtf8_returns bytes) fun name _ => ?_
  exact .ok fits

variable {decode : List UInt8 → Except Fault α} (each : ∀ part, Returns (decode part))
include each

theorem readPart_stops (offset : ℕ) : Stops data 0 (readPart decode data offset) := by
  refine .need fun header => .bind (.map (bytesAt_returns header)) fun len _ => .need fun fits => ?_
  refine .bind (bytesAt_returns fits) fun part _ => .bind (each part) fun a _ => ?_
  exact .ok fits

theorem readOption_stops (offset : ℕ) : Stops data 0 (readOption decode data offset) := by
  refine .need fun fits => .bind (byteAt_returns fits) fun flag _ => ?_
  split
  · have part : Stops data 0 (readPart decode data (offset + 1)) := readPart_stops each _
    exact .bind part.returns fun pair here => .ok (part.within _ _ here)
  · exact .ok fits

theorem readParts_stops (count : ℕ) {offset : ℕ} (inside : offset ≤ data.length) :
    Stops data 0 (readParts decode data count offset) := by
  induction count generalizing offset with
  | zero => exact .ok inside
  | succ count ih =>
      have part : Stops data 0 (readPart decode data offset) := readPart_stops each _
      refine .bind part.returns fun pair here => ?_
      have rest := ih (part.within _ _ here)
      exact .bind rest.returns fun others there => .ok (rest.within _ _ there)

theorem readCounted_stops (offset : ℕ) : Stops data 0 (readCounted decode data offset) :=
  .need fun header => .bind (.map (bytesAt_returns header)) fun count _ => readParts_stops each count header

omit each

theorem readColumnNames_stops (count : ℕ) {offset : ℕ} (inside : offset + 1 ≤ data.length) :
    Stops data 1 (readColumnNames data count offset) := by
  induction count generalizing offset with
  | zero => exact .ok inside
  | succ count ih =>
      refine .need fun fits => ?_
      have name : Stops data 1 (readName data offset 1) := readName_stops fits
      refine .bind name.returns fun pair here => ?_
      have rest := ih (name.within _ _ here)
      exact .bind rest.returns fun others there => .ok (rest.within _ _ there)

theorem IndexSnapshot.decode_returns (data : List UInt8) : Returns (IndexSnapshot.decode data) := by
  refine .need fun two => .bind (byteAt_returns (by omega)) fun count _ => ?_
  refine (readColumnNames_stops count.toNat two).followed fun columns offset inside => ?_
  exact .bind (byteAt_returns inside) fun _ _ => .ok

theorem OnDeleteSnapshot.decode_returns (b : UInt8) : Returns (OnDeleteSnapshot.decode b) := by
  unfold OnDeleteSnapshot.decode
  split
  · exact .ok
  · exact .ok
  · exact unknownTag_returns

theorem ForeignKeySnapshot.decode_returns (data : List UInt8) : Returns (ForeignKeySnapshot.decode data) := by
  refine .need fun three => (readName_stops (by omega)).followed fun table offset inside => ?_
  refine (readName_stops inside).followed fun column offset (inside : offset + 1 ≤ data.length) => ?_
  refine .bind (.bind (byteAt_returns inside) fun b _ => OnDeleteSnapshot.decode_returns b) fun _ _ => .ok

theorem wireHeaderLen_returns (b : UInt8) : Returns (wireHeaderLen b) := by
  unfold wireHeaderLen
  split
  · exact .ok
  · exact .ok
  · exact unknownTag_returns

theorem decodeWireSize_returns (data : List UInt8) (b : UInt8) : Returns (decodeWireSize data b) := by
  unfold decodeWireSize
  split
  · exact .need fun six => .bind (bytesAt_returns (by omega)) fun _ _ => .ok
  · exact .ok
  · exact unknownTag_returns

theorem CustomDataTypeSnapshot.decode_returns (data : List UInt8) : Returns (CustomDataTypeSnapshot.decode data) := by
  refine .need fun two => .bind (byteAt_returns (by omega)) fun kind _ => ?_
  refine .bind (decodeWireSize_returns data kind) fun wireSize _ => ?_
  refine .bind (wireHeaderLen_returns kind) fun headerLen _ => .need fun fits => ?_
  exact (readName_stops fits).followed fun _ offset (_ : offset + 0 ≤ data.length) => .ok

theorem DataTypeSnapshot.decode_returns (data : List UInt8) : Returns (DataTypeSnapshot.decode data) := by
  refine .need fun one => .bind (byteAt_returns one) fun tag _ => ?_
  split
  case h_19 => exact .map (CustomDataTypeSnapshot.decode_returns data)
  case h_20 => exact unknownTag_returns
  all_goals exact .ok

theorem dataTypeLen_returns {offset : ℕ} (inside : offset < data.length) : Returns (dataTypeLen data offset) := by
  refine .bind (byteAt_returns inside) fun tag _ => ?_
  split
  · refine .need fun two => .bind (.bind (byteAt_returns (by omega)) fun b _ => wireHeaderLen_returns b) fun header _ => ?_
    exact .need fun fits => .bind (byteAt_returns (by omega)) fun _ _ => .ok
  · exact .ok

variable {D J : Type} (formats : Formats D J)

theorem ColumnSnapshot.decode_returns (data : List UInt8) : Returns (ColumnSnapshot.decode formats data) := by
  refine .need fun one => (readName_stops one).followed fun name offset (_ : offset + 0 ≤ data.length) => ?_
  refine .need fun inside => .bind (dataTypeLen_returns inside) fun consumed _ => .need fun fits => ?_
  refine .bind (.bind (bytesAt_returns fits) fun part _ => DataTypeSnapshot.decode_returns part) fun dataType _ => ?_
  refine .need fun flagged => .bind (byteAt_returns (by omega)) fun flags _ => ?_
  refine (readOption_stops ForeignKeySnapshot.decode_returns _).followed fun foreignKey offset _ => ?_
  exact (readOption_stops (decodeValue_returns formats) offset).followed fun _ _ _ => .ok

/-- Decoding returns a snapshot or an error. -/
theorem TableSchemaSnapshot.decode_returns (data : List UInt8) : Returns (TableSchemaSnapshot.decode formats data) := by
  refine .need fun one => .bind (byteAt_returns (by omega)) fun version _ => ?_
  split
  · exact unknownTag_returns
  · refine .need fun two => (readName_stops (by omega)).followed fun name offset (_ : offset + 0 ≤ data.length) => ?_
    refine .need fun inside => (readName_stops inside).followed fun primaryKey offset (_ : offset + 0 ≤ data.length) => ?_
    refine .need fun four => .bind (.map (bytesAt_returns four)) fun alignment _ => ?_
    refine (readCounted_stops (ColumnSnapshot.decode_returns formats) _).followed fun columns offset _ => ?_
    exact (readCounted_stops IndexSnapshot.decode_returns offset).followed fun _ _ _ => .ok

end Returns
/-! ## Decoding what was encoded -/

/-- What lies behind an offset of the input. -/
structure At (data : List UInt8) (offset : ℕ) (rest : List UInt8) : Prop where
  inside : offset ≤ data.length
  drop : data.drop offset = rest

section Cursor
variable {data code rest : List UInt8} {offset : ℕ} {b : UInt8}

namespace At

theorem start (data : List UInt8) : At data 0 data := ⟨Nat.zero_le _, rfl⟩

theorem length (here : At data offset rest) : data.length = offset + rest.length := by
  have inside := here.inside
  rw [← here.drop, List.length_drop]
  omega

theorem skip (here : At data offset (code ++ rest)) : At data (offset + code.length) rest := by
  refine ⟨?_, ?_⟩
  · rw [here.length, List.length_append]
    omega
  · rw [← List.drop_drop, here.drop, List.drop_left]

theorem need (here : At data offset rest) {k : ℕ} (fits : k ≤ rest.length) :
    WasmDbms.need data (offset + k) = .ok () := by
  refine need_ok.mpr ?_
  rw [here.length]
  omega

theorem bytes (here : At data offset (code ++ rest)) : bytesAt data offset code.length = .ok code := by
  have long := here.length
  rw [List.length_append] at long
  rw [bytesAt_eq (by omega), here.drop, List.take_left]

theorem byte (here : At data offset (b :: rest)) : byteAt data offset = .ok b := by
  have head : data[offset]? = some b := by
    rw [← List.head?_drop, here.drop]
    rfl
  rw [byteAt, head]

theorem next (here : At data offset (b :: rest)) : At data (offset + 1) rest := @skip data [b] rest offset here

end At

theorem readName_at {s : String} {spare : ℕ} (here : At data offset (encodeName s ++ rest)) (fits : NameFits s)
    (behind : spare ≤ rest.length) : readName data offset spare = .ok (s, offset + (encodeName s).length) := by
  have len : (UInt8.ofNat (utf8 s).length).toNat = (utf8 s).length := by
    rw [UInt8.toNat_ofNat']
    exact Nat.mod_eq_of_lt (Nat.lt_succ_of_le fits)
  have front : encodeName s ++ rest = UInt8.ofNat (utf8 s).length :: (utf8 s ++ rest) := by
    rw [encodeName, u8Len, Nat.min_eq_left fits]
    rfl
  rw [front] at here
  have text := here.next
  have inside : need data (offset + 1 + ((utf8 s).length + spare)) = .ok () := text.need (by
    rw [List.length_append]
    omega)
  refine bind_eq_ok.mpr ⟨_, here.byte, ?_⟩
  rw [len, Nat.add_assoc (offset + 1), inside]
  refine bind_eq_ok.mpr ⟨_, rfl, bind_eq_ok.mpr ⟨_, text.bytes, bind_eq_ok.mpr ⟨_, utf8_decode s, ?_⟩⟩⟩
  rw [encodeName_length, Nat.add_assoc]
  rfl

section Parts
variable {α β : Type} {encode : α → List UInt8} {decode : List UInt8 → Except Fault β} {back : α → β}

theorem readPart_at {a : β} (here : At data offset (encodePayload code ++ rest)) (fits : code.length ≤ msizeMax)
    (read : decode code = .ok a) : readPart decode data offset = .ok (a, offset + (encodePayload code).length) := by
  have front : encodePayload code ++ rest = lengthPrefix code.length ++ (code ++ rest) := by
    rw [encodePayload, List.append_assoc]
  rw [front] at here
  have two := lengthPrefix_length code.length
  have body : At data (offset + 2) (code ++ rest) := two ▸ here.skip
  have header : need data (offset + 2) = .ok () := here.need (by
    rw [List.length_append, two]
    omega)
  have len : bytesAt data offset 2 = .ok (lengthPrefix code.length) := two ▸ here.bytes
  have size : ofLE <$> bytesAt data offset 2 = .ok code.length := by
    rw [len]
    exact congrArg Except.ok (ofLE_lengthPrefix fits)
  have inside : need data (offset + 2 + code.length) = .ok () := body.need (by
    rw [List.length_append]
    omega)
  refine bind_eq_ok.mpr ⟨_, header, bind_eq_ok.mpr ⟨_, size, bind_eq_ok.mpr ⟨_, inside, ?_⟩⟩⟩
  refine bind_eq_ok.mpr ⟨_, body.bytes, bind_eq_ok.mpr ⟨_, read, ?_⟩⟩
  rw [encodePayload_length, Nat.add_assoc]
  rfl

theorem readOption_at {a : Option α} (here : At data offset (encodeOption encode a ++ rest))
    (each : ∀ x, a = some x → (encode x).length ≤ msizeMax ∧ decode (encode x) = .ok (back x)) :
    readOption decode data offset = .ok (a.map back, offset + (encodeOption encode a).length) := by
  cases a with
  | none =>
      refine bind_eq_ok.mpr ⟨_, here.need (Nat.le_add_left _ _), bind_eq_ok.mpr ⟨0, here.byte, ?_⟩⟩
      rfl
  | some x =>
      obtain ⟨fits, read⟩ := each x rfl
      have front : encodeOption encode (some x) ++ rest = 1 :: (encodePayload (encode x) ++ rest) := rfl
      rw [front] at here
      refine bind_eq_ok.mpr ⟨_, here.need (Nat.le_add_left _ _), bind_eq_ok.mpr ⟨1, here.byte, ?_⟩⟩
      refine bind_eq_ok.mpr ⟨_, readPart_at here.next fits read, ?_⟩
      rw [encodeOption, List.length_cons, Nat.add_assoc, Nat.add_comm 1]
      rfl

theorem readParts_at {parts : List α} (here : At data offset (parts.flatMap (fun x => encodePayload (encode x)) ++ rest))
    (each : ∀ x ∈ parts, (encode x).length ≤ msizeMax ∧ decode (encode x) = .ok (back x)) :
    readParts decode data parts.length offset =
      .ok (parts.map back, offset + (parts.flatMap fun x => encodePayload (encode x)).length) := by
  induction parts generalizing offset with
  | nil => rfl
  | cons x parts ih =>
      rw [List.forall_mem_cons] at each
      rw [List.flatMap_cons, List.append_assoc] at here
      have first := readPart_at here each.1.1 each.1.2
      refine bind_eq_ok.mpr ⟨_, first, bind_eq_ok.mpr ⟨_, ih here.skip each.2, ?_⟩⟩
      rw [List.flatMap_cons, List.length_append, Nat.add_assoc]
      rfl

theorem readCounted_at {parts : List α} (here : At data offset (encodeParts encode parts ++ rest))
    (count : parts.length ≤ msizeMax)
    (each : ∀ x ∈ parts, (encode x).length ≤ msizeMax ∧ decode (encode x) = .ok (back x)) :
    readCounted decode data offset = .ok (parts.map back, offset + (encodeParts encode parts).length) := by
  have two := lengthPrefix_length parts.length
  rw [encodeParts, List.append_assoc] at here
  have body : At data (offset + 2) _ := two ▸ here.skip
  have header : need data (offset + 2) = .ok () := here.need (by
    rw [List.length_append, two]
    omega)
  have len : bytesAt data offset 2 = .ok (lengthPrefix parts.length) := two ▸ here.bytes
  have size : ofLE <$> bytesAt data offset 2 = .ok parts.length := by
    rw [len]
    exact congrArg Except.ok (ofLE_lengthPrefix count)
  refine bind_eq_ok.mpr ⟨_, header, bind_eq_ok.mpr ⟨_, size, (readParts_at body each).trans ?_⟩⟩
  rw [encodeParts, List.length_append, two, Nat.add_assoc]

end Parts

theorem readColumnNames_at {columns : List String} (here : At data offset (columns.flatMap encodeName ++ rest))
    (fits : ∀ column ∈ columns, NameFits column) (behind : 1 ≤ rest.length) :
    readColumnNames data columns.length offset = .ok (columns, offset + (columns.flatMap encodeName).length) := by
  induction columns generalizing offset with
  | nil => rfl
  | cons column columns ih =>
      rw [List.forall_mem_cons] at fits
      rw [List.flatMap_cons, List.append_assoc] at here
      have room : 1 ≤ (columns.flatMap encodeName ++ rest).length := by
        rw [List.length_append]
        omega
      have inside : need data (offset + 1) = .ok () := here.need (by
        rw [List.length_append]
        omega)
      refine bind_eq_ok.mpr ⟨_, inside, bind_eq_ok.mpr ⟨_, readName_at here fits.1 room, ?_⟩⟩
      refine bind_eq_ok.mpr ⟨_, ih here.skip fits.2, ?_⟩
      rw [List.flatMap_cons, List.length_append, Nat.add_assoc]
      rfl

end Cursor

theorem toUInt8_ne_zero (b : Bool) : (b.toUInt8 != 0) = b := by
  cases b <;> rfl

theorem IndexSnapshot.decode_encode {index : IndexSnapshot} (fits : index.Fits) :
    IndexSnapshot.decode index.encode = .ok index := by
  have count : (UInt8.ofNat index.columns.length).toNat = index.columns.length := by
    rw [UInt8.toNat_ofNat']
    exact Nat.mod_eq_of_lt (Nat.lt_succ_of_le fits.count)
  have form : index.encode = UInt8.ofNat index.columns.length :: (index.columns.flatMap encodeName ++ [index.unique.toUInt8]) := by
    rw [encode, u8Len, Nat.min_eq_left fits.count, List.append_assoc]
    rfl
  have here : At index.encode 0 (UInt8.ofNat index.columns.length :: (index.columns.flatMap encodeName ++ [index.unique.toUInt8])) :=
    form ▸ At.start _
  have names := here.next
  have columns := readColumnNames_at names fits.names (le_refl 1)
  rw [← count] at columns
  have two : need index.encode (0 + 2) = .ok () := here.need (by
    rw [List.length_cons, List.length_append, List.length_singleton]
    omega)
  refine bind_eq_ok.mpr ⟨_, two, bind_eq_ok.mpr ⟨_, here.byte, bind_eq_ok.mpr ⟨_, columns, ?_⟩⟩⟩
  refine bind_eq_ok.mpr ⟨_, names.skip.byte, ?_⟩
  rw [toUInt8_ne_zero]
  rfl

theorem OnDeleteSnapshot.decode_code (action : OnDeleteSnapshot) : OnDeleteSnapshot.decode action.code = .ok action := by
  cases action <;> rfl

theorem ForeignKeySnapshot.decode_encode {fk : ForeignKeySnapshot} (fits : fk.Fits) :
    ForeignKeySnapshot.decode fk.encode = .ok fk := by
  have form : fk.encode = encodeName fk.table ++ (encodeName fk.column ++ [fk.onDelete.code]) := by
    rw [encode, List.append_assoc]
  have here : At fk.encode 0 (encodeName fk.table ++ (encodeName fk.column ++ [fk.onDelete.code])) := form ▸ At.start _
  have behind : 1 ≤ (encodeName fk.column ++ [fk.onDelete.code]).length := by
    rw [List.length_append, List.length_singleton]
    omega
  have three : need fk.encode 3 = .ok () := by
    refine need_ok.mpr ?_
    rw [encode_length]
    omega
  have column := here.skip
  refine bind_eq_ok.mpr ⟨_, three, bind_eq_ok.mpr ⟨_, readName_at here fits.table behind, ?_⟩⟩
  refine bind_eq_ok.mpr ⟨_, readName_at column fits.column (le_refl 1), ?_⟩
  refine bind_eq_ok.mpr ⟨_, bind_eq_ok.mpr ⟨_, column.skip.byte, fk.onDelete.decode_code⟩, rfl⟩

/-- The size is a `u32`. -/
def WireSize.InRange : WireSize → Prop
  | fixed size => size < 256 ^ 4
  | lengthPrefixed => True

def DataTypeSnapshot.InRange : DataTypeSnapshot → Prop
  | custom type => type.wireSize.InRange
  | _ => True

/-- The first byte of a wire size. -/
def WireSize.kind : WireSize → UInt8
  | fixed _ => 0x01
  | lengthPrefixed => 0x02

theorem WireSize.encode_cons (size : WireSize) : ∃ tail, size.encode = size.kind :: tail := by
  cases size with
  | fixed size => exact ⟨_, rfl⟩
  | lengthPrefixed => exact ⟨_, rfl⟩

theorem wireHeaderLen_kind (size : WireSize) : wireHeaderLen size.kind = .ok (1 + size.encode.length) := by
  cases size with
  | fixed size =>
      rw [WireSize.encode_length]
      rfl
  | lengthPrefixed => rfl

theorem decodeWireSize_at {data rest : List UInt8} {size : WireSize} (here : At data 1 (size.encode ++ rest))
    (range : size.InRange) : decodeWireSize data size.kind = .ok size := by
  cases size with
  | lengthPrefixed => rfl
  | fixed size =>
      have body : At data 2 (toLE 4 size ++ rest) := here.next
      have four := toLE_length 4 size
      have inside : need data (2 + 4) = .ok () := body.need (by
        rw [List.length_append, four]
        omega)
      have bytes : bytesAt data 2 4 = .ok (toLE 4 size) := four ▸ body.bytes
      refine bind_eq_ok.mpr ⟨_, inside, bind_eq_ok.mpr ⟨_, bytes, ?_⟩⟩
      exact congrArg (fun n => Except.ok (WireSize.fixed n)) (ofLE_toLE_of_lt range)

theorem CustomDataTypeSnapshot.decode_at {data rest : List UInt8} {type : CustomDataTypeSnapshot}
    (here : At data 0 (0xF0 :: (type.wireSize.encode ++ (encodeName type.tag ++ rest)))) (fits : NameFits type.tag)
    (range : type.wireSize.InRange) : CustomDataTypeSnapshot.decode data = .ok type := by
  have wire : At data 1 (type.wireSize.encode ++ (encodeName type.tag ++ rest)) := here.next
  obtain ⟨tail, form⟩ := type.wireSize.encode_cons
  have kind : byteAt data 1 = .ok type.wireSize.kind := by
    have front := wire
    rw [form] at front
    exact front.byte
  have name := wire.skip
  have two : need data (1 + 1) = .ok () := wire.need (by
    rw [form, List.cons_append, List.length_cons]
    omega)
  have nonempty : need data (1 + type.wireSize.encode.length + 1) = .ok () := name.need (by
    rw [List.length_append, encodeName_length]
    omega)
  refine bind_eq_ok.mpr ⟨_, two, bind_eq_ok.mpr ⟨_, kind, bind_eq_ok.mpr ⟨_, decodeWireSize_at wire range, ?_⟩⟩⟩
  refine bind_eq_ok.mpr ⟨_, wireHeaderLen_kind _, bind_eq_ok.mpr ⟨_, nonempty, ?_⟩⟩
  exact bind_eq_ok.mpr ⟨_, readName_at name fits (Nat.zero_le _), rfl⟩

theorem DataTypeSnapshot.decode_encode {dt : DataTypeSnapshot} (fits : dt.Fits) (range : dt.InRange) :
    DataTypeSnapshot.decode dt.encode = .ok dt := by
  cases dt with
  | custom type =>
      have form : (custom type).encode = 0xF0 :: (type.wireSize.encode ++ (encodeName type.tag ++ [])) := by
        rw [encode, List.append_nil]
        rfl
      have here : At (custom type).encode 0 (0xF0 :: (type.wireSize.encode ++ (encodeName type.tag ++ []))) :=
        form ▸ At.start _
      have one : need (custom type).encode (0 + 1) = .ok () := here.need (Nat.le_add_left _ _)
      refine bind_eq_ok.mpr ⟨_, one, bind_eq_ok.mpr ⟨_, here.byte, ?_⟩⟩
      exact congrArg (custom <$> ·) (CustomDataTypeSnapshot.decode_at here fits range)
  | _ => rfl

theorem dataTypeLen_at {data rest : List UInt8} {offset : ℕ} {dt : DataTypeSnapshot} (here : At data offset (dt.encode ++ rest))
    (fits : dt.Fits) : dataTypeLen data offset = .ok dt.encode.length := by
  cases dt with
  | custom type =>
      have len : (UInt8.ofNat (utf8 type.tag).length).toNat = (utf8 type.tag).length := by
        rw [UInt8.toNat_ofNat']
        exact Nat.mod_eq_of_lt (Nat.lt_succ_of_le fits)
      have front : (DataTypeSnapshot.custom type).encode ++ rest =
          0xF0 :: (type.wireSize.encode ++ (UInt8.ofNat (utf8 type.tag).length :: (utf8 type.tag ++ rest))) := by
        rw [DataTypeSnapshot.encode, encodeName, u8Len, Nat.min_eq_left fits, List.cons_append, List.append_assoc,
          List.append_assoc]
        rfl
      rw [front] at here
      have wire := here.next
      obtain ⟨tail, form⟩ := type.wireSize.encode_cons
      have kind : byteAt data (offset + 1) = .ok type.wireSize.kind := by
        have start := wire
        rw [form] at start
        exact start.byte
      have name := wire.skip
      have place : offset + 1 + type.wireSize.encode.length = offset + (1 + type.wireSize.encode.length) := by omega
      have two : need data (offset + 2) = .ok () := here.need (by
        rw [List.length_cons, form, List.cons_append, List.length_cons]
        omega)
      have nonempty : need data (offset + (1 + type.wireSize.encode.length) + 1) = .ok () := place ▸ name.need (by
        rw [List.length_cons]
        omega)
      have nameLen : byteAt data (offset + (1 + type.wireSize.encode.length)) = .ok (UInt8.ofNat (utf8 type.tag).length) :=
        place ▸ name.byte
      refine bind_eq_ok.mpr ⟨_, here.byte, ?_⟩
      rw [if_pos rfl]
      refine bind_eq_ok.mpr ⟨_, two, bind_eq_ok.mpr ⟨_, bind_eq_ok.mpr ⟨_, kind, wireHeaderLen_kind _⟩, ?_⟩⟩
      refine bind_eq_ok.mpr ⟨_, nonempty, bind_eq_ok.mpr ⟨_, nameLen, ?_⟩⟩
      rw [len, DataTypeSnapshot.encode, List.length_cons, List.length_append, encodeName_length]
      exact congrArg Except.ok (by omega)
  | _ => exact bind_eq_ok.mpr ⟨_, here.byte, rfl⟩

theorem flags_bits (nullable autoIncrement unique primaryKey : Bool) (flags : UInt8)
    (made : flags = (if nullable then 1 else 0) ||| (if autoIncrement then 2 else 0) ||| (if unique then 4 else 0) |||
      (if primaryKey then 8 else 0)) :
    (flags &&& 1 != 0) = nullable ∧ (flags &&& 2 != 0) = autoIncrement ∧ (flags &&& 4 != 0) = unique ∧
      (flags &&& 8 != 0) = primaryKey := by
  subst made
  revert nullable autoIncrement unique primaryKey
  decide

section Snapshots
variable {D J : Type} {formats : Formats D J}

/-- The column with the display string of a custom default left empty. -/
def ColumnSnapshot.withoutDisplay (column : ColumnSnapshot (StoredValue D J)) : ColumnSnapshot (StoredValue D J) :=
  { column with default := column.default.map StoredValue.withoutDisplay }

def TableSchemaSnapshot.withoutDisplay (snapshot : TableSchemaSnapshot (StoredValue D J)) :
    TableSchemaSnapshot (StoredValue D J) :=
  { snapshot with columns := snapshot.columns.map ColumnSnapshot.withoutDisplay }

/-- The codec of values gives back the default. -/
def ColumnSnapshot.ReadsBack (formats : Formats D J) (column : ColumnSnapshot (StoredValue D J)) : Prop :=
  ∀ value, column.default = some value → decodeValue formats (encodeValue formats value) = .ok value.withoutDisplay

theorem ColumnSnapshot.decode_encode {column : ColumnSnapshot (StoredValue D J)} (fits : column.Fits formats)
    (range : column.dataType.InRange) (reads : column.ReadsBack formats) :
    ColumnSnapshot.decode formats (column.encode formats) = .ok column.withoutDisplay := by
  have form : column.encode formats = encodeName column.name ++ (column.dataType.encode ++ (column.flags ::
      (encodeOption ForeignKeySnapshot.encode column.foreignKey ++ (encodeOption (encodeValue formats) column.default ++ [])))) := by
    rw [encode, List.append_assoc, List.append_assoc, List.append_assoc, List.append_nil]
    rfl
  have name : At (column.encode formats) 0 (encodeName column.name ++ (column.dataType.encode ++ (column.flags ::
      (encodeOption ForeignKeySnapshot.encode column.foreignKey ++ (encodeOption (encodeValue formats) column.default ++ []))))) :=
    form ▸ At.start _
  have dataType := name.skip
  have flags := dataType.skip
  have foreignKey := flags.next
  have default := foreignKey.skip
  have typed := column.dataType.encode_length
  have positive : 1 ≤ column.dataType.encodedLen := by
    cases column.dataType with
    | custom type =>
        rw [DataTypeSnapshot.encodedLen]
        omega
    | _ => exact le_refl 1
  have one : need (column.encode formats) (0 + 1) = .ok () := name.need (by
    rw [List.length_append, encodeName_length]
    omega)
  have tagged : need (column.encode formats) (0 + (encodeName column.name).length + 1) = .ok () := dataType.need (by
    rw [List.length_append]
    omega)
  have whole : need (column.encode formats) (0 + (encodeName column.name).length + column.dataType.encode.length) = .ok () :=
    dataType.need (by
      rw [List.length_append]
      omega)
  have flagged : need (column.encode formats)
      (0 + (encodeName column.name).length + column.dataType.encode.length + 1) = .ok () :=
    flags.need (Nat.le_add_left _ _)
  have fkEach (fk : ForeignKeySnapshot) (own : column.foreignKey = some fk) :
      fk.encode.length ≤ msizeMax ∧ ForeignKeySnapshot.decode fk.encode = .ok (id fk) :=
    ⟨(fits.foreignKey fk own).part, ForeignKeySnapshot.decode_encode (fits.foreignKey fk own)⟩
  have fkRead := readOption_at foreignKey fkEach
  have defaultRead := readOption_at default fun value own => ⟨fits.default value own, reads value own⟩
  refine bind_eq_ok.mpr ⟨_, one, bind_eq_ok.mpr ⟨_, readName_at name fits.name (Nat.zero_le _), ?_⟩⟩
  refine bind_eq_ok.mpr ⟨_, tagged, bind_eq_ok.mpr ⟨_, dataTypeLen_at dataType fits.dataType, ?_⟩⟩
  refine bind_eq_ok.mpr ⟨_, whole, bind_eq_ok.mpr ⟨_, bind_eq_ok.mpr ⟨_, dataType.bytes, DataTypeSnapshot.decode_encode fits.dataType range⟩, ?_⟩⟩
  refine bind_eq_ok.mpr ⟨_, flagged, bind_eq_ok.mpr ⟨_, flags.byte, bind_eq_ok.mpr ⟨_, fkRead, bind_eq_ok.mpr ⟨_, defaultRead, ?_⟩⟩⟩⟩
  obtain ⟨nullable, autoIncrement, unique, primaryKey⟩ :=
    flags_bits column.nullable column.autoIncrement column.unique column.primaryKey column.flags rfl
  dsimp only [pure, Except.pure]
  rw [nullable, autoIncrement, unique, primaryKey, Option.map_id]
  rfl

namespace TableSchemaSnapshot

/-- The alignment and the sizes of custom types are `u32`. -/
structure InRange (snapshot : TableSchemaSnapshot (StoredValue D J)) : Prop where
  alignment : snapshot.alignment < 256 ^ 4
  columns : ∀ column ∈ snapshot.columns, column.dataType.InRange

theorem decode_encode {snapshot : TableSchemaSnapshot (StoredValue D J)} (current : snapshot.version = schemaSnapshotVersion)
    (range : snapshot.InRange) (fits : snapshot.Fits formats)
    (reads : ∀ column ∈ snapshot.columns, column.ReadsBack formats) :
    decode formats (snapshot.encode formats) = .ok snapshot.withoutDisplay := by
  have version : (UInt8.ofNat snapshot.version).toNat = snapshot.version := by
    rw [current]
    rfl
  have form : snapshot.encode formats = UInt8.ofNat snapshot.version :: (encodeName snapshot.name ++
      (encodeName snapshot.primaryKey ++ (toLE 4 snapshot.alignment ++
        (encodeParts (ColumnSnapshot.encode formats) snapshot.columns ++
          (encodeParts IndexSnapshot.encode snapshot.indexes ++ []))))) := by
    rw [encode, List.append_assoc, List.append_assoc, List.append_assoc, List.append_nil]
  generalize snapshot.encode formats = data at form
  have start := At.mk (Nat.zero_le data.length) form
  have name := start.next
  have primaryKey := name.skip
  have alignment := primaryKey.skip
  have four := toLE_length 4 snapshot.alignment
  have columns := alignment.skip
  have indexes := columns.skip
  have one : need data (0 + 1) = .ok () := start.need (Nat.le_add_left _ _)
  have named : need data (0 + 1 + 1) = .ok () := name.need (by
    rw [List.length_append, encodeName_length]
    omega)
  have keyed : need data (0 + 1 + (encodeName snapshot.name).length + 1) = .ok () := primaryKey.need (by
    rw [List.length_append, encodeName_length]
    omega)
  have aligned : need data (0 + 1 + (encodeName snapshot.name).length + (encodeName snapshot.primaryKey).length + 4) = .ok () :=
    alignment.need (by
      rw [List.length_append, four]
      omega)
  have bytes : ofLE <$> bytesAt data (0 + 1 + (encodeName snapshot.name).length + (encodeName snapshot.primaryKey).length) 4 =
      .ok snapshot.alignment := by
    have read := alignment.bytes
    rw [four] at read
    rw [read]
    exact congrArg Except.ok (ofLE_toLE_of_lt range.alignment)
  rw [four] at columns indexes
  have columnsRead := readCounted_at columns fits.columnCount fun column member =>
    ⟨(fits.columns column member).2,
      ColumnSnapshot.decode_encode (fits.columns column member).1 (range.columns column member) (reads column member)⟩
  have indexEach (index : IndexSnapshot) (member : index ∈ snapshot.indexes) :
      index.encode.length ≤ msizeMax ∧ IndexSnapshot.decode index.encode = .ok (id index) :=
    ⟨(fits.indexes index member).2, IndexSnapshot.decode_encode (fits.indexes index member).1⟩
  have indexesRead := readCounted_at indexes fits.indexCount indexEach
  refine bind_eq_ok.mpr ⟨_, one, bind_eq_ok.mpr ⟨_, start.byte, ?_⟩⟩
  rw [if_neg (not_not_intro (version.trans current))]
  refine bind_eq_ok.mpr ⟨_, named, bind_eq_ok.mpr ⟨_, readName_at name fits.name (Nat.zero_le _), ?_⟩⟩
  refine bind_eq_ok.mpr ⟨_, keyed, bind_eq_ok.mpr ⟨_, readName_at primaryKey fits.primaryKey (Nat.zero_le _), ?_⟩⟩
  refine bind_eq_ok.mpr ⟨_, aligned, bind_eq_ok.mpr ⟨_, bytes, bind_eq_ok.mpr ⟨_, columnsRead, bind_eq_ok.mpr ⟨_, indexesRead, ?_⟩⟩⟩⟩
  rw [version, List.map_id]
  rfl

/-- The validator accepts exactly the snapshots that fit their fields. For these the size is the
length of the encoding, which is read back and tells them apart, as far as the codec of values
reads the defaults back. Decoding never panics. -/
theorem encoding_codec {snapshot : TableSchemaSnapshot (StoredValue D J)} (current : snapshot.version = schemaSnapshotVersion)
    (range : snapshot.InRange) :
    (snapshot.validateEncoding formats = .ok () ↔ snapshot.Fits formats) ∧
    (snapshot.validateEncoding formats = .ok () → snapshot.size = (snapshot.encode formats).length ∧
      ((∀ column ∈ snapshot.columns, column.ReadsBack formats) →
        decode formats (snapshot.encode formats) = .ok snapshot.withoutDisplay ∧
        ∀ other : TableSchemaSnapshot (StoredValue D J), other.version = schemaSnapshotVersion → other.InRange →
          other.validateEncoding formats = .ok () → (∀ column ∈ other.columns, column.ReadsBack formats) →
          other.encode formats = snapshot.encode formats → other.withoutDisplay = snapshot.withoutDisplay)) ∧
    ∀ data, Returns (decode formats data) := by
  refine ⟨validateEncoding_ok, fun valid => ?_, decode_returns formats⟩
  have fits := validateEncoding_ok.mp valid
  refine ⟨(size_eq formats snapshot).trans (Nat.min_eq_left fits.total), fun reads => ?_⟩
  have back := decode_encode current range fits reads
  refine ⟨back, fun other current' range' valid' reads' same => ?_⟩
  have back' := decode_encode current' range' (validateEncoding_ok.mp valid') reads'
  rw [same] at back'
  exact Except.ok.inj (back'.symm.trans back)

end TableSchemaSnapshot
end Snapshots
namespace NestedArrays

/-- A table with a key of a custom type that refers to another table, and an index on it. -/
def ordersSnapshot : TableSchemaSnapshot (StoredValue {bytes : List UInt8 // bytes.length = 16} ℕ) where
  version := schemaSnapshotVersion
  name := "orders"
  primaryKey := "id"
  alignment := 32
  columns := [⟨"id", .custom ⟨"Id", .fixed 4⟩, false, true, true, true, some ⟨"users", "id", .restrict⟩,
    some (.uint32 7)⟩]
  indexes := [⟨["id"], true⟩]

theorem orders_read_back : ordersSnapshot.size = (ordersSnapshot.encode formats).length ∧
    TableSchemaSnapshot.decode formats (ordersSnapshot.encode formats) = .ok ordersSnapshot := by
  have range : ordersSnapshot.InRange := by
    refine ⟨by decide, List.forall_mem_singleton.mpr ?_⟩
    exact (by decide : 4 < 256 ^ 4)
  have reads : ∀ column ∈ ordersSnapshot.columns, column.ReadsBack formats := by
    refine List.forall_mem_singleton.mpr fun value own => ?_
    cases own
    rfl
  obtain ⟨size, back⟩ := (@TableSchemaSnapshot.encoding_codec _ _ formats ordersSnapshot rfl range).2.1 rfl
  exact ⟨size, (back reads).1⟩

end NestedArrays
end WasmDbms
