import WasmDbms.Index.KeyCodec

/-!
# The encoding of schema snapshots

What is written of a snapshot, the lengths that `size` and `validate_encoding` compute for
it, and the snapshots that fit their fields.
-/
namespace WasmDbms
open ByteString Result

/-- `U8_FIELD_MAX`. -/
def u8FieldMax : ℕ := 255

/-- `U16_FIELD_MAX`. -/
def u16FieldMax : ℕ := 65535

/-- `u8_len`. -/
def u8Len (len : ℕ) : List UInt8 := toLE 1 (min len u8FieldMax)

/-- A string behind its length in one byte. -/
def encodeName (s : String) : List UInt8 := u8Len (utf8 s).length ++ utf8 s

/-! ## `encode` -/

def IndexSnapshot.encode (index : IndexSnapshot) : List UInt8 :=
  u8Len index.columns.length ++ index.columns.flatMap encodeName ++ [index.unique.toUInt8]

def OnDeleteSnapshot.code : OnDeleteSnapshot → UInt8
  | restrict => 0x01
  | cascade => 0x02

def ForeignKeySnapshot.encode (fk : ForeignKeySnapshot) : List UInt8 :=
  encodeName fk.table ++ encodeName fk.column ++ [fk.onDelete.code]

def WireSize.encode : WireSize → List UInt8
  | fixed size => 0x01 :: toLE 4 size
  | lengthPrefixed => [0x02]

def DataTypeSnapshot.tag : DataTypeSnapshot → UInt8
  | blob => 0x50
  | boolean => 0x30
  | custom _ => 0xF0
  | date => 0x40
  | datetime => 0x41
  | decimal => 0x22
  | float32 => 0x20
  | float64 => 0x21
  | int16 => 0x02
  | int32 => 0x03
  | int64 => 0x04
  | int8 => 0x01
  | json => 0x60
  | text => 0x51
  | uuid => 0x52
  | uint16 => 0x11
  | uint32 => 0x12
  | uint64 => 0x13
  | uint8 => 0x10

def DataTypeSnapshot.encode : DataTypeSnapshot → List UInt8
  | custom type => (custom type).tag :: (type.wireSize.encode ++ encodeName type.tag)
  | other => [other.tag]

/-- A flag, and what it announces behind its length. -/
def encodeOption {α : Type} (encode : α → List UInt8) : Option α → List UInt8
  | some a => 1 :: encodePayload (encode a)
  | none => [0]

/-- A count, and each element behind its length. -/
def encodeParts {α : Type} (encode : α → List UInt8) (parts : List α) : List UInt8 :=
  lengthPrefix parts.length ++ parts.flatMap fun part => encodePayload (encode part)

section Encode
variable {D J : Type} (formats : Formats D J)

/-- The bits `COL_FLAG_NULLABLE`, `COL_FLAG_AUTO_INCREMENT`, `COL_FLAG_UNIQUE` and
`COL_FLAG_PRIMARY_KEY`. -/
def ColumnSnapshot.flags {V : Type} (column : ColumnSnapshot V) : UInt8 :=
  (if column.nullable then 1 else 0) ||| (if column.autoIncrement then 2 else 0) |||
    (if column.unique then 4 else 0) ||| (if column.primaryKey then 8 else 0)

def ColumnSnapshot.encode (column : ColumnSnapshot (StoredValue D J)) : List UInt8 :=
  encodeName column.name ++ column.dataType.encode ++ [column.flags] ++
    encodeOption ForeignKeySnapshot.encode column.foreignKey ++ encodeOption (encodeValue formats) column.default

def TableSchemaSnapshot.encode (snapshot : TableSchemaSnapshot (StoredValue D J)) : List UInt8 :=
  UInt8.ofNat snapshot.version :: (encodeName snapshot.name ++ encodeName snapshot.primaryKey ++
    toLE 4 snapshot.alignment ++ encodeParts (ColumnSnapshot.encode formats) snapshot.columns ++
    encodeParts IndexSnapshot.encode snapshot.indexes)

end Encode

/-! ## `size` -/

def IndexSnapshot.size (index : IndexSnapshot) : ℕ :=
  saturatingSize 2 (index.columns.map fun column => 1 + (utf8 column).length).sum

def ForeignKeySnapshot.size (fk : ForeignKeySnapshot) : ℕ :=
  saturatingSize 3 ((utf8 fk.table).length + (utf8 fk.column).length)

/-- The `ws_bytes` of a custom type. -/
def WireSize.bytes : WireSize → ℕ
  | fixed _ => 1 + 4
  | lengthPrefixed => 1

def DataTypeSnapshot.size : DataTypeSnapshot → ℕ
  | custom type => saturatingSize (1 + type.wireSize.bytes + 1) (utf8 type.tag).length
  | _ => 1

section Size
variable {D J : Type}

def ColumnSnapshot.size (column : ColumnSnapshot (StoredValue D J)) : ℕ :=
  saturatingSize 0 (1 + (utf8 column.name).length + column.dataType.size + 1 + 1 +
    (column.foreignKey.elim 0 fun fk => 2 + fk.size) + 1 + column.default.elim 0 fun value => 2 + valueSize value)

def TableSchemaSnapshot.size (snapshot : TableSchemaSnapshot (StoredValue D J)) : ℕ :=
  saturatingSize 0 (1 + 1 + (utf8 snapshot.name).length + 1 + (utf8 snapshot.primaryKey).length + 4 + 2 +
    (snapshot.columns.map fun column => 2 + column.size).sum + 2 + (snapshot.indexes.map fun index => 2 + index.size).sum)

end Size

/-! ## `validate_encoding` -/

/-- `check_field_len`. -/
def checkFieldLen (field : String) (len max : ℕ) : Except Fault ℕ :=
  if len > max then
    .error (.error (.constraintViolation
      s!"{field} is {len}, but the schema snapshot format allows at most {max}"))
  else .ok len

/-- The loop that adds up the checked lengths of the elements of a list. -/
def sumChecked {α : Type} (header : ℕ) (checked : α → Except Fault ℕ) : List α → ℕ → Except Fault ℕ
  | [], total => .ok total
  | a :: rest, total => do
      let len ← checked a
      sumChecked header checked rest (total + (header + len))

def IndexSnapshot.checkedEncodedLen (table : String) (index : IndexSnapshot) : Except Fault ℕ := do
  let _ ← checkFieldLen s!"table `{table}` index column count" index.columns.length u8FieldMax
  sumChecked 1 (fun column =>
    checkFieldLen s!"table `{table}` index column `{column}` name length" (utf8 column).length u8FieldMax) index.columns 2

def ForeignKeySnapshot.checkedEncodedLen (column : String) (fk : ForeignKeySnapshot) : Except Fault ℕ := do
  let table ← checkFieldLen s!"column `{column}` foreign key table name length" (utf8 fk.table).length u8FieldMax
  let name ← checkFieldLen s!"column `{column}` foreign key column name length" (utf8 fk.column).length u8FieldMax
  return 1 + table + 1 + name + 1

def DataTypeSnapshot.checkedEncodedLen (column : String) : DataTypeSnapshot → Except Fault ℕ
  | custom type => do
      let name ← checkFieldLen s!"column `{column}` custom type tag length" (utf8 type.tag).length u8FieldMax
      return 1 + type.wireSize.bytes + 1 + name
  | _ => .ok 1

section Validate
variable {D J : Type} (formats : Formats D J)

def ColumnSnapshot.checkedEncodedLen (table : String) (column : ColumnSnapshot (StoredValue D J)) : Except Fault ℕ := do
  let name := column.name
  let nameLen ← checkFieldLen s!"table `{table}` column name length" (utf8 name).length u8FieldMax
  let typeLen ← column.dataType.checkedEncodedLen name
  let fkLen ← column.foreignKey.elim (.ok 0) fun fk => do
    let len ← fk.checkedEncodedLen name
    (2 + ·) <$> checkFieldLen s!"column `{name}` foreign key encoded length" len u16FieldMax
  let defaultLen ← column.default.elim (.ok 0) fun value => (2 + ·) <$>
    checkFieldLen s!"column `{name}` default value encoded length" (encodeValue formats value).length u16FieldMax
  return 1 + nameLen + typeLen + 3 + fkLen + defaultLen

def TableSchemaSnapshot.validateEncoding (snapshot : TableSchemaSnapshot (StoredValue D J)) : Except Fault Unit := do
  let table := snapshot.name
  let nameLen ← checkFieldLen "table name length" (utf8 table).length u8FieldMax
  let keyLen ← checkFieldLen s!"table `{table}` primary key name length" (utf8 snapshot.primaryKey).length u8FieldMax
  let _ ← checkFieldLen s!"table `{table}` column count" snapshot.columns.length u16FieldMax
  let columnsLen ← sumChecked 2 (fun column => do
    let name := column.name
    let len ← column.checkedEncodedLen formats table
    checkFieldLen s!"column `{table}.{name}` encoded length" len u16FieldMax)
    snapshot.columns (1 + 1 + nameLen + 1 + keyLen + 4 + 2)
  let _ ← checkFieldLen s!"table `{table}` index count" snapshot.indexes.length u16FieldMax
  let total ← sumChecked 2 (fun index => do
    let len ← index.checkedEncodedLen table
    checkFieldLen s!"table `{table}` index encoded length" len u16FieldMax)
    snapshot.indexes (columnsLen + 2)
  let _ ← checkFieldLen s!"table `{table}` schema snapshot length" total msizeMax
  return ()

end Validate

/-! ## Snapshots that fit -/

def NameFits (s : String) : Prop := (utf8 s).length ≤ u8FieldMax

structure IndexSnapshot.Fits (index : IndexSnapshot) : Prop where
  count : index.columns.length ≤ u8FieldMax
  names : ∀ column ∈ index.columns, NameFits column

structure ForeignKeySnapshot.Fits (fk : ForeignKeySnapshot) : Prop where
  table : NameFits fk.table
  column : NameFits fk.column

def DataTypeSnapshot.Fits : DataTypeSnapshot → Prop
  | custom type => NameFits type.tag
  | _ => True

section Fits
variable {D J : Type} (formats : Formats D J)

structure ColumnSnapshot.Fits (column : ColumnSnapshot (StoredValue D J)) : Prop where
  name : NameFits column.name
  dataType : column.dataType.Fits
  foreignKey : ∀ fk, column.foreignKey = some fk → fk.Fits
  default : ∀ value, column.default = some value → (encodeValue formats value).length ≤ u16FieldMax

/-- Every name, count and part of the snapshot, and the whole, fits its field. -/
structure TableSchemaSnapshot.Fits (snapshot : TableSchemaSnapshot (StoredValue D J)) : Prop where
  name : NameFits snapshot.name
  primaryKey : NameFits snapshot.primaryKey
  columnCount : snapshot.columns.length ≤ u16FieldMax
  columns : ∀ column ∈ snapshot.columns, column.Fits formats ∧ (column.encode formats).length ≤ u16FieldMax
  indexCount : snapshot.indexes.length ≤ u16FieldMax
  indexes : ∀ index ∈ snapshot.indexes, index.Fits ∧ index.encode.length ≤ u16FieldMax
  total : (snapshot.encode formats).length ≤ msizeMax

end Fits

/-! ## Lengths of encodings -/

theorem u8Len_length (len : ℕ) : (u8Len len).length = 1 := toLE_length 1 _

theorem encodeName_length (s : String) : (encodeName s).length = 1 + (utf8 s).length := by
  rw [encodeName, List.length_append, u8Len_length]

theorem encoded_widths {α : Type} {encode : α → List UInt8} {width : α → ℕ} (each : ∀ a, (encode a).length = width a)
    (l : List α) : (l.flatMap encode).length = (l.map width).sum := by
  rw [List.length_flatMap, List.map_congr_left fun a _ => each a]

theorem IndexSnapshot.encode_length (index : IndexSnapshot) :
    index.encode.length = 2 + (index.columns.map fun column => 1 + (utf8 column).length).sum := by
  rw [encode, List.length_append, List.length_append, u8Len_length, encoded_widths encodeName_length,
    List.length_singleton]
  omega

theorem ForeignKeySnapshot.encode_length (fk : ForeignKeySnapshot) :
    fk.encode.length = 3 + ((utf8 fk.table).length + (utf8 fk.column).length) := by
  rw [encode, List.length_append, List.length_append, encodeName_length, encodeName_length, List.length_singleton]
  omega

theorem WireSize.encode_length (size : WireSize) : size.encode.length = size.bytes := by
  cases size with
  | fixed size => rw [encode, List.length_cons, toLE_length, bytes]
  | lengthPrefixed => rfl

/-- The length of the encoding of a type. -/
def DataTypeSnapshot.encodedLen : DataTypeSnapshot → ℕ
  | custom type => 1 + type.wireSize.bytes + 1 + (utf8 type.tag).length
  | _ => 1

theorem DataTypeSnapshot.encode_length (dt : DataTypeSnapshot) : dt.encode.length = dt.encodedLen := by
  cases dt with
  | custom type =>
      rw [encode, List.length_cons, List.length_append, WireSize.encode_length, encodeName_length, encodedLen]
      omega
  | _ => rfl

theorem encodeOption_length {α : Type} {encode : α → List UInt8} (a : Option α) :
    (encodeOption encode a).length = 1 + a.elim 0 fun a => 2 + (encode a).length := by
  cases a with
  | some a =>
      rw [encodeOption, List.length_cons, encodePayload_length, Option.elim]
      omega
  | none => rfl

theorem encodeParts_length {α : Type} {encode : α → List UInt8} (parts : List α) :
    (encodeParts encode parts).length = 2 + (parts.map fun part => 2 + (encode part).length).sum := by
  have each (part : α) : (encodePayload (encode part)).length = 2 + (encode part).length := encodePayload_length _
  rw [encodeParts, List.length_append, lengthPrefix_length, encoded_widths each]

section Lengths
variable {D J : Type} (formats : Formats D J)

theorem ColumnSnapshot.encode_length (column : ColumnSnapshot (StoredValue D J)) :
    (column.encode formats).length = 1 + (utf8 column.name).length + column.dataType.encodedLen + 3 +
      (column.foreignKey.elim 0 fun fk => 2 + fk.encode.length) +
      column.default.elim 0 fun value => 2 + (encodeValue formats value).length := by
  rw [encode, List.length_append, List.length_append, List.length_append, List.length_append, encodeName_length,
    DataTypeSnapshot.encode_length, encodeOption_length, encodeOption_length, List.length_singleton]
  omega

theorem TableSchemaSnapshot.encode_length (snapshot : TableSchemaSnapshot (StoredValue D J)) :
    (snapshot.encode formats).length = 1 + 1 + (utf8 snapshot.name).length + 1 + (utf8 snapshot.primaryKey).length + 4 + 2 +
      (snapshot.columns.map fun column => 2 + (column.encode formats).length).sum + 2 +
      (snapshot.indexes.map fun index => 2 + index.encode.length).sum := by
  rw [encode, List.length_cons, List.length_append, List.length_append, List.length_append, List.length_append,
    encodeName_length, encodeName_length, toLE_length, encodeParts_length, encodeParts_length]
  omega

/-! ## Sizes -/

theorem IndexSnapshot.size_eq (index : IndexSnapshot) : index.size = min index.encode.length msizeMax := by
  rw [size, saturatingSize_eq, encode_length]

theorem ForeignKeySnapshot.size_eq (fk : ForeignKeySnapshot) : fk.size = min fk.encode.length msizeMax := by
  rw [size, saturatingSize_eq, encode_length]

theorem DataTypeSnapshot.size_eq (dt : DataTypeSnapshot) : dt.size = min dt.encodedLen msizeMax := by
  cases dt with
  | custom type => rw [size, saturatingSize_eq, encodedLen]
  | _ => rfl

/-- Sums of saturated lengths saturate where the sum of the lengths does. -/
theorem sum_saturated {α : Type} {size len : α → ℕ} {limit : ℕ} (l : List α) (each : ∀ a, size a = min (len a) limit) :
    min (l.map fun a => 2 + size a).sum limit = min (l.map fun a => 2 + len a).sum limit := by
  induction l with
  | nil => rfl
  | cons a l ih =>
      rw [List.map_cons, List.map_cons, List.sum_cons, List.sum_cons, each a]
      omega

theorem ColumnSnapshot.size_eq (column : ColumnSnapshot (StoredValue D J)) :
    column.size = min (column.encode formats).length msizeMax := by
  have fkSize : min (column.foreignKey.elim 0 fun fk => 2 + fk.size) msizeMax =
      min (column.foreignKey.elim 0 fun fk => 2 + fk.encode.length) msizeMax := by
    cases column.foreignKey with
    | none => rfl
    | some fk =>
        rw [Option.elim, Option.elim, fk.size_eq]
        omega
  have defaultSize : min (column.default.elim 0 fun value => 2 + valueSize value) msizeMax =
      min (column.default.elim 0 fun value => 2 + (encodeValue formats value).length) msizeMax := by
    cases column.default with
    | none => rfl
    | some value =>
        rw [Option.elim, Option.elim, valueSize_eq formats]
        omega
  rw [size, saturatingSize_eq, encode_length, DataTypeSnapshot.size_eq]
  omega

/-- The size of a snapshot is the length of its encoding up to the largest size. -/
theorem TableSchemaSnapshot.size_eq (snapshot : TableSchemaSnapshot (StoredValue D J)) :
    snapshot.size = min (snapshot.encode formats).length msizeMax := by
  have columns := sum_saturated snapshot.columns (ColumnSnapshot.size_eq formats)
  have indexes := sum_saturated snapshot.indexes IndexSnapshot.size_eq
  rw [size, saturatingSize_eq, encode_length]
  omega

end Lengths

/-! ## What `validate_encoding` accepts -/

theorem checkFieldLen_ok {field : String} {len max n : ℕ} : checkFieldLen field len max = .ok n ↔ len ≤ max ∧ n = len := by
  rw [checkFieldLen]
  by_cases long : len > max
  · rw [if_pos long]
    exact ⟨fun no => (by cases no), fun both => absurd both.1 (not_le.mpr long)⟩
  · rw [if_neg long]
    exact ⟨fun same => ⟨not_lt.mp long, (Except.ok.inj same).symm⟩, fun both => congrArg _ both.2.symm⟩

theorem sumChecked_ok {α : Type} {header : ℕ} {checked : α → Except Fault ℕ} {Fits : α → Prop} {len : α → ℕ} {l : List α}
    (each : ∀ a ∈ l, ∀ n, checked a = .ok n ↔ Fits a ∧ n = len a) {start total : ℕ} :
    sumChecked header checked l start = .ok total ↔
      (∀ a ∈ l, Fits a) ∧ total = start + (l.map fun a => header + len a).sum := by
  induction l generalizing start with
  | nil =>
      refine ⟨fun same => ⟨fun _ member => absurd member List.not_mem_nil, (Except.ok.inj same).symm⟩, fun both => ?_⟩
      exact congrArg _ both.2.symm
  | cons a l ih =>
      rw [List.forall_mem_cons] at each
      rw [sumChecked, bind_eq_ok, List.forall_mem_cons, List.map_cons, List.sum_cons]
      constructor
      · rintro ⟨n, first, rest⟩
        obtain ⟨fits, rfl⟩ := (each.1 n).mp first
        obtain ⟨others, same⟩ := (ih each.2).mp rest
        exact ⟨⟨fits, others⟩, by omega⟩
      · rintro ⟨⟨fits, others⟩, same⟩
        exact ⟨len a, (each.1 _).mpr ⟨fits, rfl⟩, (ih each.2).mpr ⟨others, by omega⟩⟩

theorem IndexSnapshot.checkedEncodedLen_ok {table : String} {index : IndexSnapshot} {n : ℕ} :
    index.checkedEncodedLen table = .ok n ↔ index.Fits ∧ n = index.encode.length := by
  rw [checkedEncodedLen, encode_length]
  constructor
  · intro run
    obtain ⟨_, count, run⟩ := bind_eq_ok.mp run
    obtain ⟨names, same⟩ := (sumChecked_ok fun column _ _ => checkFieldLen_ok).mp run
    exact ⟨⟨(checkFieldLen_ok.mp count).1, names⟩, same⟩
  · rintro ⟨fits, same⟩
    refine bind_eq_ok.mpr ⟨_, checkFieldLen_ok.mpr ⟨fits.count, rfl⟩, ?_⟩
    exact (sumChecked_ok fun column _ _ => checkFieldLen_ok).mpr ⟨fits.names, same⟩

theorem ForeignKeySnapshot.checkedEncodedLen_ok {column : String} {fk : ForeignKeySnapshot} {n : ℕ} :
    fk.checkedEncodedLen column = .ok n ↔ fk.Fits ∧ n = fk.encode.length := by
  rw [checkedEncodedLen, encode_length]
  constructor
  · intro run
    obtain ⟨table, first, run⟩ := bind_eq_ok.mp run
    obtain ⟨name, second, run⟩ := bind_eq_ok.mp run
    obtain ⟨tableFits, rfl⟩ := checkFieldLen_ok.mp first
    obtain ⟨nameFits, rfl⟩ := checkFieldLen_ok.mp second
    cases run
    exact ⟨⟨tableFits, nameFits⟩, by omega⟩
  · rintro ⟨fits, rfl⟩
    refine bind_eq_ok.mpr ⟨_, checkFieldLen_ok.mpr ⟨fits.table, rfl⟩, bind_eq_ok.mpr ⟨_, checkFieldLen_ok.mpr ⟨fits.column, rfl⟩, ?_⟩⟩
    exact congrArg Except.ok (by omega)

theorem DataTypeSnapshot.checkedEncodedLen_ok {column : String} {dt : DataTypeSnapshot} {n : ℕ} :
    dt.checkedEncodedLen column = .ok n ↔ dt.Fits ∧ n = dt.encodedLen := by
  cases dt with
  | custom type =>
      rw [checkedEncodedLen, encodedLen]
      constructor
      · intro run
        obtain ⟨name, first, run⟩ := bind_eq_ok.mp run
        obtain ⟨fits, rfl⟩ := checkFieldLen_ok.mp first
        cases run
        exact ⟨fits, rfl⟩
      · rintro ⟨fits, rfl⟩
        exact bind_eq_ok.mpr ⟨_, checkFieldLen_ok.mpr ⟨fits, rfl⟩, rfl⟩
  | _ => exact ⟨fun same => ⟨trivial, (Except.ok.inj same).symm⟩, fun both => congrArg Except.ok both.2.symm⟩

/-- The checked length of a part that may be missing. -/
theorem optionChecked_ok {α : Type} {checked : α → Except Fault ℕ} {Fits : α → Prop} {len : α → ℕ}
    (each : ∀ a n, checked a = .ok n ↔ Fits a ∧ n = 2 + len a) (a : Option α) {n : ℕ} :
    a.elim (.ok 0) checked = .ok n ↔ (∀ b, a = some b → Fits b) ∧ n = a.elim 0 fun b => 2 + len b := by
  cases a with
  | none =>
      refine ⟨fun same => ⟨fun _ no => (by cases no), (Except.ok.inj same).symm⟩, fun both => congrArg _ both.2.symm⟩
  | some a =>
      refine (each a n).trans (and_congr_left fun _ => ⟨fun fits b same => ?_, fun all => all a rfl⟩)
      exact Option.some.inj same ▸ fits

theorem checkPart_ok {field : String} {len max n : ℕ} :
    ((2 + ·) <$> checkFieldLen field len max) = .ok n ↔ len ≤ max ∧ n = 2 + len := by
  rw [map_eq_ok]
  constructor
  · rintro ⟨m, checked, rfl⟩
    obtain ⟨fits, rfl⟩ := checkFieldLen_ok.mp checked
    exact ⟨fits, rfl⟩
  · rintro ⟨fits, rfl⟩
    exact ⟨len, checkFieldLen_ok.mpr ⟨fits, rfl⟩, rfl⟩

/-- The length of a part is checked after its fields. -/
theorem nestedCheck_ok {checked : Except Fault ℕ} {Fits : Prop} {len : ℕ} (inner : ∀ n, checked = .ok n ↔ Fits ∧ n = len)
    {field : String} {max n : ℕ} :
    (checked >>= fun m => checkFieldLen field m max) = .ok n ↔ (Fits ∧ len ≤ max) ∧ n = len := by
  constructor
  · intro run
    obtain ⟨m, first, second⟩ := bind_eq_ok.mp run
    obtain ⟨fits, rfl⟩ := (inner m).mp first
    obtain ⟨small, rfl⟩ := checkFieldLen_ok.mp second
    exact ⟨⟨fits, small⟩, rfl⟩
  · rintro ⟨⟨fits, small⟩, rfl⟩
    exact bind_eq_ok.mpr ⟨_, (inner _).mpr ⟨fits, rfl⟩, checkFieldLen_ok.mpr ⟨small, rfl⟩⟩

/-- A foreign key that fits its names fits its part. -/
theorem ForeignKeySnapshot.Fits.part {fk : ForeignKeySnapshot} (fits : fk.Fits) : fk.encode.length ≤ u16FieldMax := by
  have table := fits.table
  have column := fits.column
  rw [ForeignKeySnapshot.encode_length]
  unfold NameFits u8FieldMax at table column
  unfold u16FieldMax
  omega

section Validation
variable {D J : Type} {formats : Formats D J}

theorem ColumnSnapshot.checkedEncodedLen_ok {table : String} {column : ColumnSnapshot (StoredValue D J)} {n : ℕ} :
    column.checkedEncodedLen formats table = .ok n ↔ column.Fits formats ∧ n = (column.encode formats).length := by
  have fkChecked (fk : ForeignKeySnapshot) (field : String) (m : ℕ) :
      (do let len ← fk.checkedEncodedLen column.name
          (2 + ·) <$> checkFieldLen field len u16FieldMax) = .ok m ↔ fk.Fits ∧ m = 2 + fk.encode.length := by
    constructor
    · intro run
      obtain ⟨len, first, second⟩ := bind_eq_ok.mp run
      obtain ⟨fits, rfl⟩ := ForeignKeySnapshot.checkedEncodedLen_ok.mp first
      exact ⟨fits, (checkPart_ok.mp second).2⟩
    · rintro ⟨fits, rfl⟩
      exact bind_eq_ok.mpr ⟨_, ForeignKeySnapshot.checkedEncodedLen_ok.mpr ⟨fits, rfl⟩, checkPart_ok.mpr ⟨fits.part, rfl⟩⟩
  rw [checkedEncodedLen, encode_length]
  constructor
  · intro run
    obtain ⟨nameLen, first, run⟩ := bind_eq_ok.mp run
    obtain ⟨typeLen, second, run⟩ := bind_eq_ok.mp run
    obtain ⟨fkLen, third, run⟩ := bind_eq_ok.mp run
    obtain ⟨defaultLen, fourth, run⟩ := bind_eq_ok.mp run
    obtain ⟨name, rfl⟩ := checkFieldLen_ok.mp first
    obtain ⟨dataType, rfl⟩ := DataTypeSnapshot.checkedEncodedLen_ok.mp second
    obtain ⟨foreignKey, rfl⟩ := (optionChecked_ok (fun fk m => fkChecked fk _ m) column.foreignKey).mp third
    obtain ⟨default, rfl⟩ := (optionChecked_ok (fun value m => checkPart_ok) column.default).mp fourth
    cases run
    exact ⟨⟨name, dataType, foreignKey, default⟩, rfl⟩
  · rintro ⟨fits, rfl⟩
    refine bind_eq_ok.mpr ⟨_, checkFieldLen_ok.mpr ⟨fits.name, rfl⟩, ?_⟩
    refine bind_eq_ok.mpr ⟨_, DataTypeSnapshot.checkedEncodedLen_ok.mpr ⟨fits.dataType, rfl⟩, ?_⟩
    refine bind_eq_ok.mpr ⟨_, (optionChecked_ok (fun fk m => fkChecked fk _ m) column.foreignKey).mpr ⟨fits.foreignKey, rfl⟩, ?_⟩
    exact bind_eq_ok.mpr ⟨_, (optionChecked_ok (fun value m => checkPart_ok) column.default).mpr ⟨fits.default, rfl⟩, rfl⟩

/-- `validate_encoding` accepts exactly the snapshots that fit. -/
theorem TableSchemaSnapshot.validateEncoding_ok {snapshot : TableSchemaSnapshot (StoredValue D J)} :
    snapshot.validateEncoding formats = .ok () ↔ snapshot.Fits formats := by
  have columnChecked (column : ColumnSnapshot (StoredValue D J)) (field : String) (n : ℕ) :
      (column.checkedEncodedLen formats snapshot.name >>= fun len => checkFieldLen field len u16FieldMax) = .ok n ↔
        (column.Fits formats ∧ (column.encode formats).length ≤ u16FieldMax) ∧ n = (column.encode formats).length :=
    nestedCheck_ok fun m => ColumnSnapshot.checkedEncodedLen_ok
  have indexChecked (index : IndexSnapshot) (field : String) (n : ℕ) :
      (index.checkedEncodedLen snapshot.name >>= fun len => checkFieldLen field len u16FieldMax) = .ok n ↔
        (index.Fits ∧ index.encode.length ≤ u16FieldMax) ∧ n = index.encode.length :=
    nestedCheck_ok fun m => IndexSnapshot.checkedEncodedLen_ok
  have total := encode_length formats snapshot
  rw [validateEncoding]
  constructor
  · intro run
    obtain ⟨nameLen, first, run⟩ := bind_eq_ok.mp run
    obtain ⟨keyLen, second, run⟩ := bind_eq_ok.mp run
    obtain ⟨_, third, run⟩ := bind_eq_ok.mp run
    obtain ⟨columnsLen, fourth, run⟩ := bind_eq_ok.mp run
    obtain ⟨_, fifth, run⟩ := bind_eq_ok.mp run
    obtain ⟨all, sixth, run⟩ := bind_eq_ok.mp run
    obtain ⟨_, seventh, run⟩ := bind_eq_ok.mp run
    obtain ⟨name, rfl⟩ := checkFieldLen_ok.mp first
    obtain ⟨primaryKey, rfl⟩ := checkFieldLen_ok.mp second
    obtain ⟨columns, rfl⟩ := (sumChecked_ok fun column _ n => columnChecked column _ n).mp fourth
    obtain ⟨indexes, rfl⟩ := (sumChecked_ok fun index _ n => indexChecked index _ n).mp sixth
    refine ⟨name, primaryKey, (checkFieldLen_ok.mp third).1, columns, (checkFieldLen_ok.mp fifth).1, indexes, ?_⟩
    exact total ▸ (checkFieldLen_ok.mp seventh).1
  · intro fits
    refine bind_eq_ok.mpr ⟨_, checkFieldLen_ok.mpr ⟨fits.name, rfl⟩, ?_⟩
    refine bind_eq_ok.mpr ⟨_, checkFieldLen_ok.mpr ⟨fits.primaryKey, rfl⟩, ?_⟩
    refine bind_eq_ok.mpr ⟨_, checkFieldLen_ok.mpr ⟨fits.columnCount, rfl⟩, ?_⟩
    refine bind_eq_ok.mpr ⟨_, (sumChecked_ok fun column _ n => columnChecked column _ n).mpr ⟨fits.columns, rfl⟩, ?_⟩
    refine bind_eq_ok.mpr ⟨_, checkFieldLen_ok.mpr ⟨fits.indexCount, rfl⟩, ?_⟩
    refine bind_eq_ok.mpr ⟨_, (sumChecked_ok fun index _ n => indexChecked index _ n).mpr ⟨fits.indexes, rfl⟩, ?_⟩
    exact bind_eq_ok.mpr ⟨_, checkFieldLen_ok.mpr ⟨total ▸ fits.total, rfl⟩, rfl⟩

end Validation
end WasmDbms
