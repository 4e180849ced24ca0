import WasmDbms.Index.Tree
import WasmDbms.Memory.SizedRead
import WasmDbms.Migration.StoredValue

/-!
# The index ledger

The root page of each index of a table, under the columns of the index.
-/
namespace WasmDbms
open ByteString Result

/-- `MAX_COLUMN_NAME_LEN`. -/
def maxColumnNameLen : ℕ := 255

/-- A column name that fits the one-byte length of the encoding. -/
def ColumnName : Type := {name : String // name.utf8ByteSize ≤ maxColumnNameLen}

instance : DecidableEq ColumnName := inferInstanceAs (DecidableEq {name : String // name.utf8ByteSize ≤ maxColumnNameLen})

/-- `validate_columns`, with the names it has checked. -/
def validateColumns : List String → Except Fault (List ColumnName)
  | [] => .ok []
  | column :: rest =>
      if short : column.utf8ByteSize ≤ maxColumnNameLen then do
        let names ← validateColumns rest
        return ⟨column, short⟩ :: names
      else .error (.error (.constraintViolation
        s!"index column name `{column}` is {column.utf8ByteSize} bytes long, maximum is {maxColumnNameLen}"))

/-- `HashMap::insert`, over the entries in the order of iteration. -/
def insertRoot (columns : List ColumnName) (root : ℕ) : List (List ColumnName × ℕ) → List (List ColumnName × ℕ)
  | [] => [(columns, root)]
  | entry :: rest =>
      if entry.1 = columns then (columns, root) :: rest else entry :: insertRoot columns root rest

theorem mem_insertRoot {columns key : List ColumnName} {root : ℕ} {entries : List (List ColumnName × ℕ)} :
    key ∈ (insertRoot columns root entries).map Prod.fst ↔ key = columns ∨ key ∈ entries.map Prod.fst := by
  induction entries with
  | nil => simp [insertRoot]
  | cons entry rest ih =>
      rw [insertRoot]
      split
      next same => simp [same]
      next => simp [ih, or_left_comm]

theorem insertRoot_nodup (columns : List ColumnName) (root : ℕ) {entries : List (List ColumnName × ℕ)}
    (nodup : (entries.map Prod.fst).Nodup) : ((insertRoot columns root entries).map Prod.fst).Nodup := by
  induction entries with
  | nil => exact List.nodup_singleton _
  | cons entry rest ih =>
      rw [List.map_cons, List.nodup_cons] at nodup
      rw [insertRoot]
      split
      next same =>
        rw [List.map_cons, List.nodup_cons, ← same]
        exact nodup
      next other =>
        rw [List.map_cons, List.nodup_cons, mem_insertRoot, not_or]
        exact ⟨⟨other, nodup.1⟩, ih nodup.2⟩

theorem insertRoot_append {columns : List ColumnName} (root : ℕ) {entries : List (List ColumnName × ℕ)}
    (fresh : columns ∉ entries.map Prod.fst) : insertRoot columns root entries = entries ++ [(columns, root)] := by
  induction entries with
  | nil => rfl
  | cons entry rest ih =>
      rw [List.map_cons, List.mem_cons, not_or] at fresh
      rw [insertRoot, if_neg (Ne.symm fresh.1), ih fresh.2]
      rfl

/-- The map from the columns of an index to its root page. The order of iteration is any. -/
structure IndexLedgerTables where
  entries : List (List ColumnName × ℕ)
  nodup : (entries.map Prod.fst).Nodup

namespace IndexLedgerTables

def empty : IndexLedgerTables := ⟨[], List.nodup_nil⟩

def insert (tables : IndexLedgerTables) (columns : List ColumnName) (root : ℕ) : IndexLedgerTables :=
  ⟨insertRoot columns root tables.entries, insertRoot_nodup columns root tables.nodup⟩

/-- The map that `init_from_keys` commits: each index has a new tree. -/
def initFromKeys (K : Type) [Key K] (keys : List (List String)) : Prog IndexLedgerTables := do
  let keys ← Prog.lift (keys.mapM validateColumns)
  keys.foldlM (fun tables columns => do
    let tree ← IndexTree.init K
    return tables.insert columns tree.rootPage) empty

/-! ## Encoding -/

def encodeName (name : ColumnName) : List UInt8 := UInt8.ofNat name.1.utf8ByteSize :: utf8 name.1

def encodeEntry (entry : List ColumnName × ℕ) : List UInt8 :=
  toLE 8 entry.1.length ++ entry.1.flatMap encodeName ++ toLE 4 entry.2

def encode (tables : IndexLedgerTables) : List UInt8 :=
  toLE 8 tables.entries.length ++ tables.entries.flatMap encodeEntry

/-- The next number of the given width, and what follows. -/
def takeLE (width : ℕ) (data : List UInt8) : Except Fault (ℕ × List UInt8) :=
  if data.length < width then .error .panic else .ok (ofLE (data.take width), data.drop width)

theorem decodeUtf8_size {bytes : List UInt8} {name : String} (valid : decodeUtf8 bytes = .ok name) :
    name.utf8ByteSize = bytes.length := by
  unfold decodeUtf8 String.fromUTF8? at valid
  split at valid
  next found =>
    split at found
    next =>
      cases found
      cases valid
      rfl
    next => cases found
  next => cases valid

theorem decoded_short {len : UInt8} {rest : List UInt8} {name : String}
    (valid : decodeUtf8 (rest.take len.toNat) = .ok name) : name.utf8ByteSize ≤ maxColumnNameLen := by
  rw [decodeUtf8_size valid]
  exact (List.length_take_le _ _).trans (Nat.le_of_lt_succ len.toNat_lt)

def decodeName : List UInt8 → Except Fault (ColumnName × List UInt8)
  | [] => .error .panic
  | len :: rest =>
      if rest.length < len.toNat then .error .panic
      else
        match valid : decodeUtf8 (rest.take len.toNat) with
        | .ok name => .ok (⟨name, decoded_short valid⟩, rest.drop len.toNat)
        | .error fault => .error fault

def decodeColumns : ℕ → List UInt8 → Except Fault (List ColumnName × List UInt8)
  | 0, data => .ok ([], data)
  | n + 1, data => do
      let (name, data) ← decodeName data
      let (names, data) ← decodeColumns n data
      return (name :: names, data)

def decodeEntries : ℕ → IndexLedgerTables → List UInt8 → Except Fault IndexLedgerTables
  | 0, tables, _ => .ok tables
  | n + 1, tables, data => do
      let (numColumns, data) ← takeLE 8 data
      let (columns, data) ← decodeColumns numColumns data
      let (rootPage, data) ← takeLE 4 data
      decodeEntries n (tables.insert columns rootPage) data

def decode (data : List UInt8) : Except Fault IndexLedgerTables := do
  let (numEntries, data) ← takeLE 8 data
  decodeEntries numEntries empty data

/-! ## The three lengths -/

section Size
variable (build : Build)

def sizeColumns (columns : List ColumnName) : Except Fault ℕ :=
  columns.foldlM (fun sum name => do
    let n ← build.msize (1 + name.1.utf8ByteSize % (msizeMax + 1))
    build.msize (sum + n)) 0

def sizeEntry (entry : List ColumnName × ℕ) : Except Fault ℕ := do
  let names ← sizeColumns build entry.1
  let n ← build.msize (8 + names)
  build.msize (n + 4)

def size (tables : IndexLedgerTables) : Except Fault ℕ := do
  let sum ← tables.entries.foldlM (fun sum entry => do
    let n ← sizeEntry build entry
    build.msize (sum + n)) 0
  build.msize (8 + sum)

end Size

section Length
variable (pre : List UInt8)

def readU64 (offset : ℕ) : Option ℕ :=
  if offset + 8 ≤ pre.length then some (ofLE ((pre.drop offset).take 8)) else none

def skipColumns : ℕ → ℕ → Option ℕ
  | 0, offset => some offset
  | n + 1, offset => do
      let len ← pre[offset]?
      skipColumns n (offset + (1 + len.toNat))

def skipEntries : ℕ → ℕ → Option ℕ
  | 0, offset => some offset
  | n + 1, offset => do
      let numColumns ← readU64 pre offset
      let offset ← skipColumns pre numColumns (offset + 8)
      skipEntries n (offset + 4)

def encodedLen : Option ℕ := do
  let numEntries ← readU64 pre 0
  let offset ← skipEntries pre numEntries 8
  if offset ≤ pre.length then some offset else none

end Length

/-- `impl Encode for IndexLedgerTables`. -/
def codec : LedgerCodec IndexLedgerTables := ⟨size, encode, decode⟩

/-! ## The encoding is read back -/

theorem utf8_length (name : String) : (utf8 name).length = name.utf8ByteSize := rfl

theorem encodeName_length (name : ColumnName) : (encodeName name).length = 1 + name.1.utf8ByteSize := by
  rw [encodeName, List.length_cons, utf8_length, Nat.add_comm]

theorem nameByte (name : ColumnName) : (UInt8.ofNat name.1.utf8ByteSize).toNat = name.1.utf8ByteSize := by
  rw [UInt8.toNat_ofNat']
  exact Nat.mod_eq_of_lt (Nat.lt_succ_of_le name.2)

theorem decodeName_encode (name : ColumnName) (rest : List UInt8) :
    decodeName (encodeName name ++ rest) = .ok (name, rest) := by
  have len := nameByte name
  have code : (utf8 name.1 ++ rest).take (UInt8.ofNat name.1.utf8ByteSize).toNat = utf8 name.1 :=
    List.take_left' ((utf8_length name.1).trans len.symm)
  have after : (utf8 name.1 ++ rest).drop (UInt8.ofNat name.1.utf8ByteSize).toNat = rest :=
    List.drop_left' ((utf8_length name.1).trans len.symm)
  have long : ¬ (utf8 name.1 ++ rest).length < (UInt8.ofNat name.1.utf8ByteSize).toNat := by
    rw [len, List.length_append, utf8_length]
    omega
  have text : decodeUtf8 ((utf8 name.1 ++ rest).take (UInt8.ofNat name.1.utf8ByteSize).toNat) = .ok name.1 := by
    rw [code, utf8_decode]
  rw [encodeName, List.cons_append, decodeName, if_neg long, after]
  split
  next found valid =>
    cases text.symm.trans valid
    rfl
  next fault failed => cases text.symm.trans failed

theorem decodeColumns_encode (names : List ColumnName) (rest : List UInt8) :
    decodeColumns names.length (names.flatMap encodeName ++ rest) = .ok (names, rest) := by
  induction names with
  | nil => rfl
  | cons name names ih =>
      rw [List.length_cons, decodeColumns, List.flatMap_cons, List.append_assoc, decodeName_encode]
      dsimp only [bind, Except.bind]
      rw [ih]
      rfl

theorem takeLE_toLE {width n : ℕ} (small : n < 256 ^ width) (rest : List UInt8) :
    takeLE width (toLE width n ++ rest) = .ok (n, rest) := by
  have long : ¬ (toLE width n ++ rest).length < width := by
    rw [List.length_append, toLE_length]
    omega
  rw [takeLE, if_neg long, List.take_left' (toLE_length _ _), List.drop_left' (toLE_length _ _), ofLE_toLE_of_lt small]

theorem length_le_flatMap {α : Type} {f : α → List UInt8} (some_ : ∀ x, 0 < (f x).length) (l : List α) :
    l.length ≤ (l.flatMap f).length := by
  induction l with
  | nil => exact Nat.zero_le _
  | cons x rest ih =>
      rw [List.length_cons, List.flatMap_cons, List.length_append]
      have first := some_ x
      omega

theorem part_le_flatMap {α : Type} (f : α → List UInt8) {l : List α} {x : α} (member : x ∈ l) :
    (f x).length ≤ (l.flatMap f).length := by
  rw [List.flatMap_def]
  exact (List.sublist_flatten_of_mem (List.mem_map_of_mem member)).length_le

theorem encodeEntry_length (entry : List ColumnName × ℕ) :
    (encodeEntry entry).length = 12 + (entry.1.flatMap encodeName).length := by
  rw [encodeEntry, List.length_append, List.length_append, toLE_length, toLE_length]
  omega

theorem encode_length (tables : IndexLedgerTables) :
    (encode tables).length = 8 + (tables.entries.flatMap encodeEntry).length := by
  rw [encode, List.length_append, toLE_length]

/-- The entries are inserted in the order in which they were written. -/
theorem decodeEntries_encode {entries : List (List ColumnName × ℕ)}
    (narrow : ∀ entry ∈ entries, entry.1.length < 256 ^ 8 ∧ entry.2 < 256 ^ 4) {tables : IndexLedgerTables}
    (fresh : ((tables.entries ++ entries).map Prod.fst).Nodup) :
    ∃ result, decodeEntries entries.length tables (entries.flatMap encodeEntry) = .ok result ∧
      result.entries = tables.entries ++ entries := by
  induction entries generalizing tables with
  | nil => exact ⟨tables, rfl, (List.append_nil _).symm⟩
  | cons entry rest ih =>
      obtain ⟨⟨columns, root⟩, later⟩ := List.forall_mem_cons.mp narrow
      have absent : entry.1 ∉ tables.entries.map Prod.fst := by
        rw [List.map_append, List.map_cons] at fresh
        intro member
        exact (List.nodup_append.mp fresh).2.2 _ member _ List.mem_cons_self rfl
      have added : (tables.insert entry.1 entry.2).entries = tables.entries ++ [entry] := insertRoot_append entry.2 absent
      have unique : (((tables.insert entry.1 entry.2).entries ++ rest).map Prod.fst).Nodup := by
        rw [added, List.append_assoc, List.singleton_append]
        exact fresh
      obtain ⟨result, decoded, same⟩ := ih later unique
      refine ⟨result, ?_, by rw [same, added, List.append_assoc, List.singleton_append]⟩
      rw [List.length_cons, decodeEntries, List.flatMap_cons, encodeEntry, List.append_assoc, List.append_assoc,
        takeLE_toLE columns]
      dsimp only [bind, Except.bind]
      rw [decodeColumns_encode]
      dsimp only
      rw [takeLE_toLE root]
      exact decoded

/-- The counts of a map that fits a page are written in full. -/
theorem counts_fit {tables : IndexLedgerTables} (fits : (encode tables).length ≤ pageSize) :
    tables.entries.length < 256 ^ 8 ∧ ∀ entry ∈ tables.entries, entry.1.length < 256 ^ 8 := by
  rw [encode_length, pageSize_eq] at fits
  constructor
  · have each : ∀ entry, 0 < (encodeEntry entry).length := fun entry => by
      rw [encodeEntry_length]
      omega
    have bound := length_le_flatMap each tables.entries
    omega
  · intro entry member
    have each : ∀ name, 0 < (encodeName name).length := fun name => by
      rw [encodeName_length]
      omega
    have names := length_le_flatMap each entry.1
    have whole := part_le_flatMap encodeEntry member
    rw [encodeEntry_length] at whole
    omega

/-- A map that fits a page is decoded from its encoding. -/
theorem decode_encode {tables : IndexLedgerTables} (fits : (encode tables).length ≤ pageSize)
    (wide : ∀ entry ∈ tables.entries, entry.2 < 4294967296) : decode (encode tables) = .ok tables := by
  obtain ⟨few, columns⟩ := counts_fit fits
  have narrow : ∀ entry ∈ tables.entries, entry.1.length < 256 ^ 8 ∧ entry.2 < 256 ^ 4 :=
    fun entry member => ⟨columns entry member, wide entry member⟩
  have fresh : ((empty.entries ++ tables.entries).map Prod.fst).Nodup := tables.nodup
  obtain ⟨result, decoded, same⟩ := decodeEntries_encode narrow fresh
  have equal : result = tables := by
    cases result
    cases tables
    cases same
    rfl
  rw [decode, encode, takeLE_toLE few]
  exact decoded.trans (congrArg _ equal)

/-! ## The lengths agree -/

section Size
variable {build : Build}

theorem sizeColumns_eq (columns : List ColumnName) :
    sizeColumns build columns = build.msize (columns.flatMap encodeName).length := by
  have each : ∀ name ∈ columns, build.msize (1 + name.1.utf8ByteSize % (msizeMax + 1)) =
      build.msize (encodeName name).length := by
    intro name _
    have short : name.1.utf8ByteSize < msizeMax + 1 := Nat.lt_of_le_of_lt name.2 (by decide)
    rw [encodeName_length, Nat.mod_eq_of_lt short]
  have sum := Build.sum_eq (a := 0) columns each
  rwa [Build.msize_ok (Nat.zero_le _), Nat.zero_add, ← List.length_flatMap] at sum

theorem sizeEntry_eq (entry : List ColumnName × ℕ) : sizeEntry build entry = build.msize (encodeEntry entry).length := by
  rw [sizeEntry, sizeColumns_eq, ← bind_assoc, Build.msize_bind_add]
  have swap : ∀ n, build.msize (n + 4) = build.msize (4 + n) := fun n => by rw [Nat.add_comm]
  rw [funext swap, Build.msize_bind_add, encodeEntry_length]
  congr 1
  omega

/-- The size is the length of the encoding in the arithmetic of the build. -/
theorem size_eq (tables : IndexLedgerTables) : size build tables = build.msize (encode tables).length := by
  have each : ∀ entry ∈ tables.entries, sizeEntry build entry = build.msize (encodeEntry entry).length :=
    fun entry _ => sizeEntry_eq entry
  have sum := Build.sum_eq (a := 0) tables.entries each
  rw [Build.msize_ok (Nat.zero_le _), Nat.zero_add, ← List.length_flatMap] at sum
  rw [encode_length, ← Build.msize_bind_add, ← sum]
  rfl

end Size

section Length
variable {read data : List UInt8}

theorem readU64_of_shorter (shorter : read <+: data) {offset n : ℕ} (known : readU64 read offset = some n) :
    readU64 data offset = some n := by
  unfold readU64 at known ⊢
  split at known
  next inside =>
    obtain ⟨rest, rfl⟩ := shorter
    have long : offset + 8 ≤ (read ++ rest).length := by
      rw [List.length_append]
      omega
    have same : ((read ++ rest).drop offset).take 8 = (read.drop offset).take 8 := by
      rw [List.drop_append_of_le_length (by omega), List.take_append_of_le_length (by rw [List.length_drop]; omega)]
    rw [if_pos long, same]
    exact known
  next => cases known

theorem skipColumns_of_shorter (shorter : read <+: data) {n offset stop : ℕ} (known : skipColumns read n offset = some stop) :
    skipColumns data n offset = some stop := by
  induction n generalizing offset with
  | zero => exact known
  | succ n ih =>
      rw [skipColumns] at known ⊢
      obtain ⟨len, here, later⟩ := Option.bind_eq_some_iff.mp known
      obtain ⟨inside, _⟩ := List.getElem?_eq_some_iff.mp here
      have same : data[offset]? = read[offset]? := by
        obtain ⟨rest, rfl⟩ := shorter
        exact List.getElem?_append_left inside
      exact Option.bind_eq_some_iff.mpr ⟨len, same.trans here, ih later⟩

/-- What is computed from a prefix is computed from more of the page as well. -/
theorem skipEntries_of_shorter (shorter : read <+: data) {n offset stop : ℕ} (known : skipEntries read n offset = some stop) :
    skipEntries data n offset = some stop := by
  induction n generalizing offset with
  | zero => exact known
  | succ n ih =>
      rw [skipEntries] at known ⊢
      obtain ⟨count, here, known⟩ := Option.bind_eq_some_iff.mp known
      obtain ⟨next, skipped, later⟩ := Option.bind_eq_some_iff.mp known
      exact Option.bind_eq_some_iff.mpr ⟨count, readU64_of_shorter shorter here,
        Option.bind_eq_some_iff.mpr ⟨next, skipColumns_of_shorter shorter skipped, ih later⟩⟩

theorem readU64_toLE (before : List UInt8) {n : ℕ} (small : n < 256 ^ 8) (rest : List UInt8) :
    readU64 (before ++ (toLE 8 n ++ rest)) before.length = some n := by
  have long : before.length + 8 ≤ (before ++ (toLE 8 n ++ rest)).length := by
    rw [List.length_append, List.length_append, toLE_length]
    omega
  rw [readU64, if_pos long, List.drop_left, List.take_left' (toLE_length _ _), ofLE_toLE_of_lt small]

theorem skipColumns_encode (before : List UInt8) (names : List ColumnName) (rest : List UInt8) :
    skipColumns (before ++ (names.flatMap encodeName ++ rest)) names.length before.length =
      some (before.length + (names.flatMap encodeName).length) := by
  induction names generalizing before with
  | nil => rfl
  | cons name names ih =>
      have here : (before ++ ((name :: names).flatMap encodeName ++ rest))[before.length]? =
          some (UInt8.ofNat name.1.utf8ByteSize) := by
        rw [List.getElem?_append_right (Nat.le_refl _), Nat.sub_self]
        rfl
      have shift : before ++ ((name :: names).flatMap encodeName ++ rest) =
          (before ++ encodeName name) ++ (names.flatMap encodeName ++ rest) := by
        simp only [List.flatMap_cons, List.append_assoc]
      have next : before.length + (1 + name.1.utf8ByteSize) = (before ++ encodeName name).length := by
        rw [List.length_append, encodeName_length]
      rw [List.length_cons, skipColumns, here]
      dsimp only [bind, Option.bind]
      rw [nameByte, next, shift, ih, List.flatMap_cons, List.length_append, List.length_append, Nat.add_assoc]

theorem skipEntries_encode {entries : List (List ColumnName × ℕ)} (narrow : ∀ entry ∈ entries, entry.1.length < 256 ^ 8)
    (before rest : List UInt8) :
    skipEntries (before ++ (entries.flatMap encodeEntry ++ rest)) entries.length before.length =
      some (before.length + (entries.flatMap encodeEntry).length) := by
  induction entries generalizing before with
  | nil => rfl
  | cons entry entries ih =>
      obtain ⟨columns, later⟩ := List.forall_mem_cons.mp narrow
      let tail := toLE 4 entry.2 ++ (entries.flatMap encodeEntry ++ rest)
      have whole : before ++ ((entry :: entries).flatMap encodeEntry ++ rest) =
          before ++ (toLE 8 entry.1.length ++ (entry.1.flatMap encodeName ++ tail)) := by
        simp only [List.flatMap_cons, encodeEntry, List.append_assoc, tail]
      have names : before ++ ((entry :: entries).flatMap encodeEntry ++ rest) =
          (before ++ toLE 8 entry.1.length) ++ (entry.1.flatMap encodeName ++ tail) := by
        rw [whole, List.append_assoc]
      have others : before ++ ((entry :: entries).flatMap encodeEntry ++ rest) =
          (before ++ encodeEntry entry) ++ (entries.flatMap encodeEntry ++ rest) := by
        simp only [List.flatMap_cons, List.append_assoc]
      have counted : readU64 (before ++ ((entry :: entries).flatMap encodeEntry ++ rest)) before.length =
          some entry.1.length := by
        rw [whole]
        exact readU64_toLE before columns _
      have skipped : skipColumns (before ++ ((entry :: entries).flatMap encodeEntry ++ rest)) entry.1.length
          (before.length + 8) = some (before.length + 8 + (entry.1.flatMap encodeName).length) := by
        have at_ := skipColumns_encode (before ++ toLE 8 entry.1.length) entry.1 tail
        rw [List.length_append, toLE_length] at at_
        rw [names]
        exact at_
      have behind : before.length + 8 + (entry.1.flatMap encodeName).length + 4 = (before ++ encodeEntry entry).length := by
        rw [List.length_append, encodeEntry_length]
        omega
      rw [List.length_cons, skipEntries, counted]
      dsimp only [bind, Option.bind]
      rw [skipped]
      dsimp only
      rw [behind, others, ih later, List.flatMap_cons, List.length_append, List.length_append, Nat.add_assoc]

/-- From a prefix of a page with the map the length of its encoding is computed, unless the
prefix is shorter. -/
theorem encodedLen_announces {tables : IndexLedgerTables} (fits : (encode tables).length ≤ pageSize) :
    Announces encodedLen (encode tables) := by
  obtain ⟨few, narrow⟩ := counts_fit fits
  have known : ∀ rest, skipEntries (encode tables ++ rest) tables.entries.length 8 = some (encode tables).length ∧
      readU64 (encode tables ++ rest) 0 = some tables.entries.length := by
    intro rest
    have split : encode tables ++ rest = toLE 8 tables.entries.length ++ (tables.entries.flatMap encodeEntry ++ rest) :=
      List.append_assoc _ _ _
    have skipped := skipEntries_encode narrow (toLE 8 tables.entries.length) rest
    rw [toLE_length] at skipped
    rw [split, encode_length]
    exact ⟨skipped, readU64_toLE [] few _⟩
  intro read rest shorter
  by_cases whole : (encode tables).length ≤ read.length
  · have code := List.prefix_of_prefix_length_le (List.prefix_append _ _) shorter whole
    obtain ⟨more, rfl⟩ := code
    left
    obtain ⟨skipped, counted⟩ := known more
    rw [encodedLen, counted]
    dsimp only [bind, Option.bind]
    rw [skipped]
    dsimp only
    rw [if_pos whole]
  · right
    refine ⟨Option.eq_none_iff_forall_ne_some.mpr fun len found => ?_, Nat.lt_of_not_le whole⟩
    obtain ⟨count, counted, found⟩ := Option.bind_eq_some_iff.mp found
    obtain ⟨stop, skipped, found⟩ := Option.bind_eq_some_iff.mp found
    obtain ⟨ends, count_eq⟩ := known rest
    cases (readU64_of_shorter shorter counted).symm.trans count_eq
    cases (skipEntries_of_shorter shorter skipped).symm.trans ends
    rw [if_neg whole] at found
    cases found

end Length

end IndexLedgerTables
end WasmDbms
