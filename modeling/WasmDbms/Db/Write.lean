import WasmDbms.Db.Delete

/-!
# Insertion and update

The sanitizers, the integrity checks and the one-shot `insert` and `update`. The
checks query the rows that are visible, which in a transaction are not the stored
ones. An update rewrites the foreign keys that reference a changed value by a nested
update; the fuel bounds the depth of the nesting.
-/
namespace WasmDbms

variable {J F : Type} [LinearOrder J]

/-- The rows that can be seen in each table. -/
abbrev View (J : Type) := String → List (Row J)

def DbState.view (s : DbState J) : View J := fun name => (s name).rows.map Prod.snd

/-- Whether a column takes a value. -/
def ColumnDef.accepts (c : ColumnDef) (v : Value J) : Bool :=
  v.kind == some c.dataType || (v.isNull && c.nullable)

namespace TableDef
variable (table : TableDef J)

/-- `sanitize_values`. -/
def sanitizeValues (values : Row J) : Except (DbmsError J) (Row J) :=
  values.mapM fun (column, value) =>
    match table.sanitizer column.name with
    | some sanitize => do return (column, ← sanitize value)
    | none => return (column, value)

def checkColumnValidate (column : ColumnDef) (value : Value J) : Except (DbmsError J) Unit :=
  match table.validator column.name with
  | some validate => validate value
  | none => .ok ()

/-- `check_non_nullable_fields`. -/
def checkNonNullableFields (values : Row J) : Except (DbmsError J) Unit :=
  table.columns.forM fun column =>
    if column.nullable || values.any (fun entry => entry.1.name == column.name) then .ok ()
    else .error (.query (.missingNonNullableField column.name))

/-- The field `from_values` sets from a column: the last value of its type. -/
def fieldOf (column : ColumnDef) (values : Row J) : Except (DbmsError J) (ColumnDef × Value J) :=
  match (values.filter fun entry => entry.1.name == column.name && column.accepts entry.2).getLast? with
  | some entry => .ok (column, entry.2)
  | none =>
      if column.nullable then .ok (column, .null)
      else .error (.query (.missingNonNullableField column.name))

/-- `from_values`, as the values of the record it makes. -/
def fromValues (values : Row J) : Except (DbmsError J) (Row J) :=
  table.columns.mapM fun column => fieldOf column values

end TableDef

omit [LinearOrder J] in
/-- The sanitizers keep the columns. -/
theorem sanitizeValues_columns {t : TableDef J} {values sanitized : Row J}
    (run : t.sanitizeValues values = .ok sanitized) : sanitized.map Prod.fst = values.map Prod.fst := by
  have pairs := Result.mapM_forall₂ run
  clear run
  induction pairs with
  | nil => rfl
  | @cons entry made rest _ first _ ih =>
      rw [List.map_cons, List.map_cons, ih]
      refine congrArg (· :: _) ?_
      dsimp only at first
      cases own : t.sanitizer entry.1.name with
      | none =>
          rw [own] at first
          cases first
          rfl
      | some sanitize =>
          rw [own] at first
          obtain ⟨value, _, same⟩ := Result.bind_eq_ok.mp first
          cases same
          rfl

namespace Database
variable (db : Database J F)

/-- The visible rows that match. -/
def selectMatching (filter : Option (Filter J F)) : List (Row J) → Except (Failure J) (List (Row J))
  | [] => .ok []
  | row :: rest => do
      let keep ← db.recordMatchesFilter row filter
      let rest ← selectMatching filter rest
      return if keep then row :: rest else rest

def select (view : View J) (table : TableDef J) (filter : Option (Filter J F)) :
    Except (Failure J) (List (Row J)) :=
  db.selectMatching filter (view table.name)

/-- The value of the primary key in the values of a record. -/
def requiredKey (table : TableDef J) (values : Row J) : Except (Failure J) (Value J) :=
  match findColumn table.primaryKey values with
  | some key => .ok key
  | none => .error (.error (.query (.missingNonNullableField table.primaryKey)))

/-- `check_foreign_key_existence`, with the fetch of the referenced record. -/
def checkForeignKeyExistence (view : View J) (fk : ForeignKeyDef) (value : Value J) :
    Except (Failure J) Unit := do
  let target ← Failure.lift (db.schema.table fk.foreignTable)
  let rows ← db.select view target (some (.eq fk.foreignColumn value))
  if rows.isEmpty then throw (.error (.query (.brokenForeignKeyReference fk.foreignTable value)))

def checkForeignKeys (view : View J) (values : Row J) : Except (Failure J) Unit :=
  (values.filter fun entry => !(entry.1.nullable && entry.2.isNull)).forM fun entry =>
    match entry.1.foreignKey with
    | some fk => db.checkForeignKeyExistence view fk entry.2
    | none => .ok ()

/-- The checks that an insertion and an update share, around those of their own. -/
def validate (view : View J) (table : TableDef J) (values : Row J) (own : Except (Failure J) Unit) :
    Except (Failure J) Unit := do
  values.forM fun entry => Failure.lift (table.checkColumnValidate entry.1 entry.2)
  own
  db.checkForeignKeys view values
  Failure.lift (table.checkNonNullableFields values)

def validateInsert (view : View J) (table : TableDef J) (values : Row J) : Except (Failure J) Unit :=
  db.validate view table values do
    let key ← requiredKey table values
    let rows ← db.select view table (some (.eq table.primaryKey key))
    if !rows.isEmpty then throw (.error (.query .primaryKeyConflict))
    (values.filter fun entry => entry.1.unique).forM fun entry => do
      let rows ← db.select view table (some (.eq entry.1.name entry.2))
      if !rows.isEmpty then throw (.error (.query (.uniqueConstraintViolation entry.1.name)))

def validateUpdate (view : View J) (table : TableDef J) (values : Row J) (oldKey : Value J) :
    Except (Failure J) Unit :=
  db.validate view table values do
    let key ← requiredKey table values
    let rows ← db.select view table (some (.eq table.primaryKey key))
    if !(rows.isEmpty || (rows.length == 1 && key = oldKey)) then
      throw (.error (.query .primaryKeyConflict))
    (values.filter fun entry => entry.1.unique).forM fun entry => do
      let rows ← db.select view table (some (.eq entry.1.name entry.2))
      if rows.any fun row => findColumn table.primaryKey row ≠ some oldKey then
        throw (.error (.query (.uniqueConstraintViolation entry.1.name)))

/-- `insert_index`. -/
def insertIndex (indexes : List IndexDef) (address : RecordAddress) (values : Row J) (ledger : IndexLedger J) :
    Except (DbmsError J) (IndexLedger J) :=
  indexes.foldlM (fun ledger index =>
    ledger.insert index.columns (indexKey index.columns values) address) ledger

/-- Stores a record and its index entries. -/
def insertRecord (table : TableDef J) (record values : Row J) (s : DbState J) :
    Except (Failure J) (DbState J) := do
  let data := s table.name
  let address := db.place table (data.rows.map Prod.fst) record
  let indexes ← Failure.lift (insertIndex table.indexes address values data.indexes)
  return Function.update s table.name ⟨data.rows ++ [(address, record)], indexes⟩

/-- A one-shot `insert` of values whose auto-increment columns are filled. -/
def insert (table : TableDef J) (values : Row J) (s : DbState J) : Except (Failure J) (DbState J) := do
  let sanitized ← Failure.lift (table.sanitizeValues values)
  db.validateInsert s.view table sanitized
  let record ← Failure.lift (table.fromValues sanitized)
  db.insertRecord table record sanitized s

/-- `update_index`. -/
def updateIndex (indexes : List IndexDef) (oldAddress newAddress : RecordAddress) (oldValues newValues : Row J)
    (ledger : IndexLedger J) : Except (DbmsError J) (IndexLedger J) :=
  indexes.foldlM (fun ledger index => do
    let oldKey := indexKey index.columns oldValues
    let newKey := indexKey index.columns newValues
    if oldKey = newKey then ledger.update index.columns newKey oldAddress newAddress
    else do
      let ledger ← ledger.delete index.columns oldKey oldAddress
      ledger.insert index.columns newKey newAddress) ledger

/-- Puts a record in the place of another. -/
def replaceRecord (table : TableDef J) (address : RecordAddress) (oldValues newValues record : Row J)
    (s : DbState J) : Except (Failure J) (DbState J) := do
  let data := s table.name
  let others := (data.rows.map Prod.fst).filter fun a => a ≠ address
  let newAddress := if db.sameSize table oldValues record then address else db.place table others record
  let indexes ← Failure.lift
    (updateIndex table.indexes address newAddress oldValues newValues data.indexes)
  let rows := data.rows.map fun x => if x.1 = address then (newAddress, record) else x
  return Function.update s table.name ⟨rows, indexes⟩

/-- A foreign key column whose referenced value changes, with the old and the new value. -/
structure Rewrite (J : Type) where
  table : String
  column : String
  old : Value J
  new : Value J

/-- The foreign keys `update_references_to_updated_record` rewrites. -/
def rewrites (table : TableDef J) (oldValues newValues : Row J) : Except (DbmsError J) (List (Rewrite J)) := do
  let perTable ← (db.schema.referencedTables table.name).mapM fun (name, columns) =>
    columns.mapM fun column => do
      let referenced ← db.schema.referencedColumn name column
      match findColumn referenced oldValues, findColumn referenced newValues with
      | some old, some new => return if old = new then none else some (⟨name, column, old, new⟩ : Rewrite J)
      | _, _ => return none
  return perTable.flatten.filterMap id

/-- The nested updates, by `follow`. -/
def rewriteAll (follow : Rewrite J → DbState J → Except (Failure J) (ℕ × DbState J)) :
    List (Rewrite J) → DbState J → Except (Failure J) (ℕ × DbState J)
  | [], s => .ok (0, s)
  | r :: rest, s => do
      let (n, s) ← follow r s
      let (m, s) ← rewriteAll follow rest s
      return (n + m, s)

/-- One turn of the loop of `update`. -/
def updateRecord (follow : Rewrite J → DbState J → Except (Failure J) (ℕ × DbState J)) (table : TableDef J)
    (patch : Row J) (address : RecordAddress) (values : Row J) (s : DbState J) :
    Except (Failure J) (ℕ × DbState J) := do
  let oldKey ← match primaryKeyOf values with
    | some key => pure key
    | none => throw .panics
  let _ ← Failure.lift (table.fromValues values)
  let newValues ← Failure.lift (table.sanitizeValues (patchValues patch values))
  db.validateUpdate s.view table newValues oldKey
  let record ← Failure.lift (table.fromValues newValues)
  let s ← db.replaceRecord table address values newValues record s
  let rewrites ← Failure.lift (db.rewrites table values newValues)
  let (n, s) ← rewriteAll follow rewrites s
  return (1 + n, s)

def updateRecords (follow : Rewrite J → DbState J → Except (Failure J) (ℕ × DbState J)) (table : TableDef J)
    (patch : Row J) : List (RecordAddress × Row J) → DbState J → Except (Failure J) (ℕ × DbState J)
  | [], s => .ok (0, s)
  | (address, values) :: rest, s => do
      let (n, s) ← db.updateRecord follow table patch address values s
      let (m, s) ← updateRecords follow table patch rest s
      return (n + m, s)

/-- A column a patch names takes its value; other names are not looked at. -/
def checkPatch (table : TableDef J) (column : String) (value : Value J) : Except (DbmsError J) Unit :=
  match table.columns.find? fun c => c.name == column with
  | some c =>
      if c.accepts value then .ok ()
      else .error (.query (.invalidQuery s!"column '{column}' does not accept a value of type {value.typeName}"))
  | none => .ok ()

/-- The patch `UpdateRecord::from_values` makes of some values. -/
def typedPatch (table : TableDef J) (values : List (String × Value J)) : Except (DbmsError J) (Row J) := do
  values.forM fun entry => checkPatch table entry.1 entry.2
  return table.columns.filterMap fun c =>
    ((values.filter fun entry => entry.1 == c.name).getLast?).map fun entry => (c, entry.2)

/-- A one-shot `update`: the number of records it updated and the state it leaves. -/
def update : ℕ → TableDef J → Row J → Option (Filter J F) → DbState J → Except (Failure J) (ℕ × DbState J)
  | 0, _, _, _, _ => .error .diverges
  | fuel + 1, table, patch, filter, s => do
      let records ← db.collectMatchingRecords table filter s
      let follow (r : Rewrite J) (s : DbState J) : Except (Failure J) (ℕ × DbState J) := do
        let t ← Failure.lift (db.schema.table r.table)
        let patch ← Failure.lift (typedPatch t [(r.column, r.new)])
        update fuel t patch (some (.eq r.column r.old)) s
      db.updateRecords follow table patch records s

end Database

section Records
open Result

omit [LinearOrder J] in
theorem accepts_iff {column : ColumnDef} {value : Value J} : column.accepts value = true ↔ column.Admits value := by
  have null : value.isNull = true ↔ value = .null := by cases value <;> simp [Value.isNull]
  rw [ColumnDef.accepts, Bool.or_eq_true, Bool.and_eq_true, beq_iff_eq, null, ColumnDef.Admits]

omit [LinearOrder J] in
theorem fieldOf_ok {column : ColumnDef} {values : Row J} {entry : ColumnDef × Value J}
    (found : TableDef.fieldOf column values = .ok entry) : entry.1 = column ∧ column.Admits entry.2 := by
  unfold TableDef.fieldOf at found
  split at found
  next e last =>
    cases found
    have member := List.mem_filter.mp (List.mem_of_getLast? last)
    have accepted := (Bool.and_eq_true _ _ ▸ member.2 : _ ∧ column.accepts e.2 = true).2
    exact ⟨rfl, accepts_iff.mp accepted⟩
  next =>
    split at found
    next nullable =>
      cases found
      exact ⟨rfl, .inr ⟨rfl, nullable⟩⟩
    next => cases found

omit [LinearOrder J] in
/-- What `from_values` makes is a record of the table. -/
theorem fromValues_row {table : TableDef J} {values record : Row J} (run : table.fromValues values = .ok record) :
    RowOf table.columns record := by
  unfold TableDef.fromValues at run
  refine ⟨?_, ?_⟩
  · have pairs := mapM_forall₂ run
    clear run
    generalize table.columns = columns at pairs
    induction pairs with
    | nil => rfl
    | cons first _ ih => rw [List.map_cons, (fieldOf_ok first).1, ih]
  · intro entry member
    obtain ⟨column, _, found⟩ := (mem_mapM run).mp member
    obtain ⟨same, admits⟩ := fieldOf_ok found
    exact same ▸ admits

end Records

/-! ## What an update preserves -/

section Rule
open Result

variable {db : Database J F} {R : DbState J → DbState J → Prop}
variable (refl : ∀ s, R s s) (trans : ∀ a b c, R a b → R b c → R a c)

/-- The parts of a turn of the loop that succeeds. -/
theorem updateRecord_ok {follow : Database.Rewrite J → DbState J → Except (Failure J) (ℕ × DbState J)}
    {t : TableDef J} {patch : Row J} {address : RecordAddress} {values : Row J} {s s' : DbState J} {n : ℕ}
    (run : db.updateRecord follow t patch address values s = .ok (n, s')) :
    ∃ oldKey newValues record s₁ rewrites m, primaryKeyOf values = some oldKey ∧
      t.sanitizeValues (patchValues patch values) = .ok newValues ∧
      db.validateUpdate s.view t newValues oldKey = .ok () ∧ t.fromValues newValues = .ok record ∧
      db.replaceRecord t address values newValues record s = .ok s₁ ∧
      db.rewrites t values newValues = .ok rewrites ∧
      Database.rewriteAll follow rewrites s₁ = .ok (m, s') ∧ n = 1 + m := by
  unfold Database.updateRecord at run
  cases key : primaryKeyOf values with
  | none =>
      rw [key] at run
      cases run
  | some oldKey =>
      rw [key] at run
      obtain ⟨_, keyed, run⟩ := bind_eq_ok.mp run
      cases keyed
      obtain ⟨_, _, run⟩ := bind_eq_ok.mp run
      obtain ⟨newValues, sanitized, run⟩ := bind_eq_ok.mp run
      obtain ⟨_, valid, run⟩ := bind_eq_ok.mp run
      obtain ⟨record, made, run⟩ := bind_eq_ok.mp run
      obtain ⟨s₁, replaced, run⟩ := bind_eq_ok.mp run
      obtain ⟨rewrites, found, run⟩ := bind_eq_ok.mp run
      obtain ⟨⟨m, s₂⟩, rewritten, run⟩ := bind_eq_ok.mp run
      cases run
      exact ⟨oldKey, newValues, record, s₁, rewrites, m, rfl, Failure.lift_eq_ok.mp sanitized, valid,
        Failure.lift_eq_ok.mp made, replaced, Failure.lift_eq_ok.mp found, rewritten, rfl⟩

section Loops
variable {follow : Database.Rewrite J → DbState J → Except (Failure J) (ℕ × DbState J)}
variable (nested : ∀ r s n s', follow r s = .ok (n, s') → R s s')
include refl trans nested

omit [LinearOrder J] in
theorem rewriteAll_rule {rewrites : List (Database.Rewrite J)} {s s' : DbState J} {n : ℕ}
    (run : Database.rewriteAll follow rewrites s = .ok (n, s')) : R s s' := by
  induction rewrites generalizing s n with
  | nil =>
      cases run
      exact refl _
  | cons r rest ih =>
      obtain ⟨⟨m, s₁⟩, first, run⟩ := bind_eq_ok.mp run
      obtain ⟨⟨k, s₂⟩, second, run⟩ := bind_eq_ok.mp run
      cases run
      exact trans _ _ _ (nested r s m s₁ first) (ih second)

theorem updateRecords_rule {t : TableDef J} {patch : Row J}
    (step : ∀ address old patched new record s s', t.sanitizeValues patched = .ok new → t.fromValues new = .ok record →
      db.replaceRecord t address old new record s = .ok s' → R s s')
    {records : List (RecordAddress × Row J)} {s s' : DbState J} {n : ℕ}
    (run : db.updateRecords follow t patch records s = .ok (n, s')) : R s s' := by
  induction records generalizing s n with
  | nil =>
      cases run
      exact refl _
  | cons x rest ih =>
      obtain ⟨⟨m, s₁⟩, first, run⟩ := bind_eq_ok.mp run
      obtain ⟨⟨k, s₂⟩, second, run⟩ := bind_eq_ok.mp run
      cases run
      obtain ⟨_, _, _, _, _, _, _, sanitized, _, made, replaced, _, rewritten, _⟩ := updateRecord_ok first
      have here := step _ _ _ _ _ _ _ sanitized made replaced
      have below := rewriteAll_rule refl trans nested rewritten
      exact trans _ _ _ (trans _ _ _ here below) (ih second)

end Loops

include refl trans in
/-- What the replacement of one record preserves, an update does. -/
theorem update_rule
    (step : ∀ t ∈ db.schema.tables, ∀ address old patched new record s s', t.sanitizeValues patched = .ok new →
      t.fromValues new = .ok record → db.replaceRecord t address old new record s = .ok s' → R s s')
    {fuel : ℕ} {t : TableDef J} (listed : t ∈ db.schema.tables) {patch : Row J} {filter : Option (Filter J F)}
    {s s' : DbState J} {n : ℕ} (run : db.update fuel t patch filter s = .ok (n, s')) : R s s' := by
  induction fuel generalizing t patch filter s s' n with
  | zero => cases run
  | succ fuel ih =>
      obtain ⟨records, _, run⟩ := bind_eq_ok.mp run
      refine updateRecords_rule refl trans ?_ (step t listed) run
      intro r s n s' nested
      obtain ⟨t', lookup, nested⟩ := bind_eq_ok.mp nested
      obtain ⟨_, _, nested⟩ := bind_eq_ok.mp nested
      exact ih (DatabaseSchema.table_ok (Failure.lift_eq_ok.mp lookup)).1 nested

end Rule
end WasmDbms
