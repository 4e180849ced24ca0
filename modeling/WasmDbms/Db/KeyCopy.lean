import WasmDbms.Db.Selection
import WasmDbms.Index.KeyCodec
import WasmDbms.Index.Node

/-!
# Index keys as copies of values

An index entry holds the values of its columns once more, in the encoding of keys. The
equality of values does not see the text of a document, the representation of a decimal
or the display string of a custom value, so a read from index keys alone can differ from
a scan there.
-/
namespace WasmDbms
open Result

/-- A row with all that can be observed of its values. -/
abbrev StoredRow (D J : Type) := List (ColumnDef × StoredValue D J)

abbrev StoredEntry (D J : Type) := List (StoredValue D J) × RecordAddress

abbrev StoredLedger (D J : Type) := List (List String × List (StoredEntry D J))

/-- A table: the rows as a scan reads them, and the indexes with their keys as they are read. -/
structure StoredData (D J : Type) where
  rows : List (RecordAddress × StoredRow D J)
  indexes : StoredLedger D J

section Rows
variable {D J : Type}

def StoredRow.find (column : String) (row : StoredRow D J) : Option (StoredValue D J) :=
  (row.find? fun entry => entry.1.name == column).map Prod.snd

/-- `index_key`. -/
def StoredRow.key (columns : List String) (row : StoredRow D J) : List (StoredValue D J) :=
  columns.map fun column => (StoredRow.find column row).getD .null

/-- The display string that the type of a custom value gives it. -/
def StoredValue.displayed (display : String → List UInt8 → String) : StoredValue D J → StoredValue D J
  | .custom value => .custom { value with display := display value.typeTag value.encoded }
  | v => v

variable (formats : Formats D J)

def keyView (key : List (StoredValue D J)) : List (Value J) := key.map (StoredValue.toValue formats)

/-- A value as a scan reads it back. -/
def scanned (display : String → List UInt8 → String) (v : StoredValue D J) : Except Fault (StoredValue D J) :=
  (readBack formats v).map (StoredValue.displayed display)

/-- A key as it is read from its entry. The source refuses a key that is too large, and fails
when it reads a key that cannot be read back. -/
def copyKey (key : List (StoredValue D J)) : Except Fault (List (StoredValue D J)) := do
  let _ ← leafEntrySizeFromLen (encodeKey formats key).length
  decodeKey formats (encodeKey formats key)

end Rows

namespace StoredLedger
variable {D J : Type}

/-- `lookup_root_page`. -/
def lookup (ledger : StoredLedger D J) (columns : List String) : Except (DbmsError J) (List (StoredEntry D J)) :=
  match ledger.find? fun index => index.1 == columns with
  | some index => .ok index.2
  | none => .error (.memory (.indexNotFound columns))

/-- Replaces the entries of an index. -/
def modify (columns : List String) (f : List (StoredEntry D J) → Except Fault (List (StoredEntry D J))) :
    StoredLedger D J → Except Fault (StoredLedger D J)
  | [] => .error (.error (.indexNotFound columns))
  | index :: rest =>
      if index.1 = columns then do
        let entries ← f index.2
        return (index.1, entries) :: rest
      else do
        let rest ← modify columns f rest
        return index :: rest

section Entries
variable [LinearOrder J] (formats : Formats D J) (key : List (StoredValue D J))

/-- The entry has this key and this pointer, by the equality of values. -/
def isEntry (pointer : RecordAddress) (e : StoredEntry D J) : Bool :=
  keyView formats e.1 = keyView formats key && e.2 = pointer

def deleteEntry (pointer : RecordAddress) (entries : List (StoredEntry D J)) : Except Fault (List (StoredEntry D J)) :=
  if entries.any (isEntry formats key pointer) then .ok (entries.eraseP (isEntry formats key pointer))
  else .error (.error .entryNotFound)

def insertEntry (pointer : RecordAddress) (entries : List (StoredEntry D J)) : Except Fault (List (StoredEntry D J)) := do
  let copy ← copyKey formats key
  return entries.orderedInsert (fun a b => keyView formats a.1 ≤ keyView formats b.1) (copy, pointer)

/-- `update` of an index: the entry keeps its key. -/
def moveEntry (old new : RecordAddress) (entries : List (StoredEntry D J)) : Except Fault (List (StoredEntry D J)) :=
  if entries.any (isEntry formats key old) then
    .ok (entries.map fun e => if isEntry formats key old e then (e.1, new) else e)
  else .error (.error .entryNotFound)

end Entries
end StoredLedger

/-! ## Writing -/

section Write
variable {D J : Type} [LinearOrder J] (formats : Formats D J) (indexes : List IndexDef)

/-- `insert_index`. -/
def insertKeys (address : RecordAddress) (values : StoredRow D J) (ledger : StoredLedger D J) :
    Except Fault (StoredLedger D J) :=
  indexes.foldlM (fun ledger index =>
    StoredLedger.modify index.columns (StoredLedger.insertEntry formats (StoredRow.key index.columns values) address)
      ledger) ledger

/-- `delete_index`. -/
def deleteKeys (address : RecordAddress) (values : StoredRow D J) (ledger : StoredLedger D J) :
    Except Fault (StoredLedger D J) :=
  indexes.foldlM (fun ledger index =>
    StoredLedger.modify index.columns (StoredLedger.deleteEntry formats (StoredRow.key index.columns values) address)
      ledger) ledger

/-- `update_index`. -/
def updateKeys (oldAddress newAddress : RecordAddress) (oldValues newValues : StoredRow D J) (ledger : StoredLedger D J) :
    Except Fault (StoredLedger D J) :=
  indexes.foldlM (fun ledger index => do
    let oldKey := StoredRow.key index.columns oldValues
    let newKey := StoredRow.key index.columns newValues
    if keyView formats oldKey = keyView formats newKey then
      StoredLedger.modify index.columns (StoredLedger.moveEntry formats newKey oldAddress newAddress) ledger
    else do
      let ledger ← StoredLedger.modify index.columns (StoredLedger.deleteEntry formats oldKey oldAddress) ledger
      StoredLedger.modify index.columns (StoredLedger.insertEntry formats newKey newAddress) ledger) ledger

end Write

/-! ## Reading -/

/-- An index scan with the values of its equality prefix as the query has them. -/
structure StoredScan (D J : Type) where
  columns : List String
  keyPrefix : List (StoredValue D J)
  lower : Bound (Value J)
  upper : Bound (Value J)

section Read
variable {D J E σ : Type} (formats : Formats D J)

def StoredScan.view (scan : StoredScan D J) : IndexScan J :=
  ⟨scan.columns, keyView formats scan.keyPrefix, scan.lower, scan.upper⟩

variable (visit : σ → List (StoredValue D J) → RecordAddress → Except E (ControlFlow σ))

/-- Visits the entries of an exact key. -/
def visitStored : List (StoredEntry D J) → σ → Except E σ
  | [], s => .ok s
  | (key, address) :: rest, s => do
      match ← visit s key address with
      | .next s => visitStored rest s
      | .stop s => return s

/-- The loop over the cursor. -/
def walkStored [LinearOrder J] (scan : IndexScan J) : List (StoredEntry D J) → σ → Except E σ
  | [], s => .ok s
  | (key, address) :: rest, s =>
      if (keyView formats key).take scan.keyPrefix.length ≠ scan.keyPrefix then .ok s
      else match (keyView formats key)[scan.keyPrefix.length]? with
        | none => .ok s
        | some component =>
            if !scan.lower.admitsLower component then walkStored scan rest s
            else if !scan.upper.admitsUpper component then .ok s
            else do
              match ← visit s key address with
              | .next s => walkStored scan rest s
              | .stop s => return s

/-- `for_each_entry`. The visitor of an exact key gets the key of the scan. -/
def StoredScan.forEachEntry [LinearOrder J] (scan : StoredScan D J) (ledger : StoredLedger D J)
    (visit : σ → List (StoredValue D J) → RecordAddress → Except (DbmsError J) (ControlFlow σ)) (s : σ) :
    Except (DbmsError J) σ := do
  let entries ← ledger.lookup scan.columns
  if (scan.view formats).isExact then
    let found := (entries.filter fun e => keyView formats e.1 = keyView formats scan.keyPrefix).map Prod.snd
    visitStored visit (found.map fun address => (scan.keyPrefix, address)) s
  else
    walkStored formats visit (scan.view formats) (entries.filter fun e => (scan.view formats).seekKey ≤ keyView formats e.1) s

namespace SelectQuery
variable {F : Type} [LinearOrder J] (db : Database J F) (query : SelectQuery J F) (table : TableDef J)

end SelectQuery
end Read

/-! ## Runs -/

inductive RowOp (D J : Type) where
  | insert (address : RecordAddress) (values : StoredRow D J)
  | update (old new : RecordAddress) (values : StoredRow D J)
  | delete (address : RecordAddress)

section Runs
variable {D J : Type} [LinearOrder J] (formats : Formats D J) (display : String → List UInt8 → String) (table : TableDef J)

/-- The record that is stored for checked values, as a scan reads it. -/
def recordOf (values : StoredRow D J) : Except Fault (StoredRow D J) :=
  table.columns.mapM fun column => do
    let v ← scanned formats display ((StoredRow.find column.name values).getD .null)
    return (column, v)

/-- What a record operation does to a table when it succeeds. -/
def RowOp.Performs (data : StoredData D J) : RowOp D J → StoredData D J → Prop
  | .insert address values, after => address ∉ data.rows.map Prod.fst ∧ ∃ record indexes,
      recordOf formats display table values = .ok record ∧
      insertKeys formats table.indexes address values data.indexes = .ok indexes ∧
      after = ⟨data.rows ++ [(address, record)], indexes⟩
  | .update old new values, after => ∃ row record indexes, (old, row) ∈ data.rows ∧
      (new = old ∨ new ∉ data.rows.map Prod.fst) ∧ recordOf formats display table values = .ok record ∧
      updateKeys formats table.indexes old new row values data.indexes = .ok indexes ∧
      after = ⟨data.rows.map fun x => if x.1 = old then (new, record) else x, indexes⟩
  | .delete address, after => ∃ row indexes, (address, row) ∈ data.rows ∧
      deleteKeys formats table.indexes address row data.indexes = .ok indexes ∧
      after = ⟨data.rows.filter fun x => x.1 ≠ address, indexes⟩

/-- No custom value of the key has a display string. -/
def Undisplayed (key : List (StoredValue D J)) : Prop := ∀ v ∈ key, v.withoutDisplay = v

/-- The operation gives the index on these columns no custom value with a display string, and
no row a key that equals the one it had but is written in another way. -/
def RowOp.KeepsText (columns : List String) (data : StoredData D J) : RowOp D J → Prop
  | .insert _ values => ∀ record, recordOf formats display table values = .ok record →
      Undisplayed (StoredRow.key columns record)
  | .update old _ values => ∀ row record, (old, row) ∈ data.rows → recordOf formats display table values = .ok record →
      Undisplayed (StoredRow.key columns record) ∧
        (keyView formats (StoredRow.key columns row) = keyView formats (StoredRow.key columns values) →
          StoredRow.key columns row = StoredRow.key columns record)
  | .delete _ => True

/-- The empty table. -/
def StoredData.empty : StoredData D J := ⟨[], table.indexes.map fun index => (index.columns, [])⟩

/-- The tables that allowed operations lead to. A failed operation is rolled back. -/
inductive TableRun (allowed : StoredData D J → RowOp D J → Prop) : StoredData D J → Prop
  | empty : TableRun allowed (.empty table)
  | step {data after : StoredData D J} {op : RowOp D J} (run : TableRun allowed data)
      (performs : op.Performs formats display table data after) (permitted : allowed data op) : TableRun allowed after

end Runs

/-! ## The copies in the indexes -/

/-- The entries of an index are the keys of the rows. -/
def CopiesOf {D J : Type} (columns : List String) (rows : List (RecordAddress × StoredRow D J))
    (entries : List (StoredEntry D J)) : Prop :=
  entries.Perm (rows.map fun x => (StoredRow.key columns x.2, x.1))

section Entries
variable {D J : Type} {columns : List String} {rows : List (RecordAddress × StoredRow D J)}
  {entries after : List (StoredEntry D J)} {row record values : StoredRow D J} {old new : RecordAddress}

/-- An entry holds the key of the row at its address. -/
theorem CopiesOf.owner (copies : CopiesOf columns rows entries) {e : StoredEntry D J} (member : e ∈ entries) :
    ∃ row, (e.2, row) ∈ rows ∧ e.1 = StoredRow.key columns row := by
  obtain ⟨x, stored, rfl⟩ := List.mem_map.mp (copies.mem_iff.mp member)
  exact ⟨x.2, stored, rfl⟩

theorem row_unique (addresses : (rows.map Prod.fst).Nodup) (stored : (old, row) ∈ rows) {x : RecordAddress × StoredRow D J}
    (member : x ∈ rows) (same : x.1 = old) : x = (old, row) :=
  List.inj_on_of_nodup_map addresses member stored same

theorem eraseP_eq_filter {p : StoredEntry D J → Bool} (pointers : (entries.map Prod.snd).Nodup)
    (one : ∀ e ∈ entries, p e = decide (e.2 = old)) :
    entries.eraseP p = entries.filter fun e => e.2 ≠ old := by
  induction entries with
  | nil => rfl
  | cons e rest ih =>
      obtain ⟨here, later⟩ := List.forall_mem_cons.mp one
      obtain ⟨fresh, distinct⟩ := List.nodup_cons.mp pointers
      by_cases own : e.2 = old
      · have none_ : (rest.filter fun e => decide (e.2 ≠ old)) = rest :=
          List.filter_eq_self.mpr fun x member =>
            decide_eq_true fun same => fresh (own.trans same.symm ▸ List.mem_map_of_mem member)
        rw [List.eraseP_cons_of_pos (here.trans (decide_eq_true own)),
          List.filter_cons_of_neg (by simp [own]), none_]
      · rw [List.eraseP_cons_of_neg (by rw [here]; simp [own]), List.filter_cons_of_pos (by simp [own]), ih distinct later]

theorem CopiesOf.pointers (copies : CopiesOf columns rows entries) (addresses : (rows.map Prod.fst).Nodup) :
    (entries.map Prod.snd).Nodup := by
  rw [(copies.map Prod.snd).nodup_iff, List.map_map]
  exact addresses

/-- The rows with another one in the place of one of them. -/
theorem replaced_perm (addresses : (rows.map Prod.fst).Nodup) (stored : (old, row) ∈ rows) :
    (rows.map fun x => if x.1 = old then (new, record) else x).Perm
      ((rows.filter fun x => x.1 ≠ old) ++ [(new, record)]) := by
  induction rows with
  | nil => cases stored
  | cons x rest ih =>
      obtain ⟨fresh, distinct⟩ := List.nodup_cons.mp addresses
      rw [List.map_cons]
      by_cases own : x.1 = old
      · have others : ∀ y ∈ rest, y.1 ≠ old := fun y member same =>
          fresh (own.trans same.symm ▸ List.mem_map_of_mem member)
        have kept : (rest.map fun y => if y.1 = old then (new, record) else y) = rest :=
          (List.map_congr_left fun y member => if_neg (others y member)).trans (List.map_id _)
        have all : (rest.filter fun y => decide (y.1 ≠ old)) = rest :=
          List.filter_eq_self.mpr fun y member => decide_eq_true (others y member)
        rw [if_pos own, kept, List.filter_cons_of_neg (by simp [own]), all]
        exact (List.perm_append_singleton _ _).symm
      · have later : (old, row) ∈ rest := (List.mem_cons.mp stored).resolve_left fun same => own (same ▸ rfl)
        rw [if_neg own, List.filter_cons_of_pos (by simp [own]), List.cons_append]
        exact (ih distinct later).cons _

variable [LinearOrder J] {formats : Formats D J}

/-- The entry of a stored row is the one at its address. -/
theorem CopiesOf.isEntry_iff (copies : CopiesOf columns rows entries) (addresses : (rows.map Prod.fst).Nodup)
    (stored : (old, row) ∈ rows) {key : List (StoredValue D J)}
    (same : keyView formats key = keyView formats (StoredRow.key columns row)) {e : StoredEntry D J} (member : e ∈ entries) :
    StoredLedger.isEntry formats key old e = decide (e.2 = old) := by
  obtain ⟨row', stored', own⟩ := copies.owner member
  rw [StoredLedger.isEntry]
  by_cases here : e.2 = old
  · have rows := row_unique addresses stored stored' here
    cases rows
    rw [own, same, decide_eq_true rfl]
    rfl
  · rw [decide_eq_false here, Bool.and_false]

theorem CopiesOf.delete (copies : CopiesOf columns rows entries) (addresses : (rows.map Prod.fst).Nodup)
    (stored : (old, row) ∈ rows)
    (run : StoredLedger.deleteEntry formats (StoredRow.key columns row) old entries = .ok after) :
    CopiesOf columns (rows.filter fun x => x.1 ≠ old) after := by
  unfold StoredLedger.deleteEntry at run
  split at run
  · cases run
    rw [eraseP_eq_filter (copies.pointers addresses) fun e member => copies.isEntry_iff addresses stored rfl member]
    refine (copies.filter _).trans ?_
    rw [List.filter_map]
    exact .refl _
  · cases run

theorem CopiesOf.insert (copies : CopiesOf columns rows entries)
    (copied : ∀ copy, copyKey formats (StoredRow.key columns values) = .ok copy → copy = StoredRow.key columns record)
    (run : StoredLedger.insertEntry formats (StoredRow.key columns values) new entries = .ok after) :
    CopiesOf columns (rows ++ [(new, record)]) after := by
  obtain ⟨copy, made, same⟩ := bind_eq_ok.mp run
  obtain rfl := copied copy made
  cases same
  rw [CopiesOf, List.map_append]
  exact (List.perm_orderedInsert _ _ _).trans ((copies.cons _).trans (List.perm_append_singleton _ _).symm)

theorem CopiesOf.move (copies : CopiesOf columns rows entries) (addresses : (rows.map Prod.fst).Nodup)
    (stored : (old, row) ∈ rows) {key : List (StoredValue D J)}
    (same : keyView formats key = keyView formats (StoredRow.key columns row))
    (kept : StoredRow.key columns row = StoredRow.key columns record)
    (run : StoredLedger.moveEntry formats key old new entries = .ok after) :
    CopiesOf columns (rows.map fun x => if x.1 = old then (new, record) else x) after := by
  unfold StoredLedger.moveEntry at run
  split at run
  · cases run
    have moved : entries.map (fun e => if StoredLedger.isEntry formats key old e then (e.1, new) else e) =
        entries.map fun e => if e.2 = old then (e.1, new) else e := by
      refine List.map_congr_left fun e member => ?_
      rw [copies.isEntry_iff addresses stored same member]
      simp only [decide_eq_true_eq]
    rw [moved]
    refine (copies.map _).trans ?_
    rw [List.map_map, List.map_map]
    refine .of_eq (List.map_congr_left fun x member => ?_)
    by_cases own : x.1 = old
    · obtain rfl := row_unique addresses stored member own
      simp [kept]
    · simp [own]
  · cases run

end Entries

section Ledger
variable {D J : Type} {ledger after : StoredLedger D J} {columns : List String}

theorem modify_modify {f g : List (StoredEntry D J) → Except Fault (List (StoredEntry D J))} :
    (do
      let ledger ← StoredLedger.modify columns f ledger
      StoredLedger.modify columns g ledger) =
    StoredLedger.modify columns (fun entries => f entries >>= g) ledger := by
  induction ledger with
  | nil => rfl
  | cons index rest ih =>
      rw [StoredLedger.modify, StoredLedger.modify]
      by_cases own : index.1 = columns
      · rw [if_pos own, if_pos own]
        cases f index.2 with
        | error e => rfl
        | ok entries =>
            change StoredLedger.modify columns g ((index.1, entries) :: rest) = _
            rw [StoredLedger.modify, if_pos own]
            rfl
      · rw [if_neg own, if_neg own, ← ih]
        cases StoredLedger.modify columns f rest with
        | error e => rfl
        | ok rest' =>
            change StoredLedger.modify columns g (index :: rest') = _
            rw [StoredLedger.modify, if_neg own]
            rfl

/-- One index is changed, the others stay. -/
theorem modify_ok {f : List (StoredEntry D J) → Except Fault (List (StoredEntry D J))}
    (run : StoredLedger.modify columns f ledger = .ok after) :
    ∃ before entries made rest, ledger = before ++ (columns, entries) :: rest ∧ f entries = .ok made ∧
      after = before ++ (columns, made) :: rest := by
  induction ledger generalizing after with
  | nil => cases run
  | cons index rest ih =>
      rw [StoredLedger.modify] at run
      by_cases own : index.1 = columns
      · rw [if_pos own] at run
        obtain ⟨made, changed, same⟩ := bind_eq_ok.mp run
        cases same
        subst own
        exact ⟨[], index.2, made, rest, rfl, changed, rfl⟩
      · rw [if_neg own] at run
        obtain ⟨rest', changed, same⟩ := bind_eq_ok.mp run
        cases same
        obtain ⟨before, entries, made, behind, rfl, one, rfl⟩ := ih changed
        exact ⟨index :: before, entries, made, behind, rfl, one, rfl⟩

/-- All indexes are changed, each in its own way. -/
theorem foldlM_modify {f : List String → List (StoredEntry D J) → Except Fault (List (StoredEntry D J))}
    {names : List (List String)} (distinct : names.Nodup) (listed : (ledger.map Prod.fst).Nodup)
    (run : names.foldlM (fun ledger columns => StoredLedger.modify columns (f columns) ledger) ledger = .ok after) :
    after.map Prod.fst = ledger.map Prod.fst ∧ ∀ index ∈ after, (index.1 ∉ names → index ∈ ledger) ∧
      (index.1 ∈ names → ∃ entries, (index.1, entries) ∈ ledger ∧ f index.1 entries = .ok index.2) := by
  induction names generalizing ledger with
  | nil =>
      cases run
      exact ⟨rfl, fun index member => ⟨fun _ => member, fun absurd_ => absurd absurd_ List.not_mem_nil⟩⟩
  | cons columns rest ih =>
      rw [List.foldlM_cons] at run
      obtain ⟨fresh, distinct⟩ := List.nodup_cons.mp distinct
      obtain ⟨middle, first, later⟩ := bind_eq_ok.mp run
      obtain ⟨front, entries, made, behind, rfl, changed, rfl⟩ := modify_ok first
      have names : (front ++ (columns, made) :: behind).map Prod.fst = (front ++ (columns, entries) :: behind).map Prod.fst := by
        simp
      obtain ⟨same, each⟩ := ih distinct (names ▸ listed) later
      refine ⟨same.trans names, fun index member => ?_⟩
      obtain ⟨kept, replaced⟩ := each index member
      have other : ∀ {index : List String × List (StoredEntry D J)}, index ∈ front ++ (columns, made) :: behind →
          index.1 ≠ columns → index ∈ front ++ (columns, entries) :: behind := by
        intro index inside different
        rcases List.mem_append.mp inside with there | there
        · exact List.mem_append_left _ there
        · rcases List.mem_cons.mp there with rfl | there
          · exact absurd rfl different
          · exact List.mem_append_right _ (List.mem_cons_of_mem _ there)
      constructor
      · intro outside
        obtain ⟨different, outside⟩ := not_or.mp (mt List.mem_cons.mpr outside)
        exact other (kept outside) different
      · intro inside
        by_cases own : index.1 = columns
        · have there := kept (own ▸ fresh)
          have unique : index = (columns, made) :=
            List.inj_on_of_nodup_map (names ▸ listed) there (List.mem_append_right _ List.mem_cons_self) own
          cases unique
          exact ⟨entries, List.mem_append_right _ List.mem_cons_self, changed⟩
        · obtain ⟨es, there, changed⟩ := replaced ((List.mem_cons.mp inside).resolve_left own)
          exact ⟨es, other there own, changed⟩

end Ledger

/-! ## The copy of a record -/

section Copy
variable {D J : Type} {formats : Formats D J} {display : String → List UInt8 → String} {table : TableDef J}
  {values record : StoredRow D J}

theorem readBack_plain {v w : StoredValue D J} (read : readBack formats v = .ok w) : w.withoutDisplay = w := by
  cases v with
  | json j =>
      obtain ⟨j', _, rfl⟩ := map_eq_ok.mp read
      rfl
  | _ =>
      cases read
      rfl

theorem displayed_eq {w : StoredValue D J} (plain : w.withoutDisplay = w)
    (undisplayed : (w.displayed display).withoutDisplay = w.displayed display) : w.displayed display = w := by
  cases w with
  | custom value => exact undisplayed.symm.trans plain
  | _ => rfl

/-- A column of a record has the value that was given for it, read back. -/
theorem recordOf_find (made : recordOf formats display table values = .ok record) {column : String}
    (known : column ∈ table.columns.map ColumnDef.name) :
    ∃ v, StoredRow.find column record = some v ∧
      scanned formats display ((StoredRow.find column values).getD .null) = .ok v := by
  have pairs := mapM_forall₂ made
  unfold StoredRow.find
  generalize table.columns = columns at known pairs
  clear made
  induction pairs with
  | nil => cases known
  | @cons c entry columns rest first _ ih =>
      obtain ⟨v, read, same⟩ := bind_eq_ok.mp first
      obtain rfl : (c, v) = entry := Except.ok.inj same
      by_cases own : c.name = column
      · subst own
        exact ⟨v, by rw [List.find?_cons_of_pos (by simp)]; rfl, read⟩
      · rw [List.find?_cons_of_neg (by simpa using own)]
        exact ih ((List.mem_cons.mp known).resolve_left fun same => own same.symm)

theorem recordOf_columns (made : recordOf formats display table values = .ok record) :
    record.map Prod.fst = table.columns := by
  have pairs := mapM_forall₂ made
  generalize table.columns = columns at pairs ⊢
  clear made
  induction pairs with
  | nil => rfl
  | @cons c entry columns rest first _ ih =>
      obtain ⟨v, _, same⟩ := bind_eq_ok.mp first
      obtain rfl : (c, v) = entry := Except.ok.inj same
      rw [List.map_cons, ih]

theorem copyKey_small {key : List (StoredValue D J)} (small : (encodeKey formats key).length ≤ 255) :
    copyKey formats key = key.mapM (readBack formats) := by
  have measured : leafEntrySizeFromLen (encodeKey formats key).length =
      .ok (2 + (encodeKey formats key).length + recordPointerSize) := by
    rw [leafEntrySizeFromLen, entrySizeFromLen, if_neg (by unfold msizeMax; omega)]
    dsimp only
    rw [if_neg (by rw [pageSize_eq, leafHeaderSize, recordPointerSize]; omega)]
  rw [copyKey, measured]
  exact decodeKey_encode formats (by unfold msizeMax; omega)

/-- The key of a record without display strings is read from its entry as it is in the record. -/
theorem copyKey_record (made : recordOf formats display table values = .ok record) {columns : List String}
    (known : ∀ column ∈ columns, column ∈ table.columns.map ColumnDef.name)
    (undisplayed : Undisplayed (StoredRow.key columns record)) {copy : List (StoredValue D J)}
    (copied : copyKey formats (StoredRow.key columns values) = .ok copy) : copy = StoredRow.key columns record := by
  obtain ⟨size, measured, decoded⟩ := bind_eq_ok.mp copied
  have fits : (encodeKey formats (StoredRow.key columns values)).length ≤ msizeMax := by
    by_contra large
    rw [leafEntrySizeFromLen, entrySizeFromLen, if_pos (Nat.lt_of_not_le large)] at measured
    cases measured
  rw [decodeKey_encode formats fits, StoredRow.key, List.mapM_map] at decoded
  have each : ∀ column ∈ columns, (readBack formats ∘ fun column => (StoredRow.find column values).getD .null) column =
      .ok ((StoredRow.find column record).getD .null) := by
    intro column member
    obtain ⟨v, found, read⟩ := recordOf_find made (known column member)
    obtain ⟨w, back, rfl⟩ := map_eq_ok.mp read
    have shown : (w.displayed display).withoutDisplay = w.displayed display :=
      undisplayed _ (List.mem_map.mpr ⟨column, member, by rw [found]; rfl⟩)
    rw [found, Option.getD_some, displayed_eq (readBack_plain back) shown]
    exact back
  exact Except.ok.inj (decoded.symm.trans (mapM_eq_map each))

end Copy

/-! ## The step and the run -/

/-- The index on these columns holds copies of the rows. -/
structure Copied {D J : Type} (table : TableDef J) (columns : List String) (data : StoredData D J) : Prop where
  addresses : (data.rows.map Prod.fst).Nodup
  rows : ∀ x ∈ data.rows, x.2.map Prod.fst = table.columns
  names : data.indexes.map Prod.fst = table.indexes.map IndexDef.columns
  copies : ∀ index ∈ data.indexes, index.1 = columns → CopiesOf columns data.rows index.2

section Steps
variable {D J : Type} {formats : Formats D J} {display : String → List UInt8 → String} {table : TableDef J}
  {columns : List String} {data after : StoredData D J}

theorem Copied.empty : Copied table columns (.empty table : StoredData D J) where
  addresses := List.nodup_nil
  rows _ member := absurd member List.not_mem_nil
  names := by rw [StoredData.empty, List.map_map]; rfl
  copies index member _ := by
    obtain ⟨_, _, rfl⟩ := List.mem_map.mp member
    exact .refl _

/-- Each index of a table is changed in its own way. -/
theorem Copied.modified (copied : Copied table columns data)
    {f : List String → List (StoredEntry D J) → Except Fault (List (StoredEntry D J))} {indexes : StoredLedger D J}
    (run : table.indexes.foldlM (fun ledger index => StoredLedger.modify index.columns (f index.columns) ledger)
      data.indexes = .ok indexes) :
    indexes.map Prod.fst = table.indexes.map IndexDef.columns ∧
      ∀ index ∈ indexes, index.1 = columns →
        ∃ entries, CopiesOf columns data.rows entries ∧ f columns entries = .ok index.2 := by
  have names : (table.indexes.map IndexDef.columns).foldlM
      (fun ledger columns => StoredLedger.modify columns (f columns) ledger) data.indexes = .ok indexes := by
    rw [List.foldlM_map]
    exact run
  obtain ⟨same, each⟩ := foldlM_modify table.indexNames (copied.names ▸ table.indexNames) names
  refine ⟨same.trans copied.names, fun index member own => ?_⟩
  have listed : index.1 ∈ table.indexes.map IndexDef.columns :=
    copied.names ▸ same ▸ List.mem_map_of_mem member
  obtain ⟨entries, there, changed⟩ := (each index member).2 listed
  exact ⟨entries, copied.copies _ there own, own ▸ changed⟩

variable [LinearOrder J]

/-- An update changes each index once. -/
theorem updateKeys_eq {indexes : List IndexDef} {old new : RecordAddress} {row values : StoredRow D J} (ledger : StoredLedger D J) :
    updateKeys formats indexes old new row values ledger = indexes.foldlM (fun ledger index =>
      StoredLedger.modify index.columns (fun entries =>
        if keyView formats (StoredRow.key index.columns row) = keyView formats (StoredRow.key index.columns values) then
          StoredLedger.moveEntry formats (StoredRow.key index.columns values) old new entries
        else StoredLedger.deleteEntry formats (StoredRow.key index.columns row) old entries >>=
          StoredLedger.insertEntry formats (StoredRow.key index.columns values) new) ledger) ledger := by
  unfold updateKeys
  refine congrArg (fun f => List.foldlM f ledger indexes) (funext fun ledger => funext fun index => ?_)
  dsimp only
  by_cases same : keyView formats (StoredRow.key index.columns row) = keyView formats (StoredRow.key index.columns values)
  · simp only [if_pos same]
  · simp only [if_neg same]
    exact modify_modify

/-- A step keeps the copies. -/
theorem Copied.step (fields : ∀ c ∈ columns, c ∈ table.columns.map ColumnDef.name) (copied : Copied table columns data)
    {op : RowOp D J} (performs : op.Performs formats display table data after)
    (keeps : op.KeepsText formats display table columns data) : Copied table columns after := by
  cases op with
  | insert address values =>
      obtain ⟨fresh, record, indexes, made, run, rfl⟩ := performs
      obtain ⟨names, each⟩ := copied.modified (f := fun columns =>
        StoredLedger.insertEntry formats (StoredRow.key columns values) address) run
      refine ⟨?_, ?_, names, fun index member own => ?_⟩
      · rw [List.map_append, List.nodup_append]
        refine ⟨copied.addresses, List.nodup_singleton _, fun a listed b last same => fresh ?_⟩
        obtain rfl : b = address := List.mem_singleton.mp last
        exact same ▸ listed
      · exact List.forall_mem_append.mpr ⟨copied.rows, List.forall_mem_singleton.mpr (recordOf_columns made)⟩
      · obtain ⟨entries, copies, changed⟩ := each index member own
        exact copies.insert (fun copy read => copyKey_record made fields (keeps record made) read) changed
  | update old new values =>
      obtain ⟨row, record, indexes, stored, fresh, made, run, rfl⟩ := performs
      rw [updateKeys_eq] at run
      obtain ⟨names, each⟩ := copied.modified (f := fun columns entries =>
        if keyView formats (StoredRow.key columns row) = keyView formats (StoredRow.key columns values) then
          StoredLedger.moveEntry formats (StoredRow.key columns values) old new entries
        else StoredLedger.deleteEntry formats (StoredRow.key columns row) old entries >>=
          StoredLedger.insertEntry formats (StoredRow.key columns values) new) run
      have replaced : (data.rows.map fun x => if x.1 = old then (new, record) else x).Perm _ :=
        replaced_perm copied.addresses stored
      refine ⟨?_, fun x member => ?_, names, fun index member own => ?_⟩
      · rw [(replaced.map Prod.fst).nodup_iff, List.map_append, List.nodup_append]
        refine ⟨copied.addresses.sublist (List.filter_sublist.map _), List.nodup_singleton _, fun a listed b last same => ?_⟩
        obtain rfl : b = new := List.mem_singleton.mp last
        obtain ⟨x, inside, rfl⟩ := List.mem_map.mp listed
        obtain ⟨inside, other⟩ := List.mem_filter.mp inside
        rcases fresh with rfl | fresh
        · exact of_decide_eq_true other same
        · exact fresh (same ▸ List.mem_map_of_mem inside)
      · rcases List.mem_append.mp (replaced.mem_iff.mp member) with other | own
        · exact copied.rows x (List.mem_of_mem_filter other)
        · rw [List.mem_singleton.mp own]
          exact recordOf_columns made
      · obtain ⟨entries, copies, changed⟩ := each index member own
        obtain ⟨undisplayed, kept⟩ := keeps row record stored made
        by_cases same : keyView formats (StoredRow.key columns row) = keyView formats (StoredRow.key columns values)
        · rw [if_pos same] at changed
          exact copies.move copied.addresses stored same.symm (kept same) changed
        · rw [if_neg same] at changed
          obtain ⟨middle, deleted, inserted⟩ := bind_eq_ok.mp changed
          have placed := (copies.delete copied.addresses stored deleted).insert
            (fun copy read => copyKey_record made fields undisplayed read) inserted
          exact placed.trans (replaced.map _).symm
  | delete address =>
      obtain ⟨row, indexes, stored, run, rfl⟩ := performs
      obtain ⟨names, each⟩ := copied.modified (f := fun columns =>
        StoredLedger.deleteEntry formats (StoredRow.key columns row) address) run
      refine ⟨?_, fun x member => copied.rows x (List.mem_of_mem_filter member), names, fun index member own => ?_⟩
      · exact copied.addresses.sublist (List.filter_sublist.map _)
      · obtain ⟨entries, copies, changed⟩ := each index member own
        exact copies.delete copied.addresses stored changed

theorem TableRun.copied (fields : ∀ c ∈ columns, c ∈ table.columns.map ColumnDef.name)
    (run : TableRun formats display table (RowOp.KeepsText formats display table columns) data) :
    Copied table columns data := by
  induction run with
  | empty => exact .empty
  | step _ performs keeps ih => exact ih.step fields performs keeps

end Steps

/-! ## The visits -/

section Visits
variable {D J E σ τ : Type} {formats : Formats D J}

def ControlFlow.map (f : σ → τ) : ControlFlow σ → ControlFlow τ
  | next s => next (f s)
  | stop s => stop (f s)

def ControlFlow.state : ControlFlow σ → σ
  | next s | stop s => s

def StoredEntry.view (formats : Formats D J) (e : StoredEntry D J) : IndexEntry J := (keyView formats e.1, e.2)

def StoredLedger.view (formats : Formats D J) (ledger : StoredLedger D J) : IndexLedger J :=
  ledger.map fun index => (index.1, index.2.map (StoredEntry.view formats))

variable [LinearOrder J]

end Visits

/-! ## The rows of a covering scan -/

section Covering
variable {D J F : Type} [LinearOrder J] {formats : Formats D J} {display : String → List UInt8 → String}
  {db : Database J F} {query : SelectQuery J F} {table : TableDef J} {scan : StoredScan D J} {data : StoredData D J}
  {kept : List (StoredEntry D J)}

/-- The equality prefix of an exact scan is written as the keys that equal it. -/
def StoredScan.Written (formats : Formats D J) (scan : StoredScan D J) (data : StoredData D J) : Prop :=
  (scan.view formats).isExact = true → ∀ x ∈ data.rows,
    keyView formats (StoredRow.key scan.columns x.2) = keyView formats scan.keyPrefix →
      StoredRow.key scan.columns x.2 = scan.keyPrefix

end Covering

/-! ## A color and its name -/

namespace Palette

def id : ColumnDef := ⟨"id", .uint32, false, false, true, true, none⟩

def color : ColumnDef := ⟨"color", .custom "Color", false, false, false, false, none⟩

theorem columnNames : ([id, color].map ColumnDef.name).Nodup := by decide

theorem oneKey : ∀ c ∈ [id, color], c.primaryKey = true → c.name = "id" := by decide

theorem keyed : ∃ c ∈ [id, color], c.name = "id" ∧ c.primaryKey = true := ⟨id, List.mem_cons_self, rfl, rfl⟩

theorem indexNames : (([⟨["id"]⟩, ⟨["color"]⟩] : List IndexDef).map IndexDef.columns).Nodup := by decide

theorem keyIndex : ([⟨["id"]⟩, ⟨["color"]⟩] : List IndexDef) ≠ [] := List.cons_ne_nil _ _

/-- Colors under a key, with an index. -/
def table : TableDef ℕ where
  name := "colors"
  columns := [id, color]
  primaryKey := "id"
  indexes := [⟨["id"]⟩, ⟨["color"]⟩]
  sanitizer _ := none
  validator _ := none
  columnNames := columnNames
  keyed := keyed
  oneKey := oneKey
  indexNames := indexNames
  keyIndex := keyIndex

theorem plain : ∀ c ∈ table.columns, c.foreignKey = none := by decide

def schema : DatabaseSchema ℕ where
  tables := [table]
  names := by decide
  local_ t listed c column fk key := by
    obtain rfl := List.mem_singleton.mp listed
    rw [plain c column] at key
    cases key
  foreign t listed c column fk key := by
    obtain rfl := List.mem_singleton.mp listed
    rw [plain c column] at key
    cases key

def db : Database ℕ Empty := .scanning schema ⟨fun _ => .error "", fun f => f.elim, fun f => f.elim⟩

/-- Each color is red. -/
def display (_ : String) (_ : List UInt8) : String := "red"

def painted (shown : String) : StoredRow {bytes : List UInt8 // bytes.length = 16} ℕ :=
  [(id, .uint32 1), (color, .custom ⟨"Color", [1], shown⟩)]

/-- The table with one color. -/
def data : StoredData {bytes : List UInt8 // bytes.length = 16} ℕ :=
  ⟨[(⟨0, 0⟩, painted "red")], [(["id"], [([.uint32 1], ⟨0, 0⟩)]), (["color"], [([.custom ⟨"Color", [1], ""⟩], ⟨0, 0⟩)])]⟩

theorem keys_inserted : insertKeys NestedArrays.formats table.indexes ⟨0, 0⟩ (painted "red") (StoredData.empty table).indexes =
    .ok data.indexes := by
  have key : copyKey NestedArrays.formats [.uint32 1] = .ok [.uint32 1] := copyKey_small (by decide)
  have shown : copyKey NestedArrays.formats [.custom ⟨"Color", [1], "red"⟩] = .ok [.custom ⟨"Color", [1], ""⟩] :=
    copyKey_small (by decide)
  have first : StoredLedger.insertEntry NestedArrays.formats [.uint32 1] ⟨0, 0⟩ [] = .ok [([.uint32 1], ⟨0, 0⟩)] := by
    rw [StoredLedger.insertEntry, key]
    rfl
  have second : StoredLedger.insertEntry NestedArrays.formats [.custom ⟨"Color", [1], "red"⟩] ⟨0, 0⟩ [] =
      .ok [([.custom ⟨"Color", [1], ""⟩], ⟨0, 0⟩)] := by
    rw [StoredLedger.insertEntry, shown]
    rfl
  have ids : StoredLedger.modify ["id"] (StoredLedger.insertEntry NestedArrays.formats [.uint32 1] ⟨0, 0⟩)
      [(["id"], []), (["color"], [])] = .ok [(["id"], [([.uint32 1], ⟨0, 0⟩)]), (["color"], [])] := by
    rw [StoredLedger.modify, if_pos rfl, first]
    rfl
  have colors : StoredLedger.modify ["color"]
      (StoredLedger.insertEntry NestedArrays.formats [.custom ⟨"Color", [1], "red"⟩] ⟨0, 0⟩)
      [(["id"], [([.uint32 1], ⟨0, 0⟩)]), (["color"], [])] = .ok data.indexes := by
    rw [StoredLedger.modify, if_neg (by decide), StoredLedger.modify, if_pos rfl, second]
    rfl
  exact bind_eq_ok.mpr ⟨_, ids, bind_eq_ok.mpr ⟨_, colors, rfl⟩⟩

theorem inserts : RowOp.Performs NestedArrays.formats display table (.empty table) (.insert ⟨0, 0⟩ (painted "red")) data :=
  ⟨List.not_mem_nil, painted "red", data.indexes, rfl, keys_inserted, rfl⟩

end Palette
end WasmDbms
