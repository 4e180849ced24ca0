import WasmDbms.Db.EagerBatches

/-!
# What the eager relations attach

A relation is loaded unless the column that a foreign key refers to is itself a foreign key:
the typed record the fetched row goes through has no such column. Otherwise each row has, for
each of its foreign keys, the foreign row it refers to.
-/
namespace WasmDbms
open Result

variable {J F : Type}

/-! ## The rows that are attached -/

section Attach
variable [LinearOrder J] {rows : List (Row J)} {parts : Row J → TableColumns J}

/-- The part a batch has for a row. -/
def attached (batch : FkBatch J) (relation column : String) (row : Row J) : TableColumns J :=
  (((fkValue relation column row).bind batch.get).map fun record => (.foreign relation column, record)).toList

theorem attachForeignData_eq (batch : FkBatch J) (relation column : String) :
    attachForeignData (rows.map (whole parts)) batch relation column =
      rows.map (whole fun row => parts row ++ attached batch relation column row) := by
  unfold attachForeignData
  rw [List.map_map]
  refine List.map_congr_left fun row _ => ?_
  rw [Function.comp_apply, thisColumns_whole, Option.bind_some]
  unfold whole
  dsimp only
  unfold attached
  cases fkValue relation column row with
  | none => exact congrArg _ (List.append_nil _).symm
  | some value =>
      rw [Option.bind_some]
      dsimp only
      cases batch.get value with
      | none => exact congrArg _ (List.append_nil _).symm
      | some record => rfl

/-- The parts of a foreign key. -/
def foreignParts (fk : ForeignKeyDef) (parts : TableColumns J) : List (Row J) :=
  (parts.filter fun part => part.1 = .foreign fk.foreignTable fk.localColumn).map Prod.snd

omit [LinearOrder J] in
theorem foreignParts_append {fk : ForeignKeyDef} {first second : TableColumns J} :
    foreignParts fk (first ++ second) = foreignParts fk first ++ foreignParts fk second := by
  rw [foreignParts, List.filter_append, List.map_append]
  rfl

theorem foreignParts_attached {fk : ForeignKeyDef} {batch : FkBatch J} {relation column : String} {row : Row J} :
    foreignParts fk (attached batch relation column row) =
      if relation = fk.foreignTable ∧ column = fk.localColumn then
        ((fkValue relation column row).bind batch.get).toList else [] := by
  unfold attached
  cases (fkValue relation column row).bind batch.get with
  | none => exact (ite_self _).symm
  | some record =>
      by_cases here : relation = fk.foreignTable ∧ column = fk.localColumn
      · obtain ⟨rfl, rfl⟩ := here
        simp [foreignParts]
      · rw [if_neg here]
        have other : ¬ ((ValuesSource.foreign relation column) = .foreign fk.foreignTable fk.localColumn) := by
          intro same
          cases same
          exact here ⟨rfl, rfl⟩
        simp [foreignParts, other]

omit [LinearOrder J] in
/-- The value of a foreign key of a row. -/
theorem fkValue_eq {schema : DatabaseSchema J} {table : TableDef J} (listed : table ∈ schema.tables) {row : Row J}
    (complete : Complete table row) {entry : ColumnDef × Value J} (member : entry ∈ row) {fk : ForeignKeyDef}
    (key : entry.1.foreignKey = some fk) : fkValue fk.foreignTable fk.localColumn row = some entry.2 := by
  have own : ∀ other ∈ row, ∀ fk', other.1.foreignKey = some fk' → fk'.localColumn = fk.localColumn → other = entry := by
    intro other there fk' key' same
    rw [schema.local_ table listed _ (complete.column there) fk' key',
      schema.local_ table listed _ (complete.column member) fk key] at same
    exact List.inj_on_of_nodup_map complete.names there member same
  unfold fkValue
  cases search : row.findSome? fun other => other.1.foreignKey.bind fun fk' =>
      if fk'.foreignTable = fk.foreignTable ∧ fk'.localColumn = fk.localColumn then some other.2 else none with
  | none =>
      have absent := List.findSome?_eq_none_iff.mp search entry member
      simp [key] at absent
  | some v =>
      obtain ⟨other, there, found⟩ := List.exists_of_findSome?_eq_some search
      obtain ⟨fk', key', found⟩ := Option.bind_eq_some_iff.mp found
      split at found
      next same =>
        rw [own other there fk' key' same.2] at found
        exact found.symm
      next => cases found

end Attach

/-! ## The relations in turn -/

section Relations
variable [LinearOrder J] (db : Database J F) (s : DbState J) (tx : Option (Transaction J F))

/-- The values of a row that a foreign key value refers to, without its foreign keys. -/
def RefersTo (fk : ForeignKeyDef) (value : Value J) (record : Row J) : Prop :=
  ∃ entity ∈ db.schema.tables, entity.name = fk.foreignTable ∧ ∃ target ∈ visibleRows tx s entity,
    findColumn fk.foreignColumn target = some value ∧ record.Perm (ownColumns target)

/-- The rows have so many parts for each foreign key that is not null, and none for a null. -/
def Attached (rows : List (Row J)) (count : String → String → ℕ) (parts : Row J → TableColumns J) : Prop :=
  ∀ row ∈ rows, ∀ entry ∈ row, ∀ fk, entry.1.foreignKey = some fk →
    (foreignParts fk (parts row)).length = (if entry.2.isNull then 0 else count fk.foreignTable fk.localColumn) ∧
    ∀ record ∈ foreignParts fk (parts row), RefersTo db s tx fk entry.2 record

/-- The foreign keys to the relation with a value refer to columns that are no foreign keys. -/
def Plain (relation : String) (rows : List (Row J)) : Prop :=
  ∀ row ∈ rows, ∀ entry ∈ row, ∀ fk, entry.1.foreignKey = some fk → fk.foreignTable = relation →
    entry.2.isNull = false → ∀ entity ∈ db.schema.tables, entity.name = relation →
      ∀ c ∈ entity.columns, c.name = fk.foreignColumn → c.foreignKey = none

variable {db s tx} {table : TableDef J} {rows : List (Row J)} {relation : String}

omit [LinearOrder J] in
/-- The values of a column are all that are wanted. -/
theorem Collected.values {fkColumns : FkColumns J} {pairs : Set (String × Value J)}
    (collected : Collected fkColumns pairs) {entry : String × List (Value J)} (listed : entry ∈ fkColumns) (v : Value J) :
    v ∈ entry.2 ↔ (entry.1, v) ∈ pairs := by
  rw [← collected.mem]
  constructor
  · exact fun held => ⟨entry.2, listed, held⟩
  · rintro ⟨values, there, held⟩
    have same : entry = (entry.1, values) := List.inj_on_of_nodup_map collected.names listed there rfl
    rw [same]
    exact held

section Loading
variable (loads : Loads db s tx) (listed : table ∈ db.schema.tables) (visible : rows ⊆ visibleRows tx s table)
include loads listed visible

theorem loadColumn_ok (plain : Plain db relation rows) {entry : String × List (Value J)}
    (wanted : ∀ v, v ∈ entry.2 ↔ ∃ row ∈ rows, (entry.1, v) ∈ rowWants relation row) (some_ : entry.2 ≠ [])
    (parts : Row J → TableColumns J) :
    ∃ parts', db.loadColumn s tx table relation (rows.map (whole parts)) entry = .ok (rows.map (whole parts')) ∧
      ∀ count, Attached db s tx rows count parts →
        Attached db s tx rows (fun r c => count r c + if relation = r ∧ entry.1 = c then 1 else 0) parts' := by
  obtain ⟨column, values⟩ := entry
  obtain ⟨v, held⟩ := List.exists_mem_of_ne_nil _ some_
  obtain ⟨row, member, e, inside, fk, key, rfl, rfl, _, value⟩ := (wanted v).mp held
  obtain ⟨entity, target, named, _⟩ := loads.references table listed row (visible member) e inside fk key value
  have here := (loads.complete listed row (visible member)).column inside
  obtain ⟨batch, fetched, of_⟩ := fetchBatch_ok loads listed here key target named
    (plain row member e inside fk key rfl value entity target named) values
  -- a table has one foreign key in a column
  have only : ∀ row ∈ rows, ∀ e ∈ row, ∀ fk', e.1.foreignKey = some fk' →
      fk.foreignTable = fk'.foreignTable ∧ fk.localColumn = fk'.localColumn → fk' = fk := by
    intro row member e inside fk' key' same
    have own := foreignKeyTo_eq listed ((loads.complete listed row (visible member)).column inside) key'
    rw [← same.1, ← same.2, foreignKeyTo_eq listed here key] at own
    exact (Option.some.inj own).symm
  have known : ∀ row ∈ rows, ∀ e ∈ row, e.1.foreignKey = some fk → e.2.isNull = false →
      e.2 ∈ values ∧ (batch.get e.2).isSome = true := by
    intro row member e inside key value
    have held := (wanted e.2).mpr ⟨row, member, e, inside, fk, key, rfl, rfl, rfl, value⟩
    obtain ⟨entity', target', named', found⟩ := loads.references table listed row (visible member) e inside fk key value
    obtain rfl : entity' = entity :=
      List.inj_on_of_nodup_map db.schema.names target' target (named'.trans named.symm)
    exact ⟨held, of_.found e.2 held found⟩
  have verified : verifyFkBatch batch values fk.foreignTable = .ok () := by
    have complete : values.find? (fun value => (batch.get value).isNone) = none := by
      rw [List.find?_eq_none]
      intro v held
      obtain ⟨row', member', e', inside', fk', key', table_, column_, rfl, value'⟩ := (wanted v).mp held
      obtain rfl := only row' member' e' inside' fk' key' ⟨table_.symm, column_.symm⟩
      rw [Option.isNone_iff_eq_none]
      exact Option.isSome_iff_ne_none.mp (known row' member' e' inside' key' value').2
    unfold verifyFkBatch
    rw [complete]
  refine ⟨fun row => parts row ++ attached batch fk.foreignTable fk.localColumn row, ?_, fun count before => ?_⟩
  · unfold Database.loadColumn
    dsimp only
    rw [fetched]
    dsimp only [Failure.lift, bind, Except.bind]
    rw [verified, attachForeignData_eq]
    rfl
  · intro row member e inside fk' key'
    obtain ⟨length, refers⟩ := before row member e inside fk' key'
    rw [foreignParts_append, foreignParts_attached, List.length_append, length]
    dsimp only
    by_cases own : fk.foreignTable = fk'.foreignTable ∧ fk.localColumn = fk'.localColumn
    · obtain rfl := only row member e inside fk' key' own
      rw [if_pos own, if_pos own, fkValue_eq listed (loads.complete listed row (visible member)) inside key',
        Option.bind_some]
      cases null : e.2.isNull with
      | true =>
          have absent : batch.get e.2 = none := by
            refine Option.eq_none_iff_forall_ne_some.mpr fun record found => ?_
            obtain ⟨row', _, e', _, _, _, _, _, same, value⟩ := (wanted e.2).mp (of_.sound _ _ found).1
            rw [same, null] at value
            cases value
          rw [absent]
          refine ⟨rfl, fun record held => refers record ?_⟩
          exact (List.mem_append.mp held).resolve_right List.not_mem_nil
      | false =>
          obtain ⟨record, found⟩ := Option.isSome_iff_exists.mp (known row member e inside key' null).2
          rw [found]
          refine ⟨rfl, fun other held => ?_⟩
          rcases List.mem_append.mp held with earlier | now
          · exact refers other earlier
          · obtain rfl := List.mem_singleton.mp now
            obtain ⟨_, target_, there, has, rfl⟩ := of_.sound _ _ found
            exact ⟨entity, target, named, target_, there, has, toValues_perm (loads.complete target target_ there)⟩
    · rw [if_neg own, if_neg own]
      refine ⟨rfl, fun record held => refers record ?_⟩
      exact (List.mem_append.mp held).resolve_right List.not_mem_nil

/-- A relation is loaded: one part more for each of its foreign keys. -/
theorem loadRelation_ok (declared : table.Declares relation) (plain : Plain db relation rows)
    (parts : Row J → TableColumns J) :
    ∃ parts', db.loadRelation s tx table (rows.map (whole parts)) relation = .ok (rows.map (whole parts')) ∧
      ∀ count : String → ℕ, Attached db s tx rows (fun r _ => count r) parts →
        Attached db s tx rows (fun r _ => count r + if relation = r then 1 else 0) parts' := by
  have complete : ∀ row ∈ rows, Complete table row := fun row member => loads.complete listed row (visible member)
  obtain ⟨fkColumns, collects, collected⟩ := collectFkValues_ok parts complete (.inl declared)
  have loop : ∀ (rest : List (String × List (Value J))) (parts : Row J → TableColumns J), (∀ entry ∈ rest, entry ∈ fkColumns) →
      ∃ parts', rest.foldlM (db.loadColumn s tx table relation) (rows.map (whole parts)) = .ok (rows.map (whole parts')) ∧
        ∀ count, Attached db s tx rows count parts →
          Attached db s tx rows (fun r c => count r c + if relation = r then (rest.map Prod.fst).count c else 0) parts' := by
    intro rest
    induction rest with
    | nil =>
        refine fun parts _ => ⟨parts, rfl, fun count before row member e inside fk key => ?_⟩
        have same := before row member e inside fk key
        dsimp only
        rwa [List.map_nil, List.count_nil, ite_self, Nat.add_zero]
    | cons entry rest ih =>
        intro parts inside
        obtain ⟨here, later⟩ := List.forall_mem_cons.mp inside
        obtain ⟨parts₁, first, counts₁⟩ := loadColumn_ok loads listed visible plain (collected.values here)
          (collected.filled entry here) parts
        obtain ⟨parts₂, others, counts₂⟩ := ih parts₁ later
        refine ⟨parts₂, ?_, fun count before => ?_⟩
        · rw [List.foldlM_cons, first]
          exact others
        · have both := counts₂ _ (counts₁ count before)
          have sum : (fun r c => count r c + if relation = r then ((entry :: rest).map Prod.fst).count c else 0) =
              fun r c => (count r c + if relation = r ∧ entry.1 = c then 1 else 0) +
                if relation = r then (rest.map Prod.fst).count c else 0 := by
            funext r c
            rw [List.map_cons, List.count_cons]
            by_cases own : relation = r
            · simp [own]
              omega
            · simp [own]
          rw [sum]
          exact both
  obtain ⟨parts', run, counts⟩ := loop fkColumns parts fun _ member => member
  refine ⟨parts', ?_, fun count before row member e inside fk key => ?_⟩
  · unfold Database.loadRelation
    rw [collects]
    exact run
  · obtain ⟨length, refers⟩ := counts _ before row member e inside fk key
    refine ⟨length.trans ?_, refers⟩
    cases value : e.2.isNull with
    | true => rfl
    | false =>
        by_cases own : relation = fk.foreignTable
        · -- its column was collected, once
          obtain ⟨values, there, _⟩ := (collected.mem fk.localColumn e.2).mpr
            ⟨row, member, e, inside, fk, key, own.symm, rfl, rfl, value⟩
          have once := List.count_eq_one_of_mem collected.names (List.mem_map_of_mem there)
          simp [own, once]
        · simp [own]

/-- All relations are loaded, each as often as it is listed. -/
theorem batchLoad_ok {relations : List String} (declared : ∀ relation ∈ relations, table.Declares relation)
    (plain : ∀ relation ∈ relations, Plain db relation rows) :
    ∃ parts, db.batchLoadEagerRelations s tx table relations (rows.map (whole fun _ => [])) =
        .ok (rows.map (whole parts)) ∧
      Attached db s tx rows (fun r _ => relations.count r) parts := by
  have loop : ∀ (rest : List String) (parts : Row J → TableColumns J), (∀ relation ∈ rest, relation ∈ relations) →
      ∃ parts', rest.foldlM (db.loadRelation s tx table) (rows.map (whole parts)) = .ok (rows.map (whole parts')) ∧
        ∀ count : String → ℕ, Attached db s tx rows (fun r _ => count r) parts →
          Attached db s tx rows (fun r _ => count r + rest.count r) parts' := by
    intro rest
    induction rest with
    | nil => exact fun parts _ => ⟨parts, rfl, fun count before => before⟩
    | cons relation rest ih =>
        intro parts inside
        obtain ⟨here, later⟩ := List.forall_mem_cons.mp inside
        obtain ⟨parts₁, first, counts₁⟩ := loadRelation_ok loads listed visible (declared relation here)
          (plain relation here) parts
        obtain ⟨parts₂, others, counts₂⟩ := ih parts₁ later
        refine ⟨parts₂, ?_, fun count before => ?_⟩
        · rw [List.foldlM_cons, first]
          exact others
        · have both := counts₂ _ (counts₁ count before)
          have sum : (fun r (_ : String) => count r + (relation :: rest).count r) =
              fun r _ => (count r + if relation = r then 1 else 0) + rest.count r := by
            funext r _
            rw [List.count_cons]
            by_cases own : relation = r
            · simp [own]
              omega
            · simp [own]
          rw [sum]
          exact both
  obtain ⟨parts, run, counts⟩ := loop relations (fun _ => []) fun _ member => member
  refine ⟨parts, run, ?_⟩
  have start : Attached db s tx rows (fun _ _ => 0) fun _ => [] :=
    fun row _ e _ fk _ => ⟨(ite_self 0).symm, fun _ no => absurd no List.not_mem_nil⟩
  have final := counts (fun _ => 0) start
  simpa only [Nat.zero_add] using final

end Loading

/-! ## The relations that are refused -/

omit [LinearOrder J] in
theorem whole_eq : (rows.map fun row => [((.this : ValuesSource), row)]) = rows.map (whole fun _ => []) := rfl

theorem loadColumn_shape {parts : Row J → TableColumns J} {entry : String × List (Value J)} {results : List (TableColumns J)}
    (run : db.loadColumn s tx table relation (rows.map (whole parts)) entry = .ok results) :
    ∃ parts', results = rows.map (whole parts') := by
  obtain ⟨batch, _, run⟩ := bind_eq_ok.mp run
  obtain ⟨_, _, run⟩ := bind_eq_ok.mp run
  rw [attachForeignData_eq] at run
  exact ⟨_, (Except.ok.inj run).symm⟩

theorem loadRelation_shape {parts : Row J → TableColumns J} {results : List (TableColumns J)}
    (run : db.loadRelation s tx table (rows.map (whole parts)) relation = .ok results) :
    ∃ parts', results = rows.map (whole parts') := by
  obtain ⟨fkColumns, _, run⟩ := bind_eq_ok.mp run
  refine foldlM_keeps (P := fun results => ∃ parts', results = rows.map (whole parts')) ?_ ⟨parts, rfl⟩ run
  rintro entry _ _ _ ⟨parts, rfl⟩ step
  exact loadColumn_shape step

/-- A relation that cannot be loaded fails the query. -/
theorem batchLoad_fails {relations : List String} (inside : relation ∈ relations)
    (fails : ∀ parts, ∃ e, db.loadRelation s tx table (rows.map (whole parts)) relation = .error e) :
    ∃ e, db.batchLoadEagerRelations s tx table relations (rows.map (whole fun _ => [])) = .error e := by
  refine foldlM_fails (P := fun results => ∃ parts, results = rows.map (whole parts)) ?_ inside ?_ ⟨_, rfl⟩
  · rintro _ _ _ _ ⟨parts, rfl⟩ step
    exact loadRelation_shape step
  · rintro _ ⟨parts, rfl⟩
    exact fails parts

theorem loadRelation_undeclared (complete : ∀ row ∈ rows, Complete table row) (some_ : rows ≠ [])
    (undeclared : ¬ table.Declares relation) (parts : Row J → TableColumns J) :
    ∃ e, db.loadRelation s tx table (rows.map (whole parts)) relation = .error e := by
  obtain ⟨e, collects⟩ := collectFkValues_undeclared parts complete undeclared some_
  unfold Database.loadRelation
  rw [collects]
  exact ⟨_, rfl⟩

/-- A foreign key that refers to a foreign key cannot be loaded. -/
theorem loadRelation_foreign (loads : Loads db s tx) (listed : table ∈ db.schema.tables)
    (visible : rows ⊆ visibleRows tx s table) (declared : table.Declares relation) (foreign : ¬ Plain db relation rows)
    (parts : Row J → TableColumns J) :
    ∃ e, db.loadRelation s tx table (rows.map (whole parts)) relation = .error e := by
  have complete : ∀ row ∈ rows, Complete table row := fun row member => loads.complete listed row (visible member)
  obtain ⟨fkColumns, collects, collected⟩ := collectFkValues_ok parts complete (.inl declared)
  unfold Plain at foreign
  push Not at foreign
  obtain ⟨row, member, e, inside, fk, key, rfl, value, entity, target, named, c, there, name, key'⟩ := foreign
  obtain ⟨entity', target', named', found⟩ := loads.references table listed row (visible member) e inside fk key value
  obtain rfl : entity' = entity := List.inj_on_of_nodup_map db.schema.names target' target (named'.trans named.symm)
  obtain ⟨values, wanted, held⟩ := (collected.mem fk.localColumn e.2).mpr
    ⟨row, member, e, inside, fk, key, rfl, rfl, rfl, value⟩
  obtain ⟨row', visible', has⟩ := found
  obtain ⟨failure, failed⟩ := fetchBatch_fails loads listed ((complete row member).column inside) key target named there name
    key' held visible' has
  unfold Database.loadRelation
  rw [collects]
  refine foldlM_fails (P := fun results => ∃ parts, results = rows.map (whole parts)) ?_ wanted ?_ ⟨parts, rfl⟩
  · rintro _ _ _ _ ⟨parts, rfl⟩ step
    exact loadColumn_shape step
  · rintro _ ⟨parts, rfl⟩
    unfold Database.loadColumn
    dsimp only
    rw [failed]
    exact ⟨_, rfl⟩

/-! ## The query -/

variable (db s tx) in
/-- What a row is returned with: for each foreign key to a relation of the query the values
of one row it refers to, and nothing for a null. -/
structure Carries (relations : List String) (row : Row J) (record : TableColumns J) : Prop where
  this : thisColumns record = some row
  foreign : ∀ entry ∈ row, ∀ fk, entry.1.foreignKey = some fk → fk.foreignTable ∈ relations →
    if entry.2.isNull then foreignParts fk record = []
    else ∃ values, foreignParts fk record = [values] ∧ RefersTo db s tx fk entry.2 values

variable (db) in
/-- Each relation that a value refers to is listed once, and the value refers to a column
that is no foreign key. -/
def Loadable (relations : List String) (rows : List (Row J)) : Prop :=
  ∀ relation ∈ relations, Plain db relation rows ∧
    ∀ row ∈ rows, ∀ entry ∈ row, ∀ fk, entry.1.foreignKey = some fk → fk.foreignTable = relation →
      entry.2.isNull = false → relations.count relation = 1

variable (db s tx) in
/-- The relations are loaded for the rows of the query, and the records it returns are theirs. -/
def EagerQuery.Answers (query : EagerQuery J F) (table : TableDef J) (rows : List (Row J)) : Prop :=
  ∃ loaded result, db.batchLoadEagerRelations s tx table query.eagerRelations (rows.map fun row => [(.this, row)]) = .ok loaded ∧
    List.Forall₂ (Carries db s tx query.eagerRelations) rows loaded ∧
    query.selectColumns db s tx table = .ok result ∧ ∀ record ∈ result, ∃ full ∈ loaded, record = query.selectThis full

omit [LinearOrder J] in
theorem foreignParts_whole {fk : ForeignKeyDef} {parts : Row J → TableColumns J} {row : Row J} :
    foreignParts fk (whole parts row) = foreignParts fk (parts row) := rfl

/-- Rows that have each part once carry what they refer to, and only those. -/
theorem carries_iff {relations : List String} {parts : Row J → TableColumns J}
    (attached : Attached db s tx rows (fun r _ => relations.count r) parts) :
    List.Forall₂ (Carries db s tx relations) rows (rows.map (whole parts)) ↔
      ∀ relation ∈ relations, ∀ row ∈ rows, ∀ entry ∈ row, ∀ fk, entry.1.foreignKey = some fk →
        fk.foreignTable = relation → entry.2.isNull = false → relations.count relation = 1 := by
  rw [List.forall₂_map_right_iff, List.forall₂_same]
  constructor
  · rintro carries _ asked row member e inside fk key rfl value
    have one := (carries row member).foreign e inside fk key asked
    rw [value, if_neg Bool.false_ne_true, foreignParts_whole] at one
    obtain ⟨values, own, _⟩ := one
    have length := (attached row member e inside fk key).1
    rw [value, if_neg Bool.false_ne_true, own] at length
    exact length.symm
  · refine fun once row member => ⟨rfl, fun e inside fk key asked => ?_⟩
    obtain ⟨length, refers⟩ := attached row member e inside fk key
    rw [foreignParts_whole]
    cases value : e.2.isNull with
    | true =>
        rw [value, if_pos rfl] at length
        rw [if_pos rfl]
        exact List.length_eq_zero_iff.mp length
    | false =>
        rw [value, if_neg Bool.false_ne_true] at length
        have single := length.trans (once _ asked row member e inside fk key rfl value)
        obtain ⟨values, own⟩ := List.length_eq_one_iff.mp single
        rw [if_neg Bool.false_ne_true]
        exact ⟨values, own, refers values (own ▸ List.mem_singleton_self values)⟩

namespace EagerQuery
variable {query : EagerQuery J F}

theorem readRows_visible (eager : query.eagerRelations ≠ []) (read : query.readRows db s tx table = .ok rows) :
    rows ⊆ visibleRows tx s table := by
  obtain ⟨answer, indexed, read⟩ := bind_eq_ok.mp read
  have asked : query.eagerRelations.isEmpty = false := by
    rwa [List.isEmpty_eq_false_iff]
  unfold indexedRows at indexed
  rw [asked, if_neg Bool.false_ne_true] at indexed
  cases answer with
  | none =>
      obtain ⟨page, taken, distinct⟩ := bind_eq_ok.mp read
      cases distinct
      exact List.Subset.trans applyDistinct_subset (Database.takePage_subset taken)
  | some found =>
      obtain ⟨page, taken, distinct⟩ := bind_eq_ok.mp read
      cases distinct
      refine List.Subset.trans applyDistinct_subset (List.Subset.trans (Database.takePage_subset taken) fun row member => ?_)
      cases filtered : query.filter with
      | none =>
          rw [filtered] at indexed
          cases indexed
      | some filter =>
          rw [filtered] at indexed
          exact tryIndexSelect_shown indexed row member

theorem mem_sortRecords {orderBy : List (String × OrderDirection)} {results : List (TableColumns J)}
    {record : TableColumns J} : record ∈ sortRecords orderBy results ↔ record ∈ results := by
  induction orderBy with
  | nil => rfl
  | cons order rest ih => exact (List.mergeSort_perm _ _).mem_iff.trans ih

omit [LinearOrder J] in
theorem cutRecords_subset {results : List (TableColumns J)} : query.cutRecords results ⊆ results := by
  unfold cutRecords
  split
  · exact List.Subset.trans (List.take_subset _ _) (List.drop_subset _ _)
  · exact List.drop_subset _ _

theorem selectColumns_loaded (read : query.readRows db s tx table = .ok rows) {loaded : List (TableColumns J)}
    (load : db.batchLoadEagerRelations s tx table query.eagerRelations (rows.map fun row => [(.this, row)]) = .ok loaded) :
    ∃ result, query.selectColumns db s tx table = .ok result ∧
      ∀ record ∈ result, ∃ full ∈ loaded, record = query.selectThis full := by
  have run : query.selectColumns db s tx table = .ok (if query.deferPagination then
      query.cutRecords (sortRecords query.orderBy (loaded.map query.selectThis))
      else sortRecords query.orderBy (loaded.map query.selectThis)) := by
    unfold selectColumns
    rw [read]
    dsimp only [bind, Except.bind]
    rw [load]
    rfl
  refine ⟨_, run, fun record member => ?_⟩
  have sorted : record ∈ sortRecords query.orderBy (loaded.map query.selectThis) := by
    split at member
    · exact cutRecords_subset member
    · exact member
  obtain ⟨full, there, same⟩ := List.mem_map.mp (mem_sortRecords.mp sorted)
  exact ⟨full, there, same.symm⟩

theorem selectColumns_fails (read : query.readRows db s tx table = .ok rows)
    (load : ∃ e, db.batchLoadEagerRelations s tx table query.eagerRelations (rows.map fun row => [(.this, row)]) = .error e) :
    ∃ e, query.selectColumns db s tx table = .error e := by
  obtain ⟨e, load⟩ := load
  refine ⟨e, ?_⟩
  unfold selectColumns
  rw [read]
  dsimp only [bind, Except.bind]
  rw [load]

end EagerQuery

/-- A relation without a foreign key is refused if there is a row. A query that asks for
declared relations answers with what its rows refer to, in every state with referential
integrity, if and only if the relations can be loaded. -/
theorem eager_relations_iff (loads : Loads db s tx) (listed : table ∈ db.schema.tables) {query : EagerQuery J F}
    (read : query.readRows db s tx table = .ok rows) :
    ((∃ relation ∈ query.eagerRelations, ¬ table.Declares relation) → rows ≠ [] →
      ∃ e, query.selectColumns db s tx table = .error e) ∧
    ((∀ relation ∈ query.eagerRelations, table.Declares relation) →
      (query.Answers db s tx table rows ↔ Loadable db query.eagerRelations rows)) := by
  have visible : query.eagerRelations ≠ [] → rows ⊆ visibleRows tx s table := fun eager => EagerQuery.readRows_visible eager read
  constructor
  · rintro ⟨relation, asked, undeclared⟩ some_
    have complete : ∀ row ∈ rows, Complete table row := fun row member =>
      loads.complete listed row (visible (List.ne_nil_of_mem asked) member)
    exact EagerQuery.selectColumns_fails read (batchLoad_fails asked (loadRelation_undeclared complete some_ undeclared))
  · intro declared
    by_cases eager : query.eagerRelations = []
    · -- nothing is asked for
      constructor
      · intro _ relation asked
        rw [eager] at asked
        cases asked
      · intro _
        have nothing : db.batchLoadEagerRelations s tx table query.eagerRelations (rows.map fun row => [(.this, row)]) =
            .ok (rows.map (whole fun _ => [])) := by
          rw [eager]
          rfl
        obtain ⟨result, run, mem⟩ := EagerQuery.selectColumns_loaded read nothing
        refine ⟨_, result, nothing, ?_, run, mem⟩
        rw [List.forall₂_map_right_iff, List.forall₂_same]
        refine fun row _ => ⟨rfl, fun _ _ fk _ asked => ?_⟩
        rw [eager] at asked
        cases asked
    · by_cases plain : ∀ relation ∈ query.eagerRelations, Plain db relation rows
      · obtain ⟨parts, load, attached⟩ := batchLoad_ok loads listed (visible eager) declared plain
        have carried := carries_iff attached
        constructor
        · rintro ⟨loaded, result, load', carries, _, _⟩ relation asked
          cases load.symm.trans load'
          exact ⟨plain relation asked, carried.mp carries relation asked⟩
        · intro loadable
          obtain ⟨result, run, mem⟩ := EagerQuery.selectColumns_loaded read load
          exact ⟨_, result, load, carried.mpr fun relation asked => (loadable relation asked).2, run, mem⟩
      · constructor
        · rintro ⟨loaded, result, load, _⟩
          push Not at plain
          obtain ⟨relation, asked, foreign⟩ := plain
          obtain ⟨e, failed⟩ := batchLoad_fails asked
            (loadRelation_foreign loads listed (visible eager) (declared relation asked) foreign)
          cases failed.symm.trans load
        · exact fun loadable => absurd (fun relation asked => (loadable relation asked).1) plain

end Relations

/-! ## A node that names its grandparent -/

namespace Lineage

def id : ColumnDef := ⟨"id", .uint32, false, false, true, false, none⟩

def parent : ColumnDef := ⟨"parent", .uint32, false, false, false, false, some ⟨"parent", "nodes", "id"⟩⟩

/-- The grandparent is the parent of some node. -/
def grandparent : ColumnDef := ⟨"grandparent", .uint32, false, true, false, false, some ⟨"grandparent", "nodes", "parent"⟩⟩

theorem columnNames : ([id, parent, grandparent].map ColumnDef.name).Nodup := by decide

theorem keyed : ∃ c ∈ [id, parent, grandparent], c.name = "id" ∧ c.primaryKey = true := ⟨id, List.mem_cons_self, rfl, rfl⟩

theorem oneKey : ∀ c ∈ [id, parent, grandparent], c.primaryKey = true → c.name = "id" := by decide

theorem indexNames : ([⟨["id"]⟩].map IndexDef.columns).Nodup := List.nodup_singleton _

theorem keyIndex : ([⟨["id"]⟩] : List IndexDef) ≠ [] := List.cons_ne_nil _ _

def table : TableDef ℕ where
  name := "nodes"
  columns := [id, parent, grandparent]
  primaryKey := "id"
  indexes := [⟨["id"]⟩]
  sanitizer _ := none
  validator _ := none
  columnNames := columnNames
  keyed := keyed
  oneKey := oneKey
  indexNames := indexNames
  keyIndex := keyIndex

theorem names : ([table].map TableDef.name).Nodup := List.nodup_singleton _

theorem foreign_key {c : ColumnDef} (column : c ∈ table.columns) {fk : ForeignKeyDef} (key : c.foreignKey = some fk) :
    c = parent ∧ fk = ⟨"parent", "nodes", "id"⟩ ∨ c = grandparent ∧ fk = ⟨"grandparent", "nodes", "parent"⟩ := by
  rcases List.mem_cons.mp column with rfl | column
  · cases key
  · rcases List.mem_cons.mp column with rfl | column
    · exact .inl ⟨rfl, (Option.some.inj key).symm⟩
    · obtain rfl := List.mem_singleton.mp column
      exact .inr ⟨rfl, (Option.some.inj key).symm⟩

def schema : DatabaseSchema ℕ where
  tables := [table]
  names := names
  local_ t listed c column fk key := by
    obtain rfl := List.mem_singleton.mp listed
    rcases foreign_key column key with ⟨rfl, rfl⟩ | ⟨rfl, rfl⟩ <;> rfl
  foreign t listed c column fk key t' target _ := by
    obtain rfl := List.mem_singleton.mp listed
    obtain rfl := List.mem_singleton.mp target
    rcases foreign_key column key with ⟨rfl, rfl⟩ | ⟨rfl, rfl⟩
    · exact ⟨id, List.mem_cons_self, rfl⟩
    · exact ⟨parent, List.mem_cons_of_mem _ List.mem_cons_self, rfl⟩

def db : Database ℕ Empty := .scanning schema ⟨fun _ => .error "", fun f => f.elim, fun f => f.elim⟩

/-- A node that is its own parent. -/
def node (grandparentValue : Value ℕ) : Row ℕ :=
  [(id, .uint32 1), (parent, .uint32 1), (grandparent, grandparentValue)]

def stored (grandparentValue : Value ℕ) : DbState ℕ := fun _ =>
  ⟨[(⟨0, 0⟩, node grandparentValue)], [(["id"], [([.uint32 1], ⟨0, 0⟩)])]⟩

theorem stored_loads {g : Value ℕ} (refers : g = .uint32 1 ∨ g = .null) : Loads db (stored g) none := by
  have row : ∀ t ∈ schema.tables, ∀ r ∈ visibleRows (none : Option (Transaction ℕ Empty)) (stored g) t, r = node g :=
    fun t _ r member => List.mem_singleton.mp member
  refine ⟨fun t listed => ?_, fun _ _ _ no => (by cases no), fun t listed r member e inside fk key value => ?_⟩
  · obtain rfl := List.mem_singleton.mp listed
    refine ⟨⟨fun x member => ?_, List.nodup_singleton _, rfl, fun index member => ?_⟩, List.mem_cons_self,
      fun _ no => (by cases no), fun no => Bool.noConfusion no, fun no => Bool.noConfusion no⟩
    · obtain rfl := List.mem_singleton.mp member
      refine ⟨rfl, fun e inside => ?_⟩
      rcases List.mem_cons.mp inside with rfl | inside
      · exact .inl rfl
      · rcases List.mem_cons.mp inside with rfl | inside
        · exact .inl rfl
        · obtain rfl := List.mem_singleton.mp inside
          rcases refers with rfl | rfl
          · exact .inl rfl
          · exact .inr ⟨rfl, rfl⟩
    · obtain rfl := List.mem_singleton.mp member
      exact ⟨List.pairwise_singleton _ _, .refl _⟩
  · obtain rfl := row t listed r member
    refine ⟨table, List.mem_cons_self, ?_, node g, List.mem_cons_self, ?_⟩
    all_goals
      rcases List.mem_cons.mp inside with rfl | inside
      · cases key
      · rcases List.mem_cons.mp inside with rfl | inside
        · cases key
          rfl
        · obtain rfl := List.mem_singleton.mp inside
          cases key
          rcases refers with rfl | rfl
          · rfl
          · cases value

theorem declared : ∀ relation ∈ ["nodes"], table.Declares relation := by
  intro relation asked
  obtain rfl := List.mem_singleton.mp asked
  exact ⟨parent, List.mem_cons_of_mem _ List.mem_cons_self, _, rfl, rfl⟩

def family : EagerQuery ℕ Empty := ⟨⟨.all, .all⟩, ["nodes"]⟩

theorem family_rows (g : Value ℕ) : family.readRows db (stored g) none table = .ok [node g] := rfl

/-- A node is returned with its parent. -/
theorem parent_loaded : family.Answers db (stored .null) none table [node .null] := by
  refine ((eager_relations_iff (stored_loads (.inr rfl)) List.mem_cons_self (family_rows .null)).2 declared).mpr ?_
  intro relation asked
  obtain rfl := List.mem_singleton.mp asked
  refine ⟨fun row member e inside fk key _ value entity target _ c there name => ?_, fun _ _ _ _ _ _ _ _ => rfl⟩
  obtain rfl := List.mem_singleton.mp member
  obtain rfl := List.mem_singleton.mp target
  rcases List.mem_cons.mp inside with rfl | inside
  · cases key
  · rcases List.mem_cons.mp inside with rfl | inside
    · cases key
      exact List.inj_on_of_nodup_map table.columnNames there List.mem_cons_self name ▸ rfl
    · obtain rfl := List.mem_singleton.mp inside
      cases value

/-- Its grandparent cannot be loaded. -/
theorem grandparent_unknown : Loads db (stored (.uint32 1)) none ∧ (∀ relation ∈ ["nodes"], table.Declares relation) ∧
    family.readRows db (stored (.uint32 1)) none table = .ok [node (.uint32 1)] ∧
    ∃ e, family.selectColumns db (stored (.uint32 1)) none table = .error e := by
  have loads := stored_loads (.inl rfl)
  refine ⟨loads, declared, family_rows _, ?_⟩
  refine EagerQuery.selectColumns_fails (family_rows _) (batchLoad_fails List.mem_cons_self fun parts => ?_)
  refine loadRelation_foreign loads List.mem_cons_self (List.Subset.refl _) (declared _ List.mem_cons_self) (fun plain => ?_) parts
  have none_ : parent.foreignKey = none := plain _ List.mem_cons_self (grandparent, .uint32 1)
    (List.mem_cons_of_mem _ (List.mem_cons_of_mem _ List.mem_cons_self)) _ rfl rfl rfl table List.mem_cons_self rfl parent
    (List.mem_cons_of_mem _ List.mem_cons_self) rfl
  cases none_

end Lineage

end WasmDbms
