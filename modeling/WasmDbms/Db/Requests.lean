import Mathlib.Data.List.Induction
import Mathlib.Data.List.Zip
import Mathlib.Logic.Function.Basic
import WasmDbms.Db.Reader
import WasmDbms.Lib.Result

/-!
# Generated insert and update requests

The `from_values` and `into_values` that `#[derive(Table)]` writes for the insert and the
update request of a table: the locals that the loop over the pairs sets, and the fields
they are made to. A field of a custom type holds a value of the type itself.
-/
namespace WasmDbms

/-- A `CustomDataType` with its `Encode`. -/
structure CustomType (X : Type) where
  typeTag : String
  values : Set X
  encode : X → List UInt8
  decode : List UInt8 → Option X
  decode_mem : ∀ bytes x, decode bytes = some x → x ∈ values
  decode_encode : ∀ x ∈ values, decode (encode x) = some x

inductive ColumnType (X : Type) where
  | builtIn (kind : DataTypeKind)
  | custom (t : CustomType X)

/-- What a field holds: the content of a variant, or a value of a custom type. -/
inductive FieldContent (J X : Type) where
  | builtIn (v : Value J)
  | custom (x : X)

/-- A `Nullable` field; `none` is `Null`. A field that is not nullable holds `some`. -/
abbrev Cell (J X : Type) := Option (FieldContent J X)

/-- What the macro keeps of a field of the record. -/
structure RequestField (X : Type) where
  name : String
  type : ColumnType X
  nullable : Bool
  autoIncrement : Bool
  notBoth : autoIncrement = true → nullable = false

/-- A field of an insert request. -/
inductive Slot (J X : Type) where
  | auto
  | value (cell : Cell J X)

variable {J X : Type}

namespace RequestField

/-- `Value::Null` for a nullable field. -/
def takeNull (field : RequestField X) (v : Value J) : Option (Cell J X) :=
  if v.isNull && field.nullable then some none else none

/-- The arm of the insert request: what the local of the field is set to, if it is set. The tag
of a custom value is not looked at. -/
def take (field : RequestField X) (v : Value J) : Option (Cell J X) :=
  match field.type with
  | .custom t =>
      match v with
      | .custom _ encoded => (t.decode encoded).map fun x => some (.custom x)
      | _ => field.takeNull v
  | .builtIn kind => if v.kind = some kind then some (some (.builtIn v)) else field.takeNull v

def mismatch (field : RequestField X) (v : Value J) : DbmsError J :=
  .query (.invalidQuery s!"column '{field.name}' does not accept a value of type {v.typeName}")

def convertNull (field : RequestField X) (v : Value J) : Except (DbmsError J) (Cell J X) :=
  if v.isNull && field.nullable then .ok none else .error (field.mismatch v)

/-- The arm of the update request. -/
def convert (field : RequestField X) (v : Value J) : Except (DbmsError J) (Cell J X) :=
  match field.type with
  | .custom t =>
      match v with
      | .custom typeTag encoded =>
          if typeTag = t.typeTag then
            match t.decode encoded with
            | some x => .ok (some (.custom x))
            | none => .error (field.mismatch v)
          else .error (field.mismatch v)
      | _ => field.convertNull v
  | .builtIn kind => if v.kind = some kind then .ok (some (.builtIn v)) else field.convertNull v

/-- `.into()` of the content of a field. -/
def toValue (field : RequestField X) : Cell J X → Value J
  | none => .null
  | some (.builtIn v) => v
  | some (.custom x) =>
      match field.type with
      | .custom t => .custom t.typeTag (t.encode x)
      | .builtIn _ => .null

/-- The field of the insert request, made of the local. -/
def slot (field : RequestField X) (given : Option (Cell J X)) : Except (DbmsError J) (Slot J X) :=
  if field.autoIncrement then
    match given with
    | some cell => .ok (.value cell)
    | none => .ok .auto
  else if field.nullable then .ok (.value (given.getD none))
  else
    match given with
    | some cell => .ok (.value cell)
    | none => .error (.query (.missingNonNullableField field.name))

/-- The pair of a field in `into_values`. -/
def pair (field : RequestField X) : Slot J X → List (String × Value J)
  | .auto => []
  | .value cell => [(field.name, field.toValue cell)]

end RequestField

/-- The locals of `from_values`, one for each field. -/
abbrev Locals (J X : Type) := String → Option (Cell J X)

namespace InsertRequest

/-- One round of the loop; an unknown column is ignored. -/
def assign (fields : List (RequestField X)) (locals : Locals J X) (entry : String × Value J) : Locals J X :=
  match fields.find? fun field => field.name == entry.1 with
  | none => locals
  | some field =>
      match field.take entry.2 with
      | some cell => Function.update locals field.name (some cell)
      | none => locals

def locals (fields : List (RequestField X)) (values : List (String × Value J)) : Locals J X :=
  values.foldl (assign fields) fun _ => none

def fromValues (fields : List (RequestField X)) (values : List (String × Value J)) :
    Except (DbmsError J) (List (Slot J X)) :=
  fields.mapM fun field => field.slot (locals fields values field.name)

def intoValues (fields : List (RequestField X)) (request : List (Slot J X)) : List (String × Value J) :=
  (fields.zip request).flatMap fun entry => entry.1.pair entry.2

end InsertRequest

namespace UpdateRequest

def assign (fields : List (RequestField X)) (locals : Locals J X) (entry : String × Value J) :
    Except (DbmsError J) (Locals J X) :=
  match fields.find? fun field => field.name == entry.1 with
  | none => .ok locals
  | some field => do
      let cell ← field.convert entry.2
      return Function.update locals field.name (some cell)

def fromValues (fields : List (RequestField X)) (values : List (String × Value J)) :
    Except (DbmsError J) (List (Option (Cell J X))) := do
  let locals ← values.foldlM (assign fields) fun _ => none
  return fields.map fun field => locals field.name

end UpdateRequest

/-! ## Values of the type of a field -/

namespace RequestField
variable {field : RequestField X} {v : Value J} {cell : Cell J X}

/-- The value has the type of the field, and the cell is what the field holds for it. -/
inductive Holds (field : RequestField X) : Value J → Cell J X → Prop where
  | null (nullable : field.nullable = true) : Holds field .null none
  | builtIn {kind : DataTypeKind} {v : Value J} (type : field.type = .builtIn kind) (own : v.kind = some kind) :
      Holds field v (some (.builtIn v))
  | custom {t : CustomType X} {encoded : List UInt8} {x : X} (type : field.type = .custom t)
      (decodes : t.decode encoded = some x) : Holds field (.custom t.typeTag encoded) (some (.custom x))

theorem take_builtIn {kind : DataTypeKind} (type : field.type = .builtIn kind) :
    field.take v = if v.kind = some kind then some (some (.builtIn v)) else field.takeNull v := by
  rw [take, type]

theorem take_custom {t : CustomType X} (type : field.type = .custom t) {typeTag : String} {encoded : List UInt8} :
    field.take (.custom typeTag encoded : Value J) = (t.decode encoded).map fun x => some (.custom x) := by
  rw [take, type]

theorem take_null (nullable : field.nullable = true) : field.take (.null : Value J) = some none := by
  have here : field.takeNull (.null : Value J) = some none := by
    rw [takeNull, nullable]
    rfl
  cases type : field.type with
  | custom t =>
      rw [take, type]
      exact here
  | builtIn kind =>
      rw [take_builtIn type, if_neg (by simp [Value.kind])]
      exact here

/-- The insert request takes every value of the type of the field. -/
theorem take_of_holds (holds : field.Holds v cell) : field.take v = some cell := by
  cases holds with
  | null nullable => exact take_null nullable
  | builtIn type own => rw [take_builtIn type, if_pos own]
  | custom type decodes => rw [take_custom type, decodes, Option.map_some]

theorem convert_builtIn {kind : DataTypeKind} (type : field.type = .builtIn kind) :
    field.convert v = if v.kind = some kind then .ok (some (.builtIn v)) else field.convertNull v := by
  rw [convert, type]

theorem convertNull_ok : field.convertNull v = .ok cell ↔ v = .null ∧ field.nullable = true ∧ cell = none := by
  rw [convertNull]
  cases v <;> cases field.nullable <;> simp [Value.isNull, eq_comm]

theorem convert_custom {t : CustomType X} (type : field.type = .custom t) {typeTag : String} {encoded : List UInt8} :
    field.convert (.custom typeTag encoded : Value J) = .ok cell ↔
      typeTag = t.typeTag ∧ ∃ x, t.decode encoded = some x ∧ cell = some (.custom x) := by
  rw [convert, type]
  dsimp only
  by_cases own : typeTag = t.typeTag
  · rw [if_pos own, and_iff_right own]
    cases decodes : t.decode encoded with
    | none => exact ⟨fun no => (by cases no), fun ⟨_, no, _⟩ => (by cases no)⟩
    | some x =>
        refine ⟨fun same => ⟨x, rfl, (Except.ok.inj same).symm⟩, ?_⟩
        rintro ⟨_, here, rfl⟩
        rw [Option.some.inj here]
  · rw [if_neg own]
    exact ⟨fun no => (by cases no), fun both => absurd both.1 own⟩

theorem convert_other {t : CustomType X} (type : field.type = .custom t)
    (other : ∀ typeTag encoded, v ≠ .custom typeTag encoded) : field.convert v = field.convertNull v := by
  rw [convert, type]
  cases v with
  | custom typeTag encoded => exact absurd rfl (other typeTag encoded)
  | _ => rfl

/-- The update request takes the values of the type of the field, and no others. -/
theorem convert_ok : field.convert v = .ok cell ↔ field.Holds v cell := by
  cases type : field.type with
  | builtIn kind =>
      rw [convert_builtIn type]
      by_cases own : v.kind = some kind
      · rw [if_pos own]
        constructor
        · intro same
          cases same
          exact .builtIn type own
        · intro holds
          cases holds with
          | null => cases own
          | builtIn => rfl
          | custom type' => rw [type] at type'; cases type'
      · rw [if_neg own, convertNull_ok]
        constructor
        · rintro ⟨rfl, nullable, rfl⟩
          exact .null nullable
        · intro holds
          cases holds with
          | null nullable => exact ⟨rfl, nullable, rfl⟩
          | builtIn type' own' => rw [type] at type'; cases type'; exact absurd own' own
          | custom type' => rw [type] at type'; cases type'
  | custom t =>
      by_cases tagged : ∃ typeTag encoded, v = .custom typeTag encoded
      · obtain ⟨typeTag, encoded, rfl⟩ := tagged
        rw [convert_custom type]
        constructor
        · rintro ⟨rfl, x, decodes, rfl⟩
          exact .custom type decodes
        · intro holds
          cases holds with
          | builtIn type' => rw [type] at type'; cases type'
          | custom type' decodes => rw [type] at type'; cases type'; exact ⟨rfl, _, decodes, rfl⟩
      · rw [convert_other type fun typeTag encoded same => tagged ⟨typeTag, encoded, same⟩, convertNull_ok]
        constructor
        · rintro ⟨rfl, nullable, rfl⟩
          exact .null nullable
        · intro holds
          cases holds with
          | null nullable => exact ⟨rfl, nullable, rfl⟩
          | builtIn type' => rw [type] at type'; cases type'
          | custom => exact absurd ⟨_, _, rfl⟩ tagged

theorem slot_some : field.slot (some cell) = .ok (.value cell) := by
  rw [slot]
  cases field.autoIncrement <;> cases field.nullable <;> rfl

theorem slot_error {given : Option (Cell J X)} {e : DbmsError J} :
    field.slot given = .error e ↔ (field.autoIncrement = false ∧ field.nullable = false ∧ given = none) ∧
      e = .query (.missingNonNullableField field.name) := by
  unfold slot
  cases field.autoIncrement <;> cases field.nullable <;> cases given <;> simp [eq_comm]

/-- A field of a request as the type of the record has it. -/
inductive Fits (field : RequestField X) : Slot J X → Prop where
  | auto (generated : field.autoIncrement = true) : Fits field .auto
  | null (nullable : field.nullable = true) : Fits field (.value none)
  | builtIn {kind : DataTypeKind} {v : Value J} (type : field.type = .builtIn kind) (own : v.kind = some kind) :
      Fits field (.value (some (.builtIn v)))
  | custom {t : CustomType X} {x : X} (type : field.type = .custom t) (member : x ∈ t.values) :
      Fits field (.value (some (.custom x)))

theorem Fits.holds (fits : field.Fits (.value cell : Slot J X)) : field.Holds (field.toValue cell) cell := by
  cases fits with
  | null nullable => exact .null nullable
  | builtIn type own => exact .builtIn type own
  | @custom t x type member =>
      have written : field.toValue (some (.custom x) : Cell J X) = .custom t.typeTag (t.encode x) := by
        rw [toValue, type]
      rw [written]
      exact .custom type (t.decode_encode x member)

end RequestField

/-! ## The loop of the insert request -/

section Loop
variable {fields : List (RequestField X)} (names : (fields.map RequestField.name).Nodup)
include names

/-- A round sets the local of its column. -/
theorem InsertRequest.assign_at {field : RequestField X} (listed : field ∈ fields) {locals : Locals J X}
    {entry : String × Value J} :
    assign fields locals entry field.name =
      if entry.1 = field.name then (field.take entry.2).or (locals field.name) else locals field.name := by
  rw [assign]
  cases found : fields.find? fun field => field.name == entry.1 with
  | none =>
      have other : entry.1 ≠ field.name := fun same => by
        have no := List.find?_eq_none.mp found field listed
        rw [same, beq_self_eq_true] at no
        exact no rfl
      rw [if_neg other]
  | some own =>
      have name : own.name = entry.1 := beq_iff_eq.mp (List.find?_some found :)
      dsimp only
      by_cases same : entry.1 = field.name
      · obtain rfl := List.inj_on_of_nodup_map names (List.mem_of_find?_eq_some found) listed (name.trans same)
        rw [if_pos same]
        cases own.take entry.2 with
        | none => rfl
        | some cell => exact Function.update_self ..
      · rw [if_neg same]
        cases own.take entry.2 with
        | none => rfl
        | some cell => exact Function.update_of_ne (fun here => same (name.symm.trans here.symm)) ..

omit names in
theorem InsertRequest.locals_append {values : List (String × Value J)} {entry : String × Value J} :
    locals fields (values ++ [entry]) = assign fields (locals fields values) entry :=
  List.foldl_concat ..

/-- A local is not set where no value given for the column is taken. -/
theorem InsertRequest.locals_none {field : RequestField X} (listed : field ∈ fields) {values : List (String × Value J)} :
    locals fields values field.name = none ↔ ∀ v, (field.name, v) ∈ values → field.take v = none := by
  induction values using List.reverseRecOn with
  | nil => exact ⟨fun _ _ no => absurd no List.not_mem_nil, fun _ => rfl⟩
  | append_singleton values entry ih =>
      rw [locals_append, assign_at names listed]
      simp only [List.mem_append, List.mem_singleton]
      by_cases same : entry.1 = field.name
      · rw [if_pos same, Option.or_eq_none_iff, ih]
        constructor
        · rintro ⟨last, earlier⟩ v (member | rfl)
          · exact earlier v member
          · exact last
        · intro all
          exact ⟨all entry.2 (.inr (Prod.ext same.symm rfl)), fun v member => all v (.inl member)⟩
      · rw [if_neg same, ih]
        refine forall_congr' fun v => ⟨fun earlier => ?_, fun all member => all (.inl member)⟩
        rintro (member | rfl)
        · exact earlier member
        · exact absurd rfl same

/-- A local holds what some value given for the column is taken as. -/
theorem InsertRequest.locals_some {field : RequestField X} (listed : field ∈ fields) {values : List (String × Value J)}
    {cell : Cell J X} (given : locals fields values field.name = some cell) :
    ∃ v, (field.name, v) ∈ values ∧ field.take v = some cell := by
  induction values using List.reverseRecOn with
  | nil => cases given
  | append_singleton values entry ih =>
      rw [locals_append, assign_at names listed] at given
      by_cases same : entry.1 = field.name
      · rw [if_pos same, Option.or_eq_some_iff] at given
        rcases given with last | ⟨_, earlier⟩
        · exact ⟨entry.2, List.mem_append_right _ (List.mem_singleton.mpr (Prod.ext same.symm rfl)), last⟩
        · obtain ⟨v, member, taken⟩ := ih earlier
          exact ⟨v, List.mem_append_left _ member, taken⟩
      · rw [if_neg same] at given
        obtain ⟨v, member, taken⟩ := ih given
        exact ⟨v, List.mem_append_left _ member, taken⟩

end Loop

/-! ## What the insert request holds -/

theorem forall₂_mem_zip {α β : Type} {R : α → β → Prop} {l : List α} {r : List β} (pairs : List.Forall₂ R l r) :
    ∀ x ∈ l, ∃ y, (x, y) ∈ l.zip r := by
  induction pairs with
  | nil => exact fun x no => absurd no List.not_mem_nil
  | @cons a b l r _ _ ih =>
      intro x member
      rcases List.mem_cons.mp member with rfl | later
      · exact ⟨b, List.mem_cons_self⟩
      · obtain ⟨y, there⟩ := ih x later
        exact ⟨y, List.mem_cons_of_mem _ there⟩

namespace InsertRequest
variable {fields : List (RequestField X)} {values : List (String × Value J)}

/-- The request holds every given value, which has the type of its column. -/
def KeepsGiven (fields : List (RequestField X)) (values : List (String × Value J)) : Prop :=
  ∀ request, fromValues fields values = .ok request → ∀ field slot, (field, slot) ∈ fields.zip request →
    ∀ v, (field.name, v) ∈ values → ∃ cell, field.Holds v cell ∧ slot = .value cell

/-- A column that must have a value is given none that can be read for it. -/
def Refused (fields : List (RequestField X)) (values : List (String × Value J)) : Prop :=
  ∃ field ∈ fields, field.autoIncrement = false ∧ field.nullable = false ∧
    ∀ v, (field.name, v) ∈ values → field.take v = none

/-- The values given for a column are of its type, and are one value. -/
def Consistent (fields : List (RequestField X)) (values : List (String × Value J)) : Prop :=
  ∀ field ∈ fields, ∃ cell, ∀ v, (field.name, v) ∈ values → field.Holds v cell

theorem slot_of_mem {request : List (Slot J X)} (made : fromValues fields values = .ok request)
    {field : RequestField X} {slot : Slot J X} (member : (field, slot) ∈ fields.zip request) :
    field.slot (locals fields values field.name) = .ok slot :=
  (List.forall₂_iff_zip.mp (Result.mapM_forall₂ made)).2 member

/-- A list is refused if and only if a column lacks its value. -/
theorem fromValues_error (names : (fields.map RequestField.name).Nodup) :
    (∀ request, fromValues fields values ≠ .ok request) ↔ Refused fields values := by
  constructor
  · intro fails
    by_contra accepted
    have each : ∀ field ∈ fields, ∃ slot, field.slot (locals fields values field.name) = .ok slot := by
      intro field listed
      cases made : field.slot (locals fields values field.name) with
      | ok slot => exact ⟨slot, rfl⟩
      | error e =>
          obtain ⟨plain, required, absent⟩ := (RequestField.slot_error.mp made).1
          exact absurd ⟨field, listed, plain, required, (locals_none names listed).mp absent⟩ accepted
    obtain ⟨request, made⟩ := Result.mapM_ok each
    exact fails request made
  · rintro ⟨field, listed, plain, required, untaken⟩ request made
    obtain ⟨slot, made⟩ := Result.mapM_each made field listed
    rw [RequestField.slot_error.mpr ⟨⟨plain, required, (locals_none names listed).mpr untaken⟩, rfl⟩] at made
    cases made

theorem keepsGiven_iff (names : (fields.map RequestField.name).Nodup) :
    KeepsGiven fields values ↔ Refused fields values ∨ Consistent fields values := by
  constructor
  · intro keeps
    rw [← fromValues_error names]
    by_contra neither
    rw [not_or, not_forall] at neither
    obtain ⟨⟨request, made⟩, inconsistent⟩ := neither
    rw [not_not] at made
    refine inconsistent fun field listed => ?_
    obtain ⟨slot, member⟩ := forall₂_mem_zip (Result.mapM_forall₂ made) field listed
    have kept := keeps request made field slot member
    cases slot with
    | auto =>
        refine ⟨none, fun v given => ?_⟩
        obtain ⟨_, _, no⟩ := kept v given
        cases no
    | value cell =>
        refine ⟨cell, fun v given => ?_⟩
        obtain ⟨_, holds, same⟩ := kept v given
        cases same
        exact holds
  · rintro (refused | consistent) request made field slot member v given
    · exact absurd made ((fromValues_error names).mpr refused request)
    · have listed := (List.of_mem_zip member).1
      obtain ⟨cell, holds⟩ := consistent field listed
      refine ⟨cell, holds v given, ?_⟩
      have made := slot_of_mem made member
      cases local_ : locals fields values field.name with
      | none =>
          have untaken := (locals_none names listed).mp local_ v given
          rw [RequestField.take_of_holds (holds v given)] at untaken
          cases untaken
      | some taken =>
          obtain ⟨w, there, same⟩ := locals_some names listed local_
          rw [RequestField.take_of_holds (holds w there)] at same
          rw [local_, ← same, RequestField.slot_some] at made
          cases made
          rfl

/-- The pairs of `into_values` under the name of a field are those of its slot. -/
theorem mem_intoValues (names : (fields.map RequestField.name).Nodup) {request : List (Slot J X)}
    (length : fields.length = request.length) {field : RequestField X} {slot : Slot J X}
    (member : (field, slot) ∈ fields.zip request) {v : Value J} :
    (field.name, v) ∈ intoValues fields request ↔ (field.name, v) ∈ field.pair slot := by
  rw [intoValues, List.mem_flatMap]
  refine ⟨?_, fun own => ⟨(field, slot), member, own⟩⟩
  rintro ⟨⟨other, s⟩, there, own⟩
  have name : other.name = field.name := by
    cases s with
    | auto => cases own
    | value cell => exact (congrArg Prod.fst (List.mem_singleton.mp own)).symm
  have distinct : ((fields.zip request).map fun entry => entry.1.name).Nodup := by
    have firsts : (fields.zip request).map Prod.fst = fields := List.map_fst_zip length.le
    have split : ((fields.zip request).map fun entry => entry.1.name) =
        ((fields.zip request).map Prod.fst).map RequestField.name := by
      rw [List.map_map]
      rfl
    rw [split, firsts]
    exact names
  cases List.inj_on_of_nodup_map distinct there member name
  exact own

theorem slot_generated {field : RequestField X} (generated : field.autoIncrement = true) :
    field.slot (none : Option (Cell J X)) = .ok .auto := by
  rw [RequestField.slot, if_pos generated]

/-- The values of a request give the request back. -/
theorem fromValues_intoValues (names : (fields.map RequestField.name).Nodup) {request : List (Slot J X)}
    (typed : List.Forall₂ RequestField.Fits fields request) :
    fromValues fields (intoValues fields request) = .ok request := by
  obtain ⟨length, fits⟩ := List.forall₂_iff_zip.mp typed
  refine Result.mapM_of_forall₂ (List.forall₂_iff_zip.mpr ⟨length, fun {field slot} member => ?_⟩)
  have listed := (List.of_mem_zip member).1
  have own := fits member
  have given : ∀ v, (field.name, v) ∈ intoValues fields request ↔ (field.name, v) ∈ field.pair slot :=
    fun v => mem_intoValues names length member
  cases slot with
  | auto =>
      have absent : locals fields (intoValues fields request) field.name = none :=
        (locals_none names listed).mpr fun v there => absurd ((given v).mp there) List.not_mem_nil
      rw [absent]
      cases own with
      | auto generated => exact slot_generated generated
  | value cell =>
      have taken := RequestField.take_of_holds own.holds
      cases local_ : locals fields (intoValues fields request) field.name with
      | none =>
          rw [(locals_none names listed).mp local_ _ ((given _).mpr List.mem_cons_self)] at taken
          cases taken
      | some other =>
          obtain ⟨v, there, same⟩ := locals_some names listed local_
          obtain ⟨_, rfl⟩ := Prod.mk.inj (List.mem_singleton.mp ((given v).mp there))
          rw [taken] at same
          rw [← same, RequestField.slot_some]

end InsertRequest

/-! ## The update request -/

namespace UpdateRequest
variable {fields : List (RequestField X)}

theorem assign_ok (names : (fields.map RequestField.name).Nodup) {locals : Locals J X} {entry : String × Value J} :
    (∃ next, assign fields locals entry = .ok next) ↔
      ∀ field ∈ fields, field.name = entry.1 → ∃ cell, field.Holds entry.2 cell := by
  rw [assign]
  cases found : fields.find? fun field => field.name == entry.1 with
  | none =>
      refine ⟨fun _ field listed same => ?_, fun _ => ⟨locals, rfl⟩⟩
      exact absurd (beq_iff_eq.mpr same) (List.find?_eq_none.mp found field listed)
  | some own =>
      have there := List.mem_of_find?_eq_some found
      have name : own.name = entry.1 := beq_iff_eq.mp (List.find?_some found :)
      constructor
      · rintro ⟨next, run⟩ field listed same
        obtain rfl := List.inj_on_of_nodup_map names listed there (same.trans name.symm)
        obtain ⟨cell, converted, _⟩ := Result.bind_eq_ok.mp run
        exact ⟨cell, RequestField.convert_ok.mp converted⟩
      · intro each
        obtain ⟨cell, holds⟩ := each own there name
        exact ⟨_, Result.bind_eq_ok.mpr ⟨cell, RequestField.convert_ok.mpr holds, rfl⟩⟩

/-- The update request is made if and only if every value given for a column has its type. -/
theorem fromValues_ok (names : (fields.map RequestField.name).Nodup) {values : List (String × Value J)} :
    (∃ request, fromValues fields values = .ok request) ↔
      ∀ field ∈ fields, ∀ v, (field.name, v) ∈ values → ∃ cell, field.Holds v cell := by
  have loop : ∀ locals : Locals J X, (∃ final, values.foldlM (assign fields) locals = .ok final) ↔
      ∀ field ∈ fields, ∀ v, (field.name, v) ∈ values → ∃ cell, field.Holds v cell := by
    induction values with
    | nil => exact fun locals => ⟨fun _ _ _ _ no => absurd no List.not_mem_nil, fun _ => ⟨locals, rfl⟩⟩
    | cons entry rest ih =>
        intro locals
        rw [List.foldlM_cons]
        constructor
        · rintro ⟨final, run⟩ field listed v member
          obtain ⟨next, first, later⟩ := Result.bind_eq_ok.mp run
          rcases List.mem_cons.mp member with rfl | there
          · exact (assign_ok names).mp ⟨next, first⟩ field listed rfl
          · exact (ih next).mp ⟨final, later⟩ field listed v there
        · intro each
          obtain ⟨next, first⟩ := (assign_ok names).mpr fun field listed same =>
            each field listed entry.2 (List.mem_cons.mpr (.inl (Prod.ext same rfl)))
          obtain ⟨final, later⟩ := (ih next).mpr fun field listed v there =>
            each field listed v (List.mem_cons_of_mem _ there)
          exact ⟨final, Result.bind_eq_ok.mpr ⟨next, first, later⟩⟩
  rw [← loop]
  constructor
  · rintro ⟨request, run⟩
    obtain ⟨final, made, _⟩ := Result.bind_eq_ok.mp run
    exact ⟨final, made⟩
  · rintro ⟨final, made⟩
    exact ⟨_, Result.bind_eq_ok.mpr ⟨final, made, rfl⟩⟩

end UpdateRequest

/-- An accepted insert request holds the values that are given if and only if the list is
refused or the values given for each column are one value of its type, which is what the
update request asks; and an insert request is read back from its values. -/
theorem requests_keep_given_iff {fields : List (RequestField X)} (names : (fields.map RequestField.name).Nodup)
    (values : List (String × Value J)) :
    (InsertRequest.KeepsGiven fields values ↔
      InsertRequest.Refused fields values ∨ InsertRequest.Consistent fields values) ∧
    ((∃ request, UpdateRequest.fromValues fields values = .ok request) ↔
      ∀ field ∈ fields, ∀ v, (field.name, v) ∈ values → ∃ cell, field.Holds v cell) ∧
    ∀ request : List (Slot J X), List.Forall₂ RequestField.Fits fields request →
      InsertRequest.fromValues fields (InsertRequest.intoValues fields request) = .ok request :=
  ⟨InsertRequest.keepsGiven_iff names, UpdateRequest.fromValues_ok names,
    fun _ typed => InsertRequest.fromValues_intoValues names typed⟩

namespace Notes

def id : RequestField Empty := ⟨"id", .builtIn .uint32, false, true, fun _ => rfl⟩

def note : RequestField Empty := ⟨"note", .builtIn .text, true, false, Bool.noConfusion⟩

theorem names : ([id, note].map RequestField.name).Nodup := by decide

/-- A note and a key of its own are kept. -/
theorem note_kept : InsertRequest.KeepsGiven [id, note] [("note", (.text "a" : Value ℕ)), ("id", .uint32 7)] := by
  refine (requests_keep_given_iff names _).1.mpr (.inr fun field listed => ?_)
  rcases List.mem_cons.mp listed with rfl | listed
  · refine ⟨some (.builtIn (.uint32 7)), fun v given => ?_⟩
    obtain rfl : v = .uint32 7 := by simpa [id] using given
    exact .builtIn rfl rfl
  · obtain rfl := List.mem_singleton.mp listed
    refine ⟨some (.builtIn (.text "a")), fun v given => ?_⟩
    obtain rfl : v = .text "a" := by simpa [note] using given
    exact .builtIn rfl rfl

/-- A number given for a note is dropped, and the note is `Null`. -/
theorem number_dropped : ¬ InsertRequest.KeepsGiven [id, note] [("note", (.uint32 5 : Value ℕ))] := by
  intro keeps
  have made : InsertRequest.fromValues [id, note] [("note", (.uint32 5 : Value ℕ))] = .ok [.auto, .value none] := rfl
  obtain ⟨cell, holds, same⟩ := keeps _ made note (.value none) (by simp) (.uint32 5) List.mem_cons_self
  cases same
  cases holds

end Notes

end WasmDbms
