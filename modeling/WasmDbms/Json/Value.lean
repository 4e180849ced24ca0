import Mathlib.Data.List.Sort
import Mathlib.Data.String.Basic
import WasmDbms.Lib.Binary64
import WasmDbms.Lib.Trees

/-!
# JSON values

The values of a JSON document, how they are compared and what they feed to a hasher. The map of
an object is the list of its members in the order of iteration, its keys distinct.
-/
namespace WasmDbms

/-- A number of a document: an integer of `i64` or `u64`, or a finite float. -/
inductive Number where
  | integer (i : ℤ) (low : -2 ^ 63 ≤ i) (high : i < 2 ^ 64)
  | float (f : Binary64)
  deriving DecidableEq

inductive JsonValue where
  | null
  | bool (b : Bool)
  | number (n : Number)
  | string (s : String)
  | array (elems : List JsonValue)
  | object (members : List (String × JsonValue))

namespace JsonValue

/-- The keys of every object are distinct, those inside arrays and members included. -/
inductive WellFormed : JsonValue → Prop
  | null : WellFormed .null
  | bool {b : Bool} : WellFormed (.bool b)
  | number {n : Number} : WellFormed (.number n)
  | string {s : String} : WellFormed (.string s)
  | array {elems : List JsonValue} (inside : ∀ v ∈ elems, WellFormed v) : WellFormed (.array elems)
  | object {members : List (String × JsonValue)} (distinct : (members.map Prod.fst).Nodup)
      (inside : ∀ m ∈ members, WellFormed m.2) : WellFormed (.object members)

theorem sizeOf_elem {v : JsonValue} {elems : List JsonValue} (member : v ∈ elems) : sizeOf v < sizeOf elems :=
  List.sizeOf_lt_of_mem member

theorem sizeOf_member {m : String × JsonValue} {members : List (String × JsonValue)} (member : m ∈ members) :
    sizeOf m.2 < sizeOf members := by
  have small := List.sizeOf_lt_of_mem member
  have inside : sizeOf m = 1 + sizeOf m.1 + sizeOf m.2 := Prod.mk.sizeOf_spec m.1 m.2
  omega

theorem induction {P : JsonValue → Prop} (null : P .null) (bool : ∀ b, P (.bool b)) (number : ∀ n, P (.number n))
    (string : ∀ s, P (.string s)) (array : ∀ elems, (∀ v ∈ elems, P v) → P (.array elems))
    (object : ∀ members, (∀ m ∈ members, P m.2) → P (.object members)) : ∀ v, P v
  | .null => null
  | .bool b => bool b
  | .number n => number n
  | .string s => string s
  | .array elems => array elems fun v _ => induction null bool number string array object v
  | .object members => object members fun m _ => induction null bool number string array object m.2
termination_by v => v
decreasing_by
  · have small := sizeOf_elem ‹_›
    rw [JsonValue.array.sizeOf_spec]
    omega
  · have small := sizeOf_member ‹_›
    rw [JsonValue.object.sizeOf_spec]
    omega

/-- The members of an object by key. -/
def sortedMembers (members : List (String × JsonValue)) : List (String × JsonValue) :=
  members.mergeSort fun x y => x.1 ≤ y.1

theorem mem_sortedMembers {m : String × JsonValue} {members : List (String × JsonValue)} :
    m ∈ sortedMembers members ↔ m ∈ members := List.mem_mergeSort

/-- The member of a key. -/
def get (members : List (String × JsonValue)) (key : String) : Option JsonValue :=
  (members.find? fun m => m.1 == key).map Prod.snd

/-- The member of a key is a member. -/
theorem get_mem {members : List (String × JsonValue)} {key : String} {v : JsonValue} (got : get members key = some v) :
    (key, v) ∈ members := by
  obtain ⟨m, found, rfl⟩ := Option.map_eq_some_iff.mp got
  have hit : (m.1 == key) = true := @List.find?_some _ (fun m : String × JsonValue => m.1 == key) m members found
  have same : m.1 = key := beq_iff_eq.mp hit
  rw [← same]
  exact List.mem_of_find?_eq_some found

/-- A member is the one of its key when the keys are distinct. -/
theorem get_of_mem {members : List (String × JsonValue)} (distinct : (members.map Prod.fst).Nodup) {m : String × JsonValue}
    (member : m ∈ members) : get members m.1 = some m.2 := by
  have some_ : ∃ v, get members m.1 = some v := by
    cases found : members.find? fun n => n.1 == m.1 with
    | none => exact absurd (beq_self_eq_true m.1) (List.find?_eq_none.mp found m member)
    | some n => exact ⟨n.2, congrArg (Option.map Prod.snd) found⟩
  obtain ⟨v, got⟩ := some_
  have same : (m.1, v) = m := List.inj_on_of_nodup_map distinct (get_mem got) member rfl
  rw [got, ← congrArg Prod.snd same]

/-! ## Comparison -/

def typeOrder : JsonValue → ℕ
  | .null => 0
  | .bool _ => 1
  | .number _ => 2
  | .string _ => 3
  | .array _ => 4
  | .object _ => 5

end JsonValue

/-- The lossless view of a number; `i128` holds every integer. -/
inductive JsonNumber where
  | int (i : ℤ)
  | float (f : Binary64)

def JsonNumber.ofNumber : Number → JsonNumber
  | .integer i _ _ => .int i
  | .float f => .float f

/-- Two finite floats by their values, so that the zeros are equal. -/
def cmpFloat (a b : Binary64) : Ordering := compare a.value b.value

/-- An integer and a float by their values. The subtraction rounds nothing
(`Binary64.exists_sub_trunc`). -/
def cmpIntFloat (int : ℤ) (float : Binary64) : Ordering :=
  if 2 ^ 127 ≤ float.value then .lt
  else if float.value < -2 ^ 127 then .gt
  else (compare int float.trunc.toI128).then (compare 0 (float.value - float.trunc.value))

def cmpNumber (a b : Number) : Ordering :=
  match JsonNumber.ofNumber a, JsonNumber.ofNumber b with
  | .int a, .int b => compare a b
  | .float a, .float b => cmpFloat a b
  | .int a, .float b => (cmpIntFloat a b).then .lt
  | .float a, .int b => (cmpIntFloat b a).swap.then .gt

namespace JsonValue

mutual

/-- By type, and inside a type by value. -/
def cmpValue (a b : JsonValue) : Ordering :=
  match compare a.typeOrder b.typeOrder with
  | .lt => .lt
  | .gt => .gt
  | .eq =>
      match a, b with
      | .null, .null => .eq
      | .bool a, .bool b => compare a b
      | .number a, .number b => cmpNumber a b
      | .string a, .string b => compare a b
      | .array a, .array b => cmpArray a b
      | .object a, .object b => cmpObject a b
      -- the types agree
      | _, _ => .eq
termination_by sizeOf a

/-- Element by element, then by length. -/
def cmpArray (a b : List JsonValue) : Ordering :=
  ((a.zip b).attach.map fun pair => cmpValue pair.1.1 pair.1.2).foldr Ordering.then (compare a.length b.length)
termination_by sizeOf a
decreasing_by exact sizeOf_elem (List.of_mem_zip pair.2).1

/-- Key by key and value by value in the order of the keys, then by the number of keys. -/
def cmpObject (a b : List (String × JsonValue)) : Ordering :=
  (((sortedMembers a).zip (sortedMembers b)).attach.map fun pair =>
    (compare pair.1.1.1 pair.1.2.1).then (cmpValue pair.1.1.2 pair.1.2.2)).foldr Ordering.then (compare a.length b.length)
termination_by sizeOf a
decreasing_by exact sizeOf_member (mem_sortedMembers.mp (List.of_mem_zip pair.2).1)

end

/-! ## Hashing -/

/-- What is written to a hasher. -/
inductive HashItem where
  | discriminant (n : ℕ)
  | bool (b : Bool)
  | byte (n : ℕ)
  | int (i : ℤ)
  | bits (n : ℕ)
  | text (s : String)
  | length (n : ℕ)
  deriving DecidableEq

def hashNumber (n : Number) : List HashItem :=
  match JsonNumber.ofNumber n with
  | .int i => [.byte 0, .int i]
  | .float f => [.byte 1, .bits (if f.value = 0 then Binary64.zero else f).toBits]

def hashValue : JsonValue → List HashItem
  | .null => [.discriminant 0]
  | .bool b => [.discriminant 1, .bool b]
  | .number n => .discriminant 2 :: hashNumber n
  | .string s => [.discriminant 3, .text s]
  | .array elems => .discriminant 4 :: .length elems.length :: elems.attach.flatMap fun v => hashValue v.1
  | .object members =>
      .discriminant 5 :: .length members.length ::
        (sortedMembers members).attach.flatMap fun m => .text m.1.1 :: hashValue m.1.2
termination_by v => sizeOf v
decreasing_by
  · have small := sizeOf_elem v.2
    rw [JsonValue.array.sizeOf_spec]
    omega
  · have small := sizeOf_member (mem_sortedMembers.mp m.2)
    rw [JsonValue.object.sizeOf_spec]
    omega

/-- A JSON value of the database. -/
structure Json where
  value : JsonValue
  wellFormed : value.WellFormed

namespace Json

def cmp (a b : Json) : Ordering := a.value.cmpValue b.value

/-- Equality is that of the comparison. -/
instance : BEq Json := ⟨fun a b => cmp a b == .eq⟩

def hash (a : Json) : List HashItem := a.value.hashValue

end Json
end JsonValue
end WasmDbms
