import WasmDbms.Json.Order

/-!
# Containment of JSON values

`json_contains` looks for the needle in the haystack: objects member by member, arrays element
by element in any order, a primitive also among the elements of an array. It is a preorder
inside which equal values are interchangeable and larger haystacks contain more.
-/
namespace WasmDbms.JsonValue

/-- Equality of numbers as `serde_json` has it: integers by value, floats by value. -/
def numberEq : Number → Number → Bool
  | .integer i _ _, .integer j _ _ => i == j
  | .float f, .float g => f.value == g.value
  | _, _ => false

/-- Neither an array nor an object. -/
def isPrimitive : JsonValue → Bool
  | .array _ | .object _ => false
  | _ => true

/-- `json_contains`. -/
def jsonContains : JsonValue → JsonValue → Bool
  | .object hMap, .object nMap => nMap.all fun n =>
      match hMap.attach.find? fun h => h.1.1 == n.1 with
      | some h => jsonContains h.1.2 n.2
      | none => false
  | .array hArr, .array nArr => nArr.all fun nElem => hArr.attach.any fun hElem => jsonContains hElem.1 nElem
  | .array hArr, needle => needle.isPrimitive && hArr.attach.any fun hElem => jsonContains hElem.1 needle
  | .null, .null => true
  | .bool h, .bool n => h == n
  | .number h, .number n => numberEq h n
  | .string h, .string n => h == n
  | _, _ => false
termination_by haystack => sizeOf haystack
decreasing_by
  · have small := sizeOf_member h.2
    rw [object.sizeOf_spec]
    omega
  · have small := sizeOf_elem hElem.2
    rw [array.sizeOf_spec]
    omega
  · have small := sizeOf_elem hElem.2
    rw [array.sizeOf_spec]
    omega

/-! ## What is contained -/

theorem contains_object {hMap nMap : List (String × JsonValue)} :
    jsonContains (.object hMap) (.object nMap) = true ↔ ∀ n ∈ nMap, ∃ v, get hMap n.1 = some v ∧ jsonContains v n.2 = true := by
  have found (key : String) : get hMap key = (hMap.attach.find? fun h => h.1.1 == key).map fun h => h.1.2 := by
    conv_lhs => rw [get, ← List.attach_map_subtype_val hMap, List.find?_map, Option.map_map]
    rfl
  rw [jsonContains, List.all_eq_true]
  refine forall₂_congr fun n _ => ?_
  rw [found]
  cases hMap.attach.find? fun h => h.1.1 == n.1 with
  | none => simp
  | some h => simp

theorem contains_array {hArr nArr : List JsonValue} :
    jsonContains (.array hArr) (.array nArr) = true ↔ ∀ n ∈ nArr, ∃ h ∈ hArr, jsonContains h n = true := by
  rw [jsonContains, List.all_eq_true]
  refine forall₂_congr fun n _ => ?_
  rw [List.any_eq_true]
  constructor
  · rintro ⟨h, _, found⟩
    exact ⟨h.1, h.2, found⟩
  · rintro ⟨h, member, found⟩
    exact ⟨⟨h, member⟩, List.mem_attach _ _, found⟩

theorem contains_primitive {hArr : List JsonValue} {needle : JsonValue} (primitive : needle.isPrimitive = true) :
    jsonContains (.array hArr) needle = true ↔ ∃ h ∈ hArr, jsonContains h needle = true := by
  have any : jsonContains (.array hArr) needle = hArr.attach.any fun hElem => jsonContains hElem.1 needle := by
    cases needle <;> first
      | exact Bool.noConfusion primitive
      | (rw [jsonContains, primitive, Bool.true_and]; simp)
  rw [any, List.any_eq_true]
  constructor
  · rintro ⟨h, _, found⟩
    exact ⟨h.1, h.2, found⟩
  · rintro ⟨h, member, found⟩
    exact ⟨⟨h, member⟩, List.mem_attach _ _, found⟩

theorem numberEq_iff {m n : Number} : numberEq m n = true ↔ (m.value, m.isFloat) = (n.value, n.isFloat) := by
  cases m <;> cases n <;> simp [numberEq, Number.value, Number.isFloat]

/-- A primitive contains what equals it. -/
theorem primitive_contains {haystack needle : JsonValue} (primitive : haystack.isPrimitive = true) :
    jsonContains haystack needle = true ↔ haystack.denote = needle.denote := by
  cases haystack with
  | array | object => cases primitive
  | null => cases needle <;> simp [jsonContains, denote]
  | bool b => cases needle <;> simp [jsonContains, denote]
  | string s => cases needle <;> simp [jsonContains, denote]
  | number m =>
      cases needle with
      | number n => rw [jsonContains, numberEq_iff, denote, denote, Trees.Tree.leaf.injEq, Scalar.number.injEq]
      | _ => simp [jsonContains, denote]

/-- A value with the tree of a primitive is one. -/
theorem isPrimitive_of_denote {v w : JsonValue} (same : v.denote = w.denote) (primitive : v.isPrimitive = true) : w.isPrimitive = true := by
  have leaf : ∃ x, v.denote = .leaf x := by
    cases v with
    | array | object => cases primitive
    | _ => exact ⟨_, by rw [denote]⟩
  obtain ⟨x, atom⟩ := leaf
  rw [atom] at same
  cases w with
  | array =>
      rw [denote_array] at same
      cases same
  | object =>
      rw [denote_object] at same
      cases same
  | _ => rfl

/-- An array contains no object. -/
theorem array_object {elems : List JsonValue} {members : List (String × JsonValue)} :
    jsonContains (.array elems) (.object members) = false := by
  rw [jsonContains]
  · rfl
  · simp

/-- Only an object contains an object, and it contains nothing else. -/
theorem object_contains {members : List (String × JsonValue)} {needle : JsonValue}
    (found : jsonContains (.object members) needle = true) : ∃ nMap, needle = .object nMap := by
  cases needle with
  | object nMap => exact ⟨nMap, rfl⟩
  | _ => simp [jsonContains] at found

/-- Containment is transitive. -/
theorem contains_trans (a : JsonValue) : ∀ {b c : JsonValue}, jsonContains a b = true → jsonContains b c = true →
    jsonContains a c = true := by
  have leaf {a b c : JsonValue} (primitive : a.isPrimitive = true) (first : jsonContains a b = true) (second : jsonContains b c = true) :
      jsonContains a c = true := by
    have same := (primitive_contains primitive).mp first
    exact (primitive_contains primitive).mpr (same.trans ((primitive_contains (isPrimitive_of_denote same primitive)).mp second))
  induction a using JsonValue.induction with
  | null => exact leaf rfl
  | bool | number | string => exact leaf rfl
  | array aElems ih =>
      intro b c first second
      by_cases primitive : b.isPrimitive = true
      · -- the needle of the second is a primitive equal to that of the first
        obtain ⟨h, member, found⟩ := (contains_primitive primitive).mp first
        have same := (primitive_contains primitive).mp second
        exact (contains_primitive (isPrimitive_of_denote same primitive)).mpr ⟨h, member, ih h member found second⟩
      · cases b with
        | object =>
            rw [array_object] at first
            cases first
        | array bElems =>
            have through {n : JsonValue} (inside : ∃ h ∈ bElems, jsonContains h n = true) : ∃ h ∈ aElems, jsonContains h n = true := by
              obtain ⟨h, member, found⟩ := inside
              obtain ⟨h', member', found'⟩ := contains_array.mp first h member
              exact ⟨h', member', ih h' member' found' found⟩
            cases c with
            | array cElems => exact contains_array.mpr fun n member => through (contains_array.mp second n member)
            | object =>
                rw [array_object] at second
                cases second
            | _ => exact (contains_primitive rfl).mpr (through ((contains_primitive rfl).mp second))
        | _ => exact absurd rfl primitive
  | object aMap ih =>
      intro b c first second
      obtain ⟨bMap, rfl⟩ := object_contains first
      obtain ⟨cMap, rfl⟩ := object_contains second
      refine contains_object.mpr fun n member => ?_
      obtain ⟨v, got, found⟩ := contains_object.mp second n member
      obtain ⟨w, got', found'⟩ := contains_object.mp first (n.1, v) (get_mem got)
      exact ⟨w, got', ih (n.1, w) (get_mem got') found' found⟩

/-- A value contains every equal one, itself for a start. -/
theorem contains_of_denote_eq {a : JsonValue} (wf : a.WellFormed) : ∀ {b : JsonValue}, a.denote = b.denote → jsonContains a b = true := by
  induction wf with
  | null | bool | number | string => exact fun same => (primitive_contains rfl).mpr same
  | @array elems _ ih =>
      intro b same
      cases b with
      | array elems' =>
          rw [denote_array, denote_array, Trees.Tree.list.injEq] at same
          refine contains_array.mpr fun n member => ?_
          obtain ⟨v, inside, alike⟩ := List.mem_map.mp (same ▸ List.mem_map_of_mem (f := denote) member : n.denote ∈ elems.map denote)
          exact ⟨v, inside, ih v inside alike⟩
      | _ =>
          simp only [denote] at same
          cases same
  | @object members distinct _ ih =>
      intro b same
      cases b with
      | object members' =>
          rw [denote_object, denote_object, Trees.Tree.record.injEq] at same
          refine contains_object.mpr fun n member => ?_
          have image : (n.1, n.2.denote) ∈ (sortedMembers members).map fun m => (m.1, denote m.2) := by
            rw [same]
            exact List.mem_map_of_mem (mem_sortedMembers.mpr member)
          obtain ⟨m, inside, alike⟩ := List.mem_map.mp image
          obtain ⟨keys, values⟩ := Prod.mk.inj alike
          have inside := mem_sortedMembers.mp inside
          exact ⟨m.2, keys ▸ get_of_mem distinct inside, ih m inside values⟩
      | _ =>
          simp only [denote] at same
          cases same

/-! ## Larger haystacks -/

/-- The second value is the first with more members in objects and more elements in arrays,
anywhere inside; what is there is not changed. -/
inductive Extends : JsonValue → JsonValue → Prop
  | refl (v : JsonValue) : Extends v v
  | addMember (key : String) (v : JsonValue) (front back : List (String × JsonValue)) :
      Extends (.object (front ++ back)) (.object (front ++ (key, v) :: back))
  | addElement (v : JsonValue) (front back : List JsonValue) : Extends (.array (front ++ back)) (.array (front ++ v :: back))
  | member {v v' : JsonValue} (key : String) (front back : List (String × JsonValue)) (inside : Extends v v') :
      Extends (.object (front ++ (key, v) :: back)) (.object (front ++ (key, v') :: back))
  | element {v v' : JsonValue} (front back : List JsonValue) (inside : Extends v v') :
      Extends (.array (front ++ v :: back)) (.array (front ++ v' :: back))
  | trans {v v' v'' : JsonValue} (first : Extends v v') (second : Extends v' v'') : Extends v v''

/-- A value that takes out members and elements keeps distinct keys, and the larger value contains
it. -/
theorem Extends.contains {v v' : JsonValue} (larger : Extends v v') : v'.WellFormed → v.WellFormed ∧ jsonContains v' v = true := by
  induction larger with
  | refl v => exact fun wf => ⟨wf, contains_of_denote_eq wf rfl⟩
  | addMember key v front back =>
      rintro (_ | _ | _ | _ | _ | ⟨distinct, inside⟩)
      obtain ⟨first, middle⟩ := List.forall_mem_append.mp inside
      have others := List.forall_mem_append.mpr ⟨first, (List.forall_mem_cons.mp middle).2⟩
      have sublist : (front ++ back).Sublist (front ++ (key, v) :: back) := (List.Sublist.refl front).append (List.sublist_cons_self _ _)
      refine ⟨.object (distinct.sublist (sublist.map Prod.fst)) others, contains_object.mpr fun n member => ?_⟩
      exact ⟨n.2, get_of_mem distinct (sublist.subset member), contains_of_denote_eq (others n member) rfl⟩
  | addElement v front back =>
      rintro (_ | _ | _ | _ | inside | _)
      obtain ⟨first, middle⟩ := List.forall_mem_append.mp inside
      have others := List.forall_mem_append.mpr ⟨first, (List.forall_mem_cons.mp middle).2⟩
      have sublist : (front ++ back).Sublist (front ++ v :: back) := (List.Sublist.refl front).append (List.sublist_cons_self _ _)
      refine ⟨.array others, contains_array.mpr fun n member => ?_⟩
      exact ⟨n, sublist.subset member, contains_of_denote_eq (others n member) rfl⟩
  | @member v v' key front back _ ih =>
      rintro (_ | _ | _ | _ | _ | ⟨distinct, inside⟩)
      obtain ⟨first, middle⟩ := List.forall_mem_append.mp inside
      obtain ⟨here, last⟩ := List.forall_mem_cons.mp middle
      obtain ⟨wf, found⟩ := ih here
      have keys : (front ++ (key, v) :: back).map Prod.fst = (front ++ (key, v') :: back).map Prod.fst := by
        rw [List.map_append, List.map_append]
        rfl
      refine ⟨.object (keys ▸ distinct) (List.forall_mem_append.mpr ⟨first, List.forall_mem_cons.mpr ⟨wf, last⟩⟩),
        contains_object.mpr ?_⟩
      have same (n : String × JsonValue) (member : n ∈ front ++ (key, v') :: back) (wf : n.2.WellFormed) :
          ∃ w, get (front ++ (key, v') :: back) n.1 = some w ∧ jsonContains w n.2 = true :=
        ⟨n.2, get_of_mem distinct member, contains_of_denote_eq wf rfl⟩
      refine List.forall_mem_append.mpr ⟨fun n member => ?_, List.forall_mem_cons.mpr ⟨?_, fun n member => ?_⟩⟩
      · exact same n (List.mem_append_left _ member) (first n member)
      · exact ⟨v', get_of_mem distinct (m := (key, v')) (List.mem_append_right _ List.mem_cons_self), found⟩
      · exact same n (List.mem_append_right _ (List.mem_cons_of_mem _ member)) (last n member)
  | @element v v' front back _ ih =>
      rintro (_ | _ | _ | _ | inside | _)
      obtain ⟨first, middle⟩ := List.forall_mem_append.mp inside
      obtain ⟨here, last⟩ := List.forall_mem_cons.mp middle
      obtain ⟨wf, found⟩ := ih here
      refine ⟨.array (List.forall_mem_append.mpr ⟨first, List.forall_mem_cons.mpr ⟨wf, last⟩⟩), contains_array.mpr ?_⟩
      refine List.forall_mem_append.mpr ⟨fun n member => ?_, List.forall_mem_cons.mpr ⟨?_, fun n member => ?_⟩⟩
      · exact ⟨n, List.mem_append_left _ member, contains_of_denote_eq (first n member) rfl⟩
      · exact ⟨v', List.mem_append_right _ List.mem_cons_self, found⟩
      · exact ⟨n, List.mem_append_right _ (List.mem_cons_of_mem _ member), contains_of_denote_eq (last n member) rfl⟩
  | @trans v v' v'' _ _ ih ih' =>
      intro wf
      obtain ⟨wf, second⟩ := ih' wf
      obtain ⟨wf, first⟩ := ih wf
      exact ⟨wf, contains_trans v'' second first⟩

namespace Json

def contains (haystack needle : Json) : Bool := haystack.value.jsonContains needle.value

theorem contains_of_beq {a b : Json} (same : (a == b) = true) : contains a b = true :=
  contains_of_denote_eq a.wellFormed (cmp_eq_iff.mp (beq_iff.mp same))

/-- Containment is a preorder that does not tell equal values apart, grows with the haystack and
shrinks with the needle. -/
theorem contains_preorder :
    (∀ a : Json, contains a a = true) ∧
    (∀ a b c : Json, contains a b = true → contains b c = true → contains a c = true) ∧
    (∀ a a' b b' : Json, (a == a') = true → (b == b') = true → contains a b = contains a' b') ∧
    (∀ h h' n : Json, h.value.Extends h'.value → contains h n = true → contains h' n = true) ∧
    ∀ h n n' : Json, n'.value.Extends n.value → contains h n = true → contains h n' = true := by
  have trans (a b c : Json) (first : contains a b = true) (second : contains b c = true) : contains a c = true :=
    contains_trans a.value first second
  have symm {a b : Json} (same : (a == b) = true) : (b == a) = true :=
    beq_iff.mpr (cmp_eq_iff.mpr (cmp_eq_iff.mp (beq_iff.mp same)).symm)
  refine ⟨fun a => contains_of_denote_eq a.wellFormed rfl, trans, ?_, ?_, ?_⟩
  · intro a a' b b' left right
    refine Bool.eq_iff_iff.mpr ⟨fun found => ?_, fun found => ?_⟩
    · exact trans a' a b' (contains_of_beq (symm left)) (trans a b b' found (contains_of_beq right))
    · exact trans a a' b (contains_of_beq left) (trans a' b' b found (contains_of_beq (symm right)))
  · intro h h' n larger found
    exact trans h' h n (larger.contains h'.wellFormed).2 found
  · intro h n n' larger found
    exact trans h n n' found (larger.contains n.wellFormed).2

/-- An object with a member more still contains the needle. -/
theorem more_members_contain : ∃ h h' : Json, h.value = .object [("a", .null)] ∧
    h'.value = .object [("a", .null), ("b", .bool true)] ∧ contains h' h = true := by
  have first : (JsonValue.object [("a", .null)]).WellFormed :=
    .object (List.nodup_singleton _) (List.forall_mem_singleton.mpr .null)
  have second : (JsonValue.object [("a", .null), ("b", .bool true)]).WellFormed := pair_wellFormed (by decide) .null .bool
  obtain ⟨refl, _, _, grow, _⟩ := contains_preorder
  exact ⟨⟨_, first⟩, ⟨_, second⟩, rfl, rfl,
    grow ⟨_, first⟩ ⟨_, second⟩ ⟨_, first⟩ (.addMember "b" (.bool true) [("a", .null)] []) (refl _)⟩

end Json
end WasmDbms.JsonValue
