import Mathlib.Tactic.Linarith
import WasmDbms.Json.Value

/-!
# The order of JSON values

A JSON value denotes a tree: numbers by their exact value and whether they are floats, members
by key. The comparison of the values is the lexicographic order of the trees.
-/
namespace WasmDbms
open Trees

/-! ## Numbers -/

namespace Number

/-- The number itself. -/
def value : Number → ℚ
  | .integer i _ _ => i
  | .float f => f.value

def isFloat : Number → Bool
  | .integer .. => false
  | .float _ => true

end Number

/-- An integer of `i128` and a float compare like the numbers. -/
theorem cmpIntFloat_eq {int : ℤ} (low : -2 ^ 127 ≤ int) (high : int < 2 ^ 127) (float : Binary64) :
    cmpIntFloat int float = compare (int : ℚ) float.value := by
  have least : (-2 ^ 127 : ℚ) ≤ int := by
    have cast : ((-2 ^ 127 : ℤ) : ℚ) ≤ int := Int.cast_le.mpr low
    rwa [Int.cast_neg, Int.cast_pow, Int.cast_ofNat] at cast
  have most : (int : ℚ) < 2 ^ 127 := by exact_mod_cast high
  rw [cmpIntFloat]
  split
  · rename_i above
    exact (compare_lt_iff_lt.mpr (most.trans_le above)).symm
  · rename_i below
    split
    · rename_i under
      exact (compare_gt_iff_gt.mpr (under.trans_le least)).symm
    · rename_i within
      rw [Binary64.toI128_trunc (not_lt.mp within) (not_le.mp below), Binary64.trunc_value]
      obtain ⟨near, near'⟩ := abs_lt.mp float.abs_sub_trunc_lt
      rw [Binary64.trunc_value] at near near'
      -- less than one lies between the float and its integral part
      rcases lt_trichotomy int float.whole with less | rfl | more
      · have next : (int : ℚ) + 1 ≤ float.whole := by exact_mod_cast less
        have below : (int : ℚ) < float.value := by linarith
        rw [compare_lt_iff_lt.mpr less, compare_lt_iff_lt.mpr below]
        rfl
      · rw [compare_eq_iff_eq.mpr (rfl : float.whole = float.whole)]
        rcases lt_trichotomy (float.whole : ℚ) float.value with low | same | high
        · rw [compare_lt_iff_lt.mpr low, compare_lt_iff_lt.mpr (sub_pos.mpr low)]
          rfl
        · rw [compare_eq_iff_eq.mpr same, compare_eq_iff_eq.mpr (sub_eq_zero.mpr same.symm).symm]
          rfl
        · rw [compare_gt_iff_gt.mpr high, compare_gt_iff_gt.mpr (sub_neg.mpr high)]
          rfl
      · have next : (float.whole : ℚ) + 1 ≤ int := by exact_mod_cast more
        have above : float.value < (int : ℚ) := by linarith
        rw [compare_gt_iff_gt.mpr more, compare_gt_iff_gt.mpr above]
        rfl

/-- By value, the integer before the equal float. -/
theorem cmpNumber_eq (m n : Number) :
    cmpNumber m n = (compare m.value n.value).then (compare m.isFloat n.isFloat) := by
  have wide {i : ℤ} (low : -2 ^ 63 ≤ i) (high : i < 2 ^ 64) : -2 ^ 127 ≤ i ∧ i < 2 ^ 127 := by omega
  cases m with
  | integer i low high =>
      cases n with
      | integer j low' high' =>
          change compare i j = (compare (i : ℚ) (j : ℚ)).then .eq
          rw [Ordering.then_eq]
          rcases lt_trichotomy i j with less | rfl | more
          · rw [compare_lt_iff_lt.mpr less, compare_lt_iff_lt.mpr (Int.cast_lt.mpr less)]
          · rw [compare_eq_iff_eq.mpr rfl, compare_eq_iff_eq.mpr rfl]
          · rw [compare_gt_iff_gt.mpr more, compare_gt_iff_gt.mpr (Int.cast_lt.mpr more)]
      | float g =>
          change (cmpIntFloat i g).then .lt = (compare (i : ℚ) g.value).then .lt
          rw [cmpIntFloat_eq (wide low high).1 (wide low high).2]
  | float f =>
      cases n with
      | integer j low' high' =>
          change (cmpIntFloat j f).swap.then .gt = (compare f.value (j : ℚ)).then .gt
          rw [cmpIntFloat_eq (wide low' high').1 (wide low' high').2, ← compare_swap]
      | float g =>
          change compare f.value g.value = (compare f.value g.value).then .eq
          rw [Ordering.then_eq]

/-! ## Trees of documents -/

/-- A value without parts. -/
inductive Scalar where
  | null
  | bool (b : Bool)
  | number (exact : ℚ × Bool)
  | text (s : String)

namespace Scalar

def cmp : Scalar → Scalar → Ordering
  | .null, .null => .eq
  | .null, .bool _ | .null, .number _ | .null, .text _ => .lt
  | .bool _, .null => .gt
  | .bool a, .bool b => compare a b
  | .bool _, .number _ | .bool _, .text _ => .lt
  | .number _, .null | .number _, .bool _ => .gt
  | .number a, .number b => fieldCmp compare a b
  | .number _, .text _ => .lt
  | .text _, .null | .text _, .bool _ | .text _, .number _ => .gt
  | .text a, .text b => compare a b

theorem cmp_ordered : Ordered cmp where
  eq_iff a b := by
    cases a <;> cases b <;> simp [cmp, fieldCmp_eq]
  swap a b := by
    cases a <;> cases b <;> first
      | rfl
      | exact compare_swap _ _
      | exact fieldCmp_swap (compare_swap _) _
  trans a b c low low' := by
    cases a <;> cases b <;> cases c <;> first
      | rfl
      | exact Ordering.noConfusion low
      | exact Ordering.noConfusion low'
      | exact compare_trans low low'
      | exact fieldCmp_trans (fun y z => compare_trans) _ _ low low'

end Scalar

namespace JsonValue

/-- The tree of a value: exact numbers, members by key. -/
def denote : JsonValue → Tree String Scalar
  | .null => .leaf .null
  | .bool b => .leaf (.bool b)
  | .number n => .leaf (.number (n.value, n.isFloat))
  | .string s => .leaf (.text s)
  | .array elems => .list (elems.attach.map fun v => denote v.1)
  | .object members => .record ((sortedMembers members).attach.map fun m => (m.1.1, denote m.1.2))
termination_by v => sizeOf v
decreasing_by
  · have small := sizeOf_elem v.2
    rw [array.sizeOf_spec]
    omega
  · have small := sizeOf_member (mem_sortedMembers.mp m.2)
    rw [object.sizeOf_spec]
    omega

theorem denote_array (elems : List JsonValue) : denote (.array elems) = .list (elems.map denote) := by
  rw [denote, List.attach_map_val]

theorem denote_object (members : List (String × JsonValue)) :
    denote (.object members) = .record ((sortedMembers members).map fun m => (m.1, denote m.2)) := by
  rw [denote, List.attach_map_val (f := fun m : String × JsonValue => (m.1, denote m.2))]

theorem cmpArray_eq (a b : List JsonValue) : cmpArray a b = lexCmp cmpValue a b := by
  rw [cmpArray, lexCmp, List.attach_map_val (f := fun pair : JsonValue × JsonValue => cmpValue pair.1 pair.2)]

theorem cmpObject_eq (a b : List (String × JsonValue)) :
    cmpObject a b = lexCmp (fieldCmp cmpValue) (sortedMembers a) (sortedMembers b) := by
  have long (m : List (String × JsonValue)) : (sortedMembers m).length = m.length := List.length_mergeSort m
  rw [cmpObject, lexCmp, long, long,
    ← List.attach_map_val (f := fun pair : (String × JsonValue) × (String × JsonValue) => fieldCmp cmpValue pair.1 pair.2)]
  rfl

/-- Values of different types compare by their types, and so do their trees. -/
theorem cmp_apart {a b : JsonValue} (apart : compare a.typeOrder b.typeOrder ≠ .eq) :
    cmpValue a b = compare a.typeOrder b.typeOrder ∧ Tree.cmp Scalar.cmp a.denote b.denote = compare a.typeOrder b.typeOrder := by
  constructor
  · rw [cmpValue.eq_def]
    cases types : compare a.typeOrder b.typeOrder with
    | lt => rfl
    | gt => rfl
    | eq => exact absurd types apart
  · cases a <;> cases b <;> first
      | exact absurd rfl apart
      | simp only [denote, Tree.cmp]; rfl

/-- Values compare like their trees. -/
theorem cmpValue_eq (a : JsonValue) : ∀ b, cmpValue a b = Tree.cmp Scalar.cmp a.denote b.denote := by
  have leaf {a b : JsonValue} {x y : Scalar} (first : a.denote = .leaf x) (second : b.denote = .leaf y)
      (same : cmpValue a b = Scalar.cmp x y) : cmpValue a b = Tree.cmp Scalar.cmp a.denote b.denote := by
    rw [first, second, Tree.cmp, same]
  have other {a b : JsonValue} (apart : compare a.typeOrder b.typeOrder ≠ .eq) :
      cmpValue a b = Tree.cmp Scalar.cmp a.denote b.denote := (cmp_apart apart).1.trans (cmp_apart apart).2.symm
  induction a using JsonValue.induction with
  | null =>
      intro b
      cases b with
      | null => exact leaf (by rw [denote]) (by rw [denote]) (by rw [cmpValue.eq_def]; rfl)
      | _ => exact other Ordering.noConfusion
  | bool x =>
      intro b
      cases b with
      | bool y => exact leaf (by rw [denote]) (by rw [denote]) (by rw [cmpValue.eq_def]; rfl)
      | _ => exact other Ordering.noConfusion
  | number m =>
      intro b
      cases b with
      | number n =>
          refine leaf (by rw [denote]) (by rw [denote]) ?_
          rw [cmpValue.eq_def]
          exact cmpNumber_eq m n
      | _ => exact other Ordering.noConfusion
  | string s =>
      intro b
      cases b with
      | string t => exact leaf (by rw [denote]) (by rw [denote]) (by rw [cmpValue.eq_def]; rfl)
      | _ => exact other Ordering.noConfusion
  | array elems ih =>
      intro b
      cases b with
      | array elems' =>
          rw [cmpValue.eq_def, denote_array, denote_array, Tree.cmp_list]
          change cmpArray elems elems' = _
          rw [cmpArray_eq, lexCmp_map ih]
      | _ => exact other Ordering.noConfusion
  | object members ih =>
      intro b
      cases b with
      | object members' =>
          rw [cmpValue.eq_def, denote_object, denote_object, Tree.cmp_record]
          change cmpObject members members' = _
          refine (cmpObject_eq members members').trans (lexCmp_map ?_ _)
          intro m member m'
          rw [fieldCmp, fieldCmp, ih m (mem_sortedMembers.mp member)]
      | _ => exact other Ordering.noConfusion

/-! ## Hashes -/

/-- Numbers of one value and one kind feed the hasher the same, the zeros included. -/
theorem hashNumber_eq {m n : Number} (values : m.value = n.value) (kinds : m.isFloat = n.isFloat) : hashNumber m = hashNumber n := by
  cases m with
  | integer i low high =>
      cases n with
      | integer j low' high' =>
          obtain rfl : i = j := Int.cast_injective values
          rfl
      | float g => cases kinds
  | float f =>
      cases n with
      | integer j low' high' => cases kinds
      | float g =>
          have values : f.value = g.value := values
          change [HashItem.byte 1, .bits (if f.value = 0 then Binary64.zero else f).toBits] =
            [HashItem.byte 1, .bits (if g.value = 0 then Binary64.zero else g).toBits]
          by_cases zero : f.value = 0
          · rw [if_pos zero, if_pos (values ▸ zero)]
          · have some_ : f.scaled ≠ 0 := by
              intro none_
              apply zero
              rw [Binary64.value, none_, Int.cast_zero, zero_div]
            rw [Binary64.value_injective values some_]

theorem hashValue_array (elems : List JsonValue) :
    hashValue (.array elems) = .discriminant 4 :: .length elems.length :: elems.flatMap hashValue := by
  rw [hashValue, List.flatMap, List.attach_map_val, List.flatMap]

theorem hashValue_object (members : List (String × JsonValue)) :
    hashValue (.object members) = .discriminant 5 :: .length members.length ::
      (sortedMembers members).flatMap fun m => .text m.1 :: hashValue m.2 := by
  rw [hashValue, List.flatMap, List.attach_map_val (f := fun m : String × JsonValue => .text m.1 :: hashValue m.2), List.flatMap]

/-- Pieces that depend on the images of the members are the same for lists of one image. -/
theorem flatMap_eq_of_map_eq {α β γ : Type} {f : α → β} {g : α → List γ} {xs : List α}
    (members : ∀ x ∈ xs, ∀ y, f x = f y → g x = g y) : ∀ {ys : List α}, xs.map f = ys.map f → xs.flatMap g = ys.flatMap g := by
  induction xs with
  | nil =>
      intro ys same
      rw [List.map_eq_nil_iff.mp same.symm]
  | cons x xs ih =>
      obtain ⟨first, others⟩ := List.forall_mem_cons.mp members
      intro ys same
      cases ys with
      | nil => cases same
      | cons y ys =>
          obtain ⟨head, tail⟩ := List.cons.inj same
          rw [List.flatMap_cons, List.flatMap_cons, first y head, ih others tail]

/-- What is fed to a hasher depends on the tree. -/
theorem hashValue_eq (a : JsonValue) : ∀ b, a.denote = b.denote → hashValue a = hashValue b := by
  induction a using JsonValue.induction with
  | null =>
      intro b same
      cases b <;> simp only [denote] at same <;> cases same
      rfl
  | bool x =>
      intro b same
      cases b <;> simp only [denote] at same <;> cases same
      rfl
  | number m =>
      intro b same
      cases b with
      | number n =>
          rw [denote, denote] at same
          have exact_ : (m.value, m.isFloat) = (n.value, n.isFloat) := Scalar.number.inj (Tree.leaf.inj same)
          rw [hashValue, hashValue, hashNumber_eq (congrArg Prod.fst exact_) (congrArg Prod.snd exact_)]
      | _ =>
          simp only [denote] at same
          cases same
  | string s =>
      intro b same
      cases b <;> simp only [denote] at same <;> cases same
      rfl
  | array elems ih =>
      intro b same
      cases b with
      | array elems' =>
          rw [denote_array, denote_array, Tree.list.injEq] at same
          have long : elems.length = elems'.length := by simpa using congrArg List.length same
          rw [hashValue_array, hashValue_array, long, flatMap_eq_of_map_eq ih same]
      | _ =>
          simp only [denote] at same
          cases same
  | object members ih =>
      intro b same
      cases b with
      | object members' =>
          rw [denote_object, denote_object, Tree.record.injEq] at same
          have long : members.length = members'.length := by
            have images := congrArg List.length same
            rwa [List.length_map, List.length_map, sortedMembers, sortedMembers, List.length_mergeSort, List.length_mergeSort] at images
          have pieces (m : String × JsonValue) (member : m ∈ sortedMembers members) (m' : String × JsonValue)
              (alike : (m.1, denote m.2) = (m'.1, denote m'.2)) :
              HashItem.text m.1 :: hashValue m.2 = .text m'.1 :: hashValue m'.2 := by
            obtain ⟨keys, values⟩ := Prod.mk.inj alike
            rw [keys, ih m (mem_sortedMembers.mp member) m'.2 values]
          rw [hashValue_object, hashValue_object, long, flatMap_eq_of_map_eq pieces same]
      | _ =>
          simp only [denote] at same
          cases same

/-! ## The order of the keys -/

/-- The same value with the members of objects in other orders, anywhere inside. -/
inductive Reordered : JsonValue → JsonValue → Prop
  | refl (v : JsonValue) : Reordered v v
  | members {members members' : List (String × JsonValue)} (perm : members.Perm members') :
      Reordered (.object members) (.object members')
  | element {v v' : JsonValue} (front back : List JsonValue) (inside : Reordered v v') :
      Reordered (.array (front ++ v :: back)) (.array (front ++ v' :: back))
  | member {v v' : JsonValue} (key : String) (front back : List (String × JsonValue)) (inside : Reordered v v') :
      Reordered (.object (front ++ (key, v) :: back)) (.object (front ++ (key, v') :: back))
  | trans {v v' v'' : JsonValue} (first : Reordered v v') (second : Reordered v' v'') : Reordered v v''

/-- Sorting by key brings members with distinct keys into one order. -/
theorem sortedMembers_perm {members members' : List (String × JsonValue)} (perm : members.Perm members')
    (distinct : (members.map Prod.fst).Nodup) : sortedMembers members = sortedMembers members' := by
  have sorted (m : List (String × JsonValue)) : (sortedMembers m).Pairwise fun x y => x.1 ≤ y.1 := by
    refine (List.pairwise_mergeSort ?_ ?_ m).imp of_decide_eq_true
    · intro x y z first second
      exact decide_eq_true ((of_decide_eq_true first).trans (of_decide_eq_true second))
    · intro x y
      rw [Bool.or_eq_true, decide_eq_true_eq, decide_eq_true_eq]
      exact le_total x.1 y.1
  refine List.Perm.eq_of_pairwise ?_ (sorted members) (sorted members')
    ((List.mergeSort_perm members _).trans (perm.trans (List.mergeSort_perm members' _).symm))
  intro x y inside inside' below above
  have member : y ∈ members := perm.mem_iff.mpr (mem_sortedMembers.mp inside')
  exact List.inj_on_of_nodup_map distinct (mem_sortedMembers.mp inside) member (le_antisymm below above)

/-- The fields of the tree are the sorted fields of the members. -/
theorem denote_object_sorted (members : List (String × JsonValue)) :
    denote (.object members) = .record ((members.map fun m => (m.1, denote m.2)).mergeSort fun f g => f.1 ≤ g.1) := by
  rw [denote_object]
  exact congrArg Tree.record (List.map_mergeSort fun _ _ _ _ => rfl)

/-- The order of the keys leaves the tree as it is. -/
theorem Reordered.denote_eq {v v' : JsonValue} (reordered : Reordered v v') :
    v.WellFormed → v'.WellFormed ∧ v.denote = v'.denote := by
  induction reordered with
  | refl v => exact fun wf => ⟨wf, rfl⟩
  | @members members members' perm =>
      intro wf
      cases wf with
      | object distinct inside =>
          refine ⟨.object ((perm.map Prod.fst).nodup_iff.mp distinct) fun m member => inside m (perm.mem_iff.mpr member), ?_⟩
          rw [denote_object, denote_object, sortedMembers_perm perm distinct]
  | element front back _ ih =>
      intro wf
      cases wf with
      | array inside =>
          obtain ⟨first, middle⟩ := List.forall_mem_append.mp inside
          obtain ⟨here, last⟩ := List.forall_mem_cons.mp middle
          obtain ⟨wf, same⟩ := ih here
          refine ⟨.array (List.forall_mem_append.mpr ⟨first, List.forall_mem_cons.mpr ⟨wf, last⟩⟩), ?_⟩
          rw [denote_array, denote_array, List.map_append, List.map_append, List.map_cons, List.map_cons, same]
  | member key front back _ ih =>
      intro wf
      cases wf with
      | object distinct inside =>
          obtain ⟨first, middle⟩ := List.forall_mem_append.mp inside
          obtain ⟨here, last⟩ := List.forall_mem_cons.mp middle
          obtain ⟨wf, same⟩ := ih here
          refine ⟨.object ?_ (List.forall_mem_append.mpr ⟨first, List.forall_mem_cons.mpr ⟨wf, last⟩⟩), ?_⟩
          · rw [List.map_append, List.map_cons] at distinct ⊢
            exact distinct
          · rw [denote_object_sorted, denote_object_sorted, List.map_append, List.map_append, List.map_cons, List.map_cons, same]
  | trans _ _ ih ih' =>
      intro wf
      obtain ⟨wf, first⟩ := ih wf
      obtain ⟨wf, second⟩ := ih' wf
      exact ⟨wf, first.trans second⟩

namespace Json

/-- The tree of a value. -/
def denote (a : Json) : Tree String Scalar := a.value.denote

theorem cmp_eq (a b : Json) : cmp a b = Tree.cmp Scalar.cmp a.denote b.denote := a.value.cmpValue_eq b.value

theorem cmp_eq_iff {a b : Json} : cmp a b = .eq ↔ a.denote = b.denote := by
  rw [cmp_eq, (Tree.cmp_ordered Scalar.cmp_ordered).eq_iff]

theorem cmp_swap (a b : Json) : cmp b a = (cmp a b).swap := by
  rw [cmp_eq, cmp_eq, (Tree.cmp_ordered Scalar.cmp_ordered).swap]

theorem cmp_trans {a b c : Json} (first : (cmp a b).isLE) (second : (cmp b c).isLE) : (cmp a c).isLE := by
  rw [cmp_eq] at first second ⊢
  exact (Tree.cmp_ordered Scalar.cmp_ordered).isLE_trans first second

theorem beq_iff {a b : Json} : (a == b) = true ↔ cmp a b = .eq := by
  change (cmp a b == .eq) = true ↔ _
  rw [beq_iff_eq]

/-- The comparison is a total order whose equality is the equality of the values: numbers are
ordered by their exact values, an integer before the equal float, equal values hash the same and
the order of keys does not matter. -/
theorem cmp_total_order :
    (∀ a : Json, cmp a a = .eq) ∧
    (∀ a b : Json, (cmp a b).isLE → (cmp b a).isLE → (a == b) = true) ∧
    (∀ a b c : Json, (cmp a b).isLE → (cmp b c).isLE → (cmp a c).isLE) ∧
    (∀ a b : Json, (cmp a b).isLE ∨ (cmp b a).isLE) ∧
    (∀ m n : Number, JsonValue.cmpValue (.number m) (.number n) =
      (compare m.value n.value).then (compare m.isFloat n.isFloat)) ∧
    (∀ a b : Json, (a == b) = true ↔ cmp a b = .eq) ∧
    (∀ a b : Json, (a == b) = true → hash a = hash b) ∧
    ∀ a a' b : Json, a.value.Reordered a'.value → (a == a') = true ∧ cmp a b = cmp a' b ∧ cmp b a = cmp b a' := by
  have ordered := Tree.cmp_ordered Scalar.cmp_ordered (κ := String)
  refine ⟨fun a => cmp_eq_iff.mpr rfl, ?_, fun _ _ _ => cmp_trans, ?_, ?_, fun _ _ => beq_iff, ?_, ?_⟩
  · intro a b low high
    rw [cmp_eq] at low high
    exact beq_iff.mpr (cmp_eq_iff.mpr (ordered.isLE_antisymm low high))
  · intro a b
    rw [cmp_eq, cmp_eq]
    exact ordered.isLE_total a.denote b.denote
  · intro m n
    rw [JsonValue.cmpValue.eq_def]
    exact cmpNumber_eq m n
  · intro a b same
    exact a.value.hashValue_eq b.value (cmp_eq_iff.mp (beq_iff.mp same))
  · intro a a' b reordered
    have same : a.denote = a'.denote := (reordered.denote_eq a.wellFormed).2
    exact ⟨beq_iff.mpr (cmp_eq_iff.mpr same), by rw [cmp_eq, cmp_eq, same], by rw [cmp_eq, cmp_eq, same]⟩

theorem pair_wellFormed {key key' : String} {v v' : JsonValue} (distinct : key ≠ key') (first : v.WellFormed) (second : v'.WellFormed) :
    (JsonValue.object [(key, v), (key', v')]).WellFormed :=
  .object (List.nodup_cons.mpr ⟨fun member => distinct (List.mem_singleton.mp member), List.nodup_singleton key'⟩)
    (List.forall_mem_cons.mpr ⟨first, List.forall_mem_singleton.mpr second⟩)

/-- An object with its two members the other way round. -/
theorem swapped_members_equal : ∃ first second : Json, first.value = .object [("a", .null), ("b", .bool true)] ∧
    second.value = .object [("b", .bool true), ("a", .null)] ∧ (first == second) = true ∧ hash first = hash second := by
  have first : (JsonValue.object [("a", .null), ("b", .bool true)]).WellFormed := pair_wellFormed (by decide) .null .bool
  have second : (JsonValue.object [("b", .bool true), ("a", .null)]).WellFormed := pair_wellFormed (by decide) .bool .null
  obtain ⟨_, _, _, _, _, _, hashed, reorder⟩ := cmp_total_order
  have equal := (reorder ⟨_, first⟩ ⟨_, second⟩ ⟨.null, .null⟩ (.members (.swap _ _ []))).1
  exact ⟨⟨_, first⟩, ⟨_, second⟩, rfl, rfl, equal, hashed _ _ equal⟩

end Json
end JsonValue
end WasmDbms
