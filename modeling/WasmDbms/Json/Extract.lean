import WasmDbms.Db.JsonFilter
import WasmDbms.Json.Order

/-!
# Comparing what a JSON path leads to

`JsonFilter::Extract` turns the value at a path into a database value and compares it with the
target. Numbers are compared by magnitude as long as they fit a decimal; a float that does not is
compared as a document, by the place of its variant.
-/
namespace WasmDbms
open Trees

/-- A document as far as comparisons see it. -/
abbrev JsonTree := Tree String Scalar

instance : LinearOrder JsonTree := (Tree.cmp_ordered Scalar.cmp_ordered).linearOrder

namespace JsonValue
variable (tryFrom : Binary64 → Option ℚ)

/-- The value at the end of a path. -/
def walk : JsonValue → List PathSegment → Option JsonValue
  | current, [] => some current
  | .object members, .key key :: rest => (get members key).bind fun v => walk v rest
  | .array elems, .index i :: rest => elems[i]?.bind fun v => walk v rest
  | _, _ :: _ => none

/-- `json_value_to_dbms_value`; `tryFrom` is `Decimal::try_from` of a float. -/
def jsonValueToDbmsValue : JsonValue → Value JsonTree
  | .null => .null
  | .bool b => .boolean b
  | .number (.integer i _ _) => if i < 2 ^ 63 then .int64 (Int64.ofInt i) else .decimal i
  | .number (.float f) =>
      match tryFrom f with
      | some d => .decimal d
      -- the number does not fit a decimal
      | none => .json (denote (.number (.float f)))
  | .string s => .text s
  | .array elems => .json (denote (.array elems))
  | .object members => .json (denote (.object members))

/-- `extract_at_path`. -/
def extractAtPath (json : JsonValue) (segments : List PathSegment) : Option (Value JsonTree) :=
  (json.walk segments).map (jsonValueToDbmsValue tryFrom)

namespace Json

/-- `JsonFilter::Extract` on a document. -/
def extractMatches (usizeMax : ℕ) (path : String) (json : Json) (comparison : JsonCmp JsonTree) :
    Except (QueryError JsonTree) Bool := do
  let segments ← PathSegment.parsePath usizeMax path
  return comparison.matches (json.value.extractAtPath tryFrom segments)

end Json
end JsonValue

/-! ## Numbers against numbers -/

namespace Number
variable (tryFrom : Binary64 → Option ℚ)

/-- Every integer fits, a float when it has a decimal. -/
def fits : Number → Bool
  | .integer .. => true
  | .float f => (tryFrom f).isSome

/-- A float as its decimal if it has one, and exactly otherwise. -/
def taken : Number → ℚ
  | .integer i _ _ => i
  | .float f => (tryFrom f).getD f.value

end Number

def Value.isUnsigned {J : Type} : Value J → Bool
  | .uint8 _ | .uint16 _ | .uint32 _ | .uint64 _ => true
  | _ => false

/-- The comparisons of a number with a numeric target are those of the numbers. -/
structure Mathematical (run : JsonCmp JsonTree → Except (QueryError JsonTree) Bool) (x : ℚ) (target : Value JsonTree) (t : ℚ) :
    Prop where
  eq : run (.eq target) = .ok (decide (x = t))
  ne : run (.ne target) = .ok (decide (x ≠ t))
  gt : run (.gt target) = .ok (decide (t < x))
  lt : run (.lt target) = .ok (decide (x < t))
  ge : run (.ge target) = .ok (decide (t ≤ x))
  le : run (.le target) = .ok (decide (x ≤ t))

/-- A numeric target; a decimal one holds a decimal. -/
def IsTarget (target : Value JsonTree) (t : ℚ) : Prop := target.number? = some t ∧ ∀ q, target = .decimal q → IsDecimal q

theorem small_int {i : ℤ} (low : -2 ^ 64 ≤ i) (high : i ≤ 2 ^ 64) : |(i : ℚ)| < 2 ^ 96 := by
  have short : |i| < 2 ^ 96 := abs_lt.mpr ⟨by omega, by omega⟩
  rw [← Int.cast_abs]
  exact_mod_cast short

/-- A target is smaller than what does not fit a decimal. -/
theorem IsTarget.small {target : Value JsonTree} {t : ℚ} (numeric : IsTarget target t) : |t| < 2 ^ 96 := by
  obtain ⟨number, decimal⟩ := numeric
  cases target with
  | decimal q =>
      obtain rfl := Option.some.inj number
      obtain ⟨m, scale, _, short, rfl⟩ := decimal q rfl
      have positive : (1 : ℚ) ≤ 10 ^ scale := one_le_pow₀ (by norm_num)
      have digits : |(m : ℚ)| < 2 ^ 96 := by
        rw [← Int.cast_abs]
        exact_mod_cast short
      obtain ⟨low, high⟩ := abs_lt.mp digits
      have power : (0 : ℚ) < 10 ^ scale := zero_lt_one.trans_le positive
      refine abs_lt.mpr ⟨(lt_div_iff₀ power).mpr ?_, (div_lt_iff₀ power).mpr ?_⟩
      · nlinarith
      · nlinarith
  | int8 i =>
      obtain rfl := Option.some.inj number
      exact small_int (by have := i.le_toInt; omega) (by have := i.toInt_lt; omega)
  | int16 i =>
      obtain rfl := Option.some.inj number
      exact small_int (by have := i.le_toInt; omega) (by have := i.toInt_lt; omega)
  | int32 i =>
      obtain rfl := Option.some.inj number
      exact small_int (by have := i.le_toInt; omega) (by have := i.toInt_lt; omega)
  | int64 i =>
      obtain rfl := Option.some.inj number
      exact small_int (by have := i.le_toInt; omega) (by have := i.toInt_lt; omega)
  | uint8 n =>
      obtain rfl := Option.some.inj number
      exact small_int (i := n.toNat) (by omega) (by have := n.toNat_lt; omega)
  | uint16 n =>
      obtain rfl := Option.some.inj number
      exact small_int (i := n.toNat) (by omega) (by have := n.toNat_lt; omega)
  | uint32 n =>
      obtain rfl := Option.some.inj number
      exact small_int (i := n.toNat) (by omega) (by have := n.toNat_lt; omega)
  | uint64 n =>
      obtain rfl := Option.some.inj number
      exact small_int (i := n.toNat) (by omega) (by have := n.toNat_lt; omega)
  | _ => cases number

namespace JsonValue
variable {tryFrom : Binary64 → Option ℚ}

/-- A number that fits becomes a value of that number. -/
theorem number_fits {n : Number} (fits : n.fits tryFrom = true) :
    (jsonValueToDbmsValue tryFrom (.number n)).number? = some (n.taken tryFrom) := by
  cases n with
  | integer i low high =>
      rw [jsonValueToDbmsValue]
      split
      · rename_i small
        exact congrArg (fun j : ℤ => some (j : ℚ)) (Int64.toInt_ofInt_of_le low small)
      · rfl
  | float f =>
      obtain ⟨d, converted⟩ := Option.isSome_iff_exists.mp fits
      rw [jsonValueToDbmsValue, Number.taken, converted]
      rfl

/-- A number that does not fit stays a document. -/
theorem number_beyond {n : Number} (beyond : n.fits tryFrom = false) :
    ∃ f, n = .float f ∧ tryFrom f = none ∧ ∃ tree, jsonValueToDbmsValue tryFrom (.number n) = .json tree := by
  cases n with
  | integer => cases beyond
  | float f =>
      have none_ : tryFrom f = none := Option.isSome_eq_false_iff.mp beyond |> Option.isNone_iff_eq_none.mp
      refine ⟨f, rfl, none_, denote (.number (.float f)), ?_⟩
      rw [jsonValueToDbmsValue, none_]

/-- A document stands behind the signed numbers and the decimals, before the unsigned numbers. -/
theorem compare_document {tree : JsonTree} {target : Value JsonTree} {t : ℚ} (number : target.number? = some t) :
    compareValues (.json tree) target = if target.isUnsigned then .lt else .gt := by
  have whole : compareValues (.json tree) target = cmp (.json tree) target := by
    rw [compareValues, number]
    rfl
  have place : if target.isUnsigned then (Value.json tree).tag < target.tag else target.tag < (Value.json tree).tag := by
    cases target <;> first
      | (simp [Value.isUnsigned, Value.tag]; done)
      | cases number
  rw [whole]
  split at place
  · rename_i unsigned
    rw [if_pos unsigned]
    exact (cmp_eq_lt_iff _ _).mpr (Value.lt_of_tag_lt place)
  · rename_i signed
    rw [if_neg signed]
    exact (cmp_eq_gt_iff _ _).mpr (Value.lt_of_tag_lt place)

/-! ## When the comparisons are mathematical -/

section Filter
variable {usizeMax : ℕ} {path : String} {json : Json} {segments : List PathSegment} {n : Number}

/-- The filter tests the order of the value and the target. -/
theorem extractMatches_eq (parsed : (PathSegment.parsePath usizeMax path : Except (QueryError JsonTree) _) = .ok segments)
    (leads : json.value.walk segments = some (.number n)) (comparison : JsonCmp JsonTree) :
    json.extractMatches tryFrom usizeMax path comparison =
      .ok (comparison.matches (some (jsonValueToDbmsValue tryFrom (.number n)))) := by
  rw [Json.extractMatches, parsed]
  change Except.ok (comparison.matches ((json.value.walk segments).map (jsonValueToDbmsValue tryFrom))) = _
  rw [leads]
  rfl

/-- The tests of an order between two numbers. -/
theorem tests_cmp (x t : ℚ) : (cmp x t).isEq = decide (x = t) ∧ (cmp x t).isNe = decide (x ≠ t) ∧ (cmp x t).isGT = decide (t < x) ∧
    (cmp x t).isLT = decide (x < t) ∧ (cmp x t).isGE = decide (t ≤ x) ∧ (cmp x t).isLE = decide (x ≤ t) := by
  rcases lt_trichotomy x t with low | rfl | high
  · rw [(cmp_eq_lt_iff x t).mpr low]
    simp [low.ne, low, low.le, low.not_gt, low.not_ge]
  · rw [cmp_self_eq_eq]
    simp
  · rw [(cmp_eq_gt_iff x t).mpr high]
    simp [high.ne', high, high.le, high.not_gt, high.not_ge]

theorem ordering_ext {o p : Ordering} (greater : o.isGT = p.isGT) (less : o.isLT = p.isLT) : o = p := by
  cases o <;> cases p <;> first
    | rfl
    | exact Bool.noConfusion greater
    | exact Bool.noConfusion less

/-- The comparisons are mathematical exactly when the order is that of the numbers. -/
theorem mathematical_iff (parsed : (PathSegment.parsePath usizeMax path : Except (QueryError JsonTree) _) = .ok segments)
    (leads : json.value.walk segments = some (.number n)) {target : Value JsonTree} {x t : ℚ} :
    Mathematical (json.extractMatches tryFrom usizeMax path) x target t ↔
      compareValues (jsonValueToDbmsValue tryFrom (.number n)) target = cmp x t := by
  have run (comparison : JsonCmp JsonTree) : json.extractMatches tryFrom usizeMax path comparison =
      .ok (comparison.matches (some (jsonValueToDbmsValue tryFrom (.number n)))) := extractMatches_eq parsed leads comparison
  obtain ⟨eq, ne, gt, lt, ge, le⟩ := tests_cmp x t
  constructor
  · rintro ⟨_, _, greater, less, _, _⟩
    rw [run, Except.ok.injEq, ← gt] at greater
    rw [run, Except.ok.injEq, ← lt] at less
    change (compareValues _ target).isGT = _ at greater
    change (compareValues _ target).isLT = _ at less
    exact ordering_ext greater less
  · intro same
    constructor <;> rw [run]
    · rw [← eq, ← same]
      rfl
    · rw [← ne, ← same]
      rfl
    · rw [← gt, ← same]
      rfl
    · rw [← lt, ← same]
      rfl
    · rw [← ge, ← same]
      rfl
    · rw [← le, ← same]
      rfl

/-- The number and the target compare like numbers, or else the number does not fit and the variant
of the target is on the wrong side. -/
theorem compareValues_number (refused : ∀ f, tryFrom f = none → 2 ^ 96 ≤ |f.value|) {target : Value JsonTree} {t : ℚ}
    (numeric : IsTarget target t) :
    compareValues (jsonValueToDbmsValue tryFrom (.number n)) target = cmp (n.taken tryFrom) t ↔
      n.fits tryFrom = true ∨ if target.isUnsigned then n.value < 0 else 0 < n.value := by
  by_cases fits : n.fits tryFrom = true
  · refine ⟨fun _ => .inl fits, fun _ => ?_⟩
    rw [compareValues, number_fits fits, numeric.1]
  · obtain ⟨f, rfl, none_, tree, document⟩ := number_beyond (Bool.eq_false_iff.mpr fits)
    have taken : (Number.float f).taken tryFrom = f.value := by
      rw [Number.taken, none_]
      rfl
    have far := refused f none_
    obtain ⟨low, high⟩ := abs_lt.mp numeric.small
    rw [document, compare_document numeric.1, taken, or_iff_right fits]
    change _ ↔ if target.isUnsigned then f.value < 0 else 0 < f.value
    -- the number is beyond every target, on the side of its sign
    rcases le_abs.mp far with above | below
    · have order : cmp f.value t = .gt := (cmp_eq_gt_iff _ _).mpr (high.trans_le above)
      have positive : 0 < f.value := lt_of_lt_of_le (by norm_num) above
      rw [order]
      cases target.isUnsigned with
      | true => simp [positive.le]
      | false => simp [positive]
    · have order : cmp f.value t = .lt := (cmp_eq_lt_iff _ _).mpr (by linarith)
      have negative : f.value < 0 := by linarith [show (0 : ℚ) < 2 ^ 96 by norm_num]
      rw [order]
      cases target.isUnsigned with
      | true => simp [negative]
      | false => simp [negative.le]

/-- A document is never equal to a number, and one that does not fit equals no target. -/
theorem equal_targets (refused : ∀ f, tryFrom f = none → 2 ^ 96 ≤ |f.value|) {target : Value JsonTree} {t : ℚ}
    (numeric : IsTarget target t) :
    (compareValues (jsonValueToDbmsValue tryFrom (.number n)) target).isEq = decide (n.taken tryFrom = t) := by
  by_cases fits : n.fits tryFrom = true
  · rw [(compareValues_number refused numeric).mpr (.inl fits), (tests_cmp _ _).1]
  · obtain ⟨f, rfl, none_, tree, document⟩ := number_beyond (Bool.eq_false_iff.mpr fits)
    have other : (Number.float f).taken tryFrom ≠ t := by
      rw [Number.taken, none_]
      rintro rfl
      exact absurd (refused f none_) (not_le.mpr numeric.small)
    rw [document, compare_document numeric.1, decide_eq_false other]
    cases target.isUnsigned <;> rfl

end Filter

namespace Json

/-- A filter that extracts a number compares it with a numeric target like numbers exactly when
the number fits a decimal or lies on the side where its variant is. It looks a number up in a
list of targets correctly in any case, and one of less, equal and greater holds. -/
theorem extract_compares (tryFrom : Binary64 → Option ℚ) (refused : ∀ f, tryFrom f = none → 2 ^ 96 ≤ |f.value|)
    (usizeMax : ℕ) (path : String) (json : Json) (segments : List PathSegment) (n : Number)
    (parsed : (PathSegment.parsePath usizeMax path : Except (QueryError JsonTree) _) = .ok segments)
    (leads : json.value.walk segments = some (.number n)) :
    (∀ targets : List (Value JsonTree), (∀ v ∈ targets, ∃ t, IsTarget v t) →
      json.extractMatches tryFrom usizeMax path (.inList targets) =
        .ok (decide (∃ v ∈ targets, v.number? = some (n.taken tryFrom)))) ∧
    ∀ (target : Value JsonTree) (t : ℚ), IsTarget target t →
      (∃ order : Ordering, json.extractMatches tryFrom usizeMax path (.lt target) = .ok order.isLT ∧
        json.extractMatches tryFrom usizeMax path (.eq target) = .ok order.isEq ∧
        json.extractMatches tryFrom usizeMax path (.gt target) = .ok order.isGT) ∧
      (Mathematical (json.extractMatches tryFrom usizeMax path) (n.taken tryFrom) target t ↔
        n.fits tryFrom = true ∨ if target.isUnsigned then n.value < 0 else 0 < n.value) := by
  have run (comparison : JsonCmp JsonTree) : json.extractMatches tryFrom usizeMax path comparison =
      .ok (comparison.matches (some (jsonValueToDbmsValue tryFrom (.number n)))) := extractMatches_eq parsed leads comparison
  refine ⟨?_, ?_⟩
  · intro targets numeric
    rw [run, Except.ok.injEq]
    change (targets.any fun target => (compareValues _ target).isEq) = _
    rw [Bool.eq_iff_iff, List.any_eq_true, decide_eq_true_eq]
    refine exists_congr fun v => and_congr_right fun member => ?_
    obtain ⟨t, number, decimal⟩ := numeric v member
    rw [equal_targets refused ⟨number, decimal⟩, decide_eq_true_eq, number, Option.some.injEq, eq_comm]
  · intro target t numeric
    refine ⟨⟨_, run _, run _, run _⟩, ?_⟩
    rw [mathematical_iff parsed leads, compareValues_number refused numeric]

/-- A conversion that takes the floats below the bound of decimals. -/
def belowDecimals (f : Binary64) : Option ℚ := if |f.value| < 2 ^ 96 then some f.value else none

theorem belowDecimals_refused (f : Binary64) (none_ : belowDecimals f = none) : 2 ^ 96 ≤ |f.value| := by
  rw [belowDecimals] at none_
  split at none_
  · cases none_
  · rename_i far
    exact not_lt.mp far

theorem single_wellFormed (n : Number) : (JsonValue.array [.number n]).WellFormed := .array (List.forall_mem_singleton.mpr .number)

/-- An integer against an unsigned one. -/
theorem integer_extracted : Mathematical (extractMatches belowDecimals 4294967295 "[0]"
    ⟨.array [.number (.integer 42 (by decide) (by decide))], single_wellFormed _⟩) 42 (.uint8 42) 42 := by
  have numeric : IsTarget (.uint8 42) 42 := by
    refine ⟨rfl, ?_⟩
    intro q same
    cases same
  exact (((extract_compares belowDecimals belowDecimals_refused 4294967295 "[0]"
    ⟨.array [.number (.integer 42 (by decide) (by decide))], single_wellFormed _⟩ [.index 0] _ (by rfl) (by rfl)).2
    (.uint8 42) 42 numeric).2).mpr (.inl rfl)

/-- Two to the power of a hundred, which is no decimal. -/
def huge : Binary64 := ⟨false, ⟨1123, Nat.le_of_ble_eq_true rfl⟩, ⟨0, Nat.le_of_ble_eq_true rfl⟩⟩

theorem huge_value : huge.value = 2 ^ 100 := by
  have lead : huge.significand = 2 ^ 52 := rfl
  have long : huge.shift = Binary64.places + 48 := by
    rw [Binary64.places_eq]
    rfl
  have magnitude : huge.magnitude = 2 ^ 100 * Binary64.unit := by
    rw [Binary64.magnitude, lead, long, Binary64.unit, Nat.pow_add]
    ring
  have scaled : huge.scaled = ((2 ^ 100 * Binary64.unit : ℕ) : ℤ) := congrArg Nat.cast magnitude
  rw [Binary64.value, scaled, Int.cast_natCast, Nat.cast_mul, mul_div_cancel_right₀ _ Binary64.unit_ne_zero]
  norm_num

/-- A huge float is greater than a signed one and less than an unsigned one. -/
theorem huge_float_changes_sides : ∃ json : Json, json.value = .array [.number (.float huge)] ∧
    json.extractMatches belowDecimals 4294967295 "[0]" (.gt (.int64 1)) = .ok true ∧
    json.extractMatches belowDecimals 4294967295 "[0]" (.gt (.uint64 1)) = .ok false ∧
    ¬Mathematical (json.extractMatches belowDecimals 4294967295 "[0]") ((Number.float huge).taken belowDecimals) (.uint64 1) 1 := by
  have none_ : belowDecimals huge = none := by
    rw [belowDecimals, huge_value]
    exact if_neg (by norm_num)
  have taken : (Number.float huge).taken belowDecimals = 2 ^ 100 := by
    rw [Number.taken, none_, ← huge_value]
    rfl
  have beyond : (Number.float huge).fits belowDecimals = false := by
    rw [Number.fits, none_]
    rfl
  obtain ⟨_, _, _, tree, document⟩ := number_beyond beyond
  have run (comparison : JsonCmp JsonTree) : extractMatches belowDecimals 4294967295 "[0]"
      ⟨.array [.number (.float huge)], single_wellFormed _⟩ comparison = .ok (comparison.matches (some (.json tree))) := by
    rw [← document]
    exact extractMatches_eq (rfl : PathSegment.parsePath 4294967295 "[0]" = .ok [.index 0]) rfl comparison
  have greater (target : Value JsonTree) (t : ℚ) (number : target.number? = some t) :
      JsonCmp.matches (.gt target) (some (.json tree)) = !target.isUnsigned := by
    change (compareValues _ _).isGT = _
    rw [compare_document number]
    cases target.isUnsigned <;> rfl
  refine ⟨⟨_, single_wellFormed (.float huge)⟩, rfl, ?_, ?_, ?_⟩
  · rw [run, greater _ 1 rfl]
    rfl
  · rw [run, greater _ 1 rfl]
    rfl
  · rintro ⟨_, _, above, _, _, _⟩
    rw [run, greater _ 1 rfl, taken, Except.ok.injEq] at above
    have less : (1 : ℚ) < 2 ^ 100 := by norm_num
    rw [decide_eq_true less] at above
    cases above

end Json
end JsonValue
end WasmDbms
