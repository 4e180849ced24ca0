import WasmDbms.Db.Value

/-!
# Filters

The evaluation of a filter on a record. LIKE patterns and JSON filters come in
through `Predicates`; they are the only parts of a filter that can raise an error.
-/
namespace WasmDbms

inductive QueryError (J : Type) where
  | primaryKeyConflict
  | uniqueConstraintViolation (field : String)
  | brokenForeignKeyReference (table : String) (key : Value J)
  | foreignKeyConstraintViolation (referencingTable field : String)
  | unknownColumn (name : String)
  | tableNotFound (name : String)
  | missingNonNullableField (name : String)
  | invalidQuery (message : String)
  | aggregateClauseInSelect
  | constraintViolation (message : String)
  | transactionNotFound

/-- LIKE patterns and JSON filters: `Like::parse` with the test the pattern stands
for, `JsonFilter::matches` and `JsonFilter::validate`. -/
structure Predicates (J F : Type) where
  likeParse : String → Except String (String → Bool)
  jsonMatches : F → J → Except (QueryError J) Bool
  jsonValidate : F → Except (QueryError J) Unit

inductive Filter (J F : Type) where
  | eq (field : String) (value : Value J)
  | ne (field : String) (value : Value J)
  | gt (field : String) (value : Value J)
  | lt (field : String) (value : Value J)
  | ge (field : String) (value : Value J)
  | inList (field : String) (values : List (Value J))
  | json (field : String) (filter : F)
  | le (field : String) (value : Value J)
  | like (field : String) (pattern : String)
  | notNull (field : String)
  | isNull (field : String)
  | and (left right : Filter J F)
  | or (left right : Filter J F)
  | not (inner : Filter J F)

section Matches
variable {J F : Type} [LinearOrder J] (P : Predicates J F)

/-- Some column of this name holds a value that passes the test. -/
def anyColumn (field : String) (test : Value J → Bool) (values : Row J) : Bool :=
  values.any fun entry => entry.1.name == field && test entry.2

def matchesJson (field : String) (filter : F) : Option (Value J) → Except (QueryError J) Bool
  | some (.json j) => P.jsonMatches filter j
  | some .null => do
      P.jsonValidate filter
      return false
  | _ => .error (.invalidQuery s!"Column '{field}' is not a Json type")

def matchesLike (pattern : String) (value : Value J) : Except (QueryError J) Bool := do
  let text ← match value with
    | .text s => pure (some s)
    | .null => pure none
    | _ => throw (.invalidQuery "LIKE operator can only be applied to Text values")
  match P.likeParse pattern with
  | .error e => throw (.invalidQuery s!"Invalid LIKE pattern {pattern}: {e}")
  | .ok like => return text.any like

/-- Whether a record matches. `and` and `or` do not look at their second part when
the first one decides. -/
def Filter.matches : Filter J F → Row J → Except (QueryError J) Bool
  | .eq field value, values => .ok (anyColumn field (fun v => v = value) values)
  | .ne field value, values => .ok (anyColumn field (fun v => v ≠ value) values)
  | .gt field value, values => .ok (anyColumn field (fun v => value < v) values)
  | .lt field value, values => .ok (anyColumn field (fun v => v < value) values)
  | .ge field value, values => .ok (anyColumn field (fun v => value ≤ v) values)
  | .le field value, values => .ok (anyColumn field (fun v => v ≤ value) values)
  | .inList field list, values => .ok (anyColumn field (fun v => v ∈ list) values)
  | .json field filter, values => matchesJson P field filter (findColumn field values)
  | .like field pattern, values =>
      match findColumn field values with
      | none => .ok false
      | some value => matchesLike P pattern value
  | .notNull field, values => .ok (anyColumn field (fun v => !v.isNull) values)
  | .isNull field, values => .ok (anyColumn field Value.isNull values)
  | .and left right, values => do
      if ← left.matches values then right.matches values else return false
  | .or left right, values => do
      if ← left.matches values then return true else right.matches values
  | .not inner, values => do return !(← inner.matches values)

end Matches

namespace Filter
variable {J F : Type}

/-- Whether the evaluation can fail: LIKE and JSON predicates. -/
def isFallible : Filter J F → Bool
  | like _ _ | json _ _ => true
  | and left right | or left right => left.isFallible || right.isFallible
  | not inner => inner.isFallible
  | _ => false

/-- `collect_filter_columns`: the columns a filter refers to. -/
def columns : Filter J F → List String
  | eq c _ | ne c _ | gt c _ | lt c _ | ge c _ | inList c _ | json c _ | le c _ | like c _
  | notNull c | isNull c => [c]
  | and left right | or left right => left.columns ++ right.columns
  | not inner => inner.columns

section
variable [LinearOrder J] {P : Predicates J F} {values : Row J}

theorem and_true {left right : Filter J F} (holds : (and left right).matches P values = .ok true) :
    left.matches P values = .ok true ∧ right.matches P values = .ok true := by
  simp only [Filter.matches, bind, Except.bind] at holds
  cases first : left.matches P values with
  | error e => simp [first] at holds
  | ok b => cases b <;> simp_all [pure, Except.pure]

theorem or_true {left right : Filter J F} (holds : (or left right).matches P values = .ok true) :
    left.matches P values = .ok true ∨ right.matches P values = .ok true := by
  simp only [Filter.matches, bind, Except.bind] at holds
  cases first : left.matches P values with
  | error e => simp [first] at holds
  | ok b => cases b <;> simp_all [pure, Except.pure]

/-- A filter without LIKE and JSON predicates raises no error. -/
theorem matches_ok {filter : Filter J F} (safe : filter.isFallible = false) :
    ∃ b, filter.matches P values = .ok b := by
  induction filter with
  | and left right ihl ihr =>
      obtain ⟨safeLeft, safeRight⟩ := Bool.or_eq_false_iff.mp safe
      obtain ⟨b, first⟩ := ihl safeLeft
      obtain ⟨c, second⟩ := ihr safeRight
      cases b <;> simp [Filter.matches, first, second, bind, Except.bind, pure, Except.pure]
  | or left right ihl ihr =>
      obtain ⟨safeLeft, safeRight⟩ := Bool.or_eq_false_iff.mp safe
      obtain ⟨b, first⟩ := ihl safeLeft
      obtain ⟨c, second⟩ := ihr safeRight
      cases b <;> simp [Filter.matches, first, second, bind, Except.bind, pure, Except.pure]
  | not inner ih =>
      obtain ⟨b, whole⟩ := ih safe
      exact ⟨!b, by simp [Filter.matches, whole, bind, Except.bind, pure, Except.pure]⟩
  | json _ _ => cases safe
  | like _ _ => cases safe
  | _ => exact ⟨_, rfl⟩

end
end Filter
end WasmDbms
