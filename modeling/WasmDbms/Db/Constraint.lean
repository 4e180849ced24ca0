import WasmDbms.Db.Plan

/-!
# What a column constraint denotes

The conjuncts on one column narrow its constraint to the values that all of them allow.
Normalised, it is a point, a list of points, or bounds that `Null` may have to be taken
out of.
-/
namespace WasmDbms
open Sorted

variable {J F : Type} [LinearOrder J]

/-! ## Narrowing -/

namespace Bound
variable {α : Type} [LinearOrder α] {b : Bound α} {x v : α}

theorem le_of_lower (value : b.value? = some x) (admits : b.admitsLower v = true) : x ≤ v := by
  cases b with
  | included z =>
      cases value
      exact of_decide_eq_true admits
  | excluded z =>
      cases value
      exact (of_decide_eq_true admits : x < v).le
  | unbounded => cases value

theorem le_of_upper (value : b.value? = some x) (admits : b.admitsUpper v = true) : v ≤ x := by
  cases b with
  | included z =>
      cases value
      exact of_decide_eq_true admits
  | excluded z =>
      cases value
      exact (of_decide_eq_true admits : v < x).le
  | unbounded => cases value

theorem lower_of_lt (value : b.value? = some x) (above : x < v) : b.admitsLower v = true := by
  cases b with
  | included z =>
      cases value
      exact decide_eq_true above.le
  | excluded z =>
      cases value
      exact decide_eq_true above
  | unbounded => cases value

theorem upper_of_lt (value : b.value? = some x) (below : v < x) : b.admitsUpper v = true := by
  cases b with
  | included z =>
      cases value
      exact decide_eq_true below.le
  | excluded z =>
      cases value
      exact decide_eq_true below
  | unbounded => cases value

omit [LinearOrder α] in
theorem eq_unbounded (none_ : b.value? = none) : b = unbounded := by
  cases b with
  | unbounded => rfl
  | _ => cases none_

end Bound

section Stricter
variable {current new : Bound (Value J)} {v x y : Value J}

theorem stricter_keeps {tighter : Ordering} (hc : current.value? = some x) (hn : new.value? = some y)
    (order : compare x y = tighter) : stricter current new tighter = current := by
  unfold stricter
  rw [hc, hn]
  exact if_pos order

theorem stricter_takes (tighter : Ordering) (hc : current.value? = some x) (hn : new.value? = some y)
    (order : compare x y = tighter.swap) (strict : tighter ≠ .eq) : stricter current new tighter = new := by
  have differs : tighter.swap ≠ tighter := by
    cases tighter with
    | eq => exact absurd rfl strict
    | _ => decide
  unfold stricter
  rw [hc, hn]
  exact (if_neg (order ▸ differs)).trans (if_pos order)

/-- On equal values the exclusive bound is the stricter one. -/
theorem stricter_equal (tighter : Ordering) (hc : current.value? = some x) (hn : new.value? = some x)
    (strict : tighter ≠ .eq) :
    current = .excluded x ∧ stricter current new tighter = current ∨
      current = .included x ∧ stricter current new tighter = new := by
  have same : compare x x ≠ tighter := fun eq => strict (eq.symm.trans (compare_eq_iff_eq.mpr rfl))
  have swapped : compare x x ≠ tighter.swap := by
    rw [compare_eq_iff_eq.mpr rfl]
    cases tighter with
    | eq => exact absurd rfl strict
    | _ => decide
  unfold stricter
  rw [hc, hn]
  dsimp only
  rw [if_neg same, if_neg swapped]
  cases current with
  | included z =>
      cases hc
      exact .inr ⟨rfl, rfl⟩
  | excluded z =>
      cases hc
      exact .inl ⟨rfl, rfl⟩
  | unbounded => cases hc

theorem stricter_left_unbounded {tighter : Ordering} : stricter .unbounded new tighter = new := rfl

theorem stricter_right_unbounded {tighter : Ordering} : stricter current .unbounded tighter = current := by
  cases current <;> rfl

/-- A value lies above the stricter of two lower bounds exactly when it lies above both. -/
theorem stricter_lower : (stricter current new .gt).admitsLower v = true ↔
    current.admitsLower v = true ∧ new.admitsLower v = true := by
  cases hc : current.value? with
  | none =>
      obtain rfl := Bound.eq_unbounded hc
      rw [stricter_left_unbounded]
      exact (and_iff_right rfl).symm
  | some x =>
      cases hn : new.value? with
      | none =>
          obtain rfl := Bound.eq_unbounded hn
          rw [stricter_right_unbounded]
          exact (and_iff_left rfl).symm
      | some y =>
          rcases lt_trichotomy x y with below | rfl | above
          · rw [stricter_takes .gt hc hn (compare_lt_iff_lt.mpr below) (by decide)]
            refine (and_iff_right_of_imp fun admits => ?_).symm
            exact Bound.lower_of_lt hc (below.trans_le (Bound.le_of_lower hn admits))
          · rcases stricter_equal .gt hc hn (by decide) with ⟨rfl, keeps⟩ | ⟨rfl, takes⟩
            · rw [keeps]
              refine (and_iff_left_of_imp fun admits => ?_).symm
              exact Bound.lower_of_lt hn (of_decide_eq_true admits)
            · rw [takes]
              refine (and_iff_right_of_imp fun admits => ?_).symm
              exact decide_eq_true (Bound.le_of_lower hn admits)
          · rw [stricter_keeps hc hn (compare_gt_iff_gt.mpr above)]
            refine (and_iff_left_of_imp fun admits => ?_).symm
            exact Bound.lower_of_lt hn (above.trans_le (Bound.le_of_lower hc admits))

/-- A value lies below the stricter of two upper bounds exactly when it lies below both. -/
theorem stricter_upper : (stricter current new .lt).admitsUpper v = true ↔
    current.admitsUpper v = true ∧ new.admitsUpper v = true := by
  cases hc : current.value? with
  | none =>
      obtain rfl := Bound.eq_unbounded hc
      rw [stricter_left_unbounded]
      exact (and_iff_right rfl).symm
  | some x =>
      cases hn : new.value? with
      | none =>
          obtain rfl := Bound.eq_unbounded hn
          rw [stricter_right_unbounded]
          exact (and_iff_left rfl).symm
      | some y =>
          rcases lt_trichotomy x y with below | rfl | above
          · rw [stricter_keeps hc hn (compare_lt_iff_lt.mpr below)]
            refine (and_iff_left_of_imp fun admits => ?_).symm
            exact Bound.upper_of_lt hn ((Bound.le_of_upper hc admits).trans_lt below)
          · rcases stricter_equal .lt hc hn (by decide) with ⟨rfl, keeps⟩ | ⟨rfl, takes⟩
            · rw [keeps]
              refine (and_iff_left_of_imp fun admits => ?_).symm
              exact Bound.upper_of_lt hn (of_decide_eq_true admits)
            · rw [takes]
              refine (and_iff_right_of_imp fun admits => ?_).symm
              exact decide_eq_true (Bound.le_of_upper hn admits)
          · rw [stricter_takes .lt hc hn (compare_gt_iff_gt.mpr above) (by decide)]
            refine (and_iff_right_of_imp fun admits => ?_).symm
            exact Bound.upper_of_lt hc ((Bound.le_of_upper hn admits).trans_lt above)

end Stricter

namespace ColumnConstraint
variable {c c' : ColumnConstraint J} {v : Value J}

/-- The narrowed constraint allows what both allow. -/
theorem apply_allows {update : Update J} (applied : c.apply update = some c') :
    c'.Allows v ↔ c.Allows v ∧ update.Allows v := by
  refine ⟨fun allows => ?_, fun both => ?_⟩
  · cases update with
    | eq value =>
        rw [ColumnConstraint.apply] at applied
        cases conflict : c.eq.any (· ≠ value) with
        | true =>
            rw [conflict] at applied
            cases applied
        | false =>
            rw [conflict] at applied
            cases applied
            have same : v = value := allows.eq value rfl
            refine ⟨⟨fun known kept => ?_, allows.inList, allows.notNull, allows.lower, allows.upper⟩, same⟩
            rw [kept] at conflict
            exact same.trans (not_not.mp (of_decide_eq_false conflict)).symm
    | inList values =>
        cases applied
        have narrowed : ∀ list, c.inList = some list → v ∈ list ∧ v ∈ sortDedup values := by
          intro list known
          have both := allows.inList _ rfl
          rw [known] at both
          exact ⟨(List.mem_filter.mp both).1, of_decide_eq_true (List.mem_filter.mp both).2⟩
        refine ⟨⟨allows.eq, fun list known => (narrowed list known).1, allows.notNull, allows.lower, allows.upper⟩, ?_⟩
        refine (mem_sortDedup.mp ?_ : v ∈ values)
        cases known : c.inList with
        | none =>
            have listed := allows.inList _ rfl
            rwa [known] at listed
        | some list => exact (narrowed list known).2
    | notNull =>
        cases applied
        exact ⟨⟨allows.eq, allows.inList, fun _ => allows.notNull rfl, allows.lower, allows.upper⟩, allows.notNull rfl⟩
    | lower bound =>
        cases applied
        obtain ⟨current, new⟩ := stricter_lower.mp allows.lower
        exact ⟨⟨allows.eq, allows.inList, allows.notNull, current, allows.upper⟩, new⟩
    | upper bound =>
        cases applied
        obtain ⟨current, new⟩ := stricter_upper.mp allows.upper
        exact ⟨⟨allows.eq, allows.inList, allows.notNull, allows.lower, current⟩, new⟩
  · obtain ⟨found, same, allows⟩ := both.1.apply both.2
    rwa [Option.some.inj (applied.symm.trans same)]

/-! ## Normal forms -/

/-- The bounds hold the value, and it is not a `Null` that has to be left out. -/
structure Within (c : ColumnConstraint J) (v : Value J) : Prop where
  admits : c.admits v = true
  notNull : c.notNull = true → v.isNull = false

/-- The values of a normalised constraint: a point, points or bounds. -/
def Denotes (c : ColumnConstraint J) (v : Value J) : Prop :=
  match c.eq, c.inList with
  | some value, _ => v = value
  | none, some values => v ∈ values
  | none, none => c.Within v

theorem denotes_point {value : Value J} (fixed : c.eq = some value) : c.Denotes v ↔ v = value := by
  rw [Denotes, fixed]

theorem denotes_list {values : List (Value J)} (free : c.eq = none) (list : c.inList = some values) :
    c.Denotes v ↔ v ∈ values := by
  rw [Denotes, free, list]

theorem denotes_bounds (free : c.eq = none) (list : c.inList = none) : c.Denotes v ↔ c.Within v := by
  rw [Denotes, free, list]

/-- What `normalizeList` reaches: the listed values are within the bounds, and a point has
no list beside it. -/
structure Listed (c : ColumnConstraint J) : Prop where
  within : ∀ values, c.inList = some values → ∀ v ∈ values, c.Within v
  point : ∀ value, c.eq = some value → c.inList = none

theorem Allows.within (allows : c.Allows v) : c.Within v := ⟨allows.admits, allows.notNull⟩

theorem Within.allows (within : c.Within v) (eq : ∀ value, c.eq = some value → v = value)
    (inList : ∀ values, c.inList = some values → v ∈ values) : c.Allows v :=
  have bounds := Bool.and_eq_true_iff.mp within.admits
  ⟨eq, inList, within.notNull, bounds.1, bounds.2⟩

/-- The two filters of `normalize` keep the listed values that are within. -/
theorem mem_kept {list : List (Value J)} :
    v ∈ (list.filter c.admits).filter (fun v => !(c.notNull && v.isNull)) ↔ v ∈ list ∧ c.Within v := by
  rw [List.mem_filter, List.mem_filter, and_assoc]
  refine and_congr_right fun _ => ⟨fun both => ⟨both.1, fun flag => ?_⟩, fun within => ⟨within.admits, ?_⟩⟩
  · simpa [flag] using both.2
  · cases flag : c.notNull with
    | false => rfl
    | true => rw [within.notNull flag]; rfl

/-- Reducing the list changes no value. -/
theorem normalizeList_allows (reduced : c.normalizeList = some c') : c'.Allows v ↔ c.Allows v := by
  refine ⟨fun allows => ?_, fun allows => ?_⟩
  · unfold normalizeList at reduced
    cases list : c.inList with
    | none =>
        rw [list] at reduced
        cases reduced
        exact allows
    | some values =>
        rw [list] at reduced
        dsimp only at reduced
        have listed (kept : v ∈ (values.filter c.admits).filter fun v => !(c.notNull && v.isNull))
            (eq : ∀ value, c.eq = some value → v = value) : c.Allows v := by
          obtain ⟨member, within⟩ := mem_kept.mp kept
          exact within.allows eq fun others own => Option.some.inj (list.symm.trans own) ▸ member
        generalize (values.filter c.admits).filter (fun v => !(c.notNull && v.isNull)) = rest at reduced listed
        cases fixed : c.eq with
        | some value =>
            rw [fixed] at reduced
            dsimp only at reduced
            split at reduced
            next member =>
              cases reduced
              obtain rfl := allows.eq value rfl
              exact listed member fun known own => Option.some.inj (fixed.symm.trans own)
            next => cases reduced
        | none =>
            rw [fixed] at reduced
            have free : ∀ value, c.eq = some value → v = value := fun value own => by cases fixed.symm.trans own
            match rest, reduced, listed with
            | [w], reduced, listed =>
                cases reduced
                exact listed (List.mem_singleton.mpr (allows.eq w rfl)) free
            | a :: b :: rest, reduced, listed =>
                cases reduced
                exact listed (allows.inList _ rfl) free
  · obtain ⟨found, same, kept⟩ := allows.normalizeList
    rwa [Option.some.inj (reduced.symm.trans same)]

theorem normalizeList_listed (reduced : c.normalizeList = some c') : c'.Listed := by
  unfold normalizeList at reduced
  cases list : c.inList with
  | none =>
      rw [list] at reduced
      cases reduced
      exact ⟨fun values own => (by cases list.symm.trans own), fun _ _ => list⟩
  | some values =>
      rw [list] at reduced
      dsimp only at reduced
      have kept : ∀ v ∈ (values.filter c.admits).filter (fun v => !(c.notNull && v.isNull)), c.Within v :=
        fun v member => (mem_kept.mp member).2
      generalize (values.filter c.admits).filter (fun v => !(c.notNull && v.isNull)) = rest at reduced kept
      cases fixed : c.eq with
      | some value =>
          rw [fixed] at reduced
          dsimp only at reduced
          split at reduced
          next =>
            cases reduced
            exact ⟨fun _ own => (by cases own), fun _ _ => rfl⟩
          next => cases reduced
      | none =>
          rw [fixed] at reduced
          match rest, reduced, kept with
          | [w], reduced, kept =>
              cases reduced
              exact ⟨fun _ own => (by cases own), fun _ _ => rfl⟩
          | a :: b :: rest, reduced, kept =>
              cases reduced
              exact ⟨fun _ own v member => kept v (Option.some.inj own ▸ member) |> fun w => ⟨w.admits, w.notNull⟩,
                fun _ own => by cases own⟩

/-- What is left of a constraint denotes the values it allowed. -/
theorem normalizeBounds_denotes (listed : c.Listed) (reduced : c.normalizeBounds = some c') :
    c'.Denotes v ↔ c.Allows v := by
  unfold normalizeBounds at reduced
  cases fixed : c.eq with
  | some value =>
      rw [fixed] at reduced
      dsimp only at reduced
      cases outside : (!c.admits value || (c.notNull && value.isNull)) with
      | true =>
          rw [outside] at reduced
          cases reduced
      | false =>
          rw [outside] at reduced
          cases reduced
          obtain ⟨inside, present⟩ := Bool.or_eq_false_iff.mp outside
          rw [denotes_point rfl]
          refine ⟨?_, fun allows => allows.eq value fixed⟩
          rintro rfl
          refine Within.allows ⟨by simpa using inside, fun flag => ?_⟩ (fun known own => ?_) fun values own => ?_
          · rwa [flag, Bool.true_and] at present
          · exact Option.some.inj (fixed.symm.trans own)
          · cases (listed.point v fixed).symm.trans own
  | none =>
      rw [fixed] at reduced
      dsimp only at reduced
      cases empty : isEmptyInterval c.lower c.upper with
      | true =>
          rw [empty] at reduced
          cases reduced
      | false =>
          rw [empty] at reduced
          cases reduced
          have free : ∀ value, c.eq = some value → v = value := fun value own => by cases fixed.symm.trans own
          cases list : c.inList with
          | none =>
              rw [denotes_bounds fixed list]
              exact ⟨fun within => within.allows free fun values own => by (cases list.symm.trans own), Allows.within⟩
          | some values =>
              rw [denotes_list fixed list]
              refine ⟨fun member => (listed.within values list v member).allows free fun others own => ?_,
                fun allows => allows.inList values list⟩
              exact Option.some.inj (list.symm.trans own) ▸ member

theorem normalize_denotes (reduced : c.normalize = some c') : c'.Denotes v ↔ c.Allows v := by
  obtain ⟨c₁, first, second⟩ := Option.bind_eq_some_iff.mp reduced
  exact (normalizeBounds_denotes (normalizeList_listed first) second).trans (normalizeList_allows first)

/-- `Null` lies outside the bounds that stand for `IS NOT NULL`. -/
theorem notNullBounds_null {kind : DataTypeKind} {lower upper : Bound (Value J)}
    (bounds : notNullBounds kind = some (lower, upper)) :
    ¬(lower.admitsLower .null = true ∧ upper.admitsUpper .null = true) := by
  have below (value : Value J) (tags : (Value.null : Value J).tag < value.tag) :
      ¬((Bound.included value).admitsLower .null = true ∧ (Bound.unbounded : Bound (Value J)).admitsUpper .null = true) :=
    fun both => not_le.mpr (Value.lt_of_tag_lt tags) (of_decide_eq_true both.1)
  cases kind with
  | text =>
      cases bounds
      exact below _ (by simp [Value.tag])
  | uint8 =>
      cases bounds
      exact below _ (by simp [Value.tag])
  | uint16 =>
      cases bounds
      exact below _ (by simp [Value.tag])
  | uint32 =>
      cases bounds
      exact below _ (by simp [Value.tag])
  | uint64 =>
      cases bounds
      exact below _ (by simp [Value.tag])
  | uuid => cases bounds
  | custom name => cases bounds
  | _ =>
      cases bounds
      exact fun both => lt_irrefl _ (of_decide_eq_true both.2 : (Value.null : Value J) < .null)

/-- The range of a constraint without points holds its values, and `Null` where the bounds
come from comparisons. -/
theorem rangeBounds_denotes (free : c.eq = none) (list : c.inList = none) {definition : ColumnDef}
    {lower upper : Bound (Value J)} {flag : Bool} (bounds : c.rangeBounds (some definition) = some (lower, upper, flag))
    (typed : definition.Admits v) :
    c.Denotes v ↔ lower.admitsLower v = true ∧ upper.admitsUpper v = true ∧
      (flag = false → c.notNull = true → v.isNull = false) := by
  rw [denotes_bounds free list]
  refine ⟨fun within => ?_, fun inside => ?_⟩
  · have allows := within.allows (fun value own => by cases free.symm.trans own)
      fun values own => by cases list.symm.trans own
    obtain ⟨above, below⟩ := allows.rangeBounds bounds fun _ same => Option.some.inj same ▸ typed
    exact ⟨above, below, fun _ => within.notNull⟩
  · unfold ColumnConstraint.rangeBounds at bounds
    split at bounds
    next above below =>
      split at bounds
      next => cases bounds
      next asked =>
        obtain ⟨known, found, bounds⟩ := Option.bind_eq_some_iff.mp bounds
        obtain ⟨⟨low, high⟩, range, bounds⟩ := Option.bind_eq_some_iff.mp bounds
        cases bounds
        refine ⟨by rw [admits, above, below]; rfl, fun _ => ?_⟩
        cases v with
        | null => exact absurd ⟨inside.1, inside.2.1⟩ (notNullBounds_null range)
        | _ => rfl
    next =>
      cases bounds
      exact ⟨Bool.and_eq_true_iff.mpr ⟨inside.1, inside.2.1⟩, inside.2.2 rfl⟩

end ColumnConstraint

/-! ## Conjuncts on one column -/

/-- A comparison with the column that the planner turns into a constraint. -/
def Filter.comparesColumn (column : String) : Filter J F → Bool
  | .eq name _ | .inList name _ | .ge name _ | .gt name _ | .le name _ | .lt name _ | .isNull name | .notNull name =>
      name == column
  | _ => false

namespace ColumnConstraints
variable {row : Row J}

omit [LinearOrder J] in
theorem updateOf_compares {column : String} {conjunct : Filter J F} (compares : conjunct.comparesColumn column = true) :
    ∃ update, updateOf conjunct = some (column, update) := by
  cases conjunct with
  | ne _ _ | json _ _ | like _ _ | and _ _ | or _ _ | not _ => cases compares
  | _ =>
      obtain rfl := beq_iff_eq.mp compares
      exact ⟨_, rfl⟩

/-- A conjunct matches exactly the rows whose value its update allows. -/
theorem updateOf_matches (names : (row.map fun entry => entry.1.name).Nodup) {P : Predicates J F}
    {conjunct : Filter J F} {column : String} {update : Update J} (known : updateOf conjunct = some (column, update))
    {v : Value J} (value : findColumn column row = some v) :
    conjunct.matches P row = .ok true ↔ update.Allows v := by
  refine ⟨fun holds => ?_, fun allows => ?_⟩
  · obtain ⟨w, found, allows⟩ := updateOf_allows names holds known
    rwa [Option.some.inj (value.symm.trans found)]
  · have any (test : Value J → Bool) (passes : test v = true) :
        (.ok (anyColumn column test row) : Except (QueryError J) Bool) = .ok true := by
      rw [anyColumn_find names, value]
      exact congrArg Except.ok passes
    cases conjunct with
    | notNull field =>
        cases known
        refine any (fun w => !w.isNull) ?_
        rw [(allows : v.isNull = false)]
        rfl
    | isNull field =>
        cases known
        exact any Value.isNull ((allows : v = .null) ▸ rfl)
    | eq field value =>
        cases known
        exact any (fun w => w = value) (decide_eq_true allows)
    | inList field values =>
        cases known
        exact any (fun w => w ∈ values) (decide_eq_true allows)
    | ge field value =>
        cases known
        exact any (fun w => value ≤ w) allows
    | gt field value =>
        cases known
        exact any (fun w => value < w) allows
    | le field value =>
        cases known
        exact any (fun w => w ≤ value) allows
    | lt field value =>
        cases known
        exact any (fun w => w < value) allows
    | _ => cases known

/-- `entry(column).or_default()`. -/
def getOrDefault (constraints : ColumnConstraints J) (column : String) : ColumnConstraint J :=
  (constraints.get column).getD {}

theorem default_allows {v : Value J} : ({} : ColumnConstraint J).Allows v :=
  ⟨(fun _ none_ => by cases none_), (fun _ none_ => by cases none_), (fun no => by cases no), rfl, rfl⟩

omit [LinearOrder J] in
theorem get_cons (entry : String × ColumnConstraint J) (rest : ColumnConstraints J) (column : String) :
    get (entry :: rest) column = if entry.1 = column then some entry.2 else get rest column := by
  rw [get, List.find?_cons]
  by_cases here : entry.1 = column
  · rw [if_pos here, beq_iff_eq.mpr here]
    rfl
  · rw [if_neg here, beq_eq_false_iff_ne.mpr here]
    rfl

theorem applyTo_get {constraints constraints' : ColumnConstraints J} {column : String} {update : Update J}
    (applied : applyTo column update constraints = some constraints') :
    ∃ c, constraints'.get column = some c ∧ (constraints.getOrDefault column).apply update = some c := by
  induction constraints generalizing constraints' with
  | nil =>
      obtain ⟨c, narrowed, made⟩ := Option.bind_eq_some_iff.mp applied
      cases made
      exact ⟨c, by rw [get_cons, if_pos rfl], narrowed⟩
  | cons entry rest ih =>
      rw [applyTo] at applied
      by_cases here : entry.1 = column
      · rw [if_pos here] at applied
        obtain ⟨c, narrowed, made⟩ := Option.bind_eq_some_iff.mp applied
        cases made
        refine ⟨c, by rw [get_cons, if_pos here], ?_⟩
        rwa [getOrDefault, get_cons, if_pos here]
      · rw [if_neg here] at applied
        obtain ⟨others, narrowed, made⟩ := Option.bind_eq_some_iff.mp applied
        cases made
        rw [getOrDefault, get_cons, get_cons, if_neg here, if_neg here]
        exact ih narrowed

/-- The constraint of a column after conjuncts on it allows what it allowed before and the
conjuncts allow. -/
theorem applyAll_allows {column : String} {conjuncts : List (Filter J F)}
    (compares : ∀ conjunct ∈ conjuncts, conjunct.comparesColumn column = true) {constraints constraints' : ColumnConstraints J}
    (applied : applyAll conjuncts constraints = some constraints') {v : Value J} :
    (constraints'.getOrDefault column).Allows v ↔ (constraints.getOrDefault column).Allows v ∧
      ∀ conjunct ∈ conjuncts, ∀ update, updateOf conjunct = some (column, update) → update.Allows v := by
  induction conjuncts generalizing constraints with
  | nil =>
      cases applied
      exact (and_iff_left fun _ member => absurd member List.not_mem_nil).symm
  | cons conjunct rest ih =>
      rw [List.forall_mem_cons] at compares
      obtain ⟨update, known⟩ := updateOf_compares compares.1
      rw [applyAll, known] at applied
      obtain ⟨narrowed, first, others⟩ := Option.bind_eq_some_iff.mp applied
      obtain ⟨c, found, step⟩ := applyTo_get first
      have here : (narrowed.getOrDefault column).Allows v ↔ (constraints.getOrDefault column).Allows v ∧ update.Allows v := by
        rw [getOrDefault, found]
        exact ColumnConstraint.apply_allows step
      rw [ih compares.2 others, here, and_assoc, List.forall_mem_cons]
      refine and_congr_right fun _ => and_congr_left fun _ => ⟨fun allows other own => ?_, fun allows => allows update known⟩
      cases known.symm.trans own
      exact allows

theorem normalized_get {constraints constraints' : ColumnConstraints J}
    (run : (constraints.mapM fun entry => do return (entry.1, ← entry.2.normalize)) = some constraints') (column : String) :
    (constraints.get column).map ColumnConstraint.normalize = (constraints'.get column).map some := by
  induction constraints generalizing constraints' with
  | nil =>
      cases run
      rfl
  | cons entry rest ih =>
      rw [List.mapM_cons] at run
      obtain ⟨reduced, one, run⟩ := Option.bind_eq_some_iff.mp run
      obtain ⟨others, mapped, made⟩ := Option.bind_eq_some_iff.mp run
      obtain ⟨c, normal, same⟩ := Option.bind_eq_some_iff.mp one
      cases made
      cases same
      rw [get_cons, get_cons]
      by_cases here : entry.1 = column
      · rw [if_pos here, if_pos here]
        exact congrArg some normal
      · rw [if_neg here, if_neg here]
        exact ih mapped

/-- Normalising keeps the values of every column. -/
theorem normalized_denotes {constraints constraints' : ColumnConstraints J}
    (run : (constraints.mapM fun entry => do return (entry.1, ← entry.2.normalize)) = some constraints') (column : String)
    {v : Value J} : (constraints'.getOrDefault column).Denotes v ↔ (constraints.getOrDefault column).Allows v := by
  have normal := normalized_get run column
  cases before : constraints.get column with
  | none =>
      rw [before] at normal
      rw [getOrDefault, getOrDefault, before, Option.map_eq_none_iff.mp normal.symm]
      refine (ColumnConstraint.denotes_bounds rfl rfl).trans ⟨fun _ => default_allows, fun allows => allows.within⟩
  | some c =>
      rw [before] at normal
      obtain ⟨c', after, reduced⟩ := Option.map_eq_some_iff.mp normal.symm
      rw [getOrDefault, getOrDefault, before, after]
      exact ColumnConstraint.normalize_denotes reduced.symm

/-- The constraint of comparisons with one column denotes the values that pass all of them. Its
range holds these too, up to a `Null` that comparisons do not exclude; when there is no
constraint no row passes. -/
theorem collect_denotes {P : Predicates J F} {column : String} {conjuncts : List (Filter J F)}
    (compares : ∀ conjunct ∈ conjuncts, conjunct.comparesColumn column = true)
    (names : (row.map fun entry => entry.1.name).Nodup) {v : Value J} (value : findColumn column row = some v) :
    (collect conjuncts = none → ¬∀ conjunct ∈ conjuncts, conjunct.matches P row = .ok true) ∧
    ∀ constraints, collect conjuncts = some constraints →
      ((constraints.getOrDefault column).Denotes v ↔ ∀ conjunct ∈ conjuncts, conjunct.matches P row = .ok true) ∧
      ∀ definition lower upper flag, (constraints.getOrDefault column).eq = none →
        (constraints.getOrDefault column).inList = none → definition.Admits v →
        (constraints.getOrDefault column).rangeBounds (some definition) = some (lower, upper, flag) →
        ((lower.admitsLower v = true ∧ upper.admitsUpper v = true ∧
            (flag = false → (constraints.getOrDefault column).notNull = true → v.isNull = false)) ↔
          ∀ conjunct ∈ conjuncts, conjunct.matches P row = .ok true) := by
  refine ⟨fun none_ all => ?_, fun constraints some_ => ?_⟩
  · obtain ⟨constraints, found, _⟩ := collect_hold names all
    cases none_.symm.trans found
  · obtain ⟨applied, first, second⟩ := Option.bind_eq_some_iff.mp some_
    have denotes : (constraints.getOrDefault column).Denotes v ↔
        ∀ conjunct ∈ conjuncts, conjunct.matches P row = .ok true := by
      refine (normalized_denotes second column).trans ((applyAll_allows compares first).trans ?_)
      refine (and_iff_right default_allows).trans (forall₂_congr fun conjunct member => ?_)
      obtain ⟨update, known⟩ := updateOf_compares (compares conjunct member)
      rw [updateOf_matches names known value]
      refine ⟨fun allows => allows update known, fun allows other own => ?_⟩
      cases known.symm.trans own
      exact allows
    exact ⟨denotes, fun definition lower upper flag free list typed bounds =>
      (ColumnConstraint.rangeBounds_denotes free list bounds typed).symm.trans denotes⟩

/-- A list with a `Null` in it, cut by a null test and a lower bound. -/
def aged : List (Filter ℕ Empty) :=
  [.inList "age" [.null, .uint32 5, .uint32 1], .notNull "age", .ge "age" (.uint32 3)]

def agedRow : Row ℕ := [(⟨"age", .uint32, false, true, false, false, none⟩, .uint32 5)]

/-- One point is left, and the row that holds it passes every conjunct. -/
theorem aged_point : collect aged = some [("age", { eq := some (.uint32 5), notNull := true })] ∧
    ∀ conjunct ∈ aged, conjunct.matches ⟨fun _ => .error "", fun f => f.elim, fun f => f.elim⟩ agedRow = .ok true :=
  have compares : ∀ conjunct ∈ aged, conjunct.comparesColumn "age" = true := by decide
  have names : (agedRow.map fun entry => entry.1.name).Nodup := by decide
  have value : findColumn "age" agedRow = some (.uint32 5) := rfl
  ⟨rfl, ((collect_denotes compares names value).2 _ rfl).1.mp rfl⟩

end ColumnConstraints
end WasmDbms
