import WasmDbms.Db.JsonFilter
import WasmDbms.Db.OverlayRows

/-!
# Filters on joined rows

On a single table the evaluation on joined rows is the one on records. A filter that was
checked against the columns of the tables fails on a joined row if and only if it comes to a
JSON filter with an invalid path: the check of a JSON filter looks at the column only.
-/
namespace WasmDbms
open Result

variable {J F : Type}

/-! ## One table -/

theorem splitOnce_plain {field : String} (plain : '.' ∉ field.toList) : splitOnce field = none := if_neg plain

/-- A name without a dot is looked up in the only row. -/
theorem resolveJoinedColumn_single {field table : String} {row : Row J} (plain : '.' ∉ field.toList)
    (names : (row.map fun entry => entry.1.name).Nodup) :
    resolveJoinedColumn field [(table, row)] = .ok (findColumn field row) := by
  have distinct : ((row.filter fun entry => entry.1.name == field).map fun entry => entry.1.name).Nodup :=
    names.sublist (List.filter_sublist.map _)
  have named : ∀ entry ∈ row.filter (fun entry => entry.1.name == field), entry.1.name = field :=
    fun entry member => beq_iff_eq.mp (List.mem_filter.mp member).2
  unfold resolveJoinedColumn
  rw [splitOnce_plain plain, findColumn, ← List.head?_filter]
  dsimp only
  rw [List.flatMap_singleton]
  generalize (row.filter fun entry => entry.1.name == field) = found at distinct named ⊢
  cases found with
  | nil => rfl
  | cons first rest =>
      cases rest with
      | nil => rfl
      | cons second rest =>
          have same : first.1.name = second.1.name :=
            (named first List.mem_cons_self).trans (named second (List.mem_cons_of_mem _ List.mem_cons_self)).symm
          exact absurd (List.mem_cons.mpr (.inl same)) (List.nodup_cons.mp distinct).1

namespace Filter

/-- No name in the filter has a dot. -/
def Unqualified (filter : Filter J F) : Prop := ∀ field ∈ filter.columns, '.' ∉ field.toList

theorem matchesJoined_single [LinearOrder J] {P : Predicates J F} {filter : Filter J F} {table : String} {row : Row J}
    (plain : filter.Unqualified) (names : (row.map fun entry => entry.1.name).Nodup) :
    filter.matchesJoined P [(table, row)] = filter.matches P row := by
  have value : ∀ {field : String}, '.' ∉ field.toList →
      resolveJoinedColumn field [(table, row)] = .ok (findColumn field row) :=
    fun plain => resolveJoinedColumn_single plain names
  induction filter with
  | and left right ihl ihr =>
      obtain ⟨first, second⟩ := List.forall_mem_append.mp plain
      rw [matchesJoined, Filter.matches, ihl first, ihr second]
  | or left right ihl ihr =>
      obtain ⟨first, second⟩ := List.forall_mem_append.mp plain
      rw [matchesJoined, Filter.matches, ihl first, ihr second]
  | not inner ih => rw [matchesJoined, Filter.matches, ih plain]
  | json c _ =>
      rw [matchesJoined, Filter.matches, value (plain c List.mem_cons_self)]
      rfl
  | like c _ =>
      rw [matchesJoined, Filter.matches, value (plain c List.mem_cons_self)]
      rfl
  | eq c _ | ne c _ | gt c _ | lt c _ | ge c _ | inList c _ | le c _ | notNull c | isNull c =>
      rw [matchesJoined, Filter.matches, value (plain c List.mem_cons_self), anyColumn_find names]
      rfl

end Filter

/-! ## Joined rows of some tables -/

/-- The row of one table in a joined row: a value in a column is of its type or NULL. -/
structure JoinedGroup (table : String × List ColumnDef) (group : String × Row J) : Prop where
  name : group.1 = table.1
  columns : group.2.map Prod.fst = table.2
  typed : ∀ entry ∈ group.2, entry.2.kind = some entry.1.dataType ∨ entry.2 = .null

/-- A joined row of these tables. -/
def JoinedRow (tables : List (String × List ColumnDef)) (groups : Groups J) : Prop :=
  List.Forall₂ JoinedGroup tables groups

/-- A row that is padded with NULL. -/
theorem nullRow_joined (table : String) (columns : List ColumnDef) :
    JoinedGroup (table, columns) (table, (nullRow columns : Row J)) := by
  refine ⟨rfl, ?_, fun entry member => ?_⟩
  · rw [nullRow, List.map_map]
    exact List.map_id _
  · obtain ⟨column, _, rfl⟩ := List.mem_map.mp member
    exact .inr rfl

/-- The value that is found belongs to the column that is found. -/
def ValueOf : Option ColumnDef → Option (Value J) → Prop
  | none, value => value = none
  | some column, value => ∃ v, value = some v ∧ (v.kind = some column.dataType ∨ v = .null)

section Resolve
variable {tables : List (String × List ColumnDef)} {groups : Groups J} {table : String × List ColumnDef}
  {group : String × Row J}

theorem JoinedGroup.find (joined : JoinedGroup table group) (column : String) :
    ValueOf (columnDef column table.2) (findColumn column group.2) := by
  rw [columnDef, ← joined.columns, List.find?_map, findColumn]
  have typed := joined.typed
  cases found : group.2.find? fun entry => entry.1.name == column with
  | none =>
      have none_ : group.2.find? ((fun c : ColumnDef => c.name == column) ∘ Prod.fst) = none := found
      rw [none_]
      rfl
  | some entry =>
      have some_ : group.2.find? ((fun c : ColumnDef => c.name == column) ∘ Prod.fst) = some entry := found
      rw [some_]
      exact ⟨entry.2, rfl, typed entry (List.mem_of_find?_eq_some found)⟩

theorem JoinedRow.find (joined : JoinedRow tables groups) (name : String) :
    (tables.find? (fun table => table.1 == name) = none ∧ groups.find? (fun group => group.1 == name) = none) ∨
      ∃ table group, tables.find? (fun table => table.1 == name) = some table ∧
        groups.find? (fun group => group.1 == name) = some group ∧ JoinedGroup table group := by
  induction joined with
  | nil => exact .inl ⟨rfl, rfl⟩
  | @cons table group tables groups first _ ih =>
      rw [List.find?_cons, List.find?_cons, first.name]
      cases table.1 == name with
      | true => exact .inr ⟨table, group, rfl, rfl, first⟩
      | false => exact ih

/-- The entries under a name. -/
theorem JoinedRow.entries (joined : JoinedRow tables groups) (field : String) :
    (groups.flatMap fun group => group.2.filter fun entry => entry.1.name == field).map Prod.fst =
        tables.flatMap (fun table => table.2.filter fun column => column.name == field) ∧
      ∀ entry ∈ groups.flatMap fun group => group.2.filter fun entry => entry.1.name == field,
        entry.2.kind = some entry.1.dataType ∨ entry.2 = .null := by
  induction joined with
  | nil => exact ⟨rfl, fun entry member => absurd member List.not_mem_nil⟩
  | @cons table group tables groups first _ ih =>
      rw [List.flatMap_cons, List.flatMap_cons, List.map_append, ih.1, ← first.columns, List.filter_map]
      refine ⟨rfl, List.forall_mem_append.mpr ⟨fun entry member => ?_, ih.2⟩⟩
      exact first.typed entry (List.mem_of_mem_filter member)

/-- A name that is resolved in the columns of the tables is resolved in every joined row. -/
theorem JoinedRow.resolve (joined : JoinedRow tables groups) {field : String} {column : Option ColumnDef}
    (resolved : (resolveJoinedColumnDef field tables : Except (QueryError J) _) = .ok column) :
    ∃ value, resolveJoinedColumn field groups = .ok value ∧ ValueOf column value := by
  unfold resolveJoinedColumnDef at resolved
  unfold resolveJoinedColumn
  cases split : splitOnce field with
  | some qualified =>
      obtain ⟨name, own⟩ := qualified
      rw [split] at resolved
      dsimp only at resolved ⊢
      rcases joined.find name with ⟨none_, _⟩ | ⟨table, group, there, here, one⟩
      · rw [none_] at resolved
        cases resolved
      · rw [there] at resolved
        rw [here]
        cases resolved
        exact ⟨_, rfl, one.find own⟩
  | none =>
      rw [split] at resolved
      obtain ⟨listed, typed⟩ := joined.entries field
      dsimp only at resolved ⊢
      rw [← listed] at resolved
      generalize (groups.flatMap fun group => group.2.filter fun entry => entry.1.name == field) = found at resolved typed ⊢
      cases found with
      | nil =>
          cases resolved
          exact ⟨none, rfl, rfl⟩
      | cons entry rest =>
          cases rest with
          | nil =>
              cases resolved
              exact ⟨some entry.2, rfl, entry.2, rfl, typed entry List.mem_cons_self⟩
          | cons second rest => cases resolved

end Resolve

/-! ## What the evaluation comes to -/

namespace Filter
variable (P : Predicates J F)

def groupValue (field : String) (groups : Groups J) : Option (Value J) := (resolveJoinedColumn field groups).toOption.join

def likeHolds (pattern : String) : Option (Value J) → Bool
  | some (.text s) => (P.likeParse pattern).toOption.any fun like => like s
  | _ => false

def jsonHolds (filter : F) : Option (Value J) → Bool
  | some (.json j) => (P.jsonMatches filter j).toOption.getD false
  | _ => false

/-- What a filter says of a joined row, where everything that fails counts as false. -/
def truth [LinearOrder J] : Filter J F → Groups J → Bool
  | eq field value, groups => (groupValue field groups).any fun v => v = value
  | ne field value, groups => (groupValue field groups).any fun v => v ≠ value
  | gt field value, groups => (groupValue field groups).any fun v => value < v
  | lt field value, groups => (groupValue field groups).any fun v => v < value
  | ge field value, groups => (groupValue field groups).any fun v => value ≤ v
  | le field value, groups => (groupValue field groups).any fun v => v ≤ value
  | inList field list, groups => (groupValue field groups).any fun v => v ∈ list
  | notNull field, groups => (groupValue field groups).any fun v => !v.isNull
  | isNull field, groups => (groupValue field groups).any Value.isNull
  | like field pattern, groups => likeHolds P pattern (groupValue field groups)
  | json field filter, groups => jsonHolds P filter (groupValue field groups)
  | and left right, groups => left.truth groups && right.truth groups
  | or left right, groups => left.truth groups || right.truth groups
  | not inner, groups => !inner.truth groups

/-- The JSON filters that the evaluation comes to: the second part of `and` and `or` where
the first one does not decide. -/
def jsonVisited [LinearOrder J] : Filter J F → Groups J → List F
  | json _ filter, _ => [filter]
  | and left right, groups => left.jsonVisited groups ++ if left.truth P groups then right.jsonVisited groups else []
  | or left right, groups => left.jsonVisited groups ++ if left.truth P groups then [] else right.jsonVisited groups
  | not inner, groups => inner.jsonVisited groups
  | _, _ => []

end Filter

/-- The predicates of JSON filters on documents. -/
def JsonDocs.predicates [LinearOrder J] (docs : JsonDocs J) (likeParse : String → Except String (String → Bool)) :
    Predicates J (JsonFilter J) := ⟨likeParse, JsonFilter.matches docs, JsonFilter.validate docs⟩

section Predicates
variable [LinearOrder J] (docs : JsonDocs J) (likeParse : String → Except String (String → Bool)) (f : JsonFilter J)

@[simp]
theorem JsonDocs.predicates_matches (j : J) : (docs.predicates likeParse).jsonMatches f j = f.matches docs j := rfl

@[simp]
theorem JsonDocs.predicates_validate : (docs.predicates likeParse).jsonValidate f = f.validate docs := rfl

end Predicates

namespace Filter
variable [LinearOrder J] {docs : JsonDocs J} {likeParse : String → Except String (String → Bool)}
  {tables : List (String × List ColumnDef)} {groups : Groups J}

/-- A JSON filter on a document or on NULL. -/
theorem json_evaluates {field : String} {f : JsonFilter J} {v : Value J} (typed : v.kind = some .json ∨ v = .null) :
    (f.validate docs = .ok () →
      matchesJson (docs.predicates likeParse) field f (some v) = .ok (jsonHolds (docs.predicates likeParse) f (some v))) ∧
    (f.validate docs ≠ .ok () → ∃ e, matchesJson (docs.predicates likeParse) field f (some v) = .error e) := by
  have fails : f.validate docs ≠ .ok () → ∃ e, f.validate docs = .error e := by
    intro invalid
    cases checked : f.validate docs with
    | ok => exact absurd checked invalid
    | error e => exact ⟨e, rfl⟩
  rcases typed with kind | rfl
  · cases v with
    | json j =>
        obtain ⟨holds, failed⟩ := JsonFilter.matches_spec docs f j
        refine ⟨fun valid => ?_, fun invalid => ?_⟩
        · obtain ⟨b, run⟩ := holds valid
          rw [matchesJson, jsonHolds, docs.predicates_matches, run]
          rfl
        · obtain ⟨e, checked⟩ := fails invalid
          exact ⟨e, failed e checked⟩
    | _ => cases kind
  · rw [matchesJson, docs.predicates_validate]
    refine ⟨fun valid => ?_, fun invalid => ?_⟩
    · rw [valid]
      rfl
    · obtain ⟨e, checked⟩ := fails invalid
      rw [checked]
      exact ⟨e, rfl⟩

omit [LinearOrder J] in
/-- A LIKE filter with a valid pattern on a text or on NULL. -/
theorem like_evaluates {P : Predicates J F} {pattern : String} {v : Value J} {like : String → Bool}
    (typed : v.kind = some .text ∨ v = .null) (parsed : P.likeParse pattern = .ok like) :
    matchesLike P pattern v = .ok (likeHolds P pattern (some v)) := by
  rcases typed with kind | rfl
  · cases v with
    | text s =>
        rw [likeHolds, matchesLike, parsed]
        rfl
    | _ => cases kind
  · rw [likeHolds, matchesLike, parsed]
    · rfl
    · intro s text
      cases text

/-- A checked filter is evaluated to what it says while the JSON filters it comes to have valid
paths, and fails otherwise. -/
theorem matchesJoined_spec {filter : Filter J (JsonFilter J)} (joined : JoinedRow tables groups)
    (accepted : filter.validateJoined (docs.predicates likeParse) tables = .ok ()) :
    ((∀ f ∈ filter.jsonVisited (docs.predicates likeParse) groups, f.validate docs = .ok ()) →
      filter.matchesJoined (docs.predicates likeParse) groups = .ok (filter.truth (docs.predicates likeParse) groups)) ∧
    ((¬ ∀ f ∈ filter.jsonVisited (docs.predicates likeParse) groups, f.validate docs = .ok ()) →
      ∃ e, filter.matchesJoined (docs.predicates likeParse) groups = .error e) := by
  have known : ∀ {field : String} {test : Value J → Bool},
      (do
        let _ ← resolveJoinedColumnDef field tables
        pure () : Except (QueryError J) Unit) = .ok () →
      (do return (← resolveJoinedColumn field groups).any test : Except (QueryError J) Bool) =
        .ok ((groupValue field groups).any test) := by
    intro field test accepted
    obtain ⟨column, resolved, _⟩ := bind_eq_ok.mp accepted
    obtain ⟨value, found, _⟩ := joined.resolve resolved
    rw [groupValue, found]
    rfl
  induction filter with
  | and left right ihl ihr =>
      obtain ⟨_, first, second⟩ := bind_eq_ok.mp accepted
      obtain ⟨holdsLeft, failsLeft⟩ := ihl first
      obtain ⟨holdsRight, failsRight⟩ := ihr second
      rw [jsonVisited, matchesJoined, truth]
      by_cases validLeft : ∀ f ∈ left.jsonVisited (docs.predicates likeParse) groups, f.validate docs = .ok ()
      · rw [holdsLeft validLeft, List.forall_mem_append, and_iff_right validLeft]
        cases left.truth (docs.predicates likeParse) groups with
        | true => exact ⟨holdsRight, failsRight⟩
        | false => exact ⟨fun _ => rfl, fun invalid => absurd (fun f member => absurd member List.not_mem_nil) invalid⟩
      · obtain ⟨e, failed⟩ := failsLeft validLeft
        rw [failed, List.forall_mem_append]
        exact ⟨fun valid => absurd valid.1 validLeft, fun _ => ⟨e, rfl⟩⟩
  | or left right ihl ihr =>
      obtain ⟨_, first, second⟩ := bind_eq_ok.mp accepted
      obtain ⟨holdsLeft, failsLeft⟩ := ihl first
      obtain ⟨holdsRight, failsRight⟩ := ihr second
      rw [jsonVisited, matchesJoined, truth]
      by_cases validLeft : ∀ f ∈ left.jsonVisited (docs.predicates likeParse) groups, f.validate docs = .ok ()
      · rw [holdsLeft validLeft, List.forall_mem_append, and_iff_right validLeft]
        cases left.truth (docs.predicates likeParse) groups with
        | true => exact ⟨fun _ => rfl, fun invalid => absurd (fun f member => absurd member List.not_mem_nil) invalid⟩
        | false => exact ⟨holdsRight, failsRight⟩
      · obtain ⟨e, failed⟩ := failsLeft validLeft
        rw [failed, List.forall_mem_append]
        exact ⟨fun valid => absurd valid.1 validLeft, fun _ => ⟨e, rfl⟩⟩
  | not inner ih =>
      obtain ⟨holds, fails⟩ := ih accepted
      rw [matchesJoined, truth]
      refine ⟨fun valid => ?_, fun invalid => ?_⟩
      · rw [holds valid]
        rfl
      · obtain ⟨e, failed⟩ := fails invalid
        rw [failed]
        exact ⟨e, rfl⟩
  | json field f =>
      obtain ⟨column, resolved, checked⟩ := bind_eq_ok.mp accepted
      obtain ⟨value, found, own⟩ := joined.resolve resolved
      have visited : (∀ g ∈ (json field f).jsonVisited (docs.predicates likeParse) groups, g.validate docs = .ok ()) ↔
          f.validate docs = .ok () := List.forall_mem_singleton
      rw [visited, matchesJoined, truth, groupValue, found]
      cases column with
      | none => cases checked
      | some column =>
          obtain ⟨v, rfl, typed⟩ := own
          have document : column.dataType = .json := by
            by_contra other
            rw [Option.any_some, decide_eq_false other] at checked
            cases checked
          exact json_evaluates (document ▸ typed)
  | like field pattern =>
      obtain ⟨column, resolved, checked⟩ := bind_eq_ok.mp accepted
      obtain ⟨value, found, own⟩ := joined.resolve resolved
      refine ⟨fun _ => ?_, fun invalid => absurd (fun f member => absurd member List.not_mem_nil) invalid⟩
      rw [matchesJoined, truth, groupValue, found]
      cases column with
      | none =>
          obtain rfl : value = none := own
          rfl
      | some column =>
          obtain ⟨v, rfl, typed⟩ := own
          rw [Option.map_some] at checked
          obtain ⟨text, like, parsed⟩ : column.dataType = .text ∧ ∃ like, likeParse pattern = .ok like := by
            generalize column.dataType = kind at checked
            cases kind with
            | text =>
                cases parsed : likeParse pattern with
                | error e =>
                    dsimp only [JsonDocs.predicates] at checked
                    rw [parsed] at checked
                    cases checked
                | ok like => exact ⟨rfl, like, rfl⟩
            | _ => cases checked
          exact like_evaluates (text ▸ typed) parsed
  | eq field | ne field | gt field | lt field | ge field | inList field | le field | notNull field | isNull field =>
      exact ⟨fun _ => known accepted, fun invalid => absurd (fun f member => absurd member List.not_mem_nil) invalid⟩

/-- On one table an unqualified filter says the same of a record and of a joined row. A filter that
was checked against the tables fails on none of their joined rows if and only if on none of
them it comes to a JSON filter with an invalid path. -/
theorem joined_filters_iff (docs : JsonDocs J) (likeParse : String → Except String (String → Bool)) :
    (∀ (filter : Filter J (JsonFilter J)) (table : String) (row : Row J), filter.Unqualified →
      (row.map fun entry => entry.1.name).Nodup →
      filter.matchesJoined (docs.predicates likeParse) [(table, row)] = filter.matches (docs.predicates likeParse) row) ∧
    ∀ (filter : Filter J (JsonFilter J)) (tables : List (String × List ColumnDef)),
      filter.validateJoined (docs.predicates likeParse) tables = .ok () →
      ((∀ groups, JoinedRow tables groups → ∃ b, filter.matchesJoined (docs.predicates likeParse) groups = .ok b) ↔
        ∀ groups, JoinedRow tables groups →
          ∀ f ∈ filter.jsonVisited (docs.predicates likeParse) groups, f.validate docs = .ok ()) := by
  refine ⟨fun filter table row plain names => matchesJoined_single plain names, fun filter tables accepted => ?_⟩
  constructor
  · intro total groups joined
    by_contra invalid
    obtain ⟨b, run⟩ := total groups joined
    obtain ⟨e, failed⟩ := (matchesJoined_spec joined accepted).2 invalid
    cases run.symm.trans failed
  · intro valid groups joined
    exact ⟨_, (matchesJoined_spec joined accepted).1 (valid groups joined)⟩

end Filter

namespace Documents

def data : ColumnDef := ⟨"data", .json, false, false, false, false, none⟩

/-- Documents that are a number. -/
def numbers : JsonDocs ℕ := ⟨fun json pattern => json = pattern, fun _ _ => none, 2 ^ 32 - 1⟩

def predicates : Predicates ℕ (JsonFilter ℕ) := numbers.predicates fun pattern => .ok fun text => text = pattern

def tables : List (String × List ColumnDef) := [("documents", [data])]

/-- A valid path never fails. -/
theorem key_found_or_not : ∀ groups, JoinedRow tables groups →
    ∃ b, (Filter.json "data" (.hasKey "a")).matchesJoined predicates groups = .ok b := by
  refine ((Filter.joined_filters_iff numbers _).2 _ tables rfl).mpr fun groups _ f visited => ?_
  obtain rfl := List.mem_singleton.mp visited
  rfl

/-- An invalid path passes the check. -/
theorem empty_path_fails : (Filter.json "data" (.hasKey "")).validateJoined predicates tables = .ok () ∧
    JoinedRow tables [("documents", [(data, .json 0)])] ∧
    (Filter.json "data" (.hasKey "")).matchesJoined predicates [("documents", [(data, .json 0)])] =
      .error (.invalidQuery "Empty JSON path") := by
  refine ⟨rfl, .cons ⟨rfl, rfl, fun entry member => ?_⟩ .nil, rfl⟩
  obtain rfl := List.mem_singleton.mp member
  exact .inl rfl

end Documents
end WasmDbms
