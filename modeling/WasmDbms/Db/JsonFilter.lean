import WasmDbms.Db.Aggregate

/-!
# JSON filters

The path of a JSON filter is parsed whenever the filter is evaluated; an invalid path is
the only error. The documents come in through `JsonDocs`.
-/
namespace WasmDbms

variable {J : Type}

inductive PathSegment where
  | key (name : String)
  | index (i : ℕ)
  deriving DecidableEq, Repr

namespace PathSegment

/-- The segments with the current key, unless it is empty. -/
def flush (currentKey : List Char) (segments : List PathSegment) : List PathSegment :=
  if currentKey = [] then segments else segments ++ [.key (String.ofList currentKey)]

/-- The index in a pair of brackets, at most `usizeMax`. -/
def ofIndex (usizeMax : ℕ) (indexStr : List Char) : Except (QueryError J) PathSegment :=
  if indexStr = [] then .error (.invalidQuery "Empty brackets in JSON path")
  else if indexStr.head? = some '-' then .error (.invalidQuery "Negative array index in JSON path")
  else
    match (Aggregate.parseUsize indexStr).filter fun i => i ≤ usizeMax with
    | some i => .ok (.index i)
    | none => .error (.invalidQuery s!"Invalid array index '{String.ofList indexStr}' in JSON path")

/-- The loop of `parse_path` with its current key and its segments; in brackets it is the
inner loop, with the characters of the index so far. -/
def scan (usizeMax : ℕ) : List Char → Option (List Char) → List Char → List PathSegment →
    Except (QueryError J) (List PathSegment)
  | [], some _, _, _ => .error (.invalidQuery "Unclosed bracket in JSON path")
  | [], none, currentKey, segments =>
      if flush currentKey segments = [] then .error (.invalidQuery "Empty JSON path") else .ok (flush currentKey segments)
  | c :: rest, some indexStr, currentKey, segments =>
      if c = ']' then do
        let segment ← ofIndex usizeMax indexStr
        scan usizeMax rest none currentKey (segments ++ [segment])
      else scan usizeMax rest (some (indexStr ++ [c])) currentKey segments
  | c :: rest, none, currentKey, segments =>
      if c = '.' then
        if currentKey = [] ∧ segments = [] then .error (.invalidQuery "JSON path cannot start with '.'")
        else if rest = [] then .error (.invalidQuery "JSON path cannot end with '.'")
        else if rest.head? = some '.' then .error (.invalidQuery "JSON path cannot have consecutive '.'")
        else scan usizeMax rest none [] (flush currentKey segments)
      else if c = '[' then scan usizeMax rest (some []) [] (flush currentKey segments)
      else if c = ']' then .error (.invalidQuery "Unexpected ']' in JSON path")
      else scan usizeMax rest none (currentKey ++ [c]) segments

/-- `parse_path`. -/
def parsePath (usizeMax : ℕ) (path : String) : Except (QueryError J) (List PathSegment) :=
  if path.isEmpty then .error (.invalidQuery "Empty JSON path") else scan usizeMax path.toList none [] []

end PathSegment

inductive JsonCmp (J : Type) where
  | eq (target : Value J)
  | ne (target : Value J)
  | gt (target : Value J)
  | lt (target : Value J)
  | ge (target : Value J)
  | le (target : Value J)
  | inList (targets : List (Value J))
  | isNull
  | notNull

/-- JSON documents: `json_contains` and `extract_at_path`, on a target whose `usize` ends at `usizeMax`. -/
structure JsonDocs (J : Type) where
  contains : J → J → Bool
  extractAtPath : J → List PathSegment → Option (Value J)
  usizeMax : ℕ

/-- `compare_values`: numbers are compared by their magnitude. -/
def compareValues [LinearOrder J] (left right : Value J) : Ordering :=
  match left.number?, right.number? with
  | some left, some right => cmp left right
  | _, _ => cmp left right

def JsonCmp.matches [LinearOrder J] : JsonCmp J → Option (Value J) → Bool
  | .isNull, none => true
  | _, none => false
  | .isNull, some v => v.isNull
  | .notNull, some v => !v.isNull
  | .eq target, some v => (compareValues v target).isEq
  | .ne target, some v => (compareValues v target).isNe
  | .gt target, some v => (compareValues v target).isGT
  | .lt target, some v => (compareValues v target).isLT
  | .ge target, some v => (compareValues v target).isGE
  | .le target, some v => (compareValues v target).isLE
  | .inList targets, some v => targets.any fun target => (compareValues v target).isEq

inductive JsonFilter (J : Type) where
  | contains (pattern : J)
  | extract (path : String) (cmp : JsonCmp J)
  | hasKey (path : String)

namespace JsonFilter

def «matches» [LinearOrder J] (docs : JsonDocs J) : JsonFilter J → J → Except (QueryError J) Bool
  | contains pattern, json => .ok (docs.contains json pattern)
  | extract path cmp, json => do
      let segments ← PathSegment.parsePath docs.usizeMax path
      return cmp.matches (docs.extractAtPath json segments)
  | hasKey path, json => do
      let segments ← PathSegment.parsePath docs.usizeMax path
      return (docs.extractAtPath json segments).isSome

def validate (docs : JsonDocs J) : JsonFilter J → Except (QueryError J) Unit
  | contains _ => .ok ()
  | extract path _ | hasKey path => (PathSegment.parsePath docs.usizeMax path).map fun _ => ()

/-- A filter fails on a document with the error of its path. -/
theorem matches_spec [LinearOrder J] (docs : JsonDocs J) (filter : JsonFilter J) (json : J) :
    (filter.validate docs = .ok () → ∃ b, filter.matches docs json = .ok b) ∧
      ∀ e, filter.validate docs = .error e → filter.matches docs json = .error e := by
  have parsed : ∀ {path : String} {test : List PathSegment → Bool},
      ((PathSegment.parsePath docs.usizeMax path : Except (QueryError J) _).map (fun _ => ()) = .ok () →
        ∃ b, (do return test (← PathSegment.parsePath docs.usizeMax path) : Except (QueryError J) Bool) = .ok b) ∧
      ∀ e, (PathSegment.parsePath docs.usizeMax path : Except (QueryError J) _).map (fun _ => ()) = .error e →
        (do return test (← PathSegment.parsePath docs.usizeMax path) : Except (QueryError J) Bool) = .error e := by
    intro path test
    cases PathSegment.parsePath docs.usizeMax path with
    | ok segments => exact ⟨fun _ => ⟨_, rfl⟩, fun e failed => by cases failed⟩
    | error e => exact ⟨fun valid => (by cases valid), fun e failed => by cases failed; rfl⟩
  cases filter with
  | contains pattern => exact ⟨fun _ => ⟨_, rfl⟩, fun e failed => by cases failed⟩
  | extract path cmp => exact parsed
  | hasKey path => exact parsed

end JsonFilter
end WasmDbms
