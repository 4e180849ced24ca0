import Mathlib.Data.Rat.Floor
import WasmDbms.Db.Replay
import WasmDbms.Db.Sanitizers

/-!
# Updates and the sanitizers

An update sanitizes every column of the rows it patches. A column outside the patch
keeps its value exactly when its sanitizer leaves the stored value as it is.
-/
namespace WasmDbms
open Result

variable {J F : Type} [LinearOrder J]

/-! ## The turns of an update -/

/-- A record that a turn of an update replaces: the patch of the update, the values that
were stored and those that are. -/
structure Replacement (J : Type) where
  table : TableDef J
  patch : Row J
  old : Row J
  new : Row J

/-- The turns of an update and of its nested updates: each sanitizes and stores the
patched values of a record. -/
inductive Database.Turn (db : Database J F) :
    ℕ → TableDef J → Row J → Option (Filter J F) → DbState J → Replacement J → Prop
  | own {fuel : ℕ} {t : TableDef J} {patch : Row J} {filter : Option (Filter J F)} {s s₁ : DbState J}
      {done later : List (RecordAddress × Row J)} {x : RecordAddress × Row J} {n : ℕ} {sanitized record : Row J}
      (found : db.collectMatchingRecords t filter s = .ok (done ++ x :: later))
      (before : db.updateRecords (db.followRewrite fuel) t patch done s = .ok (n, s₁))
      (cleaned : t.sanitizeValues (patchValues patch x.2) = .ok sanitized)
      (made : t.fromValues sanitized = .ok record) : Database.Turn db (fuel + 1) t patch filter s ⟨t, patch, x.2, record⟩
  | nested {fuel : ℕ} {t t' : TableDef J} {patch patch' : Row J} {filter : Option (Filter J F)} {s s₁ s₂ s₃ : DbState J}
      {done later : List (RecordAddress × Row J)} {x : RecordAddress × Row J} {n m : ℕ} {sanitized record : Row J}
      {earlier rest : List (Database.Rewrite J)} {r : Database.Rewrite J} {replacement : Replacement J}
      (found : db.collectMatchingRecords t filter s = .ok (done ++ x :: later))
      (before : db.updateRecords (db.followRewrite fuel) t patch done s = .ok (n, s₁))
      (cleaned : t.sanitizeValues (patchValues patch x.2) = .ok sanitized)
      (made : t.fromValues sanitized = .ok record)
      (replaced : db.replaceRecord t x.1 x.2 sanitized record s₁ = .ok s₂)
      (rewrites : db.rewrites t x.2 sanitized = .ok (earlier ++ r :: rest))
      (first : Database.rewriteAll (db.followRewrite fuel) earlier s₂ = .ok (m, s₃))
      (table : db.schema.table r.table = .ok t')
      (typed : Database.typedPatch t' [(r.column, r.new)] = .ok patch')
      (below : Database.Turn db fuel t' patch' (some (.eq r.column r.old)) s₃ replacement) :
      Database.Turn db (fuel + 1) t patch filter s replacement

/-- The turns that a call makes in the stored tables: those of an update, and those of the
updates that a commit replays. -/
inductive Context.Turn (db : Database J F) (fuel : ℕ) (ctx : Context J F) : Call J F → Replacement J → Prop
  | update {t : TableDef J} {patch : Row J} {filter : Option (Filter J F)} {replacement : Replacement J}
      (turn : db.Turn fuel t patch filter ctx.state replacement) :
      Context.Turn db fuel ctx (.update none t patch filter) replacement
  | commit {id : ℕ} {tx : Transaction J F} {t : TableDef J} {patch typed : Row J} {filters : List (Filter J F)}
      {filter : Filter J F} {done later : List (TransactionOp J F)} {s : DbState J} {replacement : Replacement J}
      (isOpen : ctx.transactions id = some tx) (operations : tx.operations = done ++ .update t patch filters :: later)
      (before : db.replayAll fuel done ctx.state = .ok s)
      (captured : db.validatedTransactionFilter t filters s = .ok (some filter))
      (patches : Database.typedPatch t (patch.map fun entry => (entry.1.name, entry.2)) = .ok typed)
      (turn : db.Turn fuel t typed (some filter) s replacement) : Context.Turn db fuel ctx (.commit id) replacement

/-- The sanitizers of the columns outside the patch keep the values stored there. -/
def Replacement.Settled (X : Externals) (sanitizers : String → String → Option Sanitizer) (r : Replacement J) : Prop :=
  ∀ c ∈ r.table.columns, c.name ∉ r.patch.map (fun entry => entry.1.name) →
    ∀ k, sanitizers r.table.name c.name = some k → ∀ v, findColumn c.name r.old = some v → k.Keeps X v

/-- The sanitizers of the tables are built-in ones. -/
def BuiltIn (X : Externals) (sanitizers : String → String → Option Sanitizer) (schema : DatabaseSchema J) : Prop :=
  ∀ t ∈ schema.tables, ∀ name, t.sanitizer name = (sanitizers t.name name).map fun k => k.sanitize X

/-! ## One row -/

section Rows
variable {t : TableDef J} {row patch : Row J}

variable {X : Externals} {kinds : String → Option Sanitizer}
variable (builtIn : ∀ name, t.sanitizer name = (kinds name).map fun k => k.sanitize X)
include builtIn

end Rows

/-! ## Every turn -/

section Turns
variable {db : Database J F} {s s' : DbState J}

theorem followRewrite_holds {P : TableDef J → Row J → Prop} (stored : ∀ t row, TableDef.Written t row → P t row)
    (fuel : ℕ) (r : Database.Rewrite J) (s : DbState J) (n : ℕ) (s' : DbState J)
    (run : db.followRewrite fuel r s = .ok (n, s')) (holds : s.Holds db.schema P) : s'.Holds db.schema P := by
  obtain ⟨t, found, run⟩ := bind_eq_ok.mp run
  obtain ⟨patch, _, run⟩ := bind_eq_ok.mp run
  exact update_holds stored holds (DatabaseSchema.table_ok (Failure.lift_eq_ok.mp found)).1 run

/-- What each turn does with a record that was written. -/
structure Replacement.Made (schema : DatabaseSchema J) (r : Replacement J) : Prop where
  listed : r.table ∈ schema.tables
  written : r.table.Written r.old
  replaced : ∃ sanitized, r.table.sanitizeValues (patchValues r.patch r.old) = .ok sanitized ∧
    r.table.fromValues sanitized = .ok r.new

/-- The records before and between the turns were written. -/
theorem Database.Turn.made {fuel : ℕ} {t : TableDef J} {patch : Row J} {filter : Option (Filter J F)}
    {r : Replacement J} (turn : db.Turn fuel t patch filter s r) (listed : t ∈ db.schema.tables)
    (holds : s.Holds db.schema TableDef.Written) : r.Made db.schema := by
  induction turn with
  | own found _ cleaned made =>
      have stored := (mem_collect found).mp (List.mem_append_right _ (List.mem_cons_self ..))
      exact ⟨listed, holds _ listed _ stored.1, _, cleaned, made⟩
  | @nested fuel t _ patch _ _ _ _ _ _ _ _ _ _ _ _ _ _ _ _ _ _ before cleaned made replaced _ first table _ _ ih =>
      have earlier := updateRecords_rule
        (R := fun a b => t ∈ db.schema.tables ∧ a.Holds db.schema TableDef.Written → b.Holds db.schema TableDef.Written)
        (fun _ h => h.2) (fun _ _ _ first second h => second ⟨h.1, first h⟩)
        (fun r s n s' run h => followRewrite_holds (fun _ _ h => h) fuel r s n s' run h.2)
        (fun _ _ patched new _ _ _ sanitized made replaced h =>
          replaceRecord_holds (fun _ _ h => h) h.2 h.1 ⟨patched, new, sanitized, made⟩ replaced) before ⟨listed, holds⟩
      have here := replaceRecord_holds (fun _ _ h => h) earlier listed ⟨_, _, cleaned, made⟩ replaced
      have below := rewriteAll_rule
        (R := fun a b => a.Holds db.schema TableDef.Written → b.Holds db.schema TableDef.Written)
        (fun _ h => h) (fun _ _ _ first second h => second (first h))
        (followRewrite_holds (fun _ _ h => h) fuel) first here
      exact ih (DatabaseSchema.table_ok table).1 below

theorem Context.Turn.made {fuel : ℕ} {ctx : Context J F} {c : Call J F} {r : Replacement J}
    (turn : Context.Turn db fuel ctx c r) (listed : c.Listed db.schema) (sound : Context.Sound db ctx)
    (holds : ctx.state.Holds db.schema TableDef.Written) : r.Made db.schema := by
  cases turn with
  | update turn => exact turn.made listed holds
  | @commit id tx t _ _ _ _ done later _ _ isOpen operations before _ _ turn =>
      have staged := sound.listed id tx isOpen
      rw [operations] at staged
      refine turn.made (staged (.update t _ _) (List.mem_append_right _ (List.mem_cons_self ..))) ?_
      exact replayAll_holds (fun _ _ h => h) holds (fun op member => staged op (List.mem_append_left _ member)) before

variable {X : Externals} {sanitizers : String → String → Option Sanitizer}

end Turns

/-! ## A table with links -/

namespace Links

/-- A sigma is the only capital letter. -/
def lowerTable (c : Char) : List Char := if c = 'Σ' then ['σ'] else [c]

theorem lowerTable_twice : ∀ c, ∀ d ∈ lowerTable c, lowerTable d = [d] := by
  intro c d member
  rw [lowerTable] at member
  split at member
  next =>
    rw [List.mem_singleton.mp member]
    decide
  next other =>
    rw [List.mem_singleton.mp member]
    exact if_neg other

def roundHalfEven (q : ℚ) : ℤ :=
  if Int.fract q < 1 / 2 ∨ Int.fract q = 1 / 2 ∧ ⌊q⌋ % 2 = 0 then ⌊q⌋ else ⌊q⌋ + 1

def roundDp (dp : UInt32) (q : ℚ) : ℚ := roundHalfEven (q * 10 ^ dp.toNat) / 10 ^ dp.toNat

theorem roundDp_scale (dp : UInt32) (q : ℚ) : ∃ n : ℤ, roundDp dp q * 10 ^ dp.toNat = n :=
  ⟨roundHalfEven (q * 10 ^ dp.toNat), div_mul_cancel₀ _ (pow_ne_zero _ (by norm_num))⟩

theorem roundDp_eq (dp : UInt32) (q : ℚ) (whole : ∃ n : ℤ, q * 10 ^ dp.toNat = n) : roundDp dp q = q := by
  obtain ⟨n, same⟩ := whole
  have rounded : roundHalfEven (n : ℚ) = n := by
    rw [roundHalfEven, Int.fract_intCast, Int.floor_intCast]
    exact if_pos (.inl (by norm_num))
  rw [roundDp, same, rounded, ← same]
  exact mul_div_cancel_right₀ q (pow_ne_zero _ (by norm_num))

theorem lowerTable_hyphen : Char.isWhitespace '-' = false ∧ lowerTable '-' = ['-'] := by decide

theorem lowerTable_finalSigma : lowerTable 'ς' = ['ς'] := by decide

theorem upperTable_twice : ∀ c : Char, ∀ d ∈ [c], [d] = [d] := fun _ _ _ => rfl

def externals : Externals where
  isWhitespace := Char.isWhitespace
  isAlphanumeric := Char.isAlphanum
  isCased := Char.isAlpha
  isCaseIgnorable _ := false
  toLower := lowerTable
  toUpper c := [c]
  roundDp := roundDp
  percentEncode text := (text.flatMap String.utf8EncodeChar).flatMap percentByte
  space := rfl
  hyphen := lowerTable_hyphen
  sigma := rfl
  finalSigma := lowerTable_finalSigma
  toLower_toLower := lowerTable_twice
  toUpper_toUpper := upperTable_twice
  roundDp_scale := roundDp_scale
  roundDp_eq := roundDp_eq
  percentEncode_eq _ := rfl

def id : ColumnDef := ⟨"id", .uint32, false, false, true, false, none⟩

def link : ColumnDef := ⟨"link", .text, false, false, false, false, none⟩

def title : ColumnDef := ⟨"title", .text, false, false, false, false, none⟩

/-- Links are percent encoded. -/
def sanitizers (table column : String) : Option Sanitizer :=
  if table = "links" ∧ column = "link" then some .urlEncoding else none

theorem columnNames : ([id, link, title].map ColumnDef.name).Nodup := by decide

theorem oneKey : ∀ c ∈ [id, link, title], c.primaryKey = true → c.name = "id" := by decide

theorem keyed : ∃ c ∈ [id, link, title], c.name = "id" ∧ c.primaryKey = true := ⟨id, List.mem_cons_self, rfl, rfl⟩

theorem indexNames : ([⟨["id"]⟩].map IndexDef.columns).Nodup := List.nodup_singleton _

theorem keyIndex : ([⟨["id"]⟩] : List IndexDef) ≠ [] := List.cons_ne_nil _ _

def table : TableDef ℕ where
  name := "links"
  columns := [id, link, title]
  primaryKey := "id"
  indexes := [⟨["id"]⟩]
  sanitizer name := (sanitizers "links" name).map fun k => k.sanitize externals
  validator _ := none
  columnNames := columnNames
  keyed := keyed
  oneKey := oneKey
  indexNames := indexNames
  keyIndex := keyIndex

theorem plain : ∀ c ∈ table.columns, c.foreignKey = none := by decide

theorem names : ([table].map TableDef.name).Nodup := List.nodup_singleton _

theorem local_ : ∀ t ∈ [table], ∀ c ∈ t.columns, ∀ fk, c.foreignKey = some fk → fk.localColumn = c.name := by
  intro t listed c column fk key
  obtain rfl := List.mem_singleton.mp listed
  rw [plain c column] at key
  cases key

theorem foreign : ∀ t ∈ [table], ∀ c ∈ t.columns, ∀ fk, c.foreignKey = some fk →
    ∀ t' ∈ [table], t'.name = fk.foreignTable → ∃ c' ∈ t'.columns, c'.name = fk.foreignColumn := by
  intro t listed c column fk key
  obtain rfl := List.mem_singleton.mp listed
  rw [plain c column] at key
  cases key

def db : Database ℕ Empty :=
  .scanning ⟨[table], names, local_, foreign⟩ ⟨fun _ => .error "", fun f => f.elim, fun f => f.elim⟩

theorem builtIn : BuiltIn externals sanitizers db.schema := by
  intro t listed name
  obtain rfl := List.mem_singleton.mp listed
  rfl

/-- Nothing is stored and no transaction is open. -/
def start : Context ℕ Empty := ⟨fun _ => ⟨[], [(["id"], [])]⟩, fun _ => none, 0⟩

def row (link title : String) : Row ℕ := [(Links.id, .uint32 1), (Links.link, .text link), (Links.title, .text title)]

/-- A link that is inserted. -/
def inserted (link : String) : Context ℕ Empty := (start.call db 1 (.insert none table (row link "a"))).2

end Links
end WasmDbms
