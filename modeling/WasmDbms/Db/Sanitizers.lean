import WasmDbms.Db.Timezone
import WasmDbms.Lib.Words

/-!
# The built-in sanitizers

Each of them, and the chains of them. Sanitizing what a sanitizer returned changes
nothing, but for the percent encoding, which encodes its own percent signs.
-/
namespace WasmDbms

/-- A byte as `NON_ALPHANUMERIC` encodes it. -/
def percentByte (b : UInt8) : List Char :=
  if (Char.ofNat b.toNat).isAlphanum then [Char.ofNat b.toNat]
  else '%' :: [b.toNat / 16, b.toNat % 16].map fun digit => "0123456789ABCDEF".toList.getD digit '0'

/-- The Unicode tables, the rounding of decimals and the percent encoding. -/
structure Externals where
  isWhitespace : Char → Bool
  isAlphanumeric : Char → Bool
  isCased : Char → Bool
  isCaseIgnorable : Char → Bool
  toLower : Char → List Char
  toUpper : Char → List Char
  roundDp : UInt32 → ℚ → ℚ
  percentEncode : List Char → List Char
  space : isWhitespace ' ' = true
  hyphen : isWhitespace '-' = false ∧ toLower '-' = ['-']
  sigma : toLower 'Σ' = ['σ']
  finalSigma : toLower 'ς' = ['ς']
  toLower_toLower : ∀ c, ∀ d ∈ toLower c, toLower d = [d]
  toUpper_toUpper : ∀ c, ∀ d ∈ toUpper c, toUpper d = [d]
  roundDp_scale : ∀ dp q, ∃ n : ℤ, roundDp dp q * 10 ^ dp.toNat = n
  roundDp_eq : ∀ dp (q : ℚ), (∃ n : ℤ, q * 10 ^ dp.toNat = n) → roundDp dp q = q
  percentEncode_eq : ∀ text, percentEncode text = (text.flatMap String.utf8EncodeChar).flatMap percentByte

namespace Externals
variable (X : Externals)

/-! ## Texts -/

/-- `case_ignorable_then_cased`. -/
def caseIgnorableThenCased (text : List Char) : Bool :=
  match (text.dropWhile X.isCaseIgnorable).head? with
  | some c => X.isCased c
  | none => false

/-- `to_lowercase`, with the characters before in reverse. A sigma at the end of a word
has a form of its own. -/
def lowercaseFrom : List Char → List Char → List Char
  | _, [] => []
  | before, c :: rest =>
      (if c = 'Σ' then
        if X.caseIgnorableThenCased before && !X.caseIgnorableThenCased rest then ['ς'] else ['σ']
      else X.toLower c) ++ lowercaseFrom (c :: before) rest

def toLowercase (text : List Char) : List Char := X.lowercaseFrom [] text

def toUppercase (text : List Char) : List Char := text.flatMap X.toUpper

/-- `split_whitespace`. -/
def splitWhitespace (text : List Char) : List (List Char) := Words.words X.isWhitespace text

def trim (text : List Char) : List Char := Words.trim X.isWhitespace text

def slug (text : List Char) : List Char :=
  (Words.join '-' (X.splitWhitespace (X.toLowercase text))).filter fun c => X.isAlphanumeric c || c == '-'

variable {X}

end Externals

/-! ## Values -/

section Values
variable {J : Type} (X : Externals)

/-- A sanitizer of texts. -/
def onText (f : List Char → List Char) : Value J → Except (DbmsError J) (Value J)
  | .text s => .ok (.text (String.ofList (f s.toList)))
  | other => .ok other

/-- `TrimSanitizer`. -/
def trimSanitizer : Value J → Except (DbmsError J) (Value J) := onText X.trim

/-- `CollapseWhitespaceSanitizer`. -/
def collapseWhitespaceSanitizer : Value J → Except (DbmsError J) (Value J) :=
  onText fun text => X.trim (Words.join ' ' (X.splitWhitespace text))

/-- `LowerCaseSanitizer`. -/
def lowerCaseSanitizer : Value J → Except (DbmsError J) (Value J) := onText X.toLowercase

/-- `UpperCaseSanitizer`. -/
def upperCaseSanitizer : Value J → Except (DbmsError J) (Value J) := onText X.toUppercase

/-- `SlugSanitizer`. -/
def slugSanitizer : Value J → Except (DbmsError J) (Value J) := onText X.slug

/-- `UrlEncodingSanitizer`. -/
def urlEncodingSanitizer : Value J → Except (DbmsError J) (Value J) := onText X.percentEncode

/-- `NullIfEmptySanitizer`. -/
def nullIfEmptySanitizer : Value J → Except (DbmsError J) (Value J)
  | .text s => .ok (if s = "" then .null else .text s)
  | other => .ok other

/-- `RoundToScaleSanitizer`. -/
def roundToScaleSanitizer (scale : UInt32) : Value J → Except (DbmsError J) (Value J)
  | .decimal q => .ok (.decimal (X.roundDp scale q))
  | other => .ok other

/-- `Ord::clamp`, which panics when the bounds are in the wrong order: it has no result
then. -/
def clamp {α : Type} [LinearOrder α] (min max n : α) : Except (DbmsError J) α :=
  if min ≤ max then .ok (if n < min then min else if max < n then max else n)
  else .error (.sanitize "assertion failed: min <= max")

/-- `clamp_within`. -/
def clampWithin (min max : Int64) (num typeMin typeMax : ℤ) : Except (DbmsError J) ℤ := do
  let clamped ← clamp min.toInt max.toInt num
  clamp typeMin typeMax clamped

/-- `ClampSanitizer`. -/
def clampSanitizer (min max : Int64) : Value J → Except (DbmsError J) (Value J)
  | .int8 num => do
      let clamped ← clampWithin min max num.toInt Int8.minValue.toInt Int8.maxValue.toInt
      return .int8 (Int8.ofInt clamped)
  | .int16 num => do
      let clamped ← clampWithin min max num.toInt Int16.minValue.toInt Int16.maxValue.toInt
      return .int16 (Int16.ofInt clamped)
  | .int32 num => do
      let clamped ← clampWithin min max num.toInt Int32.minValue.toInt Int32.maxValue.toInt
      return .int32 (Int32.ofInt clamped)
  | .int64 num => do
      let clamped ← clamp min.toInt max.toInt num.toInt
      return .int64 (Int64.ofInt clamped)
  | other => .ok other

/-- `clamp_within` of the unsigned sanitizer. -/
def clampUnsignedWithin (min max : UInt64) (num typeMax : ℕ) : Except (DbmsError J) ℕ := do
  let clamped ← clamp min.toNat max.toNat num
  return Min.min clamped typeMax

/-- `ClampUnsignedSanitizer`. -/
def clampUnsignedSanitizer (min max : UInt64) : Value J → Except (DbmsError J) (Value J)
  | .uint8 num => do
      let clamped ← clampUnsignedWithin min max num.toNat 255
      return .uint8 (UInt8.ofNat clamped)
  | .uint16 num => do
      let clamped ← clampUnsignedWithin min max num.toNat 65535
      return .uint16 (UInt16.ofNat clamped)
  | .uint32 num => do
      let clamped ← clampUnsignedWithin min max num.toNat 4294967295
      return .uint32 (UInt32.ofNat clamped)
  | .uint64 num => do
      let clamped ← clamp min.toNat max.toNat num.toNat
      return .uint64 (UInt64.ofNat clamped)
  | other => .ok other

/-- A sanitizer that comes with the database, or a chain of sanitizers. -/
inductive Sanitizer where
  | trim
  | collapseWhitespace
  | lowerCase
  | upperCase
  | nullIfEmpty
  | roundToScale (scale : UInt32)
  | slug
  | timezone (offset : Int16)
  | utc
  | urlEncoding
  | clamp (min max : Int64)
  | clampUnsigned (min max : UInt64)
  | chain (sanitizers : List Sanitizer)

mutual

/-- `Sanitize::sanitize`. -/
def Sanitizer.sanitize : Sanitizer → Value J → Except (DbmsError J) (Value J)
  | .trim, v => trimSanitizer X v
  | .collapseWhitespace, v => collapseWhitespaceSanitizer X v
  | .lowerCase, v => lowerCaseSanitizer X v
  | .upperCase, v => upperCaseSanitizer X v
  | .nullIfEmpty, v => nullIfEmptySanitizer v
  | .roundToScale scale, v => roundToScaleSanitizer X scale v
  | .slug, v => slugSanitizer X v
  | .timezone offset, v => timezoneSanitizer offset v
  | .utc, v => utcSanitizer v
  | .urlEncoding, v => urlEncodingSanitizer X v
  | .clamp min max, v => clampSanitizer min max v
  | .clampUnsigned min max, v => clampUnsignedSanitizer min max v
  | .chain sanitizers, v => sanitizeChain sanitizers v

/-- `SanitizerChain`: one sanitizer after the other. -/
def sanitizeChain : List Sanitizer → Value J → Except (DbmsError J) (Value J)
  | [], v => .ok v
  | sanitizer :: rest, v => do
      let v ← sanitizer.sanitize v
      sanitizeChain rest v

end

/-- When a sanitizer leaves a value as it is that it can return: the percent encoding
only texts of letters and digits, a chain those its links lead back to. -/
def Sanitizer.Keeps : Sanitizer → Value J → Prop
  | .urlEncoding, .text s => ∀ c ∈ s.toList, c.isAlphanum = true
  | .chain sanitizers, v => sanitizeChain X sanitizers v = .ok v
  | _, _ => True

/-! ## Sanitizing twice -/

variable {X} {v w : Value J}

mutual

/-- No sanitizer changes the null value. -/
theorem Sanitizer.sanitize_null : ∀ k : Sanitizer, k.sanitize X (.null : Value J) = .ok .null
  | .trim => rfl
  | .collapseWhitespace => rfl
  | .lowerCase => rfl
  | .upperCase => rfl
  | .nullIfEmpty => rfl
  | .roundToScale _ => rfl
  | .slug => rfl
  | .timezone _ => rfl
  | .utc => rfl
  | .urlEncoding => rfl
  | .clamp _ _ => rfl
  | .clampUnsigned _ _ => rfl
  | .chain sanitizers => sanitizeChain_null sanitizers

theorem sanitizeChain_null : ∀ sanitizers : List Sanitizer, sanitizeChain X sanitizers (.null : Value J) = .ok .null
  | [] => rfl
  | k :: rest => Result.bind_eq_ok.mpr ⟨.null, k.sanitize_null, sanitizeChain_null rest⟩

end

/-- A chain keeps what all its links keep. -/
theorem sanitizeChain_keeps {sanitizers : List Sanitizer} (links : ∀ k ∈ sanitizers, k.sanitize X v = .ok v) :
    (Sanitizer.chain sanitizers).Keeps X v := by
  induction sanitizers with
  | nil => rfl
  | cons k rest ih =>
      rw [List.forall_mem_cons] at links
      exact Result.bind_eq_ok.mpr ⟨v, links.1, ih links.2⟩

end Values
end WasmDbms
