import WasmDbms.Migration.StoredValue
import WasmDbms.Lib.Numerals

/-!
# Bytes in texts

The parsers of the planner for blobs and identifiers, and what `Display` prints of an
identifier.
-/
namespace WasmDbms.Sql
open Numerals

/-- `text` after an optional `0x`. -/
def stripHex : List Char → List Char
  | '0' :: 'x' :: digits => digits
  | '0' :: 'X' :: digits => digits
  | text => text

/-- `parse_hex`. -/
def parseHex (text : List Char) : Option (List UInt8) :=
  if (stripHex text).length % 2 = 0 ∧ (stripHex text).all isHexDigit then hexBytes (stripHex text) else none

/-- What `parse_uuid` wants of a character at its place. -/
def fitsUuid (index : ℕ) (c : Char) : Bool :=
  if index = 8 ∨ index = 13 ∨ index = 18 ∨ index = 23 then c == '-' else isHexDigit c

/-- `parse_uuid`. -/
def parseUuid (text : List Char) : Option {bytes : List UInt8 // bytes.length = 16} :=
  if text.length = 36 ∧ text.zipIdx.all fun placed => fitsUuid placed.2 placed.1 then do
    let bytes ← parseHex (text.filter (· ≠ '-'))
    (decodeUuid bytes).toOption
  else none

end WasmDbms.Sql

namespace WasmDbms
open Numerals

/-- `Display` of an identifier: lower case in groups of 8-4-4-4-12 digits. -/
def displayUuid (bytes : List UInt8) : List Char :=
  hexText (bytes.take 4) ++ '-' :: (hexText ((bytes.drop 4).take 2) ++ '-' :: (hexText ((bytes.drop 6).take 2) ++ '-' ::
    (hexText ((bytes.drop 8).take 2) ++ '-' :: hexText (bytes.drop 10))))

end WasmDbms

namespace WasmDbms.Sql
open Numerals

/-! ## The form of the texts -/

/-- Two digits a byte, behind an optional `0x`. -/
def HexText (text : List Char) (bytes : List UInt8) : Prop :=
  ∃ digits, (text = digits ∨ text = '0' :: 'x' :: digits ∨ text = '0' :: 'X' :: digits) ∧ hexBytes digits = some bytes

/-- Groups of 8-4-4-4-12 digits. -/
def UuidText (text : List Char) (bytes : List UInt8) : Prop :=
  ∃ a b c d e, text = a ++ '-' :: (b ++ '-' :: (c ++ '-' :: (d ++ '-' :: e))) ∧
    (a.length = 8 ∧ b.length = 4 ∧ c.length = 4 ∧ d.length = 4 ∧ e.length = 12) ∧ hexBytes (a ++ b ++ c ++ d ++ e) = some bytes

/-! ## Digits -/

theorem hexBytes_some {digits : List Char} {bytes : List UInt8} (found : hexBytes digits = some bytes) :
    digits.length = 2 * bytes.length ∧ ∀ c ∈ digits, isHexDigit c = true := by
  induction digits using hexBytes.induct generalizing bytes with
  | case1 =>
      cases found
      exact ⟨rfl, fun c member => absurd member List.not_mem_nil⟩
  | case2 c => cases found
  | case3 high low rest ih =>
      obtain ⟨h, hh, found⟩ := Option.bind_eq_some_iff.mp found
      obtain ⟨l, hl, found⟩ := Option.bind_eq_some_iff.mp found
      obtain ⟨behind, hr, found⟩ := Option.bind_eq_some_iff.mp found
      cases found
      obtain ⟨length, inside⟩ := ih hr
      refine ⟨?_, List.forall_mem_cons.mpr ⟨?_, List.forall_mem_cons.mpr ⟨?_, inside⟩⟩⟩
      · rw [List.length_cons, List.length_cons, List.length_cons, length]
        omega
      · rw [isHexDigit, hh]
        rfl
      · rw [isHexDigit, hl]
        rfl

theorem isHexDigit_x : isHexDigit 'x' = false ∧ isHexDigit 'X' = false ∧ isHexDigit '-' = false := by decide

theorem stripHex_digits {text : List Char} (digits : ∀ c ∈ text, isHexDigit c = true) : stripHex text = text := by
  unfold stripHex
  split
  · have hex := digits 'x' (by simp)
    rw [isHexDigit_x.1] at hex
    cases hex
  · have hex := digits 'X' (by simp)
    rw [isHexDigit_x.2.1] at hex
    cases hex
  · rfl

/-- A text is accepted exactly when it is bytes in hexadecimal. -/
theorem parseHex_some {text : List Char} {bytes : List UInt8} : parseHex text = some bytes ↔ HexText text bytes := by
  constructor
  · intro parsed
    rw [parseHex] at parsed
    split at parsed
    · refine ⟨stripHex text, ?_, parsed⟩
      unfold stripHex
      split
      · exact .inr (.inl rfl)
      · exact .inr (.inr rfl)
      · exact .inl rfl
    · cases parsed
  · rintro ⟨digits, form, found⟩
    obtain ⟨length, inside⟩ := hexBytes_some found
    have stripped : stripHex text = digits := by
      rcases form with rfl | rfl | rfl
      · exact stripHex_digits inside
      · rfl
      · rfl
    rw [parseHex, stripped, if_pos ⟨by omega, List.all_eq_true.mpr inside⟩, found]

/-- The hexadecimal text of bytes is parsed back. -/
theorem parseHex_hexText (bytes : List UInt8) : parseHex (hexText bytes) = some bytes :=
  parseHex_some.mpr ⟨hexText bytes, .inl rfl, hexBytes_hexText bytes⟩

/-! ## Identifiers -/

/-- A text around the hyphen at a place. -/
theorem split_hyphen {text : List Char} {index : ℕ} (hyphen : text[index]? = some '-') :
    text = text.take index ++ '-' :: text.drop (index + 1) := by
  obtain ⟨inside, same⟩ := List.getElem?_eq_some_iff.mp hyphen
  rw [← same, ← List.drop_eq_getElem_cons, List.take_append_drop]

/-- The places of the hyphens. -/
def IsHyphen (index : ℕ) : Prop := index = 8 ∨ index = 13 ∨ index = 18 ∨ index = 23

theorem fitsUuid_hyphen {index : ℕ} {c : Char} (hyphen : IsHyphen index) : fitsUuid index c = true ↔ c = '-' := by
  have here : fitsUuid index c = (c == '-') := if_pos hyphen
  rw [here, beq_iff_eq]

theorem fitsUuid_digit {index : ℕ} {c : Char} (digit : ¬ IsHyphen index) : fitsUuid index c = isHexDigit c := if_neg digit

section Groups
variable {text group : List Char} {start length : ℕ}

/-- The characters between two hyphens are digits. -/
theorem group_digits (fits : ∀ index c, text[index]? = some c → fitsUuid index c = true)
    (between : ∀ index, start ≤ index → index < start + length → ¬ IsHyphen index) :
    ∀ c ∈ (text.drop start).take length, isHexDigit c = true := by
  intro c member
  obtain ⟨index, found⟩ := List.mem_iff_getElem?.mp member
  rw [List.getElem?_take] at found
  split at found
  · rename_i inside
    rw [List.getElem?_drop] at found
    rw [← fitsUuid_digit (between (start + index) (by omega) (by omega))]
    exact fits (start + index) c found
  · cases found

/-- Digits between two hyphens fit. -/
theorem fits_group (digits : ∀ c ∈ group, isHexDigit c = true)
    (between : ∀ index, start ≤ index → index < start + group.length → ¬ IsHyphen index) :
    (group.zipIdx start).all (fun placed => fitsUuid placed.2 placed.1) = true := by
  apply List.all_eq_true.mpr
  rintro ⟨c, index⟩ member
  obtain ⟨low, high, same⟩ := List.mem_zipIdx member
  dsimp only
  rw [fitsUuid_digit (between index low high), same]
  exact digits _ (List.getElem_mem _)

theorem filter_group (digits : ∀ c ∈ group, isHexDigit c = true) : group.filter (· ≠ '-') = group := by
  apply List.filter_eq_self.mpr
  intro c member
  rw [decide_eq_true_eq]
  rintro rfl
  have hex := digits '-' member
  rw [isHexDigit_x.2.2] at hex
  cases hex

end Groups

/-- The hyphens of five groups are taken out. -/
theorem filter_groups {a b c d e : List Char} (digits : ∀ x ∈ a ++ b ++ c ++ d ++ e, isHexDigit x = true) :
    (a ++ '-' :: (b ++ '-' :: (c ++ '-' :: (d ++ '-' :: e)))).filter (· ≠ '-') = a ++ b ++ c ++ d ++ e := by
  have none_ : ('-' :: ([] : List Char)).filter (· ≠ '-') = [] := rfl
  have whole := filter_group digits
  simp only [List.filter_append] at whole ⊢
  have cons : ∀ rest : List Char, ('-' :: rest).filter (· ≠ '-') = rest.filter (· ≠ '-') := fun rest => rfl
  simp only [cons, List.filter_append]
  rw [← whole]
  simp only [List.append_assoc]

/-- A text is accepted exactly when it is an identifier in the documented form. -/
theorem parseUuid_some {text : List Char} {uuid : {bytes : List UInt8 // bytes.length = 16}} :
    parseUuid text = some uuid ↔ UuidText text uuid.1 := by
  constructor
  · intro parsed
    rw [parseUuid] at parsed
    split at parsed
    · rename_i form
      obtain ⟨length, all⟩ := form
      have fits : ∀ index c, text[index]? = some c → fitsUuid index c = true := by
        intro index c found
        exact List.all_eq_true.mp all (c, index) (List.mem_zipIdx_iff_getElem?.mpr found)
      have hyphen : ∀ index, IsHyphen index → text[index]? = some '-' := by
        intro index place
        have inside : index < text.length := by
          rcases place with rfl | rfl | rfl | rfl <;> omega
        have found := List.getElem?_eq_getElem inside
        rw [found, (fitsUuid_hyphen place).mp (fits index _ found)]
      have between : ∀ {start length}, (∀ index, start ≤ index → index < start + length → ¬ IsHyphen index) →
          ∀ c ∈ (text.drop start).take length, isHexDigit c = true := group_digits fits
      have split : ∀ start step, IsHyphen (start + step) →
          text.drop start = (text.drop start).take step ++ '-' :: text.drop (start + step + 1) := by
        intro start step place
        have here : (text.drop start)[step]? = some '-' := by rw [List.getElem?_drop, hyphen _ place]
        have parts := split_hyphen here
        rwa [List.drop_drop] at parts
      have first := split 0 8 (.inl rfl)
      have second := split 9 4 (.inr (.inl rfl))
      have third := split 14 4 (.inr (.inr (.inl rfl)))
      have fourth := split 19 4 (.inr (.inr (.inr rfl)))
      have last : text.drop 24 = (text.drop 24).take 12 := (List.take_of_length_le (by rw [List.length_drop, length])).symm
      have apart : text = (text.drop 0).take 8 ++ '-' :: ((text.drop 9).take 4 ++ '-' :: ((text.drop 14).take 4 ++ '-' ::
          ((text.drop 19).take 4 ++ '-' :: (text.drop 24).take 12))) := by
        rw [← last, ← fourth, ← third, ← second, ← first, List.drop_zero]
      have digits : ∀ x ∈ (text.drop 0).take 8 ++ (text.drop 9).take 4 ++ (text.drop 14).take 4 ++ (text.drop 19).take 4 ++
          (text.drop 24).take 12, isHexDigit x = true := by
        simp only [List.forall_mem_append]
        refine ⟨⟨⟨⟨between ?_, between ?_⟩, between ?_⟩, between ?_⟩, between ?_⟩ <;>
          · intro index low high place
            rcases place with rfl | rfl | rfl | rfl <;> omega
      obtain ⟨bytes, found, decoded⟩ := Option.bind_eq_some_iff.mp parsed
      rw [apart, filter_groups digits, parseHex, stripHex_digits digits] at found
      split at found
      · obtain ⟨long, _⟩ := hexBytes_some found
        simp only [List.length_append, List.length_take, List.length_drop] at long
        have sixteen : bytes.length = 16 := by omega
        have decodes := decodeUuid_encode ⟨bytes, sixteen⟩
        dsimp only at decodes
        rw [decodes] at decoded
        obtain rfl := Option.some.inj decoded
        refine ⟨_, _, _, _, _, apart, ?_, found⟩
        simp only [List.length_take, List.length_drop]
        omega
      · cases found
    · cases parsed
  · rintro ⟨a, b, c, d, e, rfl, ⟨la, lb, lc, ld, le⟩, found⟩
    obtain ⟨_, digits⟩ := hexBytes_some found
    have hex : parseHex (a ++ b ++ c ++ d ++ e) = some uuid.1 := parseHex_some.mpr ⟨_, .inl rfl, found⟩
    have form : (a ++ '-' :: (b ++ '-' :: (c ++ '-' :: (d ++ '-' :: e)))).zipIdx.all (fun placed => fitsUuid placed.2 placed.1) = true := by
      simp only [List.forall_mem_append] at digits
      obtain ⟨⟨⟨⟨da, db⟩, dc⟩, dd⟩, de⟩ := digits
      have group : ∀ {start : ℕ} {g : List Char}, (∀ x ∈ g, isHexDigit x = true) →
          (∀ index, start ≤ index → index < start + g.length → ¬ IsHyphen index) →
          (g.zipIdx start).all (fun placed => fitsUuid placed.2 placed.1) = true := fits_group
      simp only [List.zipIdx_append, List.zipIdx_cons, List.all_append, List.all_cons, Bool.and_eq_true, la, lb, lc, ld]
      refine ⟨group da ?_, rfl, group db ?_, rfl, group dc ?_, rfl, group dd ?_, rfl, group de ?_⟩ <;>
        · intro index low high place
          rcases place with rfl | rfl | rfl | rfl <;> omega
    have length : (a ++ '-' :: (b ++ '-' :: (c ++ '-' :: (d ++ '-' :: e)))).length = 36 := by
      simp only [List.length_append, List.length_cons]
      omega
    rw [parseUuid, if_pos ⟨length, form⟩, filter_groups digits, hex]
    change (decodeUuid uuid.1).toOption = some uuid
    rw [decodeUuid_encode]
    rfl

/-- The text of an identifier is parsed back. -/
theorem parseUuid_display (uuid : {bytes : List UInt8 // bytes.length = 16}) : parseUuid (displayUuid uuid.1) = some uuid := by
  obtain ⟨bytes, sixteen⟩ := uuid
  refine parseUuid_some.mpr ⟨_, _, _, _, _, rfl, ?_, ?_⟩
  · simp only [hexText_length, List.length_take, List.length_drop, sixteen]
    decide
  · have whole : bytes.take 4 ++ (bytes.drop 4).take 2 ++ (bytes.drop 6).take 2 ++ (bytes.drop 8).take 2 ++ bytes.drop 10 = bytes := by
      have step : ∀ n k, (bytes.drop n).take k ++ bytes.drop (n + k) = bytes.drop n := by
        intro n k
        rw [← List.drop_drop, List.take_append_drop]
      rw [List.append_assoc, List.append_assoc, List.append_assoc, step 8 2, step 6 2, step 4 2, List.take_append_drop]
    have texts : ∀ front back : List UInt8, hexText front ++ hexText back = hexText (front ++ back) :=
      fun front back => List.flatMap_append.symm
    rw [texts, texts, texts, texts, whole, hexBytes_hexText]

end WasmDbms.Sql
