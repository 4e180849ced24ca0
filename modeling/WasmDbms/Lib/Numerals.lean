import Mathlib.Algebra.Order.Ring.Nat
import Mathlib.Data.List.Basic
import Mathlib.Tactic.Common

/-!
# Texts cut into numerals

Where a text is cut at a separator, decimal numerals of a fixed width, and bytes as pairs
of hexadecimal digits. A text is the list of its characters.
-/
namespace Numerals

/-! ## Cuts -/

section Cuts
variable {α : Type} (p : α → Bool)

/-- The parts before and behind the first separator. -/
def cutOnce : List α → Option (List α × List α)
  | [] => none
  | c :: cs => if p c then some ([], cs) else (cutOnce cs).map fun parts => (c :: parts.1, parts.2)

/-- The parts before and from the last separator on. -/
def cutAtLast : List α → Option (List α × List α)
  | [] => none
  | c :: cs =>
      match cutAtLast cs with
      | some parts => some (c :: parts.1, parts.2)
      | none => if p c then some ([], c :: cs) else none

variable {p} {text front back : List α}

theorem cutOnce_none : cutOnce p text = none ↔ ∀ c ∈ text, p c = false := by
  induction text with
  | nil => exact ⟨fun _ c member => absurd member List.not_mem_nil, fun _ => rfl⟩
  | cons c cs ih =>
      rw [cutOnce, List.forall_mem_cons, ← ih]
      cases p c <;> simp

theorem cutOnce_some : cutOnce p text = some (front, back) ↔
    ∃ c, p c = true ∧ text = front ++ c :: back ∧ ∀ x ∈ front, p x = false := by
  induction text generalizing front with
  | nil =>
      constructor
      · intro cut
        cases cut
      · rintro ⟨c, _, same, _⟩
        cases front <;> cases same
  | cons c cs ih =>
      rw [cutOnce]
      cases hit : p c with
      | true =>
          constructor
          · intro cut
            cases cut
            exact ⟨c, hit, rfl, fun x member => absurd member List.not_mem_nil⟩
          · rintro ⟨d, _, same, clean⟩
            cases front with
            | nil =>
                cases same
                rfl
            | cons x front =>
                obtain ⟨rfl, _⟩ := List.cons.inj same
                rw [clean c List.mem_cons_self] at hit
                cases hit
      | false =>
          constructor
          · intro cut
            obtain ⟨⟨first, rest⟩, inner, same⟩ := Option.map_eq_some_iff.mp cut
            cases same
            obtain ⟨d, found, rfl, clean⟩ := ih.mp inner
            exact ⟨d, found, rfl, List.forall_mem_cons.mpr ⟨hit, clean⟩⟩
          · rintro ⟨d, found, same, clean⟩
            cases front with
            | nil =>
                cases same
                rw [found] at hit
                cases hit
            | cons x front =>
                obtain ⟨rfl, rest⟩ := List.cons.inj same
                have inner := ih.mpr ⟨d, found, rest, (List.forall_mem_cons.mp clean).2⟩
                rw [inner]
                rfl

theorem cutAtLast_none : cutAtLast p text = none ↔ ∀ c ∈ text, p c = false := by
  induction text with
  | nil => exact ⟨fun _ c member => absurd member List.not_mem_nil, fun _ => rfl⟩
  | cons c cs ih =>
      rw [cutAtLast, List.forall_mem_cons, ← ih]
      cases cutAtLast p cs <;> cases p c <;> simp

theorem cutAtLast_some : cutAtLast p text = some (front, back) ↔
    ∃ c rest, p c = true ∧ back = c :: rest ∧ text = front ++ back ∧ ∀ x ∈ rest, p x = false := by
  induction text generalizing front back with
  | nil =>
      constructor
      · intro cut
        cases cut
      · rintro ⟨c, rest, _, rfl, same, _⟩
        cases front <;> cases same
  | cons c cs ih =>
      rw [cutAtLast]
      cases later : cutAtLast p cs with
      | some parts =>
          obtain ⟨d, rest, found, second, whole, clean⟩ := ih.mp later
          constructor
          · intro cut
            cases cut
            exact ⟨d, rest, found, second, by rw [whole]; rfl, clean⟩
          · rintro ⟨e, tail, hit, rfl, same, none_⟩
            cases front with
            | nil =>
                obtain ⟨rfl, rfl⟩ := List.cons.inj same
                have absent := none_ d (by rw [whole, second]; simp)
                rw [found] at absent
                cases absent
            | cons x front =>
                obtain ⟨rfl, behind⟩ := List.cons.inj same
                have again := ih.mpr ⟨e, tail, hit, rfl, behind, none_⟩
                rw [later] at again
                cases again
                rfl
      | none =>
          have absent := cutAtLast_none.mp later
          constructor
          · intro cut
            dsimp only at cut
            split at cut
            · rename_i hit
              cases cut
              exact ⟨c, cs, hit, rfl, rfl, absent⟩
            · cases cut
          · rintro ⟨e, tail, hit, rfl, same, none_⟩
            cases front with
            | nil =>
                cases same
                dsimp only
                rw [if_pos hit]
            | cons x front =>
                obtain ⟨rfl, behind⟩ := List.cons.inj same
                have seen := absent e (by rw [behind]; simp)
                rw [hit] at seen
                cases seen

end Cuts

/-! ## Decimal numerals -/

/-- The number a text of decimal digits stands for. -/
def value (digits : List Char) : ℕ := Nat.ofDigitChars 10 digits 0

/-- A decimal numeral with zeros in front of it up to some width. -/
def padded (width n : ℕ) : List Char :=
  List.replicate (width - (Nat.toDigits 10 n).length) '0' ++ Nat.toDigits 10 n

/-- A text of so many decimal digits for a number. -/
structure NumeralOf (least most : ℕ) (text : List Char) (n : ℕ) : Prop where
  least_le : least ≤ text.length
  le_most : text.length ≤ most
  digits : ∀ c ∈ text, c.isDigit = true
  value_eq : value text = n

theorem padded_value (width n : ℕ) : value (padded width n) = n := by
  rw [value, padded, Nat.ofDigitChars_append, Nat.ofDigitChars_replicate_zero, Nat.mul_zero, Nat.ofDigitChars_ten_toDigits]

theorem padded_digits (width n : ℕ) : ∀ c ∈ padded width n, c.isDigit = true := by
  intro c member
  rcases List.mem_append.mp member with zero | digit
  · rw [List.eq_of_mem_replicate zero]
    rfl
  · exact Nat.isDigit_of_mem_toDigits (by decide) (by decide) digit

theorem padded_length (width n : ℕ) : (padded width n).length = max width (Nat.toDigits 10 n).length := by
  rw [padded, List.length_append, List.length_replicate]
  omega

/-- A number below the power of ten fills the width. -/
theorem padded_numeral {width n least most : ℕ} (fits : n < 10 ^ most) (some_ : 0 < most) (low : least ≤ width) (high : width ≤ most) :
    NumeralOf least most (padded width n) n := by
  have short := (Nat.length_toDigits_le_iff (b := 10) (by decide) some_).mpr fits
  refine ⟨?_, ?_, padded_digits width n, padded_value width n⟩
  · rw [padded_length]
    omega
  · rw [padded_length]
    omega

theorem NumeralOf.notMem {least most : ℕ} {text : List Char} {n : ℕ} (numeral : NumeralOf least most text n) {c : Char}
    (other : c.isDigit = false) : c ∉ text := by
  intro member
  rw [numeral.digits c member] at other
  cases other

theorem digit_le {c : Char} (digit : c.isDigit = true) : '0'.toNat ≤ c.toNat ∧ c.toNat - '0'.toNat ≤ 9 := by
  change (decide (c.val ≥ '0'.val) && decide (c.val ≤ '9'.val)) = true at digit
  rw [Bool.and_eq_true, decide_eq_true_eq, decide_eq_true_eq] at digit
  have nine : c.toNat ≤ 57 := UInt32.le_iff_toNat_le.mp digit.2
  have zero : '0'.toNat ≤ c.toNat := UInt32.le_iff_toNat_le.mp digit.1
  have forty : '0'.toNat = 48 := rfl
  omega

theorem value_cons (c : Char) (text : List Char) : value (c :: text) = 10 ^ text.length * (c.toNat - '0'.toNat) + value text := by
  rw [value, Nat.ofDigitChars_cons, Nat.mul_zero, Nat.zero_add, Nat.ofDigitChars_eq_ofDigitChars_zero]
  rfl

theorem value_lt {text : List Char} (digits : ∀ c ∈ text, c.isDigit = true) : value text < 10 ^ text.length := by
  induction text with
  | nil => exact Nat.one_pos
  | cons c cs ih =>
      obtain ⟨digit, rest⟩ := List.forall_mem_cons.mp digits
      have low := ih rest
      have share := Nat.mul_le_mul_left (10 ^ cs.length) (digit_le digit).2
      rw [value_cons, List.length_cons, Nat.pow_succ]
      omega

/-- Two texts of digits of one length that stand for one number are the same. -/
theorem value_injective {text other : List Char} (digits : ∀ c ∈ text, c.isDigit = true) (digits' : ∀ c ∈ other, c.isDigit = true)
    (long : text.length = other.length) (same : value text = value other) : text = other := by
  induction text generalizing other with
  | nil => exact (List.length_eq_zero_iff.mp long.symm).symm
  | cons c text ih =>
      cases other with
      | nil => cases long
      | cons d other =>
          obtain ⟨first, rest⟩ := List.forall_mem_cons.mp digits
          obtain ⟨first', rest'⟩ := List.forall_mem_cons.mp digits'
          have long : text.length = other.length := Nat.succ.inj long
          have low := value_lt rest
          have low' := value_lt rest'
          rw [value_cons, value_cons, ← long] at same
          rw [← long] at low'
          -- the leading digit is the quotient by the power of ten, the others are the remainder
          have split (q r : ℕ) (small : r < 10 ^ text.length) :
              (10 ^ text.length * q + r) / 10 ^ text.length = q ∧ (10 ^ text.length * q + r) % 10 ^ text.length = r := by
            constructor
            · rw [Nat.mul_add_div (Nat.zero_lt_of_lt small), Nat.div_eq_of_lt small, Nat.add_zero]
            · rw [Nat.mul_add_mod, Nat.mod_eq_of_lt small]
          have lead := (split _ _ low).1.symm.trans ((congrArg (· / 10 ^ text.length) same).trans (split _ _ low').1)
          have behind := (split _ _ low).2.symm.trans ((congrArg (· % 10 ^ text.length) same).trans (split _ _ low').2)
          have bound := (digit_le first).1
          have bound' := (digit_le first').1
          have chars : c = d := Char.toNat_inj.mp (by omega)
          rw [chars, ih rest rest' long behind]

/-- Digits are their number with zeros in front. -/
theorem padded_of_digits {text : List Char} (some_ : text ≠ []) (digits : ∀ c ∈ text, c.isDigit = true) :
    padded text.length (value text) = text := by
  have short := (Nat.length_toDigits_le_iff (b := 10) (by decide) (List.length_pos_of_ne_nil some_)).mpr (value_lt digits)
  refine value_injective (padded_digits _ _) digits ?_ (padded_value _ _)
  rw [padded_length, Nat.max_eq_left short]

/-! ## Bytes in hexadecimal -/

/-- The lower-case digit of a number below sixteen. -/
def hexDigit (n : ℕ) : Char := "0123456789abcdef".toList.getD n '0'

/-- The number of a digit of either case. -/
def hexValue (c : Char) : Option ℕ :=
  if c.isDigit then some (c.toNat - 48)
  else if 'a' ≤ c ∧ c ≤ 'f' then some (c.toNat - 87)
  else if 'A' ≤ c ∧ c ≤ 'F' then some (c.toNat - 55)
  else none

def isHexDigit (c : Char) : Bool := (hexValue c).isSome

/-- The digits of bytes, the high half first. -/
def hexText (bytes : List UInt8) : List Char :=
  bytes.flatMap fun byte => [hexDigit (byte.toNat / 16), hexDigit (byte.toNat % 16)]

/-- The bytes of pairs of digits. -/
def hexBytes : List Char → Option (List UInt8)
  | [] => some []
  | [_] => none
  | high :: low :: rest => do
      let high ← hexValue high
      let low ← hexValue low
      let bytes ← hexBytes rest
      return UInt8.ofNat (16 * high + low) :: bytes

theorem hexValue_hexDigit {n : ℕ} (small : n < 16) : hexValue (hexDigit n) = some n := by
  have all : ∀ n < 16, hexValue (hexDigit n) = some n := by decide
  exact all n small

theorem isHexDigit_hexDigit {n : ℕ} (small : n < 16) : isHexDigit (hexDigit n) = true := by
  rw [isHexDigit, hexValue_hexDigit small]
  rfl

theorem hexText_digits (bytes : List UInt8) : ∀ c ∈ hexText bytes, isHexDigit c = true := by
  intro c member
  obtain ⟨byte, _, inside⟩ := List.mem_flatMap.mp member
  have bound := byte.toNat_lt
  rcases List.mem_cons.mp inside with rfl | inside
  · exact isHexDigit_hexDigit (by omega)
  · rw [List.mem_singleton.mp inside]
    exact isHexDigit_hexDigit (Nat.mod_lt _ (by decide))

theorem hexText_length (bytes : List UInt8) : (hexText bytes).length = 2 * bytes.length := by
  induction bytes with
  | nil => rfl
  | cons byte bytes ih =>
      rw [hexText, List.flatMap_cons, List.length_append, ← hexText, ih, List.length_cons, List.length_cons, List.length_cons,
        List.length_nil]
      omega

theorem hexBytes_hexText (bytes : List UInt8) : hexBytes (hexText bytes) = some bytes := by
  induction bytes with
  | nil => rfl
  | cons byte bytes ih =>
      have bound := byte.toNat_lt
      have whole : 16 * (byte.toNat / 16) + byte.toNat % 16 = byte.toNat := Nat.div_add_mod byte.toNat 16
      have text : hexText (byte :: bytes) = hexDigit (byte.toNat / 16) :: hexDigit (byte.toNat % 16) :: hexText bytes := rfl
      rw [text, hexBytes, hexValue_hexDigit (by omega), hexValue_hexDigit (Nat.mod_lt _ (by decide)), ih]
      simp only [Option.bind_eq_bind, Option.bind_some, whole, UInt8.ofNat_toNat]
      rfl

end Numerals
