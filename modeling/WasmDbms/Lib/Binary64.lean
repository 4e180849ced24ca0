import Mathlib.Algebra.Order.Field.Rat
import Mathlib.Algebra.Order.Ring.Cast
import Mathlib.Algebra.Order.Ring.Int
import Mathlib.Algebra.Order.Ring.Nat
import Mathlib.Order.Compare
import Mathlib.Tactic.Ring

/-!
# Finite binary64 numbers

The finite numbers of the format by sign, biased exponent and fraction, with the rationals
they denote. A value has one representation, zero apart; dropping the fractional part stays
inside the format, and so does what is dropped.
-/

/-- A finite binary64 number; the exponent 2047 is that of infinities and NaNs. -/
structure Binary64 where
  negative : Bool
  exponent : Fin 2047
  fraction : Fin 4503599627370496
  deriving DecidableEq, Repr

namespace Binary64

/-- The significand, with the hidden bit of normal numbers. -/
def significand (f : Binary64) : ℕ := if f.exponent.val = 0 then f.fraction.val else 2 ^ 52 + f.fraction.val

/-- The exponent in units of the smallest positive number. -/
def shift (f : Binary64) : ℕ := f.exponent.val - 1

/-- The absolute value in units of the smallest positive number, `2 ^ (-1074)`. -/
def magnitude (f : Binary64) : ℕ := f.significand * 2 ^ f.shift

def scaled (f : Binary64) : ℤ := if f.negative then -(f.magnitude : ℤ) else f.magnitude

/-- The bits behind the point of the smallest positive number. -/
@[irreducible] def places : ℕ := 1074

/-- One in units of the smallest positive number. -/
def unit : ℕ := 2 ^ places

/-- The rational the number stands for. -/
def value (f : Binary64) : ℚ := f.scaled / unit

/-- The bits of the number. -/
def toBits (f : Binary64) : ℕ := (if f.negative then 2 ^ 63 else 0) + f.exponent.val * 2 ^ 52 + f.fraction.val

def zero : Binary64 := ⟨false, 0, 0⟩

theorem places_eq : places = 1074 := by
  rw [places]

theorem unit_eq {a b : ℕ} (parts : a + b = places) : unit = 2 ^ a * 2 ^ b := by
  rw [unit, ← parts, Nat.pow_add]

theorem unit_pos : 0 < unit := Nat.two_pow_pos places

theorem unit_ne_zero : (unit : ℚ) ≠ 0 := Nat.cast_ne_zero.mpr unit_pos.ne'

theorem significand_lt (f : Binary64) : f.significand < 2 ^ 53 := by
  have small := f.fraction.isLt
  rw [significand]
  split <;> omega

/-- The significand is normal or the exponent is the least. -/
theorem normal (f : Binary64) : 2 ^ 52 ≤ f.significand ∨ f.shift = 0 := by
  rw [significand, shift]
  split <;> omega

theorem shift_le (f : Binary64) : f.shift ≤ 2045 := by
  have small := f.exponent.isLt
  rw [shift]
  omega

/-- The magnitude determines significand and shift: with the larger shift the significand would
be too long. -/
theorem magnitude_injective {f g : Binary64} (same : f.magnitude = g.magnitude) : f.significand = g.significand ∧ f.shift = g.shift := by
  have upto {f g : Binary64} (same : f.magnitude = g.magnitude) : f.shift ≤ g.shift := by
    by_contra high
    obtain ⟨k, longer⟩ := Nat.exists_eq_add_of_lt (Nat.lt_of_not_le high)
    have normal_ := f.normal.resolve_right (by omega)
    rw [magnitude, magnitude, longer, Nat.pow_succ, Nat.pow_add] at same
    have cancelled : f.significand * (2 ^ k * 2) = g.significand :=
      Nat.eq_of_mul_eq_mul_right (Nat.two_pow_pos g.shift) (by rw [← same]; ring)
    have short := g.significand_lt
    have grown : 1 ≤ 2 ^ k := Nat.two_pow_pos k
    have long : f.significand * 2 ≤ f.significand * (2 ^ k * 2) := Nat.mul_le_mul_left _ (by omega)
    omega
  have shifts : f.shift = g.shift := Nat.le_antisymm (upto same) (upto same.symm)
  refine ⟨?_, shifts⟩
  rw [magnitude, magnitude, shifts] at same
  exact Nat.eq_of_mul_eq_mul_right (Nat.two_pow_pos _) same

theorem fields_eq {f g : Binary64} (significands : f.significand = g.significand) (shifts : f.shift = g.shift) :
    f.exponent = g.exponent ∧ f.fraction = g.fraction := by
  have small := f.fraction.isLt
  have small' := g.fraction.isLt
  rw [significand, significand] at significands
  rw [shift, shift] at shifts
  split at significands
  · split at significands
    · exact ⟨Fin.ext (by omega), Fin.ext significands⟩
    · omega
  · split at significands
    · omega
    · exact ⟨Fin.ext (by omega), Fin.ext (by omega)⟩

theorem value_eq_iff {f g : Binary64} : f.value = g.value ↔ f.scaled = g.scaled := by
  rw [value, value, div_left_inj' unit_ne_zero, Int.cast_inj]

/-- Numbers with one value are the same, unless they are the two zeros. -/
theorem value_injective {f g : Binary64} (same : f.value = g.value) (some_ : f.scaled ≠ 0) : f = g := by
  have same := value_eq_iff.mp same
  have parts (h : Binary64) : h.scaled.natAbs = h.magnitude := by
    rw [scaled]
    split <;> simp
  have magnitudes : f.magnitude = g.magnitude := by rw [← parts f, ← parts g, same]
  have signs : f.negative = g.negative := by
    rw [scaled, scaled, magnitudes] at same
    rw [scaled, magnitudes] at some_
    cases first : f.negative <;> cases second : g.negative <;> simp [first, second] at same some_ ⊢ <;> omega
  obtain ⟨exponents, fractions⟩ := fields_eq (magnitude_injective magnitudes).1 (magnitude_injective magnitudes).2
  cases f
  cases g
  cases signs
  cases exponents
  cases fractions
  rfl

/-! ## The integral part -/

/-- The float without its fractional part. -/
def trunc (f : Binary64) : Binary64 :=
  if f.exponent.val < 1023 then ⟨f.negative, 0, 0⟩
  else if 1075 ≤ f.exponent.val then f
  else ⟨f.negative, f.exponent,
    ⟨f.fraction.val - f.fraction.val % 2 ^ (1075 - f.exponent.val), Nat.lt_of_le_of_lt (Nat.sub_le _ _) f.fraction.isLt⟩⟩

/-- The conversion to a signed integer of 128 bits, which saturates. -/
def toI128 (f : Binary64) : ℤ := max (-2 ^ 127) (min (2 ^ 127 - 1) (f.scaled.tdiv unit))

/-- The bits below one, as far as there are any. -/
theorem magnitude_mod (f : Binary64) : ∃ r, r < 2 ^ 53 ∧ f.magnitude % unit = r * 2 ^ f.shift := by
  rcases Nat.lt_or_ge places f.shift with high | low
  · refine ⟨0, by decide, ?_⟩
    obtain ⟨k, longer⟩ := Nat.exists_eq_add_of_le high.le
    have divides : unit ∣ f.magnitude := by
      rw [magnitude, longer, unit_eq (Nat.add_zero places), Nat.pow_add, Nat.pow_zero, Nat.mul_one]
      exact (Nat.dvd_mul_right _ _).mul_left _
    rw [Nat.mod_eq_zero_of_dvd divides, Nat.zero_mul]
  · refine ⟨f.significand % 2 ^ (places - f.shift), ?_, ?_⟩
    · exact Nat.lt_of_le_of_lt (Nat.mod_le _ _) f.significand_lt
    · rw [magnitude, unit_eq (Nat.sub_add_cancel low), Nat.mul_mod_mul_right]

theorem trunc_negative (f : Binary64) : f.trunc.negative = f.negative := by
  rw [trunc]
  split
  · rfl
  · split <;> rfl

/-- Truncation clears the bits below one. -/
theorem trunc_magnitude (f : Binary64) : f.trunc.magnitude = f.magnitude - f.magnitude % unit := by
  rw [trunc]
  split
  · rename_i small
    have bound : f.magnitude < unit := by
      have short : f.shift ≤ 1021 := by
        rw [shift]
        omega
      calc f.magnitude < 2 ^ 53 * 2 ^ f.shift := Nat.mul_lt_mul_of_pos_right f.significand_lt (Nat.two_pow_pos _)
        _ ≤ 2 ^ (places - f.shift) * 2 ^ f.shift := by
          refine Nat.mul_le_mul_right _ (Nat.pow_le_pow_right (by decide) ?_)
          rw [places_eq]
          omega
        _ = unit := by
          refine (unit_eq (Nat.sub_add_cancel ?_)).symm
          rw [places_eq]
          omega
    rw [Nat.mod_eq_of_lt bound, Nat.sub_self]
    rfl
  · rename_i some_
    split
    · rename_i large
      obtain ⟨k, longer⟩ : ∃ k, f.shift = places + k := Nat.exists_eq_add_of_le (by
        rw [shift, places_eq]
        omega)
      have divides : unit ∣ f.magnitude := by
        rw [magnitude, longer, unit_eq (Nat.add_zero places), Nat.pow_add, Nat.pow_zero, Nat.mul_one]
        exact (Nat.dvd_mul_right _ _).mul_left _
      rw [Nat.mod_eq_zero_of_dvd divides, Nat.sub_zero]
    · rename_i within
      -- the low bits of the fraction are those below one
      have hidden : f.significand = 2 ^ 52 + f.fraction.val := if_neg (by omega)
      have parts : 1075 - f.exponent.val + f.shift = places := by
        rw [shift, places_eq]
        omega
      have low : f.significand % 2 ^ (1075 - f.exponent.val) = f.fraction.val % 2 ^ (1075 - f.exponent.val) := by
        have short : 1075 - f.exponent.val ≤ 52 := by omega
        obtain ⟨k, split_⟩ := Nat.pow_dvd_pow 2 short
        rw [hidden, split_, Nat.mul_add_mod]
      have bits : f.fraction.val % 2 ^ (1075 - f.exponent.val) ≤ f.fraction.val := Nat.mod_le _ _
      rw [magnitude, magnitude, unit_eq parts, Nat.mul_mod_mul_right, low, ← Nat.sub_mul, hidden]
      change (if f.exponent.val = 0 then _ else 2 ^ 52 + (f.fraction.val - f.fraction.val % 2 ^ (1075 - f.exponent.val))) *
        2 ^ f.shift = _
      rw [if_neg (by omega), ← Nat.add_sub_assoc bits]

/-- The integral part as an integer. -/
def whole (f : Binary64) : ℤ := if f.negative then -((f.magnitude / unit : ℕ) : ℤ) else ((f.magnitude / unit : ℕ) : ℤ)

theorem trunc_scaled (f : Binary64) : f.trunc.scaled = unit * f.whole := by
  have parts : f.magnitude - f.magnitude % unit = unit * (f.magnitude / unit) := by
    have together := Nat.div_add_mod f.magnitude unit
    omega
  rw [scaled, trunc_negative, trunc_magnitude, parts, whole, Nat.cast_mul]
  split
  · rw [mul_neg]
  · rfl

theorem trunc_value (f : Binary64) : f.trunc.value = f.whole := by
  rw [value, trunc_scaled, Int.cast_mul, Int.cast_natCast, mul_div_cancel_left₀ _ unit_ne_zero]

/-- What truncation drops. -/
theorem scaled_sub_trunc (f : Binary64) : f.scaled - f.trunc.scaled =
    if f.negative then -((f.magnitude % unit : ℕ) : ℤ) else ((f.magnitude % unit : ℕ) : ℤ) := by
  have parts : (f.magnitude : ℤ) = unit * ((f.magnitude / unit : ℕ) : ℤ) + ((f.magnitude % unit : ℕ) : ℤ) := by
    exact_mod_cast (Nat.div_add_mod f.magnitude unit).symm
  rw [trunc_scaled, scaled, whole]
  split
  · rw [parts]
    ring
  · rw [parts]
    ring

theorem value_sub_trunc (f : Binary64) : f.value - f.trunc.value = ((f.scaled - f.trunc.scaled : ℤ) : ℚ) / unit := by
  rw [value, value, Int.cast_sub, sub_div]

theorem abs_sub_trunc_lt (f : Binary64) : |f.value - f.trunc.value| < 1 := by
  have dropped : |f.scaled - f.trunc.scaled| < unit := by
    have small : f.magnitude % unit < unit := Nat.mod_lt _ unit_pos
    rw [scaled_sub_trunc]
    split
    · rw [abs_neg, abs_of_nonneg (Int.natCast_nonneg _)]
      exact_mod_cast small
    · rw [abs_of_nonneg (Int.natCast_nonneg _)]
      exact_mod_cast small
  have positive : (0 : ℚ) < unit := Nat.cast_pos.mpr unit_pos
  obtain ⟨low, high⟩ := abs_lt.mp dropped
  rw [value_sub_trunc, abs_lt, lt_div_iff₀ positive, div_lt_iff₀ positive, neg_one_mul, one_mul]
  have low : ((-(unit : ℤ) : ℤ) : ℚ) < ((f.scaled - f.trunc.scaled : ℤ) : ℚ) := Int.cast_lt.mpr low
  rw [Int.cast_neg, Int.cast_natCast] at low
  exact ⟨low, by exact_mod_cast high⟩

/-- A short significand with an exponent in range is a number of the format. -/
theorem exists_magnitude (negative : Bool) {m p : ℕ} (short : m < 2 ^ 53) (low : p ≤ 2045) :
    ∃ g : Binary64, g.negative = negative ∧ g.magnitude = m * 2 ^ p := by
  induction p generalizing m with
  | zero =>
      by_cases tiny : m < 2 ^ 52
      · exact ⟨⟨negative, 0, ⟨m, tiny⟩⟩, rfl, rfl⟩
      · refine ⟨⟨negative, 1, ⟨m - 2 ^ 52, by omega⟩⟩, rfl, ?_⟩
        change (2 ^ 52 + (m - 2 ^ 52)) * 2 ^ 0 = _
        rw [Nat.add_sub_cancel' (Nat.le_of_not_lt tiny)]
  | succ p ih =>
      by_cases tiny : m < 2 ^ 52
      · obtain ⟨g, sign, same⟩ := ih (m := m * 2) (by omega) (by omega)
        refine ⟨g, sign, ?_⟩
        rw [same, Nat.pow_succ, Nat.mul_comm (2 ^ p) 2, Nat.mul_assoc]
      · refine ⟨⟨negative, ⟨p + 2, by omega⟩, ⟨m - 2 ^ 52, by omega⟩⟩, rfl, ?_⟩
        change (2 ^ 52 + (m - 2 ^ 52)) * 2 ^ (p + 1) = _
        rw [Nat.add_sub_cancel' (Nat.le_of_not_lt tiny)]

/-- The difference of a number and its integral part is a number of the format: subtracting
them rounds nothing. -/
theorem exists_sub_trunc (f : Binary64) : ∃ g : Binary64, g.value = f.value - f.trunc.value := by
  obtain ⟨r, short, dropped⟩ := f.magnitude_mod
  obtain ⟨g, sign, same⟩ := exists_magnitude f.negative short f.shift_le
  refine ⟨g, ?_⟩
  rw [value_sub_trunc, scaled_sub_trunc, value, scaled, sign, same, dropped]

/-- The integral part lies between zero and the number. -/
theorem whole_between (f : Binary64) : 0 ≤ f.whole ∧ (f.whole : ℚ) ≤ f.value ∨ f.whole ≤ 0 ∧ f.value ≤ f.whole := by
  have positive : (0 : ℚ) < unit := Nat.cast_pos.mpr unit_pos
  have below : (((f.magnitude / unit : ℕ) : ℤ) : ℚ) ≤ ((f.magnitude : ℤ) : ℚ) / unit := by
    rw [le_div_iff₀ positive]
    exact_mod_cast Nat.div_mul_le_self f.magnitude unit
  rw [whole, value, scaled]
  split
  · refine .inr ⟨Int.neg_nonpos_of_nonneg (Int.natCast_nonneg _), ?_⟩
    rw [Int.cast_neg, Int.cast_neg, neg_div]
    exact neg_le_neg below
  · exact .inl ⟨Int.natCast_nonneg _, below⟩

/-- The integral part of a number inside the range is converted to itself. -/
theorem toI128_trunc {f : Binary64} (low : -2 ^ 127 ≤ f.value) (high : f.value < 2 ^ 127) : f.trunc.toI128 = f.whole := by
  have inside : -2 ^ 127 ≤ f.whole ∧ f.whole ≤ 2 ^ 127 - 1 := by
    rcases f.whole_between with ⟨positive, below⟩ | ⟨negative, above⟩
    · have bound : f.whole < 2 ^ 127 := by exact_mod_cast below.trans_lt high
      omega
    · have bound : ((-2 ^ 127 : ℤ) : ℚ) ≤ (f.whole : ℚ) := by
        rw [Int.cast_neg, Int.cast_pow, Int.cast_ofNat]
        exact low.trans above
      have bound := Int.cast_le.mp bound
      omega
  rw [toI128, trunc_scaled, Int.mul_tdiv_cancel_left _ (Int.natCast_ne_zero.mpr unit_pos.ne'), min_eq_right inside.2, max_eq_right inside.1]

end Binary64
