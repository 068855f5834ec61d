import Mathlib.Data.Int.Log
import Mathlib.Data.Rat.Floor

/-!
Rationals rounded to a binary format: to the nearest number that has so many bits, and to the even
one of two that are as near.
-/

namespace Rounding

/-- The nearest integer, the even one of two. -/
def halfEven (number : ℚ) : ℤ :=
  if number - ⌊number⌋ < 1 / 2 ∨ number - ⌊number⌋ = 1 / 2 ∧ ⌊number⌋ % 2 = 0 then ⌊number⌋
  else ⌊number⌋ + 1

theorem floor_le_halfEven (number : ℚ) : ⌊number⌋ ≤ halfEven number := by
  unfold halfEven
  split <;> omega

theorem halfEven_le_floor_succ (number : ℚ) : halfEven number ≤ ⌊number⌋ + 1 := by
  unfold halfEven
  split <;> omega

@[simp] theorem halfEven_intCast (integer : ℤ) : halfEven integer = integer := by
  simp [halfEven]

theorem halfEven_mono {left right : ℚ} (le : left ≤ right) : halfEven left ≤ halfEven right := by
  rcases (Int.floor_mono le).lt_or_eq with less | same
  · calc halfEven left ≤ ⌊left⌋ + 1 := halfEven_le_floor_succ left
      _ ≤ ⌊right⌋ := less
      _ ≤ halfEven right := floor_le_halfEven right
  · unfold halfEven
    rw [same]
    split
    · split <;> omega
    · rename_i up
      rw [if_neg]
      rintro (low | ⟨tie, even⟩)
      · exact up (.inl (by linarith))
      · refine up ?_
        rcases le.lt_or_eq with less | rfl
        · exact .inl (by linarith)
        · exact .inr ⟨tie, even⟩

/-- A binary format: how many bits a number has, and the least exponent of the last of them. -/
structure Format where
  precision : ℕ
  least : ℤ
  positive : 0 < precision

namespace Format

variable (format : Format) {number left right : ℚ} {place : ℤ}

/-- The exponent of the last bit that a positive number keeps. -/
def exponent (number : ℚ) : ℤ := max (Int.log 2 number - (format.precision - 1)) format.least

def roundMagnitude (number : ℚ) : ℚ :=
  halfEven (number / 2 ^ format.exponent number) * 2 ^ format.exponent number

/-- The number that stands for a rational, if there is no greatest exponent. -/
def round (number : ℚ) : ℚ :=
  if number < 0 then -format.roundMagnitude (-number) else format.roundMagnitude number

theorem two_pow_pos (place : ℤ) : (0 : ℚ) < 2 ^ place := zpow_pos (by norm_num) place

theorem two_pow_div {place last : ℤ} (above : last ≤ place) :
    (2 : ℚ) ^ place / 2 ^ last = ((2 ^ (place - last).toNat : ℤ) : ℚ) := by
  rw [← zpow_sub₀ (by norm_num : (2 : ℚ) ≠ 0)]
  push_cast
  rw [← zpow_natCast, Int.toNat_of_nonneg (by omega)]

/-- A power of two that the format has bounds what is rounded below it. -/
theorem roundMagnitude_le (above : format.exponent number ≤ place) (le : number ≤ 2 ^ place) :
    format.roundMagnitude number ≤ 2 ^ place := by
  have scaled : number / 2 ^ format.exponent number ≤
      ((2 ^ (place - format.exponent number).toNat : ℤ) : ℚ) := by
    rw [← two_pow_div above]
    exact div_le_div_of_nonneg_right le (two_pow_pos _).le
  have rounded := halfEven_mono scaled
  rw [halfEven_intCast] at rounded
  unfold roundMagnitude
  rw [← le_div_iff₀ (two_pow_pos _), two_pow_div above]
  exact_mod_cast rounded

theorem le_roundMagnitude (above : format.exponent number ≤ place) (le : 2 ^ place ≤ number) :
    2 ^ place ≤ format.roundMagnitude number := by
  have scaled : ((2 ^ (place - format.exponent number).toNat : ℤ) : ℚ) ≤
      number / 2 ^ format.exponent number := by
    rw [← two_pow_div above]
    exact div_le_div_of_nonneg_right le (two_pow_pos _).le
  have rounded := halfEven_mono scaled
  rw [halfEven_intCast] at rounded
  unfold roundMagnitude
  rw [← div_le_iff₀ (two_pow_pos _), two_pow_div above]
  exact_mod_cast rounded

/-- Rounding keeps the order, also where the exponents differ: a power of two is between. -/
theorem roundMagnitude_mono (positive : 0 < left) (le : left ≤ right) :
    format.roundMagnitude left ≤ format.roundMagnitude right := by
  have logs : Int.log 2 left ≤ Int.log 2 right := Int.log_mono_right positive le
  rcases eq_or_ne (format.exponent left) (format.exponent right) with same | different
  · unfold roundMagnitude
    rw [same]
    refine mul_le_mul_of_nonneg_right ?_ (two_pow_pos _).le
    exact_mod_cast halfEven_mono (div_le_div_of_nonneg_right le (two_pow_pos _).le)
  · have bits := format.positive
    have above : max (Int.log 2 left + 1) (format.exponent left) ≤ Int.log 2 right := by
      unfold exponent at different ⊢
      omega
    have small : left ≤ 2 ^ max (Int.log 2 left + 1) (format.exponent left) :=
      (Int.lt_zpow_succ_log_self (by norm_num) left).le.trans
        (zpow_le_zpow_right₀ (by norm_num) (le_max_left _ _))
    calc format.roundMagnitude left ≤ 2 ^ max (Int.log 2 left + 1) (format.exponent left) :=
          format.roundMagnitude_le (le_max_right _ _) small
      _ ≤ 2 ^ Int.log 2 right := zpow_le_zpow_right₀ (by norm_num) above
      _ ≤ format.roundMagnitude right := by
          refine format.le_roundMagnitude ?_ (Int.zpow_log_le_self (by norm_num) (positive.trans_le le))
          unfold exponent at different ⊢
          omega

end Format

end Rounding
