import Mathlib.Algebra.Order.Field.Rat
import Mathlib.Data.Int.Cast.Lemmas
import Mathlib.Tactic.Positivity
import RecordRules.Decimal.Basic

/-!
# What a decimal is worth

A decimal stands for a rational number.  Decimals are compared as these numbers, so equality and
order of decimals have all the laws of those; both zeros are worth the same.
-/

namespace RecordRules.Decimal

/-- The number `coefficient / 10 ^ scale`. -/
def worth (d : Decimal) : ℚ := d.coefficient / 10 ^ d.scale

/-- An integer becomes a decimal with itself as the coefficient, the least one too. -/
theorem coefficient_ofInt64 (i : Int64) : (ofInt64 i).coefficient = i.toInt := by
  simp only [coefficient, ofInt64, decide_eq_true_eq]
  split <;> omega

/-- A whole number is worth itself. -/
theorem worth_ofInt64 (i : Int64) : (ofInt64 i).worth = i.toInt := by
  rw [worth, coefficient_ofInt64]
  exact div_one _

/-- Coefficients are compared once both are brought to a common scale. -/
theorem mul_pow_lt_iff (a b : Decimal) :
    a.coefficient * Nat.pow 10 b.scale < b.coefficient * Nat.pow 10 a.scale ↔
      a.worth < b.worth := by
  have ha : (0 : ℚ) < 10 ^ a.scale := by positivity
  have hb : (0 : ℚ) < 10 ^ b.scale := by positivity
  rw [worth, worth, div_lt_div_iff₀ ha hb, ← Int.cast_lt (R := ℚ)]
  simp

/-- Coefficients at a common scale are equal when the decimals are worth the same. -/
theorem mul_pow_eq_iff (a b : Decimal) :
    a.coefficient * Nat.pow 10 b.scale = b.coefficient * Nat.pow 10 a.scale ↔
      a.worth = b.worth := by
  have ha : (10 ^ a.scale : ℚ) ≠ 0 := by positivity
  have hb : (10 ^ b.scale : ℚ) ≠ 0 := by positivity
  rw [worth, worth, div_eq_div_iff ha hb, ← Int.cast_inj (α := ℚ)]
  simp

/-- Decimals compare by what they are worth, whatever their scales. -/
theorem cmp_eq (a b : Decimal) : a.cmp b = compare a.worth b.worth := by
  simp only [cmp, LinearOrder.compare_eq_compareOfLessAndEq, compareOfLessAndEq, mul_pow_lt_iff,
    mul_pow_eq_iff]

/-- The sign of a decimal is that of what it is worth, so a negative zero has none. -/
theorem sign_eq (d : Decimal) : d.sign = compare d.worth 0 := by
  have hzero : zero.coefficient = 0 := rfl
  have hscale : zero.scale = 0 := rfl
  have hsign : d.sign = d.cmp zero := by simp [sign, cmp, hzero, hscale]
  rw [hsign, cmp_eq]
  simp [worth, hzero]

@[simp] theorem beq_iff (a b : Decimal) : (a == b) = true ↔ a.worth = b.worth := by
  show (a.cmp b == .eq) = true ↔ _
  rw [cmp_eq, beq_iff_eq, compare_eq_iff_eq]

end RecordRules.Decimal
