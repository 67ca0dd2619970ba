import Mathlib.Data.Int.Log
import Mathlib.Data.Rat.Floor

/-!
# Doubles

The number of the platform nearest to a rational: 53 bits and a power of two, the even one of two
that are equally near.
-/

namespace Tsgit

/-- The integer nearest to a rational, the even one of two. -/
def roundHalfEven (q : ℚ) : ℤ :=
  let down := ⌊q⌋
  let rest := q - down
  if rest < 1 / 2 then down
  else if 1 / 2 < rest then down + 1
  else if down % 2 = 0 then down else down + 1

/-- The exponent of the last of the 53 bits. -/
def lastBit (q : ℚ) : ℤ := max (Int.log 2 |q| - 52) (-1074)

/-- The number nearest to a rational. -/
def toDouble (q : ℚ) : ℚ :=
  if q = 0 then 0 else (roundHalfEven (q / 2 ^ lastBit q) : ℚ) * 2 ^ lastBit q

def maxSafeInteger : ℤ := 2 ^ 53 - 1

def safeInteger (q : ℚ) : Option ℤ :=
  if q.den = 1 ∧ |q.num| ≤ maxSafeInteger then some q.num else none

theorem roundHalfEven_int (n : ℤ) : roundHalfEven (n : ℚ) = n := by
  have hdown : ⌊(n : ℚ)⌋ = n := Int.floor_intCast n
  unfold roundHalfEven
  dsimp only
  rw [hdown, sub_self, if_pos (by norm_num)]

theorem lastBit_le_zero {n : ℤ} (hn : n ≠ 0) (h : |n| < 2 ^ 53) : lastBit n ≤ 0 := by
  have hpos : (0 : ℚ) < |(n : ℚ)| := abs_pos.mpr (by exact_mod_cast hn)
  have hlt : |(n : ℚ)| < (2 : ℕ) ^ (53 : ℤ) := by exact_mod_cast h
  have hlog : Int.log 2 |(n : ℚ)| < 53 := (Int.lt_zpow_iff_log_lt (by decide) hpos).mp hlt
  rw [lastBit]
  omega

/-- **An integer below `2 ^ 53`** is a number itself. -/
theorem toDouble_int {n : ℤ} (h : |n| < 2 ^ 53) : toDouble n = n := by
  by_cases hn : n = 0
  · rw [hn]
    exact if_pos Int.cast_zero
  obtain ⟨k, hk⟩ : ∃ k : ℕ, lastBit n = -(k : ℤ) :=
    ⟨(lastBit n).natAbs, by have := lastBit_le_zero hn h; omega⟩
  have hscaled : (n : ℚ) / 2 ^ lastBit n = ((n * 2 ^ k : ℤ) : ℚ) := by
    rw [hk, zpow_neg, div_inv_eq_mul, zpow_natCast]
    push_cast
    rfl
  have hpow : (2 : ℚ) ^ k ≠ 0 := pow_ne_zero k two_ne_zero
  rw [toDouble, if_neg (by exact_mod_cast hn), hscaled, roundHalfEven_int, hk, zpow_neg,
    zpow_natCast]
  push_cast
  rw [mul_assoc, mul_inv_cancel₀ hpow, mul_one]

theorem safeInteger_int {n : ℤ} (h : |n| ≤ maxSafeInteger) : safeInteger n = some n :=
  if_pos ⟨Rat.den_intCast n, by rwa [Rat.num_intCast]⟩

end Tsgit
