import Mathlib.Data.List.DropRight
import Tsgit.Strings

/-!
# The Text of a Number

`String(value)` of a finite number: the shortest decimal that is read back as it, laid out with a
point or an exponent. Two numbers that differ in the sign of a zero have one text.
-/

namespace Tsgit

open List

/-! ### Decimals -/

/-- A power of ten, and how many of it. -/
structure Decimal where
  significand : ℕ
  exponent : ℤ
  deriving DecidableEq

/-- The integer on the other side of a rational than the one next to it. -/
def otherSide (scaled : ℚ) (nearest : ℕ) : ℕ :=
  if nearest = ⌊scaled⌋₊ then nearest + 1 else ⌊scaled⌋₊

/-- A multiple of a power of ten that is read back as the value: the one next to it, or the one on
its other side. -/
def decimalAt (value : ℚ) (exponent : ℤ) : Option Decimal :=
  let scaled := value / 10 ^ exponent
  let nearest := (roundHalfEven scaled).toNat
  let other := otherSide scaled nearest
  if toDouble (nearest * 10 ^ exponent) = value then some ⟨nearest, exponent⟩
  else if toDouble (other * 10 ^ exponent) = value then some ⟨other, exponent⟩
  else none

/-- The first such multiple, from a power of ten down. -/
def decimalFrom (value : ℚ) (exponent : ℤ) : ℕ → Option Decimal
  | 0 => none
  | fuel + 1 =>
    match decimalAt value exponent with
    | some decimal => some decimal
    | none => decimalFrom value (exponent - 1) fuel

/-- The shortest decimal of a positive number. No number needs more than 17 digits. -/
def shortestDecimal (value : ℚ) : Option Decimal := decimalFrom value (Int.log 10 value) 17

def layOut (digits : Text) (point : ℤ) : Text :=
  if digits.length ≤ point ∧ point ≤ 21 then
    digits ++ replicate (point - digits.length).toNat '0'
  else if 0 < point ∧ point ≤ 21 then
    digits.take point.toNat ++ '.' :: digits.drop point.toNat
  else if -6 < point ∧ point ≤ 0 then
    '0' :: '.' :: (replicate (-point).toNat '0' ++ digits)
  else
    let mantissa :=
      if digits.length ≤ 1 then digits else digits.take 1 ++ '.' :: digits.drop 1
    mantissa ++ 'e' :: (if point < 1 then '-' else '+') :: Nat.toDigits 10 (point - 1).natAbs

/-- The text of a decimal, without the zeros at its end. -/
def decimalLayout (decimal : Decimal) : Text :=
  let digits := Nat.toDigits 10 decimal.significand
  layOut (digits.rdropWhile (· = '0')) (digits.length + decimal.exponent)

/-- The text of a positive number. -/
def positiveText (value : ℚ) : Text := ((shortestDecimal value).map decimalLayout).getD []

def numberText (value : ℚ) : Text :=
  if value = 0 then ['0']
  else if value < 0 then '-' :: positiveText (-value)
  else positiveText value

/-! ### Integers -/

theorem le_roundHalfEven {m : ℤ} {q : ℚ} (h : (m : ℚ) ≤ q) : m ≤ roundHalfEven q := by
  have hfloor : m ≤ ⌊q⌋ := Int.le_floor.mpr h
  unfold roundHalfEven
  dsimp only
  split
  · exact hfloor
  · split
    · omega
    · split
      · exact hfloor
      · omega

theorem le_toDouble {q : ℚ} (h : 2 ^ 53 ≤ q) : 2 ^ 53 ≤ toDouble q := by
  have hpos : (0 : ℚ) < q := lt_of_lt_of_le (by norm_num) h
  have hlog : 53 ≤ Int.log 2 |q| := by
    refine (Int.zpow_le_iff_le_log (by decide) (abs_pos.mpr hpos.ne')).mp ?_
    rw [abs_of_pos hpos]
    exact_mod_cast h
  have hlast : lastBit q = Int.log 2 |q| - 52 := by
    rw [lastBit]
    omega
  have hbit : (0 : ℚ) < 2 ^ lastBit q := zpow_pos two_pos _
  have hscaled : ((2 ^ 52 : ℤ) : ℚ) ≤ q / 2 ^ lastBit q := by
    rw [le_div_iff₀ hbit]
    have hle : ((2 : ℕ) : ℚ) ^ Int.log 2 |q| ≤ |q| := Int.zpow_log_le_self (by decide)
      (abs_pos.mpr hpos.ne')
    calc ((2 ^ 52 : ℤ) : ℚ) * 2 ^ lastBit q = 2 ^ (52 + lastBit q) := by
          rw [zpow_add₀ two_ne_zero]
          norm_num
      _ = ((2 : ℕ) : ℚ) ^ Int.log 2 |q| := by
          rw [hlast, add_sub_cancel]
          norm_num
      _ ≤ q := hle.trans_eq (abs_of_pos hpos)
  have hround : ((2 ^ 52 : ℤ) : ℚ) ≤ (roundHalfEven (q / 2 ^ lastBit q) : ℚ) := by
    exact_mod_cast le_roundHalfEven hscaled
  have htwo : (2 : ℚ) ≤ 2 ^ lastBit q := by
    calc (2 : ℚ) = 2 ^ (1 : ℤ) := (zpow_one 2).symm
      _ ≤ 2 ^ lastBit q := zpow_le_zpow_right₀ one_le_two (by omega)
  rw [toDouble, if_neg hpos.ne']
  calc (2 : ℚ) ^ 53 = ((2 ^ 52 : ℤ) : ℚ) * 2 := by norm_num
    _ ≤ (roundHalfEven (q / 2 ^ lastBit q) : ℚ) * 2 ^ lastBit q :=
      mul_le_mul hround htwo two_pos.le (le_trans (by norm_num) hround)

/-- A natural number that is rounded to a safe integer is that integer. -/
theorem eq_of_toDouble_eq {m n : ℕ} (hn : n < 2 ^ 53) (h : toDouble m = n) : m = n := by
  by_cases hm : m < 2 ^ 53
  · have hdouble : toDouble ((m : ℤ) : ℚ) = ((m : ℤ) : ℚ) := toDouble_int (by
      rw [Nat.abs_cast]
      exact_mod_cast hm)
    rw [Int.cast_natCast, h] at hdouble
    exact_mod_cast hdouble.symm
  · have hle : (2 : ℚ) ^ 53 ≤ toDouble m := le_toDouble (by exact_mod_cast not_lt.mp hm)
    rw [h] at hle
    exact absurd (show 2 ^ 53 ≤ n by exact_mod_cast hle) (not_le_of_gt hn)

variable {n : ℕ}

theorem decimalAt_nat {k : ℕ} (hn : n < 2 ^ 53) {decimal : Decimal}
    (h : decimalAt n k = some decimal) :
    decimal.exponent = k ∧ decimal.significand * 10 ^ k = n := by
  have hread : ∀ significand : ℕ, toDouble (significand * 10 ^ (k : ℤ)) = n →
      significand * 10 ^ k = n := fun significand hdouble =>
    eq_of_toDouble_eq hn (by rw [← hdouble, zpow_natCast]; push_cast; rfl)
  unfold decimalAt at h
  dsimp only at h
  split at h
  · next hnearest =>
    obtain rfl := Option.some.inj h
    exact ⟨rfl, hread _ hnearest⟩
  · split at h
    · next hother =>
      obtain rfl := Option.some.inj h
      exact ⟨rfl, hread _ hother⟩
    · cases h

theorem decimalAt_zero (hn : n < 2 ^ 53) : decimalAt n 0 = some ⟨n, 0⟩ := by
  have hnearest : (roundHalfEven ((n : ℚ) / 10 ^ (0 : ℤ))).toNat = n := by
    rw [zpow_zero, div_one, ← Int.cast_natCast, roundHalfEven_int, Int.toNat_natCast]
  have hdouble : toDouble ((n : ℚ) * 10 ^ (0 : ℤ)) = n := by
    rw [zpow_zero, mul_one, ← Int.cast_natCast]
    refine toDouble_int ?_
    rw [Nat.abs_cast]
    exact_mod_cast hn
  unfold decimalAt
  dsimp only
  rw [hnearest, if_pos hdouble]

theorem decimalFrom_nat (hn : n < 2 ^ 53) {k fuel : ℕ} (hfuel : k < fuel) :
    ∃ decimal, decimalFrom n k fuel = some decimal ∧ ∃ j : ℕ, decimal.exponent = j ∧
      decimal.significand * 10 ^ j = n := by
  induction fuel generalizing k with
  | zero => exact absurd hfuel (Nat.not_lt_zero k)
  | succ fuel ih =>
    rw [decimalFrom]
    cases hdecimal : decimalAt n k with
    | some decimal => exact ⟨decimal, rfl, k, decimalAt_nat hn hdecimal⟩
    | none =>
      cases k with
      | zero =>
        have := (decimalAt_zero hn).symm.trans hdecimal
        cases this
      | succ k =>
        have hexponent : ((k + 1 : ℕ) : ℤ) - 1 = (k : ℤ) := by
          omega
        rw [hexponent]
        exact ih (Nat.lt_of_succ_lt_succ hfuel)

/-- Zeros at the end are a power of ten. -/
theorem toDigits_mul_pow (hn : 0 < n) (k : ℕ) :
    Nat.toDigits 10 (n * 10 ^ k) = Nat.toDigits 10 n ++ replicate k '0' := by
  induction k with
  | zero => simp
  | succ k ih =>
    have hpos : 0 < n * 10 ^ k := Nat.mul_pos hn (Nat.pow_pos (by decide))
    have happend := Nat.toDigits_append_toDigits (b := 10) (by decide) hpos (by decide : 0 < 10)
    rw [pow_succ, ← mul_assoc, mul_comm _ 10, ← add_zero (10 * _), ← happend, ih,
      append_assoc, replicate_succ']
    rfl

theorem rtakeWhile_zeros (digits : Text) : digits.rtakeWhile (· = '0') =
    replicate (digits.rtakeWhile (· = '0')).length '0' :=
  eq_replicate_of_mem fun c hc => by simpa using mem_rtakeWhile_imp hc

/-- The layout of an integer. -/
theorem decimalLayout_nat {significand k : ℕ} (hpos : 0 < significand)
    (hlength : (Nat.toDigits 10 (significand * 10 ^ k)).length ≤ 21) :
    decimalLayout ⟨significand, k⟩ = Nat.toDigits 10 (significand * 10 ^ k) := by
  rw [toDigits_mul_pow hpos, length_append, length_replicate] at hlength
  rw [toDigits_mul_pow hpos, decimalLayout]
  generalize Nat.toDigits 10 significand = digits at hlength ⊢
  have hsplit := rdropWhile_append_rtakeWhile (p := (· = '0')) (l := digits)
  have hzeros := rtakeWhile_zeros digits
  generalize digits.rtakeWhile (· = '0') = zeros at hsplit hzeros
  dsimp only
  generalize digits.rdropWhile (· = '0') = front at hsplit
  subst hsplit
  rw [length_append] at hlength ⊢
  have hcount : ((((front.length + zeros.length : ℕ) : ℤ) + k) - front.length).toNat =
      zeros.length + k := by
    omega
  rw [layOut, if_pos ⟨by omega, by omega⟩, hcount, replicate_add, ← hzeros, append_assoc]

/-- **A natural number** up to the largest safe integer is written in its digits. -/
theorem numberText_nat (h : (n : ℤ) ≤ maxSafeInteger) : numberText n = Nat.toDigits 10 n := by
  have hn : n < 2 ^ 53 := by
    rw [maxSafeInteger] at h
    omega
  by_cases hzero : n = 0
  · subst hzero
    rfl
  have hpos : 0 < n := Nat.pos_of_ne_zero hzero
  have hlog : Int.log 10 (n : ℚ) = Nat.log 10 n := Int.log_natCast 10 n
  have hdigits : Nat.log 10 n < 17 := Nat.log_lt_of_lt_pow hzero (hn.trans (by norm_num))
  obtain ⟨⟨significand, exponent⟩, hfound, k, hexponent, hvalue⟩ := decimalFrom_nat hn hdigits
  obtain rfl : exponent = k := hexponent
  have hsignificand : 0 < significand := Nat.pos_of_ne_zero fun hnone => by
    rw [hnone, zero_mul] at hvalue
    exact hzero hvalue.symm
  have hlength : (Nat.toDigits 10 (significand * 10 ^ k)).length ≤ 21 :=
    (Nat.length_toDigits_le_iff (by decide) (by decide)).mpr
      (hvalue.trans_lt (hn.trans (by norm_num)))
  rw [numberText, if_neg (Nat.cast_ne_zero.mpr hzero), if_neg (Nat.cast_nonneg n).not_gt,
    positiveText, shortestDecimal, hlog, hfound, Option.map_some, Option.getD_some,
    decimalLayout_nat hsignificand hlength, hvalue]

/-! ### Characters -/

/-- A printed ASCII character. -/
def IsPrinted (c : Char) : Prop := 0x20 < c.toNat ∧ c.toNat < 0x7f

instance (c : Char) : Decidable (IsPrinted c) :=
  inferInstanceAs (Decidable (0x20 < c.toNat ∧ c.toNat < 0x7f))

theorem isPrinted_of_mem_toDigits {c : Char} (h : c ∈ Nat.toDigits 10 n) : IsPrinted c := by
  obtain ⟨hlower, hupper⟩ : '0' ≤ c ∧ c ≤ '9' := of_decide_eq_true (isDigit_of_mem_toDigits h)
  have hlow : 48 ≤ c.toNat := hlower
  have hhigh : c.toNat ≤ 57 := hupper
  exact ⟨by omega, by omega⟩

theorem layOut_printed {digits : Text} (h : ∀ c ∈ digits, IsPrinted c) (point : ℤ) :
    ∀ c ∈ layOut digits point, IsPrinted c := by
  have htake : ∀ k, ∀ c ∈ digits.take k, IsPrinted c := fun k c hc =>
    h c (mem_of_mem_take hc)
  have hdrop : ∀ k, ∀ c ∈ digits.drop k, IsPrinted c := fun k c hc =>
    h c (mem_of_mem_drop hc)
  have hzeros : ∀ k, ∀ c ∈ replicate k '0', IsPrinted c := fun k c hc => by
    rw [eq_of_mem_replicate hc]
    decide
  intro c hc
  unfold layOut at hc
  dsimp only at hc
  split at hc
  · exact (mem_append.mp hc).elim (h c) (hzeros _ c)
  split at hc
  · rcases mem_append.mp hc with hc | hc
    · exact htake _ c hc
    · rcases mem_cons.mp hc with rfl | hc
      · decide
      · exact hdrop _ c hc
  split at hc
  · rcases mem_cons.mp hc with rfl | hc
    · decide
    rcases mem_cons.mp hc with rfl | hc
    · decide
    exact (mem_append.mp hc).elim (hzeros _ c) (h c)
  rcases mem_append.mp hc with hc | hc
  · split at hc
    · exact h c hc
    · rcases mem_append.mp hc with hc | hc
      · exact htake _ c hc
      · rcases mem_cons.mp hc with rfl | hc
        · decide
        · exact hdrop _ c hc
  · rcases mem_cons.mp hc with rfl | hc
    · decide
    rcases mem_cons.mp hc with rfl | hc
    · split <;> decide
    · exact isPrinted_of_mem_toDigits hc

theorem positiveText_printed (value : ℚ) : ∀ c ∈ positiveText value, IsPrinted c := by
  rw [positiveText]
  cases shortestDecimal value with
  | none => exact fun c hc => absurd hc not_mem_nil
  | some decimal =>
    exact layOut_printed (fun c hc =>
      isPrinted_of_mem_toDigits (( rdropWhile_prefix _ _).subset hc)) _

/-- **Every text of a number** is printed ASCII. -/
theorem numberText_printed (value : ℚ) : ∀ c ∈ numberText value, IsPrinted c := by
  intro c hc
  unfold numberText at hc
  split at hc
  · rw [mem_singleton.mp hc]
    decide
  split at hc
  · rcases mem_cons.mp hc with rfl | hc
    · decide
    · exact positiveText_printed _ c hc
  · exact positiveText_printed _ c hc

example : numberText (3 / 2) = ['1', '.', '5'] := by decide +kernel

end Tsgit
