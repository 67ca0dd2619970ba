import Mathlib.Data.Nat.Bitwise
import Mathlib.Tactic.Linarith

/-!
# Numbers as Groups of Bits

How a number is cut into groups of bits and joined again, and the bytes that carry groups
of seven bits below a continuation bit.
-/

namespace BitGroups

theorem mod_or_div_shiftLeft (x k : ℕ) : x % 2 ^ k ||| (x / 2 ^ k) <<< k = x := by
  rw [Nat.or_comm, ← Nat.shiftLeft_add_eq_or_of_lt (Nat.mod_lt x (Nat.two_pow_pos k)),
    Nat.shiftLeft_eq, Nat.div_add_mod']

theorem or_groups (x k shift : ℕ) :
    (x % 2 ^ k) <<< shift ||| (x / 2 ^ k) <<< (shift + k) = x <<< shift := by
  rw [Nat.add_comm shift k, Nat.shiftLeft_add, ← Nat.shiftLeft_or_distrib, mod_or_div_shiftLeft]

theorem and_0xff (x : ℕ) : x &&& 0xff = x % 256 := Nat.and_two_pow_sub_one_eq_mod x 8

theorem and_0x7f (x : ℕ) : x &&& 0x7f = x % 128 := Nat.and_two_pow_sub_one_eq_mod x 7

/-- A single bit that is set. -/
theorem and_two_pow_ne_zero_iff (x i : ℕ) : x &&& 2 ^ i ≠ 0 ↔ x / 2 ^ i % 2 = 1 := by
  rw [Nat.and_two_pow, Nat.testBit_eq_decide_div_mod_eq]
  by_cases hset : x / 2 ^ i % 2 = 1
  · simp [hset]
  · simp [hset]

theorem group_bits : ∀ r < 128,
    ((UInt8.ofNat r).toNat &&& 0x80 = 0 ∧ (UInt8.ofNat r).toNat &&& 0x7f = r) ∧
    ((UInt8.ofNat (r ||| 0x80)).toNat &&& 0x80 ≠ 0 ∧
      (UInt8.ofNat (r ||| 0x80)).toNat &&& 0x7f = r) := by
  decide +kernel

/-- A byte below its continuation bit is a group of seven bits. -/
theorem and_0x7f_lt (x : ℕ) : x &&& 0x7f < 128 := by
  rw [and_0x7f]
  exact Nat.mod_lt _ (by decide)

end BitGroups
