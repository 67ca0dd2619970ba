import Mathlib.Data.List.Basic
import Mathlib.Data.Nat.Bitwise
import Mathlib.Tactic.Linarith

/-!
# Bits in Lanes

A list of numbers of `width` bits each, its lanes, stands for one long string of bits: bit `i` is
bit `i % width` of lane `i / width`.
-/

namespace BitLanes

open List

def bitAt (width : ℕ) (lanes : List ℕ) (i : ℕ) : Bool :=
  ((lanes[i / width]?).getD 0).testBit (i % width)

section

variable {width : ℕ} {lanes lanes' : List ℕ}

theorem bitAt_nil (width i : ℕ) : bitAt width [] i = false := Nat.zero_testBit _

theorem bitAt_cons (hwidth : 0 < width) (lane : ℕ) (lanes : List ℕ) (i : ℕ) :
    bitAt width (lane :: lanes) i =
      if i < width then lane.testBit i else bitAt width lanes (i - width) := by
  split
  · next hfirst =>
    rw [bitAt, Nat.div_eq_of_lt hfirst, Nat.mod_eq_of_lt hfirst, getElem?_cons_zero,
      Option.getD_some]
  · next hlater =>
    have hle : width ≤ i := Nat.not_lt.mp hlater
    rw [bitAt, bitAt, Nat.div_eq_sub_div hwidth hle, Nat.mod_eq_sub_mod hle, getElem?_cons_succ]

theorem bitAt_append (hwidth : 0 < width) (lanes lanes' : List ℕ) (i : ℕ) :
    bitAt width (lanes ++ lanes') i =
      if i < width * lanes.length then bitAt width lanes i
      else bitAt width lanes' (i - width * lanes.length) := by
  have hlane : i / width < lanes.length ↔ i < width * lanes.length := by
    rw [Nat.div_lt_iff_lt_mul hwidth, Nat.mul_comm]
  split
  · next hfirst =>
    rw [bitAt, bitAt, getElem?_append_left (hlane.mpr hfirst)]
  · next hlater =>
    have hle : width * lanes.length ≤ i := Nat.not_lt.mp hlater
    have hbehind : lanes.length ≤ i / width := Nat.not_lt.mp fun h => hlater (hlane.mp h)
    rw [bitAt, bitAt, getElem?_append_right hbehind, Nat.sub_mul_div, Nat.sub_mul_mod hle]

theorem bitAt_of_le (hwidth : 0 < width) {i : ℕ} (h : width * lanes.length ≤ i) :
    bitAt width lanes i = false := by
  have hbehind : lanes.length ≤ i / width := (Nat.le_div_iff_mul_le hwidth).mpr (by
    rwa [Nat.mul_comm])
  rw [bitAt, getElem?_eq_none hbehind]
  exact Nat.zero_testBit _

/-- A lane of its own. -/
theorem bitAt_mul_add {k j lane : ℕ} (hj : j < width) (h : lanes[k]? = some lane) :
    bitAt width lanes (width * k + j) = lane.testBit j := by
  have hwidth : 0 < width := Nat.zero_lt_of_lt hj
  have hdiv : (width * k + j) / width = k := by
    rw [Nat.mul_add_div hwidth, Nat.div_eq_of_lt hj, Nat.add_zero]
  rw [bitAt, hdiv, Nat.mul_add_mod, Nat.mod_eq_of_lt hj, h, Option.getD_some]

/-- Numbers of two lanes, the low one first. -/
theorem bitAt_halves (hwidth : 0 < width) (words : List ℕ) (i : ℕ) :
    bitAt width (words.flatMap fun word => [word % 2 ^ width, word / 2 ^ width]) i =
      bitAt (2 * width) words i := by
  induction words generalizing i with
  | nil => rw [flatMap_nil, bitAt_nil, bitAt_nil]
  | cons word words ih =>
    rw [flatMap_cons, cons_append, cons_append, nil_append,
      bitAt_cons hwidth, bitAt_cons hwidth, bitAt_cons (by omega), ih]
    rcases Nat.lt_or_ge i width with hlow | hhigh
    · rw [if_pos hlow, if_pos (by omega), Nat.testBit_mod_two_pow]
      rw [decide_eq_true hlow, Bool.true_and]
    · rw [if_neg (by omega)]
      rcases Nat.lt_or_ge i (2 * width) with hword | hbehind
      · rw [if_pos (by omega), if_pos hword, Nat.testBit_div_two_pow, Nat.sub_add_cancel hhigh]
      · have hplace : i - width - width = i - 2 * width := by omega
        rw [if_neg (by omega), if_neg (by omega), hplace]

theorem bitAt_append_zeros (hwidth : 0 < width) (lanes : List ℕ) (count i : ℕ) :
    bitAt width (lanes ++ replicate count 0) i = bitAt width lanes i := by
  rw [bitAt_append hwidth]
  split
  · rfl
  · next hlater =>
    rw [bitAt_of_le hwidth (Nat.not_lt.mp hlater), bitAt, getElem?_replicate]
    split
    · exact Nat.zero_testBit _
    · exact Nat.zero_testBit _

end

/-! ### The highest bit -/

/-- `max` is the place of the highest bit that is set, -1 where none is. -/
structure IsHighest (bit : ℕ → Bool) (max : ℤ) : Prop where
  le : ∀ i : ℕ, bit i = true → (i : ℤ) ≤ max
  none_or_set : max = -1 ∨ ∃ place : ℕ, max = place ∧ bit place = true

section

variable {width : ℕ} {lanes : List ℕ} {max : ℤ}

theorem isHighest_nil (width : ℕ) : IsHighest (bitAt width []) (-1) where
  le i hi := by
    rw [bitAt_nil] at hi
    cases hi
  none_or_set := .inl rfl

theorem IsHighest.congr {bit bit' : ℕ → Bool} (h : IsHighest bit max) (heq : ∀ i, bit' i = bit i) :
    IsHighest bit' max := by
  rwa [funext heq]

theorem IsHighest.lt (h : IsHighest (bitAt width lanes) max) (hwidth : 0 < width) :
    max < (width * lanes.length : ℕ) := by
  rcases h.none_or_set with hnone | ⟨place, hplace, hset⟩
  · omega
  · by_contra hge
    rw [bitAt_of_le hwidth (by omega)] at hset
    cases hset

/-- A lane behind the others. -/
theorem IsHighest.append_lane (h : IsHighest (bitAt width lanes) max) (hwidth : 0 < width)
    {lane : ℕ} (hlane : lane < 2 ^ width) :
    IsHighest (bitAt width (lanes ++ [lane]))
      (if lane = 0 then max else (width * lanes.length + lane.log2 : ℕ)) := by
  split
  · next hzero =>
    rw [hzero]
    exact h.congr fun i => bitAt_append_zeros hwidth lanes 1 i
  · next hne =>
    have htop : lane.log2 < width := (Nat.log2_lt hne).mpr hlane
    refine ⟨fun i hi => ?_, .inr ⟨_, rfl, ?_⟩⟩
    · rw [bitAt_append hwidth] at hi
      split at hi
      · omega
      · next hlater =>
        rw [bitAt_cons hwidth] at hi
        split at hi
        · have hle : i - width * lanes.length ≤ lane.log2 :=
            (Nat.le_log2 hne).mpr (Nat.ge_two_pow_of_testBit hi)
          omega
        · rw [bitAt_nil] at hi
          cases hi
    · rw [bitAt_append hwidth, if_neg (by omega), Nat.add_sub_cancel_left, bitAt_cons hwidth,
        if_pos htop]
      exact Nat.testBit_log2 hne

/-- Full lanes behind the others. -/
theorem isHighest_append_full (hwidth : 0 < width) (lanes : List ℕ) {count : ℕ}
    (hcount : 0 < count) :
    IsHighest (bitAt width (lanes ++ replicate count (2 ^ width - 1)))
      ((width * (lanes.length + count) : ℕ) - 1) := by
  have hlength : (lanes ++ replicate count (2 ^ width - 1)).length = lanes.length + count := by
    rw [length_append, length_replicate]
  have hpos : 0 < width * (lanes.length + count) := Nat.mul_pos hwidth (by omega)
  refine ⟨fun i hi => ?_, .inr ⟨width * (lanes.length + count - 1) + (width - 1), ?_, ?_⟩⟩
  · by_contra hbehind
    rw [bitAt_of_le hwidth (by rw [hlength]; omega)] at hi
    cases hi
  · have hsplit : width * (lanes.length + count) = width * (lanes.length + count - 1) + width := by
      rw [← Nat.mul_succ, Nat.succ_eq_add_one, Nat.sub_add_cancel (by omega)]
    omega
  · have hlast : (lanes ++ replicate count (2 ^ width - 1))[lanes.length + count - 1]? =
        some (2 ^ width - 1) := by
      rw [getElem?_append_right (by omega), getElem?_replicate, if_pos (by omega)]
    rw [bitAt_mul_add (by omega) hlast, Nat.testBit_two_pow_sub_one]
    exact decide_eq_true (by omega)

end

end BitLanes
