import Mathlib.Tactic.Linarith

/-!
# Typed Arrays as Lists

The codecs read and fill fixed-size buffers by position. This module gives the two
buffer operations they share, over any element type:

* `subarray xs start stop` is the window `[start, stop)` of `xs`;
* `overwrite dst src offset` is `dst` with `src` written over it from `offset` on.
-/

namespace Tsgit

open List

/-- The bytes of an object, a file or a message. -/
abbrev Bytes := List UInt8

variable {α : Type*}

/-- The window `[start, stop)` of a buffer, clamped to the buffer's end. -/
def subarray (xs : List α) (start stop : ℕ) : List α :=
  (xs.drop start).take (stop - start)

def overwrite (dst src : List α) (offset : ℕ) : List α :=
  dst.take offset ++ src ++ dst.drop (offset + src.length)

variable {xs : List α}

/-- What is left from a position on: the element there, and the rest. -/
theorem drop_eq_cons {pos : ℕ} {x : α} (h : xs[pos]? = some x) :
    xs.drop pos = x :: xs.drop (pos + 1) := by
  obtain ⟨hlt, rfl⟩ := List.getElem?_eq_some_iff.mp h
  exact drop_eq_getElem_cons hlt

theorem length_subarray (start : ℕ) {stop : ℕ} (h : stop ≤ xs.length) :
    (subarray xs start stop).length = stop - start := by
  simp only [subarray, length_take, length_drop]
  omega

theorem getElem?_subarray {start stop i : ℕ} (h : start + i < stop) :
    (subarray xs start stop)[i]? = xs[start + i]? := by
  rw [subarray, getElem?_take_of_lt (by omega), getElem?_drop]

@[simp] theorem subarray_self (xs : List α) (start : ℕ) : subarray xs start start = [] := by
  simp [subarray]

/-- A window of a concatenation that starts where the second part starts. -/
theorem subarray_append_left (pre xs rest : List α) :
    subarray (pre ++ (xs ++ rest)) pre.length (pre.length + xs.length) = xs := by
  rw [subarray, drop_left, Nat.add_sub_cancel_left, take_left]

/-- Two adjacent windows make one. -/
theorem take_append_subarray {i j : ℕ} (hij : i ≤ j) :
    xs.take i ++ subarray xs i j = xs.take j := by
  rw [subarray, ← take_add, Nat.add_sub_cancel' hij]

theorem length_overwrite {dst src : List α} {offset : ℕ} (h : offset + src.length ≤ dst.length) :
    (overwrite dst src offset).length = dst.length := by
  simp only [overwrite, length_append, length_take, length_drop]
  omega

/-- After a write the filled part is the old one followed by what was written. -/
theorem take_overwrite {dst src : List α} {offset : ℕ} (h : offset ≤ dst.length) :
    (overwrite dst src offset).take (offset + src.length) = dst.take offset ++ src := by
  have hlen : (dst.take offset ++ src).length = offset + src.length := by
    rw [length_append, length_take, Nat.min_eq_left h]
  rw [overwrite, ← hlen, take_left]

/-- Two writes side by side are one write. -/
theorem overwrite_overwrite {dst src src' : List α} {offset : ℕ}
    (h : offset + src.length ≤ dst.length) :
    overwrite (overwrite dst src offset) src' (offset + src.length) =
      overwrite dst (src ++ src') offset := by
  have hlen : (dst.take offset ++ src).length = offset + src.length := by
    rw [length_append, length_take]
    omega
  have htake : (dst.take offset ++ src ++ dst.drop (offset + src.length)).take
      (offset + src.length) = dst.take offset ++ src := by
    rw [← hlen, take_left]
  have hdrop : (dst.take offset ++ src ++ dst.drop (offset + src.length)).drop
      (offset + src.length + src'.length) = dst.drop (offset + (src ++ src').length) := by
    rw [← drop_drop, ← hlen, drop_left, hlen, drop_drop, length_append, Nat.add_assoc]
  rw [overwrite, overwrite, htake, hdrop, overwrite, append_assoc (dst.take offset)]

/-- A write over the whole buffer leaves what was written. -/
theorem overwrite_all {dst src : List α} (h : src.length = dst.length) :
    overwrite dst src 0 = src := by
  simp [overwrite, h]

end Tsgit
