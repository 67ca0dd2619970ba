import Mathlib.Data.List.Lex
import Tsgit.TypedArray

/-!
# Byte Strings

`indexOf` and `compareBytes` of `src/domain/objects/encoding.ts`.
-/

namespace Tsgit

/-- The byte at a place the caller knows to be inside. -/
def byteAt (bytes : Bytes) (i : ℕ) : ℕ := ((bytes[i]?).getD 0).toNat

/-- The first place of `target` from `fromIndex` on. -/
def indexOf (bytes : Bytes) (target : UInt8) (fromIndex : ℕ) : Option ℕ :=
  if fromIndex < bytes.length then
    if bytes[fromIndex]? = some target then some fromIndex
    else indexOf bytes target (fromIndex + 1)
  else none
termination_by bytes.length - fromIndex

variable {bytes : Bytes} {target : UInt8} {fromIndex found : ℕ}

theorem indexOf_spec
    (h : indexOf bytes target fromIndex = some found) :
    fromIndex ≤ found ∧ bytes[found]? = some target ∧
      ∀ i, fromIndex ≤ i → i < found → bytes[i]? ≠ some target := by
  induction fromIndex using indexOf.induct bytes target with
  | case1 i hlt hhere =>
    rw [indexOf, if_pos hlt, if_pos hhere] at h
    cases h
    exact ⟨le_rfl, hhere, fun j hle hlt' => absurd hlt' (Nat.not_lt.mpr hle)⟩
  | case2 i hlt hnot ih =>
    rw [indexOf, if_pos hlt, if_neg hnot] at h
    obtain ⟨hle, hfound, hnone⟩ := ih h
    refine ⟨Nat.le_of_succ_le hle, hfound, fun j hij hj => ?_⟩
    rcases Nat.eq_or_lt_of_le hij with rfl | hij
    · exact hnot
    · exact hnone j hij hj
  | case3 i hend =>
    rw [indexOf, if_neg hend] at h
    cases h

theorem indexOf_eq_some
    (hle : fromIndex ≤ found) (hfound : bytes[found]? = some target)
    (hnone : ∀ i, fromIndex ≤ i → i < found → bytes[i]? ≠ some target) :
    indexOf bytes target fromIndex = some found := by
  have hlt := (List.getElem?_eq_some_iff.mp hfound).1
  induction fromIndex using indexOf.induct bytes target with
  | case1 i hlt' hhere =>
    rw [indexOf, if_pos hlt', if_pos hhere]
    rcases Nat.eq_or_lt_of_le hle with rfl | hbefore
    · rfl
    · exact absurd hhere (hnone i le_rfl hbefore)
  | case2 i hlt' hnot ih =>
    rw [indexOf, if_pos hlt', if_neg hnot]
    refine ih ?_ fun j hj => hnone j (by omega)
    rcases Nat.eq_or_lt_of_le hle with rfl | hbefore
    · exact absurd hfound hnot
    · exact hbefore
  | case3 i hend => omega

theorem indexOf_eq_none {fromIndex : ℕ}
    (hnone : ∀ i, fromIndex ≤ i → bytes[i]? ≠ some target) :
    indexOf bytes target fromIndex = none := by
  cases hfound : indexOf bytes target fromIndex with
  | none => rfl
  | some found =>
    obtain ⟨hle, hthere, -⟩ := indexOf_spec hfound
    exact absurd hthere (hnone found hle)

theorem indexOf_lt
    (h : indexOf bytes target fromIndex = some found) : found < bytes.length :=
  (List.getElem?_eq_some_iff.mp (indexOf_spec h).2.1).1

/-- Negative, zero or positive as `a` is before, equal to or behind `b`. -/
def compareBytes : Bytes → Bytes → ℤ
  | a :: as, b :: bs => if a ≠ b then (a.toNat : ℤ) - b.toNat else compareBytes as bs
  | as, bs => (as.length : ℤ) - bs.length

theorem compareBytes_nil (bs : Bytes) : compareBytes [] bs = (0 : ℕ) - (bs.length : ℤ) := rfl

theorem compareBytes_cons_nil (a : UInt8) (as : Bytes) :
    compareBytes (a :: as) [] = ((as.length + 1 : ℕ) : ℤ) - (0 : ℕ) := rfl

theorem compareBytes_cons_cons (a b : UInt8) (as bs : Bytes) :
    compareBytes (a :: as) (b :: bs) =
      if a ≠ b then (a.toNat : ℤ) - b.toNat else compareBytes as bs := rfl

theorem compareBytes_cons_self (a : UInt8) (as bs : Bytes) :
    compareBytes (a :: as) (a :: bs) = compareBytes as bs := by
  rw [compareBytes_cons_cons, if_neg (not_not_intro rfl)]

variable {as bs : Bytes}

theorem compareBytes_eq_zero_iff : compareBytes as bs = 0 ↔ as = bs := by
  induction as generalizing bs with
  | nil =>
    cases bs with
    | nil => exact iff_of_true rfl rfl
    | cons b bs =>
      refine iff_of_false (fun h => ?_) (by simp)
      rw [compareBytes_nil, List.length_cons] at h
      omega
  | cons a as ih =>
    cases bs with
    | nil =>
      refine iff_of_false (fun h => ?_) (by simp)
      rw [compareBytes_cons_nil] at h
      omega
    | cons b bs =>
      by_cases hne : a ≠ b
      · rw [compareBytes_cons_cons, if_pos hne]
        refine iff_of_false (fun h => hne (UInt8.toNat_inj.mp (by omega))) (by simp [hne])
      · obtain rfl := not_not.mp hne
        rw [compareBytes_cons_self, ih, List.cons.injEq, eq_self_iff_true, true_and]

theorem compareBytes_neg_iff : compareBytes as bs < 0 ↔ as < bs := by
  induction as generalizing bs with
  | nil =>
    cases bs with
    | nil => exact iff_of_false (by decide) (by simp)
    | cons b bs =>
      refine iff_of_true ?_ (by simp)
      rw [compareBytes_nil, List.length_cons]
      omega
  | cons a as ih =>
    cases bs with
    | nil =>
      refine iff_of_false (fun h => ?_) (by simp)
      rw [compareBytes_cons_nil] at h
      omega
    | cons b bs =>
      rw [List.cons_lt_cons_iff]
      by_cases hne : a ≠ b
      · rw [compareBytes_cons_cons, if_pos hne, or_iff_left (fun h => hne h.1),
          UInt8.lt_iff_toNat_lt]
        omega
      · obtain rfl := not_not.mp hne
        rw [compareBytes_cons_self, ih, or_iff_right (by simp), and_iff_right rfl]

theorem compareBytes_swap (as bs : Bytes) : compareBytes bs as = -compareBytes as bs := by
  induction as generalizing bs with
  | nil =>
    cases bs with
    | nil => rfl
    | cons b bs => simp [compareBytes_nil, compareBytes_cons_nil]
  | cons a as ih =>
    cases bs with
    | nil => simp [compareBytes_nil, compareBytes_cons_nil]
    | cons b bs =>
      by_cases hne : a ≠ b
      · rw [compareBytes_cons_cons, compareBytes_cons_cons, if_pos hne, if_pos hne.symm]
        omega
      · obtain rfl := not_not.mp hne
        rw [compareBytes_cons_self, compareBytes_cons_self, ih]

theorem compareBytes_nonpos_iff :
    compareBytes as bs ≤ 0 ↔ as < bs ∨ as = bs := by
  rw [← compareBytes_neg_iff, ← compareBytes_eq_zero_iff]
  omega

theorem compareBytes_neg_of_neg_of_nonpos {as bs cs : Bytes} (h : compareBytes as bs < 0)
    (h' : compareBytes bs cs ≤ 0) : compareBytes as cs < 0 := by
  rcases compareBytes_nonpos_iff.mp h' with hlt | rfl
  · exact compareBytes_neg_iff.mpr (List.lt_trans (compareBytes_neg_iff.mp h) hlt)
  · exact h

theorem compareBytes_neg_of_nonpos_of_neg {as bs cs : Bytes} (h : compareBytes as bs ≤ 0)
    (h' : compareBytes bs cs < 0) : compareBytes as cs < 0 := by
  rcases compareBytes_nonpos_iff.mp h with hlt | rfl
  · exact compareBytes_neg_iff.mpr (List.lt_trans hlt (compareBytes_neg_iff.mp h'))
  · exact h'

theorem compareBytes_nonpos_trans {as bs cs : Bytes} (h : compareBytes as bs ≤ 0)
    (h' : compareBytes bs cs ≤ 0) : compareBytes as cs ≤ 0 := by
  rcases compareBytes_nonpos_iff.mp h with hlt | rfl
  · exact (compareBytes_neg_of_neg_of_nonpos (compareBytes_neg_iff.mpr hlt) h').le
  · exact h'

theorem byteAt_zero_le (h : compareBytes as bs ≤ 0) :
    byteAt as 0 ≤ byteAt bs 0 := by
  cases as with
  | nil => exact Nat.zero_le _
  | cons a as =>
    cases bs with
    | nil =>
      rw [compareBytes_cons_nil] at h
      omega
    | cons b bs =>
      by_cases hne : a ≠ b
      · rw [compareBytes_cons_cons, if_pos hne] at h
        simp only [byteAt, List.getElem?_cons_zero, Option.getD_some]
        omega
      · rw [not_not.mp hne]
        rfl

end Tsgit
