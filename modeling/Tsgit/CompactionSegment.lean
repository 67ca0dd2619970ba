import Mathlib.Algebra.BigOperators.Ring.Finset
import Mathlib.Algebra.Order.BigOperators.Group.List
import Mathlib.Data.List.Chain
import Mathlib.Tactic.Linarith
import Tsgit.Double

/-!
# Compaction of a Stack of Tables

`src/domain/refs/reftable/reftable-compaction.ts`: which tables of a stack to merge. The sizes go
from the oldest table to the newest. They and the factor are numbers of the platform, and so is
every product and every sum: it is rounded, also where it only serves a comparison.

## Main results

* `suggestCompactionSegment_geometric`: the suggestion where nothing is rounded away, as for whole
  sizes and factors (`unrounded_of_whole`).
* `suggestCompactionSegment_rounds`: two sizes that are not geometric by less than the product
  shows.
-/

namespace Tsgit.Compaction

open List

/-! ### The rule -/

/-- `CompactionSegment`: the tables from `start` on, up to `stop`. -/
structure CompactionSegment where
  start : ℕ
  stop : ℕ
  deriving DecidableEq

def emptySegment : CompactionSegment := ⟨0, 0⟩

structure MergeBoundary where
  index : ℕ
  bytes : ℚ
  deriving DecidableEq

def sizeAt (sizes : List ℚ) (i : ℕ) : ℚ := sizes.getD i 0

def findMergeBoundaryFrom (sizes : List ℚ) (factor : ℚ) : ℕ → Option MergeBoundary
  | 0 => none
  | i + 1 =>
    if sizeAt sizes i < toDouble (sizeAt sizes (i + 1) * factor) then
      some ⟨i + 1, sizeAt sizes (i + 1)⟩
    else findMergeBoundaryFrom sizes factor i

def findMergeBoundary (sizes : List ℚ) (factor : ℚ) : Option MergeBoundary :=
  findMergeBoundaryFrom sizes factor (sizes.length - 1)

def findMergeStartFrom (sizes : List ℚ) (factor : ℚ) : ℕ → ℕ → ℚ → ℕ
  | 0, start, _ => start
  | i + 1, start, bytes =>
    let curr := bytes
    let start := if sizeAt sizes i < toDouble (curr * factor) then i else start
    findMergeStartFrom sizes factor i start (toDouble (bytes + sizeAt sizes i))

def findMergeStart (sizes : List ℚ) (factor : ℚ) (boundaryIndex : ℕ) (boundaryBytes : ℚ) : ℕ :=
  findMergeStartFrom sizes factor boundaryIndex 0 boundaryBytes

/-- The tables to merge. -/
def suggestCompactionSegment (sizes : List ℚ) (factor : ℚ) : CompactionSegment :=
  match findMergeBoundary sizes factor with
  | none => emptySegment
  | some boundary =>
    ⟨findMergeStart sizes factor boundary.index boundary.bytes, boundary.index + 1⟩

/-! ### Geometric sequences -/

/-- Each table is at least `factor` times as large as the next newer one. -/
def Geometric (factor : ℚ) (sizes : List ℚ) : Prop :=
  sizes.IsChain fun older newer => newer * factor ≤ older

/-- The sizes where one table of the summed size stands for the segment. -/
def merged (sizes : List ℚ) (segment : CompactionSegment) : List ℚ :=
  sizes.take segment.start ++
    ((sizes.drop segment.start).take (segment.stop - segment.start)).sum ::
      sizes.drop segment.stop

variable {sizes : List ℚ} {factor : ℚ}

def total (sizes : List ℚ) (stop i : ℕ) : ℚ := ((sizes.take stop).drop i).sum

theorem sizeAt_eq {i : ℕ} (h : i < sizes.length) : sizeAt sizes i = sizes[i] := by
  rw [sizeAt, getD_eq_getElem?_getD, getElem?_eq_getElem h, Option.getD_some]

theorem total_eq {stop i : ℕ} (hi : i < stop) (hstop : stop ≤ sizes.length) :
    total sizes stop i = sizeAt sizes i + total sizes stop (i + 1) := by
  have hlength : i < (sizes.take stop).length := by
    rw [length_take]
    omega
  rw [total, drop_eq_getElem_cons hlength, sum_cons, getElem_take,
    sizeAt_eq (hi.trans_le hstop), total]

theorem total_self (stop : ℕ) : total sizes stop stop = 0 := by
  rw [total, drop_eq_nil_of_le (length_take_le _ _), sum_nil]

theorem total_nonneg (h : ∀ size ∈ sizes, 0 ≤ size) (stop i : ℕ) : 0 ≤ total sizes stop i :=
  sum_nonneg fun size hsize => h size (mem_of_mem_take (mem_of_mem_drop hsize))

/-- The tables from an older one on are not smaller. -/
theorem total_anti (h : ∀ size ∈ sizes, 0 ≤ size) {stop i j : ℕ} (hij : i ≤ j) :
    total sizes stop j ≤ total sizes stop i :=
  ((drop_sublist_drop_left _ hij).sum_le_sum fun size hsize =>
    h size (mem_of_mem_take (mem_of_mem_drop hsize)))

theorem sizeAt_take {n i : ℕ} (h : i < n) : sizeAt (sizes.take n) i = sizeAt sizes i := by
  simp [sizeAt, h]

theorem sizeAt_drop (n i : ℕ) : sizeAt (sizes.drop n) i = sizeAt sizes (n + i) := by
  simp [sizeAt]

/-- Nothing is rounded: no sum of neighbouring sizes, and no product of one by the factor. -/
structure Unrounded (sizes : List ℚ) (factor : ℚ) : Prop where
  sum : ∀ stop i, toDouble (total sizes stop i) = total sizes stop i
  product : ∀ stop i, toDouble (total sizes stop i * factor) = total sizes stop i * factor

/-- A size is the sum of itself. -/
theorem Unrounded.size (h : Unrounded sizes factor) {i : ℕ} (hi : i < sizes.length) :
    toDouble (sizeAt sizes i * factor) = sizeAt sizes i * factor := by
  have hone : sizeAt sizes i = total sizes (i + 1) i := by
    rw [total_eq (Nat.lt_succ_self i) hi, total_self, add_zero]
  rw [hone]
  exact h.product (i + 1) i

/-- **Whole sizes and factors** below `2 ^ 53`. -/
theorem unrounded_of_whole {sizes : List ℕ} {factor : ℕ} (hfactor : 1 ≤ factor)
    (h : sizes.sum * factor < 2 ^ 53) : Unrounded (sizes.map (↑)) factor := by
  have htotal : ∀ stop i, ∃ whole : ℕ,
      total (sizes.map (↑)) stop i = (whole : ℚ) ∧ whole ≤ sizes.sum := by
    intro stop i
    refine ⟨((sizes.take stop).drop i).sum, ?_, ?_⟩
    · rw [total, ← map_take, ← map_drop, ← Nat.cast_list_sum]
    · exact ((drop_sublist _ _).trans (take_sublist _ _)).sum_le_sum fun _ _ => Nat.zero_le _
  have hwhole : ∀ whole : ℕ, whole < 2 ^ 53 → toDouble (whole : ℚ) = whole := by
    intro whole hlt
    have := @toDouble_int (whole : ℤ) (by rw [Nat.abs_cast]; exact_mod_cast hlt)
    exact_mod_cast this
  have hsum : sizes.sum ≤ sizes.sum * factor := Nat.le_mul_of_pos_right _ hfactor
  constructor
  · intro stop i
    obtain ⟨whole, heq, hle⟩ := htotal stop i
    rw [heq]
    exact hwhole whole (by omega)
  · intro stop i
    obtain ⟨whole, heq, hle⟩ := htotal stop i
    have hproduct := Nat.mul_le_mul_right factor hle
    have hrounded := hwhole (whole * factor) (by omega)
    push_cast at hrounded
    rw [heq]
    exact hrounded

theorem geometric_iff : Geometric factor sizes ↔
    ∀ i, i + 1 < sizes.length → sizeAt sizes (i + 1) * factor ≤ sizeAt sizes i := by
  rw [Geometric, isChain_iff_getElem]
  refine forall_congr' fun i => forall_congr' fun hi => ?_
  rw [sizeAt_eq hi, sizeAt_eq (Nat.lt_of_succ_lt hi)]

/-! ### The boundary -/

theorem findMergeBoundaryFrom_none_iff (hexact : Unrounded sizes factor) {i : ℕ}
    (hi : i < sizes.length) : findMergeBoundaryFrom sizes factor i = none ↔ ∀ j < i,
      sizeAt sizes (j + 1) * factor ≤ sizeAt sizes j := by
  induction i with
  | zero => exact ⟨fun _ j hj => absurd hj (Nat.not_lt_zero j), fun _ => rfl⟩
  | succ i ih =>
    rw [findMergeBoundaryFrom, hexact.size hi]
    by_cases hbreak : sizeAt sizes i < sizeAt sizes (i + 1) * factor
    · rw [if_pos hbreak]
      refine ⟨fun h => ?_, fun h => ?_⟩
      · cases h
      · exact absurd (h i (Nat.lt_succ_self i)) (not_le_of_gt hbreak)
    · rw [if_neg hbreak, ih (Nat.lt_of_succ_lt hi)]
      refine ⟨fun h j hj => ?_, fun h j hj => h j (Nat.lt_succ_of_lt hj)⟩
      rcases Nat.lt_succ_iff_lt_or_eq.mp hj with hlt | rfl
      · exact h j hlt
      · exact not_lt.mp hbreak

/-- The newest pair of tables that breaks the sequence. -/
structure Breaks (sizes : List ℚ) (factor : ℚ) (top : ℕ) (boundary : MergeBoundary) : Prop where
  pos : 0 < boundary.index
  le_top : boundary.index ≤ top
  bytes_eq : boundary.bytes = sizeAt sizes boundary.index
  lt : sizeAt sizes (boundary.index - 1) < boundary.bytes * factor
  above : ∀ j, boundary.index ≤ j → j < top → sizeAt sizes (j + 1) * factor ≤ sizeAt sizes j

theorem findMergeBoundaryFrom_some (hexact : Unrounded sizes factor) {i : ℕ}
    (hi : i < sizes.length) {boundary : MergeBoundary}
    (h : findMergeBoundaryFrom sizes factor i = some boundary) :
    Breaks sizes factor i boundary := by
  induction i with
  | zero => cases h
  | succ i ih =>
    rw [findMergeBoundaryFrom, hexact.size hi] at h
    by_cases hbreak : sizeAt sizes i < sizeAt sizes (i + 1) * factor
    · rw [if_pos hbreak] at h
      obtain rfl := Option.some.inj h
      exact ⟨Nat.succ_pos i, le_rfl, rfl, hbreak,
        fun j hle hlt => absurd hlt (Nat.not_lt.mpr hle)⟩
    rw [if_neg hbreak] at h
    have hfound := ih (Nat.lt_of_succ_lt hi) h
    refine ⟨hfound.pos, Nat.le_succ_of_le hfound.le_top, hfound.bytes_eq, hfound.lt,
      fun j hle hlt => ?_⟩
    rcases Nat.lt_succ_iff_lt_or_eq.mp hlt with hbelow | rfl
    · exact hfound.above j hle hbelow
    · exact not_lt.mp hbreak

theorem findMergeBoundary_none_iff (hexact : Unrounded sizes factor) :
    findMergeBoundary sizes factor = none ↔ Geometric factor sizes := by
  rcases Nat.eq_zero_or_pos sizes.length with hzero | hpos
  · obtain rfl := length_eq_zero_iff.mp hzero
    exact iff_of_true rfl .nil
  rw [findMergeBoundary, findMergeBoundaryFrom_none_iff hexact (by omega), geometric_iff]
  exact forall_congr' fun i => ⟨fun h hi => h (by omega), fun h hi => h (by omega)⟩

/-! ### The start -/

/-- The table at `i` keeps the sequence geometric before one for those from `i + 1` up to `stop`. -/
def Outweighs (sizes : List ℚ) (factor : ℚ) (stop i : ℕ) : Prop :=
  total sizes stop (i + 1) * factor ≤ sizeAt sizes i

/-- **The start of the segment**: every table below it outweighs those that are merged. -/
theorem findMergeStartFrom_spec (hexact : Unrounded sizes factor) {stop i start : ℕ} (hi : i < stop) (hstop : stop ≤ sizes.length) :
    (findMergeStartFrom sizes factor i start (total sizes stop i) = start ∧
        ∀ j < i, Outweighs sizes factor stop j) ∨
      (findMergeStartFrom sizes factor i start (total sizes stop i) < i ∧
        ∀ j < findMergeStartFrom sizes factor i start (total sizes stop i),
          Outweighs sizes factor stop j) := by
  induction i generalizing start with
  | zero => exact .inl ⟨rfl, fun j hj => absurd hj (Nat.not_lt_zero j)⟩
  | succ i ih =>
    have hnext := Nat.lt_of_succ_lt hi
    rw [findMergeStartFrom, add_comm (total sizes stop (i + 1)), ← total_eq hnext hstop, hexact.sum,
      hexact.product]
    by_cases hlight : sizeAt sizes i < total sizes stop (i + 1) * factor
    · rw [if_pos hlight]
      rcases @ih i hnext with ⟨heq, hbelow⟩ | ⟨hlt, hbelow⟩
      · exact .inr ⟨by rw [heq]; exact Nat.lt_succ_self i, fun j hj => hbelow j (heq ▸ hj)⟩
      · exact .inr ⟨Nat.lt_succ_of_lt hlt, hbelow⟩
    rw [if_neg hlight]
    rcases @ih start hnext with ⟨heq, hbelow⟩ | ⟨hlt, hbelow⟩
    · refine .inl ⟨heq, fun j hj => ?_⟩
      rcases Nat.lt_succ_iff_lt_or_eq.mp hj with hlower | rfl
      · exact hbelow j hlower
      · exact not_lt.mp hlight
    · exact .inr ⟨Nat.lt_succ_of_lt hlt, hbelow⟩

theorem findMergeStart_spec (hexact : Unrounded sizes factor) {top : ℕ}
    {boundary : MergeBoundary} (hbreaks : Breaks sizes factor top boundary) (htop : top < sizes.length) :
    findMergeStart sizes factor boundary.index boundary.bytes < boundary.index ∧
      ∀ j < findMergeStart sizes factor boundary.index boundary.bytes,
        Outweighs sizes factor (boundary.index + 1) j := by
  have hlength : boundary.index + 1 ≤ sizes.length := by
    have := hbreaks.le_top
    omega
  have htotal : boundary.bytes = total sizes (boundary.index + 1) boundary.index := by
    rw [total_eq (Nat.lt_succ_self _) hlength, total_self, add_zero, hbreaks.bytes_eq]
  have hlast : ¬ Outweighs sizes factor (boundary.index + 1) (boundary.index - 1) := by
    rw [Outweighs, Nat.sub_add_cancel hbreaks.pos, ← htotal]
    exact not_le_of_gt hbreaks.lt
  rw [findMergeStart, htotal]
  rcases @findMergeStartFrom_spec sizes factor hexact _ _ 0 (Nat.lt_succ_self boundary.index)
    hlength with ⟨-, hbelow⟩ | hfound
  · exact absurd (hbelow _ (Nat.sub_lt hbreaks.pos Nat.one_pos)) hlast
  · exact hfound

/-! ### The suggestion -/

theorem merged_eq_total (start stop : ℕ) : merged sizes ⟨start, stop⟩ =
    sizes.take start ++ total sizes stop start :: sizes.drop stop := by
  rw [merged, total, drop_take]

theorem geometric_merged {start stop : ℕ} (hsizes : ∀ size ∈ sizes, 0 ≤ size) (hfactor : 1 ≤ factor)
    (hstart : start + 1 < stop) (hstop : stop ≤ sizes.length)
    (hbelow : ∀ j < start, Outweighs sizes factor stop j)
    (habove : ∀ j, stop - 1 ≤ j → j + 1 < sizes.length →
      sizeAt sizes (j + 1) * factor ≤ sizeAt sizes j) :
    Geometric factor (merged sizes ⟨start, stop⟩) := by
  have hpos : (0 : ℚ) ≤ factor := zero_le_one.trans hfactor
  have hle : ∀ i < stop, sizeAt sizes i ≤ total sizes stop i := fun i hi => by
    rw [total_eq hi hstop]
    exact le_add_of_nonneg_right (total_nonneg hsizes stop (i + 1))
  have htotal : total sizes stop (stop - 1) ≤ total sizes stop start :=
    total_anti hsizes (Nat.le_sub_one_of_lt (Nat.lt_of_succ_lt hstart))
  rw [merged_eq_total, Geometric, isChain_append, isChain_cons]
  refine ⟨?_, ⟨?_, ?_⟩, ?_⟩
  · -- the older tables
    refine geometric_iff.mpr fun i hi => ?_
    rw [length_take] at hi
    rw [sizeAt_take (by omega), sizeAt_take (by omega)]
    exact (mul_le_mul_of_nonneg_right (hle (i + 1) (by omega)) hpos).trans (hbelow i (by omega))
  · -- the table that stands for the segment, and the one that is newer
    intro newer hnewer
    rw [head?_drop] at hnewer
    obtain ⟨hlt, rfl⟩ := List.getElem?_eq_some_iff.mp hnewer
    have hlast := habove (stop - 1) le_rfl (by omega)
    rw [Nat.sub_add_cancel (by omega), sizeAt_eq hlt] at hlast
    exact hlast.trans ((hle (stop - 1) (by omega)).trans htotal)
  · -- the newer tables
    refine geometric_iff.mpr fun i hi => ?_
    rw [length_drop] at hi
    rw [sizeAt_drop, sizeAt_drop]
    exact habove (stop + i) (by omega) (by omega)
  -- the last older table, and the one that stands for the segment
  intro older holder table htable
  obtain rfl : total sizes stop start = table := Option.some.inj htable
  rw [getLast?_take] at holder
  by_cases hzero : start = 0
  · rw [if_pos hzero] at holder
    cases holder
  · have hlt : start - 1 < sizes.length := by omega
    rw [if_neg hzero, getElem?_eq_getElem hlt] at holder
    obtain rfl : sizes[start - 1] = older := Option.some.inj holder
    have hlast := hbelow (start - 1) (by omega)
    rwa [Outweighs, Nat.sub_add_cancel (by omega), sizeAt_eq hlt] at hlast

/-- **Compaction**, where nothing is rounded: nothing is suggested exactly where the sizes are
geometric; else they are so with one table in place of those suggested. -/
theorem suggestCompactionSegment_geometric (sizes : List ℚ) (factor : ℚ)
    (hsizes : ∀ size ∈ sizes, 0 ≤ size) (hfactor : 1 ≤ factor)
    (hexact : Unrounded sizes factor) :
    (suggestCompactionSegment sizes factor = emptySegment ↔ Geometric factor sizes) ∧
      (¬ Geometric factor sizes → (suggestCompactionSegment sizes factor).start + 2 ≤
            (suggestCompactionSegment sizes factor).stop ∧
          (suggestCompactionSegment sizes factor).stop ≤ sizes.length ∧
          Geometric factor (merged sizes (suggestCompactionSegment sizes factor))) := by
  rw [← findMergeBoundary_none_iff hexact]
  unfold suggestCompactionSegment
  cases hboundary : findMergeBoundary sizes factor with
  | none => exact ⟨⟨fun _ => rfl, fun _ => rfl⟩, fun h => absurd rfl h⟩
  | some boundary =>
    have htop : sizes.length - 1 < sizes.length := by
      rcases Nat.eq_zero_or_pos sizes.length with hzero | hpos
      · obtain rfl := length_eq_zero_iff.mp hzero
        cases hboundary
      · omega
    have hbreaks := findMergeBoundaryFrom_some hexact htop hboundary
    have hle := hbreaks.le_top
    obtain ⟨hstart, hbelow⟩ := findMergeStart_spec hexact hbreaks htop
    refine ⟨⟨fun h => ?_, fun h => ?_⟩, fun _ => ⟨?_, ?_, ?_⟩⟩
    · exact absurd (congrArg CompactionSegment.stop h) (Nat.succ_ne_zero _)
    · cases h
    · exact Nat.succ_le_succ hstart
    · change boundary.index + 1 ≤ sizes.length
      omega
    · refine geometric_merged hsizes hfactor (Nat.succ_lt_succ hstart) (by omega) hbelow ?_
      intro j hlower hupper
      exact hbreaks.above j hlower (by omega)

/-- A stack of four tables, of which the two newest are merged. -/
theorem suggestCompactionSegment_geometric_sample :
    (suggestCompactionSegment [64, 8, 3, 2] 2).start + 2 ≤
        (suggestCompactionSegment [64, 8, 3, 2] 2).stop ∧
      Geometric 2 (merged [64, 8, 3, 2] (suggestCompactionSegment [64, 8, 3, 2] 2)) := by
  have hsizes : ∀ size ∈ ([64, 8, 3, 2] : List ℚ), 0 ≤ size := by
    simp
  have hbroken : ¬ Geometric 2 ([64, 8, 3, 2] : List ℚ) := by
    norm_num [Geometric]
  have hexact : Unrounded ([64, 8, 3, 2] : List ℚ) 2 := by
    simpa using @unrounded_of_whole [64, 8, 3, 2] 2 (by decide) (by decide)
  obtain ⟨hlength, -, hmerged⟩ :=
    (suggestCompactionSegment_geometric [64, 8, 3, 2] 2 hsizes (by norm_num) hexact).2 hbroken
  exact ⟨hlength, hmerged⟩

/-- **A product that is rounded down**: the number next to 1.1 is above it, so 33 and 30 are not
geometric by it, but the product with 30 comes out as 33 and nothing is suggested. -/
theorem suggestCompactionSegment_rounds :
    toDouble (11 / 10) = 2476979795053773 / 2251799813685248 ∧
      suggestCompactionSegment [33, 30] (2476979795053773 / 2251799813685248) = emptySegment ∧
      ¬ Geometric (2476979795053773 / 2251799813685248) [33, 30] := by
  refine ⟨by decide +kernel, by decide +kernel, ?_⟩
  norm_num [Geometric]

end Tsgit.Compaction
