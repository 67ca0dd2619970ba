import Tsgit.PackIndexBounds
import Tsgit.RevIndex

/-!
# The Table of Pack Offsets

`src/application/primitives/internal/pack-offset-table.ts`: where the entry at an offset of a pack
ends. With a reverse index the answer comes from a binary search through its cells, which are not
trusted; where it cannot be, the table degrades to the sorted offsets of the pack index, for this
query and for every later one.
-/

namespace Tsgit.Idx

open BinarySearch List Run

/-! ### The tables -/

structure SortedOffsetTable where
  sortedOffsets : List ℕ
  trailerStart : ℕ

structure LazyOffsetTable where
  index : PackIndex
  rev : PackRevIndex
  objectCount : ℕ
  trailerStart : ℕ

inductive PackOffsetTable
  | sorted (table : SortedOffsetTable)
  | viaRev (table : LazyOffsetTable)

/-- What is kept for a table: the entry of `degradedFallbacks`, and how often `warnDegraded` was
called. -/
structure TableState where
  fallback : Option (List ℕ)
  warnings : ℕ

def TableState.fresh : TableState := ⟨none, 0⟩

def bisectLeft (fuel : ℕ) (arr : List ℕ) (value : ℕ) : Run Thrown ℕ :=
  partitionPoint (fun i => decide (arr.getD i 0 < value)) fuel 0 arr.length

def offsetNotStored : Thrown := invalidPackIndex "offset not in pack index: corrupt index"

def successorFromSorted (fuel : ℕ) (sortedOffsets : List ℕ) (trailerStart offset : ℕ) :
    Run Thrown ℕ := do
  let rank ← bisectLeft fuel sortedOffsets offset
  if rank ≥ sortedOffsets.length ∨ sortedOffsets[rank]? ≠ some offset then
    Run.ofExcept (.error offsetNotStored)
  else if rank + 1 = sortedOffsets.length then pure trailerStart
  else pure (sortedOffsets.getD (rank + 1) 0)

/-- One turn of the search: `none` is the answer `'degraded'`. -/
def locateTurn (index : PackIndex) (rev : PackRevIndex) (offset : ℕ) (range : ℕ × ℕ) :
    Run Thrown (Turn (ℕ × ℕ) (Option ℕ)) :=
  if range.1 < range.2 then do
    let mid := midpoint range.1 range.2
    match ← Run.ofExcept (offsetAtPackPosition index rev mid) with
    | none => pure (.stop none)
    | some midOffset =>
      if midOffset < offset then pure (.again (mid + 1, range.2))
      else pure (.again (range.1, mid))
  else pure (.stop (some range.1))

def locatePackPosition (fuel : ℕ) (index : PackIndex) (rev : PackRevIndex)
    (objectCount offset : ℕ) : Run Thrown (Option ℕ) :=
  loop (locateTurn index rev offset) fuel (0, objectCount)

def lazySuccessor (fuel : ℕ) (table : LazyOffsetTable) (offset : ℕ) : Run Thrown (Option ℕ) := do
  match ← locatePackPosition fuel table.index table.rev table.objectCount offset with
  | none => pure none
  | some rank =>
    if rank ≥ table.objectCount then pure none
    else
      let here ← Run.ofExcept (offsetAtPackPosition table.index table.rev rank)
      if here ≠ some offset then pure none
      else if rank + 1 = table.objectCount then pure (some table.trailerStart)
      else
        let nextOffset ← Run.ofExcept (offsetAtPackPosition table.index table.rev (rank + 1))
        pure (nextOffset.filter fun next => decide (next > offset))

/-- The answer, or what is thrown, with what is kept afterwards. -/
def successorFromLazy (fuel : ℕ) (table : LazyOffsetTable) (state : TableState) (offset : ℕ) :
    Option (Except Thrown ℕ × TableState) :=
  match state.fallback with
  | some alreadyDegraded =>
    (successorFromSorted fuel alreadyDegraded table.trailerStart offset).run.map (·, state)
  | none => do
    match ← (lazySuccessor fuel table offset).run with
    | .error thrown => pure (.error thrown, state)
    | .ok (some next) => pure (.ok next, state)
    | .ok none =>
      let warned : TableState := { state with warnings := state.warnings + 1 }
      match buildSortedTable table.index with
      | .error thrown => pure (.error thrown, warned)
      | .ok sortedOffsets =>
        let answer ← (successorFromSorted fuel sortedOffsets table.trailerStart offset).run
        pure (answer, { warned with fallback := some sortedOffsets })

def nextOffsetForEntry (fuel : ℕ) (table : PackOffsetTable) (state : TableState) (offset : ℕ) :
    Option (Except Thrown ℕ × TableState) :=
  match table with
  | .sorted table =>
    (successorFromSorted fuel table.sortedOffsets table.trailerStart offset).run.map (·, state)
  | .viaRev table => successorFromLazy fuel table state offset

def askAll (fuel : ℕ) (table : PackOffsetTable) :
    TableState → List ℕ → Option (List (Except Thrown ℕ) × TableState)
  | state, [] => some ([], state)
  | state, offset :: rest => do
    let (answer, state) ← nextOffsetForEntry fuel table state offset
    let (answers, state) ← askAll fuel table state rest
    pure (answer :: answers, state)

/-! ### What a table should answer -/

def nextAbove (offsets : List ℕ) (offset : ℕ) : Option ℕ :=
  (offsets.filter fun stored => decide (offset < stored)).min?

/-- Where the entry at an offset ends, by the set of offsets. -/
def successor (offsets : List ℕ) (trailerStart offset : ℕ) : Except Thrown ℕ :=
  if offset ∈ offsets then .ok ((nextAbove offsets offset).getD trailerStart)
  else .error offsetNotStored

theorem nextAbove_eq_some {offsets : List ℕ} {offset next : ℕ} :
    nextAbove offsets offset = some next ↔ next ∈ offsets ∧ offset < next ∧
      ∀ stored ∈ offsets, offset < stored → next ≤ stored := by
  rw [nextAbove, min?_eq_some_iff, mem_filter, decide_eq_true_iff, and_assoc]
  refine and_congr_right fun _ => and_congr_right fun _ => ?_
  exact ⟨fun h stored hmem hlt => h stored (mem_filter.mpr ⟨hmem, decide_eq_true hlt⟩),
    fun h stored hmem => h stored (mem_filter.mp hmem).1
      (of_decide_eq_true (mem_filter.mp hmem).2)⟩

theorem nextAbove_eq_none {offsets : List ℕ} {offset : ℕ} :
    nextAbove offsets offset = none ↔ ∀ stored ∈ offsets, stored ≤ offset := by
  rw [nextAbove, min?_eq_none_iff, filter_eq_nil_iff]
  refine forall₂_congr fun stored _ => ?_
  rw [decide_eq_true_iff, not_lt]

/-! ### The sorted table -/

section

variable {offsets sorted : List ℕ} {trailerStart offset : ℕ}

/-- The offsets in order, each once. -/
structure SortedOf (offsets sorted : List ℕ) : Prop where
  perm : sorted.Perm offsets
  ascending : sorted.Pairwise (· < ·)

theorem sortedOf_insertionSort (hdistinct : offsets.Nodup) :
    SortedOf offsets (offsets.insertionSort (· ≤ ·)) where
  perm := perm_insertionSort _ offsets
  ascending := by
    have hsorted := pairwise_insertionSort (· ≤ ·) offsets
    have hnodup := (perm_insertionSort (· ≤ ·) offsets).nodup_iff.mpr hdistinct
    exact (hsorted.and hnodup).imp fun h => lt_of_le_of_ne h.1 h.2

theorem SortedOf.lt_iff (h : SortedOf offsets sorted) {i j : ℕ} (hi : i < sorted.length)
    (hj : j < sorted.length) : sorted[i] < sorted[j] ↔ i < j := by
  have hlt : ∀ {i j : ℕ} (hi : i < sorted.length) (hj : j < sorted.length), i < j →
      sorted[i] < sorted[j] := fun hi hj hij =>
  pairwise_iff_getElem.mp h.ascending _ _ hi hj hij
  refine ⟨fun hless => ?_, hlt hi hj⟩
  by_contra hnot
  rcases Nat.lt_or_eq_of_le (Nat.not_lt.mp hnot) with hji | rfl
  · exact lt_asymm hless (hlt hj hi hji)
  · exact lt_irrefl _ hless

theorem SortedOf.nextAbove_eq (h : SortedOf offsets sorted) {rank : ℕ}
    (hrank : rank < sorted.length) : nextAbove offsets sorted[rank] = sorted[rank + 1]? := by
  by_cases hlast : rank + 1 < sorted.length
  · rw [getElem?_eq_getElem hlast, nextAbove_eq_some]
    refine ⟨h.perm.mem_iff.mp (getElem_mem _), (h.lt_iff _ _).mpr (Nat.lt_succ_self _),
      fun stored hmem hlt => ?_⟩
    obtain ⟨i, hi, rfl⟩ := getElem_of_mem (h.perm.mem_iff.mpr hmem)
    have hafter := (h.lt_iff _ _).mp hlt
    by_contra hnot
    have hbefore := (h.lt_iff _ _).mp (Nat.not_le.mp hnot)
    omega
  · rw [getElem?_eq_none (Nat.not_lt.mp hlast), nextAbove_eq_none]
    intro stored hmem
    obtain ⟨i, hi, rfl⟩ := getElem_of_mem (h.perm.mem_iff.mpr hmem)
    by_contra hnot
    have hafter := (h.lt_iff _ _).mp (Nat.not_le.mp hnot)
    omega

/-- **The sorted offsets** give the successor of every offset. -/
theorem successorFromSorted_eq (h : SortedOf offsets sorted) (hcount : sorted.length ≤ 2 ^ 31)
    {fuel : ℕ} (hfuel : sorted.length < fuel) (trailerStart offset : ℕ) :
    successorFromSorted fuel sorted trailerStart offset =
      Run.ofExcept (successor offsets trailerStart offset) := by
  have hdown : ∀ i j, 0 ≤ i → i ≤ j → j < sorted.length →
      decide (sorted.getD j 0 < offset) = true → decide (sorted.getD i 0 < offset) = true := by
    intro i j _ hij hj hless
    have hi : i < sorted.length := lt_of_le_of_lt hij hj
    rw [decide_eq_true_iff, getD_eq_getElem _ _ hj] at hless
    rw [decide_eq_true_iff, getD_eq_getElem _ _ hi]
    rcases Nat.lt_or_eq_of_le hij with hlt | rfl
    · exact lt_trans ((h.lt_iff hi hj).mpr hlt) hless
    · exact hless
  obtain ⟨rank, hrun, hpoint⟩ := @partitionPoint_spec Thrown sorted.length 0
    (fun i => decide (sorted.getD i 0 < offset)) fuel hdown (Nat.zero_le _) hcount (by omega)
  rw [successorFromSorted, bisectLeft, hrun, pure_bind]
  by_cases hmem : offset ∈ offsets
  · obtain ⟨i, hi, hget⟩ := getElem_of_mem (h.perm.mem_iff.mpr hmem)
    have hrank : rank = i := by
      rcases Nat.lt_trichotomy rank i with hlt | heq | hgt
      · have hright := hpoint.not_before_right rank le_rfl (hlt.trans hi)
        rw [decide_eq_false_iff_not, getD_eq_getElem _ _ (hlt.trans hi), ← hget] at hright
        exact absurd ((h.lt_iff _ hi).mpr hlt) hright
      · exact heq
      · have hleft := hpoint.before_left i (Nat.zero_le _) hgt
        rw [decide_eq_true_iff, getD_eq_getElem _ _ hi, hget] at hleft
        exact absurd hleft (lt_irrefl _)
    subst hrank
    have hhere : sorted[rank]? = some offset := by rw [getElem?_eq_getElem hi, hget]
    have hnext := h.nextAbove_eq hi
    rw [hget] at hnext
    rw [if_neg (by rw [hhere]; rintro (hge | hne) <;> [omega; exact hne rfl]), successor,
      if_pos hmem, hnext]
    by_cases hlast : rank + 1 = sorted.length
    · rw [if_pos hlast, getElem?_eq_none hlast.ge]
      rfl
    · rw [if_neg hlast, getElem?_eq_getElem (by omega), getD_eq_getElem _ _ (by omega)]
      rfl
  · rw [successor, if_neg hmem, if_pos]
    by_contra hnot
    have hhere := not_not.mp (not_or.mp hnot).2
    exact hmem (h.perm.mem_iff.mp (mem_of_getElem? hhere))

end

/-! ### The search through the cells -/

/-- The offset that a cell of the reverse index stands for, where it stands for one. -/
def cellAt (index : PackIndex) (rev : PackRevIndex) (p : ℕ) : Option ℕ :=
  match offsetAtPackPosition index rev p with
  | .ok cell => cell
  | .error _ => none

theorem right_half_lt {low high : ℕ} (h : low < high) :
    high - ((low + high) / 2 + 1) < high - low := by omega

theorem left_half_lt {low high : ℕ} (h : low < high) : (low + high) / 2 - low < high - low := by
  omega

/-- The position at which the search for an offset ends, if no cell stops it. -/
def landing (cell : ℕ → Option ℕ) (offset low high : ℕ) : Option ℕ :=
  if _h : low < high then
    match cell ((low + high) / 2) with
    | none => none
    | some midOffset =>
      if midOffset < offset then landing cell offset ((low + high) / 2 + 1) high
      else landing cell offset low ((low + high) / 2)
  else some low
termination_by high - low
decreasing_by
  · exact right_half_lt _h
  · exact left_half_lt _h

/-- The end of the entry at a position, if the cell behind it can be one. -/
def endAt (cell : ℕ → Option ℕ) (count trailerStart p offset : ℕ) : Option ℕ :=
  if p + 1 = count then some trailerStart
  else (cell (p + 1)).filter fun next => decide (next > offset)

/-- What the search answers. -/
def lazyEnd (cell : ℕ → Option ℕ) (count trailerStart offset : ℕ) : Option ℕ :=
  match landing cell offset 0 count with
  | none => none
  | some p =>
    if p < count ∧ cell p = some offset then endAt cell count trailerStart p offset else none

/-- Where the search answers, it stands at a cell of the offset. -/
theorem endAt_of_lazyEnd {cell : ℕ → Option ℕ} {count trailerStart offset stop : ℕ}
    (h : lazyEnd cell count trailerStart offset = some stop) :
    ∃ p < count, cell p = some offset ∧ endAt cell count trailerStart p offset = some stop := by
  unfold lazyEnd at h
  cases hland : landing cell offset 0 count with
  | none =>
    rw [hland] at h
    cases h
  | some p =>
    rw [hland] at h
    dsimp only at h
    split_ifs at h with hhere
    exact ⟨p, hhere.1, hhere.2, h⟩

/-! ### The reverse index -/

/-- A pack index whose offsets are these, and a reverse index of as many cells. -/
structure Pair (index : PackIndex) (rev : PackRevIndex) (offsets : List ℕ) : Prop where
  offsets_eq : entryOffsetsF64 index = .ok offsets
  distinct : offsets.Nodup
  cells : ∀ p < index.objectCount, ∃ position, revIndexPositionAt rev p = .ok position

section

variable {index : PackIndex} {rev : PackRevIndex} {offsets : List ℕ} {trailerStart offset : ℕ}

theorem Pair.length_eq (h : Pair index rev offsets) : offsets.length = index.objectCount := by
  rw [(mapM_ok h.offsets_eq).1, length_range]

theorem Pair.sorted (h : Pair index rev offsets) :
    SortedOf offsets (offsets.insertionSort (· ≤ ·)) := sortedOf_insertionSort h.distinct

theorem Pair.offsetAt (h : Pair index rev offsets) {p : ℕ} (hp : p < index.objectCount) :
    offsetAtPackPosition index rev p = .ok (cellAt index rev p) ∧
      ∀ stored, cellAt index rev p = some stored → stored ∈ offsets := by
  obtain ⟨position, hposition⟩ := h.cells p hp
  have hrun : ∃ cell, offsetAtPackPosition index rev p = .ok cell ∧
      ∀ stored, cell = some stored → stored ∈ offsets := by
    rw [offsetAtPackPosition, ok_bind_eq hposition]
    by_cases hin : position ≥ index.objectCount
    · rw [if_pos hin]
      exact ⟨none, rfl, fun _ hnone => by cases hnone⟩
    rw [if_neg hin]
    obtain ⟨stored, hmem, hread⟩ :=
      (mapM_ok h.offsets_eq).2 position (mem_range.mpr (Nat.not_le.mp hin))
    rw [ok_bind_eq hread]
    refine ⟨some stored, rfl, fun other hother => ?_⟩
    cases hother
    exact hmem
  obtain ⟨cell, hcell, hstored⟩ := hrun
  have heq : cellAt index rev p = cell := by
    unfold cellAt
    rw [hcell]
  rw [heq]
  exact ⟨hcell, hstored⟩

theorem parsePackRevIndex_cells {bytes : Bytes} {digestLength objectCount : ℕ}
    (h : parsePackRevIndex bytes digestLength objectCount = .ok rev) {p : ℕ}
    (hp : p < objectCount) : ∃ position, revIndexPositionAt rev p = .ok position := by
  rw [parsePackRevIndex] at h
  by_cases hsmall : bytes.length < wordTableHeaderSize + 2 * digestLength
  · rw [if_pos hsmall] at h
    cases h
  rw [if_neg hsmall, bind_eq_ok] at h
  obtain ⟨hashId, -, h⟩ := h
  by_cases hsize : bytes.length ≠ wordTableHeaderSize + 4 * objectCount + 2 * digestLength
  · rw [if_pos hsize] at h
    cases h
  rw [if_neg hsize] at h
  cases h
  have hlength := not_not.mp hsize
  obtain ⟨position, -, hword⟩ :=
    getUint32_eq_ok (show wordTableHeaderSize + p * 4 + 4 ≤ bytes.length by omega)
  exact ⟨position, (if_neg (Nat.not_le.mpr hp)).trans hword⟩

theorem locate_eq (h : Pair index rev offsets) (hcount : index.objectCount ≤ 2 ^ 31) {fuel : ℕ}
    {low high : ℕ} (hhigh : high ≤ index.objectCount) (hfuel : high - low < fuel) :
    loop (locateTurn index rev offset) fuel (low, high) =
      pure (landing (cellAt index rev) offset low high) := by
  induction fuel generalizing low high with
  | zero => exact absurd hfuel (Nat.not_lt_zero _)
  | succ fuel ih =>
    rw [loop, landing]
    by_cases hlt : low < high
    · have hmid : BinarySearch.midpoint low high = (low + high) / 2 := by
        unfold BinarySearch.midpoint
        omega
      obtain ⟨hread, -⟩ := h.offsetAt (show (low + high) / 2 < index.objectCount by omega)
      rw [dif_pos hlt]
      cases hcell : cellAt index rev ((low + high) / 2) with
      | none =>
        have hturn : locateTurn index rev offset (low, high) = pure (.stop none) := by
          unfold locateTurn
          dsimp only
          rw [if_pos hlt, hmid, hread, hcell]
          rfl
        rw [hturn, pure_bind]
      | some midOffset =>
        have hturn : locateTurn index rev offset (low, high) =
            if midOffset < offset then pure (.again ((low + high) / 2 + 1, high))
            else pure (.again (low, (low + high) / 2)) := by
          unfold locateTurn
          dsimp only
          rw [if_pos hlt, hmid, hread, hcell]
          rfl
        rw [hturn]
        dsimp only
        by_cases hless : midOffset < offset
        · rw [if_pos hless, if_pos hless, pure_bind]
          exact ih hhigh (by omega)
        · rw [if_neg hless, if_neg hless, pure_bind]
          exact ih (by omega) (by omega)
    · have hturn : locateTurn index rev offset (low, high) = pure (.stop (some low)) := if_neg hlt
      rw [hturn, pure_bind, dif_neg hlt]

/-- **The search through the reverse index.** -/
theorem lazySuccessor_eq (h : Pair index rev offsets) (hcount : index.objectCount ≤ 2 ^ 31)
    {fuel : ℕ} (hfuel : index.objectCount < fuel) (trailerStart offset : ℕ) :
    lazySuccessor fuel ⟨index, rev, index.objectCount, trailerStart⟩ offset =
      pure (lazyEnd (cellAt index rev) index.objectCount trailerStart offset) := by
  rw [lazySuccessor, locatePackPosition, lazyEnd,
    locate_eq h hcount le_rfl (show index.objectCount - 0 < fuel by omega), pure_bind]
  cases landing (cellAt index rev) offset 0 index.objectCount with
  | none => rfl
  | some p =>
    dsimp only
    by_cases hp : p < index.objectCount
    · rw [if_neg (Nat.not_le.mpr hp), (h.offsetAt hp).1, Run.ofExcept_ok, pure_bind]
      by_cases hcell : cellAt index rev p = some offset
      · have hhere : p < index.objectCount ∧ cellAt index rev p = some offset := ⟨hp, hcell⟩
        rw [if_neg (not_not_intro hcell), if_pos hhere, endAt]
        by_cases hlast : p + 1 = index.objectCount
        · rw [if_pos hlast, if_pos hlast]
        · rw [if_neg hlast, if_neg hlast, (h.offsetAt (by omega)).1, Run.ofExcept_ok, pure_bind]
      · rw [if_pos hcell, if_neg fun hboth => hcell hboth.2]
    · rw [if_pos (Nat.not_lt.mp hp), if_neg fun hboth => hp hboth.1]

end

/-! ### One query after the other -/

def AnswersWell (table : PackOffsetTable) (offsets : List ℕ) (trailerStart : ℕ)
    (queries : List ℕ) : Prop :=
  ∃ enough, ∀ fuel, enough ≤ fuel → ∃ state, askAll fuel table .fresh queries =
    some (queries.map (successor offsets trailerStart), state)

section

variable {index : PackIndex} {rev : PackRevIndex} {offsets : List ℕ} {trailerStart offset : ℕ}

def KeptFrom (offsets : List ℕ) (state : TableState) : Prop :=
  ∀ kept, state.fallback = some kept → kept = offsets.insertionSort (· ≤ ·)

/-- The table as it answers one query: `none` where the search degrades it. -/
def lazyAnswer (offsets : List ℕ) (trailerStart offset : ℕ) (stop : Option ℕ)
    (state : TableState) : Except Thrown ℕ × TableState :=
  match state.fallback, stop with
  | none, some stop => (.ok stop, state)
  | none, none => (successor offsets trailerStart offset,
      ⟨some (offsets.insertionSort (· ≤ ·)), state.warnings + 1⟩)
  | some _, _ => (successor offsets trailerStart offset, state)

theorem length_insertionSort_lt (h : Pair index rev offsets)
    (hcount : index.objectCount ≤ 2 ^ 31) {fuel : ℕ} (hfuel : index.objectCount < fuel) :
    (offsets.insertionSort (· ≤ ·)).length ≤ 2 ^ 31 ∧
      (offsets.insertionSort (· ≤ ·)).length < fuel := by
  rw [length_insertionSort, h.length_eq]
  exact ⟨hcount, hfuel⟩

/-- **One query** of a table with a reverse index. -/
theorem successorFromLazy_eq (h : Pair index rev offsets) (hcount : index.objectCount ≤ 2 ^ 31)
    {fuel : ℕ} (hfuel : index.objectCount < fuel) {state : TableState}
    (hkept : KeptFrom offsets state) (trailerStart offset : ℕ) :
    successorFromLazy fuel ⟨index, rev, index.objectCount, trailerStart⟩ state offset =
      some (lazyAnswer offsets trailerStart offset
        (lazyEnd (cellAt index rev) index.objectCount trailerStart offset) state) := by
  obtain ⟨hbound, hroom⟩ := length_insertionSort_lt h hcount hfuel
  have hsorted := successorFromSorted_eq h.sorted hbound hroom trailerStart offset
  unfold successorFromLazy lazyAnswer
  cases hfallback : state.fallback with
  | some kept =>
    dsimp only
    rw [hkept kept hfallback, hsorted]
    rfl
  | none =>
    dsimp only
    rw [lazySuccessor_eq h hcount hfuel]
    cases lazyEnd (cellAt index rev) index.objectCount trailerStart offset with
    | some stop => rfl
    | none =>
      have hbuild : buildSortedTable index = .ok (offsets.insertionSort (· ≤ ·)) := by
        rw [buildSortedTable, ok_bind_eq h.offsets_eq]
        rfl
      have hrun : ∀ answer : Option ℕ, (pure answer : Run Thrown (Option ℕ)).run =
          some (.ok answer) := fun _ => rfl
      rw [hrun]
      dsimp only [bind, Option.bind]
      rw [hbuild]
      dsimp only
      rw [hsorted]
      rfl

theorem KeptFrom.lazyAnswer {state : TableState} (hkept : KeptFrom offsets state)
    (stop : Option ℕ) : KeptFrom offsets (lazyAnswer offsets trailerStart offset stop state).2 := by
  unfold Idx.lazyAnswer
  cases hfallback : state.fallback with
  | some kept => exact hkept
  | none =>
    cases stop with
    | some stop => exact hkept
    | none =>
      intro kept hsome
      cases hsome
      rfl

/-- A whole run, without fuel. -/
def lazyAnswers (index : PackIndex) (rev : PackRevIndex) (offsets : List ℕ) (trailerStart : ℕ) :
    TableState → List ℕ → List (Except Thrown ℕ) × TableState
  | state, [] => ([], state)
  | state, offset :: rest =>
    let stop := lazyEnd (cellAt index rev) index.objectCount trailerStart offset
    let answered := lazyAnswer offsets trailerStart offset stop state
    let run := lazyAnswers index rev offsets trailerStart answered.2 rest
    (answered.1 :: run.1, run.2)

theorem askAll_lazy (h : Pair index rev offsets) (hcount : index.objectCount ≤ 2 ^ 31) {fuel : ℕ}
    (hfuel : index.objectCount < fuel) (trailerStart : ℕ) (queries : List ℕ) {state : TableState}
    (hkept : KeptFrom offsets state) :
    askAll fuel (.viaRev ⟨index, rev, index.objectCount, trailerStart⟩) state queries =
      some (lazyAnswers index rev offsets trailerStart state queries) := by
  induction queries generalizing state with
  | nil => rfl
  | cons offset rest ih =>
    have hone := successorFromLazy_eq h hcount hfuel hkept trailerStart offset
    have hrest := ih (@KeptFrom.lazyAnswer offsets trailerStart offset state hkept
      (lazyEnd (cellAt index rev) index.objectCount trailerStart offset))
    rw [askAll, nextOffsetForEntry, hone]
    dsimp only [bind, Option.bind]
    rw [hrest]
    rfl

theorem askAll_sorted {sorted : List ℕ} (hsorted : SortedOf offsets sorted)
    (hcount : sorted.length ≤ 2 ^ 31) {fuel : ℕ} (hfuel : sorted.length < fuel)
    (trailerStart : ℕ) (queries : List ℕ) (state : TableState) :
    askAll fuel (.sorted ⟨sorted, trailerStart⟩) state queries =
      some (queries.map (successor offsets trailerStart), state) := by
  induction queries with
  | nil => rfl
  | cons offset rest ih =>
    have hone := successorFromSorted_eq hsorted hcount hfuel trailerStart offset
    rw [askAll, nextOffsetForEntry, hone]
    dsimp only [bind, Option.bind, Run.ofExcept, ExceptT.run, Option.map]
    rw [ih]
    rfl

/-- Every cell that stands for the offset has the next stored offset behind it, or none above the
offset: no cell between which the entry could end too late, and behind the last cell nothing. -/
structure Followed (index : PackIndex) (rev : PackRevIndex) (offsets : List ℕ) (offset : ℕ) :
    Prop where
  next : ∀ p next, p + 1 < index.objectCount → cellAt index rev p = some offset →
    cellAt index rev (p + 1) = some next → offset < next →
      ∀ stored ∈ offsets, offset < stored → next ≤ stored
  last : ∀ p, p + 1 = index.objectCount → cellAt index rev p = some offset →
    ∀ stored ∈ offsets, stored ≤ offset

/-- **Where the cells are followed**, the search answers with the end of the entry. -/
theorem Followed.lazyEnd_right (hfollowed : Followed index rev offsets offset)
    (h : Pair index rev offsets) {stop : ℕ}
    (hstop : lazyEnd (cellAt index rev) index.objectCount trailerStart offset = some stop) :
    .ok stop = successor offsets trailerStart offset := by
  obtain ⟨p, hp, hcell, hend⟩ := endAt_of_lazyEnd hstop
  rw [successor, if_pos ((h.offsetAt hp).2 offset hcell), Except.ok.injEq]
  rw [endAt] at hend
  by_cases hlast : p + 1 = index.objectCount
  · rw [if_pos hlast, Option.some.injEq] at hend
    rw [nextAbove_eq_none.mpr (hfollowed.last p hlast hcell), Option.getD_none, hend]
  · rw [if_neg hlast] at hend
    obtain ⟨hnext, habove⟩ := Option.filter_eq_some_iff.mp hend
    have hinside : p + 1 < index.objectCount := by omega
    have hstored := (h.offsetAt hinside).2 stop hnext
    have hless : offset < stop := of_decide_eq_true habove
    rw [nextAbove_eq_some.mpr ⟨hstored, hless, hfollowed.next p stop hinside hcell hnext hless⟩,
      Option.getD_some]

/-- **Where the cells are followed**, a query is answered as by the sorted offsets, whether the
table has degraded, degrades now, or does not. -/
theorem Followed.lazyAnswer_eq (hfollowed : Followed index rev offsets offset)
    (h : Pair index rev offsets) (state : TableState) :
    (lazyAnswer offsets trailerStart offset
        (lazyEnd (cellAt index rev) index.objectCount trailerStart offset) state).1 =
      successor offsets trailerStart offset := by
  unfold lazyAnswer
  cases state.fallback with
  | some kept => rfl
  | none =>
    cases hstop : lazyEnd (cellAt index rev) index.objectCount trailerStart offset with
    | none => rfl
    | some stop => exact hfollowed.lazyEnd_right h hstop

theorem lazyAnswers_eq (h : Pair index rev offsets) {queries : List ℕ}
    (hfollowed : ∀ query ∈ queries, Followed index rev offsets query) (state : TableState) :
    (lazyAnswers index rev offsets trailerStart state queries).1 =
      queries.map (successor offsets trailerStart) := by
  induction queries generalizing state with
  | nil => rfl
  | cons offset rest ih =>
    obtain ⟨hoffset, hrest⟩ := forall_mem_cons.mp hfollowed
    rw [lazyAnswers, map_cons, ← ih hrest, ← hoffset.lazyAnswer_eq h state]

theorem objectCount_le_of_loaded {idx read : Bytes} {size digestLength : ℕ}
    (hload : readBoundedIdx size idx = .ok read)
    (hparse : parsePackIndex idx digestLength = .ok index) : index.objectCount ≤ 2 ^ 31 := by
  have hfits := length_le_of_readBoundedIdx hload
  obtain ⟨hbytes, -, hin⟩ := Outcome.ok_iff.mp (hparse ▸ parsePackIndex_outcome idx digestLength)
  have hlength := hin.length_eq
  have hlarge := hin.large_eq
  have hinside := hin.large_le
  rw [hbytes] at hlength
  omega

end

/-- **The two tables answer alike** on every run of queries for offsets whose cells are followed:
the next stored offset, the start of the trailer for the last one, and a refusal for an offset that
is not stored. -/
theorem offsetTable_exact (index : PackIndex) (rev : PackRevIndex) (idx read revBytes : Bytes)
    (size digestLength trailerStart : ℕ) (offsets : List ℕ)
    (hload : readBoundedIdx size idx = .ok read)
    (hparse : parsePackIndex idx digestLength = .ok index)
    (hoffsets : entryOffsetsF64 index = .ok offsets) (hdistinct : offsets.Nodup)
    (hrev : parsePackRevIndex revBytes digestLength index.objectCount = .ok rev)
    (queries : List ℕ) (hfollowed : ∀ query ∈ queries, Followed index rev offsets query) :
    AnswersWell (.viaRev ⟨index, rev, index.objectCount, trailerStart⟩) offsets trailerStart
        queries ∧
      AnswersWell (.sorted ⟨offsets.insertionSort (· ≤ ·), trailerStart⟩) offsets trailerStart
        queries := by
  have hcount := objectCount_le_of_loaded hload hparse
  have hpair : Pair index rev offsets :=
    ⟨hoffsets, hdistinct, fun _ hp => parsePackRevIndex_cells hrev hp⟩
  have hlength : (offsets.insertionSort (· ≤ ·)).length = index.objectCount := by
    rw [length_insertionSort, hpair.length_eq]
  have hkept : KeptFrom offsets .fresh := fun _ hnone => by cases hnone
  constructor
  · refine ⟨index.objectCount + 1, fun fuel hfuel =>
      ⟨(lazyAnswers index rev offsets trailerStart .fresh queries).2, ?_⟩⟩
    rw [askAll_lazy hpair hcount hfuel trailerStart queries hkept,
      ← lazyAnswers_eq hpair hfollowed .fresh]
  · exact ⟨index.objectCount + 1, fun fuel hfuel => ⟨_, askAll_sorted hpair.sorted
      (hlength ▸ hcount) (hlength ▸ hfuel) trailerStart queries .fresh⟩⟩

/-! ### A neighbour that is not the successor -/

def threeEntries : PackIndexEntries where
  count := 3
  digestLength := 20
  oids := replicate 20 0x10 ++ (replicate 20 0x20 ++ replicate 20 0x30)
  crcValues := [1, 2, 3]
  offsets := [12, 20, 30]

/-- A reverse index in which the last two positions stand the wrong way round. -/
def swappedRev : Bytes :=
  [0x52, 0x49, 0x44, 0x58, 0, 0, 0, 1, 0, 0, 0, 1, 0, 0, 0, 0, 0, 0, 0, 2, 0, 0, 0, 1] ++
    replicate 40 0

def parsedSwappedRev : PackRevIndex := ⟨1, 20, 3, replicate 20 0, swappedRev⟩

set_option maxRecDepth 2000 in
theorem parsePackRevIndex_swapped : parsePackRevIndex swappedRev 20 3 = .ok parsedSwappedRev := rfl

theorem exists_threeEntries : ∃ idx index,
    serializePackIndex (sortPackIndexEntries threeEntries) (replicate 20 7) = .ok idx ∧
    parsePackIndex idx 20 = .ok index ∧ readBoundedIdx 1192 idx = .ok idx ∧
    index.objectCount = 3 ∧ entryOffsetsF64 index = .ok [12, 20, 30] ∧
    cellAt index parsedSwappedRev 0 = some 12 ∧ cellAt index parsedSwappedRev 1 = some 30 ∧
    cellAt index parsedSwappedRev 2 = some 20 := by
  have hvalid : threeEntries.Valid := ⟨.inl rfl, by decide, by decide, by decide, by decide⟩
  have hsorted := sortPackIndexEntries_sorted hvalid
  obtain ⟨idx, hidx, hlayout⟩ := @serializePackIndex_spec (sortPackIndexEntries threeEntries)
    (replicate 20 7) hvalid hsorted rfl
  have hlarge : LargeOffsetsFit (sortPackIndexEntries threeEntries).entries := by
    unfold LargeOffsetsFit
    decide
  have hread : ∀ p < 3, readOffset (parsed (sortPackIndexEntries threeEntries) idx) p =
      .ok (offsetAt (sortPackIndexEntries threeEntries) p) :=
    fun p hp => readOffset_of_fit hsorted hlayout hlarge (by decide) hp
  have hcell : ∀ p position, revIndexPositionAt parsedSwappedRev p = .ok position → position < 3 →
      cellAt (parsed (sortPackIndexEntries threeEntries) idx) parsedSwappedRev p =
        some (offsetAt (sortPackIndexEntries threeEntries) position) := by
    intro p position hposition hlt
    have hinside : ¬ position ≥ (parsed (sortPackIndexEntries threeEntries) idx).objectCount :=
      Nat.not_le.mpr hlt
    unfold cellAt
    rw [offsetAtPackPosition, ok_bind_eq hposition, if_neg hinside, ok_bind_eq (hread _ hlt)]
    rfl
  have hall : entryOffsetsF64 (parsed (sortPackIndexEntries threeEntries) idx) =
      .ok ((range 3).map (offsetAt (sortPackIndexEntries threeEntries))) :=
    mapM_eq_ok fun p hp => hread p (mem_range.mp hp)
  have hvalues : (range 3).map (offsetAt (sortPackIndexEntries threeEntries)) =
      [12, 20, 30] := by decide
  rw [hvalues] at hall
  have hsmall : (sortPackIndexEntries threeEntries).entries.count < 2 ^ 32 := by
    have hthree : (sortPackIndexEntries threeEntries).entries.count = 3 := rfl
    omega
  have hparse := @parsePackIndex_of_layout (sortPackIndexEntries threeEntries) idx hvalid hlayout
    hsmall
  have hload : readBoundedIdx 1192 idx = .ok idx := by
    have hlength := hlayout.length_eq
    rw [trailerOf, largeStartOf, offsetStartOf, crcStartOf] at hlength
    have htables : largeCount (sortPackIndexEntries threeEntries) 3 = 0 := by decide
    have hthree : (sortPackIndexEntries threeEntries).entries.count = 3 := rfl
    have hwidth : (sortPackIndexEntries threeEntries).entries.digestLength = 20 := rfl
    rw [hthree, hwidth, htables] at hlength
    unfold readBoundedIdx exceedsMaxPackIdxBytes maxPackIdxBytes
    rw [if_neg (by decide), if_neg (by simp; omega)]
  refine ⟨idx, _, hidx, hparse, hload, rfl, hall, ?_, ?_, ?_⟩
  · exact hcell 0 0 rfl (by decide)
  · exact hcell 1 2 rfl (by decide)
  · exact hcell 2 1 rfl (by decide)

theorem lazyEnd_swapped {index : PackIndex} (hcount : index.objectCount = 3)
    (h0 : cellAt index parsedSwappedRev 0 = some 12)
    (h1 : cellAt index parsedSwappedRev 1 = some 30) :
    lazyEnd (cellAt index parsedSwappedRev) index.objectCount 40 12 = some 30 := by
  have hlanding : landing (cellAt index parsedSwappedRev) 12 0 3 = some 0 := by
    rw [landing, dif_pos (by decide), h1]
    dsimp only
    rw [if_neg (by decide), landing, dif_pos (by decide), h0]
    dsimp only
    rw [if_neg (by decide), landing, dif_neg (by decide)]
  rw [hcount, lazyEnd, hlanding]
  dsimp only
  rw [if_pos ⟨by decide, h0⟩, endAt, if_neg (by decide), h1]
  rfl

/-- With the reverse index whose last two positions are exchanged the entry at 30 is told from the
trailer, and 13 is refused. -/
theorem offsetTable_exact_swapped : ∃ index, entryOffsetsF64 index = .ok [12, 20, 30] ∧
    AnswersWell (.viaRev ⟨index, parsedSwappedRev, index.objectCount, 40⟩) [12, 20, 30] 40
        [30, 13] ∧
      AnswersWell (.sorted ⟨[12, 20, 30].insertionSort (· ≤ ·), 40⟩) [12, 20, 30] 40
        [30, 13] := by
  obtain ⟨idx, index, -, hparse, hload, hcount, hoffsets, h0, h1, h2⟩ := exists_threeEntries
  have hrev : parsePackRevIndex swappedRev 20 index.objectCount = .ok parsedSwappedRev := by
    rw [hcount]
    exact parsePackRevIndex_swapped
  refine ⟨index, hoffsets, offsetTable_exact index parsedSwappedRev idx idx swappedRev 1192 20 40
    [12, 20, 30] hload hparse hoffsets (by decide) hrev [30, 13] fun query hquery => ?_⟩
  have hcells : ∀ p < 3, cellAt index parsedSwappedRev p =
      [some 12, some 30, some 20].getD p none := by
    intro p hp
    rcases (show p = 0 ∨ p = 1 ∨ p = 2 by omega) with rfl | rfl | rfl
    · exact h0
    · exact h1
    · exact h2
  constructor
  · intro p next hp hcell hnext hless stored hstored
    rw [hcells p (by omega)] at hcell
    rw [hcells (p + 1) (by omega)] at hnext
    rcases (show p = 0 ∨ p = 1 by omega) with rfl | rfl
    · cases hcell
      simp at hquery
    · cases hcell
      cases hnext
      omega
  · intro p hp hcell
    rw [hcells p (by omega)] at hcell
    obtain rfl : p = 2 := by omega
    cases hcell
    simp at hquery

/-- **A neighbour that is not the successor**: both files are accepted, the entry at offset 12
ends at 20, and the table with the reverse index lets it end at 30. -/
theorem offsetTable_misleads : ∃ idx index,
    serializePackIndex (sortPackIndexEntries threeEntries) (replicate 20 7) = .ok idx ∧
    parsePackIndex idx 20 = .ok index ∧ entryOffsetsF64 index = .ok [12, 20, 30] ∧
    parsePackRevIndex swappedRev 20 index.objectCount = .ok parsedSwappedRev ∧
    (∀ fuel, 4 ≤ fuel → askAll fuel (.viaRev ⟨index, parsedSwappedRev, index.objectCount, 40⟩)
      .fresh [12] = some ([.ok 30], .fresh)) ∧
    ∀ fuel, 4 ≤ fuel → askAll fuel (.sorted ⟨[12, 20, 30], 40⟩) .fresh [12] =
      some ([.ok 20], .fresh) := by
  obtain ⟨idx, index, hidx, hparse, -, hcount, hoffsets, h0, h1, -⟩ := exists_threeEntries
  have hrev : parsePackRevIndex swappedRev 20 index.objectCount = .ok parsedSwappedRev := by
    rw [hcount]
    exact parsePackRevIndex_swapped
  refine ⟨idx, index, hidx, hparse, hoffsets, hrev, fun fuel hfuel => ?_, fun fuel hfuel => ?_⟩
  · have hpair : Pair index parsedSwappedRev [12, 20, 30] :=
      ⟨hoffsets, by decide, fun _ hp => parsePackRevIndex_cells hrev hp⟩
    have hstop := lazyEnd_swapped hcount h0 h1
    have hrun := @askAll_lazy index parsedSwappedRev [12, 20, 30] hpair (by omega) fuel
      (by omega) 40 [12] .fresh fun _ hnone => by cases hnone
    rw [hrun, lazyAnswers, hstop]
    rfl
  · have hsorted : SortedOf [12, 20, 30] [12, 20, 30] := ⟨List.Perm.refl _, by decide⟩
    exact askAll_sorted hsorted (by decide) hfuel 40 [12] .fresh

end Tsgit.Idx
