import Tsgit.Midx

/-!
# Multi-Pack Indexes Stay in Bounds

What the parser of a multi-pack index checks, chunk by chunk, and why no read of an index that
it accepts leaves the file.
-/

namespace Tsgit.Midx

open List OidTable Run

def Refuses (thrown : Thrown) : Prop :=
  ∃ check reason, thrown = .refusal (.invalidMultiPackIndex check reason)

theorem refuses {α : Type} {post : α → Prop} (check : MidxCheck) (reason : String) :
    Outcome Refuses post (invalidMultiPackIndex check reason) :=
  Outcome.error ⟨check, reason, rfl⟩

/-! ### The chunk table -/

/-- The rows read so far move forward, up to the last offset and not behind the trailer. -/
structure TableState.Forward (trailerStart : ℕ) (state : TableState) : Prop where
  ascending : state.rows.Pairwise fun a b => a.offset ≤ b.offset
  le_previous : ∀ row ∈ state.rows, row.offset ≤ state.previousOffset
  previous_le : state.previousOffset ≤ trailerStart

theorem readChunkTableRow_outcome {bytes : Bytes} {rowCount trailerStart i : ℕ} {state : TableState}
    (hroom : midxHeaderSize + i * midxChunkTableRowSize + 12 ≤ bytes.length)
    (h : state.Forward trailerStart) :
    Outcome Refuses (TableState.Forward trailerStart)
      (readChunkTableRow bytes rowCount trailerStart i state) := by
  unfold readChunkTableRow
  refine (getUint32_outcome (by omega)).bind fun idWord _ => ?_
  refine (getUint32_outcome (by omega)).bind fun high _ => ?_
  refine (getUint32_outcome (by omega)).bind fun low _ => ?_
  refine .ite (fun _ => refuses _ _) fun _ => ?_
  refine .ite (fun _ => refuses _ _) fun _ => ?_
  refine .ite (fun _ => refuses _ _) fun _ => ?_
  refine .ite (fun _ => refuses _ _) fun hforward => ?_
  refine .ite (fun _ => refuses _ _) fun hinside => ?_
  have hle := Nat.not_lt.mp hforward
  refine .pure ⟨pairwise_append.mpr ⟨h.ascending, pairwise_singleton _ _, ?_⟩, ?_,
    Nat.not_lt.mp hinside⟩
  · intro row hrow last hlast
    rw [mem_singleton.mp hlast]
    exact (h.le_previous row hrow).trans hle
  · intro row hrow
    rcases mem_append.mp hrow with hbefore | hlast
    · exact (h.le_previous row hbefore).trans hle
    · rw [mem_singleton.mp hlast]

/-- The rows of a table move forward and stay inside the file. -/
structure RowsWithin (length : ℕ) (rows : List ChunkTableRow) : Prop where
  ascending : rows.Pairwise fun a b => a.offset ≤ b.offset
  le_length : ∀ row ∈ rows, row.offset ≤ length

theorem readChunkTableRows_outcome (bytes : Bytes) (numChunks digestLength : ℕ) :
    Outcome Refuses (RowsWithin bytes.length)
      (readChunkTableRows bytes numChunks digestLength) := by
  unfold readChunkTableRows
  refine .ite (fun _ => refuses _ _) fun hroom => ?_
  rw [midxHeaderSize, midxChunkTableRowSize] at hroom
  have hstart : TableState.Forward (bytes.length - digestLength)
      ⟨[], [], midxHeaderSize + (numChunks + 1) * midxChunkTableRowSize⟩ := by
    refine ⟨List.Pairwise.nil, fun row hrow => absurd hrow not_mem_nil, ?_⟩
    exact Nat.not_lt.mp hroom
  refine (forRange_outcome (fun _ => TableState.Forward (bytes.length - digestLength)) hstart
    fun i hi state hstate => ?_).bind fun state hstate => ?_
  · refine readChunkTableRow_outcome ?_ hstate
    rw [midxHeaderSize, midxChunkTableRowSize]
    omega
  · refine .ite (fun _ => refuses _ _) fun _ => .pure ⟨hstate.ascending, fun row hrow => ?_⟩
    exact (hstate.le_previous row hrow).trans (hstate.previous_le.trans (Nat.sub_le _ _))

/-- Every chunk lies inside the file. -/
def RangesWithin (length : ℕ) (ranges : Dict Text ChunkRange) : Prop :=
  ∀ id range, ranges.get id = some range → range.start ≤ range.stop ∧ range.stop ≤ length

variable {ranges : Dict Text ChunkRange}

variable {length : ℕ}

theorem chunkRangesFrom_within {rows : List ChunkTableRow}
    (hrows : RowsWithin length rows) (hranges : RangesWithin length ranges) :
    RangesWithin length (chunkRangesFrom ranges rows) := by
  induction ranges, rows using chunkRangesFrom.induct with
  | case1 ranges row next rest ih =>
    obtain ⟨hrow, hrest⟩ := pairwise_cons.mp hrows.ascending
    rw [chunkRangesFrom]
    refine ih ⟨hrest, fun r hr => hrows.le_length r (mem_cons_of_mem _ hr)⟩ ?_
    intro id range hget
    by_cases hid : id = row.name
    · rw [hid, Dict.get_insert_self] at hget
      obtain rfl := Option.some.inj hget
      exact ⟨hrow next mem_cons_self, hrows.le_length next (mem_cons_of_mem _ mem_cons_self)⟩
    · rw [Dict.get_insert_of_ne _ _ hid] at hget
      exact hranges id range hget
  | case2 ranges rows hshort =>
    rw [chunkRangesFrom]
    · exact hranges
    · exact hshort

theorem chunkRangesOf_within {rows : List ChunkTableRow}
    (hrows : RowsWithin length rows) : RangesWithin length (chunkRangesOf rows) := by
  refine chunkRangesFrom_within hrows fun id range hget => ?_
  rw [Dict.get_empty] at hget
  cases hget

theorem requireChunk_outcome (h : RangesWithin length ranges) (id : Text) :
    Outcome Refuses (fun range => range.start ≤ range.stop ∧ range.stop ≤ length)
      (requireChunk ranges id) := by
  unfold requireChunk
  cases hget : ranges.get id with
  | none => exact refuses _ _
  | some range => exact Outcome.ok (h id range hget)

theorem requireChunkSize_outcome (range : ChunkRange) (expectedSize : ℕ) (id : Text) :
    Outcome Refuses (fun _ => range.stop - range.start = expectedSize)
      (requireChunkSize range expectedSize id) := by
  unfold requireChunkSize
  exact .ite (fun _ => refuses _ _) fun hsize => Outcome.ok (not_not.mp hsize)

/-! ### The chunks -/

/-- The fan-out that starts here ends with `count`, and no entry is above it. -/
structure FanoutUpTo (bytes : Bytes) (fanoutStart last count : ℕ) : Prop where
  last_eq : getUint32 bytes (fanoutStart + last * 4) = .ok count
  below : ∀ byte ≤ last, ∃ entry ≤ count, getUint32 bytes (fanoutStart + byte * 4) = .ok entry

theorem validateFanoutMonotonicity_outcome {bytes : Bytes} {fanoutStart : ℕ}
    (hroom : fanoutStart + midxFanoutSize ≤ bytes.length) :
    Outcome Refuses (FanoutUpTo bytes fanoutStart 255)
      (validateFanoutMonotonicity bytes fanoutStart) := by
  rw [midxFanoutSize, midxFanoutEntries] at hroom
  unfold validateFanoutMonotonicity
  obtain ⟨first, -, hfirst⟩ := @getUint32_eq_ok bytes fanoutStart (by omega)
  have hloop : ∀ n ≤ 255, Outcome Refuses (FanoutUpTo bytes fanoutStart n)
      (forRange n (checkFanoutEntry bytes fanoutStart) first) := by
    intro n hn
    refine forRange_outcome (FanoutUpTo bytes fanoutStart) ⟨hfirst, fun byte hbyte => ?_⟩ ?_
    · obtain rfl := Nat.le_zero.mp hbyte
      exact ⟨first, le_rfl, hfirst⟩
    · intro i hi prev hprev
      obtain ⟨current, -, hcurrent⟩ :=
        @getUint32_eq_ok bytes (fanoutStart + (i + 1) * 4) (by omega)
      unfold checkFanoutEntry
      rw [hcurrent]
      refine .ite (fun _ => refuses _ _) fun hmono => .pure ⟨hcurrent, fun byte hbyte => ?_⟩
      rcases Nat.le_succ_iff.mp hbyte with hle | rfl
      · obtain ⟨entry, hentry, hget⟩ := hprev.below byte hle
        exact ⟨entry, hentry.trans (Nat.not_lt.mp hmono), hget⟩
      · exact ⟨current, le_rfl, hcurrent⟩
  obtain ⟨last, hlast⟩ : ∃ last, last = midxFanoutEntries - 1 := ⟨_, rfl⟩
  have hlast' : last = 255 := hlast
  rw [hfirst, ← hlast, ← hlast']
  exact hloop last (by omega)

theorem requireLoffSize_outcome (range : ChunkRange) :
    Outcome Refuses (fun count => count * 8 = range.stop - range.start)
      (requireLoffSize range) := by
  unfold requireLoffSize
  refine .ite (fun _ => refuses _ _) fun hsize => Outcome.ok ?_
  exact Nat.div_mul_cancel (Nat.dvd_of_mod_eq_zero (not_not.mp hsize))

theorem parsePackNames_outcome (bytes : Bytes) (range : ChunkRange) (numPacks version : ℕ) :
    Outcome Refuses (fun _ => True) (parsePackNames bytes range numPacks version) := by
  unfold parsePackNames
  refine (forRange_outcome (fun _ _ => True) trivial fun i _ state _ => ?_).bind fun state _ => ?_
  · unfold parsePackName
    exact .ite (fun _ => refuses _ _) fun _ => .ite (fun _ => refuses _ _) fun _ =>
      Outcome.ok trivial
  · refine .ite (fun _ => ?_) fun _ => .pure trivial
    refine (forRange_outcome (fun _ _ => True) trivial fun i _ _ _ => ?_).bind fun _ _ =>
      .pure trivial
    exact .ite (fun _ => refuses _ _) fun _ => Outcome.ok trivial

theorem parseLargeOffsetCount_outcome (h : RangesWithin length ranges) (id : Text) :
    Outcome Refuses (fun count => ∀ start, (ranges.get id).map (·.start) = some start →
        start + count * 8 ≤ length) (parseLargeOffsetCount (ranges.get id)) := by
  unfold parseLargeOffsetCount
  cases hget : ranges.get id with
  | none => exact Outcome.ok fun start hstart => by cases hstart
  | some range =>
    refine (requireLoffSize_outcome range).mono fun count hcount start hstart => ?_
    have hstart' : range.start = start := Option.some.inj hstart
    obtain ⟨hle, hend⟩ := h _ _ hget
    omega

theorem checkReverseIndex_outcome
    (h : RangesWithin length ranges) (id : Text) (objectCount : ℕ) :
    Outcome Refuses (fun _ => ∀ start, (ranges.get id).map (·.start) = some start →
        start + objectCount * 4 ≤ length) (checkReverseIndex (ranges.get id) objectCount) := by
  unfold checkReverseIndex
  cases hget : ranges.get id with
  | none => exact Outcome.ok fun start hstart => by cases hstart
  | some range =>
    refine (requireChunkSize_outcome range _ _).mono fun _ hsize start hstart => ?_
    have hstart' : range.start = start := Option.some.inj hstart
    obtain ⟨hle, hend⟩ := h _ _ hget
    omega

/-! ### The index -/

/-- An index whose chunks lie inside its file. -/
structure InBounds (midx : MultiPackIndex) : Prop where
  width : midx.digestLength = 20 ∨ midx.digestLength = 32
  count_lt : midx.objectCount < 2 ^ 32
  fanout : ∀ byte < 256, ∃ count ≤ midx.objectCount, readMidxFanout midx byte = .ok count
  oids : midx.oidLookupOffset + midx.objectCount * midx.digestLength ≤ midx.bytes.length
  offsets : midx.objectOffsetsOffset + midx.objectCount * 8 ≤ midx.bytes.length
  large : ∀ start, midx.largeOffsetsOffset = some start →
    start + midx.largeOffsetCount * 8 ≤ midx.bytes.length
  reverse : ∀ start, midx.reverseIndexOffset = some start →
    start + midx.objectCount * 4 ≤ midx.bytes.length

/-- What the parser accepts. -/
structure Accepted (bytes : Bytes) (digestLength : ℕ) (midx : MultiPackIndex) : Prop where
  bytes_eq : midx.bytes = bytes
  digestLength_eq : midx.digestLength = digestLength
  inBounds : InBounds midx

theorem parseChunks_outcome {bytes : Bytes} {digestLength : ℕ}
    (hwidth : digestLength = 20 ∨ digestLength = 32)
    (version hashVersion numChunks numBaseFiles numPacks : ℕ) :
    Outcome Refuses (Accepted bytes digestLength) (parseChunks bytes digestLength version
      hashVersion numChunks numBaseFiles numPacks) := by
  unfold parseChunks
  refine (readChunkTableRows_outcome bytes numChunks digestLength).bind fun rows hrows => ?_
  have hranges := chunkRangesOf_within hrows
  refine (requireChunk_outcome hranges _).bind fun pnam _ => ?_
  refine (requireChunk_outcome hranges _).bind fun oidf hoidf => ?_
  refine (requireChunk_outcome hranges _).bind fun oidl hoidl => ?_
  refine (requireChunk_outcome hranges _).bind fun ooff hooff => ?_
  refine (requireChunkSize_outcome oidf _ _).bind fun _ hoidfSize => ?_
  refine (validateFanoutMonotonicity_outcome (by omega)).bind fun objectCount hfanout => ?_
  refine (requireChunkSize_outcome oidl _ _).bind fun _ hoidlSize => ?_
  refine (requireChunkSize_outcome ooff _ _).bind fun _ hooffSize => ?_
  refine (parsePackNames_outcome bytes pnam _ _).bind fun packNames _ => ?_
  refine (parseLargeOffsetCount_outcome hranges _).bind fun largeOffsetCount hlarge => ?_
  refine (checkReverseIndex_outcome hranges _ objectCount).bind fun _ hreverse => ?_
  exact .pure
    { bytes_eq := rfl
      digestLength_eq := rfl
      inBounds :=
        { width := hwidth
          count_lt := getUint32_lt hfanout.last_eq
          fanout := fun byte hbyte => hfanout.below byte (Nat.le_of_lt_succ hbyte)
          oids := by dsimp only; omega
          offsets := by dsimp only; omega
          large := hlarge
          reverse := hreverse } }

/-- **The parser** refuses with its typed error, or accepts an index that is in bounds. -/
theorem parseMultiPackIndex_outcome (bytes : Bytes) (digestLength : ℕ) :
    Outcome Refuses (Accepted bytes digestLength) (parseMultiPackIndex bytes digestLength) := by
  unfold parseMultiPackIndex
  refine .ite (fun _ => refuses _ _) fun hsize => ?_
  rw [midxHeaderSize] at hsize
  refine (getUint32_outcome (by omega)).bind fun signature _ => ?_
  refine .ite (fun _ => refuses _ _) fun _ => ?_
  refine (getUint8_outcome (by omega)).bind fun version _ => ?_
  refine .ite (fun _ => refuses _ _) fun _ => ?_
  refine (getUint8_outcome (by omega)).bind fun hashVersion _ => ?_
  refine .ite (fun _ => refuses _ _) fun _ => ?_
  refine .ite (fun _ => refuses _ _) fun hexpected => ?_
  refine (getUint8_outcome (by omega)).bind fun numChunks _ => ?_
  refine (getUint8_outcome (by omega)).bind fun numBaseFiles _ => ?_
  refine (getUint32_outcome (by omega)).bind fun numPacks _ => ?_
  have hwidth : digestLength = 20 ∨ digestLength = 32 := by
    rw [← not_not.mp hexpected]
    unfold hashVersionWidth
    split
    · exact .inl rfl
    · exact .inr rfl
  exact parseChunks_outcome hwidth _ _ _ _ _

/-! ### Reads -/

section

variable {midx : MultiPackIndex}

theorem readMidxOffset_outcome (h : InBounds midx) {index : ℕ} (hindex : index < midx.objectCount) :
    Outcome Refuses (fun _ => True) (readMidxOffset midx index) := by
  have hoffsets := h.offsets
  unfold readMidxOffset
  refine (getUint32_outcome (by omega)).bind fun raw _ => ?_
  cases hlarge : midx.largeOffsetsOffset with
  | none => exact .pure trivial
  | some start =>
    have hend := h.large start hlarge
    refine .ite (fun _ => .pure trivial) fun _ => .ite (fun _ => refuses _ _) fun hrow => ?_
    have hrow' := Nat.not_le.mp hrow
    refine (getUint32_outcome (by omega)).bind fun high _ => ?_
    refine .ite (fun _ => refuses _ _) fun _ => ?_
    exact (getUint32_outcome (by omega)).bind fun low _ => .pure trivial

theorem midxEntryAt_outcome (h : InBounds midx) {index : ℕ} (hindex : index < midx.objectCount) :
    Outcome Refuses (fun entry => entry.packIndex < midx.packNames.length)
      (midxEntryAt midx index) := by
  have hoffsets := h.offsets
  unfold midxEntryAt readMidxEntry
  refine (getUint32_outcome (by omega)).bind fun packIndex _ => ?_
  refine .ite (fun _ => refuses _ _) fun hpack => ?_
  exact (readMidxOffset_outcome h hindex).bind fun offset _ => .pure (Nat.not_le.mp hpack)

theorem midxReverseIndexAt_outcome (h : InBounds midx) (position : ℕ) :
    Outcome Refuses (fun _ => True) (midxReverseIndexAt midx position) := by
  unfold midxReverseIndexAt
  cases hreverse : midx.reverseIndexOffset with
  | none => exact refuses _ _
  | some start =>
    have hend := h.reverse start hreverse
    refine .ite (fun _ => refuses _ _) fun hposition => ?_
    have hposition' := Nat.not_le.mp hposition
    exact (getUint32_outcome (by omega)).mono fun _ _ => trivial

theorem midxReverseIndexPositions_spec (h : InBounds midx) :
    ∃ read, midxReverseIndexPositions midx = .ok read ∧
      ∀ positions, read = some positions → ∀ p ∈ positions, p < midx.objectCount := by
  unfold midxReverseIndexPositions
  cases hreverse : midx.reverseIndexOffset with
  | none => exact ⟨none, rfl, fun positions hread => by cases hread⟩
  | some start =>
    have hend := h.reverse start hreverse
    refine forRange_spec (fun _ (read : Option (List ℕ)) => ∀ positions, read = some positions →
      ∀ p ∈ positions, p < midx.objectCount) ?_ ?_
    · intro positions hread p hp
      obtain rfl := Option.some.inj hread
      cases hp
    · intro i hi read hread
      cases read with
      | none => exact ⟨none, rfl, hread⟩
      | some positions =>
        obtain ⟨stored, -, hstored⟩ := @getUint32_eq_ok midx.bytes (start + i * 4) (by omega)
        unfold readReversePosition
        rw [hstored]
        by_cases hout : stored ≥ midx.objectCount
        · exact ⟨none, if_pos hout, fun positions hread => by cases hread⟩
        refine ⟨some (positions ++ [stored]), if_neg hout, fun positions' hread' p hp => ?_⟩
        obtain rfl := Option.some.inj hread'
        rcases mem_append.mp hp with hbefore | hlast
        · exact hread positions rfl p hbefore
        · rw [mem_singleton.mp hlast]
          exact Nat.not_le.mp hout

end

end Tsgit.Midx
