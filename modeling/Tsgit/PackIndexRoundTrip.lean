import Mathlib.Data.Nat.Bitwise
import Tsgit.PackIndexWrite

/-!
# Pack Indexes, Written and Read

What is read of a serialized pack index. The sums that the binary
searches halve go through a 32-bit shift.
-/

namespace Tsgit.Idx

open List OidTable Run

section

variable {sorted : SortedPackIndex} {bytes : Bytes}

def parsed (sorted : SortedPackIndex) (bytes : Bytes) : PackIndex :=
  ⟨sorted.entries.count, sorted.entries.digestLength, crcStartOf sorted, offsetStartOf sorted,
    largeStartOf sorted, trailerOf sorted, bytes⟩

/-- The fan-out at a byte. -/
def fanoutOf (sorted : SortedPackIndex) (byte : ℕ) : ℕ :=
  (idsOf sorted).countP fun id => byteAt id 0 ≤ byte

theorem fanoutOf_le (sorted : SortedPackIndex) (byte : ℕ) :
    fanoutOf sorted byte ≤ sorted.entries.count :=
  countP_le_length.trans_eq (length_idsOf sorted)

theorem fanoutOf_mono (sorted : SortedPackIndex) {a b : ℕ} (h : a ≤ b) :
    fanoutOf sorted a ≤ fanoutOf sorted b := by
  refine countP_mono_left fun id _ hid => ?_
  exact decide_eq_true ((of_decide_eq_true hid).trans h)

theorem fanoutOf_last (sorted : SortedPackIndex) :
    fanoutOf sorted 255 = sorted.entries.count := by
  rw [← length_idsOf sorted]
  exact countP_eq_length.mpr fun id _ =>
    decide_eq_true (Nat.le_of_lt_succ (byteAt_lt id 0))

theorem PackIndexEntries.Valid.digestLength_pos {entries : PackIndexEntries}
    (h : entries.Valid) : 0 < entries.digestLength := by
  have := h.width
  omega

theorem getUint32_fanout (hvalid : sorted.entries.Valid) (hlayout : Layout sorted bytes)
    (hcount : sorted.entries.count < 2 ^ 32) {byte : ℕ} (hbyte : byte < 256) :
    getUint32 bytes (idxHeaderSize + byte * 4) = .ok (fanoutOf sorted byte) := by
  have hholds := hlayout.fanout byte hbyte
  rw [fanout_getElem sorted hvalid.digestLength_pos hcount hbyte] at hholds
  exact hholds.getUint32 ((fanoutOf_le sorted byte).trans_lt hcount)

theorem validateFanoutMonotonicity_eq_ok (hvalid : sorted.entries.Valid)
    (hlayout : Layout sorted bytes) (hcount : sorted.entries.count < 2 ^ 32) :
    validateFanoutMonotonicity bytes = .ok () := by
  let inv (i prev : ℕ) : Prop := ∀ b, i ≤ b → prev ≤ fanoutOf sorted b
  have hstep : ∀ i < 256, ∀ prev, inv i prev → ∃ next, (do
        let current ← getUint32 bytes (idxHeaderSize + i * 4)
        if current < prev then
          .error (invalidPackIndex s!"non-monotonic fanout at index {i}: {prev} > {current}")
        else pure current) = Except.ok next ∧ inv (i + 1) next := by
    intro i hi prev hinv
    refine ⟨fanoutOf sorted i, ?_, fun b hb => fanoutOf_mono sorted (by omega)⟩
    rw [getUint32_fanout hvalid hlayout hcount hi]
    exact if_neg (Nat.not_lt.mpr (hinv i le_rfl))
  obtain ⟨last, hrun, -⟩ := forRange_spec inv (fun b _ => Nat.zero_le _) hstep
  rw [validateFanoutMonotonicity, hrun]
  rfl

/-- **A serialized index parses.** -/
theorem parsePackIndex_of_layout (hvalid : sorted.entries.Valid) (hlayout : Layout sorted bytes)
    (hcount : sorted.entries.count < 2 ^ 32) :
    parsePackIndex bytes sorted.entries.digestLength = .ok (parsed sorted bytes) := by
  have hlength := hlayout.length_eq
  have htrailer : trailerOf sorted = 1032 + sorted.entries.count * sorted.entries.digestLength +
      sorted.entries.count * 4 + sorted.entries.count * 4 +
      largeCount sorted sorted.entries.count * 8 := rfl
  have hmagic : getUint32 bytes 0 = .ok 0xff744f63 := hlayout.magic.getUint32 (by decide)
  have hversion : getUint32 bytes 4 = .ok 2 := hlayout.version.getUint32 (by decide)
  have hobjects := @getUint32_fanout _ _ hvalid hlayout hcount 255 (by decide)
  rw [fanoutOf_last] at hobjects
  have hmin : ¬ bytes.length < idxHeaderSize + idxFanoutSize := by
    rw [hlength, htrailer, idxHeaderSize, idxFanoutSize]
    omega
  have hsize : ¬ bytes.length < shaSlotOffset sorted.entries.count sorted.entries.digestLength +
      sorted.entries.count * 4 + sorted.entries.count * 4 +
        idxTrailerSize sorted.entries.digestLength := by
    rw [hlength, htrailer, shaSlotOffset, idxShaTableOffset, idxTrailerSize]
    omega
  have hend : bytes.length - idxTrailerSize sorted.entries.digestLength = trailerOf sorted := by
    rw [hlength, idxTrailerSize, Nat.add_sub_cancel]
  unfold parsePackIndex
  dsimp only
  rw [if_neg hmin, hmagic]
  dsimp only [bind, Except.bind]
  rw [if_neg (fun h => h rfl), hversion]
  dsimp only
  rw [if_neg (fun h => h rfl), validateFanoutMonotonicity_eq_ok hvalid hlayout hcount]
  dsimp only
  rw [hobjects]
  dsimp only
  rw [if_neg hsize, hend]
  rfl

/-- **A serialized index is a sorted table** that is consistent with its fan-out. -/
theorem table_of_layout (hvalid : sorted.entries.Valid) (hsorted : Sorted sorted)
    (hlayout : Layout sorted bytes) (hcount : sorted.entries.count ≤ 2 ^ 31) :
    Table (readFanout (parsed sorted bytes)) (compareShaAtIndex (parsed sorted bytes))
      sorted.entries.digestLength (idsOf sorted) where
  sorted := hsorted.idsOf_ascending
  fanout byte hbyte := getUint32_fanout hvalid hlayout (by omega) hbyte
  compare := by
    intro i id target hid htarget
    have hi : i < sorted.entries.count := by
      rw [← length_idsOf sorted]
      exact (List.getElem?_eq_some_iff.mp hid).1
    obtain rfl := Option.some.inj ((idsOf_getElem? hi).symm.trans hid)
    exact compareWindows_eq (hlayout.ids i hi) (holds_self target)
      (hvalid.length_oid (hsorted.entryAt_lt hi)) htarget
  length_le := (length_idsOf sorted).trans_le hcount

theorem length_of_mem_idsOf (hvalid : sorted.entries.Valid) (hsorted : Sorted sorted) :
    ∀ id ∈ idsOf sorted, id.length = sorted.entries.digestLength := by
  intro id hid
  obtain ⟨p, hp, rfl⟩ := mem_map.mp hid
  exact hvalid.length_oid (hsorted.entryAt_lt (mem_range.mp hp))

theorem largeWord_bits {largeIdx : ℕ} (h : largeIdx < 2 ^ 31) :
    0x80000000 ||| largeIdx < 2 ^ 32 ∧ (0x80000000 ||| largeIdx) &&& 0x80000000 ≠ 0 ∧
      (0x80000000 ||| largeIdx) &&& 0x7fffffff = largeIdx := by
  have hadd : 0x80000000 ||| largeIdx = 2 ^ 31 + largeIdx :=
    (Nat.two_pow_add_eq_or_of_lt h 1).symm
  have hlow : (2 ^ 31 + largeIdx) &&& 0x7fffffff = (2 ^ 31 + largeIdx) % 2 ^ 31 :=
    Nat.and_two_pow_sub_one_eq_mod _ 31
  rw [hadd]
  refine ⟨by omega, ?_, by rw [hlow]; omega⟩
  have hbit : ((2 ^ 31 + largeIdx) &&& 2 ^ 31).testBit 31 = true := by
    rw [Nat.testBit_and, Nat.testBit_two_pow_add_eq, Nat.testBit_lt_two_pow h,
      Nat.testBit_two_pow_self]
    rfl
  intro hzero
  have hzero' : (2 ^ 31 + largeIdx) &&& 2 ^ 31 = 0 := hzero
  rw [hzero', Nat.zero_testBit] at hbit
  cases hbit

theorem readOffset_largeWord (hlayout : Layout sorted bytes) {p q raw : ℕ}
    (hraw : getUint32 bytes (offsetStartOf sorted + p * 4) = .ok raw)
    (hbit : raw &&& 0x80000000 ≠ 0) (hlow : raw &&& 0x7fffffff = largeCount sorted q)
    (hq : q < sorted.entries.count) (hlarge : isLarge (offsetAt sorted q) = true)
    (hoffset : offsetAt sorted q < 2 ^ 53) :
    readOffset (parsed sorted bytes) p = .ok (offsetAt sorted q) := by
  have hholds := hlayout.offsets.larges q hq hlarge
  have hhighLt : offsetAt sorted q / 0x100000000 < 2 ^ 21 := by omega
  have hhigh : getUint32 (parsed sorted bytes).bytes
      ((parsed sorted bytes).largeOffsetsTableOffset + largeCount sorted q * 8) =
        .ok (offsetAt sorted q / 0x100000000) := hholds.left.getUint32 (by omega)
  have hlowWord : getUint32 (parsed sorted bytes).bytes
      ((parsed sorted bytes).largeOffsetsTableOffset + largeCount sorted q * 8 + 4) =
        .ok (offsetAt sorted q % 2 ^ 32) :=
    hholds.right.getUint32 (Nat.mod_lt _ (by decide))
  have hrange : ¬ (parsed sorted bytes).largeOffsetsTableOffset + largeCount sorted q * 8 + 8 >
      (parsed sorted bytes).trailerOffset := Nat.not_lt.mpr (largeEnd_le hq hlarge)
  have hraw' : getUint32 (parsed sorted bytes).bytes
      ((parsed sorted bytes).smallOffsetsTableOffset + p * 4) = .ok raw := hraw
  rw [readOffset, hraw']
  dsimp only [bind, Except.bind]
  rw [if_pos hbit, hlow, if_neg hrange, hhigh]
  dsimp only
  rw [hlowWord]
  dsimp only
  rw [if_neg (by omega)]
  exact congrArg Except.ok (Nat.div_add_mod' _ _)

/-- **Every offset below `2 ^ 53` is read back.** -/
theorem readOffset_of_layout (hlayout : Layout sorted bytes) {p : ℕ}
    (hplace : isLarge (offsetAt sorted p) = true → largeCount sorted p < 2 ^ 31)
    (hp : p < sorted.entries.count) (hoffset : offsetAt sorted p < 2 ^ 53) :
    readOffset (parsed sorted bytes) p = .ok (offsetAt sorted p) := by
  have hword := hlayout.offsets.words p hp
  by_cases hlarge : isLarge (offsetAt sorted p) = true
  · obtain ⟨hlt, hbit, hlow⟩ := largeWord_bits (hplace hlarge)
    rw [offsetWord, if_pos hlarge] at hword
    exact readOffset_largeWord hlayout (hword.getUint32 hlt) hbit hlow hp hlarge hoffset
  have hsmall : offsetAt sorted p < 2 ^ 31 := by
    have := of_decide_eq_false (Bool.eq_false_iff.mpr hlarge)
    omega
  rw [offsetWord, if_neg hlarge] at hword
  have hraw : getUint32 (parsed sorted bytes).bytes
      ((parsed sorted bytes).smallOffsetsTableOffset + p * 4) = .ok (offsetAt sorted p) :=
    hword.getUint32 (by omega)
  have hbit : offsetAt sorted p &&& 2 ^ 31 = 0 := by
    rw [Nat.and_two_pow, Nat.testBit_lt_two_pow hsmall]
    rfl
  rw [readOffset, hraw]
  dsimp only [bind, Except.bind]
  rw [if_neg (fun h => h hbit)]
  rfl

end

/-! ### Lookups -/

def PackIndexEntries.idOf (entries : PackIndexEntries) (k : ℕ) : Text :=
  bytesToHex (entries.oid k)

def PackIndexEntries.offsetOf (entries : PackIndexEntries) (k : ℕ) : ℕ := entries.offsets.getD k 0

/-- The index serves the entries: every id has its offset, every other id has none, and every
prefix has the ids that begin with it, in ascending order. -/
structure Serves (entries : PackIndexEntries) (index : PackIndex) : Prop where
  present : ∀ k < entries.count,
    Yields (lookupPackIndex · index (entries.idOf k)) (some (entries.offsetOf k))
  absent : ∀ id, IsObjectId id → (∀ k < entries.count, entries.idOf k ≠ id) →
    Yields (lookupPackIndex · index id) none
  byPrefix : ∀ hexPrefix : Text, 4 ≤ hexPrefix.length →
    hexPrefix.length ≤ hexCharsFor entries.digestLength → (∀ c ∈ hexPrefix, isHexDigit c = true) →
      ∃ ids, Yields (findByPrefix · index hexPrefix) ids ∧ ids.Pairwise (· < ·) ∧
        ∀ id, id ∈ ids ↔ hexPrefix <+: id ∧ ∃ k < entries.count, entries.idOf k = id

section

variable {sorted : SortedPackIndex} {bytes : Bytes}

theorem Sorted.entryAt_eq_of_oid (hvalid : sorted.entries.Valid) (hsorted : Sorted sorted)
    {p k : ℕ} (hp : p < sorted.entries.count) (hk : k < sorted.entries.count)
    (h : oidAt sorted p = sorted.entries.oid k) : entryAt sorted p = k :=
  hvalid.distinct _ (hsorted.entryAt_lt hp) _ hk h

/-- The search of a serialized index. -/
theorem searchIndexPosition_of_layout (hvalid : sorted.entries.Valid) (hsorted : Sorted sorted)
    (hlayout : Layout sorted bytes) (hcount : sorted.entries.count ≤ 2 ^ 31) {fuel : ℕ}
    (hfuel : sorted.entries.count < fuel) (target : Bytes) :
    ∃ found, searchIndexPosition fuel (parsed sorted bytes) target = pure found ∧
      Finds (idsOf sorted) target found :=
  searchPosition_spec (table_of_layout hvalid hsorted hlayout hcount)
    (length_of_mem_idsOf hvalid hsorted) (by rwa [length_idsOf])

theorem lookupPackIndex_of_none {fuel : ℕ} {index : PackIndex} {target : Bytes}
    (h : searchIndexPosition fuel index target = pure none) :
    lookupPackIndex fuel index (bytesToHex target) = pure none := by
  rw [lookupPackIndex, hexToBytes_bytesToHex]
  exact congrArg (· >>= _) h

theorem lookupPackIndex_of_some {fuel position offset : ℕ} {index : PackIndex} {target : Bytes}
    (h : searchIndexPosition fuel index target = pure (some position))
    (hread : readOffset index position = .ok offset) :
    lookupPackIndex fuel index (bytesToHex target) = pure (some offset) := by
  rw [lookupPackIndex, hexToBytes_bytesToHex]
  refine (congrArg (· >>= _) h).trans ?_
  rw [pure_bind]
  dsimp only
  rw [hread]
  rfl

/-- **A recorded id** has its offset. -/
theorem lookup_present (hvalid : sorted.entries.Valid) (hsorted : Sorted sorted)
    (hlayout : Layout sorted bytes) (hcount : sorted.entries.count ≤ 2 ^ 31)
    (hoffsets : ∀ k < sorted.entries.count, sorted.entries.offsetOf k < 2 ^ 53) {k : ℕ}
    (hk : k < sorted.entries.count) :
    Yields (lookupPackIndex · (parsed sorted bytes) (sorted.entries.idOf k))
      (some (sorted.entries.offsetOf k)) := by
  refine ⟨sorted.entries.count + 1, fun fuel hfuel => ?_⟩
  obtain ⟨p, hp, hentry⟩ := hsorted.exists_entryAt hk
  obtain ⟨found, hsearch, hfinds⟩ := searchIndexPosition_of_layout hvalid hsorted hlayout hcount
    hfuel (sorted.entries.oid k)
  cases found with
  | none =>
    refine absurd (mem_map.mpr ⟨p, mem_range.mpr hp, ?_⟩) hfinds
    rw [oidAt, hentry]
  | some q =>
    have hq : q < sorted.entries.count := by
      rw [← length_idsOf sorted]
      exact (List.getElem?_eq_some_iff.mp hfinds).1
    have hoid : oidAt sorted q = sorted.entries.oid k :=
      Option.some.inj ((idsOf_getElem? hq).symm.trans hfinds)
    have hsame := Sorted.entryAt_eq_of_oid hvalid hsorted hq hk hoid
    have hoffset : offsetAt sorted q = sorted.entries.offsetOf k := by
      rw [offsetAt, hsame]
      rfl
    have hplace := (largeCount_le sorted q).trans_lt (hq.trans_le hcount)
    have hread := readOffset_of_layout hlayout (fun _ => hplace) hq (by
      rw [hoffset]
      exact hoffsets k hk)
    rw [hoffset] at hread
    exact lookupPackIndex_of_some hsearch hread

/-- **Another id** has none. -/
theorem lookup_absent (hvalid : sorted.entries.Valid) (hsorted : Sorted sorted)
    (hlayout : Layout sorted bytes) (hcount : sorted.entries.count ≤ 2 ^ 31) {id : Text}
    (hid : IsObjectId id) (hother : ∀ k < sorted.entries.count, sorted.entries.idOf k ≠ id) :
    Yields (lookupPackIndex · (parsed sorted bytes) id) none := by
  refine ⟨sorted.entries.count + 1, fun fuel hfuel => ?_⟩
  obtain ⟨target, -, rfl⟩ := hid.toBytes
  obtain ⟨found, hsearch, hfinds⟩ := searchIndexPosition_of_layout hvalid hsorted hlayout hcount
    hfuel target
  cases found with
  | none => exact lookupPackIndex_of_none hsearch
  | some q =>
    have hq : q < sorted.entries.count := by
      rw [← length_idsOf sorted]
      exact (List.getElem?_eq_some_iff.mp hfinds).1
    have hoid : oidAt sorted q = target :=
      Option.some.inj ((idsOf_getElem? hq).symm.trans hfinds)
    refine absurd ?_ (hother (entryAt sorted q) (hsorted.entryAt_lt hq))
    rw [← hoid]
    rfl

/-! ### Prefixes -/

theorem padEnd_eq {text : Text} {length : ℕ} (filler : Char) :
    padEnd text length filler = text ++ replicate (length - text.length) filler := rfl

/-- A padded prefix is the hex of an id. -/
theorem hexToBytes_padEnd {hexPrefix : Text} {digestLength : ℕ} {filler : Char}
    (hle : hexPrefix.length ≤ hexCharsFor digestLength)
    (hdigits : ∀ c ∈ hexPrefix, isHexDigit c = true) (hfiller : isHexDigit filler = true) :
    ∃ target, hexToBytes (padEnd hexPrefix (hexCharsFor digestLength) filler) = .ok target ∧
      bytesToHex target = padEnd hexPrefix (hexCharsFor digestLength) filler ∧
      target.length = digestLength := by
  have hlength : (padEnd hexPrefix (hexCharsFor digestLength) filler).length =
      2 * digestLength := by
    rw [padEnd, length_append, length_replicate]
    rw [hexCharsFor] at hle ⊢
    omega
  have hall : ∀ c ∈ padEnd hexPrefix (hexCharsFor digestLength) filler, isHexDigit c = true := by
    intro c hc
    rcases mem_append.mp hc with hmem | hmem
    · exact hdigits c hmem
    · rw [eq_of_mem_replicate hmem]
      exact hfiller
  obtain ⟨target, hok, hhex⟩ := hexToBytes_spec (by omega) hall
  have hbytes := length_bytesToHex target
  rw [hhex, hlength] at hbytes
  exact ⟨target, hok, hhex, by omega⟩

theorem startsWith_iff {hexPrefix : Text} {lower upper id : Bytes}
    (hle : hexPrefix.length ≤ hexCharsFor id.length)
    (hlower : bytesToHex lower = padEnd hexPrefix (hexCharsFor id.length) '0')
    (hupper : bytesToHex upper = padEnd hexPrefix (hexCharsFor id.length) 'f') :
    (¬ compareBytes id lower < 0 ∧ compareBytes id upper ≤ 0) ↔ hexPrefix <+: bytesToHex id := by
  have hbetween := @between_padded_iff hexPrefix (bytesToHex id) _
    (by rw [length_bytesToHex, ← hexCharsFor, Nat.add_sub_cancel' hle])
    (isHexDigit_bytesToHex id)
  rw [← hbetween, compareBytes_neg_iff_hex, hlower, ← padEnd_eq, ← padEnd_eq, ← hupper,
    ← compareBytes_neg_iff_hex]
  have hswap := compareBytes_swap id upper
  refine and_congr_right fun _ => ?_
  omega

theorem objectIdAt_of_layout (hvalid : sorted.entries.Valid) (hsorted : Sorted sorted)
    (hlayout : Layout sorted bytes) {p : ℕ} (hp : p < sorted.entries.count) :
    objectIdAt (parsed sorted bytes) p = bytesToHex (oidAt sorted p) := by
  have hread := (hlayout.ids p hp).subarray_eq
  rw [oidAt, hvalid.length_oid (hsorted.entryAt_lt hp)] at hread
  exact congrArg bytesToHex hread

/-- Where the ids at or above `lower` start, and where those up to `upper` end. -/
def lowerBoundOf (sorted : SortedPackIndex) (lower : Bytes) : ℕ :=
  (idsOf sorted).countP fun id => compareBytes id lower < 0

def upperBoundOf (sorted : SortedPackIndex) (upper : Bytes) : ℕ :=
  (idsOf sorted).countP fun id => compareBytes id upper ≤ 0

theorem decide_neg_down (target : Bytes) :
    ∀ a b : Bytes, compareBytes a b ≤ 0 → decide (compareBytes b target < 0) = true →
      decide (compareBytes a target < 0) = true := fun _ _ hab hb =>
  decide_eq_true (compareBytes_neg_of_nonpos_of_neg hab (of_decide_eq_true hb))

theorem decide_nonpos_down (target : Bytes) :
    ∀ a b : Bytes, compareBytes a b ≤ 0 → decide (compareBytes b target ≤ 0) = true →
      decide (compareBytes a target ≤ 0) = true := fun _ _ hab hb =>
  decide_eq_true (compareBytes_nonpos_trans hab (of_decide_eq_true hb))

theorem findBounds_of_layout (hvalid : sorted.entries.Valid) (hsorted : Sorted sorted)
    (hlayout : Layout sorted bytes) (hcount : sorted.entries.count ≤ 2 ^ 31) {fuel : ℕ}
    (hfuel : sorted.entries.count < fuel) {lower upper : Bytes}
    (hlower : lower.length = sorted.entries.digestLength)
    (hupper : upper.length = sorted.entries.digestLength) (hle : compareBytes lower upper ≤ 0) :
    findLowerBound fuel (parsed sorted bytes)
        ((idsOf sorted).countP fun id => byteAt id 0 < byteAt lower 0)
        ((idsOf sorted).countP fun id => byteAt id 0 ≤ byteAt upper 0) lower =
          pure (lowerBoundOf sorted lower) ∧
      findUpperBound fuel (parsed sorted bytes)
        ((idsOf sorted).countP fun id => byteAt id 0 < byteAt lower 0)
        ((idsOf sorted).countP fun id => byteAt id 0 ≤ byteAt upper 0) upper =
          pure (upperBoundOf sorted upper) := by
  have htable := table_of_layout hvalid hsorted hlayout hcount
  have hbytes := byteAt_zero_le hle
  have hrange : ((idsOf sorted).countP fun id => byteAt id 0 < byteAt lower 0) ≤
      (idsOf sorted).countP fun id => byteAt id 0 ≤ byteAt upper 0 := by
    refine countP_mono_left fun id _ hid => ?_
    exact decide_eq_true ((of_decide_eq_true hid).le.trans hbytes)
  have hend : ((idsOf sorted).countP fun id => byteAt id 0 ≤ byteAt upper 0) ≤
      (idsOf sorted).length := countP_le_length
  have hfuel' : (idsOf sorted).length < fuel := by rwa [length_idsOf]
  -- Outside of the range the first byte decides.
  have hbefore : ∀ {i id}, (idsOf sorted)[i]? = some id →
      i < (idsOf sorted).countP (fun id => byteAt id 0 < byteAt lower 0) →
        compareBytes id lower < 0 := by
    intro i id hid hi
    have hfirst := (htable.lt_start_iff hid _).mp hi
    have hswap := compareBytes_swap id lower
    by_contra hnot
    have := byteAt_zero_le (show compareBytes lower id ≤ 0 by omega)
    omega
  have hbehind : ∀ {i id}, (idsOf sorted)[i]? = some id →
      ((idsOf sorted).countP fun id => byteAt id 0 ≤ byteAt upper 0) ≤ i →
        0 < compareBytes id upper := by
    intro i id hid hi
    have hfirst := (htable.lt_count_iff hid (byteAt upper 0)).not.mp (Nat.not_lt.mpr hi)
    by_contra hnot
    exact hfirst (byteAt_zero_le (Int.not_lt.mp hnot))
  constructor
  · refine @Table.partitionPoint_eq _ _ _ _ htable lower hlower (fun order => order < 0)
      (decide_neg_down lower) _ _ _ hrange hend (fun hid hi => decide_eq_true (hbefore hid hi))
      (fun hid hi => ?_) hfuel'
    have habove := hbehind hid hi
    refine decide_eq_false fun hneg => ?_
    have := compareBytes_neg_of_neg_of_nonpos hneg hle
    omega
  · refine @Table.partitionPoint_eq _ _ _ _ htable upper hupper (fun order => order ≤ 0)
      (decide_nonpos_down upper) _ _ _ hrange hend (fun hid hi => ?_) (fun hid hi => ?_) hfuel'
    · exact decide_eq_true (compareBytes_neg_of_neg_of_nonpos (hbefore hid hi) hle).le
    · exact decide_eq_false (Int.not_le.mpr (hbehind hid hi))

theorem findByPrefix_of_layout (hvalid : sorted.entries.Valid) (hsorted : Sorted sorted)
    (hlayout : Layout sorted bytes) (hcount : sorted.entries.count ≤ 2 ^ 31) {hexPrefix : Text}
    (hmin : 4 ≤ hexPrefix.length)
    (hmax : hexPrefix.length ≤ hexCharsFor sorted.entries.digestLength)
    (hdigits : ∀ c ∈ hexPrefix, isHexDigit c = true) :
    ∃ lower upper : ℕ, upper ≤ sorted.entries.count ∧
      Yields (findByPrefix · (parsed sorted bytes) hexPrefix)
        ((List.range' lower (upper - lower)).map fun p => bytesToHex (oidAt sorted p)) ∧
      ∀ p < sorted.entries.count,
        (lower ≤ p ∧ p < upper ↔ hexPrefix <+: bytesToHex (oidAt sorted p)) := by
  have htable := table_of_layout hvalid hsorted hlayout hcount
  obtain ⟨lower, hlower, hlowerHex, hlowerLength⟩ :=
    hexToBytes_padEnd hmax hdigits (by decide : isHexDigit '0' = true)
  obtain ⟨upper, hupper, hupperHex, hupperLength⟩ :=
    hexToBytes_padEnd hmax hdigits (by decide : isHexDigit 'f' = true)
  have hstarts : ∀ id ∈ idsOf sorted, (¬ compareBytes id lower < 0 ∧ compareBytes id upper ≤ 0 ↔
        hexPrefix <+: bytesToHex id) := by
    intro id hid
    have hwidth := length_of_mem_idsOf hvalid hsorted id hid
    exact startsWith_iff (by rwa [hwidth]) (by rwa [hwidth]) (by rwa [hwidth])
  have hle : compareBytes lower upper ≤ 0 := by
    have hself : hexPrefix <+: bytesToHex lower := by
      rw [hlowerHex]
      exact prefix_append _ _
    rw [← hlowerLength] at hmax hlowerHex hupperHex
    exact ((startsWith_iff hmax hlowerHex hupperHex).mpr hself).2
  have hends : upperBoundOf sorted upper ≤ sorted.entries.count :=
    countP_le_length.trans_eq (length_idsOf sorted)
  refine ⟨lowerBoundOf sorted lower, upperBoundOf sorted upper, hends,
    ⟨sorted.entries.count + 1, fun fuel hfuel => ?_⟩, fun p hp => ?_⟩
  · obtain ⟨hlo, hhi⟩ := findBounds_of_layout hvalid hsorted hlayout hcount hfuel hlowerLength
      hupperLength hle
    have hdigits' : hexPrefix.all isHexDigit = true := all_eq_true.mpr hdigits
    have hlength : (parsed sorted bytes).digestLength = sorted.entries.digestLength := rfl
    unfold findByPrefix
    dsimp only
    rw [hlength, if_neg (by omega), if_neg (by omega), if_neg (not_not_intro hdigits'), hlower,
      hupper, ofExcept_ok, pure_bind, ofExcept_ok, pure_bind,
      htable.range_start (byteAt_lt lower 0), ofExcept_ok, pure_bind,
      htable.fanout _ (byteAt_lt upper 0), ofExcept_ok, pure_bind, hlo, pure_bind, hhi, pure_bind]
    refine congrArg pure (map_congr_left fun p hp => ?_)
    refine objectIdAt_of_layout hvalid hsorted hlayout ?_
    have := mem_range'_1.mp hp
    omega
  · have hid := idsOf_getElem? hp
    have hbelow := htable.lt_countP_iff (decide_neg_down lower) hid
    have hupto := htable.lt_countP_iff (decide_nonpos_down upper) hid
    rw [decide_eq_true_iff] at hbelow hupto
    rw [← hstarts _ (mem_of_getElem? hid), ← hbelow, ← hupto, Nat.not_lt]
    rfl

/-- The ids of an index are in strictly ascending order. -/
theorem Sorted.oidAt_lt (hvalid : sorted.entries.Valid) (hsorted : Sorted sorted) {p q : ℕ}
    (hpq : p < q) (hq : q < sorted.entries.count) :
    bytesToHex (oidAt sorted p) < bytesToHex (oidAt sorted q) := by
  have hp := hpq.trans hq
  have hle := pairwise_iff_getElem.mp hsorted.idsOf_ascending p q
    (by rwa [length_idsOf]) (by rwa [length_idsOf]) hpq
  have hget : ∀ {i} (hi : i < sorted.entries.count) (hlt : i < (idsOf sorted).length),
      (idsOf sorted)[i] = oidAt sorted i := by
    intro i hi hlt
    exact Option.some.inj ((getElem?_eq_getElem hlt).symm.trans (idsOf_getElem? hi))
  rw [hget hp, hget hq] at hle
  have hne : compareBytes (oidAt sorted p) (oidAt sorted q) ≠ 0 := by
    intro hzero
    have hentry := Sorted.entryAt_eq_of_oid hvalid hsorted hp (hsorted.entryAt_lt hq)
      (compareBytes_eq_zero_iff.mp hzero)
    have hgetp := hsorted.order_getElem? hp
    rw [hentry, ← hsorted.order_getElem? hq] at hgetp
    have hnodup : sorted.order.Nodup := hsorted.perm.nodup_iff.mpr nodup_range
    have hplt : p < sorted.order.length := by rwa [hsorted.length_eq]
    exact absurd ((getElem?_inj hplt hnodup).mp hgetp) hpq.ne
  exact compareBytes_neg_iff_hex.mp (by omega)

/-- **A serialized index serves its entries.** -/
theorem serves_of_layout (hvalid : sorted.entries.Valid) (hsorted : Sorted sorted)
    (hlayout : Layout sorted bytes) (hcount : sorted.entries.count ≤ 2 ^ 31)
    (hoffsets : ∀ k < sorted.entries.count, sorted.entries.offsetOf k < 2 ^ 53) :
    Serves sorted.entries (parsed sorted bytes) where
  present _ hk := lookup_present hvalid hsorted hlayout hcount hoffsets hk
  absent _ hid hother := lookup_absent hvalid hsorted hlayout hcount hid hother
  byPrefix hexPrefix hmin hmax hdigits := by
    obtain ⟨lower, upper, hupper, hyields, hstarts⟩ :=
      findByPrefix_of_layout hvalid hsorted hlayout hcount hmin hmax hdigits
    refine ⟨_, hyields, ?_, fun id => ?_⟩
    · rw [pairwise_map, pairwise_iff_getElem]
      intro i j hi hj hij
      rw [length_range'] at hi hj
      rw [getElem_range', getElem_range']
      exact Sorted.oidAt_lt hvalid hsorted (by omega) (by omega)
    rw [mem_map]
    constructor
    · rintro ⟨p, hp, rfl⟩
      have hrange := mem_range'_1.mp hp
      have hlt : p < sorted.entries.count := by omega
      exact ⟨(hstarts p hlt).mp (by omega), entryAt sorted p, hsorted.entryAt_lt hlt, rfl⟩
    · rintro ⟨hstart, k, hk, rfl⟩
      obtain ⟨p, hp, rfl⟩ := hsorted.exists_entryAt hk
      have hrange := (hstarts p hp).mpr hstart
      exact ⟨p, mem_range'_1.mpr (by omega), rfl⟩

end

/-! ### The round trip -/

def RoundTrips (entries : PackIndexEntries) (packChecksum : Bytes) : Prop :=
  ∃ bytes index, serializePackIndex (sortPackIndexEntries entries) packChecksum = .ok bytes ∧
    parsePackIndex bytes entries.digestLength = .ok index ∧ Serves entries index

section

variable {entries : PackIndexEntries} {packChecksum : Bytes}

theorem roundTrips_of_le (hvalid : entries.Valid)
    (hoffsets : ∀ k < entries.count, entries.offsetOf k < 2 ^ 53)
    (hchecksum : packChecksum.length = entries.digestLength) (hcount : entries.count ≤ 2 ^ 31) :
    RoundTrips entries packChecksum := by
  have hsorted := sortPackIndexEntries_sorted hvalid
  obtain ⟨bytes, hbytes, hlayout⟩ :=
    @serializePackIndex_spec (sortPackIndexEntries entries) packChecksum hvalid hsorted hchecksum
  have hcount' : (sortPackIndexEntries entries).entries.count ≤ 2 ^ 31 := hcount
  have hparse : parsePackIndex bytes entries.digestLength =
      .ok (parsed (sortPackIndexEntries entries) bytes) :=
    @parsePackIndex_of_layout (sortPackIndexEntries entries) bytes hvalid hlayout (by omega)
  exact ⟨bytes, _, hbytes, hparse,
    @serves_of_layout (sortPackIndexEntries entries) bytes hvalid hsorted hlayout hcount' hoffsets⟩

end

/-- **Pack indexes round trip**: the index of valid entries is written, what is written is read
back and serves them for up to `2 ^ 31` entries, and there are fewer in every file that the loader
takes. -/
theorem packIndex_roundTrips (entries : PackIndexEntries) (packChecksum : Bytes)
    (hvalid : entries.Valid) (hoffsets : ∀ k < entries.count, entries.offsetOf k < 2 ^ 53)
    (hchecksum : packChecksum.length = entries.digestLength) :
    (entries.count ≤ 2 ^ 31 → RoundTrips entries packChecksum) ∧
      ∃ bytes, serializePackIndex (sortPackIndexEntries entries) packChecksum = .ok bytes ∧
        ∀ size read, readBoundedIdx size bytes = .ok read →
          RoundTrips entries packChecksum := by
  obtain ⟨bytes, hbytes, hlayout⟩ := @serializePackIndex_spec (sortPackIndexEntries entries)
    packChecksum hvalid (sortPackIndexEntries_sorted hvalid) hchecksum
  have htrip := roundTrips_of_le hvalid hoffsets hchecksum
  refine ⟨htrip, bytes, hbytes, fun size read hread => htrip ?_⟩
  have hfits := length_le_of_readBoundedIdx hread
  have hlength := hlayout.length_eq
  rw [trailerOf, largeStartOf, offsetStartOf, crcStartOf] at hlength
  have hcount : (sortPackIndexEntries entries).entries.count = entries.count := rfl
  omega

/-- Two entries, the first one with the higher id and the second one with a large offset. -/
def twoEntries : PackIndexEntries where
  count := 2
  digestLength := 20
  oids := replicate 20 0xab ++ replicate 20 0x12
  crcValues := [1, 2]
  offsets := [12, 0x180000000]

theorem packIndex_roundTrips_twoEntries : RoundTrips twoEntries (replicate 20 7) :=
  (packIndex_roundTrips twoEntries (replicate 20 7)
    ⟨.inl rfl, by decide, by decide, by decide, by decide⟩ (by decide) rfl).1 (by decide)

end Tsgit.Idx
