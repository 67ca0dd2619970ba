import Tsgit.PackIndex

/-!
# What a Serialized Pack Index Holds

The writer of a pack index fills a buffer whose regions it computes from the number of entries
and of large offsets. This module follows it region by region.
-/

namespace Tsgit.Idx

open List OidTable

/-- Columns that are long enough, and distinct ids. -/
structure PackIndexEntries.Valid (entries : PackIndexEntries) : Prop where
  width : entries.digestLength = 20 ∨ entries.digestLength = 32
  oids_le : entries.count * entries.digestLength ≤ entries.oids.length
  crcValues_le : entries.count ≤ entries.crcValues.length
  offsets_le : entries.count ≤ entries.offsets.length
  distinct : ∀ a < entries.count, ∀ b < entries.count, entries.oid a = entries.oid b → a = b

section

variable {entries : PackIndexEntries}

theorem PackIndexEntries.Valid.slot_le (h : entries.Valid) {k : ℕ} (hk : k < entries.count) :
    (k + 1) * entries.digestLength ≤ entries.oids.length :=
  (Nat.mul_le_mul_right _ hk).trans h.oids_le

theorem PackIndexEntries.Valid.length_oid (h : entries.Valid) {k : ℕ} (hk : k < entries.count) :
    (entries.oid k).length = entries.digestLength := by
  rw [PackIndexEntries.oid, length_subarray _ (h.slot_le hk), Nat.succ_mul, Nat.add_sub_cancel_left]

theorem compareOids_eq (h : entries.Valid) {a b : ℕ} (ha : a < entries.count)
    (hb : b < entries.count) :
    compareOids entries a b = compareBytes (entries.oid a) (entries.oid b) := by
  rw [compareOids, compareWindows_eq (holds_subarray _ _ _) (holds_subarray _ _ _)
    (h.length_oid ha) (h.length_oid hb)]
  rfl

/-- The order of a sorted index: a permutation of the entries, by ascending id. -/
structure Sorted (sorted : SortedPackIndex) : Prop where
  perm : sorted.order.Perm (range sorted.entries.count)
  ascending : sorted.order.Pairwise fun a b =>
    compareBytes (sorted.entries.oid a) (sorted.entries.oid b) ≤ 0

theorem sortPackIndexEntries_sorted (h : entries.Valid) :
    Sorted (sortPackIndexEntries entries) := by
  refine ⟨perm_insertionSort _ _, ?_⟩
  let before (a b : ℕ) : Prop := compareBytes (entries.oid a) (entries.oid b) ≤ 0
  have htotal : Std.Total before := ⟨fun a b => by
    have := compareBytes_swap (entries.oid a) (entries.oid b)
    simp only [before]
    omega⟩
  have htrans : IsTrans ℕ before := ⟨fun _ _ _ => compareBytes_nonpos_trans⟩
  have hsame : (sortPackIndexEntries entries).order =
      (range entries.count).insertionSort before := by
    have hmap := map_insertionSort (fun a b => compareOids entries a b ≤ 0) before id
      (range entries.count) fun a ha b hb => by
        rw [compareOids_eq h (mem_range.mp ha) (mem_range.mp hb)]
        rfl
    rw [map_id, map_id] at hmap
    exact hmap
  rw [hsame]
  exact pairwise_insertionSort before _

end

section

variable {sorted : SortedPackIndex}

theorem Sorted.length_eq (h : Sorted sorted) : sorted.order.length = sorted.entries.count := by
  rw [h.perm.length_eq, length_range]

theorem Sorted.order_getElem? (h : Sorted sorted) {p : ℕ} (hp : p < sorted.entries.count) :
    sorted.order[p]? = some (entryAt sorted p) := by
  have hlt : p < sorted.order.length := by rwa [h.length_eq]
  rw [entryAt, getD_eq_getElem?_getD, getElem?_eq_getElem hlt, Option.getD_some]

theorem Sorted.entryAt_lt (h : Sorted sorted) {p : ℕ} (hp : p < sorted.entries.count) :
    entryAt sorted p < sorted.entries.count := by
  have hmem : entryAt sorted p ∈ sorted.order := mem_of_getElem? (h.order_getElem? hp)
  exact mem_range.mp (h.perm.mem_iff.mp hmem)

/-- Every entry has an index position. -/
theorem Sorted.exists_entryAt (h : Sorted sorted) {k : ℕ} (hk : k < sorted.entries.count) :
    ∃ p < sorted.entries.count, entryAt sorted p = k := by
  have hmem : k ∈ sorted.order := h.perm.mem_iff.mpr (mem_range.mpr hk)
  obtain ⟨p, hp⟩ := mem_iff_getElem?.mp hmem
  have hlt : p < sorted.entries.count := by
    rw [← h.length_eq]
    exact (List.getElem?_eq_some_iff.mp hp).1
  exact ⟨p, hlt, Option.some.inj ((h.order_getElem? hlt).symm.trans hp)⟩

/-- The ids in the order of the index. -/
def idsOf (sorted : SortedPackIndex) : List Bytes :=
  (range sorted.entries.count).map (oidAt sorted)

theorem length_idsOf (sorted : SortedPackIndex) :
    (idsOf sorted).length = sorted.entries.count := by
  rw [idsOf, length_map, length_range]

theorem idsOf_getElem? {p : ℕ} (hp : p < sorted.entries.count) :
    (idsOf sorted)[p]? = some (oidAt sorted p) := by
  rw [idsOf, getElem?_map, getElem?_range hp]
  rfl

theorem Sorted.idsOf_ascending (h : Sorted sorted) :
    (idsOf sorted).Pairwise fun a b => compareBytes a b ≤ 0 := by
  have hids : idsOf sorted = sorted.order.map sorted.entries.oid := by
    refine ext_getElem? fun p => ?_
    rcases Nat.lt_or_ge p sorted.entries.count with hlt | hge
    · rw [idsOf_getElem? hlt, getElem?_map, h.order_getElem? hlt]
      rfl
    · rw [getElem?_eq_none (by rwa [length_idsOf]),
        getElem?_eq_none (by rwa [length_map, h.length_eq])]
  rw [hids]
  exact pairwise_map.mpr h.ascending

end

/-! ### The fan-out -/

section

variable {sorted : SortedPackIndex}

/-- The first byte of the id at a position. -/
def firstAt (sorted : SortedPackIndex) (p : ℕ) : ℕ :=
  byteAt sorted.entries.oids (entryAt sorted p * sorted.entries.digestLength)

theorem firstAt_eq (sorted : SortedPackIndex) (h : 0 < sorted.entries.digestLength) (p : ℕ) :
    firstAt sorted p = byteAt (oidAt sorted p) 0 := by
  rw [firstAt, byteAt, byteAt, oidAt, PackIndexEntries.oid,
    getElem?_subarray (by rw [Nat.succ_mul]; omega), Nat.add_zero]

theorem bucketCounts_spec (sorted : SortedPackIndex) {n : ℕ} (hn : n < 2 ^ 32) :
    (bucketCounts sorted n).length = 256 ∧ ∀ b < 256, (bucketCounts sorted n)[b]? =
      some ((range n).countP fun p => firstAt sorted p = b) := by
  induction n with
  | zero =>
    refine ⟨length_replicate, fun b hb => ?_⟩
    rw [bucketCounts, range_zero, foldl_nil, getElem?_replicate_of_lt hb]
    rfl
  | succ n ih =>
    obtain ⟨hlength, hcounts⟩ := ih (by omega)
    have hstep : bucketCounts sorted (n + 1) = (bucketCounts sorted n).modify
        (firstAt sorted n) fun count => (count + 1) % 2 ^ 32 := by
      rw [bucketCounts, range_succ, foldl_append]
      rfl
    refine ⟨by rw [hstep, length_modify, hlength], fun b hb => ?_⟩
    rw [hstep, getElem?_modify, hcounts b hb, range_succ, countP_append,
      countP_singleton, Option.map_eq_map, Option.map_some]
    have hle : (range n).countP (fun p => firstAt sorted p = b) ≤ n :=
      countP_le_length.trans_eq length_range
    by_cases hfirst : firstAt sorted n = b
    · rw [if_pos hfirst, if_pos (decide_eq_true hfirst)]
      exact congrArg some (Nat.mod_eq_of_lt (by omega))
    · rw [if_neg hfirst, if_neg (by simpa using hfirst), Nat.add_zero]

theorem cumulate_getElem? (counts : List ℕ) (cumulative i : ℕ) (hi : i < counts.length) :
    (cumulate cumulative counts)[i]? =
      some ((cumulative + (counts.take (i + 1)).sum) % 2 ^ 32) := by
  induction counts generalizing cumulative i with
  | nil => exact absurd hi (Nat.not_lt_zero _)
  | cons count counts ih =>
    cases i with
    | zero => simp [cumulate]
    | succ i =>
      rw [cumulate, getElem?_cons_succ, ih _ _ (Nat.lt_of_succ_lt_succ hi),
        take_succ_cons, sum_cons, Nat.add_assoc]

/-- **The fan-out** at a byte counts the ids whose first byte is not above it. -/
theorem fanout_getElem (sorted : SortedPackIndex) (hpos : 0 < sorted.entries.digestLength)
    (hcount : sorted.entries.count < 2 ^ 32) {b : ℕ} (hb : b < 256) :
    (cumulate 0 (bucketCounts sorted sorted.entries.count)).getD b 0 =
      (idsOf sorted).countP fun id => byteAt id 0 ≤ b := by
  obtain ⟨hlength, hcounts⟩ := bucketCounts_spec sorted hcount
  have hsum : ∀ k ≤ 256, ((bucketCounts sorted sorted.entries.count).take k).sum =
      (range sorted.entries.count).countP fun p => firstAt sorted p < k := by
    intro k hk
    induction k with
    | zero =>
      rw [take_zero, sum_nil]
      exact (countP_eq_zero.mpr fun p _ => by simp).symm
    | succ k ih =>
      have hget := hcounts k hk
      obtain ⟨hlt, heq⟩ := List.getElem?_eq_some_iff.mp hget
      have hsplit : ∀ l : List ℕ, l.countP (fun p => firstAt sorted p < k + 1) =
          l.countP (fun p => firstAt sorted p < k) +
            l.countP (fun p => firstAt sorted p = k) := by
        intro l
        induction l with
        | nil => rfl
        | cons p l ihl =>
          simp only [countP_cons, ihl, decide_eq_true_eq]
          split_ifs <;> omega
      rw [take_succ_eq_append_getElem hlt, sum_append, sum_singleton, heq,
        ih (Nat.le_of_succ_le hk), hsplit]
  have hids : (idsOf sorted).countP (fun id => byteAt id 0 ≤ b) =
      (range sorted.entries.count).countP fun p => firstAt sorted p < b + 1 := by
    rw [idsOf, countP_map]
    refine countP_congr fun p _ => ?_
    simp only [Function.comp_apply, ← firstAt_eq sorted hpos, decide_eq_true_eq]
    omega
  have hle : (range sorted.entries.count).countP (fun p => firstAt sorted p < b + 1) ≤
      sorted.entries.count := countP_le_length.trans_eq length_range
  rw [getD_eq_getElem?_getD, cumulate_getElem? _ _ _ (by rw [hlength]; exact hb),
    Option.getD_some, Nat.zero_add, hsum (b + 1) hb, hids, Nat.mod_eq_of_lt (by omega)]

end

/-! ### Offsets -/

section

variable {sorted : SortedPackIndex}

theorem largeCount_succ (sorted : SortedPackIndex) (p : ℕ) :
    largeCount sorted (p + 1) =
      largeCount sorted p + if isLarge (offsetAt sorted p) then 1 else 0 := by
  rw [largeCount, range_succ, countP_append, countP_singleton]
  rfl

theorem largeCount_mono (sorted : SortedPackIndex) : Monotone (largeCount sorted) :=
  monotone_nat_of_le_succ fun p => by rw [largeCount_succ]; exact Nat.le_add_right _ _

theorem largeCount_le (sorted : SortedPackIndex) (n : ℕ) : largeCount sorted n ≤ n :=
  countP_le_length.trans_eq length_range

theorem largeCount_lt {p q : ℕ} (hlt : p < q) (hlarge : isLarge (offsetAt sorted p) = true) :
    largeCount sorted p < largeCount sorted q := by
  have hsucc := largeCount_succ sorted p
  have hle : largeCount sorted (p + 1) ≤ largeCount sorted q := largeCount_mono sorted hlt
  rw [if_pos hlarge] at hsucc
  omega

def offsetWord (sorted : SortedPackIndex) (p : ℕ) : ℕ :=
  if isLarge (offsetAt sorted p) then 0x80000000 ||| largeCount sorted p else offsetAt sorted p

def largeBytes (offset : ℕ) : Bytes :=
  uint32Bytes (offset / 0x100000000) ++ uint32Bytes (offset % 2 ^ 32)

/-- The offsets of the first `n` positions are in place. -/
structure OffsetsHeld (sorted : SortedPackIndex) (offsetStart largeOffsetStart n : ℕ)
    (buf : Bytes) : Prop where
  words : ∀ p < n, Holds buf (offsetStart + p * 4) (uint32Bytes (offsetWord sorted p))
  larges : ∀ p < n, isLarge (offsetAt sorted p) = true →
    Holds buf (largeOffsetStart + largeCount sorted p * 8) (largeBytes (offsetAt sorted p))

theorem writeOffset_spec {offsetStart n p : ℕ} {buf : Bytes} (hp : p < n)
    (hfits : offsetStart + n * 4 + largeCount sorted n * 8 ≤ buf.length)
    (hheld : OffsetsHeld sorted offsetStart (offsetStart + n * 4) p buf) :
    ∃ after, writeOffset sorted offsetStart (offsetStart + n * 4) p (buf, largeCount sorted p) =
        .ok (after, largeCount sorted (p + 1)) ∧
      OffsetsHeld sorted offsetStart (offsetStart + n * 4) (p + 1) after ∧
      ChangedWithin offsetStart (offsetStart + n * 4 + largeCount sorted n * 8) buf after := by
  have hsucc := largeCount_succ sorted p
  have hwordLength : ∀ value, (uint32Bytes value).length = 4 := fun _ => rfl
  have hwidth : ∀ offset, (largeBytes offset).length = 8 := fun _ => rfl
  have hword : ∀ {q : ℕ}, q < p → offsetStart + q * 4 + 4 ≤ offsetStart + p * 4 := by
    intro q hq
    omega
  obtain ⟨buf₁, hset₁, hholds₁, hwithin₁⟩ := @setBytes_spec buf
      (uint32Bytes (offsetWord sorted p))
      (offsetStart + p * 4)
    (by rw [hwordLength]; omega)
  rw [hwordLength] at hwithin₁
  have hwords₁ : ∀ q < p + 1,
      Holds buf₁ (offsetStart + q * 4) (uint32Bytes (offsetWord sorted q)) := by
    intro q hq
    rcases Nat.lt_succ_iff_lt_or_eq.mp hq with hlt | rfl
    · exact hwithin₁.holds (hheld.words q hlt) (.inl (hword hlt))
    · exact hholds₁
  have hlarges₁ : ∀ q < p, isLarge (offsetAt sorted q) = true →
      Holds buf₁ (offsetStart + n * 4 + largeCount sorted q * 8)
        (largeBytes (offsetAt sorted q)) := fun q hq hlarge =>
    hwithin₁.holds (hheld.larges q hq hlarge) (.inr (by omega))
  by_cases hlarge : isLarge (offsetAt sorted p) = true
  · rw [if_pos hlarge] at hsucc
    have hmono : largeCount sorted (p + 1) ≤ largeCount sorted n := largeCount_mono sorted hp
    have hslot : largeCount sorted p * 8 + 8 ≤ largeCount sorted n * 8 := by omega
    obtain ⟨buf₂, hset₂, hholds₂, hwithin₂⟩ := @setBytes_spec buf₁
      (uint32Bytes (offsetAt sorted p / 0x100000000))
      (offsetStart + n * 4 + largeCount sorted p * 8)
      (by rw [hwordLength, hwithin₁.length_eq]; omega)
    obtain ⟨buf₃, hset₃, hholds₃, hwithin₃⟩ := @setBytes_spec buf₂
      (uint32Bytes (offsetAt sorted p % 2 ^ 32))
      (offsetStart + n * 4 + largeCount sorted p * 8 + 4)
      (by rw [hwordLength, hwithin₂.length_eq, hwithin₁.length_eq]; omega)
    rw [hwordLength] at hwithin₂ hwithin₃
    have hwithin : ChangedWithin (offsetStart + n * 4 + largeCount sorted p * 8)
        (offsetStart + n * 4 + largeCount sorted p * 8 + 8) buf₁ buf₃ :=
      (hwithin₂.mono le_rfl (by omega)).trans (hwithin₃.mono (by omega) (by omega))
    refine ⟨buf₃, ?_, ⟨fun q hq => hwithin.holds (hwords₁ q hq) (.inl (by rw [hwordLength]; omega)),
      fun q hq hq_large => ?_⟩, (hwithin₁.mono (by omega) (by omega)).trans
        (hwithin.mono (by omega) (by omega))⟩
    · have hword₁ : offsetWord sorted p = 0x80000000 ||| largeCount sorted p := if_pos hlarge
      rw [hword₁] at hset₁
      unfold writeOffset
      dsimp only
      rw [if_pos hlarge, setUint32, hset₁]
      dsimp only [bind, Except.bind]
      rw [setUint32, hset₂]
      dsimp only
      rw [setUint32, hset₃, hsucc]
      rfl
    · rcases Nat.lt_succ_iff_lt_or_eq.mp hq with hlt | rfl
      · have hbefore := largeCount_lt hlt hq_large
        exact hwithin.holds (hlarges₁ q hlt hq_large) (.inl (by rw [hwidth]; omega))
      · intro k hk
        rw [largeBytes, length_append, hwordLength, hwordLength] at hk
        rw [largeBytes]
        rcases Nat.lt_or_ge k 4 with hfirst | hsecond
        · rw [getElem?_append_left hfirst]
          exact hwithin₃.holds hholds₂ (.inl le_rfl) k hfirst
        · have hplace : offsetStart + n * 4 + largeCount sorted q * 8 + 4 + (k - 4) =
              offsetStart + n * 4 + largeCount sorted q * 8 + k := by omega
          rw [getElem?_append_right hsecond, hwordLength, ← hholds₃ (k - 4)
            (by rw [hwordLength]; omega), hplace]
  · rw [if_neg hlarge, Nat.add_zero] at hsucc
    refine ⟨buf₁, ?_, ⟨hwords₁, fun q hq hq_large => ?_⟩, hwithin₁.mono (by omega) (by omega)⟩
    · have hword₁ : offsetWord sorted p = offsetAt sorted p := if_neg hlarge
      rw [hword₁] at hset₁
      unfold writeOffset
      dsimp only
      rw [if_neg hlarge, setUint32, hset₁, hsucc]
      rfl
    · rcases Nat.lt_succ_iff_lt_or_eq.mp hq with hlt | rfl
      · exact hlarges₁ q hlt hq_large
      · exact absurd hq_large hlarge

/-- **The offsets are written** word by word, the large ones in a row behind the column. -/
theorem writeOffsets_spec (sorted : SortedPackIndex) {offsetStart n : ℕ} {buf : Bytes}
    (hfits : offsetStart + n * 4 + largeCount sorted n * 8 ≤ buf.length) :
    ∃ after, forRange n (writeOffset sorted offsetStart (offsetStart + n * 4)) (buf, 0) =
        .ok (after, largeCount sorted n) ∧
      OffsetsHeld sorted offsetStart (offsetStart + n * 4) n after ∧
      ChangedWithin offsetStart (offsetStart + n * 4 + largeCount sorted n * 8) buf after := by
  let inv (p : ℕ) (state : Bytes × ℕ) : Prop := state.2 = largeCount sorted p ∧
    OffsetsHeld sorted offsetStart (offsetStart + n * 4) p state.1 ∧
    ChangedWithin offsetStart (offsetStart + n * 4 + largeCount sorted n * 8) buf state.1
  have hstart : inv 0 (buf, 0) :=
    ⟨rfl, ⟨fun p hp => absurd hp (Nat.not_lt_zero p), fun p hp => absurd hp (Nat.not_lt_zero p)⟩,
      .refl _ _ _⟩
  have hstep : ∀ p < n, ∀ state, inv p state →
      ∃ next, writeOffset sorted offsetStart (offsetStart + n * 4) p state = .ok next ∧
        inv (p + 1) next := by
    rintro p hp ⟨current, largeIdx⟩ ⟨hcount, hheld, hchanged⟩
    dsimp only at hcount
    subst hcount
    obtain ⟨after, hrun, hheld', hchanged'⟩ :=
      writeOffset_spec hp (by rw [hchanged.length_eq]; exact hfits) hheld
    exact ⟨_, hrun, rfl, hheld', hchanged.trans hchanged'⟩
  obtain ⟨⟨after, largeIdx⟩, hrun, hcount, hheld, hchanged⟩ := forRange_spec inv hstart hstep
  dsimp only at hcount
  subst hcount
  exact ⟨after, hrun, hheld, hchanged⟩

end

/-! ### The whole index -/

/-- Where the columns behind the fan-out start. -/
def crcStartOf (sorted : SortedPackIndex) : ℕ :=
  1032 + sorted.entries.count * sorted.entries.digestLength

def offsetStartOf (sorted : SortedPackIndex) : ℕ := crcStartOf sorted + sorted.entries.count * 4

def largeStartOf (sorted : SortedPackIndex) : ℕ := offsetStartOf sorted + sorted.entries.count * 4

/-- Where the two checksums start. -/
def trailerOf (sorted : SortedPackIndex) : ℕ :=
  largeStartOf sorted + largeCount sorted sorted.entries.count * 8

theorem largeEnd_le {sorted : SortedPackIndex} {p : ℕ} (hp : p < sorted.entries.count)
    (hlarge : isLarge (offsetAt sorted p) = true) :
    largeStartOf sorted + largeCount sorted p * 8 + (largeBytes (offsetAt sorted p)).length ≤
      trailerOf sorted := by
  have hlt := largeCount_lt hp hlarge
  have hwidth : (largeBytes (offsetAt sorted p)).length = 8 := rfl
  rw [trailerOf, hwidth]
  omega

/-- What a serialized index holds. -/
structure Layout (sorted : SortedPackIndex) (bytes : Bytes) : Prop where
  length_eq : bytes.length = trailerOf sorted + 2 * sorted.entries.digestLength
  magic : Holds bytes 0 (uint32Bytes 0xff744f63)
  version : Holds bytes 4 (uint32Bytes 2)
  fanout : ∀ b < 256, Holds bytes (8 + b * 4)
    (uint32Bytes ((cumulate 0 (bucketCounts sorted sorted.entries.count)).getD b 0))
  ids : ∀ p < sorted.entries.count,
    Holds bytes (1032 + p * sorted.entries.digestLength) (oidAt sorted p)
  crcs : ∀ p < sorted.entries.count,
    Holds bytes (crcStartOf sorted + p * 4) (uint32Bytes (crcAt sorted p))
  offsets : OffsetsHeld sorted (offsetStartOf sorted) (largeStartOf sorted)
    sorted.entries.count bytes

theorem assertValidSortedPackIndex_eq_ok {sorted : SortedPackIndex} (hvalid : sorted.entries.Valid)
    (hsorted : Sorted sorted) (fail : String → Thrown) :
    assertValidSortedPackIndex sorted sorted.entries.digestLength fail = .ok () := by
  have hoids := hvalid.oids_le
  have hcrcs := hvalid.crcValues_le
  have hoffsets := hvalid.offsets_le
  have hwidth := hvalid.width
  unfold assertValidSortedPackIndex
  dsimp only
  rw [if_neg (by omega), if_neg (fun h => h rfl), if_neg (by omega), if_neg (by omega),
    if_neg (by omega), if_neg (fun h => h hsorted.length_eq)]

/-- **The layout of a serialized index.** -/
theorem serializePackIndex_spec {sorted : SortedPackIndex} {packChecksum : Bytes}
    (hvalid : sorted.entries.Valid) (hsorted : Sorted sorted)
    (hchecksum : packChecksum.length = sorted.entries.digestLength) :
    ∃ bytes, serializePackIndex sorted packChecksum = .ok bytes ∧ Layout sorted bytes := by
  have hwordLength : ∀ value, (uint32Bytes value).length = 4 := fun _ => rfl
  have hheaderEnd : ∀ value, 0 + (uint32Bytes value).length ≤ 4 := fun _ => le_rfl
  have hidLength : ∀ p < sorted.entries.count,
      (oidAt sorted p).length = sorted.entries.digestLength :=
    fun p hp => hvalid.length_oid (hsorted.entryAt_lt hp)
  have htrailer : trailerOf sorted = 1032 + sorted.entries.count * sorted.entries.digestLength +
      sorted.entries.count * 4 + sorted.entries.count * 4 +
      largeCount sorted sorted.entries.count * 8 := rfl
  have hoffsetStart : offsetStartOf sorted = 1032 +
      sorted.entries.count * sorted.entries.digestLength + sorted.entries.count * 4 := rfl
  have hslot : ∀ {p : ℕ}, p < sorted.entries.count →
      p * sorted.entries.digestLength + sorted.entries.digestLength ≤
        sorted.entries.count * sorted.entries.digestLength := by
    intro p hp
    calc p * sorted.entries.digestLength + sorted.entries.digestLength
        = (p + 1) * sorted.entries.digestLength := (Nat.succ_mul _ _).symm
      _ ≤ sorted.entries.count * sorted.entries.digestLength := Nat.mul_le_mul_right _ hp
  obtain ⟨total, htotal⟩ : ∃ total, total = trailerOf sorted + 2 * sorted.entries.digestLength :=
    ⟨_, rfl⟩
  have hlength₀ : (replicate total (0 : UInt8)).length = total := length_replicate
  -- The header.
  obtain ⟨buf₁, hrun₁, hmagic, hwithin₁⟩ := @setBytes_spec (replicate total 0)
    (uint32Bytes 0xff744f63) 0 (by rw [hwordLength, hlength₀]; omega)
  obtain ⟨buf₂, hrun₂, hversion, hwithin₂⟩ := @setBytes_spec buf₁ (uint32Bytes 2) 4
    (by rw [hwordLength, hwithin₁.length_eq, hlength₀]; omega)
  have hlength₂ : buf₂.length = total := by
    rw [hwithin₂.length_eq, hwithin₁.length_eq, hlength₀]
  -- The fan-out.
  obtain ⟨buf₃, hrun₃, hfanout, hwithin₃⟩ := @writeTable_spec 256 4 8
    (fun b => uint32Bytes ((cumulate 0 (bucketCounts sorted sorted.entries.count)).getD b 0)) buf₂
    (fun _ _ => rfl) (by omega)
  have hlength₃ : buf₃.length = total := hwithin₃.length_eq.trans hlength₂
  -- The columns.
  obtain ⟨buf₄, hrun₄, hids, hwithin₄⟩ := @writeTable_spec sorted.entries.count
    sorted.entries.digestLength 1032 (oidAt sorted) buf₃ hidLength (by omega)
  have hlength₄ : buf₄.length = total := hwithin₄.length_eq.trans hlength₃
  obtain ⟨buf₅, hrun₅, hcrcs, hwithin₅⟩ := @writeTable_spec sorted.entries.count 4
    (crcStartOf sorted) (fun p => uint32Bytes (crcAt sorted p)) buf₄ (fun _ _ => rfl)
    (by rw [hlength₄, crcStartOf]; omega)
  have hlength₅ : buf₅.length = total := hwithin₅.length_eq.trans hlength₄
  obtain ⟨buf₆, hrun₆, hoffsets, hwithin₆⟩ := @writeOffsets_spec sorted (offsetStartOf sorted)
    sorted.entries.count buf₅ (by rw [hlength₅]; omega)
  have hlength₆ : buf₆.length = total := hwithin₆.length_eq.trans hlength₅
  -- The checksum of the pack.
  obtain ⟨bytes, hrun₇, -, hwithin₇⟩ := @setBytes_spec buf₆ packChecksum
    (total - 2 * packChecksum.length) (by rw [hlength₆, hchecksum]; omega)
  have hchecksumStart : total - 2 * packChecksum.length = trailerOf sorted := by
    rw [htotal, hchecksum, Nat.add_sub_cancel]
  rw [hchecksumStart] at hwithin₇
  refine ⟨bytes, ?_, ?_⟩
  · unfold serializePackIndex
    rw [hchecksum]
    dsimp only
    rw [assertValidSortedPackIndex_eq_ok hvalid hsorted]
    dsimp only [bind, Except.bind]
    have htotal' : 8 + 1024 + sorted.entries.count * sorted.entries.digestLength +
        sorted.entries.count * 4 + sorted.entries.count * 4 +
        largeCount sorted sorted.entries.count * 8 + 2 * sorted.entries.digestLength =
          total := htotal.symm
    rw [htotal', setUint32, hrun₁]
    dsimp only
    rw [setUint32, hrun₂]
    dsimp only
    simp only [setUint32]
    rw [hrun₃]
    dsimp only
    rw [hrun₄]
    dsimp only
    have hcrcStart : 8 + 1024 + sorted.entries.count * sorted.entries.digestLength =
        crcStartOf sorted := rfl
    have hoffsetStart' : crcStartOf sorted + sorted.entries.count * 4 = offsetStartOf sorted := rfl
    rw [hcrcStart, hrun₅]
    dsimp only
    rw [hoffsetStart', hrun₆]
    dsimp only
    rw [← hchecksum, hrun₇]
  · -- Every region is written once, and what is written later lies behind it.
    have hcrcStart : crcStartOf sorted = 1032 +
      sorted.entries.count * sorted.entries.digestLength := rfl
    have hlargeStart : largeStartOf sorted = offsetStartOf sorted + sorted.entries.count * 4 := rfl
    have hkeep₇ : ∀ {offset src}, Holds buf₆ offset src → offset + src.length ≤ trailerOf sorted →
        Holds bytes offset src := fun h hle => hwithin₇.holds h (.inl hle)
    have hkeep₆ : ∀ {offset src}, Holds buf₅ offset src →
        offset + src.length ≤ offsetStartOf sorted → Holds bytes offset src :=
      fun h hle => hkeep₇ (hwithin₆.holds h (.inl hle)) (by omega)
    have hkeep₅ : ∀ {offset src}, Holds buf₄ offset src →
        offset + src.length ≤ crcStartOf sorted → Holds bytes offset src :=
      fun h hle => hkeep₆ (hwithin₅.holds h (.inl hle)) (by omega)
    have hkeep₄ : ∀ {offset src}, Holds buf₃ offset src → offset + src.length ≤ 1032 →
        Holds bytes offset src :=
      fun h hle => hkeep₅ (hwithin₄.holds h (.inl hle)) (by omega)
    have hkeep₃ : ∀ {offset src}, Holds buf₂ offset src → offset + src.length ≤ 8 →
        Holds bytes offset src :=
      fun h hle => hkeep₄ (hwithin₃.holds h (.inl hle)) (by omega)
    have hfanout' : ∀ b < 256, Holds bytes (8 + b * 4)
        (uint32Bytes ((cumulate 0 (bucketCounts sorted sorted.entries.count)).getD b 0)) := by
      intro b hb
      refine hkeep₄ (hfanout b hb) ?_
      rw [hwordLength]
      omega
    have hids' : ∀ p < sorted.entries.count,
        Holds bytes (1032 + p * sorted.entries.digestLength) (oidAt sorted p) := by
      intro p hp
      have hend := hslot hp
      refine hkeep₅ (hids p hp) ?_
      rw [hidLength p hp]
      omega
    have hcrcs' : ∀ p < sorted.entries.count,
        Holds bytes (crcStartOf sorted + p * 4) (uint32Bytes (crcAt sorted p)) := by
      intro p hp
      refine hkeep₆ (hcrcs p hp) ?_
      rw [hwordLength]
      omega
    have hwords : ∀ p < sorted.entries.count,
        Holds bytes (offsetStartOf sorted + p * 4) (uint32Bytes (offsetWord sorted p)) := by
      intro p hp
      refine hkeep₇ (hoffsets.words p hp) ?_
      rw [hwordLength]
      omega
    have hlarges : ∀ p < sorted.entries.count, isLarge (offsetAt sorted p) = true →
        Holds bytes (largeStartOf sorted + largeCount sorted p * 8)
          (largeBytes (offsetAt sorted p)) := by
      intro p hp hlarge
      exact hkeep₇ (hoffsets.larges p hp hlarge) (largeEnd_le hp hlarge)
    exact
      { length_eq := (hwithin₇.length_eq.trans hlength₆).trans htotal
        magic := hkeep₃ (hwithin₂.holds hmagic (.inl (hheaderEnd _)))
          ((hheaderEnd _).trans (by decide))
        version := hkeep₃ hversion (Nat.add_le_add_left (hwordLength 2).le 4)
        fanout := hfanout'
        ids := hids'
        crcs := hcrcs'
        offsets := ⟨hwords, hlarges⟩ }

end Tsgit.Idx
