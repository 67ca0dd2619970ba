import Mathlib.Data.List.Count
import Tsgit.PackIndexRoundTrip

/-!
# Pack Indexes Stay in Bounds

A pack index that was parsed but never checked further. Up to `2 ^ 31` objects every search
halts; beyond, the search for the last object of an index in order does not.
-/

namespace Tsgit.Idx

open List OidTable Run

def Refuses (thrown : Thrown) : Prop := ∃ reason, thrown = .refusal (.invalidPackIndex reason)

theorem refuses {α : Type} {post : α → Prop} (reason : String) :
    Outcome Refuses post (.error (invalidPackIndex reason) : Except Thrown α) :=
  Outcome.error ⟨reason, rfl⟩

/-! ### The parser -/

/-- The fan-out up to a byte is not above `count`. -/
structure FanoutUpTo (bytes : Bytes) (stop count : ℕ) : Prop where
  last_eq : ∀ byte, byte + 1 = stop → getUint32 bytes (idxHeaderSize + byte * 4) = .ok count
  below : ∀ byte < stop, ∃ entry ≤ count, getUint32 bytes (idxHeaderSize + byte * 4) = .ok entry

variable {bytes : Bytes}

theorem validateFanoutMonotonicity_outcome (hroom : 1032 ≤ bytes.length) :
    Outcome Refuses (fun _ => ∃ count < 2 ^ 32, FanoutUpTo bytes 256 count)
      (validateFanoutMonotonicity bytes) := by
  have hloop : ∀ n ≤ 256, Outcome Refuses (FanoutUpTo bytes n) (forRange n (fun i prev => do
      let current ← getUint32 bytes (idxHeaderSize + i * 4)
      if current < prev then
        .error (invalidPackIndex s!"non-monotonic fanout at index {i}: {prev} > {current}")
      else pure current) 0) := by
    intro n hn
    refine forRange_outcome (FanoutUpTo bytes) ⟨fun byte hbyte => ?_, fun byte hbyte => ?_⟩
      fun i hi prev hprev => ?_
    · omega
    · omega
    obtain ⟨current, -, hcurrent⟩ := @getUint32_eq_ok bytes (idxHeaderSize + i * 4) (by
      rw [idxHeaderSize]
      omega)
    rw [hcurrent]
    refine .ite (fun _ => refuses _) fun hmono =>
      .pure ⟨fun byte hbyte => ?_, fun byte hbyte => ?_⟩
    · rwa [Nat.succ.inj hbyte]
    · rcases Nat.lt_succ_iff_lt_or_eq.mp hbyte with hlt | rfl
      · obtain ⟨entry, hentry, hget⟩ := hprev.below byte hlt
        exact ⟨entry, hentry.trans (Nat.not_lt.mp hmono), hget⟩
      · exact ⟨current, le_rfl, hcurrent⟩
  obtain ⟨stop, hstop⟩ : ∃ stop, stop = 256 := ⟨_, rfl⟩
  unfold validateFanoutMonotonicity
  rw [← hstop]
  refine (hloop stop hstop.le).bind fun count hcount => .pure ⟨count, ?_, hcount⟩
  exact getUint32_lt (hcount.last_eq 255 hstop.symm)

/-- The tables of an index lie one behind the other inside its buffer, and its fan-out stays within
the count. -/
structure InBounds (index : PackIndex) : Prop where
  count_lt : index.objectCount < 2 ^ 32
  fanout : ∀ byte < 256, ∃ count ≤ index.objectCount, readFanout index byte = .ok count
  fanoutLast : readFanout index 255 = .ok index.objectCount
  crc_eq : index.crc32TableOffset = shaSlotOffset index.objectCount index.digestLength
  small_eq : index.smallOffsetsTableOffset = index.crc32TableOffset + index.objectCount * 4
  large_eq : index.largeOffsetsTableOffset = index.smallOffsetsTableOffset + index.objectCount * 4
  large_le : index.largeOffsetsTableOffset ≤ index.trailerOffset
  length_eq : index.bytes.length = index.trailerOffset + idxTrailerSize index.digestLength

/-- **The parser** refuses with its typed error, or its index is in bounds. -/
theorem parsePackIndex_outcome (bytes : Bytes) (digestLength : ℕ) :
    Outcome Refuses (fun index => index.bytes = bytes ∧ index.digestLength = digestLength ∧
      InBounds index) (parsePackIndex bytes digestLength) := by
  unfold parsePackIndex
  refine .ite (fun _ => refuses _) fun hsize => ?_
  rw [idxHeaderSize, idxFanoutSize] at hsize
  refine (getUint32_outcome (by omega)).bind fun magic _ => .ite (fun _ => refuses _) fun _ => ?_
  refine (getUint32_outcome (by omega)).bind fun version _ => .ite (fun _ => refuses _) fun _ => ?_
  refine (validateFanoutMonotonicity_outcome (by omega)).bind fun _ hfanout => ?_
  obtain ⟨count, hlt, hfanout⟩ := hfanout
  have hlast : getUint32 bytes (idxHeaderSize + 255 * 4) = .ok count := hfanout.last_eq 255 rfl
  rw [hlast]
  refine .ite (fun _ => refuses _) fun hroom => .pure ⟨rfl, rfl, ?_⟩
  exact
    { count_lt := hlt
      fanout := hfanout.below
      fanoutLast := hlast
      crc_eq := rfl
      small_eq := rfl
      large_eq := rfl
      large_le := by dsimp only; omega
      length_eq := by dsimp only; omega }

/-! ### Own tables -/

/-- Two buffers of one length that agree in a region. -/
structure Agree (a b : Bytes) (start stop : ℕ) : Prop where
  length_eq : a.length = b.length
  getElem?_eq : ∀ i, start ≤ i → i < stop → a[i]? = b[i]?

section

variable {a b : Bytes} {start stop : ℕ}

theorem Agree.subarray_eq (h : Agree a b start stop) {first last : ℕ} (hfirst : start ≤ first)
    (hlast : last ≤ stop) : subarray a first last = subarray b first last := by
  refine ext_getElem? fun i => ?_
  rw [subarray, subarray, getElem?_take, getElem?_take, getElem?_drop, getElem?_drop]
  split
  · exact h.getElem?_eq (first + i) (by omega) (by omega)
  · rfl

theorem Agree.getUint32_eq (h : Agree a b start stop) {offset : ℕ} (hstart : start ≤ offset)
    (hstop : offset + 4 ≤ stop) : getUint32 a offset = getUint32 b offset := by
  rw [getUint32, getUint32, h.length_eq, h.subarray_eq hstart hstop]

theorem Agree.compareWindows_eq (h : Agree a b start stop) {target : Bytes} {offset : ℕ}
    (hstart : start ≤ offset) (targetStart : ℕ) {length : ℕ} (hstop : offset + length ≤ stop) :
    compareWindows a offset target targetStart length =
      compareWindows b offset target targetStart length := by
  induction length generalizing offset targetStart with
  | zero => rfl
  | succ length ih =>
    rw [compareWindows, compareWindows, h.getElem?_eq offset hstart (by omega),
      @ih (offset + 1) (by omega) (targetStart + 1) (by omega)]

end

def PackIndex.withBytes (index : PackIndex) (bytes : Bytes) : PackIndex :=
  { index with bytes := bytes }

/-- The reads of an index stay in the tables they are meant for, and depend on these only. -/
structure OwnTables (index : PackIndex) : Prop where
  offset : ∀ i < index.objectCount, Outcome Refuses (fun _ => True) (readOffset index i)
  offsetReads : ∀ i < index.objectCount, ∀ bytes,
    Agree bytes index.bytes (index.smallOffsetsTableOffset + i * 4)
      (index.smallOffsetsTableOffset + i * 4 + 4) →
    Agree bytes index.bytes index.largeOffsetsTableOffset index.trailerOffset →
      readOffset (index.withBytes bytes) i = readOffset index i
  lookup : ∀ id, IsObjectId id → EndsIn Refuses (fun _ => True) (lookupPackIndex · index id)
  searchReads : ∀ fuel targetBytes bytes,
    Agree bytes index.bytes idxHeaderSize index.crc32TableOffset →
      searchIndexPosition fuel (index.withBytes bytes) targetBytes =
        searchIndexPosition fuel index targetBytes
  byPrefix : ∀ hexPrefix, EndsIn Refuses (fun _ => True) (findByPrefix · index hexPrefix)
  byPrefixReads : ∀ fuel hexPrefix bytes,
    Agree bytes index.bytes idxHeaderSize index.crc32TableOffset →
      findByPrefix fuel (index.withBytes bytes) hexPrefix = findByPrefix fuel index hexPrefix
  inside : index.crc32TableOffset ≤ index.smallOffsetsTableOffset ∧
    index.smallOffsetsTableOffset + index.objectCount * 4 ≤ index.largeOffsetsTableOffset ∧
    index.largeOffsetsTableOffset ≤ index.trailerOffset ∧ index.trailerOffset ≤ index.bytes.length

section

variable {index : PackIndex}

theorem readOffset_outcome (h : InBounds index) {i : ℕ} (hi : i < index.objectCount) :
    Outcome Refuses (fun _ => True) (readOffset index i) := by
  have hlarge := h.large_eq
  have hle := h.large_le
  have hlength := h.length_eq
  unfold readOffset
  refine (getUint32_outcome (by omega)).bind fun raw _ => .ite (fun _ => ?_) fun _ => .pure trivial
  refine .ite (fun _ => refuses _) fun hrange => ?_
  refine (getUint32_outcome (by omega)).bind fun high _ => ?_
  refine (getUint32_outcome (by omega)).bind fun low _ => ?_
  exact .ite (fun _ => refuses _) fun _ => .pure trivial

theorem readOffset_reads {i : ℕ}
    (hsmall : Agree bytes index.bytes (index.smallOffsetsTableOffset + i * 4)
      (index.smallOffsetsTableOffset + i * 4 + 4))
    (hlarge : Agree bytes index.bytes index.largeOffsetsTableOffset index.trailerOffset) :
    readOffset (index.withBytes bytes) i = readOffset index i := by
  have hraw : getUint32 bytes (index.smallOffsetsTableOffset + i * 4) =
      getUint32 index.bytes (index.smallOffsetsTableOffset + i * 4) :=
    hsmall.getUint32_eq le_rfl le_rfl
  unfold readOffset PackIndex.withBytes
  dsimp only
  rw [hraw]
  refine congrArg (_ >>= ·) (funext fun raw => ?_)
  split
  · split
    · rfl
    · next hrange =>
      rw [hlarge.getUint32_eq (Nat.le_add_right _ _) (by omega),
        hlarge.getUint32_eq (by omega) (by omega)]
  · rfl

theorem readFanout_reads (h : InBounds index)
    (hagree : Agree bytes index.bytes idxHeaderSize index.crc32TableOffset) {byte : ℕ}
    (hbyte : byte < 256) : readFanout (index.withBytes bytes) byte = readFanout index byte := by
  have hcrc := h.crc_eq
  rw [shaSlotOffset, idxShaTableOffset] at hcrc
  exact hagree.getUint32_eq (Nat.le_add_right _ _) (by rw [idxHeaderSize]; omega)

theorem compareShaAtIndex_reads (h : InBounds index)
    (hagree : Agree bytes index.bytes idxHeaderSize index.crc32TableOffset) {i : ℕ}
    (hi : i < index.objectCount) (targetBytes : Bytes) :
    compareShaAtIndex (index.withBytes bytes) i targetBytes =
      compareShaAtIndex index i targetBytes := by
  have hcrc := h.crc_eq
  have hslot : i * index.digestLength + index.digestLength ≤
      index.objectCount * index.digestLength := by
    rw [← Nat.succ_mul]
    exact Nat.mul_le_mul_right _ hi
  rw [shaSlotOffset, idxShaTableOffset] at hcrc
  refine hagree.compareWindows_eq ?_ 0 ?_
  · rw [shaSlotOffset, idxShaTableOffset, idxHeaderSize]
    dsimp only [PackIndex.withBytes]
    omega
  · rw [shaSlotOffset, idxShaTableOffset]
    dsimp only [PackIndex.withBytes]
    omega

theorem objectIdAt_reads (h : InBounds index)
    (hagree : Agree bytes index.bytes idxHeaderSize index.crc32TableOffset) {i : ℕ}
    (hi : i < index.objectCount) :
    objectIdAt (index.withBytes bytes) i = objectIdAt index i := by
  have hcrc := h.crc_eq
  have hslot : i * index.digestLength + index.digestLength ≤
      index.objectCount * index.digestLength := by
    rw [← Nat.succ_mul]
    exact Nat.mul_le_mul_right _ hi
  rw [shaSlotOffset, idxShaTableOffset] at hcrc
  refine congrArg bytesToHex (hagree.subarray_eq ?_ ?_)
  · rw [shaSlotOffset, idxShaTableOffset, idxHeaderSize]
    dsimp only [PackIndex.withBytes]
    omega
  · rw [shaSlotOffset, idxShaTableOffset]
    dsimp only [PackIndex.withBytes]
    omega

theorem searchIndexPosition_reads (h : InBounds index)
    (hagree : Agree bytes index.bytes idxHeaderSize index.crc32TableOffset) (fuel : ℕ)
    (targetBytes : Bytes) :
    searchIndexPosition fuel (index.withBytes bytes) targetBytes =
      searchIndexPosition fuel index targetBytes := by
  have hfanout : ∀ byte < 256, ∃ count ≤ index.objectCount,
      readFanout (index.withBytes bytes) byte = .ok count := by
    intro byte hbyte
    rw [readFanout_reads h hagree hbyte]
    exact h.fanout byte hbyte
  exact searchPosition_congr hfanout (fun byte hbyte => readFanout_reads h hagree hbyte)
    fun i hi => compareShaAtIndex_reads h hagree hi targetBytes

theorem exists_range (h : InBounds index) (lower upper : Bytes) :
    ∃ lo ≤ index.objectCount, ∃ hi ≤ index.objectCount,
      (if byteAt lower 0 = 0 then .ok 0 else readFanout index (byteAt lower 0 - 1)) = Except.ok lo ∧
        readFanout index (byteAt upper 0) = .ok hi := by
  obtain ⟨hi, hhi, hok⟩ := h.fanout _ (byteAt_lt upper 0)
  have hlt := byteAt_lt lower 0
  by_cases hzero : byteAt lower 0 = 0
  · exact ⟨0, Nat.zero_le _, hi, hhi, if_pos hzero, hok⟩
  · obtain ⟨lo, hlo, hok'⟩ := h.fanout (byteAt lower 0 - 1) (by omega)
    exact ⟨lo, hlo, hi, hhi, (if_neg hzero).trans hok', hok⟩

/-- A search by prefix, from its range on. -/
def findBetween (fuel : ℕ) (index : PackIndex) (lower upper : Bytes) (lo hi : ℕ) :
    Run Thrown (List Text) := do
  let lowerBound ← findLowerBound fuel index lo hi lower
  let upperBound ← findUpperBound fuel index lo hi upper
  pure ((List.range' lowerBound (upperBound - lowerBound)).map (objectIdAt index))

/-- A search by prefix refuses, or it looks for two ids in a range. -/
theorem findByPrefix_cases (h : InBounds index) (hexPrefix : Text) :
    (∃ reason, ∀ fuel bytes, findByPrefix fuel (index.withBytes bytes) hexPrefix =
        throw (invalidPackIndex reason)) ∨
      ∃ lower upper lo hi, lo ≤ index.objectCount ∧ hi ≤ index.objectCount ∧
        ∀ fuel bytes, Agree bytes index.bytes idxHeaderSize index.crc32TableOffset →
          findByPrefix fuel (index.withBytes bytes) hexPrefix =
            findBetween fuel (index.withBytes bytes) lower upper lo hi := by
  have hwidth : ∀ bytes, (index.withBytes bytes).digestLength = index.digestLength := fun _ => rfl
  by_cases hmin : hexPrefix.length < 4
  · exact .inl ⟨_, fun fuel bytes => if_pos hmin⟩
  by_cases hmax : hexPrefix.length > hexCharsFor index.digestLength
  · refine .inl ⟨
      s!"prefix too long: maximum {hexCharsFor index.digestLength} hex chars, got {hexPrefix.length}",
      fun fuel bytes => ?_⟩
    unfold findByPrefix
    dsimp only
    rw [if_neg hmin, hwidth, if_pos hmax]
  · by_cases hdigits : hexPrefix.all isHexDigit = true
    · have hall := all_eq_true.mp hdigits
      obtain ⟨lower, hlower, -, -⟩ := hexToBytes_padEnd (Nat.not_lt.mp hmax) hall
        (by decide : isHexDigit '0' = true)
      obtain ⟨upper, hupper, -, -⟩ := hexToBytes_padEnd (Nat.not_lt.mp hmax) hall
        (by decide : isHexDigit 'f' = true)
      obtain ⟨lo, hlo, hi, hhi, hlower', hupper'⟩ := exists_range h lower upper
      refine .inr ⟨lower, upper, lo, hi, hlo, hhi, fun fuel bytes hagree => ?_⟩
      have hread : ∀ byte < 256, readFanout (index.withBytes bytes) byte =
          readFanout index byte := fun byte hbyte => readFanout_reads h hagree hbyte
      have hlt := byteAt_lt lower 0
      unfold findByPrefix
      dsimp only
      rw [hwidth, if_neg hmin, if_neg hmax, if_neg (not_not_intro hdigits), hlower, hupper,
        ofExcept_ok, pure_bind, ofExcept_ok, pure_bind,
        hread (byteAt lower 0 - 1) (by omega), hlower', ofExcept_ok, pure_bind,
        hread _ (byteAt_lt upper 0), hupper', ofExcept_ok, pure_bind]
      rfl
    · refine .inl ⟨"prefix contains non-hex characters", fun fuel bytes => ?_⟩
      unfold findByPrefix
      dsimp only
      rw [if_neg hmin, hwidth, if_neg hmax, if_pos hdigits]

theorem findBetween_reads (h : InBounds index)
    (hagree : Agree bytes index.bytes idxHeaderSize index.crc32TableOffset) (fuel : ℕ)
    (lower upper : Bytes) {lo hi : ℕ} (hlo : lo ≤ index.objectCount)
    (hhi : hi ≤ index.objectCount) :
    findBetween fuel (index.withBytes bytes) lower upper lo hi =
      findBetween fuel index lower upper lo hi := by
  have hcompare : ∀ i < hi, ∀ target, compareShaAtIndex (index.withBytes bytes) i target =
      compareShaAtIndex index i target := fun i hi' target =>
    compareShaAtIndex_reads h hagree (hi'.trans_le hhi) target
  have hlower : findLowerBound fuel (index.withBytes bytes) lo hi lower =
      findLowerBound fuel index lo hi lower :=
    BinarySearch.partitionPoint_congr fuel fun i hi' => by rw [hcompare i hi']
  have hupper : findUpperBound fuel (index.withBytes bytes) lo hi upper =
      findUpperBound fuel index lo hi upper :=
    BinarySearch.partitionPoint_congr fuel fun i hi' => by rw [hcompare i hi']
  unfold findBetween
  rw [hlower, hupper]
  refine bind_congr_of fun lowerBound _ => bind_congr_of fun upperBound hrun => ?_
  obtain ⟨point, hpoint, hok⟩ := BinarySearch.partitionPoint_found fuel hlo hhi hrun
  cases hok
  refine congrArg pure (map_congr_left fun i hi' => objectIdAt_reads h hagree ?_)
  have := mem_range'_1.mp hi'
  omega

theorem withBytes_self (index : PackIndex) : index.withBytes index.bytes = index := rfl

theorem Agree.refl (a : Bytes) (start stop : ℕ) : Agree a a start stop :=
  ⟨rfl, fun _ _ _ => rfl⟩

/-- **The reads of an index that is in bounds** stay in their tables. -/
theorem ownTables_of_inBounds (h : InBounds index) : OwnTables index where
  offset _ hi := readOffset_outcome h hi
  offsetReads _ _ _ hsmall hlarge := readOffset_reads hsmall hlarge
  lookup id hid := by
    obtain ⟨targetBytes, hbytes, -⟩ := hid.toBytes
    unfold lookupPackIndex
    rw [hbytes]
    refine (EndsIn.ofExcept (Outcome.ok (Eq.refl targetBytes))).bind ?_
    rintro _ rfl
    have hsearch : EndsIn Refuses (fun answer => ∀ position, answer = some position →
        position < index.objectCount) (searchIndexPosition · index targetBytes) := by
      intro fuel result hrun
      obtain ⟨answer, rfl, hanswer⟩ := searchPosition_found h.fanout hrun
      exact Outcome.ok fun position hposition => (hanswer position hposition).1
    refine hsearch.bind fun answer hanswer => ?_
    cases answer with
    | none => exact EndsIn.pure trivial
    | some position =>
      refine (EndsIn.ofExcept (readOffset_outcome h (hanswer position rfl))).bind
        fun offset _ => ?_
      exact EndsIn.pure trivial
  searchReads fuel targetBytes _ hagree := searchIndexPosition_reads h hagree fuel targetBytes
  byPrefix hexPrefix := by
    intro fuel result hrun
    dsimp only at hrun
    rcases findByPrefix_cases h hexPrefix with ⟨reason, hthrow⟩ | ⟨lower, upper, lo, hi, hlo, hhi,
      hfind⟩
    · have hself := hthrow fuel index.bytes
      rw [withBytes_self] at hself
      rw [hself] at hrun
      cases hrun
      exact refuses reason
    have hself := hfind fuel index.bytes (Agree.refl _ _ _)
    rw [withBytes_self] at hself
    rw [hself] at hrun
    have hends : EndsIn Refuses (fun _ => True)
        (findBetween · index lower upper lo hi) := by
      have hpart : ∀ before, EndsIn Refuses (fun _ => True)
          (fun fuel => (BinarySearch.partitionPoint before fuel lo hi : Run Thrown ℕ)) := by
        intro before fuel result hrun
        obtain ⟨point, -, rfl⟩ := BinarySearch.partitionPoint_found fuel hlo hhi hrun
        exact Outcome.ok trivial
      refine (hpart _).bind fun lowerBound _ => (hpart _).bind fun upperBound _ => ?_
      exact EndsIn.pure trivial
    exact hends fuel result hrun
  byPrefixReads fuel hexPrefix bytes hagree := by
    rcases findByPrefix_cases h hexPrefix with ⟨reason, hthrow⟩ | ⟨lower, upper, lo, hi, hlo, hhi,
      hfind⟩
    · have hself := hthrow fuel index.bytes
      rw [withBytes_self] at hself
      rw [hself, hthrow]
    · have hself := hfind fuel index.bytes (Agree.refl _ _ _)
      rw [withBytes_self] at hself
      rw [hself, hfind fuel bytes hagree, findBetween_reads h hagree fuel lower upper hlo hhi]
  inside := by
    have hsmall := h.small_eq
    have hlarge := h.large_eq
    have hle := h.large_le
    have hlength := h.length_eq
    omega

end

/-! ### Halting -/

/-- Every lookup and every search by prefix halts. -/
structure Halting (index : PackIndex) : Prop where
  lookup : ∀ id, IsObjectId id → Halts (lookupPackIndex · index id)
  byPrefix : ∀ hexPrefix, Halts (findByPrefix · index hexPrefix)

section

variable {index : PackIndex}

theorem halting_of_le (h : InBounds index) (hcount : index.objectCount ≤ 2 ^ 31) :
    Halting index where
  lookup id hid := by
    obtain ⟨targetBytes, hbytes, -⟩ := hid.toBytes
    unfold lookupPackIndex
    simp only [hbytes, ofExcept_ok, pure_bind]
    refine (searchPosition_halts hcount h.fanout).bind fun answer => ?_
    cases answer with
    | none => exact Halts.ofExcept (.ok none)
    | some position =>
      exact (Halts.ofExcept (readOffset index position)).bind fun offset =>
        Halts.ofExcept (.ok (some offset))
  byPrefix hexPrefix := by
    rcases findByPrefix_cases h hexPrefix with ⟨reason, hthrow⟩ | ⟨lower, upper, lo, hi, hlo, hhi,
      hfind⟩
    · exact ⟨0, _, fun fuel _ => hthrow fuel index.bytes⟩
    have hself : ∀ fuel, findByPrefix fuel index hexPrefix =
        findBetween fuel index lower upper lo hi := fun fuel =>
      hfind fuel index.bytes (Agree.refl _ _ _)
    simp only [hself]
    refine (BinarySearch.partitionPoint_halts _ (hhi.trans hcount)).bind fun lowerBound => ?_
    refine (BinarySearch.partitionPoint_halts _ (hhi.trans hcount)).bind fun upperBound => ?_
    exact Halts.ofExcept (.ok _)

end

/-- **Of every buffer**: refused, or an index whose reads stay in their tables. All its searches
halt if it has up to `2 ^ 31` objects, as every index has that the loader takes. -/
theorem parsePackIndex_safe (bytes : Bytes) (digestLength : ℕ) :
    (∃ thrown, parsePackIndex bytes digestLength = .error thrown ∧ Refuses thrown) ∨
      ∃ index, parsePackIndex bytes digestLength = .ok index ∧ index.bytes = bytes ∧
        OwnTables index ∧ (index.objectCount ≤ 2 ^ 31 → Halting index) ∧
        ∀ size read, readBoundedIdx size bytes = .ok read → Halting index := by
  rcases (parsePackIndex_outcome bytes digestLength).elim with hrefused | haccepted
  · exact .inl hrefused
  obtain ⟨index, hok, hbytes, -, hin⟩ := haccepted
  have hhalting := halting_of_le hin
  refine .inr ⟨index, hok, hbytes, ownTables_of_inBounds hin, hhalting,
    fun size read hread => hhalting ?_⟩
  -- four bytes of each object stand in the table of the offsets
  have hfits := length_le_of_readBoundedIdx hread
  have hlength := hin.length_eq
  have hlarge := hin.large_eq
  have hinside := hin.large_le
  rw [hbytes] at hlength
  omega

end Tsgit.Idx
