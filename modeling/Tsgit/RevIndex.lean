import Tsgit.Dict
import Tsgit.PackIndexRoundTrip

/-!
# Reverse Indexes and the Times of Cruft Packs

`src/domain/storage/rev-index.ts`, `src/domain/storage/cruft-pack.ts`, the offset table of
`src/application/primitives/internal/pack-offset-table.ts`, and the builders of
`write-pack-artifacts.ts` that fill the last checksum of a file with the hash of what is in
front of it.
-/

namespace Tsgit.Idx

open List

inductive SortedPackIndexDefect
  | hashId
  | size
  | count
  deriving DecidableEq

def assertValidSortedPackIndexBy (sorted : SortedPackIndex) (digestLength : ℕ)
    (fail : SortedPackIndexDefect → String → Thrown) : Except Thrown Unit :=
  let entries := sorted.entries
  if digestLength ≠ 20 ∧ digestLength ≠ 32 then
    .error (fail .hashId s!"packChecksum must be 20 or 32 bytes, got {digestLength}")
  else if entries.digestLength ≠ digestLength then
    .error (fail .hashId s!"entries digestLength {entries.digestLength} does not match packChecksum length {digestLength}")
  else if entries.oids.length < entries.count * digestLength then
    .error (fail .size s!"oids too short: need {entries.count * digestLength}, got {entries.oids.length}")
  else if entries.crcValues.length < entries.count then
    .error (fail .size s!"crcValues too short: need {entries.count}, got {entries.crcValues.length}")
  else if entries.offsets.length < entries.count then
    .error (fail .size s!"offsets too short: need {entries.count}, got {entries.offsets.length}")
  else if sorted.order.length ≠ entries.count then
    .error (fail .count s!"order length {sorted.order.length} does not match entries count {entries.count}")
  else .ok ()

/-! ### Tables of words -/

def wordTableHeaderSize : ℕ := 12

/-- What the writers of both files do once the gate has passed: header, one word for each of
`count` objects, the checksum of the pack, and zeros for the one of the file. -/
def writeWordTable (magic count : ℕ) (word : ℕ → ℕ) (packChecksum : Bytes) : Except Thrown Bytes := do
  let digestLength := packChecksum.length
  let hashId := if digestLength = 32 then 2 else 1
  let bytes := replicate (wordTableHeaderSize + 4 * count + 2 * digestLength) 0
  let bytes ← setUint32 bytes 0 magic
  let bytes ← setUint32 bytes 4 1
  let bytes ← setUint32 bytes 8 hashId
  let bytes ← forRange count
    (fun p bytes => setUint32 bytes (wordTableHeaderSize + p * 4) (word p)) bytes
  setBytes bytes packChecksum (wordTableHeaderSize + 4 * count)

/-- A gate that both parsers have. -/
inductive HeaderCheck
  | signature
  | version
  | hashId
  deriving DecidableEq

/-- The gates of both parsers on the header, up to the hash that it names. -/
def parseWordTableHeader (magic : ℕ) (refuse : HeaderCheck → String → Thrown) (bytes : Bytes) :
    Except Thrown ℕ := do
  let signature ← getUint32 bytes 0
  if signature ≠ magic then
    .error (refuse .signature
      s!"invalid signature: expected 0x{hexWord magic}, got 0x{hexWord signature}")
  else
    let version ← getUint32 bytes 4
    if version ≠ 1 then
      .error (refuse .version s!"unsupported version: expected 1, got {version}")
    else
      let hashId ← getUint32 bytes 8
      if hashId ≠ 1 ∧ hashId ≠ 2 then
        .error (refuse .hashId s!"unsupported hash id: expected 1 or 2, got {hashId}")
      else pure hashId

/-- The builders: the hash of everything in front of the last checksum is written there. -/
def fillTrailer (hash : Bytes → Bytes) (digestLength : ℕ) (bytes : Bytes) : Except Thrown Bytes :=
  let trailerStart := bytes.length - digestLength
  setBytes bytes (hash (subarray bytes 0 trailerStart)) trailerStart

def buildIdx (hash : Bytes → Bytes) (sorted : SortedPackIndex) (packChecksum : Bytes) :
    Except Thrown Bytes := do
  let body ← serializePackIndex sorted packChecksum
  fillTrailer hash packChecksum.length body

/-! ### The reverse index -/

def revMagic : ℕ := 0x52494458

structure PackRevIndex where
  hashId : ℕ
  digestLength : ℕ
  objectCount : ℕ
  packChecksum : Bytes
  bytes : Bytes
  deriving DecidableEq

def invalidPackRevIndex (check : RevIndexCheck) (reason : String) : Thrown :=
  .refusal (.invalidPackRevIndex check reason)

/-- The gates of the header, as a reverse index names them. -/
def revHeaderCheck : HeaderCheck → RevIndexCheck
  | .signature => .signature
  | .version => .version
  | .hashId => .hashId

def parsePackRevIndex (bytes : Bytes) (digestLength objectCount : ℕ) :
    Except Thrown PackRevIndex := do
  if bytes.length < wordTableHeaderSize + 2 * digestLength then
    .error (invalidPackRevIndex .size "reverse index is too small")
  else
    let hashId ← parseWordTableHeader revMagic (fun check => invalidPackRevIndex (revHeaderCheck check))
      bytes
    if bytes.length ≠ wordTableHeaderSize + 4 * objectCount + 2 * digestLength then
      .error (invalidPackRevIndex .size "reverse index is corrupt")
    else
      let checksumStart := wordTableHeaderSize + 4 * objectCount
      pure ⟨hashId, digestLength, objectCount,
        subarray bytes checksumStart (checksumStart + digestLength), bytes⟩

/-- A count that disagrees is a failure of size here. -/
def revDefect : SortedPackIndexDefect → RevIndexCheck
  | .count => .size
  | .size => .size
  | .hashId => .hashId

def packPositionsByOffset (sorted : SortedPackIndex) : List ℕ :=
  (range sorted.entries.count).insertionSort fun a b =>
    (offsetAt sorted a : ℤ) - offsetAt sorted b ≤ 0

def serializePackRevIndex (sorted : SortedPackIndex) (packChecksum : Bytes) :
    Except Thrown Bytes := do
  assertValidSortedPackIndexBy sorted packChecksum.length fun defect =>
    invalidPackRevIndex (revDefect defect)
  let body := packPositionsByOffset sorted
  writeWordTable revMagic sorted.entries.count (body.getD · 0) packChecksum

def buildRev (hash : Bytes → Bytes) (sorted : SortedPackIndex) (packChecksum : Bytes) :
    Except Thrown Bytes := do
  let bytes ← serializePackRevIndex sorted packChecksum
  fillTrailer hash packChecksum.length bytes

def revIndexPositionAt (rev : PackRevIndex) (p : ℕ) : Except Thrown ℕ :=
  if p ≥ rev.objectCount then
    .error (invalidPackRevIndex .size
      s!"pack position {p} out of range for {rev.objectCount} objects")
  else getUint32 rev.bytes (wordTableHeaderSize + p * 4)

def offsetAtPackPosition (index : PackIndex) (rev : PackRevIndex) (p : ℕ) :
    Except Thrown (Option ℕ) := do
  let indexPosition ← revIndexPositionAt rev p
  if indexPosition ≥ index.objectCount then pure none
  else
    let offset ← readOffset index indexPosition
    pure (some offset)

def entryOffsetsF64 (index : PackIndex) : Except Thrown (List ℕ) :=
  (range index.objectCount).mapM (readOffset index)

/-- The offsets in order, computed from the index alone. -/
def buildSortedTable (index : PackIndex) : Except Thrown (List ℕ) := do
  let offsets ← entryOffsetsF64 index
  pure (offsets.insertionSort (· ≤ ·))

/-! ### The times of a cruft pack -/

def cruftMtimesMagic : ℕ := 0x4d544d45

def invalidCruftMtimes (check : CruftMtimesCheck) (reason : String) : Thrown :=
  .refusal (.invalidCruftMtimes check reason)

def cruftHeaderCheck : HeaderCheck → CruftMtimesCheck
  | .signature => .signature
  | .version => .version
  | .hashId => .hashId

def cruftDefect : SortedPackIndexDefect → CruftMtimesCheck
  | .count => .count
  | .size => .size
  | .hashId => .hashId

/-- A time is an integer; its word is what is left of it in 32 bits. -/
def timeWord (mtime : ℤ) : ℕ := (mtime % 2 ^ 32).toNat

def serializeCruftMtimes (sorted : SortedPackIndex) (packChecksum : Bytes) (mtimeAt : ℕ → ℤ) :
    Except Thrown Bytes := do
  assertValidSortedPackIndexBy sorted packChecksum.length fun defect =>
    invalidCruftMtimes (cruftDefect defect)
  writeWordTable cruftMtimesMagic sorted.entries.count
    (fun p => timeWord (mtimeAt (entryAt sorted p))) packChecksum

def buildCruftMtimes (hash : Bytes → Bytes) (sorted : SortedPackIndex) (packChecksum : Bytes)
    (mtimeAt : ℕ → ℤ) : Except Thrown Bytes := do
  let bytes ← serializeCruftMtimes sorted packChecksum mtimeAt
  fillTrailer hash packChecksum.length bytes

def assertSelfChecksum (bytes : Bytes) (digestLength objectCount : ℕ)
    (selfChecksum : Option Bytes) : Except Thrown Unit :=
  match selfChecksum with
  | none => .ok ()
  | some selfChecksum =>
    let trailerStart := wordTableHeaderSize + 4 * objectCount + digestLength
    let stored := subarray bytes trailerStart (trailerStart + digestLength)
    if stored ≠ selfChecksum then
      .error (invalidCruftMtimes .checksum "self-checksum mismatch")
    else .ok ()

def parseCruftMtimes (bytes : Bytes) (oidsInIndexOrder : List Text) (selfChecksum : Option Bytes) :
    Except Thrown (Dict Text ℕ) := do
  if bytes.length < wordTableHeaderSize then
    .error (invalidCruftMtimes .size "cruft mtimes file is too small")
  else
    let hashId ← parseWordTableHeader cruftMtimesMagic
      (fun check => invalidCruftMtimes (cruftHeaderCheck check)) bytes
    let digestLength := if hashId = 2 then 32 else 20
    let objectCount := oidsInIndexOrder.length
    if bytes.length ≠ wordTableHeaderSize + 4 * objectCount + 2 * digestLength then
      .error (invalidCruftMtimes .count
        s!"object count disagrees with the .idx: expected {objectCount} entries, got a {bytes.length}-byte file")
    else
      assertSelfChecksum bytes digestLength objectCount selfChecksum
      forRange objectCount (fun indexPosition mtimes => do
        let mtime ← getUint32 bytes (wordTableHeaderSize + indexPosition * 4)
        pure (mtimes.insert (oidsInIndexOrder.getD indexPosition []) mtime)) Dict.empty

/-- The checksum that the reader computes for the file, of the width that its header names. -/
def candidateSelfChecksum (hash : Bytes → Bytes) (bytes : Bytes) (objectCount : ℕ) :
    Except Thrown (Option Bytes) := do
  if bytes.length < wordTableHeaderSize then pure none
  else
    let hashId ← getUint32 bytes 8
    if hashId ≠ 1 ∧ hashId ≠ 2 then pure none
    else
      let digestLength := if hashId = 1 then 20 else 32
      let trailerStart := wordTableHeaderSize + 4 * objectCount + digestLength
      if bytes.length ≠ trailerStart + digestLength then pure none
      else pure (some (hash (subarray bytes 0 trailerStart)))

def allObjectIds (index : PackIndex) : List Text :=
  (range index.objectCount).map (objectIdAt index)

def readCruftMtimes (hash : Bytes → Bytes) (index : PackIndex) (bytes : Bytes) :
    Except Thrown (Dict Text ℕ) := do
  let oidsInIndexOrder := allObjectIds index
  let selfChecksum ← candidateSelfChecksum hash bytes oidsInIndexOrder.length
  parseCruftMtimes bytes oidsInIndexOrder selfChecksum

/-! ### What the files hold -/

/-- What a table of words holds. -/
structure WordTable (magic count : ℕ) (word : ℕ → ℕ) (digestLength : ℕ) (bytes : Bytes) : Prop where
  length_eq : bytes.length = wordTableHeaderSize + 4 * count + 2 * digestLength
  magic_held : Holds bytes 0 (uint32Bytes magic)
  version_held : Holds bytes 4 (uint32Bytes 1)
  hashId_held : Holds bytes 8 (uint32Bytes (if digestLength = 32 then 2 else 1))
  words : ∀ p < count, Holds bytes (wordTableHeaderSize + p * 4) (uint32Bytes (word p))

section

variable {magic count digestLength : ℕ} {word : ℕ → ℕ} {packChecksum bytes : Bytes}
  {hash : Bytes → Bytes}

theorem writeWordTable_spec (magic count : ℕ) (word : ℕ → ℕ) (packChecksum : Bytes) :
    ∃ bytes, writeWordTable magic count word packChecksum = .ok bytes ∧
      WordTable magic count word packChecksum.length bytes := by
  have hword (value : ℕ) : (uint32Bytes value).length = 4 := rfl
  have hheader : wordTableHeaderSize = 12 := rfl
  obtain ⟨total, htotal⟩ : ∃ total, total =
      wordTableHeaderSize + 4 * count + 2 * packChecksum.length := ⟨_, rfl⟩
  have hlength₀ : (replicate total (0 : UInt8)).length = total := length_replicate
  obtain ⟨buf₁, hrun₁, hmagic, hwithin₁⟩ := @setBytes_spec (replicate total 0)
    (uint32Bytes magic) 0 (by rw [hword, hlength₀]; omega)
  obtain ⟨buf₂, hrun₂, hversion, hwithin₂⟩ := @setBytes_spec buf₁ (uint32Bytes 1) 4
    (by rw [hword, hwithin₁.length_eq, hlength₀]; omega)
  obtain ⟨buf₃, hrun₃, hhash, hwithin₃⟩ := @setBytes_spec buf₂
    (uint32Bytes (if packChecksum.length = 32 then 2 else 1)) 8
    (by rw [hword, hwithin₂.length_eq, hwithin₁.length_eq, hlength₀]; omega)
  have hlength₃ : buf₃.length = total := by
    rw [hwithin₃.length_eq, hwithin₂.length_eq, hwithin₁.length_eq, hlength₀]
  obtain ⟨buf₄, hrun₄, hwords, hwithin₄⟩ := @writeTable_spec count 4 wordTableHeaderSize
    (fun p => uint32Bytes (word p)) buf₃ (fun _ _ => rfl) (by omega)
  obtain ⟨bytes, hrun₅, -, hwithin₅⟩ := @setBytes_spec buf₄ packChecksum
    (wordTableHeaderSize + 4 * count) (by rw [hwithin₄.length_eq, hlength₃]; omega)
  rw [hword] at hwithin₁ hwithin₂ hwithin₃
  refine ⟨bytes, ?_, ?_⟩
  · rw [writeWordTable, ← htotal]
    refine (ok_bind_eq hrun₁).trans ((ok_bind_eq hrun₂).trans ((ok_bind_eq hrun₃).trans ?_))
    exact (ok_bind_eq hrun₄).trans hrun₅
  -- The header lies in front of the words, and these in front of the checksum.
  have hkeep {offset value : ℕ} (h : Holds buf₃ offset (uint32Bytes value))
      (hfront : offset + 4 ≤ wordTableHeaderSize) : Holds bytes offset (uint32Bytes value) :=
    hwithin₅.holds (hwithin₄.holds h (.inl (by rw [hword]; omega))) (.inl (by rw [hword]; omega))
  refine ⟨?_, ?_, ?_, hkeep hhash (by omega), fun p hp => ?_⟩
  · rw [hwithin₅.length_eq, hwithin₄.length_eq, hlength₃, htotal]
  · exact hkeep (hwithin₃.holds (hwithin₂.holds hmagic (.inl (by rw [hword])))
      (.inl (by rw [hword]; omega))) (by omega)
  · exact hkeep (hwithin₃.holds hversion (.inl (by rw [hword]))) (by omega)
  · exact hwithin₅.holds (hwords p hp) (.inl (by rw [hword]; omega))

/-- The last checksum is written behind everything else. -/
theorem fillTrailer_spec (hhash : ∀ front, (hash front).length = digestLength)
    (hfits : digestLength ≤ bytes.length) :
    ∃ after, fillTrailer hash digestLength bytes = .ok after ∧
      ChangedWithin (bytes.length - digestLength) bytes.length bytes after ∧
      subarray after 0 (bytes.length - digestLength) =
        subarray bytes 0 (bytes.length - digestLength) ∧
      Holds after (bytes.length - digestLength)
        (hash (subarray bytes 0 (bytes.length - digestLength))) := by
  obtain ⟨after, hrun, hheld, hwithin⟩ := @setBytes_spec bytes
    (hash (subarray bytes 0 (bytes.length - digestLength))) (bytes.length - digestLength)
    (by rw [hhash]; omega)
  rw [hhash, Nat.sub_add_cancel hfits] at hwithin
  refine ⟨after, hrun, hwithin, ext_getElem? fun i => ?_, hheld⟩
  rcases Nat.lt_or_ge i (bytes.length - digestLength) with hlt | hge
  · rw [getElem?_subarray (by omega), getElem?_subarray (by omega), Nat.zero_add]
    exact hwithin.getElem?_eq i (.inl hlt)
  · have hnone (buf : Bytes) : (subarray buf 0 (bytes.length - digestLength))[i]? = none := by
      refine getElem?_eq_none ?_
      rw [subarray, length_take]
      omega
    rw [hnone, hnone]

theorem WordTable.changed {after : Bytes} (h : WordTable magic count word digestLength bytes)
    (hwithin : ChangedWithin (bytes.length - digestLength) bytes.length bytes after) :
    WordTable magic count word digestLength after := by
  have hlength := h.length_eq
  have hword (value : ℕ) : (uint32Bytes value).length = 4 := rfl
  have hheader : wordTableHeaderSize = 12 := rfl
  refine ⟨hwithin.length_eq.trans hlength, hwithin.holds h.magic_held ?_,
    hwithin.holds h.version_held ?_, hwithin.holds h.hashId_held ?_,
    fun p hp => hwithin.holds (h.words p hp) ?_⟩
  all_goals
    rw [hword]
    left
    omega

/-- **A table of words with its checksum.** -/
theorem buildWordTable_spec (magic count : ℕ) (word : ℕ → ℕ) (packChecksum : Bytes)
    (hhash : ∀ front, (hash front).length = packChecksum.length) :
    ∃ body bytes, writeWordTable magic count word packChecksum = .ok body ∧
      fillTrailer hash packChecksum.length body = .ok bytes ∧
      WordTable magic count word packChecksum.length bytes ∧
      Holds bytes (wordTableHeaderSize + 4 * count + packChecksum.length)
        (hash (subarray bytes 0 (wordTableHeaderSize + 4 * count + packChecksum.length))) := by
  obtain ⟨body, hbody, htable⟩ := writeWordTable_spec magic count word packChecksum
  have hlength := htable.length_eq
  obtain ⟨bytes, hbytes, hwithin, hfront, hheld⟩ := @fillTrailer_spec packChecksum.length body hash
    hhash (by omega)
  have hstart : body.length - packChecksum.length =
      wordTableHeaderSize + 4 * count + packChecksum.length := by omega
  rw [← hfront, hstart] at hheld
  exact ⟨body, bytes, hbody, hbytes, htable.changed hwithin, hheld⟩

theorem WordTable.parseHeader (h : WordTable magic count word digestLength bytes)
    (hmagic : magic < 2 ^ 32) (refuse : HeaderCheck → String → Thrown) :
    parseWordTableHeader magic refuse bytes = .ok (if digestLength = 32 then 2 else 1) := by
  have hhash : getUint32 bytes 8 = .ok (if digestLength = 32 then 2 else 1) :=
    h.hashId_held.getUint32 (by split <;> norm_num)
  have hone : ¬ ((if digestLength = 32 then 2 else 1) ≠ 1 ∧
      (if digestLength = 32 then 2 else 1) ≠ 2) := by
    split
    · exact fun hne => hne.2 rfl
    · exact fun hne => hne.1 rfl
  rw [parseWordTableHeader, ok_bind_eq (h.magic_held.getUint32 hmagic), if_neg (fun hne => hne rfl),
    ok_bind_eq (h.version_held.getUint32 (by norm_num)), if_neg (fun hne => hne rfl),
    ok_bind_eq hhash, if_neg hone]
  rfl

end

theorem assertValidSortedPackIndexBy_eq_ok {sorted : SortedPackIndex} {digestLength : ℕ}
    (hvalid : sorted.entries.Valid) (hsorted : Sorted sorted)
    (hwidth : digestLength = sorted.entries.digestLength)
    (fail : SortedPackIndexDefect → String → Thrown) :
    assertValidSortedPackIndexBy sorted digestLength fail = .ok () := by
  subst hwidth
  have hoids := hvalid.oids_le
  have hcrcs := hvalid.crcValues_le
  have hoffsets := hvalid.offsets_le
  have hwidth := hvalid.width
  unfold assertValidSortedPackIndexBy
  dsimp only
  rw [if_neg (by omega), if_neg (fun h => h rfl), if_neg (by omega), if_neg (by omega),
    if_neg (by omega), if_neg (fun h => h hsorted.length_eq)]

theorem Layout.changed {sorted : SortedPackIndex} {bytes after : Bytes}
    (hvalid : sorted.entries.Valid) (hsorted : Sorted sorted) (h : Layout sorted bytes)
    (hwithin : ChangedWithin (bytes.length - sorted.entries.digestLength) bytes.length bytes after) :
    Layout sorted after := by
  have hlength := h.length_eq
  have hcrcs : crcStartOf sorted = 1032 + sorted.entries.count * sorted.entries.digestLength := rfl
  have hoffsets : offsetStartOf sorted = crcStartOf sorted + sorted.entries.count * 4 := rfl
  have hlarges : largeStartOf sorted = offsetStartOf sorted + sorted.entries.count * 4 := rfl
  have htrailer : largeStartOf sorted ≤ trailerOf sorted := Nat.le_add_right _ _
  have hword (value : ℕ) : (uint32Bytes value).length = 4 := rfl
  have hkeep {offset : ℕ} {src : Bytes} (hheld : Holds bytes offset src)
      (hfront : offset + src.length ≤ trailerOf sorted) : Holds after offset src :=
    hwithin.holds hheld (.inl (by omega))
  refine ⟨hwithin.length_eq.trans hlength, hkeep h.magic ?_, hkeep h.version ?_,
    fun b hb => hkeep (h.fanout b hb) ?_, fun p hp => hkeep (h.ids p hp) ?_,
    fun p hp => hkeep (h.crcs p hp) ?_, fun p hp => hkeep (h.offsets.words p hp) ?_,
    fun p hp hlarge => hkeep (h.offsets.larges p hp hlarge) (largeEnd_le hp hlarge)⟩
  · rw [hword]
    omega
  · rw [hword]
    omega
  · rw [hword]
    omega
  · have hslot : (p + 1) * sorted.entries.digestLength ≤
        sorted.entries.count * sorted.entries.digestLength := Nat.mul_le_mul_right _ hp
    rw [Nat.succ_mul] at hslot
    rw [show (oidAt sorted p).length = sorted.entries.digestLength from
      hvalid.length_oid (hsorted.entryAt_lt hp)]
    omega
  · rw [hword]
    omega
  · rw [hword]
    omega

/-! ### One permutation for both orders -/

def PackIndexEntries.DistinctOffsets (entries : PackIndexEntries) : Prop :=
  ∀ a < entries.count, ∀ b < entries.count, entries.offsetOf a = entries.offsetOf b → a = b

/-- The offsets of the entries, in ascending order. -/
structure SortedOffsets (entries : PackIndexEntries) (offsets : List ℕ) : Prop where
  perm : offsets.Perm ((range entries.count).map entries.offsetOf)
  ascending : offsets.Pairwise (· < ·)

section

variable {sorted : SortedPackIndex}

theorem packPositionsByOffset_perm (sorted : SortedPackIndex) :
    (packPositionsByOffset sorted).Perm (range sorted.entries.count) :=
  perm_insertionSort _ _

theorem length_packPositionsByOffset (sorted : SortedPackIndex) :
    (packPositionsByOffset sorted).length = sorted.entries.count := by
  rw [(packPositionsByOffset_perm sorted).length_eq, length_range]

theorem packPositionsByOffset_lt {p position : ℕ}
    (h : (packPositionsByOffset sorted)[p]? = some position) :
    position < sorted.entries.count :=
  mem_range.mp ((packPositionsByOffset_perm sorted).mem_iff.mp (mem_of_getElem? h))

theorem offsetAt_eq (sorted : SortedPackIndex) (p : ℕ) :
    offsetAt sorted p = sorted.entries.offsetOf (entryAt sorted p) := rfl

theorem Sorted.map_entryAt (h : Sorted sorted) :
    (range sorted.entries.count).map (entryAt sorted) = sorted.order := by
  refine ext_getElem? fun p => ?_
  rcases Nat.lt_or_ge p sorted.entries.count with hlt | hge
  · rw [getElem?_map, getElem?_range hlt, h.order_getElem? hlt]
    rfl
  · rw [getElem?_eq_none (by rwa [length_map, length_range]),
      getElem?_eq_none (by rwa [h.length_eq])]

/-- **The order that is stored is the order that is computed.** -/
theorem sortedOffsets_eq (sorted : SortedPackIndex) :
    ((range sorted.entries.count).map (offsetAt sorted)).insertionSort (· ≤ ·) =
      (packPositionsByOffset sorted).map (offsetAt sorted) := by
  refine (map_insertionSort _ _ _ _ fun a _ b _ => ?_).symm
  omega

theorem sortedOffsets_positions (hsorted : Sorted sorted)
    (hdistinct : sorted.entries.DistinctOffsets) :
    SortedOffsets sorted.entries ((packPositionsByOffset sorted).map (offsetAt sorted)) := by
  have hperm : ((packPositionsByOffset sorted).map (offsetAt sorted)).Perm
      ((range sorted.entries.count).map sorted.entries.offsetOf) := by
    have hoffsets : (range sorted.entries.count).map (offsetAt sorted) =
        sorted.order.map sorted.entries.offsetOf := by
      rw [← hsorted.map_entryAt, map_map]
      rfl
    refine ((packPositionsByOffset_perm sorted).map _).trans ?_
    rw [hoffsets]
    exact hsorted.perm.map _
  have hnodup : ((range sorted.entries.count).map sorted.entries.offsetOf).Nodup := by
    refine (nodup_map_iff_inj_on nodup_range).mpr fun a ha b hb => ?_
    exact hdistinct a (mem_range.mp ha) b (mem_range.mp hb)
  have hle : ((packPositionsByOffset sorted).map (offsetAt sorted)).Pairwise (· ≤ ·) := by
    rw [← sortedOffsets_eq]
    exact pairwise_insertionSort _ _
  refine ⟨hperm, (hle.and (hperm.nodup_iff.mpr hnodup)).imp ?_⟩
  rintro a b ⟨hab, hne⟩
  exact lt_of_le_of_ne hab hne

end

/-! ### The three files -/

def LargeOffsetsFit (entries : PackIndexEntries) : Prop :=
  (range entries.count).countP (fun k => isLarge (entries.offsetOf k)) ≤ 2 ^ 31

/-- The index, the reverse index and the file of times describe the same objects. -/
structure FilesAgree (entries : PackIndexEntries) (hash : Bytes → Bytes) (mtimeAt : ℕ → ℤ)
    (index : PackIndex) (rev : PackRevIndex) (mtimes : Bytes) : Prop where
  /-- The reverse index is a permutation of the index positions. -/
  permutation : ∃ positions : List ℕ, positions.Perm (range entries.count) ∧
    ∀ p position, positions[p]? = some position → revIndexPositionAt rev p = .ok position
  /-- The offset at a pack position is the one of that rank, read or computed. -/
  offsets : ∃ offsets, SortedOffsets entries offsets ∧ buildSortedTable index = .ok offsets ∧
    ∀ p offset, offsets[p]? = some offset → offsetAtPackPosition index rev p = .ok (some offset)
  /-- The time at the index position of an object is what is left of its own in 32 bits. -/
  times : ∃ times, readCruftMtimes hash index mtimes = .ok times ∧
    ∀ k < entries.count, ∃ position < entries.count, objectIdAt index position = entries.idOf k ∧
      getUint32 mtimes (wordTableHeaderSize + position * 4) = .ok (timeWord (mtimeAt k)) ∧
      times.get (entries.idOf k) = some (timeWord (mtimeAt k))

section

variable {sorted : SortedPackIndex} {bytes packChecksum : Bytes} {hash : Bytes → Bytes}

theorem buildIdx_spec (hvalid : sorted.entries.Valid) (hsorted : Sorted sorted)
    (hchecksum : packChecksum.length = sorted.entries.digestLength)
    (hhash : ∀ front, (hash front).length = sorted.entries.digestLength) :
    ∃ bytes, buildIdx hash sorted packChecksum = .ok bytes ∧ Layout sorted bytes := by
  obtain ⟨body, hbody, hlayout⟩ := serializePackIndex_spec hvalid hsorted hchecksum
  have hlength := hlayout.length_eq
  obtain ⟨bytes, hbytes, hwithin, -, -⟩ := @fillTrailer_spec sorted.entries.digestLength body hash
    hhash (by omega)
  refine ⟨bytes, ?_, hlayout.changed hvalid hsorted hwithin⟩
  rw [buildIdx, ok_bind_eq hbody, hchecksum]
  exact hbytes

theorem largeCount_eq (hsorted : Sorted sorted) :
    largeCount sorted sorted.entries.count =
      (range sorted.entries.count).countP fun k => isLarge (sorted.entries.offsetOf k) := by
  have hcount : largeCount sorted sorted.entries.count =
      ((range sorted.entries.count).map (entryAt sorted)).countP fun k =>
        isLarge (sorted.entries.offsetOf k) := by
    rw [countP_map]
    rfl
  rw [hcount, hsorted.map_entryAt]
  exact hsorted.perm.countP_eq _

theorem readOffset_of_fit (hsorted : Sorted sorted) (hlayout : Layout sorted bytes)
    (hlarge : LargeOffsetsFit sorted.entries)
    (hoffsets : ∀ k < sorted.entries.count, sorted.entries.offsetOf k < 2 ^ 53) {p : ℕ}
    (hp : p < sorted.entries.count) :
    readOffset (parsed sorted bytes) p = .ok (offsetAt sorted p) := by
  refine readOffset_of_layout hlayout (fun hthis => ?_) hp (hoffsets _ (hsorted.entryAt_lt hp))
  have hlt := largeCount_lt hp hthis
  rw [largeCount_eq hsorted] at hlt
  exact hlt.trans_le hlarge

def parsedRev (sorted : SortedPackIndex) (bytes : Bytes) : PackRevIndex :=
  ⟨if sorted.entries.digestLength = 32 then 2 else 1, sorted.entries.digestLength,
    sorted.entries.count, subarray bytes (wordTableHeaderSize + 4 * sorted.entries.count)
      (wordTableHeaderSize + 4 * sorted.entries.count + sorted.entries.digestLength), bytes⟩

theorem parsePackRevIndex_of_table {word : ℕ → ℕ}
    (htable : WordTable revMagic sorted.entries.count word sorted.entries.digestLength bytes) :
    parsePackRevIndex bytes sorted.entries.digestLength sorted.entries.count =
      .ok (parsedRev sorted bytes) := by
  have hlength := htable.length_eq
  rw [parsePackRevIndex, if_neg (by omega), ok_bind_eq (htable.parseHeader (by decide) _),
    if_neg (fun h => h hlength)]
  rfl

theorem revIndexPositionAt_of_table (hcount : sorted.entries.count < 2 ^ 32)
    (htable : WordTable revMagic sorted.entries.count ((packPositionsByOffset sorted).getD · 0)
      sorted.entries.digestLength bytes) {p position : ℕ}
    (h : (packPositionsByOffset sorted)[p]? = some position) :
    revIndexPositionAt (parsedRev sorted bytes) p = .ok position := by
  have hp : p < sorted.entries.count := by
    rw [← length_packPositionsByOffset sorted]
    exact (List.getElem?_eq_some_iff.mp h).1
  have hlt := packPositionsByOffset_lt h
  have hword := htable.words p hp
  rw [getD_eq_getElem?_getD, h, Option.getD_some] at hword
  have hinside : ¬ p ≥ (parsedRev sorted bytes).objectCount := Nat.not_le.mpr hp
  rw [revIndexPositionAt, if_neg hinside]
  exact hword.getUint32 (by omega)

theorem readTimes_spec {count : ℕ} {word : ℕ → ℕ} {digestLength : ℕ} {ids : List Text}
    (htable : WordTable cruftMtimesMagic count word digestLength bytes)
    (hword : ∀ p < count, word p < 2 ^ 32) (hlength : ids.length = count) (hnodup : ids.Nodup) :
    ∃ times : Dict Text ℕ, forRange ids.length (fun indexPosition mtimes => do
        let mtime ← getUint32 bytes (wordTableHeaderSize + indexPosition * 4)
        pure (mtimes.insert (ids.getD indexPosition []) mtime)) Dict.empty = .ok times ∧
      ∀ p id, ids[p]? = some id → times.get id = some (word p) := by
  let inv (i : ℕ) (times : Dict Text ℕ) : Prop :=
    ∀ p < i, ∀ id, ids[p]? = some id → times.get id = some (word p)
  have hstep : ∀ i < ids.length, ∀ times, inv i times → ∃ next, (do
      let mtime ← getUint32 bytes (wordTableHeaderSize + i * 4)
      pure (times.insert (ids.getD i []) mtime)) = Except.ok next ∧ inv (i + 1) next := by
    intro i hi times hinv
    have hread := (htable.words i (by omega)).getUint32 (hword i (by omega))
    refine ⟨_, ok_bind_eq hread, fun p hp id hid => ?_⟩
    have hget : ids.getD i [] = ids[i] := by
      rw [getD_eq_getElem?_getD, getElem?_eq_getElem hi, Option.getD_some]
    rw [hget]
    rcases Nat.lt_succ_iff_lt_or_eq.mp hp with hlt | rfl
    · have hne : id ≠ ids[i] := by
        rintro rfl
        have hsame := hid.trans (getElem?_eq_getElem hi).symm
        have := hnodup.getElem_inj_iff.mp (Option.some.inj
          ((getElem?_eq_getElem (hlt.trans hi)).symm.trans hsame |>.trans
            (getElem?_eq_getElem hi)))
        omega
      rw [Dict.get_insert_of_ne _ _ hne]
      exact hinv p hlt id hid
    · obtain rfl : ids[p] = id := by
        rw [getElem?_eq_getElem hi] at hid
        exact Option.some.inj hid
      exact Dict.get_insert_self ..
  obtain ⟨times, hrun, hinv⟩ := forRange_spec inv (fun p hp => absurd hp (Nat.not_lt_zero p)) hstep
  refine ⟨times, hrun, fun p id hid => hinv p ?_ id hid⟩
  exact (List.getElem?_eq_some_iff.mp hid).1

/-- The ids of the index, in its order. -/
theorem allObjectIds_of_layout (hvalid : sorted.entries.Valid) (hsorted : Sorted sorted)
    (hlayout : Layout sorted bytes) :
    allObjectIds (parsed sorted bytes) = sorted.order.map sorted.entries.idOf := by
  rw [allObjectIds, ← hsorted.map_entryAt, map_map]
  refine map_congr_left fun p hp => ?_
  exact objectIdAt_of_layout hvalid hsorted hlayout (mem_range.mp hp)

theorem nodup_idOf (hvalid : sorted.entries.Valid) (hsorted : Sorted sorted) :
    (sorted.order.map sorted.entries.idOf).Nodup := by
  have hnodup : sorted.order.Nodup := hsorted.perm.nodup_iff.mpr nodup_range
  refine (nodup_map_iff_inj_on hnodup).mpr fun a ha b hb heq => ?_
  have hlt {k : ℕ} (hk : k ∈ sorted.order) : k < sorted.entries.count :=
    mem_range.mp (hsorted.perm.mem_iff.mp hk)
  exact hvalid.distinct a (hlt ha) b (hlt hb) (bytesToHex_injective heq)

theorem readCruftMtimes_of_table {mtimes : Bytes} {word : ℕ → ℕ}
    (hvalid : sorted.entries.Valid) (hsorted : Sorted sorted) (hlayout : Layout sorted bytes)
    (htable : WordTable cruftMtimesMagic sorted.entries.count word sorted.entries.digestLength mtimes)
    (hword : ∀ p < sorted.entries.count, word p < 2 ^ 32)
    (hhash : ∀ front, (hash front).length = sorted.entries.digestLength)
    (hheld : Holds mtimes
      (wordTableHeaderSize + 4 * sorted.entries.count + sorted.entries.digestLength)
      (hash (subarray mtimes 0
        (wordTableHeaderSize + 4 * sorted.entries.count + sorted.entries.digestLength)))) :
    ∃ times : Dict Text ℕ, readCruftMtimes hash (parsed sorted bytes) mtimes = .ok times ∧
      ∀ p < sorted.entries.count,
        times.get (sorted.entries.idOf (entryAt sorted p)) = some (word p) := by
  have hids := allObjectIds_of_layout hvalid hsorted hlayout
  have hidsLength : (sorted.order.map sorted.entries.idOf).length = sorted.entries.count := by
    rw [length_map, hsorted.length_eq]
  have hlength := htable.length_eq
  have hhashId : getUint32 mtimes 8 = .ok (if sorted.entries.digestLength = 32 then 2 else 1) :=
    htable.hashId_held.getUint32 (by split <;> norm_num)
  obtain ⟨times, htimes, hget⟩ := readTimes_spec htable hword hidsLength (nodup_idOf hvalid hsorted)
  refine ⟨times, ?_, fun p hp => hget p _ ?_⟩
  · have hwidth : (if (if sorted.entries.digestLength = 32 then 2 else 1) = 1 then 20 else 32) =
        sorted.entries.digestLength := by
      rcases hvalid.width with h | h <;> rw [h] <;> rfl
    have hwidth' : (if (if sorted.entries.digestLength = 32 then 2 else 1) = 2 then 32 else 20) =
        sorted.entries.digestLength := by
      rcases hvalid.width with h | h <;> rw [h] <;> rfl
    have hone : ¬ ((if sorted.entries.digestLength = 32 then 2 else 1) ≠ 1 ∧
        (if sorted.entries.digestLength = 32 then 2 else 1) ≠ 2) := by
      rcases hvalid.width with h | h <;> rw [h] <;> decide
    have hcandidate : candidateSelfChecksum hash mtimes sorted.entries.count =
        .ok (some (hash (subarray mtimes 0
          (wordTableHeaderSize + 4 * sorted.entries.count + sorted.entries.digestLength)))) := by
      rw [candidateSelfChecksum, if_neg (by omega), ok_bind_eq hhashId, if_neg hone, hwidth]
      dsimp only
      rw [if_neg (by omega)]
      rfl
    have hstored := hheld.subarray_eq
    rw [hhash] at hstored
    rw [readCruftMtimes]
    rw [hids, hidsLength, ok_bind_eq hcandidate, parseCruftMtimes, if_neg (by omega),
      ok_bind_eq (htable.parseHeader (by decide) _), hwidth', hidsLength]
    rw [if_neg (fun h => h hlength)]
    have hchecked : assertSelfChecksum mtimes sorted.entries.digestLength sorted.entries.count
        (some (hash (subarray mtimes 0
          (wordTableHeaderSize + 4 * sorted.entries.count + sorted.entries.digestLength)))) =
            .ok () := by
      rw [assertSelfChecksum]
      rw [if_neg (fun h => h hstored)]
    rw [ok_bind_eq hchecked, ← hidsLength]
    exact htimes
  · rw [getElem?_map, hsorted.order_getElem? hp]
    rfl

end

/-- **The three files agree.** A pack of fewer than `2 ^ 32` objects, of which at most `2 ^ 31` are
large: its three files are read back, and describe the same objects. -/
theorem packIndex_rev_mtimes_agree (entries : PackIndexEntries) (packChecksum : Bytes)
    (hash : Bytes → Bytes) (mtimeAt : ℕ → ℤ) (hvalid : entries.Valid)
    (hdistinct : entries.DistinctOffsets)
    (hoffsets : ∀ k < entries.count, entries.offsetOf k < 2 ^ 53) (hcount : entries.count < 2 ^ 32)
    (hlarge : LargeOffsetsFit entries) (hchecksum : packChecksum.length = entries.digestLength)
    (hhash : ∀ front, (hash front).length = entries.digestLength) :
    ∃ idx index revBytes rev mtimes,
      buildIdx hash (sortPackIndexEntries entries) packChecksum = .ok idx ∧
      parsePackIndex idx entries.digestLength = .ok index ∧
      buildRev hash (sortPackIndexEntries entries) packChecksum = .ok revBytes ∧
      parsePackRevIndex revBytes entries.digestLength entries.count = .ok rev ∧
      buildCruftMtimes hash (sortPackIndexEntries entries) packChecksum mtimeAt = .ok mtimes ∧
      FilesAgree entries hash mtimeAt index rev mtimes := by
  have hsorted := sortPackIndexEntries_sorted hvalid
  obtain ⟨sorted, hsortedEq⟩ : ∃ sorted, sortPackIndexEntries entries = sorted := ⟨_, rfl⟩
  have hentries : entries = sorted.entries := by
    rw [← hsortedEq]
    rfl
  rw [hsortedEq] at hsorted ⊢
  subst hentries
  obtain ⟨idx, hidx, hlayout⟩ := buildIdx_spec hvalid hsorted hchecksum hhash
  have hgate (fail : SortedPackIndexDefect → String → Thrown) :
      assertValidSortedPackIndexBy sorted packChecksum.length fail = .ok () :=
    assertValidSortedPackIndexBy_eq_ok hvalid hsorted hchecksum fail
  rw [← hchecksum] at hhash
  obtain ⟨revBody, revBytes, hrevBody, hrevBytes, hrevTable, -⟩ :=
    buildWordTable_spec revMagic sorted.entries.count ((packPositionsByOffset sorted).getD · 0)
      packChecksum hhash
  obtain ⟨timesBody, mtimes, htimesBody, hmtimes, htimesTable, hheld⟩ :=
    buildWordTable_spec cruftMtimesMagic sorted.entries.count
      (fun p => timeWord (mtimeAt (entryAt sorted p))) packChecksum hhash
  rw [hchecksum] at hrevTable htimesTable hheld hhash
  have hparse := parsePackIndex_of_layout hvalid hlayout hcount
  have hread {p : ℕ} (hp : p < sorted.entries.count) :=
    readOffset_of_fit hsorted hlayout hlarge hoffsets hp
  have htimeWord (p : ℕ) : timeWord (mtimeAt (entryAt sorted p)) < 2 ^ 32 := by
    rw [timeWord]
    omega
  obtain ⟨times, htimes, hget⟩ := readCruftMtimes_of_table hvalid hsorted hlayout htimesTable
    (fun p _ => htimeWord p) hhash hheld
  refine ⟨idx, _, revBytes, parsedRev sorted revBytes, mtimes, hidx, hparse, ?_,
    parsePackRevIndex_of_table hrevTable, ?_, ⟨_, packPositionsByOffset_perm sorted,
      fun p position h => revIndexPositionAt_of_table hcount hrevTable h⟩,
    ⟨_, sortedOffsets_positions hsorted hdistinct, ?_, ?_⟩, times, htimes, fun k hk => ?_⟩
  · rw [buildRev, serializePackRevIndex, ok_bind_eq (hgate _), ok_bind_eq hrevBody]
    exact hrevBytes
  · rw [buildCruftMtimes, serializeCruftMtimes, ok_bind_eq (hgate _), ok_bind_eq htimesBody]
    exact hmtimes
  · have hall : entryOffsetsF64 (parsed sorted idx) =
        .ok ((range sorted.entries.count).map (offsetAt sorted)) :=
      mapM_eq_ok fun p hp => hread (mem_range.mp hp)
    rw [buildSortedTable, ok_bind_eq hall, sortedOffsets_eq]
    rfl
  · intro p offset h
    rw [getElem?_map] at h
    obtain ⟨position, hposition, rfl⟩ := Option.map_eq_some_iff.mp h
    have hlt := packPositionsByOffset_lt hposition
    have hinside : ¬ position ≥ (parsed sorted idx).objectCount := Nat.not_le.mpr hlt
    rw [offsetAtPackPosition, ok_bind_eq (revIndexPositionAt_of_table hcount hrevTable hposition),
      if_neg hinside, ok_bind_eq (hread hlt)]
    rfl
  · obtain ⟨p, hp, rfl⟩ := hsorted.exists_entryAt hk
    exact ⟨p, hp, objectIdAt_of_layout hvalid hsorted hlayout hp,
      (htimesTable.words p hp).getUint32 (htimeWord p), hget p hp⟩

/-- Two entries whose orders differ, and two times. -/
theorem packIndex_rev_mtimes_agree_twoEntries :
    ∃ idx index revBytes rev mtimes,
      buildIdx (fun _ => replicate 20 0) (sortPackIndexEntries twoEntries)
        (replicate 20 7) = .ok idx ∧
      parsePackIndex idx 20 = .ok index ∧
      buildRev (fun _ => replicate 20 0) (sortPackIndexEntries twoEntries)
        (replicate 20 7) = .ok revBytes ∧
      parsePackRevIndex revBytes 20 2 = .ok rev ∧
      buildCruftMtimes (fun _ => replicate 20 0) (sortPackIndexEntries twoEntries)
        (replicate 20 7) (fun k => 1700000000 + k) = .ok mtimes ∧
      FilesAgree twoEntries (fun _ => replicate 20 0) (fun k => 1700000000 + k) index rev
        mtimes :=
  packIndex_rev_mtimes_agree twoEntries (replicate 20 7) (fun _ => replicate 20 0)
    (fun k => 1700000000 + k) ⟨.inl rfl, by decide, by decide, by decide, by decide⟩
    (by unfold PackIndexEntries.DistinctOffsets; decide) (by decide) (by decide)
    (by unfold LargeOffsetsFit; decide) rfl fun _ => rfl

/-! ### Beyond the words of the formats -/

theorem readOffset_wraps {sorted : SortedPackIndex} {bytes : Bytes} (hlayout : Layout sorted bytes)
    (hcount : 2 ^ 31 < sorted.entries.count)
    (hall : ∀ p < sorted.entries.count, isLarge (offsetAt sorted p) = true)
    (hoffset : offsetAt sorted 0 < 2 ^ 53) :
    readOffset (parsed sorted bytes) (2 ^ 31) = .ok (offsetAt sorted 0) := by
  have hplace : largeCount sorted (2 ^ 31) = 2 ^ 31 := by
    rw [largeCount, countP_eq_length.mpr fun p hp =>
      hall p ((mem_range.mp hp).trans hcount), length_range]
  have hword := hlayout.offsets.words (2 ^ 31) hcount
  rw [offsetWord, if_pos (hall _ hcount), hplace] at hword
  have hlow : (0x80000000 ||| 2 ^ 31) &&& 0x7fffffff = 0 := by decide
  exact readOffset_largeWord hlayout (hword.getUint32 (by decide)) (by decide) hlow
    (by omega) (hall 0 (by omega)) hoffset

/-- Entries with the ids `numberedOid`. -/
def numberedEntries (count : ℕ) : PackIndexEntries where
  count := count
  digestLength := 20
  oids := (range count).flatMap OidTable.numberedOid
  crcValues := replicate count 0
  offsets := replicate count 0

theorem numberedEntries_oid {count k : ℕ} (hk : k < count) :
    (numberedEntries count).oid k = OidTable.numberedOid k := by
  have hholds := holds_flatMap (fun i _ => OidTable.length_numberedOid i) (getElem?_range hk)
  have hend : (k + 1) * 20 = k * 20 + (OidTable.numberedOid k).length := by
    rw [OidTable.length_numberedOid]
    omega
  rw [PackIndexEntries.oid, numberedEntries, hend]
  exact hholds.subarray_eq

theorem numberedEntries_valid {count : ℕ} (hcount : count ≤ 2 ^ 32) :
    (numberedEntries count).Valid where
  width := .inl rfl
  oids_le := by
    rw [numberedEntries, length_flatMap_of_width fun i _ => OidTable.length_numberedOid i, length_range]
  crcValues_le := length_replicate.ge
  offsets_le := length_replicate.ge
  distinct a ha b hb h := by
    have ha' : a < count := ha
    have hb' : b < count := hb
    rw [numberedEntries_oid ha', numberedEntries_oid hb'] at h
    exact OidTable.numberedOid_injective (by omega) (by omega) h

def largeEntries (count : ℕ) : PackIndexEntries :=
  { numberedEntries count with offsets := (range count).map (2 ^ 31 + ·) }

theorem largeEntries_offsetOf {count k : ℕ} (hk : k < count) :
    (largeEntries count).offsetOf k = 2 ^ 31 + k := by
  rw [PackIndexEntries.offsetOf, largeEntries, getD_eq_getElem?_getD, getElem?_map,
    getElem?_range hk]
  rfl

theorem largeEntries_valid {count : ℕ} (hcount : count ≤ 2 ^ 32) : (largeEntries count).Valid := by
  have hvalid := numberedEntries_valid hcount
  refine ⟨hvalid.width, hvalid.oids_le, hvalid.crcValues_le, ?_, hvalid.distinct⟩
  rw [largeEntries, length_map, length_range]
  exact le_rfl

/-- **What the words of the formats do not hold**: a time of `2 ^ 32`, or `2 ^ 31 + 1` large
offsets. -/
theorem packIndex_rev_mtimes_overflow :
    ((largeEntries (2 ^ 31 + 1)).Valid ∧ (largeEntries (2 ^ 31 + 1)).DistinctOffsets ∧
      ∃ idx index p, buildIdx (fun _ => replicate 20 0)
          (sortPackIndexEntries (largeEntries (2 ^ 31 + 1))) (replicate 20 7) = .ok idx ∧
        parsePackIndex idx 20 = .ok index ∧ p < index.objectCount ∧
        readOffset index p ≠
          .ok (offsetAt (sortPackIndexEntries (largeEntries (2 ^ 31 + 1))) p)) ∧
    ∃ mtimes, buildCruftMtimes (fun _ => replicate 20 0) (sortPackIndexEntries twoEntries)
        (replicate 20 7) (fun _ => 2 ^ 32) = .ok mtimes ∧
      getUint32 mtimes wordTableHeaderSize = .ok 0 := by
  constructor
  · have hvalid : (largeEntries (2 ^ 31 + 1)).Valid := largeEntries_valid (by norm_num)
    have hsorted := sortPackIndexEntries_sorted hvalid
    have hoffset {k : ℕ} (hk : k < 2 ^ 31 + 1) :
        (largeEntries (2 ^ 31 + 1)).offsetOf k = 2 ^ 31 + k := largeEntries_offsetOf hk
    have hdistinct : (largeEntries (2 ^ 31 + 1)).DistinctOffsets := by
      intro a ha b hb h
      rw [hoffset ha, hoffset hb] at h
      omega
    refine ⟨hvalid, hdistinct, ?_⟩
    obtain ⟨sorted, hsortedEq⟩ :
        ∃ sorted, sortPackIndexEntries (largeEntries (2 ^ 31 + 1)) = sorted := ⟨_, rfl⟩
    have hentries : sorted.entries = largeEntries (2 ^ 31 + 1) := by
      rw [← hsortedEq]
      rfl
    have hcount : sorted.entries.count = 2 ^ 31 + 1 := by
      rw [hentries]
      rfl
    rw [hsortedEq] at hsorted ⊢
    rw [← hentries] at hvalid hdistinct
    have hwidth : sorted.entries.digestLength = 20 := by
      rw [hentries]
      rfl
    obtain ⟨idx, hidx, hlayout⟩ := @buildIdx_spec sorted (replicate 20 7)
      (fun _ => replicate 20 0) hvalid hsorted hwidth.symm fun _ => hwidth.symm
    have hat {p : ℕ} (hp : p < sorted.entries.count) :
        offsetAt sorted p = 2 ^ 31 + entryAt sorted p := by
      have hentry := hsorted.entryAt_lt hp
      rw [offsetAt_eq, hentries]
      exact hoffset (by omega)
    have hread := readOffset_wraps hlayout (by omega)
      (fun p hp => decide_eq_true (by rw [hat hp]; omega)) (by
        have hentry := hsorted.entryAt_lt (show 0 < sorted.entries.count by omega)
        rw [hat (by omega)]
        omega)
    have hparse := parsePackIndex_of_layout hvalid hlayout (by omega)
    rw [hwidth] at hparse
    refine ⟨idx, _, 2 ^ 31, hidx, hparse, ?_, ?_⟩
    · show 2 ^ 31 < sorted.entries.count
      omega
    rw [hread]
    intro heq
    have heq := Except.ok.inj heq
    have hsame := hdistinct _ (hsorted.entryAt_lt (show 0 < sorted.entries.count by omega)) _
      (hsorted.entryAt_lt (show 2 ^ 31 < sorted.entries.count by omega)) heq
    have hnodup : sorted.order.Nodup := hsorted.perm.nodup_iff.mpr nodup_range
    have hfirst := hsorted.order_getElem? (show 0 < sorted.entries.count by omega)
    have hlast := hsorted.order_getElem? (show 2 ^ 31 < sorted.entries.count by omega)
    rw [← hsame] at hlast
    have hplaces := (getElem?_inj (by rw [hsorted.length_eq]; omega) hnodup).mp
      (hfirst.trans hlast.symm)
    omega
  · have hvalid : twoEntries.Valid := ⟨.inl rfl, by decide, by decide, by decide, by decide⟩
    have hsorted := sortPackIndexEntries_sorted hvalid
    obtain ⟨body, mtimes, hbody, hmtimes, htable, -⟩ :=
      @buildWordTable_spec (fun _ => replicate 20 0) cruftMtimesMagic 2
        (fun _ => timeWord (2 ^ 32)) (replicate 20 7) fun _ => rfl
    have hgate (fail : SortedPackIndexDefect → String → Thrown) :
        assertValidSortedPackIndexBy (sortPackIndexEntries twoEntries) 20 fail = .ok () :=
      @assertValidSortedPackIndexBy_eq_ok (sortPackIndexEntries twoEntries) 20 hvalid hsorted rfl fail
    refine ⟨mtimes, ?_, (htable.words 0 (by decide)).getUint32 (by decide)⟩
    rw [buildCruftMtimes, serializeCruftMtimes]
    refine (ok_bind_eq ((ok_bind_eq (hgate _)).trans hbody)).trans hmtimes

end Tsgit.Idx
