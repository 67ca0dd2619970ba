import Mathlib.Data.List.Sort
import Tsgit.Hex
import Tsgit.OidTable

/-!
# Pack Indexes

The writer of a version 2 pack index (`src/domain/storage/pack-writer.ts`), the order of its
entries (`src/domain/storage/pack-order.ts`) and its reader (`src/domain/storage/pack-index.ts`).
-/

namespace Tsgit.Idx

open OidTable

/-! ### Order -/

/-- `PackIndexEntries`: the columns may be longer than `count`. -/
structure PackIndexEntries where
  count : ℕ
  digestLength : ℕ
  oids : Bytes
  crcValues : List ℕ
  offsets : List ℕ
  deriving DecidableEq

structure SortedPackIndex where
  entries : PackIndexEntries
  order : List ℕ
  deriving DecidableEq

/-- The comparator of the sort; a comparison that gives no number counts as 0. -/
def compareOids (entries : PackIndexEntries) (a b : ℕ) : ℤ :=
  (compareWindows entries.oids (a * entries.digestLength) entries.oids
    (b * entries.digestLength) entries.digestLength).getD 0

def sortPackIndexEntries (entries : PackIndexEntries) : SortedPackIndex :=
  ⟨entries, (List.range entries.count).insertionSort fun a b => compareOids entries a b ≤ 0⟩

def assertValidSortedPackIndex (sorted : SortedPackIndex) (digestLength : ℕ)
    (fail : String → Thrown) : Except Thrown Unit :=
  let entries := sorted.entries
  if digestLength ≠ 20 ∧ digestLength ≠ 32 then
    .error (fail s!"packChecksum must be 20 or 32 bytes, got {digestLength}")
  else if entries.digestLength ≠ digestLength then
    .error (fail s!"entries digestLength {entries.digestLength} does not match packChecksum length {digestLength}")
  else if entries.oids.length < entries.count * digestLength then
    .error (fail s!"oids too short: need {entries.count * digestLength}, got {entries.oids.length}")
  else if entries.crcValues.length < entries.count then
    .error (fail s!"crcValues too short: need {entries.count}, got {entries.crcValues.length}")
  else if entries.offsets.length < entries.count then
    .error (fail s!"offsets too short: need {entries.count}, got {entries.offsets.length}")
  else if sorted.order.length ≠ entries.count then
    .error (fail s!"order length {sorted.order.length} does not match entries count {entries.count}")
  else .ok ()

/-! ### Writing -/

section

variable (sorted : SortedPackIndex)

/-- The raw id of an entry. -/
def PackIndexEntries.oid (entries : PackIndexEntries) (k : ℕ) : Bytes :=
  subarray entries.oids (k * entries.digestLength) ((k + 1) * entries.digestLength)

/-- The entry at an index position. -/
def entryAt (p : ℕ) : ℕ := sorted.order.getD p 0

def oidAt (p : ℕ) : Bytes := sorted.entries.oid (entryAt sorted p)

def crcAt (p : ℕ) : ℕ := sorted.entries.crcValues.getD (entryAt sorted p) 0

def offsetAt (p : ℕ) : ℕ := sorted.entries.offsets.getD (entryAt sorted p) 0

/-- The offset does not fit into 31 bits. -/
def isLarge (offset : ℕ) : Bool := offset > 0x7fffffff

def largeCount (n : ℕ) : ℕ := (List.range n).countP fun p => isLarge (offsetAt sorted p)

/-- `bucketCounts`, a `Uint32Array`. -/
def bucketCounts (n : ℕ) : List ℕ :=
  (List.range n).foldl (fun counts p =>
    counts.modify (byteAt sorted.entries.oids (entryAt sorted p * sorted.entries.digestLength))
      fun count => (count + 1) % 2 ^ 32) (List.replicate 256 0)

/-- The running sums of counts, each stored in 32 bits. -/
def cumulate : ℕ → List ℕ → List ℕ
  | _, [] => []
  | cumulative, count :: counts =>
    (cumulative + count) % 2 ^ 32 :: cumulate (cumulative + count) counts

def writeOffset (offsetStart largeOffsetStart p : ℕ) (state : Bytes × ℕ) :
    Except Thrown (Bytes × ℕ) := do
  let (bytes, largeIdx) := state
  let offset := offsetAt sorted p
  if isLarge offset then
    let bytes ← setUint32 bytes (offsetStart + p * 4) (0x80000000 ||| largeIdx)
    let high := offset / 0x100000000
    let low := offset % 2 ^ 32
    let bytes ← setUint32 bytes (largeOffsetStart + largeIdx * 8) high
    let bytes ← setUint32 bytes (largeOffsetStart + largeIdx * 8 + 4) low
    pure (bytes, largeIdx + 1)
  else
    let bytes ← setUint32 bytes (offsetStart + p * 4) offset
    pure (bytes, largeIdx)

end

def serializePackIndex (sorted : SortedPackIndex) (packChecksum : Bytes) :
    Except Thrown Bytes := do
  let digestLength := packChecksum.length
  assertValidSortedPackIndex sorted digestLength fun reason =>
    .refusal (.invalidPackIndex reason)
  let n := sorted.entries.count
  let headerSize := 8
  let fanoutSize := 1024
  let shaTableSize := n * digestLength
  let crcTableSize := n * 4
  let offsetTableSize := n * 4
  let largeOffsetTableSize := largeCount sorted n * 8
  let checksumSize := digestLength
  let totalSize := headerSize + fanoutSize + shaTableSize + crcTableSize + offsetTableSize +
    largeOffsetTableSize + 2 * checksumSize
  let bytes := List.replicate totalSize 0
  let bytes ← setUint32 bytes 0 0xff744f63
  let bytes ← setUint32 bytes 4 2
  let fanout := cumulate 0 (bucketCounts sorted n)
  let fanoutOffset := headerSize
  let bytes ← forRange 256
    (fun i bytes => setUint32 bytes (fanoutOffset + i * 4) (fanout.getD i 0)) bytes
  let shaStart := fanoutOffset + fanoutSize
  let bytes ← forRange n
    (fun p bytes => setBytes bytes (oidAt sorted p) (shaStart + p * digestLength)) bytes
  let crcStart := shaStart + shaTableSize
  let bytes ← forRange n
    (fun p bytes => setUint32 bytes (crcStart + p * 4) (crcAt sorted p)) bytes
  let offsetStart := crcStart + crcTableSize
  let largeOffsetStart := offsetStart + offsetTableSize
  let (bytes, _) ← forRange n (writeOffset sorted offsetStart largeOffsetStart) (bytes, 0)
  setBytes bytes packChecksum (totalSize - 2 * checksumSize)

/-! ### Reading -/

def idxMagic : ℕ := 0xff744f63
def idxVersion : ℕ := 2
def idxHeaderSize : ℕ := 8
def idxFanoutSize : ℕ := 1024
def idxShaTableOffset : ℕ := 1032

structure PackIndex where
  objectCount : ℕ
  digestLength : ℕ
  crc32TableOffset : ℕ
  smallOffsetsTableOffset : ℕ
  largeOffsetsTableOffset : ℕ
  trailerOffset : ℕ
  bytes : Bytes
  deriving DecidableEq

def idxTrailerSize (digestLength : ℕ) : ℕ := 2 * digestLength

def hexCharsFor (digestLength : ℕ) : ℕ := 2 * digestLength

def shaSlotOffset (position digestLength : ℕ) : ℕ := idxShaTableOffset + position * digestLength

def invalidPackIndex (reason : String) : Thrown := .refusal (.invalidPackIndex reason)

def validateFanoutMonotonicity (bytes : Bytes) : Except Thrown Unit := do
  let _ ← forRange 256 (fun i prev => do
    let current ← getUint32 bytes (idxHeaderSize + i * 4)
    if current < prev then
      .error (invalidPackIndex s!"non-monotonic fanout at index {i}: {prev} > {current}")
    else pure current) 0

def parsePackIndex (bytes : Bytes) (digestLength : ℕ) : Except Thrown PackIndex := do
  let minSize := idxHeaderSize + idxFanoutSize
  if bytes.length < minSize then
    .error (invalidPackIndex "truncated: file too short for header and fanout")
  else
    let magic ← getUint32 bytes 0
    if magic ≠ idxMagic then
      .error (invalidPackIndex s!"invalid magic: expected 0xff744f63, got 0x{hexWord magic}")
    else
      let version ← getUint32 bytes 4
      if version ≠ idxVersion then
        .error (invalidPackIndex s!"unsupported version: expected 2, got {version}")
      else
        validateFanoutMonotonicity bytes
        let objectCount ← getUint32 bytes (idxHeaderSize + 255 * 4)
        let crc32TableOffset := shaSlotOffset objectCount digestLength
        let smallOffsetsTableOffset := crc32TableOffset + objectCount * 4
        let largeOffsetsTableOffset := smallOffsetsTableOffset + objectCount * 4
        let trailerOffset := bytes.length - idxTrailerSize digestLength
        let minExpectedSize := largeOffsetsTableOffset + idxTrailerSize digestLength
        if bytes.length < minExpectedSize then
          .error (invalidPackIndex s!"truncated: expected at least {minExpectedSize} bytes for {objectCount} objects, got {bytes.length}")
        else
          pure ⟨objectCount, digestLength, crc32TableOffset, smallOffsetsTableOffset,
            largeOffsetsTableOffset, trailerOffset, bytes⟩

def maxPackIdxBytes : ℕ := 64 * 1024 * 1024

def exceedsMaxPackIdxBytes (size : ℕ) : Bool := maxPackIdxBytes < size

/-- The read in front of `parsePackIndex`: the size that the look at the file gave, and the bytes
that were then read of it. -/
def readBoundedIdx (size : ℕ) (bytes : Bytes) : Except Thrown Bytes :=
  if exceedsMaxPackIdxBytes size then
    .error (invalidPackIndex "pack .idx file exceeds 64 MiB")
  else if exceedsMaxPackIdxBytes bytes.length then
    .error (invalidPackIndex "pack .idx file exceeds 64 MiB")
  else .ok bytes

theorem length_le_of_readBoundedIdx {size : ℕ} {bytes read : Bytes}
    (h : readBoundedIdx size bytes = .ok read) : bytes.length ≤ 2 ^ 26 := by
  unfold readBoundedIdx exceedsMaxPackIdxBytes maxPackIdxBytes at h
  split at h
  · cases h
  split at h
  · cases h
  next hlength => simpa using hlength

def readFanout (index : PackIndex) (byte : ℕ) : Except Thrown ℕ :=
  getUint32 index.bytes (idxHeaderSize + byte * 4)

def compareShaAtIndex (index : PackIndex) (i : ℕ) (targetBytes : Bytes) : Option ℤ :=
  compareWindows index.bytes (shaSlotOffset i index.digestLength) targetBytes 0
    index.digestLength

def readOffset (index : PackIndex) (i : ℕ) : Except Thrown ℕ := do
  let raw ← getUint32 index.bytes (index.smallOffsetsTableOffset + i * 4)
  if raw &&& 0x80000000 ≠ 0 then
    let largeIdx := raw &&& 0x7fffffff
    let largeOffset := index.largeOffsetsTableOffset + largeIdx * 8
    if largeOffset + 8 > index.trailerOffset then
      .error (invalidPackIndex s!"large offset index {largeIdx} out of range")
    else
      let high ← getUint32 index.bytes largeOffset
      let low ← getUint32 index.bytes (largeOffset + 4)
      if high > 0x1fffff then
        .error (invalidPackIndex s!"pack offset exceeds safe JavaScript number range: high word={high}")
      else pure (high * 0x100000000 + low)
  else pure raw

def searchIndexPosition (fuel : ℕ) (index : PackIndex) (targetBytes : Bytes) :
    Run Thrown (Option ℕ) :=
  searchPosition (readFanout index) (compareShaAtIndex index · targetBytes) index.digestLength
    fuel targetBytes

def lookupPackIndex (fuel : ℕ) (index : PackIndex) (id : Text) : Run Thrown (Option ℕ) := do
  let targetBytes ← Run.ofExcept (hexToBytes id)
  match ← searchIndexPosition fuel index targetBytes with
  | none => pure none
  | some position => do
    let offset ← Run.ofExcept (readOffset index position)
    pure (some offset)

def objectIdAt (index : PackIndex) (position : ℕ) : Text :=
  let offset := shaSlotOffset position index.digestLength
  bytesToHex (subarray index.bytes offset (offset + index.digestLength))

def findLowerBound (fuel : ℕ) (index : PackIndex) (lo hi : ℕ) (targetBytes : Bytes) :
    Run Thrown ℕ :=
  BinarySearch.partitionPoint (fun mid => (compareShaAtIndex index mid targetBytes).any (· < 0))
    fuel lo hi

def findUpperBound (fuel : ℕ) (index : PackIndex) (lo hi : ℕ) (targetBytes : Bytes) :
    Run Thrown ℕ :=
  BinarySearch.partitionPoint (fun mid => (compareShaAtIndex index mid targetBytes).any (· ≤ 0))
    fuel lo hi

def padEnd (text : Text) (length : ℕ) (filler : Char) : Text :=
  text ++ List.replicate (length - text.length) filler

def findByPrefix (fuel : ℕ) (index : PackIndex) (hexPrefix : Text) : Run Thrown (List Text) := do
  let hexLength := hexCharsFor index.digestLength
  if hexPrefix.length < 4 then
    throw (invalidPackIndex s!"prefix too short: minimum 4 hex chars, got {hexPrefix.length}")
  else if hexPrefix.length > hexLength then
    throw (invalidPackIndex s!"prefix too long: maximum {hexLength} hex chars, got {hexPrefix.length}")
  else if ¬ hexPrefix.all isHexDigit then
    throw (invalidPackIndex "prefix contains non-hex characters")
  else
    let lowerBytes ← Run.ofExcept (hexToBytes (padEnd hexPrefix hexLength '0'))
    let upperBytes ← Run.ofExcept (hexToBytes (padEnd hexPrefix hexLength 'f'))
    let firstByte := byteAt lowerBytes 0
    let lo ← Run.ofExcept (if firstByte = 0 then .ok 0 else readFanout index (firstByte - 1))
    let lastByte := byteAt upperBytes 0
    let hi ← Run.ofExcept (readFanout index lastByte)
    let lowerBound ← findLowerBound fuel index lo hi lowerBytes
    let upperBound ← findUpperBound fuel index lo hi upperBytes
    pure ((List.range' lowerBound (upperBound - lowerBound)).map (objectIdAt index))

end Tsgit.Idx
