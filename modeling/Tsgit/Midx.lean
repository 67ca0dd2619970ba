import Tsgit.Dict
import Tsgit.OidTable
import Tsgit.TextDecoder
import Tsgit.Utf16

/-!
# Multi-Pack Indexes

The reader of a multi-pack index (`src/domain/storage/midx.ts`).
-/

namespace Tsgit.Midx

open OidTable

def midxMagic : ℕ := 0x4d494458
def midxHeaderSize : ℕ := 12
def midxChunkTableRowSize : ℕ := 12
def midxFanoutEntries : ℕ := 256
def midxFanoutSize : ℕ := midxFanoutEntries * 4

def chunkIdPnam : Text := ['P', 'N', 'A', 'M']
def chunkIdOidf : Text := ['O', 'I', 'D', 'F']
def chunkIdOidl : Text := ['O', 'I', 'D', 'L']
def chunkIdOoff : Text := ['O', 'O', 'F', 'F']
def chunkIdLoff : Text := ['L', 'O', 'F', 'F']
def chunkIdReverseIndex : Text := ['R', 'I', 'D', 'X']

structure MultiPackIndex where
  version : ℕ
  hashVersion : ℕ
  digestLength : ℕ
  numBaseFiles : ℕ
  objectCount : ℕ
  packNames : List Text
  oidFanoutOffset : ℕ
  oidLookupOffset : ℕ
  objectOffsetsOffset : ℕ
  largeOffsetsOffset : Option ℕ
  largeOffsetCount : ℕ
  reverseIndexOffset : Option ℕ
  bytes : Bytes
  deriving DecidableEq

structure MidxEntry where
  packIndex : ℕ
  offset : ℕ
  deriving DecidableEq

/-- `start` and `end`. -/
structure ChunkRange where
  start : ℕ
  stop : ℕ
  deriving DecidableEq

structure ChunkTableRow where
  name : Text
  idWord : ℕ
  offset : ℕ
  deriving DecidableEq

def invalidMultiPackIndex {α : Type} (check : MidxCheck) (reason : String) : Except Thrown α :=
  .error (.refusal (.invalidMultiPackIndex check reason))

/-- The number nearest to an integer among those with 53 bits, the even one of two. -/
def toNumber (n : ℕ) : ℕ :=
  if n < 2 ^ 53 then n
  else
    let unit := 2 ^ (n.log2 - 52)
    let rest := n % unit
    if 2 * rest < unit ∨ 2 * rest = unit ∧ n / unit % 2 = 0 then n / unit * unit
    else (n / unit + 1) * unit

/-! ### The chunk table -/

/-- What the loop over the rows has read: the rows, their ids, and the last offset. -/
structure TableState where
  rows : List ChunkTableRow
  seenIds : List ℕ
  previousOffset : ℕ

def readChunkTableRow (bytes : Bytes) (rowCount trailerStart i : ℕ) (state : TableState) :
    Except Thrown TableState := do
  let rowStart := midxHeaderSize + i * midxChunkTableRowSize
  let idWord ← getUint32 bytes rowStart
  let high ← getUint32 bytes (rowStart + 4)
  let low ← getUint32 bytes (rowStart + 8)
  let offset := toNumber (high * 0x100000000 + low)
  if idWord ∈ state.seenIds then
    invalidMultiPackIndex .chunkTable s!"duplicate chunk id at row {i}"
  else if idWord = 0 ∧ i < rowCount - 1 then
    invalidMultiPackIndex .chunkTable
      s!"terminating chunk id appears at row {i} before the final row"
  else if offset % 4 ≠ 0 ∧ i < rowCount - 1 then
    invalidMultiPackIndex .chunkTable s!"chunk table offset at row {i} is not 4-byte aligned"
  else if offset < state.previousOffset then
    invalidMultiPackIndex .chunkTable s!"chunk table offset at row {i} moves backward"
  else if offset > trailerStart then
    invalidMultiPackIndex .chunkTable s!"chunk table offset at row {i} extends past end of file"
  else
    let name := decode (subarray bytes rowStart (rowStart + 4))
    pure ⟨state.rows ++ [⟨name, idWord, offset⟩], idWord :: state.seenIds, offset⟩

/-- A file shorter than its trailer has no room for a table either. -/
def readChunkTableRows (bytes : Bytes) (numChunks digestLength : ℕ) :
    Except Thrown (List ChunkTableRow) := do
  let rowCount := numChunks + 1
  let tableEnd := midxHeaderSize + rowCount * midxChunkTableRowSize
  let trailerStart := bytes.length - digestLength
  if tableEnd > trailerStart then
    invalidMultiPackIndex .chunkTable "truncated: chunk table extends past end of file"
  else
    let state ← forRange rowCount (readChunkTableRow bytes rowCount trailerStart)
      ⟨[], [], tableEnd⟩
    if (state.rows.getLast?).map (·.idWord) ≠ some 0 then
      invalidMultiPackIndex .chunkTable "final chunk table entry must have id 0"
    else pure state.rows

def chunkRangesFrom (ranges : Dict Text ChunkRange) : List ChunkTableRow → Dict Text ChunkRange
  | row :: next :: rest =>
    chunkRangesFrom (ranges.insert row.name ⟨row.offset, next.offset⟩) (next :: rest)
  | _ => ranges

def chunkRangesOf (rows : List ChunkTableRow) : Dict Text ChunkRange :=
  chunkRangesFrom Dict.empty rows

def requireChunk (ranges : Dict Text ChunkRange) (id : Text) : Except Thrown ChunkRange :=
  match ranges.get id with
  | none => invalidMultiPackIndex .requiredChunk s!"missing required {String.ofList id} chunk"
  | some range => .ok range

def requireChunkSize (range : ChunkRange) (expectedSize : ℕ) (id : Text) : Except Thrown Unit :=
  let actualSize := range.stop - range.start
  if actualSize ≠ expectedSize then
    invalidMultiPackIndex .chunkLength
      s!"chunk {String.ofList id} has size {actualSize}, expected {expectedSize}"
  else .ok ()

/-! ### The chunks -/

def checkFanoutEntry (bytes : Bytes) (fanoutStart i prev : ℕ) : Except Thrown ℕ := do
  let current ← getUint32 bytes (fanoutStart + (i + 1) * 4)
  if current < prev then
    invalidMultiPackIndex .fanout
      s!"non-monotonic OIDF fanout at index {i + 1}: {prev} > {current}"
  else pure current

def validateFanoutMonotonicity (bytes : Bytes) (fanoutStart : ℕ) : Except Thrown ℕ := do
  let first ← getUint32 bytes fanoutStart
  forRange (midxFanoutEntries - 1) (checkFanoutEntry bytes fanoutStart) first

def requireLoffSize (range : ChunkRange) : Except Thrown ℕ :=
  let size := range.stop - range.start
  if size % 8 ≠ 0 then
    invalidMultiPackIndex .chunkLength s!"chunk LOFF has size {size}, not a multiple of 8"
  else .ok (size / 8)

/-- Where a name that starts here ends: at a NUL, or at the end of the chunk. -/
def nameEnd (bytes : Bytes) : ℕ → ℕ → ℕ
  | 0, stop => stop
  | room + 1, stop => if bytes[stop]? = some 0 then stop else nameEnd bytes room (stop + 1)

def parsePackName (bytes : Bytes) (range : ChunkRange) (i : ℕ) (state : List Text × ℕ) :
    Except Thrown (List Text × ℕ) :=
  let (names, cursor) := state
  let stop := nameEnd bytes (range.stop - cursor) cursor
  if stop ≥ range.stop then
    invalidMultiPackIndex .packNames s!"pack name {i} is not NUL-terminated within the PNAM chunk"
  else if stop = cursor then
    invalidMultiPackIndex .packNames s!"pack name {i} is empty"
  else .ok (names ++ [decode (subarray bytes cursor stop)], stop + 1)

def checkPackNameOrder (names : List Text) (i : ℕ) (_ : Unit) : Except Thrown Unit :=
  if ¬ stringLt (names.getD i []) (names.getD (i + 1) []) then
    invalidMultiPackIndex .packNames s!"pack names out of order at entries {i} and {i + 1}"
  else .ok ()

def parsePackNames (bytes : Bytes) (range : ChunkRange) (numPacks version : ℕ) :
    Except Thrown (List Text) := do
  let (names, _) ← forRange numPacks (parsePackName bytes range) ([], range.start)
  if version = 1 then
    forRange (names.length - 1) (checkPackNameOrder names) ()
    pure names
  else pure names

/-! ### The index -/

def hashVersionWidth (hashVersion : ℕ) : ℕ := if hashVersion = 1 then 20 else 32

def parseLargeOffsetCount (loffRange : Option ChunkRange) : Except Thrown ℕ :=
  match loffRange with
  | none => .ok 0
  | some range => requireLoffSize range

def checkReverseIndex (revRange : Option ChunkRange) (objectCount : ℕ) : Except Thrown Unit :=
  match revRange with
  | none => .ok ()
  | some range => requireChunkSize range (objectCount * 4) chunkIdReverseIndex

def parseChunks (bytes : Bytes) (digestLength version hashVersion numChunks numBaseFiles
    numPacks : ℕ) : Except Thrown MultiPackIndex := do
  let rows ← readChunkTableRows bytes numChunks digestLength
  let chunkRanges := chunkRangesOf rows
  let pnam ← requireChunk chunkRanges chunkIdPnam
  let oidf ← requireChunk chunkRanges chunkIdOidf
  let oidl ← requireChunk chunkRanges chunkIdOidl
  let ooff ← requireChunk chunkRanges chunkIdOoff
  requireChunkSize oidf midxFanoutSize chunkIdOidf
  let objectCount ← validateFanoutMonotonicity bytes oidf.start
  requireChunkSize oidl (objectCount * digestLength) chunkIdOidl
  requireChunkSize ooff (objectCount * 8) chunkIdOoff
  let packNames ← parsePackNames bytes pnam numPacks version
  let loffRange := chunkRanges.get chunkIdLoff
  let largeOffsetsOffset := loffRange.map (·.start)
  let largeOffsetCount ← parseLargeOffsetCount loffRange
  let revRange := chunkRanges.get chunkIdReverseIndex
  let reverseIndexOffset := revRange.map (·.start)
  checkReverseIndex revRange objectCount
  pure ⟨version, hashVersion, digestLength, numBaseFiles, objectCount, packNames, oidf.start,
    oidl.start, ooff.start, largeOffsetsOffset, largeOffsetCount, reverseIndexOffset, bytes⟩

def parseMultiPackIndex (bytes : Bytes) (digestLength : ℕ) : Except Thrown MultiPackIndex :=
  if bytes.length < midxHeaderSize then
    invalidMultiPackIndex .size "truncated: file too short for header"
  else do
    let signature ← getUint32 bytes 0
    if signature ≠ midxMagic then
      invalidMultiPackIndex .signature
        s!"invalid signature: expected 0x4d494458, got 0x{hexWord signature}"
    else
      let version ← getUint8 bytes 4
      if version ≠ 1 ∧ version ≠ 2 then
        invalidMultiPackIndex .version s!"unsupported version: expected 1 or 2, got {version}"
      else
        let hashVersion ← getUint8 bytes 5
        if hashVersion ≠ 1 ∧ hashVersion ≠ 2 then
          invalidMultiPackIndex .hashVersion
            s!"unsupported hash version: expected 1 or 2, got {hashVersion}"
        else
          let expectedWidth := hashVersionWidth hashVersion
          if expectedWidth ≠ digestLength then
            invalidMultiPackIndex .hashVersion
              (s!"hash version {hashVersion} implies {expectedWidth}-byte object ids, " ++
                s!"but the caller declared {digestLength}")
          else
            let numChunks ← getUint8 bytes 6
            let numBaseFiles ← getUint8 bytes 7
            let numPacks ← getUint32 bytes 8
            parseChunks bytes digestLength version hashVersion numChunks numBaseFiles numPacks

def maxMidxBytes : ℕ := 1024 * 1024 * 1024

def exceedsMaxMidxBytes (size : ℕ) : Bool := maxMidxBytes < size

def readAndParseMidx (statSize : ℕ) (bytes : Bytes) (digestLength : ℕ) :
    Except Thrown MultiPackIndex :=
  if exceedsMaxMidxBytes statSize then
    invalidMultiPackIndex .size "multi-pack-index file exceeds 1 GiB"
  else if exceedsMaxMidxBytes bytes.length then
    invalidMultiPackIndex .size "multi-pack-index file exceeds 1 GiB"
  else parseMultiPackIndex bytes digestLength

theorem length_le_of_readAndParseMidx {statSize digestLength : ℕ} {bytes : Bytes}
    {midx : MultiPackIndex} (h : readAndParseMidx statSize bytes digestLength = .ok midx) :
    bytes.length ≤ 2 ^ 30 ∧ parseMultiPackIndex bytes digestLength = .ok midx := by
  unfold readAndParseMidx exceedsMaxMidxBytes maxMidxBytes at h
  split at h
  · cases h
  split at h
  · cases h
  next hlength => exact ⟨by simpa using hlength, h⟩

/-! ### Reads -/

def readMidxFanout (midx : MultiPackIndex) (byte : ℕ) : Except Thrown ℕ :=
  getUint32 midx.bytes (midx.oidFanoutOffset + byte * 4)

def compareMidxOidAt (midx : MultiPackIndex) (index : ℕ) (targetBytes : Bytes) : Option ℤ :=
  compareWindows midx.bytes (midx.oidLookupOffset + index * midx.digestLength) targetBytes 0
    midx.digestLength

/-- Bit 31 of a word points into the table of large offsets only where there is one. -/
def readMidxOffset (midx : MultiPackIndex) (index : ℕ) : Except Thrown ℕ := do
  let raw ← getUint32 midx.bytes (midx.objectOffsetsOffset + index * 8 + 4)
  match midx.largeOffsetsOffset with
  | none => pure raw
  | some largeOffsetsOffset =>
    if raw &&& 0x80000000 = 0 then pure raw
    else
      let row := raw &&& 0x7fffffff
      if row ≥ midx.largeOffsetCount then
        invalidMultiPackIndex .largeOffset
          s!"large offset row {row} out of range for {midx.largeOffsetCount} entries"
      else
        let high ← getUint32 midx.bytes (largeOffsetsOffset + row * 8)
        if high > 0x1fffff then
          invalidMultiPackIndex .largeOffset
            s!"pack offset exceeds safe JavaScript number range: high word={high}"
        else
          let low ← getUint32 midx.bytes (largeOffsetsOffset + row * 8 + 4)
          pure (high * 0x100000000 + low)

def readMidxEntry (midx : MultiPackIndex) (index : ℕ) : Except Thrown MidxEntry := do
  let packIndex ← getUint32 midx.bytes (midx.objectOffsetsOffset + index * 8)
  if packIndex ≥ midx.packNames.length then
    invalidMultiPackIndex .packIntId
      s!"pack index {packIndex} out of range for {midx.packNames.length} pack names"
  else
    let offset ← readMidxOffset midx index
    pure ⟨packIndex, offset⟩

def midxEntryAt (midx : MultiPackIndex) (index : ℕ) : Except Thrown MidxEntry :=
  readMidxEntry midx index

def midxOidAt (midx : MultiPackIndex) (index : ℕ) : Text :=
  let offset := midx.oidLookupOffset + index * midx.digestLength
  bytesToHex (subarray midx.bytes offset (offset + midx.digestLength))

def midxReverseIndexAt (midx : MultiPackIndex) (position : ℕ) : Except Thrown ℕ :=
  match midx.reverseIndexOffset with
  | none => invalidMultiPackIndex .requiredChunk "midx has no reverse-index (RIDX) chunk"
  | some reverseIndexOffset =>
    if position ≥ midx.objectCount then
      invalidMultiPackIndex .chunkLength
        (s!"position {position} out of range for reverse-index chunk with " ++
          s!"{midx.objectCount} entries")
    else getUint32 midx.bytes (reverseIndexOffset + position * 4)

def readReversePosition (midx : MultiPackIndex) (chunkOffset position : ℕ) :
    Option (List ℕ) → Except Thrown (Option (List ℕ))
  | none => .ok none
  | some positions => do
    let stored ← getUint32 midx.bytes (chunkOffset + position * 4)
    if stored ≥ midx.objectCount then pure none else pure (some (positions ++ [stored]))

def midxReverseIndexPositions (midx : MultiPackIndex) : Except Thrown (Option (List ℕ)) :=
  match midx.reverseIndexOffset with
  | none => .ok none
  | some chunkOffset =>
    forRange midx.objectCount (readReversePosition midx chunkOffset) (some [])

/-! ### Lookups -/

def searchMidxPosition (fuel : ℕ) (midx : MultiPackIndex) (targetBytes : Bytes) :
    Run Thrown (Option ℕ) :=
  searchPosition (readMidxFanout midx) (compareMidxOidAt midx · targetBytes) midx.digestLength
    fuel targetBytes

def lookupMultiPackIndexBytes (fuel : ℕ) (midx : MultiPackIndex) (targetBytes : Bytes) :
    Run Thrown (Option MidxEntry) := do
  match ← searchMidxPosition fuel midx targetBytes with
  | none => pure none
  | some position => do
    let entry ← Run.ofExcept (readMidxEntry midx position)
    pure (some entry)

def lookupMultiPackIndex (fuel : ℕ) (midx : MultiPackIndex) (id : Text) :
    Run Thrown (Option MidxEntry) := do
  let targetBytes ← Run.ofExcept (hexToBytes id)
  lookupMultiPackIndexBytes fuel midx targetBytes

def lookupMidxPosition (fuel : ℕ) (midx : MultiPackIndex) (id : Text) :
    Run Thrown (Option ℕ) := do
  let targetBytes ← Run.ofExcept (hexToBytes id)
  searchMidxPosition fuel midx targetBytes

end Tsgit.Midx
