import Tsgit.Midx

/-!
# Commit-Graph Layers

The reader of a commit-graph file (`src/domain/commit/commit-graph.ts`).
-/

namespace Tsgit.CommitGraph

open Midx (ChunkRange toNumber)
open OidTable

def magic : Text := ['C', 'G', 'P', 'H']
def supportedVersion : ℕ := 1
def headerSize : ℕ := 8
def chunkTableRowSize : ℕ := 12
def fanoutEntries : ℕ := 256
def fanoutSize : ℕ := fanoutEntries * 4
def cdatFixedSize : ℕ := 16

def chunkIdOidf : Text := ['O', 'I', 'D', 'F']
def chunkIdOidl : Text := ['O', 'I', 'D', 'L']
def chunkIdCdat : Text := ['C', 'D', 'A', 'T']
def chunkIdGda2 : Text := ['G', 'D', 'A', '2']
def chunkIdGdo2 : Text := ['G', 'D', 'O', '2']
def chunkIdEdge : Text := ['E', 'D', 'G', 'E']
def chunkIdBase : Text := ['B', 'A', 'S', 'E']
def chunkIdBidx : Text := ['B', 'I', 'D', 'X']
def chunkIdBdat : Text := ['B', 'D', 'A', 'T']
def bidxEntrySize : ℕ := 4
def bdatHeaderSize : ℕ := 12
def gdo2EntrySize : ℕ := 8

/-- The position of a parent that is not there. -/
def noParent : ℕ := 0x70000000
/-- The flag of a second parent that points into the table of octopus parents. -/
def octopusFlag : ℕ := 0x80000000
/-- The flag of the last octopus parent. -/
def edgeLastFlag : ℕ := 0x80000000
def edgePosMask : ℕ := 0x7fffffff
/-- The flag of a corrected date whose offset is in the side chunk. -/
def generationOverflowFlag : ℕ := 0x80000000

structure CommitMeta where
  rootTree : Text
  generation : ℕ
  committerDate : ℕ
  deriving DecidableEq

structure CommitParentPositions where
  parent1Pos : Option ℕ
  parent2Pos : Option ℕ
  additionalParentPositions : List ℕ
  deriving DecidableEq

structure CommitData extends CommitMeta, CommitParentPositions
  deriving DecidableEq

structure CommitGraphBloomSettings where
  hashVersion : ℕ
  numHashes : ℕ
  bitsPerEntry : ℕ
  deriving DecidableEq

structure CommitGraphLayer where
  hashVersion : ℕ
  bloomSettings : Option CommitGraphBloomSettings
  numBaseGraphs : ℕ
  baseGraphHashes : List Text
  commitCount : ℕ
  generationDataMisfit : Bool
  bytes : Bytes
  hashLength : ℕ
  fanoutOffset : ℕ
  oidLookupOffset : ℕ
  commitDataOffset : ℕ
  commitDataEntrySize : ℕ
  generationDataRange : Option ChunkRange
  extraEdgeRange : Option ChunkRange
  overflowGenerationRange : Option ChunkRange
  bloomIndexRange : Option ChunkRange
  bloomDataRange : Option ChunkRange
  deriving DecidableEq

def invalidCommitGraphHeader {α : Type} (reason : String) : Except Thrown α :=
  .error (.refusal (.invalidCommitGraphHeader reason))

def invalidCommitGraphChunk {α : Type} (reason : String) : Except Thrown α :=
  .error (.refusal (.invalidCommitGraphChunk reason))

/-! ### The chunk table -/

def readUint64BE (bytes : Bytes) (offset : ℕ) : Except Thrown ℕ := do
  let high ← getUint32 bytes offset
  let low ← getUint32 bytes (offset + 4)
  pure (toNumber (high * 0x100000000 + low))

/-- The sum of two numbers. -/
def plus (a b : ℕ) : ℕ := toNumber (a + b)

/-- The difference of two numbers. -/
def minus (a b : ℕ) : ℤ := if b ≤ a then toNumber (a - b) else -(toNumber (b - a) : ℤ)

def sizeOf (range : ChunkRange) : ℤ := minus range.stop range.start

structure ChunkTableRow where
  id : Text
  offset : ℕ
  deriving DecidableEq

/-- One turn of the loop over the rows. -/
def readChunkTableRow (bytes : Bytes) (i : ℕ) (rows : List ChunkTableRow) :
    Except Thrown (List ChunkTableRow) := do
  let rowStart := headerSize + i * chunkTableRowSize
  let id := decode (subarray bytes rowStart (rowStart + 4))
  let offset ← readUint64BE bytes (rowStart + 4)
  pure (rows ++ [⟨id, offset⟩])

/-- Each row but the last one names the chunk up to the next; of two rows with one id the later
one counts. -/
def rangesFrom (ranges : Dict Text ChunkRange) : List ChunkTableRow → Dict Text ChunkRange
  | row :: next :: rest => rangesFrom (ranges.insert row.id ⟨row.offset, next.offset⟩) (next :: rest)
  | _ => ranges

def readChunkTable (bytes : Bytes) (numChunks hashLength : ℕ) :
    Except Thrown (Dict Text ChunkRange) := do
  let rowCount := numChunks + 1
  let tableEnd := headerSize + rowCount * chunkTableRowSize
  if bytes.length < tableEnd then
    invalidCommitGraphChunk "truncated: chunk table extends past end of file"
  else
    let rows ← forRange rowCount (readChunkTableRow bytes) []
    let trailerStart := (rows.getLast?.map (·.offset)).getD 0
    if bytes.length < trailerStart + hashLength then
      invalidCommitGraphChunk "truncated: file ends before trailer"
    else pure (rangesFrom Dict.empty rows)

def requireChunk (ranges : Dict Text ChunkRange) (id : Text) : Except Thrown ChunkRange :=
  match ranges.get id with
  | none => invalidCommitGraphChunk s!"missing required {String.ofList id} chunk"
  | some range => .ok range

def validateChunkSize (range : ChunkRange) (expectedSize : ℕ) (id : Text) : Except Thrown Unit :=
  let actualSize := sizeOf range
  if actualSize ≠ expectedSize then
    invalidCommitGraphChunk
      s!"truncated {String.ofList id} chunk: expected {expectedSize} bytes, got {actualSize}"
  else .ok ()

/-! ### The optional chunks -/

structure BloomChunks where
  settings : CommitGraphBloomSettings
  index : ChunkRange
  data : ChunkRange
  deriving DecidableEq

/-- The two Bloom chunks that fit. One that does not is ignored, and one without the other is
too. -/
def bloomRanges (ranges : Dict Text ChunkRange) (commitCount : ℕ) :
    Option (ChunkRange × ChunkRange) := do
  let index ← ranges.get chunkIdBidx
  let data ← ranges.get chunkIdBdat
  if sizeOf index / bidxEntrySize ≠ commitCount then none
  else if sizeOf data < bdatHeaderSize then none
  else some (index, data)

def readBloomSettings (bytes : Bytes) (data : ChunkRange) :
    Except Thrown CommitGraphBloomSettings := do
  let hashVersion ← getUint32 bytes data.start
  let numHashes ← getUint32 bytes (data.start + 4)
  let bitsPerEntry ← getUint32 bytes (data.start + 8)
  pure ⟨hashVersion, numHashes, bitsPerEntry⟩

def readBloomChunks (ranges : Dict Text ChunkRange) (bytes : Bytes) (commitCount : ℕ) :
    Except Thrown (Option BloomChunks) :=
  match bloomRanges ranges commitCount with
  | none => .ok none
  | some (index, data) => do
    let settings ← readBloomSettings bytes data
    pure (some ⟨settings, index, data⟩)

/-- The id at a place of the file. -/
def idAt (bytes : Bytes) (offset hashLength : ℕ) : Except Thrown Text :=
  (fromRaw (subarray bytes offset (offset + hashLength))).mapError .refusal

/-- `Array.from` with a length: none below zero, and no array is longer than `2 ^ 32 - 1`. -/
def arrayFrom {α : Type} (length : ℤ) (element : ℕ → Except Thrown α) : Except Thrown (List α) :=
  if 2 ^ 32 ≤ length then .error .rangeError
  else (List.range length.toNat).mapM element

/-- The number of hashes the chunk holds. The quotient is rounded, of no matter for as many as an
array can hold. -/
def readBaseGraphHashes (ranges : Dict Text ChunkRange) (hashLength : ℕ) (bytes : Bytes) :
    Except Thrown (List Text) :=
  match ranges.get chunkIdBase with
  | none => .ok []
  | some base => arrayFrom (sizeOf base / hashLength) fun index =>
    idAt bytes (base.start + index * hashLength) hashLength

/-! ### The layer -/

/-- A chunk of corrected dates that does not hold one for each commit. -/
def isMisfit (generationData : Option ChunkRange) (commitCount : ℕ) : Bool :=
  match generationData with
  | none => false
  | some range => decide (sizeOf range / 4 ≠ commitCount)

/-- The layer that the chunks of a file make. -/
def layerOf (bytes : Bytes) (hashVersion hashLength numBaseGraphs commitCount : ℕ)
    (chunkRanges : Dict Text ChunkRange) (oidf oidl cdat : ChunkRange)
    (baseGraphHashes : List Text) (bloom : Option BloomChunks) : CommitGraphLayer :=
  let generationData := chunkRanges.get chunkIdGda2
  let generationDataMisfit := isMisfit generationData commitCount
  { hashVersion := hashVersion
    bloomSettings := bloom.map (·.settings)
    numBaseGraphs := numBaseGraphs
    baseGraphHashes := baseGraphHashes
    commitCount := commitCount
    generationDataMisfit := generationDataMisfit
    bytes := bytes
    hashLength := hashLength
    fanoutOffset := oidf.start
    oidLookupOffset := oidl.start
    commitDataOffset := cdat.start
    commitDataEntrySize := hashLength + cdatFixedSize
    generationDataRange := if generationDataMisfit then none else generationData
    extraEdgeRange := chunkRanges.get chunkIdEdge
    overflowGenerationRange := chunkRanges.get chunkIdGdo2
    bloomIndexRange := bloom.map (·.index)
    bloomDataRange := bloom.map (·.data) }

/-- The chunks of a file whose header and table are read. -/
def parseChunks (bytes : Bytes) (hashVersion hashLength numBaseGraphs : ℕ)
    (chunkRanges : Dict Text ChunkRange) : Except Thrown CommitGraphLayer := do
  let oidf ← requireChunk chunkRanges chunkIdOidf
  validateChunkSize oidf fanoutSize chunkIdOidf
  let commitCount ← getUint32 bytes (oidf.start + (fanoutEntries - 1) * 4)
  let oidl ← requireChunk chunkRanges chunkIdOidl
  validateChunkSize oidl (commitCount * hashLength) chunkIdOidl
  let commitDataEntrySize := hashLength + cdatFixedSize
  let cdat ← requireChunk chunkRanges chunkIdCdat
  validateChunkSize cdat (commitCount * commitDataEntrySize) chunkIdCdat
  let baseGraphHashes ← readBaseGraphHashes chunkRanges hashLength bytes
  let bloom ← readBloomChunks chunkRanges bytes commitCount
  pure (layerOf bytes hashVersion hashLength numBaseGraphs commitCount chunkRanges oidf oidl cdat
    baseGraphHashes bloom)

/-- What the header says. -/
structure LayerHeader where
  hashVersion : ℕ
  numChunks : ℕ
  numBaseGraphs : ℕ
  deriving DecidableEq

def LayerHeader.hashLength (header : LayerHeader) : ℕ := if header.hashVersion = 1 then 20 else 32

def parseHeader (bytes : Bytes) : Except Thrown LayerHeader :=
  if bytes.length < headerSize then
    invalidCommitGraphHeader "truncated: file too short for header"
  else
    let found := decode (subarray bytes 0 4)
    if found ≠ magic then
      invalidCommitGraphHeader
        s!"invalid magic: expected {String.ofList magic}, got {String.ofList found}"
    else do
      let version ← getUint8 bytes 4
      if version ≠ supportedVersion then
        invalidCommitGraphHeader s!"unsupported version: expected 1, got {version}"
      else
        let hashVersion ← getUint8 bytes 5
        if hashVersion ≠ 1 ∧ hashVersion ≠ 2 then
          invalidCommitGraphHeader
            s!"unsupported hash version: expected 1 or 2, got {hashVersion}"
        else
          let numChunks ← getUint8 bytes 6
          let numBaseGraphs ← getUint8 bytes 7
          pure ⟨hashVersion, numChunks, numBaseGraphs⟩

def parseCommitGraphLayer (bytes : Bytes) : Except Thrown CommitGraphLayer := do
  let header ← parseHeader bytes
  let chunkRanges ← readChunkTable bytes header.numChunks header.hashLength
  parseChunks bytes header.hashVersion header.hashLength header.numBaseGraphs chunkRanges

/-! ### Ids and positions -/

def oidAtPosition (layer : CommitGraphLayer) (localPos : ℕ) : Except Thrown Text :=
  idAt layer.bytes (layer.oidLookupOffset + localPos * layer.hashLength) layer.hashLength

def compareOidAt (layer : CommitGraphLayer) (index : ℕ) (targetBytes : Bytes) : Option ℤ :=
  compareWindows layer.bytes (layer.oidLookupOffset + index * layer.hashLength) targetBytes 0
    layer.hashLength

def readFanout (layer : CommitGraphLayer) (byte : ℕ) : Except Thrown ℕ :=
  getUint32 layer.bytes (layer.fanoutOffset + byte * 4)

/-- The search compares as many bytes as the ids of the layer have, whatever the target has. -/
def positionOf (fuel : ℕ) (layer : CommitGraphLayer) (oid : Text) : Run Thrown (Option ℕ) := do
  let targetBytes ← Run.ofExcept (hexToBytes oid)
  let high ← Run.ofExcept (readFanout layer (byteAt targetBytes 0))
  BinarySearch.search (compareOidAt layer · targetBytes) fuel 0 high

/-! ### Commits -/

structure CommitDataOptions where
  correctedCommitDates : Bool
  deriving DecidableEq

def readOverflowOffset (layer : CommitGraphLayer) (index : ℕ) : Except Thrown ℕ :=
  match layer.overflowGenerationRange with
  | none => invalidCommitGraphChunk "commit-graph requires overflow generation data but has none"
  | some range =>
    let offset := plus range.start (index * gdo2EntrySize)
    if plus offset gdo2EntrySize > range.stop then
      invalidCommitGraphChunk "commit-graph overflow generation data is too small"
    else readUint64BE layer.bytes offset

def resolveGeneration (layer : CommitGraphLayer) (generationRange : Option ChunkRange)
    (localPos generationV1 committerDate : ℕ) : Except Thrown ℕ :=
  match generationRange with
  | none => .ok generationV1
  | some range => do
    let raw ← getUint32 layer.bytes (range.start + localPos * 4)
    if raw &&& generationOverflowFlag ≠ 0 then
      let offset ← readOverflowOffset layer (raw &&& edgePosMask)
      pure (plus committerDate offset)
    else pure (committerDate + raw)

def commitMetaAt (layer : CommitGraphLayer) (localPos : ℕ) (options : CommitDataOptions) :
    Except Thrown CommitMeta := do
  let entryOffset := layer.commitDataOffset + localPos * layer.commitDataEntrySize
  let rootTree ← idAt layer.bytes entryOffset layer.hashLength
  let genWord ← getUint32 layer.bytes (entryOffset + layer.hashLength + 8)
  let dateWord ← getUint32 layer.bytes (entryOffset + layer.hashLength + 12)
  let committerDate := (genWord &&& 0x3) * 0x100000000 + dateWord
  let generationRange := if options.correctedCommitDates then layer.generationDataRange else none
  let generation ← resolveGeneration layer generationRange localPos (genWord >>> 2) committerDate
  pure ⟨rootTree, generation, committerDate⟩

/-- The loop of `readEdgeChain`, for as many turns as there are bytes left in the chunk. -/
def edgeChainFrom (bytes : Bytes) (stop : ℕ) : ℕ → ℕ → List ℕ → Except Thrown (List ℕ)
  | room + 1, cursor, positions =>
    if cursor < stop then do
      let raw ← getUint32 bytes cursor
      if raw &&& edgeLastFlag ≠ 0 then pure (positions ++ [raw &&& edgePosMask])
      else edgeChainFrom bytes stop room (cursor + 4) (positions ++ [raw &&& edgePosMask])
    else
      invalidCommitGraphChunk "truncated EDGE chunk: octopus parent list never terminates"
  | 0, _, _ =>
    invalidCommitGraphChunk "truncated EDGE chunk: octopus parent list never terminates"

def readEdgeChain (layer : CommitGraphLayer) (edgePos : ℕ) : Except Thrown (List ℕ) :=
  match layer.extraEdgeRange with
  | none => invalidCommitGraphChunk "octopus parent references missing EDGE chunk"
  | some range =>
    let cursor := plus range.start (edgePos * 4)
    edgeChainFrom layer.bytes range.stop (range.stop - cursor) cursor []

def resolveSecondParent (layer : CommitGraphLayer) (parent2Raw : ℕ) :
    Except Thrown (Option ℕ × List ℕ) :=
  if parent2Raw = noParent then .ok (none, [])
  else if parent2Raw &&& octopusFlag = 0 then .ok (some parent2Raw, [])
  else do
    let chain ← readEdgeChain layer (parent2Raw &&& edgePosMask)
    pure (chain.head?, chain.drop 1)

def commitParentPositionsAt (layer : CommitGraphLayer) (localPos : ℕ) :
    Except Thrown CommitParentPositions := do
  let parentsOffset :=
    layer.commitDataOffset + localPos * layer.commitDataEntrySize + layer.hashLength
  let parent1Raw ← getUint32 layer.bytes parentsOffset
  let parent1Pos := if parent1Raw = noParent then none else some parent1Raw
  let parent2Raw ← getUint32 layer.bytes (parentsOffset + 4)
  let (parent2Pos, additionalParentPositions) ← resolveSecondParent layer parent2Raw
  pure ⟨parent1Pos, parent2Pos, additionalParentPositions⟩

def commitDataAt (layer : CommitGraphLayer) (localPos : ℕ) (options : CommitDataOptions) :
    Except Thrown CommitData := do
  let info ← commitMetaAt layer localPos options
  let parents ← commitParentPositionsAt layer localPos
  pure ⟨info, parents⟩

end Tsgit.CommitGraph
