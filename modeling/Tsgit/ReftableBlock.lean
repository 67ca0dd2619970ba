import Tsgit.Generator
import Tsgit.RefName
import Tsgit.ReftableFormat

/-!
# Blocks of a Reftable

The ref and index blocks of a reftable and the searches and walks through them
(`src/domain/refs/reftable/reftable-block.ts`).
-/

namespace Tsgit.ReftableFile

open Run (Turn)

def valueTypeMask : ℕ := 0x7

def suffixShift : ℕ := 3

def blockHeaderSize : ℕ := 4

def restartEntrySize : ℕ := 3

def restartCountSize : ℕ := 2

def maxRefIndexDepth : ℕ := 64

inductive ReftableRefValue
  | deletion
  | direct (id : Text)
  | peeled (id peeledId : Text)
  | symbolic (target : Text)
  deriving DecidableEq

structure ReftableRefRecord where
  name : Text
  updateIndex : ℕ
  value : ReftableRefValue
  deriving DecidableEq

structure BlockRecord (α : Type) where
  nameBytes : Bytes
  payload : α
  nextOffset : ℕ

/-- Reads the record at a place, behind a record of the name that is given, if any. -/
abbrev RecordDecoder (α : Type) := Bytes → ℕ → Option Bytes → Except Thrown (BlockRecord α)

/-! ### The frame of a block -/

structure BlockBounds where
  recordsStart : ℕ
  recordsEnd : ℕ
  restartOffsets : List ℕ
  blockEnd : ℕ

def readRestartOffsets (bytes : Bytes) (blockStart : ℕ) (isFirstBlock : Bool)
    (recordsStart recordsEnd count : ℕ) : Except Thrown (List ℕ) :=
  (List.range count).mapM fun i => do
    let stored ← readUint24 bytes (recordsEnd + i * restartEntrySize)
    let offset := if isFirstBlock then stored else blockStart + stored
    if offset < recordsStart ∨ recordsEnd ≤ offset then
      invalidReftable .blockBounds
        (s!"block at file offset {blockStart} has restart offset {offset} outside its record " ++
          s!"area ({recordsStart}..{recordsEnd})")
    else pure offset

def declaredEnd (reftable : Reftable) (blockStart : ℕ) : Except Thrown ℕ := do
  let declaredLength ← blockLengthAt reftable blockStart
  let isFirstBlock := blockStart = reftable.header.headerLength
  return if isFirstBlock then declaredLength else blockStart + declaredLength

def boundsOf (reftable : Reftable) (blockStart blockEnd restartCount : ℕ) :
    Except Thrown BlockBounds := do
  let recordsStart := blockStart + blockHeaderSize
  let restartArraySize := restartCountSize + restartCount * restartEntrySize
  if blockEnd < recordsStart + restartArraySize then
    invalidReftable .blockBounds
      (s!"block at file offset {blockStart} declares a restart array ({restartCount} entries) " ++
        "overlapping its record area")
  else
    let recordsEnd := blockEnd - restartArraySize
    let isFirstBlock := blockStart = reftable.header.headerLength
    let restartOffsets ← readRestartOffsets reftable.bytes blockStart isFirstBlock recordsStart
      recordsEnd restartCount
    return ⟨recordsStart, recordsEnd, restartOffsets, blockEnd⟩

def readRestartCount (bytes : Bytes) (blockEnd : ℕ) : Except Thrown ℕ :=
  if blockEnd < restartCountSize then .error .rangeError
  else getUint16 bytes (blockEnd - restartCountSize)

def blockBoundsAt (reftable : Reftable) (blockStart : ℕ) : Except Thrown BlockBounds := do
  let blockEnd ← declaredEnd reftable blockStart
  if blockEnd ≤ blockStart ∨ reftable.bytes.length < blockEnd then
    invalidReftable .blockBounds
      (s!"block at file offset {blockStart} declares an out-of-bounds length (declared end " ++
        s!"{blockEnd}, file length {reftable.bytes.length})")
  else
    let restartCount ← readRestartCount reftable.bytes blockEnd
    if restartCount = 0 then
      invalidReftable .restartCount s!"block at file offset {blockStart} has restart_count 0"
    else boundsOf reftable blockStart blockEnd restartCount

/-! ### Records -/

structure PrefixedName where
  nameBytes : Bytes
  packed : ℕ
  nextOffset : ℕ

def concatPrefixSuffix (priorNameBytes : Option Bytes) (prefixLength : ℕ) (suffix : Bytes) :
    Bytes :=
  if prefixLength = 0 then suffix else (priorNameBytes.getD []).take prefixLength ++ suffix

def readSuffix (bytes : Bytes) (priorNameBytes : Option Bytes) (prefixLength : ℕ)
    (packed : Varint) : Except Thrown PrefixedName :=
  let suffixLength := packed.value / 2 ^ suffixShift
  let afterPacked := packed.nextOffset
  if bytes.length < afterPacked + suffixLength then
    invalidReftable .recordOverrun
      (s!"suffix_length {suffixLength} at byte {afterPacked} runs past the end of the file")
  else
    let suffix := subarray bytes afterPacked (afterPacked + suffixLength)
    .ok ⟨concatPrefixSuffix priorNameBytes prefixLength suffix, packed.value,
      afterPacked + suffixLength⟩

def readPrefixedName (bytes : Bytes) (offset : ℕ) (priorNameBytes : Option Bytes) :
    Except Thrown PrefixedName := do
  let prefixLength ← readVarint bytes offset
  let priorLength := (priorNameBytes.getD []).length
  if priorLength < prefixLength.value then
    invalidReftable .recordOverrun
      s!"prefix_length {prefixLength.value} exceeds predecessor name length {priorLength}"
  else
    let packed ← readVarint bytes prefixLength.nextOffset
    readSuffix bytes priorNameBytes prefixLength.value packed

def readObjectId (bytes : Bytes) (offset digestLength : ℕ) : Except Thrown Text :=
  (fromRaw (subarray bytes offset (offset + digestLength))).mapError .refusal

/-- A value, and where what follows it begins. -/
abbrev ReadValue := ReftableRefValue × ℕ

def readDirectValue (bytes : Bytes) (offset digestLength : ℕ) : Except Thrown ReadValue := do
  let id ← readObjectId bytes offset digestLength
  return (.direct id, offset + digestLength)

def readPeeledValue (bytes : Bytes) (offset digestLength : ℕ) : Except Thrown ReadValue := do
  let id ← readObjectId bytes offset digestLength
  let peeledOffset := offset + digestLength
  let peeledId ← readObjectId bytes peeledOffset digestLength
  return (.peeled id peeledId, peeledOffset + digestLength)

def decodeSafeRefName (bytes : Bytes) (subject : String) : Except Thrown Text := do
  let decoded := decode bytes
  if ← isSafeRefName decoded then
    refNameFrom decoded
  else
    invalidReftable .recordOverrun
      s!"{subject} is dangerous: {String.ofList (sliceUnits 80 decoded)}"

def readSymbolicValue (bytes : Bytes) (offset : ℕ) : Except Thrown ReadValue := do
  let length ← readVarint bytes offset
  let targetEnd := length.nextOffset + length.value
  if bytes.length < targetEnd then
    invalidReftable .recordOverrun
      (s!"symbolic ref target length {length.value} at byte {length.nextOffset} runs past the " ++
        "end of the file")
  else
    let target ← decodeSafeRefName (subarray bytes length.nextOffset targetEnd)
      "symbolic ref target"
    return (.symbolic target, targetEnd)

def readRefValue (bytes : Bytes) (offset valueType digestLength : ℕ) : Except Thrown ReadValue :=
  match valueType with
  | 0x0 => .ok (.deletion, offset)
  | 0x1 => readDirectValue bytes offset digestLength
  | 0x2 => readPeeledValue bytes offset digestLength
  | 0x3 => readSymbolicValue bytes offset
  | _ => invalidReftable .recordOverrun s!"reserved ref value_type 0x{hexText valueType}"

def refRecordDecoder (header : ReftableHeader) : RecordDecoder ReftableRefRecord :=
  fun bytes offset priorNameBytes => do
    let named ← readPrefixedName bytes offset priorNameBytes
    let valueType := named.packed &&& valueTypeMask
    let delta ← readVarint bytes named.nextOffset
    let read ← readRefValue bytes delta.nextOffset valueType header.digestLength
    let name ← decodeSafeRefName named.nameBytes "ref name"
    return ⟨named.nameBytes, ⟨name, header.minUpdateIndex + delta.value, read.1⟩, read.2⟩

def decodeIndexRecord : RecordDecoder ℕ := fun bytes offset priorNameBytes => do
  let named ← readPrefixedName bytes offset priorNameBytes
  let blockPosition ← readVarint bytes named.nextOffset
  return ⟨named.nameBytes, blockPosition.value, blockPosition.nextOffset⟩

/-! ### Inside a block -/

def assertForwardProgress (cursor nextOffset : ℕ) : Except Thrown Unit :=
  if nextOffset ≤ cursor then
    invalidReftable .recordOverrun
      s!"record at byte {cursor} made no forward progress (next offset {nextOffset})"
  else .ok ()

theorem assertForwardProgress_ok {cursor nextOffset : ℕ}
    (h : assertForwardProgress cursor nextOffset = .ok ()) : cursor < nextOffset := by
  unfold assertForwardProgress at h
  split at h
  · cases h
  · omega

section

variable {α : Type} (bytes : Bytes) (decodeRecord : RecordDecoder α)

/-- The record at `cursor`, which ends behind its start. -/
def readForward (cursor : ℕ) (priorNameBytes : Option Bytes) : Except Thrown (BlockRecord α) := do
  let record ← decodeRecord bytes cursor priorNameBytes
  assertForwardProgress cursor record.nextOffset
  return record

variable {bytes decodeRecord}

theorem readForward_ok {cursor : ℕ} {prior : Option Bytes} {record : BlockRecord α}
    (h : readForward bytes decodeRecord cursor prior = .ok record) :
    decodeRecord bytes cursor prior = .ok record ∧ cursor < record.nextOffset := by
  obtain ⟨read, hread, hrest⟩ := bind_eq_ok.mp h
  obtain ⟨⟨⟩, hforward, hsame⟩ := bind_eq_ok.mp hrest
  cases hsame
  exact ⟨hread, assertForwardProgress_ok hforward⟩

variable (bytes decodeRecord)

def walkRecordsFrom (recordsEnd cursor : ℕ) (priorNameBytes : Option Bytes) :
    Generator (BlockRecord α) Thrown Unit :=
  if cursor < recordsEnd then
    match _h : readForward bytes decodeRecord cursor priorNameBytes with
    | .error thrown => .thrown thrown
    | .ok record =>
      .yielded record (walkRecordsFrom recordsEnd record.nextOffset (some record.nameBytes))
  else .returned ()
termination_by recordsEnd - cursor
decreasing_by
  have hforward := (readForward_ok _h).2
  omega

def walkBlockRecords (bounds : BlockBounds) (resume : Option (BlockRecord α)) :
    Generator (BlockRecord α) Thrown Unit :=
  match resume with
  | none => walkRecordsFrom bytes decodeRecord bounds.recordsEnd bounds.recordsStart none
  | some record => walkRecordsFrom bytes decodeRecord bounds.recordsEnd record.nextOffset
      (some record.nameBytes)

/-- The loop of `floorRestartIndex`. A restart count has 16 bits, so the sum of two indices is
halved without a loss. -/
def floorRestartFrom (restartOffsets : List ℕ) (target : Bytes) (lo : ℕ) (hi : ℤ) (floor : ℕ) :
    Except Thrown ℕ :=
  if lo ≤ hi then
    let mid := (lo + hi.toNat) / 2
    match readPrefixedName bytes ((restartOffsets[mid]?).getD 0) none with
    | .error thrown => .error thrown
    | .ok probe =>
      if compareBytes probe.nameBytes target ≤ 0 then
        floorRestartFrom restartOffsets target (mid + 1) hi mid
      else floorRestartFrom restartOffsets target lo (mid - 1) floor
  else .ok floor
termination_by (hi + 1 - lo).toNat
decreasing_by all_goals omega

def floorRestartIndex (restartOffsets : List ℕ) (target : Bytes) : Except Thrown ℕ :=
  floorRestartFrom bytes restartOffsets target 0 (restartOffsets.length - 1) 0

/-- The loop of `findInBlock`. -/
def findRecordFrom (target : Bytes) (recordsEnd cursor : ℕ) (priorNameBytes : Option Bytes) :
    Except Thrown (Option (BlockRecord α)) :=
  if cursor < recordsEnd then
    match _h : readForward bytes decodeRecord cursor priorNameBytes with
    | .error thrown => .error thrown
    | .ok record =>
      if 0 ≤ compareBytes record.nameBytes target then .ok (some record)
      else findRecordFrom target recordsEnd record.nextOffset (some record.nameBytes)
  else .ok none
termination_by recordsEnd - cursor
decreasing_by
  have hforward := (readForward_ok _h).2
  omega

def findInBlock (bounds : BlockBounds) (target : Bytes) :
    Except Thrown (Option (BlockRecord α)) := do
  let restartIndex ← floorRestartIndex bytes bounds.restartOffsets target
  let cursor := (bounds.restartOffsets[restartIndex]?).getD 0
  findRecordFrom bytes decodeRecord target bounds.recordsEnd cursor none

end

/-! ### From block to block -/

def boundedBlockTypeAt (reftable : Reftable) (offset : ℕ) : Except Thrown Char :=
  if reftable.bytes.length < offset + blockHeaderSize then
    invalidReftable .blockBounds
      s!"block position {offset} is outside the file (length {reftable.bytes.length})"
  else blockTypeAt reftable offset

def assertBlockType (reftable : Reftable) (offset : ℕ) (expected : Char) : Except Thrown Unit := do
  let actual ← boundedBlockTypeAt reftable offset
  if actual ≠ expected then
    invalidReftable .blockType
      s!"expected block type '{expected}' at file offset {offset}, got '{actual}'"
  else pure ()

def blockAreaEnd (reftable : Reftable) : ℕ :=
  reftable.bytes.length - reftable.header.version.layout.footerLength

def refSectionEnd (reftable : Reftable) : ℕ :=
  let footer := reftable.footer
  let followingPositions :=
    [footer.refIndexPosition, footer.objPosition, footer.logPosition].filter (0 < ·)
  followingPositions.min?.getD (blockAreaEnd reftable)

def nextBlockStart (header : ReftableHeader) (blockEnd : ℕ) : ℕ :=
  if header.blockSize = 0 then blockEnd
  else (blockEnd + header.blockSize - 1) / header.blockSize * header.blockSize

def holdsRefBlock (reftable : Reftable) (position : ℕ) : Except Thrown Bool := do
  if reftable.footer.refIndexPosition = 0 then
    assertBlockType reftable position 'r'
    return true
  else
    return (← boundedBlockTypeAt reftable position) = 'r'

/-! ### Bounds that were checked -/

theorem le_nextBlockStart (header : ReftableHeader) (blockEnd : ℕ) :
    blockEnd ≤ nextBlockStart header blockEnd := by
  unfold nextBlockStart
  split
  · exact le_rfl
  · next hsize =>
    have hdiv := Nat.div_add_mod (blockEnd + header.blockSize - 1) header.blockSize
    have hmod := Nat.mod_lt (blockEnd + header.blockSize - 1) (Nat.pos_of_ne_zero hsize)
    rw [Nat.mul_comm] at hdiv
    omega

theorem boundsOf_blockEnd {reftable : Reftable} {blockStart blockEnd restartCount : ℕ}
    {bounds : BlockBounds} (h : boundsOf reftable blockStart blockEnd restartCount = .ok bounds) :
    bounds.blockEnd = blockEnd := by
  unfold boundsOf at h
  dsimp only at h
  split at h
  · cases h
  · obtain ⟨_, -, hbounds⟩ := bind_eq_ok.mp h
    cases hbounds
    rfl

theorem blockBoundsAt_ok {reftable : Reftable} {blockStart : ℕ} {bounds : BlockBounds}
    (h : blockBoundsAt reftable blockStart = .ok bounds) :
    blockStart < bounds.blockEnd ∧ bounds.blockEnd ≤ reftable.bytes.length := by
  obtain ⟨blockEnd, -, hrest⟩ := bind_eq_ok.mp h
  split at hrest
  · cases hrest
  · obtain ⟨restartCount, -, hcounted⟩ := bind_eq_ok.mp hrest
    split at hcounted
    · cases hcounted
    · rw [boundsOf_blockEnd hcounted]
      omega

/-! ### The walk from block to block -/

def forRefBlocks {m : Type → Type} [Monad m] [MonadLiftT (Except Thrown) m] {σ ρ : Type}
    (reftable : Reftable) (body : σ → ℕ → m (Turn σ ρ)) (state : σ) (position : ℕ) :
    m (Option ρ) :=
  if _hinside : position < refSectionEnd reftable then do
    if ← liftM (holdsRefBlock reftable position) then
      match ← body state position with
      | .stop answer => return some answer
      | .again next =>
        match _hbounds : blockBoundsAt reftable position with
        | .error thrown => liftM (.error thrown : Except Thrown (Option ρ))
        | .ok bounds =>
          forRefBlocks reftable body next (nextBlockStart reftable.header bounds.blockEnd)
    else return none
  else pure none
termination_by refSectionEnd reftable - position
decreasing_by
  have hend := (blockBoundsAt_ok _hbounds).1
  have hnext := le_nextBlockStart reftable.header bounds.blockEnd
  omega

def findRefInBlock (reftable : Reftable) (target : Bytes) (blockStart : ℕ) :
    Except Thrown (Option (BlockRecord ReftableRefRecord)) := do
  let bounds ← blockBoundsAt reftable blockStart
  findInBlock reftable.bytes (refRecordDecoder reftable.header) bounds target

/-- The body of the loop of `findRefBlockContaining`. -/
def findRefBlockTurn (reftable : Reftable) (target : Bytes) (_ : Unit) (blockStart : ℕ) :
    Except Thrown (Turn Unit ℕ) := do
  match ← findRefInBlock reftable target blockStart with
  | some _ => return .stop blockStart
  | none => return .again ()

def findRefBlockContaining (reftable : Reftable) (target : Bytes) : Except Thrown (Option ℕ) :=
  forRefBlocks reftable (findRefBlockTurn reftable target) () reftable.header.headerLength

/-! ### The index -/

def resolveBlockOffset (reftable : Reftable) (position : ℕ) : ℕ :=
  if position = 0 then reftable.header.headerLength else position

def descendIndexLevel (reftable : Reftable) (target : Bytes) (position : ℕ) :
    Except Thrown (Option ℕ) := do
  if (← blockTypeAt reftable position) = 'i' then
    match _h : blockBoundsAt reftable position with
    | .error thrown => .error thrown
    | .ok bounds =>
      match ← findInBlock reftable.bytes decodeIndexRecord bounds target with
      | some found => return some (resolveBlockOffset reftable found.payload)
      | none =>
        let next := nextBlockStart reftable.header bounds.blockEnd
        if blockAreaEnd reftable ≤ next then return none
        else descendIndexLevel reftable target next
  else return none
termination_by reftable.bytes.length - position
decreasing_by
  have hend := blockBoundsAt_ok _h
  have hnext : bounds.blockEnd ≤ next := le_nextBlockStart reftable.header bounds.blockEnd
  omega

def descendIndex (reftable : Reftable) (target : Bytes) : ℕ → ℕ → Except Thrown (Option ℕ)
  | 0, _ => invalidReftable .cycle
      (s!"ref index descent exceeded {maxRefIndexDepth} levels (cyclic or pathologically deep " ++
        "index)")
  | levels + 1, levelStart => do
    match ← descendIndexLevel reftable target levelStart with
    | none => return none
    | some childPosition =>
      if (← boundedBlockTypeAt reftable childPosition) ≠ 'i' then
        assertBlockType reftable childPosition 'r'
        return some childPosition
      else descendIndex reftable target levels childPosition

def resolveThroughIndex (reftable : Reftable) (target : Bytes) : Except Thrown (Option ℕ) := do
  assertBlockType reftable reftable.footer.refIndexPosition 'i'
  descendIndex reftable target maxRefIndexDepth reftable.footer.refIndexPosition

def resolveRefBlockPosition (reftable : Reftable) (target : Bytes) : Except Thrown (Option ℕ) := do
  if (← blockTypeAt reftable reftable.header.headerLength) ≠ 'r' then return none
  else if reftable.footer.refIndexPosition = 0 then findRefBlockContaining reftable target
  else resolveThroughIndex reftable target

/-! ### The operations -/

def lookupReftableRef (table : Reftable) (name : Text) :
    Except Thrown (Option ReftableRefRecord) := do
  let target := encode name
  match ← resolveRefBlockPosition table target with
  | none => return none
  | some blockStart =>
    match ← findRefInBlock table target blockStart with
    | none => return none
    | some found => return if found.nameBytes = target then some found.payload else none

/-- A walk over records, which hands out their payloads. -/
abbrev RefIteration (α : Type) := Generator ReftableRefRecord Thrown α

def blockPayloads (table : Reftable) (bounds : BlockBounds)
    (resume : Option (BlockRecord ReftableRefRecord)) : RefIteration Unit :=
  (walkBlockRecords table.bytes (refRecordDecoder table.header) bounds resume).mapItems (·.payload)

/-- The body of the loop of `iterateReftableRefsFrom`, where `reached` says whether the search has
been made. -/
def iterateFromTurn (table : Reftable) (target : Bytes) (reached : Bool) (blockStart : ℕ) :
    RefIteration (Turn Bool Unit) := do
  let bounds ← liftM (blockBoundsAt table blockStart)
  if reached then
    blockPayloads table bounds none
    return .again true
  else
    match ← liftM (findInBlock table.bytes (refRecordDecoder table.header) bounds target) with
    | none => return .again true
    | some seek =>
      Generator.yield seek.payload
      blockPayloads table bounds (some seek)
      return .again true

def iterateReftableRefsFrom (table : Reftable) (start : Text) : RefIteration Unit := do
  let target := encode start
  match ← liftM (resolveRefBlockPosition table target) with
  | none => return ()
  | some startBlock =>
    let _ ← forRefBlocks table (iterateFromTurn table target) false startBlock
    return ()

def iterateTurn (table : Reftable) (_ : Unit) (blockStart : ℕ) : RefIteration (Turn Unit Unit) := do
  let bounds ← liftM (blockBoundsAt table blockStart)
  blockPayloads table bounds none
  return .again ()

def iterateReftableRefs (table : Reftable) : RefIteration Unit := do
  if (← liftM (blockTypeAt table table.header.headerLength)) ≠ 'r' then return ()
  else
    let _ ← forRefBlocks table (iterateTurn table) () table.header.headerLength
    return ()

end Tsgit.ReftableFile
