import Tsgit.PackEntry
import Tsgit.ReftableFormat

/-!
# The Packfile Writer

`serializePackfile` of `src/domain/storage/pack-writer.ts` and the pack headers of
`src/domain/storage/pack-entry.ts`. An OFS_DELTA entry names its base by its place in the
list, and its bytes state how far in front of the entry that base starts.

`entryChunks` says what is written without any offset: the distance to a base is the length of
everything from the base up to the entry.
-/

open List

namespace Tsgit.PackWriter

open PackEntry

/-! ### The header of a pack -/

def packMagic : ℕ := 0x5041434b
def generatedPackVersion : ℕ := 2
def packHeaderSize : ℕ := 12

structure PackHeader where
  version : ℕ
  objectCount : ℕ
  deriving DecidableEq

def refuseHeader {α : Type} (reason : String) : Except Thrown α :=
  .error (.refusal (.invalidPackHeader reason))

def parsePackHeader (bytes : Bytes) : Except Thrown PackHeader := do
  if bytes.length < packHeaderSize then
    refuseHeader "truncated: pack header requires 12 bytes"
  else
    let magic ← getUint32 bytes 0
    if magic ≠ packMagic then
      refuseHeader s!"invalid magic: expected 0x5041434b, got 0x{hexWord magic}"
    else
      let version ← getUint32 bytes 4
      if version ≠ 2 ∧ version ≠ 3 then
        refuseHeader s!"unsupported version: expected 2 or 3, got {version}"
      else
        let objectCount ← getUint32 bytes 8
        pure ⟨version, objectCount⟩

def serializePackHeader (version objectCount : ℕ) : Except Thrown Bytes := do
  let bytes ← setUint32 (replicate packHeaderSize 0) 0 packMagic
  let bytes ← setUint32 bytes 4 version
  setUint32 bytes 8 objectCount

/-! ### Entries -/

inductive BasePackEntryType
  | commit
  | tree
  | blob
  | tag
  deriving DecidableEq

def BasePackEntryType.packType : BasePackEntryType → PackEntryType
  | commit => .commit
  | tree => .tree
  | blob => .blob
  | tag => .tag

/-- `PackWriterEntry`; `baseIndex` is the place of a base in the same list. -/
inductive PackWriterEntry
  | base (type : BasePackEntryType) (uncompressedSize : ℕ) (compressedData : Bytes)
  | ofsDelta (uncompressedSize : ℕ) (compressedData : Bytes) (baseIndex : ℤ)
  deriving DecidableEq

namespace PackWriterEntry

def packType : PackWriterEntry → PackEntryType
  | base type _ _ => type.packType
  | ofsDelta _ _ _ => .ofsDelta

def uncompressedSize : PackWriterEntry → ℕ
  | base _ size _ => size
  | ofsDelta size _ _ => size

def compressedData : PackWriterEntry → Bytes
  | base _ _ data => data
  | ofsDelta _ data _ => data

end PackWriterEntry

structure PackEntryMeta where
  crc32 : ℕ
  offset : ℕ
  deriving DecidableEq

structure PackfileResult where
  data : Bytes
  entries : List PackEntryMeta
  deriving DecidableEq

def refuseEntry {α : Type} (offset : ℕ) (reason : String) : Except Thrown α :=
  .error (.refusal (.invalidPackEntry offset reason))

/-- An index is an integer here; the source refuses any other number as out of range. -/
def assertValidBaseIndex (baseIndex : ℤ) (i offset : ℕ) : Except Thrown Unit :=
  if baseIndex ≥ i then
    refuseEntry offset s!"OFS_DELTA base index {baseIndex} is not before entry {i}"
  else if baseIndex < 0 then refuseEntry offset s!"OFS_DELTA base index {baseIndex} out of range"
  else .ok ()

/-- A place outside of `offsets` would make the distance `NaN`, which has no bits set. -/
def encodeEntryBytes (entry : PackWriterEntry) (offsets : List ℕ) (currentOffset : ℕ) : Bytes :=
  let entryHeader := encodePackEntryHeader entry.packType entry.uncompressedSize
  match entry with
  | .base _ _ compressedData => entryHeader ++ compressedData
  | .ofsDelta _ compressedData baseIndex =>
    let distance := encodeOfsDistance
      (((offsets[baseIndex.toNat]?).map (currentOffset - ·)).getD 0)
    entryHeader ++ distance ++ compressedData

/-! ### The writer -/

/-- What the loop of `serializePackfile` keeps. -/
structure WriterState where
  chunks : List Bytes
  metas : List PackEntryMeta
  offsets : List ℕ
  currentOffset : ℕ

def checkBaseIndex (entry : PackWriterEntry) (i offset : ℕ) : Except Thrown Unit :=
  match entry with
  | .base _ _ _ => .ok ()
  | .ofsDelta _ _ baseIndex => assertValidBaseIndex baseIndex i offset

/-- One turn of the loop. -/
def writeEntry (i : ℕ) (state : WriterState) (entry : PackWriterEntry) :
    Except Thrown WriterState := do
  checkBaseIndex entry i state.currentOffset
  let entryBytes := encodeEntryBytes entry state.offsets state.currentOffset
  pure {
    chunks := state.chunks ++ [entryBytes]
    metas := state.metas ++ [⟨crc32 entryBytes, state.currentOffset⟩]
    offsets := state.offsets ++ [state.currentOffset]
    currentOffset := state.currentOffset + entryBytes.length }

def writeEntries : ℕ → WriterState → List PackWriterEntry → Except Thrown WriterState
  | _, state, [] => pure state
  | i, state, entry :: rest => do
    let state ← writeEntry i state entry
    writeEntries (i + 1) state rest

def serializePackfile (entries : List PackWriterEntry) : Except Thrown PackfileResult := do
  let header ← serializePackHeader generatedPackVersion entries.length
  let state ← writeEntries 0 ⟨[header], [], [], header.length⟩ entries
  pure ⟨state.chunks.flatten, state.metas⟩

/-! ### What is written -/

def entryHead (written : List Bytes) : PackWriterEntry → Bytes
  | .base type size _ => encodePackEntryHeader type.packType size
  | .ofsDelta size _ baseIndex =>
    encodePackEntryHeader .ofsDelta size ++
      encodeOfsDistance (written.drop baseIndex.toNat).flatten.length

def entryChunk (written : List Bytes) (entry : PackWriterEntry) : Bytes :=
  entryHead written entry ++ entry.compressedData

def entryChunks : List Bytes → List PackWriterEntry → List Bytes
  | written, [] => written
  | written, entry :: rest => entryChunks (written ++ [entryChunk written entry]) rest

/-- The records of entries that start at `offset`. -/
def metasFrom : ℕ → List Bytes → List PackEntryMeta
  | _, [] => []
  | offset, chunk :: rest => ⟨crc32 chunk, offset⟩ :: metasFrom (offset + chunk.length) rest

def headerBytes (objectCount : ℕ) : Bytes :=
  uint32Bytes packMagic ++ (uint32Bytes generatedPackVersion ++ uint32Bytes objectCount)

theorem serializePackHeader_eq (objectCount : ℕ) :
    serializePackHeader generatedPackVersion objectCount = .ok (headerBytes objectCount) := rfl

theorem length_headerBytes (objectCount : ℕ) :
    (headerBytes objectCount).length = packHeaderSize := rfl

theorem metasFrom_append (offset : ℕ) (front back : List Bytes) :
    metasFrom offset (front ++ back) =
      metasFrom offset front ++ metasFrom (offset + front.flatten.length) back := by
  induction front generalizing offset with
  | nil => rfl
  | cons chunk front ih =>
    rw [cons_append, metasFrom, ih, metasFrom, cons_append, flatten_cons,
      length_append, Nat.add_assoc]

theorem getElem?_metasFrom (offset : ℕ) (chunks : List Bytes) (i : ℕ) :
    (metasFrom offset chunks)[i]? =
      chunks[i]?.map fun chunk => ⟨crc32 chunk, offset + (chunks.take i).flatten.length⟩ := by
  induction chunks generalizing offset i with
  | nil => rfl
  | cons chunk chunks ih =>
    cases i with
    | zero => simp [metasFrom]
    | succ i => simp [metasFrom, ih, Nat.add_assoc]

theorem length_metasFrom (offset : ℕ) (chunks : List Bytes) :
    (metasFrom offset chunks).length = chunks.length := by
  induction chunks generalizing offset with
  | nil => rfl
  | cons chunk chunks ih => rw [metasFrom, length_cons, ih, length_cons]

/-- The state of the loop once the entries `written` are in. -/
def stateOf (header : Bytes) (written : List Bytes) : WriterState where
  chunks := header :: written
  metas := metasFrom header.length written
  offsets := (metasFrom header.length written).map (·.offset)
  currentOffset := header.length + written.flatten.length

/-- **What the loop looks up is the length from the base on.** -/
theorem encodeEntryBytes_stateOf (header : Bytes) {written : List Bytes} {entry : PackWriterEntry}
    (hbase : ∀ size data baseIndex, entry = .ofsDelta size data baseIndex →
      baseIndex.toNat < written.length) :
    encodeEntryBytes entry (stateOf header written).offsets (stateOf header written).currentOffset =
      entryChunk written entry := by
  cases entry with
  | base type size data => rfl
  | ofsDelta size data baseIndex =>
    have hlt := hbase size data baseIndex rfl
    have hoffset : (stateOf header written).offsets[baseIndex.toNat]? =
        some (header.length + (written.take baseIndex.toNat).flatten.length) := by
      rw [stateOf, getElem?_map, getElem?_metasFrom, getElem?_eq_getElem hlt]
      rfl
    have hsplit : written.flatten.length = (written.take baseIndex.toNat).flatten.length +
        (written.drop baseIndex.toNat).flatten.length := by
      rw [← length_append, ← flatten_append, take_append_drop]
    have hdistance : (stateOf header written).currentOffset -
        (header.length + (written.take baseIndex.toNat).flatten.length) =
          (written.drop baseIndex.toNat).flatten.length := by
      rw [stateOf, hsplit]
      dsimp only
      omega
    rw [encodeEntryBytes, hoffset]
    dsimp only [Option.map_some, Option.getD_some]
    rw [hdistance]
    rfl

def BasesEarlier (i : ℕ) (entries : List PackWriterEntry) : Prop :=
  ∀ k size data (baseIndex : ℤ), entries[k]? = some (.ofsDelta size data baseIndex) →
    0 ≤ baseIndex ∧ baseIndex < (i + k : ℕ)

variable {entry : PackWriterEntry}

theorem checkBaseIndex_ok {i offset : ℕ}
    (hbase : ∀ size data baseIndex, entry = .ofsDelta size data baseIndex →
      0 ≤ baseIndex ∧ baseIndex < i) : checkBaseIndex entry i offset = .ok () := by
  cases entry with
  | base type size data => rfl
  | ofsDelta size data baseIndex =>
    obtain ⟨hnonneg, hlt⟩ := hbase size data baseIndex rfl
    rw [checkBaseIndex, assertValidBaseIndex, if_neg (Int.not_le.mpr hlt),
      if_neg (Int.not_lt.mpr hnonneg)]

/-- **The loop**: it appends the entries to those already written. -/
theorem writeEntries_eq (header : Bytes) {written : List Bytes} {entries : List PackWriterEntry}
    (hbases : BasesEarlier written.length entries) :
    writeEntries written.length (stateOf header written) entries =
      .ok (stateOf header (entryChunks written entries)) := by
  induction entries generalizing written with
  | nil => rfl
  | cons entry rest ih =>
    have hentry : ∀ size data baseIndex, entry = .ofsDelta size data baseIndex →
        0 ≤ baseIndex ∧ baseIndex < written.length := by
      intro size data baseIndex heq
      have := hbases 0 size data baseIndex (congrArg some heq)
      rwa [Nat.add_zero] at this
    have hlookup := @encodeEntryBytes_stateOf header written entry fun size data baseIndex heq => by
      have := hentry size data baseIndex heq
      omega
    have hstep : writeEntry written.length (stateOf header written) entry =
        .ok (stateOf header (written ++ [entryChunk written entry])) := by
      rw [writeEntry, checkBaseIndex_ok hentry, hlookup]
      simp [bind, Except.bind, pure, Except.pure, stateOf, metasFrom_append, metasFrom,
        Nat.add_assoc]
    have hrest : BasesEarlier (written ++ [entryChunk written entry]).length rest := by
      intro k size data baseIndex hk
      have := hbases (k + 1) size data baseIndex hk
      rw [length_append, length_singleton]
      omega
    have hnext := ih hrest
    rw [length_append, length_singleton] at hnext
    rw [writeEntries, ok_bind_eq hstep]
    exact hnext

/-- **The file and the records.** -/
theorem serializePackfile_eq {entries : List PackWriterEntry} (hbases : BasesEarlier 0 entries) :
    serializePackfile entries = .ok ⟨headerBytes entries.length ++ (entryChunks [] entries).flatten,
      metasFrom packHeaderSize (entryChunks [] entries)⟩ := by
  have hloop : writeEntries 0 (stateOf (headerBytes entries.length) []) entries =
      .ok (stateOf (headerBytes entries.length) (entryChunks [] entries)) :=
    @writeEntries_eq _ [] entries hbases
  rw [serializePackfile, ok_bind_eq (serializePackHeader_eq entries.length)]
  exact ok_bind_eq hloop

/-! ### Reading it back -/

theorem length_entryChunks (written : List Bytes) (entries : List PackWriterEntry) :
    (entryChunks written entries).length = written.length + entries.length := by
  induction entries generalizing written with
  | nil => rfl
  | cons entry rest ih =>
    rw [entryChunks, ih, length_append, length_singleton, length_cons]
    omega

/-- What is written stays. -/
theorem take_entryChunks (written : List Bytes) (entries : List PackWriterEntry) :
    (entryChunks written entries).take written.length = written := by
  induction entries generalizing written with
  | nil => exact take_length
  | cons entry rest ih =>
    have htake := congrArg (take written.length) (ih (written ++ [entryChunk written entry]))
    rwa [take_take, take_left, length_append, length_singleton,
      Nat.min_eq_left (Nat.le_succ _)] at htake

theorem getElem?_entryChunks {written : List Bytes} {entries : List PackWriterEntry} {i : ℕ}
    {entry : PackWriterEntry} (h : entries[i]? = some entry) :
    (entryChunks written entries)[written.length + i]? =
      some (entryChunk ((entryChunks written entries).take (written.length + i)) entry) := by
  induction entries generalizing written i with
  | nil => cases h
  | cons first rest ih =>
    rw [entryChunks]
    cases i with
    | zero =>
      obtain rfl := Option.some.inj h
      have htake := take_entryChunks (written ++ [entryChunk written first]) rest
      rw [length_append, length_singleton] at htake
      have hwritten := congrArg (take written.length) htake
      rw [take_take, Nat.min_eq_left (Nat.le_succ _), take_left] at hwritten
      have hlast := congrArg (fun chunks => chunks[written.length]?) htake
      rw [getElem?_take_of_lt (Nat.lt_succ_self _),
        getElem?_append_right (le_refl _), Nat.sub_self] at hlast
      rw [Nat.add_zero, hwritten, hlast]
      rfl
    | succ i =>
      have hnext := @ih (written ++ [entryChunk written first]) i h
      rw [length_append, length_singleton] at hnext
      rwa [Nat.add_comm i 1, ← Nat.add_assoc]

theorem encodePackEntryHeader_mod (type : PackEntryType) (size : ℕ) :
    encodePackEntryHeader type size = encodePackEntryHeader type (size % 2 ^ 32) := by
  have hnibble : size % 2 ^ 32 &&& 0x0f = size &&& 0x0f := by
    rw [Nat.and_two_pow_sub_one_eq_mod _ 4, Nat.and_two_pow_sub_one_eq_mod _ 4]
    omega
  rw [encodePackEntryHeader, encodePackEntryHeader, hnibble, Nat.mod_mod]

theorem encodeOfsDistance_mod (distance : ℕ) :
    encodeOfsDistance distance = encodeOfsDistance (distance % 2 ^ 32) := by
  have hlow : distance % 2 ^ 32 &&& 0x7f = distance &&& 0x7f := by
    rw [Nat.and_two_pow_sub_one_eq_mod _ 7, Nat.and_two_pow_sub_one_eq_mod _ 7]
    omega
  rw [encodeOfsDistance, encodeOfsDistance, hlow, Nat.mod_mod]

theorem decodeTypeAndSize_lt {bytes : Bytes} {offset type nextPos : ℕ} {size : ℤ}
    (h : decodeTypeAndSize bytes offset = .ok (type, size, nextPos)) : size < 2 ^ 31 := by
  unfold decodeTypeAndSize at h
  split at h
  · cases h
  · obtain ⟨⟨final, pos⟩, -, h⟩ := bind_eq_ok.mp h
    cases h
    have := BitVec.toInt_lt (x := final)
    omega

/-- **What a written header is read as**; `read` is its size. -/
theorem parsePackEntryHeader_size (type : PackEntryType) (size : ℕ) (pre rest : Bytes) :
    ∃ read : ℤ, (read = (size : ℤ) ↔ size < 2 ^ 31) ∧
      decodeTypeAndSize (pre ++ (encodePackEntryHeader type size ++ rest)) pre.length =
        .ok (type.code, read, pre.length + (encodePackEntryHeader type size).length) := by
  obtain ⟨read, hread, hexact⟩ :=
    decodeTypeAndSize_encode type (Nat.mod_lt size (Nat.two_pow_pos 32)) pre rest
  rw [← encodePackEntryHeader_mod] at hread
  refine ⟨read, ?_, hread⟩
  have hbound := decodeTypeAndSize_lt hread
  constructor
  · rintro rfl
    omega
  · intro hsmall
    rw [Nat.mod_eq_of_lt (by omega)] at hexact
    exact hexact.mpr hsmall

def PackWriterEntry.readAs (entry : PackWriterEntry) (size : ℤ) (dataOffset distance : ℕ) :
    PackEntryHeader :=
  match entry with
  | .base type _ _ => .base type.packType.code size dataOffset
  | .ofsDelta _ _ _ => .ofsDelta size dataOffset distance

/-- How far in front of an entry its base starts. -/
def baseDistance (written : List Bytes) : PackWriterEntry → ℕ
  | .base _ _ _ => 0
  | .ofsDelta _ _ baseIndex => (written.drop baseIndex.toNat).flatten.length

/-- **What a written entry is read as.** -/
theorem parse_entryChunk (written : List Bytes) (entry : PackWriterEntry) (pre rest : Bytes)
    (digestLength : ℕ) :
    ∃ read : ℤ, (read = (entry.uncompressedSize : ℤ) ↔ entry.uncompressedSize < 2 ^ 31) ∧
      parsePackEntryHeader (pre ++ (entryChunk written entry ++ rest)) pre.length digestLength =
        .ok (entry.readAs read (pre.length + (entryHead written entry).length)
          (baseDistance written entry % 2 ^ 32)) := by
  cases entry with
  | base type size data =>
    obtain ⟨read, hexact, hread⟩ := parsePackEntryHeader_size type.packType size pre (data ++ rest)
    refine ⟨read, hexact, ?_⟩
    have hbytes : entryChunk written (.base type size data) ++ rest =
        encodePackEntryHeader type.packType size ++ (data ++ rest) := append_assoc ..
    rw [hbytes, parsePackEntryHeader]
    refine (ok_bind_eq hread).trans ?_
    dsimp only
    rw [ok_bind_eq (validateEntryType_code type.packType pre.length)]
    cases type <;> rfl
  | ofsDelta size data baseIndex =>
    obtain ⟨read, hexact, hread⟩ := parsePackEntryHeader_size .ofsDelta size pre
      (encodeOfsDistance (written.drop baseIndex.toNat).flatten.length ++ (data ++ rest))
    refine ⟨read, hexact, ?_⟩
    have hdistance := decodeOfsDistance_encode pre.length
      (Nat.mod_lt (written.drop baseIndex.toNat).flatten.length (Nat.two_pow_pos 32))
      (pre ++ encodePackEntryHeader .ofsDelta size) (data ++ rest)
    rw [← encodeOfsDistance_mod, length_append, append_assoc] at hdistance
    have hbytes : entryChunk written (.ofsDelta size data baseIndex) ++ rest =
        encodePackEntryHeader .ofsDelta size ++
          (encodeOfsDistance (written.drop baseIndex.toNat).flatten.length ++ (data ++ rest)) := by
      simp only [entryChunk, entryHead, PackWriterEntry.compressedData, append_assoc]
    rw [hbytes, parsePackEntryHeader]
    refine (ok_bind_eq hread).trans ?_
    dsimp only
    rw [ok_bind_eq (validateEntryType_code .ofsDelta pre.length), if_pos rfl]
    refine (ok_bind_eq hdistance).trans ?_
    rw [PackWriterEntry.readAs, baseDistance, entryHead, length_append, Nat.add_assoc]
    rfl

/-! ### The file as a whole -/

/-- Where the entry `i` starts by the records; behind the last entry, where the file ends. -/
def PackfileResult.startOf (result : PackfileResult) (i : ℕ) : ℕ :=
  ((result.entries[i]?).map (·.offset)).getD result.data.length

def PackfileResult.distanceOf (result : PackfileResult) (i : ℕ) : PackWriterEntry → ℕ
  | .base _ _ _ => 0
  | .ofsDelta _ _ baseIndex => result.startOf i - result.startOf baseIndex.toNat

/-- The file reads back as the entries it was written from. -/
structure Faithful (entries : List PackWriterEntry) (digestLength : ℕ) (result : PackfileResult) :
    Prop where
  /-- The header counts the entries. -/
  header : parsePackHeader result.data = .ok ⟨generatedPackVersion, entries.length⟩
  recorded : result.entries.length = entries.length
  first : result.startOf 0 = packHeaderSize
  /-- A base starts in front of the entries that name it. -/
  base_lt : ∀ i size data (baseIndex : ℤ), entries[i]? = some (.ofsDelta size data baseIndex) →
    result.startOf baseIndex.toNat < result.startOf i
  /-- A header states type, size and distance of its entry; its data follows, up to where the
  next entry starts. -/
  entry : ∀ i (entry : PackWriterEntry), entries[i]? = some entry → ∃ dataOffset,
    parsePackEntryHeader result.data (result.startOf i) digestLength =
        .ok (entry.readAs entry.uncompressedSize dataOffset (result.distanceOf i entry)) ∧
      result.startOf (i + 1) = dataOffset + entry.compressedData.length ∧
      subarray result.data dataOffset (result.startOf (i + 1)) = entry.compressedData

def packedLength (lengths : List ℕ) : PackWriterEntry → ℕ
  | .base type size data => (encodePackEntryHeader type.packType size).length + data.length
  | .ofsDelta size data baseIndex =>
    (encodePackEntryHeader .ofsDelta size).length +
      (encodeOfsDistance (lengths.drop baseIndex.toNat).sum).length + data.length

def packedLengths : List ℕ → List PackWriterEntry → List ℕ
  | lengths, [] => lengths
  | lengths, entry :: rest => packedLengths (lengths ++ [packedLength lengths entry]) rest

/-- The sizes of the entries are below `2 ^ 31`; their number, and what lies between a delta and its
base, below `2 ^ 32`. -/
structure Fits (entries : List PackWriterEntry) : Prop where
  count : entries.length < 2 ^ 32
  size : ∀ (i : ℕ) entry, entries[i]? = some entry → entry.uncompressedSize < 2 ^ 31
  distance : ∀ i size data (baseIndex : ℤ), entries[i]? = some (.ofsDelta size data baseIndex) →
    (((packedLengths [] entries).take i).drop baseIndex.toNat).sum < 2 ^ 32

theorem packedLength_map (written : List Bytes) (entry : PackWriterEntry) :
    packedLength (written.map length) entry = (entryChunk written entry).length := by
  cases entry with
  | base type size data => exact (length_append ..).symm
  | ofsDelta size data baseIndex =>
    rw [packedLength, ← map_drop, ← length_flatten, entryChunk, entryHead,
      length_append, length_append]
    rfl

theorem packedLengths_map (written : List Bytes) (entries : List PackWriterEntry) :
    packedLengths (written.map length) entries =
      (entryChunks written entries).map length := by
  induction entries generalizing written with
  | nil => rfl
  | cons entry rest ih =>
    rw [packedLengths, packedLength_map, entryChunks, ← ih, map_append, map_singleton]

theorem parsePackHeader_headerBytes (objectCount : ℕ) (body : Bytes) :
    parsePackHeader (headerBytes objectCount ++ body) =
      .ok ⟨generatedPackVersion, objectCount % 2 ^ 32⟩ := by
  have hlong : ¬ (headerBytes objectCount ++ body).length < packHeaderSize := by
    rw [length_append, length_headerBytes]
    omega
  have hword (offset value : ℕ) (hfits : offset + 4 ≤ packHeaderSize)
      (hheld : Holds (headerBytes objectCount) offset (uint32Bytes value)) :
      getUint32 (headerBytes objectCount ++ body) offset = .ok (value % 2 ^ 32) := by
    have hlength : offset + 4 ≤ (headerBytes objectCount ++ body).length := by omega
    have hhere := (holds_append [] (headerBytes objectCount) body).trans hheld hfits
    rw [getUint32, if_pos hlength, ← bigEndian_uint32Bytes]
    have hwindow := hhere.subarray_eq
    rw [nil_append, length_nil, Nat.zero_add] at hwindow
    exact congrArg (fun bytes => Except.ok (bigEndian bytes)) hwindow
  have hmagic := hword 0 packMagic (by decide) (holds_append [] _ _)
  have hversion := hword 4 generatedPackVersion (by decide) (holds_append (uint32Bytes packMagic) _ _)
  have hcount := hword 8 objectCount (by decide)
    (holds_append (uint32Bytes packMagic ++ uint32Bytes generatedPackVersion) _ [])
  rw [parsePackHeader, if_neg hlong, ok_bind_eq hmagic, if_neg (by decide), ok_bind_eq hversion,
    if_neg (by decide), ok_bind_eq hcount]
  rfl

section

variable {entries : List PackWriterEntry}

def packfile (entries : List PackWriterEntry) : PackfileResult :=
  ⟨headerBytes entries.length ++ (entryChunks [] entries).flatten,
    metasFrom packHeaderSize (entryChunks [] entries)⟩

theorem length_entryChunks_nil : (entryChunks [] entries).length = entries.length := by
  rw [length_entryChunks, length_nil, Nat.zero_add]

/-- The starts that are recorded. -/
theorem startOf_packfile (i : ℕ) :
    (packfile entries).startOf i =
      (headerBytes entries.length ++ ((entryChunks [] entries).take i).flatten).length := by
  rw [length_append, length_headerBytes, PackfileResult.startOf, packfile, getElem?_metasFrom]
  rcases Nat.lt_or_ge i entries.length with hlt | hge
  · rw [getElem?_eq_getElem (by rwa [length_entryChunks_nil])]
    rfl
  · rw [getElem?_eq_none (by rwa [length_entryChunks_nil]),
      take_of_length_le (by rwa [length_entryChunks_nil])]
    exact length_append

theorem startOf_add {i base : ℕ} (hbase : base ≤ i) :
    (packfile entries).startOf i = (packfile entries).startOf base +
      (((entryChunks [] entries).take i).drop base).flatten.length := by
  have hsplit := congrArg (fun chunks => (List.flatten chunks).length)
    (take_append_drop base ((entryChunks [] entries).take i))
  rw [take_take, Nat.min_eq_left hbase, flatten_append, length_append] at hsplit
  rw [startOf_packfile, startOf_packfile, length_append, length_append]
  omega

theorem data_packfile {i : ℕ} (h : entries[i]? = some entry) :
    ∃ front back, front.length = (packfile entries).startOf i ∧ (packfile entries).data =
        front ++ (entryChunk ((entryChunks [] entries).take i) entry ++ back) ∧
      (packfile entries).startOf (i + 1) = (packfile entries).startOf i +
        (entryChunk ((entryChunks [] entries).take i) entry).length := by
  have hchunk : (entryChunks [] entries)[i]? =
      some (entryChunk ((entryChunks [] entries).take i) entry) := by
    have hwritten := @getElem?_entryChunks [] _ _ _ h
    rwa [length_nil, Nat.zero_add] at hwritten
  have hdrop := drop_eq_cons hchunk
  refine ⟨headerBytes entries.length ++ ((entryChunks [] entries).take i).flatten,
    ((entryChunks [] entries).drop (i + 1)).flatten, (startOf_packfile i).symm, ?_, ?_⟩
  · rw [packfile]
    dsimp only
    conv_lhs => rw [← take_append_drop i (entryChunks [] entries)]
    rw [flatten_append, hdrop, flatten_cons, append_assoc]
  · rw [startOf_packfile, startOf_packfile, take_add_one, hchunk, Option.toList_some,
      flatten_append, flatten_singleton, ← append_assoc, length_append]

theorem startOf_lt {i base : ℕ} (hbase : base < i) (h : i < entries.length) :
    (packfile entries).startOf base < (packfile entries).startOf i := by
  have hentry := getElem?_eq_getElem (Nat.lt_trans hbase h)
  obtain ⟨_, _, -, -, hnext⟩ := data_packfile hentry
  have hpos : 0 < (entryChunk ((entryChunks [] entries).take base) entries[base]).length := by
    rw [entryChunk, length_append]
    cases entries[base] <;> exact Nat.lt_of_lt_of_le (Nat.succ_pos _) (Nat.le_add_right _ _)
  have hadd := @startOf_add entries i (base + 1) hbase
  omega

/-- **An entry of the file reads back exactly if its size and its distance fit.** -/
theorem entry_packfile_iff (digestLength : ℕ) {i : ℕ}
    (hbases : BasesEarlier 0 entries) (h : entries[i]? = some entry) :
    (∃ dataOffset, parsePackEntryHeader (packfile entries).data ((packfile entries).startOf i)
        digestLength = .ok (entry.readAs entry.uncompressedSize dataOffset
          ((packfile entries).distanceOf i entry)) ∧
      (packfile entries).startOf (i + 1) = dataOffset + entry.compressedData.length ∧
      subarray (packfile entries).data dataOffset ((packfile entries).startOf (i + 1)) =
        entry.compressedData) ↔
    entry.uncompressedSize < 2 ^ 31 ∧ (packfile entries).distanceOf i entry < 2 ^ 32 := by
  obtain ⟨front, back, hfront, hdata, hnext⟩ := data_packfile h
  obtain ⟨read, hexact, hparse⟩ :=
    parse_entryChunk ((entryChunks [] entries).take i) entry front back digestLength
  have hdistance : (packfile entries).distanceOf i entry =
      baseDistance ((entryChunks [] entries).take i) entry := by
    cases entry with
    | base type size data => rfl
    | ofsDelta size data baseIndex =>
      obtain ⟨hnonneg, hlt⟩ := hbases i size data baseIndex h
      have hadd : (packfile entries).startOf i = (packfile entries).startOf baseIndex.toNat +
          (((entryChunks [] entries).take i).drop baseIndex.toNat).flatten.length :=
        startOf_add (by omega)
      rw [PackfileResult.distanceOf, hadd, Nat.add_sub_cancel_left]
      rfl
  rw [← hdata, hfront] at hparse
  rw [hparse, hdistance]
  constructor
  · rintro ⟨dataOffset, hread, -⟩
    have hread := Except.ok.inj hread
    cases entry with
    | base type size data =>
      injection hread with _ hsize _
      exact ⟨hexact.mp hsize, Nat.two_pow_pos 32⟩
    | ofsDelta size data baseIndex =>
      injection hread with hsize _ hdist
      refine ⟨hexact.mp hsize, ?_⟩
      have := Nat.mod_lt (baseDistance ((entryChunks [] entries).take i)
        (.ofsDelta size data baseIndex)) (Nat.two_pow_pos 32)
      omega
  · rintro ⟨hsize, hdist⟩
    have hend : (packfile entries).startOf (i + 1) = (packfile entries).startOf i +
        (entryHead ((entryChunks [] entries).take i) entry).length + entry.compressedData.length := by
      rw [hnext, entryChunk, length_append, Nat.add_assoc]
    refine ⟨_, ?_, hend, ?_⟩
    · rw [hexact.mpr hsize, Nat.mod_eq_of_lt hdist]
    · have hwindow := subarray_append_left
        (front ++ entryHead ((entryChunks [] entries).take i) entry) entry.compressedData back
      rw [hend, hdata, entryChunk]
      rwa [length_append, hfront, append_assoc, ← append_assoc _ _ back] at hwindow

end

/-- **The packfile writer**: the file reads back exactly if the sizes, the distances and the number
of the entries fit. -/
theorem serializePackfile_faithful_iff (entries : List PackWriterEntry) (digestLength : ℕ)
    (hbases : BasesEarlier 0 entries) :
    ∃ result, serializePackfile entries = .ok result ∧
      (Faithful entries digestLength result ↔ Fits entries) := by
  have hlengths : packedLengths [] entries = (entryChunks [] entries).map length :=
    packedLengths_map [] entries
  have hdistance (i : ℕ) (base : ℕ) (hbase : base ≤ i) :
      (((packedLengths [] entries).take i).drop base).sum =
        (packfile entries).startOf i - (packfile entries).startOf base := by
    rw [@startOf_add entries i base hbase, Nat.add_sub_cancel_left, hlengths, ← map_take,
      ← map_drop, length_flatten]
  have hheader : parsePackHeader (packfile entries).data =
      .ok ⟨generatedPackVersion, entries.length % 2 ^ 32⟩ := parsePackHeader_headerBytes _ _
  refine ⟨packfile entries, serializePackfile_eq hbases, ?_, ?_⟩
  · intro hfaithful
    refine ⟨?_, ?_, ?_⟩
    · have hcount := hheader.symm.trans hfaithful.header
      injection hcount with hcount
      injection hcount with _ hcount
      have := Nat.mod_lt entries.length (Nat.two_pow_pos 32)
      omega
    · intro i entry hentry
      exact ((entry_packfile_iff digestLength hbases hentry).mp (hfaithful.entry i entry hentry)).1
    · intro i size data baseIndex hentry
      obtain ⟨hnonneg, hlt⟩ := hbases i size data baseIndex hentry
      rw [hdistance i baseIndex.toNat (by omega)]
      exact ((entry_packfile_iff digestLength hbases hentry).mp
        (hfaithful.entry i _ hentry)).2
  · intro hfits
    refine ⟨?_, ?_, ?_, ?_, ?_⟩
    · rw [hheader, Nat.mod_eq_of_lt hfits.count]
    · rw [packfile, length_metasFrom, length_entryChunks_nil]
    · rw [startOf_packfile, length_append, length_headerBytes]
      rfl
    · intro i size data baseIndex hentry
      obtain ⟨hnonneg, hlt⟩ := hbases i size data baseIndex hentry
      exact startOf_lt (by omega) (List.getElem?_eq_some_iff.mp hentry).1
    · intro i entry hentry
      refine (entry_packfile_iff digestLength hbases hentry).mpr ⟨hfits.size i entry hentry, ?_⟩
      cases entry with
      | base type size data => exact Nat.two_pow_pos 32
      | ofsDelta size data baseIndex =>
        obtain ⟨hnonneg, hlt⟩ := hbases i size data baseIndex hentry
        rw [PackfileResult.distanceOf, ← hdistance i baseIndex.toNat (by omega)]
        exact hfits.distance i size data baseIndex hentry

/-- A blob and a delta on it are read back. -/
theorem serializePackfile_faithful_iff_delta :
    ∃ result, serializePackfile [.base .blob 5 [1, 2, 3], .ofsDelta 4 [9] 0] = .ok result ∧
      Faithful [.base .blob 5 [1, 2, 3], .ofsDelta 4 [9] 0] 20 result := by
  have hbases : BasesEarlier 0 [.base .blob 5 [1, 2, 3], .ofsDelta 4 [9] 0] := by
    rintro (_ | _ | k) size data baseIndex hk
    · cases hk
    · cases hk
      decide
    · cases hk
  obtain ⟨result, hresult, hiff⟩ := serializePackfile_faithful_iff _ 20 hbases
  refine ⟨result, hresult, hiff.mpr ⟨by decide, ?_, ?_⟩⟩
  · rintro (_ | _ | i) entry hentry
    · cases hentry
      decide
    · cases hentry
      decide
    · cases hentry
  · rintro (_ | _ | i) size data baseIndex hentry
    · cases hentry
    · cases hentry
      simp [packedLengths, packedLength, encodePackEntryHeader, encodeSizeGroups]
    · cases hentry

/-- A blob of `2 ^ 31` bytes is not read back as one. -/
theorem serializePackfile_unfaithful :
    BasesEarlier 0 [.base .blob (2 ^ 31) []] ∧
      ∃ result, serializePackfile [.base .blob (2 ^ 31) []] = .ok result ∧
        ¬ Faithful [.base .blob (2 ^ 31) []] 20 result := by
  have hbases : BasesEarlier 0 [.base .blob (2 ^ 31) []] := by
    rintro (_ | k) size data baseIndex hk
    · cases hk
    · cases hk
  refine ⟨hbases, _, serializePackfile_eq hbases, fun hfaithful => ?_⟩
  have hsize := ((entry_packfile_iff 20 hbases rfl).mp (hfaithful.entry 0 _ rfl)).1
  exact absurd hsize (by decide)

end Tsgit.PackWriter
