import Tsgit.CommitGraph

/-!
# Commit-Graph Layers That Are Not Trusted

The parser checks the sizes of the chunks and not where they start, and the search checks neither
the fan-out nor the width of the id it is asked for.
-/

namespace Tsgit.CommitGraph

open List

open Midx (ChunkRange)
open BinarySearch OidTable Run

/-- The typed refusals. -/
def Refuses (thrown : Thrown) : Prop := ∃ error, thrown = .refusal error

theorem refuses_chunk {α : Type} {post : α → Prop} (reason : String) :
    Outcome Refuses post (invalidCommitGraphChunk reason : Except Thrown α) :=
  Outcome.error ⟨_, rfl⟩

theorem refuses_header {α : Type} {post : α → Prop} (reason : String) :
    Outcome Refuses post (invalidCommitGraphHeader reason : Except Thrown α) :=
  Outcome.error ⟨_, rfl⟩

/-! ### The parser -/

/-- The chunks that every layer has, of the sizes that the parser asks for. -/
structure Sized (bytes : Bytes) (hashLength : ℕ) (ranges : Dict Text ChunkRange)
    (oidf oidl cdat : ChunkRange) (count : ℕ) : Prop where
  fanout : ranges.get chunkIdOidf = some oidf
  fanout_size : sizeOf oidf = fanoutSize
  count_eq : getUint32 bytes (oidf.start + (fanoutEntries - 1) * 4) = .ok count
  lookup : ranges.get chunkIdOidl = some oidl
  lookup_size : sizeOf oidl = count * hashLength
  data : ranges.get chunkIdCdat = some cdat
  data_size : sizeOf cdat = count * (hashLength + cdatFixedSize)

/-- A read of the parser leaves the file: of the last count of a fan-out, of more base hashes than
an array can hold, or of the settings of Bloom chunks. -/
inductive LeavesFile (bytes : Bytes) : Prop
  | fanout {header : LayerHeader} {ranges : Dict Text ChunkRange} {oidf : ChunkRange}
      (hheader : parseHeader bytes = .ok header)
      (htable : readChunkTable bytes header.numChunks header.hashLength = .ok ranges)
      (hget : ranges.get chunkIdOidf = some oidf) (hsize : sizeOf oidf = fanoutSize)
      (hout : bytes.length < oidf.start + fanoutSize)
  | base {header : LayerHeader} {ranges : Dict Text ChunkRange} {oidf oidl cdat base : ChunkRange}
      {count : ℕ} (hheader : parseHeader bytes = .ok header)
      (htable : readChunkTable bytes header.numChunks header.hashLength = .ok ranges)
      (hsized : Sized bytes header.hashLength ranges oidf oidl cdat count)
      (hget : ranges.get chunkIdBase = some base)
      (hout : 2 ^ 32 ≤ sizeOf base / header.hashLength)
  | bloom {header : LayerHeader} {ranges : Dict Text ChunkRange}
      {oidf oidl cdat index data : ChunkRange} {count : ℕ} {hashes : List Text}
      (hheader : parseHeader bytes = .ok header)
      (htable : readChunkTable bytes header.numChunks header.hashLength = .ok ranges)
      (hsized : Sized bytes header.hashLength ranges oidf oidl cdat count)
      (hhashes : readBaseGraphHashes ranges header.hashLength bytes = .ok hashes)
      (hget : bloomRanges ranges count = some (index, data))
      (hout : bytes.length < data.start + bdatHeaderSize)

/-- What the parser throws. -/
def Throws (bytes : Bytes) (thrown : Thrown) : Prop :=
  Refuses thrown ∨ thrown = .rangeError ∧ LeavesFile bytes

theorem parseHeader_outcome (bytes : Bytes) :
    Outcome Refuses (fun header => header.hashVersion = 1 ∨ header.hashVersion = 2)
      (parseHeader bytes) := by
  unfold parseHeader
  refine .ite (fun _ => refuses_header _) fun hroom => ?_
  rw [headerSize] at hroom
  refine .ite (fun _ => refuses_header _) fun _ => ?_
  refine (getUint8_outcome (by omega)).bind fun version _ => ?_
  refine .ite (fun _ => refuses_header _) fun _ => ?_
  refine (getUint8_outcome (by omega)).bind fun hashVersion _ => ?_
  refine .ite (fun _ => refuses_header _) fun hversion => ?_
  refine (getUint8_outcome (by omega)).bind fun numChunks _ => ?_
  refine (getUint8_outcome (by omega)).bind fun numBaseGraphs _ => .pure ?_
  dsimp only
  omega

variable {bytes : Bytes}

theorem readUint64BE_outcome {offset : ℕ} (h : offset + 8 ≤ bytes.length) :
    Outcome Refuses (fun _ => True) (readUint64BE bytes offset) := by
  unfold readUint64BE
  refine (getUint32_outcome (by omega)).bind fun high _ => ?_
  exact (getUint32_outcome (by omega)).bind fun low _ => .pure trivial

theorem readChunkTable_outcome (bytes : Bytes) (numChunks hashLength : ℕ) :
    Outcome Refuses (fun _ => True) (readChunkTable bytes numChunks hashLength) := by
  unfold readChunkTable
  refine .ite (fun _ => refuses_chunk _) fun hroom => ?_
  rw [headerSize, chunkTableRowSize] at hroom
  refine (forRange_outcome (fun _ _ => True) trivial fun i hi rows _ => ?_).bind fun rows _ => ?_
  · unfold readChunkTableRow
    refine (readUint64BE_outcome ?_).bind fun offset _ => .pure trivial
    rw [headerSize, chunkTableRowSize]
    omega
  · exact .ite (fun _ => refuses_chunk _) fun _ => .pure trivial

theorem requireChunk_outcome (ranges : Dict Text ChunkRange) (id : Text) :
    Outcome Refuses (fun range => ranges.get id = some range) (requireChunk ranges id) := by
  unfold requireChunk
  cases ranges.get id with
  | none => exact refuses_chunk _
  | some range => exact .ok rfl

theorem validateChunkSize_outcome (range : ChunkRange) (expectedSize : ℕ) (id : Text) :
    Outcome Refuses (fun _ => sizeOf range = expectedSize)
      (validateChunkSize range expectedSize id) := by
  unfold validateChunkSize
  exact .ite (fun _ => refuses_chunk _) fun hsize => .ok (not_not.mp hsize)

theorem idAt_outcome (bytes : Bytes) (offset hashLength : ℕ) :
    Outcome Refuses (fun _ => True) (idAt bytes offset hashLength) := by
  unfold idAt fromRaw
  split
  · exact Outcome.error ⟨_, rfl⟩
  · exact Outcome.ok trivial

theorem readBaseGraphHashes_outcome (ranges : Dict Text ChunkRange) (hashLength : ℕ)
    (bytes : Bytes) :
    Outcome (fun thrown => Refuses thrown ∨ thrown = .rangeError ∧
        ∃ base, ranges.get chunkIdBase = some base ∧ 2 ^ 32 ≤ sizeOf base / hashLength)
      (fun _ => True) (readBaseGraphHashes ranges hashLength bytes) := by
  unfold readBaseGraphHashes
  cases hget : ranges.get chunkIdBase with
  | none => exact .ok trivial
  | some base =>
    dsimp only
    unfold arrayFrom
    refine .ite (fun hlong => Outcome.error (.inr ⟨rfl, base, rfl, hlong⟩)) fun _ => ?_
    have hall : Outcome Refuses (fun _ => True) ((range (sizeOf base / hashLength).toNat).mapM
        fun index => idAt bytes (base.start + index * hashLength) hashLength) :=
      (Outcome.mapM fun index _ => idAt_outcome _ _ _).mono fun _ _ => trivial
    exact hall.weaken fun _ => .inl

/-- What every layer has that was accepted. -/
structure InFile (layer : CommitGraphLayer) : Prop where
  width : layer.hashLength = 20 ∨ layer.hashLength = 32
  entrySize_eq : layer.commitDataEntrySize = layer.hashLength + cdatFixedSize
  fanout_le : layer.fanoutOffset + fanoutSize ≤ layer.bytes.length
  fanoutLast : readFanout layer 255 = .ok layer.commitCount

theorem LayerHeader.hashLength_cases (header : LayerHeader) :
    header.hashLength = 20 ∨ header.hashLength = 32 := by
  unfold LayerHeader.hashLength
  split
  · exact .inl rfl
  · exact .inr rfl

theorem readBloomChunks_outcome (ranges : Dict Text ChunkRange) (bytes : Bytes) (count : ℕ) :
    Outcome (fun thrown => thrown = .rangeError ∧ ∃ index data,
        bloomRanges ranges count = some (index, data) ∧ bytes.length < data.start + bdatHeaderSize)
      (fun _ => True) (readBloomChunks ranges bytes count) := by
  unfold readBloomChunks
  cases hget : bloomRanges ranges count with
  | none => exact .ok trivial
  | some pair =>
    obtain ⟨index, data⟩ := pair
    have hread : ∀ offset ≤ 8, Outcome (fun thrown => thrown = .rangeError ∧ ∃ index' data',
        some (index, data) = some (index', data') ∧ bytes.length < data'.start + bdatHeaderSize)
        (fun _ => True) (getUint32 bytes (data.start + offset)) := by
      intro offset hoffset
      unfold getUint32
      refine .ite (fun _ => .ok trivial) fun hout => .error ⟨rfl, index, data, rfl, ?_⟩
      rw [bdatHeaderSize]
      omega
    unfold readBloomSettings
    have hmake : ∀ settings : CommitGraphBloomSettings,
        Outcome (fun thrown => thrown = .rangeError ∧ ∃ index' data',
          some (index, data) = some (index', data') ∧
            bytes.length < data'.start + bdatHeaderSize) (fun _ => True)
          (pure settings : Except Thrown CommitGraphBloomSettings) := fun _ => .pure trivial
    have hsettings := (hread 0 (by omega)).bind fun hashVersion _ =>
      (hread 4 (by omega)).bind fun numHashes _ => (hread 8 (by omega)).bind
        fun bitsPerEntry _ => hmake ⟨hashVersion, numHashes, bitsPerEntry⟩
    exact hsettings.bind fun settings _ => .pure trivial

theorem parseCommitGraphLayer_outcome (bytes : Bytes) :
    Outcome (Throws bytes) (fun layer => layer.bytes = bytes ∧ InFile layer)
      (parseCommitGraphLayer bytes) := by
  have hinl : ∀ thrown, Refuses thrown → Throws bytes thrown := fun _ => .inl
  unfold parseCommitGraphLayer
  refine ((parseHeader_outcome bytes).weaken hinl).bind_eq fun header hheader _ => ?_
  refine ((readChunkTable_outcome _ _ _).weaken hinl).bind_eq fun ranges htable _ => ?_
  unfold parseChunks
  refine ((requireChunk_outcome _ _).weaken hinl).bind fun oidf hoidf => ?_
  refine ((validateChunkSize_outcome _ _ _).weaken hinl).bind fun _ hsize => ?_
  have hcount : Outcome (Throws bytes) (fun _ => oidf.start + fanoutSize ≤ bytes.length)
      (getUint32 bytes (oidf.start + (fanoutEntries - 1) * 4)) := by
    unfold getUint32
    rw [fanoutSize, fanoutEntries]
    refine .ite (fun hin => .ok (by omega)) fun hout => .error (.inr ⟨rfl, ?_⟩)
    exact .fanout hheader htable hoidf hsize (by rw [fanoutSize, fanoutEntries]; omega)
  refine hcount.bind_eq fun count hcount hinside => ?_
  refine ((requireChunk_outcome _ _).weaken hinl).bind fun oidl hoidl => ?_
  refine ((validateChunkSize_outcome _ _ _).weaken hinl).bind fun _ hoidlSize => ?_
  refine ((requireChunk_outcome _ _).weaken hinl).bind fun cdat hcdat => ?_
  refine ((validateChunkSize_outcome _ _ _).weaken hinl).bind fun _ hcdatSize => ?_
  have hsized : Sized bytes header.hashLength ranges oidf oidl cdat count :=
    ⟨hoidf, hsize, hcount, hoidl, by rw [hoidlSize]; push_cast; rfl, hcdat,
      by rw [hcdatSize]; push_cast; rfl⟩
  refine ((readBaseGraphHashes_outcome _ _ _).weaken fun thrown hthrown => ?_).bind_eq
    fun hashes hhashes _ => ?_
  · rcases hthrown with hrefuses | ⟨rfl, base, hget, hlong⟩
    · exact .inl hrefuses
    · exact .inr ⟨rfl, .base hheader htable hsized hget hlong⟩
  refine ((readBloomChunks_outcome _ _ _).weaken ?_).bind fun bloom _ => .pure ⟨rfl, ?_⟩
  · rintro _ ⟨rfl, index, data, hget, hout⟩
    exact .inr ⟨rfl, .bloom hheader htable hsized hhashes hget hout⟩
  · exact ⟨header.hashLength_cases, rfl, hinside, hcount⟩

variable {ranges : Dict Text ChunkRange}

theorem parseCommitGraphLayer_eq {header : LayerHeader} (hheader : parseHeader bytes = .ok header)
    (htable : readChunkTable bytes header.numChunks header.hashLength = .ok ranges) :
    parseCommitGraphLayer bytes =
      parseChunks bytes header.hashVersion header.hashLength header.numBaseGraphs ranges :=
  (ok_bind_eq hheader).trans (ok_bind_eq htable)

theorem requireChunk_ok {id : Text} {range : ChunkRange}
    (h : ranges.get id = some range) : requireChunk ranges id = .ok range := by
  rw [requireChunk, h]

theorem validateChunkSize_ok {range : ChunkRange} {expectedSize : ℕ}
    (h : sizeOf range = expectedSize) (id : Text) :
    validateChunkSize range expectedSize id = .ok () := if_neg (not_not_intro h)

theorem parseChunks_eq {hashLength : ℕ}
    {oidf oidl cdat : ChunkRange} {count : ℕ}
    (h : Sized bytes hashLength ranges oidf oidl cdat count) (hashVersion numBaseGraphs : ℕ) :
    parseChunks bytes hashVersion hashLength numBaseGraphs ranges = (do
      let baseGraphHashes ← readBaseGraphHashes ranges hashLength bytes
      let bloom ← readBloomChunks ranges bytes count
      pure (layerOf bytes hashVersion hashLength numBaseGraphs count ranges oidf oidl cdat
        baseGraphHashes bloom)) := by
  unfold parseChunks
  refine (ok_bind_eq (requireChunk_ok h.fanout)).trans ?_
  refine (ok_bind_eq (validateChunkSize_ok h.fanout_size _)).trans ?_
  refine (ok_bind_eq h.count_eq).trans ?_
  refine (ok_bind_eq (requireChunk_ok h.lookup)).trans ?_
  refine (ok_bind_eq (validateChunkSize_ok (by rw [h.lookup_size]; push_cast; rfl) _)).trans ?_
  refine (ok_bind_eq (requireChunk_ok h.data)).trans ?_
  exact ok_bind_eq (validateChunkSize_ok (by rw [h.data_size]; push_cast; rfl) _)

theorem parseCommitGraphLayer_leavesFile (h : LeavesFile bytes) :
    parseCommitGraphLayer bytes = .error .rangeError := by
  cases h with
  | @fanout header ranges oidf hheader htable hget hsize hout =>
    have hread : getUint32 bytes (oidf.start + (fanoutEntries - 1) * 4) =
        .error .rangeError := by
      refine if_neg ?_
      rw [fanoutSize, fanoutEntries] at hout
      rw [fanoutEntries]
      omega
    rw [parseCommitGraphLayer_eq hheader htable]
    unfold parseChunks
    refine (ok_bind_eq (requireChunk_ok hget)).trans ?_
    refine (ok_bind_eq (validateChunkSize_ok hsize _)).trans ?_
    rw [hread]
    rfl
  | @base header ranges oidf oidl cdat base count hheader htable hsized hget hout =>
    have hread : readBaseGraphHashes ranges header.hashLength bytes = .error .rangeError := by
      rw [readBaseGraphHashes, hget]
      exact if_pos hout
    rw [parseCommitGraphLayer_eq hheader htable, parseChunks_eq hsized, hread]
    rfl
  | @bloom header ranges oidf oidl cdat index data count hashes hheader htable hsized hhashes hget
      hout =>
      have hread : readBloomChunks ranges bytes count = .error .rangeError := by
        rcases (readBloomChunks_outcome ranges bytes count).elim with ⟨_, herror, rfl, -⟩ | hok
        · exact herror
        obtain ⟨bloom, hok, -⟩ := hok
        rw [readBloomChunks, hget] at hok
        obtain ⟨settings, hsettings, -⟩ := bind_eq_ok.mp hok
        obtain ⟨hashVersion, -, hsettings⟩ := bind_eq_ok.mp hsettings
        obtain ⟨numHashes, -, hsettings⟩ := bind_eq_ok.mp hsettings
        obtain ⟨bitsPerEntry, hlast, -⟩ := bind_eq_ok.mp hsettings
        unfold getUint32 at hlast
        rw [if_neg (by rw [bdatHeaderSize] at hout; omega)] at hlast
        cases hlast
      rw [parseCommitGraphLayer_eq hheader htable, parseChunks_eq hsized]
      refine (ok_bind_eq hhashes).trans ?_
      rw [hread]
      rfl

/-! ### The search -/

/-- What a search for an id may come to: exactly the places that hold it. -/
def Finds (layer : CommitGraphLayer) (id : Text) : Option ℕ → Prop
  | some p => p < layer.commitCount ∧ id.length = 2 * layer.hashLength ∧
      oidAtPosition layer p = .ok id
  | none => id.length = 2 * layer.hashLength →
      ∀ p < layer.commitCount, oidAtPosition layer p ≠ .ok id

/-- Every search ends with the right answer. A search that leaves the file has a wrong hit there. -/
structure Safe (layer : CommitGraphLayer) : Prop where
  position : ∀ id, IsObjectId id → ∃ answer, Yields (positionOf · layer id) answer ∧
    Finds layer id answer
  oid : ∀ p < layer.commitCount,
    layer.oidLookupOffset + p * layer.hashLength + layer.hashLength ≤ layer.bytes.length
  data : ∀ p < layer.commitCount,
    layer.commitDataOffset + p * layer.commitDataEntrySize + layer.commitDataEntrySize ≤
        layer.bytes.length ∧
      ∀ options, Outcome Refuses (fun _ => True) (commitDataAt layer p options)

/-- The bytes of an id, as they stand in the file. -/
def rawOidAt (layer : CommitGraphLayer) (p : ℕ) : Bytes :=
  let offset := layer.oidLookupOffset + p * layer.hashLength
  subarray layer.bytes offset (offset + layer.hashLength)

section

variable {layer : CommitGraphLayer}

theorem InFile.fanout (h : InFile layer) {byte : ℕ} (hbyte : byte < 256) :
    ∃ high, readFanout layer byte = .ok high := by
  have hle := h.fanout_le
  rw [fanoutSize, fanoutEntries] at hle
  obtain ⟨high, -, hhigh⟩ := @getUint32_eq_ok layer.bytes (layer.fanoutOffset + byte * 4)
    (by omega)
  exact ⟨high, hhigh⟩

/-- The search that an id comes to. -/
theorem positionOf_eq {id : Text} {target : Bytes} {high : ℕ} (hbytes : hexToBytes id = .ok target)
    (hhigh : readFanout layer (byteAt target 0) = .ok high) (fuel : ℕ) :
    positionOf fuel layer id = search (compareOidAt layer · target) fuel 0 high := by
  unfold positionOf
  rw [hbytes, ofExcept_ok, pure_bind, hhigh, ofExcept_ok, pure_bind]

theorem oidAtPosition_eq (hin : InFile layer) {p : ℕ}
    (hinside : layer.oidLookupOffset + p * layer.hashLength + layer.hashLength ≤
      layer.bytes.length) :
    oidAtPosition layer p = .ok (bytesToHex (rawOidAt layer p)) ∧
      (rawOidAt layer p).length = layer.hashLength := by
  have hlength : (rawOidAt layer p).length = layer.hashLength := by
    rw [rawOidAt, length_subarray _ hinside, Nat.add_sub_cancel_left]
  refine ⟨?_, hlength⟩
  have hraw : fromRaw (rawOidAt layer p) = .ok (bytesToHex (rawOidAt layer p)) := by
    refine if_neg ?_
    rcases hin.width with hwidth | hwidth
    · exact fun hboth => hboth.1 (hlength.trans hwidth)
    · exact fun hboth => hboth.2 (hlength.trans hwidth)
  change (fromRaw (rawOidAt layer p)).mapError Thrown.refusal = _
  rw [hraw]
  rfl

theorem isObjectId_bytesToHex (h : bytes.length = 20 ∨ bytes.length = 32) :
    IsObjectId (bytesToHex bytes) := by
  refine ⟨?_, isHexDigit_bytesToHex _⟩
  rw [length_bytesToHex]
  omega

theorem exists_otherWidth {raw : Bytes} (hwidth : raw.length = 20 ∨ raw.length = 32) :
    ∃ other : Bytes, (other.length = 20 ∨ other.length = 32) ∧ other.length ≠ raw.length ∧
      byteAt other 0 = byteAt raw 0 ∧ ∀ bytes start, compareWindows bytes start other 0 raw.length =
            compareWindows bytes start raw 0 raw.length ∨
          compareWindows bytes start other 0 raw.length = none := by
  rcases hwidth with hwidth | hwidth
  · have hsame : ∀ i < 20, (raw ++ replicate 12 0)[i]? = raw[i]? := fun i hi =>
      getElem?_append_left (by rwa [hwidth])
    have hlength : (raw ++ replicate 12 (0 : UInt8)).length = 32 := by
      rw [length_append, length_replicate, hwidth]
    refine ⟨raw ++ replicate 12 0, .inr hlength, by rw [hlength, hwidth]; decide, ?_,
      fun bytes start => .inl (compareWindows_congr fun i hi => hsame i ?_)⟩
    · rw [byteAt, byteAt, hsame 0 (by decide)]
    · rwa [hwidth, Nat.zero_add] at hi
  · have hlength : (raw.take 20).length = 20 := by rw [length_take, hwidth]; rfl
    refine ⟨raw.take 20, .inl hlength, by rw [hlength, hwidth]; decide, ?_,
      fun bytes start => compareWindows_blind (fun i => ?_) _ _ _⟩
    · rw [byteAt, byteAt, getElem?_take_of_lt (by decide)]
    · rcases Nat.lt_or_ge i 20 with hlt | hge
      · exact .inl (getElem?_take_of_lt hlt)
      · exact .inr (getElem?_eq_none (by rwa [hlength]))

theorem not_safe_of_pos (hin : InFile layer) (hpos : 0 < layer.commitCount) : ¬ Safe layer := by
  intro hsafe
  obtain ⟨hoid, hlength⟩ := oidAtPosition_eq hin (hsafe.oid 0 hpos)
  have hwidth : (rawOidAt layer 0).length = 20 ∨ (rawOidAt layer 0).length = 32 := by
    rw [hlength]
    exact hin.width
  obtain ⟨answer, ⟨enough, hyields⟩, hfinds⟩ := hsafe.position _ (isObjectId_bytesToHex hwidth)
  obtain ⟨high, hhigh⟩ := hin.fanout (byteAt_lt (rawOidAt layer 0) 0)
  have hrun := positionOf_eq (hexToBytes_bytesToHex _) hhigh
  cases answer with
  | none => exact hfinds (by rw [length_bytesToHex, hlength]) 0 hpos hoid
  | some p =>
    obtain ⟨other, hother, hne, hfirst, hblind⟩ := exists_otherWidth hwidth
    obtain ⟨answer', ⟨enough', hyields'⟩, hfinds'⟩ :=
      hsafe.position _ (isObjectId_bytesToHex hother)
    have hfound := (hrun _).symm.trans (hyields (max enough enough') (le_max_left _ _))
    have hagree : ∀ i, compareOidAt layer i other = compareOidAt layer i (rawOidAt layer 0) ∨
        compareOidAt layer i other = none := by
      intro i
      unfold compareOidAt
      rw [← hlength]
      exact hblind _ _
    obtain ⟨p', hfound'⟩ := search_blind hagree _ hfound
    have hrun' := positionOf_eq (hexToBytes_bytesToHex other) (hfirst ▸ hhigh)
    have hanswer := (hrun' _).symm.trans (hyields' (max enough enough') (le_max_right _ _))
    rw [hfound'] at hanswer
    cases hanswer
    obtain ⟨-, hwrong, -⟩ := hfinds'
    rw [length_bytesToHex] at hwrong
    omega

/-! ### Layers without commits -/

def firstByteAt (layer : CommitGraphLayer) (byte i : ℕ) : Option ℤ :=
  (layer.bytes[layer.oidLookupOffset + i * layer.hashLength]?).map fun x => (x.toNat : ℤ) - byte

/-- For each byte, the search by first bytes alone ends with nothing. -/
def Deaf (layer : CommitGraphLayer) : Prop :=
  ∀ byte < 256, ∃ high fuel, readFanout layer byte = .ok high ∧
    search (firstByteAt layer byte) fuel 0 high = (pure none : Run Thrown (Option ℕ))

theorem compareOidAt_of_first (hin : InFile layer) {target : Bytes} {byte : UInt8}
    (hfirst : target[0]? = some byte) (i : ℕ) (value : ℤ) (hne : value ≠ 0)
    (h : firstByteAt layer byte.toNat i = some value) :
    compareOidAt layer i target = some value := by
  obtain ⟨x, hx, rfl⟩ := Option.map_eq_some_iff.mp h
  have hdiffer : x ≠ byte := by
    rintro rfl
    exact hne (sub_self _)
  obtain ⟨width, hwidth⟩ : ∃ width, layer.hashLength = width + 1 :=
    ⟨layer.hashLength - 1, by have := hin.width; omega⟩
  unfold compareOidAt
  rw [hwidth] at hx ⊢
  exact compareWindows_first hx hfirst hdiffer width

/-- An id that begins with `byte` and goes on as the slot does. -/
def targetAt (layer : CommitGraphLayer) (byte : UInt8) (i : ℕ) : Bytes :=
  (range layer.hashLength).map fun k =>
    if k = 0 then byte
    else (layer.bytes[layer.oidLookupOffset + i * layer.hashLength + k]?).getD 0

theorem targetAt_getElem? {byte : UInt8} {i k : ℕ} (hk : k < layer.hashLength) :
    (targetAt layer byte i)[k]? = some (if k = 0 then byte
      else (layer.bytes[layer.oidLookupOffset + i * layer.hashLength + k]?).getD 0) := by
  rw [targetAt, getElem?_map, getElem?_range hk]
  rfl

theorem length_targetAt (byte : UInt8) (i : ℕ) :
    (targetAt layer byte i).length = layer.hashLength := by
  rw [targetAt, length_map, length_range]

theorem hits_targetAt {byte : UInt8} {i : ℕ} (h : Hits (firstByteAt layer byte.toNat i)) :
    Hits (compareOidAt layer i (targetAt layer byte i)) := by
  refine compareWindows_hits _ fun k hk x hx => ?_
  rw [Nat.zero_add, targetAt_getElem? hk]
  cases k with
  | zero =>
    rw [Nat.add_zero] at hx
    have hzero := h ((x.toNat : ℤ) - byte.toNat) (by rw [firstByteAt, hx]; rfl)
    rw [if_pos rfl, UInt8.toNat_inj.mp (by omega : x.toNat = byte.toNat)]
  | succ k => rw [if_neg (Nat.succ_ne_zero k), hx, Option.getD_some]

/-- **A layer without commits** answers rightly exactly if it is deaf. -/
theorem safe_iff_deaf (hin : InFile layer) (hcount : layer.commitCount = 0) :
    Safe layer ↔ Deaf layer := by
  constructor
  · intro hsafe byte hbyte
    obtain ⟨high, hhigh⟩ := hin.fanout hbyte
    have hnat : (UInt8.ofNat byte).toNat = byte := UInt8.toNat_ofNat_of_lt' hbyte
    -- No target that begins with the byte may be found.
    have hnothing : ∀ i, ∃ enough, ∀ fuel, enough ≤ fuel →
        search (compareOidAt layer · (targetAt layer (UInt8.ofNat byte) i)) fuel 0 high =
          (pure none : Run Thrown (Option ℕ)) := by
      intro i
      have hlength := @length_targetAt layer (UInt8.ofNat byte) i
      obtain ⟨answer, ⟨enough, hyields⟩, hfinds⟩ := hsafe.position
        (bytesToHex (targetAt layer (UInt8.ofNat byte) i))
        (isObjectId_bytesToHex (by rw [hlength]; exact hin.width))
      have hfirst : byteAt (targetAt layer (UInt8.ofNat byte) i) 0 = byte := by
        rw [byteAt, targetAt_getElem? (by have := hin.width; omega), if_pos rfl, Option.getD_some,
          hnat]
      have hrun := positionOf_eq (hexToBytes_bytesToHex _) (hfirst.symm ▸ hhigh)
      cases answer with
      | none => exact ⟨enough, fun fuel hfuel => (hrun fuel).symm.trans (hyields fuel hfuel)⟩
      | some p =>
        obtain ⟨hp, -⟩ := hfinds
        omega
    have hfollows : ∀ i fuel, search (compareOidAt layer · (targetAt layer (UInt8.ofNat byte) i))
        fuel 0 high = (search (firstByteAt layer byte) fuel 0 high : Run Thrown (Option ℕ)) ∨
          ∃ p, search (firstByteAt layer byte) fuel 0 high =
            (pure (some p) : Run Thrown (Option ℕ)) ∧ Hits (firstByteAt layer byte p) ∧
            ¬ Hits (compareOidAt layer p (targetAt layer (UInt8.ofNat byte) i)) := by
      intro i fuel
      refine search_follows (fun k value hne hvalue => ?_) fuel
      refine compareOidAt_of_first hin ?_ k value hne (by rwa [hnat])
      rw [targetAt_getElem? (by have := hin.width; omega), if_pos rfl]
    obtain ⟨enough, henough⟩ := hnothing 0
    rcases hfollows 0 enough with hsame | ⟨p, hfound, hhits, -⟩
    · exact ⟨high, enough, hhigh, hsame.symm.trans (henough enough le_rfl)⟩
    -- A slot where the search stops would be found by the id that goes on as it does.
    obtain ⟨enough', henough'⟩ := hnothing p
    have hmore : search (firstByteAt layer byte) (max enough enough') 0 high =
        (pure (some p) : Run Thrown (Option ℕ)) := loop_mono (le_max_left _ _) hfound
    have hnone := henough' (max enough enough') (le_max_right _ _)
    rcases hfollows p (max enough enough') with hsame | ⟨q, hfound', -, hmiss⟩
    · rw [hnone, hmore] at hsame
      cases hsame
    · rw [hmore] at hfound'
      cases hfound'
      exact absurd (hits_targetAt (by rwa [hnat])) hmiss
  · intro hdeaf
    have hnone : ∀ p, ¬ p < layer.commitCount := fun p hp => by omega
    refine ⟨fun id hid => ?_, fun p hp => absurd hp (hnone p), fun p hp => absurd hp (hnone p)⟩
    obtain ⟨target, hbytes, hhex⟩ := hid.toBytes
    obtain ⟨byte, hfirst⟩ : ∃ byte, target[0]? = some byte := by
      have hlength := hid.length_eq
      rw [← hhex, length_bytesToHex] at hlength
      exact ⟨_, getElem?_eq_getElem (by omega)⟩
    have hbyte : byteAt target 0 = byte.toNat := by rw [byteAt, hfirst, Option.getD_some]
    obtain ⟨high, fuel, hhigh, hrun⟩ := hdeaf byte.toNat (UInt8.toNat_lt _)
    refine ⟨none, ⟨fuel, fun fuel' hfuel => ?_⟩, fun _ p hp => absurd hp (hnone p)⟩
    refine (positionOf_eq hbytes (hbyte.symm ▸ hhigh) fuel').trans ?_
    have hmore : search (firstByteAt layer byte.toNat) fuel' 0 high =
        (pure none : Run Thrown (Option ℕ)) := loop_mono hfuel hrun
    rcases search_follows (compareOidAt_of_first hin hfirst) fuel' with hsame | ⟨p, hfound, -⟩
    · exact hsame.trans hmore
    · rw [hmore] at hfound
      cases hfound

/-! ### Layers in order -/

/-- The ids of a layer, as they stand in the file. -/
def rawOids (layer : CommitGraphLayer) : List Bytes :=
  slots layer.bytes layer.oidLookupOffset layer.hashLength layer.commitCount

/-- The ids lie in the file, in ascending order, and the fan-out counts them, no more than a shift
can halve the sum of. -/
structure InOrder (layer : CommitGraphLayer) : Prop where
  inside : layer.oidLookupOffset + layer.commitCount * layer.hashLength ≤ layer.bytes.length
  ascending : (rawOids layer).Pairwise fun a b => compareBytes a b ≤ 0
  fanout : ∀ byte < 256,
    readFanout layer byte = .ok ((rawOids layer).countP fun id => byteAt id 0 ≤ byte)
  count_le : layer.commitCount ≤ 2 ^ 31

theorem InOrder.inside_at (h : InOrder layer) {p : ℕ} (hp : p < layer.commitCount) :
    layer.oidLookupOffset + p * layer.hashLength + layer.hashLength ≤ layer.bytes.length := by
  have hle := Nat.mul_le_mul_right layer.hashLength (Nat.succ_le_of_lt hp)
  have hinside := h.inside
  rw [Nat.succ_mul] at hle
  omega

theorem rawOids_getElem? {p : ℕ} (hp : p < layer.commitCount) :
    (rawOids layer)[p]? = some (rawOidAt layer p) := slots_getElem? hp

theorem InOrder.table (hin : InFile layer) (h : InOrder layer) :
    Table (readFanout layer) (compareOidAt layer) layer.hashLength (rawOids layer) where
  sorted := h.ascending
  fanout := h.fanout
  compare := by
    intro i id target hid htarget
    have hi : i < layer.commitCount := by
      obtain ⟨hi, -⟩ := List.getElem?_eq_some_iff.mp hid
      rwa [rawOids, length_slots] at hi
    rw [rawOids_getElem? hi] at hid
    cases hid
    exact compareWindows_eq (holds_subarray _ _ _) (holds_self _)
      (oidAtPosition_eq hin (h.inside_at hi)).2 htarget
  length_le := by rw [rawOids, length_slots]; exact h.count_le

/-- **In a layer in order** the search for an id of the layer's own width ends with the right
answer. -/
theorem positionOf_inOrder (hin : InFile layer) (h : InOrder layer) {id : Text}
    (hid : IsObjectId id) (hwidth : id.length = 2 * layer.hashLength) :
    ∃ answer, Yields (positionOf · layer id) answer ∧ Finds layer id answer := by
  obtain ⟨target, hbytes, rfl⟩ := hid.toBytes
  have htarget : target.length = layer.hashLength := by
    rw [length_bytesToHex] at hwidth
    omega
  have htable := h.table hin
  have hfanout := h.fanout _ (byteAt_lt target 0)
  obtain ⟨high, hhigh⟩ : ∃ high, high = (rawOids layer).countP
      (fun id => byteAt id 0 ≤ byteAt target 0) := ⟨_, rfl⟩
  rw [← hhigh] at hfanout
  have hle : high ≤ (rawOids layer).length := by
    rw [hhigh]
    exact countP_le_length
  have hcount : (rawOids layer).length = layer.commitCount := length_slots _ _ _ _
  obtain ⟨answer, hrun, hfound⟩ := htable.search_spec htarget hle (Nat.lt_succ_self (high - 0))
  refine ⟨answer, ⟨(high - 0).succ, fun fuel hfuel => ?_⟩, ?_⟩
  · refine (positionOf_eq hbytes hfanout fuel).trans ?_
    exact loop_mono hfuel hrun
  cases answer with
  | some p =>
    obtain ⟨hp, hget⟩ := hfound
    have hlt : p < layer.commitCount := by omega
    rw [rawOids_getElem? hlt] at hget
    cases hget
    exact ⟨hlt, hwidth, (oidAtPosition_eq hin (h.inside_at hlt)).1⟩
  | none =>
    intro _ p hp heq
    rw [(oidAtPosition_eq hin (h.inside_at hp)).1] at heq
    have hraw := bytesToHex_injective (Except.ok.inj heq)
    have hget := rawOids_getElem? hp
    rw [hraw] at hget
    refine hfound p (Nat.zero_le _) ?_ hget
    rw [hhigh]
    exact (htable.lt_count_iff hget _).mpr le_rfl

end

/-! ### Every buffer -/

def Answered (bytes : Bytes) : Prop :=
  (∃ thrown, parseCommitGraphLayer bytes = .error thrown ∧ Refuses thrown) ∨
    ∃ layer, parseCommitGraphLayer bytes = .ok layer ∧ Safe layer

/-- **Of every buffer**: answered exactly if no read leaves it, and the layer holds no commit and is
deaf. -/
theorem parseCommitGraphLayer_answered_iff (bytes : Bytes) :
    (Answered bytes ↔ ¬ LeavesFile bytes ∧
      ∀ layer, parseCommitGraphLayer bytes = .ok layer → layer.commitCount = 0 ∧ Deaf layer) ∧
    ∀ layer, parseCommitGraphLayer bytes = .ok layer → InOrder layer →
      ∀ id, IsObjectId id → id.length = 2 * layer.hashLength →
        ∃ answer, Yields (positionOf · layer id) answer ∧ Finds layer id answer := by
  have hinFile : ∀ {layer}, parseCommitGraphLayer bytes = .ok layer → InFile layer := by
    intro layer hok
    exact (Outcome.ok_iff.mp (hok ▸ parseCommitGraphLayer_outcome bytes)).2
  refine ⟨⟨?_, ?_⟩, fun layer hok horder id hid hwidth =>
    positionOf_inOrder (hinFile hok) horder hid hwidth⟩
  · rintro (⟨thrown, herror, error, rfl⟩ | ⟨layer, hok, hsafe⟩)
    · refine ⟨fun hleaves => ?_, fun layer hok => ?_⟩
      · rw [parseCommitGraphLayer_leavesFile hleaves] at herror
        cases herror
      · rw [hok] at herror
        cases herror
    refine ⟨fun hleaves => ?_, fun layer' hok' => ?_⟩
    · rw [parseCommitGraphLayer_leavesFile hleaves] at hok
      cases hok
    · rw [hok] at hok'
      cases hok'
      have hcount : layer.commitCount = 0 :=
        Nat.eq_zero_of_not_pos fun hpos => not_safe_of_pos (hinFile hok) hpos hsafe
      exact ⟨hcount, (safe_iff_deaf (hinFile hok) hcount).mp hsafe⟩
  · rintro ⟨hleaves, hlayer⟩
    rcases (parseCommitGraphLayer_outcome bytes).elim with ⟨thrown, herror, hthrows⟩ | haccepted
    · rcases hthrows with hrefuses | ⟨-, hleaves'⟩
      · exact .inl ⟨thrown, herror, hrefuses⟩
      · exact absurd hleaves' hleaves
    · obtain ⟨layer, hok, -, hin⟩ := haccepted
      obtain ⟨hcount, hdeaf⟩ := hlayer layer hok
      exact .inr ⟨layer, hok, (safe_iff_deaf hin hcount).mpr hdeaf⟩

/-- A layer of one root commit, whose id and root tree are zero. -/
def oneCommit : Bytes :=
  [0x43, 0x47, 0x50, 0x48, 1, 1, 3, 0] ++
    ([0x4f, 0x49, 0x44, 0x46, 0, 0, 0, 0] ++ uint32Bytes 56) ++
    ([0x4f, 0x49, 0x44, 0x4c, 0, 0, 0, 0] ++ uint32Bytes 1080) ++
    ([0x43, 0x44, 0x41, 0x54, 0, 0, 0, 0] ++ uint32Bytes 1100) ++
    ([0, 0, 0, 0, 0, 0, 0, 0] ++ uint32Bytes 1136) ++
    (replicate 256 [0, 0, 0, 1]).flatten ++ replicate 20 0 ++
    (replicate 20 0 ++ uint32Bytes noParent ++ uint32Bytes noParent ++ uint32Bytes 4 ++
      uint32Bytes 0) ++ replicate 20 0

theorem oneCommit_search :
    (parseCommitGraphLayer oneCommit).map (fun layer =>
      (layer.commitCount, layer.hashLength, (positionOf 2 layer (replicate 64 '0')).run)) =
        .ok (1, 20, some (.ok (some 0))) := by
  decide +kernel

/-- The id of 64 zeros is found in a layer of ids of 40 digits. -/
theorem commitGraph_wrongWidth_found :
    ∃ layer, parseCommitGraphLayer oneCommit = .ok layer ∧ layer.hashLength = 20 ∧
      positionOf 2 layer (replicate 64 '0') = pure (some 0) ∧ ¬ Answered oneCommit := by
  have hsearch := oneCommit_search
  cases hparse : parseCommitGraphLayer oneCommit with
  | error thrown =>
    rw [hparse] at hsearch
    cases hsearch
  | ok layer =>
    rw [hparse] at hsearch
    obtain ⟨hcount, hrest⟩ := Prod.mk.inj (Except.ok.inj hsearch)
    obtain ⟨hlength, hfound⟩ := Prod.mk.inj hrest
    have hin := (Outcome.ok_iff.mp (hparse ▸ parseCommitGraphLayer_outcome oneCommit)).2
    refine ⟨layer, rfl, hlength, hfound, ?_⟩
    rintro (⟨thrown, herror, -⟩ | ⟨layer', hok, hsafe⟩)
    · rw [hparse] at herror
      cases herror
    · rw [hparse] at hok
      cases hok
      exact not_safe_of_pos hin (by omega) hsafe

end Tsgit.CommitGraph
