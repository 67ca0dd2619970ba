import Tsgit.ReftableBlock

/-!
# Reftables That Are Not Trusted

What a lookup and the iterations come to on a table that may be corrupt. Every one ends,
by the measures of its own checks.
-/

namespace Tsgit.ReftableFile

open Except (Throws)
open Run (Turn)

def Typed (thrown : Thrown) : Prop :=
  ∃ check reason, thrown = .refusal (.invalidReftable check reason)

/-- The refusal of an id, which is of another type. -/
def Slip (thrown : Thrown) : Prop := ∃ value, thrown = .refusal (.invalidObjectId value)

theorem typed_not_slip (thrown : Thrown) (h : Typed thrown) : ¬ Slip thrown := by
  rintro ⟨value, hvalue⟩
  obtain ⟨check, reason, rfl⟩ := h
  cases hvalue

section

variable {α : Type} {post : α → Prop}

theorem refuses_invalid (check : ReftableCheck) (reason : String) :
    Outcome Typed post (invalidReftable check reason : Except Thrown α) :=
  Outcome.error ⟨check, reason, rfl⟩

end

/-! ### The file -/

section

variable {bytes : Bytes} {offset : ℕ}

theorem readUint24_outcome (h : offset + 3 ≤ bytes.length) :
    Outcome Typed (fun _ => True) (readUint24 bytes offset) := by
  refine (getUint8_outcome (by omega)).bind fun high _ => ?_
  exact (getUint16_outcome (by omega)).bind fun low _ => .pure trivial

theorem readHashId_outcome : Outcome Typed (fun _ => True) (readHashId bytes offset) := by
  unfold readHashId
  refine .ite (fun _ => .ok trivial) fun _ => ?_
  exact .ite (fun _ => .ok trivial) fun _ => refuses_invalid _ _

theorem readHeader_outcome {version : Version} (h : headerLengthV1 ≤ bytes.length) :
    Outcome Typed (fun header => header.version = version) (readHeader bytes version) := by
  unfold headerLengthV1 at h
  refine (readUint24_outcome (by omega)).bind fun blockSize _ => ?_
  refine (getBigUint64_outcome (by omega)).bind fun minUpdateIndex _ => ?_
  refine (getBigUint64_outcome (by omega)).bind fun maxUpdateIndex _ => ?_
  cases version with
  | v1 => exact .pure rfl
  | v2 => exact readHashId_outcome.bind fun hashId _ => .pure rfl

theorem readFields_outcome (h : offset + 40 ≤ bytes.length) :
    Outcome Typed (fun _ => True) (readFields bytes offset) := by
  refine (getBigUint64_outcome (by omega)).bind fun packedObj _ => ?_
  refine (getBigUint64_outcome (by omega)).bind fun refIndexPosition _ => ?_
  refine (getBigUint64_outcome (by omega)).bind fun objIndexPosition _ => ?_
  refine (getBigUint64_outcome (by omega)).bind fun logPosition _ => ?_
  exact (getBigUint64_outcome (by omega)).bind fun logIndexPosition _ => .pure trivial

theorem layout_spec (version : Version) :
    version.layout.footerLength = version.layout.headerLength + 44 ∧
      headerLengthV1 ≤ version.layout.headerLength := by
  cases version with
  | v1 => exact ⟨rfl, le_rfl⟩
  | v2 => exact ⟨rfl, by decide⟩

theorem readFooter_outcome {version : Version} (h : version.layout.footerLength ≤ bytes.length) :
    Outcome Typed (fun _ => True) (readFooter bytes version.layout) := by
  obtain ⟨hfooter, -⟩ := layout_spec version
  unfold readFooter
  refine (getUint32_outcome (by omega)).bind fun storedCrc _ => ?_
  exact .ite (fun _ => refuses_invalid _ _) fun _ => readFields_outcome (by omega)

end

/-- The file has room for the header and for the footer. -/
def Framed (table : Reftable) : Prop :=
  table.header.headerLength + table.header.version.layout.footerLength ≤ table.bytes.length

section

variable {bytes : Bytes}

theorem readMagicAndVersion_outcome :
    Outcome Typed
      (fun version => version.layout.headerLength + version.layout.footerLength ≤ bytes.length)
      (readMagicAndVersion bytes bytes.length) := by
  unfold readMagicAndVersion
  refine .ite (fun _ => refuses_invalid _ _) fun hlength => ?_
  unfold headerLengthV1 at hlength
  refine (getUint32_outcome (by omega)).bind fun magic _ => ?_
  refine .ite (fun _ => refuses_invalid _ _) fun _ => ?_
  refine (getUint8_outcome (by omega)).bind fun version _ => ?_
  split
  · exact refuses_invalid _ _
  · exact .ite (fun _ => refuses_invalid _ _) fun hneeded => .pure (Nat.le_of_not_lt hneeded)

/-- **The parser** refuses with its typed error, or the file has room for its frame. -/
theorem parseReftable_outcome : Outcome Typed Framed (parseReftable bytes) := by
  refine readMagicAndVersion_outcome.bind fun version hroom => ?_
  obtain ⟨-, hheader⟩ := layout_spec version
  refine (readHeader_outcome (by omega)).bind fun header hversion => ?_
  refine (readFooter_outcome (by omega)).bind fun footer _ => .pure ?_
  unfold Framed ReftableHeader.headerLength
  dsimp only
  rw [hversion]
  exact hroom

end

/-! ### Names and numbers -/

section

variable {bytes : Bytes} {offset : ℕ}

theorem readVarintFrom_outcome (left pos byte value : ℕ) :
    Outcome Typed (fun _ => True) (readVarintFrom bytes offset left pos byte value) := by
  induction left generalizing pos byte value with
  | zero =>
    unfold readVarintFrom
    exact .ite (fun _ => .ok trivial) fun _ => refuses_invalid _ _
  | succ left ih =>
    unfold readVarintFrom
    refine .ite (fun _ => .ok trivial) fun _ => ?_
    dsimp only
    split
    · exact refuses_invalid _ _
    · exact ih _ _ _

theorem readVarint_outcome : Outcome Typed (fun _ => True) (readVarint bytes offset) := by
  unfold readVarint
  split
  · exact refuses_invalid _ _
  · exact readVarintFrom_outcome _ _ _ _

theorem readPrefixedName_outcome {prior : Option Bytes} :
    Outcome Typed (fun _ => True) (readPrefixedName bytes offset prior) := by
  unfold readPrefixedName
  refine readVarint_outcome.bind fun prefixLength _ => ?_
  refine .ite (fun _ => refuses_invalid _ _) fun _ => ?_
  refine readVarint_outcome.bind fun packed _ => ?_
  unfold readSuffix
  exact .ite (fun _ => refuses_invalid _ _) fun _ => .ok trivial

theorem decodeSafeRefName_outcome {subject : String} :
    Outcome Typed (fun _ => True) (decodeSafeRefName bytes subject) := by
  unfold decodeSafeRefName
  obtain ⟨safe, hsafe⟩ := isSafeRefName_total (decode bytes)
  dsimp only
  rw [ok_bind_eq hsafe]
  cases safe with
  | false => exact refuses_invalid _ _
  | true =>
    have hname : refNameFrom (decode bytes) = .ok (decode bytes) :=
      if_neg (isSafeRefName_ok hsafe).1
    rw [if_pos rfl, hname]
    exact .ok trivial

theorem decodeIndexRecord_outcome {prior : Option Bytes} :
    Outcome Typed (fun _ => True) (decodeIndexRecord bytes offset prior) := by
  refine readPrefixedName_outcome.bind fun named _ => ?_
  exact readVarint_outcome.bind fun blockPosition _ => .pure trivial

end

/-! ### Blocks -/

section

variable {table : Reftable} {offset : ℕ}

theorem blockTypeAt_outcome (h : offset < table.bytes.length) :
    Outcome Typed (fun _ => True) (blockTypeAt table offset) :=
  (getUint8_outcome h).bind fun _ _ => .pure trivial

theorem boundedBlockTypeAt_outcome :
    Outcome Typed (fun _ => offset + blockHeaderSize ≤ table.bytes.length)
      (boundedBlockTypeAt table offset) := by
  unfold boundedBlockTypeAt
  refine .ite (fun _ => refuses_invalid _ _) fun hinside => ?_
  have hroom : offset + blockHeaderSize ≤ table.bytes.length := Nat.le_of_not_lt hinside
  have hlt : offset < table.bytes.length := by
    unfold blockHeaderSize at hroom
    omega
  exact (blockTypeAt_outcome hlt).mono fun _ _ => hroom

theorem assertBlockType_outcome {expected : Char} :
    Outcome Typed (fun _ => offset + blockHeaderSize ≤ table.bytes.length)
      (assertBlockType table offset expected) := by
  refine boundedBlockTypeAt_outcome.bind fun actual hroom => ?_
  exact .ite (fun _ => refuses_invalid _ _) fun _ => .pure hroom

theorem holdsRefBlock_outcome :
    Outcome Typed (fun _ => offset + blockHeaderSize ≤ table.bytes.length)
      (holdsRefBlock table offset) := by
  unfold holdsRefBlock
  refine .ite (fun _ => ?_) fun _ => ?_
  · exact assertBlockType_outcome.bind fun _ hroom => .pure hroom
  · exact boundedBlockTypeAt_outcome.bind fun _ hroom => .pure hroom

theorem readRestartOffsets_outcome {bytes : Bytes} {blockStart recordsStart recordsEnd count : ℕ}
    {isFirstBlock : Bool} (h : recordsEnd + count * restartEntrySize ≤ bytes.length) :
    Outcome Typed (fun _ => True)
      (readRestartOffsets bytes blockStart isFirstBlock recordsStart recordsEnd count) := by
  refine (@Outcome.mapM Thrown ℕ Typed (fun _ => True) ℕ _ _ fun i hi => ?_).mono
    fun _ _ => trivial
  have hlast : (i + 1) * restartEntrySize ≤ count * restartEntrySize :=
    Nat.mul_le_mul_right _ (List.mem_range.mp hi)
  rw [Nat.succ_mul] at hlast
  unfold restartEntrySize at h hlast ⊢
  refine (readUint24_outcome (by omega)).bind fun stored _ => ?_
  exact .ite (fun _ => refuses_invalid _ _) fun _ => .pure trivial

theorem boundsOf_outcome {blockStart blockEnd restartCount : ℕ}
    (h : blockEnd ≤ table.bytes.length) :
    Outcome Typed (fun _ => True) (boundsOf table blockStart blockEnd restartCount) := by
  unfold boundsOf
  refine .ite (fun _ => refuses_invalid _ _) fun hfits => ?_
  unfold restartCountSize at hfits
  refine (readRestartOffsets_outcome ?_).bind fun _ _ => .pure trivial
  unfold restartCountSize
  omega

/-- **The bounds of a block** are read inside the file. -/
theorem blockBoundsAt_outcome (hpos : 0 < offset)
    (hroom : offset + blockHeaderSize ≤ table.bytes.length) :
    Outcome Typed (fun _ => True) (blockBoundsAt table offset) := by
  unfold blockHeaderSize at hroom
  have hend : Outcome Typed (fun _ => True) (declaredEnd table offset) :=
    (readUint24_outcome (by omega)).bind fun _ _ => .pure trivial
  refine hend.bind fun blockEnd _ => ?_
  refine .ite (fun _ => refuses_invalid _ _) fun hinside => ?_
  have hcount : Outcome Typed (fun _ => True) (readRestartCount table.bytes blockEnd) := by
    unfold readRestartCount restartCountSize
    rw [if_neg (by omega)]
    exact getUint16_outcome (by omega)
  refine hcount.bind fun restartCount _ => ?_
  exact .ite (fun _ => refuses_invalid _ _) fun _ => boundsOf_outcome (by omega)

end

/-! ### Scans of a block -/

/-- The places of records that a scan comes to: it goes on behind a record that it reads, whose
name passes. -/
inductive Scan {α : Type} (bytes : Bytes) (decodeRecord : RecordDecoder α) (passes : Bytes → Prop)
    (recordsEnd : ℕ) : ℕ → Option Bytes → ℕ → Option Bytes → Prop
  | here {cursor : ℕ} {prior : Option Bytes} (hinside : cursor < recordsEnd) :
      Scan bytes decodeRecord passes recordsEnd cursor prior cursor prior
  | behind {cursor place : ℕ} {prior prior' : Option Bytes} {record : BlockRecord α}
      (hinside : cursor < recordsEnd)
      (hread : readForward bytes decodeRecord cursor prior = .ok record)
      (hpass : passes record.nameBytes)
      (hrest : Scan bytes decodeRecord passes recordsEnd record.nextOffset (some record.nameBytes)
        place prior') :
      Scan bytes decodeRecord passes recordsEnd cursor prior place prior'

section

variable {α : Type} {bytes : Bytes} {decodeRecord : RecordDecoder α} {refuses bad : Thrown → Prop}

theorem readForward_outcome {cursor : ℕ} {prior : Option Bytes}
    (htyped : ∀ thrown, Typed thrown → refuses thrown)
    (h : Outcome refuses (fun _ => True) (decodeRecord bytes cursor prior)) :
    Outcome refuses (fun _ => True) (readForward bytes decodeRecord cursor prior) := by
  refine h.bind fun record _ => ?_
  have hforward :
      Outcome refuses (fun _ => True) (assertForwardProgress cursor record.nextOffset) := by
    unfold assertForwardProgress
    exact .ite (fun _ => (refuses_invalid _ _).weaken htyped) fun _ => .ok trivial
  exact hforward.bind fun _ _ => .pure trivial

theorem throws_readForward_iff {cursor : ℕ} {prior : Option Bytes}
    (hbad : ∀ thrown, Typed thrown → ¬ bad thrown) :
    Throws bad (readForward bytes decodeRecord cursor prior) ↔
      Throws bad (decodeRecord bytes cursor prior) := by
  unfold readForward
  rw [throws_bind_iff, or_iff_left]
  rintro ⟨record, -, h⟩
  rw [throws_bind_iff] at h
  rcases h with h | ⟨_, -, h⟩
  · have hforward : Outcome Typed (fun _ => True)
        (assertForwardProgress cursor record.nextOffset) := by
      unfold assertForwardProgress
      exact .ite (fun _ => refuses_invalid _ _) fun _ => .ok trivial
    exact hforward.not_throws hbad h
  · exact h

variable {recordsEnd : ℕ}

theorem findRecordFrom_outcome {target : Bytes} (htyped : ∀ thrown, Typed thrown → refuses thrown)
    (hdecode : ∀ cursor prior, Outcome refuses (fun _ => True) (decodeRecord bytes cursor prior))
    (cursor : ℕ) (prior : Option Bytes) :
    Outcome refuses (fun _ => True)
      (findRecordFrom bytes decodeRecord target recordsEnd cursor prior) := by
  fun_induction findRecordFrom bytes decodeRecord target recordsEnd cursor prior with
  | case1 cursor prior hinside thrown h =>
    have houtcome := readForward_outcome htyped (hdecode cursor prior)
    rw [h] at houtcome
    exact .error (Outcome.error_iff.mp houtcome)
  | case2 cursor prior hinside record h hreached => exact .ok trivial
  | case3 cursor prior hinside record h hpass ih => exact ih
  | case4 cursor prior hend => exact .ok trivial

/-- **A search of a block** throws what a record throws that it comes to. -/
theorem throws_findRecordFrom_iff {target : Bytes} (cursor : ℕ) (prior : Option Bytes) :
    Throws bad (findRecordFrom bytes decodeRecord target recordsEnd cursor prior) ↔
      ∃ place prior', Scan bytes decodeRecord (compareBytes · target < 0) recordsEnd cursor prior
        place prior' ∧ Throws bad (readForward bytes decodeRecord place prior') := by
  fun_induction findRecordFrom bytes decodeRecord target recordsEnd cursor prior with
  | case1 cursor prior hinside thrown h =>
    constructor
    · intro hthrows
      exact ⟨cursor, prior, .here hinside, by rw [h]; exact hthrows⟩
    rintro ⟨place, prior', hscan, hthrows⟩
    cases hscan with
    | here _ =>
      rw [h] at hthrows
      exact hthrows
    | behind _ hread _ _ =>
      rw [h] at hread
      cases hread
  | case2 cursor prior hinside record h hreached =>
    refine iff_of_false id ?_
    rintro ⟨place, prior', hscan, hthrows⟩
    cases hscan with
    | here _ =>
      rw [h] at hthrows
      exact hthrows
    | behind _ hread hpass _ =>
      rw [h] at hread
      cases hread
      omega
  | case3 cursor prior hinside record h hpass ih =>
    rw [ih]
    constructor
    · rintro ⟨place, prior', hscan, hthrows⟩
      exact ⟨place, prior', .behind hinside h (by omega) hscan, hthrows⟩
    rintro ⟨place, prior', hscan, hthrows⟩
    cases hscan with
    | here _ =>
      rw [h] at hthrows
      exact hthrows.elim
    | behind _ hread _ hrest =>
      rw [h] at hread
      cases hread
      exact ⟨place, prior', hrest, hthrows⟩
  | case4 cursor prior hend =>
    refine iff_of_false id ?_
    rintro ⟨place, prior', hscan, -⟩
    cases hscan with
    | here hinside => exact hend hinside
    | behind hinside _ _ _ => exact hend hinside

theorem settles_walkRecordsFrom (htyped : ∀ thrown, Typed thrown → refuses thrown)
    (hdecode : ∀ cursor prior, Outcome refuses (fun _ => True) (decodeRecord bytes cursor prior))
    (cursor : ℕ) (prior : Option Bytes) :
    Generator.Settles refuses (fun _ => True)
      (walkRecordsFrom bytes decodeRecord recordsEnd cursor prior) := by
  fun_induction walkRecordsFrom bytes decodeRecord recordsEnd cursor prior with
  | case1 cursor prior hinside thrown h =>
    have houtcome := readForward_outcome htyped (hdecode cursor prior)
    rw [h, Outcome.error_iff] at houtcome
    exact houtcome
  | case2 cursor prior hinside record h ih => exact ih
  | case3 cursor prior hend => trivial

/-- **A walk through a block** throws what a record throws that it comes to. -/
theorem throws_walkRecordsFrom_iff (cursor : ℕ) (prior : Option Bytes) :
    Generator.Throws bad (walkRecordsFrom bytes decodeRecord recordsEnd cursor prior) ↔
      ∃ place prior', Scan bytes decodeRecord (fun _ => True) recordsEnd cursor prior
        place prior' ∧ Throws bad (readForward bytes decodeRecord place prior') := by
  fun_induction walkRecordsFrom bytes decodeRecord recordsEnd cursor prior with
  | case1 cursor prior hinside thrown h =>
    constructor
    · intro hthrows
      exact ⟨cursor, prior, .here hinside, by rw [h]; exact hthrows⟩
    rintro ⟨place, prior', hscan, hthrows⟩
    cases hscan with
    | here _ =>
      rw [h] at hthrows
      exact hthrows
    | behind _ hread _ _ =>
      rw [h] at hread
      cases hread
  | case2 cursor prior hinside record h ih =>
    refine ih.trans ?_
    constructor
    · rintro ⟨place, prior', hscan, hthrows⟩
      exact ⟨place, prior', .behind hinside h trivial hscan, hthrows⟩
    rintro ⟨place, prior', hscan, hthrows⟩
    cases hscan with
    | here _ =>
      rw [h] at hthrows
      exact hthrows.elim
    | behind _ hread _ hrest =>
      rw [h] at hread
      cases hread
      exact ⟨place, prior', hrest, hthrows⟩
  | case3 cursor prior hend =>
    refine iff_of_false id ?_
    rintro ⟨place, prior', hscan, -⟩
    cases hscan with
    | here hinside => exact hend hinside
    | behind hinside _ _ _ => exact hend hinside

theorem floorRestartFrom_outcome {restartOffsets : List ℕ} {target : Bytes} (lo : ℕ) (hi : ℤ)
    (floor : ℕ) :
    Outcome Typed (fun _ => True) (floorRestartFrom bytes restartOffsets target lo hi floor) := by
  fun_induction floorRestartFrom bytes restartOffsets target lo hi floor with
  | case1 lo hi floor hle mid thrown h =>
    have houtcome : Outcome Typed (fun _ => True)
        (readPrefixedName bytes ((restartOffsets[mid]?).getD 0) none) := readPrefixedName_outcome
    rw [h] at houtcome
    exact .error (Outcome.error_iff.mp houtcome)
  | case2 lo hi floor hle mid probe h hbefore ih => exact ih
  | case3 lo hi floor hle mid probe h hbehind ih => exact ih
  | case4 lo hi floor hgt => exact .ok trivial

theorem floorRestartIndex_outcome {restartOffsets : List ℕ} {target : Bytes} :
    Outcome Typed (fun _ => True) (floorRestartIndex bytes restartOffsets target) :=
  floorRestartFrom_outcome _ _ _

theorem findInBlock_outcome {bounds : BlockBounds} {target : Bytes}
    (htyped : ∀ thrown, Typed thrown → refuses thrown)
    (hdecode : ∀ cursor prior, Outcome refuses (fun _ => True) (decodeRecord bytes cursor prior)) :
    Outcome refuses (fun _ => True) (findInBlock bytes decodeRecord bounds target) := by
  refine (floorRestartIndex_outcome.weaken htyped).bind fun restartIndex _ => ?_
  exact findRecordFrom_outcome htyped hdecode _ _

end

/-! ### Ids that the file cuts -/

/-- The file ends inside an id that begins at a place, and it is not the first 20 bytes of the id
that are left. -/
def CutId (table : Reftable) (offset : ℕ) : Prop :=
  min table.header.digestLength (table.bytes.length - offset) ∉ [20, 32]

/-- The file ends inside an id of a value. -/
def CutValue (table : Reftable) (offset valueType : ℕ) : Prop :=
  valueType = 0x1 ∧ CutId table offset ∨
    valueType = 0x2 ∧ (CutId table offset ∨ CutId table (offset + table.header.digestLength))

/-- The file ends inside an id of the record at a place. -/
def CutRecord (table : Reftable) (offset : ℕ) (prior : Option Bytes) : Prop :=
  ∃ named delta, readPrefixedName table.bytes offset prior = .ok named ∧
    readVarint table.bytes named.nextOffset = .ok delta ∧
    CutValue table delta.nextOffset (named.packed &&& valueTypeMask)

section

variable {table : Reftable} {offset : ℕ}

theorem readObjectId_outcome :
    Outcome Slip (fun _ => True) (readObjectId table.bytes offset table.header.digestLength) := by
  unfold readObjectId fromRaw
  split
  · exact .error ⟨_, rfl⟩
  · exact .ok trivial

theorem throws_readObjectId_iff :
    Throws Slip (readObjectId table.bytes offset table.header.digestLength) ↔
      CutId table offset := by
  have hlength : (subarray table.bytes offset (offset + table.header.digestLength)).length =
      min table.header.digestLength (table.bytes.length - offset) := by
    rw [subarray, List.length_take, List.length_drop, Nat.add_sub_cancel_left]
  unfold readObjectId fromRaw CutId
  rw [hlength, List.mem_cons, List.mem_singleton, not_or]
  split
  · next hcut => exact iff_of_true ⟨_, rfl⟩ hcut
  · next hwhole => exact iff_of_false id hwhole

theorem readSymbolicValue_outcome {bytes : Bytes} :
    Outcome Typed (fun _ => True) (readSymbolicValue bytes offset) := by
  unfold readSymbolicValue
  refine readVarint_outcome.bind fun length _ => ?_
  refine .ite (fun _ => refuses_invalid _ _) fun _ => ?_
  exact decodeSafeRefName_outcome.bind fun target _ => .pure trivial

/-- What a value may throw. -/
def Escapes (thrown : Thrown) : Prop := Typed thrown ∨ Slip thrown

theorem typed_escapes (thrown : Thrown) (h : Typed thrown) : Escapes thrown := .inl h

theorem slip_escapes (thrown : Thrown) (h : Slip thrown) : Escapes thrown := .inr h

theorem readRefValue_outcome {valueType : ℕ} :
    Outcome Escapes (fun _ => True)
      (readRefValue table.bytes offset valueType table.header.digestLength) := by
  have hid : ∀ place, Outcome Escapes (fun _ => True)
      (readObjectId table.bytes place table.header.digestLength) :=
    fun place => readObjectId_outcome.weaken slip_escapes
  unfold readRefValue
  split
  · exact .ok trivial
  · exact (hid _).bind fun id _ => .pure trivial
  · exact (hid _).bind fun id _ => (hid _).bind fun peeledId _ => .pure trivial
  · exact readSymbolicValue_outcome.weaken typed_escapes
  · exact (refuses_invalid _ _).weaken typed_escapes

theorem throws_readRefValue_iff {valueType : ℕ} :
    Throws Slip (readRefValue table.bytes offset valueType table.header.digestLength) ↔
      CutValue table offset valueType := by
  unfold readRefValue CutValue
  split
  · exact iff_of_false id (by omega)
  · rw [readDirectValue, throws_bind_iff, throws_readObjectId_iff]
    constructor
    · rintro (hcut | ⟨_, -, hlater⟩)
      · exact .inl ⟨rfl, hcut⟩
      · exact hlater.elim
    · rintro (⟨-, hcut⟩ | ⟨htype, -⟩)
      · exact .inl hcut
      · cases htype
  · rw [readPeeledValue, throws_bind_iff, throws_readObjectId_iff]
    constructor
    · rintro (hcut | ⟨_, -, hlater⟩)
      · exact .inr ⟨rfl, .inl hcut⟩
      · rw [throws_bind_iff, throws_readObjectId_iff] at hlater
        rcases hlater with hcut | ⟨_, -, hlast⟩
        · exact .inr ⟨rfl, .inr hcut⟩
        · exact hlast.elim
    · rintro (⟨htype, -⟩ | ⟨-, hcut | hcut⟩)
      · cases htype
      · exact .inl hcut
      cases hfirst : readObjectId table.bytes offset table.header.digestLength with
      | error thrown =>
        refine .inl (throws_readObjectId_iff.mp ?_)
        have houtcome := @readObjectId_outcome table offset
        rw [hfirst, Outcome.error_iff] at houtcome
        rw [hfirst]
        exact houtcome
      | ok id =>
        exact .inr ⟨id, rfl, throws_bind_iff.mpr (.inl (throws_readObjectId_iff.mpr hcut))⟩
  · refine iff_of_false (readSymbolicValue_outcome.not_throws typed_not_slip) (by omega)
  · next hother1 hother2 =>
    have hrefused : Outcome Typed (fun _ => True) (invalidReftable .recordOverrun
        s!"reserved ref value_type 0x{hexText valueType}" : Except Thrown ReadValue) :=
      refuses_invalid _ _
    refine iff_of_false (hrefused.not_throws typed_not_slip) ?_
    rintro (⟨rfl, -⟩ | ⟨rfl, -⟩)
    · contradiction
    · contradiction

theorem refRecordDecoder_outcome {prior : Option Bytes} :
    Outcome Escapes (fun _ => True) (refRecordDecoder table.header table.bytes offset prior) := by
  refine (readPrefixedName_outcome.weaken typed_escapes).bind fun named _ => ?_
  refine (readVarint_outcome.weaken typed_escapes).bind fun delta _ => ?_
  refine readRefValue_outcome.bind fun read _ => ?_
  exact (decodeSafeRefName_outcome.weaken typed_escapes).bind fun name _ => .pure trivial

/-- **The one slip**: a record throws an error of another type just where the file ends inside
one of its ids. -/
theorem throws_refRecordDecoder_iff {prior : Option Bytes} :
    Throws Slip (refRecordDecoder table.header table.bytes offset prior) ↔
      CutRecord table offset prior := by
  unfold refRecordDecoder
  rw [throws_bind_iff_of_not (readPrefixedName_outcome.not_throws typed_not_slip)]
  constructor
  · rintro ⟨named, hnamed, h⟩
    rw [throws_bind_iff_of_not (readVarint_outcome.not_throws typed_not_slip)] at h
    obtain ⟨delta, hdelta, h⟩ := h
    rw [throws_bind_iff] at h
    rcases h with hvalue | ⟨read, -, hlater⟩
    · exact ⟨named, delta, hnamed, hdelta, throws_readRefValue_iff.mp hvalue⟩
    · rw [throws_bind_iff_of_not (decodeSafeRefName_outcome.not_throws typed_not_slip)] at hlater
      obtain ⟨name, -, hlast⟩ := hlater
      exact hlast.elim
  · rintro ⟨named, delta, hnamed, hdelta, hcut⟩
    refine ⟨named, hnamed, ?_⟩
    rw [throws_bind_iff_of_not (readVarint_outcome.not_throws typed_not_slip)]
    exact ⟨delta, hdelta, throws_bind_iff.mpr (.inl (throws_readRefValue_iff.mpr hcut))⟩

end

/-! ### From block to block -/

/-- The ref blocks that a walk comes to, and the states in which it does. -/
inductive RefBlocks {σ : Type} (table : Reftable) (goesOn : σ → ℕ → σ → Prop) :
    σ → ℕ → σ → ℕ → Prop
  | here {state : σ} {position : ℕ} (hinside : position < refSectionEnd table)
      (hholds : holdsRefBlock table position = .ok true) :
      RefBlocks table goesOn state position state position
  | behind {state next state' : σ} {position block : ℕ} {bounds : BlockBounds}
      (hinside : position < refSectionEnd table)
      (hholds : holdsRefBlock table position = .ok true) (hgoes : goesOn state position next)
      (hbounds : blockBoundsAt table position = .ok bounds)
      (hrest : RefBlocks table goesOn next (nextBlockStart table.header bounds.blockEnd) state'
        block) :
      RefBlocks table goesOn state position state' block

/-- A computation that throws does nothing more, and one that answers goes on. -/
structure LiftsExcept (m : Type → Type) [Monad m] [MonadLiftT (Except Thrown) m] : Prop where
  ok : ∀ {α β : Type} (a : α) (next : α → m β),
    (liftM (.ok a : Except Thrown α) : m α) >>= next = next a
  error : ∀ {α β : Type} (thrown : Thrown) (next : α → m β),
    (liftM (.error thrown : Except Thrown α) : m α) >>= next =
      liftM (.error thrown : Except Thrown β)

theorem liftsExcept_except : LiftsExcept (Except Thrown) := ⟨fun _ _ => rfl, fun _ _ => rfl⟩

theorem liftsExcept_generator {ω : Type} : LiftsExcept (Generator ω Thrown) :=
  ⟨fun _ _ => rfl, fun _ _ => rfl⟩

section

variable {σ ρ ω : Type} {table : Reftable}

theorem forRefBlocks_eq {m : Type → Type} [Monad m] [MonadLiftT (Except Thrown) m]
    (hlift : LiftsExcept m) (body : σ → ℕ → m (Turn σ ρ)) (state : σ) (position : ℕ) :
    forRefBlocks table body state position =
      if position < refSectionEnd table then
        (liftM (holdsRefBlock table position) : m Bool) >>= fun held =>
          if held then
            body state position >>= fun turn =>
              match turn with
              | .stop answer => pure (some answer)
              | .again next =>
                (liftM (blockBoundsAt table position) : m BlockBounds) >>=
                  fun bounds => forRefBlocks table body next
                    (nextBlockStart table.header bounds.blockEnd)
          else pure none
      else pure none := by
  rw [forRefBlocks]
  split
  · refine congrArg _ (funext fun held => ?_)
    cases held with
    | false => rfl
    | true =>
      rw [if_pos rfl, if_pos rfl]
      refine congrArg _ (funext fun turn => ?_)
      cases turn with
      | stop answer => rfl
      | again next =>
        dsimp only
        split
        · next thrown hbounds => rw [hbounds, hlift.error]
        · next bounds hbounds => rw [hbounds, hlift.ok]
  · rfl

variable {position : ℕ}

theorem lt_next {bounds : BlockBounds}
    (hbounds : blockBoundsAt table position = .ok bounds) :
    position < nextBlockStart table.header bounds.blockEnd :=
  (blockBoundsAt_ok hbounds).1.trans_le (le_nextBlockStart _ _)

/-- A walk that yields nothing is a walk. -/
theorem lift_forRefBlocks (body : σ → ℕ → Except Thrown (Turn σ ρ)) (state : σ) (position : ℕ) :
    (liftM (forRefBlocks table body state position) : Generator ω Thrown (Option ρ)) =
      forRefBlocks table (fun state position => liftM (body state position)) state position := by
  induction hleft : refSectionEnd table - position using Nat.strong_induction_on
    generalizing state position with
  | _ left ih =>
    rw [forRefBlocks_eq liftsExcept_except, forRefBlocks_eq liftsExcept_generator]
    split
    · next hinside =>
      rw [Generator.lift_bind]
      refine congrArg _ (funext fun held => ?_)
      cases held with
      | false => rfl
      | true =>
        rw [if_pos rfl, if_pos rfl, Generator.lift_bind]
        refine congrArg _ (funext fun turn => ?_)
        cases turn with
        | stop answer => rfl
        | again next =>
          dsimp only
          cases hbounds : blockBoundsAt table position with
          | error thrown => rfl
          | ok bounds =>
            have hnext := lt_next hbounds
            exact ih _ (by omega) next _ rfl
    · rfl

theorem holdsRefBlock_ok {held : Bool}
    (h : holdsRefBlock table position = .ok held) :
    position + blockHeaderSize ≤ table.bytes.length := by
  have houtcome := @holdsRefBlock_outcome table position
  rw [h, Outcome.ok_iff] at houtcome
  exact houtcome

/-- A place where a block may begin. -/
def Inside (table : Reftable) (position : ℕ) : Prop :=
  0 < position ∧ position + blockHeaderSize ≤ table.bytes.length

variable {refuses bad : Thrown → Prop} {post : ρ → Prop}
  {body : σ → ℕ → Generator ω Thrown (Turn σ ρ)}

/-- **A walk from block to block** comes to an end, if its body does. -/
theorem settles_forRefBlocks (htyped : ∀ thrown, Typed thrown → refuses thrown)
    (hbody : ∀ state position, Inside table position →
      Generator.Settles refuses (Turn.Meets post fun _ => True) (body state position))
    (state : σ) (hpos : 0 < position) :
    Generator.Settles refuses (fun found => ∀ answer, found = some answer → post answer)
      (forRefBlocks table body state position) := by
  have hnone : ∀ answer, (none : Option ρ) = some answer → post answer := fun _ h => by cases h
  induction hleft : refSectionEnd table - position using Nat.strong_induction_on
    generalizing state position with
  | _ left ih =>
    rw [forRefBlocks_eq liftsExcept_generator]
    split
    · next hinside =>
      refine (Generator.settles_lift_iff.mpr (holdsRefBlock_outcome.weaken htyped)).bind
        fun held hheld hroom => ?_
      cases held with
      | false => exact hnone
      | true =>
        rw [if_pos rfl]
        refine (hbody state position ⟨hpos, hroom⟩).bind fun turn _ hturn => ?_
        cases turn with
        | stop answer =>
          rintro _ ⟨⟩
          exact hturn
        | again next =>
          refine (Generator.settles_lift_iff.mpr
            ((blockBoundsAt_outcome hpos hroom).weaken htyped)).bind
            fun bounds hread _ => ?_
          have hnext := lt_next (Generator.returns_lift_iff.mp hread)
          exact ih _ (by omega) next (by omega) rfl
    · exact hnone
/-- **A walk from block to block** throws what its body throws at a block that it comes to. -/
theorem throws_forRefBlocks_iff (hbad : ∀ thrown, Typed thrown → ¬ bad thrown) (state : σ) (hpos : 0 < position) :
    Generator.Throws bad (forRefBlocks table body state position) ↔ ∃ state' block, RefBlocks table
        (fun state position next => Generator.Returns (.again next) (body state position)) state
        position state' block ∧ Generator.Throws bad (body state' block) := by
  induction hleft : refSectionEnd table - position using Nat.strong_induction_on
    generalizing state position with
  | _ left ih =>
    rw [forRefBlocks_eq liftsExcept_generator]
    split
    · next hinside =>
      have hno : ¬ Throws bad (holdsRefBlock table position) :=
        holdsRefBlock_outcome.not_throws hbad
      rw [Generator.throws_bind_iff, Generator.throws_lift_iff, or_iff_right hno]
      constructor
      · rintro ⟨held, hheld, hthrows⟩
        rw [Generator.returns_lift_iff] at hheld
        have hroom := holdsRefBlock_ok hheld
        cases held with
        | false => exact hthrows.elim
        | true =>
          rw [if_pos rfl, Generator.throws_bind_iff] at hthrows
          rcases hthrows with hhere | ⟨turn, hturn, hlater⟩
          · exact ⟨state, position, .here hinside hheld, hhere⟩
          cases turn with
          | stop answer => exact hlater.elim
          | again next =>
            have hbounded : ¬ Throws bad (blockBoundsAt table position) :=
              (blockBoundsAt_outcome hpos hroom).not_throws hbad
            dsimp only at hlater
            rw [Generator.throws_bind_iff, Generator.throws_lift_iff,
              or_iff_right hbounded] at hlater
            obtain ⟨bounds, hbounds, hrest⟩ := hlater
            rw [Generator.returns_lift_iff] at hbounds
            have hnext := lt_next hbounds
            rw [ih _ (by omega) next (by omega) rfl] at hrest
            obtain ⟨state', block, hcomes, hthrows⟩ := hrest
            exact ⟨state', block, .behind hinside hheld hturn hbounds hcomes, hthrows⟩
      · rintro ⟨state', block, hcomes, hthrows⟩
        cases hcomes with
        | here _ hholds =>
          refine ⟨true, Generator.returns_lift_iff.mpr hholds, ?_⟩
          rw [if_pos rfl, Generator.throws_bind_iff]
          exact .inl hthrows
        | @behind _ next _ _ _ bounds _ hholds hgoes hbounds hrest =>
          have hnext := lt_next hbounds
          refine ⟨true, Generator.returns_lift_iff.mpr hholds, ?_⟩
          rw [if_pos rfl, Generator.throws_bind_iff]
          refine .inr ⟨.again next, hgoes, ?_⟩
          dsimp only
          rw [Generator.throws_bind_iff]
          refine .inr ⟨bounds, Generator.returns_lift_iff.mpr hbounds, ?_⟩
          rw [ih _ (by omega) next (by omega) rfl]
          exact ⟨state', block, hrest, hthrows⟩
    · next hout =>
      refine iff_of_false id ?_
      rintro ⟨state', block, hcomes, -⟩
      cases hcomes with
      | here hinside _ => exact hout hinside
      | behind hinside _ _ _ _ => exact hout hinside

end

/-! ### A search for a name -/

def FindsAt (table : Reftable) (target : Bytes) (block place : ℕ) (prior : Option Bytes) : Prop :=
  ∃ bounds restartIndex, blockBoundsAt table block = .ok bounds ∧
    floorRestartIndex table.bytes bounds.restartOffsets target = .ok restartIndex ∧
    Scan table.bytes (refRecordDecoder table.header) (compareBytes · target < 0) bounds.recordsEnd
      ((bounds.restartOffsets[restartIndex]?).getD 0) none place prior

/-- Without an index, the blocks that are searched to find the one that a name is in. -/
def Sought (table : Reftable) (target : Bytes) (block : ℕ) : Prop :=
  blockTypeAt table table.header.headerLength = .ok 'r' ∧ table.footer.refIndexPosition = 0 ∧
    RefBlocks table (fun _ position _ => findRefInBlock table target position = .ok none) ()
      table.header.headerLength () block

section

variable {table : Reftable} {target : Bytes}

theorem headerLength_pos (header : ReftableHeader) : 0 < header.headerLength :=
  Nat.lt_of_lt_of_le (by decide) (layout_spec header.version).2

theorem inside_headerLength (h : Framed table) : Inside table table.header.headerLength := by
  obtain ⟨hfooter, -⟩ := layout_spec table.header.version
  unfold Framed ReftableHeader.headerLength at h
  refine ⟨headerLength_pos _, ?_⟩
  unfold blockHeaderSize ReftableHeader.headerLength
  omega

theorem throws_readForward_cut_iff (place : ℕ) (prior : Option Bytes) :
    Throws Slip (readForward table.bytes (refRecordDecoder table.header) place prior) ↔
      CutRecord table place prior :=
  (throws_readForward_iff typed_not_slip).trans throws_refRecordDecoder_iff

theorem findRefInBlock_outcome {block : ℕ} (h : Inside table block) :
    Outcome Escapes (fun _ => True) (findRefInBlock table target block) := by
  refine ((blockBoundsAt_outcome h.1 h.2).weaken typed_escapes).bind fun bounds _ => ?_
  exact findInBlock_outcome typed_escapes fun _ _ => refRecordDecoder_outcome

theorem throws_findInBlock_iff {bounds : BlockBounds} :
    Throws Slip (findInBlock table.bytes (refRecordDecoder table.header) bounds target) ↔
      ∃ restartIndex, floorRestartIndex table.bytes bounds.restartOffsets target =
        .ok restartIndex ∧ ∃ place prior, Scan table.bytes (refRecordDecoder table.header)
          (compareBytes · target < 0) bounds.recordsEnd
          ((bounds.restartOffsets[restartIndex]?).getD 0) none place prior ∧
        CutRecord table place prior := by
  unfold findInBlock
  rw [throws_bind_iff_of_not (floorRestartIndex_outcome.not_throws typed_not_slip)]
  simp only [throws_findRecordFrom_iff, throws_readForward_cut_iff]

theorem throws_findRefInBlock_iff {block : ℕ} (h : Inside table block) :
    Throws Slip (findRefInBlock table target block) ↔
      ∃ place prior, FindsAt table target block place prior ∧ CutRecord table place prior := by
  unfold findRefInBlock
  rw [throws_bind_iff_of_not ((blockBoundsAt_outcome h.1 h.2).not_throws typed_not_slip)]
  constructor
  · rintro ⟨bounds, hbounds, hthrows⟩
    obtain ⟨restartIndex, hindex, place, prior, hscan, hcut⟩ := throws_findInBlock_iff.mp hthrows
    exact ⟨place, prior, ⟨bounds, restartIndex, hbounds, hindex, hscan⟩, hcut⟩
  · rintro ⟨place, prior, ⟨bounds, restartIndex, hbounds, hindex, hscan⟩, hcut⟩
    exact ⟨bounds, hbounds,
      throws_findInBlock_iff.mpr ⟨restartIndex, hindex, place, prior, hscan, hcut⟩⟩

/-- A search that finds a block finds a place where one may begin. -/
def Located (table : Reftable) (found : Option ℕ) : Prop :=
  ∀ block, found = some block → Inside table block

theorem located_none : Located table none := fun _ h => by cases h

theorem located_some {block : ℕ} (h : Inside table block) : Located table (some block) := by
  rintro _ ⟨⟩
  exact h

theorem findRefBlockContaining_outcome :
    Outcome Escapes (Located table) (findRefBlockContaining table target) := by
  rw [← @Generator.settles_lift_iff Empty]
  unfold findRefBlockContaining
  rw [lift_forRefBlocks]
  refine settles_forRefBlocks typed_escapes (fun _ position h => ?_) () (headerLength_pos _)
  refine Generator.settles_lift_iff.mpr ((findRefInBlock_outcome h).bind fun found _ => ?_)
  cases found with
  | none => exact .pure trivial
  | some record => exact .pure h

theorem throws_findRefBlockTurn_iff {position : ℕ} :
    Throws Slip (findRefBlockTurn table target () position) ↔
      Throws Slip (findRefInBlock table target position) := by
  unfold findRefBlockTurn
  rw [throws_bind_iff, or_iff_left]
  rintro ⟨found, -, h⟩
  cases found with
  | none => exact h
  | some record => exact h

theorem findRefBlockTurn_again_iff {position : ℕ} :
    findRefBlockTurn table target () position = .ok (.again ()) ↔
      findRefInBlock table target position = .ok none := by
  unfold findRefBlockTurn
  rw [bind_eq_ok]
  constructor
  · rintro ⟨found, hfound, h⟩
    cases found with
    | none => exact hfound
    | some record => cases h
  · intro h
    exact ⟨none, h, rfl⟩

theorem throws_findRefBlockContaining_iff :
    Throws Slip (findRefBlockContaining table target) ↔
      ∃ block, RefBlocks table (fun _ position _ => findRefInBlock table target position = .ok none)
        () table.header.headerLength () block ∧
        Throws Slip (findRefInBlock table target block) := by
  have hgoes : (fun (state : Unit) position (next : Unit) => Generator.Returns (.again next)
      (liftM (findRefBlockTurn table target state position) :
        Generator Empty Thrown (Turn Unit ℕ))) =
      fun _ position _ => findRefInBlock table target position = .ok none := by
    funext state position next
    exact propext (Generator.returns_lift_iff.trans findRefBlockTurn_again_iff)
  rw [← @Generator.throws_lift_iff Empty]
  unfold findRefBlockContaining
  rw [lift_forRefBlocks, throws_forRefBlocks_iff typed_not_slip () (headerLength_pos _), hgoes]
  simp only [Generator.throws_lift_iff]
  constructor
  · rintro ⟨⟨⟩, block, hcomes, hthrows⟩
    exact ⟨block, hcomes, throws_findRefBlockTurn_iff.mp hthrows⟩
  · rintro ⟨block, hcomes, hthrows⟩
    exact ⟨(), block, hcomes, throws_findRefBlockTurn_iff.mpr hthrows⟩

theorem resolveBlockOffset_pos (position : ℕ) : 0 < resolveBlockOffset table position := by
  unfold resolveBlockOffset
  split
  · exact headerLength_pos _
  · omega

theorem descendIndexLevel_outcome {position : ℕ} (h : Inside table position) :
    Outcome Typed (fun found => ∀ child, found = some child → 0 < child)
      (descendIndexLevel table target position) := by
  have hnone : ∀ child, (none : Option ℕ) = some child → 0 < child := fun _ hnone => by cases hnone
  induction hleft : table.bytes.length - position using Nat.strong_induction_on
    generalizing position with
  | _ left ih =>
    have hroom := h.2
    unfold blockHeaderSize at hroom
    rw [descendIndexLevel]
    refine (blockTypeAt_outcome (by omega)).bind fun type _ => ?_
    refine .ite (fun _ => ?_) fun _ => .pure hnone
    split
    · next thrown hbounds =>
      have houtcome := blockBoundsAt_outcome h.1 h.2
      rw [hbounds, Outcome.error_iff] at houtcome
      exact .error houtcome
    · next bounds hbounds =>
      refine (findInBlock_outcome (fun _ => id) fun _ _ => decodeIndexRecord_outcome).bind
        fun found _ => ?_
      cases found with
      | some record =>
        refine .pure ?_
        rintro _ ⟨⟩
        exact resolveBlockOffset_pos _
      | none =>
        refine .ite (fun _ => .pure hnone) fun hinside => ?_
        have hnext := lt_next hbounds
        obtain ⟨hfooter, -⟩ := layout_spec table.header.version
        unfold blockAreaEnd at hinside
        refine ih _ (by omega) ⟨by omega, ?_⟩ rfl
        unfold blockHeaderSize
        omega

theorem descendIndex_outcome (levels : ℕ) {levelStart : ℕ} (h : Inside table levelStart) :
    Outcome Typed (Located table) (descendIndex table target levels levelStart) := by
  induction levels generalizing levelStart with
  | zero => exact refuses_invalid _ _
  | succ levels ih =>
    refine (descendIndexLevel_outcome h).bind fun found hfound => ?_
    cases found with
    | none => exact .pure located_none
    | some child =>
      have hpos := hfound child rfl
      refine boundedBlockTypeAt_outcome.bind fun type hroom => ?_
      refine .ite (fun _ => ?_) fun _ => ih ⟨hpos, hroom⟩
      exact assertBlockType_outcome.bind fun _ _ => .pure (located_some ⟨hpos, hroom⟩)

theorem resolveThroughIndex_outcome (h : table.footer.refIndexPosition ≠ 0) :
    Outcome Typed (Located table) (resolveThroughIndex table target) := by
  refine assertBlockType_outcome.bind fun _ hroom => ?_
  exact descendIndex_outcome _ ⟨Nat.pos_of_ne_zero h, hroom⟩

theorem resolveRefBlockPosition_outcome (h : Framed table) :
    Outcome Escapes (Located table) (resolveRefBlockPosition table target) := by
  have hroom := (inside_headerLength h).2
  unfold blockHeaderSize at hroom
  refine ((blockTypeAt_outcome (by omega)).weaken typed_escapes).bind fun type _ => ?_
  refine .ite (fun _ => .pure located_none) fun _ => ?_
  refine .ite (fun _ => findRefBlockContaining_outcome) fun hindex => ?_
  exact (resolveThroughIndex_outcome hindex).weaken typed_escapes

/-- **The search for a block** slips just where it comes to a record that slips. -/
theorem throws_resolveRefBlockPosition_iff (h : Framed table) :
    Throws Slip (resolveRefBlockPosition table target) ↔
      ∃ block, Sought table target block ∧ Throws Slip (findRefInBlock table target block) := by
  have hroom := (inside_headerLength h).2
  unfold blockHeaderSize at hroom
  unfold resolveRefBlockPosition Sought
  rw [throws_bind_iff_of_not ((blockTypeAt_outcome (by omega)).not_throws typed_not_slip)]
  constructor
  · rintro ⟨type, htype, hthrows⟩
    split at hthrows
    · exact hthrows.elim
    · next href =>
      rw [not_not] at href
      split at hthrows
      · next hindex =>
        obtain ⟨block, hcomes, hblock⟩ := throws_findRefBlockContaining_iff.mp hthrows
        exact ⟨block, ⟨by rw [htype, href], hindex, hcomes⟩, hblock⟩
      · next hindex =>
        exact ((resolveThroughIndex_outcome hindex).not_throws typed_not_slip hthrows).elim
  · rintro ⟨block, ⟨htype, hindex, hcomes⟩, hblock⟩
    refine ⟨'r', htype, ?_⟩
    rw [if_neg (not_not_intro rfl), if_pos hindex]
    exact throws_findRefBlockContaining_iff.mpr ⟨block, hcomes, hblock⟩

theorem RefBlocks.inside {σ : Type} {goesOn : σ → ℕ → σ → Prop} {state state' : σ}
    {position block : ℕ} (hcomes : RefBlocks table goesOn state position state' block)
    (hpos : 0 < position) : Inside table block := by
  induction hcomes with
  | here _ hholds => exact ⟨hpos, holdsRefBlock_ok hholds⟩
  | behind _ _ _ hbounds _ ih => exact ih (Nat.zero_lt_of_lt (lt_next hbounds))

end

/-! ### The operations -/

def WalksAt (table : Reftable) (block place : ℕ) (prior : Option Bytes) : Prop :=
  ∃ bounds, blockBoundsAt table block = .ok bounds ∧
    Scan table.bytes (refRecordDecoder table.header) (fun _ => True) bounds.recordsEnd
      bounds.recordsStart none place prior

def ResumesAt (table : Reftable) (target : Bytes) (block place : ℕ) (prior : Option Bytes) : Prop :=
  ∃ bounds seek, blockBoundsAt table block = .ok bounds ∧
    findInBlock table.bytes (refRecordDecoder table.header) bounds target = .ok (some seek) ∧
    Scan table.bytes (refRecordDecoder table.header) (fun _ => True) bounds.recordsEnd
      seek.nextOffset (some seek.nameBytes) place prior

/-- A lookup of a ref, the iteration over all refs, or over those from a name on. -/
inductive Operation
  | lookup (name : Text)
  | iterate
  | iterateFrom (start : Text)

def Operation.target : Operation → Option Bytes
  | lookup name => some (encode name)
  | iterate => none
  | iterateFrom start => some (encode start)

/-- The operation comes to an end: it has an answer, or throws an error that `refuses` allows. -/
def Operation.EndsIn (refuses : Thrown → Prop) (table : Reftable) : Operation → Prop
  | lookup name => Outcome refuses (fun _ => True) (lookupReftableRef table name)
  | iterate => (iterateReftableRefs table).Settles refuses fun _ => True
  | iterateFrom start => (iterateReftableRefsFrom table start).Settles refuses fun _ => True

def Operation.Throws (bad : Thrown → Prop) (table : Reftable) : Operation → Prop
  | lookup name => Except.Throws bad (lookupReftableRef table name)
  | iterate => (iterateReftableRefs table).Throws bad
  | iterateFrom start => (iterateReftableRefsFrom table start).Throws bad

/-- **The places of the ref records that an operation reads**, each with the name before it, in all
the blocks it goes through. -/
inductive ReadsAt (table : Reftable) : Operation → ℕ → Option Bytes → Prop
  | search {op : Operation} {target : Bytes} {block place : ℕ} {prior : Option Bytes}
      (htarget : op.target = some target) (hsought : Sought table target block)
      (hfinds : FindsAt table target block place prior) : ReadsAt table op place prior
  | lookup {name : Text} {block place : ℕ} {prior : Option Bytes}
      (hfound : resolveRefBlockPosition table (encode name) = .ok (some block))
      (hfinds : FindsAt table (encode name) block place prior) :
      ReadsAt table (.lookup name) place prior
  | walk {block place : ℕ} {prior : Option Bytes}
      (htype : blockTypeAt table table.header.headerLength = .ok 'r')
      (hcomes : RefBlocks table
        (fun state position next => (iterateTurn table state position).Returns (.again next)) ()
        table.header.headerLength () block)
      (hwalks : WalksAt table block place prior) : ReadsAt table .iterate place prior
  | seek {start : Text} {first block place : ℕ} {prior : Option Bytes}
      (hfound : resolveRefBlockPosition table (encode start) = .ok (some first))
      (hcomes : RefBlocks table (fun reached position next =>
        (iterateFromTurn table (encode start) reached position).Returns (.again next)) false first
        false block)
      (hreads : FindsAt table (encode start) block place prior ∨
        ResumesAt table (encode start) block place prior) :
      ReadsAt table (.iterateFrom start) place prior
  | later {start : Text} {first block place : ℕ} {prior : Option Bytes}
      (hfound : resolveRefBlockPosition table (encode start) = .ok (some first))
      (hcomes : RefBlocks table (fun reached position next =>
        (iterateFromTurn table (encode start) reached position).Returns (.again next)) false first
        true block)
      (hwalks : WalksAt table block place prior) : ReadsAt table (.iterateFrom start) place prior

section

variable {table : Reftable} {target : Bytes}

variable {bounds : BlockBounds}

theorem settles_blockPayloads
    {resume : Option (BlockRecord ReftableRefRecord)} :
    (blockPayloads table bounds resume).Settles Escapes fun _ => True := by
  unfold blockPayloads walkBlockRecords
  rw [Generator.settles_mapItems]
  cases resume with
  | none => exact settles_walkRecordsFrom typed_escapes (fun _ _ => refRecordDecoder_outcome) _ _
  | some record =>
    exact settles_walkRecordsFrom typed_escapes (fun _ _ => refRecordDecoder_outcome) _ _

theorem throws_blockPayloads_none_iff :
    (blockPayloads table bounds none).Throws Slip ↔ ∃ place prior,
      Scan table.bytes (refRecordDecoder table.header) (fun _ => True) bounds.recordsEnd
        bounds.recordsStart none place prior ∧ CutRecord table place prior := by
  unfold blockPayloads walkBlockRecords
  rw [Generator.throws_mapItems, throws_walkRecordsFrom_iff]
  simp only [throws_readForward_cut_iff]

theorem throws_blockPayloads_some_iff
    {record : BlockRecord ReftableRefRecord} :
    (blockPayloads table bounds (some record)).Throws Slip ↔ ∃ place prior,
      Scan table.bytes (refRecordDecoder table.header) (fun _ => True) bounds.recordsEnd
        record.nextOffset (some record.nameBytes) place prior ∧ CutRecord table place prior := by
  unfold blockPayloads walkBlockRecords
  rw [Generator.throws_mapItems, throws_walkRecordsFrom_iff]
  simp only [throws_readForward_cut_iff]

variable {block : ℕ}

theorem settles_iterateTurn (h : Inside table block) :
    (iterateTurn table () block).Settles Escapes (Turn.Meets (fun _ => True) fun _ => True) := by
  refine (Generator.settles_lift_iff.mpr
    ((blockBoundsAt_outcome h.1 h.2).weaken typed_escapes)).bind fun bounds _ _ => ?_
  exact settles_blockPayloads.bind fun _ _ _ => trivial

theorem throws_iterateTurn_iff (h : Inside table block) :
    (iterateTurn table () block).Throws Slip ↔
      ∃ place prior, WalksAt table block place prior ∧ CutRecord table place prior := by
  have hbounded : ¬ Throws Slip (blockBoundsAt table block) :=
    (blockBoundsAt_outcome h.1 h.2).not_throws typed_not_slip
  unfold iterateTurn
  rw [Generator.throws_bind_iff, Generator.throws_lift_iff, or_iff_right hbounded]
  constructor
  · rintro ⟨bounds, hbounds, hthrows⟩
    rw [Generator.throws_bind_iff] at hthrows
    rcases hthrows with hwalk | ⟨_, -, hlater⟩
    · obtain ⟨place, prior, hscan, hcut⟩ := throws_blockPayloads_none_iff.mp hwalk
      exact ⟨place, prior, ⟨bounds, Generator.returns_lift_iff.mp hbounds, hscan⟩, hcut⟩
    · exact hlater.elim
  · rintro ⟨place, prior, ⟨bounds, hbounds, hscan⟩, hcut⟩
    refine ⟨bounds, Generator.returns_lift_iff.mpr hbounds, ?_⟩
    rw [Generator.throws_bind_iff]
    exact .inl (throws_blockPayloads_none_iff.mpr ⟨place, prior, hscan, hcut⟩)

theorem settles_iterateFromTurn (reached : Bool) (h : Inside table block) :
    (iterateFromTurn table target reached block).Settles Escapes
      (Turn.Meets (fun _ => True) fun _ => True) := by
  refine (Generator.settles_lift_iff.mpr
    ((blockBoundsAt_outcome h.1 h.2).weaken typed_escapes)).bind fun bounds _ _ => ?_
  cases reached with
  | true => exact settles_blockPayloads.bind fun _ _ _ => trivial
  | false =>
    refine (Generator.settles_lift_iff.mpr (findInBlock_outcome typed_escapes
      fun _ _ => refRecordDecoder_outcome)).bind fun found _ _ => ?_
    cases found with
    | none => trivial
    | some seek => exact settles_blockPayloads.bind fun _ _ _ => trivial

theorem throws_iterateFromTurn_true_iff (h : Inside table block) :
    (iterateFromTurn table target true block).Throws Slip ↔
      ∃ place prior, WalksAt table block place prior ∧ CutRecord table place prior := by
  rw [← throws_iterateTurn_iff h]
  unfold iterateFromTurn iterateTurn
  rw [Generator.throws_bind_iff, Generator.throws_bind_iff]
  refine or_congr_right (exists_congr fun bounds => and_congr_right fun _ => ?_)
  rw [if_pos rfl, Generator.throws_bind_iff, Generator.throws_bind_iff]
  exact Iff.rfl

theorem throws_iterateFromTurn_false_iff (h : Inside table block) :
    (iterateFromTurn table target false block).Throws Slip ↔
      ∃ place prior, (FindsAt table target block place prior ∨
        ResumesAt table target block place prior) ∧ CutRecord table place prior := by
  have hbounded : ¬ Throws Slip (blockBoundsAt table block) :=
    (blockBoundsAt_outcome h.1 h.2).not_throws typed_not_slip
  unfold iterateFromTurn
  rw [Generator.throws_bind_iff, Generator.throws_lift_iff, or_iff_right hbounded]
  constructor
  · rintro ⟨bounds, hbounds, hthrows⟩
    rw [Generator.returns_lift_iff] at hbounds
    rw [if_neg Bool.false_ne_true, Generator.throws_bind_iff, Generator.throws_lift_iff] at hthrows
    rcases hthrows with hfind | ⟨found, hfound, hlater⟩
    · obtain ⟨restartIndex, hindex, place, prior, hscan, hcut⟩ := throws_findInBlock_iff.mp hfind
      exact ⟨place, prior, .inl ⟨bounds, restartIndex, hbounds, hindex, hscan⟩, hcut⟩
    rw [Generator.returns_lift_iff] at hfound
    cases found with
    | none => exact hlater.elim
    | some seek =>
      dsimp only at hlater
      rw [Generator.throws_bind_iff] at hlater
      rcases hlater with hnever | ⟨_, -, hlater⟩
      · exact hnever.elim
      · rw [Generator.throws_bind_iff] at hlater
        rcases hlater with hwalk | ⟨_, -, hlast⟩
        · obtain ⟨place, prior, hscan, hcut⟩ := throws_blockPayloads_some_iff.mp hwalk
          exact ⟨place, prior, .inr ⟨bounds, seek, hbounds, hfound, hscan⟩, hcut⟩
        · exact hlast.elim
  · rintro ⟨place, prior, ⟨bounds, restartIndex, hbounds, hindex, hscan⟩ |
      ⟨bounds, seek, hbounds, hfound, hscan⟩, hcut⟩
    · refine ⟨bounds, Generator.returns_lift_iff.mpr hbounds, ?_⟩
      rw [if_neg Bool.false_ne_true, Generator.throws_bind_iff, Generator.throws_lift_iff]
      exact .inl (throws_findInBlock_iff.mpr ⟨restartIndex, hindex, place, prior, hscan, hcut⟩)
    refine ⟨bounds, Generator.returns_lift_iff.mpr hbounds, ?_⟩
    rw [if_neg Bool.false_ne_true, Generator.throws_bind_iff]
    refine .inr ⟨some seek, Generator.returns_lift_iff.mpr hfound, ?_⟩
    dsimp only
    rw [Generator.throws_bind_iff]
    refine .inr ⟨(), rfl, ?_⟩
    rw [Generator.throws_bind_iff]
    exact .inl (throws_blockPayloads_some_iff.mpr ⟨place, prior, hscan, hcut⟩)

/-- **Every operation ends**, with an answer, the typed refusal, or the slip. -/
theorem endsIn_escapes (h : Framed table) (op : Operation) : op.EndsIn Escapes table := by
  have hinside := inside_headerLength h
  have hroom := hinside.2
  unfold blockHeaderSize at hroom
  cases op with
  | lookup name =>
    refine (resolveRefBlockPosition_outcome h).bind fun found hfound => ?_
    cases found with
    | none => exact .pure trivial
    | some block =>
      refine (findRefInBlock_outcome (hfound block rfl)).bind fun record _ => ?_
      cases record with
      | none => exact .pure trivial
      | some record => exact .pure trivial
  | iterate =>
    refine (Generator.settles_lift_iff.mpr
      ((blockTypeAt_outcome (by omega)).weaken typed_escapes)).bind fun type _ _ => ?_
    split
    · trivial
    · exact (settles_forRefBlocks typed_escapes (fun _ _ hblock => settles_iterateTurn hblock) ()
        hinside.1).bind fun _ _ _ => trivial
  | iterateFrom start =>
    refine (Generator.settles_lift_iff.mpr (resolveRefBlockPosition_outcome h)).bind
      fun found _ hfound => ?_
    cases found with
    | none => trivial
    | some first =>
      exact (settles_forRefBlocks typed_escapes
        (fun reached _ hblock => settles_iterateFromTurn reached hblock) false
        (hfound first rfl).1).bind fun _ _ _ => trivial

theorem located_of_resolve (h : Framed table) {found : Option ℕ}
    (hfound : resolveRefBlockPosition table target = .ok found) : Located table found := by
  have houtcome := @resolveRefBlockPosition_outcome table target h
  rw [hfound, Outcome.ok_iff] at houtcome
  exact houtcome

theorem Sought.inside (h : Sought table target block) : Inside table block :=
  h.2.2.inside (headerLength_pos _)

theorem throws_resolve_reads (h : Framed table) {op : Operation} (htarget : op.target = some target)
    (hthrows : Throws Slip (resolveRefBlockPosition table target)) :
    ∃ place prior, ReadsAt table op place prior ∧ CutRecord table place prior := by
  obtain ⟨block, hsought, hblock⟩ := (throws_resolveRefBlockPosition_iff h).mp hthrows
  obtain ⟨place, prior, hfinds, hcut⟩ := (throws_findRefInBlock_iff hsought.inside).mp hblock
  exact ⟨place, prior, .search htarget hsought hfinds, hcut⟩

theorem throws_resolve_of_sought (h : Framed table) {block place : ℕ} {prior : Option Bytes}
    (hsought : Sought table target block) (hfinds : FindsAt table target block place prior)
    (hcut : CutRecord table place prior) :
    Throws Slip (resolveRefBlockPosition table target) :=
  (throws_resolveRefBlockPosition_iff h).mpr ⟨block, hsought,
    (throws_findRefInBlock_iff hsought.inside).mpr ⟨place, prior, hfinds, hcut⟩⟩

theorem throws_lookup_iff (h : Framed table) (name : Text) :
    Throws Slip (lookupReftableRef table name) ↔
      ∃ place prior, ReadsAt table (.lookup name) place prior ∧ CutRecord table place prior := by
  unfold lookupReftableRef
  dsimp only
  rw [throws_bind_iff]
  constructor
  · rintro (hsearch | ⟨found, hfound, hlater⟩)
    · exact throws_resolve_reads h rfl hsearch
    cases found with
    | none => exact hlater.elim
    | some block =>
      have hblock := located_of_resolve h hfound block rfl
      dsimp only at hlater
      rw [throws_bind_iff] at hlater
      rcases hlater with hfind | ⟨record, -, hlast⟩
      · obtain ⟨place, prior, hfinds, hcut⟩ := (throws_findRefInBlock_iff hblock).mp hfind
        exact ⟨place, prior, .lookup hfound hfinds, hcut⟩
      · cases record with
        | none => exact hlast.elim
        | some record => exact hlast.elim
  · rintro ⟨place, prior, hreads, hcut⟩
    cases hreads with
    | search htarget hsought hfinds =>
      cases htarget
      exact .inl (throws_resolve_of_sought h hsought hfinds hcut)
    | @lookup _ block _ _ hfound hfinds =>
      have hblock := located_of_resolve h hfound block rfl
      refine .inr ⟨some block, hfound, throws_bind_iff.mpr (.inl ?_)⟩
      exact (throws_findRefInBlock_iff hblock).mpr ⟨place, prior, hfinds, hcut⟩

theorem throws_iterate_iff (h : Framed table) :
    (iterateReftableRefs table).Throws Slip ↔
      ∃ place prior, ReadsAt table .iterate place prior ∧ CutRecord table place prior := by
  have hinside := inside_headerLength h
  have hroom := hinside.2
  unfold blockHeaderSize at hroom
  have hno : ¬ Throws Slip (blockTypeAt table table.header.headerLength) :=
    (blockTypeAt_outcome (by omega)).not_throws typed_not_slip
  unfold iterateReftableRefs
  rw [Generator.throws_bind_iff, Generator.throws_lift_iff, or_iff_right hno]
  constructor
  · rintro ⟨type, htype, hthrows⟩
    rw [Generator.returns_lift_iff] at htype
    split at hthrows
    · exact hthrows.elim
    · next href =>
      rw [not_not] at href
      rw [Generator.throws_bind_iff] at hthrows
      rcases hthrows with hwalk | ⟨_, -, hlast⟩
      · obtain ⟨⟨⟩, block, hcomes, hblock⟩ :=
          (throws_forRefBlocks_iff typed_not_slip () hinside.1).mp hwalk
        obtain ⟨place, prior, hwalks, hcut⟩ :=
          (throws_iterateTurn_iff (hcomes.inside hinside.1)).mp hblock
        exact ⟨place, prior, .walk (by rw [htype, href]) hcomes hwalks, hcut⟩
      · exact hlast.elim
  · rintro ⟨place, prior, hreads, hcut⟩
    cases hreads with
    | search htarget _ _ => cases htarget
    | walk htype hcomes hwalks =>
      refine ⟨'r', Generator.returns_lift_iff.mpr htype, ?_⟩
      rw [if_neg (not_not_intro rfl), Generator.throws_bind_iff]
      refine .inl ((throws_forRefBlocks_iff typed_not_slip () hinside.1).mpr ⟨(), _, hcomes, ?_⟩)
      exact (throws_iterateTurn_iff (hcomes.inside hinside.1)).mpr ⟨place, prior, hwalks, hcut⟩

theorem throws_iterateFrom_iff (h : Framed table) (start : Text) :
    (iterateReftableRefsFrom table start).Throws Slip ↔
      ∃ place prior, ReadsAt table (.iterateFrom start) place prior ∧
        CutRecord table place prior := by
  unfold iterateReftableRefsFrom
  dsimp only
  rw [Generator.throws_bind_iff, Generator.throws_lift_iff]
  constructor
  · rintro (hsearch | ⟨found, hfound, hlater⟩)
    · exact throws_resolve_reads h rfl hsearch
    rw [Generator.returns_lift_iff] at hfound
    cases found with
    | none => exact hlater.elim
    | some first =>
      have hpos := (located_of_resolve h hfound first rfl).1
      dsimp only at hlater
      rw [Generator.throws_bind_iff] at hlater
      rcases hlater with hwalk | ⟨_, -, hlast⟩
      · obtain ⟨reached, block, hcomes, hblock⟩ :=
          (throws_forRefBlocks_iff typed_not_slip false hpos).mp hwalk
        have hinside := hcomes.inside hpos
        cases reached with
        | false =>
          obtain ⟨place, prior, hreads, hcut⟩ :=
            (throws_iterateFromTurn_false_iff hinside).mp hblock
          exact ⟨place, prior, .seek hfound hcomes hreads, hcut⟩
        | true =>
          obtain ⟨place, prior, hwalks, hcut⟩ :=
            (throws_iterateFromTurn_true_iff hinside).mp hblock
          exact ⟨place, prior, .later hfound hcomes hwalks, hcut⟩
      · exact hlast.elim
  · rintro ⟨place, prior, hreads, hcut⟩
    cases hreads with
    | search htarget hsought hfinds =>
      cases htarget
      exact .inl (throws_resolve_of_sought h hsought hfinds hcut)
    | @seek _ first block _ _ hfound hcomes hreads =>
      have hpos := (located_of_resolve h hfound first rfl).1
      refine .inr ⟨some first, Generator.returns_lift_iff.mpr hfound, ?_⟩
      rw [Generator.throws_bind_iff]
      refine .inl ((throws_forRefBlocks_iff typed_not_slip false hpos).mpr
        ⟨false, block, hcomes, ?_⟩)
      exact (throws_iterateFromTurn_false_iff (hcomes.inside hpos)).mpr
        ⟨place, prior, hreads, hcut⟩
    | @later _ first block _ _ hfound hcomes hwalks =>
      have hpos := (located_of_resolve h hfound first rfl).1
      refine .inr ⟨some first, Generator.returns_lift_iff.mpr hfound, ?_⟩
      rw [Generator.throws_bind_iff]
      refine .inl ((throws_forRefBlocks_iff typed_not_slip false hpos).mpr
        ⟨true, block, hcomes, ?_⟩)
      exact (throws_iterateFromTurn_true_iff (hcomes.inside hpos)).mpr
        ⟨place, prior, hwalks, hcut⟩

theorem throws_slip_iff (h : Framed table) (op : Operation) :
    op.Throws Slip table ↔
      ∃ place prior, ReadsAt table op place prior ∧ CutRecord table place prior := by
  cases op with
  | lookup name => exact throws_lookup_iff h name
  | iterate => exact throws_iterate_iff h
  | iterateFrom start => exact throws_iterateFrom_iff h start

theorem endsIn_typed_iff {op : Operation} (h : op.EndsIn Escapes table) :
    op.EndsIn Typed table ↔ ¬ op.Throws Slip table := by
  cases op with
  | lookup name =>
    exact ⟨fun htyped => Outcome.not_throws htyped typed_not_slip, Outcome.of_not_throws h⟩
  | iterate =>
    exact ⟨fun htyped => Generator.Settles.not_throws htyped typed_not_slip,
      Generator.Settles.of_not_throws h⟩
  | iterateFrom start =>
    exact ⟨fun htyped => Generator.Settles.not_throws htyped typed_not_slip,
      Generator.Settles.of_not_throws h⟩

end

/-- **Reftables that are not trusted.** The parser refuses with its typed error, or every operation
ends, just where it reads no record whose id the end cuts. -/
theorem reftable_endsIn_typed_iff (bytes : Bytes) :
    Outcome Typed (fun table => ∀ op : Operation, op.EndsIn Typed table ↔
      ∀ place prior, ReadsAt table op place prior → ¬ CutRecord table place prior)
      (parseReftable bytes) := by
  refine parseReftable_outcome.mono fun table h op => ?_
  rw [endsIn_typed_iff (endsIn_escapes h op), throws_slip_iff h op]
  push Not
  exact Iff.rfl

/-! ### A table whose record is cut -/

def cutHeader : Bytes :=
  [0x52, 0x45, 0x46, 0x54, 1, 0, 0, 0, 0, 0, 0, 0, 0, 0, 0, 4, 0, 0, 0, 0, 0, 0, 0, 0]

/-- A direct record whose name goes on to the last byte but one of the file. -/
def cutBlock : Bytes := [0x72, 0, 0, 36, 0, 0x83, 0x41, 0, 0, 28, 0, 1]

def cutFooter : Bytes := cutHeader ++ List.replicate 40 0 ++ [246, 85, 18, 1]

def cutReftable : Bytes := cutHeader ++ cutBlock ++ cutFooter

def cutTable : Reftable := ⟨⟨.v1, 0, 4, 0, .sha1⟩, ⟨0, 0, 0, 0, 0, 0⟩, cutReftable⟩

theorem crc32_cutFooter : crc32 (cutHeader ++ List.replicate 40 0) = 4132770305 := by
  have hheader : cutHeader.foldl crc32Step 0xffffffff = 1872717444 := by decide +kernel
  have hfront : (List.replicate 20 0).foldl crc32Step 1872717444 = 278675568 := by decide +kernel
  have hback : (List.replicate 20 0).foldl crc32Step 278675568 = 162196990 := by decide +kernel
  have hzeros : List.replicate 40 (0 : UInt8) = List.replicate 20 0 ++ List.replicate 20 0 := rfl
  rw [crc32, hzeros, List.foldl_append, List.foldl_append, hheader, hfront, hback]
  decide +kernel

theorem parseReftable_cutReftable : parseReftable cutReftable = .ok cutTable := by
  have hversion : readMagicAndVersion cutReftable cutReftable.length = .ok .v1 := by decide +kernel
  have hheader : readHeader cutReftable .v1 = .ok cutTable.header := rfl
  have hcovered : subarray cutReftable 36 100 = cutHeader ++ List.replicate 40 0 := by decide
  have hstored : getUint32 cutReftable 100 = .ok 4132770305 := by decide +kernel
  have hfields : readFields cutReftable 60 = .ok cutTable.footer := rfl
  have hfooter : readFooter cutReftable Version.v1.layout = .ok cutTable.footer := by
    refine (ok_bind_eq hstored).trans ((if_neg ?_).trans hfields)
    change ¬ crc32 (subarray cutReftable 36 100) ≠ 4132770305
    rw [hcovered, crc32_cutFooter, not_not]
  exact (ok_bind_eq hversion).trans ((ok_bind_eq hheader).trans ((ok_bind_eq hfooter).trans rfl))

theorem cutRecord_cutTable : CutRecord cutTable 28 none := by
  have hnamed : readPrefixedName cutReftable 28 none =
      .ok ⟨subarray cutReftable 31 103, 577, 103⟩ := rfl
  have hdelta : readVarint cutReftable 103 = .ok ⟨1, 104⟩ := rfl
  have hcut : CutId cutTable 104 := by
    unfold CutId
    decide
  exact ⟨_, _, hnamed, hdelta, .inl ⟨rfl, hcut⟩⟩

theorem readsAt_cutTable : ReadsAt cutTable .iterate 28 none := by
  have hbounds : blockBoundsAt cutTable 24 = .ok ⟨28, 31, [28], 36⟩ := rfl
  refine .walk rfl (.here ?_ rfl) ⟨_, hbounds, .here (by decide)⟩
  decide

/-- An iteration over an accepted table throws the error of the id. -/
theorem reftable_cutId_escapes :
    parseReftable cutReftable = .ok cutTable ∧ ¬ Operation.iterate.EndsIn Typed cutTable := by
  have hframed : Framed cutTable := by
    have houtcome := @parseReftable_outcome cutReftable
    rw [parseReftable_cutReftable, Outcome.ok_iff] at houtcome
    exact houtcome
  refine ⟨parseReftable_cutReftable, fun h => ?_⟩
  refine (endsIn_typed_iff (endsIn_escapes hframed .iterate)).mp h ?_
  exact (throws_slip_iff hframed .iterate).mpr ⟨28, none, readsAt_cutTable, cutRecord_cutTable⟩

end Tsgit.ReftableFile
