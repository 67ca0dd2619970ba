import Mathlib.Data.Nat.Bitwise
import Tsgit.DataView
import Tsgit.TextDecoder

/-!
# Reftable Files

The header and the footer of a reftable, and its varints
(`src/domain/refs/reftable/reftable-format.ts`), with the checksum of the footer
(`src/domain/storage/crc32.ts`). A position of
the footer is kept exact: it is rounded in the source from `2 ^ 53` on, where no file is.
-/

namespace Tsgit

/-! ### The checksum -/

/-- One turn of the inner loop of `buildCrc32Table`. -/
def crc32Bit (c : UInt32) : UInt32 :=
  if c &&& 1 = 1 then (0xedb88320 : UInt32) ^^^ (c >>> 1) else c >>> 1

def crc32Table (i : UInt32) : UInt32 := Nat.iterate crc32Bit 8 i

/-- One turn of the loop of `crc32`. -/
def crc32Step (c : UInt32) (byte : UInt8) : UInt32 :=
  crc32Table ((c ^^^ byte.toUInt32) &&& 0xff) ^^^ (c >>> 8)

def crc32 (data : Bytes) : ℕ := (data.foldl crc32Step 0xffffffff ^^^ 0xffffffff).toNat

namespace ReftableFile

def invalidReftable {α : Type} (check : ReftableCheck) (reason : String) : Except Thrown α :=
  .error (.refusal (.invalidReftable check reason))

def hexText (n : ℕ) : String := String.ofList (Nat.toDigits 16 n)

def reftMagic : ℕ := 0x52454654

def headerLengthV1 : ℕ := 24

structure VersionLayout where
  headerLength : ℕ
  footerLength : ℕ

/-- The versions of the format. -/
inductive Version
  | v1
  | v2
  deriving DecidableEq

def Version.layout : Version → VersionLayout
  | v1 => ⟨24, 68⟩
  | v2 => ⟨28, 72⟩

structure ReftableHeader where
  version : Version
  blockSize : ℕ
  minUpdateIndex : ℕ
  maxUpdateIndex : ℕ
  hashId : HashConfig

def ReftableHeader.headerLength (header : ReftableHeader) : ℕ := header.version.layout.headerLength

def ReftableHeader.digestLength (header : ReftableHeader) : ℕ := header.hashId.digestLength

structure ReftableFooter where
  refIndexPosition : ℕ
  objPosition : ℕ
  objIdLength : ℕ
  objIndexPosition : ℕ
  logPosition : ℕ
  logIndexPosition : ℕ

structure Reftable where
  header : ReftableHeader
  footer : ReftableFooter
  bytes : Bytes

def readUint24 (bytes : Bytes) (offset : ℕ) : Except Thrown ℕ := do
  let high ← getUint8 bytes offset
  let low ← getUint16 bytes (offset + 1)
  return high <<< 16 ||| low

def readHashId (bytes : Bytes) (offset : ℕ) : Except Thrown HashConfig :=
  let text := decode (subarray bytes offset (offset + 4))
  if text = ['s', 'h', 'a', '1'] then .ok .sha1
  else if text = ['s', '2', '5', '6'] then .ok .sha256
  else invalidReftable .version s!"unrecognized hash id: {String.ofList text}"

def readHeader (bytes : Bytes) (version : Version) : Except Thrown ReftableHeader := do
  let blockSize ← readUint24 bytes 5
  let minUpdateIndex ← getBigUint64 bytes 8
  let maxUpdateIndex ← getBigUint64 bytes 16
  let hashId ← match version with
    | .v1 => pure .sha1
    | .v2 => readHashId bytes 24
  return ⟨version, blockSize, minUpdateIndex, maxUpdateIndex, hashId⟩

def readFields (bytes : Bytes) (fieldsStart : ℕ) : Except Thrown ReftableFooter := do
  let packedObj ← getBigUint64 bytes (fieldsStart + 8)
  let refIndexPosition ← getBigUint64 bytes fieldsStart
  let objIndexPosition ← getBigUint64 bytes (fieldsStart + 16)
  let logPosition ← getBigUint64 bytes (fieldsStart + 24)
  let logIndexPosition ← getBigUint64 bytes (fieldsStart + 32)
  return ⟨refIndexPosition, packedObj >>> 5, packedObj &&& 0x1f, objIndexPosition, logPosition,
    logIndexPosition⟩

def readFooter (bytes : Bytes) (layout : VersionLayout) : Except Thrown ReftableFooter := do
  let footerStart := bytes.length - layout.footerLength
  let crcCoveredEnd := footerStart + layout.footerLength - 4
  let computedCrc := crc32 (subarray bytes footerStart crcCoveredEnd)
  let storedCrc ← getUint32 bytes crcCoveredEnd
  if computedCrc ≠ storedCrc then
    invalidReftable .footerCrc
      s!"footer CRC-32 mismatch: computed 0x{hexText computedCrc}, stored 0x{hexText storedCrc}"
  else readFields bytes (footerStart + layout.headerLength)

/-- The version that a byte states. -/
def versionOf : ℕ → Option Version
  | 1 => some .v1
  | 2 => some .v2
  | _ => none

/-- The caller hands over the first bytes of the file, and how long the file is. -/
def readMagicAndVersion (front : Bytes) (fileByteLength : ℕ) : Except Thrown Version := do
  if fileByteLength < headerLengthV1 then
    invalidReftable .truncated
      s!"truncated: file too short for a reftable header: {fileByteLength} bytes"
  else
    let magic ← getUint32 front 0
    if magic ≠ reftMagic then
      invalidReftable .magic s!"invalid magic: expected 0x{hexText reftMagic}"
    else
      let version ← getUint8 front 4
      match versionOf version with
      | none => invalidReftable .version s!"unsupported version: expected 1 or 2, got {version}"
      | some found =>
        let needed := found.layout.headerLength + found.layout.footerLength
        if fileByteLength < needed then
          invalidReftable .truncated
            (s!"truncated: file too short for its own header and footer: {fileByteLength} " ++
              s!"bytes, needs at least {needed}")
        else pure found

def parseReftable (bytes : Bytes) : Except Thrown Reftable := do
  let version ← readMagicAndVersion bytes bytes.length
  let header ← readHeader bytes version
  let footer ← readFooter bytes version.layout
  return ⟨header, footer, bytes⟩

/-- The block type at a place the caller knows to be inside. -/
def blockTypeAt (reftable : Reftable) (offset : ℕ) : Except Thrown Char := do
  return Char.ofNat (← getUint8 reftable.bytes offset)

def blockLengthAt (reftable : Reftable) (offset : ℕ) : Except Thrown ℕ :=
  readUint24 reftable.bytes (offset + 1)

/-! ### Varints -/

/-- A number, and where what follows it begins. -/
structure Varint where
  value : ℕ
  nextOffset : ℕ

def maxVarintBytes : ℕ := 5

def varintTruncated (offset : ℕ) : Except Thrown Varint :=
  invalidReftable .truncated s!"varint truncated at byte {offset}"

def readVarintFrom (bytes : Bytes) (offset : ℕ) : ℕ → ℕ → ℕ → ℕ → Except Thrown Varint
  | left, pos, byte, value =>
    if byte &&& 0x80 = 0 then .ok ⟨value, pos + 1⟩
    else
      match left with
      | 0 => invalidReftable .varintOverflow
          s!"varint at byte {offset} exceeds {maxVarintBytes} bytes"
      | left + 1 =>
        match bytes[pos + 1]? with
        | none => varintTruncated offset
        | some next =>
          readVarintFrom bytes offset left (pos + 1) next.toNat
            ((value + 1) * 128 + (next.toNat &&& 0x7f))

def readVarint (bytes : Bytes) (offset : ℕ) : Except Thrown Varint :=
  match bytes[offset]? with
  | none => varintTruncated offset
  | some byte =>
    readVarintFrom bytes offset (maxVarintBytes - 1) offset byte.toNat (byte.toNat &&& 0x7f)

end ReftableFile

end Tsgit
