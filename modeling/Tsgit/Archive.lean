import Tsgit.Tree

/-!
# Archives

The entries that an archive is made from (`src/domain/archive/types.ts`), and the checksum of
`src/domain/storage/crc32.ts`.
-/

namespace Tsgit.Archive

open Objects (FileMode)

structure ArchiveEntry where
  path : Text
  mode : FileMode
  content : Option Bytes
  deriving DecidableEq

/-- `ArchiveResult`, the stream of its entries as the list of what it yields. -/
structure ArchiveResult where
  commit : Option { oid : Text // IsObjectId oid }
  commitTime : Option ℤ
  entries : List ArchiveEntry

/-! ### The checksum -/

/-- One round of the inner loop of `buildCrc32Table`. -/
def crc32Round (c : BitVec 32) : BitVec 32 :=
  if c &&& 1#32 ≠ 0#32 then 0xedb88320#32 ^^^ (c >>> 1) else c >>> 1

def crc32Table : List (BitVec 32) :=
  (List.range 256).map fun i => crc32Round^[8] (BitVec.ofNat 32 i)

def crc32Step (c : BitVec 32) (byte : UInt8) : BitVec 32 :=
  let index := (c ^^^ BitVec.ofNat 32 byte.toNat) &&& 0xff#32
  (crc32Table[index.toNat]?).getD 0#32 ^^^ (c >>> 8)

def crc32 (data : Bytes) : ℕ := (data.foldl crc32Step 0xffffffff#32 ^^^ 0xffffffff#32).toNat

theorem crc32_lt (data : Bytes) : crc32 data < 2 ^ 32 := BitVec.isLt _

example : crc32 [0x31, 0x32, 0x33, 0x34, 0x35, 0x36, 0x37, 0x38, 0x39] = 0xcbf43926 := by decide

end Tsgit.Archive
