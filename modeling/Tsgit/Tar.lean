import Tsgit.Archive
import Tsgit.CommitRoundTrip

/-!
# Tar Archives

The tar writer of `src/domain/archive/tar.ts`: a header of 512 bytes for each entry, its content
padded to whole blocks, and blocks of zeros at the end.
-/

namespace Tsgit.Archive

open List

open Objects (FileMode)

/-! ### Fields -/

structure TarOptions where
  prefixed : Option Text
  mtime : Option ℤ
  umask : Option ℕ
  uname : Option Text
  gname : Option Text

def tarBlockSize : ℕ := 512
def recordSize : ℕ := 10240
def slashByte : UInt8 := 0x2f
def tarMagic : Bytes := [0x75, 0x73, 0x74, 0x61, 0x72, 0x00]
def tarVersion : Bytes := [0x30, 0x30]
def typeflagRegular : UInt8 := 0x30
def typeflagSymlink : UInt8 := 0x32
def typeflagDir : UInt8 := 0x35
def typeflagPaxGlobal : UInt8 := 0x67
def modeRegularBase : ℕ := 0o666
def modeMaskedBase : ℕ := 0o777
def modeSymlink : ℕ := 0o777
def defaultUmask : ℕ := 0o002
def defaultUname : Text := ['r', 'o', 'o', 't']
def defaultGname : Text := ['r', 'o', 'o', 't']
def paxGlobalName : Text :=
  ['p', 'a', 'x', '_', 'g', 'l', 'o', 'b', 'a', 'l', '_', 'h', 'e', 'a', 'd', 'e', 'r']
def paxCommentKey : Text := ['c', 'o', 'm', 'm', 'e', 'n', 't']
def paxMode : ℕ := 0o666
def nameMax : ℕ := 100
def prefixMax : ℕ := 155
def pathMaxUstar : ℕ := nameMax + 1 + prefixMax
def lenLinkname : ℕ := 100

def maxOctalValue (len : ℕ) : ℤ := 8 ^ (len - 1) - 1

def octalText (val : ℤ) : Text :=
  if val < 0 then '-' :: Nat.toDigits 8 val.natAbs else Nat.toDigits 8 val.natAbs

def padStart (text : Text) (len : ℕ) : Text := replicate (len - text.length) '0' ++ text

def byteOf (c : Char) : UInt8 := UInt8.ofNat c.toNat

def writeOctal (len : ℕ) (val : ℤ) : Except Thrown Bytes :=
  if val > maxOctalValue len then
    .error (.plain (s!"Value {val} exceeds the {len - 1}-digit octal field capacity " ++
      s!"(max {maxOctalValue len})"))
  else .ok (((padStart (octalText val) (len - 1)).take (len - 1)).map byteOf ++ [0])

/-- A field of zeros with some bytes in front, as `writeBytes` leaves it. -/
def writeBytes (len : ℕ) (bytes : Bytes) : Bytes :=
  bytes.take len ++ replicate (len - bytes.length) 0

def writeAscii (len : ℕ) (str : Text) : Bytes :=
  writeBytes len ((codeUnits str).map UInt8.ofNat)

/-! ### Headers -/

structure HeaderParams where
  nameBytes : Bytes
  mode : ℕ
  size : ℕ
  mtime : ℤ
  typeflag : UInt8
  linknameBytes : Bytes
  uname : Text
  gname : Text
  prefixBytes : Bytes

def computeChecksum (header : Bytes) : ℕ :=
  (header.zipIdx.map fun place =>
    if 148 ≤ place.2 ∧ place.2 < 156 then 0x20 else place.1.toNat).sum

def writeChecksum (header : Bytes) : Bytes :=
  let str := padStart (Nat.toDigits 8 (computeChecksum header)) 7
  overwrite header ((str.take 7).map byteOf ++ [0]) 148

/-- The first 257 bytes, the checksum still zero. -/
def writeFixedFields (p : HeaderParams) : Except Thrown Bytes := do
  let mode ← writeOctal 8 p.mode
  let uid ← writeOctal 8 0
  let gid ← writeOctal 8 0
  let size ← writeOctal 12 p.size
  let mtime ← writeOctal 12 p.mtime
  pure (writeBytes 100 p.nameBytes ++ (mode ++ (uid ++ (gid ++ (size ++ (mtime ++
    (replicate 8 0 ++ (p.typeflag :: writeBytes 100 p.linknameBytes))))))))

def writeUstarFields (p : HeaderParams) : Except Thrown Bytes := do
  let devmajor ← writeOctal 8 0
  let devminor ← writeOctal 8 0
  pure (tarMagic ++ (tarVersion ++ (writeAscii 32 p.uname ++ (writeAscii 32 p.gname ++
    (devmajor ++ (devminor ++ (writeBytes 155 p.prefixBytes ++ replicate 12 0)))))))

def buildHeader (p : HeaderParams) : Except Thrown Bytes := do
  let fixed ← writeFixedFields p
  let ustar ← writeUstarFields p
  pure (writeChecksum (fixed ++ ustar))

/-- The loop of `splitPath`, down from a place: the last slash that leaves a name that fits. -/
def splitBelow (pathBytes : Bytes) : ℕ → Option ℕ
  | 0 => none
  | i + 1 =>
    let nameLen := pathBytes.length - (i + 1) - 1
    if pathBytes[i + 1]? = some slashByte ∧ 1 ≤ nameLen ∧ nameLen ≤ nameMax then some (i + 1)
    else splitBelow pathBytes i

def splitPath (filePath : Text) : Except Thrown (Bytes × Bytes) :=
  let pathBytes := encode filePath
  if pathBytes.length ≤ nameMax then .ok (pathBytes, [])
  else if pathBytes.length > pathMaxUstar then
    .error (.plain (s!"Path too long for ustar archive (>{pathMaxUstar} bytes): " ++
      String.ofList filePath))
  else
    match splitBelow pathBytes (min (pathBytes.length - 1) prefixMax) with
    | none =>
      .error (.plain ("Cannot split path into ustar prefix+name: " ++ String.ofList filePath))
    | some i => .ok (pathBytes.drop (i + 1), pathBytes.take i)

/-! ### Entries -/

def maskMode (base umask : ℕ) : ℕ := (BitVec.ofNat 32 base &&& ~~~ BitVec.ofNat 32 umask).toNat

def tarMode (mode : FileMode) (umask : ℕ) : ℕ :=
  match mode with
  | .regular => maskMode modeRegularBase umask
  | .executable => maskMode modeMaskedBase umask
  | .directory => maskMode modeMaskedBase umask
  | .gitlink => maskMode modeMaskedBase umask
  | .symlink => modeSymlink

def modeTypeflag : FileMode → UInt8
  | .regular => typeflagRegular
  | .executable => typeflagRegular
  | .symlink => typeflagSymlink
  | .directory => typeflagDir
  | .gitlink => typeflagDir

def hasDataBlock (mode : FileMode) : Bool := mode = .regular || mode = .executable

def needsTrailingSlash (mode : FileMode) : Bool := mode = .directory || mode = .gitlink

def paddingNeeded (byteLen : ℕ) : ℕ :=
  let rem := byteLen % tarBlockSize
  if rem = 0 then 0 else tarBlockSize - rem

def paxCommentPayload (oid : Text) : Text := paxCommentKey ++ '=' :: (oid ++ ['\n'])

/-- The loop of `paxRecordSize`, at most so many times. -/
def paxRecordSizeFrom (payload : Text) : ℕ → ℕ → Option ℕ
  | 0, _ => none
  | fuel + 1, size =>
    let candidate := payload.length + (Nat.toDigits 10 size).length + 1
    if candidate = size then some candidate else paxRecordSizeFrom payload fuel candidate

def paxRecordSize (payload : Text) : Option ℕ := paxRecordSizeFrom payload 3 (payload.length + 1)

/-- What all headers of an archive share. -/
structure TarStamp where
  mtime : ℤ
  umask : ℕ
  uname : Text
  gname : Text

def buildPaxHeader (oid : Text) (stamp : TarStamp) : Except Thrown Bytes := do
  let (nameBytes, prefixBytes) ← splitPath paxGlobalName
  buildHeader ⟨nameBytes, paxMode, (paxRecordSize (paxCommentPayload oid)).getD 0, stamp.mtime,
    typeflagPaxGlobal, [], stamp.uname, stamp.gname, prefixBytes⟩

/-- The record itself. -/
def paxRecord (oid : Text) : Text :=
  Nat.toDigits 10 ((paxRecordSize (paxCommentPayload oid)).getD 0) ++
    ' ' :: paxCommentPayload oid

def buildPaxData (oid : Text) : Bytes :=
  writeBytes tarBlockSize ((paxRecord oid).map byteOf)

def buildEntryHeader (entry : ArchiveEntry) (fullPath : Text) (stamp : TarStamp) :
    Except Thrown Bytes := do
  let (nameBytes, prefixBytes) ← splitPath fullPath
  let linknameBytes := if entry.mode = .symlink then entry.content.getD [] else []
  if linknameBytes.length > lenLinkname then
    .error (.plain (s!"Symlink target too long for ustar archive (>{lenLinkname} bytes): " ++
      String.ofList fullPath))
  else
    let size := if hasDataBlock entry.mode then (entry.content.getD []).length else 0
    buildHeader ⟨nameBytes, tarMode entry.mode stamp.umask, size, stamp.mtime,
      modeTypeflag entry.mode, linknameBytes, stamp.uname, stamp.gname, prefixBytes⟩

def buildPrefixDirHeader (prefixed : Text) (stamp : TarStamp) : Except Thrown Bytes := do
  let (nameBytes, prefixBytes) ← splitPath prefixed
  buildHeader ⟨nameBytes, maskMode modeMaskedBase stamp.umask, 0, stamp.mtime, typeflagDir, [],
    stamp.uname, stamp.gname, prefixBytes⟩

def buildEntryPath (entryPath prefixed : Text) (mode : FileMode) : Text :=
  prefixed ++ (entryPath ++ (if needsTrailingSlash mode then ['/'] else []))

/-! ### The archive -/

structure TarState where
  yielded : List Bytes
  byteCount : ℕ

def TarState.yield (state : TarState) (chunk : Bytes) (count : ℕ) : TarState :=
  ⟨state.yielded ++ [chunk], state.byteCount + count⟩

def TarState.addPax (state : TarState) (commit : Option Text) (stamp : TarStamp) :
    Except Thrown TarState :=
  match commit with
  | none => .ok state
  | some oid => do
    let header ← buildPaxHeader oid stamp
    pure ((state.yield header tarBlockSize).yield (buildPaxData oid) tarBlockSize)

def TarState.addPrefix (state : TarState) (prefixed : Text) (stamp : TarStamp) :
    Except Thrown TarState :=
  if prefixed ≠ [] then do
    let header ← buildPrefixDirHeader prefixed stamp
    pure (state.yield header tarBlockSize)
  else .ok state

/-- One round of the loop over the entries. -/
def TarState.addEntry (prefixed : Text) (stamp : TarStamp) (state : TarState)
    (entry : ArchiveEntry) : Except Thrown TarState := do
  let fullPath := buildEntryPath entry.path prefixed entry.mode
  let header ← buildEntryHeader entry fullPath stamp
  let state := state.yield header tarBlockSize
  let content := entry.content.getD []
  if hasDataBlock entry.mode ∧ content.length > 0 then
    let state := state.yield content content.length
    let pad := paddingNeeded content.length
    if pad > 0 then pure (state.yield (replicate pad 0) pad) else pure state
  else pure state

def stampOf (result : ArchiveResult) (opts : TarOptions) : TarStamp :=
  ⟨(opts.mtime.or result.commitTime).getD 0, opts.umask.getD defaultUmask,
    opts.uname.getD defaultUname, opts.gname.getD defaultGname⟩

/-- What is yielded, in order. -/
def tarArchive (result : ArchiveResult) (opts : TarOptions) : Except Thrown (List Bytes) := do
  let prefixed := opts.prefixed.getD []
  let stamp := stampOf result opts
  let state ← (TarState.mk [] 0).addPax (result.commit.map Subtype.val) stamp
  let state ← state.addPrefix prefixed stamp
  let state ← result.entries.foldlM (TarState.addEntry prefixed stamp) state
  let state := state.yield (replicate (tarBlockSize * 2) 0) (tarBlockSize * 2)
  let remainder := state.byteCount % recordSize
  if remainder ≠ 0 then pure (state.yielded ++ [replicate (recordSize - remainder) 0])
  else pure state.yielded

/-! ### What the fields hold -/

section

variable {len n : ℕ} {bytes : Bytes}

def octalField (len n : ℕ) : Bytes := (padStart (Nat.toDigits 8 n) (len - 1)).map byteOf ++ [0]

theorem length_padStart (hlen : 1 < len) (h : n < 8 ^ (len - 1)) :
    (padStart (Nat.toDigits 8 n) (len - 1)).length = len - 1 := by
  have hdigits := (Nat.length_toDigits_le_iff (show 1 < 8 by decide)
    (show 0 < len - 1 by omega)).mpr h
  rw [padStart, length_append, length_replicate]
  omega

theorem length_octalField (hlen : 1 < len) (h : n < 8 ^ (len - 1)) :
    (octalField len n).length = len := by
  rw [octalField, length_append, length_map, length_padStart hlen h, length_singleton]
  omega

theorem writeOctal_iff (hlen : 1 < len) :
    writeOctal len n = .ok (octalField len n) ∧ n < 8 ^ (len - 1) ∨
      (∃ thrown, writeOctal len n = .error thrown) ∧ 8 ^ (len - 1) ≤ n := by
  have hmax : (n : ℤ) > maxOctalValue len ↔ 8 ^ (len - 1) ≤ n := by
    have hcast : ((8 ^ (len - 1) : ℕ) : ℤ) = 8 ^ (len - 1) := by norm_cast
    rw [maxOctalValue, ← hcast]
    omega
  rw [writeOctal]
  by_cases hroom : n < 8 ^ (len - 1)
  · refine Or.inl ⟨?_, hroom⟩
    have htext : octalText (n : ℤ) = Nat.toDigits 8 n := by
      rw [octalText, if_neg (by omega), Int.natAbs_natCast]
    rw [if_neg (fun h => absurd (hmax.mp h) (by omega)), htext, octalField,
      take_of_length_le (length_padStart hlen hroom).le]
  · exact Or.inr ⟨⟨_, if_pos (hmax.mpr (by omega))⟩, by omega⟩

theorem writeOctal_zero (hlen : 1 < len) : writeOctal len 0 = .ok (octalField len 0) := by
  rcases @writeOctal_iff len 0 hlen with ⟨h, -⟩ | ⟨-, h⟩
  · exact h
  · exact absurd h (Nat.not_le.mpr (Nat.pow_pos (by decide)))

theorem length_writeBytes (h : bytes.length ≤ len) : (writeBytes len bytes).length = len := by
  rw [writeBytes, length_append, length_take, length_replicate]
  omega

theorem length_writeAscii (len : ℕ) (str : Text) : (writeAscii len str).length = len := by
  rw [writeAscii, writeBytes, length_append, length_take, length_replicate]
  omega

end

/-! ### What a header holds -/

section

variable {p : HeaderParams} {field : Bytes}

/-- What stands in front of the checksum, and behind it. -/
def headerFront (p : HeaderParams) : Bytes :=
  writeBytes 100 p.nameBytes ++ (octalField 8 p.mode ++ (octalField 8 0 ++ (octalField 8 0 ++
    (octalField 12 p.size ++ octalField 12 p.mtime.toNat))))

def headerBack (p : HeaderParams) : Bytes :=
  p.typeflag :: (writeBytes 100 p.linknameBytes ++ (tarMagic ++ (tarVersion ++
    (writeAscii 32 p.uname ++ (writeAscii 32 p.gname ++ (octalField 8 0 ++ (octalField 8 0 ++
      (writeBytes 155 p.prefixBytes ++ replicate 12 0))))))))

/-- The values of a header that have room in their fields. -/
structure HeaderParams.Fits (p : HeaderParams) : Prop where
  name : p.nameBytes.length ≤ 100
  mode : p.mode < 8 ^ 7
  size : p.size < 8 ^ 11
  mtime : p.mtime.toNat < 8 ^ 11
  linkname : p.linknameBytes.length ≤ 100
  before : p.prefixBytes.length ≤ 155

theorem length_headerFront (h : p.Fits) : (headerFront p).length = 148 := by
  have hzero : (0 : ℕ) < 8 ^ 7 := by decide
  simp only [headerFront, length_append, length_writeBytes h.name,
    length_octalField (show 1 < 8 by decide) h.mode,
    length_octalField (show 1 < 8 by decide) hzero,
    length_octalField (show 1 < 12 by decide) h.size,
    length_octalField (show 1 < 12 by decide) h.mtime]

theorem length_headerBack (h : p.Fits) : (headerBack p).length = 356 := by
  have hzero : (0 : ℕ) < 8 ^ 7 := by decide
  simp only [headerBack, tarMagic, tarVersion, length_cons, length_nil,
    length_append, length_replicate, length_writeBytes h.linkname,
    length_writeBytes h.before, length_writeAscii,
    length_octalField (show 1 < 8 by decide) hzero]

theorem sum_zipIdx (bytes : Bytes) (k : ℕ) (h : k + bytes.length ≤ 148 ∨ 156 ≤ k) :
    ((bytes.zipIdx k).map fun place =>
      if 148 ≤ place.2 ∧ place.2 < 156 then 0x20 else place.1.toNat).sum =
        (bytes.map UInt8.toNat).sum := by
  induction bytes generalizing k with
  | nil => rfl
  | cons byte bytes ih =>
    rw [length_cons] at h
    rw [zipIdx_cons, map_cons, sum_cons, map_cons, sum_cons, ih (k + 1) (by omega)]
    dsimp only
    rw [if_neg (by omega)]

theorem sum_zipIdx_field (bytes : Bytes) (k : ℕ) (hlower : 148 ≤ k)
    (hupper : k + bytes.length ≤ 156) : ((bytes.zipIdx k).map fun place =>
      if 148 ≤ place.2 ∧ place.2 < 156 then 0x20 else place.1.toNat).sum =
        bytes.length * 0x20 := by
  induction bytes generalizing k with
  | nil => rfl
  | cons byte bytes ih =>
    rw [length_cons] at hupper
    rw [zipIdx_cons, map_cons, sum_cons, ih (k + 1) (by omega) (by omega), length_cons]
    dsimp only
    rw [if_pos (by omega)]
    omega

/-- **The checksum** does not depend on its own field. -/
theorem computeChecksum_eq {front back : Bytes} (hfront : front.length = 148)
    (hfield : field.length = 8) : computeChecksum (front ++ (field ++ back)) =
      (front.map UInt8.toNat).sum + (8 * 0x20 + (back.map UInt8.toNat).sum) := by
  have hmiddle := sum_zipIdx_field field 148 (Nat.le_refl _) (by rw [hfield])
  rw [computeChecksum, zipIdx_append, zipIdx_append, map_append, map_append,
    sum_append, sum_append, Nat.zero_add, hfront, hmiddle, hfield,
    sum_zipIdx front 0 (by omega), sum_zipIdx back _ (by omega)]

theorem sum_toNat_le (bytes : Bytes) : (bytes.map UInt8.toNat).sum ≤ 255 * bytes.length := by
  induction bytes with
  | nil => exact Nat.le_refl _
  | cons byte bytes ih =>
    have hbyte := byte.toNat_lt
    rw [map_cons, sum_cons, length_cons]
    omega

def checksumOf (p : HeaderParams) : ℕ :=
  ((headerFront p).map UInt8.toNat).sum + (8 * 0x20 + ((headerBack p).map UInt8.toNat).sum)

theorem checksumOf_lt (h : p.Fits) : checksumOf p < 8 ^ 7 := by
  have hfront := sum_toNat_le (headerFront p)
  have hback := sum_toNat_le (headerBack p)
  rw [length_headerFront h] at hfront
  rw [length_headerBack h] at hback
  unfold checksumOf
  omega

def headerBytes (p : HeaderParams) : Bytes :=
  headerFront p ++ (octalField 8 (checksumOf p) ++ headerBack p)

theorem length_headerBytes (h : p.Fits) : (headerBytes p).length = 512 := by
  rw [headerBytes, length_append, length_append, length_headerFront h,
    length_headerBack h, length_octalField (show 1 < 8 by decide) (checksumOf_lt h)]

theorem writeChecksum_eq (h : p.Fits) :
    writeChecksum (headerFront p ++ (replicate 8 0 ++ headerBack p)) = headerBytes p := by
  have hsum : computeChecksum (headerFront p ++ (replicate 8 0 ++ headerBack p)) =
      checksumOf p := computeChecksum_eq (length_headerFront h) length_replicate
  have hlength := length_padStart (show 1 < 8 by decide) (checksumOf_lt h)
  have hfield : ((padStart (Nat.toDigits 8 (checksumOf p)) 7).take 7).map byteOf ++ [0] =
      octalField 8 (checksumOf p) := by
    rw [take_of_length_le hlength.le]
    rfl
  have hwidth := length_octalField (show 1 < 8 by decide) (checksumOf_lt h)
  have hdrop : (headerFront p ++ (replicate 8 0 ++ headerBack p)).drop (148 + 8) =
      headerBack p := by
    have hall : 148 + 8 = (headerFront p ++ replicate 8 (0 : UInt8)).length := by
      rw [length_append, length_headerFront h, length_replicate]
    rw [← append_assoc, hall, drop_left]
  unfold writeChecksum
  dsimp only
  rw [hsum, hfield, overwrite, hwidth, hdrop, take_append_of_le_length
    (length_headerFront h).ge, take_of_length_le (length_headerFront h).le,
    append_assoc, headerBytes]

/-- **A header** whose sizes and modes are small is built if its numbers have room, and refused
elsewhere. -/
theorem buildHeader_iff (hname : p.nameBytes.length ≤ 100) (hmode : p.mode < 8 ^ 7)
    (hmtime : 0 ≤ p.mtime) (hlinkname : p.linknameBytes.length ≤ 100)
    (hbefore : p.prefixBytes.length ≤ 155) :
    buildHeader p = .ok (headerBytes p) ∧ p.Fits ∨ (∃ thrown, buildHeader p = .error thrown) ∧
        (8 ^ 11 ≤ p.size ∨ 8 ^ 11 ≤ p.mtime.toNat) := by
  have hzero := writeOctal_zero (show 1 < 8 by decide)
  have hmodeOk : writeOctal 8 p.mode = .ok (octalField 8 p.mode) := by
    rcases @writeOctal_iff 8 p.mode (by decide) with ⟨h, -⟩ | ⟨-, h⟩
    · exact h
    · exact absurd hmode (Nat.not_lt.mpr h)
  have hcast : ((p.mtime.toNat : ℕ) : ℤ) = p.mtime := Int.toNat_of_nonneg hmtime
  rw [buildHeader, writeFixedFields, ok_bind_eq hmodeOk, ok_bind_eq hzero, ok_bind_eq hzero]
  rcases @writeOctal_iff 12 p.size (by decide) with ⟨hsize, hroom⟩ | ⟨⟨thrown, hsize⟩, hlarge⟩
  · rcases @writeOctal_iff 12 p.mtime.toNat (by decide) with
      ⟨htime, hroom'⟩ | ⟨⟨thrown, htime⟩, hlarge⟩
    · have hfits : p.Fits := ⟨hname, hmode, hroom, hroom', hlinkname, hbefore⟩
      rw [hcast] at htime
      rw [ok_bind_eq hsize, ok_bind_eq htime, pure_bind, writeUstarFields, ok_bind_eq hzero,
        ok_bind_eq hzero, pure_bind]
      refine Or.inl ⟨?_, hfits⟩
      rw [← writeChecksum_eq hfits]
      simp only [headerFront, headerBack, append_assoc, cons_append]
      rfl
    · rw [hcast] at htime
      rw [ok_bind_eq hsize, htime]
      exact Or.inr ⟨⟨thrown, rfl⟩, Or.inr hlarge⟩
  · rw [hsize]
    exact Or.inr ⟨⟨thrown, rfl⟩, Or.inl hlarge⟩

end

/-! ### How a path is divided -/

section

variable {pathBytes : Bytes}

def IsSplit (pathBytes before name : Bytes) : Prop :=
  pathBytes = before ++ slashByte :: name ∧ 1 ≤ before.length ∧ before.length ≤ 155 ∧
    1 ≤ name.length ∧ name.length ≤ 100

/-- A path that one field holds, or two. -/
def Splittable (pathBytes : Bytes) : Prop :=
  pathBytes.length ≤ 100 ∨ ∃ before name, IsSplit pathBytes before name

theorem splitBelow_some {stop i : ℕ} (h : splitBelow pathBytes stop = some i) :
    0 < i ∧ i ≤ stop ∧ pathBytes[i]? = some slashByte ∧ 1 ≤ pathBytes.length - i - 1 ∧
      pathBytes.length - i - 1 ≤ 100 := by
  induction stop with
  | zero => cases h
  | succ stop ih =>
    rw [splitBelow] at h
    split_ifs at h with hhere
    · cases h
      exact ⟨Nat.succ_pos _, Nat.le_refl _, hhere.1, hhere.2⟩
    · obtain ⟨hpos, hle, hrest⟩ := ih h
      exact ⟨hpos, by omega, hrest⟩

theorem splitBelow_none {stop : ℕ} (h : splitBelow pathBytes stop = none) {i : ℕ} (hpos : 0 < i)
    (hle : i ≤ stop) : ¬ (pathBytes[i]? = some slashByte ∧ 1 ≤ pathBytes.length - i - 1 ∧
      pathBytes.length - i - 1 ≤ 100) := by
  induction stop with
  | zero => omega
  | succ stop ih =>
    rw [splitBelow] at h
    split_ifs at h with hhere
    rcases Nat.lt_or_ge i (stop + 1) with hlt | hge
    · exact ih h (by omega)
    · obtain rfl : i = stop + 1 := by omega
      exact hhere

/-- What a reader makes of the two fields of a path. -/
def joinFields (before name : Bytes) : Bytes :=
  if before = [] then name else before ++ slashByte :: name

/-- **A path** is divided if one field holds it, or two; its fields are joined again. -/
theorem splitPath_iff (filePath : Text) :
    (∃ name before, splitPath filePath = .ok (name, before) ∧ Splittable (encode filePath) ∧
      joinFields before name = encode filePath ∧ name.length ≤ 100 ∧ before.length ≤ 155 ∧
        name ++ before ⊆ encode filePath) ∨
      (∃ thrown, splitPath filePath = .error thrown) ∧ ¬ Splittable (encode filePath) := by
  obtain ⟨pathBytes, hbytes⟩ : ∃ pathBytes, pathBytes = encode filePath := ⟨_, rfl⟩
  rw [splitPath, ← hbytes]
  have hmax : pathMaxUstar = 256 := rfl
  have hname : nameMax = 100 := rfl
  have hprefix : prefixMax = 155 := rfl
  by_cases hshort : pathBytes.length ≤ 100
  · rw [hname, if_pos hshort]
    refine Or.inl ⟨pathBytes, [], rfl, Or.inl hshort, rfl, hshort, Nat.zero_le _, ?_⟩
    rw [append_nil]
    exact fun _ hmem => hmem
  rw [hname, if_neg hshort]
  by_cases hlong : pathBytes.length > pathMaxUstar
  · rw [if_pos hlong]
    refine Or.inr ⟨⟨_, rfl⟩, ?_⟩
    rintro (h | ⟨before, name, rfl, -, hbefore, -, hlength⟩)
    · exact hshort h
    · rw [length_append, length_cons] at hlong
      omega
  · rw [if_neg hlong, hprefix]
    cases hsplit : splitBelow pathBytes (min (pathBytes.length - 1) 155) with
    | some i =>
      obtain ⟨hpos, hle, hslash, hlower, hupper⟩ := splitBelow_some hsplit
      have hshape : pathBytes = pathBytes.take i ++ slashByte :: pathBytes.drop (i + 1) := by
        rw [← drop_eq_cons hslash, take_append_drop]
      have htake : (pathBytes.take i).length = i := by
        rw [length_take]
        omega
      have hdrop : (pathBytes.drop (i + 1)).length = pathBytes.length - i - 1 := by
        rw [length_drop]
        omega
      have hne : pathBytes.take i ≠ [] := fun hnil => by
        rw [hnil] at htake
        exact absurd htake (by rw [length_nil]; omega)
      refine Or.inl ⟨_, _, rfl, Or.inr ⟨_, _, hshape, by omega, by omega, by omega, by omega⟩,
        ?_, by omega, by omega, ?_⟩
      · rw [joinFields, if_neg hne]
        exact hshape.symm
      · intro byte hmem
        rcases mem_append.mp hmem with hmem | hmem
        · exact mem_of_mem_drop hmem
        · exact mem_of_mem_take hmem
    | none =>
      refine Or.inr ⟨⟨_, rfl⟩, ?_⟩
      rintro (h | ⟨before, name, rfl, hpos, hbefore, hlower, hupper⟩)
      · exact hshort h
      have hlength : (before ++ slashByte :: name).length =
          before.length + (name.length + 1) := by
        rw [length_append, length_cons]
      refine splitBelow_none hsplit hpos (by omega) ⟨?_, by omega, by omega⟩
      rw [getElem?_append_right (Nat.le_refl _), Nat.sub_self]
      rfl

end

end Tsgit.Archive
