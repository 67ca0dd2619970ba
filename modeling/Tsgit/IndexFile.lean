import Tsgit.DataView
import Tsgit.IndexOrder
import Tsgit.VerifyPath

/-!
# The Index File

The parser and the writer of the index (`src/domain/git-index/index-parser.ts` and
`src/domain/git-index/index-writer.ts`), with the check of its paths
(`src/domain/git-index/path-validator.ts`). The trailer is the hash of all of
it, which the caller appends.
-/

namespace Tsgit.IndexFile

open Objects Tsgit.Path

def dircSignature : ℕ := 0x44495243
def indexHeaderSize : ℕ := 12
def statFieldsSize : ℕ := 40
def flagsWordSize : ℕ := 2

def entryHeaderSize (digestLength : ℕ) : ℕ := statFieldsSize + digestLength + flagsWordSize

def flagsOffset (digestLength : ℕ) : ℕ := statFieldsSize + digestLength

structure IndexEntryFlags where
  assumeValid : Bool
  stage : ℕ
  skipWorktree : Bool
  intentToAdd : Bool
  deriving DecidableEq

structure IndexEntry extends IndexPath where
  ctimeSeconds : ℕ
  ctimeNanoseconds : ℕ
  mtimeSeconds : ℕ
  mtimeNanoseconds : ℕ
  dev : ℕ
  ino : ℕ
  mode : FileMode
  uid : ℕ
  gid : ℕ
  fileSize : ℕ
  id : Text
  flags : IndexEntryFlags
  deriving DecidableEq

structure IndexExtension where
  signature : Text
  data : Bytes
  deriving DecidableEq

structure GitIndex where
  version : ℕ
  entries : List IndexEntry
  extensions : List IndexExtension
  trailerSha : Bytes
  deriving DecidableEq

def invalidIndexHeader {α : Type} (reason : String) : Except Thrown α :=
  .error (.refusal (.invalidIndexHeader reason))

def invalidIndexEntry {α : Type} (offset : ℕ) (reason : String) : Except Thrown α :=
  .error (.refusal (.invalidIndexEntry offset reason))

/-- `n & ~7`, a signed number of 32 bits. -/
def clearLowBits (n : ℕ) : ℤ :=
  let word : ℕ := n % 2 ^ 32 / 8 * 8
  if word < 2 ^ 31 then word else (word : ℤ) - 2 ^ 32

/-! ### The check of a path -/

def verifyPathReason : VerifyPathRejection → String
  | .absolutePath => "absolute path rejected"
  | .emptySegment => "empty segment rejected"
  | .dotSegment => "'.' segment rejected"
  | .dotdotSegment => "'..' segment rejected"
  | .dotgitAlias => "'.git' component rejected"
  | .dotgitNtfsAlias => "'git~1' NTFS short name rejected"
  | .dotgitNtfsStream => "'.git' NTFS alternate data stream rejected"
  | .dotgitHfsAlias => "'.git' HFS+ ignorable-codepoint alias rejected"
  | .gitmodulesNotRegular => "'.gitmodules' must not be a symlink"
  | .backslash => "backslash rejected under Windows path syntax"

def unsafeReason (path : Text) : Option String :=
  if Char.ofNat 0 ∈ path then some "NUL byte rejected" else none

def rejectionOf (path : Text) (mode : FileMode) (pathBytes : Option Bytes) : Option String :=
  match unsafeReason path with
  | some reason => some reason
  | none => (verifyPath path mode pathBytes).map verifyPathReason

def validateIndexPath (path : Text) (offset : ℕ) (mode : FileMode) (pathBytes : Option Bytes) :
    Except Thrown Unit :=
  match rejectionOf path mode pathBytes with
  | some reason => invalidIndexEntry offset reason
  | none => .ok ()

/-! ### The parser -/

def findNul (bytes : Bytes) (fromIndex : ℕ) : Option ℕ := indexOf bytes 0 fromIndex

def lossyPathBytes (path : Text) (rawPath : Bytes) : Option Bytes :=
  if decodesLosslessly path rawPath then none else some rawPath

def parseFlags (raw extRaw : ℕ) : IndexEntryFlags where
  assumeValid := raw &&& 0x8000 ≠ 0
  stage := raw >>> 12 &&& 0x3
  skipWorktree := extRaw &&& 0x4000 ≠ 0
  intentToAdd := extRaw &&& 0x2000 ≠ 0

/-- The second word of flags, 0 where there is none. -/
def readExtendedFlags (bytes : Bytes) (offset : ℕ) (extended : Bool) : Except Thrown ℕ :=
  if extended then getUint16 bytes offset else .ok 0

def decodeEntryFlags (bytes : Bytes) (offset version digestLength : ℕ) :
    Except Thrown (IndexEntryFlags × ℕ) := do
  let headerSize := entryHeaderSize digestLength
  let flagsRaw ← getUint16 bytes (offset + flagsOffset digestLength)
  let extended := decide (flagsRaw &&& 0x4000 ≠ 0)
  if extended ∧ version ≠ 3 then invalidIndexEntry offset "extended flag requires index v3"
  else
    let extendedSize := if extended then 2 else 0
    if offset + headerSize + extendedSize > bytes.length - digestLength then
      invalidIndexEntry offset "truncated extended flags"
    else
      let extRaw ← readExtendedFlags bytes (offset + headerSize) extended
      pure (parseFlags flagsRaw extRaw, extendedSize)

def octalText (rawMode : ℕ) : Text := Nat.toDigits 8 rawMode

def filePathFrom (path : Text) : Except Thrown Text :=
  if path = [] then .error (.plain "FilePath must not be empty") else .ok path

/-- An offset, which a sum of signed numbers may put in front of the buffer. -/
def offsetFrom (offset : ℤ) : Except Thrown ℕ :=
  if offset < 0 then .error .rangeError else .ok offset.toNat

def parsePath (bytes : Bytes) (entryStart start nameLength : ℕ) (mode : FileMode) :
    Except Thrown (IndexPath × ℕ) :=
  match findNul bytes start with
  | none => invalidIndexEntry entryStart "missing NUL terminator"
  | some nulEnd => do
    let pathEnd := if nameLength = 0xfff then nulEnd else start + nameLength
    let rawPath := subarray bytes start pathEnd
    let path := decodePreservingBom rawPath
    let pathBytes := lossyPathBytes path rawPath
    validateIndexPath path entryStart mode pathBytes
    let path ← filePathFrom path
    pure (⟨path, pathBytes⟩, nulEnd)

/-- One turn of the loop of `parseIndex`, at the offset that it has come to. -/
def parseEntry (bytes : Bytes) (version digestLength : ℕ) (state : ℕ × List IndexEntry) :
    Except Thrown (ℕ × List IndexEntry) := do
  let (offset, entries) := state
  let headerSize := entryHeaderSize digestLength
  if offset + headerSize > bytes.length - digestLength then
    invalidIndexEntry offset "truncated entry"
  else
    let ctimeSeconds ← getUint32 bytes offset
    let ctimeNanoseconds ← getUint32 bytes (offset + 4)
    let mtimeSeconds ← getUint32 bytes (offset + 8)
    let mtimeNanoseconds ← getUint32 bytes (offset + 12)
    let dev ← getUint32 bytes (offset + 16)
    let ino ← getUint32 bytes (offset + 20)
    let rawMode ← getUint32 bytes (offset + 24)
    let uid ← getUint32 bytes (offset + 28)
    let gid ← getUint32 bytes (offset + 32)
    let fileSize ← getUint32 bytes (offset + 36)
    let id := bytesToHex (subarray bytes (offset + 40) (offset + 40 + digestLength))
    let flagsRaw ← getUint16 bytes (offset + flagsOffset digestLength)
    let (flags, extendedSize) ← decodeEntryFlags bytes offset version digestLength
    let mode ← (normalizeFileMode (octalText rawMode)).mapError .refusal
    let (path, nulEnd) ← parsePath bytes offset (offset + headerSize + extendedSize)
      (flagsRaw &&& 0xfff) mode
    let entryLength := nulEnd + 1 - offset
    let next ← offsetFrom (offset + clearLowBits (entryLength + 7))
    pure (next, entries ++ [⟨path, ctimeSeconds, ctimeNanoseconds, mtimeSeconds,
      mtimeNanoseconds, dev, ino, mode, uid, gid, fileSize, id, flags⟩])

/-- The loop of `parseExtensions`, for as many turns as there are bytes left. -/
def extensionsFrom (bytes : Bytes) (extensionEnd : ℕ) :
    ℕ → ℕ → List IndexExtension → Except Thrown (List IndexExtension)
  | room + 1, offset, extensions =>
    if offset + 8 ≤ extensionEnd then do
      let signature := decode (subarray bytes offset (offset + 4))
      let size ← getUint32 bytes (offset + 4)
      if offset + 8 + size > extensionEnd then
        invalidIndexEntry offset "extension size exceeds remaining bytes"
      else if (signature.head?.any fun c => 97 ≤ c.toNat ∧ c.toNat ≤ 122) then
        let safe := signature.map fun c => if 0x20 ≤ c.toNat ∧ c.toNat ≤ 0x7e then c else '?'
        invalidIndexEntry offset s!"mandatory extension '{String.ofList safe}' not supported"
      else
        let data := subarray bytes (offset + 8) (offset + 8 + size)
        extensionsFrom bytes extensionEnd room (offset + 8 + size)
          (extensions ++ [⟨signature, data⟩])
    else .ok extensions
  | 0, _, extensions => .ok extensions

def parseExtensions (bytes : Bytes) (offset trailerSize : ℕ) :
    Except Thrown (List IndexExtension) :=
  let extensionEnd := bytes.length - trailerSize
  extensionsFrom bytes extensionEnd (extensionEnd - offset) offset []

def parseIndex (bytes : Bytes) (digestLength : ℕ) : Except Thrown GitIndex :=
  if bytes.length < indexHeaderSize then invalidIndexHeader "truncated header"
  else do
    let signature ← getUint32 bytes 0
    if signature ≠ dircSignature then invalidIndexHeader "invalid signature: expected DIRC"
    else
      let version ← getUint32 bytes 4
      if version ≠ 2 ∧ version ≠ 3 then invalidIndexHeader s!"unsupported version: {version}"
      else
        let trailerSize := digestLength
        let headerSize := entryHeaderSize digestLength
        let entryCount ← getUint32 bytes 8
        let maxEntryBytes : ℤ := bytes.length - indexHeaderSize - trailerSize
        if ((entryCount * headerSize : ℕ) : ℤ) > maxEntryBytes then
          invalidIndexHeader s!"entry count {entryCount} exceeds file capacity"
        else
          let (offset, entries) ← forRange entryCount
            (fun _ => parseEntry bytes version digestLength) (indexHeaderSize, [])
          let extensions ← parseExtensions bytes offset trailerSize
          let trailerSha := subarray bytes (bytes.length - trailerSize) bytes.length
          pure ⟨version, entries, extensions, trailerSha⟩

/-! ### The writer -/

def IndexEntryFlags.extended (flags : IndexEntryFlags) : Bool :=
  flags.skipWorktree || flags.intentToAdd

/-- The order of the file: the comparator is chosen for the paths of the list. -/
def sortEntries (entries : List IndexEntry) : List IndexEntry :=
  let comparator := pathComparatorFor (entries.map (·.toIndexPath))
  entries.mergeSort fun a b => comparator a.toIndexPath b.toIndexPath ≤ 0

structure EntryMeta where
  entry : IndexEntry
  pathBytes : Bytes
  extended : Bool
  paddedLength : ℤ

/-- The length of an entry without its padding. -/
def entryLength (digestLength : ℕ) (entry : IndexEntry) : ℕ :=
  entryHeaderSize digestLength + (if entry.flags.extended then 2 else 0) +
    (pathBytesOf entry.toIndexPath).length

def metaOf (digestLength : ℕ) (entry : IndexEntry) : EntryMeta where
  entry := entry
  pathBytes := pathBytesOf entry.toIndexPath
  extended := entry.flags.extended
  paddedLength := clearLowBits (entryLength digestLength entry + 8)

def octalValue (mode : Text) : ℕ :=
  mode.foldl (fun value digit => value * 8 + (digit.toNat - '0'.toNat)) 0

def flagsRaw (flags : IndexEntryFlags) (extended : Bool) (nameLength : ℕ) : ℕ :=
  (if flags.assumeValid then 0x8000 else 0) ||| (if extended then 0x4000 else 0) |||
    flags.stage <<< 12 ||| nameLength

def extRaw (flags : IndexEntryFlags) : ℕ :=
  (if flags.skipWorktree then 0x4000 else 0) ||| (if flags.intentToAdd then 0x2000 else 0)

def writeStatFields (buf : Bytes) (offset : ℕ) (entry : IndexEntry) : Except Thrown Bytes := do
  let buf ← setUint32 buf offset entry.ctimeSeconds
  let buf ← setUint32 buf (offset + 4) entry.ctimeNanoseconds
  let buf ← setUint32 buf (offset + 8) entry.mtimeSeconds
  let buf ← setUint32 buf (offset + 12) entry.mtimeNanoseconds
  let buf ← setUint32 buf (offset + 16) entry.dev
  let buf ← setUint32 buf (offset + 20) entry.ino
  let buf ← setUint32 buf (offset + 24) (octalValue entry.mode.text)
  let buf ← setUint32 buf (offset + 28) entry.uid
  let buf ← setUint32 buf (offset + 32) entry.gid
  setUint32 buf (offset + 36) entry.fileSize

def writeExtendedFlags (buf : Bytes) (offset : ℕ) (flags : IndexEntryFlags) (extended : Bool) :
    Except Thrown Bytes :=
  if extended then setUint16 buf offset (extRaw flags) else .ok buf

def writeEntry (buf : Bytes) (offset : ℕ) (entry : IndexEntry) (pathBytes : Bytes)
    (extended : Bool) (digestLength : ℕ) : Except Thrown Bytes := do
  let buf ← writeStatFields buf offset entry
  let shaBytes ← hexToBytes entry.id
  let buf ← setBytes buf shaBytes (offset + 40)
  let nameLength := min pathBytes.length 0xfff
  let buf ← setUint16 buf (offset + flagsOffset digestLength)
    (flagsRaw entry.flags extended nameLength)
  let headerSize := entryHeaderSize digestLength
  let buf ← writeExtendedFlags buf (offset + headerSize) entry.flags extended
  setBytes buf pathBytes (offset + headerSize + if extended then 2 else 0)

/-- The loop over the entries, from an offset on, and where it comes to. -/
def writeEntries (digestLength : ℕ) : List EntryMeta → ℤ → Bytes → Except Thrown (ℤ × Bytes)
  | [], offset, buf => .ok (offset, buf)
  | info :: rest, offset, buf => do
    let start ← offsetFrom offset
    let buf ← writeEntry buf start info.entry info.pathBytes info.extended digestLength
    writeEntries digestLength rest (offset + info.paddedLength) buf

/-- The loop over the extensions. -/
def writeExtensions : List IndexExtension → ℤ → Bytes → Except Thrown Bytes
  | [], _, buf => .ok buf
  | ext :: rest, offset, buf => do
    let start ← offsetFrom offset
    let buf ← setBytes buf (encode ext.signature) start
    let buf ← setUint32 buf (start + 4) ext.data.length
    let buf ← setBytes buf ext.data (start + 8)
    writeExtensions rest (offset + (8 + ext.data.length : ℕ)) buf

/-- The version is the lowest that has the flags of the entries; that of the index is not looked
at. -/
def serializeIndex (index : GitIndex) (digestLength : ℕ) : Except Thrown Bytes := do
  let sortedEntries := sortEntries index.entries
  let entryMetas := sortedEntries.map (metaOf digestLength)
  let totalSize : ℤ := 12 + (entryMetas.map (·.paddedLength)).sum +
    ((index.extensions.map fun ext => 8 + ext.data.length).sum : ℕ)
  let length ← offsetFrom totalSize
  let result := List.replicate length 0
  let version := if entryMetas.any (·.extended) then 3 else 2
  let result ← setUint32 result 0 dircSignature
  let result ← setUint32 result 4 version
  let result ← setUint32 result 8 sortedEntries.length
  let (offset, result) ← writeEntries digestLength entryMetas 12 result
  writeExtensions index.extensions offset result

end Tsgit.IndexFile
