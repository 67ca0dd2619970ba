import Tsgit.Archive
import Tsgit.ByteReader
import Tsgit.CommitRoundTrip

/-!
# Zip Archives

The zip writer of `src/domain/archive/zip.ts`, and a reader that starts from the record at the end
of the central directory.

The writer never refuses: its fields are cut to 16 and to 32 bits without a check.
-/

namespace Tsgit.Archive

open List

open Objects (FileMode)
open ByteReader (littleEndian Reads Gives)

/-- The host's deflater and the inflater of a reader, which undoes it. -/
structure ZipDeps where
  deflateRaw : Bytes → Option ℤ → Bytes
  inflateRaw : Bytes → Option Bytes
  inflate_deflate : ∀ data level, inflateRaw (deflateRaw data level) = some data

structure ZipOptions where
  prefixed : Option Text
  mtime : Option ℤ
  tzOffsetMinutes : Option ℤ
  level : Option ℤ

/-! ### Fields -/

def sigLocal : Bytes := [0x50, 0x4b, 0x03, 0x04]
def sigCentral : Bytes := [0x50, 0x4b, 0x01, 0x02]
def sigEocd : Bytes := [0x50, 0x4b, 0x05, 0x06]

def versionNeeded : ℕ := 10
def flags : ℕ := 0x0000
def methodStore : ℕ := 0
def methodDeflate : ℕ := 8
def versionMadeByMsdos : ℕ := 0x0000
def versionMadeByUnix : ℕ := 0x0317
def externalAttrRegular : ℕ := 0x00000000
def externalAttrExec : ℕ := 0x81ed0000
def externalAttrSymlink : ℕ := 0xa1ff0000
def externalAttrDir : ℕ := 0x00000010
def internalAttrText : ℕ := 0x0001
def internalAttrBinary : ℕ := 0x0000
def utExtraId : ℕ := 0x5455
def utExtraDataSize : ℕ := 5
def utExtraFlagModTime : UInt8 := 0x01

/-- `writeU16LE`: the low 16 bits. -/
def writeU16LE (val : ℕ) : Bytes :=
  [UInt8.ofNat (val &&& 0xff), UInt8.ofNat ((val >>> 8) &&& 0xff)]

/-- `writeU32LE`: the low 32 bits. -/
def writeU32LE (val : ℕ) : Bytes :=
  [UInt8.ofNat (val &&& 0xff), UInt8.ofNat ((val >>> 8) &&& 0xff),
    UInt8.ofNat ((val >>> 16) &&& 0xff), UInt8.ofNat ((val >>> 24) &&& 0xff)]

/-- A whole number as the bit operators take it. -/
def toUint32 (val : ℤ) : ℕ := (val % 2 ^ 32).toNat

/-! ### Times -/

structure DosTime where
  time : ℕ
  date : ℕ
  deriving DecidableEq

/-- The year, the month and the day of `getUTCFullYear`, `getUTCMonth` and `getUTCDate`, by the
days since 1970. Years are counted from March here, in eras of 400. -/
def civilOfDays (days : ℤ) : ℤ × ℕ × ℕ :=
  let shifted := days + 719468
  let era := shifted / 146097
  let dayOfEra := (shifted % 146097).toNat
  let yearOfEra := (dayOfEra - dayOfEra / 1460 + dayOfEra / 36524 - dayOfEra / 146096) / 365
  let dayOfYear := dayOfEra - (365 * yearOfEra + yearOfEra / 4 - yearOfEra / 100)
  let monthFromMarch := (5 * dayOfYear + 2) / 153
  let day := dayOfYear - (153 * monthFromMarch + 2) / 5 + 1
  let month := if monthFromMarch < 10 then monthFromMarch + 3 else monthFromMarch - 9
  (era * 400 + yearOfEra + (if month ≤ 2 then 1 else 0), month, day)

/-- `epochToDosTime`. A date out of the range of `Date` is no number, which the bit operators take
for 0. -/
def epochToDosTime (mtime tzOffsetMinutes : ℤ) : DosTime :=
  let adjusted := mtime + tzOffsetMinutes * 60
  if (adjusted * 1000).natAbs > 8640000000000000 then ⟨0, 0⟩
  else
    let seconds := (adjusted % 86400).toNat
    let civil := civilOfDays (adjusted / 86400)
    ⟨(seconds / 3600) <<< 11 ||| (seconds / 60 % 60) <<< 5 ||| seconds % 60 / 2,
      toUint32 ((civil.1 - 1980) * 2 ^ 9) ||| civil.2.1 <<< 5 ||| civil.2.2⟩

def buildUtExtra (mtime : ℤ) : Bytes :=
  writeU16LE utExtraId ++
    (writeU16LE utExtraDataSize ++ (utExtraFlagModTime :: writeU32LE (toUint32 mtime)))

/-! ### Headers -/

def encodeName (name : Text) : Bytes := encode name

def buildLocalHeader (name : Bytes) (method : ℕ) (dosTime : DosTime) (crc csize usize : ℕ)
    (utExtra : Bytes) : Bytes :=
  sigLocal ++ (writeU16LE versionNeeded ++ (writeU16LE flags ++ (writeU16LE method ++
    (writeU16LE dosTime.time ++ (writeU16LE dosTime.date ++ (writeU32LE crc ++
      (writeU32LE csize ++ (writeU32LE usize ++ (writeU16LE name.length ++
        (writeU16LE utExtra.length ++ (name ++ utExtra)))))))))))

structure CdRecord where
  name : Bytes
  method : ℕ
  dosTime : DosTime
  crc : ℕ
  csize : ℕ
  usize : ℕ
  internalAttr : ℕ
  externalAttr : ℕ
  versionMadeBy : ℕ
  localOffset : ℕ
  utExtra : Bytes
  deriving DecidableEq

def buildCentralEntry (record : CdRecord) : Bytes :=
  sigCentral ++ (writeU16LE record.versionMadeBy ++ (writeU16LE versionNeeded ++
    (writeU16LE flags ++ (writeU16LE record.method ++ (writeU16LE record.dosTime.time ++
      (writeU16LE record.dosTime.date ++ (writeU32LE record.crc ++ (writeU32LE record.csize ++
        (writeU32LE record.usize ++ (writeU16LE record.name.length ++
          (writeU16LE record.utExtra.length ++ (writeU16LE 0 ++ (writeU16LE 0 ++
            (writeU16LE record.internalAttr ++ (writeU32LE record.externalAttr ++
              (writeU32LE record.localOffset ++ (record.name ++ record.utExtra)))))))))))))))))

def buildEocd (entryCount cdSize cdOffset : ℕ) (comment : Text) : Bytes :=
  let commentBytes := encode comment
  sigEocd ++ (writeU16LE 0 ++ (writeU16LE 0 ++ (writeU16LE entryCount ++
    (writeU16LE entryCount ++ (writeU32LE cdSize ++ (writeU32LE cdOffset ++
      (writeU16LE commentBytes.length ++ commentBytes)))))))

/-! ### Entries -/

structure EntryAttrs where
  versionMadeBy : ℕ
  internalAttr : ℕ
  externalAttr : ℕ
  deriving DecidableEq

def isText (content : Bytes) : Bool := content.all (· ≠ 0)

def textAttr (content : Option Bytes) : ℕ :=
  if content.any isText then internalAttrText else internalAttrBinary

def regularAttrs (content : Option Bytes) : EntryAttrs :=
  ⟨versionMadeByMsdos, textAttr content, externalAttrRegular⟩

def execAttrs (content : Option Bytes) : EntryAttrs :=
  ⟨versionMadeByUnix, textAttr content, externalAttrExec⟩

def symlinkAttrs : EntryAttrs := ⟨versionMadeByUnix, internalAttrText, externalAttrSymlink⟩

def dirAttrs : EntryAttrs := ⟨versionMadeByMsdos, internalAttrBinary, externalAttrDir⟩

def entryAttrs (entry : ArchiveEntry) : EntryAttrs :=
  match entry.mode with
  | .regular => regularAttrs entry.content
  | .executable => execAttrs entry.content
  | .symlink => symlinkAttrs
  | .directory => dirAttrs
  | .gitlink => dirAttrs

def entryIsDir (mode : FileMode) : Bool := mode = .directory || mode = .gitlink

def isCompressibleBlob (mode : FileMode) : Bool := mode = .regular || mode = .executable

structure EntryContent where
  method : ℕ
  compressed : Bytes
  contentCrc : ℕ
  usize : ℕ
  deriving DecidableEq

def compressEntry (entry : ArchiveEntry) (deps : ZipDeps) (level : Option ℤ) : EntryContent :=
  if entryIsDir entry.mode then ⟨methodStore, [], 0, 0⟩
  else
    let content := entry.content.getD []
    let contentCrc := crc32 content
    let usize := content.length
    if isCompressibleBlob entry.mode = false then ⟨methodStore, content, contentCrc, usize⟩
    else
      let deflated := deps.deflateRaw content level
      if deflated.length < content.length then ⟨methodDeflate, deflated, contentCrc, usize⟩
      else ⟨methodStore, content, contentCrc, usize⟩

def buildEntryName (entryPath prefixed : Text) (mode : FileMode) : Text :=
  prefixed ++ (entryPath ++ (if entryIsDir mode then ['/'] else []))

/-! ### The archive -/

def buildLocalEntry (record : CdRecord) : Bytes × CdRecord :=
  (buildLocalHeader record.name record.method record.dosTime record.crc record.csize record.usize
    record.utExtra, record)

/-- What the writer has yielded, and what it keeps for the directory. -/
structure ZipState where
  yielded : List Bytes
  records : List CdRecord
  localOffset : ℕ

def ZipState.addHeader (state : ZipState) (record : CdRecord) : ZipState :=
  let built := buildLocalEntry record
  ⟨state.yielded ++ [built.1], state.records ++ [built.2], state.localOffset + built.1.length⟩

def ZipState.addPrefix (state : ZipState) (prefixed : Text) (dosTime : DosTime)
    (utExtra : Bytes) : ZipState :=
  if prefixed ≠ [] then
    state.addHeader ⟨encodeName prefixed, methodStore, dosTime, 0, 0, 0, internalAttrBinary,
      externalAttrDir, versionMadeByMsdos, state.localOffset, utExtra⟩
  else state

/-- One round of the loop over the entries. -/
def ZipState.addEntry (deps : ZipDeps) (prefixed : Text) (level : Option ℤ) (dosTime : DosTime)
    (utExtra : Bytes) (state : ZipState) (entry : ArchiveEntry) : ZipState :=
  let nameBytes := encodeName (buildEntryName entry.path prefixed entry.mode)
  let attrs := entryAttrs entry
  let built := compressEntry entry deps level
  let csize := built.compressed.length
  let state := state.addHeader ⟨nameBytes, built.method, dosTime, built.contentCrc, csize,
    built.usize, attrs.internalAttr, attrs.externalAttr, attrs.versionMadeBy, state.localOffset,
    utExtra⟩
  if csize > 0 then
    { state with
      yielded := state.yielded ++ [built.compressed]
      localOffset := state.localOffset + csize }
  else state

/-- What is yielded, in order. -/
def zipArchive (result : ArchiveResult) (deps : ZipDeps) (opts : ZipOptions) : List Bytes :=
  let prefixed := opts.prefixed.getD []
  let mtime := (opts.mtime.or result.commitTime).getD 0
  let dosTime := epochToDosTime mtime (opts.tzOffsetMinutes.getD 0)
  let utExtra := buildUtExtra mtime
  let state := (ZipState.mk [] [] 0).addPrefix prefixed dosTime utExtra
  let state := result.entries.foldl
    (ZipState.addEntry deps prefixed opts.level dosTime utExtra) state
  let central := state.records.map buildCentralEntry
  let cdSize := (central.map length).sum
  let comment := (result.commit.map Subtype.val).getD []
  state.yielded ++ (central ++
    [buildEocd state.records.length cdSize state.localOffset comment])

/-! ### The bytes of an archive -/

/-- What one entry, or the one for the prefix, puts into an archive. -/
structure Member where
  name : Bytes
  method : ℕ
  crc : ℕ
  usize : ℕ
  internalAttr : ℕ
  externalAttr : ℕ
  versionMadeBy : ℕ
  data : Bytes
  content : Bytes
  deriving DecidableEq

/-- The content of an entry; directories and links to other repositories have none. -/
def contentOf (entry : ArchiveEntry) : Bytes :=
  if entryIsDir entry.mode then [] else entry.content.getD []

def prefixMember (prefixed : Text) : Member :=
  ⟨encode prefixed, methodStore, 0, 0, internalAttrBinary, externalAttrDir, versionMadeByMsdos,
    [], []⟩

def memberOf (deps : ZipDeps) (prefixed : Text) (level : Option ℤ) (entry : ArchiveEntry) :
    Member :=
  let built := compressEntry entry deps level
  let attrs := entryAttrs entry
  ⟨encode (buildEntryName entry.path prefixed entry.mode), built.method, built.contentCrc,
    built.usize, attrs.internalAttr, attrs.externalAttr, attrs.versionMadeBy, built.compressed,
    contentOf entry⟩

def membersOf (result : ArchiveResult) (deps : ZipDeps) (opts : ZipOptions) : List Member :=
  let prefixed := opts.prefixed.getD []
  (if prefixed = [] then [] else [prefixMember prefixed]) ++
    result.entries.map (memberOf deps prefixed opts.level)

section

variable (dosTime : DosTime) (utExtra : Bytes)

def Member.localBytes (m : Member) : Bytes :=
  buildLocalHeader m.name m.method dosTime m.crc m.data.length m.usize utExtra ++ m.data

def Member.record (m : Member) (localOffset : ℕ) : CdRecord :=
  ⟨m.name, m.method, dosTime, m.crc, m.data.length, m.usize, m.internalAttr, m.externalAttr,
    m.versionMadeBy, localOffset, utExtra⟩

def localBytes (members : List Member) : Bytes :=
  members.flatMap (Member.localBytes dosTime utExtra)

def recordsFrom : ℕ → List Member → List CdRecord
  | _, [] => []
  | localOffset, m :: members => m.record dosTime utExtra localOffset ::
      recordsFrom (localOffset + (m.localBytes dosTime utExtra).length) members

variable {dosTime utExtra}

theorem length_buildLocalHeader (name : Bytes) (method crc csize usize : ℕ) :
    (buildLocalHeader name method dosTime crc csize usize utExtra).length =
      30 + name.length + utExtra.length := by
  simp only [buildLocalHeader, sigLocal, writeU16LE, writeU32LE, length_append,
    length_cons, length_nil]
  omega

theorem length_buildCentralEntry (record : CdRecord) :
    (buildCentralEntry record).length = 46 + record.name.length + record.utExtra.length := by
  simp only [buildCentralEntry, sigCentral, writeU16LE, writeU32LE, length_append,
    length_cons, length_nil]
  omega

theorem Member.length_localBytes (m : Member) : (m.localBytes dosTime utExtra).length =
    30 + m.name.length + utExtra.length + m.data.length := by
  rw [Member.localBytes, length_append, length_buildLocalHeader]

theorem localBytes_append (members more : List Member) :
    localBytes dosTime utExtra (members ++ more) =
      localBytes dosTime utExtra members ++ localBytes dosTime utExtra more :=
  flatMap_append

theorem recordsFrom_append (localOffset : ℕ) (members more : List Member) :
    recordsFrom dosTime utExtra localOffset (members ++ more) =
      recordsFrom dosTime utExtra localOffset members ++
        recordsFrom dosTime utExtra (localOffset + (localBytes dosTime utExtra members).length)
          more := by
  induction members generalizing localOffset with
  | nil => rfl
  | cons m members ih =>
    have hlength : (localBytes dosTime utExtra (m :: members)).length =
        (m.localBytes dosTime utExtra).length + (localBytes dosTime utExtra members).length := by
      rw [localBytes, flatMap_cons, length_append]
      rfl
    rw [cons_append, recordsFrom, ih, recordsFrom, hlength, cons_append, Nat.add_assoc]

theorem length_recordsFrom (localOffset : ℕ) (members : List Member) :
    (recordsFrom dosTime utExtra localOffset members).length = members.length := by
  induction members generalizing localOffset with
  | nil => rfl
  | cons m members ih => rw [recordsFrom, length_cons, ih, length_cons]

/-- **The state of the loop**: what is yielded, recorded and counted is that of the members. -/
structure Lays (dosTime : DosTime) (utExtra : Bytes) (state : ZipState) (members : List Member) :
    Prop where
  yielded : state.yielded.flatten = localBytes dosTime utExtra members
  records : state.records = recordsFrom dosTime utExtra 0 members
  localOffset : state.localOffset = (localBytes dosTime utExtra members).length

theorem Lays.addHeader {state : ZipState} {members : List Member}
    (h : Lays dosTime utExtra state members) {m : Member} (hdata : m.data = []) :
    Lays dosTime utExtra (state.addHeader (m.record dosTime utExtra state.localOffset))
      (members ++ [m]) := by
  have hone : localBytes dosTime utExtra [m] =
      buildLocalHeader m.name m.method dosTime m.crc m.data.length m.usize utExtra := by
    rw [localBytes, flatMap_singleton, Member.localBytes, hdata, append_nil]
  refine ⟨?_, ?_, ?_⟩
  · rw [localBytes_append, hone, ← h.yielded]
    exact flatten_concat
  · rw [recordsFrom_append, ← h.records, Nat.zero_add, ← h.localOffset]
    rfl
  · rw [localBytes_append, hone, length_append, ← h.localOffset]
    rfl

theorem Lays.addEntry {state : ZipState} {members : List Member}
    (h : Lays dosTime utExtra state members) (deps : ZipDeps) (prefixed : Text)
    (level : Option ℤ) (entry : ArchiveEntry) :
    Lays dosTime utExtra (state.addEntry deps prefixed level dosTime utExtra entry)
      (members ++ [memberOf deps prefixed level entry]) := by
  obtain ⟨m, hm⟩ : ∃ m, m = memberOf deps prefixed level entry := ⟨_, rfl⟩
  have hdata : (compressEntry entry deps level).compressed = m.data := by
    rw [hm]
    rfl
  have hone : localBytes dosTime utExtra [m] =
      buildLocalHeader m.name m.method dosTime m.crc m.data.length m.usize utExtra ++ m.data :=
    flatMap_singleton _ _
  have hrecord : (⟨encodeName (buildEntryName entry.path prefixed entry.mode),
      (compressEntry entry deps level).method, dosTime,
      (compressEntry entry deps level).contentCrc,
      (compressEntry entry deps level).compressed.length,
      (compressEntry entry deps level).usize, (entryAttrs entry).internalAttr,
      (entryAttrs entry).externalAttr, (entryAttrs entry).versionMadeBy, state.localOffset,
      utExtra⟩ : CdRecord) = m.record dosTime utExtra state.localOffset := by
    rw [hm]
    rfl
  rw [← hm]
  unfold ZipState.addEntry
  dsimp only
  rw [hrecord, hdata]
  by_cases hsome : m.data.length > 0
  · rw [if_pos hsome]
    refine ⟨?_, ?_, ?_⟩
    · rw [localBytes_append, hone, ← h.yielded, ← append_assoc]
      exact flatten_concat.trans (congrArg (· ++ m.data) flatten_concat)
    · rw [recordsFrom_append, ← h.records, Nat.zero_add, ← h.localOffset]
      rfl
    · rw [localBytes_append, hone, length_append, length_append, ← h.localOffset, ← Nat.add_assoc]
      rfl
  · rw [if_neg hsome]
    exact h.addHeader (length_eq_zero_iff.mp (by omega))

theorem Lays.foldl {state : ZipState} {members : List Member}
    (h : Lays dosTime utExtra state members) (deps : ZipDeps) (prefixed : Text)
    (level : Option ℤ) (entries : List ArchiveEntry) :
    Lays dosTime utExtra
      (entries.foldl (ZipState.addEntry deps prefixed level dosTime utExtra) state)
      (members ++ entries.map (memberOf deps prefixed level)) := by
  induction entries generalizing state members with
  | nil =>
    rw [map_nil, append_nil]
    exact h
  | cons entry entries ih =>
    have hnext := ih (h.addEntry deps prefixed level entry)
    rw [append_assoc] at hnext
    exact hnext

theorem lays_addPrefix (prefixed : Text) :
    Lays dosTime utExtra ((ZipState.mk [] [] 0).addPrefix prefixed dosTime utExtra)
      (if prefixed = [] then [] else [prefixMember prefixed]) := by
  have hempty : Lays dosTime utExtra ⟨[], [], 0⟩ [] := ⟨rfl, rfl, rfl⟩
  unfold ZipState.addPrefix
  by_cases hprefix : prefixed = []
  · rw [if_neg (not_not_intro hprefix), if_pos hprefix]
    exact hempty
  · have hfirst := @Lays.addHeader dosTime utExtra _ _ hempty (prefixMember prefixed) rfl
    rw [if_pos hprefix, if_neg hprefix]
    exact hfirst

end

def mtimeOf (result : ArchiveResult) (opts : ZipOptions) : ℤ :=
  (opts.mtime.or result.commitTime).getD 0

def dosTimeOf (result : ArchiveResult) (opts : ZipOptions) : DosTime :=
  epochToDosTime (mtimeOf result opts) (opts.tzOffsetMinutes.getD 0)

def utExtraOf (result : ArchiveResult) (opts : ZipOptions) : Bytes :=
  buildUtExtra (mtimeOf result opts)

def commentOf (result : ArchiveResult) : Text := (result.commit.map Subtype.val).getD []

/-- The bytes of the local headers and of what follows them. -/
def localPart (result : ArchiveResult) (deps : ZipDeps) (opts : ZipOptions) : Bytes :=
  localBytes (dosTimeOf result opts) (utExtraOf result opts) (membersOf result deps opts)

def centralRecords (result : ArchiveResult) (deps : ZipDeps) (opts : ZipOptions) :
    List CdRecord :=
  recordsFrom (dosTimeOf result opts) (utExtraOf result opts) 0 (membersOf result deps opts)

def centralPart (result : ArchiveResult) (deps : ZipDeps) (opts : ZipOptions) : Bytes :=
  (centralRecords result deps opts).flatMap buildCentralEntry

/-- **The bytes of an archive**: the members, the directory, the end record. -/
theorem zipArchive_eq (result : ArchiveResult) (deps : ZipDeps) (opts : ZipOptions) :
    (zipArchive result deps opts).flatten =
      localPart result deps opts ++ (centralPart result deps opts ++
        buildEocd (membersOf result deps opts).length (centralPart result deps opts).length
          (localPart result deps opts).length (commentOf result)) := by
  have hlays := @Lays.foldl (dosTimeOf result opts) (utExtraOf result opts) _ _
    (lays_addPrefix (opts.prefixed.getD [])) deps (opts.prefixed.getD []) opts.level
      result.entries
  have hcentral : ((centralRecords result deps opts).map buildCentralEntry).flatten =
      centralPart result deps opts := flatMap_def.symm
  have hsize : (((centralRecords result deps opts).map buildCentralEntry).map
      length).sum = (centralPart result deps opts).length := by
    rw [← hcentral, length_flatten]
  have hcount : (centralRecords result deps opts).length = (membersOf result deps opts).length :=
    length_recordsFrom _ _
  have hyielded := hlays.yielded
  have hrecords := hlays.records
  have hoffset := hlays.localOffset
  unfold zipArchive
  dsimp only
  rw [flatten_append, flatten_append, flatten_singleton]
  have hall : ∀ {a a' b b' c c' : Bytes}, a = a' → b = b' → c = c' →
      a ++ (b ++ c) = a' ++ (b' ++ c') := by
    intro a a' b b' c c' ha hb hc
    rw [ha, hb, hc]
  refine hall hyielded ?_ ?_
  · rw [← hcentral]
    exact congrArg (fun records => (records.map buildCentralEntry).flatten) hrecords
  · rw [← hsize, ← hcount]
    exact congrArg₂ (fun records offset => buildEocd (length records)
      ((records.map buildCentralEntry).map length).sum offset (commentOf result))
      hrecords hoffset

end Tsgit.Archive
