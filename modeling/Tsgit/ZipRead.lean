import Mathlib.Algebra.Order.BigOperators.Group.List
import Tsgit.Zip

/-!
# Reading Zip Archives

A reader of zip archives that starts from the end record, and what it makes of the archives that
`Tsgit.Zip` writes.
-/

namespace Tsgit.Archive

open List

open ByteReader (word take expect replicate littleEndian Reads Gives reads_word_of_lt reads_take
  reads_expect reads_pure gives_any gives_word gives_take gives_pure)

/-! ### The reader -/

/-- What a local header and a record of the directory both say, and where the header is. -/
structure ZipRecord where
  name : Bytes
  method : ℕ
  crc : ℕ
  csize : ℕ
  usize : ℕ
  localOffset : ℕ
  deriving DecidableEq

/-- A record of the directory. -/
def readCentralEntry : ByteReader ZipRecord := do
  expect sigCentral
  let _versionMadeBy ← word 2
  let _versionNeeded ← word 2
  let _flags ← word 2
  let method ← word 2
  let _time ← word 2
  let _date ← word 2
  let crc ← word 4
  let csize ← word 4
  let usize ← word 4
  let nameLength ← word 2
  let extraLength ← word 2
  let commentLength ← word 2
  let _disk ← word 2
  let _internalAttr ← word 2
  let _externalAttr ← word 4
  let localOffset ← word 4
  let name ← take nameLength
  let _extra ← take extraLength
  let _comment ← take commentLength
  pure ⟨name, method, crc, csize, usize, localOffset⟩

def readLocalEntry (localOffset : ℕ) : ByteReader (ZipRecord × Bytes) := do
  expect sigLocal
  let _versionNeeded ← word 2
  let _flags ← word 2
  let method ← word 2
  let _time ← word 2
  let _date ← word 2
  let crc ← word 4
  let csize ← word 4
  let usize ← word 4
  let nameLength ← word 2
  let extraLength ← word 2
  let name ← take nameLength
  let _extra ← take extraLength
  let data ← take csize
  pure (⟨name, method, crc, csize, usize, localOffset⟩, data)

structure EndRecord where
  count : ℕ
  cdSize : ℕ
  cdOffset : ℕ
  deriving DecidableEq

def readEocd : ByteReader EndRecord := do
  expect sigEocd
  let _disk ← word 2
  let _startDisk ← word 2
  let _countOnDisk ← word 2
  let count ← word 2
  let cdSize ← word 4
  let cdOffset ← word 4
  let commentLength ← word 2
  let _comment ← take commentLength
  pure ⟨count, cdSize, cdOffset⟩

/-- An end record stands here, and its comment is the rest of the bytes. -/
def isEocdAt (bytes : Bytes) (i : ℕ) : Bool :=
  sigEocd.isPrefixOf (bytes.drop i) &&
    decide (i + 22 + (byteAt bytes (i + 20) + 256 * byteAt bytes (i + 21)) = bytes.length)

/-- The last end record below a place. -/
def findEocdBelow (bytes : Bytes) : ℕ → Option ℕ
  | 0 => none
  | i + 1 => if isEocdAt bytes i then some i else findEocdBelow bytes i

def findEocd (bytes : Bytes) : Option ℕ := findEocdBelow bytes bytes.length

/-- What is found of a member: its record, the bytes behind its header, and its content. -/
structure ZipEntry where
  record : ZipRecord
  data : Bytes
  content : Bytes
  deriving DecidableEq

def unpack (deps : ZipDeps) (method : ℕ) (data : Bytes) : Option Bytes :=
  if method = methodStore then some data
  else if method = methodDeflate then deps.inflateRaw data
  else none

/-- Follows a record of the directory to its local header, which must say the same. -/
def readEntry (deps : ZipDeps) (bytes : Bytes) (record : ZipRecord) : Option ZipEntry := do
  let read ← readLocalEntry record.localOffset (bytes.drop record.localOffset)
  let content ← unpack deps record.method read.1.2
  if read.1.1 = record ∧ content.length = record.usize ∧ crc32 content = record.crc then
    some ⟨record, read.1.2, content⟩
  else none

def readEntries (deps : ZipDeps) (bytes : Bytes) : List ZipRecord → Option (List ZipEntry)
  | [] => some []
  | record :: records => do
    let entry ← readEntry deps bytes record
    let entries ← readEntries deps bytes records
    some (entry :: entries)

structure ZipContents where
  cdOffset : ℕ
  cdSize : ℕ
  entries : List ZipEntry
  deriving DecidableEq

/-- **The reader**: the end record, the directory that reaches up to it, the members. -/
def readZip (deps : ZipDeps) (bytes : Bytes) : Option ZipContents := do
  let stop ← findEocd bytes
  let last ← readEocd (bytes.drop stop)
  let records ← replicate readCentralEntry last.1.count (bytes.drop last.1.cdOffset)
  let entries ← readEntries deps bytes records.1
  if last.1.cdOffset + last.1.cdSize = stop ∧ records.2 = bytes.drop stop then
    some ⟨last.1.cdOffset, last.1.cdSize, entries⟩
  else none

/-! ### What should be read -/

def Member.entry (m : Member) (localOffset : ℕ) : ZipEntry :=
  ⟨⟨m.name, m.method, m.crc, m.data.length, m.usize, localOffset⟩, m.data, m.content⟩

/-- The bytes that a member takes in front of the directory. -/
def Member.localSize (m : Member) : ℕ := 39 + m.name.length + m.data.length

/-- The members, each at its exact place and with its exact sizes. -/
def entriesFrom : ℕ → List Member → List ZipEntry
  | _, [] => []
  | localOffset, m :: members =>
    m.entry localOffset :: entriesFrom (localOffset + m.localSize) members

def localSize (members : List Member) : ℕ := (members.map Member.localSize).sum

def centralSize (members : List Member) : ℕ := (members.map fun m => 55 + m.name.length).sum

/-- The exact contents. -/
def contentsOf (members : List Member) : ZipContents :=
  ⟨localSize members, centralSize members, entriesFrom 0 members⟩

/-- **Every count, length, size and offset has room** in its field. -/
structure ZipFits (members : List Member) : Prop where
  count : members.length < 2 ^ 16
  names : ∀ m ∈ members, m.name.length < 2 ^ 16
  contents : ∀ m ∈ members, m.content.length < 2 ^ 32
  localSize : localSize members < 2 ^ 32
  centralSize : centralSize members < 2 ^ 32

/-! ### Fields -/

theorem lowByte_eq (val : ℕ) : UInt8.ofNat (val &&& 0xff) = UInt8.ofNat val := by
  have hmod : val &&& 0xff = val % 2 ^ 8 := Nat.and_two_pow_sub_one_eq_mod val 8
  rw [hmod]
  exact UInt8.toNat_inj.mp (Nat.mod_mod val 256)

theorem writeU16LE_eq (val : ℕ) : writeU16LE val = littleEndian 2 val := by
  rw [writeU16LE, lowByte_eq, lowByte_eq, Nat.shiftRight_eq_div_pow]
  rfl

theorem writeU32LE_eq (val : ℕ) : writeU32LE val = littleEndian 4 val := by
  have hsteps : val / 2 ^ 16 = val / 256 / 256 ∧ val / 2 ^ 24 = val / 256 / 256 / 256 := by
    omega
  rw [writeU32LE, lowByte_eq, lowByte_eq, lowByte_eq, lowByte_eq, Nat.shiftRight_eq_div_pow,
    Nat.shiftRight_eq_div_pow, Nat.shiftRight_eq_div_pow, hsteps.1, hsteps.2]
  rfl

theorem reads_u16 {val : ℕ} (h : val < 2 ^ 16) : Reads (word 2) (writeU16LE val) val := by
  rw [writeU16LE_eq]
  exact reads_word_of_lt h

theorem reads_u32 {val : ℕ} (h : val < 2 ^ 32) : Reads (word 4) (writeU32LE val) val := by
  rw [writeU32LE_eq]
  exact reads_word_of_lt h

/-- A field that is passed by. -/
theorem reads_u16_any (val : ℕ) : Reads (word 2) (writeU16LE val) (val % 256 ^ 2) := by
  rw [writeU16LE_eq]
  exact ByteReader.reads_word 2 val

theorem reads_u32_any (val : ℕ) : Reads (word 4) (writeU32LE val) (val % 256 ^ 4) := by
  rw [writeU32LE_eq]
  exact ByteReader.reads_word 4 val

/-! ### Written records are read -/

section

variable {dosTime : DosTime} {utExtra : Bytes} {deps : ZipDeps}

/-- What a member holds that its fields have room for. -/
structure Member.Fits (m : Member) : Prop where
  name : m.name.length < 2 ^ 16
  method : m.method < 2 ^ 16
  crc : m.crc < 2 ^ 32
  csize : m.data.length < 2 ^ 32
  usize : m.usize < 2 ^ 32

theorem reads_centralEntry {m : Member} {localOffset : ℕ} (h : m.Fits)
    (hoffset : localOffset < 2 ^ 32) (hextra : utExtra.length = 9) :
    Reads readCentralEntry (buildCentralEntry (m.record dosTime utExtra localOffset))
      (m.entry localOffset).record := by
  have hend : m.name ++ utExtra = m.name ++ (utExtra ++ []) := by rw [append_nil]
  unfold readCentralEntry buildCentralEntry Member.record
  dsimp only
  rw [hend, hextra]
  refine (reads_expect _).bind ?_
  refine (reads_u16_any _).bind ?_
  refine (reads_u16_any _).bind ?_
  refine (reads_u16_any _).bind ?_
  refine (reads_u16 h.method).bind ?_
  refine (reads_u16_any _).bind ?_
  refine (reads_u16_any _).bind ?_
  refine (reads_u32 h.crc).bind ?_
  refine (reads_u32 h.csize).bind ?_
  refine (reads_u32 h.usize).bind ?_
  refine (reads_u16 h.name).bind ?_
  refine (reads_u16 (show 9 < 2 ^ 16 by decide)).bind ?_
  refine (reads_u16 (show 0 < 2 ^ 16 by decide)).bind ?_
  refine (reads_u16_any _).bind ?_
  refine (reads_u16_any _).bind ?_
  refine (reads_u32_any _).bind ?_
  refine (reads_u32 hoffset).bind ?_
  refine (reads_take _ rfl).bind ?_
  refine (reads_take _ hextra).bind ?_
  exact (reads_take [] rfl).bind_pure

theorem reads_localEntry {m : Member} (localOffset : ℕ) (h : m.Fits) (hextra : utExtra.length = 9) :
    Reads (readLocalEntry localOffset) (m.localBytes dosTime utExtra)
      ((m.entry localOffset).record, m.data) := by
  unfold readLocalEntry Member.localBytes buildLocalHeader
  rw [hextra]
  simp only [append_assoc]
  refine (reads_expect _).bind ?_
  refine (reads_u16_any _).bind ?_
  refine (reads_u16_any _).bind ?_
  refine (reads_u16 h.method).bind ?_
  refine (reads_u16_any _).bind ?_
  refine (reads_u16_any _).bind ?_
  refine (reads_u32 h.crc).bind ?_
  refine (reads_u32 h.csize).bind ?_
  refine (reads_u32 h.usize).bind ?_
  refine (reads_u16 h.name).bind ?_
  refine (reads_u16 (show 9 < 2 ^ 16 by decide)).bind ?_
  refine (reads_take _ rfl).bind ?_
  refine (reads_take _ hextra).bind ?_
  exact (reads_take _ rfl).bind_pure

theorem reads_eocd {count cdSize cdOffset : ℕ} {comment : Text} (hcount : count < 2 ^ 16)
    (hsize : cdSize < 2 ^ 32) (hoffset : cdOffset < 2 ^ 32)
    (hcomment : (encode comment).length < 2 ^ 16) :
    Reads readEocd (buildEocd count cdSize cdOffset comment) ⟨count, cdSize, cdOffset⟩ := by
  unfold readEocd buildEocd
  dsimp only
  refine (reads_expect _).bind ?_
  refine (reads_u16_any _).bind ?_
  refine (reads_u16_any _).bind ?_
  refine (reads_u16_any _).bind ?_
  refine (reads_u16 hcount).bind ?_
  refine (reads_u32 hsize).bind ?_
  refine (reads_u32 hoffset).bind ?_
  refine (reads_u16 hcomment).bind ?_
  exact (reads_take _ rfl).bind_pure

/-- A member that a reader can unpack, and whose sum and size are those of its content. -/
structure Member.Sound (deps : ZipDeps) (m : Member) : Prop where
  unpacked : unpack deps m.method m.data = some m.content
  usize : m.content.length = m.usize
  crc : crc32 m.content = m.crc
  method : m.method < 2 ^ 16

theorem readEntry_eq {m : Member} {before after : Bytes} (h : m.Fits) (hsound : m.Sound deps)
    (hextra : utExtra.length = 9) :
    readEntry deps (before ++ (m.localBytes dosTime utExtra ++ after))
        (m.entry before.length).record = some (m.entry before.length) := by
  unfold readEntry
  have hdrop : (before ++ (m.localBytes dosTime utExtra ++ after)).drop
      (m.entry before.length).record.localOffset = m.localBytes dosTime utExtra ++ after :=
    drop_left
  rw [hdrop, reads_localEntry _ h hextra]
  dsimp only [bind, Option.bind]
  have hunpack : unpack deps (m.entry before.length).record.method m.data = some m.content :=
    hsound.unpacked
  rw [hunpack]
  dsimp only [Option.bind]
  exact if_pos ⟨rfl, hsound.usize, hsound.crc⟩

/-- **The members of a run** are found at their records. -/
theorem readEntries_eq {members : List Member} (before after : Bytes)
    (h : ∀ m ∈ members, m.Fits) (hsound : ∀ m ∈ members, m.Sound deps)
    (hextra : utExtra.length = 9) :
    readEntries deps (before ++ (localBytes dosTime utExtra members ++ after))
      ((entriesFrom before.length members).map ZipEntry.record) =
        some (entriesFrom before.length members) := by
  induction members generalizing before with
  | nil => rfl
  | cons m members ih =>
    obtain ⟨hfirst, hrest⟩ := forall_mem_cons.mp h
    obtain ⟨hsoundFirst, hsoundRest⟩ := forall_mem_cons.mp hsound
    have hshape : before ++ (localBytes dosTime utExtra (m :: members) ++ after) =
        before ++ (m.localBytes dosTime utExtra ++
          (localBytes dosTime utExtra members ++ after)) := by
      rw [localBytes, flatMap_cons, append_assoc]
      rfl
    have hnext := ih (before ++ m.localBytes dosTime utExtra) hrest hsoundRest
    have hlength : (before ++ m.localBytes dosTime utExtra).length =
        before.length + m.localSize := by
      rw [length_append, Member.length_localBytes, hextra, Member.localSize]
      omega
    rw [append_assoc, hlength] at hnext
    rw [hshape, entriesFrom, map_cons, readEntries, readEntry_eq hfirst hsoundFirst hextra, hnext]
    rfl

theorem length_entriesFrom (localOffset : ℕ) (members : List Member) :
    (entriesFrom localOffset members).length = members.length := by
  induction members generalizing localOffset with
  | nil => rfl
  | cons m members ih => rw [entriesFrom, length_cons, ih, length_cons]

theorem length_localBytes (hextra : utExtra.length = 9) (members : List Member) :
    (localBytes dosTime utExtra members).length = localSize members := by
  induction members with
  | nil => rfl
  | cons m members ih =>
    rw [localBytes, flatMap_cons, length_append, Member.length_localBytes, hextra,
      localSize, map_cons, sum_cons, Member.localSize]
    have hrest : (members.flatMap (Member.localBytes dosTime utExtra)).length =
        (members.map Member.localSize).sum := ih
    rw [hrest]
    omega

theorem length_central (hextra : utExtra.length = 9) (localOffset : ℕ) (members : List Member) :
    ((recordsFrom dosTime utExtra localOffset members).flatMap buildCentralEntry).length =
      centralSize members := by
  induction members generalizing localOffset with
  | nil => rfl
  | cons m members ih =>
    rw [recordsFrom, flatMap_cons, length_append, ih, length_buildCentralEntry,
      centralSize, centralSize, map_cons, sum_cons, Member.record]
    dsimp only
    rw [hextra]
    omega

/-- **The directory** is read, record by record. -/
theorem reads_central {members : List Member} (localOffset : ℕ) (h : ∀ m ∈ members, m.Fits)
    (hextra : utExtra.length = 9) (hroom : localOffset + localSize members < 2 ^ 32) :
    Reads (replicate readCentralEntry members.length)
      ((recordsFrom dosTime utExtra localOffset members).flatMap buildCentralEntry)
      ((entriesFrom localOffset members).map ZipEntry.record) := by
  induction members generalizing localOffset with
  | nil => exact reads_pure []
  | cons m members ih =>
    obtain ⟨hfirst, hrest⟩ := forall_mem_cons.mp h
    have hsplit : localSize (m :: members) = m.localSize + localSize members := rfl
    have hlength : localOffset + (m.localBytes dosTime utExtra).length =
        localOffset + m.localSize := by
      rw [Member.length_localBytes, hextra, Member.localSize]
      omega
    have hnext := ih (localOffset + m.localSize) hrest (by omega)
    rw [recordsFrom, hlength, flatMap_cons]
    exact (reads_centralEntry hfirst (by omega) hextra).bind hnext.bind_pure

end

/-! ### The end record -/

section

variable {count cdSize cdOffset : ℕ} {comment : Text} {front : Bytes}

theorem findEocdBelow_eq {bytes : Bytes} {place bound : ℕ} (hlt : place < bound)
    (hhere : isEocdAt bytes place = true)
    (hnone : ∀ i, place < i → i < bound → isEocdAt bytes i = false) :
    findEocdBelow bytes bound = some place := by
  induction bound with
  | zero => exact absurd hlt (Nat.not_lt_zero _)
  | succ bound ih =>
    rw [findEocdBelow]
    rcases Nat.lt_or_ge place bound with hbelow | hle
    · rw [hnone bound hbelow (Nat.lt_succ_self bound), if_neg Bool.false_ne_true]
      exact ih hbelow fun i hi hi' => hnone i hi (Nat.lt_succ_of_lt hi')
    · obtain rfl : place = bound := by omega
      rw [if_pos hhere]

/-- A comment that says nothing, or an id. -/
theorem commentOf_bytes (result : ArchiveResult) : (encode (commentOf result)).length ≤ 64 ∧
    ∀ byte ∈ encode (commentOf result), 0x30 ≤ byte.toNat := by
  unfold commentOf
  cases result.commit with
  | none => exact ⟨Nat.zero_le _, forall_mem_nil _⟩
  | some commit =>
    obtain ⟨oid, hoid⟩ := commit
    have hdigit : ∀ c ∈ oid, c.toNat ≤ 0x7f ∧ 0x30 ≤ c.toNat := by
      intro c hmem
      obtain ⟨value, hvalue⟩ := Option.isSome_iff_exists.mp (hoid.digits c hmem)
      obtain ⟨hlt, rfl⟩ := hexDigit_parseHexDigit hvalue
      have hall : ∀ value < 16, (hexDigit value).toNat ≤ 0x7f ∧
        0x30 ≤ (hexDigit value).toNat := by decide
      exact hall value hlt
    have hbytes := encode_ascii fun c hmem => (hdigit c hmem).1
    dsimp only [Option.map, Option.getD]
    rw [hbytes, length_map]
    refine ⟨?_, fun byte hmem => ?_⟩
    · rcases hoid.length_eq with h | h
      · omega
      · omega
    · obtain ⟨c, hc, rfl⟩ := mem_map.mp hmem
      obtain ⟨hupper, hlower⟩ := hdigit c hc
      have hvalue : (UInt8.ofNat c.toNat).toNat = c.toNat := Nat.mod_eq_of_lt (by omega)
      omega

theorem length_buildEocd : (buildEocd count cdSize cdOffset comment).length =
    22 + (encode comment).length := by
  simp only [buildEocd, sigEocd, writeU16LE, writeU32LE, length_append, length_cons, length_nil]
  omega

theorem findEocd_eq (hlength : (encode comment).length ≤ 64)
    (hbytes : ∀ byte ∈ encode comment, 0x30 ≤ byte.toNat) :
    findEocd (front ++ buildEocd count cdSize cdOffset comment) = some front.length := by
  have hroom : (front ++ buildEocd count cdSize cdOffset comment).length =
      front.length + (22 + (encode comment).length) := by
    rw [length_append, length_buildEocd]
  have hat : ∀ i, byteAt (front ++ buildEocd count cdSize cdOffset comment) (front.length + i) =
      byteAt (buildEocd count cdSize cdOffset comment) i := by
    intro i
    rw [byteAt, byteAt, getElem?_append_right (by omega), Nat.add_sub_cancel_left]
  have hfield : byteAt (buildEocd count cdSize cdOffset comment) 20 +
      256 * byteAt (buildEocd count cdSize cdOffset comment) 21 = (encode comment).length := by
    have hlow : byteAt (buildEocd count cdSize cdOffset comment) 20 =
        (UInt8.ofNat ((encode comment).length &&& 0xff)).toNat := rfl
    have hhigh : byteAt (buildEocd count cdSize cdOffset comment) 21 =
        (UInt8.ofNat (((encode comment).length >>> 8) &&& 0xff)).toNat := rfl
    have hmod : ∀ v : ℕ, (UInt8.ofNat (v &&& 0xff)).toNat = v % 256 := by
      intro v
      have hand : v &&& 0xff = v % 2 ^ 8 := Nat.and_two_pow_sub_one_eq_mod v 8
      rw [hand]
      exact Nat.mod_mod v 256
    rw [hlow, hhigh, hmod, hmod, Nat.shiftRight_eq_div_pow]
    omega
  refine findEocdBelow_eq (by omega) ?_ fun i hlt hbound => ?_
  · unfold isEocdAt
    rw [drop_left, hat 20, hat 21, hroom, Bool.and_eq_true, decide_eq_true_iff]
    exact ⟨rfl, by omega⟩
  unfold isEocdAt
  rw [Bool.and_eq_false_iff, decide_eq_false_iff_not]
  refine Or.inr fun heq => ?_
  obtain ⟨k, rfl⟩ : ∃ k, i = front.length + (k + 1) := ⟨i - front.length - 1, by omega⟩
  have hhigh : byteAt (buildEocd count cdSize cdOffset comment) (k + 1 + 21) =
      byteAt (encode comment) k := by
    have hdrop : (buildEocd count cdSize cdOffset comment).drop 22 = encode comment := rfl
    have hindex : k + 1 + 21 = 22 + k := by omega
    rw [byteAt, byteAt, ← hdrop, getElem?_drop, hindex]
  have hbyte : 0x30 ≤ byteAt (encode comment) k := by
    have hk : k < (encode comment).length := by omega
    rw [byteAt, getElem?_eq_getElem hk, Option.getD_some]
    exact hbytes _ (getElem_mem hk)
  have hplace := hat (k + 1 + 21)
  rw [← Nat.add_assoc] at hplace
  rw [hroom, hplace, hhigh] at heq
  omega

end

/-! ### Written archives are read -/

section

variable {result : ArchiveResult} {deps : ZipDeps} {opts : ZipOptions}

theorem length_utExtraOf (result : ArchiveResult) (opts : ZipOptions) :
    (utExtraOf result opts).length = 9 := rfl

theorem prefixMember_sound (deps : ZipDeps) (prefixed : Text) :
    (prefixMember prefixed).Sound deps := by
  have hcrc : crc32 [] = 0 := by decide
  exact ⟨rfl, rfl, hcrc, show methodStore < 2 ^ 16 by decide⟩

/-- What the writer stores or deflates is unpacked to the content. -/
theorem memberOf_sound (deps : ZipDeps) (prefixed : Text) (level : Option ℤ)
    (entry : ArchiveEntry) : (memberOf deps prefixed level entry).Sound deps := by
  have hstore : ∀ data : Bytes, unpack deps methodStore data = some data := fun _ => rfl
  have hdeflate : ∀ data : Bytes, unpack deps methodDeflate data = deps.inflateRaw data :=
    fun _ => rfl
  suffices h : ∃ method compressed, compressEntry entry deps level =
      ⟨method, compressed, crc32 (contentOf entry), (contentOf entry).length⟩ ∧
        method < 2 ^ 16 ∧ unpack deps method compressed = some (contentOf entry) by
    obtain ⟨method, compressed, hbuilt, hmethod, hunpack⟩ := h
    unfold memberOf
    dsimp only
    rw [hbuilt]
    exact ⟨hunpack, rfl, rfl, hmethod⟩
  unfold compressEntry contentOf
  by_cases hdir : entryIsDir entry.mode = true
  · rw [if_pos hdir, if_pos hdir]
    exact ⟨_, _, rfl, by decide, hstore _⟩
  rw [if_neg hdir, if_neg hdir]
  dsimp only
  by_cases hblob : isCompressibleBlob entry.mode = false
  · rw [if_pos hblob]
    exact ⟨_, _, rfl, by decide, hstore _⟩
  rw [if_neg hblob]
  by_cases hshorter : (deps.deflateRaw (entry.content.getD []) level).length <
      (entry.content.getD []).length
  · rw [if_pos hshorter]
    exact ⟨_, _, rfl, by decide, (hdeflate _).trans (deps.inflate_deflate _ _)⟩
  · rw [if_neg hshorter]
    exact ⟨_, _, rfl, by decide, hstore _⟩

variable {m : Member}

theorem membersOf_sound (hmem : m ∈ membersOf result deps opts) : m.Sound deps := by
  unfold membersOf at hmem
  rcases mem_append.mp hmem with hmem | hmem
  · split_ifs at hmem
    · exact absurd hmem not_mem_nil
    · rw [mem_singleton.mp hmem]
      exact prefixMember_sound deps _
  · obtain ⟨entry, -, rfl⟩ := mem_map.mp hmem
    exact memberOf_sound deps _ _ entry

variable {members : List Member}

theorem localSize_le (hmem : m ∈ members) :
    m.localSize ≤ localSize members :=
  single_le_sum (fun _ _ => Nat.zero_le _) _ (mem_map_of_mem hmem)

/-- Members whose archive fits. -/
theorem ZipFits.member (h : ZipFits members)
    (hsound : ∀ m ∈ members, m.Sound deps) (hmem : m ∈ members) : m.Fits := by
  have hlocal := localSize_le hmem
  have htotal := h.localSize
  have hsize : m.localSize = 39 + m.name.length + m.data.length := rfl
  exact ⟨h.names m hmem, (hsound m hmem).method, (hsound m hmem).crc ▸ crc32_lt _, by omega,
    (hsound m hmem).usize ▸ h.contents m hmem⟩

/-- **An archive that fits** is read back, member by member. -/
theorem readZip_written (h : ZipFits (membersOf result deps opts)) :
    readZip deps (zipArchive result deps opts).flatten =
      some (contentsOf (membersOf result deps opts)) := by
  have hsound : ∀ m ∈ membersOf result deps opts, m.Sound deps := fun _ => membersOf_sound
  have hfits : ∀ m ∈ membersOf result deps opts, m.Fits := fun _ => h.member hsound
  have hextra := length_utExtraOf result opts
  obtain ⟨hcomment, hbytes⟩ := commentOf_bytes result
  obtain ⟨members, hmembers⟩ : ∃ members, members = membersOf result deps opts := ⟨_, rfl⟩
  have hlocal : (localPart result deps opts).length = localSize members := by
    rw [hmembers]
    exact length_localBytes hextra _
  have hcentral : (centralPart result deps opts).length = centralSize members := by
    rw [hmembers]
    exact length_central hextra 0 _
  obtain ⟨eocd, heocd⟩ : ∃ eocd, eocd = buildEocd members.length (centralSize members)
    (localSize members) (commentOf result) := ⟨_, rfl⟩
  have hall : (zipArchive result deps opts).flatten =
      localPart result deps opts ++ (centralPart result deps opts ++ eocd) := by
    rw [zipArchive_eq, ← hmembers, hlocal, hcentral, heocd]
  rw [← hmembers] at h hfits hsound ⊢
  have hstop : findEocd (localPart result deps opts ++ (centralPart result deps opts ++ eocd)) =
      some (localSize members + centralSize members) := by
    rw [← append_assoc, heocd, findEocd_eq hcomment hbytes, length_append, hlocal, hcentral]
  have hlast : (localPart result deps opts ++ (centralPart result deps opts ++ eocd)).drop
      (localSize members + centralSize members) = eocd := by
    rw [← append_assoc, ← hlocal, ← hcentral, ← length_append, drop_left]
  have hdirectory : (localPart result deps opts ++ (centralPart result deps opts ++ eocd)).drop
      (localSize members) = centralPart result deps opts ++ eocd := by
    rw [← hlocal, drop_left]
  have hread : readEocd eocd =
      some (⟨members.length, centralSize members, localSize members⟩, []) := by
    have hreads := reads_eocd h.count h.centralSize h.localSize
      (Nat.lt_of_le_of_lt hcomment (by decide)) []
    rw [append_nil] at hreads
    rw [heocd]
    exact hreads
  have hrecords := @reads_central (dosTimeOf result opts) _ _ 0 hfits hextra
    (by have := h.localSize; omega) eocd
  have hentries := @readEntries_eq (dosTimeOf result opts) _ deps members []
    (centralPart result deps opts ++ eocd) hfits hsound hextra
  have hcentralEq : (recordsFrom (dosTimeOf result opts) (utExtraOf result opts) 0
      members).flatMap buildCentralEntry = centralPart result deps opts := by
    rw [hmembers]
    rfl
  have hlocalEq : localBytes (dosTimeOf result opts) (utExtraOf result opts) members =
      localPart result deps opts := by
    rw [hmembers]
    rfl
  rw [hcentralEq] at hrecords
  rw [nil_append, hlocalEq, length_nil] at hentries
  rw [hall, readZip, hstop]
  dsimp only [bind, Option.bind]
  rw [hlast, hread]
  dsimp only [Option.bind]
  rw [hdirectory, hrecords]
  dsimp only [Option.bind]
  rw [hentries]
  dsimp only [Option.bind]
  exact if_pos ⟨rfl, rfl⟩

/-! ### What is read fits -/

theorem gives_centralEntry : Gives readCentralEntry fun record =>
    record.name.length < 2 ^ 16 ∧ record.usize < 2 ^ 32 := by
  unfold readCentralEntry
  refine (gives_any _).bind fun _ _ => (gives_any _).bind fun _ _ => ?_
  refine (gives_any _).bind fun _ _ => (gives_any _).bind fun _ _ => ?_
  refine (gives_any _).bind fun _ _ => (gives_any _).bind fun _ _ => ?_
  refine (gives_any _).bind fun _ _ => (gives_any _).bind fun _ _ => ?_
  refine (gives_any _).bind fun _ _ => (gives_word 4).bind fun usize husize => ?_
  refine (gives_word 2).bind fun nameLength hname => (gives_any _).bind fun _ _ => ?_
  refine (gives_any _).bind fun _ _ => (gives_any _).bind fun _ _ => ?_
  refine (gives_any _).bind fun _ _ => (gives_any _).bind fun _ _ => ?_
  refine (gives_any _).bind fun _ _ => (gives_take _).bind fun name hlength => ?_
  refine (gives_any _).bind fun _ _ => (gives_any _).bind fun _ _ => gives_pure ?_
  exact ⟨hlength ▸ hname, husize⟩

theorem gives_eocd : Gives readEocd fun last =>
    last.count < 2 ^ 16 ∧ last.cdSize < 2 ^ 32 ∧ last.cdOffset < 2 ^ 32 := by
  unfold readEocd
  refine (gives_any _).bind fun _ _ => (gives_any _).bind fun _ _ => ?_
  refine (gives_any _).bind fun _ _ => (gives_any _).bind fun _ _ => ?_
  refine (gives_word 2).bind fun count hcount => (gives_word 4).bind fun cdSize hsize => ?_
  refine (gives_word 4).bind fun cdOffset hoffset => (gives_any _).bind fun _ _ => ?_
  exact (gives_any _).bind fun _ _ => gives_pure ⟨hcount, hsize, hoffset⟩

variable {bytes : Bytes}

theorem readEntry_record {record : ZipRecord} {entry : ZipEntry}
    (h : readEntry deps bytes record = some entry) : entry.record = record := by
  unfold readEntry at h
  obtain ⟨read, -, h⟩ := Option.bind_eq_some_iff.mp h
  obtain ⟨content, -, h⟩ := Option.bind_eq_some_iff.mp h
  split_ifs at h
  cases h
  rfl

theorem readEntries_record {records : List ZipRecord} {entries : List ZipEntry}
    (h : readEntries deps bytes records = some entries) :
    entries.map ZipEntry.record = records := by
  induction records generalizing entries with
  | nil =>
    cases h
    rfl
  | cons record records ih =>
    rw [readEntries] at h
    obtain ⟨entry, hentry, h⟩ := Option.bind_eq_some_iff.mp h
    obtain ⟨rest, hrest, h⟩ := Option.bind_eq_some_iff.mp h
    cases h
    rw [map_cons, readEntry_record hentry, ih hrest]

theorem readZip_bounds {contents : ZipContents}
    (h : readZip deps bytes = some contents) :
    contents.entries.length < 2 ^ 16 ∧ contents.cdSize < 2 ^ 32 ∧ contents.cdOffset < 2 ^ 32 ∧
      ∀ entry ∈ contents.entries,
        entry.record.name.length < 2 ^ 16 ∧ entry.record.usize < 2 ^ 32 := by
  unfold readZip at h
  obtain ⟨stop, -, h⟩ := Option.bind_eq_some_iff.mp h
  obtain ⟨⟨last, left⟩, hlast, h⟩ := Option.bind_eq_some_iff.mp h
  obtain ⟨⟨records, rest⟩, hrecords, h⟩ := Option.bind_eq_some_iff.mp h
  obtain ⟨entries, hentries, h⟩ := Option.bind_eq_some_iff.mp h
  split_ifs at h
  cases h
  obtain ⟨hcount, hsize, hoffset⟩ := gives_eocd _ _ _ hlast
  obtain ⟨hlength, hall⟩ := ByteReader.gives_replicate gives_centralEntry _ _ _ _ hrecords
  have hmap : entries.map ZipEntry.record = records := readEntries_record hentries
  refine ⟨?_, hsize, hoffset, fun entry hmem => ?_⟩
  · have hsame : entries.length = records.length := by
      rw [← hmap, length_map]
    dsimp only at hlength ⊢
    omega
  · exact hall _ (hmap ▸ mem_map_of_mem hmem)

theorem exists_entry_mem (hmem : m ∈ members)
    (localOffset : ℕ) : ∃ place, m.entry place ∈ entriesFrom localOffset members := by
  induction members generalizing localOffset with
  | nil => exact absurd hmem not_mem_nil
  | cons first members ih =>
    rcases mem_cons.mp hmem with rfl | hmem
    · exact ⟨localOffset, mem_cons_self⟩
    · obtain ⟨place, hplace⟩ := ih hmem (localOffset + first.localSize)
      exact ⟨place, mem_cons_of_mem _ hplace⟩

theorem ZipFits.of_readZip (hsound : ∀ m ∈ members, m.Sound deps)
    (h : readZip deps bytes = some (contentsOf members)) : ZipFits members := by
  obtain ⟨hcount, hsize, hoffset, hall⟩ := readZip_bounds h
  have hlength := length_entriesFrom 0 members
  refine ⟨hlength ▸ hcount, fun m hmem => ?_, fun m hmem => ?_, hoffset, hsize⟩
  · obtain ⟨place, hplace⟩ := exists_entry_mem hmem 0
    exact (hall _ hplace).1
  · obtain ⟨place, hplace⟩ := exists_entry_mem hmem 0
    rw [(hsound m hmem).usize]
    exact (hall _ hplace).2

end

/-- **What is written is read back exactly if it fits**: if and only if each count, size and offset
has room in its field. -/
theorem zipArchive_exact (result : ArchiveResult) (deps : ZipDeps) (opts : ZipOptions) :
    readZip deps (zipArchive result deps opts).flatten =
        some (contentsOf (membersOf result deps opts)) ↔
      ZipFits (membersOf result deps opts) :=
  ⟨ZipFits.of_readZip fun _ => membersOf_sound, readZip_written⟩

/-- A host whose deflater is never called. -/
def idleDeps : ZipDeps := ⟨fun data _ => data, some, fun _ _ => rfl⟩

/-- One link more than the count field holds. -/
def manyLinks : ArchiveResult :=
  ⟨none, none, (List.range 65536).map fun i => ⟨Nat.toDigits 10 i, .gitlink, none⟩⟩

/-- The end record counts 65536 entries as none. -/
theorem zipArchive_wraps :
    readZip idleDeps (zipArchive manyLinks idleDeps ⟨none, none, none, none⟩).flatten ≠
      some (contentsOf (membersOf manyLinks idleDeps ⟨none, none, none, none⟩)) := by
  intro h
  have hfits := ZipFits.of_readZip (fun _ => membersOf_sound) h
  have hcount : (membersOf manyLinks idleDeps ⟨none, none, none, none⟩).length = 65536 := by
    unfold membersOf manyLinks
    dsimp only [Option.getD]
    rw [if_pos rfl, nil_append, length_map, length_map, length_range]
  have hroom := hfits.count
  omega

end Tsgit.Archive
