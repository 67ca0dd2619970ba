import Tsgit.ByteReader
import Tsgit.Tar

/-!
# Reading Tar Archives

A reader of ustar records, and what it makes of the archives that `Tsgit.Tar` writes.
-/

namespace Tsgit.Archive

open List

open Objects (FileMode)
open ByteReader (byte take expect till Reads reads_take reads_expect till_eq)

/-! ### The reader -/

structure TarHeader where
  path : Bytes
  mode : ℕ
  size : ℕ
  mtime : ℕ
  typeflag : UInt8
  linkname : Bytes
  deriving DecidableEq

structure TarRecord where
  header : TarHeader
  content : Bytes
  deriving DecidableEq

/-- The bytes of a field in front of its first zero, all of them if there is none. -/
def cut (field : Bytes) : Bytes := field.takeWhile (· ≠ 0)

def readText (len : ℕ) : ByteReader Bytes := do
  let field ← take len
  pure (cut field)

def octalValue (digits : Bytes) : ℕ :=
  digits.foldl (fun value digit => 8 * value + (digit.toNat - 0x30)) 0

def isOctalDigit (digit : UInt8) : Bool := decide (0x30 ≤ digit ∧ digit ≤ 0x37)

def readOctal (len : ℕ) : ByteReader ℕ := do
  let digits ← readText len
  if digits.all isOctalDigit then pure (octalValue digits)
  else fun _ => none

def readFields : ByteReader (TarHeader × ℕ) := do
  let name ← readText 100
  let mode ← readOctal 8
  let _uid ← readOctal 8
  let _gid ← readOctal 8
  let size ← readOctal 12
  let mtime ← readOctal 12
  let checksum ← readOctal 8
  let typeflag ← byte
  let linkname ← readText 100
  expect tarMagic
  expect tarVersion
  let _uname ← take 32
  let _gname ← take 32
  let _devmajor ← readOctal 8
  let _devminor ← readOctal 8
  let before ← readText 155
  let _rest ← take 12
  pure (⟨joinFields before name, mode, size, mtime, typeflag, linkname⟩, checksum)

/-- The byte sum of a header, with spaces in place of its checksum. -/
def byteSum (block : Bytes) : ℕ :=
  ((block.take 148 ++ (replicate 8 0x20 ++ block.drop 156)).map UInt8.toNat).sum

/-- A header of 512 bytes whose checksum is right. -/
def readHeader : ByteReader TarHeader := do
  let block ← take 512
  fun rest => (readFields block).bind fun read =>
    if read.1.2 = byteSum block then some (read.1.1, rest) else none

/-- A header, its content, and zeros up to the next block. -/
def readRecord : ByteReader TarRecord := do
  let header ← readHeader
  let content ← take header.size
  expect (replicate ((512 - header.size % 512) % 512) 0)
  pure ⟨header, content⟩

/-- **The reader**: the records up to the first block of zeros, and the bytes from there on. -/
def readTar (bytes : Bytes) : Option (List TarRecord × Bytes) :=
  till (replicate 512 0) readRecord (bytes.length / 512 + 1) bytes

/-! ### Fields are read back -/

theorem cut_append_zeros (bytes : Bytes) (count : ℕ) :
    cut (bytes ++ replicate count 0) = cut bytes := by
  induction bytes with
  | nil =>
    cases count with
    | zero => rfl
    | succ count => rfl
  | cons byte bytes ih =>
    by_cases hzero : byte = 0
    · subst hzero
      rfl
    · unfold cut at ih ⊢
      rw [cons_append, takeWhile_cons_of_pos (by simpa using hzero), ih,
        takeWhile_cons_of_pos (by simpa using hzero)]

theorem cut_eq_self {bytes : Bytes} (h : (0 : UInt8) ∉ bytes) : cut bytes = bytes :=
  takeWhile_eq_self_iff.mpr fun byte hmem => by
    simpa using fun hzero : byte = 0 => h (hzero ▸ hmem)

theorem reads_readText {len : ℕ} {bytes : Bytes} (h : bytes.length ≤ len) :
    Reads (readText len) (writeBytes len bytes) (cut bytes) := by
  have hcut : cut (writeBytes len bytes) = cut bytes := by
    rw [writeBytes, take_of_length_le h, cut_append_zeros]
  rw [← hcut]
  exact (reads_take _ (length_writeBytes h)).bind_pure

theorem octalDigit_bounds : ∀ digit < 8, 0x30 ≤ (Nat.digitChar digit).toNat ∧
    (Nat.digitChar digit).toNat ≤ 0x37 := by decide

theorem toDigits_bounds {n : ℕ} {c : Char} (h : c ∈ Nat.toDigits 8 n) :
    0x30 ≤ c.toNat ∧ c.toNat ≤ 0x37 := by
  induction n using Nat.strong_induction_on with
  | _ n ih =>
    rw [Nat.toDigits_eq_if (by decide)] at h
    split_ifs at h with hlt
    · rw [mem_singleton.mp h]
      exact octalDigit_bounds n hlt
    · rcases mem_append.mp h with hfront | hlast
      · exact ih (n / 8) (by omega) hfront
      · rw [mem_singleton.mp hlast]
        exact octalDigit_bounds _ (Nat.mod_lt _ (by decide))

theorem padStart_bounds {len n : ℕ} {c : Char} (h : c ∈ padStart (Nat.toDigits 8 n) len) :
    0x30 ≤ c.toNat ∧ c.toNat ≤ 0x37 := by
  rcases mem_append.mp h with hzero | hdigit
  · rw [eq_of_mem_replicate hzero]
    decide
  · exact toDigits_bounds hdigit

theorem toNat_byteOf {c : Char} (h : c.toNat < 256) : (byteOf c).toNat = c.toNat :=
  Nat.mod_eq_of_lt h

theorem octalValue_map {digits : Text} (h : ∀ c ∈ digits, c.toNat < 256) :
    octalValue (digits.map byteOf) = Nat.ofDigitChars 8 digits 0 := by
  have hstart : ∀ start, (digits.map byteOf).foldl
      (fun value digit => 8 * value + (digit.toNat - 0x30)) start =
        Nat.ofDigitChars 8 digits start := by
    induction digits with
    | nil => exact fun start => Nat.ofDigitChars_nil.symm
    | cons c digits ih =>
      obtain ⟨hfirst, hrest⟩ := forall_mem_cons.mp h
      intro start
      rw [map_cons, foldl_cons, toNat_byteOf hfirst, ih hrest, Nat.ofDigitChars_cons]
      rfl
  exact hstart 0

theorem octalValue_padStart (len n : ℕ) :
    octalValue ((padStart (Nat.toDigits 8 n) len).map byteOf) = n := by
  rw [octalValue_map fun c hc => (padStart_bounds hc).2.trans_lt (by decide), padStart,
    Nat.ofDigitChars_append, Nat.ofDigitChars_replicate_zero, Nat.mul_zero,
    Nat.ofDigitChars_toDigits (by decide) (by decide)]

theorem reads_readOctal {len n : ℕ} (hlen : 1 < len) (h : n < 8 ^ (len - 1)) :
    Reads (readOctal len) (octalField len n) n := by
  have hbytes : ∀ byte ∈ (padStart (Nat.toDigits 8 n) (len - 1)).map byteOf,
      0x30 ≤ byte.toNat ∧ byte.toNat ≤ 0x37 := by
    intro byte hmem
    obtain ⟨c, hc, rfl⟩ := mem_map.mp hmem
    have hbounds := padStart_bounds hc
    rw [toNat_byteOf (hbounds.2.trans_lt (by decide))]
    exact hbounds
  have hzero : (0 : UInt8) ∉ (padStart (Nat.toDigits 8 n) (len - 1)).map byteOf :=
    fun hmem => absurd (hbytes 0 hmem).1 (by decide)
  have hdigits : ((padStart (Nat.toDigits 8 n) (len - 1)).map byteOf).all isOctalDigit = true :=
    all_eq_true.mpr fun digit hmem => decide_eq_true
      ⟨UInt8.le_iff_toNat_le.mpr (hbytes digit hmem).1,
        UInt8.le_iff_toNat_le.mpr (hbytes digit hmem).2⟩
  have hcut : cut (octalField len n) = (padStart (Nat.toDigits 8 n) (len - 1)).map byteOf :=
    (cut_append_zeros _ 1).trans (cut_eq_self hzero)
  have hfield : Reads (readText len) (octalField len n)
      ((padStart (Nat.toDigits 8 n) (len - 1)).map byteOf) := by
    rw [← hcut]
    exact (reads_take _ (length_octalField hlen h)).bind_pure
  have hread : Reads (readOctal len) (octalField len n)
      (octalValue ((padStart (Nat.toDigits 8 n) (len - 1)).map byteOf)) :=
    hfield.bind_check hdigits
  rwa [octalValue_padStart] at hread

/-! ### Written records are read -/

section

variable {p : HeaderParams} {content : Bytes}

/-- What a header says to a reader. -/
def HeaderParams.header (p : HeaderParams) : TarHeader :=
  ⟨joinFields (cut p.prefixBytes) (cut p.nameBytes), p.mode, p.size, p.mtime.toNat, p.typeflag,
    cut p.linknameBytes⟩

theorem reads_fields (h : p.Fits) :
    Reads readFields (headerBytes p) (p.header, checksumOf p) := by
  have hbyte : Reads byte [p.typeflag] p.typeflag := fun _ => rfl
  have hzero := reads_readOctal (show 1 < 8 by decide) (show 0 < 8 ^ (8 - 1) by decide)
  unfold readFields headerBytes headerFront headerBack
  simp only [append_assoc]
  refine (reads_readText h.name).bind ?_
  refine (reads_readOctal (by decide) h.mode).bind ?_
  refine hzero.bind ?_
  refine hzero.bind ?_
  refine (reads_readOctal (by decide) h.size).bind ?_
  refine (reads_readOctal (by decide) h.mtime).bind ?_
  refine (reads_readOctal (by decide) (checksumOf_lt h)).bind ?_
  refine hbyte.bind ?_
  refine (reads_readText h.linkname).bind ?_
  refine (reads_expect _).bind ?_
  refine (reads_expect _).bind ?_
  refine (reads_take _ (length_writeAscii 32 p.uname)).bind ?_
  refine (reads_take _ (length_writeAscii 32 p.gname)).bind ?_
  refine hzero.bind ?_
  refine hzero.bind ?_
  refine (reads_readText h.before).bind ?_
  exact (reads_take _ length_replicate).bind_pure

theorem byteSum_headerBytes (h : p.Fits) : byteSum (headerBytes p) = checksumOf p := by
  have hfront := length_headerFront h
  have hwidth := length_octalField (show 1 < 8 by decide) (checksumOf_lt h)
  have hdrop : (headerBytes p).drop 156 = headerBack p := by
    have hall : 156 = (headerFront p ++ octalField 8 (checksumOf p)).length := by
      rw [length_append, hfront, hwidth]
    rw [headerBytes, ← append_assoc, hall, drop_left]
  have htake : (headerBytes p).take 148 = headerFront p := by
    rw [headerBytes, ← hfront, take_left]
  rw [byteSum, htake, hdrop, map_append, map_append, sum_append, sum_append,
    map_replicate, sum_replicate]
  rfl

theorem reads_header (h : p.Fits) : Reads readHeader (headerBytes p) p.header := by
  intro rest
  have hfields := reads_fields h []
  rw [append_nil] at hfields
  rw [readHeader, ByteReader.bind_apply, reads_take _ (length_headerBytes h), Option.bind_some]
  dsimp only
  rw [hfields, Option.bind_some, if_pos (byteSum_headerBytes h).symm]

/-- The padding of a content, as the writer yields it. -/
def paddingOf (content : Bytes) : Bytes := replicate ((512 - content.length % 512) % 512) 0

/-- **A record** is read back. -/
theorem reads_record (h : p.Fits) (hsize : content.length = p.size) :
    Reads readRecord (headerBytes p ++ (content ++ paddingOf content)) ⟨p.header, content⟩ := by
  have hpadding : paddingOf content = replicate ((512 - p.size % 512) % 512) 0 := by
    rw [paddingOf, hsize]
  rw [hpadding]
  refine (reads_header h).bind ?_
  refine (reads_take _ hsize).bind ?_
  exact (reads_expect _).bind_pure

/-- A record is no block of zeros. -/
theorem not_zeros_headerBytes (h : p.Fits) (rest : Bytes) :
    ¬ replicate 512 (0 : UInt8) <+: headerBytes p ++ rest := by
  intro hzeros
  have hbytes : replicate 512 (0 : UInt8) = headerBytes p :=
    prefix_of_prefix_length_le hzeros (prefix_append _ _)
      (by rw [length_replicate, length_headerBytes h]) |>.eq_of_length
        (by rw [length_replicate, length_headerBytes h])
  have hmagic : (0x75 : UInt8) ∈ headerBytes p :=
    mem_append_right _ (mem_append_right _ (mem_cons_of_mem _
      (mem_append_right _ (mem_append_left _ mem_cons_self))))
  rw [← hbytes] at hmagic
  exact absurd (eq_of_mem_replicate hmagic) (by decide)

end

/-! ### Headers of paths -/

section

variable {stamp : TarStamp} {mode size : ℕ} {typeflag : UInt8} {linkname : Bytes}
  {filePath : Text}

def storedPath (filePath : Text) : Bytes :=
  match splitPath filePath with
  | .ok (name, before) => joinFields (cut before) (cut name)
  | .error _ => []

theorem storedPath_eq (h : (0 : UInt8) ∉ encode filePath) (hsplit : Splittable (encode filePath)) :
    storedPath filePath = encode filePath := by
  rcases splitPath_iff filePath with ⟨name, before, hok, -, hjoin, -, -, hsubset⟩ | ⟨-, hnot⟩
  · have hname : (0 : UInt8) ∉ name := fun hmem => h (hsubset (mem_append_left _ hmem))
    have hbefore : (0 : UInt8) ∉ before := fun hmem => h (hsubset (mem_append_right _ hmem))
    rw [storedPath, hok]
    dsimp only
    rw [cut_eq_self hname, cut_eq_self hbefore, hjoin]
  · exact absurd hsplit hnot

/-- **A header for a path** is built if the path is divided and the numbers have room. -/
theorem buildHeader_path (hmode : mode < 8 ^ 7) (hmtime : 0 ≤ stamp.mtime)
    (hlinkname : linkname.length ≤ 100) :
    (∃ p : HeaderParams, (splitPath filePath >>= fun split =>
        buildHeader ⟨split.1, mode, size, stamp.mtime, typeflag, linkname, stamp.uname,
          stamp.gname, split.2⟩) = .ok (headerBytes p) ∧ p.Fits ∧ p.size = size ∧
        p.header = ⟨storedPath filePath, mode, size, stamp.mtime.toNat, typeflag, cut linkname⟩ ∧
        Splittable (encode filePath) ∧ size < 8 ^ 11 ∧ stamp.mtime.toNat < 8 ^ 11) ∨
      (∃ thrown, (splitPath filePath >>= fun split =>
        buildHeader ⟨split.1, mode, size, stamp.mtime, typeflag, linkname, stamp.uname,
          stamp.gname, split.2⟩) = .error thrown) ∧
        (¬ Splittable (encode filePath) ∨ 8 ^ 11 ≤ size ∨ 8 ^ 11 ≤ stamp.mtime.toNat) := by
  rcases splitPath_iff filePath with
    ⟨name, before, hok, hsplit, -, hname, hbefore, -⟩ | ⟨⟨thrown, herror⟩, hnot⟩
  · rw [ok_bind_eq hok]
    obtain ⟨p, hp⟩ : ∃ p : HeaderParams, p = ⟨name, mode, size, stamp.mtime, typeflag, linkname,
      stamp.uname, stamp.gname, before⟩ := ⟨_, rfl⟩
    dsimp only
    rw [← hp]
    have hbuild : buildHeader p = .ok (headerBytes p) ∧ p.Fits ∨
        (∃ thrown, buildHeader p = .error thrown) ∧ (8 ^ 11 ≤ p.size ∨ 8 ^ 11 ≤ p.mtime.toNat) := by
      rw [hp]
      exact buildHeader_iff hname hmode hmtime hlinkname hbefore
    rcases hbuild with ⟨hheader, hfits⟩ | ⟨hthrown, hlarge⟩
    · have hsize : p.size = size := by rw [hp]
      have htime : p.mtime = stamp.mtime := by rw [hp]
      refine Or.inl ⟨p, hheader, hfits, hsize, ?_, hsplit, hsize ▸ hfits.size, htime ▸ hfits.mtime⟩
      rw [hp, HeaderParams.header, storedPath, hok]
    · rw [hp] at hlarge
      exact Or.inr ⟨hthrown, Or.inr hlarge⟩
  · rw [herror]
    exact Or.inr ⟨⟨thrown, rfl⟩, Or.inl hnot⟩

theorem maskMode_lt {base umask : ℕ} (h : base < 8 ^ 7) : maskMode base umask < 8 ^ 7 := by
  have hbase : (BitVec.ofNat 32 base).toNat ≤ base := Nat.mod_le _ _
  have hand : maskMode base umask ≤ (BitVec.ofNat 32 base).toNat := by
    rw [maskMode, BitVec.toNat_and]
    exact Nat.and_le_left
  omega

theorem tarMode_lt (mode : FileMode) (umask : ℕ) : tarMode mode umask < 8 ^ 7 := by
  cases mode with
  | regular => exact maskMode_lt (by decide)
  | executable => exact maskMode_lt (by decide)
  | directory => exact maskMode_lt (by decide)
  | gitlink => exact maskMode_lt (by decide)
  | symlink => exact (by decide : (0o777 : ℕ) < 8 ^ 7)

end

/-! ### What the writer has yielded -/

/-- Bytes that a reader takes for a record. -/
structure IsBlock (block : Bytes) (record : TarRecord) : Prop where
  reads : Reads readRecord block record
  nonzero : ∀ rest, ¬ replicate 512 (0 : UInt8) <+: block ++ rest
  length : 512 ≤ block.length

theorem isBlock_record {p : HeaderParams} {content : Bytes} (h : p.Fits)
    (hsize : content.length = p.size) :
    IsBlock (headerBytes p ++ (content ++ paddingOf content)) ⟨p.header, content⟩ where
  reads := reads_record h hsize
  nonzero := fun rest => by
    rw [append_assoc]
    exact not_zeros_headerBytes h _
  length := by
    rw [length_append, length_headerBytes h]
    exact Nat.le_add_right _ _

/-- The blocks of some records have been yielded, and their bytes are counted. -/
structure Written (state : TarState) (records : List TarRecord) : Prop where
  blocks : ∃ blocks : List (Bytes × TarRecord),
    state.yielded.flatten = blocks.flatMap Prod.fst ∧ blocks.map Prod.snd = records ∧
      ∀ b ∈ blocks, IsBlock b.1 b.2
  byteCount : state.byteCount = state.yielded.flatten.length

section

variable {state : TarState} {records : List TarRecord} {stamp : TarStamp} {prefixed : Text}

theorem written_empty : Written (TarState.mk [] 0) [] :=
  ⟨⟨[], rfl, rfl, forall_mem_nil _⟩, rfl⟩

theorem flatten_yield (state : TarState) (chunk : Bytes) (count : ℕ) :
    (state.yield chunk count).yielded.flatten = state.yielded.flatten ++ chunk := by
  rw [TarState.yield, flatten_append, flatten_singleton]

theorem Written.add {state' : TarState} {block : Bytes} {record : TarRecord}
    (h : Written state records) (hblock : IsBlock block record)
    (hyielded : state'.yielded.flatten = state.yielded.flatten ++ block)
    (hcount : state'.byteCount = state.byteCount + block.length) :
    Written state' (records ++ [record]) := by
  obtain ⟨blocks, hflatten, hrecords, hall⟩ := h.blocks
  refine ⟨⟨blocks ++ [(block, record)], ?_, ?_, fun b hmem => ?_⟩, ?_⟩
  · rw [hyielded, hflatten, flatMap_append, flatMap_singleton]
  · rw [map_append, hrecords, map_singleton]
  · rcases mem_append.mp hmem with hmem | hmem
    · exact hall b hmem
    · rw [mem_singleton.mp hmem]
      exact hblock
  · rw [hcount, h.byteCount, hyielded, length_append]

/-- A header alone. -/
theorem Written.addHeader {p : HeaderParams} (h : Written state records) (hfits : p.Fits)
    (hsize : p.size = 0) :
    Written (state.yield (headerBytes p) tarBlockSize) (records ++ [⟨p.header, []⟩]) := by
  have hblock := @isBlock_record p [] hfits hsize.symm
  have hpadding : paddingOf [] = [] := rfl
  rw [hpadding, append_nil, append_nil] at hblock
  refine h.add hblock (flatten_yield _ _ _) ?_
  rw [length_headerBytes hfits]
  rfl

/-! ### The global record -/

variable {oid : Text}

theorem length_paxCommentPayload (h : IsObjectId oid) :
    (paxCommentPayload oid).length = 49 ∨ (paxCommentPayload oid).length = 73 := by
  have hlength : (paxCommentPayload oid).length = oid.length + 9 := by
    rw [paxCommentPayload, length_append, length_cons, length_append, length_singleton]
    have hkey : paxCommentKey.length = 7 := rfl
    omega
  rcases h.length_eq with hid | hid
  · exact Or.inl (by omega)
  · exact Or.inr (by omega)

theorem paxRecordSize_eq (h : IsObjectId oid) :
    paxRecordSize (paxCommentPayload oid) = some (paxRecord oid).length ∧
      ((paxRecord oid).length = 52 ∨ (paxRecord oid).length = 76) := by
  have hlength : ∀ size, paxRecordSize (paxCommentPayload oid) = some size →
      (Nat.toDigits 10 size).length + 1 + (paxCommentPayload oid).length = size →
        (paxRecord oid).length = size := by
    intro size hsome hsize
    rw [paxRecord, hsome, length_append, length_cons, Option.getD_some]
    omega
  rcases length_paxCommentPayload h with hpayload | hpayload
  · have hsome : paxRecordSize (paxCommentPayload oid) = some 52 := by
      rw [paxRecordSize, hpayload]
      simp only [paxRecordSizeFrom, hpayload]
      decide
    have hrecord := hlength 52 hsome (by rw [hpayload]; decide)
    exact ⟨by rw [hsome, hrecord], Or.inl hrecord⟩
  · have hsome : paxRecordSize (paxCommentPayload oid) = some 76 := by
      rw [paxRecordSize, hpayload]
      simp only [paxRecordSizeFrom, hpayload]
      decide
    have hrecord := hlength 76 hsome (by rw [hpayload]; decide)
    exact ⟨by rw [hsome, hrecord], Or.inr hrecord⟩

/-- **The record's length field** is the length of the record, its own digits included. -/
theorem paxRecord_eq (h : IsObjectId oid) :
    paxRecord oid =
      Nat.toDigits 10 (paxRecord oid).length ++ ' ' :: paxCommentPayload oid := by
  conv_lhs => rw [paxRecord, (paxRecordSize_eq h).1, Option.getD_some]

theorem buildPaxData_eq (h : IsObjectId oid) :
    buildPaxData oid = (paxRecord oid).map byteOf ++ paddingOf ((paxRecord oid).map byteOf) := by
  have hlength : ((paxRecord oid).map byteOf).length = 52 ∨
      ((paxRecord oid).map byteOf).length = 76 := by
    rw [length_map]
    exact (paxRecordSize_eq h).2
  have hblock : tarBlockSize = 512 := rfl
  rw [buildPaxData, writeBytes, paddingOf, hblock, take_of_length_le (by omega)]
  rcases hlength with hlength | hlength
  · rw [hlength]
  · rw [hlength]

/-- What is read of the global header and its record. -/
def globalRecord (stamp : TarStamp) (oid : Text) : TarRecord :=
  ⟨⟨encode paxGlobalName, paxMode, (paxRecord oid).length, stamp.mtime.toNat,
    typeflagPaxGlobal, []⟩, (paxRecord oid).map byteOf⟩

theorem storedPath_paxGlobalName : storedPath paxGlobalName = encode paxGlobalName :=
  storedPath_eq (by decide) (Or.inl (by decide))

theorem addPax_iff (hmtime : 0 ≤ stamp.mtime) (h : Written state records)
    (hoid : IsObjectId oid) :
    (∃ state', state.addPax (some oid) stamp = .ok state' ∧
        Written state' (records ++ [globalRecord stamp oid]) ∧ stamp.mtime.toNat < 8 ^ 11) ∨
      (∃ thrown, state.addPax (some oid) stamp = .error thrown) ∧
        8 ^ 11 ≤ stamp.mtime.toNat := by
  have hsize : (paxRecordSize (paxCommentPayload oid)).getD 0 = (paxRecord oid).length := by
    rw [(paxRecordSize_eq hoid).1, Option.getD_some]
  have hlength := (paxRecordSize_eq hoid).2
  rcases @buildHeader_path stamp paxMode ((paxRecordSize (paxCommentPayload oid)).getD 0)
      typeflagPaxGlobal [] paxGlobalName (by decide) hmtime (Nat.zero_le _) with
    ⟨p, hheader, hfits, hpsize, hpheader, -, -, htime⟩ | ⟨⟨thrown, hthrown⟩, hlarge⟩
  · have hbuild : buildPaxHeader oid stamp = .ok (headerBytes p) := hheader
    rw [TarState.addPax, ok_bind_eq hbuild]
    refine Or.inl ⟨_, rfl, ?_, htime⟩
    have hrecord : (⟨p.header, (paxRecord oid).map byteOf⟩ : TarRecord) =
        globalRecord stamp oid := by
      rw [hpheader, hsize, storedPath_paxGlobalName]
      rfl
    rw [← hrecord]
    refine h.add (isBlock_record hfits ?_) ?_ ?_
    · rw [length_map, hpsize, hsize]
    · rw [flatten_yield, flatten_yield, buildPaxData_eq hoid, append_assoc]
    have hdata : (buildPaxData oid).length = tarBlockSize := by
      refine length_writeBytes ?_
      rw [length_map]
      have hblock : tarBlockSize = 512 := rfl
      omega
    rw [← buildPaxData_eq hoid, length_append, length_headerBytes hfits, hdata]
    rfl
  · have hbuild : buildPaxHeader oid stamp = .error thrown := hthrown
    rw [TarState.addPax, hbuild]
    refine Or.inr ⟨⟨thrown, rfl⟩, ?_⟩
    rcases hlarge with hsplit | hlarge | hlarge
    · exact absurd (Or.inl (by decide)) hsplit
    · omega
    · exact hlarge

/-! ### The other records -/

/-- What is read of the prefix directory, with a path. -/
def prefixRecord (stamp : TarStamp) (path : Bytes) : TarRecord :=
  ⟨⟨path, maskMode modeMaskedBase stamp.umask, 0, stamp.mtime.toNat, typeflagDir, []⟩, []⟩

theorem addPrefix_iff (hmtime : 0 ≤ stamp.mtime) (h : Written state records)
    (hprefixed : prefixed ≠ []) :
    (∃ state', state.addPrefix prefixed stamp = .ok state' ∧
        Written state' (records ++ [prefixRecord stamp (storedPath prefixed)]) ∧
        Splittable (encode prefixed) ∧ stamp.mtime.toNat < 8 ^ 11) ∨
      (∃ thrown, state.addPrefix prefixed stamp = .error thrown) ∧
        (¬ Splittable (encode prefixed) ∨ 8 ^ 11 ≤ stamp.mtime.toNat) := by
  rw [TarState.addPrefix, if_pos hprefixed]
  rcases @buildHeader_path stamp (maskMode modeMaskedBase stamp.umask) 0 typeflagDir [] prefixed
      (maskMode_lt (by decide)) hmtime (Nat.zero_le _) with
    ⟨p, hheader, hfits, hpsize, hpheader, hsplit, -, htime⟩ | ⟨⟨thrown, hthrown⟩, hlarge⟩
  · have hbuild : buildPrefixDirHeader prefixed stamp = .ok (headerBytes p) := hheader
    rw [ok_bind_eq hbuild]
    refine Or.inl ⟨_, rfl, ?_, hsplit, htime⟩
    have hrecord : (⟨p.header, []⟩ : TarRecord) = prefixRecord stamp (storedPath prefixed) := by
      rw [hpheader]
      rfl
    rw [← hrecord]
    exact h.addHeader hfits hpsize
  · have hbuild : buildPrefixDirHeader prefixed stamp = .error thrown := hthrown
    rw [hbuild]
    refine Or.inr ⟨⟨thrown, rfl⟩, ?_⟩
    rcases hlarge with hsplit | hlarge | hlarge
    · exact Or.inl hsplit
    · omega
    · exact Or.inr hlarge

def ArchiveEntry.data (entry : ArchiveEntry) : Bytes :=
  if hasDataBlock entry.mode then entry.content.getD [] else []

/-- The target of a link. -/
def ArchiveEntry.target (entry : ArchiveEntry) : Bytes :=
  if entry.mode = .symlink then entry.content.getD [] else []

def entryRecord (stamp : TarStamp) (entry : ArchiveEntry) (path target : Bytes) : TarRecord :=
  ⟨⟨path, tarMode entry.mode stamp.umask, entry.data.length, stamp.mtime.toNat,
    modeTypeflag entry.mode, target⟩, entry.data⟩

/-- What is read of an entry, as its fields have it. -/
def storedRecord (stamp : TarStamp) (prefixed : Text) (entry : ArchiveEntry) : TarRecord :=
  entryRecord stamp entry (storedPath (buildEntryPath entry.path prefixed entry.mode))
    (cut entry.target)

/-- What the fields of an entry have no room for. -/
def EntryRefused (prefixed : Text) (entry : ArchiveEntry) : Prop :=
  ¬ Splittable (encode (buildEntryPath entry.path prefixed entry.mode)) ∨
    100 < entry.target.length ∨ 8 ^ 11 ≤ entry.data.length

theorem buildEntryHeader_iff (hmtime : 0 ≤ stamp.mtime) (entry : ArchiveEntry) :
    (∃ p, buildEntryHeader entry (buildEntryPath entry.path prefixed entry.mode) stamp =
        .ok (headerBytes p) ∧ p.Fits ∧ p.size = entry.data.length ∧
        p.header = (storedRecord stamp prefixed entry).header ∧ ¬ EntryRefused prefixed entry ∧
        stamp.mtime.toNat < 8 ^ 11) ∨
      (∃ thrown, buildEntryHeader entry (buildEntryPath entry.path prefixed entry.mode) stamp =
        .error thrown) ∧ (EntryRefused prefixed entry ∨ 8 ^ 11 ≤ stamp.mtime.toNat) := by
  have htarget : (if entry.mode = .symlink then entry.content.getD [] else []) =
      entry.target := rfl
  have hdata : (if hasDataBlock entry.mode then (entry.content.getD []).length else 0) =
      entry.data.length := by
    rw [ArchiveEntry.data, apply_ite length]
    rfl
  unfold buildEntryHeader
  dsimp only
  rw [htarget, hdata]
  by_cases hlong : entry.target.length > lenLinkname
  · simp only [if_pos hlong]
    refine Or.inr ⟨?_, Or.inl (Or.inr (Or.inl hlong))⟩
    cases splitPath (buildEntryPath entry.path prefixed entry.mode) with
    | ok split => exact ⟨_, rfl⟩
    | error thrown => exact ⟨thrown, rfl⟩
  simp only [if_neg hlong]
  rcases @buildHeader_path stamp (tarMode entry.mode stamp.umask) entry.data.length
      (modeTypeflag entry.mode) entry.target (buildEntryPath entry.path prefixed entry.mode)
      (tarMode_lt _ _) hmtime (Nat.not_lt.mp hlong) with
    ⟨p, hheader, hfits, hpsize, hpheader, hsplit, hsize, htime⟩ | ⟨hthrown, hlarge⟩
  · refine Or.inl ⟨p, hheader, hfits, hpsize, hpheader, ?_, htime⟩
    rintro (hrefused | hrefused | hrefused)
    · exact hrefused hsplit
    · exact hlong hrefused
    · omega
  · refine Or.inr ⟨hthrown, ?_⟩
    rcases hlarge with hsplit | hlarge | hlarge
    · exact Or.inl (Or.inl hsplit)
    · exact Or.inl (Or.inr (Or.inr hlarge))
    · exact Or.inr hlarge

theorem paddingNeeded_eq (byteLen : ℕ) : paddingNeeded byteLen = (512 - byteLen % 512) % 512 := by
  have hlt := Nat.mod_lt byteLen (show 512 > 0 by decide)
  unfold paddingNeeded tarBlockSize
  dsimp only
  split_ifs with hrem
  · rw [hrem]
  · omega

theorem addContent_eq (entry : ArchiveEntry) (state : TarState) :
    ∃ state' : TarState, (if hasDataBlock entry.mode ∧ (entry.content.getD []).length > 0 then
        if paddingNeeded (entry.content.getD []).length > 0 then
          pure ((state.yield (entry.content.getD []) (entry.content.getD []).length).yield
            (replicate (paddingNeeded (entry.content.getD []).length) 0)
            (paddingNeeded (entry.content.getD []).length))
        else pure (state.yield (entry.content.getD []) (entry.content.getD []).length)
      else pure state : Except Thrown TarState) = .ok state' ∧
        state'.yielded.flatten = state.yielded.flatten ++ (entry.data ++ paddingOf entry.data) ∧
        state'.byteCount =
          state.byteCount + (entry.data.length + (paddingOf entry.data).length) := by
  by_cases hdata : hasDataBlock entry.mode ∧ (entry.content.getD []).length > 0
  · have hcontent : entry.data = entry.content.getD [] := if_pos hdata.1
    rw [if_pos hdata, hcontent]
    have hpadding : paddingOf (entry.content.getD []) =
        replicate (paddingNeeded (entry.content.getD []).length) 0 := by
      rw [paddingOf, paddingNeeded_eq]
    by_cases hpad : paddingNeeded (entry.content.getD []).length > 0
    · rw [if_pos hpad]
      refine ⟨_, rfl, ?_, ?_⟩
      · rw [flatten_yield, flatten_yield, hpadding, append_assoc]
      · rw [hpadding, length_replicate, TarState.yield, TarState.yield, Nat.add_assoc]
    rw [if_neg hpad]
    have hnone : paddingOf (entry.content.getD []) = [] := by
      rw [hpadding, Nat.eq_zero_of_not_pos hpad, replicate_zero]
    refine ⟨_, rfl, ?_, ?_⟩
    · rw [flatten_yield, hnone, append_nil]
    · rw [hnone, TarState.yield, length_nil, Nat.add_zero]
  · have hcontent : entry.data = [] := by
      rw [ArchiveEntry.data]
      split_ifs with hmode
      · exact eq_nil_of_length_eq_zero (by
          have hnot : ¬ (entry.content.getD []).length > 0 := fun h => hdata ⟨hmode, h⟩
          omega)
      · rfl
    have hpadding : paddingOf [] = [] := rfl
    rw [if_neg hdata, hcontent, hpadding]
    exact ⟨state, rfl, by rw [append_nil, append_nil], rfl⟩

/-- **One round** adds the record of its entry, or refuses it. -/
theorem Written.addEntry (hmtime : 0 ≤ stamp.mtime) (h : Written state records)
    (entry : ArchiveEntry) :
    (∃ state', state.addEntry prefixed stamp entry = .ok state' ∧
        Written state' (records ++ [storedRecord stamp prefixed entry]) ∧
        ¬ EntryRefused prefixed entry ∧ stamp.mtime.toNat < 8 ^ 11) ∨
      (∃ thrown, state.addEntry prefixed stamp entry = .error thrown) ∧
        (EntryRefused prefixed entry ∨ 8 ^ 11 ≤ stamp.mtime.toNat) := by
  rw [TarState.addEntry]
  dsimp only
  rcases @buildEntryHeader_iff stamp prefixed hmtime entry with
    ⟨p, hheader, hfits, hpsize, hpheader, hroom, htime⟩ | ⟨⟨thrown, hthrown⟩, hlarge⟩
  · rw [ok_bind_eq hheader]
    have hrecord : (⟨p.header, entry.data⟩ : TarRecord) = storedRecord stamp prefixed entry := by
      rw [hpheader]
      rfl
    have hblock := isBlock_record hfits hpsize.symm
    rw [hrecord] at hblock
    obtain ⟨state', hok, hflatten, hcount⟩ :=
      addContent_eq entry (state.yield (headerBytes p) tarBlockSize)
    refine Or.inl ⟨state', hok, h.add hblock ?_ ?_, hroom, htime⟩
    · rw [hflatten, flatten_yield, append_assoc]
    · rw [hcount, length_append, length_append, length_headerBytes hfits, TarState.yield]
      exact Nat.add_assoc _ _ _
  · rw [hthrown]
    exact Or.inr ⟨⟨thrown, rfl⟩, hlarge⟩

/-- **The loop over the entries** adds a record for each, or refuses one. -/
theorem Written.addEntries (hmtime : 0 ≤ stamp.mtime) (h : Written state records)
    (entries : List ArchiveEntry) :
    (∃ state', entries.foldlM (TarState.addEntry prefixed stamp) state = .ok state' ∧
        Written state' (records ++ entries.map (storedRecord stamp prefixed)) ∧
        (∀ entry ∈ entries, ¬ EntryRefused prefixed entry) ∧
        (entries ≠ [] → stamp.mtime.toNat < 8 ^ 11)) ∨
      (∃ thrown, entries.foldlM (TarState.addEntry prefixed stamp) state = .error thrown) ∧
        ((∃ entry ∈ entries, EntryRefused prefixed entry) ∨
          entries ≠ [] ∧ 8 ^ 11 ≤ stamp.mtime.toNat) := by
  induction entries generalizing state records with
  | nil =>
    refine Or.inl ⟨state, rfl, ?_, forall_mem_nil _,
      fun hne => absurd rfl hne⟩
    rw [map_nil, append_nil]
    exact h
  | cons entry entries ih =>
    rcases @Written.addEntry state records stamp prefixed hmtime h entry with
      ⟨state', hok, hwritten, hroom, htime⟩ | ⟨⟨thrown, hthrown⟩, hlarge⟩
    · rw [foldlM_cons, ok_bind_eq hok, map_cons]
      rcases ih hwritten with ⟨last, hlast, hall, hrooms, -⟩ | ⟨hthrown, hlarge⟩
      · refine Or.inl ⟨last, hlast, ?_, forall_mem_cons.mpr ⟨hroom, hrooms⟩,
          fun _ => htime⟩
        rwa [append_assoc, singleton_append] at hall
      · refine Or.inr ⟨hthrown, ?_⟩
        rcases hlarge with ⟨other, hmem, hother⟩ | ⟨-, hlarge⟩
        · exact Or.inl ⟨other, mem_cons_of_mem _ hmem, hother⟩
        · omega
    · rw [foldlM_cons, hthrown]
      refine Or.inr ⟨⟨thrown, rfl⟩, ?_⟩
      rcases hlarge with hentry | hlarge
      · exact Or.inl ⟨entry, mem_cons_self, hentry⟩
      · exact Or.inr ⟨cons_ne_nil _ _, hlarge⟩

end

/-! ### The whole archive -/

section

variable {result : ArchiveResult} {opts : TarOptions}

def archiveRecords (result : ArchiveResult) (opts : TarOptions) (pathOf : Text → Bytes)
    (targetOf : Bytes → Bytes) : List TarRecord :=
  let stamp := stampOf result opts
  let prefixed := opts.prefixed.getD []
  ((result.commit.map Subtype.val).toList.map (globalRecord stamp)) ++
    ((if prefixed = [] then [] else [prefixRecord stamp (pathOf prefixed)]) ++
      result.entries.map fun entry => entryRecord stamp entry
        (pathOf (buildEntryPath entry.path prefixed entry.mode)) (targetOf entry.target))

/-- **What has no room**: an entry, the prefix directory, or the time of any header. -/
def TarRefused (result : ArchiveResult) (opts : TarOptions) : Prop :=
  (∃ entry ∈ result.entries, EntryRefused (opts.prefixed.getD []) entry) ∨
    (opts.prefixed.getD [] ≠ [] ∧ ¬ Splittable (encode (opts.prefixed.getD []))) ∨
      (8 ^ 11 ≤ (stampOf result opts).mtime.toNat ∧
        (result.commit ≠ none ∨ opts.prefixed.getD [] ≠ [] ∨ result.entries ≠ []))

theorem length_blocks_le {blocks : List (Bytes × TarRecord)} (h : ∀ b ∈ blocks, IsBlock b.1 b.2) :
    512 * blocks.length ≤ (blocks.flatMap Prod.fst).length := by
  induction blocks with
  | nil => exact Nat.le_refl _
  | cons block blocks ih =>
    obtain ⟨hfirst, hrest⟩ := forall_mem_cons.mp h
    have hblock := hfirst.length
    have hblocks := ih hrest
    rw [flatMap_cons, length_append, length_cons]
    omega

theorem Written.readTar_eq {state : TarState} {records : List TarRecord}
    (h : Written state records) {count : ℕ} (hcount : 512 ≤ count) :
    readTar (state.yielded.flatten ++ replicate count 0) = some (records, replicate count 0) := by
  obtain ⟨blocks, hflatten, rfl, hall⟩ := h.blocks
  have hlength := length_blocks_le hall
  have hzeros : replicate 512 (0 : UInt8) <+: replicate count 0 :=
    ⟨replicate (count - 512) 0, by
      rw [← replicate_add, Nat.add_sub_cancel' hcount]⟩
  rw [readTar, hflatten]
  refine till_eq (fun b hmem => (hall b hmem).reads) (fun b hmem => (hall b hmem).nonzero)
    hzeros ?_
  rw [length_append]
  omega

theorem Written.addPax {stamp : TarStamp} (hmtime : 0 ≤ stamp.mtime)
    (commit : Option { oid : Text // IsObjectId oid }) :
    (∃ state', (TarState.mk [] 0).addPax (commit.map Subtype.val) stamp = .ok state' ∧
        Written state' ((commit.map Subtype.val).toList.map (globalRecord stamp)) ∧
        (commit ≠ none → stamp.mtime.toNat < 8 ^ 11)) ∨
      (∃ thrown, (TarState.mk [] 0).addPax (commit.map Subtype.val) stamp = .error thrown) ∧
        commit ≠ none ∧ 8 ^ 11 ≤ stamp.mtime.toNat := by
  cases commit with
  | none => exact Or.inl ⟨_, rfl, written_empty, fun h => absurd rfl h⟩
  | some oid =>
    have hsome : some oid ≠ none := fun h => by cases h
    rcases addPax_iff hmtime written_empty oid.2 with
      ⟨state', hok, hwritten, htime⟩ | ⟨hthrown, hlarge⟩
    · exact Or.inl ⟨state', hok, hwritten, fun _ => htime⟩
    · exact Or.inr ⟨hthrown, hsome, hlarge⟩

theorem Written.addPrefix {stamp : TarStamp} {state : TarState} {records : List TarRecord}
    (hmtime : 0 ≤ stamp.mtime) (h : Written state records) (prefixed : Text) :
    (∃ state', state.addPrefix prefixed stamp = .ok state' ∧ Written state' (records ++
          (if prefixed = [] then [] else [prefixRecord stamp (storedPath prefixed)])) ∧
        (prefixed ≠ [] → Splittable (encode prefixed) ∧ stamp.mtime.toNat < 8 ^ 11)) ∨
      (∃ thrown, state.addPrefix prefixed stamp = .error thrown) ∧ prefixed ≠ [] ∧
        (¬ Splittable (encode prefixed) ∨ 8 ^ 11 ≤ stamp.mtime.toNat) := by
  by_cases hprefixed : prefixed = []
  · rw [if_pos hprefixed, append_nil]
    exact Or.inl ⟨state, if_neg (not_not_intro hprefixed), h, fun hne => absurd hprefixed hne⟩
  · rw [if_neg hprefixed]
    rcases addPrefix_iff hmtime h hprefixed with
      ⟨state', hok, hwritten, hroom⟩ | ⟨hthrown, hlarge⟩
    · exact Or.inl ⟨state', hok, hwritten, fun _ => hroom⟩
    · exact Or.inr ⟨hthrown, hprefixed, hlarge⟩

theorem tarArchive_end {state last : TarState} {records : List TarRecord}
    (h : Written state records)
    (hlast : last = state.yield (replicate (tarBlockSize * 2) 0) (tarBlockSize * 2)) :
    ∃ chunks count, (if last.byteCount % recordSize ≠ 0 then
        pure (last.yielded ++ [replicate (recordSize - last.byteCount % recordSize) 0])
      else pure last.yielded : Except Thrown (List Bytes)) = .ok chunks ∧ 1024 ≤ count ∧
      readTar chunks.flatten = some (records, replicate count 0) ∧
        chunks.flatten.length % 10240 = 0 := by
  have hblock : tarBlockSize = 512 := rfl
  have hrecord : recordSize = 10240 := rfl
  have hflatten : last.yielded.flatten =
      state.yielded.flatten ++ replicate (tarBlockSize * 2) 0 := by
    rw [hlast, flatten_yield]
  have hcount : last.byteCount = last.yielded.flatten.length := by
    rw [hflatten, length_append, length_replicate, ← h.byteCount, hlast, TarState.yield]
  by_cases hrest : last.byteCount % recordSize ≠ 0
  · have hflattenAll : (last.yielded ++
          [replicate (recordSize - last.byteCount % recordSize) 0]).flatten =
        state.yielded.flatten ++
          replicate (tarBlockSize * 2 + (recordSize - last.byteCount % recordSize)) 0 := by
      rw [flatten_append, hflatten, flatten_singleton, append_assoc, ← replicate_add]
    rw [if_pos hrest]
    refine ⟨_, tarBlockSize * 2 + (recordSize - last.byteCount % recordSize), rfl,
      Nat.le_add_right _ _, ?_, ?_⟩
    · rw [hflattenAll]
      exact h.readTar_eq (by omega)
    · rw [flatten_append, flatten_singleton, length_append, length_replicate, ← hcount, hrecord]
      omega
  · rw [if_neg hrest]
    refine ⟨_, tarBlockSize * 2, rfl, Nat.le_refl _, ?_, ?_⟩
    · rw [hflatten]
      exact h.readTar_eq (by omega)
    · rw [← hcount, ← hrecord]
      exact not_not.mp hrest

/-- **Every archive** is read as its fields have it, or refused for something that has no room. -/
theorem tarArchive_iff (hmtime : 0 ≤ (stampOf result opts).mtime) :
    (∃ chunks count, tarArchive result opts = .ok chunks ∧ 1024 ≤ count ∧ readTar chunks.flatten =
          some (archiveRecords result opts storedPath cut, replicate count 0) ∧
        chunks.flatten.length % 10240 = 0 ∧ ¬ TarRefused result opts) ∨
      (∃ thrown, tarArchive result opts = .error thrown) ∧ TarRefused result opts := by
  unfold tarArchive
  dsimp only
  rcases Written.addPax hmtime result.commit with
    ⟨first, hfirst, hwrittenFirst, htimeFirst⟩ | ⟨⟨thrown, hthrown⟩, hcommit, hlarge⟩
  · rw [ok_bind_eq hfirst]
    rcases Written.addPrefix hmtime hwrittenFirst (opts.prefixed.getD []) with
      ⟨second, hsecond, hwrittenSecond, hroomSecond⟩ | ⟨⟨thrown, hthrown⟩, hprefixed, hlarge⟩
    · rw [ok_bind_eq hsecond]
      rcases @Written.addEntries _ _ _ (opts.prefixed.getD []) hmtime hwrittenSecond
          result.entries with
        ⟨third, hthird, hwrittenThird, hrooms, htimes⟩ | ⟨⟨thrown, hthrown⟩, hlarge⟩
      · rw [ok_bind_eq hthird]
        obtain ⟨chunks, count, hchunks, hcount, hread, hlength⟩ := tarArchive_end hwrittenThird rfl
        refine Or.inl ⟨chunks, count, hchunks, hcount, ?_, hlength, ?_⟩
        · rw [hread, append_assoc]
          rfl
        rintro (⟨entry, hmem, hentry⟩ | ⟨hprefixed, hsplit⟩ | ⟨hlarge, hsome⟩)
        · exact hrooms entry hmem hentry
        · exact hsplit (hroomSecond hprefixed).1
        · rcases hsome with hcommit | hprefixed | hentries
          · exact absurd (htimeFirst hcommit) (Nat.not_lt.mpr hlarge)
          · exact absurd (hroomSecond hprefixed).2 (Nat.not_lt.mpr hlarge)
          · exact absurd (htimes hentries) (Nat.not_lt.mpr hlarge)
      · rw [hthrown]
        refine Or.inr ⟨⟨thrown, rfl⟩, ?_⟩
        rcases hlarge with hentry | ⟨hne, hlarge⟩
        · exact Or.inl hentry
        · exact Or.inr (Or.inr ⟨hlarge, Or.inr (Or.inr hne)⟩)
    · rw [hthrown]
      refine Or.inr ⟨⟨thrown, rfl⟩, Or.inr ?_⟩
      rcases hlarge with hsplit | hlarge
      · exact Or.inl ⟨hprefixed, hsplit⟩
      · exact Or.inr ⟨hlarge, Or.inr (Or.inl hprefixed)⟩
  · rw [hthrown]
    exact Or.inr ⟨⟨thrown, rfl⟩, Or.inr (Or.inr ⟨hlarge, Or.inl hcommit⟩)⟩

theorem archiveRecords_exact (hpaths : ∀ entry ∈ result.entries, '\x00' ∉ entry.path)
    (htargets : ∀ entry ∈ result.entries, (0 : UInt8) ∉ entry.target)
    (hprefixed : '\x00' ∉ opts.prefixed.getD []) (hroom : ¬ TarRefused result opts) :
    archiveRecords result opts storedPath cut = archiveRecords result opts encode id := by
  have hprefixText : (if opts.prefixed.getD [] = [] then []
      else [prefixRecord (stampOf result opts) (storedPath (opts.prefixed.getD []))]) =
      if opts.prefixed.getD [] = [] then []
      else [prefixRecord (stampOf result opts) (encode (opts.prefixed.getD []))] := by
    by_cases hempty : opts.prefixed.getD [] = []
    · rw [if_pos hempty, if_pos hempty]
    · rw [if_neg hempty, if_neg hempty, storedPath_eq (not_mem_encode rfl (by decide) hprefixed)
        (not_not.mp fun hsplit => hroom (Or.inr (Or.inl ⟨hempty, hsplit⟩)))]
  unfold archiveRecords
  dsimp only
  rw [hprefixText]
  refine congrArg (_ ++ ·) (congrArg (_ ++ ·) (map_congr_left fun entry hmem => ?_))
  have hpath : '\x00' ∉ buildEntryPath entry.path (opts.prefixed.getD []) entry.mode := by
    intro hnul
    rcases mem_append.mp hnul with hnul | hnul
    · exact hprefixed hnul
    · rcases mem_append.mp hnul with hnul | hnul
      · exact hpaths entry hmem hnul
      · split_ifs at hnul
        · exact absurd (mem_singleton.mp hnul) (by decide)
        · exact absurd hnul not_mem_nil
  have hsplit : Splittable
      (encode (buildEntryPath entry.path (opts.prefixed.getD []) entry.mode)) :=
    not_not.mp fun hsplit => hroom (Or.inl ⟨entry, hmem, Or.inl hsplit⟩)
  rw [storedPath_eq (not_mem_encode rfl (by decide) hpath) hsplit,
    cut_eq_self (htargets entry hmem)]
  rfl

end

/-- **The writer of archives** refuses just what has no room. What it writes is read back: the
global record, the prefix directory, and the entries in order. -/
theorem tarArchive_exact (result : ArchiveResult) (opts : TarOptions)
    (hmtime : 0 ≤ (stampOf result opts).mtime)
    (hpaths : ∀ entry ∈ result.entries, '\x00' ∉ entry.path)
    (htargets : ∀ entry ∈ result.entries, (0 : UInt8) ∉ entry.target)
    (hprefixed : '\x00' ∉ opts.prefixed.getD []) :
    ((∃ thrown, tarArchive result opts = .error thrown) ↔ TarRefused result opts) ∧
      (∀ chunks, tarArchive result opts = .ok chunks →
        (∃ count, 1024 ≤ count ∧ readTar chunks.flatten =
          some (archiveRecords result opts encode id, replicate count 0)) ∧
        chunks.flatten.length % 10240 = 0) ∧
      ∀ oid, result.commit = some oid → paxRecord oid.val =
        Nat.toDigits 10 (paxRecord oid.val).length ++ ' ' :: paxCommentPayload oid.val := by
  refine ⟨?_, ?_, fun oid _ => paxRecord_eq oid.2⟩
  · rcases tarArchive_iff hmtime with ⟨chunks, count, hok, -, -, -, hroom⟩ | ⟨hthrown, hrefused⟩
    · refine ⟨fun ⟨thrown, hthrown⟩ => ?_, fun hrefused => absurd hrefused hroom⟩
      rw [hok] at hthrown
      cases hthrown
    · exact ⟨fun _ => hrefused, fun _ => hthrown⟩
  · intro chunks hchunks
    rcases tarArchive_iff hmtime with
      ⟨others, count, hok, hcount, hread, hlength, hroom⟩ | ⟨⟨thrown, hthrown⟩, -⟩
    · rw [hok] at hchunks
      cases hchunks
      rw [archiveRecords_exact hpaths htargets hprefixed hroom] at hread
      exact ⟨⟨count, hcount, hread⟩, hlength⟩
    · rw [hthrown] at hchunks
      cases hchunks

/-- A commit, a prefix, a file and a link. -/
def sampleArchive : ArchiveResult :=
  ⟨some ⟨replicate 40 'a', isObjectId_replicate rfl⟩, some 7,
    [⟨['f'], .regular, some [1, 2, 3]⟩, ⟨['l'], .symlink, some [0x66]⟩]⟩

def sampleOptions : TarOptions := ⟨some ['p', '/'], none, none, none, none⟩

theorem tarArchive_exact_sample :
    ((∃ thrown, tarArchive sampleArchive sampleOptions = .error thrown) ↔
        TarRefused sampleArchive sampleOptions) ∧
      (∀ chunks, tarArchive sampleArchive sampleOptions = .ok chunks →
        (∃ count, 1024 ≤ count ∧ readTar chunks.flatten =
          some (archiveRecords sampleArchive sampleOptions encode id, replicate count 0)) ∧
        chunks.flatten.length % 10240 = 0) ∧
      ∀ oid, sampleArchive.commit = some oid → paxRecord oid.val =
        Nat.toDigits 10 (paxRecord oid.val).length ++ ' ' :: paxCommentPayload oid.val :=
  tarArchive_exact sampleArchive sampleOptions (by decide) (by decide) (by decide) (by decide)

/-! ### What is refused, and what is not -/

def HasSplit (pathBytes : Bytes) : Prop :=
  pathBytes.length ≤ 100 ∨ ∃ before name, pathBytes = before ++ slashByte :: name ∧
    before.length ≤ 155 ∧ 1 ≤ name.length ∧ name.length ≤ 100

/-- A name of 100 bytes, under the prefix `/`. -/
def longName : ArchiveResult := ⟨none, none, [⟨replicate 100 'a', .regular, none⟩]⟩

def rootOptions : TarOptions := ⟨some ['/'], none, none, none, none⟩

def nulOptions : TarOptions := ⟨some ['\x00'], none, none, none, none⟩

def lateOptions : TarOptions := ⟨none, some (8 ^ 11), none, none, none⟩

/-- The slash in front of a path never divides it, a prefix is cut at a NUL, and a time without a
header is not refused. -/
theorem tarArchive_limits :
    ((∃ thrown, tarArchive longName rootOptions = .error thrown) ∧ HasSplit (encode ['/']) ∧
        ∀ entry ∈ longName.entries, HasSplit (encode (buildEntryPath entry.path ['/'] entry.mode)) ∧
            entry.target.length ≤ 100 ∧ entry.data.length < 8 ^ 11) ∧
      (∃ chunks, tarArchive ⟨none, none, []⟩ nulOptions = .ok chunks ∧ ∀ rest,
        readTar chunks.flatten ≠
          some (archiveRecords ⟨none, none, []⟩ nulOptions encode id, rest)) ∧
      (8 ^ 11 ≤ (stampOf ⟨none, none, []⟩ lateOptions).mtime ∧
        ∃ chunks, tarArchive ⟨none, none, []⟩ lateOptions = .ok chunks) := by
  have hpath : encode (buildEntryPath (replicate 100 'a') ['/'] .regular) =
      slashByte :: replicate 100 0x61 := by decide
  refine ⟨⟨?_, Or.inl (by decide), ?_⟩, ?_, by decide, ?_⟩
  · rcases @tarArchive_iff longName rootOptions (by decide) with
      ⟨chunks, count, -, -, -, -, hroom⟩ | ⟨hthrown, -⟩
    · refine absurd (Or.inl ⟨_, mem_singleton.mpr rfl, Or.inl ?_⟩) hroom
      rintro (hshort | ⟨before, name, hshape, hpos, -, -, -⟩)
      · exact absurd hshort (by decide)
      obtain ⟨first, before, rfl⟩ := exists_cons_of_length_pos hpos
      have hrest : replicate 100 (0x61 : UInt8) = before ++ slashByte :: name :=
        (cons.inj (hpath.symm.trans hshape)).2
      have hslash : slashByte ∈ replicate 100 (0x61 : UInt8) := by
        rw [hrest]
        exact mem_append_right _ mem_cons_self
      exact absurd (eq_of_mem_replicate hslash) (by decide)
    · exact hthrown
  · intro entry hmem
    obtain rfl := mem_singleton.mp hmem
    exact ⟨Or.inr ⟨[], replicate 100 0x61, hpath, by decide, by decide, by decide⟩,
      by decide, by decide⟩
  · rcases @tarArchive_iff ⟨none, none, []⟩ nulOptions (by decide) with
      ⟨chunks, count, hok, -, hread, -, -⟩ | ⟨-, hrefused⟩
    · refine ⟨chunks, hok, fun rest hsame => ?_⟩
      rw [hread] at hsame
      exact absurd (Prod.mk.inj (Option.some.inj hsame)).1 (by decide)
    · rcases hrefused with ⟨entry, hmem, -⟩ | ⟨-, hsplit⟩ | ⟨hlarge, -⟩
      · exact absurd hmem not_mem_nil
      · exact absurd (Or.inl (by decide)) hsplit
      · exact absurd hlarge (by decide)
  · rcases @tarArchive_iff ⟨none, none, []⟩ lateOptions (by decide) with
      ⟨chunks, count, hok, -, -, -, -⟩ | ⟨-, hrefused⟩
    · exact ⟨chunks, hok⟩
    rcases hrefused with ⟨entry, hmem, -⟩ | ⟨hne, -⟩ | ⟨-, hcommit | hne | hne⟩
    · exact absurd hmem not_mem_nil
    · exact absurd rfl hne
    · exact absurd rfl hcommit
    · exact absurd rfl hne
    · exact absurd rfl hne

end Tsgit.Archive
