import Tsgit.BitGroups
import Tsgit.IndexFile

/-!
# Index Files Round-Trip

What the writer of the index makes of a list of entries, and that the parser reads it back.
-/

namespace Tsgit.IndexFile

open BitGroups List Objects Tsgit.Path

/-! ### Flags -/

variable {nameLength : ℕ}

variable {flags : IndexEntryFlags}

/-- The four groups of the word of flags. -/
theorem flagsRaw_eq (hstage : flags.stage ≤ 3) (extended : Bool)
    (hname : nameLength < 2 ^ 12) : flagsRaw flags extended nameLength =
      (if flags.assumeValid then 0x8000 else 0) + (if extended then 0x4000 else 0) +
        flags.stage * 0x1000 + nameLength := by
  have hgroups : ∀ (assumeValid extended : Bool) (stage : ℕ), stage ≤ 3 →
      (if assumeValid then 0x8000 else 0) ||| (if extended then 0x4000 else 0) |||
          stage <<< 12 =
        ((if assumeValid then 8 else 0) + (if extended then 4 else 0) + stage) <<< 12 := by
    decide
  have hjoin := hgroups flags.assumeValid extended flags.stage hstage
  rw [flagsRaw, hjoin, ← Nat.shiftLeft_add_eq_or_of_lt hname, Nat.shiftLeft_eq]
  cases flags.assumeValid with
  | false =>
    cases extended with
    | false => simp only [Bool.false_eq_true, if_false]; omega
    | true => simp only [Bool.false_eq_true, if_false, if_true]; omega
  | true =>
    cases extended with
    | false => simp only [Bool.false_eq_true, if_false, if_true]; omega
    | true => simp only [if_true]; omega

theorem flagsRaw_lt (hstage : flags.stage ≤ 3) (extended : Bool)
    (hname : nameLength < 2 ^ 12) :
    flagsRaw flags extended nameLength < 2 ^ 16 := by
  rw [flagsRaw_eq hstage extended hname]
  split_ifs
  all_goals omega

theorem flagsRaw_bits (hstage : flags.stage ≤ 3) (extended : Bool)
    (hname : nameLength < 2 ^ 12) :
    (flagsRaw flags extended nameLength &&& 0x8000 ≠ 0 ↔ flags.assumeValid = true) ∧
      (flagsRaw flags extended nameLength &&& 0x4000 ≠ 0 ↔ extended = true) ∧
      flagsRaw flags extended nameLength >>> 12 &&& 0x3 = flags.stage ∧
      flagsRaw flags extended nameLength &&& 0xfff = nameLength := by
  obtain ⟨raw, hraw⟩ : ∃ raw, raw = flagsRaw flags extended nameLength := ⟨_, rfl⟩
  have hsum := flagsRaw_eq hstage extended hname
  rw [← hraw] at hsum ⊢
  have hassume : raw &&& 0x8000 ≠ 0 ↔ raw / 2 ^ 15 % 2 = 1 := and_two_pow_ne_zero_iff raw 15
  have hextended : raw &&& 0x4000 ≠ 0 ↔ raw / 2 ^ 14 % 2 = 1 := and_two_pow_ne_zero_iff raw 14
  have hmask : raw &&& 0xfff = raw % 2 ^ 12 := Nat.and_two_pow_sub_one_eq_mod raw 12
  have hshift : raw >>> 12 &&& 0x3 = raw / 2 ^ 12 % 2 ^ 2 := by
    rw [Nat.shiftRight_eq_div_pow]
    exact Nat.and_two_pow_sub_one_eq_mod _ 2
  rw [hassume, hextended, hmask, hshift]
  obtain ⟨assumeValid, hvalid⟩ : ∃ assumeValid, assumeValid = flags.assumeValid := ⟨_, rfl⟩
  rw [← hvalid] at hsum ⊢
  clear hassume hextended hmask hshift hraw
  cases assumeValid with
  | false =>
    cases extended with
    | false =>
      simp only [Bool.false_eq_true, if_false, iff_false] at hsum ⊢
      omega
    | true =>
      simp only [Bool.false_eq_true, if_false, if_true, iff_false, iff_true] at hsum ⊢
      omega
  | true =>
    cases extended with
    | false =>
      simp only [Bool.false_eq_true, if_false, if_true, iff_false, iff_true] at hsum ⊢
      omega
    | true =>
      simp only [if_true, iff_true] at hsum ⊢
      omega

theorem extRaw_lt (flags : IndexEntryFlags) : extRaw flags < 2 ^ 16 := by
  unfold extRaw
  split_ifs
  all_goals decide

theorem parseFlags_written (hstage : flags.stage ≤ 3)
    (hname : nameLength < 2 ^ 12) :
    parseFlags (flagsRaw flags flags.extended nameLength)
      (if flags.extended then extRaw flags else 0) = flags := by
  obtain ⟨hassume, -, hshift, -⟩ := flagsRaw_bits hstage flags.extended hname
  have hwords : ∀ skip intent : Bool,
      (decide ((if (skip || intent) = true then (if skip then 0x4000 else 0) |||
          (if intent then 0x2000 else 0) else 0) &&& 0x4000 ≠ 0) = skip) ∧
        decide ((if (skip || intent) = true then (if skip then 0x4000 else 0) |||
          (if intent then 0x2000 else 0) else 0) &&& 0x2000 ≠ 0) = intent := by
    decide
  obtain ⟨hskip, hintent⟩ := hwords flags.skipWorktree flags.intentToAdd
  unfold parseFlags
  have hvalid : decide (flagsRaw flags flags.extended nameLength &&& 0x8000 ≠ 0) =
      flags.assumeValid := by
    exact Bool.eq_iff_iff.mpr (decide_eq_true_iff.trans hassume)
  rw [hshift, hvalid]
  exact congrArg₂ (IndexEntryFlags.mk _ _) hskip hintent

/-! ### Layout -/

/-- The ten words in front of an entry. -/
def statWords (entry : IndexEntry) : List ℕ :=
  [entry.ctimeSeconds, entry.ctimeNanoseconds, entry.mtimeSeconds, entry.mtimeNanoseconds,
    entry.dev, entry.ino, octalValue entry.mode.text, entry.uid, entry.gid, entry.fileSize]

def statBytes (entry : IndexEntry) : Bytes := (statWords entry).flatMap uint32Bytes

def nameLengthOf (entry : IndexEntry) : ℕ := min (pathBytesOf entry.toIndexPath).length 0xfff

def flagBytes (entry : IndexEntry) : Bytes :=
  uint16Bytes (flagsRaw entry.flags entry.flags.extended (nameLengthOf entry)) ++
    if entry.flags.extended then uint16Bytes (extRaw entry.flags) else []

def paddingOf (digestLength : ℕ) (entry : IndexEntry) : ℕ :=
  (entryLength digestLength entry + 8) / 8 * 8 - entryLength digestLength entry

def entryBytes (digestLength : ℕ) (entry : IndexEntry) (idBytes : Bytes) : Bytes :=
  statBytes entry ++ (idBytes ++ (flagBytes entry ++ pathBytesOf entry.toIndexPath)) ++
    replicate (paddingOf digestLength entry) 0

def extensionBytes (ext : IndexExtension) : Bytes :=
  encode ext.signature ++ (uint32Bytes ext.data.length ++ ext.data)

theorem length_statBytes (entry : IndexEntry) : (statBytes entry).length = 40 := rfl

theorem length_flagBytes (entry : IndexEntry) :
    (flagBytes entry).length = 2 + if entry.flags.extended then 2 else 0 := by
  rw [flagBytes, length_append]
  split
  · rfl
  · rfl

theorem length_entryBytes {digestLength : ℕ} {entry : IndexEntry} {idBytes : Bytes}
    (hid : idBytes.length = digestLength) :
    (entryBytes digestLength entry idBytes).length =
      (entryLength digestLength entry + 8) / 8 * 8 := by
  have hpadding : entryLength digestLength entry ≤ (entryLength digestLength entry + 8) / 8 * 8 := by
    omega
  have hsum : entryLength digestLength entry = 40 + (digestLength +
      ((2 + if entry.flags.extended then 2 else 0) + (pathBytesOf entry.toIndexPath).length)) := by
    unfold entryLength entryHeaderSize statFieldsSize flagsWordSize
    omega
  rw [entryBytes, length_append, length_append, length_append, length_append,
    length_replicate, length_statBytes, length_flagBytes, hid, ← hsum, paddingOf,
    Nat.add_sub_cancel' hpadding]

theorem clearLowBits_of_lt {n : ℕ} (h : n < 2 ^ 31) : clearLowBits n = (n / 8 * 8 : ℕ) := by
  have hword : n % 2 ^ 32 = n := Nat.mod_eq_of_lt (by omega)
  have hlow : n / 8 * 8 < 2 ^ 31 := by omega
  unfold clearLowBits
  rw [hword]
  exact if_pos hlow

/-! ### The writer -/

section

variable {written idBytes : Bytes} {entry : IndexEntry} {digestLength offset : ℕ}

theorem appends_writeStatFields (hoffset : offset = written.length) :
    Appends (fun buf => writeStatFields buf offset entry) written (statBytes entry) := by
  unfold writeStatFields
  refine (appends_setUint32 hoffset).bind <| (appends_setUint32 ?_).bind <|
    (appends_setUint32 ?_).bind <| (appends_setUint32 ?_).bind <| (appends_setUint32 ?_).bind <|
    (appends_setUint32 ?_).bind <| (appends_setUint32 ?_).bind <| (appends_setUint32 ?_).bind <|
    (appends_setUint32 ?_).bind (appends_setUint32 ?_)
  all_goals
    simp only [length_append, length_uint32Bytes]
    omega

theorem appends_writeExtendedFlags (hoffset : offset = written.length) :
    Appends (fun buf => writeExtendedFlags buf offset entry.flags entry.flags.extended) written
      (if entry.flags.extended then uint16Bytes (extRaw entry.flags) else []) := by
  unfold writeExtendedFlags
  split
  · exact appends_setUint16 hoffset
  · exact appends_ok written

theorem appends_writeEntry (hid : hexToBytes entry.id = .ok idBytes)
    (hlength : idBytes.length = digestLength) (hoffset : offset = written.length) :
    Appends (fun buf => writeEntry buf offset entry (pathBytesOf entry.toIndexPath)
      entry.flags.extended digestLength) written (entryBytes digestLength entry idBytes) := by
  have hbytes : entryBytes digestLength entry idBytes = (statBytes entry ++ (idBytes ++
      (uint16Bytes (flagsRaw entry.flags entry.flags.extended (nameLengthOf entry)) ++
        ((if entry.flags.extended then uint16Bytes (extRaw entry.flags) else []) ++
          pathBytesOf entry.toIndexPath)))) ++ replicate (paddingOf digestLength entry) 0 := by
    rw [entryBytes, flagBytes, append_assoc (uint16Bytes _)]
  rw [hbytes]
  refine Appends.zeros ?_ _
  unfold writeEntry
  rw [hid]
  refine (appends_writeStatFields hoffset).bind <| (appends_setBytes ?_).bind <|
    (appends_setUint16 ?_).bind <| (appends_writeExtendedFlags ?_).bind (appends_setBytes ?_)
  all_goals
    simp only [length_append, length_statBytes, hlength, length_uint16Bytes, flagsOffset,
      entryHeaderSize, statFieldsSize, flagsWordSize]
  · omega
  · omega
  · omega
  · split
    · rw [length_uint16Bytes]
      omega
    · rw [length_nil]
      omega

end

def idBytesOf (entry : IndexEntry) : Bytes :=
  match hexToBytes entry.id with
  | .ok bytes => bytes
  | .error _ => []

/-- **What an entry must be** for the parser to take it: a path that is not refused, an id of the
width of the file, and numbers that fit their fields. -/
structure IndexEntry.Fits (digestLength : ℕ) (entry : IndexEntry) : Prop where
  wellFormed : entry.toIndexPath.WellFormed
  accepted : rejectionOf entry.path entry.mode entry.pathBytes = none
  isObjectId : IsObjectId entry.id
  length_id : entry.id.length = 2 * digestLength
  words_lt : ∀ word ∈ statWords entry, word < 2 ^ 32
  stage_le : entry.flags.stage ≤ 3
  length_lt : entryLength digestLength entry + 8 < 2 ^ 31

theorem IndexEntry.Fits.idBytes {digestLength : ℕ} {entry : IndexEntry}
    (h : entry.Fits digestLength) : hexToBytes entry.id = .ok (idBytesOf entry) ∧
      (idBytesOf entry).length = digestLength ∧ bytesToHex (idBytesOf entry) = entry.id := by
  obtain ⟨bytes, hbytes, hhex⟩ := h.isObjectId.toBytes
  have hlength := congrArg List.length hhex
  rw [length_bytesToHex, h.length_id] at hlength
  have hid : idBytesOf entry = bytes := by rw [idBytesOf, hbytes]
  rw [hid]
  exact ⟨hbytes, by omega, hhex⟩

/-- The entries of a file, each behind the last. -/
def entriesBytes (digestLength : ℕ) (entries : List IndexEntry) : Bytes :=
  entries.flatMap fun entry => entryBytes digestLength entry (idBytesOf entry)

def extensionsBytes (extensions : List IndexExtension) : Bytes := extensions.flatMap extensionBytes

theorem entriesBytes_cons (digestLength : ℕ) (entry : IndexEntry) (rest : List IndexEntry) :
    entriesBytes digestLength (entry :: rest) =
      entryBytes digestLength entry (idBytesOf entry) ++ entriesBytes digestLength rest :=
  flatMap_cons

theorem extensionsBytes_cons (ext : IndexExtension) (rest : List IndexExtension) :
    extensionsBytes (ext :: rest) = extensionBytes ext ++ extensionsBytes rest :=
  flatMap_cons

section

variable {entries : List IndexEntry} {extensions : List IndexExtension} {digestLength : ℕ}

theorem paddedLength_metaOf {entry : IndexEntry} (h : entry.Fits digestLength) :
    (metaOf digestLength entry).paddedLength =
      ((entryBytes digestLength entry (idBytesOf entry)).length : ℕ) := by
  have hlength : ((entryLength digestLength entry : ℤ) + 8) =
      (entryLength digestLength entry + 8 : ℕ) := rfl
  rw [length_entryBytes h.idBytes.2.1]
  exact clearLowBits_of_lt h.length_lt

theorem writeEntries_eq (h : ∀ entry ∈ entries, entry.Fits digestLength) {written : Bytes}
    {offset room : ℕ} (hoffset : offset = written.length)
    (hroom : (entriesBytes digestLength entries).length ≤ room) :
    writeEntries digestLength (entries.map (metaOf digestLength)) offset
        (written ++ replicate room 0) =
      .ok ((offset + (entriesBytes digestLength entries).length : ℕ),
        (written ++ entriesBytes digestLength entries) ++
          replicate (room - (entriesBytes digestLength entries).length) 0) := by
  induction entries generalizing written offset room with
  | nil =>
    rw [entriesBytes, flatMap_nil, append_nil, length_nil, Nat.add_zero, Nat.sub_zero]
    rfl
  | cons entry rest ih =>
    have hentry := h entry mem_cons_self
    obtain ⟨hid, hwidth, -⟩ := hentry.idBytes
    rw [entriesBytes_cons, length_append] at hroom ⊢
    have hstart : offsetFrom (offset : ℤ) = .ok offset := if_neg (by omega)
    have hnext : (offset : ℤ) + (metaOf digestLength entry).paddedLength =
        (offset + (entryBytes digestLength entry (idBytesOf entry)).length : ℕ) := by
      rw [paddedLength_metaOf hentry]
      rfl
    rw [map_cons, writeEntries]
    refine (ok_bind_eq hstart).trans ?_
    refine (ok_bind_eq (appends_writeEntry hid hwidth hoffset room (by omega))).trans ?_
    rw [hnext, ih (forall_mem_cons.mp h).2
      (by rw [length_append]; omega) (by omega), append_assoc written, Nat.sub_sub,
      Nat.add_assoc]

theorem writeExtensions_eq
    (h : ∀ ext ∈ extensions, (encode ext.signature).length = 4) {written : Bytes}
    {offset room : ℕ} (hoffset : offset = written.length)
    (hroom : (extensionsBytes extensions).length ≤ room) :
    writeExtensions extensions offset (written ++ replicate room 0) =
      .ok ((written ++ extensionsBytes extensions) ++
        replicate (room - (extensionsBytes extensions).length) 0) := by
  induction extensions generalizing written offset room with
  | nil =>
    rw [extensionsBytes, flatMap_nil, append_nil, length_nil, Nat.sub_zero]
    rfl
  | cons ext rest ih =>
    have hsignature := h ext mem_cons_self
    have hlength : (extensionBytes ext).length = 8 + ext.data.length := by
      rw [extensionBytes, length_append, length_append, hsignature,
        length_uint32Bytes, ← Nat.add_assoc]
    rw [extensionsBytes_cons, length_append] at hroom ⊢
    have hstart : offsetFrom (offset : ℤ) = .ok offset := if_neg (by omega)
    have happends : Appends (fun buf => setBytes buf (encode ext.signature) offset >>= fun buf =>
        setUint32 buf (offset + 4) ext.data.length >>= fun buf =>
          setBytes buf ext.data (offset + 8)) written (extensionBytes ext) := by
      refine (appends_setBytes hoffset).bind <| (appends_setUint32 ?_).bind (appends_setBytes ?_)
      all_goals
        simp only [length_append, length_uint32Bytes, hsignature]
        omega
    have hnext : (offset : ℤ) + (8 + ext.data.length : ℕ) =
        (offset + (extensionBytes ext).length : ℕ) := by
      rw [hlength]
      rfl
    have hwrite := happends room (by omega)
    rw [writeExtensions]
    refine (ok_bind_eq hstart).trans ?_
    obtain ⟨signed, hsigned, hwrite⟩ := bind_eq_ok.mp hwrite
    obtain ⟨sized, hsized, hwrite⟩ := bind_eq_ok.mp hwrite
    refine (ok_bind_eq hsigned).trans <| (ok_bind_eq hsized).trans <|
      (ok_bind_eq hwrite).trans ?_
    rw [hnext, ih (forall_mem_cons.mp h).2
      (by rw [length_append]; omega) (by omega), append_assoc written, Nat.sub_sub]

/-- The twelve bytes in front of the entries. -/
def headerBytes (version count : ℕ) : Bytes :=
  uint32Bytes dircSignature ++ (uint32Bytes version ++ uint32Bytes count)

theorem appends_header (version count : ℕ) :
    Appends (fun buf => setUint32 buf 0 dircSignature >>= fun buf =>
      setUint32 buf 4 version >>= fun buf => setUint32 buf 8 count) []
      (headerBytes version count) :=
  (appends_setUint32 rfl).bind ((appends_setUint32 rfl).bind (appends_setUint32 rfl))

def versionOf (entries : List IndexEntry) : ℕ := if entries.any (·.flags.extended) then 3 else 2

theorem sum_paddedLength (h : ∀ entry ∈ entries, entry.Fits digestLength) :
    ((entries.map (metaOf digestLength)).map (·.paddedLength)).sum =
      ((entriesBytes digestLength entries).length : ℕ) := by
  induction entries with
  | nil => rfl
  | cons entry rest ih =>
    rw [map_cons, map_cons, sum_cons, ih (forall_mem_cons.mp h).2,
      paddedLength_metaOf (h entry mem_cons_self), entriesBytes_cons, length_append]
    rfl

theorem length_extensionsBytes (h : ∀ ext ∈ extensions, (encode ext.signature).length = 4) :
    (extensions.map fun ext => 8 + ext.data.length).sum = (extensionsBytes extensions).length := by
  induction extensions with
  | nil => rfl
  | cons ext rest ih =>
    rw [map_cons, sum_cons, ih (forall_mem_cons.mp h).2,
      extensionsBytes_cons, length_append, extensionBytes, length_append,
      length_append, h ext mem_cons_self, length_uint32Bytes, ← Nat.add_assoc]

/-- **What the writer writes.** -/
theorem serializeIndex_eq {index : GitIndex}
    (hentries : ∀ entry ∈ index.entries, entry.Fits digestLength)
    (hextensions : ∀ ext ∈ index.extensions, (encode ext.signature).length = 4) :
    serializeIndex index digestLength = .ok
      (headerBytes (versionOf (sortEntries index.entries)) (sortEntries index.entries).length ++
        (entriesBytes digestLength (sortEntries index.entries) ++
          extensionsBytes index.extensions)) := by
  have hsorted : ∀ entry ∈ sortEntries index.entries, entry.Fits digestLength := fun entry hmem =>
    hentries entry (mem_mergeSort.mp hmem)
  have hany : ((sortEntries index.entries).map (metaOf digestLength)).any (·.extended) =
      (sortEntries index.entries).any (·.flags.extended) := any_map
  obtain ⟨body, hbody⟩ : ∃ body, body = entriesBytes digestLength (sortEntries index.entries) :=
    ⟨_, rfl⟩
  obtain ⟨tail, htail⟩ : ∃ tail, tail = extensionsBytes index.extensions := ⟨_, rfl⟩
  have hlength : offsetFrom (12 + (body.length : ℤ) + (tail.length : ℕ)) =
      .ok (12 + body.length + tail.length) := if_neg (by omega)
  obtain ⟨header, hheader⟩ : ∃ header, header = headerBytes
    (versionOf (sortEntries index.entries)) (sortEntries index.entries).length := ⟨_, rfl⟩
  have hwidth : header.length = 12 := by rw [hheader]; rfl
  have hwrite := appends_header (versionOf (sortEntries index.entries))
    (sortEntries index.entries).length (12 + body.length + tail.length)
    (by rw [← hheader, hwidth]; omega)
  obtain ⟨signed, hsigned, hwrite⟩ := bind_eq_ok.mp hwrite
  obtain ⟨versioned, hversioned, hwrite⟩ := bind_eq_ok.mp hwrite
  have hroom : 12 + body.length + tail.length - 12 = body.length + tail.length := by omega
  rw [← hheader, hwidth, hroom, nil_append] at hwrite
  have hentriesRun := @writeEntries_eq _ digestLength hsorted header 12 (body.length + tail.length)
    hwidth.symm (by rw [← hbody]; omega)
  rw [← hbody, Nat.add_sub_cancel_left] at hentriesRun
  have hextensionsRun := @writeExtensions_eq _ hextensions (header ++ body) (12 + body.length)
    tail.length (by rw [length_append, hwidth]) (by rw [← htail])
  rw [← htail, Nat.sub_self, replicate_zero, append_nil] at hextensionsRun
  unfold serializeIndex
  dsimp only
  rw [hany, sum_paddedLength hsorted, length_extensionsBytes hextensions, ← hbody, ← htail,
    ← hheader, ← append_assoc]
  exact (ok_bind_eq hlength).trans <| (ok_bind_eq hsigned).trans <|
    (ok_bind_eq hversioned).trans <| (ok_bind_eq hwrite).trans <|
    (ok_bind_eq hentriesRun).trans hextensionsRun

end

/-! ### The path -/

theorem IndexPath.WellFormed.decode_eq {entry : IndexPath} (h : entry.WellFormed) :
    decodePreservingBom (pathBytesOf entry) = entry.path := by
  cases hraw : entry.pathBytes with
  | none =>
    rw [pathBytesOf, hraw, Option.getD_none]
    exact decodePreservingBom_encode entry.path
  | some raw =>
    rw [pathBytesOf, hraw, Option.getD_some]
    exact (h raw hraw).1.symm

theorem IndexPath.WellFormed.lossyPathBytes_eq {entry : IndexPath} (h : entry.WellFormed) :
    lossyPathBytes entry.path (pathBytesOf entry) = entry.pathBytes := by
  unfold lossyPathBytes
  cases hraw : entry.pathBytes with
  | none =>
    rw [pathBytesOf, hraw, Option.getD_none]
    exact if_pos (decide_eq_true (.inr rfl))
  | some raw =>
    rw [pathBytesOf, hraw, Option.getD_some, (h raw hraw).2]
    exact if_neg Bool.false_ne_true

section

variable {bytes : Bytes} {entry : IndexEntry} {digestLength offset : ℕ}

theorem IndexEntry.Fits.nul_not_mem (h : entry.Fits digestLength) :
    0 ∉ pathBytesOf entry.toIndexPath := by
  intro hmem
  have hdecoded := @mem_decodeFrom_of_ascii _ none 0 (fun _ hnone => by cases hnone)
    (show (0 : UInt8).toNat ≤ 0x7f by decide) hmem
  have htext : decodeFrom none (pathBytesOf entry.toIndexPath) = entry.path :=
    h.wellFormed.decode_eq
  rw [htext] at hdecoded
  have hunsafe : unsafeReason entry.path = some "NUL byte rejected" := if_pos hdecoded
  have haccepted := h.accepted
  rw [rejectionOf, hunsafe] at haccepted
  cases haccepted

theorem IndexEntry.Fits.path_ne_nil (h : entry.Fits digestLength) : entry.path ≠ [] := by
  have haccepted := h.accepted
  unfold rejectionOf at haccepted
  split at haccepted
  · cases haccepted
  · intro hempty
    have hverified := Option.map_eq_none_iff.mp haccepted
    rw [hempty] at hverified
    exact (verifyPath_components hverified [] mem_cons_self).1 rfl

theorem parsePath_written (h : entry.Fits digestLength) {start : ℕ}
    (hholds : Holds bytes start (pathBytesOf entry.toIndexPath ++ [0])) (entryStart : ℕ) :
    parsePath bytes entryStart start (nameLengthOf entry) entry.mode =
      .ok (entry.toIndexPath, start + (pathBytesOf entry.toIndexPath).length) := by
  obtain ⟨raw, hraw⟩ : ∃ raw, raw = pathBytesOf entry.toIndexPath := ⟨_, rfl⟩
  have hfind : findNul bytes start = some (start + raw.length) := by
    refine indexOf_eq_some (Nat.le_add_right _ _) ?_ fun i hle hlt => ?_
    · rw [hraw, hholds _ (by rw [length_append]; exact Nat.lt_succ_self _)]
      exact getElem?_concat_length
    · obtain ⟨k, rfl⟩ := Nat.exists_eq_add_of_le hle
      rw [← hraw] at hholds
      rw [hholds k (by rw [length_append]; omega), getElem?_append_left (by omega)]
      intro hnul
      exact h.nul_not_mem (hraw ▸ mem_of_getElem? hnul)
  have hend : (if nameLengthOf entry = 0xfff then start + raw.length
      else start + nameLengthOf entry) = start + raw.length := by
    have hlength : nameLengthOf entry = min raw.length 0xfff := by rw [hraw]; rfl
    rw [hlength]
    split
    · rfl
    · omega
  have hread : subarray bytes start (start + raw.length) = raw := by
    rw [← hraw] at hholds
    exact hholds.left.subarray_eq
  have hdecode : decodePreservingBom raw = entry.path := hraw ▸ h.wellFormed.decode_eq
  have hlossy : lossyPathBytes entry.path raw = entry.pathBytes :=
    hraw ▸ h.wellFormed.lossyPathBytes_eq
  have hvalidate : validateIndexPath entry.path entryStart entry.mode entry.pathBytes = .ok () := by
    rw [validateIndexPath, h.accepted]
  have hfrom : filePathFrom entry.path = .ok entry.path := if_neg h.path_ne_nil
  rw [← hraw]
  unfold parsePath
  rw [hfind]
  dsimp only
  rw [hend, hread, hdecode, hlossy]
  exact (ok_bind_eq hvalidate).trans ((ok_bind_eq hfrom).trans rfl)

/-! ### An entry -/

theorem statWords_getUint32 (h : entry.Fits digestLength)
    (hholds : Holds bytes offset (statBytes entry)) {k word : ℕ}
    (hword : (statWords entry)[k]? = some word) :
    getUint32 bytes (offset + k * 4) = .ok word := by
  have hwidth : ∀ word ∈ statWords entry, (uint32Bytes word).length = 4 := fun _ _ => rfl
  have hlt : k < 10 := (List.getElem?_eq_some_iff.mp hword).1
  refine (hholds.trans (holds_flatMap hwidth hword) ?_).getUint32
    (h.words_lt word (mem_of_getElem? hword))
  rw [length_uint32Bytes, length_statBytes]
  omega

theorem normalizeFileMode_octalText (mode : FileMode) :
    normalizeFileMode (octalText (octalValue mode.text)) = .ok mode := by
  cases mode with
  | regular => decide
  | executable => decide
  | symlink => decide
  | directory => decide
  | gitlink => decide

theorem paddingOf_pos (digestLength : ℕ) (entry : IndexEntry) :
    ∃ padding, paddingOf digestLength entry = padding + 1 := by
  refine ⟨paddingOf digestLength entry - 1, ?_⟩
  unfold paddingOf
  omega

theorem decodeEntryFlags_written (h : entry.Fits digestLength) {version : ℕ}
    (hversion : entry.flags.extended = true → version = 3)
    (hholds : Holds bytes (offset + flagsOffset digestLength) (flagBytes entry))
    (hroom : offset + (entryBytes digestLength entry (idBytesOf entry)).length + digestLength ≤
      bytes.length) :
    getUint16 bytes (offset + flagsOffset digestLength) =
        .ok (flagsRaw entry.flags entry.flags.extended (nameLengthOf entry)) ∧
      decodeEntryFlags bytes offset version digestLength =
        .ok (entry.flags, if entry.flags.extended then 2 else 0) := by
  have hname : nameLengthOf entry < 2 ^ 12 := by
    unfold nameLengthOf
    omega
  obtain ⟨raw, hraw⟩ : ∃ raw, raw =
    flagsRaw entry.flags entry.flags.extended (nameLengthOf entry) := ⟨_, rfl⟩
  have hread : getUint16 bytes (offset + flagsOffset digestLength) = .ok raw := by
    refine Holds.getUint16 ?_ (hraw ▸ flagsRaw_lt h.stage_le _ hname)
    rw [hraw]
    exact hholds.left
  have hextended : decide (raw &&& 0x4000 ≠ 0) = entry.flags.extended :=
    Bool.eq_iff_iff.mpr (decide_eq_true_iff.trans
      (hraw ▸ (flagsRaw_bits h.stage_le entry.flags.extended hname).2.1))
  have hwords : readExtendedFlags bytes (offset + entryHeaderSize digestLength)
      entry.flags.extended = .ok (if entry.flags.extended then extRaw entry.flags else 0) := by
    unfold readExtendedFlags
    split
    · next htrue =>
      have hsecond := hholds.right
      rw [if_pos htrue, length_uint16Bytes] at hsecond
      exact hsecond.getUint16 (extRaw_lt entry.flags)
    · rfl
  have hlength : entryHeaderSize digestLength + (if entry.flags.extended then 2 else 0) ≤
      (entryBytes digestLength entry (idBytesOf entry)).length := by
    rw [length_entryBytes h.idBytes.2.1]
    unfold entryLength
    omega
  rw [← hraw]
  refine ⟨hread, ?_⟩
  unfold decodeEntryFlags
  refine (ok_bind_eq hread).trans ?_
  dsimp only
  rw [hextended, if_neg fun hboth => hboth.2 (hversion hboth.1), if_neg (by omega)]
  refine (ok_bind_eq hwords).trans ?_
  rw [hraw, parseFlags_written h.stage_le hname]
  rfl

/-- **An entry that was written is read.** -/
theorem parseEntry_written (h : entry.Fits digestLength) {version : ℕ}
    (hversion : entry.flags.extended = true → version = 3)
    (hholds : Holds bytes offset (entryBytes digestLength entry (idBytesOf entry)))
    (hroom : offset + (entryBytes digestLength entry (idBytesOf entry)).length + digestLength ≤
      bytes.length) (entries : List IndexEntry) :
    parseEntry bytes version digestLength (offset, entries) =
      .ok (offset + (entryBytes digestLength entry (idBytesOf entry)).length,
        entries ++ [entry]) := by
  obtain ⟨-, hwidth, hhex⟩ := h.idBytes
  have hstat : Holds bytes offset (statBytes entry) := hholds.left.left
  have hid : bytesToHex (subarray bytes (offset + 40) (offset + 40 + digestLength)) =
      entry.id := by
    have hheld : Holds bytes (offset + 40) (idBytesOf entry) := hholds.left.right.left
    rw [← hwidth, hheld.subarray_eq, hhex]
  have hflags : Holds bytes (offset + flagsOffset digestLength) (flagBytes entry) := by
    have hheld := hholds.left.right.right.left
    rwa [length_statBytes, hwidth, Nat.add_assoc] at hheld
  have hpath : Holds bytes (offset + entryHeaderSize digestLength +
      if entry.flags.extended then 2 else 0) (pathBytesOf entry.toIndexPath ++ [0]) := by
    obtain ⟨padding, hpadding⟩ := paddingOf_pos digestLength entry
    have hsplit : entryBytes digestLength entry (idBytesOf entry) = statBytes entry ++
        (idBytesOf entry ++ (flagBytes entry ++ ((pathBytesOf entry.toIndexPath ++ [0]) ++
          replicate padding 0))) := by
      rw [entryBytes, hpadding, replicate_succ]
      simp only [append_assoc, singleton_append]
    rw [hsplit] at hholds
    have hheld := hholds.right.right.right.left
    have hplace : offset + (statBytes entry).length + (idBytesOf entry).length +
        (flagBytes entry).length = offset + entryHeaderSize digestLength +
          if entry.flags.extended then 2 else 0 := by
      rw [length_statBytes, hwidth, length_flagBytes]
      unfold entryHeaderSize statFieldsSize flagsWordSize
      omega
    rwa [hplace] at hheld
  obtain ⟨hread, hdecode⟩ := decodeEntryFlags_written h hversion hflags hroom
  have hname : nameLengthOf entry < 2 ^ 12 := by
    unfold nameLengthOf
    omega
  have hmask := (flagsRaw_bits h.stage_le entry.flags.extended hname).2.2.2
  have hmode : (normalizeFileMode (octalText (octalValue entry.mode.text))).mapError Thrown.refusal =
      .ok entry.mode := by rw [normalizeFileMode_octalText]; rfl
  have hparsed := parsePath_written h hpath offset
  have hlength : (entryBytes digestLength entry (idBytesOf entry)).length =
      (entryLength digestLength entry + 8) / 8 * 8 := length_entryBytes hwidth
  have hheader : entryHeaderSize digestLength ≤ entryLength digestLength entry := by
    unfold entryLength
    omega
  have hmeasured : offset + entryHeaderSize digestLength +
      (if entry.flags.extended then 2 else 0) + (pathBytesOf entry.toIndexPath).length + 1 -
        offset + 7 = entryLength digestLength entry + 8 := by
    unfold entryLength
    omega
  have hnext : offsetFrom (offset + clearLowBits (offset + entryHeaderSize digestLength +
      (if entry.flags.extended then 2 else 0) + (pathBytesOf entry.toIndexPath).length + 1 -
        offset + 7)) =
      .ok (offset + (entryBytes digestLength entry (idBytesOf entry)).length) := by
    rw [hmeasured, clearLowBits_of_lt h.length_lt, hlength]
    exact if_neg (by omega)
  unfold parseEntry
  dsimp only
  rw [if_neg (by omega)]
  refine (ok_bind_eq (statWords_getUint32 h hstat (k := 0) rfl)).trans <|
    (ok_bind_eq (statWords_getUint32 h hstat (k := 1) rfl)).trans <|
    (ok_bind_eq (statWords_getUint32 h hstat (k := 2) rfl)).trans <|
    (ok_bind_eq (statWords_getUint32 h hstat (k := 3) rfl)).trans <|
    (ok_bind_eq (statWords_getUint32 h hstat (k := 4) rfl)).trans <|
    (ok_bind_eq (statWords_getUint32 h hstat (k := 5) rfl)).trans <|
    (ok_bind_eq (statWords_getUint32 h hstat (k := 6) rfl)).trans <|
    (ok_bind_eq (statWords_getUint32 h hstat (k := 7) rfl)).trans <|
    (ok_bind_eq (statWords_getUint32 h hstat (k := 8) rfl)).trans <|
    (ok_bind_eq (statWords_getUint32 h hstat (k := 9) rfl)).trans <|
    (ok_bind_eq hread).trans <| (ok_bind_eq hdecode).trans <| (ok_bind_eq hmode).trans ?_
  dsimp only
  rw [hmask]
  refine (ok_bind_eq hparsed).trans <| (ok_bind_eq hnext).trans ?_
  rw [hid]
  rfl

end

/-! ### A file -/

section

variable {bytes : Bytes} {entries : List IndexEntry} {extensions : List IndexExtension}
  {digestLength offset : ℕ}

/-- **The loop over the entries** comes to the end of them. -/
theorem parseEntries_written (h : ∀ entry ∈ entries, entry.Fits digestLength) {version : ℕ}
    (hversion : ∀ entry ∈ entries, entry.flags.extended = true → version = 3)
    (hholds : Holds bytes offset (entriesBytes digestLength entries))
    (hroom : offset + (entriesBytes digestLength entries).length + digestLength ≤ bytes.length) :
    forRange entries.length (fun _ => parseEntry bytes version digestLength) (offset, []) =
      .ok (offset + (entriesBytes digestLength entries).length, entries) := by
  have hturn : ∀ i < entries.length, ∀ state : ℕ × List IndexEntry,
      state = (offset + (entriesBytes digestLength (entries.take i)).length, entries.take i) →
      ∃ state', parseEntry bytes version digestLength state = .ok state' ∧
        state' = (offset + (entriesBytes digestLength (entries.take (i + 1))).length,
          entries.take (i + 1)) := by
    rintro i hi - rfl
    have hentry := getElem_mem hi
    have hsplit : entriesBytes digestLength entries = entriesBytes digestLength (entries.take i) ++
          (entryBytes digestLength entries[i] (idBytesOf entries[i]) ++
            entriesBytes digestLength (entries.drop (i + 1))) := by
      rw [← entriesBytes_cons, getElem_cons_drop, entriesBytes, entriesBytes, entriesBytes,
        ← flatMap_append, take_append_drop]
    have hnext : entriesBytes digestLength (entries.take (i + 1)) =
        entriesBytes digestLength (entries.take i) ++
          entryBytes digestLength entries[i] (idBytesOf entries[i]) := by
      rw [take_add_one, getElem?_eq_getElem hi, entriesBytes, flatMap_append]
      rw [Option.toList_some, flatMap_singleton]
      rfl
    rw [hsplit] at hholds hroom
    rw [length_append, length_append] at hroom
    have hread := parseEntry_written (h _ hentry) (hversion _ hentry) hholds.right.left
      (by omega) (entries.take i)
    refine ⟨_, hread, ?_⟩
    rw [hnext, length_append, Nat.add_assoc, take_add_one, getElem?_eq_getElem hi]
    rfl
  obtain ⟨final, hrun, hfinal⟩ := forRange_spec (fun i state =>
    state = (offset + (entriesBytes digestLength (entries.take i)).length, entries.take i))
    rfl hturn
  rw [take_length] at hfinal
  exact hrun.trans (congrArg _ hfinal)

/-- **What an extension must be** for the parser to keep it: a signature of four bytes that is not
in lower case, and data whose length fits its field. -/
structure IndexExtension.Fits (ext : IndexExtension) : Prop where
  length_signature : (encode ext.signature).length = 4
  no_mark : ext.signature.head? ≠ some '\uFEFF'
  optional : ∀ c, ext.signature.head? = some c → ¬ (97 ≤ c.toNat ∧ c.toNat ≤ 122)
  length_data : ext.data.length < 2 ^ 32

theorem length_extensionBytes {ext : IndexExtension} (h : ext.Fits) :
    (extensionBytes ext).length = 8 + ext.data.length := by
  rw [extensionBytes, length_append, length_append, h.length_signature,
    length_uint32Bytes, ← Nat.add_assoc]

/-- **The loop over the extensions** keeps each of them. -/
theorem extensionsFrom_written (h : ∀ ext ∈ extensions, ext.Fits) {extensionEnd room : ℕ}
    (hholds : Holds bytes offset (extensionsBytes extensions))
    (hend : extensionEnd = offset + (extensionsBytes extensions).length)
    (hroom : (extensionsBytes extensions).length ≤ room) (acc : List IndexExtension) :
    extensionsFrom bytes extensionEnd room offset acc = .ok (acc ++ extensions) := by
  induction extensions generalizing offset room acc with
  | nil =>
    have hdone : ¬ offset + 8 ≤ extensionEnd := by
      rw [hend, extensionsBytes, flatMap_nil, length_nil]
      omega
    rw [append_nil]
    cases room with
    | zero => rfl
    | succ room => rw [extensionsFrom, if_neg hdone]
  | cons ext rest ih =>
    have hext := h ext mem_cons_self
    have hlength := length_extensionBytes hext
    rw [extensionsBytes_cons] at hholds
    rw [extensionsBytes_cons, length_append, hlength] at hend hroom
    cases room with
    | zero => omega
    | succ room =>
      have hsignature : decode (subarray bytes offset (offset + 4)) = ext.signature := by
        have hheld := hholds.left.left.subarray_eq
        rw [hext.length_signature] at hheld
        rw [hheld, decode_encode hext.no_mark]
      have hbehind := hholds.left.right
      rw [hext.length_signature] at hbehind
      have hsize := hbehind.left.getUint32 hext.length_data
      have hdata : subarray bytes (offset + 8) (offset + 8 + ext.data.length) = ext.data :=
        hbehind.right.subarray_eq
      have hoptional : (ext.signature.head?.any fun c => 97 ≤ c.toNat ∧ c.toNat ≤ 122) =
          false := by
        cases hhead : ext.signature.head? with
        | none => rfl
        | some c => exact decide_eq_false (hext.optional c hhead)
      have hrest := hholds.right
      rw [hlength, ← Nat.add_assoc] at hrest
      rw [extensionsFrom, if_pos (by omega), hsignature]
      refine (ok_bind_eq hsize).trans ?_
      rw [if_neg (by omega), hoptional, if_neg Bool.false_ne_true, hdata]
      refine (ih (forall_mem_cons.mp h).2 hrest (by omega) (by omega) _).trans ?_
      rw [append_assoc, singleton_append]

theorem length_mul_le (h : ∀ entry ∈ entries, entry.Fits digestLength) :
    entries.length * entryHeaderSize digestLength ≤ (entriesBytes digestLength entries).length := by
  induction entries with
  | nil =>
    rw [length_nil, Nat.zero_mul]
    exact Nat.zero_le _
  | cons entry rest ih =>
    have hrest := ih (forall_mem_cons.mp h).2
    have hlength := @length_entryBytes digestLength entry _
      (h entry mem_cons_self).idBytes.2.1
    have hheader : entryHeaderSize digestLength ≤ entryLength digestLength entry := by
      unfold entryLength
      omega
    rw [length_cons, Nat.succ_mul, entriesBytes_cons, length_append, hlength]
    omega

/-- **A file that was written is read.** -/
theorem parseIndex_written (hentries : ∀ entry ∈ entries, entry.Fits digestLength)
    (hcount : entries.length < 2 ^ 32) (hextensions : ∀ ext ∈ extensions, ext.Fits)
    {trailer : Bytes} (htrailer : trailer.length = digestLength) :
    parseIndex ((headerBytes (versionOf entries) entries.length ++
        (entriesBytes digestLength entries ++ extensionsBytes extensions)) ++ trailer)
        digestLength =
      .ok ⟨versionOf entries, entries, extensions, trailer⟩ := by
  obtain ⟨version, hversion⟩ : ∃ version, version = versionOf entries := ⟨_, rfl⟩
  obtain ⟨count, hlength⟩ : ∃ count, count = entries.length := ⟨_, rfl⟩
  obtain ⟨bytes, hbytes⟩ : ∃ bytes, bytes = (headerBytes version count ++
    (entriesBytes digestLength entries ++ extensionsBytes extensions)) ++ trailer := ⟨_, rfl⟩
  have hthree : ∀ entry ∈ entries, entry.flags.extended = true → version = 3 :=
    fun entry hmem hextended => by
      rw [hversion, versionOf, if_pos (any_eq_true.mpr ⟨entry, hmem, hextended⟩)]
  have hknown : version = 2 ∨ version = 3 := by
    rw [hversion, versionOf]
    split
    · exact .inr rfl
    · exact .inl rfl
  have hsize : bytes.length = 12 + ((entriesBytes digestLength entries).length +
      (extensionsBytes extensions).length) + digestLength := by
    rw [hbytes, length_append, length_append, length_append, htrailer]
    rfl
  have hself : Holds bytes 0 ((headerBytes version count ++
      (entriesBytes digestLength entries ++ extensionsBytes extensions)) ++ trailer) := by
    rw [← hbytes]
    exact holds_self bytes
  have hheader : Holds bytes 0 (headerBytes version count) := hself.left.left
  have hbody : Holds bytes 12 (entriesBytes digestLength entries) := hself.left.right.left
  have htail : Holds bytes (12 + (entriesBytes digestLength entries).length)
      (extensionsBytes extensions) := hself.left.right.right
  have hsignature : getUint32 bytes 0 = .ok dircSignature := hheader.left.getUint32 (by decide)
  have hversionRead : getUint32 bytes 4 = .ok version :=
    hheader.right.left.getUint32 (by omega)
  have hcountRead : getUint32 bytes 8 = .ok count :=
    hheader.right.right.getUint32 (hlength ▸ hcount)
  have hroom := length_mul_le hentries
  rw [← hlength] at hroom
  have hentriesRun := parseEntries_written hentries hthree hbody (by omega)
  rw [← hlength] at hentriesRun
  have hextensionsRun : parseExtensions bytes (12 + (entriesBytes digestLength entries).length)
      digestLength = .ok extensions := by
    refine (extensionsFrom_written hextensions htail ?_ ?_ []).trans ?_
    · omega
    · omega
    · rw [nil_append]
  have htrailerRead : subarray bytes (bytes.length - digestLength) bytes.length = trailer := by
    have hplace : bytes.length - digestLength = (headerBytes version count ++
        (entriesBytes digestLength entries ++ extensionsBytes extensions)).length := by
      rw [hbytes, length_append, htrailer, Nat.add_sub_cancel]
    have hend : bytes.length = bytes.length - digestLength + trailer.length := by omega
    have hheld := hself.right
    rw [Nat.zero_add, ← hplace] at hheld
    have hread := hheld.subarray_eq
    rwa [← hend] at hread
  rw [← hversion, ← hlength, ← hbytes]
  unfold parseIndex
  rw [if_neg (by unfold indexHeaderSize; omega)]
  refine (ok_bind_eq hsignature).trans ?_
  rw [if_neg (not_not_intro rfl)]
  refine (ok_bind_eq hversionRead).trans ?_
  rw [if_neg (by omega)]
  refine (ok_bind_eq hcountRead).trans ?_
  dsimp only
  rw [if_neg (by unfold indexHeaderSize; omega)]
  refine (ok_bind_eq hentriesRun).trans <| (ok_bind_eq hextensionsRun).trans ?_
  rw [htrailerRead]
  rfl

end

/-! ### Order -/

section

variable {α κ : Type} {l l' : List α}

/-- **A merge sort is stable**: it keeps the order of members that are all in order. -/
theorem filter_mergeSort {le : α → α → Bool} (htrans : ∀ a b c, le a b → le b c → le a c)
    (htotal : ∀ a b, le a b || le b a) {p : α → Bool}
    (hp : ∀ a ∈ l, ∀ b ∈ l, p a → p b → le a b) : (l.mergeSort le).filter p = l.filter p := by
  have hordered : (l.filter p).Pairwise fun a b => le a b := by
    refine pairwise_of_forall_mem_list fun a ha b hb => ?_
    obtain ⟨hal, hpa⟩ := mem_filter.mp ha
    obtain ⟨hbl, hpb⟩ := mem_filter.mp hb
    exact hp a hal b hbl hpa hpb
  have hsublist := sublist_mergeSort htrans htotal hordered filter_sublist
  have hfiltered := hsublist.filter p
  rw [filter_eq_self.mpr fun a ha => (mem_filter.mp ha).2] at hfiltered
  exact (hfiltered.eq_of_length ((mergeSort_perm l le).filter p).length_eq.symm).symm

theorem pairwise_same_iff [DecidableEq κ] {key : α → κ} {r : α → α → Prop} :
    l.Pairwise (fun a b => key a = key b → r a b) ↔
      ∀ k, (l.filter fun a => key a = k).Pairwise r := by
  constructor
  · intro h k
    refine pairwise_filter.mpr (h.imp fun {a b} hab ha hb => ?_)
    exact hab ((of_decide_eq_true ha).trans (of_decide_eq_true hb).symm)
  · intro h
    refine pairwise_iff_forall_sublist.mpr fun {a b} hsub hkey => ?_
    have hpair := pairwise_iff_forall_sublist.mp (pairwise_filter.mp (h (key b))) hsub
    exact hpair (decide_eq_true hkey) (decide_eq_true rfl)

end

/-- The key of the order of the file. -/
def pathKey (entry : IndexEntry) : Bytes := pathBytesOf entry.toIndexPath

def Before (a b : IndexEntry) : Prop :=
  compareBytes (pathKey a) (pathKey b) < 0 ∨ pathKey a = pathKey b ∧ a.flags.stage < b.flags.stage

section

variable {entries : List IndexEntry}

/-- The test of the sort. -/
def pathLe (entries : List IndexEntry) (a b : IndexEntry) : Bool :=
  pathComparatorFor (entries.map (·.toIndexPath)) a.toIndexPath b.toIndexPath ≤ 0

theorem sortEntries_eq (entries : List IndexEntry) :
    sortEntries entries = entries.mergeSort (pathLe entries) := rfl

theorem pathLe_trans (a b c : IndexEntry) (hab : pathLe entries a b) (hbc : pathLe entries b c) :
    pathLe entries a c :=
  decide_eq_true ((pathComparatorFor_preorder _).1 _ _ _ (of_decide_eq_true hab)
    (of_decide_eq_true hbc))

theorem pathLe_total (a b : IndexEntry) : pathLe entries a b || pathLe entries b a := by
  rw [Bool.or_eq_true, pathLe, pathLe, decide_eq_true_iff, decide_eq_true_iff]
  exact (pathComparatorFor_preorder _).2 _ _

theorem pathLe_iff (hvalid : ∀ entry ∈ entries, entry.toIndexPath.WellFormed) {a b : IndexEntry}
    (ha : a ∈ entries) (hb : b ∈ entries) :
    pathLe entries a b ↔ compareBytes (pathKey a) (pathKey b) ≤ 0 := by
  have hpaths : ∀ path ∈ entries.map (·.toIndexPath), path.WellFormed := by
    intro path hmem
    obtain ⟨entry, hentry, rfl⟩ := mem_map.mp hmem
    exact hvalid entry hentry
  rw [pathLe, decide_eq_true_iff]
  exact pathComparatorFor_nonpos_iff hpaths (mem_map_of_mem ha) (mem_map_of_mem hb)

theorem sortEntries_perm (entries : List IndexEntry) : (sortEntries entries).Perm entries :=
  mergeSort_perm entries _

theorem sortEntries_sorted (hvalid : ∀ entry ∈ entries, entry.toIndexPath.WellFormed) :
    (sortEntries entries).Pairwise fun a b => compareBytes (pathKey a) (pathKey b) ≤ 0 := by
  have hsorted := pairwise_mergeSort (@pathLe_trans entries) pathLe_total entries
  rw [← sortEntries_eq] at hsorted
  refine hsorted.imp_of_mem fun {a b} ha hb hle => ?_
  exact (pathLe_iff hvalid ((sortEntries_perm entries).mem_iff.mp ha)
    ((sortEntries_perm entries).mem_iff.mp hb)).mp hle

/-- **The entries of one path stay in the order in which they were given.** -/
theorem sortEntries_filter (hvalid : ∀ entry ∈ entries, entry.toIndexPath.WellFormed)
    (path : Bytes) : (sortEntries entries).filter (pathKey · = path) =
      entries.filter (pathKey · = path) := by
  rw [sortEntries_eq]
  refine filter_mergeSort (@pathLe_trans entries) pathLe_total fun a ha b hb hpa hpb => ?_
  refine (pathLe_iff hvalid ha hb).mpr (compareBytes_eq_zero_iff.mpr ?_).le
  exact (of_decide_eq_true hpa).trans (of_decide_eq_true hpb).symm

theorem sortEntries_before_iff (hvalid : ∀ entry ∈ entries, entry.toIndexPath.WellFormed) :
    (sortEntries entries).Pairwise Before ↔
      entries.Pairwise fun a b => pathKey a = pathKey b → a.flags.stage < b.flags.stage := by
  have hsame : (sortEntries entries).Pairwise Before ↔ (sortEntries entries).Pairwise
      fun a b => pathKey a = pathKey b → a.flags.stage < b.flags.stage := by
    constructor
    · intro h
      refine h.imp fun {a b} hbefore hkey => ?_
      rcases hbefore with hlt | ⟨-, hstage⟩
      · have hzero := compareBytes_eq_zero_iff.mpr hkey
        omega
      · exact hstage
    · intro h
      refine (h.and (sortEntries_sorted hvalid)).imp fun {a b} hboth => ?_
      rcases lt_or_eq_of_le hboth.2 with hlt | heq
      · exact .inl hlt
      · have hkey := compareBytes_eq_zero_iff.mp heq
        exact .inr ⟨hkey, hboth.1 hkey⟩
  rw [hsame, pairwise_same_iff, pairwise_same_iff]
  exact forall_congr' fun path => by rw [sortEntries_filter hvalid path]

end

/-! ### The round trip -/

/-- An index that fits the format. -/
structure GitIndex.Fits (digestLength : ℕ) (index : GitIndex) : Prop where
  entries : ∀ entry ∈ index.entries, entry.Fits digestLength
  length_entries : index.entries.length < 2 ^ 32
  extensions : ∀ ext ∈ index.extensions, ext.Fits

theorem versionOf_eq_three_iff {entries : List IndexEntry} :
    versionOf entries = 3 ↔ ∃ entry ∈ entries, entry.flags.extended = true := by
  rw [versionOf, ← any_eq_true]
  split
  · next hany => exact iff_of_true rfl hany
  · next hnone => exact iff_of_false (by decide) hnone

/-- **An index that was written is read**: its entries by the bytes of their paths, those of one
path in the order given. -/
theorem index_roundTrips (index : GitIndex) (digestLength : ℕ) (trailer : Bytes)
    (hfits : index.Fits digestLength) (htrailer : trailer.length = digestLength) :
    ∃ bytes parsed, serializeIndex index digestLength = .ok bytes ∧
      parseIndex (bytes ++ trailer) digestLength = .ok parsed ∧
      parsed.entries.Perm index.entries ∧
      parsed.entries.Pairwise (fun a b => compareBytes (pathKey a) (pathKey b) ≤ 0) ∧
      (∀ path, parsed.entries.filter (pathKey · = path) = index.entries.filter (pathKey · = path)) ∧
      (parsed.entries.Pairwise Before ↔
        index.entries.Pairwise fun a b => pathKey a = pathKey b → a.flags.stage < b.flags.stage) ∧
      parsed.extensions = index.extensions ∧ parsed.trailerSha = trailer ∧
      (parsed.version = 2 ∨ parsed.version = 3) ∧
      (parsed.version = 3 ↔ ∃ entry ∈ index.entries, entry.flags.extended = true) := by
  have hperm := sortEntries_perm index.entries
  have hvalid : ∀ entry ∈ index.entries, entry.toIndexPath.WellFormed := fun entry hmem =>
    (hfits.entries entry hmem).wellFormed
  have hwritten := serializeIndex_eq hfits.entries fun ext hmem =>
    (hfits.extensions ext hmem).length_signature
  have hread := parseIndex_written
    (fun entry hmem => hfits.entries entry (hperm.mem_iff.mp hmem))
    (hperm.length_eq ▸ hfits.length_entries) hfits.extensions htrailer
  refine ⟨_, _, hwritten, hread, hperm, sortEntries_sorted hvalid, sortEntries_filter hvalid,
    sortEntries_before_iff hvalid, rfl, rfl, ?_, ?_⟩
  · dsimp only [versionOf]
    split
    · exact .inr rfl
    · exact .inl rfl
  · dsimp only
    rw [versionOf_eq_three_iff]
    exact exists_congr fun entry => and_congr_left' hperm.mem_iff

/-! ### Two entries -/

/-- An entry without stat fields. -/
def bareEntry (path : IndexPath) (flags : IndexEntryFlags) : IndexEntry where
  toIndexPath := path
  ctimeSeconds := 0
  ctimeNanoseconds := 0
  mtimeSeconds := 0
  mtimeNanoseconds := 0
  dev := 0
  ino := 0
  mode := .regular
  uid := 0
  gid := 0
  fileSize := 0
  id := replicate 40 '0'
  flags := flags

/-- A path that is not UTF-8, and one that is skipped in the working tree. -/
def mixedIndex : GitIndex where
  version := 2
  entries :=
    [bareEntry ⟨[replacementCharacter], some [0xff]⟩ ⟨false, 0, false, false⟩,
      bareEntry ⟨['a'], none⟩ ⟨true, 0, true, false⟩]
  extensions := [⟨['T', 'R', 'E', 'E'], [1, 2, 3]⟩]
  trailerSha := []

theorem mixedIndex_fits : mixedIndex.Fits 20 where
  entries := by
    intro entry hmem
    have hid : IsObjectId (replicate 40 '0') := isObjectId_replicate rfl
    have hraw : ∀ raw : Bytes, some [0xff] = some raw → raw = [0xff] := by
      intro raw hraw
      exact (Option.some.inj hraw).symm
    rcases mem_cons.mp hmem with rfl | hrest
    · refine ⟨fun raw hsome => ?_, by decide, hid, rfl, by decide, by decide, by decide⟩
      rw [hraw raw hsome]
      exact ⟨by decide, by decide⟩
    · obtain rfl := mem_singleton.mp hrest
      exact ⟨fun raw hnone => (by cases hnone), by decide, hid, rfl, by decide, by decide, by decide⟩
  length_entries := by decide
  extensions := by
    intro ext hmem
    obtain rfl := mem_singleton.mp hmem
    exact ⟨by decide, by decide, fun c hc => by cases hc; decide, by decide⟩

theorem index_roundTrips_mixed : ∃ bytes parsed, serializeIndex mixedIndex 20 = .ok bytes ∧
    parseIndex (bytes ++ replicate 20 7) 20 = .ok parsed ∧ parsed.version = 3 := by
  obtain ⟨bytes, parsed, hwritten, hread, -, -, -, -, -, -, -, hversion⟩ :=
    index_roundTrips mixedIndex 20 (replicate 20 7) mixedIndex_fits rfl
  exact ⟨bytes, parsed, hwritten, hread, hversion.mpr ⟨_, mem_cons_of_mem _
    mem_cons_self, rfl⟩⟩

/-- Two stages of one path, the later one first. -/
def stagesIndex : GitIndex where
  version := 2
  entries := [bareEntry ⟨['a'], none⟩ ⟨false, 2, false, false⟩,
    bareEntry ⟨['a'], none⟩ ⟨false, 1, false, false⟩]
  extensions := []
  trailerSha := []

theorem stagesIndex_fits : ∀ entry ∈ stagesIndex.entries, entry.Fits 20 := by
  intro entry hmem
  have hid : IsObjectId (replicate 40 '0') := isObjectId_replicate rfl
  rcases mem_cons.mp hmem with rfl | hrest
  · exact ⟨fun raw hnone => (by cases hnone), by decide, hid, rfl, by decide, by decide, by decide⟩
  · obtain rfl := mem_singleton.mp hrest
    exact ⟨fun raw hnone => (by cases hnone), by decide, hid, rfl, by decide, by decide, by decide⟩

/-- An entry whose path the parser refuses. -/
def dotgitIndex : GitIndex where
  version := 2
  entries := [bareEntry ⟨['.', 'g', 'i', 't'], none⟩ ⟨false, 0, false, false⟩]
  extensions := []
  trailerSha := []

/-- **The stages of a path are not sorted**, and paths are refused that the writer takes. -/
theorem index_stagesOutOfOrder :
    (∃ bytes parsed, serializeIndex stagesIndex 20 = .ok bytes ∧
      parseIndex (bytes ++ replicate 20 7) 20 = .ok parsed ∧
      stagesIndex.entries.Pairwise
        (fun a b => (pathKey a, a.flags.stage) ≠ (pathKey b, b.flags.stage)) ∧
      ¬ parsed.entries.Pairwise Before) ∧
    ∃ bytes, serializeIndex dotgitIndex 20 = .ok bytes ∧ parseIndex (bytes ++ replicate 20 7) 20 =
        .error (.refusal (.invalidIndexEntry 12 "'.git' component rejected")) := by
  constructor
  · have hperm := sortEntries_perm stagesIndex.entries
    have hnone : ∀ ext ∈ stagesIndex.extensions, ext.Fits := fun ext hmem => by cases hmem
    have hwritten := serializeIndex_eq stagesIndex_fits fun ext hmem =>
      (hnone ext hmem).length_signature
    have hread := parseIndex_written
      (fun entry hmem => stagesIndex_fits entry (hperm.mem_iff.mp hmem))
      (hperm.length_eq ▸ (by decide : stagesIndex.entries.length < 2 ^ 32)) hnone
      (show (replicate 20 (7 : UInt8)).length = 20 from rfl)
    refine ⟨_, _, hwritten, hread, by decide, fun hsorted => ?_⟩
    have hgiven := (sortEntries_before_iff fun entry hmem =>
      (stagesIndex_fits entry hmem).wellFormed).mp hsorted
    have hstages := (pairwise_cons.mp hgiven).1 _ mem_cons_self rfl
    exact absurd hstages (by decide)
  · have hdotgit : sortEntries dotgitIndex.entries = dotgitIndex.entries :=
      mergeSort_singleton _
    unfold serializeIndex
    rw [hdotgit]
    exact ⟨_, rfl, by decide +kernel⟩

end Tsgit.IndexFile
