import Tsgit.TextDecoder

/-!
# Trees

`src/domain/objects/tree.ts` and `src/domain/objects/file-mode.ts`. Any padding of a
mode with zeros is read as the mode itself.
-/

namespace Tsgit.Objects

open List

inductive FileMode
  | regular
  | executable
  | symlink
  | directory
  | gitlink
  deriving DecidableEq

def FileMode.text : FileMode → Text
  | regular => ['1', '0', '0', '6', '4', '4']
  | executable => ['1', '0', '0', '7', '5', '5']
  | symlink => ['1', '2', '0', '0', '0', '0']
  | directory => ['4', '0', '0', '0', '0']
  | gitlink => ['1', '6', '0', '0', '0', '0']

def validModes : List FileMode := [.regular, .executable, .symlink, .directory, .gitlink]

def validateFileMode (mode : Text) : Except TsgitError FileMode :=
  match validModes.find? (·.text = mode) with
  | none => .error (.invalidFileMode mode)
  | some valid => .ok valid

/-- Drops zeros in front; one digit is left at least. -/
def stripZeros {α : Type} [DecidableEq α] (zero : α) : List α → List α
  | digit :: next :: rest =>
    if digit = zero then stripZeros zero (next :: rest) else digit :: next :: rest
  | mode => mode

def stripModeZeros (mode : Text) : Text := stripZeros '0' mode

def normalizeFileMode (mode : Text) : Except TsgitError FileMode :=
  validateFileMode (stripModeZeros mode)

def isDirectory (mode : FileMode) : Bool := mode = .directory

def hasNonOctalByte (bytes : Bytes) (start stop : ℕ) : Bool :=
  (subarray bytes start stop).any fun byte => byte.toNat < 0x30 ∨ byte.toNat > 0x37

structure TreeEntry where
  mode : FileMode
  nameBytes : Bytes
  id : Text
  deriving DecidableEq

/-- The derived display view of the name. -/
def TreeEntry.name (entry : TreeEntry) : Text := decodePreservingBom entry.nameBytes

def parseEntryAt (body : Bytes) (hash : HashConfig) (offset : ℕ) :
    Except TsgitError (TreeEntry × ℕ) :=
  match indexOf body 0x20 offset with
  | none => .error (.invalidTreeEntry offset "missing space after mode")
  | some spaceIndex =>
    if spaceIndex = offset ∨ hasNonOctalByte body offset spaceIndex then
      .error (.invalidTreeEntry offset "malformed mode")
    else
      match indexOf body 0x00 (spaceIndex + 1) with
      | none => .error (.invalidTreeEntry offset "missing null after name")
      | some nullIndex =>
        if nullIndex = spaceIndex + 1 then .error (.invalidTreeEntry offset "empty filename")
        else
          let hashStart := nullIndex + 1
          let hashEnd := hashStart + hash.digestLength
          if hashEnd > body.length then .error (.invalidTreeEntry offset "truncated hash")
          else do
            let nameSpan := subarray body (spaceIndex + 1) nullIndex
            let entryId ← fromRaw (subarray body hashStart hashEnd)
            let mode ← normalizeFileMode (decode (subarray body offset spaceIndex))
            pure (⟨mode, nameSpan, entryId⟩, hashEnd)

/-- The places of an entry in the body: the space behind the mode and the NUL behind the
name. -/
structure Spans (body : Bytes) (hash : HashConfig) (offset spaceIndex nullIndex : ℕ) :
    Prop where
  space : indexOf body 0x20 offset = some spaceIndex
  mode_ne_nil : offset < spaceIndex
  octal : hasNonOctalByte body offset spaceIndex = false
  null : indexOf body 0x00 (spaceIndex + 1) = some nullIndex
  name_ne_nil : spaceIndex + 1 < nullIndex
  fits : nullIndex + 1 + hash.digestLength ≤ body.length

variable {body : Bytes}

/-- Where an entry that is read lies. -/
theorem parseEntryAt_ok {hash : HashConfig} {offset next : ℕ}
    {entry : TreeEntry} (h : parseEntryAt body hash offset = .ok (entry, next)) :
    ∃ spaceIndex nullIndex, Spans body hash offset spaceIndex nullIndex ∧
      next = nullIndex + 1 + hash.digestLength ∧
      entry.nameBytes = subarray body (spaceIndex + 1) nullIndex ∧
      entry.id = bytesToHex (subarray body (nullIndex + 1) next) ∧
      normalizeFileMode (decode (subarray body offset spaceIndex)) = .ok entry.mode := by
  unfold parseEntryAt at h
  cases hspace : indexOf body 0x20 offset with
  | none =>
    rw [hspace] at h
    cases h
  | some spaceIndex =>
    rw [hspace] at h
    dsimp only at h
    split at h
    · cases h
    · next hmode =>
      obtain ⟨hne, hoctal⟩ := not_or.mp hmode
      cases hnull : indexOf body 0x00 (spaceIndex + 1) with
      | none =>
        rw [hnull] at h
        cases h
      | some nullIndex =>
        rw [hnull] at h
        dsimp only at h
        split at h
        · cases h
        · next hname =>
          split at h
          · cases h
          · next hfits =>
            have hfits := Nat.not_lt.mp hfits
            rw [fromRaw_eq_ok hash (by
              rw [length_subarray _ hfits, Nat.add_sub_cancel_left])] at h
            obtain ⟨_, hid, h⟩ := bind_eq_ok.mp h
            cases hid
            obtain ⟨mode, hnormal, h⟩ := bind_eq_ok.mp h
            cases h
            have hle := (indexOf_spec hspace).1
            have hle' := (indexOf_spec hnull).1
            exact ⟨spaceIndex, nullIndex, ⟨hspace, by omega,
              Bool.eq_false_iff.mpr hoctal, hnull, by omega, hfits⟩,
              rfl, rfl, rfl, hnormal⟩

theorem parseEntryAt_lt {hash : HashConfig} {offset next : ℕ}
    {entry : TreeEntry} (h : parseEntryAt body hash offset = .ok (entry, next)) :
    offset < next ∧ next ≤ body.length := by
  obtain ⟨spaceIndex, nullIndex, hspans, rfl, -⟩ := parseEntryAt_ok h
  have := hspans.mode_ne_nil
  have := hspans.name_ne_nil
  have := hspans.fits
  omega

def parseTreeFrom (body : Bytes) (hash : HashConfig) (offset : ℕ) :
    Except TsgitError (List TreeEntry) :=
  if offset < body.length then
    match _h : parseEntryAt body hash offset with
    | .error e => .error e
    | .ok (entry, next) => do
      let entries ← parseTreeFrom body hash next
      pure (entry :: entries)
  else .ok []
termination_by body.length - offset
decreasing_by
  exact Nat.sub_lt_sub_left ‹_› (parseEntryAt_lt _h).1

structure Tree where
  id : Text
  entries : List TreeEntry
  deriving DecidableEq

def parseTreeContent (id : Text) (content : Bytes) (hash : HashConfig) :
    Except TsgitError Tree := do
  let entries ← parseTreeFrom content hash 0
  pure ⟨id, entries⟩

/-- A name as trees order it: a directory's ends in a slash. -/
def encodeEntryName (nameBytes : Bytes) (isDir : Bool) : Bytes :=
  if isDir then nameBytes ++ [0x2f] else nameBytes

def treeEntryCompare (a b : TreeEntry) : ℤ :=
  compareBytes (encodeEntryName a.nameBytes (isDirectory a.mode))
    (encodeEntryName b.nameBytes (isDirectory b.mode))

theorem parseTreeFrom_eq (body : Bytes) (hash : HashConfig) (offset : ℕ) :
    parseTreeFrom body hash offset =
      if offset < body.length then do
        let (entry, next) ← parseEntryAt body hash offset
        let entries ← parseTreeFrom body hash next
        pure (entry :: entries)
      else .ok [] := by
  rw [parseTreeFrom]
  by_cases hlt : offset < body.length
  · rw [if_pos hlt, if_pos hlt]
    cases parseEntryAt body hash offset with
    | error e => rfl
    | ok read => rfl
  · rw [if_neg hlt, if_neg hlt]

/-! ### Modes -/

theorem stripZeros_eq {α : Type} [DecidableEq α] (zero : α) (digits : List α) :
    ∃ count, digits = replicate count zero ++ stripZeros zero digits := by
  induction digits using stripZeros.induct zero with
  | case1 next rest ih =>
    obtain ⟨count, hcount⟩ := ih
    rw [stripZeros, if_pos rfl]
    refine ⟨count + 1, ?_⟩
    rw [replicate_succ, cons_append, ← hcount]
  | case2 digit next rest hne =>
    rw [stripZeros, if_neg hne]
    exact ⟨0, rfl⟩
  | case3 digits hshort =>
    rw [stripZeros.eq_2 _ _ hshort]
    exact ⟨0, rfl⟩

theorem stripZeros_map {α β : Type} [DecidableEq α] [DecidableEq β] {zero : α} {f : α → β}
    {digits : List α} (h : ∀ digit ∈ digits, f digit = f zero → digit = zero) :
    stripZeros (f zero) (digits.map f) = (stripZeros zero digits).map f := by
  induction digits using stripZeros.induct zero with
  | case1 next rest ih =>
    rw [stripZeros, if_pos rfl, map_cons, map_cons, stripZeros, if_pos rfl]
    exact ih (forall_mem_cons.mp h).2
  | case2 digit next rest hne =>
    have hne' : f digit ≠ f zero := fun heq => hne (h digit mem_cons_self heq)
    rw [stripZeros, if_neg hne, map_cons, map_cons, stripZeros, if_neg hne']
  | case3 digits hshort =>
    rw [stripZeros.eq_2 _ _ hshort]
    cases digits with
    | nil => rfl
    | cons digit digits =>
      cases digits with
      | nil => rfl
      | cons next rest => exact absurd rfl (hshort digit next rest)

def FileMode.bytes (mode : FileMode) : Bytes := encode mode.text

theorem normalizeFileMode_ok {text : Text} {mode : FileMode}
    (h : normalizeFileMode text = .ok mode) : stripModeZeros text = mode.text := by
  unfold normalizeFileMode validateFileMode at h
  cases hfind : validModes.find? (·.text = stripModeZeros text) with
  | none =>
    rw [hfind] at h
    cases h
  | some valid =>
    rw [hfind] at h
    cases h
    have htext := find?_some hfind
    exact (of_decide_eq_true htext).symm

theorem ofChar_toChar {byte : UInt8} (h : byte.toNat < 128) :
    UInt8.ofNat (Char.ofNat byte.toNat).toNat = byte := by
  have hvalid : byte.toNat.isValidChar := .inl (by omega)
  have htoNat : (Char.ofNatAux byte.toNat hvalid).toNat = byte.toNat := rfl
  rw [Char.ofNat, dif_pos hvalid, htoNat]
  exact UInt8.ofNat_toNat

theorem FileMode.map_bytes (mode : FileMode) :
    mode.bytes.map (fun byte => Char.ofNat byte.toNat) = mode.text := by
  cases mode <;> decide

theorem FileMode.bytes_lt (mode : FileMode) : ∀ byte ∈ mode.bytes, byte.toNat < 128 := by
  cases mode <;> decide +kernel

theorem FileMode.bytes_injective : Function.Injective FileMode.bytes := by
  intro a b
  cases a <;> cases b <;> decide

variable {start stop : ℕ}

theorem octal_of_hasNonOctalByte
    (h : hasNonOctalByte body start stop = false) :
    ∀ byte ∈ subarray body start stop, byte.toNat < 128 := by
  intro byte hmem
  have := any_eq_false.mp h byte hmem
  simp only [decide_eq_true_eq, not_or] at this
  omega

/-- **The digits of a mode that is read**: behind the padding they are those of the mode. -/
theorem stripZeros_mode {mode : FileMode}
    (hoctal : hasNonOctalByte body start stop = false)
    (h : normalizeFileMode (decode (subarray body start stop)) = .ok mode) :
    stripZeros 0x30 (subarray body start stop) = mode.bytes := by
  have hlt := octal_of_hasNonOctalByte hoctal
  have hrestore : ∀ bytes : Bytes, (∀ byte ∈ bytes, byte.toNat < 128) →
      (bytes.map fun byte => Char.ofNat byte.toNat).map (fun c => UInt8.ofNat c.toNat) = bytes := by
    intro bytes hbytes
    rw [map_map]
    exact (map_congr_left fun byte hmem => ofChar_toChar (hbytes byte hmem)).trans
      (map_id bytes)
  have hsub : ∀ byte ∈ stripZeros 0x30 (subarray body start stop), byte.toNat < 128 := by
    intro byte hmem
    obtain ⟨count, hcount⟩ := stripZeros_eq 0x30 (subarray body start stop)
    exact hlt byte (hcount ▸ mem_append_right _ hmem)
  have hzero : ∀ digit ∈ subarray body start stop,
      Char.ofNat digit.toNat = Char.ofNat (0x30 : UInt8).toNat → digit = 0x30 := by
    intro digit hmem heq
    rw [← ofChar_toChar (hlt digit hmem), heq]
    rfl
  have hstrip := normalizeFileMode_ok h
  rw [decode_ascii fun byte hmem => Nat.le_of_lt_succ (hlt byte hmem), stripModeZeros,
    show '0' = Char.ofNat (0x30 : UInt8).toNat from rfl, stripZeros_map hzero,
    ← mode.map_bytes] at hstrip
  rw [← hrestore _ hsub, hstrip, hrestore _ mode.bytes_lt]

/-! ### Modes in place -/

/-- The first digit of a mode that is not padding; the last digit stays. -/
def skipModeZeros (buf : Bytes) (start stop : ℕ) : ℕ :=
  if start + 1 < stop ∧ buf[start]? = some 0x30 then skipModeZeros buf (start + 1) stop else start
termination_by stop - start

def matchesBytes (buf : Bytes) (start : ℕ) (target : Bytes) : Bool :=
  subarray buf start (start + target.length) = target

def matchSixByteMode (buf : Bytes) (start : ℕ) : Option FileMode :=
  if matchesBytes buf start FileMode.regular.bytes then some .regular
  else if matchesBytes buf start FileMode.executable.bytes then some .executable
  else if matchesBytes buf start FileMode.symlink.bytes then some .symlink
  else if matchesBytes buf start FileMode.gitlink.bytes then some .gitlink
  else none

def maxInvalidModeErrorBytes : ℕ := 16

def decodeModeForError (buf : Bytes) (start stop : ℕ) : Text :=
  if stop - start ≤ maxInvalidModeErrorBytes then decode (subarray buf start stop)
  else decode (subarray buf start (start + maxInvalidModeErrorBytes)) ++ ['…']

def matchFileModeBytes (buf : Bytes) (start stop : ℕ) : Except TsgitError FileMode :=
  let first := skipModeZeros buf start stop
  let length := stop - first
  let refusal := .error (.invalidFileMode (decodeModeForError buf start stop))
  if length = 5 ∧ matchesBytes buf first FileMode.directory.bytes then .ok .directory
  else if length = 6 then
    match matchSixByteMode buf first with
    | some matched => .ok matched
    | none => refusal
  else refusal

variable {buf : Bytes}

theorem subarray_eq_cons (hlt : start < stop)
    (hfits : stop ≤ buf.length) :
    ∃ byte, buf[start]? = some byte ∧
      subarray buf start stop = byte :: subarray buf (start + 1) stop := by
  have hstart : start < buf.length := Nat.lt_of_lt_of_le hlt hfits
  obtain ⟨count, hcount⟩ : ∃ count, stop - start = count + 1 :=
    Nat.exists_eq_add_one_of_ne_zero (by omega)
  refine ⟨buf[start], getElem?_eq_getElem hstart, ?_⟩
  rw [subarray, subarray, drop_eq_getElem_cons hstart, hcount, take_succ_cons]
  congr 2
  omega

theorem skipModeZeros_spec (hlt : start < stop)
    (hfits : stop ≤ buf.length) :
    skipModeZeros buf start stop < stop ∧ subarray buf (skipModeZeros buf start stop) stop =
        stripZeros 0x30 (subarray buf start stop) := by
  induction start using skipModeZeros.induct buf stop with
  | case1 start hskip ih =>
    obtain ⟨hnext, hzero⟩ := hskip
    rw [skipModeZeros, if_pos ⟨hnext, hzero⟩]
    obtain ⟨hlt', hsub⟩ := ih hnext
    obtain ⟨byte, hbyte, hcons⟩ := subarray_eq_cons hlt hfits
    obtain rfl : byte = 0x30 := Option.some.inj (hbyte.symm.trans hzero)
    obtain ⟨second, -, hcons'⟩ := subarray_eq_cons hnext hfits
    refine ⟨hlt', ?_⟩
    rw [hsub, hcons, hcons', stripZeros, if_pos rfl]
  | case2 start hstop =>
    rw [skipModeZeros, if_neg hstop]
    refine ⟨hlt, ?_⟩
    obtain ⟨byte, hbyte, hcons⟩ := subarray_eq_cons hlt hfits
    by_cases hnext : start + 1 < stop
    · obtain ⟨second, -, hcons'⟩ := subarray_eq_cons hnext hfits
      have hne : byte ≠ 0x30 := fun heq => hstop ⟨hnext, by rw [hbyte, heq]⟩
      rw [hcons, hcons', stripZeros, if_neg hne]
    · have hempty : subarray buf (start + 1) stop = [] := by
        rw [subarray, Nat.sub_eq_zero_of_le (Nat.not_lt.mp hnext), take_zero]
      rw [hcons, hempty]
      rfl

theorem matchFileModeBytes_of_digits {mode : FileMode}
    (hlt : start < stop) (hfits : stop ≤ buf.length)
    (h : stripZeros 0x30 (subarray buf start stop) = mode.bytes) :
    matchFileModeBytes buf start stop = .ok mode := by
  obtain ⟨hfirst, hsub⟩ := skipModeZeros_spec hlt hfits
  rw [h] at hsub
  have hlength : stop - skipModeZeros buf start stop = mode.bytes.length := by
    rw [← hsub, length_subarray _ hfits]
  have hmatches : ∀ other : FileMode, other.bytes.length = mode.bytes.length →
      matchesBytes buf (skipModeZeros buf start stop) other.bytes = decide (mode = other) := by
    intro other hother
    have hstop : skipModeZeros buf start stop + other.bytes.length = stop := by omega
    rw [matchesBytes, hstop, hsub]
    exact decide_eq_decide.mpr FileMode.bytes_injective.eq_iff
  unfold matchFileModeBytes matchSixByteMode
  dsimp only
  rw [hlength]
  cases mode with
  | directory => rw [hmatches .directory rfl, if_pos ⟨rfl, rfl⟩]
  | _ =>
    rw [if_neg (fun hboth => absurd hboth.1 (by decide)), if_pos (by decide),
      hmatches .regular rfl, hmatches .executable rfl, hmatches .symlink rfl,
      hmatches .gitlink rfl]
    rfl

end Tsgit.Objects
