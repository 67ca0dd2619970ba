import Tsgit.BitGroups
import Tsgit.Hex

/-!
# Pack Entry Headers

`src/domain/storage/pack-entry.ts`. An entry starts with its type and the size of its
object: a variable-length integer of little-endian groups whose first group has four bits.
An OFS_DELTA entry goes on with the distance to its base, big-endian groups that each count
from one more; a REF_DELTA entry goes on with the id of its base.

The size is accumulated in a signed 32-bit integer, the distance in exact arithmetic.
-/

namespace Tsgit.PackEntry

open BitGroups List

inductive PackEntryType
  | commit
  | tree
  | blob
  | tag
  | ofsDelta
  | refDelta
  deriving DecidableEq

/-- The number of a type. -/
def PackEntryType.code : PackEntryType → ℕ
  | .commit => 1
  | .tree => 2
  | .blob => 3
  | .tag => 4
  | .ofsDelta => 6
  | .refDelta => 7

/-- `PackEntryHeader`; a base entry keeps the number of its type. -/
inductive PackEntryHeader
  | base (type : ℕ) (size : ℤ) (dataOffset : ℕ)
  | ofsDelta (size : ℤ) (dataOffset baseDistance : ℕ)
  | refDelta (size : ℤ) (dataOffset : ℕ) (baseId : Text)
  deriving DecidableEq

def PackEntryHeader.size : PackEntryHeader → ℤ
  | base _ size _ => size
  | ofsDelta size _ _ => size
  | refDelta size _ _ => size

/-! ### Reading -/

def maxSizeExtensionBytes : ℕ := 5

def shiftLeft32 (x : ℕ) (shift : ℕ) : BitVec 32 := BitVec.ofNat 32 x <<< (shift % 32)

/-- The loop of `decodeTypeAndSize` at the byte `pos`, of which the payload is already in
`size`; `left` extension bytes may still follow. -/
def decodeSizeFrom (bytes : Bytes) (offset : ℕ) :
    ℕ → BitVec 32 → ℕ → ℕ → Except TsgitError (BitVec 32 × ℕ)
  | left, size, shift, pos =>
    if ((bytes[pos]?).getD 0).toNat &&& 0x80 = 0 then .ok (size, pos + 1)
    else
      match left with
      | 0 => .error (.invalidPackEntry offset "size encoding too long")
      | left + 1 =>
        match bytes[pos + 1]? with
        | none => .error (.invalidPackEntry offset "unexpected end of header")
        | some byte =>
          decodeSizeFrom bytes offset left (size ||| shiftLeft32 (byte.toNat &&& 0x7f) shift)
            (shift + 7) (pos + 1)

def decodeTypeAndSize (bytes : Bytes) (offset : ℕ) : Except TsgitError (ℕ × ℤ × ℕ) :=
  match bytes[offset]? with
  | none => .error (.invalidPackEntry offset "unexpected end of header")
  | some firstByte => do
    let (size, nextPos) ← decodeSizeFrom bytes offset maxSizeExtensionBytes
      (BitVec.ofNat 32 (firstByte.toNat &&& 0x0f)) 4 offset
    pure (firstByte.toNat >>> 4 &&& 0x07, size.toInt, nextPos)

def maxOfsDistanceBytes : ℕ := 4

def decodeDistanceFrom (bytes : Bytes) (entryOffset : ℕ) :
    ℕ → ℕ → ℕ → Except TsgitError (ℕ × ℕ)
  | left, distance, pos =>
    if ((bytes[pos]?).getD 0).toNat &&& 0x80 = 0 then .ok (distance, pos + 1)
    else
      match left with
      | 0 => .error (.invalidPackEntry entryOffset "OFS_DELTA distance encoding too long")
      | left + 1 =>
        match bytes[pos + 1]? with
        | none => .error (.invalidPackEntry entryOffset "unexpected end of OFS_DELTA distance")
        | some byte =>
          decodeDistanceFrom bytes entryOffset left
            ((distance + 1) * 128 + (byte.toNat &&& 0x7f)) (pos + 1)

def decodeOfsDistance (bytes : Bytes) (pos entryOffset : ℕ) : Except TsgitError (ℕ × ℕ) :=
  match bytes[pos]? with
  | none => .error (.invalidPackEntry entryOffset "unexpected end of OFS_DELTA distance")
  | some byte =>
    decodeDistanceFrom bytes entryOffset maxOfsDistanceBytes (byte.toNat &&& 0x7f) pos

def validateEntryType (type offset : ℕ) : Except TsgitError Unit :=
  if type = 5 then .error (.invalidPackEntry offset "reserved type 5")
  else if type < 1 ∨ type > 7 then .error (.invalidPackEntry offset s!"unknown type {type}")
  else .ok ()

def parsePackEntryHeader (bytes : Bytes) (offset digestLength : ℕ) :
    Except TsgitError PackEntryHeader := do
  let (type, size, pos) ← decodeTypeAndSize bytes offset
  validateEntryType type offset
  if type = PackEntryType.ofsDelta.code then
    let (distance, nextPos) ← decodeOfsDistance bytes pos offset
    pure (.ofsDelta size nextPos distance)
  else if type = PackEntryType.refDelta.code then
    let endPos := pos + digestLength
    if endPos > bytes.length then
      .error (.invalidPackEntry offset "unexpected end of REF_DELTA base id")
    else pure (.refDelta size endPos (bytesToHex (subarray bytes pos endPos)))
  else pure (.base type size pos)

/-! ### Writing -/

/-- The extension bytes of a size. -/
def encodeSizeGroups (remaining : ℕ) : Bytes :=
  if remaining = 0 then []
  else
    let next := remaining >>> 7
    UInt8.ofNat (if next = 0 then remaining &&& 0x7f else remaining &&& 0x7f ||| 0x80) ::
      encodeSizeGroups next
termination_by remaining
decreasing_by
  rw [Nat.shiftRight_eq_div_pow]
  exact Nat.div_lt_self (Nat.pos_of_ne_zero ‹_›) (by decide)

/-- `>>>` reads its operand as an unsigned 32-bit integer. -/
def encodePackEntryHeader (type : PackEntryType) (size : ℕ) : Bytes :=
  let firstByte := (type.code &&& 0x07) <<< 4 ||| size &&& 0x0f
  let remaining := (size % 2 ^ 32) >>> 4
  UInt8.ofNat (if remaining = 0 then firstByte else firstByte ||| 0x80) ::
    encodeSizeGroups remaining

/-- The bytes of a distance after the first one pushed, in the order they are pushed. -/
def ofsDistanceGroups (remaining : ℕ) : Bytes :=
  if remaining = 0 then []
  else
    UInt8.ofNat (0x80 ||| (remaining - 1) &&& 0x7f) :: ofsDistanceGroups ((remaining - 1) >>> 7)
termination_by remaining
decreasing_by
  rw [Nat.shiftRight_eq_div_pow]
  exact Nat.lt_of_le_of_lt (Nat.div_le_self _ _) (Nat.sub_lt (Nat.pos_of_ne_zero ‹_›) (by decide))

def encodeOfsDistance (distance : ℕ) : Bytes :=
  (UInt8.ofNat (distance &&& 0x7f) :: ofsDistanceGroups ((distance % 2 ^ 32) >>> 7)).reverse

/-! ### The values the bytes state -/

/-- The number that little-endian groups state. -/
def groupsValue : Bytes → ℕ
  | [] => 0
  | byte :: rest =>
    (byte.toNat &&& 0x7f) + if byte.toNat &&& 0x80 = 0 then 0 else 128 * groupsValue rest

/-- The size that a header states. -/
def sizeValue : Bytes → ℕ
  | [] => 0
  | byte :: rest =>
    (byte.toNat &&& 0x0f) + if byte.toNat &&& 0x80 = 0 then 0 else 16 * groupsValue rest

/-- How many bytes a size takes: up to the first one without the continuation bit. -/
def sizeLength (bytes : Bytes) : ℕ :=
  (bytes.takeWhile fun byte => byte.toNat &&& 0x80 ≠ 0).length + 1

/-- The distance that big-endian groups state behind groups that stated `distance`. -/
def distanceValueFrom (distance : ℕ) : Bytes → ℕ
  | [] => distance
  | byte :: rest =>
    let distance := (distance + 1) * 128 + (byte.toNat &&& 0x7f)
    if byte.toNat &&& 0x80 = 0 then distance else distanceValueFrom distance rest

/-- The distance that big-endian groups state. -/
def distanceValue : Bytes → ℕ
  | [] => 0
  | byte :: rest =>
    if byte.toNat &&& 0x80 = 0 then byte.toNat &&& 0x7f
    else distanceValueFrom (byte.toNat &&& 0x7f) rest

theorem toInt_eq_iff {size : BitVec 32} {value : ℕ} (h : value < 2 ^ 32 → size.toNat = value) :
    size.toInt = (value : ℤ) ↔ value < 2 ^ 31 := by
  have hlt := size.isLt
  rw [BitVec.toInt_eq_toNat_cond]
  constructor
  · intro heq
    split at heq
    · omega
    · omega
  · intro hsmall
    have hsize := h (by omega)
    rw [if_pos (by omega), hsize]

theorem or_shiftLeft32 {size : BitVec 32} {value shift group : ℕ} (hvalue : value < 2 ^ shift)
    (h : value < 2 ^ 32 → size.toNat = value) (hfits : value + group * 2 ^ shift < 2 ^ 32) :
    (size ||| shiftLeft32 group shift).toNat = value + group * 2 ^ shift := by
  have hsize := h (Nat.lt_of_le_of_lt (Nat.le_add_right _ _) hfits)
  rw [BitVec.toNat_or, hsize, shiftLeft32, BitVec.toNat_shiftLeft, BitVec.toNat_ofNat]
  by_cases hshift : shift < 32
  · have hgroup : group * 2 ^ shift < 2 ^ 32 := Nat.lt_of_le_of_lt (Nat.le_add_left _ _) hfits
    have hgroup' : group < 2 ^ 32 :=
      Nat.lt_of_le_of_lt (Nat.le_mul_of_pos_right _ (Nat.two_pow_pos shift)) hgroup
    rw [Nat.mod_eq_of_lt hshift, Nat.mod_eq_of_lt hgroup', Nat.shiftLeft_eq,
      Nat.mod_eq_of_lt hgroup, Nat.add_comm, ← Nat.shiftLeft_eq,
      Nat.shiftLeft_add_eq_or_of_lt hvalue, Nat.or_comm]
  · -- Such a shift wraps around, but only an empty group keeps the value below `2 ^ 32`.
    have hpow : 2 ^ 32 ≤ 2 ^ shift := Nat.pow_le_pow_right (by decide) (Nat.le_of_not_lt hshift)
    have hzero : group = 0 := by
      by_contra hne
      have := Nat.le_mul_of_pos_left (2 ^ shift) (Nat.pos_of_ne_zero hne)
      omega
    subst hzero
    simp

variable {bytes : Bytes}

variable {byte : UInt8}

/-- **What the size loop reads**, against what the bytes state. -/
theorem decodeSizeFrom_value {offset left shift pos value nextPos : ℕ}
    {size final : BitVec 32} (hbyte : bytes[pos]? = some byte)
    (hvalue : value < 2 ^ shift) (hsize : value < 2 ^ 32 → size.toNat = value)
    (h : decodeSizeFrom bytes offset left size shift pos = .ok (final, nextPos)) :
    let total := value + if byte.toNat &&& 0x80 = 0 then 0
      else 2 ^ shift * groupsValue (bytes.drop (pos + 1))
    total < 2 ^ 32 → final.toNat = total := by
  induction left generalizing size shift pos value byte with
  | zero =>
    rw [decodeSizeFrom, hbyte, Option.getD_some] at h
    by_cases hlast : byte.toNat &&& 0x80 = 0
    · rw [if_pos hlast] at h
      cases h
      rw [if_pos hlast]
      exact hsize
    · rw [if_neg hlast] at h
      cases h
  | succ left ih =>
    rw [decodeSizeFrom, hbyte, Option.getD_some] at h
    by_cases hlast : byte.toNat &&& 0x80 = 0
    · rw [if_pos hlast] at h
      cases h
      rw [if_pos hlast]
      exact hsize
    rw [if_neg hlast] at h ⊢
    cases hnext : bytes[pos + 1]? with
    | none =>
      rw [hnext] at h
      cases h
    | some next =>
      rw [hnext] at h
      have hgroup := and_0x7f_lt next.toNat
      have hvalue' : value + (next.toNat &&& 0x7f) * 2 ^ shift < 2 ^ (shift + 7) := by
        calc value + (next.toNat &&& 0x7f) * 2 ^ shift
            < 2 ^ shift + (next.toNat &&& 0x7f) * 2 ^ shift := Nat.add_lt_add_right hvalue _
          _ = ((next.toNat &&& 0x7f) + 1) * 2 ^ shift := by rw [Nat.add_mul]; omega
          _ ≤ 128 * 2 ^ shift := Nat.mul_le_mul_right _ hgroup
          _ = 2 ^ (shift + 7) := by rw [Nat.pow_add, Nat.mul_comm]
      have hrest := ih hnext hvalue' (or_shiftLeft32 hvalue hsize) h
      have htotal : value + 2 ^ shift * groupsValue (bytes.drop (pos + 1)) =
          value + (next.toNat &&& 0x7f) * 2 ^ shift +
            if next.toNat &&& 0x80 = 0 then 0
            else 2 ^ (shift + 7) * groupsValue (bytes.drop (pos + 1 + 1)) := by
        rw [drop_eq_cons hnext, groupsValue, Nat.mul_add, Nat.mul_comm (2 ^ shift) (next.toNat &&& 0x7f),
          ← Nat.add_assoc]
        congr 1
        split
        · rw [Nat.mul_zero]
        · rw [Nat.pow_add, Nat.mul_assoc]
      rw [htotal]
      exact hrest

/-- **The size that is read is the size the bytes state exactly when that is below `2 ^ 31`.** -/
theorem decodeTypeAndSize_value {offset type nextPos : ℕ} {size : ℤ}
    (h : decodeTypeAndSize bytes offset = .ok (type, size, nextPos)) :
    size = (sizeValue (bytes.drop offset) : ℤ) ↔ sizeValue (bytes.drop offset) < 2 ^ 31 := by
  unfold decodeTypeAndSize at h
  cases hfirst : bytes[offset]? with
  | none =>
    rw [hfirst] at h
    cases h
  | some firstByte =>
    rw [hfirst] at h
    dsimp only at h
    cases hloop : decodeSizeFrom bytes offset maxSizeExtensionBytes
        (BitVec.ofNat 32 (firstByte.toNat &&& 0x0f)) 4 offset with
    | error e =>
      rw [hloop] at h
      cases h
    | ok final =>
      rw [hloop] at h
      cases h
      have hnibble : firstByte.toNat &&& 0x0f < 2 ^ 4 :=
        Nat.lt_of_le_of_lt Nat.and_le_right (by decide)
      have hstart : (BitVec.ofNat 32 (firstByte.toNat &&& 0x0f)).toNat =
          firstByte.toNat &&& 0x0f := by
        rw [BitVec.toNat_ofNat]
        exact Nat.mod_eq_of_lt (Nat.lt_trans hnibble (by decide))
      have hread := decodeSizeFrom_value hfirst hnibble (fun _ => hstart) hloop
      rw [drop_eq_cons hfirst, sizeValue]
      exact toInt_eq_iff hread

theorem decodeSizeFrom_nextPos {offset left shift pos nextPos : ℕ}
    {size final : BitVec 32} (hbyte : bytes[pos]? = some byte)
    (h : decodeSizeFrom bytes offset left size shift pos = .ok (final, nextPos)) :
    nextPos = pos + sizeLength (bytes.drop pos) := by
  induction left generalizing size shift pos byte with
  | zero =>
    rw [decodeSizeFrom, hbyte, Option.getD_some] at h
    by_cases hlast : byte.toNat &&& 0x80 = 0
    · rw [if_pos hlast] at h
      cases h
      rw [drop_eq_cons hbyte, sizeLength, takeWhile_cons_of_neg (by simpa using hlast)]
      rfl
    · rw [if_neg hlast] at h
      cases h
  | succ left ih =>
    rw [decodeSizeFrom, hbyte, Option.getD_some] at h
    by_cases hlast : byte.toNat &&& 0x80 = 0
    · rw [if_pos hlast] at h
      cases h
      rw [drop_eq_cons hbyte, sizeLength, takeWhile_cons_of_neg (by simpa using hlast)]
      rfl
    rw [if_neg hlast] at h
    cases hnext : bytes[pos + 1]? with
    | none =>
      rw [hnext] at h
      cases h
    | some next =>
      rw [hnext] at h
      have hrest := ih hnext h
      rw [hrest, drop_eq_cons hbyte, sizeLength, sizeLength,
        takeWhile_cons_of_pos (by simpa using hlast), length_cons]
      omega

theorem decodeDistanceFrom_value {entryOffset left distance pos : ℕ}
    {final nextPos : ℕ} (hbyte : bytes[pos]? = some byte)
    (h : decodeDistanceFrom bytes entryOffset left distance pos = .ok (final, nextPos)) :
    final = if byte.toNat &&& 0x80 = 0 then distance
      else distanceValueFrom distance (bytes.drop (pos + 1)) := by
  induction left generalizing distance pos byte with
  | zero =>
    rw [decodeDistanceFrom, hbyte, Option.getD_some] at h
    by_cases hlast : byte.toNat &&& 0x80 = 0
    · rw [if_pos hlast] at h ⊢
      cases h
      rfl
    · rw [if_neg hlast] at h
      cases h
  | succ left ih =>
    rw [decodeDistanceFrom, hbyte, Option.getD_some] at h
    by_cases hlast : byte.toNat &&& 0x80 = 0
    · rw [if_pos hlast] at h ⊢
      cases h
      rfl
    rw [if_neg hlast] at h ⊢
    cases hnext : bytes[pos + 1]? with
    | none =>
      rw [hnext] at h
      cases h
    | some next =>
      rw [hnext] at h
      rw [drop_eq_cons hnext, distanceValueFrom]
      exact ih hnext h

/-- **The distance that is read is the distance the bytes state.** -/
theorem decodeOfsDistance_value {pos entryOffset distance nextPos : ℕ}
    (h : decodeOfsDistance bytes pos entryOffset = .ok (distance, nextPos)) :
    distance = distanceValue (bytes.drop pos) := by
  unfold decodeOfsDistance at h
  cases hfirst : bytes[pos]? with
  | none =>
    rw [hfirst] at h
    cases h
  | some byte =>
    rw [hfirst] at h
    rw [drop_eq_cons hfirst, distanceValue]
    exact decodeDistanceFrom_value hfirst h

/-! ### Encoded headers -/

theorem encodeSizeGroups_zero : encodeSizeGroups 0 = [] := by
  rw [encodeSizeGroups, if_pos rfl]

variable {remaining : ℕ}

theorem encodeSizeGroups_of_ne_zero (h : remaining ≠ 0) :
    ∃ byte : UInt8, encodeSizeGroups remaining = byte :: encodeSizeGroups (remaining / 128) ∧
      byte.toNat &&& 0x7f = remaining % 128 ∧
      (byte.toNat &&& 0x80 = 0 ↔ remaining / 128 = 0) := by
  obtain ⟨⟨hlast, hlast7⟩, hmore, hmore7⟩ := group_bits (remaining % 128)
    (Nat.mod_lt _ (by decide))
  rw [encodeSizeGroups, if_neg h]
  dsimp only
  rw [Nat.shiftRight_eq_div_pow, and_0x7f]
  refine ⟨_, rfl, ?_⟩
  by_cases hnext : remaining / 128 = 0
  · rw [if_pos hnext]
    exact ⟨hlast7, iff_of_true hlast hnext⟩
  · rw [if_neg hnext]
    exact ⟨hmore7, iff_of_false hmore hnext⟩

theorem groupsValue_encodeSizeGroups (h : remaining ≠ 0) (rest : Bytes) :
    groupsValue (encodeSizeGroups remaining ++ rest) = remaining := by
  induction remaining using Nat.strongRecOn with
  | ind remaining ih =>
    obtain ⟨byte, hcons, hgroup, hmore⟩ := encodeSizeGroups_of_ne_zero h
    rw [hcons, cons_append, groupsValue, hgroup]
    by_cases hnext : remaining / 128 = 0
    · rw [if_pos (hmore.mpr hnext)]
      omega
    · rw [if_neg fun hlast => hnext (hmore.mp hlast), ih _ (by omega) hnext]
      exact Nat.mod_add_div remaining 128

theorem decodeSizeFrom_encode (left offset shift : ℕ) (size : BitVec 32)
    (pre rest : Bytes) (hmore : byte.toNat &&& 0x80 = 0 ↔ remaining = 0)
    (hleft : remaining < 128 ^ left) :
    ∃ final, decodeSizeFrom (pre ++ byte :: (encodeSizeGroups remaining ++ rest)) offset left size
        shift pre.length =
      .ok (final, pre.length + (byte :: encodeSizeGroups remaining).length) := by
  induction left generalizing remaining size shift pre byte with
  | zero =>
    obtain rfl : remaining = 0 := by omega
    refine ⟨size, ?_⟩
    rw [decodeSizeFrom, encodeSizeGroups_zero]
    simp [hmore.mpr rfl]
  | succ left ih =>
    by_cases hzero : remaining = 0
    · subst hzero
      refine ⟨size, ?_⟩
      rw [decodeSizeFrom, encodeSizeGroups_zero]
      simp [hmore.mpr rfl]
    obtain ⟨next, hcons, hgroup, hmore'⟩ := encodeSizeGroups_of_ne_zero hzero
    have hbytes : pre ++ byte :: (next :: encodeSizeGroups (remaining / 128) ++ rest) =
        (pre ++ [byte]) ++ next :: (encodeSizeGroups (remaining / 128) ++ rest) := by simp
    have hhere : (pre ++ byte :: (next :: encodeSizeGroups (remaining / 128) ++ rest))[
        pre.length]? = some byte := by simp
    have hafter : (pre ++ byte :: (next :: encodeSizeGroups (remaining / 128) ++ rest))[
        pre.length + 1]? = some next := by simp
    have hdiv : remaining / 128 < 128 ^ left :=
      Nat.div_lt_of_lt_mul (by rwa [Nat.pow_succ, Nat.mul_comm] at hleft)
    obtain ⟨final, hfinal⟩ := ih (shift + 7)
      (size ||| shiftLeft32 (next.toNat &&& 0x7f) shift) (pre ++ [byte]) hmore' hdiv
    refine ⟨final, ?_⟩
    rw [hcons, decodeSizeFrom, hhere, Option.getD_some, if_neg fun h => hzero (hmore.mp h),
      hafter]
    dsimp only
    rw [hbytes]
    rw [length_append, length_singleton] at hfinal
    rw [hfinal]
    simp only [length_cons]
    congr 2
    omega

theorem first_byte : ∀ nibble < 16, ∀ code < 8,
    let firstByte := (code &&& 0x07) <<< 4 ||| nibble
    ((UInt8.ofNat firstByte).toNat &&& 0x80 = 0 ∧ (UInt8.ofNat firstByte).toNat &&& 0x0f = nibble ∧
      (UInt8.ofNat firstByte).toNat >>> 4 &&& 0x07 = code) ∧
    ((UInt8.ofNat (firstByte ||| 0x80)).toNat &&& 0x80 ≠ 0 ∧
      (UInt8.ofNat (firstByte ||| 0x80)).toNat &&& 0x0f = nibble ∧
      (UInt8.ofNat (firstByte ||| 0x80)).toNat >>> 4 &&& 0x07 = code) := by
  decide +kernel

theorem PackEntryType.code_lt (type : PackEntryType) : type.code < 8 := by
  cases type <;> decide

theorem encodePackEntryHeader_eq (type : PackEntryType) {size : ℕ} (hsize : size < 2 ^ 32) :
    ∃ byte : UInt8, encodePackEntryHeader type size = byte :: encodeSizeGroups (size / 16) ∧
      byte.toNat &&& 0x0f = size % 16 ∧ byte.toNat >>> 4 &&& 0x07 = type.code ∧
      (byte.toNat &&& 0x80 = 0 ↔ size / 16 = 0) := by
  have hnibble : size &&& 0x0f = size % 16 := Nat.and_two_pow_sub_one_eq_mod size 4
  obtain ⟨⟨hlast, hlastSize, hlastType⟩, hmore, hmoreSize, hmoreType⟩ :=
    first_byte (size % 16) (Nat.mod_lt _ (by decide)) type.code type.code_lt
  rw [encodePackEntryHeader, hnibble, Nat.mod_eq_of_lt hsize, Nat.shiftRight_eq_div_pow]
  refine ⟨_, rfl, ?_⟩
  by_cases hrest : size / 2 ^ 4 = 0
  · rw [if_pos hrest]
    exact ⟨hlastSize, hlastType, iff_of_true hlast hrest⟩
  · rw [if_neg hrest]
    exact ⟨hmoreSize, hmoreType, iff_of_false hmore hrest⟩

/-- **An encoded header is read to its last byte**, and states its type and size. -/
theorem decodeTypeAndSize_encode (type : PackEntryType) {size : ℕ} (hsize : size < 2 ^ 32)
    (pre rest : Bytes) :
    ∃ read : ℤ, decodeTypeAndSize (pre ++ (encodePackEntryHeader type size ++ rest)) pre.length =
        .ok (type.code, read, pre.length + (encodePackEntryHeader type size).length) ∧
      (read = (size : ℤ) ↔ size < 2 ^ 31) := by
  obtain ⟨byte, hcons, hnibble, htype, hmore⟩ := encodePackEntryHeader_eq type hsize
  obtain ⟨final, hfinal⟩ := decodeSizeFrom_encode maxSizeExtensionBytes
    pre.length 4 (BitVec.ofNat 32 (byte.toNat &&& 0x0f)) pre rest hmore
    (Nat.lt_of_le_of_lt (Nat.div_le_self _ _) (Nat.lt_trans hsize (by decide)))
  have hfirst : (pre ++ byte :: (encodeSizeGroups (size / 16) ++ rest))[pre.length]? =
      some byte := by simp
  have hread : decodeTypeAndSize (pre ++ (encodePackEntryHeader type size ++ rest)) pre.length =
      .ok (type.code, final.toInt, pre.length + (encodePackEntryHeader type size).length) := by
    rw [hcons, cons_append, decodeTypeAndSize, hfirst]
    dsimp only
    rw [hfinal, htype]
    rfl
  refine ⟨final.toInt, hread, ?_⟩
  have hvalue : sizeValue ((pre ++ (encodePackEntryHeader type size ++ rest)).drop pre.length) =
      size := by
    rw [drop_left, hcons, cons_append, sizeValue, hnibble]
    by_cases hzero : size / 16 = 0
    · rw [if_pos (hmore.mpr hzero)]
      omega
    · rw [if_neg fun h => hzero (hmore.mp h), groupsValue_encodeSizeGroups hzero]
      exact Nat.mod_add_div size 16
  have hexact := decodeTypeAndSize_value hread
  rwa [hvalue] at hexact

theorem ofsDistanceGroups_of_ne_zero (h : remaining ≠ 0) :
    ∃ byte : UInt8, ofsDistanceGroups remaining =
        byte :: ofsDistanceGroups ((remaining - 1) / 128) ∧
      byte.toNat &&& 0x7f = (remaining - 1) % 128 ∧ byte.toNat &&& 0x80 ≠ 0 := by
  obtain ⟨-, hmore, hmore7⟩ := group_bits ((remaining - 1) % 128) (Nat.mod_lt _ (by decide))
  rw [ofsDistanceGroups, if_neg h, Nat.shiftRight_eq_div_pow, and_0x7f, Nat.or_comm]
  exact ⟨_, rfl, hmore7, hmore⟩

theorem length_ofsDistanceGroups {remaining count : ℕ} (h : remaining < 128 ^ count) :
    (ofsDistanceGroups remaining).length ≤ count := by
  induction count generalizing remaining with
  | zero =>
    obtain rfl : remaining = 0 := by omega
    rw [ofsDistanceGroups, if_pos rfl, length_nil]
  | succ count ih =>
    by_cases hzero : remaining = 0
    · rw [hzero, ofsDistanceGroups, if_pos rfl, length_nil]
      exact Nat.zero_le _
    obtain ⟨byte, hcons, -, -⟩ := ofsDistanceGroups_of_ne_zero hzero
    have hnext : (remaining - 1) / 128 < 128 ^ count := by
      have : remaining < 128 * 128 ^ count := by rwa [Nat.pow_succ, Nat.mul_comm] at h
      exact Nat.div_lt_of_lt_mul (by omega)
    have hrest := ih hnext
    rw [hcons, length_cons]
    omega

theorem decodeOfsDistance_groups (entryOffset : ℕ) {remaining count : ℕ} (pre rest : Bytes)
    (next : UInt8) (hcount : remaining < 128 ^ count) (hmax : count ≤ maxOfsDistanceBytes) :
    let bytes := pre ++ ((ofsDistanceGroups remaining).reverse ++ next :: rest)
    decodeOfsDistance bytes pre.length entryOffset = decodeDistanceFrom bytes entryOffset
        (maxOfsDistanceBytes - (ofsDistanceGroups remaining).length)
        (remaining * 128 + (next.toNat &&& 0x7f))
        (pre.length + (ofsDistanceGroups remaining).length) := by
  induction count generalizing remaining next rest with
  | zero =>
    obtain rfl : remaining = 0 := by omega
    have hgroups : ofsDistanceGroups 0 = [] := by rw [ofsDistanceGroups, if_pos rfl]
    simp [decodeOfsDistance, hgroups]
  | succ count ih =>
    by_cases hzero : remaining = 0
    · subst hzero
      have hgroups : ofsDistanceGroups 0 = [] := by rw [ofsDistanceGroups, if_pos rfl]
      simp [decodeOfsDistance, hgroups]
    obtain ⟨byte, hcons, hgroup, hmore⟩ := ofsDistanceGroups_of_ne_zero hzero
    have hnext : (remaining - 1) / 128 < 128 ^ count := by
      have : remaining < 128 * 128 ^ count := by rwa [Nat.pow_succ, Nat.mul_comm] at hcount
      exact Nat.div_lt_of_lt_mul (by omega)
    have hlength := length_ofsDistanceGroups hnext
    have hread := ih (next :: rest) byte hnext (by omega)
    have hvalue : (remaining - 1) / 128 * 128 + (remaining - 1) % 128 + 1 = remaining := by
      omega
    have hbytes : (byte :: ofsDistanceGroups ((remaining - 1) / 128)).reverse ++ next :: rest =
        (ofsDistanceGroups ((remaining - 1) / 128)).reverse ++ byte :: next :: rest := by simp
    rw [hcons, hbytes]
    dsimp only at hread ⊢
    rw [hread, hgroup]
    -- The loop has reached `byte`, goes on, and takes in `next`.
    obtain ⟨left, hleft⟩ : ∃ left, maxOfsDistanceBytes -
        (ofsDistanceGroups ((remaining - 1) / 128)).length = left + 1 :=
      Nat.exists_eq_succ_of_ne_zero (by omega)
    have hhere : (pre ++ ((ofsDistanceGroups ((remaining - 1) / 128)).reverse ++
        byte :: next :: rest))[pre.length +
          (ofsDistanceGroups ((remaining - 1) / 128)).length]? = some byte := by
      rw [getElem?_append_right (Nat.le_add_right _ _),
        getElem?_append_right (by rw [length_reverse]; omega)]
      simp
    have hafter : (pre ++ ((ofsDistanceGroups ((remaining - 1) / 128)).reverse ++
        byte :: next :: rest))[pre.length +
          (ofsDistanceGroups ((remaining - 1) / 128)).length + 1]? = some next := by
      rw [getElem?_append_right (by omega), getElem?_append_right (by rw [length_reverse]; omega)]
      have : pre.length + (ofsDistanceGroups ((remaining - 1) / 128)).length + 1 -
          pre.length - (ofsDistanceGroups ((remaining - 1) / 128)).reverse.length = 1 := by
        rw [length_reverse]
        omega
      rw [this]
      rfl
    rw [hleft, decodeDistanceFrom, hhere, Option.getD_some, if_neg hmore, hafter]
    dsimp only
    rw [hvalue, length_cons, Nat.sub_add_eq, hleft]
    rfl

/-- **An encoded distance is read back, to its last byte.** -/
theorem decodeOfsDistance_encode {distance : ℕ} (entryOffset : ℕ) (hdistance : distance < 2 ^ 32)
    (pre rest : Bytes) :
    decodeOfsDistance (pre ++ (encodeOfsDistance distance ++ rest)) pre.length entryOffset =
      .ok (distance, pre.length + (encodeOfsDistance distance).length) := by
  have hgroups : distance / 128 < 128 ^ maxOfsDistanceBytes :=
    Nat.div_lt_of_lt_mul (Nat.lt_trans hdistance (by decide))
  obtain ⟨⟨hlast, hlast7⟩, -⟩ := group_bits (distance % 128) (Nat.mod_lt _ (by decide))
  have hread := decodeOfsDistance_groups entryOffset pre rest
    (UInt8.ofNat (distance % 128)) hgroups le_rfl
  have hvalue : distance / 128 * 128 + distance % 128 = distance := Nat.div_add_mod' _ _
  have hencode : encodeOfsDistance distance =
      (ofsDistanceGroups (distance / 128)).reverse ++ [UInt8.ofNat (distance % 128)] := by
    rw [encodeOfsDistance, Nat.mod_eq_of_lt hdistance, Nat.shiftRight_eq_div_pow, and_0x7f,
      reverse_cons]
  have hhere : (pre ++ ((ofsDistanceGroups (distance / 128)).reverse ++
      UInt8.ofNat (distance % 128) :: rest))[pre.length +
        (ofsDistanceGroups (distance / 128)).length]? = some (UInt8.ofNat (distance % 128)) := by
    rw [getElem?_append_right (Nat.le_add_right _ _),
      getElem?_append_right (by rw [length_reverse]; omega)]
    simp
  rw [hencode, append_assoc, singleton_append]
  dsimp only at hread
  rw [hread, hlast7, hvalue, decodeDistanceFrom.eq_def]
  dsimp only
  rw [hhere, Option.getD_some, if_pos hlast, length_append, length_reverse,
    length_singleton, Nat.add_assoc]

/-! ### Exactness -/

/-- What an accepted header was read from. -/
theorem parsePackEntryHeader_ok {offset digestLength : ℕ}
    {header : PackEntryHeader} (h : parsePackEntryHeader bytes offset digestLength = .ok header) :
    ∃ type pos, decodeTypeAndSize bytes offset = .ok (type, header.size, pos) ∧
      ∀ size dataOffset distance, header = .ofsDelta size dataOffset distance →
        decodeOfsDistance bytes pos offset = .ok (distance, dataOffset) := by
  unfold parsePackEntryHeader at h
  obtain ⟨⟨type, size, pos⟩, hread, h⟩ := bind_eq_ok.mp h
  obtain ⟨_, -, h⟩ := bind_eq_ok.mp h
  dsimp only at h
  split at h
  · obtain ⟨⟨distance, nextPos⟩, hdistance, h⟩ := bind_eq_ok.mp h
    cases h
    refine ⟨type, pos, hread, ?_⟩
    rintro _ _ _ ⟨⟩
    exact hdistance
  refine ⟨type, pos, ?_⟩
  split at h
  · split at h
    · cases h
    · cases h
      exact ⟨hread, fun _ _ _ heq => by cases heq⟩
  · cases h
    exact ⟨hread, fun _ _ _ heq => by cases heq⟩

theorem validateEntryType_code (type : PackEntryType) (offset : ℕ) :
    validateEntryType type.code offset = .ok () := by
  cases type <;> rfl

theorem decodeTypeAndSize_nextPos {offset type nextPos : ℕ} {size : ℤ}
    (h : decodeTypeAndSize bytes offset = .ok (type, size, nextPos)) :
    nextPos = offset + sizeLength (bytes.drop offset) := by
  unfold decodeTypeAndSize at h
  cases hfirst : bytes[offset]? with
  | none =>
    rw [hfirst] at h
    cases h
  | some firstByte =>
    rw [hfirst] at h
    obtain ⟨⟨final, pos⟩, hloop, h⟩ := bind_eq_ok.mp h
    cases h
    exact decodeSizeFrom_nextPos hfirst hloop

theorem parsePackEntryHeader_encode (type : PackEntryType) {size : ℕ} (hsize : size < 2 ^ 32)
    (pre rest : Bytes) (digestLength : ℕ) :
    ∃ read : ℤ, (read = (size : ℤ) ↔ size < 2 ^ 31) ∧
      let bytes := pre ++ (encodePackEntryHeader type size ++ rest)
      let pos := pre.length + (encodePackEntryHeader type size).length
      parsePackEntryHeader bytes pre.length digestLength =
        match type with
        | .ofsDelta => do
          let (distance, nextPos) ← decodeOfsDistance bytes pos pre.length
          pure (.ofsDelta read nextPos distance)
        | .refDelta =>
          if pos + digestLength > bytes.length then
            .error (.invalidPackEntry pre.length "unexpected end of REF_DELTA base id")
          else pure (.refDelta read (pos + digestLength)
            (bytesToHex (subarray bytes pos (pos + digestLength))))
        | type => pure (.base type.code read pos) := by
  obtain ⟨read, hread, hexact⟩ := decodeTypeAndSize_encode type hsize pre rest
  refine ⟨read, hexact, ?_⟩
  dsimp only
  rw [parsePackEntryHeader, hread]
  dsimp only [bind, Except.bind]
  rw [validateEntryType_code]
  cases type <;> rfl

/-- **Headers are exact as long as the size they state is below `2 ^ 31`, and only then**: from
there on the size is negative, or has lost its upper bits. -/
theorem parsePackEntryHeader_exact_iff (pre rest : Bytes) (digestLength : ℕ) :
    (∀ type size, type ≠ PackEntryType.ofsDelta → type ≠ PackEntryType.refDelta → size < 2 ^ 32 →
      let header := encodePackEntryHeader type size
      (parsePackEntryHeader (pre ++ (header ++ rest)) pre.length digestLength =
        .ok (.base type.code size (pre.length + header.length)) ↔ size < 2 ^ 31)) ∧
    (∀ size distance, size < 2 ^ 32 → 0 < distance → distance < 2 ^ 32 →
      let header := encodePackEntryHeader .ofsDelta size ++ encodeOfsDistance distance
      (parsePackEntryHeader (pre ++ (header ++ rest)) pre.length digestLength =
        .ok (.ofsDelta size (pre.length + header.length) distance) ↔ size < 2 ^ 31)) ∧
    (∀ size baseId, size < 2 ^ 32 → baseId.length = digestLength →
      let header := encodePackEntryHeader .refDelta size ++ baseId
      (parsePackEntryHeader (pre ++ (header ++ rest)) pre.length digestLength =
        .ok (.refDelta size (pre.length + header.length) (bytesToHex baseId)) ↔ size < 2 ^ 31)) ∧
    ∀ bytes offset header, parsePackEntryHeader bytes offset digestLength = .ok header →
      (header.size = (sizeValue (bytes.drop offset) : ℤ) ↔ sizeValue (bytes.drop offset) < 2 ^ 31) ∧
      ∀ size dataOffset distance, header = .ofsDelta size dataOffset distance →
        distance = distanceValue (bytes.drop (offset + sizeLength (bytes.drop offset))) := by
  refine ⟨?_, ?_, ?_, ?_⟩
  · intro type size hofs href hsize
    obtain ⟨read, hexact, hparse⟩ := parsePackEntryHeader_encode type hsize pre rest digestLength
    have hparse' : parsePackEntryHeader (pre ++ (encodePackEntryHeader type size ++ rest))
        pre.length digestLength = .ok (.base type.code read
          (pre.length + (encodePackEntryHeader type size).length)) := by
      rw [hparse]
      cases type <;> first | rfl | contradiction
    dsimp only
    rw [hparse', ← hexact]
    simp
  · intro size distance hsize _ hdistance
    obtain ⟨read, hexact, hparse⟩ := parsePackEntryHeader_encode .ofsDelta hsize pre
      (encodeOfsDistance distance ++ rest) digestLength
    have hread := decodeOfsDistance_encode pre.length hdistance
      (pre ++ encodePackEntryHeader .ofsDelta size) rest
    rw [length_append, append_assoc] at hread
    dsimp only at hparse ⊢
    rw [hread] at hparse
    rw [append_assoc, hparse, length_append, Nat.add_assoc, ← hexact]
    simp [bind, Except.bind, pure, Except.pure]
  · intro size baseId hsize hlength
    obtain ⟨read, hexact, hparse⟩ := parsePackEntryHeader_encode .refDelta hsize pre
      (baseId ++ rest) digestLength
    dsimp only at hparse ⊢
    have hfits : ¬ pre.length + (encodePackEntryHeader .refDelta size).length + digestLength >
        (pre ++ (encodePackEntryHeader .refDelta size ++ (baseId ++ rest))).length := by
      simp only [length_append]
      omega
    have hbase : subarray (pre ++ (encodePackEntryHeader .refDelta size ++ (baseId ++ rest)))
        (pre.length + (encodePackEntryHeader .refDelta size).length)
        (pre.length + (encodePackEntryHeader .refDelta size).length + digestLength) = baseId := by
      have hwindow := subarray_append_left (pre ++ encodePackEntryHeader .refDelta size) baseId rest
      rwa [length_append, append_assoc, hlength] at hwindow
    rw [if_neg hfits, hbase] at hparse
    rw [append_assoc, hparse, length_append, hlength, Nat.add_assoc, ← hexact]
    simp [pure, Except.pure]
  · intro bytes offset header h
    obtain ⟨type, pos, hread, hdistance⟩ := parsePackEntryHeader_ok h
    refine ⟨decodeTypeAndSize_value hread, fun size dataOffset distance hheader => ?_⟩
    have hvalue := decodeOfsDistance_value (hdistance size dataOffset distance hheader)
    rwa [decodeTypeAndSize_nextPos hread] at hvalue

/-- An OFS_DELTA entry of 300 bytes whose base is 200 bytes before it. -/
theorem parsePackEntryHeader_exact_iff_ofsDelta :
    parsePackEntryHeader (encodePackEntryHeader .ofsDelta 300 ++ encodeOfsDistance 200) 0 20 =
      .ok (.ofsDelta 300 4 200) := by
  have hexact := ((parsePackEntryHeader_exact_iff [] [] 20).2.1 300 200 (by decide) (by decide)
    (by decide)).mpr (by decide)
  simpa [encodePackEntryHeader, encodeSizeGroups, encodeOfsDistance, ofsDistanceGroups] using hexact

/-- A blob of `2 ^ 31` bytes is read back with a negative size. -/
theorem parsePackEntryHeader_negative :
    parsePackEntryHeader (encodePackEntryHeader .blob (2 ^ 31)) 0 20 = .ok (.base 3 (-2 ^ 31) 5) ∧
      parsePackEntryHeader (encodePackEntryHeader .blob (2 ^ 31)) 0 20 ≠
        .ok (.base 3 (2 ^ 31) 5) := by
  have hencode : encodePackEntryHeader .blob (2 ^ 31) = [0xb0, 0x80, 0x80, 0x80, 0x40] := by
    simp [encodePackEntryHeader, encodeSizeGroups, PackEntryType.code]
  have hread : parsePackEntryHeader [0xb0, 0x80, 0x80, 0x80, 0x40] 0 20 =
      .ok (.base 3 (-2 ^ 31) 5) := rfl
  rw [hencode, hread]
  exact ⟨rfl, by simp⟩

end Tsgit.PackEntry
