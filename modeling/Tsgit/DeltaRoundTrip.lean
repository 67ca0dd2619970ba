import Tsgit.BitGroups
import Tsgit.DeltaEncode

/-!
# The Delta Round Trip

The decoder rebuilds exactly what the encoder was given, and a size limit never changes
the bytes of a delta, only whether there is one.
-/

namespace Tsgit.Delta

open BitGroups List

/-! ### The header integers -/

theorem readVarintFrom_last {bytes : Bytes} {left value shift pos : ℕ} {byte : UInt8}
    (hbyte : bytes[pos]? = some byte) (hlast : byte.toNat &&& 0x80 = 0) :
    readVarintFrom bytes left value shift pos = .ok (value ||| varintGroup byte shift, pos + 1) := by
  rw [readVarintFrom]
  simp only [hbyte, hlast, if_true]

theorem readVarintFrom_more {bytes : Bytes} {left value shift pos : ℕ} {byte : UInt8}
    (hbyte : bytes[pos]? = some byte) (hmore : byte.toNat &&& 0x80 ≠ 0) :
    readVarintFrom bytes (left + 1) value shift pos =
      readVarintFrom bytes left (value ||| varintGroup byte shift) (shift + 7) (pos + 1) := by
  rw [readVarintFrom]
  simp only [hbyte, hmore, if_false]

variable {value : ℕ}

theorem varintGroup_eq {byte : UInt8} (shift : ℕ)
    (hbyte : byte.toNat &&& 0x7f = value % 128) :
    varintGroup byte shift = (value % 128) <<< shift % 2 ^ 32 := by
  rw [varintGroup, hbyte]

theorem readVarintFrom_single {left value acc : ℕ} (shift : ℕ) {pre rest : Bytes}
    (hdiv : value / 128 = 0) :
    readVarintFrom (pre ++ ([UInt8.ofNat (value % 128)] ++ rest)) left acc shift pre.length =
      .ok (acc ||| value <<< shift % 2 ^ 32, pre.length + 1) := by
  obtain ⟨⟨hlast, hlast7⟩, -⟩ := group_bits (value % 128) (Nat.mod_lt _ (by decide))
  have hmod : value % 128 = value := by omega
  rw [readVarintFrom_last (by simp) hlast, varintGroup_eq shift hlast7, hmod]

theorem readVarintFrom_encodeVarIntGroups {left value : ℕ} {enc rest : Bytes} (pre : Bytes)
    (acc shift : ℕ) (henc : encodeVarIntGroups (left + 1) value = .ok enc) :
    readVarintFrom (pre ++ (enc ++ rest)) left acc shift pre.length =
      .ok (acc ||| value <<< shift % 2 ^ 32, pre.length + enc.length) := by
  induction left generalizing value shift acc pre enc with
  | zero =>
    simp only [encodeVarIntGroups] at henc
    split at henc
    · next hdiv =>
      cases henc
      exact readVarintFrom_single shift hdiv
    · cases henc
  | succ left ih =>
    rw [encodeVarIntGroups] at henc
    split at henc
    · next hdiv =>
      cases henc
      exact readVarintFrom_single shift hdiv
    cases hrest : encodeVarIntGroups (left + 1) (value / 128) with
    | error e => rw [hrest] at henc; cases henc
    | ok bytes =>
      rw [hrest] at henc
      cases henc
      set byte := UInt8.ofNat (value % 0x80 ||| 0x80) with hbyte
      obtain ⟨-, hmore, hmore7⟩ := group_bits (value % 128) (Nat.mod_lt _ (by decide))
      have hpre : pre ++ (byte :: bytes ++ rest) = (pre ++ [byte]) ++ (bytes ++ rest) := by
        simp
      have hnext := ih (pre ++ [byte]) (acc ||| (value % 128) <<< shift % 2 ^ 32) (shift + 7)
        hrest
      have hread : (pre ++ (byte :: bytes ++ rest))[pre.length]? = some byte := by simp
      have hjoin : (value % 128) <<< shift % 2 ^ 32 |||
          (value / 128) <<< (shift + 7) % 2 ^ 32 = value <<< shift % 2 ^ 32 := by
        rw [← Nat.or_mod_two_pow]
        exact congrArg (· % 2 ^ 32) (or_groups value 7 shift)
      rw [readVarintFrom_more hread hmore, varintGroup_eq shift hmore7,
        hpre, show pre.length + 1 = (pre ++ [byte]).length by simp, hnext, Nat.or_assoc,
        hjoin]
      simp [Nat.add_assoc, Nat.add_comm 1]

theorem encodeVarIntGroups_isOk (left : ℕ) (hval : value < 128 ^ (left + 1)) :
    ∃ enc, encodeVarIntGroups (left + 1) value = .ok enc := by
  induction left generalizing value with
  | zero =>
    have hdiv : value / 128 = 0 := Nat.div_eq_of_lt hval
    exact ⟨_, by rw [encodeVarIntGroups, if_pos hdiv]⟩
  | succ left ih =>
    by_cases hdiv : value / 128 = 0
    · exact ⟨_, by rw [encodeVarIntGroups, if_pos hdiv]⟩
    · have hrest : value / 128 < 128 ^ (left + 1) :=
        Nat.div_lt_of_lt_mul (by rwa [Nat.pow_succ, Nat.mul_comm] at hval)
      obtain ⟨bytes, hbytes⟩ := ih hrest
      exact ⟨_, by rw [encodeVarIntGroups, if_neg hdiv, hbytes]; rfl⟩

theorem readVariableLengthInt_of_encode {enc : Bytes}
    (henc : encodeDeltaVarInt value = .ok enc) (pre rest : Bytes) :
    readVariableLengthInt (pre ++ (enc ++ rest)) pre.length =
      .ok (value % 2 ^ 32, pre.length + enc.length) := by
  have hread := @readVarintFrom_encodeVarIntGroups (maxVarintBytes - 1) value enc rest pre 0 0 henc
  rwa [Nat.zero_or, Nat.shiftLeft_zero] at hread

theorem readVariableLengthInt_encodeDeltaVarInt (hval : value < 2 ^ 32) :
    ∃ enc, encodeDeltaVarInt value = .ok enc ∧ ∀ pre rest : Bytes,
      readVariableLengthInt (pre ++ (enc ++ rest)) pre.length =
        .ok (value, pre.length + enc.length) := by
  obtain ⟨enc, henc⟩ := encodeVarIntGroups_isOk (maxVarintBytes - 1)
    (Nat.lt_of_lt_of_le hval (by decide))
  refine ⟨enc, henc, fun pre rest => ?_⟩
  rw [readVariableLengthInt_of_encode henc, Nat.mod_eq_of_lt hval]

/-! ### The COPY fields -/

/-- The bytes a COPY field keeps of one byte value. -/
def copyBytes (byte : ℕ) : Bytes := if byte = 0 then [] else [UInt8.ofNat byte]

/-- The command bit a COPY field sets for one byte value. -/
def copyBit (byte bit : ℕ) : ℕ := bif byte != 0 then bit else 0

/-- Byte number `shift / 8` of a value. -/
def byteOf (value shift : ℕ) : ℕ := value >>> shift &&& 0xff

theorem byteOf_lt (value shift : ℕ) : byteOf value shift < 256 := by
  rw [byteOf, and_0xff]
  exact Nat.mod_lt _ (by decide)

theorem addCopyByte_eq (value firstBit : ℕ) (field : CopyField) (shift : ℕ) :
    addCopyByte value firstBit field shift =
      ⟨field.cmdBits ||| copyBit (byteOf value shift) (firstBit <<< (shift / 8)),
        field.bytes ++ copyBytes (byteOf value shift)⟩ := by
  simp only [addCopyByte, copyBit, copyBytes, byteOf]
  by_cases h : value >>> shift &&& 0xff = 0
  · simp [h]
  · simp [h, bne_iff_ne.mpr h]

/-- The command byte of a COPY with the given offset and size bytes. -/
def copyCommand (o0 o1 o2 o3 s0 s1 s2 : ℕ) : ℕ :=
  0x80 ||| (copyBit o0 0x01 ||| copyBit o1 0x02 ||| copyBit o2 0x04 ||| copyBit o3 0x08) |||
    (copyBit s0 0x10 ||| copyBit s1 0x20 ||| copyBit s2 0x40)

theorem encodeCopy_eq (offset size : ℕ) :
    encodeCopy offset size =
      UInt8.ofNat (copyCommand (byteOf offset 0) (byteOf offset 8) (byteOf offset 16)
        (byteOf offset 24) (byteOf size 0) (byteOf size 8) (byteOf size 16)) ::
      (copyBytes (byteOf offset 0) ++ copyBytes (byteOf offset 8) ++
        copyBytes (byteOf offset 16) ++ copyBytes (byteOf offset 24) ++
        copyBytes (byteOf size 0) ++ copyBytes (byteOf size 8) ++ copyBytes (byteOf size 16)) := by
  simp [encodeCopy, encodeCopyOffset, encodeCopySize, addCopyByte_eq, copyCommand]

private theorem command_bits : ∀ o0 o1 o2 o3 s0 s1 s2 : Bool,
    let cmd := (UInt8.ofNat (0x80 |||
      ((bif o0 then 0x01 else 0) ||| (bif o1 then 0x02 else 0) ||| (bif o2 then 0x04 else 0) |||
        (bif o3 then 0x08 else 0)) |||
      ((bif s0 then 0x10 else 0) ||| (bif s1 then 0x20 else 0) |||
        (bif s2 then 0x40 else 0)))).toNat
    hasBit cmd 0x80 = true ∧ hasBit cmd 0x01 = o0 ∧ hasBit cmd 0x02 = o1 ∧
      hasBit cmd 0x04 = o2 ∧ hasBit cmd 0x08 = o3 ∧ hasBit cmd 0x10 = s0 ∧
      hasBit cmd 0x20 = s1 ∧ hasBit cmd 0x40 = s2 := by
  decide +kernel

theorem hasBit_copyCommand (o0 o1 o2 o3 s0 s1 s2 : ℕ) :
    let cmd := (UInt8.ofNat (copyCommand o0 o1 o2 o3 s0 s1 s2)).toNat
    hasBit cmd 0x80 = true ∧ hasBit cmd 0x01 = (o0 != 0) ∧ hasBit cmd 0x02 = (o1 != 0) ∧
      hasBit cmd 0x04 = (o2 != 0) ∧ hasBit cmd 0x08 = (o3 != 0) ∧ hasBit cmd 0x10 = (s0 != 0) ∧
      hasBit cmd 0x20 = (s1 != 0) ∧ hasBit cmd 0x40 = (s2 != 0) :=
  command_bits (o0 != 0) (o1 != 0) (o2 != 0) (o3 != 0) (s0 != 0) (s1 != 0) (s2 != 0)

theorem copyFieldByte_copyBytes {bytes pre rest : Bytes} {cmd bit shift acc byte pos : ℕ}
    (hpos : pos = pre.length) (hbytes : bytes = pre ++ (copyBytes byte ++ rest))
    (hbyte : byte < 256) (hbit : hasBit cmd bit = (byte != 0)) :
    copyFieldByte bytes cmd bit shift (acc, pos) =
      (acc ||| byte <<< shift, (pre ++ copyBytes byte).length) := by
  subst hbytes hpos
  by_cases h0 : byte = 0
  · simp [copyFieldByte, hbit, h0, copyBytes]
  · simp [copyFieldByte, hbit, h0, copyBytes, Nat.mod_eq_of_lt hbyte]

theorem length_copyBytes (byte : ℕ) : (copyBytes byte).length = bif byte != 0 then 1 else 0 := by
  by_cases h : byte = 0
  · simp [copyBytes, h]
  · simp [copyBytes, h, bne_iff_ne.mpr h]

theorem countCopyFieldBytes_copyCommand (o0 o1 o2 o3 s0 s1 s2 : ℕ) :
    countCopyFieldBytes (UInt8.ofNat (copyCommand o0 o1 o2 o3 s0 s1 s2)).toNat =
      (copyBytes o0 ++ copyBytes o1 ++ copyBytes o2 ++ copyBytes o3 ++ copyBytes s0 ++
        copyBytes s1 ++ copyBytes s2).length := by
  obtain ⟨-, h1, h2, h3, h4, h5, h6, h7⟩ := hasBit_copyCommand o0 o1 o2 o3 s0 s1 s2
  rw [countCopyFieldBytes, ← countP_eq_length_filter]
  simp only [countP_cons, countP_nil, h1, h2, h3, h4, h5, h6, h7, length_append,
    length_copyBytes, cond_eq_ite]
  omega

theorem join_byteOf (hval : value < 2 ^ 32) :
    (0 ||| byteOf value 0 <<< 0 ||| byteOf value 8 <<< 8 ||| byteOf value 16 <<< 16 |||
      byteOf value 24 <<< 24) = value := by
  have h0 := or_groups value 8 0
  have h1 := or_groups (value / 2 ^ 8) 8 8
  have h2 := or_groups (value / 2 ^ 8 / 2 ^ 8) 8 16
  have h3 : value / 2 ^ 8 / 2 ^ 8 / 2 ^ 8 % 2 ^ 8 = value / 2 ^ 8 / 2 ^ 8 / 2 ^ 8 := by
    omega
  simp only [Nat.div_div_eq_div_mul, ← Nat.pow_add, Nat.reduceAdd] at h0 h1 h2 h3
  simp only [byteOf, and_0xff, Nat.shiftRight_eq_div_pow]
  rw [Nat.zero_or, show 256 = 2 ^ 8 by rfl, h3, Nat.or_assoc, Nat.or_assoc, h2, h1, Nat.pow_zero,
    Nat.div_one, h0, Nat.shiftLeft_zero]

theorem join_byteOf_three (hval : value < 2 ^ 24) :
    (0 ||| byteOf value 0 <<< 0 ||| byteOf value 8 <<< 8 ||| byteOf value 16 <<< 16) = value := by
  have hhigh : byteOf value 24 = 0 := by
    rw [byteOf, Nat.shiftRight_eq_div_pow, Nat.div_eq_of_lt hval, Nat.zero_and]
  have hjoin := join_byteOf (Nat.lt_trans hval (by decide : 2 ^ 24 < 2 ^ 32))
  rwa [hhigh, Nat.zero_shiftLeft, Nat.or_zero] at hjoin

theorem decodeCopyFields_encodeCopy {offset size : ℕ} (hoffset : offset < 2 ^ 32)
    (hpos : 0 < size) (hsize : size ≤ maxCopyBytes) :
    ∃ cmd fields, encodeCopy offset size = cmd :: fields ∧ hasBit cmd.toNat 0x80 = true ∧
      ∀ pre rest : Bytes, decodeCopyFields (pre ++ (fields ++ rest)) pre.length cmd.toNat =
        .ok (offset, size, pre.length + fields.length) := by
  refine ⟨_, _, encodeCopy_eq offset size, ?_, fun pre rest => ?_⟩
  · exact (hasBit_copyCommand ..).1
  obtain ⟨-, h1, h2, h3, h4, h5, h6, h7⟩ := hasBit_copyCommand (byteOf offset 0)
    (byteOf offset 8) (byteOf offset 16) (byteOf offset 24) (byteOf size 0) (byteOf size 8)
    (byteOf size 16)
  have hsize24 : size < 2 ^ 24 := Nat.lt_of_le_of_lt hsize (by decide)
  simp only [decodeCopyFields, countCopyFieldBytes_copyCommand]
  rw [if_neg (by simp only [length_append]; omega)]
  -- each field byte stands right behind the ones read before it
  rw [copyFieldByte_copyBytes (@rfl _ pre.length) (by simp only [append_assoc]; rfl)
      (byteOf_lt _ _) h1,
    copyFieldByte_copyBytes rfl (by simp only [append_assoc]; rfl) (byteOf_lt _ _) h2,
    copyFieldByte_copyBytes rfl (by simp only [append_assoc]; rfl) (byteOf_lt _ _) h3,
    copyFieldByte_copyBytes rfl (by simp only [append_assoc]; rfl) (byteOf_lt _ _) h4,
    copyFieldByte_copyBytes rfl (by simp only [append_assoc]; rfl) (byteOf_lt _ _) h5,
    copyFieldByte_copyBytes rfl (by simp only [append_assoc]; rfl) (byteOf_lt _ _) h6,
    copyFieldByte_copyBytes rfl (by simp only [append_assoc]; rfl) (byteOf_lt _ _) h7,
    join_byteOf hoffset, join_byteOf_three hsize24, if_neg (Nat.ne_of_gt hpos)]
  simp only [length_append, Nat.add_assoc]

/-! ### What instruction bytes write -/

/-- The instruction bytes `code` write `out`, wherever they stand in a delta and wherever the buffer
is filled to. -/
def Produces (base code out : Bytes) : Prop :=
  ∀ (pre rest result : Bytes) (resultPos : ℕ), resultPos + out.length ≤ result.length →
    applyLoop base (pre ++ (code ++ rest)) result.length pre.length result resultPos =
      applyLoop base (pre ++ (code ++ rest)) result.length (pre.length + code.length)
        (overwrite result out resultPos) (resultPos + out.length)

theorem Produces.nil (base : Bytes) : Produces base [] [] := by
  intro pre rest result resultPos h
  simp [overwrite]

theorem Produces.append {base code code' out out' : Bytes} (h : Produces base code out)
    (h' : Produces base code' out') : Produces base (code ++ code') (out ++ out') := by
  intro pre rest result resultPos hlen
  rw [length_append] at hlen
  have hfirst : resultPos + out.length ≤ result.length := by omega
  have hstep := h pre (code' ++ rest) result resultPos hfirst
  have hstep' := h' (pre ++ code) rest (overwrite result out resultPos)
    (resultPos + out.length) (by rw [length_overwrite hfirst]; omega)
  rw [length_overwrite hfirst, overwrite_overwrite hfirst, append_assoc pre,
    length_append] at hstep'
  rw [append_assoc code, hstep, hstep', length_append, length_append, Nat.add_assoc, Nat.add_assoc]

theorem applyLoop_of_applyStep {base pre tail result result' : Bytes} {cmd : UInt8}
    {targetLength resultPos nextPos nextResultPos : ℕ}
    (hstep : applyStep base (pre ++ cmd :: tail) targetLength cmd (pre.length + 1) result
      resultPos = .ok (result', nextPos, nextResultPos)) :
    applyLoop base (pre ++ cmd :: tail) targetLength pre.length result resultPos =
      applyLoop base (pre ++ cmd :: tail) targetLength nextPos result' nextResultPos := by
  have hlt : pre.length < (pre ++ cmd :: tail).length := by simp
  have hcmd : (pre ++ cmd :: tail)[pre.length] = cmd := by simp
  rw [applyLoop, dif_pos (by simp)]
  split
  · next e he => rw [hcmd, hstep] at he; cases he
  · next r np rp he =>
    rw [hcmd, hstep] at he
    cases he
    rfl

theorem hasBit_insert : ∀ n ≤ maxInsertBytes,
    hasBit (UInt8.ofNat n).toNat 0x80 = false ∧ (UInt8.ofNat n).toNat = n := by
  decide +kernel

theorem produces_encodeInsert {base data : Bytes} (hpos : 0 < data.length)
    (hlen : data.length ≤ maxInsertBytes) : Produces base (encodeInsert data) data := by
  intro pre rest result resultPos hfit
  obtain ⟨hbit, hcmd⟩ := hasBit_insert data.length hlen
  rw [encodeInsert, cons_append, length_cons]
  refine applyLoop_of_applyStep ?_
  have hdata : subarray (pre ++ UInt8.ofNat data.length :: (data ++ rest)) (pre.length + 1)
      (pre.length + 1 + data.length) = data := by
    have := subarray_append_left (pre ++ [UInt8.ofNat data.length]) data rest
    simpa [append_assoc] using this
  rw [applyStep, hbit, if_neg (by decide), applyInsert, hcmd, if_neg (by omega),
    if_neg (by simp only [length_append, length_cons]; omega), if_neg (by omega), hdata,
    Nat.add_assoc, Nat.add_comm 1]

theorem produces_encodeCopy {base : Bytes} {offset size : ℕ} (hbase : base.length < 2 ^ 32)
    (hpos : 0 < size) (hsize : size ≤ maxCopyBytes) (hfit : offset + size ≤ base.length) :
    Produces base (encodeCopy offset size) (subarray base offset (offset + size)) := by
  intro pre rest result resultPos hresult
  rw [length_subarray offset hfit, Nat.add_sub_cancel_left] at hresult ⊢
  obtain ⟨cmd, fields, henc, hbit, hfields⟩ :=
    decodeCopyFields_encodeCopy (show offset < 2 ^ 32 by omega) hpos hsize
  rw [henc, cons_append, length_cons]
  refine applyLoop_of_applyStep ?_
  have hdecode := hfields (pre ++ [cmd]) rest
  rw [append_assoc, singleton_append, length_append, length_singleton]
    at hdecode
  rw [applyStep, hbit, if_pos rfl, hdecode]
  simp only [bind, Except.bind, validateCopyBounds]
  rw [if_neg (by omega), if_neg (by omega), Nat.add_assoc, Nat.add_comm 1]

theorem applyDelta_of_produces {base target code header1 header2 : Bytes}
    (hbase : base.length < 2 ^ 32) (htarget : target.length ≤ maxTargetLength)
    (h1 : encodeDeltaVarInt base.length = .ok header1)
    (h2 : encodeDeltaVarInt target.length = .ok header2) (hcode : Produces base code target) :
    applyDelta base (header1 ++ header2 ++ code) = .ok target := by
  obtain ⟨_, henc1, hread1⟩ := readVariableLengthInt_encodeDeltaVarInt hbase
  obtain ⟨_, henc2, hread2⟩ := readVariableLengthInt_encodeDeltaVarInt
    (Nat.lt_of_le_of_lt htarget (by decide : maxTargetLength < 2 ^ 32))
  rw [h1] at henc1
  rw [h2] at henc2
  cases henc1
  cases henc2
  have hloop := hcode (header1 ++ header2) [] (replicate target.length 0) 0 (by simp)
  have hdone : applyLoop base (header1 ++ header2 ++ code) target.length
      ((header1 ++ header2).length + code.length) target target.length =
        .ok (target, target.length) := by
    rw [applyLoop, dif_neg (by simp [Nat.add_assoc])]
  rw [append_nil, length_replicate, overwrite_all (by simp), Nat.zero_add, hdone]
    at hloop
  have hread1' : readVariableLengthInt (header1 ++ header2 ++ code) 0 =
      .ok (base.length, header1.length) := by
    simpa [append_assoc] using hread1 [] (header2 ++ code)
  have hread2' : readVariableLengthInt (header1 ++ header2 ++ code) header1.length =
      .ok (target.length, (header1 ++ header2).length) := by
    simpa [append_assoc] using hread2 header1 code
  simp only [applyDelta, hread1', hread2', bind, Except.bind, validateDeltaHeader]
  rw [if_neg (by simp), if_neg (by omega)]
  simp only [hloop, ne_eq, not_true_eq_false, if_false]

/-! ### The scan covers the target -/

variable {pos literalStart : ℕ}

variable {base target : Bytes}

theorem Match.Valid.subarray_eq {found : Match}
    (h : found.Valid base target pos literalStart) (hlen : 0 < found.length) :
    subarray base found.baseOffset (found.baseOffset + found.length) =
      subarray target found.targetStart (found.targetStart + found.length) := by
  have hbase := h.base_le hlen
  have htarget := h.target_le
  apply ext_getElem?
  intro i
  rcases Nat.lt_or_ge i found.length with hi | hi
  · rw [getElem?_subarray (by omega), getElem?_subarray (by omega), h.getElem?_eq i hi]
  · rw [getElem?_eq_none (by rw [length_subarray _ hbase]; omega),
      getElem?_eq_none (by rw [length_subarray _ htarget]; omega)]

/-- What the scan keeps true of its emitter: what it has emitted produces the target up to
`literalStart`, and the running total is its bytes. -/
structure Emitter.Covers (base target : Bytes) (header : List Bytes) (literalStart : ℕ)
    (state : Emitter) : Prop where
  emitted_eq : state.emitted = state.parts.flatten.length
  produces : ∃ body, state.parts = header ++ body ∧
    Produces base body.flatten (target.take literalStart)

theorem Emitter.Covers.emit {header : List Bytes} {start stop : ℕ}
    {state state' : Emitter} {bytes : Bytes} (h : state.Covers base target header start)
    (hstart : start ≤ stop) (hbytes : Produces base bytes (subarray target start stop))
    (hemit : Delta.emit state bytes = some state') : state'.Covers base target header stop := by
  obtain ⟨hemitted, body, hparts, hbody⟩ := h
  rw [Delta.emit] at hemit
  split at hemit
  · cases hemit
  cases hemit
  refine ⟨?_, body ++ [bytes], ?_, ?_⟩
  · simp [hemitted]
  · simp [hparts]
  · rw [flatten_append, flatten_singleton, ← take_append_subarray hstart]
    exact hbody.append hbytes

theorem Emitter.Covers.flushPendingLiteral {header : List Bytes}
    {start stop : ℕ} {state state' : Emitter} (h : state.Covers base target header start)
    (hstart : start ≤ stop) (hstop : stop ≤ target.length) (hlen : stop - start ≤ maxInsertBytes)
    (hflush : Delta.flushPendingLiteral state target start stop = some state') :
    state'.Covers base target header stop := by
  rw [Delta.flushPendingLiteral] at hflush
  split at hflush
  · next heq =>
    cases hflush
    rwa [← heq]
  · have hdata := length_subarray start hstop
    exact h.emit hstart (produces_encodeInsert (by omega) (by omega)) hflush

theorem Emitter.Covers.emitMatch {header : List Bytes} {state state' : Emitter} {found : Match} {cursor : ScanCursor}
    (h : state.Covers base target header literalStart) (hbase : base.length < 2 ^ 32)
    (hpending : pos - literalStart < maxInsertBytes)
    (hvalid : found.Valid base target pos literalStart) (hlen : 0 < found.length)
    (hemit : Delta.emitMatch state target literalStart found = some (state', cursor)) :
    state'.Covers base target header (found.targetStart + found.length) := by
  have h1 := hvalid.literalStart_le
  have h2 := hvalid.targetStart_le
  have h3 := hvalid.target_le
  simp only [Delta.emitMatch, bind, Option.bind_eq_some_iff, pure, Option.some.injEq,
    Prod.mk.injEq] at hemit
  obtain ⟨flushed, hflush, _, hcopy, rfl, -⟩ := hemit
  have hflushed := h.flushPendingLiteral h1 (by omega) (by omega) hflush
  refine hflushed.emit (Nat.le_add_right _ _) ?_ hcopy
  rw [← hvalid.subarray_eq hlen]
  exact produces_encodeCopy hbase hlen hvalid.length_le (hvalid.base_le hlen)

variable {index : DeltaIndex}

/-- **The scan's invariant.** The emitted parts produce the target up to the pending run. -/
theorem scanTarget_produces {target : Bytes} {header : List Bytes}
    {state state' : Emitter} {literalStart' : ℕ}
    {hliteral : literalStart ≤ pos} (hbase : index.base.length < 2 ^ 32)
    (hpos : pos ≤ target.length) (hpending : pos - literalStart < maxInsertBytes)
    (hcovers : state.Covers index.base target header literalStart)
    (h : scanTarget index target state pos literalStart hliteral = some (state', literalStart')) :
    literalStart' ≤ target.length ∧ target.length - literalStart' < maxInsertBytes ∧
      state'.Covers index.base target header literalStart' := by
  fun_induction scanTarget index target state pos literalStart hliteral with
  | case1 => cases h
  | case2 state pos literalStart hliteral hlt found hmatch state cursor hemit ih =>
    obtain ⟨hvalid, hlen⟩ := acceptedMatch_valid hlt hliteral hmatch
    have hnext := hcovers.emitMatch hbase hpending hvalid
      (Nat.lt_of_lt_of_le (by decide) hlen) hemit
    have hend := hvalid.target_le
    simp only [emitMatch_cursor hemit] at ih h
    exact ih hend (by simp [maxInsertBytes]) hnext h
  | case3 state pos literalStart hliteral hlt _ hshort ih => exact ih hlt hshort hcovers h
  | case4 => cases h
  | case5 state pos literalStart hliteral hlt _ hfull state hemit ih =>
    have hstop : pos + 1 ≤ target.length := hlt
    have hdata := length_subarray literalStart hstop
    have hinsert : Produces index.base (encodeInsert (subarray target literalStart (pos + 1)))
        (subarray target literalStart (pos + 1)) :=
      produces_encodeInsert (by omega) (by omega)
    exact ih hlt (by simp [maxInsertBytes]) (hcovers.emit (by omega) hinsert hemit) h
  | case6 =>
    cases h
    exact ⟨by omega, by omega, hcovers⟩

theorem writeParts_eq {chunks : List Bytes} {result : Bytes} {offset : ℕ}
    (h : offset + chunks.flatten.length ≤ result.length) :
    writeParts chunks result offset = overwrite result chunks.flatten offset := by
  induction chunks generalizing result offset with
  | nil => simp [writeParts, overwrite]
  | cons chunk chunks ih =>
    rw [flatten_cons, length_append] at h
    have hchunk : offset + chunk.length ≤ result.length := by omega
    rw [writeParts, ih (by rw [length_overwrite hchunk]; omega), overwrite_overwrite hchunk,
      flatten_cons]

theorem assembleParts_eq (chunks : List Bytes) :
    assembleParts chunks chunks.flatten.length = chunks.flatten := by
  rw [assembleParts, writeParts_eq (by simp), overwrite_all (by simp)]

/-! ### The size limit -/

def Emitter.withLimit (state : Emitter) (limit : ℤ) : Emitter :=
  { state with maxSize := some limit }

/-- An unlimited emitter cut off at `limit`: nothing past it, the same parts below it. -/
def Emitter.cut (limit : ℤ) (state : Emitter) : Option Emitter :=
  if (state.emitted : ℤ) ≤ limit then some (state.withLimit limit) else none

/-- What every step of the encoder does to an unlimited emitter: it stays unlimited, and
its running total never shrinks. -/
structure Emitter.Extends (state state' : Emitter) : Prop where
  unlimited : state'.maxSize = none
  emitted_le : state.emitted ≤ state'.emitted

theorem Emitter.Extends.trans {state state' state'' : Emitter} (h : state.Extends state')
    (h' : state'.Extends state'') : state.Extends state'' :=
  ⟨h'.unlimited, h.emitted_le.trans h'.emitted_le⟩

theorem Emitter.cut_of_le {limit : ℤ} {state : Emitter} (h : (state.emitted : ℤ) ≤ limit) :
    state.cut limit = some (state.withLimit limit) := if_pos h

theorem Emitter.cut_of_lt {limit : ℤ} {state : Emitter} (h : limit < (state.emitted : ℤ)) :
    state.cut limit = none := if_neg (by omega)

theorem Emitter.cut_bind {β : Type*} {limit : ℤ} {state final : Emitter}
    {next : Emitter → Option β} {pack : Emitter → β} (hle : state.emitted ≤ final.emitted)
    (hnext : (state.emitted : ℤ) ≤ limit →
      next (state.withLimit limit) = (final.cut limit).map pack) :
    (state.cut limit).bind next = (final.cut limit).map pack := by
  by_cases h : (state.emitted : ℤ) ≤ limit
  · rw [Emitter.cut_of_le h, Option.bind_some, hnext h]
  · rw [Emitter.cut_of_lt (by omega), Emitter.cut_of_lt (by omega)]
    rfl

section

variable {state : Emitter}

theorem emit_unlimited (limit : ℤ) (hmax : state.maxSize = none) (bytes : Bytes) :
    ∃ state', emit state bytes = some state' ∧ state.Extends state' ∧
      emit (state.withLimit limit) bytes = state'.cut limit := by
  refine ⟨{ state with
    parts := state.parts ++ [bytes], emitted := state.emitted + bytes.length }, ?_,
    ⟨hmax, Nat.le_add_right _ _⟩, ?_⟩
  · simp [emit, breaches, hmax]
  · simp only [emit, breaches, Emitter.withLimit, Option.any_some, Emitter.cut]
    by_cases h : ((state.emitted + bytes.length : ℕ) : ℤ) ≤ limit
    · simp only [h, gt_iff_lt, Int.not_lt.mpr h, decide_false, if_true]
      rfl
    · simp only [h, gt_iff_lt, Int.not_le.mp h, decide_true, if_true, if_false]

theorem flushPendingLiteral_unlimited (limit : ℤ) (hmax : state.maxSize = none)
    (target : Bytes) (start stop : ℕ) :
    ∃ state', flushPendingLiteral state target start stop = some state' ∧
      state.Extends state' ∧ ((state.emitted : ℤ) ≤ limit →
        flushPendingLiteral (state.withLimit limit) target start stop = state'.cut limit) := by
  simp only [flushPendingLiteral]
  by_cases h : start = stop
  · exact ⟨state, if_pos h, ⟨hmax, Nat.le_refl _⟩,
      fun hle => by rw [if_pos h, Emitter.cut_of_le hle]⟩
  · simp only [if_neg h]
    obtain ⟨state', hemit, hext, hlimit⟩ := emit_unlimited limit hmax _
    exact ⟨state', hemit, hext, fun _ => hlimit⟩

theorem emitMatch_unlimited (limit : ℤ) (hmax : state.maxSize = none) (target : Bytes)
    (literalStart : ℕ) (found : Match) :
    ∃ state' cursor, emitMatch state target literalStart found = some (state', cursor) ∧
      state.Extends state' ∧ ((state.emitted : ℤ) ≤ limit →
        emitMatch (state.withLimit limit) target literalStart found =
          (state'.cut limit).map fun state => (state, cursor)) := by
  obtain ⟨flushed, hflush, hext, hflush'⟩ :=
    flushPendingLiteral_unlimited limit hmax target literalStart found.targetStart
  obtain ⟨copied, hcopy, hext', hcopy'⟩ :=
    emit_unlimited limit hext.unlimited (encodeCopy found.baseOffset found.length)
  refine ⟨copied, ⟨found.targetStart + found.length, found.targetStart + found.length⟩, ?_,
    hext.trans hext', fun hle => ?_⟩
  · simp only [emitMatch, hflush, hcopy, bind, Option.bind_some, pure]
  · simp only [emitMatch, hflush' hle, bind, pure]
    refine Emitter.cut_bind hext'.emitted_le fun _ => ?_
    rw [hcopy']
    cases copied.cut limit <;> rfl

theorem scanTarget_of_match {target : Bytes}
    {hliteral : literalStart ≤ pos} {found : Match} (hpos : pos < target.length)
    (hmatch : acceptedMatch index target pos literalStart = some found) :
    scanTarget index target state pos literalStart hliteral =
      (emitMatch state target literalStart found).bind fun next =>
        scanTarget index target next.1 (found.targetStart + found.length)
          (found.targetStart + found.length) (Nat.le_refl _) := by
  rw [scanTarget, dif_pos hpos]
  split
  · next found' hfound =>
    rw [hmatch] at hfound
    cases hfound
    split
    · next hemit => rw [hemit, Option.bind_none]
    · next next cursor hemit =>
      simp only [hemit, Option.bind_some, emitMatch_cursor hemit]
  · next hnone => rw [hmatch] at hnone; cases hnone

/-- One turn of the scan without a match. -/
theorem scanTarget_of_literal {target : Bytes}
    {hliteral : literalStart ≤ pos} (hpos : pos < target.length)
    (hmatch : acceptedMatch index target pos literalStart = none) :
    scanTarget index target state pos literalStart hliteral =
      if pos + 1 - literalStart < maxInsertBytes then
        scanTarget index target state (pos + 1) literalStart (Nat.le_succ_of_le hliteral)
      else
        (emit state (encodeInsert (subarray target literalStart (pos + 1)))).bind fun state =>
          scanTarget index target state (pos + 1) (pos + 1) (Nat.le_refl _) := by
  rw [scanTarget, dif_pos hpos]
  split
  · next found hfound => rw [hmatch] at hfound; cases hfound
  · refine if_congr Iff.rfl rfl ?_
    cases emit state (encodeInsert (subarray target literalStart (pos + 1))) <;> rfl

/-- **A limited scan is the unlimited one, cut off at the limit.** -/
theorem scanTarget_unlimited (index : DeltaIndex) (target : Bytes) (limit : ℤ) (hliteral : literalStart ≤ pos) (hmax : state.maxSize = none) :
    ∃ state' literalStart',
      scanTarget index target state pos literalStart hliteral = some (state', literalStart') ∧
      state.Extends state' ∧ ((state.emitted : ℤ) ≤ limit →
        scanTarget index target (state.withLimit limit) pos literalStart hliteral =
          (state'.cut limit).map fun state => (state, literalStart')) := by
  fun_induction scanTarget index target state pos literalStart hliteral with
  | case1 state pos literalStart hliteral hlt found hmatch hnone =>
    obtain ⟨_, _, hemit, -⟩ := emitMatch_unlimited limit hmax target literalStart found
    rw [hnone] at hemit
    cases hemit
  | case2 state pos literalStart hliteral hlt found hmatch state' cursor hemit ih =>
    obtain ⟨_, _, hemit', hext, hlimit⟩ :=
      emitMatch_unlimited limit hmax target literalStart found
    rw [hemit] at hemit'
    cases hemit'
    obtain ⟨final, literalStart', hscan, hext', hrest⟩ := ih hext.unlimited
    refine ⟨final, literalStart', hscan, hext.trans hext', fun hle => ?_⟩
    rw [scanTarget_of_match hlt hmatch, hlimit hle, Option.bind_map]
    refine Emitter.cut_bind hext'.emitted_le fun hle' => ?_
    simp only [emitMatch_cursor hemit] at hrest
    exact hrest hle'
  | case3 state pos literalStart hliteral hlt hnone hshort ih =>
    obtain ⟨final, literalStart', hscan, hext, hlimit⟩ := ih hmax
    refine ⟨final, literalStart', hscan, hext, fun hle => ?_⟩
    rw [scanTarget_of_literal hlt hnone, if_pos hshort, hlimit hle]
  | case4 state pos literalStart hliteral hlt hnone hfull hemit =>
    obtain ⟨_, hemit', -⟩ := emit_unlimited limit hmax
      (encodeInsert (subarray target literalStart (pos + 1)))
    rw [hemit] at hemit'
    cases hemit'
  | case5 state pos literalStart hliteral hlt hnone hfull state' hemit ih =>
    obtain ⟨_, hemit', hext, hlimit⟩ := emit_unlimited limit hmax
      (encodeInsert (subarray target literalStart (pos + 1)))
    rw [hemit] at hemit'
    cases hemit'
    obtain ⟨final, literalStart', hscan, hext', hrest⟩ := ih hext.unlimited
    refine ⟨final, literalStart', hscan, hext.trans hext', fun _ => ?_⟩
    rw [scanTarget_of_literal hlt hnone, if_neg hfull, hlimit]
    exact Emitter.cut_bind hext'.emitted_le hrest
  | case6 state pos literalStart hliteral hend =>
    refine ⟨state, literalStart, rfl, ⟨hmax, Nat.le_refl _⟩, fun hle => ?_⟩
    rw [scanTarget, dif_neg hend, Emitter.cut_of_le hle]
    rfl

end

/-! ### The round trip -/

theorem emitHeader_unlimited {baseLength targetLength : ℕ} {header1 header2 : Bytes}
    (h1 : encodeDeltaVarInt baseLength = .ok header1)
    (h2 : encodeDeltaVarInt targetLength = .ok header2) :
    let state : Emitter := ⟨[header1, header2], none, header1.length + header2.length⟩
    emitHeader ⟨[], none, 0⟩ baseLength targetLength = .ok (some state) ∧
      ∀ limit : ℤ, emitHeader ⟨[], some limit, 0⟩ baseLength targetLength =
        .ok (state.cut limit) := by
  refine ⟨by simp [emitHeader, h1, h2, emit, breaches, bind, Except.bind, pure, Except.pure],
    fun limit => ?_⟩
  have hmax : ∀ parts emitted, (⟨parts, none, emitted⟩ : Emitter).maxSize = none := fun _ _ => rfl
  obtain ⟨first, hfirst, -, hfirst'⟩ := emit_unlimited limit (hmax [] 0) header1
  obtain ⟨second, hsecond, hext, hsecond'⟩ :=
    emit_unlimited limit (hmax [header1] header1.length) header2
  simp only [emit, breaches, Option.any_none, Bool.false_eq_true, if_false, nil_append,
    Nat.zero_add, Option.some.injEq, cons_append] at hfirst hsecond
  subst hfirst hsecond
  change emit ⟨[], some limit, 0⟩ header1 = _ at hfirst'
  simp only [emitHeader, h1, h2, bind, Except.bind, pure, Except.pure, hfirst']
  by_cases hle : ((header1.length : ℕ) : ℤ) ≤ limit
  · rw [Emitter.cut_of_le hle]
    exact congrArg Except.ok hsecond'
  · rw [Emitter.cut_of_lt (by simpa using hle), Emitter.cut_of_lt]
    have := hext.emitted_le
    simp only at this ⊢
    omega

theorem encodeDeltaFromIndex_spec (index : DeltaIndex) {target : Bytes}
    (hbase : index.base.length < 2 ^ 32) (htarget : target.length ≤ maxTargetLength) :
    ∃ delta, encodeDeltaFromIndex index target none = .ok (some delta) ∧
      applyDelta index.base delta = .ok target ∧
      ∀ limit : ℤ, encodeDeltaFromIndex index target (some limit) =
        .ok (if (delta.length : ℤ) ≤ limit then some delta else none) := by
  obtain ⟨header1, h1, -⟩ := readVariableLengthInt_encodeDeltaVarInt hbase
  obtain ⟨header2, h2, -⟩ := readVariableLengthInt_encodeDeltaVarInt
    (Nat.lt_of_le_of_lt htarget (by decide : maxTargetLength < 2 ^ 32))
  obtain ⟨hheader, hheader'⟩ := emitHeader_unlimited h1 h2
  set start : Emitter := ⟨[header1, header2], none, header1.length + header2.length⟩
    with hstart
  obtain ⟨scanned, literalStart, hscan, hext, -⟩ :=
    scanTarget_unlimited index target 0 (Nat.le_refl 0) (show start.maxSize = none from rfl)
  obtain ⟨final, hflush, hext', -⟩ := flushPendingLiteral_unlimited 0
    hext.unlimited target literalStart target.length
  -- what the parts decode to
  have hstart_covers : start.Covers index.base target [header1, header2] 0 :=
    ⟨by simp [hstart], [], rfl, Produces.nil index.base⟩
  obtain ⟨hliteral, hpending, hscanned⟩ := scanTarget_produces hbase (Nat.zero_le _)
    (by decide) hstart_covers hscan
  obtain ⟨hemitted, body, hparts, hbody⟩ :=
    hscanned.flushPendingLiteral hliteral (Nat.le_refl _) (by omega) hflush
  have hassemble : assembleParts final.parts final.emitted = header1 ++ header2 ++ body.flatten := by
    rw [hemitted, assembleParts_eq, hparts]
    simp
  rw [take_length] at hbody
  refine ⟨header1 ++ header2 ++ body.flatten, ?_,
    applyDelta_of_produces hbase htarget h1 h2 hbody, fun limit => ?_⟩
  · simp only [encodeDeltaFromIndex, hheader, bind, Except.bind, Option.bind_some, hscan, hflush,
      pure, Except.pure, hassemble]
  have hlength : (header1 ++ header2 ++ body.flatten).length = final.emitted := by
    rw [hemitted, hparts]
    simp
  obtain ⟨_, _, hscan', -, hscanLimit⟩ :=
    scanTarget_unlimited index target limit (Nat.le_refl 0) (show start.maxSize = none from rfl)
  rw [hscan] at hscan'
  cases hscan'
  obtain ⟨_, hflush', -, hflushLimit⟩ := flushPendingLiteral_unlimited limit
    hext.unlimited target literalStart target.length
  rw [hflush] at hflush'
  cases hflush'
  have hcut : (start.cut limit).bind (fun state =>
      (scanTarget index target state 0 0 (Nat.le_refl 0)).bind fun scanned =>
        (flushPendingLiteral scanned.1 target scanned.2 target.length).bind fun state =>
          some (assembleParts state.parts state.emitted)) =
      (final.cut limit).map fun state => assembleParts state.parts state.emitted := by
    refine Emitter.cut_bind (hext.emitted_le.trans hext'.emitted_le) fun hle => ?_
    rw [hscanLimit hle, Option.bind_map]
    refine Emitter.cut_bind hext'.emitted_le fun hle' => ?_
    simp only [Function.comp_apply]
    rw [hflushLimit hle']
    cases final.cut limit <;> rfl
  simp only [encodeDeltaFromIndex, hheader', bind, Except.bind, pure, Except.pure]
  refine congrArg Except.ok (hcut.trans ?_)
  rw [hlength, ← hassemble, Emitter.cut]
  split <;> rfl

/-- **The delta codec round trip.** Every base below 32 bits of length and every admitted target
have a delta, which decodes to the target. -/
theorem applyDelta_encodeDelta (base target : Bytes) (hbase : base.length < 2 ^ 32)
    (htarget : target.length ≤ maxTargetLength) :
    ∃ delta, encodeDelta base target none = .ok (some delta) ∧ applyDelta base delta = .ok target ∧
      ∀ limit : ℤ, encodeDelta base target (some limit) =
        .ok (if (delta.length : ℤ) ≤ limit then some delta else none) :=
  encodeDeltaFromIndex_spec (createDeltaIndex base) hbase htarget

/-- A base of one block, which the target copies behind a byte. -/
def oneBlock : Bytes := List.replicate 16 7

theorem applyDelta_encodeDelta_single :
    oneBlock.length < 2 ^ 32 ∧ (3 :: oneBlock).length ≤ maxTargetLength ∧
      ∃ delta, encodeDelta oneBlock (3 :: oneBlock) none = .ok (some delta) ∧
        applyDelta oneBlock delta = .ok (3 :: oneBlock) ∧
        ∀ limit : ℤ, encodeDelta oneBlock (3 :: oneBlock) (some limit) =
          .ok (if (delta.length : ℤ) ≤ limit then some delta else none) :=
  ⟨by decide, by decide, applyDelta_encodeDelta oneBlock (3 :: oneBlock) (by decide) (by decide)⟩

end Tsgit.Delta
