import Tsgit.Hex

/-!
# Decoding UTF-8

`encode`, `decode` and `decodePreservingBom` of `src/domain/objects/encoding.ts`: the text
encoder and decoder of the platform. The decoder puts U+FFFD in the place of what is not
well-formed UTF-8.
-/

namespace Tsgit

open List

def encode (text : Text) : Bytes := text.flatMap String.utf8EncodeChar

/-- What the decoder waits for: the code point so far, how many bytes are missing, and the
bounds of the next one. -/
structure Pending where
  codePoint : ℕ
  needed : ℕ
  lower : ℕ
  upper : ℕ
  deriving DecidableEq

def replacementCharacter : Char := '\uFFFD'

/-- A byte between two characters: the characters it completes, and what it waits for. -/
def startSequence (byte : ℕ) : Text × Option Pending :=
  if byte ≤ 0x7f then ([Char.ofNat byte], none)
  else if 0xc2 ≤ byte ∧ byte ≤ 0xdf then ([], some ⟨byte &&& 0x1f, 1, 0x80, 0xbf⟩)
  else if 0xe0 ≤ byte ∧ byte ≤ 0xef then
    ([], some ⟨byte &&& 0x0f, 2, if byte = 0xe0 then 0xa0 else 0x80,
      if byte = 0xed then 0x9f else 0xbf⟩)
  else if 0xf0 ≤ byte ∧ byte ≤ 0xf4 then
    ([], some ⟨byte &&& 0x07, 3, if byte = 0xf0 then 0x90 else 0x80,
      if byte = 0xf4 then 0x8f else 0xbf⟩)
  else ([replacementCharacter], none)

def continueSequence (pending : Pending) (byte : ℕ) : Text × Option Pending :=
  if pending.lower ≤ byte ∧ byte ≤ pending.upper then
    let codePoint := pending.codePoint <<< 6 ||| (byte &&& 0x3f)
    if pending.needed = 1 then ([Char.ofNat codePoint], none)
    else ([], some ⟨codePoint, pending.needed - 1, 0x80, 0xbf⟩)
  else
    let (text, next) := startSequence byte
    (replacementCharacter :: text, next)

def decodeFrom : Option Pending → Bytes → Text
  | none, [] => []
  | some _, [] => [replacementCharacter]
  | none, byte :: rest =>
    let (text, pending) := startSequence byte.toNat
    text ++ decodeFrom pending rest
  | some pending, byte :: rest =>
    let (text, pending) := continueSequence pending byte.toNat
    text ++ decodeFrom pending rest

def decodePreservingBom (bytes : Bytes) : Text := decodeFrom none bytes

/-- The decoder drops a byte-order mark in front. -/
def decode : Bytes → Text
  | 0xef :: 0xbb :: 0xbf :: rest => decodePreservingBom rest
  | bytes => decodePreservingBom bytes

/-- Whether a text that was decoded encodes to the same bytes. One without U+FFFD does. -/
def decodesLosslessly (text : Text) (raw : Bytes) : Bool :=
  replacementCharacter ∉ text ∨ encode text = raw

theorem decodePreservingBom_ascii {bytes : Bytes} (h : ∀ byte ∈ bytes, byte.toNat ≤ 0x7f) :
    decodePreservingBom bytes = bytes.map fun byte => Char.ofNat byte.toNat := by
  induction bytes with
  | nil => rfl
  | cons byte rest ih =>
    have hstart : startSequence byte.toNat = ([Char.ofNat byte.toNat], none) :=
      if_pos (h byte mem_cons_self)
    have hrest := ih fun byte' hmem => h byte' (mem_cons_of_mem _ hmem)
    rw [decodePreservingBom] at hrest
    rw [decodePreservingBom, decodeFrom, hstart]
    dsimp only
    rw [hrest, singleton_append, map_cons]

theorem decode_ascii {bytes : Bytes} (h : ∀ byte ∈ bytes, byte.toNat ≤ 0x7f) :
    decode bytes = bytes.map fun byte => Char.ofNat byte.toNat := by
  unfold decode
  split
  · have hmark := h 0xef mem_cons_self
    exact absurd hmark (by decide)
  · exact decodePreservingBom_ascii h

/-! ### ASCII in any bytes -/

theorem startSequence_lower {byte : ℕ} {pending : Pending}
    (h : (startSequence byte).2 = some pending) : 0x80 ≤ pending.lower := by
  unfold startSequence at h
  split_ifs at h
  all_goals
    cases h
    dsimp only
    omega

theorem continueSequence_lower {byte : ℕ} {before pending : Pending}
    (h : (continueSequence before byte).2 = some pending) : 0x80 ≤ pending.lower := by
  unfold continueSequence at h
  split at h
  · dsimp only at h
    split at h
    · cases h
    · cases h
      dsimp only
      omega
  · exact startSequence_lower h

/-- **An ASCII byte is decoded as its character**, whatever stands around it: it ends a sequence
that is not complete. -/
theorem mem_decodeFrom_of_ascii {bytes : Bytes} {pending : Option Pending} {byte : UInt8}
    (hpending : ∀ waits, pending = some waits → 0x80 ≤ waits.lower) (hbyte : byte.toNat ≤ 0x7f)
    (hmem : byte ∈ bytes) : Char.ofNat byte.toNat ∈ decodeFrom pending bytes := by
  induction bytes generalizing pending with
  | nil => cases hmem
  | cons head rest ih =>
    have hstart : startSequence byte.toNat = ([Char.ofNat byte.toNat], none) := if_pos hbyte
    cases pending with
    | none =>
      rw [decodeFrom]
      rcases mem_cons.mp hmem with rfl | hrest
      · rw [hstart]
        exact mem_cons_self
      · exact mem_append_right _ (ih (fun _ => startSequence_lower) hrest)
    | some waits =>
      have hlower := hpending waits rfl
      rw [decodeFrom]
      rcases mem_cons.mp hmem with rfl | hrest
      · rw [continueSequence, if_neg (by omega), hstart]
        exact mem_cons_of_mem _ mem_cons_self
      · exact mem_append_right _ (ih (fun _ => continueSequence_lower) hrest)

/-! ### Encoded texts -/

/-- A continuation byte carries six bits. -/
theorem and_continuation (v : ℕ) : (v % 0x40 + 0x80) &&& 0x3f = v % 0x40 := by
  have hmod : (v % 0x40 + 0x80) &&& 0x3f = (v % 0x40 + 0x80) % 2 ^ 6 :=
    Nat.and_two_pow_sub_one_eq_mod _ 6
  rw [hmod]
  omega

theorem shiftLeft_six_or {a b : ℕ} (h : b < 0x40) : a <<< 6 ||| b = a * 0x40 + b := by
  rw [← Nat.shiftLeft_add_eq_or_of_lt h, Nat.shiftLeft_eq]

theorem continueSequence_more {codePoint needed lower upper v : ℕ} (hlower : lower ≤ v % 0x40 + 0x80)
    (hupper : v % 0x40 + 0x80 ≤ upper) (hneeded : needed ≠ 0) :
    continueSequence ⟨codePoint, needed + 1, lower, upper⟩ (v % 0x40 + 0x80) =
      ([], some ⟨codePoint * 0x40 + v % 0x40, needed, 0x80, 0xbf⟩) := by
  unfold continueSequence
  dsimp only
  rw [if_pos ⟨hlower, hupper⟩, if_neg (by omega), and_continuation, shiftLeft_six_or (by omega),
    Nat.add_sub_cancel]

theorem continueSequence_last {codePoint lower upper v : ℕ} (hlower : lower ≤ v % 0x40 + 0x80)
    (hupper : v % 0x40 + 0x80 ≤ upper) :
    continueSequence ⟨codePoint, 1, lower, upper⟩ (v % 0x40 + 0x80) =
      ([Char.ofNat (codePoint * 0x40 + v % 0x40)], none) := by
  unfold continueSequence
  dsimp only
  rw [if_pos ⟨hlower, hupper⟩, if_pos rfl, and_continuation, shiftLeft_six_or (by omega)]

/-- The lead of two bytes. -/
theorem startSequence_two {v : ℕ} (hlower : 0x80 ≤ v) (hupper : v ≤ 0x7ff) :
    startSequence (v / 64 % 0x20 + 0xc0) = ([], some ⟨v / 64, 1, 0x80, 0xbf⟩) := by
  have hand : (v / 64 % 0x20 + 0xc0) &&& 0x1f = v / 64 := by
    have hmod : (v / 64 % 0x20 + 0xc0) &&& 0x1f = (v / 64 % 0x20 + 0xc0) % 2 ^ 5 :=
      Nat.and_two_pow_sub_one_eq_mod _ 5
    rw [hmod]
    omega
  rw [startSequence, if_neg (by omega), if_pos (by omega), hand]

theorem startSequence_three {v : ℕ} (hlower : 0x800 ≤ v) (hupper : v ≤ 0xffff)
    (hvalid : v < 0xd800 ∨ 0xdfff < v) :
    ∃ lower upper, startSequence (v / 4096 % 0x10 + 0xe0) = ([], some ⟨v / 4096, 2, lower, upper⟩) ∧
      lower ≤ v / 64 % 0x40 + 0x80 ∧ v / 64 % 0x40 + 0x80 ≤ upper := by
  have hand : (v / 4096 % 0x10 + 0xe0) &&& 0x0f = v / 4096 := by
    have hmod : (v / 4096 % 0x10 + 0xe0) &&& 0x0f = (v / 4096 % 0x10 + 0xe0) % 2 ^ 4 :=
      Nat.and_two_pow_sub_one_eq_mod _ 4
    rw [hmod]
    omega
  refine ⟨_, _, by rw [startSequence, if_neg (by omega), if_neg (by omega), if_pos (by omega), hand],
    ?_, ?_⟩
  · split
    · omega
    · omega
  · split
    · omega
    · omega

theorem startSequence_four {v : ℕ} (hlower : 0xffff < v) (hupper : v < 0x110000) :
    ∃ lower upper, startSequence (v / 262144 % 0x08 + 0xf0) =
        ([], some ⟨v / 262144, 3, lower, upper⟩) ∧
      lower ≤ v / 4096 % 0x40 + 0x80 ∧ v / 4096 % 0x40 + 0x80 ≤ upper := by
  have hand : (v / 262144 % 0x08 + 0xf0) &&& 0x07 = v / 262144 := by
    have hmod : (v / 262144 % 0x08 + 0xf0) &&& 0x07 = (v / 262144 % 0x08 + 0xf0) % 2 ^ 3 :=
      Nat.and_two_pow_sub_one_eq_mod _ 3
    rw [hmod]
    omega
  refine ⟨_, _, by rw [startSequence, if_neg (by omega), if_neg (by omega), if_neg (by omega),
    if_pos (by omega), hand], ?_, ?_⟩
  · split
    · omega
    · omega
  · split
    · omega
    · omega

variable {text : Text}

theorem decodeFrom_none_cons {byte : ℕ} {rest : Bytes}
    {pending : Option Pending} (hbyte : byte < 256) (h : startSequence byte = (text, pending)) :
    decodeFrom none (UInt8.ofNat byte :: rest) = text ++ decodeFrom pending rest := by
  have hself : (UInt8.ofNat byte).toNat = byte := Nat.mod_eq_of_lt hbyte
  rw [decodeFrom, hself, h]

theorem decodeFrom_some_cons {pending : Pending} {byte : ℕ} {rest : Bytes}
    {next : Option Pending} (hbyte : byte < 256)
    (h : continueSequence pending byte = (text, next)) :
    decodeFrom (some pending) (UInt8.ofNat byte :: rest) = text ++ decodeFrom next rest := by
  have hself : (UInt8.ofNat byte).toNat = byte := Nat.mod_eq_of_lt hbyte
  rw [decodeFrom, hself, h]

theorem utf8EncodeChar_eq (c : Char) {v : ℕ} (hv : v = c.toNat) : String.utf8EncodeChar c =
    if v ≤ 0x7f then [UInt8.ofNat v]
    else if v ≤ 0x7ff then
      [UInt8.ofNat (v / 64 % 0x20 + 0xc0), UInt8.ofNat (v % 0x40 + 0x80)]
    else if v ≤ 0xffff then
      [UInt8.ofNat (v / 4096 % 0x10 + 0xe0), UInt8.ofNat (v / 64 % 0x40 + 0x80),
        UInt8.ofNat (v % 0x40 + 0x80)]
    else
      [UInt8.ofNat (v / 262144 % 0x08 + 0xf0), UInt8.ofNat (v / 4096 % 0x40 + 0x80),
        UInt8.ofNat (v / 64 % 0x40 + 0x80), UInt8.ofNat (v % 0x40 + 0x80)] := by
  rw [hv]
  rfl

theorem toNat_ofNat_byte {n : ℕ} (h : n < 256) : (UInt8.ofNat n).toNat = n := Nat.mod_eq_of_lt h

/-- A byte below 0x80 is its character. -/
theorem toNat_of_mem_utf8EncodeChar {c : Char} {byte : UInt8}
    (hmem : byte ∈ String.utf8EncodeChar c) (hbyte : byte.toNat ≤ 0x7f) : byte.toNat = c.toNat := by
  rw [utf8EncodeChar_eq c rfl] at hmem
  split_ifs at hmem with hone htwo hthree
  · obtain rfl := mem_singleton.mp hmem
    exact toNat_ofNat_byte (by omega)
  · simp only [mem_cons, not_mem_nil, or_false] at hmem
    rcases hmem with rfl | rfl <;> rw [toNat_ofNat_byte (by omega)] at hbyte <;> omega
  · simp only [mem_cons, not_mem_nil, or_false] at hmem
    rcases hmem with rfl | rfl | rfl <;> rw [toNat_ofNat_byte (by omega)] at hbyte <;> omega
  · simp only [mem_cons, not_mem_nil, or_false] at hmem
    have hvalid : c.toNat < 0xd800 ∨ 0xdfff < c.toNat ∧ c.toNat < 0x110000 := c.valid
    rcases hmem with rfl | rfl | rfl | rfl <;> rw [toNat_ofNat_byte (by omega)] at hbyte <;> omega

theorem not_mem_encode {byte : UInt8} {c : Char} (hc : c.toNat = byte.toNat)
    (hbyte : byte.toNat ≤ 0x7f) (h : c ∉ text) : byte ∉ encode text := by
  intro hmem
  obtain ⟨other, hother, hfound⟩ := mem_flatMap.mp hmem
  have hsame := toNat_of_mem_utf8EncodeChar hfound hbyte
  have hequal : other = c := Char.ext (UInt32.toNat_inj.mp (hsame.symm.trans hc.symm))
  exact h (hequal ▸ hother)

theorem decodeFrom_utf8EncodeChar (c : Char) (rest : Bytes) :
    decodeFrom none (String.utf8EncodeChar c ++ rest) = c :: decodeFrom none rest := by
  have hvalid : c.toNat < 0xd800 ∨ 0xdfff < c.toNat ∧ c.toNat < 0x110000 := c.valid
  have hself : Char.ofNat c.toNat = c := Char.ofNat_toNat c
  obtain ⟨v, hv⟩ : ∃ v, v = c.toNat := ⟨_, rfl⟩
  rw [← hv] at hvalid hself
  rw [utf8EncodeChar_eq c hv]
  split_ifs with hone htwo hthree
  · have hlead : startSequence v = ([c], none) := by
      rw [startSequence, if_pos hone, hself]
    rw [singleton_append, decodeFrom_none_cons (by omega) hlead]
    rfl
  · have hlead := startSequence_two (show 0x80 ≤ v by omega) htwo
    have hlast := @continueSequence_last (v / 64) 0x80 0xbf v (by omega) (by omega)
    have hpoint : v / 64 * 0x40 + v % 0x40 = v := by omega
    rw [hpoint, hself] at hlast
    rw [cons_append, cons_append, nil_append, decodeFrom_none_cons (by omega) hlead,
      decodeFrom_some_cons (by omega) hlast]
    rfl
  · obtain ⟨lower, upper, hlead, hlower, hupper⟩ :=
      startSequence_three (show 0x800 ≤ v by omega) hthree (by omega)
    have hmore := @continueSequence_more (v / 4096) 1 lower upper (v / 64) hlower hupper one_ne_zero
    have hmid : v / 4096 * 0x40 + v / 64 % 0x40 = v / 64 := by omega
    have hlast := @continueSequence_last (v / 64) 0x80 0xbf v (by omega) (by omega)
    have hpoint : v / 64 * 0x40 + v % 0x40 = v := by omega
    rw [hmid] at hmore
    rw [hpoint, hself] at hlast
    rw [cons_append, cons_append, cons_append, nil_append, decodeFrom_none_cons (by omega) hlead,
      decodeFrom_some_cons (by omega) hmore,
      decodeFrom_some_cons (by omega) hlast]
    rfl
  · obtain ⟨lower, upper, hlead, hlower, hupper⟩ :=
      startSequence_four (show 0xffff < v by omega) (by omega)
    have hfirst := @continueSequence_more (v / 262144) 2 lower upper (v / 4096) hlower hupper
      two_ne_zero
    have hhigh : v / 262144 * 0x40 + v / 4096 % 0x40 = v / 4096 := by omega
    have hmore := @continueSequence_more (v / 4096) 1 0x80 0xbf (v / 64) (by omega) (by omega)
      one_ne_zero
    have hmid : v / 4096 * 0x40 + v / 64 % 0x40 = v / 64 := by omega
    have hlast := @continueSequence_last (v / 64) 0x80 0xbf v (by omega) (by omega)
    have hpoint : v / 64 * 0x40 + v % 0x40 = v := by omega
    rw [hhigh] at hfirst
    rw [hmid] at hmore
    rw [hpoint, hself] at hlast
    rw [cons_append, cons_append, cons_append, cons_append, nil_append,
      decodeFrom_none_cons (by omega) hlead,
      decodeFrom_some_cons (by omega) hfirst,
      decodeFrom_some_cons (by omega) hmore,
      decodeFrom_some_cons (by omega) hlast]
    rfl

/-- **What was encoded is decoded.** -/
theorem decodePreservingBom_encode (text : Text) : decodePreservingBom (encode text) = text := by
  induction text with
  | nil => rfl
  | cons c text ih =>
    rw [encode, flatMap_cons, decodePreservingBom, decodeFrom_utf8EncodeChar]
    exact congrArg (c :: ·) ih

theorem encode_byteOrderMark : String.utf8EncodeChar '\uFEFF' = [0xef, 0xbb, 0xbf] := by decide

theorem decode_encode (h : text.head? ≠ some '\uFEFF') :
    decode (encode text) = text := by
  unfold decode
  split
  · next rest hmark =>
    have hdecoded := decodePreservingBom_encode text
    rw [hmark] at hdecoded
    have hfront := decodeFrom_utf8EncodeChar '\uFEFF' rest
    rw [encode_byteOrderMark] at hfront
    rw [← hdecoded, decodePreservingBom] at h
    exact absurd (congrArg List.head? hfront) h
  · exact decodePreservingBom_encode text

example : decode [0xef, 0xbb, 0xbf, 0x61, 0xc3, 0xa9, 0xf0, 0x9f, 0x62] =
    ['a', 'é', '\uFFFD', 'b'] := by decide

end Tsgit
