import Tsgit.Bytes
import Tsgit.Error

/-!
# Hexadecimal Ids

`bytesToHex` and `hexToBytes` of `src/domain/objects/encoding.ts`, the hash configurations of
`src/domain/objects/hash-config.ts` and `ObjectId.fromRaw`. Texts are lists of characters.
-/

namespace Tsgit

open List

abbrev Text := List Char

/-- The digit of a value below 16. -/
def hexDigit (value : ℕ) : Char :=
  ['0', '1', '2', '3', '4', '5', '6', '7', '8', '9', 'a', 'b', 'c', 'd', 'e', 'f'].getD value '0'

def bytesToHex (bytes : Bytes) : Text :=
  bytes.flatMap fun byte => [hexDigit (byte.toNat / 16), hexDigit (byte.toNat % 16)]

def parseHexDigit (digit : Char) : Option ℕ :=
  let charCode := digit.toNat
  if 48 ≤ charCode ∧ charCode ≤ 57 then some (charCode - 48)
  else if 97 ≤ charCode ∧ charCode ≤ 102 then some (charCode - 87)
  else none

def hexToBytesFrom : ℕ → Text → Except Thrown Bytes
  | i, high :: low :: rest =>
    match parseHexDigit high, parseHexDigit low with
    | some h, some l => do
      let bytes ← hexToBytesFrom (i + 2) rest
      pure (UInt8.ofNat (h <<< 4 ||| l) :: bytes)
    | _, _ => .error (.plain s!"Invalid hex character at position {i}")
  | _, _ => .ok []

def hexToBytes (hex : Text) : Except Thrown Bytes :=
  if hex.length % 2 ≠ 0 then .error (.plain "Hex string must have even length")
  else hexToBytesFrom 0 hex

/-- A character of `[0-9a-f]`. -/
def isHexDigit (digit : Char) : Bool := (parseHexDigit digit).isSome

def hexWord (word : ℕ) : String :=
  let digits := Nat.toDigits 16 word
  String.ofList (replicate (8 - digits.length) '0' ++ digits)

theorem length_bytesToHex (bytes : Bytes) : (bytesToHex bytes).length = 2 * bytes.length := by
  induction bytes with
  | nil => rfl
  | cons byte bytes ih =>
    rw [bytesToHex, flatMap_cons, length_append, length_cons]
    rw [bytesToHex] at ih
    rw [ih]
    simp only [length_cons, length_nil]
    omega

theorem hexDigit_injective : ∀ a < 16, ∀ b < 16, hexDigit a = hexDigit b → a = b := by
  decide +kernel

theorem bytesToHex_cons (byte : UInt8) (bytes : Bytes) :
    bytesToHex (byte :: bytes) =
      hexDigit (byte.toNat / 16) :: hexDigit (byte.toNat % 16) :: bytesToHex bytes := rfl

theorem bytesToHex_injective : Function.Injective bytesToHex := by
  intro as
  induction as with
  | nil =>
    intro bs h
    cases bs with
    | nil => rfl
    | cons b bs => cases h
  | cons a as ih =>
    intro bs h
    cases bs with
    | nil => cases h
    | cons b bs =>
      rw [bytesToHex_cons, bytesToHex_cons] at h
      injection h with hhigh h
      injection h with hlow h
      have ha := a.toNat_lt
      have hb := b.toNat_lt
      have hhigh' := hexDigit_injective _ (by omega) _ (by omega) hhigh
      have hlow' := hexDigit_injective _ (by omega) _ (by omega) hlow
      have hbyte : a = b := UInt8.toNat_inj.mp (by omega)
      rw [hbyte, ih h]

/-! ### Reading digits -/

theorem parseHexDigit_hexDigit : ∀ value < 16, parseHexDigit (hexDigit value) = some value := by
  decide +kernel

theorem hexDigit_parseHexDigit {digit : Char} {value : ℕ} (h : parseHexDigit digit = some value) :
    value < 16 ∧ hexDigit value = digit := by
  have hdigits : ∀ code < 58, 48 ≤ code → hexDigit (code - 48) = Char.ofNat code := by
    decide +kernel
  have hletters : ∀ code < 103, 97 ≤ code → hexDigit (code - 87) = Char.ofNat code := by
    decide +kernel
  unfold parseHexDigit at h
  dsimp only at h
  split at h
  · next hrange =>
    cases h
    refine ⟨by omega, ?_⟩
    rw [hdigits _ (by omega) hrange.1, Char.ofNat_toNat]
  split at h
  · next hrange =>
    cases h
    refine ⟨by omega, ?_⟩
    rw [hletters _ (by omega) hrange.1, Char.ofNat_toNat]
  · cases h

theorem hexToBytesFrom_spec (i : ℕ) {hex : Text} (heven : hex.length % 2 = 0)
    (hdigits : ∀ c ∈ hex, isHexDigit c = true) :
    ∃ bytes, hexToBytesFrom i hex = .ok bytes ∧ bytesToHex bytes = hex := by
  induction i, hex using hexToBytesFrom.induct with
  | case1 i high low rest h l hl hh ih =>
    have hrest : rest.length % 2 = 0 := by
      simp only [length_cons] at heven
      omega
    obtain ⟨bytes, hbytes, hhex⟩ := ih hrest fun c hc =>
      hdigits c (mem_cons_of_mem _ (mem_cons_of_mem _ hc))
    obtain ⟨hlt, hhigh⟩ := hexDigit_parseHexDigit hh
    obtain ⟨hlt', hlow⟩ := hexDigit_parseHexDigit hl
    have hbyte : (UInt8.ofNat (h <<< 4 ||| l)).toNat = h * 16 + l := by
      rw [UInt8.toNat_ofNat', ← Nat.shiftLeft_add_eq_or_of_lt (show l < 2 ^ 4 from hlt'),
        Nat.shiftLeft_eq]
      omega
    refine ⟨UInt8.ofNat (h <<< 4 ||| l) :: bytes, ?_, ?_⟩
    · rw [hexToBytesFrom, hh, hl]
      dsimp only
      rw [hbytes]
      rfl
    · have hdiv : (h * 16 + l) / 16 = h := by omega
      have hmod : (h * 16 + l) % 16 = l := by omega
      rw [bytesToHex_cons, hbyte, hdiv, hmod, hhigh, hlow, hhex]
  | case2 i high low rest hnone =>
    have hhigh := hdigits high mem_cons_self
    have hlow := hdigits low (mem_cons_of_mem _ mem_cons_self)
    obtain ⟨h, hh⟩ := Option.isSome_iff_exists.mp hhigh
    obtain ⟨l, hl⟩ := Option.isSome_iff_exists.mp hlow
    exact absurd hl (hnone h l hh)
  | case3 hex i hshort =>
    cases hex with
    | nil => exact ⟨[], rfl, rfl⟩
    | cons high rest =>
      cases rest with
      | nil => cases heven
      | cons low rest => exact absurd rfl (hshort high low rest)

theorem hexToBytes_spec {hex : Text} (heven : hex.length % 2 = 0)
    (hdigits : ∀ c ∈ hex, isHexDigit c = true) :
    ∃ bytes, hexToBytes hex = .ok bytes ∧ bytesToHex bytes = hex := by
  rw [hexToBytes, if_neg (not_not_intro heven)]
  exact hexToBytesFrom_spec 0 heven hdigits

/-- `ObjectId`: the lower case hex of 20 or of 32 bytes. -/
structure IsObjectId (id : Text) : Prop where
  length_eq : id.length = 40 ∨ id.length = 64
  digits : ∀ c ∈ id, isHexDigit c = true

theorem isObjectId_replicate {c : Char} (h : isHexDigit c = true) :
    IsObjectId (replicate 40 c) :=
  ⟨.inl length_replicate, fun _ hmem => by rwa [eq_of_mem_replicate hmem]⟩

theorem IsObjectId.toBytes {id : Text} (h : IsObjectId id) :
    ∃ bytes, hexToBytes id = .ok bytes ∧ bytesToHex bytes = id := by
  refine hexToBytes_spec ?_ h.digits
  rcases h.length_eq with hlength | hlength
  · rw [hlength]
  · rw [hlength]

theorem isHexDigit_hexDigit {value : ℕ} (h : value < 16) : isHexDigit (hexDigit value) = true := by
  rw [isHexDigit, parseHexDigit_hexDigit value h]
  rfl

theorem isHexDigit_bytesToHex (bytes : Bytes) :
    ∀ c ∈ bytesToHex bytes, isHexDigit c = true := by
  induction bytes with
  | nil => exact fun c hc => absurd hc not_mem_nil
  | cons byte bytes ih =>
    have hlt := byte.toNat_lt
    intro c hc
    rw [bytesToHex_cons] at hc
    rcases mem_cons.mp hc with rfl | hc
    · exact isHexDigit_hexDigit (by omega)
    · rcases mem_cons.mp hc with rfl | hc
      · exact isHexDigit_hexDigit (by omega)
      · exact ih c hc

theorem hexToBytes_bytesToHex (bytes : Bytes) :
    hexToBytes (bytesToHex bytes) = .ok bytes := by
  have heven : (bytesToHex bytes).length % 2 = 0 := by
    rw [length_bytesToHex]
    omega
  obtain ⟨read, hread, hhex⟩ := hexToBytes_spec heven (isHexDigit_bytesToHex bytes)
  rw [hread, bytesToHex_injective hhex]

/-! ### Order -/

theorem hexDigit_lt_iff : ∀ a < 16, ∀ b < 16, (hexDigit a < hexDigit b ↔ a < b) := by
  decide +kernel

theorem compareBytes_neg_iff_hex {as bs : Bytes} :
    compareBytes as bs < 0 ↔ bytesToHex as < bytesToHex bs := by
  rw [compareBytes_neg_iff]
  induction as generalizing bs with
  | nil =>
    cases bs with
    | nil => exact iff_of_false (List.lt_irrefl _) (List.lt_irrefl _)
    | cons b bs => exact iff_of_true (nil_lt_cons _ _) (nil_lt_cons _ _)
  | cons a as ih =>
    cases bs with
    | nil => exact iff_of_false (not_lt_nil _) (not_lt_nil _)
    | cons b bs =>
      have ha := a.toNat_lt
      have hb := b.toNat_lt
      rw [bytesToHex_cons, bytesToHex_cons, cons_lt_cons_iff, cons_lt_cons_iff,
        cons_lt_cons_iff, ih, hexDigit_lt_iff _ (by omega) _ (by omega),
        hexDigit_lt_iff _ (by omega) _ (by omega), UInt8.lt_iff_toNat_lt,
        ← UInt8.toNat_inj]
      have hhigh : hexDigit (a.toNat / 16) = hexDigit (b.toNat / 16) ↔
          a.toNat / 16 = b.toNat / 16 :=
        ⟨hexDigit_injective _ (by omega) _ (by omega), congrArg hexDigit⟩
      have hlow : hexDigit (a.toNat % 16) = hexDigit (b.toNat % 16) ↔ a.toNat % 16 = b.toNat % 16 :=
        ⟨hexDigit_injective _ (by omega) _ (by omega), congrArg hexDigit⟩
      rw [hhigh, hlow]
      constructor
      · rintro (hlt | ⟨heq, htail⟩)
        · rcases Nat.lt_or_ge (a.toNat / 16) (b.toNat / 16) with hfirst | hge
          · exact .inl hfirst
          · exact .inr ⟨by omega, .inl (by omega)⟩
        · exact .inr ⟨by omega, .inr ⟨by omega, htail⟩⟩
      · rintro (hlt | ⟨heq, hlt | ⟨heq', htail⟩⟩)
        · exact .inl (by omega)
        · exact .inl (by omega)
        · exact .inr ⟨by omega, htail⟩

theorem hexDigit_bounds {digit : Char} (h : isHexDigit digit = true) :
    ¬ digit < '0' ∧ ¬ 'f' < digit := by
  have hall : ∀ value < 16, ¬ hexDigit value < '0' ∧ ¬ 'f' < hexDigit value := by decide +kernel
  obtain ⟨value, hvalue⟩ := Option.isSome_iff_exists.mp h
  obtain ⟨hlt, rfl⟩ := hexDigit_parseHexDigit hvalue
  exact hall value hlt

theorem between_padded_iff {start text : Text} {count : ℕ}
    (hlength : text.length = start.length + count)
    (hdigits : ∀ c ∈ text, isHexDigit c = true) :
    (¬ text < start ++ replicate count '0' ∧ ¬ start ++ replicate count 'f' < text) ↔
      start <+: text := by
  induction start generalizing text with
  | nil =>
    refine iff_of_true ?_ ( nil_prefix)
    rw [length_nil, Nat.zero_add] at hlength
    subst hlength
    simp only [nil_append]
    induction text with
    | nil => exact ⟨List.lt_irrefl _, List.lt_irrefl _⟩
    | cons c text ih =>
      obtain ⟨hlow, hhigh⟩ := ih fun c' hc' => hdigits c' (mem_cons_of_mem _ hc')
      obtain ⟨hc, hc'⟩ := hexDigit_bounds (hdigits c mem_cons_self)
      rw [length_cons, replicate_succ, replicate_succ, cons_lt_cons_iff, cons_lt_cons_iff]
      exact ⟨not_or.mpr ⟨hc, fun h => hlow h.2⟩, not_or.mpr ⟨hc', fun h => hhigh h.2⟩⟩
  | cons s start ih =>
    cases text with
    | nil =>
      simp only [length_nil, length_cons] at hlength
      omega
    | cons c text =>
      have hlength' : text.length = start.length + count := by
        simp only [length_cons] at hlength
        omega
      have hrest := ih hlength' fun c' hc' => hdigits c' (mem_cons_of_mem _ hc')
      rw [cons_append, cons_append, cons_lt_cons_iff, cons_lt_cons_iff, cons_prefix_cons, ← hrest]
      constructor
      · rintro ⟨hlow, hhigh⟩
        obtain ⟨hlow₁, hlow₂⟩ := not_or.mp hlow
        obtain ⟨hhigh₁, hhigh₂⟩ := not_or.mp hhigh
        have heq : s = c := Char.le_antisymm (Char.not_lt.mp hlow₁) (Char.not_lt.mp hhigh₁)
        exact ⟨heq, fun h => hlow₂ ⟨heq.symm, h⟩, fun h => hhigh₂ ⟨heq, h⟩⟩
      · rintro ⟨rfl, hlow, hhigh⟩
        exact ⟨not_or.mpr ⟨Char.lt_irrefl _, fun h => hlow h.2⟩,
          not_or.mpr ⟨Char.lt_irrefl _, fun h => hhigh h.2⟩⟩

/-- `HashConfig`, by its algorithm. -/
inductive HashConfig
  | sha1
  | sha256
  deriving DecidableEq

def HashConfig.digestLength : HashConfig → ℕ
  | sha1 => 20
  | sha256 => 32

def fromRaw (bytes : Bytes) : Except TsgitError Text :=
  if bytes.length ≠ 20 ∧ bytes.length ≠ 32 then
    .error (.invalidObjectId s!"raw bytes length {bytes.length} is not 20 or 32")
  else .ok (bytesToHex bytes)

theorem fromRaw_eq_ok (hash : HashConfig) {bytes : Bytes}
    (h : bytes.length = hash.digestLength) : fromRaw bytes = .ok (bytesToHex bytes) := by
  refine if_neg ?_
  cases hash with
  | sha1 => exact fun hboth => hboth.1 h
  | sha256 => exact fun hboth => hboth.2 h

end Tsgit
