import Tsgit.DecodeSplit
import Tsgit.NumberText
import Tsgit.Tag

/-!
# The Header of a Loose Object

`src/domain/objects/header.ts`: a type, a space, a size and a NUL. The size is any text that
`String(Number(text))` gives back, and the decoder drops a byte-order mark in front.
-/

namespace Tsgit.ObjectHeader

open List Tsgit

/-! ### The functions -/

structure Header where
  type : ObjectType
  size : ℚ
  contentOffset : ℕ
  deriving DecidableEq

def invalidObjectHeader {α : Type} (reason : Text) : Except Thrown α :=
  .error (.refusal (.invalidObjectHeader reason))

/-- `Number.isFinite`: what is rounded to `2 ^ 1024` is infinite. -/
def isFinite (value : ℚ) : Bool := |value| < 2 ^ 1024

def sizeOf (sizeStr : Text) : Option ℚ :=
  match numberOf sizeStr with
  | none => none
  | some size =>
    if isFinite size = false ∨ size < 0 ∨ sizeStr ≠ numberText size then none else some size

def parseHeader (rawBytes : Bytes) : Except Thrown Header :=
  match indexOf rawBytes 0x00 0 with
  | none => invalidObjectHeader "missing null terminator".toList
  | some nullIndex =>
    let headerStr := decode (rawBytes.take nullIndex)
    match headerStr.dropWhile (· ≠ ' ') with
    | [] => invalidObjectHeader "missing space between type and size".toList
    | _space :: sizeStr =>
      let typeStr := headerStr.takeWhile (· ≠ ' ')
      match objectTypeOf typeStr with
      | none => invalidObjectHeader ("unknown object type: ".toList ++ typeStr)
      | some type =>
        match sizeOf sizeStr with
        | none => invalidObjectHeader ("invalid size: ".toList ++ sizeStr)
        | some size => .ok ⟨type, size, nullIndex + 1⟩

def serializeHeader (type : ObjectType) (contentSize : ℚ) : Bytes :=
  encode (objectTypeText type ++ ' ' :: (numberText contentSize ++ ['\x00']))

/-! ### The format -/

/-- Digits without a zero in front of others. -/
structure Canonical (digits : Text) : Prop where
  ne_nil : digits ≠ []
  digit : ∀ c ∈ digits, isDigit c = true
  lead : digits.head? = some '0' → digits = ['0']

/-- The header that the format puts in front of a content. -/
structure Describes (rawBytes : Bytes) (header : Header) : Prop where
  spelled : ∃ digits content, Canonical digits ∧
    rawBytes = encode (objectTypeText header.type ++ ' ' :: digits) ++ 0 :: content ∧
    (Nat.ofDigitChars 10 digits 0 : ℤ) ≤ maxSafeInteger ∧
    header.size = (Nat.ofDigitChars 10 digits 0 : ℚ) ∧
    header.contentOffset = (encode (objectTypeText header.type ++ ' ' :: digits)).length + 1

def FollowsFormat (rawBytes : Bytes) : Prop :=
  ∀ header, parseHeader rawBytes = .ok header ↔ Describes rawBytes header

/-- The byte-order mark. -/
def mark : Bytes := [0xef, 0xbb, 0xbf]

/-- A number that is its own spelling: no larger than any number, not negative, and read back. -/
structure Spelling (text : Text) (size : ℚ) : Prop where
  read : numberOf text = some size
  isFinite : isFinite size = true
  nonneg : 0 ≤ size
  text_eq : text = numberText size

/-- A spelling that is no size of the format: a fraction, an exponent, or an integer above the
largest safe one. -/
def Foreign (size : ℚ) : Prop := ¬ ∃ n : ℕ, (n : ℤ) ≤ maxSafeInteger ∧ size = n

/-- What is taken though not of the format: a header behind a byte-order mark, or of another size.
-/
def Lax (rawBytes : Bytes) : Prop :=
  ∃ front type text size content, Spelling text size ∧
    rawBytes = front ++ encode (objectTypeText type ++ ' ' :: text) ++ 0 :: content ∧
    (front = mark ∨ front = [] ∧ Foreign size)

/-! ### Digits -/

variable {digits text : Text} {size : ℚ}

theorem isDigit_iff {c : Char} : isDigit c = true ↔ ∃ d < 10, c = Nat.digitChar d := by
  constructor
  · intro h
    obtain ⟨hlower, hupper⟩ : '0' ≤ c ∧ c ≤ '9' := of_decide_eq_true h
    have hlow : 48 ≤ c.toNat := hlower
    have hhigh : c.toNat ≤ 57 := hupper
    refine ⟨c.toNat - 48, by omega, ?_⟩
    have hall : ∀ k < 10, Nat.digitChar k = Char.ofNat (48 + k) := by decide
    rw [hall _ (by omega), Nat.add_sub_cancel' hlow, Char.ofNat_toNat]
  · rintro ⟨d, hd, rfl⟩
    exact isDigit_digitChar d hd

theorem canonical_toDigits (n : ℕ) : Canonical (Nat.toDigits 10 n) where
  ne_nil := Nat.toDigits_ne_nil
  digit _ hc := isDigit_of_mem_toDigits hc
  lead h := by
    induction n using Nat.strong_induction_on with
    | _ n ih =>
      by_cases hlt : n < 10
      · have hall : ∀ d < 10, (Nat.digitChar d = '0' → [Nat.digitChar d] = ['0']) := by decide
        rw [Nat.toDigits_of_lt_base hlt] at h ⊢
        exact hall n hlt (Option.some.inj h)
      have hle : 10 ≤ n := Nat.not_lt.mp hlt
      rw [Nat.toDigits_of_base_le (by decide) hle,
        head?_append_of_ne_nil _ Nat.toDigits_ne_nil] at h
      have hzero := ih (n / 10) (Nat.div_lt_self (by omega) (by decide)) h
      have hvalue : Nat.ofDigitChars 10 (Nat.toDigits 10 (n / 10)) 0 = 0 := by
        rw [hzero]
        rfl
      rw [Nat.ofDigitChars_ten_toDigits] at hvalue
      omega

/-- **Canonical digits** are the digits of their value. -/
theorem Canonical.toDigits_eq (h : Canonical digits) :
    Nat.toDigits 10 (Nat.ofDigitChars 10 digits 0) = digits := by
  induction digits using reverseRecOn with
  | nil => exact absurd rfl h.ne_nil
  | append_singleton front c ih =>
    obtain ⟨d, hd, rfl⟩ := isDigit_iff.mp (h.digit c (mem_append_right _ mem_cons_self))
    rw [Nat.ofDigitChars_append, Nat.ofDigitChars_cons_digitChar_of_lt_ten hd, Nat.ofDigitChars_nil]
    by_cases hfront : front = []
    · subst hfront
      rw [Nat.ofDigitChars_nil, mul_zero, zero_add, Nat.toDigits_of_lt_base hd]
      rfl
    have hlead : front.head? ≠ some '0' := fun hzero => by
      have hwhole := h.lead (by rw [head?_append_of_ne_nil _ hfront, hzero])
      have hlength := congrArg length hwhole
      rw [length_append, length_singleton, length_singleton] at hlength
      exact hfront (length_eq_zero_iff.mp (by omega))
    have hcanonical : Canonical front :=
      ⟨hfront, fun c hc => h.digit c (mem_append_left _ hc),
        fun hzero => absurd hzero hlead⟩
    have hdigits := ih hcanonical
    have hpos : 0 < Nat.ofDigitChars 10 front 0 := Nat.pos_of_ne_zero fun hzero => by
      rw [hzero] at hdigits
      exact hlead (by rw [← hdigits]; rfl)
    rw [← Nat.toDigits_append_toDigits (by decide) hpos hd, hdigits, Nat.toDigits_of_lt_base hd]

variable {rawBytes : Bytes}

theorem describes_iff {header : Header} : Describes rawBytes header ↔
    ∃ (n : ℕ) (content : Bytes), (n : ℤ) ≤ maxSafeInteger ∧ header.size = n ∧
      rawBytes = encode (objectTypeText header.type ++ ' ' :: Nat.toDigits 10 n) ++ 0 :: content ∧
      header.contentOffset =
        (encode (objectTypeText header.type ++ ' ' :: Nat.toDigits 10 n)).length + 1 := by
  constructor
  · rintro ⟨digits, content, hcanonical, hbytes, hsafe, hsize, hoffset⟩
    rw [← hcanonical.toDigits_eq] at hbytes hoffset
    exact ⟨_, content, hsafe, hsize, hbytes, hoffset⟩
  · rintro ⟨n, content, hsafe, hsize, hbytes, hoffset⟩
    refine ⟨_, content, canonical_toDigits n, hbytes, ?_, ?_, hoffset⟩
    · rwa [Nat.ofDigitChars_ten_toDigits]
    · rwa [Nat.ofDigitChars_ten_toDigits]

/-! ### What is accepted -/

theorem sizeOf_eq_some_iff : sizeOf text = some size ↔ Spelling text size := by
  unfold sizeOf
  cases hread : numberOf text with
  | none =>
    refine ⟨fun h => ?_, fun h => ?_⟩
    · cases h
    · cases hread.symm.trans h.read
  | some value =>
    dsimp only
    constructor
    · intro h
      split at h
      · cases h
      · next hpass =>
        obtain rfl := Option.some.inj h
        obtain ⟨hfinite, hnonneg, htext⟩ := not_or.mp hpass |>.imp_right not_or.mp
        exact ⟨hread, Bool.eq_true_of_not_eq_false hfinite, not_lt.mp hnonneg, not_not.mp htext⟩
    · intro h
      obtain rfl : value = size := Option.some.inj (hread.symm.trans h.read)
      rw [if_neg]
      rintro (hfinite | hneg | htext)
      · cases hfinite.symm.trans h.isFinite
      · exact absurd hneg (not_lt.mpr h.nonneg)
      · exact htext h.text_eq

theorem Spelling.printed (h : Spelling text size) : ∀ c ∈ text, IsPrinted c := by
  rw [h.text_eq]
  exact numberText_printed size

theorem objectTypeOf_eq_some_iff {type : ObjectType} :
    objectTypeOf text = some type ↔ text = objectTypeText type := by
  constructor
  · intro h
    exact (of_decide_eq_true (find?_some (p := fun type => objectTypeText type = text) h)).symm
  · rintro rfl
    cases type <;> decide

theorem objectTypeText_ascii (type : ObjectType) :
    ∀ c ∈ objectTypeText type, c.toNat ≤ 0x7f ∧ c ≠ ' ' ∧ c ≠ '\x00' := by
  have hall : ((objectTypeText type).all fun c =>
      decide (c.toNat ≤ 0x7f ∧ c ≠ ' ' ∧ c ≠ '\x00')) = true := by
    cases type <;> rfl
  exact fun c hc => of_decide_eq_true (all_eq_true.mp hall c hc)

def headerText (type : ObjectType) (text : Text) : Text := objectTypeText type ++ ' ' :: text

theorem headerText_ascii (type : ObjectType) (h : ∀ c ∈ text, IsPrinted c) :
    ∀ c ∈ headerText type text, c.toNat ≤ 0x7f ∧ c ≠ '\x00' := by
  intro c hc
  rcases mem_append.mp hc with hc | hc
  · exact ⟨(objectTypeText_ascii type c hc).1, (objectTypeText_ascii type c hc).2.2⟩
  rcases mem_cons.mp hc with rfl | hc
  · decide
  · obtain ⟨hlower, hupper⟩ := h c hc
    refine ⟨hupper.le, ?_⟩
    rintro rfl
    exact absurd hlower (by decide)

theorem decode_eq_ascii {bytes : Bytes} (h : ∀ c ∈ text, c.toNat ≤ 0x7f)
    (hdecode : decode bytes = text) :
    ∃ front, (front = mark ∨ front = []) ∧ bytes = front ++ encode text := by
  have hspelled : ∀ {bytes}, decodePreservingBom bytes = text → bytes = encode text :=
    fun {bytes} hbytes => by
      obtain ⟨rest, rfl, hrest⟩ := decodePreservingBom_eq_append h
        (hbytes.trans (append_nil text).symm)
      cases rest with
      | nil => exact append_nil _
      | cons byte rest => exact absurd hrest (decodePreservingBom_cons_ne_nil byte rest)
  unfold decode at hdecode
  split at hdecode
  · next rest => exact ⟨mark, .inl rfl, congrArg (mark ++ ·) (hspelled hdecode)⟩
  · exact ⟨[], .inr rfl, hspelled hdecode⟩

theorem decode_front {front : Bytes} (hfront : front = mark ∨ front = [])
    (h : text.head? ≠ some '\uFEFF') : decode (front ++ encode text) = text := by
  rcases hfront with rfl | rfl
  · exact decodePreservingBom_encode text
  · exact decode_encode h

theorem head_headerText (type : ObjectType) (text : Text) :
    (headerText type text).head? ≠ some '\uFEFF' := by
  cases type <;> exact fun h => absurd (Option.some.inj h) (by decide)

theorem takeWhile_headerText (type : ObjectType) (text : Text) :
    (headerText type text).takeWhile (· ≠ ' ') = objectTypeText type := by
  cases type <;> rfl

theorem dropWhile_headerText (type : ObjectType) (text : Text) :
    (headerText type text).dropWhile (· ≠ ' ') = ' ' :: text := by
  cases type <;> rfl

theorem zero_not_mem {front : Bytes} (hfront : front = mark ∨ front = []) (type : ObjectType)
    (h : ∀ c ∈ text, IsPrinted c) : 0 ∉ front ++ encode (headerText type text) := by
  have hencode : (0 : UInt8) ∉ encode (headerText type text) :=
    not_mem_encode (c := '\x00') rfl (by decide) fun hmem => (headerText_ascii type h _ hmem).2 rfl
  rcases hfront with rfl | rfl
  · intro hmem
    rcases mem_append.mp hmem with hmem | hmem
    · exact absurd hmem (by decide)
    · exact hencode hmem
  · exact hencode

theorem indexOf_append {front content : Bytes} {byte : UInt8} (h : byte ∉ front) :
    indexOf (front ++ byte :: content) byte 0 = some front.length := by
  refine indexOf_eq_some (Nat.zero_le _) ?_ fun i _ hi hfound => ?_
  · rw [getElem?_append_right le_rfl, Nat.sub_self]
    rfl
  · rw [getElem?_append_left hi] at hfound
    exact h (mem_of_getElem? hfound)

theorem eq_take_append {bytes : Bytes} {i : ℕ} {byte : UInt8} (h : bytes[i]? = some byte) :
    bytes = bytes.take i ++ byte :: bytes.drop (i + 1) := by
  obtain ⟨hlt, hget⟩ := List.getElem?_eq_some_iff.mp h
  rw [← hget, ← drop_eq_getElem_cons hlt, take_append_drop]

theorem eq_space_of_dropWhile {rest : Text} {c : Char}
    (h : text.dropWhile (· ≠ ' ') = c :: rest) : c = ' ' := by
  induction text with
  | nil => cases h
  | cons first text ih =>
    rw [dropWhile_cons] at h
    split at h
    · exact ih h
    · next hfirst =>
      rw [← (cons.inj h).1]
      exact not_not.mp fun hne => hfirst (decide_eq_true hne)

/-- **What is accepted**: a type, a space and the spelling of a number, with or without a mark. -/
theorem parseHeader_ok_iff {header : Header} :
    parseHeader rawBytes = .ok header ↔ ∃ front text content, (front = mark ∨ front = []) ∧
      Spelling text header.size ∧
      rawBytes = front ++ encode (headerText header.type text) ++ 0 :: content ∧
      header.contentOffset = (front ++ encode (headerText header.type text)).length + 1 := by
  constructor
  · intro h
    unfold parseHeader at h
    cases hindex : indexOf rawBytes 0x00 0 with
    | none =>
      rw [hindex] at h
      cases h
    | some nullIndex =>
      rw [hindex] at h
      dsimp only at h
      obtain ⟨headerStr, hheaderStr⟩ :
          ∃ headerStr, decode (rawBytes.take nullIndex) = headerStr := ⟨_, rfl⟩
      rw [hheaderStr] at h
      cases hdrop : headerStr.dropWhile (· ≠ ' ') with
      | nil =>
        rw [hdrop] at h
        cases h
      | cons space sizeStr =>
        rw [hdrop] at h
        dsimp only at h
        cases htype : objectTypeOf (headerStr.takeWhile (· ≠ ' ')) with
        | none =>
          rw [htype] at h
          cases h
        | some type =>
          rw [htype] at h
          dsimp only at h
          cases hsize : sizeOf sizeStr with
          | none =>
            rw [hsize] at h
            cases h
          | some size =>
            rw [hsize] at h
            obtain rfl := Except.ok.inj h
            have hspelling := sizeOf_eq_some_iff.mp hsize
            obtain ⟨-, hnul, -⟩ := indexOf_spec hindex
            obtain rfl := eq_space_of_dropWhile hdrop
            have hheader : headerStr = headerText type sizeStr := by
              rw [headerText, ← objectTypeOf_eq_some_iff.mp htype, ← hdrop,
                takeWhile_append_dropWhile]
            obtain ⟨front, hfront, hbytes⟩ := decode_eq_ascii
              (fun c hc => (headerText_ascii type hspelling.printed c hc).1)
              (hheaderStr.trans hheader)
            have hlength : (rawBytes.take nullIndex).length = nullIndex :=
              length_take_of_le (indexOf_lt hindex).le
            refine ⟨front, sizeStr, rawBytes.drop (nullIndex + 1), hfront, hspelling, ?_, ?_⟩
            · rw [← hbytes]
              exact eq_take_append hnul
            · rw [← hbytes, hlength]
  · rintro ⟨front, text, content, hfront, hspelling, rfl, hoffset⟩
    unfold parseHeader
    rw [indexOf_append (zero_not_mem hfront header.type hspelling.printed)]
    dsimp only
    rw [take_left, decode_front hfront (head_headerText _ _), takeWhile_headerText,
      dropWhile_headerText]
    dsimp only
    rw [objectTypeOf_eq_some_iff.mpr rfl]
    dsimp only
    rw [sizeOf_eq_some_iff.mpr hspelling, ← hoffset]

/-! ### Where it is the format -/

theorem spelling_nat {n : ℕ} (h : (n : ℤ) ≤ maxSafeInteger) :
    Spelling (Nat.toDigits 10 n) n where
  read := by
    have hread := numberOf_decimalText (n := (n : ℤ)) (by rwa [Nat.abs_cast])
    rwa [decimalText, if_neg (Int.natCast_nonneg n).not_gt, Int.natAbs_natCast,
      Int.cast_natCast] at hread
  isFinite := by
    rw [isFinite, Nat.abs_cast, decide_eq_true_iff]
    rw [maxSafeInteger] at h
    have hlt : (n : ℚ) < 2 ^ 53 := by
      exact_mod_cast show n < 2 ^ 53 by omega
    exact hlt.trans_le (pow_le_pow_right₀ one_le_two (by omega))
  nonneg := Nat.cast_nonneg n
  text_eq := (numberText_nat h).symm

theorem mark_append_ne (type : ObjectType) (text : Text) (bytes content : Bytes) :
    mark ++ bytes ≠ encode (headerText type text) ++ content := by
  cases type <;> exact fun h => absurd (cons.inj h).1 (by decide)

theorem not_followsFormat_of_lax (h : Lax rawBytes) :
    ¬ FollowsFormat rawBytes := by
  obtain ⟨front, type, text, size, content, hspelling, hbytes, hkind⟩ := h
  intro hfollows
  have hparsed : parseHeader rawBytes =
      .ok ⟨type, size, (front ++ encode (headerText type text)).length + 1⟩ :=
    parseHeader_ok_iff.mpr
      ⟨front, text, content, hkind.imp_right And.left, hspelling, hbytes, rfl⟩
  obtain ⟨n, content', hsafe, hsize, hbytes', -⟩ :=
    describes_iff.mp ((hfollows ⟨type, size, _⟩).mp hparsed)
  rcases hkind with rfl | ⟨-, hforeign⟩
  · rw [hbytes', append_assoc] at hbytes
    exact mark_append_ne type (Nat.toDigits 10 n) _ _ hbytes.symm
  · exact hforeign ⟨n, hsafe, hsize⟩

theorem followsFormat_of_not_lax (h : ¬ Lax rawBytes) :
    FollowsFormat rawBytes := by
  intro header
  rw [parseHeader_ok_iff, describes_iff]
  constructor
  · rintro ⟨front, text, content, hfront, hspelling, hbytes, hoffset⟩
    rcases hfront with rfl | rfl
    · exact absurd ⟨mark, _, text, _, content, hspelling, hbytes, .inl rfl⟩ h
    by_cases hforeign : Foreign header.size
    · exact absurd ⟨[], _, text, _, content, hspelling, hbytes, .inr ⟨rfl, hforeign⟩⟩ h
    · obtain ⟨n, hsafe, hsize⟩ := not_not.mp hforeign
      have htext : text = Nat.toDigits 10 n := by
        rw [hspelling.text_eq, hsize, numberText_nat hsafe]
      subst htext
      exact ⟨n, content, hsafe, hsize, hbytes, hoffset⟩
  · rintro ⟨n, content, hsafe, hsize, hbytes, hoffset⟩
    exact ⟨[], _, content, .inr rfl, hsize ▸ spelling_nat hsafe, hbytes, hoffset⟩

/-- **The header is that of the format** exactly where it is not lax, and a header that was written
is read back. -/
theorem parseHeader_exact (rawBytes content : Bytes) (type : ObjectType) (size : ℕ)
    (hsize : (size : ℤ) ≤ maxSafeInteger) :
    (FollowsFormat rawBytes ↔ ¬ Lax rawBytes) ∧ parseHeader (serializeHeader type size ++ content) =
        .ok ⟨type, size, (serializeHeader type size).length⟩ := by
  refine ⟨⟨fun hfollows hlax => not_followsFormat_of_lax hlax hfollows, followsFormat_of_not_lax⟩,
    ?_⟩
  have hwritten : serializeHeader type size =
      encode (headerText type (Nat.toDigits 10 size)) ++ [0] := by
    rw [serializeHeader, numberText_nat hsize, headerText, encode, encode, ← cons_append,
      ← append_assoc, flatMap_append]
    rfl
  refine parseHeader_ok_iff.mpr ⟨[], _, content, .inr rfl, spelling_nat hsize, ?_, ?_⟩
  · rw [hwritten, append_assoc]
    rfl
  · rw [hwritten, length_append]
    rfl

theorem parseHeader_exact_sample :
    (FollowsFormat [0x62] ↔ ¬ Lax [0x62]) ∧ parseHeader (serializeHeader .blob (12 : ℕ) ++ [0x68]) =
        .ok ⟨.blob, (12 : ℕ), (serializeHeader .blob (12 : ℕ)).length⟩ :=
  parseHeader_exact [0x62] [0x68] .blob 12 (by decide)

/-- A header behind a byte-order mark is taken. -/
theorem parseHeader_mark : ¬ FollowsFormat
    [0xef, 0xbb, 0xbf, 0x62, 0x6c, 0x6f, 0x62, 0x20, 0x30, 0x00] :=
  not_followsFormat_of_lax ⟨mark, .blob, ['0'], (0 : ℕ), [], @spelling_nat 0 (by decide),
    by decide, .inl rfl⟩

end Tsgit.ObjectHeader
