import Tsgit.DotgitAlias
import Tsgit.IndexRoundTrip

/-!
# Paths with Escaped Bytes

A path that is not UTF-8 is kept as a string all the same: `decodeEscapingInvalid` of
`src/domain/objects/encoding.ts` puts a surrogate of its own in the place of each byte that no
well-formed sequence takes, and `encodeEscaped` takes it back. The strings are the keys of
`src/domain/git-index/index-path-key.ts`. They are lists of code units here: a lone half of a pair
is none of the characters.
-/

namespace Tsgit.IndexFile

open List Tsgit.Path

/-- A name, or a path, as the code units of a string. -/
abbrev Key := List ℕ

/-! ### Escaping -/

def escapeBase : ℕ := 0xdc00
def escapeMin : ℕ := 0xdc80
def escapeMax : ℕ := 0xdcff

/-- The loop of `decodeEscapingInvalid`, for as many turns as there are bytes left. -/
def escapeFrom (bytes : Bytes) : ℕ → ℕ → ℕ → Key
  | 0, runStart, _ => codeUnits (decodePreservingBom (bytes.drop runStart))
  | room + 1, runStart, i =>
    match bytes[i]? with
    | none => codeUnits (decodePreservingBom (bytes.drop runStart))
    | some byte =>
      let length := wellFormedSequenceLength bytes i
      if length > 0 then escapeFrom bytes room runStart (i + length)
      else
        codeUnits (decodePreservingBom (subarray bytes runStart i)) ++
          (escapeBase + byte.toNat) :: escapeFrom bytes room (i + 1) (i + 1)

/-- A byte that is not UTF-8 becomes a surrogate of its own. -/
def decodeEscapingInvalid (bytes : Bytes) : Key :=
  let view := decodePreservingBom bytes
  if decodesLosslessly view bytes then codeUnits view else escapeFrom bytes (bytes.length + 1) 0 0

def isHighSurrogate (unit : ℕ) : Bool := 0xd800 ≤ unit ∧ unit ≤ 0xdbff

def isLowSurrogate (unit : ℕ) : Bool := 0xdc00 ≤ unit ∧ unit ≤ 0xdfff

/-- Whether a code unit stands for a byte, by the one in front of it. -/
def isLoneEscape (previous : Option ℕ) (unit : ℕ) : Bool :=
  (escapeMin ≤ unit ∧ unit ≤ escapeMax) ∧ ¬ previous.any isHighSurrogate

def hasEscapeFrom (previous : Option ℕ) : Key → Bool
  | [] => false
  | unit :: rest => isLoneEscape previous unit || hasEscapeFrom (some unit) rest

def hasEscapedBytes (text : Key) : Bool := hasEscapeFrom none text

/-- The characters of a string. A lone half of a pair is none. -/
def charactersOf : Key → Text
  | [] => []
  | [unit] => if isHighSurrogate unit ∨ isLowSurrogate unit then [replacementCharacter]
    else [Char.ofNat unit]
  | unit :: next :: rest =>
    if isHighSurrogate unit ∧ isLowSurrogate next then
      Char.ofNat (0x10000 + (unit - 0xd800) * 0x400 + (next - 0xdc00)) :: charactersOf rest
    else if isHighSurrogate unit ∨ isLowSurrogate unit then
      replacementCharacter :: charactersOf (next :: rest)
    else Char.ofNat unit :: charactersOf (next :: rest)

/-- `encode`, for any string. -/
def encodeUnits (text : Key) : Bytes := encode (charactersOf text)

/-- The loop of `encodeEscaped`, with the code units since the last escape. -/
def encodeEscapedFrom (previous : Option ℕ) (run : Key) : Key → Bytes
  | [] => encodeUnits run
  | unit :: rest =>
    if isLoneEscape previous unit then
      encodeUnits run ++ UInt8.ofNat (unit - escapeBase) :: encodeEscapedFrom (some unit) [] rest
    else encodeEscapedFrom (some unit) (run ++ [unit]) rest

def encodeEscaped (text : Key) : Bytes :=
  if hasEscapedBytes text then encodeEscapedFrom none [] text else encodeUnits text

/-! ### Keys -/

def escapedOf (path : Text) (rawBytes : Option Bytes) : Key :=
  match rawBytes with
  | none => codeUnits path
  | some raw => decodeEscapingInvalid raw

def escapedPathOf (entry : IndexPath) : Key := escapedOf entry.path entry.pathBytes

def indexPathKey (entry : IndexPath) : Key := escapedPathOf entry

def indexPathOfBytes (bytes : Bytes) : IndexPath :=
  ⟨decodePreservingBom bytes, lossyPathBytes (decodePreservingBom bytes) bytes⟩

/-- A string without escapes is its own path. -/
def indexPathOfEscaped (path : Key) : IndexPath :=
  if hasEscapedBytes path then indexPathOfBytes (encodeEscaped path) else ⟨charactersOf path, none⟩

theorem indexPathOfBytes_written {entry : IndexPath} (h : entry.WellFormed) :
    indexPathOfBytes (pathBytesOf entry) = entry := by
  rw [indexPathOfBytes, IndexPath.WellFormed.decode_eq h, IndexPath.WellFormed.lossyPathBytes_eq h]

/-! ### Well-formed sequences -/

/-- Whether the bytes go on as a sequence of which some are missing. -/
def Continues (lower upper : ℕ) : ℕ → Bytes → Prop
  | 0, _ => True
  | _ + 1, [] => False
  | needed + 1, byte :: rest =>
    (lower ≤ byte.toNat ∧ byte.toNat ≤ upper) ∧ Continues 0x80 0xbf needed rest

theorem wellFormedSequenceLength_front (front bytes : Bytes) :
    wellFormedSequenceLength (front ++ bytes) front.length = wellFormedSequenceLength bytes 0 := by
  unfold wellFormedSequenceLength
  simp only [getElem?_boundary, getElem?_boundary_zero, Nat.zero_add]

/-- **The picker takes what goes on within the bounds.** -/
theorem wellFormedSequenceLength_eq_zero_or (lead : UInt8) (rest : Bytes) {needed : ℕ}
    (hlength : expectedLength lead.toNat = needed + 2) :
    (wellFormedSequenceLength (lead :: rest) 0 = 0 ∧
      ¬ Continues (secondByteRange lead.toNat).1 (secondByteRange lead.toNat).2 (needed + 1) rest) ∨
    (wellFormedSequenceLength (lead :: rest) 0 = needed + 2 ∧
      Continues (secondByteRange lead.toNat).1 (secondByteRange lead.toNat).2 (needed + 1)
        rest) := by
  have hfew : needed ≤ 2 := by
    unfold expectedLength at hlength
    split_ifs at hlength <;> omega
  rw [wellFormedSequenceLength, getElem?_cons_zero]
  dsimp only
  rw [hlength, if_neg (by omega), Nat.zero_add, getElem?_cons_succ, Nat.add_sub_cancel]
  cases rest with
  | nil => exact .inl ⟨rfl, fun h => h⟩
  | cons second rest =>
    rw [getElem?_cons_zero]
    by_cases hsecond : (secondByteRange lead.toNat).1 ≤ second.toNat ∧
        second.toNat ≤ (secondByteRange lead.toNat).2
    · have hany : (some second).any (fun b => (secondByteRange lead.toNat).1 ≤ b.toNat ∧
          b.toNat ≤ (secondByteRange lead.toNat).2) = true := decide_eq_true hsecond
      rw [hany, if_neg (not_not_intro rfl)]
      have hall : ((range' 2 needed).all fun k =>
          Path.isContinuation (lead :: second :: rest)[0 + k]?) = true ↔
            Continues 0x80 0xbf needed rest := by
        obtain rfl | rfl | rfl : needed = 0 ∨ needed = 1 ∨ needed = 2 := by omega
        · exact iff_of_true rfl trivial
        · cases rest with
          | nil => exact iff_of_false Bool.false_ne_true fun h => h
          | cons third rest =>
            have hthird : ((range' 2 1).all fun k =>
                Path.isContinuation (lead :: second :: third :: rest)[0 + k]?) =
                  (Path.isContinuation (some third) && true) := rfl
            rw [hthird, Bool.and_true, Path.isContinuation, Option.any_some, decide_eq_true_iff]
            exact (and_iff_left trivial).symm
        · cases rest with
          | nil => exact iff_of_false Bool.false_ne_true fun h => h
          | cons third rest =>
            cases rest with
            | nil =>
              have hthird : ((range' 2 2).all fun k =>
                  Path.isContinuation [lead, second, third][0 + k]?) =
                    (Path.isContinuation (some third) && (false && true)) := rfl
              rw [hthird, Bool.false_and, Bool.and_false]
              exact iff_of_false Bool.false_ne_true fun h => h.2
            | cons fourth rest =>
              have hboth : ((range' 2 2).all fun k =>
                  Path.isContinuation (lead :: second :: third :: fourth :: rest)[0 + k]?) =
                    (Path.isContinuation (some third) &&
                      (Path.isContinuation (some fourth) && true)) := rfl
              rw [hboth, Bool.and_true, Bool.and_eq_true, Path.isContinuation,
                Path.isContinuation, Option.any_some, Option.any_some, decide_eq_true_iff,
                decide_eq_true_iff]
              exact and_congr_right fun _ => (and_iff_left trivial).symm
      by_cases hrest : Continues 0x80 0xbf needed rest
      · rw [if_pos (hall.mpr hrest)]
        exact .inr ⟨rfl, hsecond, hrest⟩
      · rw [if_neg fun h => hrest (hall.mp h)]
        exact .inl ⟨rfl, fun h => hrest h.2⟩
    · have hany : (some second).any (fun b => (secondByteRange lead.toNat).1 ≤ b.toNat ∧
          b.toNat ≤ (secondByteRange lead.toNat).2) = false := decide_eq_false hsecond
      rw [hany, if_pos Bool.false_ne_true]
      exact .inl ⟨rfl, fun h => hsecond h.1⟩

/-! ### What the decoder makes of them -/

theorem replacement_mem_decodeFrom {bytes : Bytes} {pending : Tsgit.Pending}
    (h : ¬ Continues pending.lower pending.upper pending.needed bytes)
    (hneeded : 0 < pending.needed) :
    replacementCharacter ∈ decodeFrom (some pending) bytes := by
  induction bytes generalizing pending with
  | nil => exact mem_singleton_self _
  | cons byte rest ih =>
    obtain ⟨codePoint, needed, lower, upper⟩ := pending
    obtain ⟨needed, rfl⟩ : ∃ n, needed = n + 1 := ⟨needed - 1, (Nat.sub_add_cancel hneeded).symm⟩
    dsimp only at h
    rw [decodeFrom]
    by_cases hbounds : lower ≤ byte.toNat ∧ byte.toNat ≤ upper
    · have hrest : ¬ Continues 0x80 0xbf needed rest := fun hgoes => h ⟨hbounds, hgoes⟩
      have hmore : needed ≠ 0 := fun hzero => hrest (by rw [hzero]; trivial)
      have hnext : continueSequence ⟨codePoint, needed + 1, lower, upper⟩ byte.toNat =
          ([], some ⟨codePoint <<< 6 ||| (byte.toNat &&& 0x3f), needed, 0x80, 0xbf⟩) :=
        (if_pos hbounds).trans (if_neg fun heq => hmore (Nat.succ_injective heq))
      rw [hnext]
      exact ih hrest (Nat.pos_of_ne_zero hmore)
    · have hnext : continueSequence ⟨codePoint, needed + 1, lower, upper⟩ byte.toNat =
          (replacementCharacter :: (startSequence byte.toNat).1, (startSequence byte.toNat).2) :=
        if_neg hbounds
      rw [hnext]
      exact mem_append_left _ mem_cons_self

theorem startSequence_lead {lead needed : ℕ} (hlength : expectedLength lead = needed + 2) :
    ∃ codePoint, startSequence lead = ([], some ⟨codePoint, needed + 1, (secondByteRange lead).1,
      (secondByteRange lead).2⟩) := by
  unfold expectedLength at hlength
  unfold startSequence secondByteRange
  split at hlength
  · omega
  · next hascii =>
    rw [if_neg hascii]
    split at hlength
    · next htwo =>
      obtain rfl : needed = 0 := by omega
      rw [if_pos htwo, if_neg (by omega), if_neg (by omega), if_neg (by omega),
        if_neg (by omega)]
      exact ⟨_, rfl⟩
    · next htwo =>
      rw [if_neg htwo]
      split at hlength
      · next hthree =>
        obtain rfl : needed = 1 := by omega
        rw [if_pos hthree, if_neg (show ¬ lead = 0xf0 by omega),
          if_neg (show ¬ lead = 0xf4 by omega)]
        refine ⟨lead &&& 0x0f, congrArg (fun pending => ([], some pending)) ?_⟩
        split_ifs <;> first | rfl | omega
      · next hthree =>
        rw [if_neg hthree]
        split at hlength
        · next hfour =>
          obtain rfl : needed = 2 := by omega
          rw [if_pos hfour, if_neg (show ¬ lead = 0xe0 by omega),
            if_neg (show ¬ lead = 0xed by omega)]
          refine ⟨lead &&& 0x07, congrArg (fun pending => ([], some pending)) ?_⟩
          split_ifs <;> first | rfl | omega
        · omega

theorem replacement_mem_of_length_zero {lead : UInt8} {rest : Bytes}
    (h : wellFormedSequenceLength (lead :: rest) 0 = 0) :
    0x80 ≤ lead.toNat ∧ replacementCharacter ∈ decodePreservingBom (lead :: rest) := by
  rw [decodePreservingBom, decodeFrom]
  by_cases hshort : expectedLength lead.toNat ≤ 1
  · rw [wellFormedSequenceLength, getElem?_cons_zero] at h
    dsimp only at h
    rw [if_pos hshort] at h
    have hstart :
        0x80 ≤ lead.toNat ∧ startSequence lead.toNat = ([replacementCharacter], none) := by
      unfold expectedLength at h
      unfold startSequence
      split_ifs at h ⊢
      exact ⟨by omega, rfl⟩
    rw [hstart.2]
    exact ⟨hstart.1, mem_append_left _ (mem_singleton_self _)⟩
  · obtain ⟨needed, hlength⟩ : ∃ needed, expectedLength lead.toNat = needed + 2 :=
      ⟨expectedLength lead.toNat - 2, by omega⟩
    have hlead : 0x80 ≤ lead.toNat := by
      by_contra hascii
      have hone : expectedLength lead.toNat = 1 := if_pos (by omega)
      omega
    obtain ⟨codePoint, hstart⟩ := startSequence_lead hlength
    rcases wellFormedSequenceLength_eq_zero_or lead rest hlength with ⟨-, hnot⟩ | ⟨hsome, -⟩
    · rw [hstart]
      exact ⟨hlead, replacement_mem_decodeFrom hnot (Nat.succ_pos _)⟩
    · omega

theorem ofNat_of_toNat {byte : UInt8} {n : ℕ} (h : byte.toNat = n) : UInt8.ofNat n = byte := by
  rw [← h]
  exact UInt8.ofNat_toNat

/-- **A well-formed sequence is a character.** -/
theorem exists_char_of_continues {lead : UInt8} {rest : Bytes} {needed : ℕ}
    (hlength : expectedLength lead.toNat = needed + 2)
    (hgoes : Continues (secondByteRange lead.toNat).1 (secondByteRange lead.toNat).2 (needed + 1)
      rest) :
    ∃ c after, lead :: rest = String.utf8EncodeChar c ++ after ∧
      (String.utf8EncodeChar c).length = needed + 2 := by
  cases rest with
  | nil => exact hgoes.elim
  | cons second rest =>
    obtain ⟨hsecond, hrest⟩ := hgoes
    have hbounds : 0x80 ≤ second.toNat ∧ second.toNat ≤ 0xbf := by
      unfold secondByteRange at hsecond
      split_ifs at hsecond <;> exact ⟨by omega, by omega⟩
    unfold expectedLength at hlength
    split_ifs at hlength with hascii htwo hthree hfour
    · omega
    · obtain rfl : needed = 0 := by omega
      obtain ⟨v, hv⟩ : ∃ v, v = (lead.toNat - 0xc0) * 0x40 + (second.toNat - 0x80) := ⟨_, rfl⟩
      have hvalid : v.isValidChar := by
        unfold Nat.isValidChar
        omega
      have hchar := utf8EncodeChar_eq _ (toNat_ofNat_of_isValidChar hvalid).symm
      rw [if_neg (by omega), if_pos (by omega), @ofNat_of_toNat lead _ (by omega),
        @ofNat_of_toNat second _ (by omega)] at hchar
      exact ⟨Char.ofNat v, rest, by rw [hchar]; rfl, by rw [hchar]; rfl⟩
    · obtain rfl : needed = 1 := by omega
      cases rest with
      | nil => exact hrest.elim
      | cons third rest =>
        obtain ⟨hthird, -⟩ := hrest
        obtain ⟨v, hv⟩ : ∃ v, v = (lead.toNat - 0xe0) * 0x1000 + (second.toNat - 0x80) * 0x40 +
            (third.toNat - 0x80) := ⟨_, rfl⟩
        have hrange : 0x800 ≤ v ∧ v ≤ 0xffff ∧ (v < 0xd800 ∨ 0xdfff < v) := by
          unfold secondByteRange at hsecond
          split_ifs at hsecond <;> exact ⟨by omega, by omega, by omega⟩
        have hvalid : v.isValidChar := by
          unfold Nat.isValidChar
          omega
        have hchar := utf8EncodeChar_eq _ (toNat_ofNat_of_isValidChar hvalid).symm
        rw [if_neg (by omega), if_neg (by omega), if_pos (by omega),
          @ofNat_of_toNat lead _ (by omega), @ofNat_of_toNat second _ (by omega),
          @ofNat_of_toNat third _ (by omega)] at hchar
        exact ⟨Char.ofNat v, rest, by rw [hchar]; rfl, by rw [hchar]; rfl⟩
    · obtain rfl : needed = 2 := by omega
      match rest, hrest with
      | third :: fourth :: rest, ⟨hthird, hfourth, _⟩ =>
        obtain ⟨v, hv⟩ : ∃ v, v = (lead.toNat - 0xf0) * 0x40000 +
            (second.toNat - 0x80) * 0x1000 + (third.toNat - 0x80) * 0x40 +
            (fourth.toNat - 0x80) := ⟨_, rfl⟩
        have hrange : 0xffff < v ∧ v < 0x110000 := by
          unfold secondByteRange at hsecond
          split_ifs at hsecond <;> exact ⟨by omega, by omega⟩
        have hvalid : v.isValidChar := by
          unfold Nat.isValidChar
          omega
        have hchar := utf8EncodeChar_eq _ (toNat_ofNat_of_isValidChar hvalid).symm
        rw [if_neg (by omega), if_neg (by omega), if_neg (by omega),
          @ofNat_of_toNat lead _ (by omega), @ofNat_of_toNat second _ (by omega),
          @ofNat_of_toNat third _ (by omega), @ofNat_of_toNat fourth _ (by omega)] at hchar
        exact ⟨Char.ofNat v, rest, by rw [hchar]; rfl, by rw [hchar]; rfl⟩

/-- What the picker takes is a character. -/
theorem exists_char_of_length {bytes : Bytes} (h : 0 < wellFormedSequenceLength bytes 0) :
    ∃ c after, bytes = String.utf8EncodeChar c ++ after ∧
      (String.utf8EncodeChar c).length = wellFormedSequenceLength bytes 0 := by
  cases bytes with
  | nil => exact absurd h (lt_irrefl 0)
  | cons lead rest =>
    by_cases hshort : expectedLength lead.toNat ≤ 1
    · have hlength : wellFormedSequenceLength (lead :: rest) 0 = expectedLength lead.toNat := by
        rw [wellFormedSequenceLength, getElem?_cons_zero]
        exact if_pos hshort
      have hascii : lead.toNat ≤ 0x7f := by
        rw [hlength] at h
        unfold expectedLength at h hshort
        split_ifs at h hshort
        · assumption
        all_goals omega
      have hvalid : lead.toNat.isValidChar := by
        unfold Nat.isValidChar
        omega
      have hchar := utf8EncodeChar_eq _ (toNat_ofNat_of_isValidChar hvalid).symm
      have hone : expectedLength lead.toNat = 1 := if_pos hascii
      rw [if_pos hascii, ofNat_of_toNat rfl] at hchar
      exact ⟨Char.ofNat lead.toNat, rest, by rw [hchar]; rfl, by rw [hchar, hlength, hone]; rfl⟩
    · obtain ⟨needed, hlength⟩ : ∃ needed, expectedLength lead.toNat = needed + 2 :=
        ⟨expectedLength lead.toNat - 2, by omega⟩
      rcases wellFormedSequenceLength_eq_zero_or lead rest hlength with
    ⟨hzero, -⟩ | ⟨hsome, hgoes⟩
      · omega
      · rw [hsome]
        exact exists_char_of_continues hlength hgoes

/-- **A text without U+FFFD is all there was.** -/
theorem exists_text_of_decode {bytes : Bytes}
    (h : replacementCharacter ∉ decodePreservingBom bytes) : ∃ text, bytes = encode text := by
  induction hn : bytes.length using Nat.strongRecOn generalizing bytes with
  | ind n ih =>
    cases bytes with
    | nil => exact ⟨[], rfl⟩
    | cons lead rest =>
      by_cases hzero : wellFormedSequenceLength (lead :: rest) 0 = 0
      · exact absurd (replacement_mem_of_length_zero hzero).2 h
      obtain ⟨c, after, hbytes, hlength⟩ := exists_char_of_length (Nat.pos_of_ne_zero hzero)
      rw [hbytes, decodePreservingBom, decodeFrom_utf8EncodeChar] at h
      have hshort : after.length < n := by
        rw [← hn, hbytes, length_append]
        omega
      obtain ⟨text, rfl⟩ :=
        ih after.length hshort (fun hmem => h (mem_cons_of_mem _ hmem)) rfl
      exact ⟨c :: text, hbytes⟩

theorem encode_of_decodesLosslessly {bytes : Bytes}
    (h : decodesLosslessly (decodePreservingBom bytes) bytes = true) :
    encode (decodePreservingBom bytes) = bytes := by
  rcases of_decide_eq_true h with hnone | heq
  · obtain ⟨text, rfl⟩ := exists_text_of_decode hnone
    rw [decodePreservingBom_encode]
  · exact heq

theorem decodesLosslessly_encode (text : Text) :
    decodesLosslessly (decodePreservingBom (encode text)) (encode text) = true := by
  rw [decodePreservingBom_encode]
  exact decide_eq_true (.inr rfl)

/-! ### The pieces of an escaped string -/

/-- What an escaped string is made of. -/
inductive Piece
  | character (c : Char)
  | raw (byte : UInt8)

def Piece.units : Piece → Key
  | .character c => utf16Units c
  | .raw byte => [escapeBase + byte.toNat]

def Piece.bytes : Piece → Bytes
  | .character c => String.utf8EncodeChar c
  | .raw byte => [byte]

/-- A single byte is none of ASCII. -/
def Piece.Sound : Piece → Prop
  | .character _ => True
  | .raw byte => 0x80 ≤ byte.toNat

def unitsOf (pieces : List Piece) : Key := pieces.flatMap Piece.units

def bytesOf (pieces : List Piece) : Bytes := pieces.flatMap Piece.bytes

theorem unitsOf_characters (text : Text) (pieces : List Piece) :
    unitsOf (text.map .character ++ pieces) = codeUnits text ++ unitsOf pieces := by
  rw [unitsOf, flatMap_append, flatMap_map]
  rfl

theorem bytesOf_characters (text : Text) (pieces : List Piece) :
    bytesOf (text.map .character ++ pieces) = encode text ++ bytesOf pieces := by
  rw [bytesOf, flatMap_append, flatMap_map]
  rfl

theorem codeUnits_append (text text' : Text) :
    codeUnits (text ++ text') = codeUnits text ++ codeUnits text' := flatMap_append

theorem utf16Units_cases (c : Char) :
    (∃ unit, utf16Units c = [unit] ∧ isHighSurrogate unit = false ∧ isLowSurrogate unit = false ∧
      Char.ofNat unit = c) ∨
    ∃ high low, utf16Units c = [high, low] ∧ isHighSurrogate high = true ∧
      isLowSurrogate low = true ∧ isHighSurrogate low = false ∧
      Char.ofNat (0x10000 + (high - 0xd800) * 0x400 + (low - 0xdc00)) = c := by
  have hvalid : c.toNat < 0xd800 ∨ 0xdfff < c.toNat ∧ c.toNat < 0x110000 := c.valid
  unfold utf16Units
  split
  · refine .inl ⟨_, rfl, decide_eq_false ?_, decide_eq_false ?_, Char.ofNat_toNat c⟩
    · omega
    · omega
  refine .inr ⟨_, _, rfl, decide_eq_true ?_, decide_eq_true ?_, decide_eq_false ?_, ?_⟩
  · omega
  · omega
  · omega
  · have hpoint : 0x10000 + (0xd800 + (c.toNat - 0x10000) / 0x400 - 0xd800) * 0x400 +
        (0xdc00 + (c.toNat - 0x10000) % 0x400 - 0xdc00) = c.toNat := by omega
    rw [hpoint, Char.ofNat_toNat]

theorem charactersOf_unit {unit : ℕ} (hhigh : isHighSurrogate unit = false)
    (hlow : isLowSurrogate unit = false) (rest : Key) :
    charactersOf (unit :: rest) = Char.ofNat unit :: charactersOf rest := by
  have hneither : ¬ (isHighSurrogate unit = true ∨ isLowSurrogate unit = true) := by
    rw [hhigh, hlow]
    decide
  cases rest with
  | nil => exact if_neg hneither
  | cons next rest =>
    rw [charactersOf, if_neg fun h => hneither (.inl h.1), if_neg hneither]

theorem charactersOf_codeUnits (text : Text) : charactersOf (codeUnits text) = text := by
  induction text with
  | nil => rw [codeUnits, flatMap_nil, charactersOf]
  | cons c text ih =>
    have hcons : codeUnits (c :: text) = utf16Units c ++ codeUnits text := flatMap_cons
    rw [hcons]
    rcases utf16Units_cases c with ⟨unit, hunits, hhigh, hlow, hchar⟩ |
      ⟨high, low, hunits, hhigh, hlow, -, hchar⟩
    · rw [hunits, singleton_append, charactersOf_unit hhigh hlow, hchar, ih]
    · rw [hunits, cons_append, singleton_append, charactersOf, if_pos ⟨hhigh, hlow⟩, hchar, ih]

theorem encodeUnits_codeUnits (text : Text) : encodeUnits (codeUnits text) = encode text := by
  rw [encodeUnits, charactersOf_codeUnits]

variable {previous : Option ℕ}

theorem not_isLoneEscape_of_unit {unit : ℕ}
    (hlow : isLowSurrogate unit = false) : isLoneEscape previous unit = false := by
  have hnot := of_decide_eq_false hlow
  refine decide_eq_false fun h => hnot ?_
  have hbounds := h.1
  unfold escapeMin escapeMax at hbounds
  omega

theorem not_isLoneEscape_of_high {unit : ℕ} (hhigh : isHighSurrogate unit = true) (next : ℕ) :
    isLoneEscape (some unit) next = false := by
  refine decide_eq_false fun h => h.2 ?_
  rw [Option.any_some]
  exact hhigh

theorem isLoneEscape_raw (hprevious : previous.any isHighSurrogate = false)
    {byte : UInt8} (hbyte : 0x80 ≤ byte.toNat) :
    isLoneEscape previous (escapeBase + byte.toNat) = true := by
  have hlt := byte.toNat_lt
  refine decide_eq_true ⟨⟨?_, ?_⟩, ?_⟩
  · unfold escapeMin escapeBase
    omega
  · unfold escapeMax escapeBase
    omega
  · rw [hprevious]
    exact Bool.false_ne_true

theorem isLowSurrogate_of_high {unit : ℕ} (hhigh : isHighSurrogate unit = true) :
    isLowSurrogate unit = false := by
  have h := of_decide_eq_true hhigh
  exact decide_eq_false (by omega)

theorem not_isHighSurrogate_raw (byte : UInt8) :
    isHighSurrogate (escapeBase + byte.toNat) = false := by
  refine decide_eq_false ?_
  unfold escapeBase
  omega

/-- **The pieces are told apart**: the bytes of a string that is made of them. -/
theorem encodeEscapedFrom_pieces {pieces : List Piece} (hsound : ∀ piece ∈ pieces, piece.Sound)
    (hprevious : previous.any isHighSurrogate = false) (text : Text) :
    encodeEscapedFrom previous (codeUnits text) (unitsOf pieces) =
      encode text ++ bytesOf pieces := by
  induction pieces generalizing previous text with
  | nil =>
    have hend :
        encodeEscapedFrom previous (codeUnits text) [] = encodeUnits (codeUnits text) := rfl
    exact hend.trans ((encodeUnits_codeUnits text).trans (append_nil _).symm)
  | cons piece pieces ih =>
    have hrest : ∀ other ∈ pieces, other.Sound := fun other hmem =>
      hsound other (mem_cons_of_mem _ hmem)
    have hunits : unitsOf (piece :: pieces) = piece.units ++ unitsOf pieces := flatMap_cons
    have hbytes : bytesOf (piece :: pieces) = piece.bytes ++ bytesOf pieces := flatMap_cons
    rw [hunits, hbytes]
    cases piece with
    | character c =>
      have hrun : ∀ units, utf16Units c = units →
          codeUnits text ++ units = codeUnits (text ++ [c]) := by
        rintro units rfl
        rw [codeUnits_append]
        exact congrArg (codeUnits text ++ ·) (append_nil _).symm
      have hdone : encode (text ++ [c]) ++ bytesOf pieces =
          encode text ++ (String.utf8EncodeChar c ++ bytesOf pieces) := by
        rw [encode_append_text, append_assoc]
        exact congrArg (fun one => encode text ++ (one ++ bytesOf pieces)) (append_nil _)
      rw [Piece.units, Piece.bytes, ← hdone]
      rcases utf16Units_cases c with ⟨unit, hc, hhigh, hlow, -⟩ |
        ⟨high, low, hc, hhigh, hlow, hlast, -⟩
      · rw [hc, singleton_append, encodeEscapedFrom, not_isLoneEscape_of_unit hlow,
          if_neg Bool.false_ne_true, hrun [unit] hc]
        have hnext : (some unit).any isHighSurrogate = false := hhigh
        exact ih hrest hnext _
      rw [hc, cons_append, singleton_append, encodeEscapedFrom,
        not_isLoneEscape_of_unit (isLowSurrogate_of_high hhigh), if_neg Bool.false_ne_true,
        encodeEscapedFrom, not_isLoneEscape_of_high hhigh, if_neg Bool.false_ne_true,
        append_assoc, singleton_append, hrun [high, low] hc]
      have hnext : (some low).any isHighSurrogate = false := hlast
      exact ih hrest hnext _
    | raw byte =>
      have hbyte : 0x80 ≤ byte.toNat := hsound _ mem_cons_self
      have hback : UInt8.ofNat (escapeBase + byte.toNat - escapeBase) = byte := by
        rw [Nat.add_sub_cancel_left, ofNat_of_toNat rfl]
      have hnext : (some (escapeBase + byte.toNat)).any isHighSurrogate = false :=
        not_isHighSurrogate_raw byte
      rw [Piece.units, Piece.bytes, singleton_append, singleton_append,
        encodeEscapedFrom, if_pos (isLoneEscape_raw hprevious hbyte), encodeUnits_codeUnits,
        hback]
      exact congrArg (fun after => encode text ++ byte :: after)
        (ih hrest hnext [])

theorem hasEscapeFrom_pieces {pieces : List Piece} (hsound : ∀ piece ∈ pieces, piece.Sound)
    (hprevious : previous.any isHighSurrogate = false) :
    hasEscapeFrom previous (unitsOf pieces) = true ↔ ∃ byte, Piece.raw byte ∈ pieces := by
  induction pieces generalizing previous with
  | nil => exact iff_of_false Bool.false_ne_true fun ⟨_, hmem⟩ => absurd hmem not_mem_nil
  | cons piece pieces ih =>
    have hrest : ∀ other ∈ pieces, other.Sound := fun other hmem =>
      hsound other (mem_cons_of_mem _ hmem)
    have hunits : unitsOf (piece :: pieces) = piece.units ++ unitsOf pieces := flatMap_cons
    rw [hunits]
    cases piece with
    | character c =>
      have hskip : (∃ byte, Piece.raw byte ∈ Piece.character c :: pieces) ↔
          ∃ byte, Piece.raw byte ∈ pieces := exists_congr fun byte =>
        mem_cons.trans (or_iff_right fun h => by cases h)
      rw [Piece.units, hskip]
      rcases utf16Units_cases c with ⟨unit, hc, hhigh, hlow, -⟩ |
        ⟨high, low, hc, hhigh, hlow, hlast, -⟩
      · rw [hc, singleton_append, hasEscapeFrom, not_isLoneEscape_of_unit hlow, Bool.false_or]
        exact ih hrest hhigh
      · rw [hc, cons_append, singleton_append, hasEscapeFrom,
          not_isLoneEscape_of_unit (isLowSurrogate_of_high hhigh), Bool.false_or, hasEscapeFrom,
          not_isLoneEscape_of_high hhigh, Bool.false_or]
        exact ih hrest hlast
    | raw byte =>
      have hbyte : 0x80 ≤ byte.toNat := hsound _ mem_cons_self
      rw [Piece.units, singleton_append, hasEscapeFrom, isLoneEscape_raw hprevious hbyte,
        Bool.true_or]
      exact iff_of_true rfl ⟨byte, mem_cons_self⟩

theorem encodeEscaped_pieces {pieces : List Piece} (hsound : ∀ piece ∈ pieces, piece.Sound) :
    encodeEscaped (unitsOf pieces) = bytesOf pieces := by
  unfold encodeEscaped
  split
  · exact encodeEscapedFrom_pieces hsound rfl []
  · next hnone =>
    have hcharacters : ∃ text : Text, pieces = text.map .character := by
      have hnot : ∀ byte, Piece.raw byte ∉ pieces := fun byte hmem =>
        hnone ((hasEscapeFrom_pieces hsound rfl).mpr ⟨byte, hmem⟩)
      clear hnone hsound
      induction pieces with
      | nil => exact ⟨[], rfl⟩
      | cons piece pieces ih =>
        obtain ⟨text, rfl⟩ := ih fun byte hmem => hnot byte (mem_cons_of_mem _ hmem)
        cases piece with
        | character c => exact ⟨c :: text, rfl⟩
        | raw byte => exact absurd mem_cons_self (hnot byte)
    obtain ⟨text, rfl⟩ := hcharacters
    have hunits := unitsOf_characters text []
    have hbytes := bytesOf_characters text []
    rw [append_nil] at hunits hbytes
    rw [hunits, hbytes]
    exact (congrArg encodeUnits (append_nil _)).trans
      ((encodeUnits_codeUnits text).trans (append_nil _).symm)

/-- **An escaped string is made of pieces**: the loop, behind the text that it has passed. -/
theorem escapeFrom_pieces {room : ℕ} (done : Bytes) (text : Text) (rest : Bytes)
    (hroom : rest.length < room) :
    ∃ pieces, (∀ piece ∈ pieces, piece.Sound) ∧
      escapeFrom (done ++ (encode text ++ rest)) room done.length
        (done ++ encode text).length = unitsOf pieces ∧
      encode text ++ rest = bytesOf pieces := by
  induction room generalizing done text rest with
  | zero => omega
  | succ room ih =>
    have hassoc : done ++ (encode text ++ rest) = (done ++ encode text) ++ rest :=
      (append_assoc _ _ _).symm
    have hhead : (done ++ (encode text ++ rest))[(done ++ encode text).length]? = rest[0]? := by
      rw [hassoc]
      exact getElem?_boundary_zero _ _
    have hsequence : wellFormedSequenceLength (done ++ (encode text ++ rest))
        (done ++ encode text).length = wellFormedSequenceLength rest 0 := by
      rw [hassoc]
      exact wellFormedSequenceLength_front _ _
    rw [escapeFrom, hhead, hsequence]
    cases rest with
    | nil =>
      refine ⟨text.map .character, fun piece hmem => ?_, ?_, ?_⟩
      · obtain ⟨c, -, rfl⟩ := mem_map.mp hmem
        trivial
      · have hunits := unitsOf_characters text []
        rw [append_nil] at hunits
        rw [hunits, getElem?_nil, append_nil, drop_left]
        dsimp only
        rw [decodePreservingBom_encode]
        exact (append_nil _).symm
      · have hbytes := bytesOf_characters text []
        rw [append_nil] at hbytes
        exact hbytes.symm
    | cons byte rest =>
      rw [getElem?_cons_zero]
      dsimp only
      by_cases hlength : wellFormedSequenceLength (byte :: rest) 0 > 0
      · obtain ⟨c, after, hbytes, hc⟩ := exists_char_of_length hlength
        have hmore : encode text ++ (byte :: rest) = encode (text ++ [c]) ++ after := by
          rw [hbytes, encode_append_text, append_assoc]
          exact congrArg (fun one => encode text ++ (one ++ after)) (append_nil _).symm
        have hnext : (done ++ encode text).length + wellFormedSequenceLength (byte :: rest) 0 =
            (done ++ encode (text ++ [c])).length := by
          have hone : (encode [c]).length = (String.utf8EncodeChar c).length :=
            congrArg length (append_nil _)
          rw [length_append, length_append, encode_append_text, length_append, hone, hc]
          omega
        have hshort : after.length < room := by
          have hsum := congrArg length hbytes
          rw [length_append] at hsum
          omega
        rw [if_pos hlength, hnext, hmore]
        exact ih done (text ++ [c]) after hshort
      · have hzero : wellFormedSequenceLength (byte :: rest) 0 = 0 := by omega
        have hbyte := (replacement_mem_of_length_zero hzero).1
        have hrun : subarray (done ++ (encode text ++ byte :: rest)) done.length
            (done ++ encode text).length = encode text := by
          rw [length_append]
          exact subarray_append_left done (encode text) (byte :: rest)
        have hmoved : done ++ (encode text ++ byte :: rest) =
            (done ++ encode text ++ [byte]) ++ (encode [] ++ rest) := by
          rw [append_assoc, append_assoc]
          rfl
        have hstart : (done ++ encode text).length + 1 = (done ++ encode text ++ [byte]).length :=
          (@length_append _ (done ++ encode text) [byte]).symm
        have hagain : (done ++ encode text ++ [byte]).length =
            (done ++ encode text ++ [byte] ++ encode []).length :=
          congrArg length (append_nil _).symm
        rw [length_cons] at hroom
        obtain ⟨pieces, hsound, hunits, hbytes⟩ :=
          ih (done ++ encode text ++ [byte]) [] rest (by omega)
        rw [← hagain] at hunits
        refine ⟨text.map .character ++ .raw byte :: pieces, ?_, ?_, ?_⟩
        · intro piece hmem
          rcases mem_append.mp hmem with hmem | hmem
          · obtain ⟨c, -, rfl⟩ := mem_map.mp hmem
            trivial
          · rcases mem_cons.mp hmem with rfl | hmem
            · exact hbyte
            · exact hsound piece hmem
        · rw [if_neg hlength, hrun, decodePreservingBom_encode, hstart, hmoved, hunits,
            unitsOf_characters]
          rfl
        · rw [bytesOf_characters]
          exact congrArg (fun after => encode text ++ byte :: after) hbytes

theorem exists_pieces (bytes : Bytes) : ∃ pieces, (∀ piece ∈ pieces, piece.Sound) ∧
    decodeEscapingInvalid bytes = unitsOf pieces ∧ bytes = bytesOf pieces ∧
    (decodesLosslessly (decodePreservingBom bytes) bytes = false →
      ∃ byte, Piece.raw byte ∈ pieces) := by
  unfold decodeEscapingInvalid
  dsimp only
  split
  · next hlossless =>
    have hbytes := bytesOf_characters (decodePreservingBom bytes) []
    have hunits := unitsOf_characters (decodePreservingBom bytes) []
    rw [encode_of_decodesLosslessly hlossless, append_nil] at hbytes
    rw [append_nil] at hunits
    refine ⟨(decodePreservingBom bytes).map .character, fun piece hmem => ?_,
      ((hunits.trans (append_nil _))).symm, (hbytes.trans (append_nil _)).symm,
      fun hlossy => ?_⟩
    · obtain ⟨c, -, rfl⟩ := mem_map.mp hmem
      trivial
    · rw [hlossless] at hlossy
      cases hlossy
  · obtain ⟨pieces, hsound, hunits, hbytes⟩ :=
      @escapeFrom_pieces (bytes.length + 1) [] [] bytes (Nat.lt_succ_self _)
    refine ⟨pieces, hsound, hunits, hbytes, fun hlossy => ?_⟩
    by_contra hnone
    have hnot : ¬ hasEscapedBytes (unitsOf pieces) = true := fun h =>
      hnone ((hasEscapeFrom_pieces hsound rfl).mp h)
    have htext := encodeEscaped_pieces hsound
    rw [encodeEscaped, if_neg hnot, encodeUnits, ← hbytes] at htext
    have hencoded : bytes = encode (charactersOf (unitsOf pieces)) := htext.symm
    rw [hencoded, decodesLosslessly_encode] at hlossy
    cases hlossy

/-! ### No path is lost -/

/-- **The bytes come back.** -/
theorem encodeEscaped_decodeEscapingInvalid (bytes : Bytes) :
    encodeEscaped (decodeEscapingInvalid bytes) = bytes := by
  obtain ⟨pieces, hsound, hunits, hbytes, -⟩ := exists_pieces bytes
  rw [hunits, encodeEscaped_pieces hsound, ← hbytes]

theorem decodeEscapingInvalid_injective {bytes bytes' : Bytes}
    (h : decodeEscapingInvalid bytes = decodeEscapingInvalid bytes') : bytes = bytes' := by
  rw [← encodeEscaped_decodeEscapingInvalid bytes, h, encodeEscaped_decodeEscapingInvalid]

theorem indexPathKey_indexPathOfBytes (bytes : Bytes) :
    indexPathKey (indexPathOfBytes bytes) = decodeEscapingInvalid bytes := by
  rw [indexPathOfBytes, indexPathKey, escapedPathOf, lossyPathBytes]
  by_cases hlossless : decodesLosslessly (decodePreservingBom bytes) bytes = true
  · rw [if_pos hlossless]
    exact (if_pos hlossless).symm
  · rw [if_neg hlossless]
    rfl

theorem hasEscapedBytes_codeUnits (text : Text) : hasEscapedBytes (codeUnits text) = false := by
  have hsound : ∀ piece ∈ text.map Piece.character, piece.Sound := fun piece hmem => by
    obtain ⟨c, -, rfl⟩ := mem_map.mp hmem
    trivial
  have hunits := unitsOf_characters text []
  rw [append_nil] at hunits
  have hend : codeUnits text ++ unitsOf [] = codeUnits text := append_nil _
  rw [hend] at hunits
  rw [← hunits]
  refine Bool.eq_false_iff.mpr fun hescape => ?_
  obtain ⟨byte, hmem⟩ := (hasEscapeFrom_pieces hsound rfl).mp hescape
  obtain ⟨c, -, heq⟩ := mem_map.mp hmem
  cases heq

/-- **The escaped path leads back to the index path.** -/
theorem indexPathOfEscaped_escapedPathOf (bytes : Bytes) :
    indexPathOfEscaped (escapedPathOf (indexPathOfBytes bytes)) = indexPathOfBytes bytes := by
  have hkey : escapedPathOf (indexPathOfBytes bytes) = decodeEscapingInvalid bytes :=
    indexPathKey_indexPathOfBytes bytes
  rw [hkey, indexPathOfEscaped]
  by_cases hlossless : decodesLosslessly (decodePreservingBom bytes) bytes = true
  · have hview : decodeEscapingInvalid bytes = codeUnits (decodePreservingBom bytes) :=
      if_pos hlossless
    rw [hview, hasEscapedBytes_codeUnits, if_neg Bool.false_ne_true, charactersOf_codeUnits,
      indexPathOfBytes, lossyPathBytes, if_pos hlossless]
  · obtain ⟨pieces, hsound, hunits, hbytes, hraw⟩ := exists_pieces bytes
    have hescape : hasEscapedBytes (decodeEscapingInvalid bytes) = true := by
      rw [hunits]
      exact (hasEscapeFrom_pieces hsound rfl).mpr (hraw (Bool.eq_false_iff.mpr hlossless))
    rw [if_pos hescape, encodeEscaped_decodeEscapingInvalid]

/-- **No path is lost.** The escaped string of any bytes encodes to them, so two paths of one key
are one; and index paths are compared as their bytes are. -/
theorem pathBytes_lossless :
    (∀ bytes, encodeEscaped (decodeEscapingInvalid bytes) = bytes) ∧
    (∀ bytes bytes',
      indexPathKey (indexPathOfBytes bytes) = indexPathKey (indexPathOfBytes bytes') →
      bytes = bytes') ∧
    (∀ entry entry' : IndexPath, entry.WellFormed → entry'.WellFormed →
      (indexPathKey entry = indexPathKey entry' ↔ pathBytesOf entry = pathBytesOf entry') ∧
      (indexPathKey entry = indexPathKey entry' ↔ entry = entry')) ∧
    (∀ bytes,
      indexPathOfEscaped (escapedPathOf (indexPathOfBytes bytes)) = indexPathOfBytes bytes) ∧
    (∀ entry : IndexPath, entry.WellFormed → indexPathOfEscaped (escapedPathOf entry) = entry) ∧
    ∀ a b : IndexPath, compareEntryPath a b ≤ 0 ↔
      compareBytes (pathBytesOf a) (pathBytesOf b) ≤ 0 := by
  have hinjective : ∀ bytes bytes', indexPathKey (indexPathOfBytes bytes) =
      indexPathKey (indexPathOfBytes bytes') → bytes = bytes' := by
    intro bytes bytes' h
    rw [indexPathKey_indexPathOfBytes, indexPathKey_indexPathOfBytes] at h
    exact decodeEscapingInvalid_injective h
  refine ⟨encodeEscaped_decodeEscapingInvalid, hinjective, fun entry entry' h h' => ?_,
    indexPathOfEscaped_escapedPathOf, fun entry h => ?_, fun a b => compareEntryPath_nonpos_iff⟩
  · have hbytes :
        indexPathKey entry = indexPathKey entry' → pathBytesOf entry = pathBytesOf entry' := by
      intro hkey
      rw [← indexPathOfBytes_written h, ← indexPathOfBytes_written h'] at hkey
      exact hinjective _ _ hkey
    have hentry : pathBytesOf entry = pathBytesOf entry' → entry = entry' := by
      intro heq
      rw [← indexPathOfBytes_written h, ← indexPathOfBytes_written h', heq]
    exact ⟨⟨hbytes, fun heq => congrArg indexPathKey (hentry heq)⟩,
      fun hkey => hentry (hbytes hkey), congrArg indexPathKey⟩
  · rw [← indexPathOfBytes_written h]
    exact indexPathOfEscaped_escapedPathOf _

/-- The path of the one byte 0x80. -/
def continuationPath : IndexPath := ⟨[replacementCharacter], some [0x80]⟩

theorem pathBytes_lossless_continuation :
    indexPathOfEscaped (escapedPathOf continuationPath) = continuationPath := by
  have hwellFormed : continuationPath.WellFormed := fun raw hraw => by
    obtain rfl := Option.some_inj.mp hraw
    exact ⟨by decide, by decide⟩
  exact pathBytes_lossless.2.2.2.2.1 continuationPath hwellFormed

/-- The keys are not in the order of the bytes, compared as strings or by ranks: a lone 0x80 is in
front of an e with an accent, and its key behind. -/
theorem keys_not_in_byte_order :
    compareBytes [0x80] [0xc3, 0xa9] < 0 ∧
    indexPathKey (indexPathOfBytes [0xc3, 0xa9]) < indexPathKey (indexPathOfBytes [0x80]) ∧
    compareUnits (indexPathKey (indexPathOfBytes [0x80]))
      (indexPathKey (indexPathOfBytes [0xc3, 0xa9])) > 0 := by
  rw [indexPathKey_indexPathOfBytes, indexPathKey_indexPathOfBytes]
  refine ⟨by decide, by decide, by decide⟩

end Tsgit.IndexFile
