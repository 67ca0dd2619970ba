import Mathlib.Data.List.Forall2
import Tsgit.DecodeSplit
import Tsgit.VerifyPath

/-!
# Aliases of `.git`, in Text and in Bytes

The names that a file system takes for `.git` are refused twice: in the components of a path, by
`src/domain/path/verify-path.ts`, and in the raw names of a tree, by
`src/domain/objects/tree-entry-bytes.ts`.
-/

namespace Tsgit.Path

open List Objects

/-! ### The checks of a tree -/

/-- The code point of a sequence that the picker of git accepts as three bytes. -/
def threeByteCodePoint (name : Bytes) (i : ℕ) : ℕ :=
  ((name[i]?.getD 0).toNat &&& 0x0f) <<< 12 ||| ((name[i + 1]?.getD 0).toNat &&& 0x3f) <<< 6 |||
    ((name[i + 2]?.getD 0).toNat &&& 0x3f)

def isHfsIgnorableCodePoint (codePoint : ℕ) : Bool :=
  (0x200c ≤ codePoint ∧ codePoint ≤ 0x200f) ∨ (0x202a ≤ codePoint ∧ codePoint ≤ 0x202e) ∨
    (0x206a ≤ codePoint ∧ codePoint ≤ 0x206f) ∨ codePoint = 0xfeff

def skipIgnorableSequencesFrom (name : Bytes) : ℕ → ℕ → ℕ
  | 0, i => i
  | room + 1, i =>
    if gitPickerSequenceLength name i = 3 ∧ isHfsIgnorableCodePoint (threeByteCodePoint name i) then
      skipIgnorableSequencesFrom name room (i + 3)
    else i

def skipIgnorableSequences (name : Bytes) (i : ℕ) : ℕ :=
  skipIgnorableSequencesFrom name (name.length + 1) i

def endsHfsName (name : Bytes) (i : ℕ) : Bool :=
  name[i]? = some 0x2f ∨ gitPickerSequenceLength name i = 0

/-- The loop of `foldsToHfsAlias`, over what is left to be found. -/
def foldsToHfsFrom (name : Bytes) : ℕ → Text → Bool
  | i, [] => endsHfsName name i
  | i, want :: rest =>
    foldAsciiCodePoint (name[i]?.getD 0).toNat = want.toNat ∧
      foldsToHfsFrom name (skipIgnorableSequences name (i + 1)) rest

def foldsToHfsAlias (buf : Bytes) (start stop : ℕ) (name : DotgitAliasName) : Bool :=
  let span := subarray buf start stop
  foldsToHfsFrom span (skipIgnorableSequences span 0) ('.' :: name.text)

def matchesDotgitAlias (buf : Bytes) (start stop : ℕ) (name : DotgitAliasName) : Bool :=
  foldsToHfsAlias buf start stop name ∨ matchesNtfsDotgitAlias buf start stop name

def backslashSegmentStarts (buf : Bytes) (start stop : ℕ) : List ℕ :=
  (range' start (stop - start)).filterMap fun i =>
    if buf[i]? = some 0x5c then some (i + 1) else none

def isDotGitAlias (component : Text) : Bool := (matchAliasComponent component none).isSome

def matchAliasFully (component : Text) (componentBytes : Option Bytes) :
    Option VerifyPathRejection :=
  match (ntfsParts component).findSome? matchNtfsPart with
  | some reason => some reason
  | none => if hfsAlias component componentBytes dotgit then some .dotgitHfsAlias else none

/-! ### What the file systems make of a name -/

def hfsName (name : Bytes) : Text :=
  toLowerCase (stripIgnorableCodepoints
    (decodePreservingBom (subarray name 0 (gitPickerValidPrefix name))))

/-- NTFS cuts the name at a colon, trims dots and spaces, and folds case. -/
def ntfsName (part : Text) : Text := normalizeAliasCandidate (part.takeWhile (· ≠ ':'))

/-- The names of `.git` under NTFS. -/
def IsNtfsDotgit (part : Text) : Prop := ntfsName part = dotgit ∨ ntfsName part = ntfsShortName

def rawComponent (pathBytes : Option Bytes) (index : ℕ) (component : Text) : Bytes :=
  (pathBytes.bind fun raw => (raw.splitOn 0x2f)[index]?).getD (encode component)

/-- A component that no file system takes for `.git`. -/
structure NamesNoDotgit (component : Text) (raw : Bytes) : Prop where
  hfs : hfsName raw ≠ dotgit
  ntfs : ∀ index part, (component.splitOn '\\')[index]? = some part →
    ¬ (component.head? = some '\\' ∧ index = 1) → ¬ IsNtfsDotgit part

/-! ### Folding case -/

/-- A character of a name that is looked for. Only ASCII letters fold to it. -/
structure IsFolded (c : Char) : Prop where
  pos : 0 < c.toNat
  ascii : c.toNat ≤ 0x7f
  not_upper : ¬ (0x41 ≤ c.toNat ∧ c.toNat ≤ 0x5a)
  ne_kelvin : c ≠ 'k'

def FoldsTo (c want : Char) : Prop := foldAsciiCodePoint c.toNat = want.toNat

theorem isFolded_dotgit : ∀ c ∈ dotgit, IsFolded c := by
  rw [dotgit]
  simp only [forall_mem_cons]
  refine ⟨?_, ?_, ?_, ?_, forall_mem_nil _⟩ <;>
    exact ⟨by decide, by decide, by decide, by decide⟩

theorem isFolded_ntfsShortName : ∀ c ∈ ntfsShortName, IsFolded c := by
  rw [ntfsShortName]
  simp only [forall_mem_cons]
  refine ⟨?_, ?_, ?_, ?_, ?_, forall_mem_nil _⟩ <;>
    exact ⟨by decide, by decide, by decide, by decide⟩

theorem FoldsTo.ascii {c want : Char} (h : FoldsTo c want) (hwant : want.toNat ≤ 0x7f) :
    c.toNat ≤ 0x7f := by
  unfold FoldsTo foldAsciiCodePoint at h
  split at h <;> omega

theorem FoldsTo.eq {c want : Char} (h : FoldsTo c want)
    (hwant : ¬ (0x61 ≤ want.toNat ∧ want.toNat ≤ 0x7a)) : c = want := by
  refine Char.toNat_inj.mp ?_
  unfold FoldsTo foldAsciiCodePoint at h
  split at h <;> omega

theorem upper_iff (c : Char) : ('A' ≤ c ∧ c ≤ 'Z') ↔ 0x41 ≤ c.toNat ∧ c.toNat ≤ 0x5a := Iff.rfl

theorem lowerCaseOf_ne_nil (c : Char) : lowerCaseOf c ≠ [] := by
  unfold lowerCaseOf
  split_ifs <;> exact cons_ne_nil _ _

theorem lowerCaseOf_append_eq_iff {c want : Char} {text needle : Text}
    (hfolded : ∀ w ∈ want :: needle, IsFolded w) :
    lowerCaseOf c ++ text = want :: needle ↔ FoldsTo c want ∧ text = needle := by
  have hwant := hfolded want mem_cons_self
  have hascii := hwant.ascii
  have hnot := hwant.not_upper
  unfold lowerCaseOf
  split
  · next hupper =>
    rw [upper_iff] at hupper
    have hself : (Char.ofNat (c.toNat + 0x20)).toNat = c.toNat + 0x20 :=
      toNat_ofNat_of_isValidChar (Or.inl (by omega))
    rw [singleton_append, List.cons.injEq, ← Char.toNat_inj, hself]
    unfold FoldsTo foldAsciiCodePoint
    rw [if_pos hupper]
  · next hupper =>
    rw [upper_iff] at hupper
    have hsame : foldAsciiCodePoint c.toNat = c.toNat := if_neg hupper
    unfold FoldsTo
    rw [hsame]
    split
    · next hkelvin =>
      have hcode : c.toNat = 0x212a := congrArg Char.toNat hkelvin
      rw [singleton_append, List.cons.injEq]
      exact ⟨fun h => absurd h.1.symm hwant.ne_kelvin, fun h => by omega⟩
    split
    · next hdotted =>
      have hcode : c.toNat = 0x130 := congrArg Char.toNat hdotted
      refine ⟨fun h => ?_, fun h => by omega⟩
      have hdot : '\u0307' ∈ want :: needle :=
        h ▸ mem_append_left _ (mem_cons_of_mem _ mem_cons_self)
      exact absurd (hfolded _ hdot).ascii (by decide)
    · rw [singleton_append, List.cons.injEq, Char.toNat_inj]

theorem toLowerCase_eq_iff {text needle : Text} (hfolded : ∀ w ∈ needle, IsFolded w) :
    toLowerCase text = needle ↔ List.Forall₂ FoldsTo text needle := by
  induction text generalizing needle with
  | nil =>
    cases needle with
    | nil => exact ⟨fun _ => .nil, fun _ => rfl⟩
    | cons want needle => exact ⟨fun h => (by cases h), fun h => (by cases h)⟩
  | cons c text ih =>
    rw [toLowerCase, flatMap_cons]
    cases needle with
    | nil =>
      refine ⟨fun h => absurd (append_eq_nil_iff.mp h).1 (lowerCaseOf_ne_nil c), fun h => ?_⟩
      cases h
    | cons want needle =>
      have ih' := ih (forall_mem_cons.mp hfolded).2
      rw [toLowerCase] at ih'
      rw [lowerCaseOf_append_eq_iff hfolded, forall₂_cons, ih']

/-! ### Bytes at the characters of a text -/

theorem encode_cons (c : Char) (text : Text) :
    encode (c :: text) = String.utf8EncodeChar c ++ encode text := rfl

theorem encode_append_text (text text' : Text) :
    encode (text ++ text') = encode text ++ encode text' := flatMap_append

variable {c : Char}

theorem utf8EncodeChar_ascii (h : c.toNat ≤ 0x7f) :
    String.utf8EncodeChar c = [UInt8.ofNat c.toNat] := by
  rw [utf8EncodeChar_eq c rfl, if_pos h]

theorem lead_utf8EncodeChar (c : Char) : ∃ lead rest, String.utf8EncodeChar c = lead :: rest ∧
    (c.toNat ≤ 0x7f → lead.toNat = c.toNat ∧ rest = []) ∧ (0x7f < c.toNat → 0x7f < lead.toNat) := by
  have hvalid : c.toNat < 0xd800 ∨ 0xdfff < c.toNat ∧ c.toNat < 0x110000 := c.valid
  rw [utf8EncodeChar_eq c rfl]
  split_ifs with hone htwo hthree
  · exact ⟨_, _, rfl, fun _ => ⟨toNat_ofNat_byte (by omega), rfl⟩, fun h => by omega⟩
  · refine ⟨_, _, rfl, fun h => by omega, fun _ => ?_⟩
    rw [toNat_ofNat_byte (by omega)]
    omega
  · refine ⟨_, _, rfl, fun h => by omega, fun _ => ?_⟩
    rw [toNat_ofNat_byte (by omega)]
    omega
  · refine ⟨_, _, rfl, fun h => by omega, fun _ => ?_⟩
    rw [toNat_ofNat_byte (by omega)]
    omega

theorem length_le_encode (text : Text) : text.length ≤ (encode text).length := by
  induction text with
  | nil => exact le_rfl
  | cons c text ih =>
    obtain ⟨lead, rest, hbytes, -, -⟩ := lead_utf8EncodeChar c
    rw [encode_cons, hbytes, length_append, length_cons, length_cons]
    omega

section

variable (front : Bytes)

theorem getElem?_boundary (bytes : Bytes) (i : ℕ) :
    (front ++ bytes)[front.length + i]? = bytes[i]? := by
  rw [getElem?_append_right (Nat.le_add_right _ _), Nat.add_sub_cancel_left]

theorem getElem?_boundary_zero (bytes : Bytes) :
    (front ++ bytes)[front.length]? = bytes[0]? := getElem?_boundary front bytes 0

theorem gitPickerSequenceLength_boundary (bytes : Bytes) :
    gitPickerSequenceLength (front ++ bytes) front.length = gitPickerSequenceLength bytes 0 := by
  unfold gitPickerSequenceLength isNonCharacterTail wellFormedSequenceLength
  simp only [getElem?_boundary, getElem?_boundary_zero, Nat.zero_add]

theorem threeByteCodePoint_boundary (bytes : Bytes) :
    threeByteCodePoint (front ++ bytes) front.length = threeByteCodePoint bytes 0 := by
  unfold threeByteCodePoint
  simp only [getElem?_boundary, getElem?_boundary_zero, Nat.zero_add]

end

theorem isNonCharacterTail_of_lead {lead : UInt8} (h : lead.toNat ≠ 0xef) (rest : Bytes) :
    isNonCharacterTail (lead :: rest) 0 = false := by
  have hne : lead ≠ 0xef := fun heq => h (congrArg UInt8.toNat heq)
  exact decide_eq_false fun hall => hne (Option.some_inj.mp hall.1)

theorem isNonCharacterTail_cons (lead second third : UInt8) (rest : Bytes) :
    isNonCharacterTail (lead :: second :: third :: rest) 0 = true ↔
      lead.toNat = 0xef ∧ second.toNat = 0xbf ∧ 0xbe ≤ third.toNat := by
  unfold isNonCharacterTail
  rw [decide_eq_true_iff]
  refine and_congr ?_ (and_congr ?_ ?_)
  · exact Option.some_inj.trans UInt8.toNat_inj.symm
  · exact Option.some_inj.trans UInt8.toNat_inj.symm
  · exact decide_eq_true_iff

theorem wellFormedSequenceLength_cons {lead second : UInt8} {rest : Bytes} {length : ℕ}
    (hlength : expectedLength lead.toNat = length + 2)
    (hsecond : (secondByteRange lead.toNat).1 ≤ second.toNat ∧
      second.toNat ≤ (secondByteRange lead.toNat).2)
    (hrest : ∀ k < length, ∃ byte : UInt8, rest[k]? = some byte ∧ 0x80 ≤ byte.toNat ∧
      byte.toNat ≤ 0xbf) :
    wellFormedSequenceLength (lead :: second :: rest) 0 = length + 2 := by
  have hall : ((range' 2 length).all fun k =>
      isContinuation (lead :: second :: rest)[0 + k]?) = true := by
    rw [all_eq_true]
    intro k hk
    obtain ⟨hlow, hhigh⟩ := mem_range'_1.mp hk
    obtain ⟨byte, hbyte, hbounds⟩ := hrest (k - 2) (by omega)
    obtain ⟨i, rfl⟩ : ∃ i, k = i + 2 := ⟨k - 2, by omega⟩
    rw [Nat.zero_add, getElem?_cons_succ, getElem?_cons_succ]
    rw [Nat.add_sub_cancel] at hbyte
    rw [hbyte]
    exact decide_eq_true hbounds
  have hin : ((lead :: second :: rest)[0 + 1]?.any fun b =>
      (secondByteRange lead.toNat).1 ≤ b.toNat ∧ b.toNat ≤ (secondByteRange lead.toNat).2) =
      true := decide_eq_true hsecond
  rw [wellFormedSequenceLength, getElem?_cons_zero]
  dsimp only
  rw [hlength, if_neg (by omega), hin, if_neg (not_not_intro rfl), Nat.add_sub_cancel, hall,
    if_pos rfl]

/-- **The picker takes a character whole**, if it is none of the last two of its plane. -/
theorem gitPickerSequenceLength_char (c : Char) (rest : Bytes) :
    gitPickerSequenceLength (String.utf8EncodeChar c ++ rest) 0 =
      if isNonCharacter c then 0 else (String.utf8EncodeChar c).length := by
  have hvalid : c.toNat < 0xd800 ∨ 0xdfff < c.toNat ∧ c.toNat < 0x110000 := c.valid
  have hnon : isNonCharacter c = true ↔ c.toNat = 0xfffe ∨ c.toNat = 0xffff := decide_eq_true_iff
  obtain ⟨bytes, hbytes⟩ : ∃ bytes, bytes = String.utf8EncodeChar c := ⟨_, rfl⟩
  have hcases := utf8EncodeChar_eq c rfl
  rw [← hbytes] at hcases ⊢
  obtain ⟨v, hv⟩ : ∃ v, v = c.toNat := ⟨_, rfl⟩
  rw [← hv] at hvalid hnon hcases
  split_ifs at hcases with hone htwo hthree
  · have hlead : (UInt8.ofNat v).toNat = v := toNat_ofNat_byte (by omega)
    have htail := @isNonCharacterTail_of_lead (UInt8.ofNat v) (by omega) rest
    have hexpected : expectedLength v = 1 := if_pos hone
    rw [hcases, if_neg (by rw [hnon]; omega), gitPickerSequenceLength, singleton_append, htail,
      if_neg Bool.false_ne_true, wellFormedSequenceLength, getElem?_cons_zero]
    dsimp only
    rw [hlead, hexpected]
    rfl
  · have hlead : (UInt8.ofNat (v / 64 % 0x20 + 0xc0)).toNat = v / 64 % 0x20 + 0xc0 :=
      toNat_ofNat_byte (by omega)
    have hlast : (UInt8.ofNat (v % 0x40 + 0x80)).toNat = v % 0x40 + 0x80 :=
      toNat_ofNat_byte (by omega)
    rw [hcases, if_neg (by rw [hnon]; omega), gitPickerSequenceLength, cons_append,
      isNonCharacterTail_of_lead (by omega), if_neg Bool.false_ne_true]
    refine wellFormedSequenceLength_cons ?_ ?_ (fun k hk => absurd hk (Nat.not_lt_zero k))
    · rw [hlead]
      unfold expectedLength
      rw [if_neg (by omega), if_pos (by omega)]
      rfl
    · rw [hlead, hlast]
      unfold secondByteRange
      rw [if_neg (by omega), if_neg (by omega), if_neg (by omega), if_neg (by omega)]
      exact ⟨by omega, by omega⟩
  · have hlead : (UInt8.ofNat (v / 4096 % 0x10 + 0xe0)).toNat = v / 4096 % 0x10 + 0xe0 :=
      toNat_ofNat_byte (by omega)
    have hmid : (UInt8.ofNat (v / 64 % 0x40 + 0x80)).toNat = v / 64 % 0x40 + 0x80 :=
      toNat_ofNat_byte (by omega)
    have hlast : (UInt8.ofNat (v % 0x40 + 0x80)).toNat = v % 0x40 + 0x80 :=
      toNat_ofNat_byte (by omega)
    have htail := isNonCharacterTail_cons (UInt8.ofNat (v / 4096 % 0x10 + 0xe0))
      (UInt8.ofNat (v / 64 % 0x40 + 0x80)) (UInt8.ofNat (v % 0x40 + 0x80)) rest
    rw [hlead, hmid, hlast] at htail
    rw [hcases, gitPickerSequenceLength, cons_append, cons_append, cons_append, nil_append]
    refine ite_congr (propext (htail.trans (Iff.trans ?_ hnon.symm))) (fun _ => rfl) fun _ => ?_
    · omega
    refine wellFormedSequenceLength_cons ?_ ?_ fun k hk => ?_
    · rw [hlead]
      unfold expectedLength
      rw [if_neg (by omega), if_neg (by omega), if_pos (by omega)]
      rfl
    · rw [hlead, hmid]
      unfold secondByteRange
      split_ifs <;> exact ⟨by omega, by omega⟩
    · have hone : k < 1 := hk
      obtain rfl : k = 0 := by omega
      exact ⟨_, rfl, by omega, by omega⟩
  · have hlead : (UInt8.ofNat (v / 262144 % 0x08 + 0xf0)).toNat = v / 262144 % 0x08 + 0xf0 :=
      toNat_ofNat_byte (by omega)
    have hfirst : (UInt8.ofNat (v / 4096 % 0x40 + 0x80)).toNat = v / 4096 % 0x40 + 0x80 :=
      toNat_ofNat_byte (by omega)
    have hmid : (UInt8.ofNat (v / 64 % 0x40 + 0x80)).toNat = v / 64 % 0x40 + 0x80 :=
      toNat_ofNat_byte (by omega)
    have hlast : (UInt8.ofNat (v % 0x40 + 0x80)).toNat = v % 0x40 + 0x80 :=
      toNat_ofNat_byte (by omega)
    rw [hcases, if_neg (by rw [hnon]; omega), gitPickerSequenceLength, cons_append,
      isNonCharacterTail_of_lead (by omega), if_neg Bool.false_ne_true]
    refine wellFormedSequenceLength_cons ?_ ?_ fun k hk => ?_
    · rw [hlead]
      unfold expectedLength
      rw [if_neg (by omega), if_neg (by omega), if_neg (by omega), if_pos (by omega)]
      rfl
    · rw [hlead, hfirst]
      unfold secondByteRange
      split_ifs <;> exact ⟨by omega, by omega⟩
    · have htwo' : k < 2 := hk
      obtain rfl | rfl : k = 0 ∨ k = 1 := by omega
      · exact ⟨_, rfl, by omega, by omega⟩
      · exact ⟨_, rfl, by omega, by omega⟩

theorem or_three {a b c : ℕ} (hb : b < 0x40) (hc : c < 0x40) :
    a <<< 12 ||| b <<< 6 ||| c = a * 0x1000 + b * 0x40 + c := by
  have hshift : a <<< 12 = (a <<< 6) <<< 6 := Nat.shiftLeft_add a 6 6
  rw [hshift, ← Nat.shiftLeft_or_distrib, shiftLeft_six_or hb, shiftLeft_six_or hc]
  omega

theorem threeByteCodePoint_char (h : (String.utf8EncodeChar c).length = 3)
    (rest : Bytes) : threeByteCodePoint (String.utf8EncodeChar c ++ rest) 0 = c.toNat := by
  obtain ⟨bytes, hbytes⟩ : ∃ bytes, bytes = String.utf8EncodeChar c := ⟨_, rfl⟩
  have hcases := utf8EncodeChar_eq c rfl
  rw [← hbytes] at hcases h ⊢
  obtain ⟨v, hv⟩ : ∃ v, v = c.toNat := ⟨_, rfl⟩
  rw [← hv] at hcases ⊢
  split_ifs at hcases with hone htwo hthree
  · rw [hcases] at h
    cases h
  · rw [hcases] at h
    cases h
  · have hlead : (UInt8.ofNat (v / 4096 % 0x10 + 0xe0)).toNat = v / 4096 % 0x10 + 0xe0 :=
      toNat_ofNat_byte (by omega)
    have hmid : (UInt8.ofNat (v / 64 % 0x40 + 0x80)).toNat = v / 64 % 0x40 + 0x80 :=
      toNat_ofNat_byte (by omega)
    have hlast : (UInt8.ofNat (v % 0x40 + 0x80)).toNat = v % 0x40 + 0x80 :=
      toNat_ofNat_byte (by omega)
    have hfour : (v / 4096 % 0x10 + 0xe0) &&& 0x0f = v / 4096 % 0x10 := by
      have hmask : (v / 4096 % 0x10 + 0xe0) &&& 0x0f = (v / 4096 % 0x10 + 0xe0) % 0x10 :=
        Nat.and_two_pow_sub_one_eq_mod _ 4
      omega
    have hread : threeByteCodePoint (bytes ++ rest) 0 =
        ((UInt8.ofNat (v / 4096 % 0x10 + 0xe0)).toNat &&& 0x0f) <<< 12 |||
          ((UInt8.ofNat (v / 64 % 0x40 + 0x80)).toNat &&& 0x3f) <<< 6 |||
          ((UInt8.ofNat (v % 0x40 + 0x80)).toNat &&& 0x3f) := by
      rw [hcases]
      rfl
    rw [hlead, hmid, hlast, hfour, and_continuation, and_continuation] at hread
    rw [hread, or_three (by omega) (by omega)]
    omega
  · rw [hcases] at h
    cases h

theorem isIgnorable_spec (h : isIgnorable c = true) :
    (String.utf8EncodeChar c).length = 3 ∧ isNonCharacter c = false := by
  have hranges := of_decide_eq_true h
  refine ⟨?_, decide_eq_false (by omega)⟩
  rw [utf8EncodeChar_eq c rfl, if_neg (by omega), if_neg (by omega), if_pos (by omega)]
  rfl

/-- **The loop skips the ignorable characters.** -/
theorem skipIgnorableSequencesFrom_encode (text : Text) {room : ℕ} (front : Bytes)
    (hroom : text.length < room) :
    skipIgnorableSequencesFrom (front ++ encode text) room front.length =
      (front ++ encode (text.takeWhile isIgnorable)).length := by
  induction text generalizing room front with
  | nil =>
    obtain ⟨room, rfl⟩ : ∃ turns, room = turns + 1 := ⟨room - 1, by omega⟩
    have hend : gitPickerSequenceLength (front ++ []) front.length = 0 :=
      gitPickerSequenceLength_boundary front []
    have hstop : ¬ (gitPickerSequenceLength (front ++ []) front.length = 3 ∧
        isHfsIgnorableCodePoint (threeByteCodePoint (front ++ []) front.length) = true) := by
      rw [hend]
      exact fun hall => absurd hall.1 (by decide)
    exact (if_neg hstop).trans (congrArg length (append_nil front).symm)
  | cons c text ih =>
    obtain ⟨room, rfl⟩ : ∃ turns, room = turns + 1 := ⟨room - 1, by omega⟩
    rw [length_cons] at hroom
    rw [skipIgnorableSequencesFrom, encode_cons, gitPickerSequenceLength_boundary,
      threeByteCodePoint_boundary, gitPickerSequenceLength_char]
    by_cases hignorable : isIgnorable c = true
    · obtain ⟨hlength, hpicked⟩ := isIgnorable_spec hignorable
      have hset : isHfsIgnorableCodePoint (threeByteCodePoint
          (String.utf8EncodeChar c ++ encode text) 0) = true := by
        rw [threeByteCodePoint_char hlength]
        exact hignorable
      have hnext : front.length + 3 = (front ++ String.utf8EncodeChar c).length := by
        rw [length_append, hlength]
      rw [hpicked, if_neg Bool.false_ne_true, if_pos ⟨hlength, hset⟩,
        takeWhile_cons_of_pos hignorable, encode_cons, hnext, ← append_assoc,
        ← append_assoc]
      exact ih (front ++ String.utf8EncodeChar c) (by omega)
    · have hnil : encode [] = [] := rfl
      rw [takeWhile_cons_of_neg hignorable, hnil, append_nil]
      refine if_neg fun hall => hignorable ?_
      by_cases hpicked : isNonCharacter c = true
      · rw [if_pos hpicked] at hall
        exact absurd hall.1 (by decide)
      · rw [if_neg hpicked] at hall
        have hset := hall.2
        rw [threeByteCodePoint_char hall.1] at hset
        exact hset

theorem skipIgnorableSequences_encode (front : Bytes) (text : Text) :
    skipIgnorableSequences (front ++ encode text) front.length =
      (front ++ encode (text.takeWhile isIgnorable)).length := by
  refine skipIgnorableSequencesFrom_encode text front ?_
  have hlength := length_le_encode text
  rw [length_append]
  omega

/-- The part of a name that HFS+ compares. -/
def hfsText (text : Text) : Text :=
  stripIgnorableCodepoints (text.takeWhile fun c => ¬ isNonCharacter c)

theorem hfsText_cons (hpicked : isNonCharacter c = false) (text : Text) :
    hfsText (c :: text) = if isIgnorable c then hfsText text else c :: hfsText text := by
  have hkeep : (decide ¬ isNonCharacter c = true) = true := by rw [hpicked]; rfl
  have htake : (c :: text).takeWhile (fun c => ¬ isNonCharacter c) =
      c :: text.takeWhile (fun c => ¬ isNonCharacter c) := takeWhile_cons_of_pos hkeep
  rw [hfsText, htake, stripIgnorableCodepoints, filter_cons]
  by_cases hignorable : isIgnorable c = true
  · rw [if_neg (by rw [decide_eq_true_iff]; exact not_not_intro hignorable), if_pos hignorable]
    rfl
  · rw [if_pos (by rw [decide_eq_true_iff]; exact hignorable), if_neg hignorable]
    rfl

theorem hfsText_dropWhile (text : Text) : hfsText (text.dropWhile isIgnorable) = hfsText text := by
  induction text with
  | nil => rfl
  | cons c text ih =>
    by_cases hignorable : isIgnorable c = true
    · rw [dropWhile_cons_of_pos hignorable, ih, hfsText_cons (isIgnorable_spec hignorable).2,
        if_pos hignorable]
    · rw [dropWhile_cons_of_neg hignorable]

theorem foldAsciiCodePoint_lead {want : Char} (hwant : want.toNat ≤ 0x7f) {lead : UInt8}
    (hlow : c.toNat ≤ 0x7f → lead.toNat = c.toNat) (hhigh : 0x7f < c.toNat → 0x7f < lead.toNat) :
    foldAsciiCodePoint lead.toNat = want.toNat ↔ FoldsTo c want := by
  by_cases hascii : c.toNat ≤ 0x7f
  · rw [hlow hascii]
    exact Iff.rfl
  · have hlead := hhigh (by omega)
    refine ⟨fun h => ?_, fun h => absurd (h.ascii hwant) hascii⟩
    unfold foldAsciiCodePoint at h
    split at h <;> omega

theorem exists_lead (front : Bytes) (c : Char) (text : Text) :
    ∃ lead, (front ++ encode (c :: text))[front.length]? = some lead ∧
      (c.toNat ≤ 0x7f → lead.toNat = c.toNat) ∧ (0x7f < c.toNat → 0x7f < lead.toNat) := by
  obtain ⟨lead, rest, hbytes, hlow, hhigh⟩ := lead_utf8EncodeChar c
  refine ⟨lead, ?_, fun h => (hlow h).1, hhigh⟩
  rw [getElem?_boundary_zero, encode_cons, hbytes]
  rfl

theorem hfsText_nonCharacter (hpicked : isNonCharacter c = true) (text : Text) :
    hfsText (c :: text) = [] := by
  have hcut : ¬ (decide ¬ isNonCharacter c = true) = true := by
    rw [decide_eq_true_iff]
    exact not_not_intro hpicked
  have htake : (c :: text).takeWhile (fun c => ¬ isNonCharacter c) = [] :=
    takeWhile_cons_of_neg hcut
  rw [hfsText, htake]
  rfl

variable {text : Text}

theorem not_isIgnorable_of_start
    (hstart : (c :: text).dropWhile isIgnorable = c :: text) : ¬ isIgnorable c = true := by
  intro hignorable
  rw [dropWhile_cons_of_pos hignorable] at hstart
  have hlength := congrArg length hstart
  have hle := (dropWhile_sublist isIgnorable (l := text)).length_le
  rw [length_cons] at hlength
  omega

theorem endsHfsName_encode (front : Bytes) (hslash : '/' ∉ text)
    (hstart : text.dropWhile isIgnorable = text) :
    endsHfsName (front ++ encode text) front.length = true ↔ hfsText text = [] := by
  unfold endsHfsName
  rw [decide_eq_true_iff]
  cases text with
  | nil =>
    refine ⟨fun _ => rfl, fun _ => Or.inr ?_⟩
    exact gitPickerSequenceLength_boundary front []
  | cons c text =>
    have hnot := not_isIgnorable_of_start hstart
    obtain ⟨lead, hlead, hlow, hhigh⟩ := exists_lead front c text
    obtain ⟨first, rest, hbytes, -, -⟩ := lead_utf8EncodeChar c
    rw [hlead, encode_cons, gitPickerSequenceLength_boundary, gitPickerSequenceLength_char]
    have hne : c ≠ '/' := fun heq => hslash (heq ▸ mem_cons_self)
    have hslashByte : some lead ≠ some 0x2f := by
      intro heq
      have hcode : lead.toNat = 0x2f := congrArg UInt8.toNat (Option.some_inj.mp heq)
      by_cases hascii : c.toNat ≤ 0x7f
      · exact hne (Char.toNat_inj.mp ((hlow hascii).symm.trans hcode))
      · have := hhigh (by omega)
        omega
    by_cases hpicked : isNonCharacter c = true
    · rw [if_pos hpicked]
      refine ⟨fun _ => ?_, fun _ => Or.inr rfl⟩
      exact hfsText_nonCharacter hpicked text
    · rw [if_neg hpicked, hfsText_cons (Bool.eq_false_iff.mpr hpicked), if_neg hnot, hbytes]
      refine ⟨fun h => ?_, fun h => absurd h (cons_ne_nil _ _)⟩
      rcases h with h | h
      · exact absurd h hslashByte
      · exact absurd h (Nat.succ_ne_zero _)

theorem skipIgnorableSequences_next (front : Bytes) (hascii : c.toNat ≤ 0x7f)
    (text : Text) : ∃ behind, front ++ encode (c :: text) =
        behind ++ encode (text.dropWhile isIgnorable) ∧
      skipIgnorableSequences (front ++ encode (c :: text)) (front.length + 1) = behind.length := by
  have hsplit : encode text =
      encode (text.takeWhile isIgnorable) ++ encode (text.dropWhile isIgnorable) := by
    rw [← encode_append_text, takeWhile_append_dropWhile]
  have hcons : front ++ encode (c :: text) = (front ++ [UInt8.ofNat c.toNat]) ++ encode text := by
    rw [encode_cons, utf8EncodeChar_ascii hascii, append_assoc]
  have hnext : front.length + 1 = (front ++ [UInt8.ofNat c.toNat]).length := by
    rw [length_append, length_singleton]
  refine ⟨(front ++ [UInt8.ofNat c.toNat]) ++ encode (text.takeWhile isIgnorable), ?_, ?_⟩
  · rw [hcons, append_assoc _ (encode _), ← hsplit]
  · rw [hcons, hnext]
    exact skipIgnorableSequences_encode _ text

theorem dropWhile_dropWhile (text : Text) :
    (text.dropWhile isIgnorable).dropWhile isIgnorable = text.dropWhile isIgnorable := by
  induction text with
  | nil => rfl
  | cons c text ih =>
    by_cases hignorable : isIgnorable c = true
    · rw [dropWhile_cons_of_pos hignorable, ih]
    · rw [dropWhile_cons_of_neg hignorable, dropWhile_cons_of_neg hignorable]

theorem not_isIgnorable_of_ascii (hascii : c.toNat ≤ 0x7f) : isIgnorable c = false :=
  decide_eq_false (by omega)

theorem not_isNonCharacter_of_ascii (hascii : c.toNat ≤ 0x7f) :
    isNonCharacter c = false := decide_eq_false (by omega)

/-- **The bytes of a name fold under HFS+ as its text does.** -/
theorem foldsToHfsFrom_encode (needle : Text) (hfolded : ∀ w ∈ needle, IsFolded w)
    (front : Bytes) (hslash : '/' ∉ text)
    (hstart : text.dropWhile isIgnorable = text) :
    foldsToHfsFrom (front ++ encode text) front.length needle = true ↔
      List.Forall₂ FoldsTo (hfsText text) needle := by
  induction needle generalizing front text with
  | nil =>
    rw [foldsToHfsFrom, endsHfsName_encode front hslash hstart, forall₂_nil_right_iff]
  | cons want needle ih =>
    have hwant := hfolded want mem_cons_self
    have hpos := hwant.pos
    rw [foldsToHfsFrom, decide_eq_true_iff]
    cases text with
    | nil =>
      have hnone : (front ++ encode [])[front.length]? = none := getElem?_boundary_zero front []
      rw [hnone]
      refine ⟨fun h => ?_, fun h => (by cases h)⟩
      have hzero : 0 = want.toNat := h.1
      omega
    | cons c text =>
      obtain ⟨lead, hlead, hlow, hhigh⟩ := exists_lead front c text
      rw [hlead, Option.getD_some, foldAsciiCodePoint_lead hwant.ascii hlow hhigh]
      by_cases hfold : FoldsTo c want
      · have hascii := hfold.ascii hwant.ascii
        obtain ⟨behind, hname, hskip⟩ := skipIgnorableSequences_next front hascii text
        have hslash' : '/' ∉ text.dropWhile isIgnorable := fun hmem =>
          hslash (mem_cons_of_mem _ ((dropWhile_sublist _).mem hmem))
        rw [hskip, hname, ih (forall_mem_cons.mp hfolded).2 behind hslash'
            (dropWhile_dropWhile text),
          hfsText_dropWhile, hfsText_cons (not_isNonCharacter_of_ascii hascii),
          not_isIgnorable_of_ascii hascii, if_neg Bool.false_ne_true, forall₂_cons]
      · refine ⟨fun h => absurd h.1 hfold, fun h => ?_⟩
        by_cases hpicked : isNonCharacter c = true
        · rw [hfsText_nonCharacter hpicked] at h
          cases h
        · rw [hfsText_cons (Bool.eq_false_iff.mpr hpicked),
            if_neg (not_isIgnorable_of_start hstart), forall₂_cons] at h
          exact absurd h.1 hfold

theorem foldsToHfsAlias_encode (hslash : '/' ∉ text) :
    foldsToHfsAlias (encode text) 0 (encode text).length .git = true ↔
      toLowerCase (hfsText text) = dotgit := by
  have hspan : subarray (encode text) 0 (encode text).length = encode text :=
    take_length
  have hskip : skipIgnorableSequences (encode text) 0 =
      (encode (text.takeWhile isIgnorable)).length := skipIgnorableSequences_encode [] text
  have hsplit : encode text =
      encode (text.takeWhile isIgnorable) ++ encode (text.dropWhile isIgnorable) := by
    rw [← encode_append_text, takeWhile_append_dropWhile]
  have hslash' : '/' ∉ text.dropWhile isIgnorable := fun hmem =>
    hslash ((dropWhile_sublist _).mem hmem)
  have hfrom := foldsToHfsFrom_encode dotgit isFolded_dotgit
    (encode (text.takeWhile isIgnorable)) hslash' (dropWhile_dropWhile text)
  rw [← hsplit, hfsText_dropWhile] at hfrom
  rw [toLowerCase_eq_iff isFolded_dotgit, ← hfrom, foldsToHfsAlias, hspan, hskip]
  rfl

theorem pickerPrefixFrom_encode (text : Text) {room : ℕ} (front : Bytes)
    (hroom : text.length < room) :
    pickerPrefixFrom (front ++ encode text) room front.length =
      (front ++ encode (text.takeWhile fun c => ¬ isNonCharacter c)).length := by
  induction text generalizing room front with
  | nil =>
    obtain ⟨room, rfl⟩ : ∃ turns, room = turns + 1 := ⟨room - 1, by omega⟩
    have hlength : (front ++ encode []).length = front.length :=
      congrArg length (append_nil front)
    rw [pickerPrefixFrom, if_neg (by omega)]
    rfl
  | cons c text ih =>
    obtain ⟨room, rfl⟩ : ∃ turns, room = turns + 1 := ⟨room - 1, by omega⟩
    rw [length_cons] at hroom
    obtain ⟨lead, rest, hbytes, -, -⟩ := lead_utf8EncodeChar c
    have hpos : (String.utf8EncodeChar c).length ≠ 0 := by
      rw [hbytes]
      exact Nat.succ_ne_zero _
    have hinside : front.length < (front ++ encode (c :: text)).length := by
      rw [encode_cons, length_append, length_append]
      omega
    rw [pickerPrefixFrom, if_pos hinside, encode_cons, gitPickerSequenceLength_boundary,
      gitPickerSequenceLength_char]
    by_cases hpicked : isNonCharacter c = true
    · have hcut : ¬ (decide ¬ isNonCharacter c = true) = true := by
        rw [decide_eq_true_iff]
        exact not_not_intro hpicked
      have htake : (c :: text).takeWhile (fun c => ¬ isNonCharacter c) = [] :=
        takeWhile_cons_of_neg hcut
      rw [if_pos hpicked, htake]
      exact congrArg length (append_nil front).symm
    · have hkeep : (decide ¬ isNonCharacter c = true) = true := by
        rw [decide_eq_true_iff]
        exact hpicked
      have htake : (c :: text).takeWhile (fun c => ¬ isNonCharacter c) =
          c :: text.takeWhile (fun c => ¬ isNonCharacter c) := takeWhile_cons_of_pos hkeep
      have hnext : front.length + (String.utf8EncodeChar c).length =
          (front ++ String.utf8EncodeChar c).length := length_append.symm
      rw [if_neg hpicked, htake, encode_cons, ← append_assoc, ← append_assoc]
      dsimp only
      rw [if_neg hpos, hnext]
      exact ih (front ++ String.utf8EncodeChar c) (by omega)

/-- The HFS+ name of a name that is UTF-8. -/
theorem hfsName_encode (text : Text) : hfsName (encode text) = toLowerCase (hfsText text) := by
  have hstop : gitPickerValidPrefix (encode text) =
      (encode (text.takeWhile fun c => ¬ isNonCharacter c)).length := by
    have hroom := length_le_encode text
    exact pickerPrefixFrom_encode text [] (by omega)
  have hsplit : encode text = encode (text.takeWhile fun c => ¬ isNonCharacter c) ++
      encode (text.dropWhile fun c => ¬ isNonCharacter c) := by
    rw [← encode_append_text, takeWhile_append_dropWhile]
  have htaken : subarray (encode text) 0 (gitPickerValidPrefix (encode text)) =
      encode (text.takeWhile fun c => ¬ isNonCharacter c) := by
    rw [hstop]
    exact (congrArg (take _) hsplit).trans take_left
  rw [hfsName, htaken, decodePreservingBom_encode]
  rfl

/-! ### The check of NTFS -/

def IsDotSpace (c : Char) : Prop := c = '.' ∨ c = ' '

/-- What may follow the name: dots and spaces, up to the end of a segment or a stream. -/
def EndsNtfsName (text : Text) : Prop :=
  ∀ c ∈ text.takeWhile (fun c => c ≠ '\\' ∧ c ≠ ':'), IsDotSpace c

theorem isNtfsTailFrom_encode (hslash : '/' ∉ text) :
    isNtfsTailFrom true (encode text) = true ↔ EndsNtfsName text := by
  induction text with
  | nil => exact ⟨fun _ c hmem => absurd hmem not_mem_nil, fun _ => rfl⟩
  | cons c text ih =>
    obtain ⟨lead, rest, hbytes, hlow, hhigh⟩ := lead_utf8EncodeChar c
    have hne : c ≠ '/' := fun heq => hslash (heq ▸ mem_cons_self)
    have ih' := ih fun hmem => hslash (mem_cons_of_mem _ hmem)
    have hcode : ∀ (byte : UInt8) (other : Char), byte.toNat = other.toNat →
        other.toNat ≤ 0x7f → (lead = byte ↔ c = other) := by
      intro byte other hbyte hother
      rw [← UInt8.toNat_inj, ← Char.toNat_inj, hbyte]
      by_cases hascii : c.toNat ≤ 0x7f
      · rw [(hlow hascii).1]
      · have := hhigh (by omega)
        exact ⟨fun h => by omega, fun h => by omega⟩
    have hcolon := hcode 0x3a ':' rfl (by decide)
    have hslashByte := hcode 0x2f '/' rfl (by decide)
    have hbackslash := hcode 0x5c '\\' rfl (by decide)
    have hdot := hcode 0x2e '.' rfl (by decide)
    have hspace := hcode 0x20 ' ' rfl (by decide)
    unfold EndsNtfsName at ih' ⊢
    rw [encode_cons, hbytes, cons_append, isNtfsTailFrom]
    by_cases hends : c ≠ '\\' ∧ c ≠ ':'
    · have htake : (c :: text).takeWhile (fun c => c ≠ '\\' ∧ c ≠ ':') =
          c :: text.takeWhile (fun c => c ≠ '\\' ∧ c ≠ ':') :=
        takeWhile_cons_of_pos (decide_eq_true hends)
      rw [htake, forall_mem_cons, if_neg (fun h => hends.2 (hcolon.mp h)),
        if_neg fun h => h.2.elim (fun h => hne (hslashByte.mp h)) fun h =>
          hends.1 (hbackslash.mp h)]
      by_cases hdotSpace : IsDotSpace c
      · have hascii : c.toNat ≤ 0x7f := by
          rcases hdotSpace with rfl | rfl <;> decide
        have hrest : rest = [] := (hlow hascii).2
        have hgo : ¬ (lead ≠ 0x2e ∧ lead ≠ 0x20) := by
          rw [Ne, Ne, hdot, hspace, ← not_or]
          exact not_not_intro hdotSpace
        rw [if_neg hgo, hrest, nil_append, ih']
        exact ⟨fun h => ⟨hdotSpace, h⟩, fun h => h.2⟩
      · have hstop : lead ≠ 0x2e ∧ lead ≠ 0x20 := by
          rw [Ne, Ne, hdot, hspace, ← not_or]
          exact hdotSpace
        rw [if_pos hstop]
        exact ⟨fun h => (by cases h), fun h => absurd h.1 hdotSpace⟩
    · have htake : (c :: text).takeWhile (fun c => c ≠ '\\' ∧ c ≠ ':') = [] :=
        takeWhile_cons_of_neg (by rw [decide_eq_true_iff]; exact hends)
      rw [htake]
      refine ⟨fun _ c hmem => absurd hmem not_mem_nil, fun _ => ?_⟩
      by_cases hstream : lead = 0x3a
      · rw [if_pos hstream]
      · have hsep : lead = 0x5c := by
          refine hbackslash.mpr ?_
          by_contra hother
          exact hends ⟨hother, fun h => hstream (hcolon.mpr h)⟩
        rw [if_neg hstream, if_pos ⟨rfl, Or.inr hsep⟩]

def Begins (text literal rest : Text) : Prop :=
  ∃ front, text = front ++ rest ∧ List.Forall₂ FoldsTo front literal

theorem matchesAsciiCaseInsensitive_encode (literal : Text) (hfolded : ∀ w ∈ literal, IsFolded w)
    (front : Bytes) (text : Text) :
    matchesAsciiCaseInsensitive (front ++ encode text) front.length literal = true ↔
      ∃ rest, Begins text literal rest := by
  induction literal generalizing front text with
  | nil => exact ⟨fun _ => ⟨text, [], rfl, .nil⟩, fun _ => rfl⟩
  | cons want literal ih =>
    have hwant := hfolded want mem_cons_self
    rw [matchesAsciiCaseInsensitive, decide_eq_true_iff]
    cases text with
    | nil =>
      have hnone : (front ++ encode [])[front.length]? = none := getElem?_boundary_zero front []
      rw [hnone]
      refine ⟨fun h => absurd h.1 Bool.false_ne_true, fun ⟨rest, first, hnil, hfolds⟩ => ?_⟩
      cases hfolds with
      | cons h hrest => cases hnil
    | cons c text =>
      obtain ⟨lead, hlead, hlow, hhigh⟩ := exists_lead front c text
      have hfirst : (some lead).any (fun b => foldAsciiCodePoint b.toNat = want.toNat) = true ↔
          FoldsTo c want := decide_eq_true_iff.trans (foldAsciiCodePoint_lead hwant.ascii hlow hhigh)
      rw [hlead, hfirst]
      refine ⟨fun ⟨hfold, hrest⟩ => ?_, fun ⟨rest, first, heq, hfolds⟩ => ?_⟩
      · have hascii := hfold.ascii hwant.ascii
        rw [encode_cons, utf8EncodeChar_ascii hascii, ← append_assoc] at hrest
        have hnext : front.length + 1 = (front ++ [UInt8.ofNat c.toNat]).length := by
          rw [length_append, length_singleton]
        rw [hnext, ih (forall_mem_cons.mp hfolded).2] at hrest
        obtain ⟨rest, first, rfl, hfolds⟩ := hrest
        exact ⟨rest, c :: first, rfl, .cons hfold hfolds⟩
      · cases hfolds with
        | cons hfold hfolds =>
          obtain ⟨rfl, rfl⟩ := cons.inj heq
          have hascii := hfold.ascii hwant.ascii
          refine ⟨hfold, ?_⟩
          rw [encode_cons, utf8EncodeChar_ascii hascii, ← append_assoc]
          have hnext : front.length + 1 = (front ++ [UInt8.ofNat c.toNat]).length := by
            rw [length_append, length_singleton]
          rw [hnext, ih (forall_mem_cons.mp hfolded).2]
          exact ⟨rest, _, rfl, hfolds⟩

theorem encode_of_folds {front literal : Text} (hfolded : ∀ w ∈ literal, IsFolded w)
    (h : List.Forall₂ FoldsTo front literal) : (encode front).length = literal.length := by
  induction h with
  | nil => rfl
  | @cons c want front literal hfold hrest ih =>
    have hascii := hfold.ascii (hfolded want mem_cons_self).ascii
    have ih' := ih (forall_mem_cons.mp hfolded).2
    rw [encode_cons, utf8EncodeChar_ascii hascii, singleton_append, length_cons, ih', length_cons]

theorem matchesName_encode (literal : Text) (hfolded : ∀ w ∈ literal, IsFolded w)
    (front : Bytes) (hslash : '/' ∉ text) :
    ((front ++ encode text).length - front.length ≥ literal.length ∧
        matchesAsciiCaseInsensitive (front ++ encode text) front.length literal = true ∧
        isNtfsTail (front ++ encode text) (front.length + literal.length)
          (front ++ encode text).length .git = true) ↔
      ∃ rest, Begins text literal rest ∧ EndsNtfsName rest := by
  rw [matchesAsciiCaseInsensitive_encode literal hfolded]
  have htail : ∀ rest, Begins text literal rest →
      (isNtfsTail (front ++ encode text) (front.length + literal.length)
        (front ++ encode text).length .git = true ↔ EndsNtfsName rest) := by
    rintro rest ⟨first, rfl, hfolds⟩
    have hlength := encode_of_folds hfolded hfolds
    have hspan : subarray (front ++ encode (first ++ rest)) (front.length + literal.length)
        (front ++ encode (first ++ rest)).length = encode rest := by
      have hdrop : (front ++ encode (first ++ rest)).drop (front.length + literal.length) =
          encode rest := by
        rw [encode_append_text, ← append_assoc, ← hlength, ← length_append, drop_left]
      unfold subarray
      rw [hdrop]
      refine take_of_length_le ?_
      rw [encode_append_text, length_append, length_append]
      omega
    rw [isNtfsTail, hspan]
    exact isNtfsTailFrom_encode fun hmem => hslash (mem_append_right _ hmem)
  refine ⟨fun ⟨_, ⟨rest, hbegins⟩, hends⟩ => ⟨rest, hbegins, (htail rest hbegins).mp hends⟩,
    fun ⟨rest, hbegins, hends⟩ => ⟨?_, ⟨rest, hbegins⟩, (htail rest hbegins).mpr hends⟩⟩
  obtain ⟨first, rfl, hfolds⟩ := hbegins
  have hlength := encode_of_folds hfolded hfolds
  rw [encode_append_text, length_append, length_append]
  omega

/-- A literal that neither NTFS nor the separators take anything from. -/
structure IsSolid (literal : Text) : Prop where
  folded : ∀ w ∈ literal, IsFolded w
  plain : ∀ w ∈ literal, w ≠ '\\' ∧ w ≠ ':'
  last : ∀ w, literal.getLast? = some w → ¬ IsDotSpace w

theorem isSolid_dotgit : IsSolid dotgit where
  folded := isFolded_dotgit
  plain := by
    rw [dotgit]
    simp only [forall_mem_cons]
    exact ⟨by decide, by decide, by decide, by decide, forall_mem_nil _⟩
  last := by
    intro w hw
    obtain rfl : 't' = w := Option.some_inj.mp hw
    unfold IsDotSpace
    decide

theorem isSolid_ntfsShortName : IsSolid ntfsShortName where
  folded := isFolded_ntfsShortName
  plain := by
    rw [ntfsShortName]
    simp only [forall_mem_cons]
    exact ⟨by decide, by decide, by decide, by decide, by decide,
      forall_mem_nil _⟩
  last := by
    intro w hw
    obtain rfl : '1' = w := Option.some_inj.mp hw
    unfold IsDotSpace
    decide

theorem FoldsTo.symbol {want : Char} (h : FoldsTo c want) {symbol : Char}
    (hsymbol : ¬ (0x41 ≤ symbol.toNat ∧ symbol.toNat ≤ 0x5a)) (hne : want ≠ symbol) :
    c ≠ symbol := by
  rintro rfl
  unfold FoldsTo foldAsciiCodePoint at h
  rw [if_neg hsymbol] at h
  exact hne (Char.toNat_inj.mp h.symm)

theorem exists_folds_of_mem {front literal : Text} (h : List.Forall₂ FoldsTo front literal) (hmem : c ∈ front) : ∃ want ∈ literal, FoldsTo c want := by
  induction h with
  | nil => cases hmem
  | cons hfold hrest ih =>
    rcases mem_cons.mp hmem with rfl | hmem
    · exact ⟨_, mem_cons_self, hfold⟩
    · obtain ⟨want, hwant, hfold'⟩ := ih hmem
      exact ⟨want, mem_cons_of_mem _ hwant, hfold'⟩

theorem takeWhile_of_folds {front literal : Text} (hsolid : IsSolid literal)
    (h : List.Forall₂ FoldsTo front literal) (rest : Text) :
    (front ++ rest).takeWhile (fun c => c ≠ '\\' ∧ c ≠ ':') =
      front ++ rest.takeWhile (fun c => c ≠ '\\' ∧ c ≠ ':') := by
  refine takeWhile_append_of_pos fun c hmem => decide_eq_true ?_
  obtain ⟨want, hwant, hfold⟩ := exists_folds_of_mem h hmem
  have hplain := hsolid.plain want hwant
  exact ⟨hfold.symbol (by decide) hplain.1, hfold.symbol (by decide) hplain.2⟩

theorem trimDotSpace_append {front rest : Text} (hrest : ∀ c ∈ rest, IsDotSpace c)
    (hfront : ∀ c, front.getLast? = some c → ¬ IsDotSpace c) :
    trimDotSpace (front ++ rest) = front := by
  have hback : ∀ c ∈ rest.reverse, (decide (c = '.' ∨ c = ' ')) = true := fun c hmem =>
    decide_eq_true (hrest c (mem_reverse.mp hmem))
  rw [trimDotSpace, reverse_append, dropWhile_append_of_pos hback]
  cases hreverse : front.reverse with
  | nil => exact (reverse_eq_nil_iff.mp hreverse).symm
  | cons c behind =>
    have hlast : front.getLast? = some c := by
      rw [← head?_reverse, hreverse]
      rfl
    have hstop : (c :: behind).dropWhile (fun c => c = '.' ∨ c = ' ') = c :: behind :=
      dropWhile_cons_of_neg (by rw [decide_eq_true_iff]; exact hfront c hlast)
    rw [hstop, ← hreverse, reverse_reverse]

theorem trimDotSpace_spec (part : Text) :
    ∃ rest, part = trimDotSpace part ++ rest ∧ ∀ c ∈ rest, IsDotSpace c := by
  refine ⟨(part.reverse.takeWhile fun c => c = '.' ∨ c = ' ').reverse, ?_, fun c hmem => ?_⟩
  · rw [trimDotSpace, ← reverse_append, takeWhile_append_dropWhile, reverse_reverse]
  · have hin := mem_takeWhile_imp (mem_reverse.mp hmem)
    rw [decide_eq_true_iff] at hin
    exact hin

theorem last_of_folds {front literal : Text} (hsolid : IsSolid literal)
    (h : List.Forall₂ FoldsTo front literal) (hlast : front.getLast? = some c) :
    ¬ IsDotSpace c := by
  have hreverse := forall₂_reverse_iff.mpr h
  rw [← head?_reverse] at hlast
  obtain ⟨behind, hfront⟩ := head?_eq_some_iff.mp hlast
  rw [hfront] at hreverse
  obtain ⟨want, others, hfold, -, hliteral⟩ := forall₂_cons_left_iff.mp hreverse
  have hwant : literal.getLast? = some want := by
    rw [← head?_reverse, hliteral]
    rfl
  have hmem : want ∈ literal := mem_of_getLast? hwant
  have hnot := hsolid.last want hwant
  rintro (hdot | hspace)
  · exact hfold.symbol (by decide) (fun heq => hnot (Or.inl heq)) hdot
  · exact hfold.symbol (by decide) (fun heq => hnot (Or.inr heq)) hspace

/-- **The first segment of a text is a name under NTFS** exactly if only dots and spaces follow it
there. -/
theorem ntfsName_eq_iff {literal : Text} (hsolid : IsSolid literal) (text : Text) :
    ntfsName (text.takeWhile (· ≠ '\\')) = literal ↔
      ∃ rest, Begins text literal rest ∧ EndsNtfsName rest := by
  have hcandidate : (text.takeWhile (· ≠ '\\')).takeWhile (· ≠ ':') =
      text.takeWhile (fun c => c ≠ '\\' ∧ c ≠ ':') := by
    rw [takeWhile_takeWhile]
    exact congrArg (fun p => text.takeWhile p)
      (funext fun c => decide_eq_decide.mpr (by rw [decide_eq_true_iff, decide_eq_true_iff, and_comm]))
  rw [ntfsName, normalizeAliasCandidate, toLowerCase_eq_iff hsolid.folded, hcandidate]
  refine ⟨fun h => ?_, fun ⟨rest, ⟨front, htext, hfolds⟩, hends⟩ => ?_⟩
  · obtain ⟨tail, htrim, htail⟩ :=
      trimDotSpace_spec (text.takeWhile fun c => c ≠ '\\' ∧ c ≠ ':')
    obtain ⟨front, hfront⟩ : ∃ front,
      front = trimDotSpace (text.takeWhile fun c => c ≠ '\\' ∧ c ≠ ':') := ⟨_, rfl⟩
    rw [← hfront] at h htrim
    have htext : text = front ++ (tail ++ text.dropWhile fun c => c ≠ '\\' ∧ c ≠ ':') := by
      rw [← append_assoc, ← htrim, takeWhile_append_dropWhile]
    refine ⟨tail ++ text.dropWhile fun c => c ≠ '\\' ∧ c ≠ ':', ⟨front, htext, h⟩, ?_⟩
    have hcut := takeWhile_of_folds hsolid h
      (tail ++ text.dropWhile fun c => c ≠ '\\' ∧ c ≠ ':')
    rw [← htext, htrim] at hcut
    unfold EndsNtfsName
    rw [← append_cancel_left hcut]
    exact htail
  · rw [htext, takeWhile_of_folds hsolid hfolds,
      trimDotSpace_append hends fun c hlast => last_of_folds hsolid hfolds hlast]
    exact hfolds

theorem isNtfsDotgit_iff (text : Text) : IsNtfsDotgit (text.takeWhile (· ≠ '\\')) ↔
    (∃ rest, Begins text dotgit rest ∧ EndsNtfsName rest) ∨
      ∃ rest, Begins text ntfsShortName rest ∧ EndsNtfsName rest :=
  or_congr (ntfsName_eq_iff isSolid_dotgit text) (ntfsName_eq_iff isSolid_ntfsShortName text)

/-- **The bytes of a name are checked for NTFS as its text is.** -/
theorem matchesNtfsDotgitAlias_encode (front : Bytes) (hslash : '/' ∉ text) :
    matchesNtfsDotgitAlias (front ++ encode text) front.length (front ++ encode text).length .git =
        true ↔ IsNtfsDotgit (text.takeWhile (· ≠ '\\')) := by
  rw [isNtfsDotgit_iff, ← matchesName_encode dotgit isFolded_dotgit front hslash,
    ← matchesName_encode ntfsShortName isFolded_ntfsShortName front hslash]
  rw [matchesNtfsDotgitAlias, decide_eq_true_iff]
  refine or_congr Iff.rfl ?_
  exact decide_eq_true_iff

/-! ### Segments -/

theorem splitOn_spec (separator : Char) (text : Text) : ∃ parts,
    text.splitOn separator = text.takeWhile (· ≠ separator) :: parts ∧ ∀ part, part ∈ parts ↔
        ∃ front rest, text = front ++ separator :: rest ∧ part = rest.takeWhile (· ≠ separator) := by
  induction text with
  | nil =>
    refine ⟨[], splitOn_nil separator, fun part => ?_⟩
    refine ⟨fun hmem => absurd hmem not_mem_nil, fun ⟨front, rest, heq, _⟩ => ?_⟩
    exact absurd heq.symm (append_ne_nil_of_right_ne_nil front (cons_ne_nil _ _))
  | cons c text ih =>
    obtain ⟨parts, hparts, hspec⟩ := ih
    rw [splitOn_cons_eq_if_modifyHead, hparts]
    by_cases hc : c = separator
    · refine ⟨text.takeWhile (· ≠ separator) :: parts, ?_, fun part => ?_⟩
      · rw [if_pos (beq_iff_eq.mpr hc),
          takeWhile_cons_of_neg (by rw [decide_eq_true_iff]; exact not_not_intro hc)]
      rw [mem_cons, hspec]
      refine ⟨fun h => ?_, fun ⟨front, rest, heq, hpart⟩ => ?_⟩
      · rcases h with rfl | ⟨front, rest, rfl, hpart⟩
        · exact ⟨[], text, congrArg (· :: text) hc, rfl⟩
        · exact ⟨c :: front, rest, rfl, hpart⟩
      cases front with
      | nil =>
        obtain ⟨-, rfl⟩ := cons.inj heq
        exact Or.inl hpart
      | cons first front =>
        obtain ⟨-, rfl⟩ := cons.inj heq
        exact Or.inr ⟨front, rest, rfl, hpart⟩
    · refine ⟨parts, ?_, fun part => ?_⟩
      · have htake : (c :: text).takeWhile (· ≠ separator) =
            c :: text.takeWhile (· ≠ separator) := takeWhile_cons_of_pos (decide_eq_true hc)
        rw [if_neg (fun h => hc (beq_iff_eq.mp h)), htake]
        rfl
      rw [hspec]
      refine ⟨fun ⟨front, rest, heq, hpart⟩ => ⟨c :: front, rest, congrArg (c :: ·) heq, hpart⟩,
        fun ⟨front, rest, heq, hpart⟩ => ?_⟩
      cases front with
      | nil => exact absurd (cons.inj heq).1 hc
      | cons first front => exact ⟨front, rest, (cons.inj heq).2, hpart⟩

theorem utf8EncodeChar_backslash : String.utf8EncodeChar '\\' = [0x5c] := by decide

theorem backslash_encode (text : Text) (i : ℕ) : (encode text)[i]? = some 0x5c ↔
    ∃ front rest, text = front ++ '\\' :: rest ∧ i = (encode front).length := by
  induction text generalizing i with
  | nil =>
    refine ⟨fun h => (by cases h), fun ⟨front, rest, heq, _⟩ => ?_⟩
    exact absurd heq.symm (append_ne_nil_of_right_ne_nil front (cons_ne_nil _ _))
  | cons c text ih =>
    rw [encode_cons]
    refine ⟨fun h => ?_, fun ⟨front, rest, heq, hi⟩ => ?_⟩
    · by_cases hlt : i < (String.utf8EncodeChar c).length
      · rw [getElem?_append_left hlt] at h
        have hcode := toNat_of_mem_utf8EncodeChar (mem_of_getElem? h) (by decide)
        obtain rfl : '\\' = c := Char.toNat_inj.mp hcode
        rw [utf8EncodeChar_backslash, length_singleton] at hlt
        exact ⟨[], text, rfl, by rw [Nat.lt_one_iff.mp hlt]; rfl⟩
      · rw [getElem?_append_right (by omega)] at h
        obtain ⟨front, rest, rfl, hi⟩ := (ih _).mp h
        refine ⟨c :: front, rest, rfl, ?_⟩
        rw [encode_cons, length_append]
        omega
    · cases front with
      | nil =>
        obtain ⟨rfl, rfl⟩ := cons.inj heq
        rw [hi, utf8EncodeChar_backslash]
        rfl
      | cons first front =>
        obtain ⟨rfl, rfl⟩ := cons.inj heq
        rw [encode_cons, length_append] at hi
        rw [getElem?_append_right (by omega), hi, Nat.add_sub_cancel_left]
        exact (ih _).mpr ⟨front, rest, rfl, rfl⟩

theorem segments_encode (hslash : '/' ∉ text) :
    (backslashSegmentStarts (encode text) 0 (encode text).length).any (fun start =>
        matchesNtfsDotgitAlias (encode text) start (encode text).length .git) = true ↔
      ∃ front rest, text = front ++ '\\' :: rest ∧ IsNtfsDotgit (rest.takeWhile (· ≠ '\\')) := by
  have hbehind : ∀ front rest, text = front ++ '\\' :: rest →
      (matchesNtfsDotgitAlias (encode text) ((encode front).length + 1) (encode text).length .git =
        true ↔ IsNtfsDotgit (rest.takeWhile (· ≠ '\\'))) := by
    rintro front rest rfl
    have hrest : '/' ∉ rest := fun hmem =>
      hslash (mem_append_right _ (mem_cons_of_mem _ hmem))
    have hmatch := matchesNtfsDotgitAlias_encode (encode front ++ [0x5c]) hrest
    have hlength : (encode front).length + 1 = (encode front ++ [0x5c]).length := by
      rw [length_append, length_singleton]
    have hbytes : encode (front ++ '\\' :: rest) = encode front ++ [0x5c] ++ encode rest := by
      rw [encode_append_text, encode_cons, utf8EncodeChar_backslash, append_assoc]
    rw [hbytes, hlength]
    exact hmatch
  rw [any_eq_true]
  refine ⟨fun ⟨start, hmem, hmatch⟩ => ?_, fun ⟨front, rest, htext, hpart⟩ => ?_⟩
  · obtain ⟨i, hi, hstart⟩ := mem_filterMap.mp hmem
    split at hstart
    · next hbyte =>
      obtain ⟨front, rest, htext, rfl⟩ := (backslash_encode text i).mp hbyte
      obtain rfl := Option.some_inj.mp hstart
      exact ⟨front, rest, htext, (hbehind front rest htext).mp hmatch⟩
    · cases hstart
  · have hbyte := (backslash_encode text (encode front).length).mpr ⟨front, rest, htext, rfl⟩
    obtain ⟨hlt, -⟩ := List.getElem?_eq_some_iff.mp hbyte
    refine ⟨(encode front).length + 1, mem_filterMap.mpr
      ⟨(encode front).length, mem_range'_1.mpr ⟨Nat.zero_le _, ?_⟩, if_pos hbyte⟩,
      (hbehind front rest htext).mpr hpart⟩
    omega

/-! ### The two checks -/

theorem matchNtfsPart_eq_none_iff (part : Text) :
    matchNtfsPart part = none ↔ ¬ IsNtfsDotgit part := by
  unfold IsNtfsDotgit ntfsName matchNtfsPart
  dsimp only
  split
  · next hdotgit => exact ⟨fun h => (by cases h), fun h => absurd (Or.inl hdotgit) h⟩
  · next hdotgit =>
    split
    · next hshort => exact ⟨fun h => (by cases h), fun h => absurd (Or.inr hshort) h⟩
    · next hshort => exact ⟨fun _ h => h.elim hdotgit hshort, fun _ => rfl⟩

theorem matchAliasFully_eq_none_iff (component : Text) (bytes : Option Bytes) :
    matchAliasFully component bytes = none ↔ (∀ part ∈ ntfsParts component, ¬ IsNtfsDotgit part) ∧
        hfsAlias component bytes dotgit = false := by
  have hparts : (ntfsParts component).findSome? matchNtfsPart = none ↔
      ∀ part ∈ ntfsParts component, ¬ IsNtfsDotgit part := by
    rw [findSome?_eq_none_iff]
    exact forall₂_congr fun part _ => matchNtfsPart_eq_none_iff part
  rw [← hparts, matchAliasFully]
  cases (ntfsParts component).findSome? matchNtfsPart with
  | some reason => exact ⟨fun h => (by cases h), fun h => (by cases h.1)⟩
  | none =>
    dsimp only
    cases hfsAlias component bytes dotgit with
    | false => exact ⟨fun _ => ⟨rfl, rfl⟩, fun _ => rfl⟩
    | true => exact ⟨fun h => (by cases h), fun h => (by cases h.2)⟩

variable {component : Text}

theorem ntfsParts_of_head (hhead : component.head? ≠ some '\\') :
    ntfsParts component = component.splitOn '\\' := if_neg hhead

theorem isNtfsDotgit_of_toLowerCase (h : toLowerCase component = dotgit) :
    ∃ part ∈ ntfsParts component, IsNtfsDotgit part := by
  have hfolds := (toLowerCase_eq_iff isFolded_dotgit).mp h
  have hhead : component.head? ≠ some '\\' := by
    intro hhead
    obtain ⟨behind, rfl⟩ := head?_eq_some_iff.mp hhead
    cases hfolds with
    | cons hfold hrest => exact absurd (hfold.eq (by decide)) (by decide)
  obtain ⟨parts, hparts, -⟩ := splitOn_spec '\\' component
  refine ⟨component.takeWhile (· ≠ '\\'), ?_, ?_⟩
  · rw [ntfsParts_of_head hhead, hparts]
    exact mem_cons_self
  · rw [isNtfsDotgit_iff]
    exact Or.inl ⟨[], ⟨component, (append_nil _).symm, hfolds⟩,
      fun c hmem => absurd hmem not_mem_nil⟩

theorem hfsAlias_eq_false_iff (bytes : Option Bytes)
    (hparts : ∀ part ∈ ntfsParts component, ¬ IsNtfsDotgit part) :
    hfsAlias component bytes dotgit = false ↔
      toLowerCase (stripIgnorableCodepoints (hfsCandidate component bytes)) ≠ dotgit := by
  unfold hfsAlias
  dsimp only
  split
  · next hplain =>
    refine ⟨fun _ h => ?_, fun _ => rfl⟩
    have hstrip : stripIgnorableCodepoints component = component := by
      refine filter_eq_self.mpr fun c hmem => decide_eq_true fun hignorable => hplain.2 ?_
      exact any_eq_true.mpr ⟨c, hmem, hignorable⟩
    rw [hplain.1, hstrip] at h
    obtain ⟨part, hpart, hdotgit⟩ := isNtfsDotgit_of_toLowerCase h
    exact hparts part hpart hdotgit
  · exact decide_eq_false_iff_not

theorem hfsName_getD (component : Text) (bytes : Option Bytes) :
    hfsName (bytes.getD (encode component)) =
      toLowerCase (stripIgnorableCodepoints (hfsCandidate component bytes)) := by
  cases bytes with
  | none => exact hfsName_encode component
  | some raw => rfl

/-- A component that the fast path accepts. -/
theorem isObviouslyNotAnAlias_spec (h : isObviouslyNotAnAlias component = true) :
    ∃ first rest, component = first :: rest ∧ ¬ (first = '.' ∨ first = 'G' ∨ first = 'g') ∧
      ∀ c ∈ component, c.toNat ≤ 0x7f ∧ c ≠ '\\' := by
  cases component with
  | nil => cases h
  | cons first rest =>
    unfold isObviouslyNotAnAlias at h
    dsimp only at h
    split at h
    · cases h
    · next hfirst =>
      refine ⟨first, rest, rfl, hfirst, fun c hmem => ?_⟩
      have hc := all_eq_true.mp h c hmem
      exact of_decide_eq_true hc

variable {bytes : Option Bytes}

theorem head_hfsCandidate {first : Char} {rest : Text}
    (hascii : ∀ c ∈ first :: rest, c.toNat ≤ 0x7f)
    (hbytes : ∀ raw, bytes = some raw → first :: rest = decodePreservingBom raw) :
    hfsCandidate (first :: rest) bytes = [] ∨
      ∃ behind, hfsCandidate (first :: rest) bytes = first :: behind := by
  cases bytes with
  | none =>
    have hkeep : (decide ¬ isNonCharacter first = true) = true := by
      rw [not_isNonCharacter_of_ascii (hascii first mem_cons_self)]
      rfl
    have htake : (first :: rest).takeWhile (fun c => ¬ isNonCharacter c) =
        first :: rest.takeWhile (fun c => ¬ isNonCharacter c) := takeWhile_cons_of_pos hkeep
    exact Or.inr ⟨_, htake⟩
  | some raw =>
    have hraw := hbytes raw rfl
    unfold hfsCandidate
    dsimp only
    cases raw with
    | nil => cases hraw
    | cons lead raw =>
      have hlead : lead.toNat ≤ 0x7f := lead_of_decodePreservingBom (hraw ▸ hascii)
      have hstart : startSequence lead.toNat = ([Char.ofNat lead.toNat], none) := if_pos hlead
      have hread : ∀ bytes : Bytes, decodePreservingBom (lead :: bytes) =
          Char.ofNat lead.toNat :: decodePreservingBom bytes := by
        intro bytes
        rw [decodePreservingBom, decodeFrom, hstart]
        rfl
      rw [hread] at hraw
      have hfirst := (cons.inj hraw).1
      unfold subarray
      rw [Nat.sub_zero, drop_zero]
      cases gitPickerValidPrefix (lead :: raw) with
      | zero => exact Or.inl rfl
      | succ stop => exact Or.inr ⟨_, by rw [take_succ_cons, hread, ← hfirst]⟩

/-- **The fast path accepts no component that the full check refuses.** -/
theorem matchAliasFully_of_obvious
    (hbytes : ∀ raw, bytes = some raw → component = decodePreservingBom raw)
    (h : isObviouslyNotAnAlias component = true) : matchAliasFully component bytes = none := by
  obtain ⟨first, rest, rfl, hfirst, hall⟩ := isObviouslyNotAnAlias_spec h
  have hdot : ¬ FoldsTo first '.' := fun hfold => hfirst (Or.inl (hfold.eq (by decide)))
  have hletter : ¬ FoldsTo first 'g' := by
    intro hfold
    unfold FoldsTo foldAsciiCodePoint at hfold
    have hcode : 'g'.toNat = 0x67 := rfl
    split at hfold
    · exact hfirst (Or.inr (Or.inl (Char.toNat_inj.mp (show first.toNat = 0x47 by omega))))
    · exact hfirst (Or.inr (Or.inr (Char.toNat_inj.mp hfold)))
  have hnot : '\\' ∉ first :: rest := fun hmem => (hall _ hmem).2 rfl
  have hparts : ∀ part ∈ ntfsParts (first :: rest), ¬ IsNtfsDotgit part := by
    have hhead : (first :: rest).head? ≠ some '\\' := fun heq =>
      (hall first mem_cons_self).2 (Option.some_inj.mp heq)
    have hwhole : (first :: rest).takeWhile (· ≠ '\\') = first :: rest :=
      takeWhile_eq_self_iff.mpr fun c hmem => decide_eq_true (hall c hmem).2
    rw [ntfsParts_of_head hhead, splitOn_eq_singleton hnot]
    intro part hmem
    rw [mem_singleton.mp hmem, ← hwhole, isNtfsDotgit_iff]
    rintro (⟨others, ⟨front, heq, hfolds⟩, -⟩ | ⟨others, ⟨front, heq, hfolds⟩, -⟩)
    · cases hfolds with
      | cons hfold hrest => exact hdot ((cons.inj heq).1 ▸ hfold)
    · cases hfolds with
      | cons hfold hrest => exact hletter ((cons.inj heq).1 ▸ hfold)
  refine (matchAliasFully_eq_none_iff _ _).mpr ⟨hparts, (hfsAlias_eq_false_iff bytes hparts).mpr ?_⟩
  rw [Ne, toLowerCase_eq_iff isFolded_dotgit]
  intro hfolds
  rcases head_hfsCandidate (fun c hmem => (hall c hmem).1) hbytes with hnil | ⟨behind, hcons⟩
  · rw [hnil] at hfolds
    cases hfolds
  have hkeep : (decide ¬ isIgnorable first = true) = true := by
    rw [not_isIgnorable_of_ascii (hall first mem_cons_self).1]
    rfl
  have hstrip : stripIgnorableCodepoints (first :: behind) =
      first :: stripIgnorableCodepoints behind := filter_cons_of_pos hkeep
  rw [hcons, hstrip] at hfolds
  cases hfolds with
  | cons hfold hrest => exact hdot hfold

theorem matchAliasComponent_eq {component : Text} {bytes : Option Bytes}
    (hbytes : ∀ raw, bytes = some raw → component = decodePreservingBom raw) :
    matchAliasComponent component bytes = matchAliasFully component bytes := by
  by_cases hobvious : isObviouslyNotAnAlias component = true
  · rw [matchAliasFully_of_obvious hbytes hobvious]
    exact if_pos hobvious
  · exact if_neg hobvious

theorem namesNoDotgit_of_accepted
    (hbytes : ∀ raw, bytes = some raw → component = decodePreservingBom raw)
    (h : matchAliasComponent component bytes = none) :
    NamesNoDotgit component (bytes.getD (encode component)) := by
  rw [matchAliasComponent_eq hbytes] at h
  obtain ⟨hparts, hhfs⟩ := (matchAliasFully_eq_none_iff _ _).mp h
  rw [hfsAlias_eq_false_iff bytes hparts, ← hfsName_getD] at hhfs
  refine ⟨hhfs, fun index part hpart hother => ?_⟩
  by_cases hhead : component.head? = some '\\'
  · have hdrop : ntfsParts component = (component.splitOn '\\').drop 2 := if_pos hhead
    match index with
    | 0 =>
      obtain ⟨behind, rfl⟩ := head?_eq_some_iff.mp hhead
      have hsplit : ('\\' :: behind).splitOn '\\' = [] :: behind.splitOn '\\' := by
        rw [splitOn_cons_eq_if_modifyHead, if_pos (beq_self_eq_true _)]
      rw [hsplit] at hpart
      obtain rfl := Option.some_inj.mp hpart
      rintro (hempty | hempty) <;> cases hempty
    | 1 => exact absurd ⟨hhead, rfl⟩ hother
    | index + 2 =>
      refine hparts part ?_
      rw [hdrop]
      refine mem_of_getElem? (i := index) ?_
      rw [getElem?_drop, Nat.add_comm]
      exact hpart
  · refine hparts part ?_
    rw [ntfsParts_of_head hhead]
    exact mem_of_getElem? hpart

theorem findRejectionFrom_accepts {bytes : Option (List Bytes)} {index : ℕ}
    {components : List Text} (h : findRejectionFrom bytes index components = none) {i : ℕ} (hi : components[i]? = some component) :
    matchAliasComponent component (bytes.bind fun parts => parts[index + i]?) = none := by
  induction components generalizing index i with
  | nil => cases hi
  | cons first components ih =>
    rw [findRejectionFrom] at h
    split at h
    · cases h
    · next hnone =>
      cases i with
      | zero =>
        obtain rfl := Option.some_inj.mp hi
        exact (Option.or_eq_none_iff.mp hnone).2
      | succ i =>
        have hnext := ih h hi
        rw [Nat.add_assoc, Nat.add_comm 1 i] at hnext
        exact hnext

theorem verifyPath_accepts {path : Text} {mode : FileMode} {pathBytes : Option Bytes}
    (h : verifyPath path mode pathBytes = none) : path.head? ≠ some '/' ∧
      findRejectionFrom (pathBytes.map (List.splitOn 0x2f)) 0 (path.splitOn '/') = none := by
  unfold verifyPath at h
  split at h
  · cases h
  · next hhead =>
    dsimp only at h
    split at h
    · cases h
    · next hnone => exact ⟨hhead, hnone⟩

theorem component_of_raw {path : Text} {raw : Bytes} (h : path = decodePreservingBom raw)
    {index : ℕ} (hcomponent : (path.splitOn '/')[index]? = some component) :
    ∃ bytes, (raw.splitOn 0x2f)[index]? = some bytes ∧ component = decodePreservingBom bytes := by
  have hsplit := @splitOn_decodePreservingBom 0x2f '/' rfl (by decide) raw
  rw [h, hsplit, getElem?_map, Option.map_eq_some_iff] at hcomponent
  obtain ⟨bytes, hbytes, hdecode⟩ := hcomponent
  exact ⟨bytes, hbytes, hdecode.symm⟩

theorem isDotGitAlias_iff (hslash : '/' ∉ component)
    (hhead : component.head? ≠ some '\\') :
    isDotGitAlias component = true ↔
      matchesDotgitAlias (encode component) 0 (encode component).length .git = true ∨
        (backslashSegmentStarts (encode component) 0 (encode component).length).any (fun start =>
          matchesNtfsDotgitAlias (encode component) start (encode component).length .git) =
            true := by
  have hwhole := matchesNtfsDotgitAlias_encode [] hslash
  rw [nil_append] at hwhole
  have hfull := @matchAliasComponent_eq component none fun _ hnone => by cases hnone
  rw [isDotGitAlias, hfull, Option.isSome_iff_ne_none, Ne, matchAliasFully_eq_none_iff,
    matchesDotgitAlias, decide_eq_true_iff, foldsToHfsAlias_encode hslash, segments_encode hslash]
  obtain ⟨parts, hparts, hspec⟩ := splitOn_spec '\\' component
  rw [ntfsParts_of_head hhead]
  refine ⟨fun h => ?_, fun h hnone => ?_⟩
  · by_contra hneither
    rw [not_or, not_or] at hneither
    obtain ⟨⟨hhfs, hntfs⟩, hsegments⟩ := hneither
    have hnoParts : ∀ part ∈ component.splitOn '\\', ¬ IsNtfsDotgit part := by
      rw [hparts]
      intro part hmem
      rcases mem_cons.mp hmem with rfl | hmem
      · exact fun hdotgit => hntfs (hwhole.mpr hdotgit)
      · obtain ⟨front, rest, htext, rfl⟩ := (hspec part).mp hmem
        exact fun hdotgit => hsegments ⟨front, rest, htext, hdotgit⟩
    refine h ⟨hnoParts, (hfsAlias_eq_false_iff none ?_).mpr hhfs⟩
    rw [ntfsParts_of_head hhead]
    exact hnoParts
  · obtain ⟨hnoParts, hhfs⟩ := hnone
    have hnoParts' : ∀ part ∈ ntfsParts component, ¬ IsNtfsDotgit part := by
      rw [ntfsParts_of_head hhead]
      exact hnoParts
    rcases h with (h | h) | ⟨front, rest, htext, h⟩
    · exact (hfsAlias_eq_false_iff none hnoParts').mp hhfs h
    · exact hnoParts _ (by rw [hparts]; exact mem_cons_self) (hwhole.mp h)
    · refine hnoParts _ ?_ h
      rw [hparts]
      exact mem_cons_of_mem _ ((hspec _).mpr ⟨front, rest, htext, rfl⟩)

/-- **No admitted path names `.git`**, by any component as HFS+ or NTFS read it; and a name is
refused in a path exactly if its bytes are refused in a tree. -/
theorem verifyPath_refuses_aliases :
    (∀ path mode pathBytes, (∀ raw, pathBytes = some raw → path = decodePreservingBom raw) →
      verifyPath path mode pathBytes = none →
        path.head? ≠ some '/' ∧ ∀ index component, (path.splitOn '/')[index]? = some component →
          component ≠ [] ∧ component ≠ ['.'] ∧ component ≠ ['.', '.'] ∧
            NamesNoDotgit component (rawComponent pathBytes index component)) ∧
    (∀ component bytes, (∀ raw, bytes = some raw → component = decodePreservingBom raw) →
      isObviouslyNotAnAlias component = true → matchAliasFully component bytes = none) ∧
    ∀ component, '/' ∉ component → component.head? ≠ some '\\' → (isDotGitAlias component = true ↔
        matchesDotgitAlias (encode component) 0 (encode component).length .git = true ∨
          (backslashSegmentStarts (encode component) 0 (encode component).length).any (fun start =>
            matchesNtfsDotgitAlias (encode component) start (encode component).length .git) =
              true) := by
  refine ⟨fun path mode pathBytes hraw h => ?_,
    fun component bytes hbytes => matchAliasFully_of_obvious hbytes,
    fun component hslash hhead => isDotGitAlias_iff hslash hhead⟩
  obtain ⟨habsolute, haccepted⟩ := verifyPath_accepts h
  refine ⟨habsolute, fun index component hcomponent => ?_⟩
  obtain ⟨hempty, hdot, hdotdot⟩ :=
    verifyPath_components h component (mem_of_getElem? hcomponent)
  refine ⟨hempty, hdot, hdotdot, ?_⟩
  have halias := findRejectionFrom_accepts haccepted hcomponent
  rw [Nat.zero_add, Option.bind_map] at halias
  refine namesNoDotgit_of_accepted (fun bytes hbytes => ?_) halias
  cases pathBytes with
  | none => cases hbytes
  | some raw =>
    obtain ⟨bytes', hbytes', hdecode⟩ := component_of_raw (hraw raw rfl) hcomponent
    have hsame : bytes' = bytes := Option.some_inj.mp (hbytes'.symm.trans hbytes)
    exact hsame ▸ hdecode

theorem verifyPath_refuses_aliases_gitx :
    verifyPath ['a', '/', '.', 'g', 'i', 't', 'x'] .regular none = none ∧
      NamesNoDotgit ['.', 'g', 'i', 't', 'x'] (rawComponent none 1 ['.', 'g', 'i', 't', 'x']) :=
  ⟨by decide +kernel, ((verifyPath_refuses_aliases.1 ['a', '/', '.', 'g', 'i', 't', 'x'] .regular none
    (fun _ hnone => by cases hnone) (by decide +kernel)).2 1 _ rfl).2.2.2⟩

example : isDotGitAlias ['a', '\\', '.', 'G', 'i', 't', ' ', '.', ':', 'x'] = true := by decide +kernel

end Tsgit.Path
