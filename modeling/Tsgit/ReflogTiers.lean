import Tsgit.ReflogBytes

/-!
# Reflogs in Text and in Bytes

The reader for strings and the one for bytes take different characters for space. Where a time is
set off by such a space the one reads what the other refuses.
-/

namespace Tsgit.Reflog

open List

/-! ### Texts as one character for each byte -/

section

variable {text back : Text} {c : Char}

def projection (text : Text) : Text := latin1Decode (encode text)

theorem projection_append (front back : Text) :
    projection (front ++ back) = projection front ++ projection back := by
  rw [projection, encode_append, latin1Decode_append]
  rfl

theorem projection_ascii (h : ∀ c ∈ text, c.toNat ≤ 0x7f) : projection text = text := by
  rw [projection, encode_ascii h]
  exact latin1Decode_encode fun c hc => (h c hc).trans_lt (by decide)

theorem projection_cons (hc : c.toNat ≤ 0x7f) (text : Text) :
    projection (c :: text) = c :: projection text := by
  have hsplit : c :: text = [c] ++ text := rfl
  rw [hsplit, projection_append, projection_ascii fun other hmem => mem_singleton.mp hmem ▸ hc]
  rfl

theorem lead_projection (c : Char) : ∃ lead rest, projection [c] = lead :: rest ∧
    (c.toNat ≤ 0x7f → lead = c ∧ rest = []) ∧ (0x7f < c.toNat → 0xc0 ≤ lead.toNat) := by
  rcases Nat.lt_or_ge 0x7f c.toNat with hlarge | hsmall
  · have hvalid : c.toNat < 0xd800 ∨ 0xdfff < c.toNat ∧ c.toNat < 0x110000 := c.valid
    have hencode : encode [c] = String.utf8EncodeChar c := by
      rw [encode, flatMap_singleton]
    have hlead : ∃ lead rest, String.utf8EncodeChar c = lead :: rest ∧ 0xc0 ≤ lead.toNat := by
      have hbyte : ∀ n < 256, (UInt8.ofNat n).toNat = n := fun n hn => Nat.mod_eq_of_lt hn
      rw [utf8EncodeChar_eq c rfl, if_neg (by omega)]
      split_ifs with htwo hthree
      · exact ⟨_, _, rfl, by rw [hbyte _ (by omega)]; omega⟩
      · exact ⟨_, _, rfl, by rw [hbyte _ (by omega)]; omega⟩
      · exact ⟨_, _, rfl, by rw [hbyte _ (by omega)]; omega⟩
    obtain ⟨lead, rest, hbytes, hlower⟩ := hlead
    refine ⟨Char.ofNat lead.toNat, latin1Decode rest, ?_, fun h => by omega, fun _ => ?_⟩
    · rw [projection, hencode, hbytes]
      rfl
    · rwa [toNat_latin1]
  · exact ⟨c, [], projection_ascii fun other hmem => mem_singleton.mp hmem ▸ hsmall,
      fun _ => ⟨rfl, rfl⟩, fun h => by omega⟩

theorem mem_projection (hc : c.toNat ≤ 0x7f) : c ∈ projection text ↔ c ∈ text := by
  have hbyte : (UInt8.ofNat c.toNat).toNat = c.toNat := Nat.mod_eq_of_lt (by omega)
  have hchar : c = Char.ofNat (UInt8.ofNat c.toNat).toNat := by
    rw [hbyte, Char.ofNat_toNat]
  rw [projection, mem_latin1Decode hchar]
  constructor
  · intro h
    obtain ⟨other, hother, hmem⟩ := mem_flatMap.mp h
    have hsame := toNat_of_mem_utf8EncodeChar hmem (by omega)
    have hequal : c = other := Char.ext (UInt32.toNat_inj.mp (hbyte.symm.trans hsame))
    exact hequal ▸ hother
  · intro h
    refine mem_flatMap.mpr ⟨c, h, ?_⟩
    have hencode : String.utf8EncodeChar c = [UInt8.ofNat c.toNat] := if_pos hc
    rw [hencode]
    exact mem_cons_self

theorem projection_eq_append {front : Text} (hfront : ∀ c ∈ front, c.toNat < 0xc0)
    (h : projection text = front ++ back) :
    (∀ c ∈ front, c.toNat ≤ 0x7f) ∧ ∃ rest, text = front ++ rest ∧ projection rest = back := by
  induction front generalizing text with
  | nil => exact ⟨forall_mem_nil _, text, rfl, h⟩
  | cons first front ih =>
    obtain ⟨hfirst, hothers⟩ := forall_mem_cons.mp hfront
    cases text with
    | nil => cases h
    | cons c text =>
      obtain ⟨lead, rest, hshape, hsmall, hlarge⟩ := lead_projection c
      have hsplit : c :: text = [c] ++ text := rfl
      rw [hsplit, projection_append, hshape, cons_append, cons_append] at h
      obtain ⟨rfl, hrest⟩ := cons.inj h
      have hascii : c.toNat ≤ 0x7f := by
        by_contra hlt
        exact absurd (hlarge (by omega)) (by omega)
      obtain ⟨rfl, rfl⟩ := hsmall hascii
      obtain ⟨hall, rest, rfl, hback⟩ := ih hothers hrest
      exact ⟨forall_mem_cons.mpr ⟨hascii, hall⟩, rest, rfl, hback⟩

theorem projection_eq_append_cons {front : Text} (hc : c.toNat ≤ 0x7f)
    (h : projection text = front ++ c :: back) :
    ∃ before rest, text = before ++ c :: rest ∧ projection before = front ∧
      projection rest = back := by
  induction text generalizing front with
  | nil => exact absurd h.symm (append_ne_nil_of_right_ne_nil _ (cons_ne_nil _ _))
  | cons other text ih =>
    have hsplit : other :: text = [other] ++ text := rfl
    rw [hsplit, projection_append] at h
    rcases append_eq_append_iff.mp h with ⟨more, hfront, hrest⟩ | ⟨more, hother, hback⟩
    · obtain ⟨before, rest, rfl, hbefore, hrest⟩ := ih hrest
      refine ⟨other :: before, rest, rfl, ?_, hrest⟩
      have hshape : other :: before = [other] ++ before := rfl
      rw [hshape, projection_append, hbefore, hfront]
    cases more with
    | nil =>
      rw [append_nil] at hother
      obtain ⟨before, rest, rfl, hbefore, hrest⟩ := @ih [] hback.symm
      refine ⟨other :: before, rest, rfl, ?_, hrest⟩
      have hshape : other :: before = [other] ++ before := rfl
      rw [hshape, projection_append, hbefore, append_nil, hother]
    | cons first more =>
      obtain ⟨rfl, hback⟩ := cons.inj hback
      have hmem : c ∈ projection [other] := by
        rw [hother]
        exact mem_append_right _ mem_cons_self
      obtain rfl := mem_singleton.mp ((mem_projection hc).mp hmem)
      have halone : projection [c] = [c] :=
        projection_ascii fun d hd => mem_singleton.mp hd ▸ hc
      rw [halone] at hother
      cases front with
      | nil =>
        obtain ⟨-, rfl⟩ := cons.inj hother
        exact ⟨[], text, rfl, rfl, (cons.inj hback).2.symm⟩
      | cons d front =>
        obtain ⟨-, hnil⟩ := cons.inj hother
        exact absurd hnil.symm
          (append_ne_nil_of_right_ne_nil _ (cons_ne_nil _ _))

theorem projection_eq_ascii (h : ∀ c ∈ projection text, c.toNat ≤ 0x7f) :
    projection text = text := by
  obtain ⟨-, rest, htext, hrest⟩ := @projection_eq_append text [] (projection text)
    (fun c hc => (h c hc).trans_lt (by decide)) (append_nil _).symm
  cases rest with
  | nil => rw [append_nil] at htext; exact htext.symm
  | cons c rest =>
    obtain ⟨lead, more, hshape, -⟩ := lead_projection c
    have hsplit : c :: rest = [c] ++ rest := rfl
    rw [hsplit, projection_append, hshape] at hrest
    cases hrest

end

/-! ### Numbers are ASCII -/

section

variable {text : Text} {q : ℚ}

theorem isDigit_ascii {c : Char} (h : isDigit c = true) : c.toNat ≤ 0x7f :=
  isNumeral_ascii (.inr (.inr h))

theorem ascii_cons {c : Char} (hc : c.toNat ≤ 0x7f) (h : ∀ other ∈ text, other.toNat ≤ 0x7f) :
    ∀ other ∈ c :: text, other.toNat ≤ 0x7f := forall_mem_cons.mpr ⟨hc, h⟩

theorem all_isDigit_ascii (h : text.all isDigit = true) : ∀ c ∈ text, c.toNat ≤ 0x7f :=
  fun c hc => isDigit_ascii (all_eq_true.mp h c hc)

theorem exponentOf_ascii {e : ℤ} (h : exponentOf text = some e) : ∀ c ∈ text, c.toNat ≤ 0x7f := by
  unfold exponentOf at h
  dsimp only at h
  split at h
  · split_ifs at h with hdigits
    exact ascii_cons (by decide) (all_isDigit_ascii hdigits.2)
  · obtain ⟨value, hvalue, -⟩ := Option.map_eq_some_iff.mp h
    split_ifs at hvalue with hdigits
    exact ascii_cons (by decide) (all_isDigit_ascii hdigits.2)
  · split_ifs at h with hdigits
    exact all_isDigit_ascii hdigits.2

theorem ascii_of_dropWhile (h : ∀ c ∈ text.dropWhile isDigit, c.toNat ≤ 0x7f) :
    ∀ c ∈ text, c.toNat ≤ 0x7f := by
  intro c hc
  rw [← @takeWhile_append_dropWhile _ isDigit text] at hc
  rcases mem_append.mp hc with hdigit | hrest
  · exact isDigit_ascii (mem_takeWhile_imp hdigit)
  · exact h c hrest

theorem unsignedDecimal_ascii (h : unsignedDecimal text = some q) :
    ∀ c ∈ text, c.toNat ≤ 0x7f := by
  unfold unsignedDecimal at h
  dsimp only at h
  refine ascii_of_dropWhile ?_
  split at h
  · next fraction hfraction =>
    rw [hfraction]
    refine ascii_cons (by decide) (ascii_of_dropWhile ?_)
    dsimp only at h
    split_ifs at h
    split at h
    · next hrest =>
      rw [hrest]
      exact forall_mem_nil _
    · next hrest =>
      obtain ⟨e, he, -⟩ := Option.map_eq_some_iff.mp h
      rw [hrest]
      exact ascii_cons (by decide) (exponentOf_ascii he)
    · next hrest =>
      obtain ⟨e, he, -⟩ := Option.map_eq_some_iff.mp h
      rw [hrest]
      exact ascii_cons (by decide) (exponentOf_ascii he)
    · cases h
  · dsimp only at h
    split_ifs at h
    split at h
    · next hrest =>
      rw [hrest]
      exact forall_mem_nil _
    · next hrest =>
      obtain ⟨e, he, -⟩ := Option.map_eq_some_iff.mp h
      rw [hrest]
      exact ascii_cons (by decide) (exponentOf_ascii he)
    · next hrest =>
      obtain ⟨e, he, -⟩ := Option.map_eq_some_iff.mp h
      rw [hrest]
      exact ascii_cons (by decide) (exponentOf_ascii he)
    · cases h

theorem digitOf_ascii {c : Char} (h : digitOf c < 16) : c.toNat ≤ 0x7f := by
  unfold digitOf at h
  split_ifs at h with hdigit hlower hupper
  · exact isDigit_ascii hdigit
  · have hbound : c.toNat ≤ 122 := hlower.2
    omega
  · have hbound : c.toNat ≤ 90 := hupper.2
    omega
  · omega

theorem digitsIn_ascii {base : ℕ} (hbase : base ≤ 16) (h : digitsIn base text = some q) :
    ∀ c ∈ text, c.toNat ≤ 0x7f := by
  unfold digitsIn at h
  split_ifs at h with hall
  intro c hc
  have hdigit := of_decide_eq_true (all_eq_true.mp hall.2 c hc)
  exact digitOf_ascii (by omega)

/-- **A word that is a number** is ASCII. -/
theorem numberOf_ascii (hword : IsWord text) (h : numberOf text = some q) :
    ∀ c ∈ text, c.toNat ≤ 0x7f := by
  obtain ⟨value, hvalue, -⟩ := Option.map_eq_some_iff.mp h
  rw [numericLiteral, trim_word hword] at hvalue
  split at hvalue
  · exact forall_mem_nil _
  · exact ascii_cons (by decide) (ascii_cons (by decide) (digitsIn_ascii (by decide) hvalue))
  · exact ascii_cons (by decide) (ascii_cons (by decide) (digitsIn_ascii (by decide) hvalue))
  · exact ascii_cons (by decide) (ascii_cons (by decide) (digitsIn_ascii (by decide) hvalue))
  · exact ascii_cons (by decide) (ascii_cons (by decide) (digitsIn_ascii (by decide) hvalue))
  · exact ascii_cons (by decide) (ascii_cons (by decide) (digitsIn_ascii (by decide) hvalue))
  · exact ascii_cons (by decide) (ascii_cons (by decide) (digitsIn_ascii (by decide) hvalue))
  · exact ascii_cons (by decide) (unsignedDecimal_ascii hvalue)
  · obtain ⟨value', hvalue', -⟩ := Option.map_eq_some_iff.mp hvalue
    exact ascii_cons (by decide) (unsignedDecimal_ascii hvalue')
  · exact unsignedDecimal_ascii hvalue

end

/-! ### Lines -/

section

variable {tail zone line : Text} {timestamp : ℤ} {hexLength : ℕ} {p : LineParts}

def isAsciiSpace (c : Char) : Bool := isWhitespace c && decide (c.toNat ≤ 0x7f)

theorem isAsciiSpace_iff {c : Char} :
    isAsciiSpace c = true ↔ isWhitespace c = true ∧ c.toNat ≤ 0x7f := by
  rw [isAsciiSpace, Bool.and_eq_true, decide_eq_true_iff]

/-- Of one byte, space is no lead byte. -/
theorem isWhitespace_lt {c : Char} (h : isWhitespace c = true) (hc : c.toNat < 256) :
    c.toNat < 0xc0 := by
  unfold isWhitespace at h
  simp only [contains_eq_mem, mem_cons, not_mem_nil, or_false, Bool.or_eq_true,
    decide_eq_true_eq] at h
  omega

theorem timezone_ascii (h : isTimezoneOffset zone = true) : ∀ c ∈ zone, c.toNat ≤ 0x7f :=
  fun _ hc => isNumeral_ascii (isNumeral_of_mem_timezone h hc)

theorem value_ascii {number : Text} (hword : IsWord number)
    (h : (numberOf number).bind safeInteger = some timestamp) : ∀ c ∈ number, c.toNat ≤ 0x7f := by
  obtain ⟨q, hq, -⟩ := Option.bind_eq_some_iff.mp h
  exact numberOf_ascii hword hq

/-- **A time in the projection** is one in the text, set off by the space of ASCII. -/
theorem isTail_projection :
    IsTail isWhitespace (projection tail) timestamp zone ↔
      IsTail isAsciiSpace tail timestamp zone := by
  constructor
  · rintro ⟨before, number, between, after, hshape, hbefore, hword, hne, hbetween, hafter, hvalue,
      hzone⟩
    have hchars : ∀ c ∈ projection tail, c.toNat < 256 := fun c hc => toNat_lt_of_mem_latin1 hc
    have hnumber := value_ascii hword hvalue
    have hzoneAscii := timezone_ascii hzone
    have hfront : projection tail = (before ++ (number ++ (between ++ zone))) ++ after := by
      rw [hshape]
      simp only [append_assoc]
    have hbeforeLt : ∀ c ∈ before, c.toNat < 0xc0 := fun c hc =>
      isWhitespace_lt (hbefore c hc) (hchars c (by rw [hshape]; exact mem_append_left _ hc))
    have hbetweenLt : ∀ c ∈ between, c.toNat < 0xc0 := fun c hc =>
      isWhitespace_lt (hbetween c hc) (hchars c (by
        rw [hshape]
        exact mem_append_right _ (mem_append_right _ (mem_append_left _ hc))))
    have hlt : ∀ c ∈ before ++ (number ++ (between ++ zone)), c.toNat < 0xc0 := by
      intro c hc
      rcases mem_append.mp hc with hc | hc
      · exact hbeforeLt c hc
      · rcases mem_append.mp hc with hc | hc
        · exact (hnumber c hc).trans_lt (by decide)
        · rcases mem_append.mp hc with hc | hc
          · exact hbetweenLt c hc
          · exact (hzoneAscii c hc).trans_lt (by decide)
    obtain ⟨hascii, rest, rfl, hrest⟩ := projection_eq_append hlt hfront
    refine ⟨before, number, between, rest, ?_, fun c hc => ?_, hword, hne, fun c hc => ?_,
      fun c hc => ?_, hvalue, hzone⟩
    · simp only [append_assoc]
    · exact isAsciiSpace_iff.mpr ⟨hbefore c hc, hascii c (mem_append_left _ hc)⟩
    · exact isAsciiSpace_iff.mpr ⟨hbetween c hc, hascii c (mem_append_right _
        (mem_append_right _ (mem_append_left _ hc)))⟩
    obtain ⟨more, rfl⟩ := head?_eq_some_iff.mp hc
    obtain ⟨lead, others, hlead, hsmall, hlarge⟩ := lead_projection c
    have hsplit : c :: more = [c] ++ more := rfl
    rw [hsplit, projection_append, hlead, cons_append] at hrest
    have hspace : isWhitespace lead = true := hafter lead (by rw [← hrest]; rfl)
    have hleadLt := isWhitespace_lt hspace (hchars lead (by
      rw [hfront, ← hrest]
      exact mem_append_right _ mem_cons_self))
    rcases Nat.lt_or_ge 0x7f c.toNat with hhigh | hlow
    · exact absurd (hlarge hhigh) (by omega)
    · obtain ⟨rfl, -⟩ := hsmall hlow
      exact isAsciiSpace_iff.mpr ⟨hspace, hlow⟩
  · rintro ⟨before, number, between, after, rfl, hbefore, hword, hne, hbetween, hafter, hvalue,
      hzone⟩
    refine ⟨before, number, between, projection after, ?_,
      fun c hc => (isAsciiSpace_iff.mp (hbefore c hc)).1, hword, hne,
      fun c hc => (isAsciiSpace_iff.mp (hbetween c hc)).1, fun c hc => ?_, hvalue, hzone⟩
    · rw [projection_append, projection_append, projection_append, projection_append,
        projection_ascii fun c hc => (isAsciiSpace_iff.mp (hbefore c hc)).2,
        projection_ascii (value_ascii hword hvalue),
        projection_ascii fun c hc => (isAsciiSpace_iff.mp (hbetween c hc)).2,
        projection_ascii (timezone_ascii hzone)]
    cases after with
    | nil => cases hc
    | cons first after =>
      obtain ⟨hspace, hascii⟩ := isAsciiSpace_iff.mp (hafter first rfl)
      rw [projection_cons hascii] at hc
      cases hc
      exact hspace

theorem IsTail.weaken (h : IsTail isAsciiSpace tail timestamp zone) :
    IsTail isWhitespace tail timestamp zone := by
  obtain ⟨before, number, between, after, hshape, hbefore, hword, hne, hbetween, hafter, hvalue,
    hzone⟩ := h
  exact ⟨before, number, between, after, hshape, fun c hc => (isAsciiSpace_iff.mp (hbefore c hc)).1,
    hword, hne, fun c hc => (isAsciiSpace_iff.mp (hbetween c hc)).1,
    fun c hc => (isAsciiSpace_iff.mp (hafter c hc)).1, hvalue, hzone⟩

/-- The parts of a line, one character for each byte. -/
def LineParts.projected (p : LineParts) : LineParts :=
  ⟨projection p.oldId, projection p.newId, projection p.rawName, projection p.email,
    projection p.tail, p.message.map projection⟩

theorem projected_front (p : LineParts) : p.projected.front = projection p.front := by
  rw [LineParts.front, LineParts.identity, LineParts.front, LineParts.identity, projection_append,
    projection_cons (by decide), projection_append, projection_cons (by decide), projection_append,
    projection_cons (by decide), projection_append, projection_cons (by decide)]
  rfl

theorem projected_line (p : LineParts) : p.projected.line = projection p.line := by
  rw [LineParts.line, LineParts.line, projection_append, ← projected_front]
  refine congrArg (p.projected.front ++ ·) ?_
  rw [LineParts.projected]
  cases p.message with
  | none => rfl
  | some message =>
    rw [Option.map_some, Option.elim_some, Option.elim_some, projection_cons (by decide)]

/-- **The parts of a projected line** are those of a line. -/
theorem exists_projected {q : LineParts} (h : projection line = q.line) :
    ∃ p : LineParts, line = p.line ∧ q = p.projected := by
  obtain ⟨oldId, newId, rawName, email, tail, message⟩ := q
  have hshape : projection line = oldId ++ ' ' :: (newId ++ ' ' :: (rawName ++ '<' :: (email ++
      '>' :: (tail ++ message.elim [] ('\t' :: ·))))) := by
    rw [h, LineParts.line, LineParts.front, LineParts.identity]
    simp only [append_assoc, cons_append]
  obtain ⟨o, line1, rfl, rfl, h1⟩ := projection_eq_append_cons (by decide) hshape
  obtain ⟨n, line2, rfl, rfl, h2⟩ := projection_eq_append_cons (by decide) h1
  obtain ⟨r, line3, rfl, rfl, h3⟩ := projection_eq_append_cons (by decide) h2
  obtain ⟨e, line4, rfl, rfl, h4⟩ := projection_eq_append_cons (by decide) h3
  cases message with
  | none =>
    refine ⟨⟨o, n, r, e, line4, none⟩, ?_, ?_⟩
    · simp only [LineParts.line, LineParts.front, LineParts.identity, Option.elim_none, append_nil]
    · rw [Option.elim_none, append_nil] at h4
      rw [← h4]
      rfl
  | some message =>
    obtain ⟨t, m, rfl, rfl, rfl⟩ := projection_eq_append_cons (by decide) h4
    refine ⟨⟨o, n, r, e, t, some m⟩, ?_, rfl⟩
    simp only [LineParts.line, LineParts.front, LineParts.identity, Option.elim_some,
      append_assoc, cons_append]

theorem good_projected :
    p.projected.Good isWhitespace hexLength timestamp zone ↔
      p.Good isAsciiSpace hexLength timestamp zone := by
  constructor
  · intro h
    have hold : projection p.oldId = p.oldId :=
      projection_eq_ascii fun c hc => hexDigit_ascii (h.oldId.digits c hc)
    have hnew : projection p.newId = p.newId :=
      projection_eq_ascii fun c hc => hexDigit_ascii (h.newId.digits c hc)
    have hnoTab := h.noTab
    rw [projected_front, mem_projection (by decide)] at hnoTab
    exact ⟨hold ▸ h.oldId, hnew ▸ h.newId, hold ▸ h.oldWidth, hnew ▸ h.newWidth,
      fun hmem => h.email ((mem_projection (by decide)).mpr hmem),
      fun hmem => h.tail ((mem_projection (by decide)).mpr hmem), hnoTab,
      isTail_projection.mp h.times, h.nonzero⟩
  · intro h
    have hold : projection p.oldId = p.oldId :=
      projection_ascii fun c hc => hexDigit_ascii (h.oldId.digits c hc)
    have hnew : projection p.newId = p.newId :=
      projection_ascii fun c hc => hexDigit_ascii (h.newId.digits c hc)
    have hnoTab := h.noTab
    rw [← mem_projection (by decide), ← projected_front] at hnoTab
    refine ⟨?_, ?_, ?_, ?_, fun hmem => h.email ((mem_projection (by decide)).mp hmem),
      fun hmem => h.tail ((mem_projection (by decide)).mp hmem), hnoTab,
      isTail_projection.mpr h.times, h.nonzero⟩
    · exact (congrArg IsObjectId hold).mpr h.oldId
    · exact (congrArg IsObjectId hnew).mpr h.newId
    · exact (congrArg length hold).trans h.oldWidth
    · exact (congrArg length hnew).trans h.newWidth

/-- An entry without the bytes of its file. -/
def ReflogEntry.displayed (entry : ReflogEntry) : ReflogEntry := { entry with raw := none }

theorem nameOf_projection (rawName : Text) :
    nameOf (projection rawName) = projection (nameOf rawName) := by
  rcases eq_nil_or_concat' rawName with rfl | ⟨front, c, rfl⟩
  · rfl
  by_cases hc : c = ' '
  · rw [hc, nameOf_append_space, projection_append, projection_cons (by decide)]
    exact nameOf_append_space _
  have hlast : (front ++ [c]).getLast? ≠ some ' ' := by
    rw [getLast?_concat]
    exact fun h => hc (Option.some.inj h)
  have hlast' : (projection (front ++ [c])).getLast? ≠ some ' ' := by
    obtain ⟨lead, rest, hlead, -⟩ := lead_projection c
    rw [projection_append, getLast?_append_of_ne_nil _
      (by rw [hlead]; exact cons_ne_nil _ _)]
    intro h
    have hmem := (mem_projection (by decide)).mp (mem_of_getLast? h)
    exact hc (mem_singleton.mp hmem).symm
  rw [nameOf, if_neg hlast', nameOf, if_neg hlast]

theorem displayed_byteEntry (hold : projection p.oldId = p.oldId)
    (hnew : projection p.newId = p.newId) :
    (p.projected.byteEntry timestamp zone).displayed = p.entry timestamp zone := by
  have hdecode : ∀ text, decodePreservingBom (latin1Encode (projection text)) = text := by
    intro text
    rw [projection, latin1Encode_decode, decodePreservingBom_encode]
  have hmessage : (p.message.map projection).getD [] = projection (p.message.getD []) := by
    cases p.message with
    | none => rfl
    | some message => rfl
  unfold ReflogEntry.displayed LineParts.byteEntry LineParts.projected LineParts.entry
  dsimp only
  rw [hold, hnew, nameOf_projection, hdecode, hdecode, hmessage, hdecode]

/-- A line that is read, with a notion of space. -/
def LineIn (isSpace : Char → Bool) (hexLength : ℕ) (line : Text) : Prop :=
  ∃ p : LineParts, ∃ timestamp zone, line = p.line ∧ p.Good isSpace hexLength timestamp zone

theorem LineParts.Good.weaken (h : p.Good isAsciiSpace hexLength timestamp zone) :
    p.Good isWhitespace hexLength timestamp zone :=
  ⟨h.oldId, h.newId, h.oldWidth, h.newWidth, h.email, h.tail, h.noTab, h.times.weaken, h.nonzero⟩

/-- **What is read of a line in bytes**: the lines that text sets off with ASCII, as in text. -/
theorem lineEntry_encode_ok {entry : ReflogEntry}
    (h : lineEntry (encode line) hexLength = .ok entry) :
    LineIn isAsciiSpace hexLength line ∧
      parseReflogLine line hexLength = .ok entry.displayed := by
  obtain ⟨q, timestamp, zone, hline, hgood, rfl⟩ := lineEntry_iff.mp h
  obtain ⟨p, rfl, rfl⟩ := exists_projected hline
  have hgood' := good_projected.mp hgood
  have hold : projection p.oldId = p.oldId :=
    projection_ascii fun c hc => hexDigit_ascii (hgood'.oldId.digits c hc)
  have hnew : projection p.newId = p.newId :=
    projection_ascii fun c hc => hexDigit_ascii (hgood'.newId.digits c hc)
  refine ⟨⟨p, timestamp, zone, rfl, hgood'⟩, ?_⟩
  rw [displayed_byteEntry hold hnew]
  exact parseReflogLine_iff.mpr ⟨p, timestamp, zone, rfl, hgood'.weaken, rfl⟩

theorem lineEntry_encode (h : LineIn isAsciiSpace hexLength line) :
    ∃ entry, lineEntry (encode line) hexLength = .ok entry := by
  obtain ⟨p, timestamp, zone, rfl, hgood⟩ := h
  exact ⟨_, lineEntry_iff.mpr ⟨p.projected, timestamp, zone, (projected_line p).symm,
    good_projected.mpr hgood, rfl⟩⟩

theorem lineIn_iff : LineIn isWhitespace hexLength line ↔
    ∃ entry, parseReflogLine line hexLength = .ok entry := by
  constructor
  · rintro ⟨p, timestamp, zone, rfl, hgood⟩
    exact ⟨_, parseReflogLine_iff.mpr ⟨p, timestamp, zone, rfl, hgood, rfl⟩⟩
  · rintro ⟨entry, h⟩
    obtain ⟨p, timestamp, zone, hline, hgood, -⟩ := parseReflogLine_iff.mp h
    exact ⟨p, timestamp, zone, hline, hgood⟩

end

/-! ### Files -/

section

variable {bytes : Bytes} {text : Text} {lines : List Text} {hexLength : ℕ}

theorem splitOn_encode (text : Text) :
    (encode text).splitOn 0x0a = (text.splitOn '\n').map encode := by
  have hsingle : ∀ line : Text, '\n' ∉ line → (0x0a : UInt8) ∉ encode line :=
    fun line hline => not_mem_encode rfl (by decide) hline
  obtain ⟨size, hsize⟩ : ∃ size, size = text.length := ⟨_, rfl⟩
  induction size using Nat.strong_induction_on generalizing text with
  | _ size ih =>
    by_cases hmem : '\n' ∈ text
    · obtain ⟨front, back, rfl, hfront⟩ := eq_append_cons_of_mem hmem
      rw [length_append, length_cons] at hsize
      have hshape : encode (front ++ '\n' :: back) = encode front ++ 0x0a :: encode back :=
        encode_append front ('\n' :: back)
      rw [hshape, splitOn_append_cons_self_of_not_mem (hsingle front hfront),
        splitOn_append_cons_self_of_not_mem hfront, map_cons,
        ih back.length (by omega) back rfl]
    · rw [splitOn_eq_singleton hmem, splitOn_eq_singleton (hsingle text hmem)]
      rfl

/-- The non-empty lines of a text that a newline ends. -/
def reflogLines (text : Text) : List Text := (splitReflogLines text).filter (· ≠ [])

theorem reflogLines_encode (text : Text) :
    (terminatedLines (encode text)).filter (· ≠ []) = (reflogLines text).map encode := by
  have hempty : ∀ line : Text, decide (encode line ≠ []) = decide (line ≠ []) := by
    intro line
    cases line with
    | nil => rfl
    | cons c line =>
      have hne : encode (c :: line) ≠ [] :=
        append_ne_nil_of_left_ne_nil String.utf8EncodeChar_ne_nil _
      rw [decide_eq_true hne, decide_eq_true (cons_ne_nil c line)]
  rw [terminatedLines, splitOn_encode, ← map_dropLast, ← splitReflogLines_eq, filter_map,
    reflogLines]
  exact congrArg (List.map encode) (filter_congr fun line _ => hempty line)

theorem tiers_read (h : ∀ line ∈ lines, LineIn isAsciiSpace hexLength line) :
    ∃ entries : List ReflogEntry, (lines.map encode).mapM (lineEntry · hexLength) = .ok entries ∧
      lines.mapM (parseReflogLine · hexLength) = .ok (entries.map ReflogEntry.displayed) := by
  induction lines with
  | nil => exact ⟨[], rfl, rfl⟩
  | cons line lines ih =>
    obtain ⟨hfirst, hrest⟩ := forall_mem_cons.mp h
    obtain ⟨entry, hentry⟩ := lineEntry_encode hfirst
    obtain ⟨entries, hbytes, htext⟩ := ih hrest
    refine ⟨entry :: entries, ?_, ?_⟩
    · rw [map_cons, mapM_cons, ok_bind_eq hentry, ok_bind_eq hbytes]
      rfl
    · rw [mapM_cons, ok_bind_eq (lineEntry_encode_ok hentry).2, ok_bind_eq htext]
      rfl

/-- The two tiers read the same of a text and of its bytes, or both refuse it. -/
def TiersAgree (text : Text) (hexLength : ℕ) : Prop :=
  (parseReflogBytes (encode text) hexLength).toOption.map (List.map ReflogEntry.displayed) =
    (parseReflog text hexLength).toOption

theorem toOption_none {α : Type} {outcome : Except Thrown α}
    (h : ∀ a, outcome ≠ .ok a) : outcome.toOption = none := by
  cases outcome with
  | error thrown => rfl
  | ok a => exact absurd rfl (h a)

/-- **Where the tiers agree**: a line is malformed with all spaces, or none is with ASCII. -/
theorem tiersAgree_iff : TiersAgree text hexLength ↔
    (∃ line ∈ reflogLines text, ¬ LineIn isWhitespace hexLength line) ∨
      ∀ line ∈ reflogLines text, LineIn isAsciiSpace hexLength line := by
  have hbytes : parseReflogBytes (encode text) hexLength =
      ((reflogLines text).map encode).mapM (lineEntry · hexLength) := by
    rw [parseReflogBytes_eq, reflogLines_encode]
  have htext : parseReflog text hexLength =
      (reflogLines text).mapM (parseReflogLine · hexLength) := rfl
  rw [TiersAgree, hbytes, htext]
  have hascii : ∀ entries, ((reflogLines text).map encode).mapM (lineEntry · hexLength) =
      .ok entries → ∀ line ∈ reflogLines text, LineIn isAsciiSpace hexLength line := by
    intro entries hok line hmem
    obtain ⟨entry, -, hentry⟩ := (mapM_ok hok).2 _ (mem_map_of_mem hmem)
    exact (lineEntry_encode_ok hentry).1
  by_cases hall : ∀ line ∈ reflogLines text, LineIn isAsciiSpace hexLength line
  · obtain ⟨entries, hread, hshown⟩ := tiers_read hall
    rw [hread, hshown]
    exact iff_of_true rfl (Or.inr hall)
  have hnone : (((reflogLines text).map encode).mapM (lineEntry · hexLength)).toOption = none :=
    toOption_none fun entries hok => hall (hascii entries hok)
  rw [hnone, Option.map_none]
  constructor
  · intro h
    refine Or.inl ?_
    by_contra hgood
    have hlines : ∀ line ∈ reflogLines text, ∃ entry,
        parseReflogLine line hexLength = .ok entry := fun line hmem =>
      lineIn_iff.mp (not_not.mp fun hnot => hgood ⟨line, hmem, hnot⟩)
    obtain ⟨entries, hentries⟩ := exists_mapM_ok hlines
    rw [hentries] at h
    cases h
  · rintro (⟨line, hmem, hbad⟩ | hgood)
    · refine (toOption_none fun entries hok => hbad ?_).symm
      obtain ⟨entry, -, hentry⟩ := (mapM_ok hok).2 _ hmem
      exact lineIn_iff.mpr ⟨entry, hentry⟩
    · exact absurd hgood hall

/-- What a line is read as in a file of its own. -/
def ownEntry (line : Bytes) (hexLength : ℕ) : Option ReflogEntry :=
  (parseReflogBytes (line ++ [0x0a]) hexLength).toOption.bind head?

theorem lineEntry_nil : (lineEntry [] hexLength).toOption = none :=
  lineEntry_of_separator (Or.inl fun h => by cases h)

theorem ownEntry_eq {line : Bytes} (hsingle : 0x0a ∉ line) :
    ownEntry line hexLength = (lineEntry line hexLength).toOption := by
  have hlines : terminatedLines (line ++ [0x0a]) = [line] := by
    have hjoin := @terminatedLines_flatMap [line] (fun other hmem =>
      mem_singleton.mp hmem ▸ hsingle)
    rwa [flatMap_singleton] at hjoin
  rw [ownEntry, parseReflogBytes_eq, hlines]
  by_cases hempty : line = []
  · subst hempty
    rw [lineEntry_nil]
    rfl
  · rw [filter_cons_of_pos (by rw [decide_eq_true_iff]; exact hempty), filter_nil, mapM_cons]
    cases lineEntry line hexLength with
    | error thrown => rfl
    | ok entry => rfl

/-- A file that the strict reader reads can be rewritten, and is read the same then. -/
def RewritesBack (bytes : Bytes) (hexLength : ℕ) : Prop :=
  ∀ entries, parseReflogBytes bytes hexLength = .ok entries →
    ∃ written, rewriteReflog entries hexLength = .ok written ∧
      parseReflogBytes written hexLength = .ok entries

/-- The lenient reader gives the lines that can be read by themselves, in order. -/
def LenientReads (bytes : Bytes) (hexLength : ℕ) : Prop :=
  (∀ entries, parseReflogBytes bytes hexLength = .ok entries →
      parseReflogLenientBytes bytes hexLength = entries) ∧
    parseReflogLenientBytes bytes hexLength =
      (terminatedLines bytes).filterMap (ownEntry · hexLength)

theorem filterMap_of_mapM {lines : List Bytes} {entries : List ReflogEntry}
    (h : (lines.filter (· ≠ [])).mapM (lineEntry · hexLength) = .ok entries) :
    lines.filterMap (fun line => (lineEntry line hexLength).toOption) = entries := by
  induction lines generalizing entries with
  | nil =>
    cases h
    rfl
  | cons line lines ih =>
    by_cases hempty : line = []
    · subst hempty
      rw [filterMap_cons, lineEntry_nil]
      exact ih h
    rw [filter_cons_of_pos (by rw [decide_eq_true_iff]; exact hempty), mapM_cons] at h
    obtain ⟨entry, hentry, h⟩ := bind_eq_ok.mp h
    obtain ⟨rest, hrest, h⟩ := bind_eq_ok.mp h
    cases h
    rw [filterMap_cons, hentry, ih hrest]
    rfl

theorem lenientReads (bytes : Bytes) (hexLength : ℕ) : LenientReads bytes hexLength := by
  rw [LenientReads, parseReflogLenientBytes_eq]
  refine ⟨fun entries h => ?_, filterMap_congr fun line hmem => ?_⟩
  · rw [parseReflogBytes_eq] at h
    exact filterMap_of_mapM h
  · exact (ownEntry_eq (not_mem_of_mem_terminatedLines hmem)).symm

end

/-- **The three readers and the writer**: a file is rewritten without loss, and the tiers agree on a
text just if one of its lines is malformed with all spaces or all are well formed with those of
ASCII. -/
theorem reflogFormat_exact (bytes : Bytes) (hexLength : ℕ) :
    (RewritesBack bytes hexLength ∧ LenientReads bytes hexLength ∧
        ∀ text, encode text = bytes → TiersAgree text hexLength) ↔
      ∀ text, encode text = bytes →
        (∃ line ∈ reflogLines text, ¬ LineIn isWhitespace hexLength line) ∨
          ∀ line ∈ reflogLines text, LineIn isAsciiSpace hexLength line := by
  constructor
  · rintro ⟨-, -, h⟩ text htext
    exact tiersAgree_iff.mp (h text htext)
  · intro h
    exact ⟨fun entries => rewriteReflog_read, lenientReads bytes hexLength,
      fun text htext => tiersAgree_iff.mpr (h text htext)⟩

/-! ### A no-break space -/

/-- A time with a no-break space in it. -/
def nbspParts : LineParts :=
  ⟨replicate 40 '0', replicate 40 '1', ['A', ' '], ['a'],
    [' ', '1', '\u00a0', '+', '0', '0', '0', '0'], some ['m']⟩

def nbspText : Text := nbspParts.line ++ ['\n']

theorem reflogLines_nbspText : reflogLines nbspText = [nbspParts.line] := by
  have hsingle : '\n' ∉ nbspParts.line := by decide
  have hsplit : nbspText.splitOn '\n' = [nbspParts.line, []] := by
    rw [nbspText, splitOn_append_cons_self_of_not_mem hsingle, splitOn_nil]
  rw [reflogLines, splitReflogLines_eq, hsplit]
  rfl

theorem lineIn_nbsp : LineIn isWhitespace 40 nbspParts.line := by
  have hnumber : (numberOf (decimalText 1)).bind safeInteger = some 1 := by
    rw [numberOf_decimalText (by decide), Option.bind_some]
    exact safeInteger_int (by decide)
  refine ⟨nbspParts, 1, ['+', '0', '0', '0', '0'], rfl, isObjectId_replicate rfl,
    isObjectId_replicate rfl, rfl, rfl, by decide, by decide, by decide, ?_, by decide⟩
  exact ⟨[' '], decimalText 1, ['\u00a0'], [], rfl, all_eq_true.mp rfl,
    isWord_decimalText 1, cons_ne_nil _ _, all_eq_true.mp rfl,
    (fun c hc => by cases hc), hnumber, by decide⟩

theorem behind_eq {front front' back back' : Text} {c : Char} (hback : c ∉ back)
    (hback' : c ∉ back') (h : front ++ c :: back = front' ++ c :: back') : back = back' := by
  have hplace := @lastIndexOf_append front back c hback
  rw [h, lastIndexOf_append hback'] at hplace
  exact (cons.inj (append_inj h (Option.some.inj hplace).symm).2).2

theorem not_lineIn_nbsp : ¬ LineIn isAsciiSpace 40 nbspParts.line := by
  rintro ⟨p, timestamp, zone, hline, hgood⟩
  have hfront : nbspParts.front = p.front := by
    rw [← LineParts.metaOf_line (by decide : '\t' ∉ nbspParts.front), hline,
      LineParts.metaOf_line hgood.noTab]
  have hshape : ∀ q : LineParts, q.front = (q.oldId ++ ' ' :: (q.newId ++ ' ' :: (q.rawName ++
      '<' :: q.email))) ++ '>' :: q.tail := by
    intro q
    simp only [LineParts.front, LineParts.identity, append_assoc, cons_append]
  rw [hshape, hshape p] at hfront
  have htail := behind_eq (by decide) hgood.tail hfront
  obtain ⟨before, number, between, after, hparts, -, hword, hne, hbetween, -⟩ := hgood.times
  rw [← htail] at hparts
  obtain ⟨c, spaces, rfl⟩ := exists_cons_of_ne_nil hne
  obtain ⟨d, digits, rfl⟩ := exists_cons_of_ne_nil hword.ne_nil
  have hmem : c ∈ nbspParts.tail.tail := by
    rw [hparts]
    cases before with
    | nil => exact mem_append_right _ mem_cons_self
    | cons first before =>
      exact mem_append_right _ (mem_append_right _ mem_cons_self)
  have hnone : nbspParts.tail.tail.all (! isAsciiSpace ·) = true := by decide
  have hfalse := all_eq_true.mp hnone c hmem
  rw [hbetween c mem_cons_self] at hfalse
  cases hfalse

/-- The one tier reads the line, the other refuses it. -/
theorem reflogFormat_nbsp : ¬ (RewritesBack (encode nbspText) 40 ∧
    LenientReads (encode nbspText) 40 ∧
      ∀ text, encode text = encode nbspText → TiersAgree text 40) := by
  rintro ⟨-, -, h⟩
  rcases tiersAgree_iff.mp (h nbspText rfl) with ⟨line, hmem, hbad⟩ | hall
  · rw [reflogLines_nbspText] at hmem
    exact hbad (mem_singleton.mp hmem ▸ lineIn_nbsp)
  · refine not_lineIn_nbsp (hall _ ?_)
    rw [reflogLines_nbspText]
    exact mem_singleton.mpr rfl

end Tsgit.Reflog
