import Tsgit.Strings

/-!
# Identities

`src/domain/objects/author-identity.ts`: who wrote a commit, and when. A timestamp is an integer.
-/

namespace Tsgit

open List

structure AuthorIdentity where
  name : Text
  email : Text
  timestamp : ℤ
  timezoneOffset : Text
  deriving DecidableEq

def invalidIdentity {α : Type} (line : Text) (reason : String) : Except Thrown α :=
  .error (.refusal (.invalidIdentity line reason))

def isTimezoneOffset : Text → Bool
  | sign :: digits => (sign = '+' ∨ sign = '-') ∧ digits.length = 4 ∧ digits.all isDigit
  | [] => false

def parseIdentity (line : Text) : Except Thrown AuthorIdentity :=
  match lastIndexOf line '>' with
  | none => invalidIdentity line "missing closing angle bracket"
  | some lastClose =>
    match lastIndexOfUpTo line '<' lastClose with
    | none => invalidIdentity line "missing opening angle bracket"
    | some lastOpen =>
      let rawName := line.take lastOpen
      let name := if rawName.getLast? = some ' ' then rawName.dropLast else rawName
      let email := subarray line (lastOpen + 1) lastClose
      let afterClose := trim (line.drop (lastClose + 1))
      match splitWhitespace afterClose with
      | part :: timezoneOffset :: _ =>
        match (numberOf part).bind safeInteger with
        | none => invalidIdentity line "invalid timestamp"
        | some timestamp =>
          if ¬ isTimezoneOffset timezoneOffset then
            invalidIdentity line "invalid timezone offset"
          else .ok ⟨name, email, timestamp, timezoneOffset⟩
      | _ => invalidIdentity line "missing timestamp or timezone"

def hasControlChars (text : Text) : Bool := text.any fun c => c = '\n' ∨ c = '\r' ∨ c = '\x00'

def hasAngleBracket (text : Text) : Bool := text.any fun c => c = '<' ∨ c = '>'

def serializeIdentity (identity : AuthorIdentity) : Except Thrown Text :=
  let line := identity.name ++ ' ' :: '<' :: (identity.email ++ ['>'])
  if hasControlChars identity.name then
    invalidIdentity line "name contains forbidden control character"
  else if hasControlChars identity.email then
    invalidIdentity line "email contains forbidden control character"
  else if hasControlChars identity.timezoneOffset then
    invalidIdentity line "timezoneOffset contains forbidden control character"
  else if hasAngleBracket identity.name then invalidIdentity line "invalid identity fields"
  else if hasAngleBracket identity.email then invalidIdentity line "invalid identity fields"
  else if ¬ isTimezoneOffset identity.timezoneOffset then
    invalidIdentity line "invalid identity fields"
  else .ok (line ++ ' ' :: (decimalText identity.timestamp ++ ' ' :: identity.timezoneOffset))

/-! ### What is written -/

section

variable {identity : AuthorIdentity} {line : Text}

/-- What the checks of the writer come to. -/
structure AuthorIdentity.Writable (identity : AuthorIdentity) : Prop where
  name_solid : ∀ c ∈ identity.name, c ≠ '\n' ∧ c ≠ '<' ∧ c ≠ '>'
  email_solid : ∀ c ∈ identity.email, c ≠ '\n' ∧ c ≠ '<' ∧ c ≠ '>'
  timezone : isTimezoneOffset identity.timezoneOffset = true

theorem solid_of_checks {text : Text} (hcontrol : ¬ hasControlChars text = true)
    (hangle : ¬ hasAngleBracket text = true) : ∀ c ∈ text, c ≠ '\n' ∧ c ≠ '<' ∧ c ≠ '>' := by
  intro c hc
  refine ⟨fun h => hcontrol ?_, fun h => hangle ?_, fun h => hangle ?_⟩
  · exact any_eq_true.mpr ⟨c, hc, decide_eq_true (.inl h)⟩
  · exact any_eq_true.mpr ⟨c, hc, decide_eq_true (.inl h)⟩
  · exact any_eq_true.mpr ⟨c, hc, decide_eq_true (.inr h)⟩

theorem serializeIdentity_ok (h : serializeIdentity identity = .ok line) :
    identity.Writable ∧ line = identity.name ++ ' ' :: '<' :: (identity.email ++ '>' :: ' ' ::
      (decimalText identity.timestamp ++ ' ' :: identity.timezoneOffset)) := by
  unfold serializeIdentity invalidIdentity at h
  dsimp only at h
  split_ifs at h with hname hemail hzone hname' hemail' hzone'
  cases h
  refine ⟨⟨solid_of_checks hname hname', solid_of_checks hemail hemail', ?_⟩, ?_⟩
  · exact hzone'
  · simp only [append_assoc, cons_append, nil_append]

/-- A sign or a digit. -/
def IsNumeral (c : Char) : Prop := c = '+' ∨ c = '-' ∨ isDigit c = true

theorem IsNumeral.solid {c : Char} (h : IsNumeral c) :
    isWhitespace c = false ∧ c ≠ '\n' ∧ c ≠ '<' ∧ c ≠ '>' := by
  rcases h with rfl | rfl | hdigit
  · decide
  · decide
  refine ⟨isWhitespace_of_isDigit hdigit, ?_, ?_, ?_⟩
  · rintro rfl
    cases hdigit
  · rintro rfl
    cases hdigit
  · rintro rfl
    cases hdigit

theorem isNumeral_of_mem_decimalText {n : ℤ} {c : Char} (h : c ∈ decimalText n) : IsNumeral c := by
  rw [decimalText] at h
  split at h
  · rcases mem_cons.mp h with rfl | hdigit
    · exact .inr (.inl rfl)
    · exact .inr (.inr (isDigit_of_mem_toDigits hdigit))
  · exact .inr (.inr (isDigit_of_mem_toDigits h))

theorem isNumeral_of_mem_timezone {zone : Text} (h : isTimezoneOffset zone = true) {c : Char}
    (hc : c ∈ zone) : IsNumeral c := by
  cases zone with
  | nil => cases hc
  | cons sign digits =>
    obtain ⟨hsign, -, hdigits⟩ : (sign = '+' ∨ sign = '-') ∧ digits.length = 4 ∧
        digits.all isDigit = true := of_decide_eq_true h
    rcases mem_cons.mp hc with rfl | hdigit
    · exact hsign.imp id .inl
    · exact .inr (.inr (all_eq_true.mp hdigits c hdigit))

theorem isWord_timezone {zone : Text} (h : isTimezoneOffset zone = true) : IsWord zone where
  ne_nil := by
    rintro rfl
    cases h
  solid _ hc := (isNumeral_of_mem_timezone h hc).solid.1

/-- What stands behind the address. -/
theorem mem_when {zone : Text} {n : ℤ} (hzone : isTimezoneOffset zone = true) {c : Char}
    (h : c ∈ ' ' :: (decimalText n ++ ' ' :: zone)) : c = ' ' ∨ IsNumeral c := by
  rcases mem_cons.mp h with rfl | hrest
  · exact .inl rfl
  · rcases mem_append.mp hrest with hdecimal | hrest
    · exact .inr (isNumeral_of_mem_decimalText hdecimal)
    · rcases mem_cons.mp hrest with rfl | hzone'
      · exact .inl rfl
      · exact .inr (isNumeral_of_mem_timezone hzone hzone')

theorem serializeIdentity_single (h : serializeIdentity identity = .ok line) : '\n' ∉ line := by
  obtain ⟨hwritable, rfl⟩ := serializeIdentity_ok h
  intro hmem
  rcases mem_append.mp hmem with hname | hrest
  · exact (hwritable.name_solid _ hname).1 rfl
  rcases mem_cons.mp hrest with hspace | hrest
  · cases hspace
  rcases mem_cons.mp hrest with hopen | hrest
  · cases hopen
  rcases mem_append.mp hrest with hemail | hrest
  · exact (hwritable.email_solid _ hemail).1 rfl
  · rcases mem_cons.mp hrest with hclose | hrest
    · cases hclose
    · rcases mem_when hwritable.timezone hrest with hspace | hnumeral
      · cases hspace
      · exact hnumeral.solid.2.1 rfl

/-- The name in front of an address: up to one space in between. -/
def nameOf (rawName : Text) : Text :=
  if rawName.getLast? = some ' ' then rawName.dropLast else rawName

/-- **What a line is read as**, whatever its name is. -/
theorem parseIdentity_line (rawName : Text) {email zone : Text} {timestamp : ℤ}
    (hemail : ∀ c ∈ email, c ≠ '\n' ∧ c ≠ '<' ∧ c ≠ '>') (hzone : isTimezoneOffset zone = true)
    (hsafe : |timestamp| ≤ maxSafeInteger) :
    parseIdentity (rawName ++ '<' :: (email ++ '>' :: ' ' ::
        (decimalText timestamp ++ ' ' :: zone))) =
      .ok ⟨nameOf rawName, email, timestamp, zone⟩ := by
  obtain ⟨behind, hbehind⟩ : ∃ behind, behind = ' ' :: (decimalText timestamp ++ ' ' :: zone) :=
    ⟨_, rfl⟩
  have hnumeral : ∀ c ∈ behind, c = ' ' ∨ IsNumeral c := by
    rw [hbehind]
    exact fun c hc => mem_when hzone hc
  have hcloseOut : '>' ∉ behind := by
    intro hmem
    rcases hnumeral _ hmem with hspace | hnumeral'
    · cases hspace
    · exact hnumeral'.solid.2.2.2 rfl
  have hopenOut : '<' ∉ email ++ '>' :: behind := by
    intro hmem
    rcases mem_append.mp hmem with hemail' | hrest
    · exact (hemail _ hemail').2.1 rfl
    · rcases mem_cons.mp hrest with hclose | hrest
      · cases hclose
      · rcases hnumeral _ hrest with hspace | hnumeral'
        · cases hspace
        · exact hnumeral'.solid.2.2.1 rfl
  obtain ⟨line, hline⟩ : ∃ line, line = rawName ++ '<' :: (email ++ '>' :: behind) := ⟨_, rfl⟩
  have hatClose : line = (rawName ++ '<' :: email) ++ '>' :: behind := by
    rw [hline, append_assoc]
    rfl
  have hfront : (rawName ++ '<' :: email).length = rawName.length + 1 + email.length := by
    simp only [length_append, length_cons]
    omega
  have hclose : lastIndexOf line '>' = some (rawName ++ '<' :: email).length := by
    rw [hatClose]
    exact lastIndexOf_append hcloseOut
  have hopen : lastIndexOfUpTo line '<' (rawName ++ '<' :: email).length =
      some rawName.length := by
    rw [lastIndexOfUpTo, hline]
    have hlength : (email ++ '>' :: behind).length = email.length + (behind.length + 1) := by
      rw [length_append, length_cons]
    exact lastIndexBefore_append hopenOut (by omega) (by omega)
  have hrawName : line.take rawName.length = rawName := by
    rw [hline, take_left]
  have hsub : subarray line (rawName.length + 1) (rawName ++ '<' :: email).length = email := by
    have hdrop : line.drop (rawName.length + 1) = email ++ '>' :: behind := by
      rw [hline, ← drop_drop, drop_left]
      rfl
    rw [subarray, hdrop, hfront, Nat.add_sub_cancel_left, take_left]
  have hafter : trim (line.drop ((rawName ++ '<' :: email).length + 1)) =
      decimalText timestamp ++ ' ' :: zone := by
    rw [hatClose, ← drop_drop, drop_left, drop_one, tail_cons, hbehind]
    exact trim_pair (isWord_decimalText timestamp) (isWord_timezone hzone)
  have htimestamp : (numberOf (decimalText timestamp)).bind safeInteger = some timestamp := by
    rw [numberOf_decimalText hsafe, Option.bind_some, safeInteger_int hsafe]
  rw [← hbehind, ← hline]
  unfold parseIdentity
  rw [hclose]
  dsimp only
  rw [hopen]
  dsimp only
  rw [hrawName, hsub, hafter, splitWhitespace_pair (isWord_decimalText timestamp)
    (isWord_timezone hzone)]
  dsimp only
  rw [htimestamp]
  dsimp only
  rw [if_neg (not_not_intro hzone)]
  rfl

theorem nameOf_append_space (name : Text) : nameOf (name ++ [' ']) = name := by
  have hlast : (name ++ [' ']).getLast? = some ' ' := getLast?_concat
  rw [nameOf, if_pos hlast, dropLast_concat]

/-- **An identity that is written** is read back. -/
theorem parseIdentity_serializeIdentity (h : serializeIdentity identity = .ok line)
    (hsafe : |identity.timestamp| ≤ maxSafeInteger) : parseIdentity line = .ok identity := by
  obtain ⟨hwritable, rfl⟩ := serializeIdentity_ok h
  have hread := parseIdentity_line (identity.name ++ [' ']) hwritable.email_solid
    hwritable.timezone hsafe
  rw [append_assoc, nameOf_append_space] at hread
  exact hread

end

end Tsgit
