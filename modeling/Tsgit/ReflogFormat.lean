import Tsgit.Commit
import Tsgit.DecodeSplit

/-!
# Reflog Lines

The reader of `src/domain/reflog/reflog-format.ts` for strings, its readers for bytes, strict and
lenient, and its writer for a rewrite. The readers for bytes run the grammar of the one for
strings on one character for each byte.
-/

namespace Tsgit.Reflog

open List

/-! ### Entries and lines -/

/-- The bytes of an entry, as they stand in the file. -/
structure RawSlices where
  identity : Bytes
  message : Bytes
  deriving DecidableEq

structure ReflogEntry where
  oldId : Text
  newId : Text
  identity : AuthorIdentity
  message : Text
  raw : Option RawSlices
  deriving DecidableEq

def invalidReflogEntry {α : Type} (reason : String) : Except Thrown α :=
  .error (.refusal (.invalidReflogEntry reason))

def parseOid (hex : Text) : Except Thrown Text :=
  match objectIdFrom hex with
  | .ok id => .ok id
  | .error _ => invalidReflogEntry "invalid object id"

def parseReflogIdentity (raw : Text) : Except Thrown AuthorIdentity :=
  match parseIdentity raw with
  | .ok identity => .ok identity
  | .error _ => invalidReflogEntry "invalid identity"

/-- What stands in front of the first tab, the whole line if there is none. -/
def metaOf (line : Text) : Text :=
  match line.idxOf? '\t' with
  | none => line
  | some tab => line.take tab

/-- What stands behind the first tab. -/
def messageOf (line : Text) : Text :=
  match line.idxOf? '\t' with
  | none => []
  | some tab => line.drop (tab + 1)

/-- `parseReflogLine`. The ids are hex: places in front of the identity count characters and code
units alike. -/
def parseReflogLine (line : Text) (hexLength : ℕ) : Except Thrown ReflogEntry :=
  let front := metaOf line
  let newIdStart := hexLength + 1
  let newIdEnd := newIdStart + hexLength
  let identityStart := newIdEnd + 1
  if front[hexLength]? ≠ some ' ' ∨ front[newIdEnd]? ≠ some ' ' then
    invalidReflogEntry "misplaced field separator"
  else do
    let oldId ← parseOid (front.take hexLength)
    let newId ← parseOid (subarray front newIdStart newIdEnd)
    let identity ← parseReflogIdentity (front.drop identityStart)
    if identity.timestamp = 0 then invalidReflogEntry "zero timestamp"
    else pure ⟨oldId, newId, identity, messageOf line, none⟩

/-- The lines that a newline ends. -/
def splitReflogLines (text : Text) : List Text :=
  match lastIndexOf text '\n' with
  | none => []
  | some lastTerminator => (text.take lastTerminator).splitOn '\n'

def parseReflog (text : Text) (hexLength : ℕ) : Except Thrown (List ReflogEntry) :=
  ((splitReflogLines text).filter (· ≠ [])).mapM (parseReflogLine · hexLength)

/-! ### Bytes -/

/-- One character for each byte. -/
def latin1Decode (bytes : Bytes) : Text := bytes.map fun byte => Char.ofNat byte.toNat

def lineRangesFrom : ℕ → List Text → List (Text × ℕ)
  | _, [] => []
  | position, line :: lines => (line, position) :: lineRangesFrom (position + line.length + 1) lines

def reflogLineByteRanges (bytes : Bytes) : List (Text × ℕ) :=
  lineRangesFrom 0 (splitReflogLines (latin1Decode bytes))

def decodeField (bytes : Bytes) (projectedLine : Text) (lineStart fieldStart fieldEnd : ℕ) : Text :=
  let field := subarray bytes (lineStart + fieldStart) (lineStart + fieldEnd)
  if (subarray projectedLine fieldStart fieldEnd).all (fun c => c.toNat ≤ 0x7f) then
    latin1Decode field
  else decodePreservingBom field

def messageStartOf (line : Text) : ℕ :=
  match line.idxOf? '\t' with
  | none => line.length
  | some tab => tab + 1

def parseReflogEntryFromBytes (bytes : Bytes) (projectedLine : Text) (lineStart hexLength : ℕ) :
    Except Thrown ReflogEntry := do
  let grammar ← parseReflogLine projectedLine hexLength
  let newIdStart := hexLength + 1
  let newIdEnd := newIdStart + hexLength
  let identityStart := newIdEnd + 1
  let identityRegion := (metaOf projectedLine).drop identityStart
  let lastClose := (lastIndexOf identityRegion '>').getD 0
  let lastOpen := (lastIndexOfUpTo identityRegion '<' lastClose).getD 0
  let nameStart := identityStart
  let nameEnd := nameStart + grammar.identity.name.length
  let emailStart := identityStart + lastOpen + 1
  let emailEnd := identityStart + lastClose
  let messageStart := messageStartOf projectedLine
  let identityBytes :=
    subarray bytes (lineStart + identityStart) (lineStart + identityStart + lastClose + 1)
  let messageBytes :=
    subarray bytes (lineStart + messageStart) (lineStart + projectedLine.length)
  pure ⟨grammar.oldId, grammar.newId, ⟨decodeField bytes projectedLine lineStart nameStart nameEnd,
      decodeField bytes projectedLine lineStart emailStart emailEnd,
      grammar.identity.timestamp, grammar.identity.timezoneOffset⟩,
    decodeField bytes projectedLine lineStart messageStart projectedLine.length,
    some ⟨identityBytes, messageBytes⟩⟩

def parseReflogBytes (bytes : Bytes) (hexLength : ℕ) : Except Thrown (List ReflogEntry) :=
  ((reflogLineByteRanges bytes).filter (·.1 ≠ [])).mapM fun range =>
    parseReflogEntryFromBytes bytes range.1 range.2 hexLength

def parseReflogLenientBytes (bytes : Bytes) (hexLength : ℕ) : List ReflogEntry :=
  (reflogLineByteRanges bytes).filterMap fun range =>
    if range.1[hexLength]? ≠ some ' ' ∨ range.1[2 * hexLength + 1]? ≠ some ' ' then none
    else (parseReflogEntryFromBytes bytes range.1 range.2 hexLength).toOption

/-! ### The writer for a rewrite -/

def assertReflogLineFields (entry : ReflogEntry) (hexLength : ℕ) : Except Thrown Unit :=
  if entry.oldId.length ≠ hexLength ∨ entry.newId.length ≠ hexLength then
    invalidReflogEntry "object id does not match the repository oid width"
  else if entry.identity.timestamp = 0 then invalidReflogEntry "timestamp must be non-zero"
  else .ok ()

def reflogLineMeta (entry : ReflogEntry) (hexLength : ℕ) : Except Thrown Text := do
  assertReflogLineFields entry hexLength
  let identity ← serializeIdentity entry.identity
  pure (entry.oldId ++ ' ' :: (entry.newId ++ ' ' :: identity))

def serializeReflogRewriteLine (entry : ReflogEntry) (hexLength : ℕ) : Except Thrown Text :=
  if entry.message.contains '\n' then invalidReflogEntry "message contains a line break"
  else do
    let front ← reflogLineMeta entry hexLength
    pure (front ++ '\t' :: (entry.message ++ ['\n']))

/-- An entry from a file is written with its own bytes, but for its time. -/
def serializeReflogRewriteLineBytes (entry : ReflogEntry) (hexLength : ℕ) :
    Except Thrown Bytes :=
  match entry.raw with
  | none => do
    let line ← serializeReflogRewriteLine entry hexLength
    pure (encode line)
  | some raw => do
    assertReflogLineFields entry hexLength
    if raw.message.contains 0x0a then invalidReflogEntry "message contains a line break"
    else if raw.identity.contains 0x0a ∨ raw.identity.contains 0x09 then
      invalidReflogEntry "invalid identity"
    else if ¬ |entry.identity.timestamp| ≤ maxSafeInteger then
      invalidReflogEntry "invalid identity"
    else if ¬ isTimezoneOffset entry.identity.timezoneOffset then
      invalidReflogEntry "invalid identity"
    else
      let before := encode (entry.oldId ++ ' ' :: (entry.newId ++ [' ']))
      let behind := encode (' ' :: (decimalText entry.identity.timestamp ++
        ' ' :: (entry.identity.timezoneOffset ++ ['\t'])))
      pure (before ++ (raw.identity ++ (behind ++ (raw.message ++ [0x0a]))))

/-- A file of rewritten lines. -/
def rewriteReflog (entries : List ReflogEntry) (hexLength : ℕ) : Except Thrown Bytes := do
  let lines ← entries.mapM (serializeReflogRewriteLineBytes · hexLength)
  pure lines.flatten

/-! ### Places -/

section

variable {α : Type} {text front rest : Text} {c : Char} {stop i : ℕ}

theorem lastIndexBefore_some (h : lastIndexBefore text c stop = some i) :
    i < stop ∧ text[i]? = some c ∧ ∀ j, i < j → j < stop → text[j]? ≠ some c := by
  induction stop with
  | zero => cases h
  | succ stop ih =>
    rw [lastIndexBefore] at h
    split_ifs at h with hhere
    · cases h
      exact ⟨Nat.lt_succ_self _, hhere, fun j hlower hupper => absurd hlower (by omega)⟩
    · obtain ⟨hlt, hchar, hnone⟩ := ih h
      refine ⟨by omega, hchar, fun j hlower hupper => ?_⟩
      rcases Nat.lt_succ_iff_lt_or_eq.mp hupper with hlt' | rfl
      · exact hnone j hlower hlt'
      · exact hhere

theorem lastIndexBefore_none (h : lastIndexBefore text c stop = none) :
    ∀ j < stop, text[j]? ≠ some c := by
  induction stop with
  | zero => exact fun j hj => absurd hj (Nat.not_lt_zero j)
  | succ stop ih =>
    rw [lastIndexBefore] at h
    split_ifs at h with hhere
    intro j hj
    rcases Nat.lt_succ_iff_lt_or_eq.mp hj with hlt | rfl
    · exact ih h j hlt
    · exact hhere

theorem lastIndexBefore_eq (hi : i < stop) (hchar : text[i]? = some c)
    (hlast : ∀ j, i < j → j < stop → text[j]? ≠ some c) : lastIndexBefore text c stop = some i := by
  induction stop with
  | zero => omega
  | succ stop ih =>
    rw [lastIndexBefore]
    rcases Nat.lt_succ_iff_lt_or_eq.mp hi with hlt | rfl
    · rw [if_neg (hlast stop hlt (Nat.lt_succ_self _))]
      exact ih hlt fun j hlower hupper => hlast j hlower (by omega)
    · exact if_pos hchar

theorem cut_at (h : text[i]? = some c) : text = text.take i ++ c :: text.drop (i + 1) := by
  obtain ⟨hi, hget⟩ := List.getElem?_eq_some_iff.mp h
  conv_lhs => rw [← take_append_drop i text, drop_eq_getElem_cons hi, hget]

theorem not_mem_drop (h : ∀ j, i < j → j < text.length → text[j]? ≠ some c) :
    c ∉ text.drop (i + 1) := by
  intro hmem
  obtain ⟨k, hk⟩ := mem_iff_getElem?.mp hmem
  rw [getElem?_drop] at hk
  obtain ⟨hlt, -⟩ := List.getElem?_eq_some_iff.mp hk
  exact h (i + 1 + k) (by omega) hlt hk

theorem idxOf?_append_cons (h : c ∉ front) : (front ++ c :: rest).idxOf? c = some front.length := by
  induction front with
  | nil => rw [nil_append, idxOf?_cons, if_pos (beq_self_eq_true c), length_nil]
  | cons first front ih =>
    obtain ⟨hfirst, hfront⟩ := not_or.mp fun hor => h (mem_cons.mpr hor)
    rw [cons_append, idxOf?_cons, if_neg (fun heq => hfirst (beq_iff_eq.mp heq).symm),
      ih hfront, length_cons]
    rfl

theorem metaOf_message (h : '\t' ∉ front) : metaOf (front ++ '\t' :: rest) = front := by
  rw [metaOf, idxOf?_append_cons h]
  exact take_left

theorem messageOf_message (h : '\t' ∉ front) : messageOf (front ++ '\t' :: rest) = rest := by
  rw [messageOf, idxOf?_append_cons h]
  dsimp only
  rw [← drop_drop, drop_left]
  rfl

theorem metaOf_alone (h : '\t' ∉ text) : metaOf text = text := by
  rw [metaOf, idxOf?_eq_none_iff.mpr h]

theorem messageOf_alone (h : '\t' ∉ text) : messageOf text = [] := by
  rw [messageOf, idxOf?_eq_none_iff.mpr h]

end

/-! ### Behind the address -/

section

variable {tail zone : Text} {timestamp : ℤ}

def IsTail (isSpace : Char → Bool) (tail : Text) (timestamp : ℤ) (zone : Text) : Prop :=
  ∃ before number between after, tail = before ++ (number ++ (between ++ (zone ++ after))) ∧
    (∀ c ∈ before, isSpace c = true) ∧ IsWord number ∧ between ≠ [] ∧
    (∀ c ∈ between, isSpace c = true) ∧ (∀ c, after.head? = some c → isSpace c = true) ∧
    (numberOf number).bind safeInteger = some timestamp ∧ isTimezoneOffset zone = true

theorem splitWhitespace_eq (text : Text) : splitWhitespace text =
    text.takeWhile (! isWhitespace ·) ::
      (if text.dropWhile (! isWhitespace ·) = [] then []
      else splitWhitespace
        ((text.dropWhile (! isWhitespace ·)).tail.dropWhile isWhitespace)) := by
  rw [splitWhitespace]
  split
  · next h => rw [if_pos h]
  · next h =>
    rw [if_neg (by rw [h]; exact cons_ne_nil _ _), h, tail_cons]

theorem head_dropWhile {p : Char → Bool} {text rest : Text} {c : Char}
    (h : text.dropWhile p = c :: rest) : p c = false := by
  have hhead := head?_dropWhile_not p text
  rw [h] at hhead
  exact hhead

theorem trim_spec (text : Text) : ∃ before after, text = before ++ (trim text ++ after) ∧
    (∀ c ∈ before, isWhitespace c = true) ∧ (∀ c ∈ after, isWhitespace c = true) ∧
    ∀ c, (trim text).head? = some c → isWhitespace c = false := by
  obtain ⟨middle, hmiddle⟩ : ∃ middle, middle = text.dropWhile isWhitespace := ⟨_, rfl⟩
  have hback : middle = trim text ++ (middle.reverse.takeWhile isWhitespace).reverse := by
    rw [trim, ← hmiddle, ← reverse_append, takeWhile_append_dropWhile, reverse_reverse]
  refine ⟨text.takeWhile isWhitespace, (middle.reverse.takeWhile isWhitespace).reverse, ?_,
    fun c hc => mem_takeWhile_imp hc,
    fun c hc => mem_takeWhile_imp (mem_reverse.mp hc), fun c hc => ?_⟩
  · rw [← hback, hmiddle, takeWhile_append_dropWhile]
  · obtain ⟨rest, hrest⟩ := head?_eq_some_iff.mp hc
    rw [hrest, cons_append, hmiddle] at hback
    exact head_dropWhile hback

/-- Space around two words goes, but for what ends it behind them. -/
theorem trim_append {before word middle word' after : Text}
    (hbefore : ∀ c ∈ before, isWhitespace c = true) (hword : IsWord word) (hword' : IsWord word') :
    ∃ left, trim (before ++ (word ++ (middle ++ (word' ++ after)))) =
      word ++ (middle ++ (word' ++ left)) ∧ left <+: after := by
  have hdrop : (before ++ (word ++ (middle ++ (word' ++ after)))).dropWhile isWhitespace =
      word ++ (middle ++ (word' ++ after)) := by
    rw [dropWhile_append_of_pos hbefore, hword.dropWhile_append]
  have hback : (word ++ (middle ++ (word' ++ after))).reverse.dropWhile isWhitespace =
      after.reverse.dropWhile isWhitespace ++ (word ++ (middle ++ word')).reverse := by
    have hshape : (word ++ (middle ++ (word' ++ after))).reverse =
        after.reverse ++ (word ++ (middle ++ word')).reverse := by
      rw [← reverse_append, append_assoc, append_assoc]
    have hend : (word ++ (middle ++ word')).reverse.dropWhile isWhitespace =
        (word ++ (middle ++ word')).reverse := by
      rw [reverse_append, reverse_append, append_assoc]
      exact hword'.reverse.dropWhile_append
    rw [hshape, List.dropWhile_append]
    split_ifs with hempty
    · rw [hend, List.isEmpty_iff.mp hempty, nil_append]
    · rfl
  refine ⟨(after.reverse.dropWhile isWhitespace).reverse, ?_, ?_⟩
  · rw [trim, hdrop, hback, reverse_append, reverse_reverse, append_assoc, append_assoc]
  · have hsuffix := dropWhile_suffix isWhitespace (l := after.reverse)
    exact reverse_suffix.mp (by rwa [reverse_reverse])

/-- **What stands behind the address**, as its first two words. -/
theorem splitWhitespace_trim_iff : IsTail isWhitespace tail timestamp zone ↔
    ∃ part rest, splitWhitespace (trim tail) = part :: zone :: rest ∧
      (numberOf part).bind safeInteger = some timestamp ∧ isTimezoneOffset zone = true := by
  constructor
  · rintro ⟨before, number, between, after, rfl, hbefore, hnumber, hne, hbetween, hafter, hvalue,
      hzone⟩
    have hzoneWord := isWord_timezone hzone
    obtain ⟨left, htrim, hleft⟩ := @trim_append _ _ between _ after hbefore hnumber hzoneWord
    have hleftHead : ∀ c, left.head? = some c → isWhitespace c = true := by
      intro c hc
      obtain ⟨rest, rfl⟩ := head?_eq_some_iff.mp hc
      obtain ⟨more, rfl⟩ := hleft
      exact hafter c rfl
    obtain ⟨space, spaces, rfl⟩ := exists_cons_of_ne_nil hne
    obtain ⟨hspace, hspaces⟩ := forall_mem_cons.mp hbetween
    have hfirst := @takeWhile_word_append _ (space :: spaces ++ (zone ++ left)) hnumber
      fun c hc => by cases hc; exact hspace
    have hsecond := takeWhile_word_append hzoneWord hleftHead
    have hsplit := splitWhitespace_eq (number ++ (space :: spaces ++ (zone ++ left)))
    rw [hfirst.1, hfirst.2, cons_append, if_neg (cons_ne_nil _ _), tail_cons,
      dropWhile_append_of_pos hspaces, hzoneWord.dropWhile_append,
      splitWhitespace_eq (zone ++ left), hsecond.1] at hsplit
    rw [htrim]
    exact ⟨number, _, hsplit, hvalue, hzone⟩
  · rintro ⟨part, rest, hsplit, hvalue, hzone⟩
    obtain ⟨before, after, htail, hbefore, hafter, hhead⟩ := trim_spec tail
    rw [splitWhitespace_eq] at hsplit
    obtain ⟨hpart, hmore⟩ := cons.inj hsplit
    split_ifs at hmore with hnone
    obtain ⟨space, spaces, hspaces⟩ := exists_cons_of_ne_nil hnone
    rw [hspaces, tail_cons, splitWhitespace_eq] at hmore
    obtain ⟨hzoneEq, -⟩ := cons.inj hmore
    have hspace : isWhitespace space = true := (Bool.not_eq_false' _).mp (head_dropWhile hspaces)
    have hshape : trim tail = part ++ space :: (spaces.takeWhile isWhitespace ++ (zone ++
        (spaces.dropWhile isWhitespace).dropWhile (! isWhitespace ·))) := by
      rw [← hzoneEq, takeWhile_append_dropWhile, takeWhile_append_dropWhile, ← hspaces,
        ← hpart, takeWhile_append_dropWhile]
    refine ⟨before, part, space :: spaces.takeWhile isWhitespace,
      (spaces.dropWhile isWhitespace).dropWhile (! isWhitespace ·) ++ after, ?_, hbefore,
      ⟨?_, ?_⟩, cons_ne_nil _ _, ?_, ?_, hvalue, hzone⟩
    · rw [htail, hshape]
      simp only [append_assoc, cons_append]
    · rintro rfl
      rw [hshape] at hhead
      rw [hhead space rfl] at hspace
      cases hspace
    · intro c hc
      rw [← hpart] at hc
      have hnot := @mem_takeWhile_imp _ (! isWhitespace ·) _ _ hc
      exact (Bool.not_eq_true' _).mp hnot
    · intro c hc
      rcases mem_cons.mp hc with rfl | hc
      · exact hspace
      · exact mem_takeWhile_imp hc
    · intro c hc
      cases hrest : (spaces.dropWhile isWhitespace).dropWhile (! isWhitespace ·) with
      | nil =>
        rw [hrest, nil_append] at hc
        exact hafter c (mem_of_mem_head? hc)
      | cons other others =>
        rw [hrest] at hc
        cases hc
        exact (Bool.not_eq_false' _).mp (head_dropWhile hrest)

end

/-! ### The grammar -/

section

variable {hexLength : ℕ}

theorem getElem?_append_length (front : Text) (c : Char) (rest : Text) :
    (front ++ c :: rest)[front.length]? = some c := by
  rw [getElem?_append_right (Nat.le_refl _), Nat.sub_self, getElem?_cons_zero]

theorem lastClose_eq {rawName email tail : Text} (htail : '>' ∉ tail) :
    lastIndexOf (rawName ++ '<' :: (email ++ '>' :: tail)) '>' =
      some (rawName.length + (email.length + 1)) := by
  have hshape : rawName ++ '<' :: (email ++ '>' :: tail) =
      (rawName ++ '<' :: email) ++ '>' :: tail := by
    rw [append_assoc, cons_append]
  rw [hshape, lastIndexOf_append htail, length_append, length_cons]

theorem lastOpen_eq {rawName email tail : Text} (hemail : '<' ∉ email) :
    lastIndexOfUpTo (rawName ++ '<' :: (email ++ '>' :: tail)) '<'
      (rawName.length + (email.length + 1)) = some rawName.length := by
  refine lastIndexBefore_eq (by omega) ?_ fun j hlower hupper hchar => ?_
  · rw [getElem?_append_right (Nat.le_refl _), Nat.sub_self, getElem?_cons_zero]
  obtain ⟨k, rfl⟩ : ∃ k, j = rawName.length + (k + 1) := ⟨j - rawName.length - 1, by omega⟩
  rw [getElem?_append_right (Nat.le_add_right _ _), Nat.add_sub_cancel_left,
    getElem?_cons_succ] at hchar
  rcases Nat.lt_or_ge k email.length with hlt | hge
  · rw [getElem?_append_left hlt] at hchar
    exact hemail (mem_of_getElem? hchar)
  · obtain rfl : k = email.length := by omega
    rw [getElem?_append_right (Nat.le_refl _), Nat.sub_self, getElem?_cons_zero] at hchar
    cases hchar

/-- **The identities that are read**: the last address, and a tail. -/
theorem parseIdentity_iff {region : Text} {identity : AuthorIdentity} :
    parseIdentity region = .ok identity ↔
      ∃ rawName email tail, region = rawName ++ '<' :: (email ++ '>' :: tail) ∧ '<' ∉ email ∧
        '>' ∉ tail ∧ identity.name = nameOf rawName ∧ identity.email = email ∧
        IsTail isWhitespace tail identity.timestamp identity.timezoneOffset := by
  constructor
  · intro h
    unfold parseIdentity invalidIdentity at h
    cases hclose : lastIndexOf region '>' with
    | none =>
      rw [hclose] at h
      cases h
    | some i =>
      rw [hclose] at h
      dsimp only at h
      cases hopen : lastIndexOfUpTo region '<' i with
      | none =>
        rw [hopen] at h
        cases h
      | some j =>
        rw [hopen] at h
        dsimp only at h
        obtain ⟨-, hcharI, hlastI⟩ := lastIndexBefore_some hclose
        obtain ⟨hj, hcharJ, hlastJ⟩ := lastIndexBefore_some hopen
        have hlt : j < i := by
          rcases Nat.lt_succ_iff_lt_or_eq.mp hj with hlt | rfl
          · exact hlt
          · rw [hcharI] at hcharJ
            cases hcharJ
        have hfront : (region.take i)[j]? = some '<' := by
          rw [getElem?_take_of_lt hlt, hcharJ]
        have hemail : subarray region (j + 1) i = (region.take i).drop (j + 1) :=
          drop_take.symm
        have hname : (region.take i).take j = region.take j := by
          rw [take_take, Nat.min_eq_left hlt.le]
        have hshape : region = region.take j ++ '<' :: (subarray region (j + 1) i ++
            '>' :: region.drop (i + 1)) := by
          conv_lhs => rw [cut_at hcharI, cut_at hfront]
          rw [hemail, hname, append_assoc, cons_append]
        have hemailOut : '<' ∉ subarray region (j + 1) i := by
          rw [hemail]
          refine not_mem_drop fun k hlower hupper => ?_
          rw [length_take] at hupper
          rw [getElem?_take_of_lt (by omega)]
          exact hlastJ k hlower (by omega)
        refine ⟨region.take j, subarray region (j + 1) i, region.drop (i + 1), hshape,
          hemailOut, not_mem_drop hlastI, ?_⟩
        cases hsplit : splitWhitespace (trim (region.drop (i + 1))) with
        | nil =>
          rw [hsplit] at h
          cases h
        | cons part parts =>
          rw [hsplit] at h
          cases parts with
          | nil => cases h
          | cons zone rest =>
            dsimp only at h
            cases hvalue : (numberOf part).bind safeInteger with
            | none =>
              rw [hvalue] at h
              cases h
            | some timestamp =>
              rw [hvalue] at h
              dsimp only at h
              by_cases hzone : isTimezoneOffset zone = true
              · rw [if_neg (not_not_intro hzone)] at h
                cases h
                exact ⟨rfl, rfl, splitWhitespace_trim_iff.mpr
                  ⟨part, rest, hsplit, hvalue, hzone⟩⟩
              · rw [if_pos hzone] at h
                cases h
  · rintro ⟨rawName, email, tail, rfl, hemail, htail, hname, hemailEq, htimes⟩
    obtain ⟨name, email', timestamp, zone⟩ := identity
    dsimp only at hname hemailEq htimes
    subst hname hemailEq
    obtain ⟨part, rest, hsplit, hvalue, hzone⟩ := splitWhitespace_trim_iff.mp htimes
    have hclose := @lastClose_eq rawName email' tail htail
    have hopen := @lastOpen_eq rawName email' tail hemail
    have hrawName : (rawName ++ '<' :: (email' ++ '>' :: tail)).take rawName.length = rawName :=
      take_left
    have hdrop : (rawName ++ '<' :: (email' ++ '>' :: tail)).drop (rawName.length + 1) =
        email' ++ '>' :: tail := by
      rw [← drop_drop, drop_left]
      rfl
    have hsub : subarray (rawName ++ '<' :: (email' ++ '>' :: tail)) (rawName.length + 1)
        (rawName.length + (email'.length + 1)) = email' := by
      have hwidth : rawName.length + (email'.length + 1) - (rawName.length + 1) =
          email'.length := by omega
      rw [subarray, hdrop, hwidth, take_left]
    have hafter : (rawName ++ '<' :: (email' ++ '>' :: tail)).drop
        (rawName.length + (email'.length + 1) + 1) = tail := by
      have hplace : rawName.length + (email'.length + 1) + 1 =
          rawName.length + 1 + (email'.length + 1) := by omega
      rw [hplace, ← drop_drop, hdrop, ← drop_drop, drop_left]
      rfl
    unfold parseIdentity
    rw [hclose]
    dsimp only
    rw [hopen]
    dsimp only
    rw [hrawName, hsub, hafter, hsplit]
    dsimp only
    rw [hvalue]
    dsimp only
    rw [if_neg (not_not_intro hzone)]
    rfl

/-- The parts of a line. -/
structure LineParts where
  oldId : Text
  newId : Text
  rawName : Text
  email : Text
  tail : Text
  message : Option Text

def LineParts.identity (p : LineParts) : Text :=
  p.rawName ++ '<' :: (p.email ++ '>' :: p.tail)

def LineParts.front (p : LineParts) : Text :=
  p.oldId ++ ' ' :: (p.newId ++ ' ' :: p.identity)

def LineParts.line (p : LineParts) : Text := p.front ++ (p.message.elim [] ('\t' :: ·))

def LineParts.entry (p : LineParts) (timestamp : ℤ) (zone : Text) : ReflogEntry :=
  ⟨p.oldId, p.newId, ⟨nameOf p.rawName, p.email, timestamp, zone⟩, p.message.getD [], none⟩

/-- The parts of a line that is read, with a notion of space. -/
structure LineParts.Good (isSpace : Char → Bool) (hexLength : ℕ) (p : LineParts) (timestamp : ℤ)
    (zone : Text) : Prop where
  oldId : IsObjectId p.oldId
  newId : IsObjectId p.newId
  oldWidth : p.oldId.length = hexLength
  newWidth : p.newId.length = hexLength
  email : '<' ∉ p.email
  tail : '>' ∉ p.tail
  noTab : '\t' ∉ p.front
  times : IsTail isSpace p.tail timestamp zone
  nonzero : timestamp ≠ 0

variable {p : LineParts}

theorem LineParts.drop_front (hold : p.oldId.length = hexLength) :
    p.front.drop (hexLength + 1) = p.newId ++ ' ' :: p.identity := by
  rw [← drop_drop, ← hold, LineParts.front, drop_left]
  rfl

theorem LineParts.drop_front_identity (hold : p.oldId.length = hexLength)
    (hnew : p.newId.length = hexLength) :
    p.front.drop (hexLength + 1 + hexLength + 1) = p.identity := by
  rw [Nat.add_assoc (hexLength + 1), ← drop_drop, LineParts.drop_front hold, ← drop_drop]
  conv_lhs => rw [← hnew, drop_left]
  rfl

theorem LineParts.separators (hold : p.oldId.length = hexLength)
    (hnew : p.newId.length = hexLength) :
    p.line[hexLength]? = some ' ' ∧ p.line[2 * hexLength + 1]? = some ' ' := by
  constructor
  · rw [LineParts.line, LineParts.front, append_assoc, ← hold]
    exact getElem?_append_length _ _ _
  have hplace : 2 * hexLength + 1 = (p.oldId ++ ' ' :: p.newId).length := by
    rw [length_append, length_cons]
    omega
  have hshape : p.line = (p.oldId ++ ' ' :: p.newId) ++
      ' ' :: (p.identity ++ p.message.elim [] ('\t' :: ·)) := by
    rw [LineParts.line, LineParts.front]
    simp only [append_assoc, cons_append]
  rw [hplace, hshape]
  exact getElem?_append_length _ _ _

theorem LineParts.metaOf_line (h : '\t' ∉ p.front) : metaOf p.line = p.front := by
  rw [LineParts.line]
  cases p.message with
  | none =>
    rw [Option.elim_none, append_nil]
    exact metaOf_alone h
  | some message => exact metaOf_message h

theorem LineParts.messageOf_line (h : '\t' ∉ p.front) :
    messageOf p.line = p.message.getD [] := by
  rw [LineParts.line]
  cases p.message with
  | none =>
    rw [Option.elim_none, append_nil]
    exact messageOf_alone h
  | some message => exact messageOf_message h

theorem exists_meta (line : Text) : ∃ message : Option Text,
    line = metaOf line ++ (message.elim [] ('\t' :: ·)) ∧ '\t' ∉ metaOf line ∧
      messageOf line = message.getD [] := by
  by_cases htab : '\t' ∈ line
  · obtain ⟨front, rest, rfl, hfront⟩ := eq_append_cons_of_mem htab
    rw [metaOf_message hfront, messageOf_message hfront]
    exact ⟨some rest, rfl, hfront, rfl⟩
  · rw [metaOf_alone htab, messageOf_alone htab]
    exact ⟨none, (append_nil line).symm, htab, rfl⟩

theorem parseOid_ok {hex id : Text} (h : parseOid hex = .ok id) : IsObjectId hex ∧ hex = id := by
  unfold parseOid objectIdFrom invalidReflogEntry at h
  by_cases hvalid : (hex.length = 40 ∨ hex.length = 64) ∧ hex.all isHexDigit = true
  · rw [if_pos hvalid] at h
    cases h
    exact ⟨⟨hvalid.1, all_eq_true.mp hvalid.2⟩, rfl⟩
  · rw [if_neg hvalid] at h
    cases h

theorem parseOid_id {id : Text} (h : IsObjectId id) : parseOid id = .ok id := by
  rw [parseOid, objectIdFrom, if_pos ⟨h.length_eq, all_eq_true.mpr h.digits⟩]

theorem parseReflogIdentity_ok {raw : Text} {identity : AuthorIdentity} :
    parseReflogIdentity raw = .ok identity ↔ parseIdentity raw = .ok identity := by
  unfold parseReflogIdentity invalidReflogEntry
  cases parseIdentity raw with
  | ok other => exact Iff.rfl
  | error thrown =>
    constructor
    · intro h
      cases h
    · intro h
      cases h

/-- **The lines that are read**, and as what. -/
theorem parseReflogLine_iff {line : Text} {entry : ReflogEntry} :
    parseReflogLine line hexLength = .ok entry ↔ ∃ p : LineParts, ∃ timestamp zone, line = p.line ∧
        p.Good isWhitespace hexLength timestamp zone ∧ entry = p.entry timestamp zone := by
  constructor
  · intro h
    obtain ⟨message, hline, htab, hmessage⟩ := exists_meta line
    obtain ⟨front, hfront⟩ : ∃ front, front = metaOf line := ⟨_, rfl⟩
    unfold parseReflogLine at h
    rw [← hfront, hmessage] at h
    dsimp only at h
    split_ifs at h with hspaces
    · cases h
    obtain ⟨hspace, hspace'⟩ := not_or.mp hspaces
    obtain ⟨oldId, hold, h⟩ := bind_eq_ok.mp h
    obtain ⟨newId, hnew, h⟩ := bind_eq_ok.mp h
    obtain ⟨identity, hidentity, h⟩ := bind_eq_ok.mp h
    obtain ⟨holdId, rfl⟩ := parseOid_ok hold
    obtain ⟨hnewId, rfl⟩ := parseOid_ok hnew
    obtain ⟨rawName, email, tail, hregion, hemail, htail, hname, hemailEq, htimes⟩ :=
      parseIdentity_iff.mp (parseReflogIdentity_ok.mp hidentity)
    split_ifs at h with hzero
    · cases h
    cases h
    have hcut := cut_at (not_not.mp hspace)
    have hplace : (front.drop (hexLength + 1))[hexLength]? = some ' ' := by
      rw [getElem?_drop]
      exact not_not.mp hspace'
    have hnewEq : (front.drop (hexLength + 1)).take hexLength =
        subarray front (hexLength + 1) (hexLength + 1 + hexLength) := by
      rw [subarray, Nat.add_sub_cancel_left]
    have hcut' := cut_at hplace
    rw [hnewEq, drop_drop, ← Nat.add_assoc, hregion] at hcut'
    obtain ⟨hlt, -⟩ := List.getElem?_eq_some_iff.mp (not_not.mp hspace)
    obtain ⟨hlt', -⟩ := List.getElem?_eq_some_iff.mp (not_not.mp hspace')
    obtain ⟨name, email', timestamp, zone⟩ := identity
    dsimp only at hname hemailEq htimes hzero
    subst hname hemailEq
    have hpfront : LineParts.front ⟨front.take hexLength,
        subarray front (hexLength + 1) (hexLength + 1 + hexLength), rawName, email', tail,
          message⟩ = front := by
      rw [LineParts.front, LineParts.identity]
      dsimp only
      rw [← hcut', ← hcut]
    refine ⟨⟨front.take hexLength, subarray front (hexLength + 1) (hexLength + 1 + hexLength),
      rawName, email', tail, message⟩, timestamp, zone, ?_, ?_, rfl⟩
    · rw [LineParts.line, hpfront, hfront]
      exact hline
    refine ⟨holdId, hnewId, ?_, ?_, hemail, htail, ?_, htimes, hzero⟩
    · rw [length_take]
      omega
    · rw [length_subarray _ (by omega), Nat.add_sub_cancel_left]
    · rw [hpfront, hfront]
      exact htab
  · rintro ⟨p, timestamp, zone, rfl, hgood, rfl⟩
    have hold := hgood.oldWidth
    have hnew := hgood.newWidth
    have hspace : p.front[hexLength]? = some ' ' := by
      rw [← hold]
      exact getElem?_append_length _ _ _
    have hdrop := LineParts.drop_front hold
    have hspace' : p.front[hexLength + 1 + hexLength]? = some ' ' := by
      rw [← getElem?_drop, hdrop]
      conv_lhs => rw [← hnew]
      exact getElem?_append_length _ _ _
    have htake : p.front.take hexLength = p.oldId := by
      rw [← hold]
      exact take_left
    have hsub : subarray p.front (hexLength + 1) (hexLength + 1 + hexLength) = p.newId := by
      rw [subarray, hdrop, Nat.add_sub_cancel_left, ← hnew]
      exact take_left
    have hregion := LineParts.drop_front_identity hold hnew
    have hidentity : parseReflogIdentity p.identity =
        .ok ⟨nameOf p.rawName, p.email, timestamp, zone⟩ :=
      parseReflogIdentity_ok.mpr (parseIdentity_iff.mpr
        ⟨p.rawName, p.email, p.tail, rfl, hgood.email, hgood.tail, rfl, rfl, hgood.times⟩)
    unfold parseReflogLine
    rw [LineParts.metaOf_line hgood.noTab, LineParts.messageOf_line hgood.noTab]
    dsimp only
    rw [if_neg (not_or.mpr ⟨not_not_intro hspace, not_not_intro hspace'⟩), htake,
      ok_bind_eq (parseOid_id hgood.oldId), hsub, ok_bind_eq (parseOid_id hgood.newId), hregion,
      ok_bind_eq hidentity]
    exact if_neg hgood.nonzero

end

end Tsgit.Reflog
