import Tsgit.RebaseTodo

/-!
# The Files of a Stopped Operation

`src/domain/sequencer/todo.ts` and `src/domain/rebase/author-script.ts`: the list of what a stopped
cherry-pick or revert has still to do, and who wrote the commit that a rebase stopped at.
-/

open List

namespace Tsgit.Sequencer

open Rebase (OneLine isInstruction isLineTerminator takeSolid)

/-! ### The list -/

inductive TodoCommand
  | pick | revert
  deriving DecidableEq

def TodoCommand.text : TodoCommand → Text
  | .pick => "pick".toList
  | .revert => "revert".toList

def TodoCommand.all : List TodoCommand := [.pick, .revert]

structure TodoEntry where
  command : TodoCommand
  oid : Text
  subject : Text
  deriving DecidableEq

/-- The line of an entry, without its end. -/
def todoText (entry : TodoEntry) : Text :=
  entry.command.text ++ ' ' :: (entry.oid ++ ' ' :: entry.subject)

def serializeTodo (entries : List TodoEntry) : Text :=
  entries.flatMap fun entry => todoText entry ++ ['\n']

def todoLine (line : Text) : Option TodoEntry :=
  TodoCommand.all.findSome? fun command => do
    let afterCommand ← line.dropPrefix? (command.text ++ [' '])
    let (oid, rest) ← takeSolid afterCommand
    let subject ← rest.dropPrefix? [' ']
    if subject.any isLineTerminator then none else some ⟨command, oid, subject⟩

def parseTodoLine (line : Text) : Except Thrown TodoEntry :=
  match todoLine line with
  | some entry => .ok entry
  | none => Rebase.invalidSequencerTodo line

def parseTodo (text : Text) : Except Thrown (List TodoEntry) :=
  ((text.splitOn '\n').filter isInstruction).mapM parseTodoLine

variable {entry : TodoEntry}

theorem todoText_eq (entry : TodoEntry) : todoText entry =
    (entry.command.text ++ [' ']) ++ (entry.oid ++ ' ' :: entry.subject) := by
  rw [append_assoc, singleton_append, todoText]

theorem isInstruction_todoText (entry : TodoEntry) : isInstruction (todoText entry) = true :=
  Rebase.isInstruction_append entry.command.text _ (by cases entry.command <;> decide)

theorem todoLine_todoText (hoid : IsWord entry.oid) :
    todoLine (todoText entry) = if OneLine entry.subject then some entry else none := by
  have hspace (c : Char) (hc : (' ' :: entry.subject).head? = some c) : isWhitespace c = true := by
    cases hc
    rfl
  have hsubject : (' ' :: entry.subject).dropPrefix? [' '] = some entry.subject :=
    Rebase.dropPrefix?_append [' '] entry.subject
  rw [todoLine, Rebase.findSome?_unique entry.command (by cases entry.command <;> decide) ?_]
  · rw [todoText_eq, Rebase.dropPrefix?_append, Option.bind_eq_bind, Option.bind_some,
      Rebase.takeSolid_append hoid hspace]
    refine (congrArg (Option.bind · _) hsubject).trans ?_
    by_cases h : OneLine entry.subject
    · rw [if_pos h]
      exact if_neg fun hany => Rebase.any_isLineTerminator.mp hany h
    · rw [if_neg h]
      exact if_pos (Rebase.any_isLineTerminator.mpr h)
  · intro other hne
    have hnone : (todoText entry).dropPrefix? (other.text ++ [' ']) = none := by
      rw [todoText]
      cases hcommand : entry.command <;> cases other <;>
        first | rfl | exact absurd hcommand.symm hne
    rw [hnone]
    rfl

theorem not_mem_todoText (hoid : IsWord entry.oid) (hsubject : '\n' ∉ entry.subject) :
    '\n' ∉ todoText entry := by
  have hcommand : '\n' ∉ entry.command.text ++ [' '] := by
    cases entry.command <;> decide
  rw [todoText_eq]
  intro hmem
  rcases mem_append.mp hmem with hmem | hmem
  · exact hcommand hmem
  · rcases mem_append.mp hmem with hmem | hmem
    · exact absurd (hoid.solid _ hmem) (by decide)
    · rcases mem_cons.mp hmem with heq | hmem
      · cases heq
      · exact hsubject hmem

variable {entries : List TodoEntry}

theorem parseTodo_serializeTodo
    (h : ∀ entry ∈ entries, '\n' ∉ todoText entry) :
    parseTodo (serializeTodo entries) = entries.mapM fun entry => parseTodoLine (todoText entry) := by
  have hlines : ((serializeTodo entries).splitOn '\n').filter isInstruction =
      entries.map todoText := by
    induction entries with
    | nil => rfl
    | cons entry entries ih =>
      obtain ⟨hentry, hothers⟩ := forall_mem_cons.mp h
      rw [serializeTodo, flatMap_cons, ← serializeTodo, append_assoc, singleton_append,
        splitOn_append_cons_self_of_not_mem hentry,
        filter_cons_of_pos (isInstruction_todoText entry), ih hothers, map_cons]
  rw [parseTodo, hlines, mapM_map]
  rfl

/-- **A list is read back** just when no subject ends a line for the pattern. -/
theorem parseTodo_iff
    (h : ∀ entry ∈ entries, IsWord entry.oid ∧ '\n' ∉ entry.subject) :
    parseTodo (serializeTodo entries) = .ok entries ↔
      ∀ entry ∈ entries, OneLine entry.subject := by
  rw [parseTodo_serializeTodo fun entry hmem => not_mem_todoText (h entry hmem).1 (h entry hmem).2]
  constructor
  · intro hread entry hmem
    obtain ⟨parsed, -, hparsed⟩ := (mapM_ok hread).2 entry hmem
    by_contra hsubject
    rw [parseTodoLine, todoLine_todoText (h entry hmem).1, if_neg hsubject] at hparsed
    cases hparsed
  · intro hsubjects
    have hread : ∀ entry ∈ entries, parseTodoLine (todoText entry) = .ok (id entry) := by
      intro entry hmem
      rw [parseTodoLine, todoLine_todoText (h entry hmem).1, if_pos (hsubjects entry hmem)]
      rfl
    rw [mapM_eq_ok hread, map_id]

theorem oneLine_iff {subject : Text} (h : '\n' ∉ subject) : OneLine subject ↔
    '\r' ∉ subject ∧ '\u2028' ∉ subject ∧ '\u2029' ∉ subject := by
  constructor
  · intro hline
    exact ⟨fun hmem => absurd (hline _ hmem) (by decide),
      fun hmem => absurd (hline _ hmem) (by decide), fun hmem => absurd (hline _ hmem) (by decide)⟩
  rintro ⟨hreturn, hline, hparagraph⟩ c hmem
  refine Bool.eq_false_iff.mpr fun hend => ?_
  simp only [isLineTerminator, contains_eq_mem, mem_cons, not_mem_nil, or_false,
    decide_eq_true_eq] at hend
  have hchar {d : Char} (hd : c.toNat = d.toNat) : d ∈ subject := Char.toNat_inj.mp hd ▸ hmem
  rcases hend with hc | hc | hc | hc
  · exact h (hchar hc)
  · exact hreturn (hchar hc)
  · exact hline (hchar hc)
  · exact hparagraph (hchar hc)

/-! ### Quotes -/

/-- `replaceAll`: the occurrences of a mark from the left, past so many characters. -/
def replaceFrom (mark replacement : Text) : ℕ → Text → Text
  | _, [] => []
  | skip + 1, _ :: rest => replaceFrom mark replacement skip rest
  | 0, c :: rest =>
    if mark.isPrefixOf (c :: rest) then replacement ++ replaceFrom mark replacement (mark.length - 1) rest
    else c :: replaceFrom mark replacement 0 rest

def replaceAll (mark replacement text : Text) : Text := replaceFrom mark replacement 0 text

def quotedQuote : Text := "'\\''".toList

def sqQuote (value : Text) : Text := '\'' :: (replaceAll ['\''] quotedQuote value ++ ['\''])

def unSqQuote (quoted : Text) : Text := replaceAll quotedQuote ['\''] (quoted.drop 1).dropLast

theorem replaceAll_quote (c : Char) (rest : Text) : replaceAll ['\''] quotedQuote (c :: rest) =
    (if c = '\'' then quotedQuote else [c]) ++ replaceAll ['\''] quotedQuote rest := by
  rw [replaceAll, replaceFrom]
  by_cases h : c = '\''
  · subst h
    rfl
  · have hne : isPrefixOf ['\''] (c :: rest) = false := by
      rw [isPrefixOf, beq_false_of_ne (Ne.symm h), Bool.false_and]
    rw [hne, if_neg h]
    rfl

/-- The occurrences that the reader finds are those that the writer put. -/
theorem replaceAll_replaceAll (value : Text) :
    replaceAll quotedQuote ['\''] (replaceAll ['\''] quotedQuote value) = value := by
  induction value with
  | nil => rfl
  | cons c rest ih =>
    rw [replaceAll_quote]
    by_cases h : c = '\''
    · subst h
      exact congrArg (cons '\'') ih
    have hne : quotedQuote.isPrefixOf (c :: replaceAll ['\''] quotedQuote rest) = false := by
      rw [quotedQuote]
      change ('\'' == c && _) = false
      rw [beq_false_of_ne (Ne.symm h), Bool.false_and]
    rw [if_neg h, singleton_append, replaceAll, replaceFrom, hne]
    exact congrArg (cons c) ih

theorem unSqQuote_sqQuote (value : Text) : unSqQuote (sqQuote value) = value := by
  rw [unSqQuote, sqQuote, drop_one, tail_cons, dropLast_concat, replaceAll_replaceAll]

theorem mem_replaceAll_quote {value : Text} {c : Char}
    (h : c ∈ replaceAll ['\''] quotedQuote value) : c ∈ value ∨ c ∈ quotedQuote := by
  induction value with
  | nil => cases h
  | cons d rest ih =>
    rw [replaceAll_quote, mem_append] at h
    rcases h with h | h
    · split_ifs at h with hd
      · exact .inr h
      · exact .inl (mem_cons.mpr (.inl (mem_singleton.mp h)))
    · exact (ih h).imp (mem_cons_of_mem d) id

/-! ### The script of an author -/

/-- The line of a key, without its end. -/
def scriptLine (key value : Text) : Text := key ++ '=' :: sqQuote value

def nameKey : Text := "GIT_AUTHOR_NAME".toList

def emailKey : Text := "GIT_AUTHOR_EMAIL".toList

def dateKey : Text := "GIT_AUTHOR_DATE".toList

def scriptDate (identity : AuthorIdentity) : Text :=
  '@' :: (decimalText identity.timestamp ++ ' ' :: identity.timezoneOffset)

def serializeAuthorScript (identity : AuthorIdentity) : Text :=
  scriptLine nameKey identity.name ++ ['\n'] ++
    (scriptLine emailKey identity.email ++ ['\n'] ++
      (scriptLine dateKey (scriptDate identity) ++ ['\n']))

def readValue (lines : List Text) (key : Text) : Except Thrown Text :=
  match lines.find? fun line => (key ++ ['=']).isPrefixOf line with
  | none => invalidIdentity key "missing author-script key"
  | some line =>
    let quoted := line.drop (key ++ ['=']).length
    if quoted.length < 2 ∨ quoted.head? ≠ some '\'' ∨ quoted.getLast? ≠ some '\'' then
      invalidIdentity line "author-script value is not single-quoted"
    else .ok (unSqQuote quoted)

def readDate (date : Text) : Except Thrown (ℤ × Text) :=
  if date.head? ≠ some '@' then
    invalidIdentity date "author-script date lacks the `@` prefix"
  else
    let parts := (date.drop 1).splitOn ' '
    match (numberOf (parts.headD [])).bind safeInteger with
    | none => invalidIdentity date "invalid author-script timestamp"
    | some timestamp =>
      match parts[1]? with
      | none => invalidIdentity date "invalid author-script timezone offset"
      | some timezoneOffset =>
        if ¬ isTimezoneOffset timezoneOffset then
          invalidIdentity date "invalid author-script timezone offset"
        else .ok (timestamp, timezoneOffset)

def parseAuthorScript (text : Text) : Except Thrown AuthorIdentity := do
  let lines := text.splitOn '\n'
  let name ← readValue lines nameKey
  let email ← readValue lines emailKey
  let date ← readValue lines dateKey
  let (timestamp, timezoneOffset) ← readDate date
  return ⟨name, email, timestamp, timezoneOffset⟩

theorem readValue_eq {lines : List Text} {key value : Text}
    (h : lines.find? (fun line => (key ++ ['=']).isPrefixOf line) =
      some (scriptLine key value)) : readValue lines key = .ok value := by
  have hquoted : (scriptLine key value).drop (key ++ ['=']).length = sqQuote value := by
    have hline : scriptLine key value = (key ++ ['=']) ++ sqQuote value := by
      rw [append_assoc, singleton_append, scriptLine]
    rw [hline, drop_left]
  have hlength : ¬ (sqQuote value).length < 2 := by
    rw [sqQuote, length_cons, length_append, length_singleton]
    omega
  have hlast : (sqQuote value).getLast? = some '\'' := by
    rw [sqQuote, ← cons_append, getLast?_concat]
  rw [readValue, h]
  dsimp only
  rw [hquoted, if_neg, unSqQuote_sqQuote]
  rintro (hshort | hhead | hother)
  · exact hlength hshort
  · exact hhead rfl
  · exact hother hlast

theorem readDate_scriptDate {identity : AuthorIdentity}
    (hsafe : |identity.timestamp| ≤ maxSafeInteger)
    (hzone : isTimezoneOffset identity.timezoneOffset = true) :
    readDate (scriptDate identity) = .ok (identity.timestamp, identity.timezoneOffset) := by
  have hspace {word : Text} (hword : IsWord word) : ' ' ∉ word := fun hmem =>
    absurd (hword.solid _ hmem) (by decide)
  have hparts : ((scriptDate identity).drop 1).splitOn ' ' =
      [decimalText identity.timestamp, identity.timezoneOffset] := by
    rw [scriptDate, drop_one, tail_cons, splitOn_append_cons_self_of_not_mem
      (hspace (isWord_decimalText _)), splitOn_eq_singleton (hspace (isWord_timezone hzone))]
  have htimestamp : (numberOf (decimalText identity.timestamp)).bind safeInteger =
      some identity.timestamp := by
    rw [numberOf_decimalText hsafe, Option.bind_some, safeInteger_int hsafe]
  have hat : ¬ (scriptDate identity).head? ≠ some '@' := not_not_intro rfl
  rw [readDate, if_neg hat, hparts]
  dsimp only
  rw [headD_cons, htimestamp]
  exact if_neg (not_not_intro hzone)

theorem not_mem_scriptLine {key value : Text} (hkey : '\n' ∉ key) (hvalue : '\n' ∉ value) :
    '\n' ∉ scriptLine key value := by
  intro hmem
  rcases mem_append.mp hmem with hmem | hmem
  · exact hkey hmem
  rw [mem_cons, sqQuote, mem_cons, mem_append, mem_singleton] at hmem
  rcases hmem with heq | heq | hmem | heq
  · cases heq
  · cases heq
  · exact (mem_replaceAll_quote hmem).elim hvalue (by decide)
  · cases heq

/-- **An author is read back**, whatever quotes the name holds. -/
theorem parseAuthorScript_serializeAuthorScript {identity : AuthorIdentity}
    (hname : '\n' ∉ identity.name) (hemail : '\n' ∉ identity.email)
    (hsafe : |identity.timestamp| ≤ maxSafeInteger)
    (hzone : isTimezoneOffset identity.timezoneOffset = true) :
    parseAuthorScript (serializeAuthorScript identity) = .ok identity := by
  have hdate : '\n' ∉ scriptDate identity := by
    intro hmem
    rcases mem_cons.mp hmem with heq | hmem
    · cases heq
    · rcases mem_append.mp hmem with hmem | hmem
      · exact (isNumeral_of_mem_decimalText hmem).solid.2.1 rfl
      · rcases mem_cons.mp hmem with heq | hmem
        · cases heq
        · exact (isNumeral_of_mem_timezone hzone hmem).solid.2.1 rfl
  have hlines : (serializeAuthorScript identity).splitOn '\n' =
      [scriptLine nameKey identity.name, scriptLine emailKey identity.email,
        scriptLine dateKey (scriptDate identity), []] := by
    simp only [serializeAuthorScript, append_assoc, singleton_append]
    rw [splitOn_append_cons_self_of_not_mem (not_mem_scriptLine (by decide) hname),
      splitOn_append_cons_self_of_not_mem (not_mem_scriptLine (by decide) hemail),
      splitOn_append_cons_self_of_not_mem (not_mem_scriptLine (by decide) hdate), splitOn_nil]
  rw [parseAuthorScript, hlines, @readValue_eq _ _ identity.name rfl,
    @readValue_eq _ _ identity.email rfl, @readValue_eq _ _ (scriptDate identity) rfl]
  change (readDate (scriptDate identity) >>= _) = _
  rw [readDate_scriptDate hsafe hzone]
  rfl

/-! ### What a stopped operation leaves -/

/-- **The files of a stopped operation** are read back: the list just when `.` takes every subject,
the author always. -/
theorem stoppedFiles_exact {entries : List TodoEntry} {identity : AuthorIdentity}
    (hentries : ∀ entry ∈ entries, IsWord entry.oid ∧ '\n' ∉ entry.subject)
    (hname : '\n' ∉ identity.name) (hemail : '\n' ∉ identity.email)
    (hsafe : |identity.timestamp| ≤ maxSafeInteger)
    (hzone : isTimezoneOffset identity.timezoneOffset = true) :
    (parseTodo (serializeTodo entries) = .ok entries ↔ ∀ entry ∈ entries,
      '\r' ∉ entry.subject ∧ '\u2028' ∉ entry.subject ∧ '\u2029' ∉ entry.subject) ∧
    parseAuthorScript (serializeAuthorScript identity) = .ok identity := by
  refine ⟨(parseTodo_iff hentries).trans ?_,
    parseAuthorScript_serializeAuthorScript hname hemail hsafe hzone⟩
  exact forall₂_congr fun entry hmem => oneLine_iff (hentries entry hmem).2

/-- A list and an author that are read back. -/
theorem stoppedFiles_exact_quoted :
    parseTodo (serializeTodo [⟨.revert, "a1".toList, "it's  ".toList⟩]) =
        .ok [⟨.revert, "a1".toList, "it's  ".toList⟩] ∧
      parseAuthorScript (serializeAuthorScript
        ⟨"O'Neil \\".toList, "o@x".toList, -5, "+0130".toList⟩) =
          .ok ⟨"O'Neil \\".toList, "o@x".toList, -5, "+0130".toList⟩ := by
  have hexact := @stoppedFiles_exact [⟨.revert, "a1".toList, "it's  ".toList⟩]
    ⟨"O'Neil \\".toList, "o@x".toList, -5, "+0130".toList⟩
    (forall_mem_singleton.mpr ⟨isWord_of_all (by decide) (by decide), by decide⟩)
    (by decide) (by decide) (by decide) (by decide)
  exact ⟨hexact.1.mpr (forall_mem_singleton.mpr ⟨by decide, by decide, by decide⟩), hexact.2⟩

/-- A subject that ends in a carriage return stops the reader. -/
theorem parseTodo_carriageReturn :
    '\n' ∉ "a\r".toList ∧
      parseTodo (serializeTodo [⟨.pick, "a1".toList, "a\r".toList⟩]) ≠
        .ok [⟨.pick, "a1".toList, "a\r".toList⟩] := by
  decide

/-! ### What is read is written again -/

theorem todoLine_ok {line : Text} (h : todoLine line = some entry) :
    IsWord entry.oid ∧ OneLine entry.subject := by
  obtain ⟨command, -, hcommand⟩ := exists_of_findSome?_eq_some h
  obtain ⟨after, -, hafter⟩ := Option.bind_eq_some_iff.mp hcommand
  obtain ⟨⟨oid, rest⟩, hsolid, hrest⟩ := Option.bind_eq_some_iff.mp hafter
  obtain ⟨subject, -, hsubject⟩ := Option.bind_eq_some_iff.mp hrest
  split_ifs at hsubject with hline
  cases hsubject
  unfold takeSolid at hsolid
  dsimp only at hsolid
  split at hsolid
  · cases hsolid
  · next hempty =>
    cases hsolid
    refine ⟨⟨hempty, fun c hc => by simpa using mem_takeWhile_imp hc⟩, ?_⟩
    by_contra hnot
    exact hline (Rebase.any_isLineTerminator.mpr hnot)

theorem parseTodo_ok {text : Text} (h : parseTodo text = .ok entries) :
    ∀ entry ∈ entries, IsWord entry.oid ∧ OneLine entry.subject := by
  unfold parseTodo at h
  generalize (text.splitOn '\n').filter isInstruction = lines at h
  induction lines generalizing entries with
  | nil =>
    cases h
    exact forall_mem_nil _
  | cons line lines ih =>
    rw [mapM_cons] at h
    obtain ⟨entry, hline, h⟩ := bind_eq_ok.mp h
    obtain ⟨rest, hrest, h⟩ := bind_eq_ok.mp h
    cases h
    refine forall_mem_cons.mpr ⟨?_, ih hrest⟩
    unfold parseTodoLine at hline
    split at hline
    · next entry' hentry =>
      cases hline
      exact todoLine_ok hentry
    · cases hline

/-- **A list that is read** is written again, and read as it was: however often an operation is
stopped, the list stays the same. -/
theorem parseTodo_again {text : Text} {entries : List TodoEntry} (h : parseTodo text = .ok entries) :
    parseTodo (serializeTodo entries) = .ok entries := by
  have hentries := parseTodo_ok h
  refine (parseTodo_iff fun entry hmem => ⟨(hentries entry hmem).1, fun hend => ?_⟩).mpr
    fun entry hmem => (hentries entry hmem).2
  exact absurd ((hentries entry hmem).2 _ hend) (by decide)

/-- A list with a comment. -/
theorem parseTodo_again_pick :
    parseTodo (serializeTodo [⟨.pick, "a1".toList, "b".toList⟩]) =
      .ok [⟨.pick, "a1".toList, "b".toList⟩] :=
  @parseTodo_again "# c\npick a1 b\n".toList _ (by decide +kernel)

theorem mem_replaceFrom {mark replacement text : Text} {skip : ℕ} {c : Char}
    (h : c ∈ replaceFrom mark replacement skip text) : c ∈ text ∨ c ∈ replacement := by
  induction text generalizing skip with
  | nil => cases skip <;> cases h
  | cons d rest ih =>
    cases skip with
    | succ skip => exact (ih h).imp (mem_cons_of_mem d) id
    | zero =>
      rw [replaceFrom] at h
      split_ifs at h
      · exact (mem_append.mp h).elim .inr fun h => (ih h).imp (mem_cons_of_mem d) id
      · exact (mem_cons.mp h).elim (fun h => .inl (mem_cons.mpr (.inl h)))
          fun h => (ih h).imp (mem_cons_of_mem d) id

theorem readValue_ok {text key value : Text} (h : readValue (text.splitOn '\n') key = .ok value) :
    '\n' ∉ value := by
  unfold readValue at h
  split at h
  · cases h
  · next line hline =>
    dsimp only at h
    split at h
    · cases h
    cases h
    intro hmem
    rcases mem_replaceFrom hmem with hmem | hmem
    · exact not_mem_of_mem_splitOn (mem_of_find?_eq_some hline)
        (mem_of_mem_drop (mem_of_mem_drop (dropLast_subset _ hmem)))
    · exact absurd hmem (by decide)

theorem readDate_ok {date zone : Text} {timestamp : ℤ} (h : readDate date = .ok (timestamp, zone)) :
    |timestamp| ≤ maxSafeInteger ∧ isTimezoneOffset zone = true := by
  unfold readDate at h
  split at h
  · cases h
  dsimp only at h
  split at h
  · cases h
  next timestamp' htimestamp =>
  split at h
  · cases h
  split at h
  · cases h
  next hzone =>
  cases h
  obtain ⟨q, -, hsafe⟩ := Option.bind_eq_some_iff.mp htimestamp
  unfold safeInteger at hsafe
  split_ifs at hsafe with hinteger
  cases hsafe
  exact ⟨hinteger.2, not_not.mp hzone⟩

/-- **An author that is read**, however it is quoted, is written again, and read as it was. -/
theorem parseAuthorScript_again {text : Text} {identity : AuthorIdentity}
    (h : parseAuthorScript text = .ok identity) :
    parseAuthorScript (serializeAuthorScript identity) = .ok identity := by
  obtain ⟨name, hname, h⟩ := bind_eq_ok.mp h
  obtain ⟨email, hemail, h⟩ := bind_eq_ok.mp h
  obtain ⟨date, hdate, h⟩ := bind_eq_ok.mp h
  obtain ⟨⟨timestamp, zone⟩, hmoment, h⟩ := bind_eq_ok.mp h
  cases h
  obtain ⟨hsafe, hzone⟩ := readDate_ok hmoment
  exact parseAuthorScript_serializeAuthorScript (readValue_ok hname) (readValue_ok hemail) hsafe hzone

/-- The keys in another order. -/
theorem parseAuthorScript_again_swapped :
    parseAuthorScript (serializeAuthorScript ⟨['a'], [], 1, "+0000".toList⟩) =
      .ok ⟨['a'], [], 1, "+0000".toList⟩ :=
  @parseAuthorScript_again ("GIT_AUTHOR_DATE='@1 +0000'\nGIT_AUTHOR_EMAIL=''\n".toList ++
    "GIT_AUTHOR_NAME='a'".toList) _ (by decide +kernel)

end Tsgit.Sequencer
