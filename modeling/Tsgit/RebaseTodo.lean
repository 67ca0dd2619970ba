import Tsgit.Commit
import Tsgit.Outcome

/-!
# Rebase Todo Lists

The grammar of `src/domain/rebase/todo.ts`: the instructions of a rebase, how they are written and
how they are read. Each pattern of the reader is a function here.
-/

open List

namespace Tsgit.Rebase

/-! ### Instructions -/

inductive RebaseTodoAction
  | pick | reword | edit | squash | fixup | drop
  deriving DecidableEq

def RebaseTodoAction.verb : RebaseTodoAction → Text
  | .pick => "pick".toList
  | .reword => "reword".toList
  | .edit => "edit".toList
  | .squash => "squash".toList
  | .fixup => "fixup".toList
  | .drop => "drop".toList

def RebaseTodoAction.all : List RebaseTodoAction :=
  [.pick, .reword, .edit, .squash, .fixup, .drop]

/-- One instruction of a todo. -/
inductive RebaseTodoLine
  | entry (action : RebaseTodoAction) (oid subject : Text)
  | label (label : Text)
  | reset (label : Text) (subject branch : Option Text)
  | merge (oid : Text) (labels : List Text) (subject : Text)
  deriving DecidableEq

/-- The name of the place in front of every root. -/
def newRoot : Text := "[new root]".toList

/-! ### The writer -/

def resetText (label : Text) (subject : Option Text) : Text :=
  "reset ".toList ++ label ++
    match subject with
    | some subject => " # ".toList ++ subject
    | none => []

/-- What a line says, without its end and without the blank line that opens a block. -/
def lineText : RebaseTodoLine → Text
  | .label label => "label ".toList ++ label
  | .reset label subject _ => resetText label subject
  | .merge oid labels subject =>
    "merge -C ".toList ++ oid ++ ' ' :: ([' '].intercalate labels ++ (" # ".toList ++ subject))
  | .entry action oid subject => action.verb ++ ' ' :: (oid ++ (" # ".toList ++ subject))

theorem lineText_label (name : Text) : lineText (.label name) = "label ".toList ++ name := rfl

theorem lineText_reset (place : Text) (subject branch : Option Text) :
    lineText (.reset place subject branch) = resetText place subject := rfl

theorem lineText_merge (oid : Text) (labels : List Text) (subject : Text) :
    lineText (.merge oid labels subject) = "merge -C ".toList ++ oid ++
      ' ' :: ([' '].intercalate labels ++ (" # ".toList ++ subject)) := rfl

theorem lineText_entry (action : RebaseTodoAction) (oid subject : Text) :
    lineText (.entry action oid subject) =
      action.verb ++ ' ' :: (oid ++ (" # ".toList ++ subject)) := rfl

def serializeLine (line : RebaseTodoLine) : Text :=
  match line with
  | .reset _ _ _ => '\n' :: (lineText line ++ ['\n'])
  | _ => lineText line ++ ['\n']

def serializeRebaseTodo (entries : List RebaseTodoLine) : Text := entries.flatMap serializeLine

/-! ### The reader -/

/-- What `.` does not take. -/
def isLineTerminator (c : Char) : Bool := [0x0a, 0x0d, 0x2028, 0x2029].contains c.toNat

/-- `\S+`, and what stands behind it. -/
def takeSolid (text : Text) : Option (Text × Text) :=
  let solid := text.takeWhile (! isWhitespace ·)
  if solid = [] then none else some (solid, text.dropWhile (! isWhitespace ·))

def hashSubject (text : Text) : Option Text := do
  let subject ← text.dropPrefix? " # ".toList
  if subject.any isLineTerminator then none else some subject

def matchTodoLine (line : Text) : Option RebaseTodoLine :=
  RebaseTodoAction.all.findSome? fun action => do
    let afterVerb ← line.dropPrefix? (action.verb ++ [' '])
    let (oid, rest) ← takeSolid afterVerb
    let subject ← hashSubject rest
    some (.entry action oid subject)

def matchLabelLine (line : Text) : Option RebaseTodoLine := do
  let label ← line.dropPrefix? "label ".toList
  if label = [] ∨ label.any isWhitespace then none else some (.label label)

def resetTail (text : Text) : Option (Option Text) :=
  if text = [] then some none else (hashSubject text).map some

def matchResetLine (line : Text) : Option RebaseTodoLine := do
  let afterVerb ← line.dropPrefix? "reset ".toList
  let root := do
    let tail ← afterVerb.dropPrefix? newRoot
    let subject ← resetTail tail
    some (RebaseTodoLine.reset newRoot subject none)
  let named := do
    let (label, tail) ← takeSolid afterVerb
    let subject ← resetTail tail
    some (RebaseTodoLine.reset label subject none)
  root.or named

def splitAtFirst (mark : Text) : Text → Option (Text × Text)
  | [] => none
  | c :: rest =>
    match (c :: rest).dropPrefix? mark with
    | some behind => some ([], behind)
    | none => (splitAtFirst mark rest).map fun found => (c :: found.1, found.2)

def matchOperands : Text → Option (Text × Text)
  | [] => none
  | c :: rest =>
    if isWhitespace c ∨ rest.any isLineTerminator then none
    else (splitAtFirst " # ".toList rest).map fun found => (c :: found.1, found.2)

def matchMergeLine (line : Text) : Option RebaseTodoLine := do
  let afterVerb ← line.dropPrefix? "merge -C ".toList
  let (oid, rest) ← takeSolid afterVerb
  let operands ← rest.dropPrefix? [' ']
  let (labels, subject) ← matchOperands operands
  some (.merge oid (labels.splitOn ' ') subject)

def invalidSequencerTodo {α : Type} (reason : Text) : Except Thrown α :=
  .error (.refusal (.invalidSequencerTodo (sanitizeForDisplay reason)))

def parseLine (line : Text) : Except Thrown RebaseTodoLine :=
  match matchTodoLine line, matchLabelLine line, matchResetLine line, matchMergeLine line with
  | some pick, _, _, _ => .ok pick
  | none, some label, _, _ => .ok label
  | none, none, some reset, _ => .ok reset
  | none, none, none, some merge => .ok merge
  | none, none, none, none => invalidSequencerTodo line

/-- Blank lines and comments are passed over. -/
def isInstruction (line : Text) : Bool := decide (line ≠ [] ∧ line.head? ≠ some '#')

def parseRebaseTodo (text : Text) : Except Thrown (List RebaseTodoLine) :=
  ((text.splitOn '\n').filter isInstruction).mapM parseLine

/-- What an instruction says to do: all but its subject, and the header of its block. -/
def RebaseTodoLine.bare : RebaseTodoLine → RebaseTodoLine
  | .label name => .label name
  | .reset place _ _ => .reset place none none
  | .merge oid labels _ => .merge oid labels []
  | .entry action oid _ => .entry action oid []

/-- The list is read back from its text with the same instructions in the same order. -/
def RoundTrips (entries : List RebaseTodoLine) : Prop :=
  ∃ parsed, parseRebaseTodo (serializeRebaseTodo entries) = .ok parsed ∧
    parsed.map RebaseTodoLine.bare = entries.map RebaseTodoLine.bare

/-! ### Lines of a text -/

theorem isInstruction_append (start rest : Text) (h : isInstruction start = true) :
    isInstruction (start ++ rest) = true := by
  obtain ⟨hne, hhead⟩ := of_decide_eq_true h
  refine decide_eq_true ⟨append_ne_nil_of_left_ne_nil hne rest, ?_⟩
  rwa [head?_append_of_ne_nil _ hne]

theorem isInstruction_lineText (line : RebaseTodoLine) : isInstruction (lineText line) = true := by
  cases line with
  | label label => exact isInstruction_append "label ".toList label (by decide)
  | reset label subject branch =>
    exact isInstruction_append ("reset ".toList ++ label) _
      (isInstruction_append "reset ".toList label (by decide))
  | merge oid labels subject =>
    exact isInstruction_append ("merge -C ".toList ++ oid) _
      (isInstruction_append "merge -C ".toList oid (by decide))
  | entry action oid subject =>
    exact isInstruction_append action.verb _ (by cases action <;> decide)

theorem serializeLine_eq (line : RebaseTodoLine) :
    serializeLine line = lineText line ++ ['\n'] ∨
      serializeLine line = '\n' :: (lineText line ++ ['\n']) := by
  cases line with
  | reset label subject branch => exact Or.inr rfl
  | label label => exact Or.inl rfl
  | merge oid labels subject => exact Or.inl rfl
  | entry action oid subject => exact Or.inl rfl

theorem filter_splitOn_lineText {line : RebaseTodoLine} (h : '\n' ∉ lineText line) (rest : Text) :
    ((lineText line ++ ['\n'] ++ rest).splitOn '\n').filter isInstruction =
      lineText line :: (rest.splitOn '\n').filter isInstruction := by
  rw [append_assoc, singleton_append, splitOn_append_cons_self_of_not_mem h,
    filter_cons_of_pos (isInstruction_lineText line)]

/-- **The lines that are written** are read one by one. -/
theorem parseRebaseTodo_serialize {entries : List RebaseTodoLine}
    (hsingle : ∀ line ∈ entries, '\n' ∉ lineText line) :
    parseRebaseTodo (serializeRebaseTodo entries) =
      entries.mapM fun line => parseLine (lineText line) := by
  have hlines : ((serializeRebaseTodo entries).splitOn '\n').filter isInstruction =
      entries.map lineText := by
    induction entries with
    | nil => rfl
    | cons line entries ih =>
      obtain ⟨hline, hothers⟩ := forall_mem_cons.mp hsingle
      rw [serializeRebaseTodo, flatMap_cons, map_cons, ← ih hothers,
        ← serializeRebaseTodo, ← filter_splitOn_lineText hline]
      rcases serializeLine_eq line with heq | heq
      · rw [heq]
      · have hblank := splitOn_append_cons_self_of_not_mem (not_mem_nil (a := '\n'))
          (lineText line ++ ['\n'] ++ serializeRebaseTodo entries)
        rw [nil_append] at hblank
        rw [heq, cons_append, hblank]
        rfl
  rw [parseRebaseTodo, hlines, mapM_map]
  rfl

/-! ### Patterns -/

/-- `.*` takes the whole text. -/
def OneLine (text : Text) : Prop := ∀ c ∈ text, isLineTerminator c = false

instance (text : Text) : Decidable (OneLine text) :=
  List.decidableBAll (fun c => isLineTerminator c = false) text

theorem any_isLineTerminator {text : Text} : text.any isLineTerminator = true ↔ ¬ OneLine text := by
  rw [any_eq_true, OneLine]
  push Not
  exact exists_congr fun c => and_congr_right fun _ => Bool.ne_false_iff.symm

theorem isWhitespace_of_isLineTerminator {c : Char} (h : isLineTerminator c = true) :
    isWhitespace c = true := by
  simp only [isLineTerminator, contains_eq_mem, mem_cons, not_mem_nil, or_false,
    decide_eq_true_eq] at h
  rw [isWhitespace, Bool.or_eq_true, contains_eq_mem, decide_eq_true_eq]
  left
  rcases h with h | h | h | h <;> rw [h] <;> decide

/-- A word has no end of a line. -/
theorem oneLine_of_isWord {word : Text} (h : IsWord word) : OneLine word := fun c hc =>
  Bool.eq_false_iff.mpr fun hend => by
    have hspace := isWhitespace_of_isLineTerminator hend
    rw [h.solid c hc] at hspace
    cases hspace

@[simp] theorem dropPrefix?_append (start rest : Text) :
    (start ++ rest).dropPrefix? start = some rest :=
  dropPrefix?_append_of_beq rest (beq_self_eq_true start)

theorem takeSolid_append {word rest : Text} (h : IsWord word)
    (hrest : ∀ c, rest.head? = some c → isWhitespace c = true) :
    takeSolid (word ++ rest) = some (word, rest) := by
  obtain ⟨htake, hdrop⟩ := takeWhile_word_append h hrest
  rw [takeSolid, htake, hdrop]
  exact if_neg h.ne_nil

theorem hashSubject_append (subject : Text) :
    hashSubject (" # ".toList ++ subject) = if OneLine subject then some subject else none := by
  rw [hashSubject, dropPrefix?_append]
  by_cases h : OneLine subject
  · rw [if_pos h]
    exact if_neg fun hany => any_isLineTerminator.mp hany h
  · rw [if_neg h]
    exact if_pos (any_isLineTerminator.mpr h)

theorem splitAtFirst_hash {front : Text} (h : '#' ∉ front) (subject : Text) :
    splitAtFirst " # ".toList (front ++ (" # ".toList ++ subject)) = some (front, subject) := by
  induction front with
  | nil =>
    change splitAtFirst _ (' ' :: '#' :: ' ' :: subject) = _
    have hfirst : (' ' :: '#' :: ' ' :: subject).dropPrefix? " # ".toList = some subject :=
      dropPrefix?_append " # ".toList subject
    rw [splitAtFirst, hfirst]
  | cons c front ih =>
    obtain ⟨hc, hfront⟩ := ne_and_not_mem_of_not_mem_cons h
    have hnext : (c :: (front ++ (" # ".toList ++ subject))).dropPrefix? " # ".toList = none := by
      refine Option.eq_none_iff_forall_ne_some.mpr fun found hfound => ?_
      obtain ⟨start, heq, hstart⟩ := dropPrefix?_eq_some_iff.mp hfound
      rw [eq_of_beq hstart] at heq
      have htail := (cons.inj heq).2
      cases front with
      | nil => cases (cons.inj htail).1
      | cons d front => exact hfront ((cons.inj htail).1 ▸ mem_cons_self)
    rw [cons_append, splitAtFirst, hnext, ih hfront]
    rfl

/-- A search that one element alone can answer. -/
theorem findSome?_unique {α β : Type} {f : α → Option β} {items : List α} (a : α)
    (h : a ∈ items) (hothers : ∀ b, b ≠ a → f b = none) : items.findSome? f = f a := by
  induction items with
  | nil => exact absurd h not_mem_nil
  | cons b items ih =>
    rw [findSome?_cons]
    by_cases heq : b = a
    · subst heq
      cases hb : f b with
      | some found => rfl
      | none =>
        refine findSome?_eq_none_iff.mpr fun c _ => ?_
        by_cases hcb : c = b
        · rw [hcb, hb]
        · exact hothers c hcb
    · rw [hothers b heq]
      exact ih ((mem_cons.mp h).resolve_left fun hab => heq hab.symm)

theorem matchTodoLine_entry (action : RebaseTodoAction) (rest : Text) :
    matchTodoLine (action.verb ++ ' ' :: rest) = (do
      let (oid, rest) ← takeSolid rest
      let subject ← hashSubject rest
      some (.entry action oid subject)) := by
  have hverb : action.verb ++ ' ' :: rest = (action.verb ++ [' ']) ++ rest := by
    rw [append_assoc, singleton_append]
  rw [matchTodoLine, findSome?_unique action (by cases action <;> decide) ?_]
  · rw [hverb, dropPrefix?_append]
    rfl
  · intro other hne
    have hnone : (action.verb ++ ' ' :: rest).dropPrefix? (other.verb ++ [' ']) = none := by
      cases action <;> cases other <;> first | rfl | exact absurd rfl hne
    rw [hnone]
    rfl

theorem matchTodoLine_eq_none {line : Text}
    (h : ∀ action : RebaseTodoAction, line.dropPrefix? (action.verb ++ [' ']) = none) :
    matchTodoLine line = none :=
  findSome?_eq_none_iff.mpr fun action _ => by rw [h action]; rfl

/-- What a verb is no verb of. -/
theorem matchers_eq_none {line : Text} (hlabel : line.dropPrefix? "label ".toList = none)
    (hreset : line.dropPrefix? "reset ".toList = none)
    (hmerge : line.dropPrefix? "merge -C ".toList = none) :
    matchLabelLine line = none ∧ matchResetLine line = none ∧ matchMergeLine line = none := by
  rw [matchLabelLine, matchResetLine, matchMergeLine, hlabel, hreset, hmerge]
  exact ⟨rfl, rfl, rfl⟩

/-! ### Lines -/

theorem parseLine_label (name : Text) : parseLine (lineText (.label name)) =
    if name = [] ∨ name.any isWhitespace then invalidSequencerTodo (lineText (.label name))
    else .ok (.label name) := by
  have htodo : matchTodoLine ("label ".toList ++ name) = none :=
    matchTodoLine_eq_none fun action => by cases action <;> rfl
  have hreset : matchResetLine ("label ".toList ++ name) = none := by
    have hverb : ("label ".toList ++ name).dropPrefix? "reset ".toList = none := rfl
    rw [matchResetLine, hverb]
    rfl
  have hmerge : matchMergeLine ("label ".toList ++ name) = none := by
    have hverb : ("label ".toList ++ name).dropPrefix? "merge -C ".toList = none := rfl
    rw [matchMergeLine, hverb]
    rfl
  have hlabel : matchLabelLine ("label ".toList ++ name) =
      if name = [] ∨ name.any isWhitespace then none else some (.label name) := by
    rw [matchLabelLine, dropPrefix?_append]
    rfl
  rw [lineText_label, parseLine, htodo, hreset, hmerge, hlabel]
  by_cases h : name = [] ∨ name.any isWhitespace
  · rw [if_pos h, if_pos h]
  · rw [if_neg h, if_neg h]

theorem parseLine_entry (action : RebaseTodoAction) {oid : Text} (hoid : IsWord oid)
    (subject : Text) : parseLine (lineText (.entry action oid subject)) =
    if OneLine subject then .ok (.entry action oid subject)
    else invalidSequencerTodo (lineText (.entry action oid subject)) := by
  obtain ⟨hlabel, hreset, hmerge⟩ : _ ∧ _ ∧ _ :=
    @matchers_eq_none (action.verb ++ ' ' :: (oid ++ (" # ".toList ++ subject)))
      (by cases action <;> rfl) (by cases action <;> rfl) (by cases action <;> rfl)
  have hspace (c : Char) (hc : (" # ".toList ++ subject).head? = some c) :
      isWhitespace c = true := by
    cases hc
    rfl
  have htodo : matchTodoLine (action.verb ++ ' ' :: (oid ++ (" # ".toList ++ subject))) =
      if OneLine subject then some (.entry action oid subject) else none := by
    rw [matchTodoLine_entry, takeSolid_append hoid hspace]
    refine (congrArg (Option.bind · _) (hashSubject_append subject)).trans ?_
    by_cases h : OneLine subject
    · rw [if_pos h, if_pos h]
      rfl
    · rw [if_neg h, if_neg h]
      rfl
  rw [lineText_entry, parseLine, htodo, hlabel, hreset, hmerge]
  by_cases h : OneLine subject
  · rw [if_pos h, if_pos h]
  · rw [if_neg h, if_neg h]

/-- What stands behind the place of a reset. -/
def afterPlace : Option Text → Text
  | some subject => " # ".toList ++ subject
  | none => []

theorem resetText_eq (place : Text) (subject : Option Text) :
    resetText place subject = "reset ".toList ++ (place ++ afterPlace subject) := by
  cases subject <;> exact append_assoc _ _ _

theorem resetTail_afterPlace (subject : Option Text) : resetTail (afterPlace subject) =
    if OneLine (subject.getD []) then some subject else none := by
  cases subject with
  | none => rfl
  | some text =>
    have hne : afterPlace (some text) ≠ [] := cons_ne_nil _ _
    rw [resetTail, if_neg hne, afterPlace, hashSubject_append, Option.getD_some]
    by_cases h : OneLine text
    · rw [if_pos h, if_pos h]
      rfl
    · rw [if_neg h, if_neg h]
      rfl

theorem matchResetLine_append (text : Text) : matchResetLine ("reset ".toList ++ text) =
    ((text.dropPrefix? newRoot).bind fun tail =>
        (resetTail tail).bind fun subject => some (.reset newRoot subject none)).or
      ((takeSolid text).bind fun found =>
        (resetTail found.2).bind fun subject => some (.reset found.1 subject none)) := by
  rw [matchResetLine, dropPrefix?_append]
  rfl

theorem afterPlace_space (subject : Option Text) (c : Char)
    (h : (afterPlace subject).head? = some c) : isWhitespace c = true := by
  cases subject with
  | none => cases h
  | some text =>
    cases h
    rfl

theorem matchResetLine_word {place : Text} (h : IsWord place) (subject : Option Text) :
    matchResetLine ("reset ".toList ++ (place ++ afterPlace subject)) =
      if OneLine (subject.getD []) then some (.reset place subject none) else none := by
  have hroot : (place ++ afterPlace subject).dropPrefix? newRoot = none := by
    refine Option.eq_none_iff_forall_ne_some.mpr fun tail hfound => ?_
    obtain ⟨start, heq, hstart⟩ := dropPrefix?_eq_some_iff.mp hfound
    rw [eq_of_beq hstart] at heq
    have hrest : afterPlace subject = " root]".toList ++ tail := by
      have hdrop := (takeWhile_word_append h (afterPlace_space subject)).2
      rw [heq] at hdrop
      exact hdrop.symm
    cases subject with
    | none => cases hrest
    | some text => cases (cons.inj (cons.inj hrest).2).1
  rw [matchResetLine_append, hroot, takeSolid_append h (afterPlace_space subject),
    Option.bind_none, Option.none_or, Option.bind_some, resetTail_afterPlace]
  by_cases hsubject : OneLine (subject.getD [])
  · rw [if_pos hsubject, if_pos hsubject]
    rfl
  · rw [if_neg hsubject, if_neg hsubject]
    rfl

theorem matchResetLine_newRoot (subject : Option Text) :
    matchResetLine ("reset ".toList ++ (newRoot ++ afterPlace subject)) =
      if OneLine (subject.getD []) then some (.reset newRoot subject none) else none := by
  have hword : takeSolid (newRoot ++ afterPlace subject) =
      some ("[new".toList, " root]".toList ++ afterPlace subject) := rfl
  have htail : resetTail (" root]".toList ++ afterPlace subject) = none := rfl
  rw [matchResetLine_append, dropPrefix?_append, hword, Option.bind_some, Option.bind_some, htail,
    resetTail_afterPlace, Option.bind_none, Option.or_none]
  by_cases hsubject : OneLine (subject.getD [])
  · rw [if_pos hsubject, if_pos hsubject]
    rfl
  · rw [if_neg hsubject, if_neg hsubject]
    rfl

theorem parseLine_reset {place : Text} (h : IsWord place ∨ place = newRoot)
    (subject branch : Option Text) : parseLine (lineText (.reset place subject branch)) =
    if OneLine (subject.getD []) then .ok (.reset place subject none)
    else invalidSequencerTodo (lineText (.reset place subject branch)) := by
  have htodo : matchTodoLine ("reset ".toList ++ (place ++ afterPlace subject)) = none :=
    matchTodoLine_eq_none fun action => by cases action <;> rfl
  have hlabel : matchLabelLine ("reset ".toList ++ (place ++ afterPlace subject)) = none := by
    have hverb : ("reset ".toList ++ (place ++ afterPlace subject)).dropPrefix? "label ".toList =
      none := rfl
    rw [matchLabelLine, hverb]
    rfl
  have hmerge : matchMergeLine ("reset ".toList ++ (place ++ afterPlace subject)) = none := by
    have hverb : ("reset ".toList ++ (place ++ afterPlace subject)).dropPrefix? "merge -C ".toList =
      none := rfl
    rw [matchMergeLine, hverb]
    rfl
  have hreset : matchResetLine ("reset ".toList ++ (place ++ afterPlace subject)) =
      if OneLine (subject.getD []) then some (.reset place subject none) else none := by
    rcases h with hword | rfl
    · exact matchResetLine_word hword subject
    · exact matchResetLine_newRoot subject
  rw [lineText_reset, resetText_eq, parseLine, htodo, hlabel, hreset, hmerge]
  by_cases hsubject : OneLine (subject.getD [])
  · rw [if_pos hsubject, if_pos hsubject]
  · rw [if_neg hsubject, if_neg hsubject]

/-- The operands of a merge: words without a `#`. -/
structure Operands (labels : List Text) : Prop where
  ne_nil : labels ≠ []
  words : ∀ label ∈ labels, IsWord label
  plain : ∀ label ∈ labels, '#' ∉ label

section

variable {labels : List Text}

theorem Operands.hash_not_mem (h : Operands labels) : '#' ∉ [' '].intercalate labels := by
  intro hmem
  rcases mem_of_mem_intercalate hmem with heq | ⟨label, hlabel, hc⟩
  · cases heq
  · exact h.plain label hlabel hc

theorem Operands.oneLine (h : Operands labels) : OneLine ([' '].intercalate labels) := by
  intro c hmem
  rcases mem_of_mem_intercalate hmem with rfl | ⟨label, hlabel, hc⟩
  · rfl
  · exact oneLine_of_isWord (h.words label hlabel) c hc

theorem Operands.head (h : Operands labels) : ∃ c rest, [' '].intercalate labels = c :: rest ∧
    isWhitespace c = false := by
  cases labels with
  | nil => exact absurd rfl h.ne_nil
  | cons label labels =>
    have hword := h.words label mem_cons_self
    cases label with
    | nil => exact absurd rfl hword.ne_nil
    | cons c label =>
      have hc := hword.solid c mem_cons_self
      cases labels with
      | nil => exact ⟨c, label, intercalate_singleton, hc⟩
      | cons next labels =>
        refine ⟨c, label ++ [' '] ++ [' '].intercalate (next :: labels), ?_, hc⟩
        rw [intercalate_cons_of_ne_nil (cons_ne_nil _ _), cons_append, cons_append]

theorem Operands.splitOn (h : Operands labels) : ([' '].intercalate labels).splitOn ' ' = labels :=
  splitOn_intercalate ' ' (fun label hlabel hspace => by
    have hsolid := (h.words label hlabel).solid ' ' hspace
    cases hsolid) h.ne_nil

theorem matchOperands_append (h : Operands labels) (subject : Text) :
    matchOperands ([' '].intercalate labels ++ (" # ".toList ++ subject)) =
      if OneLine subject then some ([' '].intercalate labels, subject) else none := by
  obtain ⟨c, rest, heq, hc⟩ := h.head
  have hline : OneLine rest := fun d hd => h.oneLine d (heq ▸ mem_cons_of_mem _ hd)
  have hhash : '#' ∉ rest := fun hd => h.hash_not_mem (heq ▸ mem_cons_of_mem _ hd)
  have hany : (rest ++ (" # ".toList ++ subject)).any isLineTerminator = true ↔
      ¬ OneLine subject := by
    rw [any_isLineTerminator, not_iff_not]
    refine ⟨fun hall d hd => hall d ?_, fun hall d hd => ?_⟩
    · exact mem_append_right _ (mem_append_right _ hd)
    rcases mem_append.mp hd with hrest | hd
    · exact hline d hrest
    · rcases mem_append.mp hd with hmark | hsubject
      · exact all_eq_true.mp (show " # ".toList.all (! isLineTerminator ·) = true by decide)
          d hmark |> (Bool.not_eq_true' _).mp
      · exact hall d hsubject
  rw [heq, cons_append, matchOperands, splitAtFirst_hash hhash]
  by_cases hsubject : OneLine subject
  · rw [if_pos hsubject, if_neg]
    · rfl
    · rintro (hspace | hend)
      · rw [hc] at hspace
        cases hspace
      · exact hany.mp hend hsubject
  · rw [if_neg hsubject, if_pos (Or.inr (hany.mpr hsubject))]

theorem parseLine_merge {oid : Text} (hoid : IsWord oid) (h : Operands labels) (subject : Text) :
    parseLine (lineText (.merge oid labels subject)) =
    if OneLine subject then .ok (.merge oid labels subject)
    else invalidSequencerTodo (lineText (.merge oid labels subject)) := by
  obtain ⟨text, htext⟩ : ∃ text, text = [' '].intercalate labels ++ (" # ".toList ++ subject) :=
    ⟨_, rfl⟩
  have hline : lineText (.merge oid labels subject) =
      "merge -C ".toList ++ (oid ++ ' ' :: text) := by
    rw [lineText_merge, htext, append_assoc]
  have htodo : matchTodoLine ("merge -C ".toList ++ (oid ++ ' ' :: text)) = none :=
    matchTodoLine_eq_none fun action => by cases action <;> rfl
  have hlabel : matchLabelLine ("merge -C ".toList ++ (oid ++ ' ' :: text)) = none := by
    have hverb : ("merge -C ".toList ++ (oid ++ ' ' :: text)).dropPrefix? "label ".toList =
      none := rfl
    rw [matchLabelLine, hverb]
    rfl
  have hreset : matchResetLine ("merge -C ".toList ++ (oid ++ ' ' :: text)) = none := by
    have hverb : ("merge -C ".toList ++ (oid ++ ' ' :: text)).dropPrefix? "reset ".toList =
      none := rfl
    rw [matchResetLine, hverb]
    rfl
  have hspace (c : Char) (hc : (' ' :: text).head? = some c) : isWhitespace c = true := by
    cases hc
    rfl
  have hmerge : matchMergeLine ("merge -C ".toList ++ (oid ++ ' ' :: text)) =
      if OneLine subject then some (.merge oid labels subject) else none := by
    have hstep : matchMergeLine ("merge -C ".toList ++ (oid ++ ' ' :: text)) =
        (matchOperands text).bind fun found =>
          some (.merge oid (found.1.splitOn ' ') found.2) := by
      have hoperands : (' ' :: text).dropPrefix? [' '] = some text := dropPrefix?_append [' '] text
      rw [matchMergeLine, dropPrefix?_append]
      refine (congrArg (Option.bind · _) (takeSolid_append hoid hspace)).trans ?_
      exact congrArg (Option.bind · _) hoperands
    rw [hstep, htext, matchOperands_append h]
    by_cases hsubject : OneLine subject
    · rw [if_pos hsubject, if_pos hsubject, Option.bind_some, h.splitOn]
    · rw [if_neg hsubject, if_neg hsubject, Option.bind_none]
  rw [hline, parseLine, htodo, hlabel, hreset, hmerge]
  by_cases hsubject : OneLine subject
  · rw [if_pos hsubject, if_pos hsubject]
  · rw [if_neg hsubject, if_neg hsubject]

end

/-! ### Round trips -/

namespace RebaseTodoLine

/-- The places and ids of an instruction are words. -/
def Plain : RebaseTodoLine → Prop
  | .label _ => True
  | .reset place _ _ => IsWord place ∨ place = newRoot
  | .merge oid labels _ => IsWord oid ∧ Operands labels
  | .entry _ oid _ => IsWord oid

/-- The patterns take the free text of an instruction. -/
def Legible : RebaseTodoLine → Prop
  | .label name => IsWord name
  | .reset _ subject _ => OneLine (subject.getD [])
  | .merge _ _ subject => OneLine subject
  | .entry _ _ subject => OneLine subject

/-- What a todo keeps of an instruction: all but the header of its block. -/
def stored : RebaseTodoLine → RebaseTodoLine
  | .reset place subject _ => .reset place subject none
  | line => line

theorem bare_stored (line : RebaseTodoLine) : line.stored.bare = line.bare := by
  cases line <;> rfl

theorem isWord_iff {name : Text} : IsWord name ↔ ¬ (name = [] ∨ name.any isWhitespace = true) := by
  rw [not_or, Bool.not_eq_true, any_eq_false]
  exact ⟨fun h => ⟨h.ne_nil, fun c hc => by rw [h.solid c hc]; exact Bool.false_ne_true⟩,
    fun h => ⟨h.1, fun c hc => Bool.eq_false_iff.mpr (h.2 c hc)⟩⟩

/-- **A legible instruction** is read back. -/
theorem parseLine_legible {line : RebaseTodoLine} (hplain : line.Plain) (h : line.Legible) :
    parseLine (lineText line) = .ok line.stored := by
  cases line with
  | label name => exact (parseLine_label name).trans (if_neg (isWord_iff.mp h))
  | reset place subject branch => exact (parseLine_reset hplain subject branch).trans (if_pos h)
  | merge oid labels subject => exact (parseLine_merge hplain.1 hplain.2 subject).trans (if_pos h)
  | entry action oid subject => exact (parseLine_entry action hplain subject).trans (if_pos h)

/-- **An instruction that is read** is legible. -/
theorem legible_of_parseLine {line parsed : RebaseTodoLine} (hplain : line.Plain)
    (h : parseLine (lineText line) = .ok parsed) : line.Legible := by
  by_contra hnot
  have hrefused : parseLine (lineText line) = invalidSequencerTodo (lineText line) := by
    cases line with
    | label name =>
      exact (parseLine_label name).trans
        (if_pos (not_not.mp fun hword => hnot (isWord_iff.mpr hword)))
    | reset place subject branch =>
      exact (parseLine_reset hplain subject branch).trans (if_neg hnot)
    | merge oid labels subject =>
      exact (parseLine_merge hplain.1 hplain.2 subject).trans (if_neg hnot)
    | entry action oid subject => exact (parseLine_entry action hplain subject).trans (if_neg hnot)
  rw [hrefused] at h
  cases h

end RebaseTodoLine

section

variable {entries : List RebaseTodoLine}

/-- Every instruction of a list that comes back is read. -/
theorem RoundTrips.parsed (h : RoundTrips entries)
    (hsingle : ∀ line ∈ entries, '\n' ∉ lineText line) :
    ∀ line ∈ entries, ∃ parsed, parseLine (lineText line) = .ok parsed := by
  obtain ⟨parsed, hparsed, -⟩ := h
  rw [parseRebaseTodo_serialize hsingle] at hparsed
  intro line hline
  obtain ⟨found, -, hfound⟩ := (mapM_ok hparsed).2 line hline
  exact ⟨found, hfound⟩

/-- **The lists that come back**: those whose free text the patterns take. -/
theorem roundTrips_iff (hsingle : ∀ line ∈ entries, '\n' ∉ lineText line)
    (hplain : ∀ line ∈ entries, line.Plain) :
    RoundTrips entries ↔ ∀ line ∈ entries, line.Legible := by
  refine ⟨fun h line hline => ?_, fun h => ?_⟩
  · obtain ⟨parsed, hparsed⟩ := h.parsed hsingle line hline
    exact RebaseTodoLine.legible_of_parseLine (hplain line hline) hparsed
  refine ⟨entries.map RebaseTodoLine.stored, ?_, ?_⟩
  · rw [parseRebaseTodo_serialize hsingle]
    exact mapM_eq_ok fun line hline =>
      RebaseTodoLine.parseLine_legible (hplain line hline) (h line hline)
  · rw [map_map]
    exact map_congr_left fun line _ => line.bare_stored

end

end Tsgit.Rebase
