import Mathlib.Data.List.Nodup
import Tsgit.Dict
import Tsgit.RebaseTodo

/-!
# Rebase Scripts With Merges

The generator of `src/domain/rebase/merges-script.ts`: the commits of a range become blocks, each
opened by a `reset`, and labels name the places that merges and blocks refer to.
-/

open List

namespace Tsgit.Rebase

structure ScriptCommit where
  id : Text
  parents : List Text
  subject : Text
  skipped : Bool
  deriving DecidableEq

structure MergesScriptInput where
  /-- The walked range, oldest first. -/
  commits : List ScriptCommit
  ontoBase : Option Text
  branchNames : Dict Text Text
  abbreviations : Dict Text Text
  outsideSubjects : Dict Text Text
  rebaseCousins : Bool

/-! ### Labels -/

def maxLabelLength : ℕ := 255 - 5 - 16

def onto : Text := "onto".toList

def branchPoint : Text := "branch-point".toList

structure LabelState where
  commitToLabel : Dict Text Text
  labels : List Text

def utf8Length (c : Char) : ℕ := (String.utf8EncodeChar c).length

def isAlnum (c : Char) : Bool :=
  decide (('A' ≤ c ∧ c ≤ 'Z') ∨ ('a' ≤ c ∧ c ≤ 'z') ∨ ('0' ≤ c ∧ c ≤ '9'))

def sanitizeFrom (out : Text) (bytes : ℕ) : Text → Text
  | [] => out
  | c :: rest =>
    if maxLabelLength ≤ bytes + 1 then out
    else if isAlnum c ∨ 1 < utf8Length c then
      if maxLabelLength < bytes + utf8Length c then out
      else sanitizeFrom (out ++ [c]) (bytes + utf8Length c) rest
    else if out ≠ [] ∧ out.getLast? ≠ some '-' then sanitizeFrom (out ++ ['-']) (bytes + 1) rest
    else sanitizeFrom out bytes rest

def sanitizeLabel (text : Text) : Text := sanitizeFrom [] 0 text

def abbreviationOf (input : MergesScriptInput) (oid : Text) : Text :=
  (input.abbreviations.get oid).getD (oid.take 7)

def uniqueAbbreviation (state : LabelState) (short oid : Text) : Text :=
  if state.labels.contains short then
    let lengths := range' (short.length + 1) (oid.length - (short.length + 1))
    ((lengths.map (oid.take ·)).find? fun cut => ! state.labels.contains cut).getD oid
  else short

def isHex (c : Char) : Bool := isHexDigit c || decide ('A' ≤ c ∧ c ≤ 'F')

/-- A label must not read as a full id. Where its characters are hex its length counts them. -/
def clashes (state : LabelState) (label oid : Text) : Bool :=
  (decide (label.length = oid.length ∧ label ≠ []) && label.all isHex) ||
    state.labels.contains label

def suffixed (label : Text) (suffix : ℕ) : Text := label ++ '-' :: Nat.toDigits 10 suffix

def freeSuffix (state : LabelState) (label : Text) : ℕ → ℕ → ℕ
  | 0, suffix => suffix
  | fuel + 1, suffix =>
    if state.labels.contains (suffixed label suffix) then freeSuffix state label fuel (suffix + 1)
    else suffix

def uniqueLabel (state : LabelState) (label oid : Text) : Text :=
  if clashes state label oid then suffixed label (freeSuffix state label state.labels.length 2)
  else label

/-- The label that `labelOid` gives a commit without one. -/
def freshLabel (input : MergesScriptInput) (state : LabelState) (oid : Text) :
    Option Text → Text
  | none => uniqueAbbreviation state (abbreviationOf input oid) oid
  | some wanted =>
    let label := sanitizeLabel wanted
    uniqueLabel state
      (if label = [] then "rev-".toList ++ abbreviationOf input oid else label) oid

def labelOid (input : MergesScriptInput) (state : LabelState) (oid : Text) (wanted : Option Text) :
    LabelState × Text :=
  match state.commitToLabel.get oid with
  | some existing => (state, existing)
  | none =>
    let label := freshLabel input state oid wanted
    (⟨state.commitToLabel.insert oid label, label :: state.labels⟩, label)

/-- `MERGED_BRANCH.exec`, behind the mark of a comment. -/
def mergedBranch (subject : Text) : Option Text := do
  let afterVerb ← subject.dropPrefix? "Merge ".toList
  let quoted ← (afterVerb.dropWhile (· ≠ '\'')).dropPrefix? ['\'']
  if quoted.contains '\'' then some (quoted.takeWhile (· ≠ '\'')) else none

/-- `PULL_REQUEST.exec`, behind the mark of a comment. -/
def pullRequest (subject : Text) : Option Text := do
  let afterVerb ← subject.dropPrefix? "Merge pull request ".toList
  if afterVerb.any isLineTerminator then none
  else (splitAtFirst " from ".toList afterVerb).map (·.2)

def labelFromMessage (subject : Text) : Text :=
  ((mergedBranch subject).or (pullRequest subject)).getD ("# ".toList ++ subject)

/-! ### Phases -/

structure Walk where
  byId : Dict Text ScriptCommit
  todo : Dict Text RebaseTodoLine
  tips : List Text

/-- The labels of a merge's later parents. -/
def labelParents (input : MergesScriptInput) (walk : Walk) (fromMessage : Text) :
    LabelState → List Text → LabelState × List Text
  | state, [] => (state, [])
  | state, parent :: toMerge =>
    let wanted :=
      if (walk.byId.get parent).isNone then none
      else some ((input.branchNames.get parent).getD fromMessage)
    let (state, label) := labelOid input state parent wanted
    let (state, labels) := labelParents input walk fromMessage state toMerge
    (state, label :: labels)

/-- First phase: a todo line for each commit that is kept. -/
def planCommit (input : MergesScriptInput) (state : LabelState) (walk : Walk) (c : ScriptCommit) :
    LabelState × Walk :=
  if c.skipped then (state, walk)
  else if c.parents.tail = [] then
    (state, { walk with todo := walk.todo.insert c.id (.entry .pick c.id c.subject) })
  else
    let toMerge := c.parents.tail
    let (state, labels) := labelParents input walk (labelFromMessage c.subject) state toMerge
    (state, { walk with
      tips := walk.tips ++ toMerge.filter fun parent => (walk.byId.get parent).isSome
      todo := walk.todo.insert c.id (.merge c.id labels c.subject) })

def planCommits (input : MergesScriptInput) :
    LabelState → Walk → List ScriptCommit → LabelState × Walk
  | state, walk, [] => (state, walk)
  | state, walk, c :: commits =>
    let walk := { walk with byId := walk.byId.insert c.id c }
    let (state, walk) := planCommit input state walk c
    planCommits input state walk commits

/-- The turns of the second phase: a commit with several children in the range is named. -/
def labelChildren (input : MergesScriptInput) (walk : Walk) :
    LabelState → List Text → List Text → LabelState
  | state, _, [] => state
  | state, childSeen, parent :: parents =>
    if (walk.byId.get parent).isNone then labelChildren input walk state childSeen parents
    else
      let state :=
        if childSeen.contains parent then (labelOid input state parent (some branchPoint)).1
        else state
      labelChildren input walk state (parent :: childSeen) parents

/-- Second phase. -/
def labelBranchPoints (input : MergesScriptInput) (state : LabelState) (walk : Walk) :
    LabelState × Walk :=
  let state := labelChildren input walk state [] (input.commits.flatMap (·.parents))
  match input.commits.getLast? with
  | some head => (state, { walk with tips := walk.tips ++ [head.id] })
  | none => (state, walk)

def subjectOf (input : MergesScriptInput) (walk : Walk) (oid : Text) : Text :=
  match walk.byId.get oid with
  | some c => c.subject
  | none => (input.outsideSubjects.get oid).getD []

/-- Where a block starts from, under the label of the place. -/
def resetTo (input : MergesScriptInput) (walk : Walk) (fork place : Text)
    (branch : Option Text) : RebaseTodoLine :=
  if place = onto then .reset onto none branch
  else .reset place (some (subjectOf input walk fork)) branch

def resetLine (input : MergesScriptInput) (state : LabelState) (walk : Walk)
    (branch : Option Text) : Option Text → LabelState × RebaseTodoLine
  | none => (state, .reset (if input.rebaseCousins then onto else newRoot) none branch)
  | some fork =>
    match state.commitToLabel.get fork with
    | some place => (state, resetTo input walk fork place branch)
    | none =>
      if input.rebaseCousins then (state, .reset onto none branch)
      else
        let (state, place) := labelOid input state fork none
        (state, resetTo input walk fork place branch)

/-- The chain of first parents that is not shown yet, oldest first, and what it forks from. -/
def blockOf (walk : Walk) (shown : List Text) : ℕ → Option Text → List Text →
    List Text × Option Text
  | 0, fork, chain => (chain, fork)
  | _ + 1, none, chain => (chain, none)
  | fuel + 1, some oid, chain =>
    match walk.byId.get oid with
    | none => (chain, some oid)
    | some c =>
      if shown.contains oid then (chain, some oid)
      else blockOf walk shown fuel c.parents.head? (oid :: chain)

/-- The lines of a commit in its block. -/
def commitLines (state : LabelState) (walk : Walk) (oid : Text) : List RebaseTodoLine :=
  (walk.todo.get oid).toList ++ ((state.commitToLabel.get oid).map .label).toList

/-- Third phase: each tip's block, in the order of the tips. -/
def emitBlocks (input : MergesScriptInput) (walk : Walk) :
    LabelState → List Text → List Text → List RebaseTodoLine
  | _, _, [] => []
  | state, shown, tip :: tips =>
    if shown.contains tip then emitBlocks input walk state shown tips
    else
      let branch := state.commitToLabel.get tip
      let (chain, fork) := blockOf walk shown (input.commits.length + 1) (some tip) []
      let (state, reset) := resetLine input state walk branch fork
      reset :: (chain.flatMap (commitLines state walk) ++
        emitBlocks input walk state (shown ++ chain) tips)

/-- The labels that the generator starts with. -/
def initialState (input : MergesScriptInput) : LabelState :=
  match input.ontoBase with
  | some base => ⟨Dict.empty.insert base onto, [onto]⟩
  | none => ⟨Dict.empty, []⟩

def makeScriptWithMerges (input : MergesScriptInput) : List RebaseTodoLine :=
  let (state, walk) :=
    planCommits input (initialState input) ⟨Dict.empty, Dict.empty, []⟩ input.commits
  let (state, walk) := labelBranchPoints input state walk
  .label onto :: emitBlocks input walk state [] walk.tips

/-! ### Characters -/

/-- A character that a label can have. -/
def isLabelChar (c : Char) : Bool := isAlnum c || c == '-' || decide (127 < c.toNat)

/-- A label as the generator makes them. -/
structure IsLabel (label : Text) : Prop where
  ne_nil : label ≠ []
  chars : ∀ c ∈ label, isLabelChar c = true

/-- An id, or what is left of one. -/
structure IsHexWord (text : Text) : Prop where
  ne_nil : text ≠ []
  chars : ∀ c ∈ text, isHex c = true

/-- The text holds no white space. -/
def Solid (text : Text) : Prop := ∀ c ∈ text, isWhitespace c = false

variable {c : Char}

theorem one_lt_utf8Length : 1 < utf8Length c ↔ 127 < c.toNat := by
  rw [utf8Length, String.length_utf8EncodeChar, Char.utf8Size]
  have hval : c.toNat = c.val.toNat := rfl
  split
  · next h =>
    have hle : c.val.toNat ≤ 127 := h
    omega
  · next h =>
    have hlt : ¬ c.val.toNat ≤ 127 := h
    split
    · omega
    · split <;> omega

theorem isAlnum_bounds (h : isAlnum c = true) : 48 ≤ c.toNat ∧ c.toNat ≤ 122 := by
  have hcases : (65 ≤ c.toNat ∧ c.toNat ≤ 90) ∨ (97 ≤ c.toNat ∧ c.toNat ≤ 122) ∨
      (48 ≤ c.toNat ∧ c.toNat ≤ 57) := of_decide_eq_true h
  omega

theorem isAlnum_of_isHex (h : isHex c = true) : isAlnum c = true := by
  rw [isHex, Bool.or_eq_true, decide_eq_true_eq] at h
  have hcases : (65 ≤ c.toNat ∧ c.toNat ≤ 90) ∨ (97 ≤ c.toNat ∧ c.toNat ≤ 122) ∨
      (48 ≤ c.toNat ∧ c.toNat ≤ 57) := by
    rcases h with hdigit | hupper
    · rw [isHexDigit, parseHexDigit] at hdigit
      split at hdigit
      · omega
      · split at hdigit
        · omega
        · cases hdigit
    · have hbounds : 65 ≤ c.toNat ∧ c.toNat ≤ 70 := hupper
      omega
  exact decide_eq_true hcases

theorem isWhitespace_of_isAlnum (h : isAlnum c = true) : isWhitespace c = false := by
  have hbounds := isAlnum_bounds h
  simp only [isWhitespace, contains_eq_mem, mem_cons, not_mem_nil, or_false,
    Bool.or_eq_false_iff, decide_eq_false_iff_not]
  omega

theorem isLabelChar_of_isAlnum (h : isAlnum c = true) : isLabelChar c = true := by
  rw [isLabelChar, h]
  rfl

theorem IsLabel.not_mem {label : Text} (h : IsLabel label) (hc : isLabelChar c = false) :
    c ∉ label := fun hmem => by
  rw [h.chars c hmem] at hc
  cases hc

theorem isHexWord_of_isObjectId {id : Text} (h : IsObjectId id) : IsHexWord id where
  ne_nil := by
    rintro rfl
    rcases h.length_eq with hlength | hlength <;> cases hlength
  chars c hc := by rw [isHex, h.digits c hc]; rfl

namespace IsHexWord

variable {text : Text}

theorem isLabel (h : IsHexWord text) : IsLabel text :=
  ⟨h.ne_nil, fun c hc => isLabelChar_of_isAlnum (isAlnum_of_isHex (h.chars c hc))⟩

theorem isWord (h : IsHexWord text) : IsWord text :=
  ⟨h.ne_nil, fun c hc => isWhitespace_of_isAlnum (isAlnum_of_isHex (h.chars c hc))⟩

theorem ne_onto (h : IsHexWord text) : text ≠ onto := by
  rintro rfl
  exact absurd (h.chars 'o' (by decide)) (by decide)

theorem take (h : IsHexWord text) {n : ℕ} (hn : 0 < n) : IsHexWord (text.take n) where
  ne_nil hnil := (take_eq_nil_iff.mp hnil).elim (fun hzero => hn.ne' hzero) h.ne_nil
  chars c hc := h.chars c (mem_of_mem_take hc)

end IsHexWord

theorem sanitizeFrom_chars {out text : Text} {bytes : ℕ} (hout : ∀ c ∈ out, isLabelChar c = true) :
    ∀ c ∈ sanitizeFrom out bytes text, isLabelChar c = true := by
  induction text generalizing out bytes with
  | nil => exact hout
  | cons d text ih =>
    rw [sanitizeFrom]
    split
    · exact hout
    split
    · next hkept =>
      split
      · exact hout
      refine ih fun c hc => ?_
      rcases mem_append.mp hc with hc | hc
      · exact hout c hc
      · rw [mem_singleton.mp hc, isLabelChar]
        rcases hkept with halnum | hwide
        · rw [halnum]
          rfl
        · rw [decide_eq_true (one_lt_utf8Length.mp hwide), Bool.or_true]
    · split
      · refine ih fun c hc => ?_
        rcases mem_append.mp hc with hc | hc
        · exact hout c hc
        · rw [mem_singleton.mp hc]
          rfl
      · exact ih hout

theorem sanitizeLabel_chars (text : Text) : ∀ c ∈ sanitizeLabel text, isLabelChar c = true :=
  sanitizeFrom_chars fun _ hc => absurd hc not_mem_nil

/-! ### Fresh labels -/

theorem isWord_suffixed_iff {label : Text} {suffix : ℕ} :
    Solid (suffixed label suffix) ↔ Solid label := by
  refine ⟨fun h c hc => h c (mem_append_left _ hc), fun h c hc => ?_⟩
  rcases mem_append.mp hc with hc | hc
  · exact h c hc
  · rcases mem_cons.mp hc with rfl | hc
    · rfl
    · exact isWhitespace_of_isDigit (isDigit_of_mem_toDigits hc)

theorem isLabel_suffixed {label : Text} (h : IsLabel label) (suffix : ℕ) :
    IsLabel (suffixed label suffix) where
  ne_nil := append_ne_nil_of_left_ne_nil h.ne_nil _
  chars c hc := by
    rcases mem_append.mp hc with hc | hc
    · exact h.chars c hc
    · rcases mem_cons.mp hc with rfl | hc
      · rfl
      · have hdigit : '0' ≤ c ∧ c ≤ '9' := of_decide_eq_true (isDigit_of_mem_toDigits hc)
        exact isLabelChar_of_isAlnum (decide_eq_true (Or.inr (Or.inr hdigit)))

theorem suffixed_ne_onto (label : Text) (suffix : ℕ) : suffixed label suffix ≠ onto := fun h => by
  have hdash : '-' ∈ onto := h ▸ mem_append_right _ mem_cons_self
  exact absurd hdash (by decide)

section

variable {input : MergesScriptInput} {state : LabelState} {oid label wanted : Text}

theorem uniqueLabel_cases (state : LabelState) (label oid : Text) :
    (clashes state label oid = false ∧ uniqueLabel state label oid = label) ∨
      clashes state label oid = true ∧ ∃ suffix,
        uniqueLabel state label oid = suffixed label suffix := by
  rw [uniqueLabel]
  by_cases h : clashes state label oid = true
  · rw [if_pos h]
    exact Or.inr ⟨h, _, rfl⟩
  · rw [if_neg h]
    exact Or.inl ⟨Bool.eq_false_iff.mpr h, rfl⟩

theorem clashes_onto (state : LabelState) (oid : Text) :
    clashes state onto oid = state.labels.contains onto := by
  have hhex : onto.all isHex = false := by decide
  rw [clashes, hhex, Bool.and_false, Bool.false_or]

theorem uniqueLabel_eq_onto : uniqueLabel state label oid = onto ↔
    label = onto ∧ state.labels.contains onto = false := by
  rcases uniqueLabel_cases state label oid with ⟨hfree, heq⟩ | ⟨htaken, suffix, heq⟩
  · rw [heq]
    refine ⟨fun h => ⟨h, ?_⟩, And.left⟩
    rwa [h, clashes_onto] at hfree
  · rw [heq]
    refine ⟨fun h => absurd h (suffixed_ne_onto label suffix), fun ⟨h, hfree⟩ => ?_⟩
    rw [h, clashes_onto, hfree] at htaken
    cases htaken

theorem solid_uniqueLabel : Solid (uniqueLabel state label oid) ↔ Solid label := by
  rcases uniqueLabel_cases state label oid with ⟨-, heq⟩ | ⟨-, suffix, heq⟩
  · rw [heq]
  · rw [heq, isWord_suffixed_iff]

theorem isLabel_uniqueLabel (h : IsLabel label) : IsLabel (uniqueLabel state label oid) := by
  rcases uniqueLabel_cases state label oid with ⟨-, heq⟩ | ⟨-, suffix, heq⟩
  · rwa [heq]
  · rw [heq]
    exact isLabel_suffixed h suffix

theorem isHexWord_abbreviationOf (hoid : IsHexWord oid)
    (h : ∀ short, input.abbreviations.get oid = some short → IsHexWord short) :
    IsHexWord (abbreviationOf input oid) := by
  rw [abbreviationOf]
  cases hget : input.abbreviations.get oid with
  | none => exact hoid.take (by decide)
  | some short => exact h short hget

theorem isHexWord_uniqueAbbreviation {short : Text} (hshort : IsHexWord short)
    (hoid : IsHexWord oid) : IsHexWord (uniqueAbbreviation state short oid) := by
  rw [uniqueAbbreviation]
  split
  · dsimp only
    cases hcut : List.find? (fun cut => ! state.labels.contains cut)
        ((range' (short.length + 1) (oid.length - (short.length + 1))).map (oid.take ·)) with
    | none => exact hoid
    | some cut =>
      obtain ⟨n, hn, rfl⟩ := mem_map.mp (mem_of_find?_eq_some hcut)
      rw [mem_range'_1] at hn
      exact hoid.take (by omega)
  · exact hshort

def baseLabel (input : MergesScriptInput) (oid wanted : Text) : Text :=
  if sanitizeLabel wanted = [] then "rev-".toList ++ abbreviationOf input oid
  else sanitizeLabel wanted

theorem freshLabel_some : freshLabel input state oid (some wanted) =
    uniqueLabel state (baseLabel input oid wanted) oid := rfl

theorem baseLabel_spec (h : IsHexWord (abbreviationOf input oid)) :
    IsLabel (baseLabel input oid wanted) ∧
      (Solid (baseLabel input oid wanted) ↔ Solid (sanitizeLabel wanted)) ∧
      (baseLabel input oid wanted = onto ↔ sanitizeLabel wanted = onto) := by
  rw [baseLabel]
  by_cases hnil : sanitizeLabel wanted = []
  · have hrev : ∀ c ∈ "rev-".toList, isLabelChar c = true ∧ isWhitespace c = false := fun c hc => by
      have hboth := all_eq_true.mp
        (show "rev-".toList.all (fun c => isLabelChar c && ! isWhitespace c) = true by rfl) c hc
      rwa [Bool.and_eq_true, Bool.not_eq_true'] at hboth
    rw [if_pos hnil, hnil]
    refine ⟨⟨cons_ne_nil _ _, fun c hc => ?_⟩,
      ⟨fun _ c hc => absurd hc not_mem_nil, fun _ c hc => ?_⟩,
      fun heq => ?_, fun heq => ?_⟩
    · exact (mem_append.mp hc).elim (fun hc => (hrev c hc).1) (h.isLabel.chars c)
    · exact (mem_append.mp hc).elim (fun hc => (hrev c hc).2) (h.isWord.solid c)
    · cases (cons.inj heq).1
    · cases heq
  · rw [if_neg hnil]
    exact ⟨⟨hnil, sanitizeLabel_chars wanted⟩, Iff.rfl, Iff.rfl⟩

theorem freshLabel_spec (h : IsHexWord (abbreviationOf input oid)) :
    IsLabel (freshLabel input state oid (some wanted)) ∧
      (Solid (freshLabel input state oid (some wanted)) ↔ Solid (sanitizeLabel wanted)) ∧
      (freshLabel input state oid (some wanted) = onto ↔
        sanitizeLabel wanted = onto ∧ state.labels.contains onto = false) := by
  obtain ⟨hlabel, hsolid, honto⟩ := @baseLabel_spec input oid wanted h
  rw [freshLabel_some, solid_uniqueLabel, uniqueLabel_eq_onto, hsolid, honto]
  exact ⟨isLabel_uniqueLabel hlabel, Iff.rfl, Iff.rfl⟩

theorem freshLabel_none (h : IsHexWord (abbreviationOf input oid)) (hoid : IsHexWord oid) :
    IsHexWord (freshLabel input state oid none) :=
  isHexWord_uniqueAbbreviation h hoid

end

/-! ### Namings -/

section

variable {input : MergesScriptInput} {state : LabelState} {oid label : Text} {wanted : Option Text}

theorem labelOid_existing (h : state.commitToLabel.get oid = some label) :
    labelOid input state oid wanted = (state, label) := by
  rw [labelOid, h]

theorem labelOid_fresh (h : state.commitToLabel.get oid = none) :
    labelOid input state oid wanted =
      (⟨state.commitToLabel.insert oid (freshLabel input state oid wanted),
        freshLabel input state oid wanted :: state.labels⟩, freshLabel input state oid wanted) := by
  rw [labelOid, h]

theorem get_labelOid_self :
    (labelOid input state oid wanted).1.commitToLabel.get oid =
      some (labelOid input state oid wanted).2 := by
  cases h : state.commitToLabel.get oid with
  | some label => rw [labelOid_existing h, h]
  | none =>
    rw [labelOid_fresh h]
    exact Dict.get_insert_self _ _ _

theorem get_labelOid_of_ne {other : Text} (hne : other ≠ oid) :
    (labelOid input state oid wanted).1.commitToLabel.get other =
      state.commitToLabel.get other := by
  cases h : state.commitToLabel.get oid with
  | some label => rw [labelOid_existing h]
  | none =>
    rw [labelOid_fresh h]
    exact Dict.get_insert_of_ne _ _ hne

/-- What has a label keeps it. -/
theorem get_labelOid_of_some {other : Text} (h : state.commitToLabel.get other = some label) :
    (labelOid input state oid wanted).1.commitToLabel.get other = some label := by
  by_cases heq : other = oid
  · subst heq
    rw [labelOid_existing h, h]
  · rw [get_labelOid_of_ne heq, h]

def LabelState.Indexed (state : LabelState) : Prop :=
  ∀ label, label ∈ state.labels ↔ ∃ oid, state.commitToLabel.get oid = some label

theorem LabelState.Indexed.labelOid (input : MergesScriptInput) (oid : Text)
    (wanted : Option Text) (h : state.Indexed) :
    (labelOid input state oid wanted).1.Indexed := by
  cases hget : state.commitToLabel.get oid with
  | some existing => rwa [labelOid_existing hget]
  | none =>
    rw [labelOid_fresh hget]
    intro label
    dsimp only
    rw [mem_cons, h label]
    constructor
    · rintro (rfl | ⟨other, hother⟩)
      · exact ⟨oid, Dict.get_insert_self _ _ _⟩
      · have hne : other ≠ oid := by
          rintro rfl
          rw [hget] at hother
          cases hother
        exact ⟨other, by rw [Dict.get_insert_of_ne _ _ hne, hother]⟩
    · rintro ⟨other, hother⟩
      by_cases heq : other = oid
      · rw [heq, Dict.get_insert_self] at hother
        exact Or.inl (Option.some.inj hother).symm
      · rw [Dict.get_insert_of_ne _ _ heq] at hother
        exact Or.inr ⟨other, hother⟩

end

end Tsgit.Rebase
