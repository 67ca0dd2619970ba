import Mathlib.Data.List.DropRight
import Tsgit.TypedArray

/-!
# Lines under a Whitespace Key

`normalizeLine`, `linesEqualUnder` and `digestNormalizedLine` of `src/domain/diff/whitespace.ts`.
The digest is folded byte by byte, in two lanes: the one holds what is certain, the other what
would be so if the spaces and the CR that are pending turned out to stand inside the line.
-/

namespace Tsgit.Whitespace

open List

inductive WhitespaceMode
  | all
  | change
  | atEol
  | none
  deriving DecidableEq

structure LineKey where
  mode : WhitespaceMode
  ignoreCrAtEol : Bool
  deriving DecidableEq

def SPACE : UInt8 := 0x20
def TAB : UInt8 := 0x09
def CR : UInt8 := 0x0d
def LF : UInt8 := 0x0a

def isWs (b : UInt8) : Bool := b = SPACE || b = TAB

/-! ### The normal form -/

/-- The place of the LF terminator, or the length. -/
def lfIndex (bytes : Bytes) : ℕ :=
  if bytes.getLast? = some LF then bytes.length - 1 else bytes.length

/-- The terminator that a line has. -/
def terminatorOf (bytes : Bytes) : Bytes :=
  if lfIndex bytes < bytes.length then [LF] else []

def dropAllWs (bytes : Bytes) : Bytes :=
  (bytes.take (lfIndex bytes)).filter (!isWs ·) ++ terminatorOf bytes

/-- A turn of `collapseRuns`: what is written, and whether a run is open. -/
def collapseTurn (state : Bytes × Bool) (b : UInt8) : Bytes × Bool :=
  if isWs b then (if state.2 then state else (state.1 ++ [SPACE], true))
  else (state.1 ++ [b], false)

def collapseRuns (bytes : Bytes) : Bytes :=
  let state := (bytes.take (lfIndex bytes)).foldl collapseTurn ([], false)
  (if state.2 then state.1.dropLast else state.1) ++ terminatorOf bytes

def dropTrailingWs (bytes : Bytes) : Bytes :=
  (bytes.take (lfIndex bytes)).rdropWhile isWs ++ terminatorOf bytes

def dropTrailingCr (bytes : Bytes) : Bytes :=
  if (bytes.take (lfIndex bytes)).getLast? = some CR then
    (bytes.take (lfIndex bytes)).dropLast ++ terminatorOf bytes
  else bytes

def applyCrRule (bytes : Bytes) (key : LineKey) : Bytes :=
  if key.mode ≠ .none || (key.ignoreCrAtEol && lfIndex bytes < bytes.length) then
    dropTrailingCr bytes
  else bytes

def normalizeUnderMode (bytes : Bytes) (key : LineKey) : Bytes :=
  match key.mode with
  | .all => dropAllWs bytes
  | .change => collapseRuns bytes
  | .atEol => dropTrailingWs bytes
  | .none => bytes

def stripTerminator (bytes : Bytes) : Bytes := bytes.take (lfIndex bytes)

def lineKeyIsActive (key : LineKey) : Bool := key.mode ≠ .none || key.ignoreCrAtEol

def normalizeLine (bytes : Bytes) (key : LineKey) : Bytes :=
  let normalized := normalizeUnderMode (applyCrRule bytes key) key
  if lineKeyIsActive key then stripTerminator normalized else normalized

def linesEqualUnder (a b : Bytes) (key : LineKey) : Bool :=
  normalizeLine a key = normalizeLine b key

def isBlankLine (line : Bytes) (key : LineKey) : Bool := lfIndex (normalizeLine line key) = 0

/-! ### The digest -/

/-- A rolling hash over bytes. -/
structure LineHash (H : Type) where
  basis : H
  mix : H → UInt8 → H

def FNV_OFFSET_BASIS : UInt32 := 0x811c9dc5

def FNV_PRIME : UInt32 := 0x01000193

def fnvMix (hash : UInt32) (byte : UInt8) : UInt32 := (hash ^^^ byte.toUInt32) * FNV_PRIME

/-- The hash of the source; the fold works for any. -/
def fnv : LineHash UInt32 := ⟨FNV_OFFSET_BASIS, fnvMix⟩

structure LineDigest (H : Type) where
  length : ℕ
  terminated : Bool
  hash : H
  deriving DecidableEq

/-- What is pending: nothing, an open whitespace run, or a CR. -/
inductive Tail
  | none
  | ws
  | cr
  deriving DecidableEq

structure FoldState (H : Type) where
  committedHash : H
  committedLength : ℕ
  tentHash : H
  tentLength : ℕ
  tail : Tail
  sawLf : Bool
  lineHasBytes : Bool
  deriving DecidableEq

inductive ByteKind
  | hard
  | softWs
  | softCr
  | terminator
  deriving DecidableEq

def buildByteKinds (wsIsSoft crIsSoft : Bool) (byte : UInt8) : ByteKind :=
  if wsIsSoft && isWs byte then .softWs
  else if crIsSoft && byte = CR then .softCr
  else if byte = LF then .terminator
  else .hard

def byteKindsFor (key : LineKey) : UInt8 → ByteKind :=
  if key.mode ≠ .none then buildByteKinds true true
  else if key.ignoreCrAtEol then buildByteKinds false true
  else buildByteKinds false false

variable {H : Type} (hash : LineHash H)

def createFoldState : FoldState H := ⟨hash.basis, 0, hash.basis, 0, .none, false, false⟩

/-- A soft byte behind a pending CR proves that CR internal. -/
def FoldState.promote (state : FoldState H) : FoldState H :=
  if state.tail = .cr then
    { state with committedHash := state.tentHash, committedLength := state.tentLength }
  else state

/-- A byte into the tentative lane. -/
def FoldState.mix (state : FoldState H) (byte : UInt8) : FoldState H :=
  { state with tentHash := hash.mix state.tentHash byte, tentLength := state.tentLength + 1 }

def foldByte (key : LineKey) (state : FoldState H) (byte : UInt8) : FoldState H :=
  match byteKindsFor key byte with
  | .terminator => state
  | .hard =>
    let mixed := state.mix hash byte
    { mixed with
      committedHash := mixed.tentHash, committedLength := mixed.tentLength, tail := .none }
  | .softCr => { state.promote.mix hash byte with tail := .cr }
  | .softWs =>
    let promoted := state.promote
    { (if key.mode = .atEol then promoted.mix hash byte
        else if key.mode = .change && promoted.tail ≠ .ws then promoted.mix hash SPACE
        else promoted) with tail := .ws }

def foldRange (key : LineKey) (state : FoldState H) :
    Bytes → FoldState H × Option Bytes
  | [] => (state, none)
  | byte :: rest =>
    if byteKindsFor key byte = .terminator then ({ state with sawLf := true }, some rest)
    else foldRange key (foldByte hash key state byte) rest

def pushChunk (key : LineKey) (state : FoldState H) (chunk : Bytes) :
    FoldState H × Option Bytes :=
  foldRange hash key (if chunk = [] then state else { state with lineHasBytes := true }) chunk

/-- The hash and the length that a digest reports. -/
def selectedPair (state : FoldState H) (key : LineKey) : H × ℕ :=
  if state.tail = .cr && key.mode = .none && !state.sawLf then (state.tentHash, state.tentLength)
  else (state.committedHash, state.committedLength)

def emitDigest (state : FoldState H) (key : LineKey) : LineDigest H :=
  let pair := selectedPair state key
  let terminated := state.sawLf && !lineKeyIsActive key
  ⟨pair.2, terminated, if terminated then hash.mix pair.1 LF else pair.1⟩

def digestNormalizedLine (bytes : Bytes) (key : LineKey) : LineDigest H :=
  emitDigest hash (pushChunk hash key (createFoldState hash) bytes).1 key

def digestsEqual [DecidableEq H] (a b : LineDigest H) : Bool :=
  a.length = b.length && a.terminated = b.terminated && a.hash = b.hash

def digestIsBlank (digest : LineDigest H) : Bool := digest.length = 0

/-! ### The normal form of a content -/

/-- A content and the LF that it may end with; the content has none. -/
structure IsLine (bytes content : Bytes) (terminated : Bool) : Prop where
  eq : bytes = content ++ (if terminated then [LF] else [])
  noLf : LF ∉ content

/-- The whitespace that a key folds. -/
def softWs (key : LineKey) (b : UInt8) : Bool := key.mode ≠ .none && isWs b

/-- A key whose CRs are soft. -/
def crIsSoft (key : LineKey) : Bool := key.mode ≠ .none || key.ignoreCrAtEol

def withoutCr (content : Bytes) : Bytes :=
  if content.getLast? = some CR then content.dropLast else content

def coreOf (key : LineKey) (content : Bytes) : Bytes :=
  (if crIsSoft key then withoutCr content else content).rdropWhile (softWs key)

/-- What a mode makes of whitespace inside a line. -/
def bodyOf (mode : WhitespaceMode) (content : Bytes) : Bytes :=
  match mode with
  | .all => content.filter (!isWs ·)
  | .change => (content.foldl collapseTurn ([], false)).1
  | .atEol => content
  | .none => content

/-- The normal form of a content: its tail stays where a CR ends an incomplete line. -/
def contentUnder (key : LineKey) (content : Bytes) (terminated : Bool) : Bytes :=
  if key.mode = .none && !terminated then content else bodyOf key.mode (coreOf key content)

variable {content : Bytes}

theorem lfIndex_terminated : lfIndex (content ++ [LF]) = content.length := by
  rw [lfIndex, if_pos getLast?_concat, length_append]
  rfl

theorem lfIndex_of_noLf (h : LF ∉ content) :
    lfIndex content = content.length := by
  refine if_neg fun hlast => h ?_
  exact mem_of_getLast? hlast

variable {terminated : Bool}

variable {bytes : Bytes}

theorem IsLine.parts
    (h : IsLine bytes content terminated) : bytes.take (lfIndex bytes) = content ∧
      terminatorOf bytes = (if terminated then [LF] else []) ∧
      (lfIndex bytes < bytes.length ↔ terminated = true) := by
  obtain ⟨rfl, hnoLf⟩ := h
  cases terminated with
  | false =>
    rw [if_neg Bool.false_ne_true, append_nil, terminatorOf, lfIndex_of_noLf hnoLf]
    simp
  | true =>
    rw [if_pos rfl, terminatorOf, lfIndex_terminated]
    simp

theorem IsLine.of_mem {content' : Bytes}
    (h : IsLine bytes content terminated) (hmem : ∀ b ∈ content', b ∈ content ∨ b = SPACE) :
    IsLine (content' ++ if terminated then [LF] else []) content' terminated := by
  refine ⟨rfl, fun hlf => ?_⟩
  rcases hmem LF hlf with hold | hspace
  · exact h.noLf hold
  · exact absurd hspace (by decide)

theorem filter_rdropWhile (content : Bytes) :
    (content.rdropWhile isWs).filter (!isWs ·) = content.filter (!isWs ·) := by
  induction content using reverseRecOn with
  | nil => rfl
  | append_singleton content b ih =>
    by_cases hws : isWs b = true
    · rw [rdropWhile_concat_pos _ _ _ hws, ih, filter_append]
      simp [hws]
    · rw [rdropWhile_concat_neg _ _ _ hws]

theorem collapse_open (content : Bytes) :
    (content.foldl collapseTurn ([], false)).2 = content.getLast?.any isWs := by
  induction content using reverseRecOn with
  | nil => rfl
  | append_singleton content b ih =>
    rw [foldl_append, foldl_cons, foldl_nil, getLast?_concat, collapseTurn]
    cases hws : isWs b with
    | false => simp [hws]
    | true =>
      rw [if_pos rfl]
      split
      · rename_i hopen
        simpa [hws] using hopen
      · simp [hws]

/-- The open run is taken back. -/
theorem collapse_trailing (content : Bytes) :
    (if (content.foldl collapseTurn ([], false)).2 then
        (content.foldl collapseTurn ([], false)).1.dropLast
      else (content.foldl collapseTurn ([], false)).1) =
      ((content.rdropWhile isWs).foldl collapseTurn ([], false)).1 := by
  induction content using reverseRecOn with
  | nil => rfl
  | append_singleton content b ih =>
    by_cases hws : isWs b = true
    · rw [rdropWhile_concat_pos _ _ _ hws, ← ih, foldl_append, foldl_cons,
        foldl_nil, collapseTurn, if_pos hws]
      cases hopen : (content.foldl collapseTurn ([], false)).2 with
      | true => simp [hopen]
      | false => simp
    · rw [rdropWhile_concat_neg _ _ _ hws, foldl_append, foldl_cons,
        foldl_nil, collapseTurn, if_neg hws]
      simp

variable {b : UInt8}

theorem mem_collapse (content : Bytes)
    (h : b ∈ (content.foldl collapseTurn ([], false)).1) : b ∈ content ∨ b = SPACE := by
  induction content using reverseRecOn with
  | nil => cases h
  | append_singleton content c ih =>
    rw [foldl_append, foldl_cons, foldl_nil, collapseTurn] at h
    have hold : b ∈ (content.foldl collapseTurn ([], false)).1 → b ∈ content ++ [c] ∨ b = SPACE :=
      fun hmem => (ih hmem).imp_left (mem_append_left _)
    split at h
    · split at h
      · exact hold h
      · rcases mem_append.mp h with hmem | hspace
        · exact hold hmem
        · exact .inr (mem_singleton.mp hspace)
    · rcases mem_append.mp h with hmem | hlast
      · exact hold hmem
      · exact .inl (mem_append_right _ hlast)

variable {key : LineKey}

theorem softWs_of_mode (h : key.mode ≠ .none) : softWs key = isWs := by
  funext b
  simp [softWs, h]

theorem rdropWhile_softWs_of_none (h : key.mode = .none) (content : Bytes) :
    content.rdropWhile (softWs key) = content := by
  rw [rdropWhile_eq_self_iff]
  intro _
  simp [softWs, h]

/-- What a mode makes of a line. -/
theorem normalizeUnderMode_line
    (h : IsLine bytes content terminated) (key : LineKey) :
    IsLine (normalizeUnderMode bytes key)
      (bodyOf key.mode (content.rdropWhile (softWs key))) terminated := by
  obtain ⟨htake, hterminator, -⟩ := h.parts
  have hsub : ∀ b ∈ content.rdropWhile isWs, b ∈ content := fun b hmem =>
    ( rdropWhile_prefix isWs content).subset hmem
  cases hmode : key.mode with
  | all =>
    rw [softWs_of_mode (by rw [hmode]; decide)]
    simp only [normalizeUnderMode, hmode, dropAllWs, bodyOf, htake, hterminator, filter_rdropWhile]
    exact h.of_mem fun b hmem => .inl (mem_of_mem_filter hmem)
  | change =>
    rw [softWs_of_mode (by rw [hmode]; decide)]
    simp only [normalizeUnderMode, hmode, collapseRuns, bodyOf, htake, hterminator,
      collapse_trailing]
    exact h.of_mem fun b hmem => (mem_collapse _ hmem).imp_left (hsub b)
  | atEol =>
    rw [softWs_of_mode (by rw [hmode]; decide)]
    simp only [normalizeUnderMode, hmode, dropTrailingWs, bodyOf, htake, hterminator]
    exact h.of_mem fun b hmem => .inl (hsub b hmem)
  | none =>
    rw [rdropWhile_softWs_of_none hmode]
    simp only [normalizeUnderMode, hmode, bodyOf]
    exact h

theorem applyCrRule_line
    (h : IsLine bytes content terminated) (key : LineKey) :
    IsLine (applyCrRule bytes key)
      (if key.mode ≠ .none || (key.ignoreCrAtEol && terminated) then withoutCr content
        else content) terminated := by
  obtain ⟨htake, hterminator, hlt⟩ := h.parts
  have hdecide : decide (lfIndex bytes < bytes.length) = terminated := by
    cases terminated with
    | true => exact decide_eq_true (hlt.mpr rfl)
    | false => exact decide_eq_false fun h => Bool.false_ne_true (hlt.mp h)
  rw [applyCrRule, hdecide]
  split
  · rw [dropTrailingCr, withoutCr, htake, hterminator]
    split
    · exact h.of_mem fun b hmem => .inl (( dropLast_prefix _).subset hmem)
    · exact h
  · exact h

/-- **The normal form of a line**, by its content. -/
theorem normalizeLine_eq
    (h : IsLine bytes content terminated) (key : LineKey) :
    IsLine (normalizeLine bytes key) (contentUnder key content terminated)
      (terminated && !lineKeyIsActive key) := by
  have hcontent : bodyOf key.mode
      ((if key.mode ≠ .none || (key.ignoreCrAtEol && terminated) then withoutCr content
        else content).rdropWhile (softWs key)) = contentUnder key content terminated := by
    by_cases hmode : key.mode = .none
    · rw [contentUnder, coreOf, rdropWhile_softWs_of_none hmode, rdropWhile_softWs_of_none hmode]
      cases terminated <;> simp [hmode, crIsSoft, bodyOf]
    · simp [contentUnder, coreOf, hmode, crIsSoft]
  have hline := normalizeUnderMode_line (applyCrRule_line h key) key
  rw [hcontent] at hline
  rw [normalizeLine]
  cases hactive : lineKeyIsActive key with
  | false =>
    rw [if_neg Bool.false_ne_true, Bool.not_false, Bool.and_true]
    exact hline
  | true =>
    rw [if_pos rfl, Bool.not_true, Bool.and_false, stripTerminator, hline.parts.1]
    exact ⟨(append_nil _).symm, hline.noLf⟩

/-! ### The fold -/

/-- The hash of a byte string. -/
def hashOf (bytes : Bytes) : H := bytes.foldl hash.mix hash.basis

theorem hashOf_append (bytes : Bytes) (b : UInt8) :
    hashOf hash (bytes ++ [b]) = hash.mix (hashOf hash bytes) b := by
  rw [hashOf, foldl_append]
  rfl

theorem byteKindsFor_eq (key : LineKey) (b : UInt8) : byteKindsFor key b =
    if softWs key b then .softWs else if crIsSoft key && b = CR then .softCr
      else if b = LF then .terminator else .hard := by
  obtain ⟨mode, ignoreCr⟩ := key
  cases mode <;> cases ignoreCr <;> rfl

theorem isWs_CR : isWs CR = false := by decide

theorem byteKindsFor_softWs :
    byteKindsFor key b = .softWs ↔ softWs key b = true := by
  rw [byteKindsFor_eq]
  by_cases hws : softWs key b = true
  · rw [if_pos hws]
    exact iff_of_true rfl hws
  · rw [if_neg hws]
    refine iff_of_false ?_ hws
    split
    · simp
    · split <;> simp

theorem byteKindsFor_softCr :
    byteKindsFor key b = .softCr ↔ crIsSoft key = true ∧ b = CR := by
  rw [byteKindsFor_eq]
  split
  · rename_i hws
    refine iff_of_false (by simp) ?_
    rintro ⟨-, rfl⟩
    rw [softWs, isWs_CR, Bool.and_false] at hws
    exact Bool.false_ne_true hws
  split
  · rename_i hcr
    simpa using hcr
  · rename_i hcr
    refine iff_of_false ?_ (by simpa using hcr)
    split <;> simp

theorem byteKindsFor_terminator :
    byteKindsFor key b = .terminator ↔ b = LF := by
  constructor
  · intro h
    rw [byteKindsFor_eq] at h
    split at h
    · cases h
    · split at h
      · cases h
      · split at h
        · assumption
        · cases h
  · rintro rfl
    obtain ⟨mode, ignoreCr⟩ := key
    cases mode <;> cases ignoreCr <;> rfl

/-- What is pending behind a content. -/
def tailOf (key : LineKey) (content : Bytes) : Tail :=
  if content.getLast?.any (softWs key) then .ws
  else if crIsSoft key && content.getLast? = some CR then .cr
  else .none

theorem coreOf_eq (h : tailOf key content ≠ .cr) :
    coreOf key content = content.rdropWhile (softWs key) := by
  rw [coreOf]
  split
  · rename_i hsoft
    by_cases hlast : content.getLast? = some CR
    · refine absurd ?_ h
      rw [tailOf, hlast, Option.any_some, softWs, isWs_CR, Bool.and_false, hsoft]
      rfl
    · rw [withoutCr, if_neg hlast]
  · rfl

theorem rdropWhile_of_cr (h : tailOf key content = .cr) :
    content.rdropWhile (softWs key) = content := by
  rcases content.eq_nil_or_concat with rfl | ⟨front, last, rfl⟩
  · rfl
  rw [concat_eq_append] at h ⊢
  rw [tailOf, getLast?_concat, Option.any_some] at h
  by_cases hws : softWs key last = true
  · rw [if_pos hws] at h
    cases h
  · exact rdropWhile_concat_neg _ _ _ hws

theorem coreOf_hard
    (hws : softWs key b = false) (hcr : ¬(crIsSoft key = true ∧ b = CR)) :
    coreOf key (content ++ [b]) = content ++ [b] := by
  have hkeep : (content ++ [b]).rdropWhile (softWs key) = content ++ [b] :=
    rdropWhile_concat_neg _ _ _ (by simp [hws])
  rw [coreOf_eq, hkeep]
  rw [tailOf, getLast?_concat, Option.any_some, hws]
  simpa using hcr

theorem coreOf_softCr (content : Bytes) (h : crIsSoft key = true) :
    coreOf key (content ++ [CR]) = content.rdropWhile (softWs key) := by
  rw [coreOf, if_pos h, withoutCr, if_pos getLast?_concat, dropLast_concat]

theorem coreOf_softWs (content : Bytes) (h : softWs key b = true) :
    coreOf key (content ++ [b]) = content.rdropWhile (softWs key) := by
  rw [coreOf_eq, rdropWhile_concat_pos _ _ _ h]
  rw [tailOf, getLast?_concat, Option.any_some, if_pos h]
  simp

theorem bodyOf_append (content : Bytes)
    (h : softWs key b = false) :
    bodyOf key.mode (content ++ [b]) = bodyOf key.mode content ++ [b] := by
  cases hmode : key.mode with
  | all =>
    have hws : isWs b = false := by simpa [softWs, hmode] using h
    simp [bodyOf, hws]
  | change =>
    have hws : isWs b = false := by simpa [softWs, hmode] using h
    simp [bodyOf, collapseTurn, hws]
  | atEol => rfl
  | none => rfl

/-- The lanes of a fold, as byte strings: the normal form of the bytes so far without their soft
tail, and with it. -/
structure Folded (key : LineKey) (content : Bytes) (state : FoldState H) : Prop where
  committedHash : state.committedHash = hashOf hash (bodyOf key.mode (coreOf key content))
  committedLength : state.committedLength = (bodyOf key.mode (coreOf key content)).length
  tentHash : state.tentHash = hashOf hash (bodyOf key.mode content)
  tentLength : state.tentLength = (bodyOf key.mode content).length
  tail : state.tail = tailOf key content

variable {hash}

theorem FoldState.promote_tent (state : FoldState H) : state.promote.tentHash = state.tentHash ∧
    state.promote.tentLength = state.tentLength ∧ state.promote.tail = state.tail := by
  rw [FoldState.promote]
  split <;> exact ⟨rfl, rfl, rfl⟩

variable {state : FoldState H}

/-- **What a soft byte commits**: all that stands before the whitespace. -/
theorem Folded.promote (h : Folded hash key content state) :
    state.promote.committedHash = hashOf hash (bodyOf key.mode (content.rdropWhile (softWs key))) ∧
      state.promote.committedLength =
        (bodyOf key.mode (content.rdropWhile (softWs key))).length := by
  rw [FoldState.promote]
  split
  · rename_i htail
    rw [h.tail] at htail
    rw [rdropWhile_of_cr htail]
    exact ⟨h.tentHash, h.tentLength⟩
  · rename_i htail
    rw [h.tail] at htail
    rw [← coreOf_eq htail]
    exact ⟨h.committedHash, h.committedLength⟩

theorem collapse_open_iff (h : key.mode = .change) (content : Bytes) :
    (content.foldl collapseTurn ([], false)).2 = decide (tailOf key content = .ws) := by
  have hmode : key.mode ≠ .none := by rw [h]; decide
  rw [collapse_open, tailOf, softWs_of_mode hmode]
  cases content.getLast?.any isWs with
  | true => rfl
  | false =>
    rw [if_neg Bool.false_ne_true]
    split <;> rfl

theorem foldByte_hard (h : byteKindsFor key b = .hard)
    (state : FoldState H) : foldByte hash key state b =
      ⟨hash.mix state.tentHash b, state.tentLength + 1, hash.mix state.tentHash b,
        state.tentLength + 1, .none, state.sawLf, state.lineHasBytes⟩ := by
  rw [foldByte, h]
  rfl

theorem foldByte_softCr (h : byteKindsFor key b = .softCr)
    (state : FoldState H) :
    foldByte hash key state b = { state.promote.mix hash b with tail := .cr } := by
  rw [foldByte, h]

theorem foldByte_softWs (h : byteKindsFor key b = .softWs)
    (state : FoldState H) : foldByte hash key state b =
      { (if key.mode = .atEol then state.promote.mix hash b
          else if key.mode = .change && state.promote.tail ≠ .ws then state.promote.mix hash SPACE
          else state.promote) with tail := .ws } := by
  rw [foldByte, h]

theorem Folded.hard
    (h : Folded hash key content state) (hkind : byteKindsFor key b = .hard) :
    Folded hash key (content ++ [b]) (foldByte hash key state b) := by
  have hws : softWs key b = false := by
    rw [← Bool.not_eq_true, ← byteKindsFor_softWs, hkind]
    simp
  have hcr : ¬(crIsSoft key = true ∧ b = CR) := by
    rw [← byteKindsFor_softCr, hkind]
    simp
  rw [foldByte_hard hkind]
  constructor
  · rw [coreOf_hard hws hcr, bodyOf_append _ hws, hashOf_append, h.tentHash]
  · rw [coreOf_hard hws hcr, bodyOf_append _ hws, length_append, h.tentLength, length_singleton]
  · rw [bodyOf_append _ hws, hashOf_append, h.tentHash]
  · rw [bodyOf_append _ hws, length_append, h.tentLength, length_singleton]
  · rw [tailOf, getLast?_concat, Option.any_some, hws]
    simpa using hcr

theorem Folded.softCr
    (h : Folded hash key content state) (hkind : byteKindsFor key b = .softCr) :
    Folded hash key (content ++ [b]) (foldByte hash key state b) := by
  obtain ⟨hsoft, hcr⟩ := byteKindsFor_softCr.mp hkind
  obtain ⟨htent, htentLength, -⟩ := state.promote_tent
  have hws : softWs key b = false := by rw [hcr, softWs, isWs_CR, Bool.and_false]
  have hcore : coreOf key (content ++ [b]) = content.rdropWhile (softWs key) := by
    rw [hcr]
    exact coreOf_softCr content hsoft
  rw [foldByte_softCr hkind]
  constructor
  · rw [hcore]
    exact h.promote.1
  · rw [hcore]
    exact h.promote.2
  · rw [bodyOf_append _ hws, hashOf_append, ← h.tentHash, ← htent]
    rfl
  · rw [bodyOf_append _ hws, length_append, ← h.tentLength, ← htentLength]
    rfl
  · rw [tailOf, getLast?_concat, Option.any_some, hws, hsoft, hcr]
    simp

theorem Folded.withWs {mixed : FoldState H}
    (h : Folded hash key content state) (hsoft : softWs key b = true)
    (hcommittedHash : mixed.committedHash = state.promote.committedHash)
    (hcommittedLength : mixed.committedLength = state.promote.committedLength)
    (htentHash : mixed.tentHash = hashOf hash (bodyOf key.mode (content ++ [b])))
    (htentLength : mixed.tentLength = (bodyOf key.mode (content ++ [b])).length) :
    Folded hash key (content ++ [b]) { mixed with tail := .ws } where
  committedHash := by
    rw [coreOf_softWs content hsoft]
    exact hcommittedHash.trans h.promote.1
  committedLength := by
    rw [coreOf_softWs content hsoft]
    exact hcommittedLength.trans h.promote.2
  tentHash := htentHash
  tentLength := htentLength
  tail := by rw [tailOf, getLast?_concat, Option.any_some, if_pos hsoft]

theorem Folded.softWs
    (h : Folded hash key content state) (hkind : byteKindsFor key b = .softWs) :
    Folded hash key (content ++ [b]) (foldByte hash key state b) := by
  have hsoft := byteKindsFor_softWs.mp hkind
  obtain ⟨htent, htentLength, htail⟩ := state.promote_tent
  obtain ⟨hmode, hws⟩ : key.mode ≠ .none ∧ isWs b = true := by
    simpa [Whitespace.softWs] using hsoft
  rw [h.tentHash] at htent
  rw [h.tentLength] at htentLength
  rw [h.tail] at htail
  -- what a byte more in the tentative lane comes to
  have hmix : ∀ c : UInt8, bodyOf key.mode (content ++ [b]) = bodyOf key.mode content ++ [c] →
      Folded hash key (content ++ [b]) { state.promote.mix hash c with tail := .ws } := by
    intro c hbody
    refine h.withWs hsoft rfl rfl ?_ ?_
    · rw [hbody, hashOf_append, ← htent]
      rfl
    · rw [hbody, length_append, ← htentLength]
      rfl
  have hsame : bodyOf key.mode (content ++ [b]) = bodyOf key.mode content →
      Folded hash key (content ++ [b]) { state.promote with tail := .ws } := by
    intro hbody
    refine h.withWs hsoft rfl rfl ?_ ?_
    · rw [hbody, htent]
    · rw [hbody, htentLength]
  rw [foldByte_softWs hkind]
  cases hkey : key.mode with
  | none => exact absurd hkey hmode
  | atEol =>
    rw [if_pos rfl]
    exact hmix b (by rw [hkey]; rfl)
  | all =>
    rw [if_neg (by decide), if_neg (by simp)]
    refine hsame ?_
    rw [hkey]
    simp [bodyOf, hws]
  | change =>
    have hopen := collapse_open_iff hkey content
    rw [if_neg (by decide), htail]
    by_cases hpending : tailOf key content = .ws
    · rw [if_neg (by simp [hpending])]
      refine hsame ?_
      rw [hkey, bodyOf, bodyOf, foldl_append, foldl_cons, foldl_nil,
        collapseTurn, if_pos hws, hopen, if_pos (decide_eq_true hpending)]
    · rw [if_pos (by simp [hpending])]
      refine hmix SPACE ?_
      rw [hkey, bodyOf, bodyOf, foldl_append, foldl_cons, foldl_nil,
        collapseTurn, if_pos hws, hopen, if_neg (by simp [hpending])]

/-- **A byte of the fold.** -/
theorem Folded.step {key : LineKey} {state : FoldState H}
    (h : Folded hash key content state) {b : UInt8} (hlf : b ≠ LF) :
    Folded hash key (content ++ [b]) (foldByte hash key state b) := by
  cases hkind : byteKindsFor key b with
  | terminator => exact absurd (byteKindsFor_terminator.mp hkind) hlf
  | hard => exact h.hard hkind
  | softCr => exact h.softCr hkind
  | softWs => exact h.softWs hkind

/-- What no byte of the fold changes. -/
theorem foldByte_flags (key : LineKey) (state : FoldState H) (b : UInt8) :
    (foldByte hash key state b).sawLf = state.sawLf ∧
      (foldByte hash key state b).lineHasBytes = state.lineHasBytes := by
  have hpromote : state.promote.sawLf = state.sawLf ∧
      state.promote.lineHasBytes = state.lineHasBytes := by
    rw [FoldState.promote]
    split <;> exact ⟨rfl, rfl⟩
  cases hkind : byteKindsFor key b with
  | terminator =>
    rw [foldByte, hkind]
    exact ⟨rfl, rfl⟩
  | hard =>
    rw [foldByte_hard hkind]
    exact ⟨rfl, rfl⟩
  | softCr =>
    rw [foldByte_softCr hkind]
    exact hpromote
  | softWs =>
    rw [foldByte_softWs hkind]
    dsimp only
    split
    · exact hpromote
    · split
      · exact hpromote
      · exact hpromote

/-- **The run of the fold** over a content without terminator. -/
theorem foldBytes_spec (key : LineKey) (hnoLf : LF ∉ content) (h : Folded hash key [] state) :
    Folded hash key content (content.foldl (foldByte hash key) state) ∧
      (content.foldl (foldByte hash key) state).sawLf = state.sawLf ∧
      (content.foldl (foldByte hash key) state).lineHasBytes = state.lineHasBytes := by
  induction content using reverseRecOn with
  | nil => exact ⟨h, rfl, rfl⟩
  | append_singleton content b ih =>
    rw [mem_append, not_or, mem_singleton] at hnoLf
    obtain ⟨hfolded, hsaw, hbytes⟩ := ih hnoLf.1
    rw [foldl_append, foldl_cons, foldl_nil]
    obtain ⟨hsaw', hbytes'⟩ := foldByte_flags key (content.foldl (foldByte hash key) state) b
    exact ⟨hfolded.step (Ne.symm hnoLf.2), hsaw'.trans hsaw, hbytes'.trans hbytes⟩

theorem foldRange_append (key : LineKey) (content : Bytes) (hnoLf : LF ∉ content)
    (state : FoldState H) (rest : Bytes) :
    foldRange hash key state (content ++ rest) =
      foldRange hash key (content.foldl (foldByte hash key) state) rest := by
  induction content generalizing state with
  | nil => rfl
  | cons b content ih =>
    rw [mem_cons, not_or] at hnoLf
    rw [cons_append, foldRange, if_neg fun h => hnoLf.1 (byteKindsFor_terminator.mp h).symm,
      ih hnoLf.2, foldl_cons]

/-- The digest of a normal form. -/
def digestOf (hash : LineHash H) (normalized : Bytes) : LineDigest H :=
  ⟨lfIndex normalized, lfIndex normalized < normalized.length, hashOf hash normalized⟩

theorem Folded.start (key : LineKey)
    (hcommitted : state.committedHash = hash.basis)
    (hcommittedLength : state.committedLength = 0) (htent : state.tentHash = hash.basis)
    (htentLength : state.tentLength = 0) (htail : state.tail = .none) :
    Folded hash key [] state := by
  have hcore : coreOf key [] = [] := by
    rw [coreOf]
    split <;> rfl
  have hbody : bodyOf key.mode [] = [] := by
    cases key.mode <;> rfl
  have hnone : tailOf key [] = .none := by
    rw [tailOf]
    simp
  refine ⟨?_, ?_, ?_, ?_, htail.trans hnone.symm⟩
  · rw [hcore, hbody, hcommitted]
    rfl
  · rw [hcore, hbody, hcommittedLength]
    rfl
  · rw [hbody, htent]
    rfl
  · rw [hbody, htentLength]
    rfl

/-- **The digest that a fold emits** is that of the normal form. -/
theorem Folded.emit
    (h : Folded hash key content state)
    (hline : IsLine bytes content state.sawLf) :
    emitDigest hash state key = digestOf hash (normalizeLine bytes key) := by
  have hnormal := normalizeLine_eq hline key
  obtain ⟨htake, -, hlt⟩ := hnormal.parts
  have hpair : selectedPair state key = (hashOf hash (contentUnder key content state.sawLf),
      (contentUnder key content state.sawLf).length) := by
    rw [selectedPair, contentUnder]
    by_cases hmode : key.mode = .none
    · have hbody : ∀ bytes : Bytes, bodyOf key.mode bytes = bytes := by
        rw [hmode]
        exact fun _ => rfl
      cases hsaw : state.sawLf with
      | true => simp [h.committedHash, h.committedLength]
      | false =>
        by_cases htail : state.tail = .cr
        · simp [hmode, htail, h.tentHash, h.tentLength, bodyOf]
        · have hcore := coreOf_eq (h.tail ▸ htail)
          rw [rdropWhile_softWs_of_none hmode] at hcore
          simp [hmode, htail, h.committedHash, h.committedLength, hcore, bodyOf]
    · simp [hmode, h.committedHash, h.committedLength]
  have hlength : lfIndex (normalizeLine bytes key) =
      (contentUnder key content state.sawLf).length := by
    have hle : lfIndex (normalizeLine bytes key) ≤ (normalizeLine bytes key).length := by
      rw [lfIndex]
      split <;> omega
    rw [← htake, length_take, Nat.min_eq_left hle]
  have hterminated : decide (lfIndex (normalizeLine bytes key) < (normalizeLine bytes key).length) =
      (state.sawLf && !lineKeyIsActive key) := by
    cases hends : (state.sawLf && !lineKeyIsActive key) with
    | true => exact decide_eq_true (hlt.mpr hends)
    | false =>
      refine decide_eq_false fun hless => ?_
      rw [hlt.mp hless] at hends
      cases hends
  rw [emitDigest, digestOf, hpair, hterminated, hlength, hnormal.eq]
  cases hends : (state.sawLf && !lineKeyIsActive key) with
  | true => simp [hashOf_append]
  | false => simp

/-- A line: what `splitLines` makes. -/
structure Line where
  bytes : Bytes
  content : Bytes
  terminated : Bool
  isLine : IsLine bytes content terminated
  nonempty : bytes ≠ []

/-- **The fold over a line**, from a fresh state, and what it leaves behind the terminator. -/
theorem foldRange_line (key : LineKey)
    (h : IsLine bytes content terminated)
    (hstart : Folded hash key [] state) (hsaw : state.sawLf = false) (rest : Bytes)
    (hrest : terminated = false → rest = []) :
    ∃ state', foldRange hash key state (bytes ++ rest) =
        (state', if terminated then some rest else none) ∧
      emitDigest hash state' key = digestOf hash (normalizeLine bytes key) ∧
      state'.lineHasBytes = state.lineHasBytes := by
  obtain ⟨hfolded, hsaw', hbytes⟩ := foldBytes_spec key h.noLf hstart
  rw [hsaw] at hsaw'
  rw [h.eq, append_assoc, foldRange_append key content h.noLf]
  cases terminated with
  | false =>
    rw [hrest rfl]
    refine ⟨_, rfl, ?_, hbytes⟩
    have hline : IsLine bytes content (content.foldl (foldByte hash key) state).sawLf := by
      rw [hsaw']
      exact h
    exact (h.eq ▸ hfolded.emit hline :)
  | true =>
    rw [if_pos rfl, singleton_append, foldRange, if_pos (byteKindsFor_terminator.mpr rfl),
      if_pos rfl]
    refine ⟨_, rfl, ?_, hbytes⟩
    have hended : Folded hash key content
        { content.foldl (foldByte hash key) state with sawLf := true } :=
      ⟨hfolded.committedHash, hfolded.committedLength, hfolded.tentHash, hfolded.tentLength,
        hfolded.tail⟩
    exact hended.emit ⟨rfl, h.noLf⟩

/-- **The digest of a line is that of its normal form.** -/
theorem digestNormalizedLine_eq (hash : LineHash H) (key : LineKey) (line : Line) :
    digestNormalizedLine hash line.bytes key = digestOf hash (normalizeLine line.bytes key) := by
  have hstart : Folded hash key [] { createFoldState hash with lineHasBytes := true } :=
    Folded.start key rfl rfl rfl rfl rfl
  obtain ⟨state, hrun, hdigest, -⟩ := foldRange_line key line.isLine hstart rfl [] fun _ => rfl
  rw [append_nil] at hrun
  rw [digestNormalizedLine, pushChunk, if_neg line.nonempty, hrun]
  exact hdigest

theorem digestsEqual_eq_true [DecidableEq H] {a b : LineDigest H} :
    digestsEqual a b = true ↔ a = b := by
  obtain ⟨length, terminated, hash⟩ := a
  obtain ⟨length', terminated', hash'⟩ := b
  simp [digestsEqual, and_assoc]

/-- **Where the hashes of normal forms do not collide, digests are equal as normal forms are.** -/
theorem digestOf_inj {a b : Bytes} (h : hashOf hash a = hashOf hash b → a = b) :
    digestOf hash a = digestOf hash b ↔ a = b :=
  ⟨fun heq => h (congrArg LineDigest.hash heq), fun heq => by rw [heq]⟩

end Tsgit.Whitespace
