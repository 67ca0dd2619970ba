import Tsgit.CommitRoundTrip
import Tsgit.DecodeSplit
import Tsgit.RefName

/-!
# Bundle Headers

The reader and the writer of the header of a bundle: `src/domain/bundle/parse-bundle-header.ts` and
`src/domain/bundle/serialize-bundle-header.ts`, with the filters of
`src/domain/protocol/object-filter.ts`.
-/

namespace Tsgit.Bundle

open List

/-! ### Object filters -/

inductive ObjectFilter
  | blobNone
  | blobLimit (bytes : ℕ)
  | treeDepth (depth : ℕ)
  deriving DecidableEq

def invalidFilterSpec {α : Type} (spec : Text) (reason : String) : Except Thrown α :=
  .error (.refusal (.invalidFilterSpec spec reason))

def blobLimitPrefix : Text := ['b', 'l', 'o', 'b', ':', 'l', 'i', 'm', 'i', 't', '=']
def treePrefix : Text := ['t', 'r', 'e', 'e', ':']
def blobNoneSpec : Text := ['b', 'l', 'o', 'b', ':', 'n', 'o', 'n', 'e']

/-- The suffix of `/^(\d+)([kmg])?$/i` as a multiplier. -/
def sizeMultiplier : Text → Option ℕ
  | [] => some 1
  | ['k'] => some 1024
  | ['K'] => some 1024
  | ['m'] => some (1024 * 1024)
  | ['M'] => some (1024 * 1024)
  | ['g'] => some (1024 * 1024 * 1024)
  | ['G'] => some (1024 * 1024 * 1024)
  | _ => none

def parseBlobLimit (spec : Text) : Except Thrown ObjectFilter :=
  let rest := spec.drop blobLimitPrefix.length
  let digits := rest.takeWhile isDigit
  match sizeMultiplier (rest.dropWhile isDigit) with
  | none => invalidFilterSpec spec "bad-blob-limit"
  | some multiplier =>
    let bytes := Nat.ofDigitChars 10 digits 0 * multiplier
    if digits = [] ∨ bytes > 2 ^ 53 - 1 then invalidFilterSpec spec "bad-blob-limit"
    else .ok (.blobLimit bytes)

def parseTreeDepth (spec : Text) : Except Thrown ObjectFilter :=
  let rest := spec.drop treePrefix.length
  let depth := Nat.ofDigitChars 10 rest 0
  if rest = [] ∨ rest.all isDigit = false ∨ depth > 2 ^ 53 - 1 then
    invalidFilterSpec spec "bad-tree-depth"
  else .ok (.treeDepth depth)

def parseObjectFilter (spec : Text) : Except Thrown ObjectFilter :=
  if spec = [] then invalidFilterSpec spec "empty"
  else if spec = blobNoneSpec then .ok .blobNone
  else if blobLimitPrefix.isPrefixOf spec then parseBlobLimit spec
  else if treePrefix.isPrefixOf spec then parseTreeDepth spec
  else invalidFilterSpec spec "unknown-kind"

/-! ### Headers -/

inductive BundleVersion
  | v2
  | v3
  deriving DecidableEq

structure BundleRef where
  oid : Text
  name : Text
  deriving DecidableEq

structure BundlePrerequisite where
  oid : Text
  comment : Text
  deriving DecidableEq

structure ParsedBundleHeader where
  version : BundleVersion
  hashAlgorithm : HashConfig
  prerequisites : List BundlePrerequisite
  refs : List BundleRef
  filter : Option ObjectFilter
  packOffset : ℕ
  deriving DecidableEq

def magicV2 : Text :=
  ['#', ' ', 'v', '2', ' ', 'g', 'i', 't', ' ', 'b', 'u', 'n', 'd', 'l', 'e']

def magicV3 : Text :=
  ['#', ' ', 'v', '3', ' ', 'g', 'i', 't', ' ', 'b', 'u', 'n', 'd', 'l', 'e']

def objectFormatPrefix : Text :=
  ['o', 'b', 'j', 'e', 'c', 't', '-', 'f', 'o', 'r', 'm', 'a', 't', '=']

def filterPrefix : Text := ['f', 'i', 'l', 't', 'e', 'r', '=']

def algorithmName : HashConfig → Text
  | .sha1 => ['s', 'h', 'a', '1']
  | .sha256 => ['s', 'h', 'a', '2', '5', '6']

def maxBundleDetailInError : ℕ := 256

def boundedDetail : BundleBadHeaderDetails → BundleBadHeaderDetails
  | .notABundle => .notABundle
  | .unknownHashAlgorithm algorithm =>
    .unknownHashAlgorithm ((sanitizeForDisplay algorithm).take maxBundleDetailInError)
  | .unknownCapability capability =>
    .unknownCapability ((sanitizeForDisplay capability).take maxBundleDetailInError)
  | .malformedHeader line length =>
    .malformedHeader ((sanitizeForDisplay line).take maxBundleDetailInError) length

def bundleBadHeader {α : Type} (path : Text) (details : BundleBadHeaderDetails) :
    Except Thrown α :=
  .error (.refusal (.bundleBadHeader (sanitizeForDisplay path) (boundedDetail details)))

/-- The refusal of a line, with its length in bytes. -/
def malformedHeader {α : Type} (path line : Text) : Except Thrown α :=
  bundleBadHeader path (.malformedHeader line (encode line).length)

/-! ### The reader -/

/-- The loop over the places of a line feed that another one follows: the place behind both. -/
def findBlankLineOffsetFrom : ℕ → Bytes → Option ℕ
  | i, a :: b :: rest =>
    if a = newline ∧ b = newline then some (i + 2)
    else findBlankLineOffsetFrom (i + 1) (b :: rest)
  | _, _ => none

def findBlankLineOffset (bytes : Bytes) : Option ℕ := findBlankLineOffsetFrom 0 bytes

def parseMagicLine (line path : Text) : Except Thrown (BundleVersion × Option HashConfig) :=
  if line = magicV3 then .ok (.v3, none)
  else if line ≠ magicV2 then bundleBadHeader path .notABundle
  else .ok (.v2, some .sha1)

structure CapabilityState where
  hashAlgorithm : Option HashConfig
  filter : Option ObjectFilter
  deriving DecidableEq

def applyCapability (line : Text) (state : CapabilityState) (path : Text) :
    Except Thrown CapabilityState :=
  let rest := line.drop 1
  if objectFormatPrefix.isPrefixOf rest then
    let algorithm := rest.drop objectFormatPrefix.length
    if algorithm = algorithmName .sha1 then .ok { state with hashAlgorithm := some .sha1 }
    else if algorithm = algorithmName .sha256 then .ok { state with hashAlgorithm := some .sha256 }
    else bundleBadHeader path (.unknownHashAlgorithm algorithm)
  else if filterPrefix.isPrefixOf rest then do
    let filter ← parseObjectFilter (rest.drop filterPrefix.length)
    pure { state with filter := some filter }
  else bundleBadHeader path (.unknownCapability rest)

/-- The run of capabilities in front: how many lines it takes, and what they say. -/
def parseCapabilities (path : Text) (consumed : ℕ) (state : CapabilityState) :
    List Text → Except Thrown (ℕ × CapabilityState)
  | [] => .ok (consumed, state)
  | line :: rest =>
    if ['@'].isPrefixOf line then do
      let state ← applyCapability line state path
      parseCapabilities path (consumed + 1) state rest
    else .ok (consumed, state)

def hexLength (config : HashConfig) : ℕ := 2 * config.digestLength

def isOid (value : Text) (config : HashConfig) : Bool :=
  value.length = hexLength config ∧ value.all isHexDigit

def requireHashConfig (hashAlgorithm : Option HashConfig) (line path : Text) :
    Except Thrown HashConfig :=
  match hashAlgorithm with
  | none => malformedHeader path line
  | some algorithm => .ok algorithm

def parsePrerequisiteLine (line path : Text) (config : HashConfig) :
    Except Thrown BundlePrerequisite :=
  let rest := line.drop 1
  let oidStr := rest.takeWhile (· ≠ ' ')
  let comment := (rest.dropWhile (· ≠ ' ')).drop 1
  if isOid oidStr config = false then malformedHeader path line
  else do
    let oid ← objectIdFrom oidStr
    pure ⟨oid, comment⟩

def parseRefLine (line path : Text) (config : HashConfig) : Except Thrown BundleRef :=
  if ' ' ∉ line then malformedHeader path line
  else
    let oidStr := line.takeWhile (· ≠ ' ')
    let name := (line.dropWhile (· ≠ ' ')).drop 1
    if isOid oidStr config = false then malformedHeader path line
    else do
      let oid ← objectIdFrom oidStr
      let name ← refNameFrom name
      pure ⟨oid, name⟩

def parseContentLines (path : Text) (hashAlgorithm : Option HashConfig) :
    List Text → Except Thrown (List BundlePrerequisite × List BundleRef)
  | [] => .ok ([], [])
  | line :: rest => do
    let config ← requireHashConfig hashAlgorithm line path
    if ['-'].isPrefixOf line then
      let prerequisite ← parsePrerequisiteLine line path config
      let (prerequisites, refs) ← parseContentLines path hashAlgorithm rest
      pure (prerequisite :: prerequisites, refs)
    else
      let ref ← parseRefLine line path config
      let (prerequisites, refs) ← parseContentLines path hashAlgorithm rest
      pure (prerequisites, ref :: refs)

/-- What the reader makes of the lines that are not empty. -/
def readHeaderLines (path : Text) (packOffset : ℕ) :
    List Text → Except Thrown ParsedBundleHeader
  | [] => bundleBadHeader path .notABundle
  | magicLine :: contentLines => do
    let (version, magicHashAlgorithm) ← parseMagicLine magicLine path
    let (consumed, capabilities) ← match version with
      | .v3 => parseCapabilities path 0 ⟨none, none⟩ contentLines
      | .v2 => pure (0, ⟨magicHashAlgorithm, none⟩)
    let (prerequisites, refs) ←
      parseContentLines path capabilities.hashAlgorithm (contentLines.drop consumed)
    pure ⟨version, capabilities.hashAlgorithm.getD .sha1, prerequisites, refs,
      capabilities.filter, packOffset⟩

def headerLines (bytes : Bytes) (packOffset : ℕ) : List Text :=
  ((decode (subarray bytes 0 packOffset)).splitOn '\n').filter (· ≠ [])

def decodeHeaderLines (bytes : Bytes) (packOffset : ℕ) (path : Text) :
    Except Thrown ParsedBundleHeader :=
  readHeaderLines path packOffset (headerLines bytes packOffset)

def headerDiagnosticCap : ℕ := 64

def throwMissingBlankLine (bytes : Bytes) (path : Text) : Except Thrown ParsedBundleHeader :=
  let headerText := decode (subarray bytes 0 (min bytes.length headerDiagnosticCap))
  if !magicV2.isPrefixOf headerText && !magicV3.isPrefixOf headerText then
    bundleBadHeader path .notABundle
  else malformedHeader path (headerText.takeWhile (· ≠ '\n'))

def parseBundleHeader (bytes : Bytes) (path : Text) : Except Thrown ParsedBundleHeader :=
  match findBlankLineOffset bytes with
  | none => throwMissingBlankLine bytes path
  | some packOffset => decodeHeaderLines bytes packOffset path

/-! ### The writer -/

/-- The collation of the host, by which `localeCompare` compares: an order of texts, but not the
same one everywhere. In Danish `aa` stands behind `ff`. -/
structure Collation where
  localeCompare : Text → Text → ℤ
  trans : ∀ a b c, localeCompare a b ≤ 0 → localeCompare b c ≤ 0 → localeCompare a c ≤ 0
  total : ∀ a b, localeCompare a b ≤ 0 ∨ localeCompare b a ≤ 0

/-- The collation orders the ids by their digits, as that of English does. -/
def Collation.ByDigits (collation : Collation) : Prop :=
  ∀ hash a b, isOid a hash = true → isOid b hash = true →
    (collation.localeCompare a b ≤ 0 ↔ ¬ b < a)

def sortByOidAscending (collation : Collation) (prerequisites : List BundlePrerequisite) :
    List BundlePrerequisite :=
  prerequisites.mergeSort fun a b => collation.localeCompare a.oid b.oid ≤ 0

def encodePrerequisite (prereq : BundlePrerequisite) : Text :=
  '-' :: (prereq.oid ++ ' ' :: (prereq.comment ++ ['\n']))

def encodeRef (ref : BundleRef) : Text := ref.oid ++ ' ' :: (ref.name ++ ['\n'])

def encodeMagic (version : BundleVersion) (hashAlgorithm : HashConfig) : Text :=
  match version with
  | .v3 => magicV3 ++ '\n' :: '@' :: (objectFormatPrefix ++ (algorithmName hashAlgorithm ++ ['\n']))
  | .v2 => magicV2 ++ ['\n']

def serializeBundleHeader (collation : Collation) (version : BundleVersion)
    (hashAlgorithm : HashConfig) (prerequisites : List BundlePrerequisite) (refs : List BundleRef) : Bytes :=
  encode (encodeMagic version hashAlgorithm ++
    ((sortByOidAscending collation prerequisites).flatMap encodePrerequisite ++
      (refs.flatMap encodeRef ++ ['\n'])))

/-! ### Lines of bytes -/

/-- A prerequisite: an id behind a dash, and maybe a comment. -/
def IsPrerequisiteLine (config : HashConfig) (line : Bytes) : Prop :=
  ∃ oid, isOid oid config = true ∧
    (line = encode ('-' :: oid) ∨ ∃ comment, line = encode ('-' :: oid) ++ 0x20 :: comment)

/-- A ref: an id and a name. -/
def IsRefLine (config : HashConfig) (line : Bytes) : Prop :=
  ∃ oid name, isOid oid config = true ∧ name ≠ [] ∧ line = encode oid ++ 0x20 :: name

def objectFormatLine (hash : HashConfig) : Text := '@' :: (objectFormatPrefix ++ algorithmName hash)

def IsCapabilityLine (line : Bytes) : Prop :=
  (∃ hash, line = encode (objectFormatLine hash)) ∨
    ∃ spec filter, line = encode ('@' :: filterPrefix) ++ spec ∧
      parseObjectFilter (decodePreservingBom spec) = .ok filter

/-- The algorithm after a capability. -/
def declare (hashAlgorithm : Option HashConfig) (line : Bytes) : Option HashConfig :=
  if line = encode (objectFormatLine .sha1) then some .sha1
  else if line = encode (objectFormatLine .sha256) then some .sha256
  else hashAlgorithm

/-- The algorithm of the ids: that of version 2, or the last one declared. -/
def algorithmOf (version : BundleVersion) (capabilities : List Bytes) : Option HashConfig :=
  match version with
  | .v2 => some .sha1
  | .v3 => capabilities.foldl declare none

def magicOf : BundleVersion → Text
  | .v2 => magicV2
  | .v3 => magicV3

/-- **The lines of a header.** -/
def AreHeaderLines (lines : List Bytes) : Prop :=
  ∃ version capabilities contents, lines = encode (magicOf version) :: (capabilities ++ contents) ∧
    (version = .v2 → capabilities = []) ∧ (∀ line ∈ capabilities, IsCapabilityLine line) ∧
    ∀ line ∈ contents, ∃ config, algorithmOf version capabilities = some config ∧
      (IsPrerequisiteLine config line ∨ IsRefLine config line)

def closed (lines : List Bytes) : Bytes := lines.flatMap fun line => line ++ [newline]

/-- The first lines of some bytes, up to the empty one, and where that ends. -/
structure FirstLines (bytes : Bytes) (lines : List Bytes) (packOffset : ℕ) : Prop where
  bytes_eq : ∃ after, bytes = closed lines ++ newline :: after
  offset_eq : packOffset = (closed lines).length + 1
  filled : ∀ line ∈ lines, line ≠ []
  single : ∀ line ∈ lines, newline ∉ line

/-- **The bytes are a header** that ends at `packOffset`. -/
def IsHeader (bytes : Bytes) (packOffset : ℕ) : Prop :=
  ∃ lines, FirstLines bytes lines packOffset ∧ AreHeaderLines lines

/-! ### One line -/

section

variable {config : HashConfig} {line : Bytes} {path oid : Text}

theorem ascii_of_isHexDigit {c : Char} (h : isHexDigit c = true) : c.toNat ≤ 0x7f := by
  obtain ⟨value, hvalue⟩ := Option.isSome_iff_exists.mp h
  obtain ⟨hlt, rfl⟩ := hexDigit_parseHexDigit hvalue
  have hall : ∀ value < 16, (hexDigit value).toNat ≤ 0x7f := by decide
  exact hall value hlt

theorem isOid_iff : isOid oid config = true ↔
    oid.length = hexLength config ∧ ∀ c ∈ oid, isHexDigit c = true := by
  rw [isOid, decide_eq_true_iff, all_eq_true]

theorem hexLength_pos (config : HashConfig) : 0 < hexLength config := by
  cases config <;> decide

theorem isObjectId_of_isOid (h : isOid oid config = true) : IsObjectId oid where
  length_eq := by
    rw [(isOid_iff.mp h).1]
    cases config
    · exact .inl rfl
    · exact .inr rfl
  digits := (isOid_iff.mp h).2

theorem space_not_mem_of_isOid (h : isOid oid config = true) : ' ' ∉ oid := fun hmem =>
  absurd ((isOid_iff.mp h).2 _ hmem) (by decide)

theorem ascii_of_isOid (h : isOid oid config = true) : ∀ c ∈ oid, c.toNat ≤ 0x7f :=
  fun c hmem => ascii_of_isHexDigit ((isOid_iff.mp h).2 c hmem)

theorem ascii_of_all {text : Text} (h : text.all (fun c => decide (c.toNat ≤ 0x7f)) = true) :
    ∀ c ∈ text, c.toNat ≤ 0x7f := fun c hmem =>
  of_decide_eq_true (all_eq_true.mp h c hmem)

theorem split_at_space {word tail : Text} (hword : ' ' ∉ word)
    (htail : tail = [] ∨ ∃ rest, tail = ' ' :: rest) :
    (word ++ tail).takeWhile (· ≠ ' ') = word ∧ (word ++ tail).dropWhile (· ≠ ' ') = tail := by
  have hall : ∀ c ∈ word, decide (c ≠ ' ') = true := fun c hmem =>
    decide_eq_true fun heq => hword (heq ▸ hmem)
  rw [takeWhile_append_of_pos hall, dropWhile_append_of_pos hall]
  rcases htail with rfl | ⟨rest, rfl⟩
  · exact ⟨append_nil _, rfl⟩
  · exact ⟨append_nil _, rfl⟩

theorem dropWhile_space (text : Text) :
    text.dropWhile (· ≠ ' ') = [] ∨ ∃ rest, text.dropWhile (· ≠ ' ') = ' ' :: rest := by
  cases hrest : text.dropWhile (· ≠ ' ') with
  | nil => exact .inl rfl
  | cons c rest =>
    have hnot := @head_dropWhile_not _ (fun c => decide (c ≠ ' ')) text
      (by rw [hrest]; exact cons_ne_nil _ _)
    simp only [hrest, head_cons, decide_eq_false_iff_not, not_not] at hnot
    exact .inr ⟨rest, by rw [hnot]⟩

theorem decode_eq_nil_iff {bytes : Bytes} : decodePreservingBom bytes = [] ↔ bytes = [] := by
  cases bytes with
  | nil => exact iff_of_true rfl rfl
  | cons byte rest =>
    exact iff_of_false (decodePreservingBom_cons_ne_nil byte rest) (cons_ne_nil _ _)

theorem decode_eq_space_iff {bytes : Bytes} {text : Text} :
    decodePreservingBom bytes = ' ' :: text ↔
      ∃ rest, bytes = 0x20 :: rest ∧ decodePreservingBom rest = text := by
  constructor
  · intro h
    obtain ⟨rest, hbytes, hrest⟩ :=
      @decodePreservingBom_eq_append [' '] text (ascii_of_all rfl) bytes h
    exact ⟨rest, hbytes, hrest⟩
  · rintro ⟨rest, rfl, rfl⟩
    exact decodePreservingBom_encode_append [' '] rest

theorem decode_eq_word_iff {front : Text} (hfront : ∀ c ∈ front, c.toNat ≤ 0x7f) {tail : Text} :
    decodePreservingBom line = front ++ tail ↔
      ∃ rest, line = encode front ++ rest ∧ decodePreservingBom rest = tail := by
  constructor
  · exact decodePreservingBom_eq_append hfront
  · rintro ⟨rest, rfl, rfl⟩
    exact decodePreservingBom_encode_append front rest

theorem parsePrerequisiteLine_eq {comment text : Text} (h : isOid oid config = true)
    (htext : text = '-' :: oid ∧ comment = [] ∨ text = '-' :: (oid ++ ' ' :: comment)) :
    parsePrerequisiteLine text path config = .ok ⟨oid, comment⟩ := by
  have hparts : (text.drop 1).takeWhile (· ≠ ' ') = oid ∧
      ((text.drop 1).dropWhile (· ≠ ' ')).drop 1 = comment := by
    rcases htext with ⟨rfl, rfl⟩ | rfl
    · obtain ⟨htake, hdrop⟩ := @split_at_space oid [] (space_not_mem_of_isOid h) (.inl rfl)
      rw [append_nil] at htake hdrop
      exact ⟨htake, by rw [drop_succ_cons, drop_zero, hdrop]; rfl⟩
    · obtain ⟨htake, hdrop⟩ := @split_at_space oid (' ' :: comment) (space_not_mem_of_isOid h)
        (.inr ⟨comment, rfl⟩)
      exact ⟨htake, by rw [drop_succ_cons, drop_zero, hdrop]; rfl⟩
  rw [parsePrerequisiteLine, hparts.1, hparts.2, if_neg (by rw [h]; exact Bool.false_ne_true.symm),
    objectIdFrom_ok (isObjectId_of_isOid h)]
  rfl

theorem parseRefLine_eq {name : Text} (h : isOid oid config = true) (hname : name ≠ []) :
    parseRefLine (oid ++ ' ' :: name) path config = .ok ⟨oid, name⟩ := by
  obtain ⟨htake, hdrop⟩ := @split_at_space oid (' ' :: name) (space_not_mem_of_isOid h)
    (.inr ⟨name, rfl⟩)
  have hspace : ' ' ∈ oid ++ ' ' :: name := mem_append_right _ mem_cons_self
  rw [parseRefLine, if_neg (not_not_intro hspace), htake, hdrop,
    if_neg (by rw [h]; exact Bool.false_ne_true.symm), objectIdFrom_ok (isObjectId_of_isOid h)]
  have hnameOk : refNameFrom name = .ok name := if_neg hname
  rw [drop_succ_cons, drop_zero, hnameOk]
  rfl

theorem isPrerequisiteLine_of_ok {prerequisite : BundlePrerequisite}
    (hdash : ['-'].isPrefixOf (decodePreservingBom line) = true)
    (h : parsePrerequisiteLine (decodePreservingBom line) path config = .ok prerequisite) :
    IsPrerequisiteLine config line := by
  obtain ⟨text, htext⟩ := isPrefixOf_iff_prefix.mp hdash
  rw [parsePrerequisiteLine, ← htext, singleton_append, drop_succ_cons, drop_zero] at h
  by_cases hoid : isOid (text.takeWhile (· ≠ ' ')) config = false
  · rw [if_pos hoid] at h
    cases h
  rw [Bool.not_eq_false] at hoid
  obtain ⟨oid, hword⟩ : ∃ oid, oid = text.takeWhile (· ≠ ' ') := ⟨_, rfl⟩
  rw [← hword] at hoid
  have hsplit : decodePreservingBom line = ('-' :: oid) ++ text.dropWhile (· ≠ ' ') := by
    rw [← htext, hword]
    exact congrArg ('-' :: ·) takeWhile_append_dropWhile.symm
  have hascii : ∀ c ∈ '-' :: oid, c.toNat ≤ 0x7f :=
    forall_mem_cons.mpr ⟨by decide, ascii_of_isOid hoid⟩
  obtain ⟨rest, hline, hrest⟩ := (decode_eq_word_iff hascii).mp hsplit
  refine ⟨oid, hoid, ?_⟩
  rcases dropWhile_space text with hnone | ⟨comment, hcomment⟩
  · rw [hnone, decode_eq_nil_iff] at hrest
    exact .inl (by rw [hline, hrest, append_nil])
  · rw [hcomment, decode_eq_space_iff] at hrest
    obtain ⟨bytes, rfl, -⟩ := hrest
    exact .inr ⟨bytes, hline⟩

theorem isRefLine_of_ok {ref : BundleRef}
    (h : parseRefLine (decodePreservingBom line) path config = .ok ref) :
    IsRefLine config line := by
  obtain ⟨text, htext⟩ : ∃ text, text = decodePreservingBom line := ⟨_, rfl⟩
  rw [parseRefLine, ← htext] at h
  by_cases hspace : ' ' ∉ text
  · rw [if_pos hspace] at h
    cases h
  rw [if_neg hspace] at h
  by_cases hoid : isOid (text.takeWhile (· ≠ ' ')) config = false
  · rw [if_pos hoid] at h
    cases h
  rw [if_neg hoid] at h
  rw [Bool.not_eq_false] at hoid
  obtain ⟨oid, hword⟩ : ∃ oid, oid = text.takeWhile (· ≠ ' ') := ⟨_, rfl⟩
  rw [← hword] at hoid h
  rw [objectIdFrom_ok (isObjectId_of_isOid hoid)] at h
  have hsplit : decodePreservingBom line = oid ++ text.dropWhile (· ≠ ' ') := by
    rw [← htext, hword, takeWhile_append_dropWhile]
  obtain ⟨rest, hline, hrest⟩ := (decode_eq_word_iff (ascii_of_isOid hoid)).mp hsplit
  rcases dropWhile_space text with hnone | ⟨name, hname⟩
  · refine absurd ?_ hspace
    rw [htext, hsplit, hnone, append_nil]
    exact space_not_mem_of_isOid hoid
  rw [hname, decode_eq_space_iff] at hrest
  obtain ⟨bytes, rfl, hbytes⟩ := hrest
  refine ⟨oid, bytes, hoid, ?_, hline⟩
  rintro rfl
  have hempty : name = [] := hbytes.symm
  rw [hname, hempty] at h
  cases h

end

/-! ### The lines of a header -/

section

variable {path : Text}

theorem isOid_ne_nil {config : HashConfig} {oid : Text} (h : isOid oid config = true) :
    oid ≠ [] := by
  rintro rfl
  have hlength : 0 = hexLength config := (isOid_iff.mp h).1
  have hpos := hexLength_pos config
  omega

theorem IsPrerequisiteLine.parse {config : HashConfig} {line : Bytes}
    (h : IsPrerequisiteLine config line) :
    ['-'].isPrefixOf (decodePreservingBom line) = true ∧
      ∃ prerequisite, parsePrerequisiteLine (decodePreservingBom line) path config =
        .ok prerequisite := by
  obtain ⟨oid, hoid, rfl | ⟨comment, rfl⟩⟩ := h
  · rw [decodePreservingBom_encode]
    exact ⟨rfl, _, parsePrerequisiteLine_eq hoid (.inl ⟨rfl, rfl⟩)⟩
  have htext : decodePreservingBom (encode ('-' :: oid) ++ 0x20 :: comment) =
      '-' :: (oid ++ ' ' :: decodePreservingBom comment) := by
    rw [decodePreservingBom_encode_append, decode_eq_space_iff.mpr ⟨comment, rfl, rfl⟩]
    rfl
  rw [htext]
  exact ⟨rfl, _, parsePrerequisiteLine_eq hoid (.inr rfl)⟩

theorem IsRefLine.parse {config : HashConfig} {line : Bytes} (h : IsRefLine config line) :
    ['-'].isPrefixOf (decodePreservingBom line) = false ∧
      ['@'].isPrefixOf (decodePreservingBom line) = false ∧
      ∃ ref, parseRefLine (decodePreservingBom line) path config = .ok ref := by
  obtain ⟨oid, name, hoid, hname, rfl⟩ := h
  have htext : decodePreservingBom (encode oid ++ 0x20 :: name) =
      oid ++ ' ' :: decodePreservingBom name := by
    rw [decodePreservingBom_encode_append, decode_eq_space_iff.mpr ⟨name, rfl, rfl⟩]
  obtain ⟨c, rest, rfl⟩ := exists_cons_of_ne_nil (isOid_ne_nil hoid)
  have hdigit := (isOid_iff.mp hoid).2 c mem_cons_self
  have hne : ∀ mark : Char, isHexDigit mark = false →
      [mark].isPrefixOf ((c :: rest) ++ ' ' :: decodePreservingBom name) = false := by
    intro mark hmark
    have hdiffer : (mark == c) = false := beq_eq_false_iff_ne.mpr fun heq => by
      rw [heq, hdigit] at hmark
      cases hmark
    rw [cons_append, List.isPrefixOf, hdiffer, Bool.false_and]
  rw [htext]
  exact ⟨hne '-' (by decide), hne '@' (by decide), _,
    parseRefLine_eq hoid fun hnil => hname (decode_eq_nil_iff.mp hnil)⟩

theorem parseContentLines_isOk {hashAlgorithm : Option HashConfig} {lines : List Bytes} :
    (∃ contents, parseContentLines path hashAlgorithm (lines.map decodePreservingBom) =
        .ok contents) ↔
      ∀ line ∈ lines, ∃ config, hashAlgorithm = some config ∧
        (IsPrerequisiteLine config line ∨ IsRefLine config line) := by
  induction lines with
  | nil => exact iff_of_true ⟨_, rfl⟩ (forall_mem_nil _)
  | cons line lines ih =>
    rw [map_cons, forall_mem_cons, ← ih]
    constructor
    · rintro ⟨contents, h⟩
      rw [parseContentLines, bind_eq_ok] at h
      obtain ⟨config, hconfig, h⟩ := h
      have hsome : hashAlgorithm = some config := by
        cases hashAlgorithm with
        | none => cases hconfig
        | some algorithm =>
          cases hconfig
          rfl
      by_cases hdash : ['-'].isPrefixOf (decodePreservingBom line) = true
      · rw [if_pos hdash, bind_eq_ok] at h
        obtain ⟨prerequisite, hline, h⟩ := h
        rw [bind_eq_ok] at h
        obtain ⟨rest, hrest, -⟩ := h
        exact ⟨⟨config, hsome, .inl (isPrerequisiteLine_of_ok hdash hline)⟩, rest, hrest⟩
      · rw [if_neg hdash, bind_eq_ok] at h
        obtain ⟨ref, hline, h⟩ := h
        rw [bind_eq_ok] at h
        obtain ⟨rest, hrest, -⟩ := h
        exact ⟨⟨config, hsome, .inr (isRefLine_of_ok hline)⟩, rest, hrest⟩
    · rintro ⟨⟨config, rfl, hline⟩, ⟨prerequisites, refs⟩, hrest⟩
      have hconfig : requireHashConfig (some config) (decodePreservingBom line) path =
          .ok config := rfl
      rw [parseContentLines, ok_bind_eq hconfig]
      rcases hline with hline | hline
      · obtain ⟨hdash, prerequisite, hparse⟩ := @IsPrerequisiteLine.parse path _ _ hline
        rw [if_pos hdash, ok_bind_eq hparse, ok_bind_eq hrest]
        exact ⟨_, rfl⟩
      · obtain ⟨hdash, -, ref, hparse⟩ := @IsRefLine.parse path _ _ hline
        rw [if_neg (by rw [hdash]; exact Bool.false_ne_true), ok_bind_eq hparse, ok_bind_eq hrest]
        exact ⟨_, rfl⟩

theorem objectFormatLine_injective {a b : HashConfig}
    (h : encode (objectFormatLine a) = encode (objectFormatLine b)) : a = b := by
  have htext := congrArg decodePreservingBom h
  rw [decodePreservingBom_encode, decodePreservingBom_encode] at htext
  revert htext
  cases a <;> cases b <;> decide

/-- The algorithm that a capability leaves. -/
theorem declare_objectFormat (state : Option HashConfig) (hash : HashConfig) :
    declare state (encode (objectFormatLine hash)) = some hash := by
  unfold declare
  cases hash with
  | sha1 => rw [if_pos rfl]
  | sha256 =>
    rw [if_neg fun h => absurd (objectFormatLine_injective h) (by decide), if_pos rfl]

theorem declare_filter (state : Option HashConfig) (spec : Bytes) :
    declare state (encode ('@' :: filterPrefix) ++ spec) = state := by
  have hne : ∀ hash, encode ('@' :: filterPrefix) ++ spec ≠ encode (objectFormatLine hash) := by
    intro hash h
    have htext := congrArg decodePreservingBom h
    rw [decodePreservingBom_encode_append, decodePreservingBom_encode] at htext
    cases htext
  unfold declare
  rw [if_neg (hne _), if_neg (hne _)]

/-- **One capability**: accepted exactly if it is known. -/
theorem applyCapability_isOk {line : Bytes} {state : CapabilityState}
    (hat : ['@'].isPrefixOf (decodePreservingBom line) = true) :
    (∀ next, applyCapability (decodePreservingBom line) state path = .ok next →
      IsCapabilityLine line ∧ next.hashAlgorithm = declare state.hashAlgorithm line) ∧
    (IsCapabilityLine line →
      ∃ next, applyCapability (decodePreservingBom line) state path = .ok next) := by
  refine ⟨fun next h => ?_, fun h => ?_⟩
  · obtain ⟨text, htext⟩ := isPrefixOf_iff_prefix.mp hat
    have hdrop : (decodePreservingBom line).drop 1 = text := by
      rw [← htext]
      rfl
    rw [applyCapability, hdrop] at h
    dsimp only at h
    have hspell : ∀ hash, text.drop objectFormatPrefix.length = algorithmName hash →
        objectFormatPrefix.isPrefixOf text = true → line = encode (objectFormatLine hash) := by
      intro hash hname hformat
      obtain ⟨name, rfl⟩ := isPrefixOf_iff_prefix.mp hformat
      rw [drop_left] at hname
      subst hname
      have hascii : ∀ c ∈ objectFormatLine hash, c.toNat ≤ 0x7f := by
        cases hash
        · exact ascii_of_all rfl
        · exact ascii_of_all rfl
      obtain ⟨rest, hline, hrest⟩ := (@decode_eq_word_iff _ _ hascii []).mp
        (htext.symm.trans (append_nil _).symm)
      rw [hline, decode_eq_nil_iff.mp hrest, append_nil]
    by_cases hformat : objectFormatPrefix.isPrefixOf text = true
    · rw [if_pos hformat] at h
      by_cases hsha1 : text.drop objectFormatPrefix.length = algorithmName .sha1
      · rw [if_pos hsha1] at h
        cases h
        have hline := hspell .sha1 hsha1 hformat
        exact ⟨.inl ⟨_, hline⟩, by rw [hline, declare_objectFormat]⟩
      rw [if_neg hsha1] at h
      by_cases hsha256 : text.drop objectFormatPrefix.length = algorithmName .sha256
      · rw [if_pos hsha256] at h
        cases h
        have hline := hspell .sha256 hsha256 hformat
        exact ⟨.inl ⟨_, hline⟩, by rw [hline, declare_objectFormat]⟩
      · rw [if_neg hsha256] at h
        cases h
    · rw [if_neg hformat] at h
      by_cases hfilter : filterPrefix.isPrefixOf text = true
      · rw [if_pos hfilter, bind_eq_ok] at h
        obtain ⟨filter, hparse, h⟩ := h
        cases h
        obtain ⟨spec, rfl⟩ := isPrefixOf_iff_prefix.mp hfilter
        rw [drop_left] at hparse
        obtain ⟨rest, hline, hrest⟩ :=
          (@decode_eq_word_iff _ ('@' :: filterPrefix) (ascii_of_all rfl) _).mp htext.symm
        rw [← hrest] at hparse
        exact ⟨.inr ⟨rest, filter, hline, hparse⟩, by rw [hline, declare_filter]⟩
      · rw [if_neg hfilter] at h
        cases h
  · rcases h with ⟨hash, rfl⟩ | ⟨spec, filter, rfl, hparse⟩
    · rw [decodePreservingBom_encode]
      cases hash
      · exact ⟨_, rfl⟩
      · exact ⟨_, rfl⟩
    have htext : (decodePreservingBom (encode ('@' :: filterPrefix) ++ spec)).drop 1 =
        filterPrefix ++ decodePreservingBom spec := by
      rw [decodePreservingBom_encode_append]
      rfl
    have hfilter : filterPrefix.isPrefixOf (filterPrefix ++ decodePreservingBom spec) = true :=
      isPrefixOf_iff_prefix.mpr (prefix_append _ _)
    have hformat : objectFormatPrefix.isPrefixOf (filterPrefix ++ decodePreservingBom spec) =
        false := rfl
    rw [applyCapability, htext, hformat]
    dsimp only
    rw [if_neg Bool.false_ne_true, if_pos hfilter, drop_left, ok_bind_eq hparse]
    exact ⟨_, rfl⟩

theorem IsCapabilityLine.startsAt {line : Bytes} (h : IsCapabilityLine line) :
    ['@'].isPrefixOf (decodePreservingBom line) = true := by
  rcases h with ⟨hash, rfl⟩ | ⟨spec, filter, rfl, -⟩
  · rw [decodePreservingBom_encode]
    rfl
  · rw [decodePreservingBom_encode_append]
    rfl

/-- What the run of capabilities takes. -/
theorem parseCapabilities_ok {lines : List Bytes} {consumed count : ℕ}
    {state final : CapabilityState}
    (h : parseCapabilities path consumed state (lines.map decodePreservingBom) =
      .ok (count, final)) :
    ∃ capabilities contents, lines = capabilities ++ contents ∧
      count = consumed + capabilities.length ∧ (∀ line ∈ capabilities, IsCapabilityLine line) ∧
      final.hashAlgorithm = capabilities.foldl declare state.hashAlgorithm := by
  induction lines generalizing consumed state with
  | nil =>
    cases h
    exact ⟨[], [], rfl, rfl, forall_mem_nil _, rfl⟩
  | cons line lines ih =>
    rw [map_cons, parseCapabilities] at h
    by_cases hat : ['@'].isPrefixOf (decodePreservingBom line) = true
    · rw [if_pos hat, bind_eq_ok] at h
      obtain ⟨next, hnext, h⟩ := h
      obtain ⟨hline, hdeclare⟩ := (applyCapability_isOk hat).1 next hnext
      obtain ⟨capabilities, contents, rfl, hcount, hall, hfinal⟩ := ih h
      refine ⟨line :: capabilities, contents, rfl, ?_, forall_mem_cons.mpr ⟨hline, hall⟩, ?_⟩
      · rw [hcount, length_cons]
        omega
      · rw [hfinal, foldl_cons, hdeclare]
    · rw [if_neg hat] at h
      cases h
      exact ⟨[], line :: lines, rfl, rfl, forall_mem_nil _, rfl⟩

theorem parseCapabilities_run {capabilities contents : List Bytes} (consumed : ℕ)
    (state : CapabilityState) (hall : ∀ line ∈ capabilities, IsCapabilityLine line)
    (hnone : ∀ line ∈ contents, ['@'].isPrefixOf (decodePreservingBom line) = false) :
    ∃ final, parseCapabilities path consumed state
        ((capabilities ++ contents).map decodePreservingBom) =
          .ok (consumed + capabilities.length, final) ∧
      final.hashAlgorithm = capabilities.foldl declare state.hashAlgorithm := by
  induction capabilities generalizing consumed state with
  | nil =>
    refine ⟨state, ?_, rfl⟩
    cases contents with
    | nil => rfl
    | cons line contents =>
      have hat := hnone line mem_cons_self
      rw [nil_append, map_cons, parseCapabilities, hat]
      rfl
  | cons line capabilities ih =>
    obtain ⟨hline, hrest⟩ := forall_mem_cons.mp hall
    obtain ⟨next, hnext⟩ := (@applyCapability_isOk path line state hline.startsAt).2 hline
    obtain ⟨-, hdeclare⟩ := (applyCapability_isOk hline.startsAt).1 next hnext
    obtain ⟨final, hrun, hfinal⟩ := ih (consumed + 1) next hrest
    refine ⟨final, ?_, ?_⟩
    · rw [cons_append, map_cons, parseCapabilities, if_pos hline.startsAt,
        ok_bind_eq hnext, hrun, length_cons]
      congr 2
      omega
    · rw [hfinal, foldl_cons, hdeclare]

theorem decode_eq_magic_iff {line : Bytes} {version : BundleVersion} :
    decodePreservingBom line = magicOf version ↔ line = encode (magicOf version) := by
  constructor
  · intro h
    have hascii : ∀ c ∈ magicOf version, c.toNat ≤ 0x7f := by
      cases version
      · exact ascii_of_all rfl
      · exact ascii_of_all rfl
    obtain ⟨rest, hline, hrest⟩ := (@decode_eq_word_iff _ _ hascii []).mp
      (h.trans (append_nil _).symm)
    rw [hline, decode_eq_nil_iff.mp hrest, append_nil]
  · rintro rfl
    exact decodePreservingBom_encode _

theorem readHeaderLines_v2 {contents : List Bytes} {packOffset : ℕ} :
    (∃ header, readHeaderLines path packOffset (magicV2 :: contents.map decodePreservingBom) =
        .ok header) ↔
      ∃ read, parseContentLines path (some .sha1) (contents.map decodePreservingBom) =
        .ok read := by
  have hmagic : parseMagicLine magicV2 path = .ok (.v2, some .sha1) := rfl
  rw [readHeaderLines, ok_bind_eq hmagic]
  dsimp only
  rw [pure_bind]
  dsimp only
  rw [drop_zero]
  constructor
  · rintro ⟨header, h⟩
    obtain ⟨read, hread, -⟩ := bind_eq_ok.mp h
    exact ⟨read, hread⟩
  · rintro ⟨read, hread⟩
    rw [ok_bind_eq hread]
    exact ⟨_, rfl⟩

theorem readHeaderLines_v3 {rest : List Bytes} {packOffset : ℕ} :
    (∃ header, readHeaderLines path packOffset (magicV3 :: rest.map decodePreservingBom) =
        .ok header) ↔
      ∃ count capabilities read,
        parseCapabilities path 0 ⟨none, none⟩ (rest.map decodePreservingBom) =
          .ok (count, capabilities) ∧
        parseContentLines path capabilities.hashAlgorithm
          ((rest.drop count).map decodePreservingBom) = .ok read := by
  have hmagic : parseMagicLine magicV3 path = .ok (.v3, none) := rfl
  rw [readHeaderLines, ok_bind_eq hmagic]
  dsimp only
  constructor
  · rintro ⟨header, h⟩
    obtain ⟨⟨count, capabilities⟩, hcapabilities, h⟩ := bind_eq_ok.mp h
    obtain ⟨read, hread, -⟩ := bind_eq_ok.mp h
    rw [← map_drop] at hread
    exact ⟨count, capabilities, read, hcapabilities, hread⟩
  · rintro ⟨count, capabilities, read, hcapabilities, hread⟩
    rw [map_drop] at hread
    rw [ok_bind_eq hcapabilities, ok_bind_eq hread]
    exact ⟨_, rfl⟩

/-- **The reader accepts the lines of a header**, and no others. -/
theorem readHeaderLines_isOk {lines : List Bytes} {packOffset : ℕ} :
    (∃ header, readHeaderLines path packOffset (lines.map decodePreservingBom) = .ok header) ↔
      AreHeaderLines lines := by
  constructor
  · rintro ⟨header, h⟩
    cases lines with
    | nil => cases h
    | cons magic rest =>
      rw [map_cons] at h
      by_cases hv3 : decodePreservingBom magic = magicV3
      · rw [hv3] at h
        obtain ⟨count, capabilities, read, hcapabilities, hread⟩ :=
          readHeaderLines_v3.mp ⟨header, h⟩
        obtain ⟨run, contents, rfl, hcount, hall, hfinal⟩ := parseCapabilities_ok hcapabilities
        rw [hcount, Nat.zero_add, drop_left] at hread
        have hcontents := parseContentLines_isOk.mp ⟨read, hread⟩
        rw [hfinal] at hcontents
        exact ⟨.v3, run, contents, by rw [(@decode_eq_magic_iff _ .v3).mp hv3],
          fun hv2 => (by cases hv2), hall, hcontents⟩
      · by_cases hv2 : decodePreservingBom magic = magicV2
        · rw [hv2] at h
          obtain ⟨read, hread⟩ := readHeaderLines_v2.mp ⟨header, h⟩
          exact ⟨.v2, [], rest, by rw [(@decode_eq_magic_iff _ .v2).mp hv2]; rfl,
            fun _ => rfl, forall_mem_nil _,
            parseContentLines_isOk.mp ⟨read, hread⟩⟩
        · have hmagic : parseMagicLine (decodePreservingBom magic) path =
              bundleBadHeader path .notABundle := by
            rw [parseMagicLine, if_neg hv3, if_pos hv2]
          rw [readHeaderLines, hmagic] at h
          cases h
  · rintro ⟨version, capabilities, contents, rfl, hversion, hall, hcontents⟩
    rw [map_cons, decodePreservingBom_encode]
    cases version with
    | v2 =>
      rw [hversion rfl, nil_append]
      exact readHeaderLines_v2.mpr (parseContentLines_isOk.mpr hcontents)
    | v3 =>
      have hnone : ∀ line ∈ contents,
          ['@'].isPrefixOf (decodePreservingBom line) = false := by
        intro line hmem
        obtain ⟨config, -, hline | hline⟩ := hcontents line hmem
        · obtain ⟨hdash, -⟩ := @IsPrerequisiteLine.parse path _ _ hline
          obtain ⟨text, htext⟩ := isPrefixOf_iff_prefix.mp hdash
          rw [← htext]
          rfl
        · exact (@IsRefLine.parse path _ _ hline).2.1
      obtain ⟨final, hrun, hfinal⟩ := @parseCapabilities_run path _ _ 0 ⟨none, none⟩ hall hnone
      refine readHeaderLines_v3.mpr ⟨capabilities.length, final, ?_⟩
      rw [drop_left, hfinal]
      obtain ⟨read, hread⟩ := parseContentLines_isOk.mpr hcontents
      exact ⟨read, by rw [hrun, Nat.zero_add], hread⟩

end

/-! ### The end of a header -/

section

variable {bytes after line : Bytes} {lines : List Bytes} {path : Text}

theorem closed_cons (line : Bytes) (lines : List Bytes) :
    closed (line :: lines) = line ++ newline :: closed lines := by
  rw [closed, flatMap_cons, append_assoc]
  rfl

theorem findBlankLineOffsetFrom_line (hsingle : newline ∉ line) (i : ℕ) (b : UInt8)
    (more : Bytes) : findBlankLineOffsetFrom i (line ++ newline :: b :: more) =
      if b = newline then some (i + line.length + 2)
      else findBlankLineOffsetFrom (i + line.length + 1) (b :: more) := by
  induction line generalizing i with
  | nil =>
    rw [nil_append, findBlankLineOffsetFrom]
    by_cases hb : b = newline
    · rw [if_pos ⟨rfl, hb⟩, if_pos hb]
      rfl
    · rw [if_neg fun h => hb h.2, if_neg hb]
      rfl
  | cons a line ih =>
    have ha : a ≠ newline := fun heq => hsingle (heq ▸ mem_cons_self)
    have hstep : findBlankLineOffsetFrom i (a :: (line ++ newline :: b :: more)) =
        findBlankLineOffsetFrom (i + 1) (line ++ newline :: b :: more) := by
      cases line with
      | nil =>
        rw [nil_append, findBlankLineOffsetFrom, if_neg fun h => ha h.1]
      | cons a' line =>
        rw [cons_append, findBlankLineOffsetFrom, if_neg fun h => ha h.1]
    rw [cons_append, hstep, ih fun hmem => hsingle (mem_cons_of_mem _ hmem), length_cons]
    congr 2 <;> omega

/-- Lines of which only the first may be empty, with the line feed of an empty one. -/
structure RawLines (bytes first : Bytes) (lines : List Bytes) (packOffset : ℕ) : Prop where
  bytes_eq : ∃ after, bytes = closed (first :: lines) ++ newline :: after
  offset_eq : packOffset = (closed (first :: lines)).length + 1
  first_single : newline ∉ first
  filled : ∀ line ∈ lines, line ≠ []
  single : ∀ line ∈ lines, newline ∉ line

theorem findBlankLineOffsetFrom_closed {first : Bytes} (hfirst : newline ∉ first)
    (hfilled : ∀ line ∈ lines, line ≠ []) (hsingle : ∀ line ∈ lines, newline ∉ line) (i : ℕ) :
    findBlankLineOffsetFrom i (closed (first :: lines) ++ newline :: after) =
      some (i + (closed (first :: lines)).length + 1) := by
  induction lines generalizing first i with
  | nil =>
    have hshape : closed [first] ++ newline :: after = first ++ newline :: newline :: after := by
      rw [closed_cons]
      exact append_assoc _ _ _
    have hlength : (closed [first]).length = first.length + 1 := by
      rw [closed_cons, length_append]
      rfl
    rw [hshape, findBlankLineOffsetFrom_line hfirst, if_pos rfl, hlength]
    congr 1
  | cons next lines ih =>
    obtain ⟨hne, hfilled'⟩ := forall_mem_cons.mp hfilled
    obtain ⟨hnext, hsingle'⟩ := forall_mem_cons.mp hsingle
    obtain ⟨b, rest, rfl⟩ := exists_cons_of_ne_nil hne
    have hb : b ≠ newline := fun heq => hnext (heq ▸ mem_cons_self)
    have hshape : closed (first :: (b :: rest) :: lines) ++ newline :: after =
        first ++ newline :: b :: (rest ++ newline :: closed lines ++ newline :: after) := by
      rw [closed_cons, closed_cons, append_assoc]
      rfl
    have htail : b :: (rest ++ newline :: closed lines ++ newline :: after) =
        closed ((b :: rest) :: lines) ++ newline :: after := by
      rw [closed_cons]
      rfl
    have hlength : (closed (first :: (b :: rest) :: lines)).length =
        first.length + 1 + (closed ((b :: rest) :: lines)).length := by
      rw [closed_cons first, length_append, length_cons]
      omega
    rw [hshape, findBlankLineOffsetFrom_line hfirst, if_neg hb, htail,
      ih hnext hfilled' hsingle', hlength]
    congr 1
    omega

theorem exists_rawLines {i packOffset : ℕ} (h : findBlankLineOffsetFrom i bytes = some packOffset) :
    ∃ first lines offset, packOffset = i + offset ∧ RawLines bytes first lines offset := by
  induction i, bytes using findBlankLineOffsetFrom.induct with
  | case1 i a b rest hboth =>
    obtain ⟨rfl, rfl⟩ := hboth
    rw [findBlankLineOffsetFrom, if_pos ⟨rfl, rfl⟩] at h
    cases h
    exact ⟨[], [], 2, rfl, ⟨rest, rfl⟩, rfl, not_mem_nil,
      forall_mem_nil _, forall_mem_nil _⟩
  | case2 i a b rest hnot ih =>
    rw [findBlankLineOffsetFrom, if_neg hnot] at h
    obtain ⟨first, lines, offset, hoffset, ⟨after, hbytes⟩, hlength, hfirst, hfilled, hsingle⟩ :=
      ih h
    by_cases ha : a = newline
    · have hb : b ≠ newline := fun hb => hnot ⟨ha, hb⟩
      have hne : first ≠ [] := by
        rintro rfl
        rw [closed_cons] at hbytes
        exact hb (cons.inj hbytes).1
      refine ⟨[], first :: lines, offset + 1, by omega, ⟨after, ?_⟩, ?_, not_mem_nil,
        forall_mem_cons.mpr ⟨hne, hfilled⟩, forall_mem_cons.mpr ⟨hfirst, hsingle⟩⟩
      · rw [hbytes, ha, closed_cons []]
        rfl
      · rw [hlength, closed_cons []]
        rfl
    · refine ⟨a :: first, lines, offset + 1, by omega, ⟨after, ?_⟩, ?_, ?_, hfilled, hsingle⟩
      · rw [hbytes, closed_cons, closed_cons]
        rfl
      · rw [hlength, closed_cons, closed_cons, cons_append, length_cons]
      · intro hmem
        rcases mem_cons.mp hmem with heq | hmem
        · exact ha heq.symm
        · exact hfirst hmem
  | case3 i bytes hshort =>
    rw [findBlankLineOffsetFrom] at h
    · cases h
    · exact hshort

theorem RawLines.find {first : Bytes} {packOffset : ℕ}
    (h : RawLines bytes first lines packOffset) : findBlankLineOffset bytes = some packOffset := by
  obtain ⟨after, rfl⟩ := h.bytes_eq
  rw [findBlankLineOffset, findBlankLineOffsetFrom_closed h.first_single h.filled h.single,
    Nat.zero_add, h.offset_eq]

/-! ### The decoded lines -/

def byteOrderMark : Bytes := [0xef, 0xbb, 0xbf]

/-- A first line without the mark that the decoder drops. -/
def withoutMark : Bytes → Bytes
  | 0xef :: 0xbb :: 0xbf :: rest => rest
  | bytes => bytes

theorem withoutMark_cases (first : Bytes) :
    first = byteOrderMark ++ withoutMark first ∨ withoutMark first = first := by
  unfold withoutMark
  split
  · exact .inl rfl
  · exact .inr rfl

theorem decode_first (hline : newline ∉ line) (more : Bytes) :
    decode (line ++ newline :: more) =
      decodePreservingBom (withoutMark line ++ newline :: more) := by
  by_cases hmark : ∃ rest, line = byteOrderMark ++ rest
  · obtain ⟨rest, rfl⟩ := hmark
    rfl
  have hkept : withoutMark line = line := by
    rcases withoutMark_cases line with heq | heq
    · exact absurd ⟨_, heq⟩ hmark
    · exact heq
  rw [hkept]
  unfold decode
  split
  · next rest heq =>
    refine absurd ?_ hmark
    rcases line with _ | ⟨a, _ | ⟨b, _ | ⟨c, line⟩⟩⟩
    · cases (cons.inj heq).1
    · cases (cons.inj (cons.inj heq).2).1
    · cases (cons.inj (cons.inj (cons.inj heq).2).2).1
    · obtain ⟨ha, heq⟩ := cons.inj heq
      obtain ⟨hb, heq⟩ := cons.inj heq
      obtain ⟨hc, -⟩ := cons.inj heq
      exact ⟨line, by rw [ha, hb, hc]; rfl⟩
  · rfl

theorem splitOn_closed (hsingle : ∀ line ∈ lines, newline ∉ line) :
    (closed lines ++ [newline]).splitOn newline = lines ++ [[], []] := by
  induction lines with
  | nil => rfl
  | cons line lines ih =>
    obtain ⟨hline, hsingle⟩ := forall_mem_cons.mp hsingle
    rw [closed_cons, append_assoc, cons_append,
      splitOn_append_cons_self_of_not_mem hline, ih hsingle]
    rfl

/-- **The lines the reader sees**: those of the bytes, without the mark and without an empty
one. -/
theorem RawLines.headerLines_eq {first : Bytes} {packOffset : ℕ}
    (h : RawLines bytes first lines packOffset) : headerLines bytes packOffset =
      (if withoutMark first = [] then lines else withoutMark first :: lines).map
        decodePreservingBom := by
  obtain ⟨after, rfl⟩ := h.bytes_eq
  have hwindow : subarray (closed (first :: lines) ++ newline :: after) 0 packOffset =
      first ++ newline :: (closed lines ++ [newline]) := by
    have hfront : closed (first :: lines) ++ newline :: after =
        (first ++ newline :: (closed lines ++ [newline])) ++ after := by
      rw [closed_cons]
      simp only [append_assoc, cons_append, nil_append]
    have hlength : packOffset = (first ++ newline :: (closed lines ++ [newline])).length := by
      rw [h.offset_eq, closed_cons]
      simp only [length_append, length_cons, length_nil]
      omega
    rw [hfront, hlength, subarray, drop_zero, Nat.sub_zero, take_left]
  have hmarkless : newline ∉ withoutMark first := by
    intro hmem
    rcases withoutMark_cases first with heq | heq
    · exact h.first_single (heq ▸ mem_append_right _ hmem)
    · exact h.first_single (heq ▸ hmem)
  have hsplit := @splitOn_closed (withoutMark first :: lines)
    (forall_mem_cons.mpr ⟨hmarkless, h.single⟩)
  rw [closed_cons, append_assoc, cons_append] at hsplit
  have hkept : ∀ line ∈ lines, decodePreservingBom line ≠ [] := fun line hmem hnil =>
    h.filled line hmem (decode_eq_nil_iff.mp hnil)
  have hlines : (lines.map decodePreservingBom).filter (· ≠ []) =
      lines.map decodePreservingBom := by
    refine filter_eq_self.mpr fun text hmem => decide_eq_true ?_
    obtain ⟨line, hline, rfl⟩ := mem_map.mp hmem
    exact hkept line hline
  rw [headerLines, hwindow, decode_first h.first_single,
    @splitOn_decodePreservingBom newline '\n' (by decide) (by decide), hsplit,
    cons_append, map_cons, map_append, filter_cons, filter_append, hlines]
  have hempty : ([[], []].map decodePreservingBom).filter (· ≠ []) = [] := rfl
  rw [hempty, append_nil]
  by_cases hnil : withoutMark first = []
  · have hdecoded : decodePreservingBom (withoutMark first) = [] := decode_eq_nil_iff.mpr hnil
    rw [if_pos hnil, if_neg (by rw [hdecoded]; decide)]
  · have hdecoded : decodePreservingBom (withoutMark first) ≠ [] := fun h =>
      hnil (decode_eq_nil_iff.mp h)
    rw [if_neg hnil, if_pos (decide_eq_true hdecoded)]
    rfl

end

/-! ### What the reader accepts -/

section

variable {bytes rest : Bytes} {path : Text} {packOffset : ℕ}

/-- What may stand in front of a header: a mark, an empty line, or both. -/
def IsFront (front : Bytes) : Prop :=
  ∃ mark gap, (mark = [] ∨ mark = byteOrderMark) ∧ (gap = [] ∨ gap = [newline]) ∧
    front = mark ++ gap

theorem readHeaderLines_packOffset {lines : List Text} {header : ParsedBundleHeader}
    (h : readHeaderLines path packOffset lines = .ok header) : header.packOffset = packOffset := by
  cases lines with
  | nil => cases h
  | cons magicLine contentLines =>
    rw [readHeaderLines, bind_eq_ok] at h
    obtain ⟨⟨version, magicHashAlgorithm⟩, -, h⟩ := h
    cases version with
    | v3 =>
      obtain ⟨⟨consumed, capabilities⟩, -, h⟩ := bind_eq_ok.mp h
      obtain ⟨⟨prerequisites, refs⟩, -, h⟩ := bind_eq_ok.mp h
      cases h
      rfl
    | v2 =>
      dsimp only at h
      rw [pure_bind] at h
      obtain ⟨⟨prerequisites, refs⟩, -, h⟩ := bind_eq_ok.mp h
      cases h
      rfl

theorem throwMissingBlankLine_ne_ok {header : ParsedBundleHeader} :
    throwMissingBlankLine bytes path ≠ .ok header := by
  intro h
  rw [throwMissingBlankLine] at h
  split_ifs at h
  · cases h
  · cases h

/-- The lines the reader is left with. -/
def seenLines (first : Bytes) (lines : List Bytes) : List Bytes :=
  if withoutMark first = [] then lines else withoutMark first :: lines

theorem parseBundleHeader_isOk :
    (∃ header, parseBundleHeader bytes path = .ok header ∧ header.packOffset = packOffset) ↔
      ∃ first lines, RawLines bytes first lines packOffset ∧
        AreHeaderLines (seenLines first lines) := by
  constructor
  · rintro ⟨header, h, rfl⟩
    unfold parseBundleHeader at h
    cases hfind : findBlankLineOffset bytes with
    | none =>
      rw [hfind] at h
      exact absurd h throwMissingBlankLine_ne_ok
    | some stop =>
      rw [hfind] at h
      obtain ⟨first, lines, offset, hoffset, hraw⟩ := exists_rawLines hfind
      rw [Nat.zero_add] at hoffset
      subst hoffset
      have hread : readHeaderLines path stop (headerLines bytes stop) = .ok header := h
      have hstop := readHeaderLines_packOffset hread
      rw [hraw.headerLines_eq] at hread
      rw [hstop]
      exact ⟨first, lines, hraw, readHeaderLines_isOk.mp ⟨header, hread⟩⟩
  · rintro ⟨first, lines, hraw, hlines⟩
    obtain ⟨header, hread⟩ := (@readHeaderLines_isOk path _ packOffset).mpr hlines
    have hparse : parseBundleHeader bytes path = .ok header := by
      unfold parseBundleHeader
      rw [hraw.find]
      dsimp only
      rw [decodeHeaderLines, hraw.headerLines_eq]
      exact hread
    exact ⟨header, hparse, readHeaderLines_packOffset hread⟩

theorem AreHeaderLines.magic {lines : List Bytes} (h : AreHeaderLines lines) :
    ∃ magic more, lines = magic :: more ∧ ∃ tail, magic = 0x23 :: tail := by
  obtain ⟨version, capabilities, contents, rfl, -⟩ := h
  refine ⟨_, _, rfl, ?_⟩
  cases version
  · exact ⟨_, rfl⟩
  · exact ⟨_, rfl⟩

theorem withoutMark_magic (tail : Bytes) : withoutMark (0x23 :: tail) = 0x23 :: tail := rfl

theorem IsHeader.head (h : IsHeader bytes packOffset) : ∃ tail, bytes = 0x23 :: tail := by
  obtain ⟨lines, hfirst, hlines⟩ := h
  obtain ⟨magic, more, rfl, tail, rfl⟩ := hlines.magic
  obtain ⟨after, rfl⟩ := hfirst.bytes_eq
  rw [closed_cons]
  exact ⟨_, rfl⟩

theorem FirstLines.rawLines {lines : List Bytes} {front : Bytes} (hfront : IsFront front)
    (h : FirstLines rest lines packOffset) (hlines : AreHeaderLines lines) :
    ∃ first more, RawLines (front ++ rest) first more (front.length + packOffset) ∧
      seenLines first more = lines := by
  obtain ⟨magic, more, rfl, tail, rfl⟩ := hlines.magic
  obtain ⟨after, rfl⟩ := h.bytes_eq
  obtain ⟨-, hfilled⟩ := forall_mem_cons.mp h.filled
  obtain ⟨hmagic, hsingle⟩ := forall_mem_cons.mp h.single
  obtain ⟨mark, gap, hmark, hgap, rfl⟩ := hfront
  have hmarkSingle : newline ∉ mark := by
    rcases hmark with rfl | rfl
    · exact not_mem_nil
    · decide
  have hmarkless : ∀ line, withoutMark line = line → withoutMark (mark ++ line) = line := by
    intro line hline
    rcases hmark with rfl | rfl
    · exact hline
    · rfl
  rcases hgap with rfl | rfl
  · -- the mark stands in front of the magic line
    refine ⟨mark ++ 0x23 :: tail, more, ⟨⟨after, ?_⟩, ?_, ?_, hfilled, hsingle⟩, ?_⟩
    · rw [append_nil, closed_cons, closed_cons]
      simp only [append_assoc]
    · rw [h.offset_eq, closed_cons, closed_cons]
      simp only [length_append, length_nil]
      omega
    · intro hmem
      rcases mem_append.mp hmem with hmem | hmem
      · exact hmarkSingle hmem
      · exact hmagic hmem
    · rw [seenLines, hmarkless _ (withoutMark_magic tail), if_neg (cons_ne_nil _ _)]
  · -- the mark is a line of its own, which is empty without it
    refine ⟨mark, (0x23 :: tail) :: more, ⟨⟨after, ?_⟩, ?_, hmarkSingle, h.filled, h.single⟩, ?_⟩
    · rw [closed_cons mark]
      simp only [append_assoc, cons_append, nil_append]
    · rw [h.offset_eq, closed_cons mark]
      simp only [length_append, length_cons, length_nil]
      omega
    · have hempty := hmarkless [] rfl
      rw [append_nil] at hempty
      rw [seenLines, if_pos hempty]

theorem RawLines.firstLines {first : Bytes} {lines : List Bytes}
    (h : RawLines bytes first lines packOffset) :
    ∃ front rest stop, IsFront front ∧ bytes = front ++ rest ∧
      packOffset = front.length + stop ∧ FirstLines rest (seenLines first lines) stop := by
  obtain ⟨after, rfl⟩ := h.bytes_eq
  obtain ⟨mark, hmark, hfirst⟩ : ∃ mark, (mark = [] ∨ mark = byteOrderMark) ∧
      first = mark ++ withoutMark first := by
    rcases withoutMark_cases first with heq | heq
    · exact ⟨byteOrderMark, .inr rfl, heq⟩
    · exact ⟨[], .inl rfl, heq.symm⟩
  obtain ⟨line, hline⟩ : ∃ line, line = withoutMark first := ⟨_, rfl⟩
  have hoffset := h.offset_eq
  have hsingle := h.first_single
  rw [← hline] at hfirst
  rw [hfirst] at hsingle hoffset ⊢
  rw [closed_cons] at hoffset ⊢
  have hseen : seenLines (mark ++ line) lines = if line = [] then lines else line :: lines := by
    rw [seenLines, ← hfirst, ← hline]
  rw [hseen]
  by_cases hnil : line = []
  · subst hnil
    rw [if_pos rfl]
    refine ⟨mark ++ [newline], closed lines ++ newline :: after, (closed lines).length + 1,
      ⟨mark, [newline], hmark, .inr rfl, rfl⟩, ?_, ?_, ⟨⟨after, rfl⟩, rfl, h.filled, h.single⟩⟩
    · simp only [append_assoc, append_nil, cons_append, nil_append]
    · rw [hoffset]
      simp only [length_append, length_cons, length_nil]
      omega
  · rw [if_neg hnil]
    refine ⟨mark, closed (line :: lines) ++ newline :: after, (closed (line :: lines)).length + 1,
      ⟨mark, [], hmark, .inl rfl, (append_nil _).symm⟩, ?_, ?_, ⟨⟨after, rfl⟩, rfl, ?_, ?_⟩⟩
    · rw [closed_cons]
      simp only [append_assoc]
    · rw [hoffset, closed_cons]
      simp only [length_append]
      omega
    · exact forall_mem_cons.mpr ⟨hnil, h.filled⟩
    · exact forall_mem_cons.mpr
        ⟨fun hmem => hsingle (mem_append_right _ hmem), h.single⟩

/-- **What is accepted**: a header behind a front. -/
theorem parseBundleHeader_iff :
    (∃ header, parseBundleHeader bytes path = .ok header ∧ header.packOffset = packOffset) ↔
      ∃ front rest stop, IsFront front ∧ bytes = front ++ rest ∧
        packOffset = front.length + stop ∧ IsHeader rest stop := by
  rw [parseBundleHeader_isOk]
  constructor
  · rintro ⟨first, lines, hraw, hlines⟩
    obtain ⟨front, rest, stop, hfront, hbytes, hoffset, hfirst⟩ := hraw.firstLines
    exact ⟨front, rest, stop, hfront, hbytes, hoffset, _, hfirst, hlines⟩
  · rintro ⟨front, rest, stop, hfront, rfl, rfl, lines, hfirst, hlines⟩
    obtain ⟨first, more, hraw, hseen⟩ := hfirst.rawLines hfront hlines
    exact ⟨first, more, hraw, hseen ▸ hlines⟩

/-- A header behind a front that is not empty. -/
def IsFronted (bytes : Bytes) : Prop :=
  ∃ front rest stop, IsFront front ∧ front ≠ [] ∧ bytes = front ++ rest ∧ IsHeader rest stop

theorem IsFronted.not_isHeader (h : IsFronted bytes) : ¬ IsHeader bytes packOffset := by
  intro hheader
  obtain ⟨tail, htail⟩ := hheader.head
  obtain ⟨front, rest, stop, ⟨mark, gap, hmark, hgap, rfl⟩, hne, rfl, -⟩ := h
  rcases hmark with rfl | rfl
  · rcases hgap with rfl | rfl
    · exact hne rfl
    · cases htail
  · cases htail

theorem accepted_isHeader_iff : (∀ header, parseBundleHeader bytes path = .ok header →
    IsHeader bytes header.packOffset) ↔ ¬ IsFronted bytes := by
  constructor
  · intro h hfronted
    have hnot := @IsFronted.not_isHeader bytes
    obtain ⟨front, rest, stop, hfront, -, hbytes, hheader⟩ := id hfronted
    obtain ⟨header, hparse, -⟩ := (@parseBundleHeader_iff bytes path _).mpr
      ⟨front, rest, stop, hfront, hbytes, rfl, hheader⟩
    exact hnot hfronted (h header hparse)
  · intro h header hparse
    obtain ⟨front, rest, stop, hfront, hbytes, hoffset, hheader⟩ :=
      parseBundleHeader_iff.mp ⟨header, hparse, rfl⟩
    by_cases hnil : front = []
    · subst hnil
      rw [length_nil, Nat.zero_add] at hoffset
      rw [hoffset, hbytes]
      exact hheader
    · exact absurd ⟨front, rest, stop, hfront, hnil, hbytes, hheader⟩ h

end

/-! ### What is written -/

section

variable {version : BundleVersion} {hash : HashConfig} {prerequisites : List BundlePrerequisite}
  {refs : List BundleRef} {path : Text} {collation : Collation}

/-- A header that can be written. -/
structure IsWritable (version : BundleVersion) (hash : HashConfig)
    (prerequisites : List BundlePrerequisite) (refs : List BundleRef) : Prop where
  hash_eq : version = .v2 → hash = .sha1
  prerequisites_oid : ∀ prerequisite ∈ prerequisites, isOid prerequisite.oid hash = true
  comments : ∀ prerequisite ∈ prerequisites, '\n' ∉ prerequisite.comment
  refs_oid : ∀ ref ∈ refs, isOid ref.oid hash = true
  names : ∀ ref ∈ refs, isSafeRefName ref.name = .ok true

def prerequisiteText (prerequisite : BundlePrerequisite) : Text :=
  '-' :: (prerequisite.oid ++ ' ' :: prerequisite.comment)

def refText (ref : BundleRef) : Text := ref.oid ++ ' ' :: ref.name

def capabilityTexts : BundleVersion → HashConfig → List Text
  | .v2, _ => []
  | .v3, hash => [objectFormatLine hash]

def contentTexts (collation : Collation) (prerequisites : List BundlePrerequisite)
    (refs : List BundleRef) : List Text :=
  (sortByOidAscending collation prerequisites).map prerequisiteText ++ refs.map refText

/-- The lines of a header behind the magic one. -/
def writtenTexts (collation : Collation) (version : BundleVersion) (hash : HashConfig)
    (prerequisites : List BundlePrerequisite) (refs : List BundleRef) : List Text :=
  capabilityTexts version hash ++ contentTexts collation prerequisites refs

theorem encode_flatMap (texts : List Text) :
    encode (texts.flatMap fun text => text ++ ['\n']) = closed (texts.map encode) := by
  induction texts with
  | nil => rfl
  | cons text texts ih =>
    rw [flatMap_cons, encode_append, encode_append, ih, map_cons, closed_cons, append_assoc]
    rfl

/-- The written header, line by line. -/
theorem serializeBundleHeader_eq : serializeBundleHeader collation version hash prerequisites refs =
    closed ((magicOf version :: writtenTexts collation version hash prerequisites refs).map encode) ++
      [newline] := by
  have hmagic : encodeMagic version hash =
      (magicOf version :: capabilityTexts version hash).flatMap fun text => text ++ ['\n'] := by
    cases version
    · rfl
    · cases hash
      · rfl
      · rfl
  have hprerequisites : (sortByOidAscending collation prerequisites).flatMap encodePrerequisite =
      ((sortByOidAscending collation prerequisites).map prerequisiteText).flatMap
        fun text => text ++ ['\n'] := by
    rw [flatMap_map]
    refine flatMap_congr fun prerequisite _ => ?_
    rw [encodePrerequisite, prerequisiteText]
    simp only [cons_append, append_assoc]
  have hrefs : refs.flatMap encodeRef = (refs.map refText).flatMap fun text => text ++ ['\n'] := by
    rw [flatMap_map]
    refine flatMap_congr fun ref _ => ?_
    rw [encodeRef, refText]
    simp only [cons_append, append_assoc]
  rw [serializeBundleHeader, hmagic, hprerequisites, hrefs, ← encode_flatMap]
  have hlast : encode ['\n'] = [newline] := rfl
  rw [← hlast, ← encode_append, writtenTexts, contentTexts, ← cons_append]
  simp only [flatMap_append, append_assoc]

theorem mem_sortByOidAscending {prerequisite : BundlePrerequisite} :
    prerequisite ∈ sortByOidAscending collation prerequisites ↔ prerequisite ∈ prerequisites :=
  mem_mergeSort

theorem newline_not_mem_of_isOid {oid : Text} (h : isOid oid hash = true) : '\n' ∉ oid :=
  fun hmem => absurd ((isOid_iff.mp h).2 _ hmem) (by decide)

theorem IsWritable.of_mem_contentTexts (h : IsWritable version hash prerequisites refs)
    {text : Text} (hmem : text ∈ contentTexts collation prerequisites refs) :
    text ≠ [] ∧ '\n' ∉ text ∧ ['@'].isPrefixOf text = false := by
  rcases mem_append.mp hmem with hmem | hmem
  · obtain ⟨prerequisite, hsorted, rfl⟩ := mem_map.mp hmem
    have hprerequisite := mem_sortByOidAscending.mp hsorted
    refine ⟨cons_ne_nil _ _, ?_, rfl⟩
    have hoid := newline_not_mem_of_isOid (h.prerequisites_oid _ hprerequisite)
    simp only [prerequisiteText, mem_cons, mem_append, not_or]
    exact ⟨by decide, hoid, by decide, h.comments _ hprerequisite⟩
  · obtain ⟨ref, href, rfl⟩ := mem_map.mp hmem
    have hoid := h.refs_oid _ href
    have hline : IsRefLine hash (encode ref.oid ++ 0x20 :: encode ref.name) := by
      refine ⟨ref.oid, encode ref.name, hoid, fun hnil => ?_, rfl⟩
      have hname := (isSafeRefName_ok (h.names _ href)).1
      rw [← decodePreservingBom_encode ref.name, hnil] at hname
      exact hname rfl
    have htext : decodePreservingBom (encode ref.oid ++ 0x20 :: encode ref.name) = refText ref := by
      rw [decodePreservingBom_encode_append, refText]
      congr 1
      exact decodePreservingBom_encode (' ' :: ref.name)
    have hat := (@IsRefLine.parse [] _ _ hline).2.1
    rw [htext] at hat
    refine ⟨append_ne_nil_of_right_ne_nil _ (cons_ne_nil _ _), ?_, hat⟩
    simp only [refText, mem_cons, mem_append, not_or]
    exact ⟨newline_not_mem_of_isOid hoid, by decide,
      not_mem_of_isSafeRefName (h.names _ href) (by decide)⟩

theorem IsWritable.of_mem_writtenTexts (h : IsWritable version hash prerequisites refs)
    {text : Text} (hmem : text ∈ writtenTexts collation version hash prerequisites refs) :
    text ≠ [] ∧ '\n' ∉ text := by
  rcases mem_append.mp hmem with hmem | hmem
  · cases version with
    | v2 => exact absurd hmem not_mem_nil
    | v3 =>
      rw [mem_singleton.mp hmem]
      cases hash <;> decide
  · obtain ⟨hne, hsingle, -⟩ := h.of_mem_contentTexts hmem
    exact ⟨hne, hsingle⟩

theorem IsWritable.firstLines (h : IsWritable version hash prerequisites refs)
    (pack : Bytes) : FirstLines (serializeBundleHeader collation version hash prerequisites refs ++ pack)
      ((magicOf version :: writtenTexts collation version hash prerequisites refs).map encode)
      (serializeBundleHeader collation version hash prerequisites refs).length := by
  have hmagic : magicOf version ≠ [] ∧ '\n' ∉ magicOf version := by
    cases version <;> decide
  have hall : ∀ text ∈ magicOf version :: writtenTexts collation version hash prerequisites refs,
      text ≠ [] ∧ '\n' ∉ text := forall_mem_cons.mpr ⟨hmagic, fun _ => h.of_mem_writtenTexts⟩
  refine ⟨⟨pack, ?_⟩, ?_, ?_, ?_⟩
  · rw [serializeBundleHeader_eq, append_assoc]
    rfl
  · rw [serializeBundleHeader_eq, length_append]
    rfl
  · intro line hmem
    obtain ⟨text, htext, rfl⟩ := mem_map.mp hmem
    intro hnil
    have hdecoded := decodePreservingBom_encode text
    rw [hnil] at hdecoded
    exact (hall text htext).1 hdecoded.symm
  · intro line hmem
    obtain ⟨text, htext, rfl⟩ := mem_map.mp hmem
    exact not_mem_encode rfl (by decide) (hall text htext).2

/-- The written contents are read back. -/
theorem parseContentLines_written (hsorted : List BundlePrerequisite)
    (hprerequisites : ∀ prerequisite ∈ hsorted, isOid prerequisite.oid hash = true)
    (hrefs : ∀ ref ∈ refs, isOid ref.oid hash = true ∧ ref.name ≠ [])
    (hdash : ∀ ref ∈ refs, ['-'].isPrefixOf (refText ref) = false) :
    parseContentLines path (some hash) (hsorted.map prerequisiteText ++ refs.map refText) =
      .ok (hsorted, refs) := by
  have hconfig : ∀ line, requireHashConfig (some hash) line path = .ok hash := fun _ => rfl
  induction hsorted with
  | nil =>
    rw [map_nil, nil_append]
    induction refs with
    | nil => rfl
    | cons ref refs ih =>
      obtain ⟨⟨hoid, hname⟩, hrefs'⟩ := forall_mem_cons.mp hrefs
      obtain ⟨hfirst, hdash'⟩ := forall_mem_cons.mp hdash
      rw [map_cons, parseContentLines, ok_bind_eq (hconfig _), hfirst,
        if_neg Bool.false_ne_true, refText, ok_bind_eq (parseRefLine_eq hoid hname),
        ok_bind_eq (ih hrefs' hdash')]
      rfl
  | cons prerequisite rest ih =>
    obtain ⟨hoid, hrest⟩ := forall_mem_cons.mp hprerequisites
    have hfirst : ['-'].isPrefixOf (prerequisiteText prerequisite) = true := rfl
    rw [map_cons, cons_append, parseContentLines, ok_bind_eq (hconfig _),
      if_pos hfirst, prerequisiteText, ok_bind_eq (parsePrerequisiteLine_eq hoid (.inr rfl)),
      ok_bind_eq (ih hrest)]
    rfl

theorem parseCapabilities_written {contents : List Text}
    (hnone : ∀ text ∈ contents, ['@'].isPrefixOf text = false) :
    parseCapabilities path 0 ⟨none, none⟩ (objectFormatLine hash :: contents) =
      .ok (1, ⟨some hash, none⟩) := by
  have hstop : parseCapabilities path 1 ⟨some hash, none⟩ contents =
      .ok (1, ⟨some hash, none⟩) := by
    cases contents with
    | nil => rfl
    | cons text contents =>
      rw [parseCapabilities, hnone text mem_cons_self]
      rfl
  have happly : applyCapability (objectFormatLine hash) ⟨none, none⟩ path =
      .ok ⟨some hash, none⟩ := by
    cases hash
    · rfl
    · rfl
  have hat : ['@'].isPrefixOf (objectFormatLine hash) = true := rfl
  rw [parseCapabilities, if_pos hat, ok_bind_eq happly]
  exact hstop

/-- **What is written is read back**, with the offset of the pack behind it. -/
theorem parseBundleHeader_written (h : IsWritable version hash prerequisites refs) (pack : Bytes) :
    parseBundleHeader (serializeBundleHeader collation version hash prerequisites refs ++ pack) path =
      .ok ⟨version, hash, sortByOidAscending collation prerequisites, refs, none,
        (serializeBundleHeader collation version hash prerequisites refs).length⟩ := by
  have hfirst := @IsWritable.firstLines _ _ _ _ collation h pack
  obtain ⟨after, hbytes⟩ := hfirst.bytes_eq
  obtain ⟨stop, hstop⟩ : ∃ stop,
      stop = (serializeBundleHeader collation version hash prerequisites refs).length := ⟨_, rfl⟩
  rw [← hstop] at hfirst ⊢
  obtain ⟨hmagicSingle, hsingle⟩ := forall_mem_cons.mp hfirst.single
  obtain ⟨-, hfilled⟩ := forall_mem_cons.mp hfirst.filled
  have hraw : RawLines (serializeBundleHeader collation version hash prerequisites refs ++ pack)
      (encode (magicOf version))
      ((writtenTexts collation version hash prerequisites refs).map encode) stop :=
    ⟨⟨after, hbytes⟩, hfirst.offset_eq, hmagicSingle, hfilled, hsingle⟩
  have hmarkless : withoutMark (encode (magicOf version)) = encode (magicOf version) ∧
      encode (magicOf version) ≠ [] := by
    cases version
    · exact ⟨rfl, cons_ne_nil _ _⟩
    · exact ⟨rfl, cons_ne_nil _ _⟩
  have hlines : headerLines (serializeBundleHeader collation version hash prerequisites refs ++ pack) stop =
      magicOf version :: writtenTexts collation version hash prerequisites refs := by
    rw [hraw.headerLines_eq, hmarkless.1, if_neg hmarkless.2, ← map_cons, map_map]
    refine (map_congr_left fun text _ => ?_).trans (map_id _)
    exact decodePreservingBom_encode text
  have hcontents : parseContentLines path (some hash) (contentTexts collation prerequisites refs) =
      .ok (sortByOidAscending collation prerequisites, refs) := by
    refine parseContentLines_written _
      (fun _ hmem => h.prerequisites_oid _ (mem_sortByOidAscending.mp hmem))
      (fun ref hmem => ⟨h.refs_oid _ hmem, (isSafeRefName_ok (h.names _ hmem)).1⟩)
      fun ref hmem => ?_
    have hoid := h.refs_oid _ hmem
    obtain ⟨c, more, hword⟩ := exists_cons_of_ne_nil (isOid_ne_nil hoid)
    have hdigit := (isOid_iff.mp hoid).2 c (hword ▸ mem_cons_self)
    have hdiffer : ('-' == c) = false := beq_eq_false_iff_ne.mpr fun heq => by
      rw [← heq] at hdigit
      exact absurd hdigit (by decide)
    rw [refText, hword, cons_append, List.isPrefixOf, hdiffer, Bool.false_and]
  unfold parseBundleHeader
  rw [hraw.find]
  dsimp only
  rw [decodeHeaderLines, hlines]
  cases version with
  | v2 =>
    obtain rfl := h.hash_eq rfl
    have hmagic : parseMagicLine magicV2 path = .ok (.v2, some .sha1) := rfl
    rw [magicOf, readHeaderLines, ok_bind_eq hmagic]
    dsimp only
    rw [pure_bind]
    dsimp only
    rw [drop_zero, writtenTexts, capabilityTexts, nil_append, ok_bind_eq hcontents]
    rfl
  | v3 =>
    have hmagic : parseMagicLine magicV3 path = .ok (.v3, none) := rfl
    have hcapabilities := @parseCapabilities_written hash path _
      fun text hmem => (@IsWritable.of_mem_contentTexts _ _ _ _ collation h text hmem).2.2
    rw [magicOf, readHeaderLines, ok_bind_eq hmagic]
    dsimp only
    rw [writtenTexts, capabilityTexts, singleton_append, ok_bind_eq hcapabilities]
    dsimp only
    rw [drop_succ_cons, drop_zero, ok_bind_eq hcontents]
    rfl

theorem pairwise_sortByOidAscending (collation : Collation)
    (prerequisites : List BundlePrerequisite) :
    (sortByOidAscending collation prerequisites).Pairwise
      fun a b => collation.localeCompare a.oid b.oid ≤ 0 := by
  have htrans : ∀ a b c : BundlePrerequisite,
      decide (collation.localeCompare a.oid b.oid ≤ 0) = true →
        decide (collation.localeCompare b.oid c.oid ≤ 0) = true →
          decide (collation.localeCompare a.oid c.oid ≤ 0) = true := by
    intro a b c hab hbc
    rw [decide_eq_true_iff] at hab hbc ⊢
    exact collation.trans _ _ _ hab hbc
  have htotal : ∀ a b : BundlePrerequisite, (decide (collation.localeCompare a.oid b.oid ≤ 0) ||
      decide (collation.localeCompare b.oid a.oid ≤ 0)) = true := by
    intro a b
    rw [Bool.or_eq_true, decide_eq_true_iff, decide_eq_true_iff]
    exact collation.total _ _
  exact (pairwise_mergeSort htrans htotal prerequisites).imp of_decide_eq_true

/-- Sorted by the collation is sorted by id where the collation is one of the digits. -/
theorem IsWritable.ascending (h : IsWritable version hash prerequisites refs)
    (hdigits : collation.ByDigits) :
    (sortByOidAscending collation prerequisites).Pairwise fun a b => ¬ b.oid < a.oid := by
  refine (pairwise_sortByOidAscending collation prerequisites).imp_of_mem fun ha hb hle => ?_
  exact (hdigits hash _ _ (h.prerequisites_oid _ (mem_sortByOidAscending.mp ha))
    (h.prerequisites_oid _ (mem_sortByOidAscending.mp hb))).mp hle

/-- **Read back in ascending order**, whatever is written, by the digits alone. -/
theorem byDigits_iff (path : Text) : collation.ByDigits ↔
    ∀ version hash prerequisites refs pack header, IsWritable version hash prerequisites refs →
      parseBundleHeader (serializeBundleHeader collation version hash prerequisites refs ++ pack)
        path = .ok header → header.prerequisites.Pairwise fun a b => ¬ b.oid < a.oid := by
  constructor
  · intro hdigits version hash prerequisites refs pack header h hparse
    cases (parseBundleHeader_written h pack).symm.trans hparse
    exact h.ascending hdigits
  intro hascending
  -- two prerequisites that the collation has in order are read back as they are
  have hpair (hash a b) (ha : isOid a hash = true) (hb : isOid b hash = true)
      (hle : collation.localeCompare a b ≤ 0) : ¬ b < a := by
    have hwritable : IsWritable .v3 hash [⟨a, []⟩, ⟨b, []⟩] [] := {
      hash_eq := nofun
      prerequisites_oid := forall_mem_cons.mpr ⟨ha, forall_mem_singleton.mpr hb⟩
      comments := forall_mem_cons.mpr ⟨not_mem_nil, forall_mem_singleton.mpr not_mem_nil⟩
      refs_oid := forall_mem_nil _
      names := forall_mem_nil _ }
    have hsorted : sortByOidAscending collation [⟨a, []⟩, ⟨b, []⟩] = [⟨a, []⟩, ⟨b, []⟩] :=
      mergeSort_of_pairwise (pairwise_pair.mpr (decide_eq_true hle))
    have hread := hascending _ _ _ _ [] _ hwritable (parseBundleHeader_written hwritable [])
    rw [hsorted] at hread
    exact pairwise_pair.mp hread
  refine fun hash a b ha hb => ⟨hpair hash a b ha hb, fun hle => ?_⟩
  by_contra hgt
  have hle' := hpair hash b a hb ha ((collation.total a b).resolve_left hgt)
  obtain rfl := le_antisymm (not_lt.mp hle) (not_lt.mp hle')
  exact hgt ((or_self_iff).mp (collation.total a a))

end

/-! ### The grammar -/

/-- What the writer makes of any header is read back, with the prerequisites in the order of their
ids under the collation of the writer's host, which is the ascending one exactly where it goes by
digits; **what is accepted is itself a header, exactly where it has no front**. -/
theorem bundleHeader_exact (path : Text) (bytes : Bytes) :
    (∀ collation version hash prerequisites refs pack,
      IsWritable version hash prerequisites refs →
        ∃ sorted, sorted.Perm prerequisites ∧
          sorted.Pairwise (fun a b => collation.localeCompare a.oid b.oid ≤ 0) ∧
          parseBundleHeader
              (serializeBundleHeader collation version hash prerequisites refs ++ pack) path =
            .ok ⟨version, hash, sorted, refs, none,
              (serializeBundleHeader collation version hash prerequisites refs).length⟩) ∧
    (∀ collation : Collation, collation.ByDigits ↔
      ∀ version hash prerequisites refs pack header, IsWritable version hash prerequisites refs →
        parseBundleHeader (serializeBundleHeader collation version hash prerequisites refs ++ pack)
          path = .ok header → header.prerequisites.Pairwise fun a b => ¬ b.oid < a.oid) ∧
    ((∀ header, parseBundleHeader bytes path = .ok header → IsHeader bytes header.packOffset) ↔
      ¬ IsFronted bytes) := by
  refine ⟨fun collation version hash prerequisites refs pack h => ?_,
    fun _ => byDigits_iff path, accepted_isHeader_iff⟩
  exact ⟨sortByOidAscending collation prerequisites, mergeSort_perm _ _,
    pairwise_sortByOidAscending collation prerequisites, parseBundleHeader_written h pack⟩

/-- The collation by the characters' numbers. -/
def byCharacters : Collation where
  localeCompare a b := if a < b then -1 else if b < a then 1 else 0
  trans a b c hab hbc := by
    have hle : ∀ x y : Text, (if x < y then (-1 : ℤ) else if y < x then 1 else 0) ≤ 0 → x ≤ y := by
      intro x y h
      split_ifs at h with hlt hgt
      · exact hlt.le
      · cases h
      · exact not_lt.mp hgt
    have hac := (hle a b hab).trans (hle b c hbc)
    rw [if_neg (not_lt.mpr hac)]
    split_ifs <;> decide
  total a b := by
    rcases lt_trichotomy a b with hlt | rfl | hgt
    · exact .inl (by rw [if_pos hlt]; decide)
    · exact .inl (by rw [if_neg (lt_irrefl a), if_neg (lt_irrefl a)])
    · exact .inr (by rw [if_pos hgt]; decide)

/-- An empty line in front of a header. -/
def gappedHeader : Bytes := newline :: serializeBundleHeader byCharacters .v2 .sha1 [] []

/-- The bytes start with a line feed and are accepted, the pack after their second empty line. -/
theorem bundleHeader_misread :
    ∃ header, parseBundleHeader gappedHeader [] = .ok header ∧
      ¬ IsHeader gappedHeader header.packOffset := by
  have hnone : ∀ {α : Type} {p : α → Prop}, ∀ a ∈ ([] : List α), p a :=
    forall_mem_nil _
  have hwritable : IsWritable .v2 .sha1 [] [] := ⟨fun _ => rfl, hnone, hnone, hnone, hnone⟩
  have hfirst := @IsWritable.firstLines _ _ _ _ byCharacters hwritable []
  rw [append_nil] at hfirst
  have hlines : AreHeaderLines ((magicOf .v2 :: writtenTexts byCharacters .v2 .sha1 [] []).map encode) := by
    rw [writtenTexts, contentTexts, sortByOidAscending, mergeSort_nil]
    exact ⟨.v2, [], [], rfl, fun _ => rfl, hnone, hnone⟩
  have hfront : IsFront [newline] := ⟨[], [newline], .inl rfl, .inr rfl, rfl⟩
  obtain ⟨header, hparse, -⟩ := (@parseBundleHeader_iff gappedHeader [] _).mpr
    ⟨[newline], _, _, hfront, rfl, rfl, _, hfirst, hlines⟩
  refine ⟨header, hparse, fun h => ?_⟩
  obtain ⟨tail, htail⟩ := h.head
  cases htail

end Tsgit.Bundle
