import Tsgit.Tree

/-!
# Path Checks

`src/domain/path/verify-path.ts`, with the checks of `src/domain/objects/tree-entry-bytes.ts` and
`src/domain/objects/encoding.ts` that it uses: whether a path may become an index entry.
-/

namespace Tsgit.Path

open Objects

inductive VerifyPathRejection
  | absolutePath
  | emptySegment
  | dotSegment
  | dotdotSegment
  | dotgitAlias
  | dotgitNtfsAlias
  | dotgitNtfsStream
  | dotgitHfsAlias
  | gitmodulesNotRegular
  | backslash
  deriving DecidableEq

def dotgit : Text := ['.', 'g', 'i', 't']
def ntfsShortName : Text := ['g', 'i', 't', '~', '1']
def gitmodules : Text := ['.', 'g', 'i', 't', 'm', 'o', 'd', 'u', 'l', 'e', 's']

/-! ### The picker of git -/

def expectedLength (lead : ℕ) : ℕ :=
  if lead ≤ 0x7f then 1
  else if 0xc2 ≤ lead ∧ lead ≤ 0xdf then 2
  else if 0xe0 ≤ lead ∧ lead ≤ 0xef then 3
  else if 0xf0 ≤ lead ∧ lead ≤ 0xf4 then 4
  else 0

def secondByteRange (lead : ℕ) : ℕ × ℕ :=
  if lead = 0xe0 then (0xa0, 0xbf)
  else if lead = 0xed then (0x80, 0x9f)
  else if lead = 0xf0 then (0x90, 0xbf)
  else if lead = 0xf4 then (0x80, 0x8f)
  else (0x80, 0xbf)

def isContinuation (byte : Option UInt8) : Bool :=
  byte.any fun b => 0x80 ≤ b.toNat ∧ b.toNat ≤ 0xbf

def wellFormedSequenceLength (bytes : Bytes) (i : ℕ) : ℕ :=
  match bytes[i]? with
  | none => 0
  | some lead =>
    let length := expectedLength lead.toNat
    let range := secondByteRange lead.toNat
    if length ≤ 1 then length
    else if ¬ bytes[i + 1]?.any fun b => range.1 ≤ b.toNat ∧ b.toNat ≤ range.2 then 0
    else if (List.range' 2 (length - 2)).all fun k => isContinuation bytes[i + k]? then length
    else 0

def isNonCharacterTail (bytes : Bytes) (i : ℕ) : Bool :=
  bytes[i]? = some 0xef ∧ bytes[i + 1]? = some 0xbf ∧ bytes[i + 2]?.any fun b => 0xbe ≤ b.toNat

def gitPickerSequenceLength (bytes : Bytes) (i : ℕ) : ℕ :=
  if isNonCharacterTail bytes i then 0 else wellFormedSequenceLength bytes i

/-- The loop of `gitPickerValidPrefix`, for as many turns as there are bytes left. -/
def pickerPrefixFrom (bytes : Bytes) : ℕ → ℕ → ℕ
  | 0, i => i
  | room + 1, i =>
    if i < bytes.length then
      let length := gitPickerSequenceLength bytes i
      if length = 0 then i else pickerPrefixFrom bytes room (i + length)
    else bytes.length

def gitPickerValidPrefix (bytes : Bytes) : ℕ := pickerPrefixFrom bytes (bytes.length + 1) 0

/-! ### Aliases of `.git` -/

/-- `toLowerCase`, as far as it gives ASCII letters. -/
def lowerCaseOf (c : Char) : Text :=
  if 'A' ≤ c ∧ c ≤ 'Z' then [Char.ofNat (c.toNat + 0x20)]
  else if c = '\u212a' then ['k']
  else if c = '\u0130' then ['i', '\u0307']
  else [c]

def toLowerCase (text : Text) : Text := text.flatMap lowerCaseOf

/-- Without the dots and spaces at its end. -/
def trimDotSpace (part : Text) : Text :=
  (part.reverse.dropWhile fun c => c = '.' ∨ c = ' ').reverse

def normalizeAliasCandidate (part : Text) : Text := toLowerCase (trimDotSpace part)

/-- The code points that HFS+ ignores in names. -/
def isIgnorable (c : Char) : Bool :=
  (0x200c ≤ c.toNat ∧ c.toNat ≤ 0x200f) ∨ (0x202a ≤ c.toNat ∧ c.toNat ≤ 0x202e) ∨
    (0x206a ≤ c.toNat ∧ c.toNat ≤ 0x206f) ∨ c.toNat = 0xfeff

def stripIgnorableCodepoints (part : Text) : Text := part.filter fun c => ¬ isIgnorable c

def isNonCharacter (c : Char) : Bool := c.toNat = 0xfffe ∨ c.toNat = 0xffff

def hfsCandidate (part : Text) (partBytes : Option Bytes) : Text :=
  match partBytes with
  | none => part.takeWhile fun c => ¬ isNonCharacter c
  | some bytes => decodePreservingBom (subarray bytes 0 (gitPickerValidPrefix bytes))

def hfsAlias (part : Text) (partBytes : Option Bytes) (target : Text) : Bool :=
  let candidate := hfsCandidate part partBytes
  if candidate = part ∧ ¬ part.any isIgnorable then false
  else toLowerCase (stripIgnorableCodepoints candidate) = target

/-- A part is compared up to the colon of a data stream. -/
def matchNtfsPart (part : Text) : Option VerifyPathRejection :=
  let candidate := part.takeWhile (· ≠ ':')
  let hasStream := ':' ∈ part
  let normalized := normalizeAliasCandidate candidate
  if normalized = dotgit then some (if hasStream then .dotgitNtfsStream else .dotgitAlias)
  else if normalized = ntfsShortName then
    some (if hasStream then .dotgitNtfsStream else .dotgitNtfsAlias)
  else none

/-- The fast path: all of it is ASCII without a backslash, and it begins like no alias. -/
def isObviouslyNotAnAlias (component : Text) : Bool :=
  match component with
  | [] => false
  | first :: _ =>
    if first = '.' ∨ first = 'G' ∨ first = 'g' then false
    else component.all fun c => c.toNat ≤ 0x7f ∧ c ≠ '\\'

def ntfsParts (component : Text) : List Text :=
  let parts := component.splitOn '\\'
  if component.head? = some '\\' then parts.drop 2 else parts

def matchAliasComponent (component : Text) (componentBytes : Option Bytes) :
    Option VerifyPathRejection :=
  if isObviouslyNotAnAlias component then none
  else
    match (ntfsParts component).findSome? matchNtfsPart with
    | some reason => some reason
    | none => if hfsAlias component componentBytes dotgit then some .dotgitHfsAlias else none

def matchShape (component : Text) : Option VerifyPathRejection :=
  if component = [] then some .emptySegment
  else if component = ['.'] then some .dotSegment
  else if component = ['.', '.'] then some .dotdotSegment
  else none

def findRejectionFrom (bytes : Option (List Bytes)) : ℕ → List Text →
    Option VerifyPathRejection
  | _, [] => none
  | index, component :: rest =>
    match (matchShape component).or
        (matchAliasComponent component (bytes.bind fun parts => parts[index]?)) with
    | some reason => some reason
    | none => findRejectionFrom bytes (index + 1) rest

def findComponentRejection (components : List Text) (bytes : Option (List Bytes)) :
    Option VerifyPathRejection := findRejectionFrom bytes 0 components

/-! ### Aliases of `.gitmodules` -/

inductive DotgitAliasName
  | git
  | gitmodules
  | gitattributes
  | gitignore
  | mailmap
  deriving DecidableEq

def DotgitAliasName.text : DotgitAliasName → Text
  | git => ['g', 'i', 't']
  | gitmodules => ['g', 'i', 't', 'm', 'o', 'd', 'u', 'l', 'e', 's']
  | gitattributes => ['g', 'i', 't', 'a', 't', 't', 'r', 'i', 'b', 'u', 't', 'e', 's']
  | gitignore => ['g', 'i', 't', 'i', 'g', 'n', 'o', 'r', 'e']
  | mailmap => ['m', 'a', 'i', 'l', 'm', 'a', 'p']

def DotgitAliasName.fallbackShortName : DotgitAliasName → Option Text
  | git => none
  | gitmodules => some ['g', 'i', '7', 'e', 'b', 'a']
  | gitattributes => some ['g', 'i', '7', 'd', '2', '9']
  | gitignore => some ['g', 'i', '2', '5', '0', 'a']
  | mailmap => some ['m', 'a', 'b', 'a', '3', '0']

def foldAsciiCodePoint (codePoint : ℕ) : ℕ :=
  if 0x41 ≤ codePoint ∧ codePoint ≤ 0x5a then codePoint + 0x20 else codePoint

def isNtfsTailFrom (isGit : Bool) : Bytes → Bool
  | [] => true
  | byte :: rest =>
    if byte = 0x3a then true
    else if isGit ∧ (byte = 0x2f ∨ byte = 0x5c) then true
    else if byte ≠ 0x2e ∧ byte ≠ 0x20 then false
    else isNtfsTailFrom isGit rest

def isNtfsTail (buf : Bytes) (start stop : ℕ) (name : DotgitAliasName) : Bool :=
  isNtfsTailFrom (name = .git) (subarray buf start stop)

def isDigitIn (byte : Option UInt8) (low : ℕ) : Bool :=
  byte.any fun b => low ≤ b.toNat ∧ b.toNat ≤ 0x39

def matchesAsciiCaseInsensitive (buf : Bytes) (start : ℕ) : Text → Bool
  | [] => true
  | c :: literal =>
    buf[start]?.any (fun b => foldAsciiCodePoint b.toNat = c.toNat) ∧
      matchesAsciiCaseInsensitive buf (start + 1) literal

def foldsToNtfsFallbackShortName (buf : Bytes) (start stop : ℕ) (name : DotgitAliasName)
    (shortName : Text) : Bool :=
  let shortEnd := start + 8
  if stop < shortEnd then false
  else
    match indexOf (subarray buf start (start + 7)) 0x7e 0 with
    | none => false
    | some tilde =>
      matchesAsciiCaseInsensitive buf start (shortName.take tilde) ∧
        isDigitIn buf[start + tilde + 1]? 0x31 ∧
        ((List.range' (start + tilde + 2) (shortEnd - (start + tilde + 2))).all fun i =>
          isDigitIn buf[i]? 0x30) ∧
        isNtfsTail buf shortEnd stop name

def foldsToNtfsShortName (buf : Bytes) (start stop : ℕ) (name : DotgitAliasName) : Bool :=
  match name.fallbackShortName with
  | none =>
    stop - start ≥ ntfsShortName.length ∧ matchesAsciiCaseInsensitive buf start ntfsShortName ∧
      isNtfsTail buf (start + ntfsShortName.length) stop name
  | some fallback =>
    let shortPrefix := name.text.take 6
    let digitOffset := start + shortPrefix.length + 1
    (stop - start ≥ shortPrefix.length + 2 ∧ matchesAsciiCaseInsensitive buf start shortPrefix ∧
        buf[start + shortPrefix.length]? = some 0x7e ∧
        (buf[digitOffset]?.any fun b => 0x31 ≤ b.toNat ∧ b.toNat ≤ 0x34) ∧
        isNtfsTail buf (digitOffset + 1) stop name) ∨
      foldsToNtfsFallbackShortName buf start stop name fallback

def matchesNtfsDotgitAlias (buf : Bytes) (start stop : ℕ) (name : DotgitAliasName) : Bool :=
  let dotted := '.' :: name.text
  (stop - start ≥ dotted.length ∧ matchesAsciiCaseInsensitive buf start dotted ∧
      isNtfsTail buf (start + dotted.length) stop name) ∨
    foldsToNtfsShortName buf start stop name

def opensComponent (bytes : Bytes) (i : ℕ) : Bool :=
  i = 0 ∨ bytes[i - 1]? = some 0x2f

def isNtfsRetestPoint (bytes : Bytes) (i : ℕ) : Bool :=
  bytes[i]? = some 0x2f ∨ (bytes[i]? = some 0x5c ∧ ¬ opensComponent bytes i)

def startsNtfsGitmodulesAlias (bytes : Bytes) (start : ℕ) : Bool :=
  matchesNtfsDotgitAlias bytes start bytes.length .gitmodules

def hasNtfsGitmodulesAlias (bytes : Bytes) : Bool :=
  startsNtfsGitmodulesAlias bytes 0 ∨ (List.range bytes.length).any fun i =>
    isNtfsRetestPoint bytes i ∧ startsNtfsGitmodulesAlias bytes (i + 1)

def namesGitmodulesComponent (component : Text) (componentBytes : Option Bytes) : Bool :=
  toLowerCase component = gitmodules ∨ hfsAlias component componentBytes gitmodules

def anyNamesGitmodulesFrom (bytes : Option (List Bytes)) : ℕ → List Text → Bool
  | _, [] => false
  | index, component :: rest =>
    namesGitmodulesComponent component (bytes.bind fun parts => parts[index]?) ∨
      anyNamesGitmodulesFrom bytes (index + 1) rest

def hasGitmodulesSymlinkAlias (pathBytes : Bytes) (components : List Text)
    (bytes : Option (List Bytes)) : Bool :=
  hasNtfsGitmodulesAlias pathBytes ∨ anyNamesGitmodulesFrom bytes 0 components

/-! ### The check -/

/-- Why a path is refused; `pathBytes` are the raw bytes of a path that is not UTF-8. -/
def verifyPath (path : Text) (mode : FileMode) (pathBytes : Option Bytes) :
    Option VerifyPathRejection :=
  if path.head? = some '/' then some .absolutePath
  else
    let components := path.splitOn '/'
    let bytes := pathBytes.map (List.splitOn 0x2f)
    match findComponentRejection components bytes with
    | some reason => some reason
    | none =>
      if mode ≠ .symlink then none
      else if hasGitmodulesSymlinkAlias (pathBytes.getD (encode path)) components bytes then
        some .gitmodulesNotRegular
      else none

theorem findRejectionFrom_shapes {bytes : Option (List Bytes)} {index : ℕ}
    {components : List Text} (h : findRejectionFrom bytes index components = none) :
    ∀ component ∈ components, matchShape component = none := by
  induction components generalizing index with
  | nil => exact fun component hmem => absurd hmem List.not_mem_nil
  | cons head rest ih =>
    rw [findRejectionFrom] at h
    split at h
    · cases h
    · next hnone =>
      intro component hmem
      rcases List.mem_cons.mp hmem with rfl | hrest
      · exact (Option.or_eq_none_iff.mp hnone).1
      · exact ih h component hrest

theorem verifyPath_components {path : Text} {mode : FileMode} {pathBytes : Option Bytes}
    (h : verifyPath path mode pathBytes = none) :
    ∀ component ∈ path.splitOn '/', component ≠ [] ∧ component ≠ ['.'] ∧
      component ≠ ['.', '.'] := by
  unfold verifyPath at h
  split at h
  · cases h
  dsimp only at h
  split at h
  · cases h
  · next hnone =>
    intro component hmem
    have hshape := findRejectionFrom_shapes hnone component hmem
    unfold matchShape at hshape
    split at hshape
    · cases hshape
    · next hempty =>
      split at hshape
      · cases hshape
      · next hdot =>
        split at hshape
        · cases hshape
        · next hdotdot => exact ⟨hempty, hdot, hdotdot⟩

end Tsgit.Path
