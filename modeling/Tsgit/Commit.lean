import Tsgit.HeaderBlock
import Tsgit.Identity
import Tsgit.TextDecoder
import Tsgit.Utf16

/-!
# Commits

`src/domain/objects/commit.ts`: the content of a commit object, header lines and a message behind
the first blank line.
-/

namespace Tsgit

structure CommitData where
  tree : Text
  parents : List Text
  author : AuthorIdentity
  committer : AuthorIdentity
  message : Text
  gpgSignature : Option Text
  extraHeaders : List ExtraHeader
  deriving DecidableEq

structure Commit where
  id : Text
  data : CommitData
  deriving DecidableEq

def newline : UInt8 := 0x0a

def treeKeyword : Text := ['t', 'r', 'e', 'e', ' ']
def parentKeyword : Text := ['p', 'a', 'r', 'e', 'n', 't', ' ']
def authorKeyword : Text := ['a', 'u', 't', 'h', 'o', 'r', ' ']
def committerKeyword : Text := ['c', 'o', 'm', 'm', 'i', 't', 't', 'e', 'r', ' ']

def invalidCommit (reason : String) : Thrown := .refusal (.invalidCommit reason)

/-! ### Ids -/

/-- `\xHH` for what does not print. -/
def sanitizeForDisplay (s : Text) : Text :=
  (codeUnits s).flatMap fun code =>
    if code = 0x09 ∨ code = 0x0a ∨ (0x20 ≤ code ∧ code ≤ 0x7e) then [Char.ofNat code]
    else
      let digits := (Nat.toDigits 16 code).map Char.toUpper
      '\\' :: 'x' :: (List.replicate (2 - digits.length) '0' ++ digits)

def maxObjectIdInError : ℕ := 64

def objectIdFrom (hex : Text) : Except Thrown Text :=
  if (hex.length = 40 ∨ hex.length = 64) ∧ hex.all isHexDigit then .ok hex
  else .error (.refusal (.invalidObjectId
    (String.ofList ((sanitizeForDisplay hex).take maxObjectIdInError))))

/-! ### The reader -/

/-- The first newline that another one follows. -/
def findBlankLineFrom (content : Bytes) (fromIndex : ℕ) : Option ℕ :=
  match _h : indexOf content newline fromIndex with
  | none => none
  | some found =>
    if content[found + 1]? = some newline then some found
    else findBlankLineFrom content (found + 1)
termination_by content.length - fromIndex
decreasing_by
  have := indexOf_lt _h
  have := (indexOf_spec _h).1
  omega

def findBlankLine (content : Bytes) : Option ℕ := findBlankLineFrom content 0

def splitByteLinesFrom (bytes : Bytes) (start : ℕ) : List (ℕ × ℕ) :=
  match _h : indexOf bytes newline start with
  | none => [(start, bytes.length)]
  | some found => (start, found) :: splitByteLinesFrom bytes (found + 1)
termination_by bytes.length - start
decreasing_by
  have := indexOf_lt _h
  have := (indexOf_spec _h).1
  omega

def splitByteLines (bytes : Bytes) : List (ℕ × ℕ) := splitByteLinesFrom bytes 0

def lineStartsWithAscii (bytes : Bytes) (line : ℕ × ℕ) (keyword : Text) : Bool :=
  decide (keyword.length ≤ line.2 - line.1) &&
    (List.range keyword.length).all fun i =>
      byteAt bytes (line.1 + i) = (keyword.getD i '\x00').toNat

def decodeLineValue (bytes : Bytes) (line : ℕ × ℕ) (skip : ℕ) : Text :=
  decodePreservingBom (subarray bytes (line.1 + skip) line.2)

def withoutFinalNewline (content : Bytes) : Bytes :=
  if content.getLast? = some newline then content.dropLast else content

def headerBlock (content : Bytes) : Option ℕ → Bytes
  | none => withoutFinalNewline content
  | some blankLineStart => content.take blankLineStart

def messageAfter (content : Bytes) : Option ℕ → Text
  | none => []
  | some blankLineStart => decodePreservingBom (content.drop (blankLineStart + 2))

def parseParents (bytes : Bytes) : List (ℕ × ℕ) → Except Thrown (List Text × List (ℕ × ℕ))
  | [] => .ok ([], [])
  | line :: rest =>
    if lineStartsWithAscii bytes line parentKeyword then do
      let parent ← objectIdFrom (decodeLineValue bytes line parentKeyword.length)
      let (parents, rest) ← parseParents bytes rest
      pure (parent :: parents, rest)
    else .ok ([], line :: rest)

def parseIdentityLine (bytes : Bytes) (keyword : Text) (missing : String) :
    List (ℕ × ℕ) → Except Thrown (AuthorIdentity × List (ℕ × ℕ))
  | [] => .error (invalidCommit missing)
  | line :: rest =>
    if ¬ lineStartsWithAscii bytes line keyword then .error (invalidCommit missing)
    else do
      let identity ← parseIdentity (decodeLineValue bytes line keyword.length)
      pure (identity, rest)

def parseTreeLine (bytes : Bytes) : List (ℕ × ℕ) → Except Thrown (Text × List (ℕ × ℕ))
  | [] => .error (invalidCommit "first line must be tree")
  | line :: rest =>
    if ¬ lineStartsWithAscii bytes line treeKeyword then
      .error (invalidCommit "first line must be tree")
    else do
      let tree ← objectIdFrom (decodeLineValue bytes line treeKeyword.length)
      pure (tree, rest)

def parseCommitContent (id : Text) (content : Bytes) : Except Thrown Commit := do
  let blankLineStart := findBlankLine content
  let headerBytes := headerBlock content blankLineStart
  let message := messageAfter content blankLineStart
  let lines := splitByteLines headerBytes
  let (tree, lines) ← parseTreeLine headerBytes lines
  let (parents, lines) ← parseParents headerBytes lines
  let (author, lines) ← parseIdentityLine headerBytes authorKeyword "missing author" lines
  let (committer, lines) ← parseIdentityLine headerBytes committerKeyword "missing committer" lines
  let headers ← parseOptionalHeaderBlock
    (lines.map fun line => decodePreservingBom (subarray headerBytes line.1 line.2))
    invalidCommit invalidCommit
  pure ⟨id, tree, parents, author, committer, message, headers.gpgSignature, headers.extraHeaders⟩

/-! ### The writer -/

def formatHeader (header : ExtraHeader) : Except Thrown Text :=
  formatContinuationHeader header.key header.value

def formatSignature : Option Text → Except Thrown (List Text)
  | none => .ok []
  | some gpgSignature => do
    let line ← formatContinuationHeader gpgsigKey gpgSignature
    pure [line]

def commitHeaderLines (data : CommitData) : Except Thrown (List Text) := do
  let author ← serializeIdentity data.author
  let committer ← serializeIdentity data.committer
  let extraHeaders ← data.extraHeaders.mapM formatHeader
  let signature ← formatSignature data.gpgSignature
  pure ((treeKeyword ++ data.tree) :: (data.parents.map (parentKeyword ++ ·) ++
    (authorKeyword ++ author) :: (committerKeyword ++ committer) :: (extraHeaders ++ signature)))

def serializeCommitContent (commit : Commit) : Except Thrown Bytes := do
  let lines ← commitHeaderLines commit.data
  pure (encode (joinLines lines ++ '\n' :: '\n' :: commit.data.message))

end Tsgit
