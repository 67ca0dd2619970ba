import Tsgit.Commit

/-!
# Annotated Tags

`src/domain/objects/tag.ts`: the content of a tag object, header lines and a message behind the
first blank line. A signature is not a header of a tag: it is the armor that ends the message.
-/

namespace Tsgit

structure TagData where
  object : Text
  objectType : ObjectType
  tagName : Text
  tagger : Option AuthorIdentity
  message : Text
  gpgSignature : Option Text
  extraHeaders : List ExtraHeader
  deriving DecidableEq

structure Tag where
  id : Text
  data : TagData
  deriving DecidableEq

def objectKeyword : Text := ['o', 'b', 'j', 'e', 'c', 't', ' ']
def typeKeyword : Text := ['t', 'y', 'p', 'e', ' ']
def tagKeyword : Text := ['t', 'a', 'g', ' ']
def taggerKey : Text := ['t', 'a', 'g', 'g', 'e', 'r']
def taggerKeyword : Text := taggerKey ++ [' ']

def invalidTag {α : Type} (reason : String) : Except Thrown α :=
  .error (.refusal (.invalidTag reason))

def objectTypeText : ObjectType → Text
  | .commit => ['c', 'o', 'm', 'm', 'i', 't']
  | .tree => ['t', 'r', 'e', 'e']
  | .blob => ['b', 'l', 'o', 'b']
  | .tag => ['t', 'a', 'g']

def objectTypeOf (text : Text) : Option ObjectType :=
  [ObjectType.blob, .tree, .commit, .tag].find? fun type => objectTypeText type = text

/-! ### Signatures -/

/-- `-----BEGIN PGP SIGNATURE-----` and its like. -/
def armorMarker (edge kind : Text) : Text :=
  let dashes := List.replicate 5 '-'
  dashes ++ edge ++ ' ' :: kind ++ " SIGNATURE".toList ++ dashes

def armorKinds : List Text := ["PGP".toList, "SSH".toList]

def beginMarkers : List Text := armorKinds.map (armorMarker "BEGIN".toList)
def endMarkers : List Text := armorKinds.map (armorMarker "END".toList)

def endsArmor (text : Text) : Bool :=
  endMarkers.any fun marker => marker.isSuffixOf text || (marker ++ ['\n']).isSuffixOf text

/-- `TAG_SIGNATURE_PATTERN`, at the start of a text: it matches to the end or not at all. -/
def isArmor (text : Text) : Bool :=
  beginMarkers.any fun marker => marker.isPrefixOf text && endsArmor (text.drop marker.length)

/-- `match.index`: the first position at which the pattern matches. -/
def armorIndex : Text → Option ℕ
  | [] => none
  | c :: rest => if isArmor (c :: rest) then some 0 else (armorIndex rest).map (· + 1)

def peelTagSignature (rawMessage : Text) : Text × Option Text :=
  match armorIndex rawMessage with
  | none => (rawMessage, none)
  | some index => (rawMessage.take index, some (rawMessage.drop index))

/-! ### The reader -/

/-- The text in front of the first blank line, and behind it. -/
def splitHeaderAndMessage : Text → Text × Text
  | [] => ([], [])
  | c :: rest =>
    if c = '\n' ∧ rest.head? = some '\n' then ([], rest.drop 1)
    else
      let (headerPart, message) := splitHeaderAndMessage rest
      (c :: headerPart, message)

def afterKeyword (keyword : Text) (missing : String) : List Text → Except Thrown (Text × List Text)
  | [] => invalidTag missing
  | line :: rest =>
    if keyword.isPrefixOf line then .ok (line.drop keyword.length, rest) else invalidTag missing

/-- A tag name that reader and writer refuse. -/
def isInvalidTagName (tagName : Text) : Bool :=
  tagName.isEmpty || tagName.contains '\x00' || tagName.contains '\n'

def parseRequiredTagFields (lines : List Text) :
    Except Thrown (Text × ObjectType × Text × List Text) := do
  let (hex, lines) ← afterKeyword objectKeyword "first line must be object" lines
  let object ← objectIdFrom hex
  let (objectTypeStr, lines) ← afterKeyword typeKeyword "second line must be type" lines
  match objectTypeOf objectTypeStr with
  | none => invalidTag s!"invalid object type: {String.ofList objectTypeStr}"
  | some objectType => do
    let (tagName, lines) ← afterKeyword tagKeyword "third line must be tag name" lines
    if isInvalidTagName tagName then invalidTag s!"invalid tag name: {String.ofList tagName}"
    else pure (object, objectType, tagName, lines)

def parseTaggerField : List Text → Except Thrown (Option AuthorIdentity × List Text)
  | [] => .ok (none, [])
  | line :: rest =>
    if taggerKeyword.isPrefixOf line then do
      let tagger ← parseIdentity (line.drop taggerKeyword.length)
      pure (some tagger, rest)
    else .ok (none, line :: rest)

def parseTagOptionalHeaders : List Text → Except Thrown (List ExtraHeader)
  | [] => .ok []
  | line :: rest =>
    let header := parseHeaderLine line
    if header.key = [] then invalidTag "unexpected continuation line without preceding header"
    else do
      let continued := rest.takeWhile isContinuation
      let value := joinLines (header.value :: continued.map (List.drop 1))
      let more ← parseTagOptionalHeaders (rest.dropWhile isContinuation)
      pure (⟨header.key, value⟩ :: more)
termination_by lines => lines.length
decreasing_by
  have := (List.dropWhile_sublist isContinuation : List.Sublist _ rest).length_le
  rw [List.length_cons]
  omega

def parseTagContent (id : Text) (content : Bytes) : Except Thrown Tag := do
  let (headerPart, rawMessage) := splitHeaderAndMessage (decodePreservingBom content)
  let (object, objectType, tagName, lines) ← parseRequiredTagFields (headerPart.splitOn '\n')
  let (tagger, lines) ← parseTaggerField lines
  let extraHeaders ← parseTagOptionalHeaders lines
  let (message, gpgSignature) := peelTagSignature rawMessage
  pure ⟨id, object, objectType, tagName, tagger, message, gpgSignature, extraHeaders⟩

/-! ### The writer -/

def formatTagger : Option AuthorIdentity → Except Thrown (List Text)
  | none => .ok []
  | some tagger => do
    let line ← serializeIdentity tagger
    pure [taggerKeyword ++ line]

def tagHeaderLines (data : TagData) : Except Thrown (List Text) :=
  if isInvalidTagName data.tagName then
    invalidTag s!"invalid tag name: {String.ofList data.tagName}"
  else do
    let tagger ← formatTagger data.tagger
    let extraHeaders ← data.extraHeaders.mapM formatHeader
    pure ((objectKeyword ++ data.object) :: (typeKeyword ++ objectTypeText data.objectType) ::
      (tagKeyword ++ data.tagName) :: (tagger ++ extraHeaders))

def TagData.body (data : TagData) : Text := data.message ++ data.gpgSignature.getD []

def serializeTagContent (tag : Tag) : Except Thrown Bytes := do
  let lines ← tagHeaderLines tag.data
  pure (encode (joinLines lines ++ '\n' :: '\n' :: tag.data.body))

end Tsgit
