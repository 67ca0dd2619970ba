import Tsgit.GlobRows
import Tsgit.TextDecoder

/-!
# Ref Globs

`src/src/domain/refs/ref-glob.ts`: a pattern's bytes are scanned into tokens, in one of two
dialects, and the tokens matched backwards with two rows that swap roles.

The source looks class names up in a plain object, which also answers for the properties it
inherits; a class test that is such a property may throw.
-/

namespace Tsgit.RefGlob

open GlobRows

def star : UInt8 := 0x2a
def question : UInt8 := 0x3f
def backslash : UInt8 := 0x5c
def lbracket : UInt8 := 0x5b
def rbracket : UInt8 := 0x5d
def bang : UInt8 := 0x21
def caret : UInt8 := 0x5e
def colon : UInt8 := 0x3a
def dash : UInt8 := 0x2d
def slash : UInt8 := 0x2f

/-! ### Classes -/

/-- What a test that is not one throws. -/
inductive TypeError
  | notCallable
deriving DecidableEq

abbrev ByteTest := UInt8 → Except TypeError Bool

def isAlpha (b : UInt8) : Bool := (0x41 ≤ b && b ≤ 0x5a) || (0x61 ≤ b && b ≤ 0x7a)
def isDigit (b : UInt8) : Bool := 0x30 ≤ b && b ≤ 0x39
def isSpace (b : UInt8) : Bool := b == 0x20 || b == 0x09 || b == 0x0a || b == 0x0d
def isPrint (b : UInt8) : Bool := 0x20 ≤ b && b < 0x7f
def isGraph (b : UInt8) : Bool := isPrint b && b != 0x20

/-- The twelve classes. -/
inductive ClassName
  | alnum | alpha | blank | cntrl | digit | graph | lower | print | punct | space | upper | xdigit
deriving DecidableEq

namespace ClassName

def all : List ClassName :=
  [alnum, alpha, blank, cntrl, digit, graph, lower, print, punct, space, upper, xdigit]

def text : ClassName → Text
  | alnum => "alnum".toList
  | alpha => "alpha".toList
  | blank => "blank".toList
  | cntrl => "cntrl".toList
  | digit => "digit".toList
  | graph => "graph".toList
  | lower => "lower".toList
  | print => "print".toList
  | punct => "punct".toList
  | space => "space".toList
  | upper => "upper".toList
  | xdigit => "xdigit".toList

def test : ClassName → UInt8 → Bool
  | alnum, b => isAlpha b || isDigit b
  | alpha, b => isAlpha b
  | blank, b => b == 0x20 || b == 0x09
  | cntrl, b => b < 0x20 || b == 0x7f
  | digit, b => isDigit b
  | graph, b => isGraph b
  | lower, b => 0x61 ≤ b && b ≤ 0x7a
  | print, b => isPrint b
  | punct, b => isGraph b && !isAlpha b && !isDigit b
  | space, b => isSpace b
  | upper, b => 0x41 ≤ b && b ≤ 0x5a
  | xdigit, b => isDigit b || (0x41 ≤ b && b ≤ 0x46) || (0x61 ≤ b && b ≤ 0x66)

end ClassName

/-- The properties that a plain object inherits, by what a call with a byte comes to. -/
def truthyProperties : List Text :=
  ["constructor".toList, "toLocaleString".toList, "toString".toList, "valueOf".toList]

def falsyProperties : List Text :=
  ["hasOwnProperty".toList, "isPrototypeOf".toList, "propertyIsEnumerable".toList,
    "__lookupGetter__".toList, "__lookupSetter__".toList]

def throwingProperties : List Text :=
  ["__defineGetter__".toList, "__defineSetter__".toList, "__proto__".toList]

def classTests (name : Text) : Option ByteTest :=
  match ClassName.all.find? fun c => c.text == name with
  | some c => some fun b => .ok (c.test b)
  | none =>
    if truthyProperties.contains name then some fun _ => .ok true
    else if falsyProperties.contains name then some fun _ => .ok false
    else if throwingProperties.contains name then some fun _ => .error .notCallable
    else none

/-! ### Sets -/

/-- One member of a set. -/
inductive BracketAtom
  | byte (value : UInt8)
  | range (lo hi : UInt8)
  | cls (test : ByteTest)

def matchesAtom (byte : UInt8) : BracketAtom → Except TypeError Bool
  | .byte value => .ok (byte == value)
  | .range lo hi => .ok (lo ≤ byte && byte ≤ hi)
  | .cls test => test byte

def someAtom (byte : UInt8) : List BracketAtom → Except TypeError Bool
  | [] => .ok false
  | atom :: atoms => do
      if ← matchesAtom byte atom then return true else someAtom byte atoms

def bracketTest (negated : Bool) (atoms : List BracketAtom) : ByteTest := fun byte => do
  return negated != (← someAtom byte atoms)

/-- A member, what follows it, and the byte that may start a range after it. -/
structure MemberResult where
  atom : BracketAtom
  next : Bytes
  rangeSeed : Option UInt8

/-- What follows an opening `[:`, up to the next `]`. -/
def parseClassAttempt (bytes : Bytes) : Option MemberResult :=
  let inner := bytes.takeWhile (· != rbracket)
  match bytes.dropWhile (· != rbracket) with
  | [] => none
  | _ :: next =>
    if inner.getLast? ≠ some colon then
      some ⟨.byte lbracket, colon :: bytes, some lbracket⟩
    else
      match classTests (decode inner.dropLast) with
      | none => none
      | some test => some ⟨.cls test, next, none⟩

/-- The end of a range that starts at `lo`. -/
def parseRange (lo : UInt8) : Bytes → Option MemberResult
  | [] => none
  | hi :: next =>
    if hi = backslash then
      match next with
      | [] => none
      | escaped :: next => some ⟨.range lo escaped, next, none⟩
    else some ⟨.range lo hi, next, none⟩

def parseMember (byte : UInt8) (next : Bytes) (prevSeed : Option UInt8) : Option MemberResult :=
  if byte = backslash then
    match next with
    | [] => none
    | escaped :: next => some ⟨.byte escaped, next, some escaped⟩
  else if byte = dash ∧ prevSeed ≠ none ∧ next ≠ [] ∧ next.head? ≠ some rbracket then
    parseRange (prevSeed.getD 0) next
  else if byte = lbracket ∧ next.head? = some colon then parseClassAttempt next.tail
  else some ⟨.byte byte, next, some byte⟩

def parseMembers : ℕ → Bool → Option UInt8 → Bytes → Option (List BracketAtom × Bytes)
  | 0, _, _, _ => none
  | _ + 1, _, _, [] => none
  | fuel + 1, first, rangeSeed, byte :: next =>
    if first = false ∧ byte = rbracket then some ([], next)
    else do
      let member ← parseMember byte next rangeSeed
      let (atoms, rest) ← parseMembers fuel false member.rangeSeed member.next
      return (member.atom :: atoms, rest)

/-- A set, from the byte after its opening bracket. -/
def parseBracket (bytes : Bytes) : Option (ByteTest × Bytes) := do
  let negated := bytes.head? = some bang ∨ bytes.head? = some caret
  let body := if negated then bytes.tail else bytes
  let (atoms, next) ← parseMembers body.length true none body
  return (bracketTest negated atoms, next)

/-! ### Tokens -/

/-- `star`, any run of bytes; `segment`, any run without `/`; `dirs`, zero or more whole
segments; `one`, a byte that its test admits. -/
inductive RefGlobToken
  | star
  | segment
  | dirs
  | one (test : ByteTest)

/-- A token, the last byte it was scanned from, and the bytes after it. -/
structure ScannedToken where
  token : RefGlobToken
  last : UInt8
  next : Bytes

/-- What the flags change: a run of `count` stars after `before` and in front of the rest, and
a test of one byte. -/
structure Dialect where
  starRun : Option UInt8 → ℕ → Bytes → ScannedToken
  single : ByteTest → ByteTest

def refDialect : Dialect where
  starRun _ _ next := ⟨.star, star, next⟩
  single test := test

def isWholeSegmentRun (before : Option UInt8) (count : ℕ) (next : Bytes) : Bool :=
  let after := next = [] ∨ next.head? = some slash ∨
    (next.head? = some backslash ∧ next.tail.head? = some slash)
  1 < count ∧ (before = none ∨ before = some slash) ∧ after

def pathnameStarRun (before : Option UInt8) (count : ℕ) (next : Bytes) : ScannedToken :=
  if !isWholeSegmentRun before count next then ⟨.segment, star, next⟩
  else if next.head? = some slash then ⟨.dirs, slash, next.tail⟩
  else ⟨.star, star, next⟩

def pathnameDialect : Dialect where
  starRun := pathnameStarRun
  single test byte := if byte = slash then .ok false else test byte

def scanStarRun (dialect : Dialect) (before : Option UInt8) (bytes : Bytes) : ScannedToken :=
  dialect.starRun before ((bytes.takeWhile (· == star)).length + 1) (bytes.dropWhile (· == star))

def scanEscape : Bytes → Option ScannedToken
  | [] => none
  | escaped :: next => some ⟨.one fun b => .ok (b == escaped), escaped, next⟩

def scanToken (dialect : Dialect) (before : Option UInt8) (byte : UInt8) (next : Bytes) :
    Option ScannedToken :=
  if byte = star then some (scanStarRun dialect before next)
  else if byte = question then some ⟨.one (dialect.single fun _ => .ok true), question, next⟩
  else if byte = backslash then scanEscape next
  else if byte = lbracket then do
    let (test, next) ← parseBracket next
    return ⟨.one (dialect.single test), rbracket, next⟩
  else some ⟨.one fun b => .ok (b == byte), byte, next⟩

def tokenizeFrom (dialect : Dialect) : ℕ → Option UInt8 → Bytes → Option (List RefGlobToken)
  | _, _, [] => some []
  | 0, _, _ :: _ => none
  | fuel + 1, before, byte :: next => do
      let scanned ← scanToken dialect before byte next
      let tokens ← tokenizeFrom dialect fuel (some scanned.last) scanned.next
      return scanned.token :: tokens

/-- A pattern's tokens; none when it can never match. -/
def tokenize (dialect : Dialect) (bytes : Bytes) : Option (List RefGlobToken) :=
  tokenizeFrom dialect bytes.length none bytes

/-! ### Matching -/

def stepMatch (test : ByteTest) : Bytes → List Bool → List Bool → Except TypeError (List Bool)
  | byte :: text, _ :: next, cell :: cur => do
      let admitted ← test byte
      let rest ← stepMatch test text next cur
      return (if admitted && next.headD false then true else cell) :: rest
  | _, _, cur => .ok cur

def stepStar (text : Bytes) (next : List Bool) : List Bool := run (fun _ => true) text next

def stepSegment (text : Bytes) (next : List Bool) : List Bool := run (· != slash) text next

def isSlash : ByteTest := fun byte => .ok (byte == slash)

def zeros (text : Bytes) : List Bool := List.replicate (text.length + 1) false

def stepDirs (text : Bytes) (next : List Bool) : Except TypeError (List Bool) := do
  let throughSlash := stepStar text (← stepMatch isSlash text next (zeros text))
  return List.zipWith (· || ·) throughSlash next

/-- The row for the tokens from this one on, written over `cur`. -/
def stepToken (token : RefGlobToken) (text : Bytes) (next cur : List Bool) :
    Except TypeError (List Bool) :=
  match token with
  | .star => .ok (stepStar text next)
  | .segment => .ok (stepSegment text next)
  | .dirs => stepDirs text next
  | .one test => stepMatch test text next cur

/-- The loop of `matchTokens`, over the tokens last to first: the rows swap roles. -/
def matchReversed (text : Bytes) :
    List RefGlobToken → List Bool → List Bool → Except TypeError Bool
  | [], next, _ => .ok (next.headD false)
  | token :: before, next, cur => do
      let filled ← stepToken token text next (cur.map fun _ => false)
      if !filled.contains true then return false
      else matchReversed text before filled next

def matchTokens (tokens : List RefGlobToken) (text : Bytes) : Except TypeError Bool :=
  matchReversed text tokens.reverse (baseRow text) (zeros text)

def compileBytesWith (dialect : Dialect) (pattern text : Bytes) : Except TypeError Bool :=
  match tokenize dialect pattern with
  | none => .ok false
  | some tokens => matchTokens tokens text

def compileRefGlob (pattern ref : Text) : Except TypeError Bool :=
  compileBytesWith refDialect (encode pattern) (encode ref)

end Tsgit.RefGlob
