import Mathlib.Data.Nat.Bitwise

/-!
# Programs of the Regex Engine

The instructions a pattern is laid out as, the fragments they are put together in, and what
the translation of a pattern lays out for the backtracking engine. A one-character class is
an element of `σ`, its source; which characters it reads is left to the machine.

`Expression` is the order in which the parser emits its pieces, a tree, and `translate` what it
emits.
-/

namespace Tsgit.Regex

variable {σ : Type}

/-! ### Contexts -/

/-- The bits of a position: the subject's start and end, a word character before and after. -/
def contextBits (atStart atEnd wordBefore wordAfter : Bool) : ℕ :=
  (if atStart then 1 else 0) ||| (if atEnd then 2 else 0) ||| (if wordBefore then 4 else 0) |||
    (if wordAfter then 8 else 0)

/-- The zero-width assertions of a pattern. -/
inductive Anchor
  | subjectStart | subjectEnd | wordStart | wordEnd | wordBoundary | notWordBoundary
  deriving DecidableEq

def wordBefore (context : ℕ) : Bool := context.testBit 2

def wordAfter (context : ℕ) : Bool := context.testBit 3

def Anchor.holds : Anchor → ℕ → Bool
  | subjectStart, context => context.testBit 0
  | subjectEnd, context => context.testBit 1
  | wordStart, context => wordAfter context && !wordBefore context
  | wordEnd, context => wordBefore context && !wordAfter context
  | wordBoundary, context => wordBefore context != wordAfter context
  | notWordBoundary, context => !(wordBefore context != wordAfter context)

/-- A bit for each of the sixteen contexts an assertion holds in. -/
def maskOf (holds : ℕ → Bool) : ℕ :=
  (List.range 16).foldl (fun mask context => mask ||| ((holds context).toNat <<< context)) 0

def holdsIn (mask context : ℕ) : Bool := mask.testBit context

/-- The assertion's verdict changes with the word characters around the position. -/
def dependsOnWords (mask : ℕ) : Bool :=
  (List.range 16).any fun context => holdsIn mask context != holdsIn mask (context &&& 3)

/-! ### Instructions and fragments -/

/-- An instruction as a fragment holds it, the targets of a fork relative to it. -/
inductive Instruction (σ : Type)
  | char (source : σ)
  | span (source : σ)
  | fork (first second : ℤ)
  | assert (mask : ℕ)
  | save (slot : ℕ)
  | backref (group : ℕ)
  | progress (register skip : ℕ)

/-- Instructions in order. -/
inductive Fragment (σ : Type)
  | one (instruction : Instruction σ)
  | sequence (parts : List (Fragment σ))

namespace Fragment

mutual

def flatten : Fragment σ → List (Instruction σ)
  | one instruction => [instruction]
  | sequence parts => flattenAll parts

def flattenAll : List (Fragment σ) → List (Instruction σ)
  | [] => []
  | part :: rest => flatten part ++ flattenAll rest

end

/-- The number of instructions of a fragment. -/
def size (fragment : Fragment σ) : ℕ := fragment.flatten.length

/-- The fragments in order; empty ones are dropped. -/
def sequenceOf (fragments : List (Fragment σ)) : Fragment σ :=
  .sequence (fragments.filter fun fragment => 0 < fragment.size)

def fork (first second : ℤ) : Fragment σ := .one (.fork first second)

def isFork : Fragment σ → Bool
  | one (.fork _ _) => true
  | _ => false

/-- Each branch but the last is forked past and, once matched, jumps past the rest. -/
def alternateParts : List (Fragment σ) → List (Fragment σ)
  | [] => []
  | [last] => [last]
  | branch :: others =>
    fork 1 (branch.size + 2) :: branch ::
      fork ((flattenAll (alternateParts others)).length + 1)
        ((flattenAll (alternateParts others)).length + 1) :: alternateParts others

def alternate (branches : List (Fragment σ)) : Fragment σ := sequenceOf (alternateParts branches)

/-- A skippable copy jumping back to its fork. -/
def star (copy : Fragment σ) : Fragment σ :=
  sequenceOf [fork 1 (copy.size + 2), copy, fork (-copy.size - 1) (-copy.size - 1)]

mutual

def reads : Fragment σ → Bool
  | one (.char _) => true
  | one _ => false
  | sequence parts => !parts.any isFork && readsSome parts

def readsSome : List (Fragment σ) → Bool
  | [] => false
  | part :: rest => reads part || readsSome rest

end

def charSource : Fragment σ → Option σ
  | one (.char source) => some source
  | _ => none

end Fragment

open Fragment

/-- A repeated body as a required and an optional copy, and any number of copies of it. -/
structure Copies (σ : Type) where
  body : Fragment σ
  optional : Fragment σ
  unbounded : Fragment σ

def sameCopies (body : Fragment σ) : Copies σ := ⟨body, body, Fragment.star body⟩

/-- From the end of an unbounded repetition's copy to the instruction after the repetition. -/
def pastJumpBack : ℕ := 2

/-- The skip of a copy that fails where it reads nothing. -/
def fails : ℕ := 0

/-- A copy that records where it starts, and takes the skip `empty` where it reads nothing. -/
def guarded (fragment : Fragment σ) (register empty : ℕ) : Fragment σ :=
  sequenceOf [.one (.save register), fragment, .one (.progress register empty)]

def copiesOf (spans : σ → Bool) (fragment : Fragment σ) (capturing : Bool) (slots : ℕ) :
    Copies σ × ℕ :=
  match fragment.charSource with
  | some source =>
    (⟨fragment, fragment,
      if spans source then .one (.span source) else Fragment.star fragment⟩, slots)
  | none =>
    if reads fragment then (sameCopies fragment, slots)
    else if capturing then
      (⟨fragment, fragment, Fragment.star (guarded fragment slots pastJumpBack)⟩, slots + 1)
    else
      (⟨fragment, guarded fragment slots fails,
        Fragment.star (guarded fragment slots fails)⟩, slots + 1)

/-- `count` copies, each skipping past the rest. -/
def optionalCopies (copy : Fragment σ) : ℕ → List (Fragment σ)
  | 0 => []
  | count + 1 =>
    sequenceOf [fork 1 ((count + 1 : ℕ) * (copy.size + 1)), copy] :: optionalCopies copy count

def repeatFragment (copies : Copies σ) (min : ℕ) (max : Option ℕ) : Fragment σ :=
  if copies.body.size = 0 then copies.body
  else
    sequenceOf (List.replicate min copies.body ++
      max.elim [copies.unbounded] fun max => optionalCopies copies.optional (max - min))

/-! ### Translation -/

/-- What the parser reads, in the order in which it emits its pieces. -/
inductive Expression (σ : Type)
  | character (source : σ)
  | anchor (which : Anchor)
  | backreference (group : ℕ)
  | group (index : ℕ) (inner : Expression σ)
  | branch (parts : List (Expression σ))
  | alternation (first : Expression σ) (rest : List (Expression σ))
  | repetition (inner : Expression σ) (min : ℕ) (max : Option ℕ)

/-- A parsed expression: its program, whether its matches start at the subject's start, and
whether it records a group. -/
structure Piece (σ : Type) where
  fragment : Fragment σ
  subjectStart : Bool
  capturing : Bool

/-- A group a back-reference reads records where it starts and ends. -/
def captured (referenced : ℕ → Bool) (index : ℕ) (inner : Piece σ) : Piece σ :=
  if referenced index then
    ⟨sequenceOf [.one (.save (index * 2)), inner.fragment, .one (.save (index * 2 + 1))],
      inner.subjectStart, true⟩
  else inner

def branchPiece (pieces : List (Piece σ)) : Piece σ :=
  ⟨sequenceOf (pieces.map Piece.fragment), (pieces.head?.map Piece.subjectStart).getD false,
    pieces.any Piece.capturing⟩

def alternatePieces (branches : List (Piece σ)) : Piece σ :=
  ⟨alternate (branches.map Piece.fragment), branches.all Piece.subjectStart,
    branches.any Piece.capturing⟩

def repeatPiece (spans : σ → Bool) (piece : Piece σ) (min : ℕ) (max : Option ℕ) (slots : ℕ) :
    Piece σ × ℕ :=
  (⟨repeatFragment (copiesOf spans piece.fragment piece.capturing slots).1 min max,
    0 < min && piece.subjectStart, piece.capturing⟩,
    (copiesOf spans piece.fragment piece.capturing slots).2)

mutual

def translate (spans : σ → Bool) (referenced : ℕ → Bool) : Expression σ → ℕ → Piece σ × ℕ
  | .character source, slots => (⟨.one (.char source), false, false⟩, slots)
  | .anchor which, slots =>
    (⟨.one (.assert (maskOf which.holds)), which == .subjectStart, false⟩, slots)
  | .backreference group, slots => (⟨.one (.backref group), false, false⟩, slots)
  | .group index inner, slots =>
    ((captured referenced index (translate spans referenced inner slots).1),
      (translate spans referenced inner slots).2)
  | .branch parts, slots =>
    (branchPiece (translateAll spans referenced parts slots).1,
      (translateAll spans referenced parts slots).2)
  | .alternation first rest, slots =>
    (alternatePieces ((translate spans referenced first slots).1 ::
        (translateAll spans referenced rest (translate spans referenced first slots).2).1),
      (translateAll spans referenced rest (translate spans referenced first slots).2).2)
  | .repetition inner min max, slots =>
    repeatPiece spans (translate spans referenced inner slots).1 min max
      (translate spans referenced inner slots).2

def translateAll (spans : σ → Bool) (referenced : ℕ → Bool) :
    List (Expression σ) → ℕ → List (Piece σ) × ℕ
  | [], slots => ([], slots)
  | part :: rest, slots =>
    ((translate spans referenced part slots).1 ::
        (translateAll spans referenced rest (translate spans referenced part slots).2).1,
      (translateAll spans referenced rest (translate spans referenced part slots).2).2)

end

/-! ### Layout -/

/-- An instruction of a program, the targets of a fork absolute. -/
inductive Op (σ : Type)
  | char (source : σ)
  | span (source : σ)
  | fork (first second : ℕ)
  | assert (mask : ℕ)
  | save (slot : ℕ)
  | backref (group : ℕ)
  | progress (register skip : ℕ)

def Instruction.encode (pc : ℕ) : Instruction σ → Op σ
  | .char source => .char source
  | .span source => .span source
  | .fork first second => .fork (pc + first).toNat (pc + second).toNat
  | .assert mask => .assert mask
  | .save slot => .save slot
  | .backref group => .backref group
  | .progress register skip => .progress register skip

/-- The program; the match stands after its last instruction. -/
def layOut (instructions : List (Instruction σ)) : List (Op σ) :=
  instructions.mapIdx Instruction.encode

theorem getElem?_layOut (instructions : List (Instruction σ)) (pc : ℕ) :
    (layOut instructions)[pc]? = (instructions[pc]?).map (Instruction.encode pc) := by
  rw [layOut, List.getElem?_mapIdx]

end Tsgit.Regex
