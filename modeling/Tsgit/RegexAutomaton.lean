import Tsgit.RegexSearch

/-!
# The Automaton before the Backtracking Matcher

`compileExtendedRegex` of `src/domain/regex/extended-regex.ts` parses a pattern that has
back-references twice. The automaton's parse takes each of them for any text, and a subject that
the automaton refuses is never given to the backtracking matcher.

* `translateLinear` is what the automaton's parse lays out, and the groups referred to;
* `automaton` steps the threads of a program through a subject;
* `test` asks the literal texts, the automaton and the matcher, in this order.
-/

namespace Tsgit.Regex

variable {σ : Type}

open Fragment

/-! ### The automaton's parse -/

/-- The bit of a group, as the shift of 32 bits finds it. -/
def referencedBit (referenced index : ℕ) : Bool := referenced.testBit (index % 32)

mutual

/-- The piece laid out for the automaton, and the bits of the groups referred to so far. -/
def translateLinear (anyCharacter : σ) : Expression σ → ℕ → Piece σ × ℕ
  | .character source, referenced => (⟨.one (.char source), false, false⟩, referenced)
  | .anchor which, referenced =>
    (⟨.one (.assert (maskOf which.holds)), which == .subjectStart, false⟩, referenced)
  | .backreference group, referenced =>
    (⟨repeatFragment (sameCopies (.one (.char anyCharacter))) 0 none, false, false⟩,
      referenced ||| 2 ^ group)
  | .group index inner, referenced =>
    -- the bits are those found when the group closes
    let translated := translateLinear anyCharacter inner referenced
    (captured (referencedBit translated.2) index translated.1, translated.2)
  | .branch parts, referenced =>
    let translated := translateAllLinear anyCharacter parts referenced
    (branchPiece translated.1, translated.2)
  | .alternation first rest, referenced =>
    let translated := translateLinear anyCharacter first referenced
    let others := translateAllLinear anyCharacter rest translated.2
    (alternatePieces (translated.1 :: others.1), others.2)
  | .repetition inner min max, referenced =>
    let translated := translateLinear anyCharacter inner referenced
    (⟨repeatFragment (sameCopies translated.1.fragment) min max,
      0 < min && translated.1.subjectStart, translated.1.capturing⟩, translated.2)

def translateAllLinear (anyCharacter : σ) : List (Expression σ) → ℕ → List (Piece σ) × ℕ
  | [], referenced => ([], referenced)
  | part :: rest, referenced =>
    let translated := translateLinear anyCharacter part referenced
    let others := translateAllLinear anyCharacter rest translated.2
    (translated.1 :: others.1, others.2)

end

/-! ### Threads -/

/-- The threads still to follow, the latest first, and those that joined in this step. -/
structure Threads where
  pending : List ℕ
  joined : List ℕ

/-- Adds a thread unless it joined in this step. -/
def Threads.join (threads : Threads) (pc : ℕ) : Threads :=
  if pc ∈ threads.joined then threads else ⟨pc :: threads.pending, pc :: threads.joined⟩

/-- What an instruction holds that is neither a read nor a fork. -/
def Op.operand : Op σ → ℕ
  | .assert mask => mask
  | .save slot => slot
  | .backref group => group
  | .progress register _ => register
  | _ => 0

/-- Drains one thread. Whatever is neither a read nor a fork is taken for an assertion. -/
def followTurn (program : List (Op σ)) (context : ℕ) (s : Threads × List ℕ) :
    Run Empty (Run.Turn (Threads × List ℕ) (Option (List ℕ))) :=
  match s.1.pending with
  | [] => pure (.stop (some s.2))
  | pc :: rest =>
    let threads : Threads := ⟨rest, s.1.joined⟩
    match program[pc]? with
    | none => pure (.stop none)
    | some (.char _) => pure (.again (threads, s.2 ++ [pc]))
    | some (.fork first second) => pure (.again ((threads.join first).join second, s.2))
    | some op =>
      pure (.again (if holdsIn op.operand context then threads.join (pc + 1) else threads, s.2))

/-- The threads ready at a character; `none` where one reaches the match. -/
def follow (fuel : ℕ) (program : List (Op σ)) (context : ℕ) (threads : Threads) :
    Run Empty (Option (List ℕ)) :=
  Run.loop (followTurn program context) fuel (threads, [])

/-- Where a run stands. -/
structure Scan where
  position : ℕ
  threads : Threads
  wordBefore : Bool

namespace Setting

variable (S : Setting σ)

/-- The thread reads the character at the position. -/
def readsAt (program : List (Op σ)) (position pc : ℕ) : Bool :=
  match program[pc]? with
  | some (.char source) => S.accepts source position
  | _ => false

/-- The ready threads that read the character, one instruction on. -/
def advance (program : List (Op σ)) (position : ℕ) (ready : List ℕ) : Threads :=
  ready.foldl (fun threads pc =>
    if S.readsAt program position pc then threads.join (pc + 1) else threads) ⟨[], []⟩

/-- Joins a thread starting afresh where one may, first jumping to where a match can begin when
none is pending; `none` where none can begin. -/
def restart (M : Backtracker σ) (scan : Scan) : Option Scan :=
  if 0 < scan.position ∧ M.subjectStart = true then
    if scan.threads.pending = [] then none else some scan
  else
    match M.leading, scan.threads.pending with
    | some leading, [] =>
      (S.nextLeading leading scan.position).map fun position =>
        { position
          threads := scan.threads.join 0
          wordBefore :=
            if position = scan.position then scan.wordBefore
            else M.words && S.wordAt (position - 1) }
    | _, _ => some { scan with threads := scan.threads.join 0 }

/-- One position of a run. -/
def automatonTurn (fuel : ℕ) (M : Backtracker σ) (scan : Scan) :
    Run Empty (Run.Turn Scan Bool) :=
  match S.restart M scan with
  | none => pure (.stop false)
  | some scan => do
    let wordAfter := M.words && S.wordAt scan.position
    let followed ← follow fuel M.program
      (contextBits (scan.position == 0) S.subject[scan.position]?.isNone scan.wordBefore wordAfter)
      scan.threads
    match followed with
    | none => return .stop true
    | some ready =>
      if S.subject[scan.position]?.isNone then return .stop false
      else
        return .again { position := scan.position + 1,
                        threads := S.advance M.program scan.position ready,
                        wordBefore := wordAfter }

/-- Whether some thread reaches the match. -/
def automaton (fuel : ℕ) (M : Backtracker σ) : Run Empty Bool :=
  Run.loop (S.automatonTurn fuel M) fuel ⟨0, ⟨[], []⟩, false⟩

/-- Whether the subject holds a match: it holds the texts every match holds, and neither engine
refuses it. -/
def test (fuel : ℕ) (holdsTexts : Bool) (filter matcher : Backtracker σ) : Run Empty Bool := do
  if holdsTexts then
    if ← S.automaton fuel filter then S.backtrack fuel matcher else return false
  else return false

variable {S}

end Setting

end Tsgit.Regex
