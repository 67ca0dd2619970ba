import Mathlib.Data.List.Basic
import Tsgit.Loop

/-!
# Compaction of a Diff

`src/src/domain/diff/xdiff/xdl-compact.ts`: `compactChanges` slides each maximal run of changed
lines of one side up or down, merging runs it bumps into, while a second walker keeps to the
group of the other side at the same position. A map of changed lines is a list of flags, the
class ids of the lines are of any type, and a loop takes fuel, one unit for each turn.

The walk also records the maps and walkers after every move and whether a callback has run.
-/

namespace Tsgit.XdlCompact

/-! ### Groups -/

/-- A run of changed lines from `start` up to `stop`, the source's `end`. -/
structure Group where
  start : ℕ
  stop : ℕ
deriving DecidableEq

/-- The refusal of a walk. -/
inductive CompactError
  /-- The other side has no previous group, the check that the source omits. -/
  | groupSync

/-- Lines outside the file are not changed. -/
def isChanged (changed : List Bool) (index : ℕ) : Bool := changed[index]?.getD false

def scanDown (changed : List Bool) (stop : ℕ) : ℕ :=
  stop + ((changed.drop stop).takeWhile id).length

def scanUp (changed : List Bool) : ℕ → ℕ
  | 0 => 0
  | start + 1 => if isChanged changed start then scanUp changed start else start + 1

def groupInit (changed : List Bool) : Group := ⟨0, scanDown changed 0⟩

def groupNext (changed : List Bool) (g : Group) : Option Group :=
  if g.stop = changed.length then none else some ⟨g.stop + 1, scanDown changed (g.stop + 1)⟩

def groupPrevious (changed : List Bool) (g : Group) : Run CompactError Group :=
  match g.start with
  | 0 => throw .groupSync
  | stop + 1 => return ⟨scanUp changed stop, stop⟩

section

variable {ι : Type} [DecidableEq ι]

def groupSlideDown (ids : List ι) (changed : List Bool) (g : Group) :
    Option (List Bool × Group) :=
  if changed.length ≤ g.stop ∨ ids[g.start]? ≠ ids[g.stop]? then none
  else
    let slid := (changed.set g.start false).set g.stop true
    some (slid, ⟨g.start + 1, scanDown slid (g.stop + 1)⟩)

def groupSlideUp (ids : List ι) (changed : List Bool) (g : Group) :
    Option (List Bool × Group) :=
  if g.start = 0 ∨ ids[g.start - 1]? ≠ ids[g.stop - 1]? then none
  else
    let slid := (changed.set (g.start - 1) true).set (g.stop - 1) false
    some (slid, ⟨scanUp slid (g.start - 1), g.stop - 1⟩)

end

/-! ### The indent heuristic -/

abbrev Line := List UInt8

def maxIndent : ℕ := 200

/-- `XDL_ISSPACE`: neither a vertical tab nor a form feed. -/
def isSpaceByte (byte : UInt8) : Bool :=
  byte == 0x20 || byte == 0x09 || byte == 0x0a || byte == 0x0d

def getIndentFrom (indent : ℕ) : Line → ℤ
  | [] => -1
  | byte :: rest =>
    if !isSpaceByte byte then indent
    else
      let deeper :=
        if byte == 0x20 then indent + 1
        else if byte == 0x09 then indent + (8 - indent % 8)
        else indent
      if maxIndent ≤ deeper then maxIndent else getIndentFrom deeper rest

/-- Tabs advance to the next multiple of 8; a blank line reports -1. -/
def getIndent (line : Line) : ℤ := getIndentFrom 0 line

def maxBlanks : ℕ := 20

structure BlankRun where
  blank : ℕ
  indent : ℤ

/-- Counts blank lines up to the first line that is not, in the order they are walked. -/
def scanBlankRun (blank : ℕ) : List Line → BlankRun
  | [] => ⟨blank, -1⟩
  | line :: rest =>
    let indent := getIndent line
    if indent ≠ -1 then ⟨blank, indent⟩
    else if blank + 1 = maxBlanks then ⟨blank + 1, 0⟩
    else scanBlankRun (blank + 1) rest

/-- The lines above the line `split`, nearest first; none when that one lies past the end. -/
def linesAbove (lines : List Line) (split : ℕ) : List Line :=
  if split ≤ lines.length then (lines.take split).reverse else []

structure SplitMeasurement where
  endOfFile : Bool
  indent : ℤ
  preBlank : ℕ
  preIndent : ℤ
  postBlank : ℕ
  postIndent : ℤ

def measureSplit (lines : List Line) (split : ℕ) : SplitMeasurement :=
  let pre := scanBlankRun 0 (linesAbove lines split)
  let post := scanBlankRun 0 (lines.drop (split + 1))
  { endOfFile := lines.length ≤ split
    indent := (lines[split]?.map getIndent).getD (-1)
    preBlank := pre.blank
    preIndent := pre.indent
    postBlank := post.blank
    postIndent := post.indent }

structure SplitScore where
  effectiveIndent : ℤ
  penalty : ℤ

def postBlankCount (m : SplitMeasurement) : ℕ := if m.indent = -1 then 1 + m.postBlank else 0

def effectiveIndentOf (m : SplitMeasurement) : ℤ := if m.indent ≠ -1 then m.indent else m.postIndent

def startOfFilePenalty (m : SplitMeasurement) : ℤ :=
  if m.preIndent = -1 ∧ m.preBlank = 0 then 1 else 0

def endOfFilePenalty (m : SplitMeasurement) : ℤ := if m.endOfFile then 21 else 0

def blankLinePenalty (preBlank postBlank : ℕ) : ℤ := -30 * (preBlank + postBlank) + 6 * postBlank

def relativeIndentPenalty (indent : ℤ) (m : SplitMeasurement) (anyBlanks : Bool) : ℤ :=
  if indent = -1 ∨ m.preIndent = -1 ∨ indent = m.preIndent then 0
  else if m.preIndent < indent then if anyBlanks then 10 else -4
  else if m.postIndent ≠ -1 ∧ indent < m.postIndent then if anyBlanks then 17 else 24
  else if anyBlanks then 17 else 23

def addSplitScore (score : SplitScore) (m : SplitMeasurement) : SplitScore :=
  let postBlank := postBlankCount m
  let indent := effectiveIndentOf m
  let anyBlanks := m.preBlank + postBlank ≠ 0
  { effectiveIndent := score.effectiveIndent + indent
    penalty := score.penalty + startOfFilePenalty m + endOfFilePenalty m +
      blankLinePenalty m.preBlank postBlank + relativeIndentPenalty indent m anyBlanks }

def compareIndent (a b : ℤ) : ℤ := (if b < a then 1 else 0) - if a < b then 1 else 0

/-- Negative when `s1` is the better split. -/
def scoreCmp (s1 s2 : SplitScore) : ℤ :=
  60 * compareIndent s1.effectiveIndent s2.effectiveIndent + (s1.penalty - s2.penalty)

def scoreForShift (lines : List Line) (shift groupSize : ℕ) : SplitScore :=
  addSplitScore (addSplitScore ⟨0, 0⟩ (measureSplit lines shift))
    (measureSplit lines (shift - groupSize))

/-- The later of two shifts replaces the best one so far unless its score is worse. -/
def betterShift (lines : List Line) (groupSize : ℕ) (best : ℕ × SplitScore) (shift : ℕ) :
    ℕ × SplitScore :=
  let score := scoreForShift lines shift groupSize
  if scoreCmp score best.2 ≤ 0 then (shift, score) else best

def bestIndentShift (lines : List Line) (groupSize earliestEnd latestEnd : ℕ) : ℕ :=
  let lowerBound := max earliestEnd (max (latestEnd - groupSize - 1) (latestEnd - 100))
  ((List.range' (lowerBound + 1) (latestEnd - lowerBound)).foldl (betterShift lines groupSize)
    (lowerBound, scoreForShift lines lowerBound groupSize)).1

/-! ### Two walkers -/

/-- Both maps and the walkers on them. -/
structure Walkers where
  changed : List Bool
  otherChanged : List Bool
  g : Group
  go : Group

/-- The state of a walk, with what it has recorded. -/
structure Walk extends Walkers where
  /-- The maps and walkers after each move so far, latest first. -/
  trail : List Walkers
  /-- Whether a re-diff callback has run. -/
  rediffed : Bool

/-- Moves both walkers. -/
def Walk.moved (w : Walk) (changed : List Bool) (g go : Group) : Walk :=
  let next : Walkers := ⟨changed, w.otherChanged, g, go⟩
  ⟨next, next :: w.trail, w.rediffed⟩

/-- The other side's walker on its next group, or where it is on the last one. -/
def Walk.nextOther (w : Walk) : Group := (groupNext w.otherChanged w.go).getD w.go

/-- A callback that re-diffs a group against the other side's group, on both maps. -/
abbrev GroupFallback := List Bool → List Bool → Group → Group → List Bool × List Bool

section

variable {ι : Type} [DecidableEq ι]

def slideUpTurn (ids : List ι) (w : Walk) : Run CompactError (Run.Turn Walk Walk) :=
  match groupSlideUp ids w.changed w.g with
  | none => return .stop w
  | some (changed, g) => do
      let go ← groupPrevious w.otherChanged w.go
      return .again (w.moved changed g go)

def slideUpFully (fuel : ℕ) (ids : List ι) (w : Walk) : Run CompactError Walk :=
  Run.loop (slideUpTurn ids) fuel w

def slideDownTurn (ids : List ι) :
    Walk × Bool → Run CompactError (Run.Turn (Walk × Bool) (Walk × Bool))
  | (w, matchesOtherGroup) =>
    match groupSlideDown ids w.changed w.g with
    | none => return .stop (w, matchesOtherGroup)
    | some (changed, g) =>
      let go := w.nextOther
      return .again (w.moved changed g go,
        if go.start < go.stop then true else matchesOtherGroup)

def slideDownFully (fuel : ℕ) (ids : List ι) (w : Walk) : Run CompactError (Walk × Bool) :=
  Run.loop (slideDownTurn ids) fuel (w, false)

structure SlideResult where
  walk : Walk
  earliestEnd : ℕ
  matchesOtherGroup : Bool

/-- One turn of the loop of `slideGroupToExtremes`: up, then down as far as it goes. -/
def extremesTurn (fuel : ℕ) (ids : List ι) (w : Walk) :
    Run CompactError (Run.Turn Walk SlideResult) := do
  let up ← slideUpFully fuel ids w
  let (down, matchesWhileSlidingDown) ← slideDownFully fuel ids up
  return if w.g.stop - w.g.start ≠ down.g.stop - down.g.start then .again down
    else .stop ⟨down, up.g.stop, up.go.start < up.go.stop || matchesWhileSlidingDown⟩

def slideGroupToExtremes (fuel : ℕ) (ids : List ι) (w : Walk) : Run CompactError SlideResult :=
  Run.loop (extremesTurn fuel ids) fuel w

/-- Slides up as long as `again` says, whether or not the group can. -/
def slideBackTurn (ids : List ι) (again : Walk → Bool) (w : Walk) :
    Run CompactError (Run.Turn Walk Walk) :=
  if again w then do
    let (changed, g) := (groupSlideUp ids w.changed w.g).getD (w.changed, w.g)
    let go ← groupPrevious w.otherChanged w.go
    return .again (w.moved changed g go)
  else return .stop w

def slideUpToMatch (fuel : ℕ) (ids : List ι) (w : Walk) : Run CompactError Walk :=
  Run.loop (slideBackTurn ids fun w => w.go.stop = w.go.start) fuel w

def slideToIndentHeuristic (fuel : ℕ) (ids : List ι) (lines : List Line) (w : Walk)
    (earliestEnd : ℕ) : Run CompactError Walk :=
  let bestShift := bestIndentShift lines (w.g.stop - w.g.start) earliestEnd w.g.stop
  Run.loop (slideBackTurn ids fun w => bestShift < w.g.stop) fuel w

def placeGroup (fuel : ℕ) (ids : List ι) (lines : List Line) (w : Walk) :
    Run CompactError Walk := do
  let slid ← slideGroupToExtremes fuel ids w
  if slid.walk.g.stop = slid.earliestEnd then return slid.walk
  else if slid.matchesOtherGroup then slideUpToMatch fuel ids slid.walk
  else slideToIndentHeuristic fuel ids lines slid.walk slid.earliestEnd

/-- Runs the callback on a group that has moved beside a group of the other side. -/
def rediff (fallback : Option GroupFallback) (original : Group) (w : Walk) : Walk :=
  match fallback with
  | none => w
  | some fallback =>
    if w.go.stop = w.go.start ∨ w.g = original then w
    else
      let (changed, otherChanged) := fallback w.changed w.otherChanged w.g w.go
      ⟨⟨changed, otherChanged, w.g, w.go⟩, w.trail, true⟩

def compactGroup (fuel : ℕ) (ids : List ι) (lines : List Line) (fallback : Option GroupFallback)
    (w : Walk) : Run CompactError Walk := do
  let placed ← placeGroup fuel ids lines w
  return rediff fallback w.g placed

/-- Compacts the group unless it is empty. -/
def compactNonempty (fuel : ℕ) (ids : List ι) (lines : List Line)
    (fallback : Option GroupFallback) (w : Walk) : Run CompactError Walk :=
  if w.g.stop ≠ w.g.start then compactGroup fuel ids lines fallback w else return w

def compactTurn (fuel : ℕ) (ids : List ι) (lines : List Line) (fallback : Option GroupFallback)
    (w : Walk) : Run CompactError (Run.Turn Walk Walk) := do
  let compacted ← compactNonempty fuel ids lines fallback w
  return match groupNext compacted.changed compacted.g with
    | none => .stop compacted
    | some g => .again (compacted.moved compacted.changed g compacted.nextOther)

def Walk.first (changed otherChanged : List Bool) : Walk :=
  let start : Walkers := ⟨changed, otherChanged, groupInit changed, groupInit otherChanged⟩
  ⟨start, [start], false⟩

/-- The walk when `compactChanges` is done; the source writes its maps in place. -/
def compactChanges (fuel : ℕ) (changed otherChanged : List Bool) (ids : List ι)
    (lines : List Line) (fallback : Option GroupFallback) : Run CompactError Walk :=
  Run.loop (compactTurn fuel ids lines fallback) fuel (Walk.first changed otherChanged)

end

end Tsgit.XdlCompact
