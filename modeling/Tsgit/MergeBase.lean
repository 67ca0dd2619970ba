import Mathlib.Data.Finset.Basic
import Mathlib.Data.List.Sort
import Tsgit.BinaryHeap
import Tsgit.Dict
import Tsgit.Loop

/-!
# Merge Bases

`src/application/primitives/merge-base.ts`: the paint-down walk and the reduction of its
candidates. Commits are keyed by an arbitrary type of ids, dates are integers, and a
generation is a number or infinite.

The object-type table is left out: it refuses a commit only when an id is used both as a
commit and as a tree. A walk takes fuel, one unit for each commit it pops.
-/

namespace Tsgit.MergeBase

/-! ### Flags -/

/-- The bits a commit is painted with. -/
abbrev Flags := BitVec 5

namespace Flags

def parent1 : Flags := 1#5
def parent2 : Flags := 2#5
def stale : Flags := 4#5
def result : Flags := 8#5
def both : Flags := parent1 ||| parent2

/-- `visit`'s own stop signal; no flag map holds it. -/
def done : Flags := 16#5

def has (flags bit : Flags) : Bool := flags &&& bit != 0#5

/-- The bits the parents of a commit with these flags inherit. -/
def inherits (flags : Flags) : Flags :=
  if flags &&& (both ||| stale) = both then both ||| stale else flags &&& (both ||| stale)

/-- How many of the three bits that spread are still missing. -/
def missing (flags : Flags) : ℕ :=
  (if flags.has parent1 then 0 else 1) + (if flags.has parent2 then 0 else 1) +
    if flags.has stale then 0 else 1

theorem has_or (a b bit : Flags) : (a ||| b).has bit = (a.has bit || b.has bit) := by
  have hdistrib : (a ||| b) &&& bit = a &&& bit ||| b &&& bit := by
    ext i
    simp [Bool.and_or_distrib_right]
  rw [Bool.eq_iff_iff, Bool.or_eq_true, has, has, has, hdistrib, bne_iff_ne, bne_iff_ne, bne_iff_ne,
    Ne, BitVec.or_eq_zero_iff, not_and_or]

theorem has_of_and_eq {a b bit : Flags} (h : a &&& b = b) (hb : b.has bit = true) :
    a.has bit = true := by
  by_contra hnot
  have hzero : a &&& bit = 0#5 := by simpa [has] using hnot
  have hb' : b &&& bit = b &&& (a &&& bit) := by rw [← BitVec.and_assoc, BitVec.and_comm b a, h]
  rw [has, hb', hzero, BitVec.and_zero] at hb
  cases hb

theorem inherits_has : ∀ flags : Flags, (inherits flags).has parent1 = flags.has parent1 ∧
    (inherits flags).has parent2 = flags.has parent2 ∧
    (inherits flags).has stale = (flags.has stale || flags.has parent1 && flags.has parent2) ∧
    (inherits flags).has result = false ∧ (inherits flags).has done = false := by
  decide

@[simp] theorem inherits_or_result : ∀ flags : Flags,
    inherits (flags ||| result) = inherits flags := by
  decide

@[simp] theorem missing_or_result : ∀ flags : Flags,
    missing (flags ||| result) = missing flags := by
  decide

theorem missing_le : ∀ flags : Flags, missing flags ≤ 3 := by
  decide

theorem missing_or_lt : ∀ flags bits : Flags, ¬flags &&& inherits bits = inherits bits →
    missing (flags ||| inherits bits) < missing flags := by
  decide +kernel

theorem missing_or_le : ∀ flags bits : Flags, missing (flags ||| bits) ≤ missing flags := by
  decide +kernel

theorem bucket_iff : ∀ flags : Flags, (flags &&& (both ||| stale) = parent1 ↔
      flags.has parent1 = true ∧ flags.has parent2 = false ∧ flags.has stale = false) ∧
    (flags &&& (both ||| stale) = parent2 ↔
      flags.has parent1 = false ∧ flags.has parent2 = true ∧ flags.has stale = false) ∧
    (flags &&& (both ||| stale) = both ↔
      flags.has parent1 = true ∧ flags.has parent2 = true ∧ flags.has stale = false) := by
  decide

theorem or_and_eq (a b : Flags) : (a ||| b) &&& b = b := by
  ext i hi
  simpa using fun hb => Or.inr hb

/-- More bits keep the ones that are there. -/
theorem or_and_eq_of_and_eq {a c : Flags} (h : a &&& c = c) (b : Flags) :
    (a ||| b) &&& c = c := by
  rw [← h]
  ext i hi
  cases ha : a[i] <;> simp [ha]

end Flags

open Flags

/-! ### Commits -/

/-- `GENERATION_INFINITY`: no graph serves the commit. -/
def generationInfinity : WithTop ℕ := ⊤

def generationNumberV1Max : WithTop ℕ := ((0x3fffffff : ℕ) : WithTop ℕ)

/-- `CommitMeta`, as far as the walk reads it. -/
structure CommitMeta (Id : Type) where
  parents : List Id
  committerDate : ℤ
  generation : WithTop ℕ

/-- The refusal of a walk. -/
inductive WalkError (Id : Type)
  | commitParseFailed (id : Id)

variable {Id : Type}

def readCommit (commits : Dict Id (CommitMeta Id)) (id : Id) :
    Run (WalkError Id) (CommitMeta Id) :=
  match commits.get id with
  | some found => pure found
  | none => throw (.commitParseFailed id)

/-! ### The queue -/

structure PaintEntry (Id : Type) where
  oid : Id
  date : ℤ
  generation : WithTop ℕ
  ins : ℕ
  parents : List Id

def byInsertion (a b : PaintEntry Id) : Bool := a.ins < b.ins

def byDate (a b : PaintEntry Id) : Bool :=
  if a.date ≠ b.date then b.date < a.date else byInsertion a b

def byGenerationThenDate (a b : PaintEntry Id) : Bool :=
  if a.generation ≠ b.generation then b.generation < a.generation else byDate a b

structure PaintOptions where
  minGeneration : WithTop ℕ
  findAll : Bool
  topoCeiling : WithTop ℕ

def topoCeilingFor (correctedCommitDates : Bool) : WithTop ℕ :=
  if correctedCommitDates then generationInfinity else generationNumberV1Max

structure PaintOutcome (Id : Type) where
  flags : Id → Flags
  results : List Id

structure PaintCounts where
  parent1 : ℤ
  parent2 : ℤ
  candidates : ℤ

def countBucket (counts : PaintCounts) (bits : Flags) (delta : ℤ) : PaintCounts :=
  let bucket := bits &&& (both ||| stale)
  if bucket = parent1 then { counts with parent1 := counts.parent1 + delta }
  else if bucket = parent2 then { counts with parent2 := counts.parent2 + delta }
  else if bucket = both then { counts with candidates := counts.candidates + delta }
  else counts

def walkIsOver (counts : PaintCounts) (generation topoCeiling : WithTop ℕ) : Bool :=
  if counts.candidates ≠ 0 then false
  else if counts.parent1 = 0 ∧ counts.parent2 = 0 then true
  else
    let oneSideDry := counts.parent1 = 0 ∨ counts.parent2 = 0
    oneSideDry ∧ generation < topoCeiling

/-- The state of a walk. An id without flags reads as 0. -/
structure PaintState (Id : Type) where
  flags : Id → Flags
  queued : Finset Id
  counts : PaintCounts
  heap : BinaryHeap (@byGenerationThenDate Id)
  insertions : ℕ

def emptyPaintState : PaintState Id where
  flags _ := 0#5
  queued := ∅
  counts := ⟨0, 0, 0⟩
  heap := BinaryHeap.empty
  insertions := 0

theorem byGenerationThenDate_iff (a b : PaintEntry Id) :
    byGenerationThenDate a b = true ↔ b.generation < a.generation ∨
      a.generation = b.generation ∧ (b.date < a.date ∨ a.date = b.date ∧ a.ins < b.ins) := by
  unfold byGenerationThenDate byDate byInsertion
  by_cases hgeneration : a.generation = b.generation
  · by_cases hdate : a.date = b.date
    · simp [hgeneration, hdate]
    · simp [hgeneration, hdate]
  · simp [hgeneration]

instance : IsPriority (@byGenerationThenDate Id) where
  asymm {a b} h := by
    rw [← Bool.not_eq_true, byGenerationThenDate_iff]
    rw [byGenerationThenDate_iff] at h
    rcases h with h | ⟨hgeneration, h⟩
    · rintro (h' | ⟨h', -⟩)
      · exact lt_asymm h h'
      · exact absurd h' h.ne
    · rintro (h' | ⟨-, h'⟩)
      · exact absurd hgeneration h'.ne
      · omega
  trans {a b c} hab hbc := by
    rw [← Bool.not_eq_true, byGenerationThenDate_iff] at hab hbc ⊢
    rintro (h | ⟨hgeneration, h⟩)
    · rcases lt_trichotomy a.generation b.generation with h' | h' | h'
      · exact hbc (.inl (h.trans h'))
      · exact hbc (.inl (h' ▸ h))
      · exact hab (.inl h')
    rcases lt_trichotomy a.generation b.generation with h' | h' | h'
    · exact hbc (.inl (hgeneration ▸ h'))
    · have hab' : ¬(b.date < a.date ∨ a.date = b.date ∧ a.ins < b.ins) :=
        fun h'' => hab (.inr ⟨h', h''⟩)
      have hbc' : ¬(c.date < b.date ∨ b.date = c.date ∧ b.ins < c.ins) :=
        fun h'' => hbc (.inr ⟨h'.symm.trans hgeneration, h''⟩)
      omega
    · exact hab (.inl h')

section

variable [DecidableEq Id]

def enqueuePainted (read : Id → Run (WalkError Id) (CommitMeta Id)) (state : PaintState Id)
    (id : Id) : Run (WalkError Id) (PaintState Id) := do
  let found ← read id
  return { state with
    queued := insert id state.queued
    heap := state.heap.push
      ⟨id, found.committerDate, found.generation, state.insertions, found.parents⟩
    insertions := state.insertions + 1 }

def markPainted (read : Id → Run (WalkError Id) (CommitMeta Id)) (state : PaintState Id)
    (id : Id) (bits : Flags) : Run (WalkError Id) (PaintState Id) :=
  let before := state.flags id
  let after := before ||| bits
  let marked := { state with flags := Function.update state.flags id after }
  if id ∈ state.queued then
    return { marked with counts := countBucket (countBucket marked.counts before (-1)) after 1 }
  else do
    let next ← enqueuePainted read marked id
    return { next with counts := countBucket next.counts after 1 }

def popPainted (state : PaintState Id) (topoCeiling : WithTop ℕ) :
    Option (PaintEntry Id × PaintState Id) :=
  match state.heap.pop with
  | none => none
  | some (entry, heap) =>
    if walkIsOver state.counts entry.generation topoCeiling = true then none
    else
      some (entry, { state with
        queued := state.queued.erase entry.oid
        counts := countBucket state.counts (state.flags entry.oid) (-1)
        heap := heap })

/-- One pop of the walk: the bits the parents inherit (`done`: stop), and the flags and results
after it. -/
def visit (flags : Id → Flags) (entry : PaintEntry Id) (results : List Id)
    (options : PaintOptions) : Flags × (Id → Flags) × List Id :=
  let carried := flags entry.oid &&& (both ||| stale)
  if carried ≠ both then (carried, flags, results)
  else if (flags entry.oid).has result = false then
    let recorded := Function.update flags entry.oid (flags entry.oid ||| result)
    if options.findAll = false ∧ entry.generation < options.topoCeiling then
      (carried ||| done, recorded, results ++ [entry.oid])
    else (carried ||| stale, recorded, results ++ [entry.oid])
  else (carried ||| stale, flags, results)

/-- Marks a parent with the inherited bits, unless it carries them all. -/
def markParent (read : Id → Run (WalkError Id) (CommitMeta Id)) (inherited : Flags)
    (state : PaintState Id) (parent : Id) : Run (WalkError Id) (PaintState Id) :=
  if state.flags parent &&& inherited = inherited then return state
  else markPainted read state parent inherited

/-- One turn of `paint`'s loop. -/
def paintTurn (read : Id → Run (WalkError Id) (CommitMeta Id)) (options : PaintOptions) :
    PaintState Id × List Id →
      Run (WalkError Id) (Run.Turn (PaintState Id × List Id) (PaintOutcome Id))
  | (state, results) =>
    match popPainted state options.topoCeiling with
    | none => return .stop ⟨state.flags, results⟩
    | some (entry, popped) =>
      if entry.generation < options.minGeneration then
        return .stop ⟨popped.flags, results⟩
      else
        let (inherited, flags, recorded) := visit popped.flags entry results options
        if inherited.has done then return .stop ⟨flags, recorded⟩
        else do
          let next ← entry.parents.foldlM (markParent read inherited)
            { popped with flags := flags }
          return .again (next, recorded)

/-- Paints commits down to their common ancestors: `one` carries `parent1`, every one of
`twos` carries `parent2`. -/
def paint (fuel : ℕ) (read : Id → Run (WalkError Id) (CommitMeta Id)) (one : Id)
    (twos : List Id) (options : PaintOptions) : Run (WalkError Id) (PaintOutcome Id) := do
  let state ← markPainted read emptyPaintState one parent1
  if twos.isEmpty then return ⟨state.flags, [one]⟩
  let state ← twos.foldlM (fun state two => markPainted read state two parent2) state
  Run.loop (paintTurn read options) fuel (state, [])

/-! ### Reduction -/

/-- Newest committer date first, equal dates in the order given. -/
def byDateDescending (read : Id → Run (WalkError Id) (CommitMeta Id)) (ids : List Id) :
    Run (WalkError Id) (List Id) := do
  let dated ← ids.mapM fun id => do
    let found ← read id
    return (id, found.committerDate)
  return (dated.insertionSort fun a b => b.2 ≤ a.2).map Prod.fst

def lowestGeneration (read : Id → Run (WalkError Id) (CommitMeta Id)) (ids : List Id) :
    Run (WalkError Id) (WithTop ℕ) :=
  ids.foldlM (fun lowest id => do
    let generation := (← read id).generation
    return if generation < lowest then generation else lowest) generationInfinity

def reduceCandidate (fuel : ℕ) (read : Id → Run (WalkError Id) (CommitMeta Id))
    (unique : List Id) (topoCeiling : WithTop ℕ) (redundant : Finset Id) (candidate : Id) :
    Run (WalkError Id) (Finset Id) :=
  if candidate ∈ redundant then return redundant
  else do
    let others := unique.filter fun other => other ≠ candidate ∧ other ∉ redundant
    let minGeneration ← lowestGeneration read (candidate :: others)
    let outcome ← paint fuel read candidate others ⟨minGeneration, true, topoCeiling⟩
    let ruled := if (outcome.flags candidate).has parent2 then insert candidate redundant
      else redundant
    return others.foldl (fun ruled other =>
      if (outcome.flags other).has parent1 then insert other ruled else ruled) ruled

/-- Drops the commits that another of them reaches. -/
def removeRedundant (fuel : ℕ) (read : Id → Run (WalkError Id) (CommitMeta Id))
    (ids : List Id) (topoCeiling : WithTop ℕ) : Run (WalkError Id) (List Id) := do
  let unique := ids.eraseDups
  let redundant ← unique.foldlM (reduceCandidate fuel read unique topoCeiling) ∅
  return unique.filter (· ∉ redundant)

def mergeBasesMany (fuel : ℕ) (read : Id → Run (WalkError Id) (CommitMeta Id)) (one : Id)
    (twos : List Id) (findAll : Bool) (topoCeiling : WithTop ℕ) :
    Run (WalkError Id) (List Id) :=
  if one ∈ twos then return [one]
  else do
    let outcome ← paint fuel read one twos ⟨((0 : ℕ) : WithTop ℕ), findAll, topoCeiling⟩
    let alive := outcome.results.filter fun id => (outcome.flags id).has stale = false
    let sorted ← byDateDescending read alive
    if sorted.length ≤ 1 then return sorted
    byDateDescending read (← removeRedundant fuel read sorted topoCeiling)

def octopusMergeBases (fuel : ℕ) (read : Id → Run (WalkError Id) (CommitMeta Id)) (first : Id)
    (rest : List Id) (topoCeiling : WithTop ℕ) : Run (WalkError Id) (List Id) := do
  let bases ← rest.foldlM (fun bases commit =>
    bases.foldlM (fun next base => do
      return next ++ (← mergeBasesMany fuel read commit [base] true topoCeiling)) []) [first]
  removeRedundant fuel read bases topoCeiling

structure MergeBaseOptions where
  all : Bool
  octopus : Bool

def mergeBasesOf (fuel : ℕ) (commits : Dict Id (CommitMeta Id)) (correctedCommitDates : Bool)
    (first : Id) (rest : List Id) (options : MergeBaseOptions) :
    Run (WalkError Id) (List Id) := do
  let read := readCommit commits
  let topoCeiling := topoCeilingFor correctedCommitDates
  let bases ←
    if options.octopus then octopusMergeBases fuel read first rest topoCeiling
    else mergeBasesMany fuel read first rest options.all topoCeiling
  return if options.all then bases else bases.take 1

end

end Tsgit.MergeBase
