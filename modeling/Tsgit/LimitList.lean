import Mathlib.Order.Lattice.Nat
import Tsgit.BinaryHeap
import Tsgit.Dict
import Tsgit.Loop

/-!
# The Limited Walk

`limitList` of `src/application/primitives/internal/limit-list.ts`: included and excluded commits
walked together in the order of their dates, with the mark of the excluded side handed down to
every parent.

Commits are keyed by an arbitrary type of ids, and every id of the store names a commit. The
bodies that the walk keeps and the typing of the objects it meets are left out. A walk takes
fuel, one unit for each commit it pops and for each one it marks.
-/

namespace Tsgit.LimitList

variable {Id : Type}

def slopLimit : ℕ := 5

def outsideGraph : WithTop ℕ := ⊤

inductive LimitSettle where
  | slop
  | generation
  deriving DecidableEq

/-- The options of a walk; `excluded` is its `until`. -/
structure LimitListOptions (Id : Type) where
  seeds : List Id
  excluded : Finset Id
  firstParent : Bool
  ignoreMissing : Bool
  settle : LimitSettle
  takeAtMost : Option ℕ
  minAge : Option ℤ

/-- `LimitSettings`: the knobs of a walk, `excluded` being its `until`. Seeds that are given carry
every named commit, included or excluded. -/
structure LimitSettings (Id : Type) where
  seeds : Option (List Id)
  excluded : List Id
  firstParent : Bool
  settle : LimitSettle
  takeAtMost : Option ℕ
  minAge : Option ℤ

/-- The options of a walk from the commits `included`: where no seeds are given they are those,
with the excluded ones behind them. -/
def resolveLimitOptions [DecidableEq Id] (included : List Id) (ignoreMissing : Bool)
    (limits : LimitSettings Id) : LimitListOptions Id where
  seeds := limits.seeds.getD (included ++ limits.excluded)
  excluded := limits.excluded.toFinset
  firstParent := limits.firstParent
  ignoreMissing := ignoreMissing
  settle := limits.settle
  takeAtMost := limits.takeAtMost
  minAge := limits.minAge

/-- A commit as the walk parses it, from the commit graph or from its object. -/
structure Parsed (Id : Type) where
  tree : Id
  parents : List Id
  date : ℤ
  generation : WithTop ℕ

structure WalkedHead (Id : Type) where
  id : Id
  tree : Id
  parents : List Id

structure LimitedWalk (Id : Type) where
  shown : List Id
  uninteresting : Finset Id
  dropped : List Id
  shownHeads : List (WalkedHead Id)

/-- The refusal of a walk. -/
inductive LimitError (Id : Type)
  | objectNotFound (id : Id)

structure Entry (Id : Type) where
  oid : Id
  date : ℤ
  arrival : ℕ
  generation : WithTop ℕ

def precedesByArrival (a b : Entry Id) : Bool :=
  decide (a.date > b.date ∨ a.date = b.date ∧ a.arrival < b.arrival)

instance : IsPriority (@precedesByArrival Id) where
  asymm {a b} h := by
    unfold precedesByArrival at h ⊢
    rw [decide_eq_true_iff] at h
    rw [decide_eq_false_iff_not]
    omega
  trans {a b c} hab hbc := by
    unfold precedesByArrival at hab hbc ⊢
    rw [decide_eq_false_iff_not] at hab hbc ⊢
    omega

structure LimitState (Id : Type) where
  parsed : Dict Id (Parsed Id)
  uninteresting : Finset Id
  seen : Finset Id
  queue : BinaryHeap (@precedesByArrival Id)
  arrivals : ℕ
  interestingCache : Option Id
  lowestShownGeneration : WithTop ℕ

def createState : LimitState Id where
  parsed := Dict.empty
  uninteresting := ∅
  seen := ∅
  queue := BinaryHeap.empty
  arrivals := 0
  interestingCache := none
  lowestShownGeneration := outsideGraph

/-- The parents of a commit, none where it is not there. -/
def parentsOf (parsed : Dict Id (Parsed Id)) (id : Id) : List Id :=
  ((parsed.get id).map (·.parents)).getD []

inductive ParseMode where
  | strict
  | gentle
  deriving DecidableEq

def enqueue (state : LimitState Id) (oid : Id) (parsed : Parsed Id) : LimitState Id :=
  { state with
    arrivals := state.arrivals + 1
    queue := state.queue.push ⟨oid, parsed.date, state.arrivals, parsed.generation⟩ }

section

variable [DecidableEq Id]

def markTurn (parsed : Dict Id (Parsed Id)) :
    Finset Id × List Id → Run.Turn (Finset Id × List Id) (Finset Id)
  | (uninteresting, pending) =>
    match pending.getLast? with
    | none => .stop uninteresting
    | some next =>
      if next ∈ uninteresting then .again (uninteresting, pending.dropLast)
      else .again (insert next uninteresting, pending.dropLast ++ parentsOf parsed next)

def markParentsUninteresting (fuel : ℕ) (state : LimitState Id) (id : Id) :
    Run (LimitError Id) (LimitState Id) := do
  let uninteresting ← Run.loop (fun s => pure (markTurn state.parsed s)) fuel
    (state.uninteresting, parentsOf state.parsed id)
  return { state with uninteresting := uninteresting }

def remember (state : LimitState Id) (id : Id) (parsed : Parsed Id) : LimitState Id :=
  { state with parsed := state.parsed.insert id parsed }

/-- A commit that was parsed before is not read again. -/
def parse (commits : Dict Id (Parsed Id)) (ignoreMissing : Bool) (mode : ParseMode)
    (state : LimitState Id) (id : Id) :
    Run (LimitError Id) (Option (Parsed Id) × LimitState Id) :=
  match state.parsed.get id with
  | some known => return (some known, state)
  | none =>
    match commits.get id with
    | some found => return (some found, remember state id found)
    | none =>
      if mode = .gentle ∨ ignoreMissing then return (none, state)
      else throw (.objectNotFound id)

/-- `parseInOrder`, and the reads of `processUninterestingParents`. -/
def parseAll (commits : Dict Id (Parsed Id)) (ignoreMissing : Bool) (mode : ParseMode) :
    LimitState Id → List Id → Run (LimitError Id) (List (Option (Parsed Id)) × LimitState Id)
  | state, [] => return ([], state)
  | state, id :: rest => do
    let (entry, next) ← parse commits ignoreMissing mode state id
    let (entries, last) ← parseAll commits ignoreMissing mode next rest
    return (entry :: entries, last)

/-- A parent that was parsed is queued once. -/
def enqueueOnce (state : LimitState Id) (parent : Id) : Option (Parsed Id) → LimitState Id
  | none => state
  | some entry =>
    if parent ∈ state.seen then state
    else enqueue { state with seen := insert parent state.seen } parent entry

def processUninterestingParents (fuel : ℕ) (commits : Dict Id (Parsed Id)) (ignoreMissing : Bool)
    (state : LimitState Id) (parents : List Id) : Run (LimitError Id) (LimitState Id) := do
  let marked := { state with
    uninteresting := parents.foldl (fun set parent => insert parent set) state.uninteresting }
  let (entries, read) ← parseAll commits ignoreMissing .gentle marked parents
  (parents.zip entries).foldlM (fun state (parent, entry) =>
    match entry with
    | none => return state
    | some parsed => do
      let next ← markParentsUninteresting fuel state parent
      return enqueueOnce next parent (some parsed)) read

def processParents (fuel : ℕ) (commits : Dict Id (Parsed Id)) (options : LimitListOptions Id)
    (state : LimitState Id) (id : Id) : Run (LimitError Id) (LimitState Id) :=
  let parents := parentsOf state.parsed id
  if id ∈ state.uninteresting then
    processUninterestingParents fuel commits options.ignoreMissing state parents
  else do
    let followed := if options.firstParent then parents.take 1 else parents
    let (entries, read) ← parseAll commits options.ignoreMissing .strict state followed
    return (followed.zip entries).foldl (fun state (parent, entry) =>
      enqueueOnce state parent entry) read

/-- Its second component is the state with the cache it leaves. -/
def everybodyUninteresting (state : LimitState Id) : Bool × LimitState Id :=
  if state.interestingCache.any (· ∉ state.uninteresting) then (false, state)
  else
    let interesting := state.queue.values.find? fun entry => entry.oid ∉ state.uninteresting
    (interesting.isNone, { state with interestingCache := interesting.map (·.oid) })

/-- `date <= other`, where the date is infinite (`none`) before the first commit. -/
def notAfter : Option ℤ → ℤ → Bool
  | none, _ => false
  | some date, other => decide (date ≤ other)

def stillInteresting (state : LimitState Id) (date : Option ℤ) (slop : ℕ) : ℕ × LimitState Id :=
  match state.queue.values.head? with
  | none => (0, state)
  | some head =>
    if notAfter date head.date then (slopLimit, state)
    else
      let (everybody, next) := everybodyUninteresting state
      if everybody then (slop - 1, next) else (slopLimit, next)

def generationSettled (state : LimitState Id) : Bool × LimitState Id :=
  let (everybody, next) := everybodyUninteresting state
  (everybody && next.queue.values.all fun entry =>
    decide (entry.generation < next.lowestShownGeneration), next)

def keepWalking (options : LimitListOptions Id) (state : LimitState Id) (date : Option ℤ)
    (slop : ℕ) : ℕ × LimitState Id :=
  if options.settle = .slop then stillInteresting state date slop
  else
    let (settled, next) := generationSettled state
    (if settled then 0 else slopLimit, next)

/-- The state of `drain`, with the commits it has taken. -/
structure DrainState (Id : Type) where
  state : LimitState Id
  taken : List Id
  slop : ℕ
  date : Option ℤ

/-- One turn of the loop of `drain`. -/
def drainTurn (fuel : ℕ) (commits : Dict Id (Parsed Id)) (options : LimitListOptions Id)
    (s : DrainState Id) :
    Run (LimitError Id) (Run.Turn (DrainState Id) (List Id × LimitState Id)) :=
  match s.state.queue.pop with
  | none => return .stop (s.taken, s.state)
  | some (entry, queue) => do
    let popped := { s.state with
      queue := queue
      interestingCache :=
        if s.state.interestingCache = some entry.oid then none else s.state.interestingCache }
    let state ← processParents fuel commits options popped entry.oid
    if entry.oid ∈ state.uninteresting then
      let (slop, next) := keepWalking options state s.date s.slop
      if slop = 0 then return .stop (s.taken, next)
      else return .again { s with state := next, slop := slop }
    else
      let lowest := min state.lowestShownGeneration entry.generation
      let next := { state with lowestShownGeneration := lowest }
      if options.minAge.any (entry.date > ·) then return .again { s with state := next }
      else
        let taken := s.taken ++ [entry.oid]
        if options.takeAtMost = some taken.length then return .stop (taken, next)
        else return .again { s with state := next, taken := taken, date := some entry.date }

/-- The loop of the walk. -/
def drain (fuel : ℕ) (commits : Dict Id (Parsed Id)) (options : LimitListOptions Id)
    (state : LimitState Id) : Run (LimitError Id) (List Id × LimitState Id) :=
  Run.loop (drainTurn fuel commits options) fuel ⟨state, [], slopLimit, none⟩

def markSeed (fuel : ℕ) (options : LimitListOptions Id) (state : LimitState Id) (seed : Id) :
    Run (LimitError Id) (LimitState Id) :=
  if seed ∈ options.excluded then
    markParentsUninteresting fuel
      { state with uninteresting := insert seed state.uninteresting } seed
  else return state

def enqueueSeed (fuel : ℕ) (commits : Dict Id (Parsed Id)) (options : LimitListOptions Id)
    (state : LimitState Id) (seed : Id) : Run (LimitError Id) (LimitState Id) := do
  let (entry, read) ← parse commits options.ignoreMissing .strict state seed
  match entry with
  | none => return read
  | some parsed =>
    let marked ← markSeed fuel options read seed
    return enqueue { marked with seen := insert seed marked.seen } seed parsed

/-- Over `new Set(seeds)`. -/
def enqueueSeeds (fuel : ℕ) (commits : Dict Id (Parsed Id)) (options : LimitListOptions Id)
    (state : LimitState Id) : Run (LimitError Id) (LimitState Id) :=
  options.seeds.eraseDups.foldlM (enqueueSeed fuel commits options) state

def headOf (state : LimitState Id) (id : Id) : Option (WalkedHead Id) :=
  (state.parsed.get id).map fun parsed => ⟨id, parsed.tree, parsed.parents⟩

/-- What the walk shows, marks and drops. -/
def limitList (fuel : ℕ) (commits : Dict Id (Parsed Id)) (options : LimitListOptions Id) :
    Run (LimitError Id) (LimitedWalk Id) := do
  let seeded ← enqueueSeeds fuel commits options createState
  let (taken, state) ← drain fuel commits options seeded
  let shown := taken.filter (· ∉ state.uninteresting)
  return {
    shown := shown
    uninteresting := state.uninteresting
    dropped := taken.filter (· ∈ state.uninteresting)
    shownHeads := shown.filterMap (headOf state) }

end

end Tsgit.LimitList
