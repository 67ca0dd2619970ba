import Tsgit.Ancestry
import Tsgit.ArrivalQueue
import Tsgit.Loop

/-!
# The Walk by Commit Date

`commitDateWalk` of `src/application/primitives/internal/commit-date-walk.ts`: of the commits that
are queued the newest is shown, and its parents come into the queue. Bodies are read ahead: a read
starts when a commit comes into the queue, and is awaited when the commit is shown. No signal aborts
the walks here.
-/

namespace Tsgit.CommitDateWalk

open Ancestry ArrivalQueue List Run

structure Commit (κ : Type) where
  id : κ
  parents : List κ
  committerTimestamp : ℤ

/-- What the walk reads: bodies (none where one is missing and missing ones are ignored), and the
dates that a commit graph holds. -/
structure Repository (ε κ : Type) where
  readCommit : κ → Except ε (Option (Commit κ))
  commitHeader : κ → Option ℤ

inductive ParentReads
  | beforeYield
  | afterYield
  deriving DecidableEq

structure CommitDateWalkOptions (κ : Type) where
  fromIds : List κ
  untilIds : List κ
  shallow : List κ
  firstParent : Bool
  ignoreMissing : Bool
  parentReads : ParentReads

structure DateWalkStep (κ : Type) where
  commit : Commit κ
  frontierEmpty : Bool
  frontier : List κ

/-- The state of the walk. `promises` are the reads that were started and not consumed, `reads` all
that were started, in their order. -/
structure DateWalk (κ : Type) where
  heap : BinaryHeap (@precedesByArrival κ)
  arrivals : ℕ
  seen : List κ
  promises : List κ
  reads : List κ

variable {ε κ : Type} [DecidableEq κ] (repo : Repository ε κ) (options : CommitDateWalkOptions κ)

/-! ### The walk -/

def DateWalk.start (walk : DateWalk κ) (id : κ) : DateWalk κ :=
  if id ∈ walk.promises then walk
  else { walk with promises := walk.promises ++ [id], reads := walk.reads ++ [id] }

def DateWalk.forget (walk : DateWalk κ) (id : κ) : DateWalk κ :=
  { walk with promises := walk.promises.filter (· ≠ id) }

def DateWalk.push (walk : DateWalk κ) (entries : List (Dated κ)) : DateWalk κ :=
  { walk with heap := entries.foldl BinaryHeap.push walk.heap }

omit [DecidableEq κ] in
/-- Parents this walk follows. -/
def selectParents (commit : Commit κ) (firstParent : Bool) : List κ :=
  if firstParent then commit.parents.take 1 else commit.parents

/-- The entry of a commit: the ticket is taken first; the date is the graph's, or the body's. -/
def resolveHeapEntry (walk : DateWalk κ) (id : κ) :
    Except ε (Option (Dated κ) × DateWalk κ) :=
  let arrival := walk.arrivals
  let walk := { walk with arrivals := arrival + 1 }.start id
  let header := repo.commitHeader id
  if header.isSome && !options.ignoreMissing then
    .ok (some ⟨header.getD 0, arrival, id⟩, walk)
  else do
    let body ← repo.readCommit id
    return (body.map fun commit => ⟨header.getD commit.committerTimestamp, arrival, id⟩, walk)

/-- The entries of some commits, in their order. -/
def resolveEntries : List κ → DateWalk κ → Except ε (List (Dated κ) × DateWalk κ)
  | [], walk => .ok ([], walk)
  | id :: rest, walk => do
    let resolved ← resolveHeapEntry repo options walk id
    let others ← resolveEntries rest resolved.2
    return (resolved.1.toList ++ others.1, others.2)

/-- The parents that are neither seen nor excluded, each of which is seen from there on. -/
def unseenParents (untilIds : List κ) : List κ → List κ → List κ × List κ
  | [], seen => ([], seen)
  | parent :: rest, seen =>
    if parent ∈ seen ∨ parent ∈ untilIds then unseenParents untilIds rest seen
    else
      let others := unseenParents untilIds rest (seen ++ [parent])
      (parent :: others.1, others.2)

def resolveParents (walk : DateWalk κ) (commit : Commit κ) :
    Except ε (List (Dated κ) × DateWalk κ) :=
  let unseen := unseenParents options.untilIds (selectParents commit options.firstParent) walk.seen
  resolveEntries repo options unseen.1 { walk with seen := unseen.2 }

/-- A shallow boundary has no parents to follow. -/
def parentsOf (walk : DateWalk κ) (commit : Commit κ) : Except ε (List (Dated κ) × DateWalk κ) :=
  if commit.id ∈ options.shallow then .ok ([], walk) else resolveParents repo options walk commit

def enqueueCommit (walk : DateWalk κ) (id : κ) : Except ε (DateWalk κ) := do
  let resolved ← resolveHeapEntry repo options walk id
  return resolved.2.push resolved.1.toList

/-- The seeds that are not excluded, one by one. -/
def enqueueSeeds (walk : DateWalk κ) : Except ε (DateWalk κ) :=
  (walk.seen.filter (· ∉ options.untilIds)).foldlM (enqueueCommit repo options) walk

def distinct (ids : List κ) : List κ :=
  ids.foldl (fun seen id => if id ∈ seen then seen else seen ++ [id]) []

/-- A turn of the walk: what is queued, and what was shown. A throw ends what was shown so far. -/
def walkTurn (state : DateWalk κ × List (DateWalkStep κ)) :
    Run Empty (Turn (DateWalk κ × List (DateWalkStep κ)) (List (DateWalkStep κ) × Option ε)) :=
  match state.1.heap.pop with
  | none => pure (.stop (state.2, none))
  | some (entry, heap) =>
    match repo.readCommit entry.value with
    | .error e => pure (.stop (state.2, some e))
    | .ok body =>
      let walk := { state.1 with heap }.forget entry.value
      match body with
      | none => pure (.again (walk, state.2))
      | some commit =>
        let frontier := heap.values.map (·.value)
        let steps := state.2 ++ [⟨commit, frontier.isEmpty, frontier⟩]
        match parentsOf repo options walk commit with
        | .error e =>
          pure (.stop (if options.parentReads = .beforeYield then state.2 else steps, some e))
        | .ok (entries, walk) => pure (.again (walk.push entries, steps))

def commitDateWalk (fuel : ℕ) : Run Empty (List (DateWalkStep κ) × Option ε) :=
  match enqueueSeeds repo options ⟨BinaryHeap.empty, 0, distinct options.fromIds, [], []⟩ with
  | .error e => pure ([], some e)
  | .ok walk => loop (walkTurn repo options) fuel (walk, [])

/-! ### What the walk is about -/

def Follows (child parent : κ) : Prop :=
  ∃ commit, repo.readCommit child = .ok (some commit) ∧ child ∉ options.shallow ∧
    parent ∈ selectParents commit options.firstParent ∧ parent ∉ options.untilIds

/-- What the walk reaches from a start that is not excluded. -/
def Reachable (id : κ) : Prop :=
  ∃ seed ∈ options.fromIds, seed ∉ options.untilIds ∧ Reaches (Follows repo options) seed id

/-- What the walk reaches is finite, and every body of it is there. -/
structure Readable : Prop where
  finite : {id | Reachable repo options id}.Finite
  read : ∀ id, Reachable repo options id →
    ∃ commit, repo.readCommit id = .ok (some commit) ∧ commit.id = id

def dateOf (id : κ) : ℤ :=
  (repo.commitHeader id).getD (match repo.readCommit id with
    | .ok (some commit) => commit.committerTimestamp
    | _ => 0)

def followed (id : κ) : List κ :=
  match repo.readCommit id with
  | .ok (some commit) =>
    if id ∈ options.shallow then [] else selectParents commit options.firstParent
  | _ => []

/-- What came into the queue, by what is shown, in the order in which it came. -/
def enqueued (shown : List κ) : List κ :=
  shown.foldl
    (fun history id => history ++ (unseenParents options.untilIds (followed repo options id)
      history).1)
    ((distinct options.fromIds).filter (· ∉ options.untilIds))

/-! ### Coming into the queue -/

/-- **The parents that are new**, each once. -/
theorem unseenParents_spec (untilIds parents seen : List κ) :
    (unseenParents untilIds parents seen).2 = seen ++ (unseenParents untilIds parents seen).1 ∧
      (unseenParents untilIds parents seen).1.Nodup ∧
      ∀ id, id ∈ (unseenParents untilIds parents seen).1 ↔
        id ∈ parents ∧ id ∉ seen ∧ id ∉ untilIds := by
  induction parents generalizing seen with
  | nil => exact ⟨(append_nil _).symm, nodup_nil, fun _ => by simp [unseenParents]⟩
  | cons parent rest ih =>
    rw [unseenParents]
    by_cases hskip : parent ∈ seen ∨ parent ∈ untilIds
    · rw [if_pos hskip]
      obtain ⟨hseen, hnodup, hmem⟩ := ih seen
      refine ⟨hseen, hnodup, fun id => ?_⟩
      rw [hmem, mem_cons]
      constructor
      · rintro ⟨hrest, hnew⟩
        exact ⟨.inr hrest, hnew⟩
      · rintro ⟨rfl | hrest, hnew, hallowed⟩
        · exact absurd hskip (not_or.mpr ⟨hnew, hallowed⟩)
        · exact ⟨hrest, hnew, hallowed⟩
    · rw [if_neg hskip]
      rw [not_or] at hskip
      obtain ⟨hseen, hnodup, hmem⟩ := ih (seen ++ [parent])
      dsimp only
      refine ⟨?_, nodup_cons.mpr ⟨fun hin => ?_, hnodup⟩, fun id => ?_⟩
      · rw [hseen, append_assoc, singleton_append]
      · exact ((hmem parent).mp hin).2.1
          (mem_append_right _ (mem_singleton_self _))
      rw [mem_cons, hmem, mem_cons, mem_append, mem_singleton]
      constructor
      · rintro (rfl | ⟨hrest, hnew, hallowed⟩)
        · exact ⟨.inl rfl, hskip⟩
        · exact ⟨.inr hrest, fun h => hnew (.inl h), hallowed⟩
      · rintro ⟨hparent, hnew, hallowed⟩
        by_cases heq : id = parent
        · exact .inl heq
        · exact .inr ⟨hparent.resolve_left heq, fun h => h.elim hnew heq, hallowed⟩

theorem unseenParents_congr {untilIds : List κ} (parents : List κ) {seen seen' : List κ}
    (h : ∀ id ∉ untilIds, id ∈ seen ↔ id ∈ seen') :
    (unseenParents untilIds parents seen).1 = (unseenParents untilIds parents seen').1 := by
  induction parents generalizing seen seen' with
  | nil => rfl
  | cons parent rest ih =>
    rw [unseenParents, unseenParents]
    by_cases hexcluded : parent ∈ untilIds
    · rw [if_pos (.inr hexcluded), if_pos (.inr hexcluded)]
      exact ih h
    by_cases hseen : parent ∈ seen
    · rw [if_pos (.inl hseen), if_pos (.inl ((h parent hexcluded).mp hseen))]
      exact ih h
    · rw [if_neg (not_or.mpr ⟨hseen, hexcluded⟩),
        if_neg (not_or.mpr ⟨fun h' => hseen ((h parent hexcluded).mpr h'), hexcluded⟩)]
      refine congrArg (parent :: ·) (ih fun id hid => ?_)
      rw [mem_append, mem_append, h id hid]

/-- A queue by its history: the heap, the reads in flight and all that were started. -/
structure Queued (history shown : List κ) (walk : DateWalk κ) : Prop where
  holds : Holds (dateOf repo) history shown (walk.heap, walk.arrivals)
  promises : walk.promises = waiting history shown
  reads : walk.reads = history

variable {repo options}

/-- What starts with some commits. -/
def DateWalk.began (walk : DateWalk κ) (ids : List κ) : DateWalk κ :=
  { walk with
    arrivals := walk.arrivals + ids.length
    promises := walk.promises ++ ids
    reads := walk.reads ++ ids }

/-- The body of a commit is there. -/
def Present (repo : Repository ε κ) (id : κ) : Prop :=
  ∃ commit, repo.readCommit id = .ok (some commit) ∧ commit.id = id

variable {walk : DateWalk κ}

theorem resolveHeapEntry_spec (options : CommitDateWalkOptions κ) {id : κ}
    (hpresent : Present repo id) (hnew : id ∉ walk.promises) :
    resolveHeapEntry repo options walk id =
      .ok (some ⟨dateOf repo id, walk.arrivals, id⟩, walk.began [id]) := by
  obtain ⟨commit, hread, -⟩ := hpresent
  have hstart : ({ walk with arrivals := walk.arrivals + 1 } : DateWalk κ).start id =
      walk.began [id] := if_neg hnew
  rw [resolveHeapEntry, hstart, hread, dateOf, hread]
  cases repo.commitHeader id with
  | none => rfl
  | some date =>
    rw [Option.isSome_some, Bool.true_and]
    split <;> rfl

theorem resolveEntries_spec (options : CommitDateWalkOptions κ) {ids : List κ} (hpresent : ∀ id ∈ ids, Present repo id) (hnodup : ids.Nodup)
    (hnew : ∀ id ∈ ids, id ∉ walk.promises) :
    resolveEntries repo options ids walk =
      .ok ((ids.zipIdx walk.arrivals).map (toDated (dateOf repo)), walk.began ids) := by
  induction ids generalizing walk with
  | nil =>
    rw [resolveEntries, DateWalk.began, append_nil, append_nil]
    rfl
  | cons id rest ih =>
    rw [nodup_cons] at hnodup
    obtain ⟨hid, hrest⟩ := forall_mem_cons.mp hpresent
    obtain ⟨hidNew, hrestNew⟩ := forall_mem_cons.mp hnew
    have hfresh : ∀ other ∈ rest, other ∉ (walk.began [id]).promises := by
      intro other hother hmem
      rcases mem_append.mp hmem with hold | hlast
      · exact hrestNew other hother hold
      · exact hnodup.1 (mem_singleton.mp hlast ▸ hother)
    have hbegan : (walk.began [id]).began rest = walk.began (id :: rest) := by
      simp only [DateWalk.began, append_assoc, singleton_append, length_cons,
        length_nil, Nat.zero_add, Nat.add_assoc, Nat.add_comm 1]
    rw [resolveEntries, resolveHeapEntry_spec options hid hidNew]
    dsimp only [Bind.bind, Except.bind]
    rw [ih hrest hnodup.2 hfresh, hbegan]
    rfl

/-- A commit that comes into the queue. -/
theorem Queued.put {history shown : List κ}
    (h : Queued repo history shown walk) {id : κ} (hshown : id ∉ shown) :
    Queued repo (history ++ [id]) shown
      ((walk.began [id]).push [⟨dateOf repo id, walk.arrivals, id⟩]) where
  holds := h.holds.put hshown
  promises := by
    rw [waiting_append hshown, ← h.promises]
    rfl
  reads := by
    rw [← h.reads]
    rfl

theorem Queued.putAll {history shown : List κ}
    (h : Queued repo history shown walk) {ids : List κ} (hshown : ∀ id ∈ ids, id ∉ shown) :
    Queued repo (history ++ ids) shown ((walk.began ids).push
      ((ids.zipIdx walk.arrivals).map (toDated (dateOf repo)))) := by
  induction ids generalizing history walk with
  | nil =>
    rw [append_nil]
    have hsame : (walk.began []).push [] = walk := by
      simp only [DateWalk.began, DateWalk.push, append_nil, length_nil, Nat.add_zero, foldl_nil]
    exact hsame.symm ▸ h
  | cons id rest ih =>
    obtain ⟨hid, hrest⟩ := forall_mem_cons.mp hshown
    have hnext := ih (h.put hid) hrest
    rw [append_assoc, singleton_append] at hnext
    have hsame : (((walk.began [id]).push [⟨dateOf repo id, walk.arrivals, id⟩]).began rest).push
          ((rest.zipIdx (walk.arrivals + 1)).map (toDated (dateOf repo))) =
        (walk.began (id :: rest)).push
          (((id :: rest).zipIdx walk.arrivals).map (toDated (dateOf repo))) := by
      simp only [DateWalk.began, DateWalk.push, append_assoc, singleton_append,
        length_cons, length_nil, Nat.zero_add, Nat.add_assoc, Nat.add_comm 1,
        zipIdx_cons, map_cons, foldl_cons, foldl_nil, toDated]
    exact hsame ▸ hnext

/-- The seeds come into the queue. -/
theorem enqueueSeeds_spec (options : CommitDateWalkOptions κ) {ids : List κ}
    (hpresent : ∀ id ∈ ids, Present repo id) {history : List κ}
    (h : Queued repo history [] walk) (hnodup : (history ++ ids).Nodup) :
    ∃ walk', ids.foldlM (enqueueCommit repo options) walk = .ok walk' ∧
      Queued repo (history ++ ids) [] walk' ∧ walk'.seen = walk.seen := by
  induction ids generalizing history walk with
  | nil => exact ⟨walk, rfl, (append_nil history).symm ▸ h, rfl⟩
  | cons id rest ih =>
    obtain ⟨hid, hrest⟩ := forall_mem_cons.mp hpresent
    have hfresh : id ∉ walk.promises := by
      rw [h.promises, mem_waiting]
      rintro ⟨hmem, -⟩
      exact (nodup_append.mp hnodup).2.2 id hmem id mem_cons_self rfl
    rw [← singleton_append, ← append_assoc] at hnodup ⊢
    obtain ⟨walk', hrun, hqueued, hseen⟩ := ih hrest (h.put not_mem_nil) hnodup
    refine ⟨walk', ?_, hqueued, hseen⟩
    rw [singleton_append, foldlM_cons, enqueueCommit, resolveHeapEntry_spec options hid hfresh]
    exact hrun

/-! ### The turn of the walk -/

theorem enqueued_append (repo : Repository ε κ) (options : CommitDateWalkOptions κ)
    (shown : List κ) (id : κ) :
    enqueued repo options (shown ++ [id]) = enqueued repo options shown ++
      (unseenParents options.untilIds (followed repo options id)
        (enqueued repo options shown)).1 := by
  rw [enqueued, foldl_append]
  rfl

def idsOf (steps : List (DateWalkStep κ)) : List κ := steps.map (·.commit.id)

/-- Each step shows the newest of what is queued, of several the first to come, and the frontier is
the rest. -/
def Shows (repo : Repository ε κ) (options : CommitDateWalkOptions κ)
    (steps : List (DateWalkStep κ)) : Prop :=
  ∀ before step after, steps = before ++ step :: after →
    Newest (dateOf repo) (waiting (enqueued repo options (idsOf before)) (idsOf before))
      step.commit.id ∧
    step.frontier.Perm
      (waiting (enqueued repo options (idsOf before)) (idsOf before ++ [step.commit.id])) ∧
    step.frontierEmpty = step.frontier.isEmpty

/-- What holds at every turn of the walk. -/
structure Walking (repo : Repository ε κ) (options : CommitDateWalkOptions κ)
    (state : DateWalk κ × List (DateWalkStep κ)) : Prop where
  queued : Queued repo (enqueued repo options (idsOf state.2)) (idsOf state.2) state.1
  nodup : (enqueued repo options (idsOf state.2)).Nodup
  shown_nodup : (idsOf state.2).Nodup
  shown_mem : ∀ id ∈ idsOf state.2, id ∈ enqueued repo options (idsOf state.2)
  seen : ∀ id ∉ options.untilIds, id ∈ state.1.seen ↔ id ∈ enqueued repo options (idsOf state.2)
  reachable : ∀ id ∈ enqueued repo options (idsOf state.2), Reachable repo options id
  closed : ∀ id ∈ idsOf state.2, ∀ parent, Follows repo options id parent →
    parent ∈ enqueued repo options (idsOf state.2)
  seeds : ∀ seed ∈ options.fromIds, seed ∉ options.untilIds →
    seed ∈ enqueued repo options (idsOf state.2)
  read : ∀ step ∈ state.2, repo.readCommit step.commit.id = .ok (some step.commit)
  shows : Shows repo options state.2

theorem follows_iff {id parent : κ} : Follows repo options id parent ↔
    parent ∈ followed repo options id ∧ parent ∉ options.untilIds := by
  rw [followed]
  constructor
  · rintro ⟨commit, hread, hshallow, hparent, hallowed⟩
    rw [hread]
    dsimp only
    rw [if_neg hshallow]
    exact ⟨hparent, hallowed⟩
  rintro ⟨hparent, hallowed⟩
  split at hparent
  · rename_i commit hread
    split at hparent
    · exact absurd hparent not_mem_nil
    · rename_i hshallow
      exact ⟨commit, hread, hshallow, hparent, hallowed⟩
  · exact absurd hparent not_mem_nil

theorem Walking.all_shown {state : DateWalk κ × List (DateWalkStep κ)}
    (h : Walking repo options state)
    (hnone : waiting (enqueued repo options (idsOf state.2)) (idsOf state.2) = []) {id : κ}
    (hid : Reachable repo options id) : id ∈ idsOf state.2 := by
  have hshown : ∀ other ∈ enqueued repo options (idsOf state.2), other ∈ idsOf state.2 := by
    intro other hother
    by_contra hnew
    have hwaits := mem_waiting.mpr ⟨hother, hnew⟩
    rw [hnone] at hwaits
    exact absurd hwaits not_mem_nil
  obtain ⟨seed, hseed, hallowed, hreach⟩ := hid
  induction hreach with
  | refl => exact hshown seed (h.seeds seed hseed hallowed)
  | tail _ hedge ih => exact hshown _ (h.closed _ ih _ hedge)

theorem parentsOf_spec (hreadable : Readable repo options)
    {history shown : List κ} (hqueued : Queued repo history shown walk) {commit : Commit κ}
    (hread : repo.readCommit commit.id = .ok (some commit))
    (hreachable : ∀ id, Follows repo options commit.id id → Reachable repo options id)
    (hsub : ∀ id ∈ shown, id ∈ history)
    (hseen : ∀ id ∉ options.untilIds, id ∈ walk.seen ↔ id ∈ history) :
    ∃ entries walk', parentsOf repo options walk commit = .ok (entries, walk') ∧
      Queued repo (history ++ (unseenParents options.untilIds
        (followed repo options commit.id) history).1) shown (walk'.push entries) ∧
      ∀ id ∉ options.untilIds, id ∈ (walk'.push entries).seen ↔
        id ∈ history ++ (unseenParents options.untilIds
          (followed repo options commit.id) history).1 := by
  have hfollowed : followed repo options commit.id = if commit.id ∈ options.shallow then []
      else selectParents commit options.firstParent := by
    rw [followed, hread]
  rw [parentsOf]
  by_cases hshallow : commit.id ∈ options.shallow
  · rw [if_pos hshallow] at hfollowed ⊢
    rw [hfollowed]
    have hnone : (unseenParents options.untilIds [] history).1 = [] := rfl
    rw [hnone, append_nil]
    exact ⟨[], walk, rfl, hqueued, hseen⟩
  rw [if_neg hshallow] at hfollowed ⊢
  have hsame := unseenParents_congr (selectParents commit options.firstParent) hseen
  obtain ⟨hafter, hnodup, hmem⟩ := unseenParents_spec options.untilIds
    (selectParents commit options.firstParent) walk.seen
  rw [hfollowed, ← hsame]
  generalize hunseen : unseenParents options.untilIds
    (selectParents commit options.firstParent) walk.seen = unseen at *
  have hnew : ∀ id ∈ unseen.1, id ∉ history := by
    intro id hid hold
    obtain ⟨-, hunseen, hallowed⟩ := (hmem id).mp hid
    exact hunseen ((hseen id hallowed).mpr hold)
  have hpresent : ∀ id ∈ unseen.1, Present repo id := by
    intro id hid
    obtain ⟨hparent, -, hallowed⟩ := (hmem id).mp hid
    exact hreadable.read id (hreachable id ⟨commit, hread, hshallow, hparent, hallowed⟩)
  have hmarked : Queued repo history shown { walk with seen := unseen.2 } :=
    ⟨hqueued.holds, hqueued.promises, hqueued.reads⟩
  refine ⟨_, _, ?_, hmarked.putAll fun id hid hold => hnew id hid (hsub id hold), ?_⟩
  · rw [resolveParents, hunseen]
    refine resolveEntries_spec options hpresent hnodup fun id hid hin => ?_
    rw [hmarked.promises] at hin
    exact hnew id hid (mem_waiting.mp hin).1
  · intro id hallowed
    change id ∈ unseen.2 ↔ _
    rw [hafter, mem_append, mem_append, hseen id hallowed]

/-- **The turn of the walk.** -/
theorem Walking.step (hreadable : Readable repo options)
    {state : DateWalk κ × List (DateWalkStep κ)} (h : Walking repo options state)
    {entry : Dated κ} {heap : BinaryHeap (@precedesByArrival κ)}
    (hpop : state.1.heap.pop = some (entry, heap)) :
    ∃ next, walkTurn repo options state = pure (.again next) ∧ Walking repo options next ∧
      ∃ step, next.2 = state.2 ++ [step] := by
  obtain ⟨walk, steps⟩ := state
  obtain ⟨hqueued, hnodup, hshown, hsub, hseen, hreach, hclosed, hseeds, hreads, hshows⟩ := h
  dsimp only at hqueued hnodup hshown hsub hseen hreach hclosed hseeds hreads hshows hpop
  obtain ⟨hholds, hwaits, hnewest⟩ := hqueued.holds.get_some hnodup hpop
  obtain ⟨hcame, hnew⟩ := mem_waiting.mp hwaits
  obtain ⟨commit, hread, hcommit⟩ := hreadable.read entry.value (hreach entry.value hcame)
  rw [← hcommit] at hread hholds hwaits hnewest hcame hnew
  have hforgot : Queued repo (enqueued repo options (idsOf steps))
      (idsOf steps ++ [commit.id]) ({ walk with heap }.forget commit.id) := by
    refine ⟨hholds, ?_, hqueued.reads⟩
    rw [waiting_shown, ← hqueued.promises]
    rfl
  have hsub' : ∀ id ∈ idsOf steps ++ [commit.id], id ∈ enqueued repo options (idsOf steps) := by
    intro id hid
    rcases mem_append.mp hid with hold | hlast
    · exact hsub id hold
    · exact mem_singleton.mp hlast ▸ hcame
  have hreach' : ∀ id, Follows repo options commit.id id → Reachable repo options id := by
    intro id hfollows
    obtain ⟨seed, hseed, hallowed, hpath⟩ := hreach commit.id hcame
    exact ⟨seed, hseed, hallowed, hpath.step hfollows⟩
  obtain ⟨entries, walk', hparents, hqueued', hseen'⟩ := parentsOf_spec hreadable hforgot hread
    hreach' hsub' hseen
  obtain ⟨-, hfreshNodup, hfresh⟩ := unseenParents_spec options.untilIds
    (followed repo options commit.id) (enqueued repo options (idsOf steps))
  rw [← enqueued_append] at hqueued' hseen'
  let step : DateWalkStep κ :=
    ⟨commit, (heap.values.map (·.value)).isEmpty, heap.values.map (·.value)⟩
  have hids : idsOf (steps ++ [step]) = idsOf steps ++ [commit.id] := map_append
  refine ⟨(walk'.push entries, steps ++ [step]), ?_, ?_, step, rfl⟩
  · rw [walkTurn]
    dsimp only
    rw [hpop]
    dsimp only
    rw [← hcommit, hread]
    dsimp only
    rw [hparents]
  · have hgrows : ∀ id ∈ enqueued repo options (idsOf steps),
        id ∈ enqueued repo options (idsOf steps ++ [commit.id]) := by
      intro id hid
      rw [enqueued_append]
      exact mem_append_left _ hid
    constructor <;> dsimp only
    · rw [hids]
      exact hqueued'
    · rw [hids, enqueued_append]
      refine nodup_append.mpr ⟨hnodup, hfreshNodup, ?_⟩
      rintro id hold _ hlater rfl
      exact ((hfresh id).mp hlater).2.1 hold
    · rw [hids, ← concat_eq_append]
      exact hshown.concat hnew
    · rw [hids]
      exact fun id hid => hgrows id (hsub' id hid)
    · rw [hids]
      exact hseen'
    · intro id hid
      rw [hids, enqueued_append] at hid
      rcases mem_append.mp hid with hold | hlater
      · exact hreach id hold
      · obtain ⟨hparent, -, hallowed⟩ := (hfresh id).mp hlater
        exact hreach' id (follows_iff.mpr ⟨hparent, hallowed⟩)
    · rw [hids]
      intro id hid parent hfollows
      rcases mem_append.mp hid with hold | hlast
      · exact hgrows parent (hclosed id hold parent hfollows)
      rw [mem_singleton.mp hlast] at hfollows
      obtain ⟨hparent, hallowed⟩ := follows_iff.mp hfollows
      by_cases hold : parent ∈ enqueued repo options (idsOf steps)
      · exact hgrows parent hold
      · rw [enqueued_append]
        exact mem_append_right _ ((hfresh parent).mpr ⟨hparent, hold, hallowed⟩)
    · rw [hids]
      exact fun seed hseed hallowed => hgrows seed (hseeds seed hseed hallowed)
    · intro other hother
      rcases mem_append.mp hother with hold | hlast
      · exact hreads other hold
      · rw [mem_singleton.mp hlast]
        exact hread
    · intro before other after hsplit
      rcases after.eq_nil_or_concat with rfl | ⟨front, last, rfl⟩
      · obtain ⟨rfl, hlast⟩ := append_inj' hsplit rfl
        obtain rfl := singleton_inj.mp hlast
        exact ⟨hnewest, hholds.values_perm, rfl⟩
      · rw [concat_eq_append, ← cons_append, ← append_assoc] at hsplit
        exact hshows before other front (append_inj' hsplit rfl).1

/-! ### The walk as a whole -/

theorem distinct_spec (ids : List κ) :
    (distinct ids).Nodup ∧ ∀ id, id ∈ distinct ids ↔ id ∈ ids := by
  induction ids using reverseRecOn with
  | nil => exact ⟨nodup_nil, fun _ => Iff.rfl⟩
  | append_singleton ids id ih =>
    obtain ⟨hnodup, hmem⟩ := ih
    rw [distinct, foldl_append, foldl_cons, foldl_nil, ← distinct]
    split
    · rename_i hin
      refine ⟨hnodup, fun other => ?_⟩
      rw [hmem, mem_append, mem_singleton]
      refine ⟨.inl, fun hor => hor.elim (fun h => h) ?_⟩
      rintro rfl
      exact (hmem other).mp hin
    · rename_i hnew
      refine ⟨?_, fun other => ?_⟩
      · rw [← concat_eq_append]
        exact hnodup.concat hnew
      · rw [mem_append, mem_append, hmem]

theorem Walking.start (hreadable : Readable repo options) :
    ∃ walk, enqueueSeeds repo options ⟨BinaryHeap.empty, 0, distinct options.fromIds, [], []⟩ =
        .ok walk ∧ Walking repo options (walk, []) := by
  obtain ⟨hnodup, hmem⟩ := distinct_spec options.fromIds
  have hstart : Queued repo [] []
      ⟨BinaryHeap.empty, 0, distinct options.fromIds, [], []⟩ := ⟨⟨.refl _, rfl⟩, rfl, rfl⟩
  have hseeds : ∀ id, id ∈ (distinct options.fromIds).filter (· ∉ options.untilIds) ↔
      id ∈ options.fromIds ∧ id ∉ options.untilIds := by
    intro id
    rw [mem_filter, hmem, decide_eq_true_iff]
  have hreach : ∀ id ∈ (distinct options.fromIds).filter (· ∉ options.untilIds),
      Reachable repo options id := by
    intro id hid
    obtain ⟨hfrom, hallowed⟩ := (hseeds id).mp hid
    exact ⟨id, hfrom, hallowed, .refl id⟩
  obtain ⟨walk, hrun, hqueued, hseen⟩ := enqueueSeeds_spec options
    (fun id hid => hreadable.read id (hreach id hid)) hstart (hnodup.filter _)
  refine ⟨walk, hrun, hqueued, hnodup.filter _, nodup_nil,
    fun _ hid => absurd hid not_mem_nil, fun id hallowed => ?_, hreach,
    fun _ hid => absurd hid not_mem_nil, fun seed hseed hallowed => ?_,
    fun _ hstep => absurd hstep not_mem_nil, fun before step after hsplit => ?_⟩
  · dsimp only at hseen ⊢
    rw [hseen, hmem]
    exact ((hseeds id).trans (and_iff_left hallowed)).symm
  · exact (hseeds seed).mpr ⟨hseed, hallowed⟩
  · have hlength := congrArg length hsplit
    simp at hlength

/-- **The walk ends and has shown all that is reachable.** -/
theorem commitDateWalk_run (hreadable : Readable repo options) :
    ∃ steps, Yields (fun fuel => commitDateWalk repo options fuel) (steps, none) ∧
      (∃ walk, Walking repo options (walk, steps)) ∧
      ∀ id, Reachable repo options id → id ∈ idsOf steps := by
  obtain ⟨walk, hseeds, hstart⟩ := Walking.start hreadable
  have hturn : ∀ state, Walking repo options state →
      Returns (walkTurn repo options state) (Turn.Meets
        (fun answer => answer.2 = none ∧ (∃ walk, Walking repo options (walk, answer.1)) ∧
          ∀ id, Reachable repo options id → id ∈ idsOf answer.1)
        fun next => Walking repo options next ∧ hreadable.finite.toFinset.card - next.2.length <
            hreadable.finite.toFinset.card - state.2.length) := by
    intro state hstate
    cases hpop : state.1.heap.pop with
    | none =>
      have hnone := hstate.queued.holds.get_none hpop
      rw [walkTurn, hpop]
      exact .pure ⟨rfl, ⟨state.1, hstate⟩, fun id hid => hstate.all_shown hnone hid⟩
    | some popped =>
      obtain ⟨entry, heap⟩ := popped
      obtain ⟨next, hrun, hnext, step, hsteps⟩ := hstate.step hreadable hpop
      rw [hrun]
      refine .pure ⟨hnext, ?_⟩
      have hle : (idsOf next.2).length ≤ hreadable.finite.toFinset.card := by
        rw [← toFinset_card_of_nodup hnext.shown_nodup]
        refine Finset.card_le_card fun id hid => ?_
        rw [Set.Finite.mem_toFinset]
        exact hnext.reachable id (hnext.shown_mem id (mem_toFinset.mp hid))
      rw [idsOf, length_map, hsteps, length_append, length_singleton] at hle
      rw [hsteps, length_append, length_singleton]
      omega
  obtain ⟨answer, hrun, hfine, hwalking, hall⟩ := loop_spec _ _ hturn
    (hreadable.finite.toFinset.card + 1) _ hstart (Nat.lt_succ_of_le (Nat.sub_le _ _))
  obtain ⟨steps, failure⟩ := answer
  dsimp only at hfine hwalking hall
  subst hfine
  refine ⟨steps, ⟨hreadable.finite.toFinset.card + 1, fun fuel hfuel => ?_⟩, hwalking, hall⟩
  dsimp only
  rw [commitDateWalk, hseeds]
  exact loop_mono hfuel hrun

/-! ### Dates that fall -/

def IsParent (repo : Repository ε κ) (child parent : κ) : Prop :=
  ∃ commit other, repo.readCommit child = .ok (some commit) ∧
    repo.readCommit parent = .ok (some other) ∧ parent ∈ commit.parents

/-- The graph has the commits' dates, and each commit is newer than its parents. -/
structure DatesFall (repo : Repository ε κ) : Prop where
  header : ∀ id date commit, repo.commitHeader id = some date →
    repo.readCommit id = .ok (some commit) → date = commit.committerTimestamp
  older : ∀ child parent, IsParent repo child parent → dateOf repo parent < dateOf repo child

omit [DecidableEq κ] in
theorem DatesFall.dateOf_eq (h : DatesFall repo) {id : κ} {commit : Commit κ}
    (hread : repo.readCommit id = .ok (some commit)) :
    dateOf repo id = commit.committerTimestamp := by
  rw [dateOf, hread]
  cases hheader : repo.commitHeader id with
  | none => rfl
  | some date => exact h.header id date commit hheader hread

theorem mem_enqueued_append {shown more : List κ} {id : κ}
    (h : id ∈ enqueued repo options (shown ++ more)) :
    id ∈ enqueued repo options shown ∨
      ∃ child ∈ more, id ∈ followed repo options child ∧ id ∉ options.untilIds := by
  induction more using reverseRecOn with
  | nil => exact .inl (by rwa [append_nil] at h)
  | append_singleton more child ih =>
    rw [← append_assoc, enqueued_append] at h
    rcases mem_append.mp h with hold | hfresh
    · rcases ih hold with hbefore | ⟨other, hother, hfollowed⟩
      · exact .inl hbefore
      · exact .inr ⟨other, mem_append_left _ hother, hfollowed⟩
    · obtain ⟨hparent, -, hallowed⟩ := ((unseenParents_spec options.untilIds
        (followed repo options child) _).2.2 id).mp hfresh
      exact .inr ⟨child, mem_append_right _ (mem_singleton_self _), hparent, hallowed⟩

omit [DecidableEq κ] in
theorem isParent_of_follows (hreadable : Readable repo options) {child parent : κ}
    (hfollows : Follows repo options child parent) (hreach : Reachable repo options parent) :
    IsParent repo child parent := by
  obtain ⟨commit, hread, -, hparent, -⟩ := hfollows
  obtain ⟨other, hother, -⟩ := hreadable.read parent hreach
  refine ⟨commit, other, hread, hother, ?_⟩
  rw [selectParents] at hparent
  split at hparent
  · exact mem_of_mem_take hparent
  · exact hparent

omit [DecidableEq κ] in
theorem idsOf_append (before after : List (DateWalkStep κ)) :
    idsOf (before ++ after) = idsOf before ++ idsOf after := map_append

/-- **Where each commit is newer than its parents, what is shown later is no newer.** -/
theorem Walking.dates_fall (hreadable : Readable repo options) (hfall : DatesFall repo) {steps : List (DateWalkStep κ)}
    (h : Walking repo options (walk, steps)) {before middle after : List (DateWalkStep κ)}
    {step later : DateWalkStep κ}
    (hsplit : steps = before ++ step :: (middle ++ later :: after)) :
    dateOf repo later.commit.id ≤ dateOf repo step.commit.id := by
  -- the children that bring a later commit into the queue stand between
  induction hlength : middle.length using Nat.strong_induction_on
    generalizing middle later after with
  | _ length ih =>
    have hlater : steps = (before ++ step :: middle) ++ later :: after := by
      rw [hsplit, append_assoc, cons_append]
    obtain ⟨⟨earlier, rest, hwaiting, -, -⟩, -⟩ := h.shows _ _ _ hlater
    have hwaits : later.commit.id ∈ waiting
        (enqueued repo options (idsOf (before ++ step :: middle)))
        (idsOf (before ++ step :: middle)) := by
      rw [hwaiting]
      exact mem_append_right _ mem_cons_self
    obtain ⟨hcame, hnew⟩ := mem_waiting.mp hwaits
    rw [idsOf_append] at hcame hnew
    rcases mem_enqueued_append hcame with hbefore | ⟨child, hchild, hparent, hallowed⟩
    · obtain ⟨⟨front, back, hfirst, hless, hle⟩, -⟩ := h.shows before step _ hsplit
      have hwaits' : later.commit.id ∈ waiting (enqueued repo options (idsOf before))
          (idsOf before) :=
        mem_waiting.mpr ⟨hbefore, fun hin => hnew (mem_append_left _ hin)⟩
      rw [hfirst] at hwaits'
      rcases mem_append.mp hwaits' with hfront | hrest
      · exact (hless _ hfront).le
      · rcases mem_cons.mp hrest with heq | hback
        · rw [heq]
        · exact hle _ hback
    · have hreach : Reachable repo options later.commit.id := by
        refine h.reachable _ (h.shown_mem _ ?_)
        rw [hlater]
        exact mem_map_of_mem (mem_append_right _ mem_cons_self)
      have hlt := hfall.older child later.commit.id (isParent_of_follows hreadable
        (follows_iff.mpr ⟨hparent, hallowed⟩) hreach)
      rw [idsOf, map_cons] at hchild
      rcases mem_cons.mp hchild with heq | hmiddle
      · rw [heq] at hlt
        exact hlt.le
      obtain ⟨between, hbetween, rfl⟩ := mem_map.mp hmiddle
      obtain ⟨left, right, rfl⟩ := append_of_mem hbetween
      have hsplit' : steps = before ++ step :: (left ++ between ::
          (right ++ later :: after)) := by
        rw [hsplit, append_assoc, cons_append]
      have hshorter : left.length < length := by
        rw [← hlength, length_append, length_cons]
        omega
      exact hlt.le.trans (ih left.length hshorter hsplit' rfl)

/-- **The walk shows each reachable commit once**, the newest of what is queued first; where dates
rise, no commit before a descendant. -/
theorem commitDateWalk_exact (hreadable : Readable repo options) :
    ∃ steps, Yields (fun fuel => commitDateWalk repo options fuel) (steps, none) ∧
      (idsOf steps).Nodup ∧ (∀ id, id ∈ idsOf steps ↔ Reachable repo options id) ∧
      (∀ step ∈ steps, repo.readCommit step.commit.id = .ok (some step.commit)) ∧
      Shows repo options steps ∧
      (DatesFall repo → ∀ before step middle later after,
        steps = before ++ step :: (middle ++ later :: after) →
        later.commit.committerTimestamp ≤ step.commit.committerTimestamp ∧
          ¬Passes (IsParent repo) later.commit.id step.commit.id) := by
  obtain ⟨steps, hrun, ⟨walk, hwalking⟩, hall⟩ := commitDateWalk_run hreadable
  refine ⟨steps, hrun, hwalking.shown_nodup, fun id => ⟨fun hid => ?_, hall id⟩, hwalking.read,
    hwalking.shows, fun hfall before step middle later after hsplit => ?_⟩
  · exact hwalking.reachable id (hwalking.shown_mem id hid)
  have hle := hwalking.dates_fall hreadable hfall hsplit
  have hstep : step ∈ steps := by
    rw [hsplit]
    exact mem_append_right _ mem_cons_self
  have hlater : later ∈ steps := by
    rw [hsplit]
    exact mem_append_right _ (mem_cons_of_mem _
      (mem_append_right _ mem_cons_self))
  refine ⟨?_, fun hpasses => ?_⟩
  · rwa [hfall.dateOf_eq (hwalking.read step hstep),
      hfall.dateOf_eq (hwalking.read later hlater)] at hle
  · exact absurd hle (not_le.mpr (hpasses.lt (dateOf repo) fun _ _ => hfall.older _ _))

/-- A commit and its parent, the parent in the commit graph. -/
def twoCommits : Repository Empty ℕ where
  readCommit id := .ok (if id = 1 then some ⟨1, [], 5⟩ else if id = 2 then some ⟨2, [1], 9⟩
    else none)
  commitHeader id := if id = 1 then some 5 else none

def fromTwo : CommitDateWalkOptions ℕ := ⟨[2], [], [], false, false, .beforeYield⟩

theorem twoCommits_readable : Readable twoCommits fromTwo := by
  have hreach : ∀ id, Reachable twoCommits fromTwo id → id = 1 ∨ id = 2 := by
    rintro id ⟨seed, hseed, -, hpath⟩
    induction hpath with
    | refl => exact .inr (mem_singleton.mp hseed)
    | tail _ hedge ih =>
      obtain ⟨commit, hread, -, hparent, -⟩ := hedge
      rcases ih with rfl | rfl
      · obtain rfl := Option.some.inj (Except.ok.inj hread)
        exact absurd hparent not_mem_nil
      · obtain rfl := Option.some.inj (Except.ok.inj hread)
        exact .inl (mem_singleton.mp hparent)
  refine ⟨(Set.toFinite {1, 2}).subset fun id hid => ?_, fun id hid => ?_⟩
  · exact hreach id hid
  · rcases hreach id hid with rfl | rfl
    · exact ⟨⟨1, [], 5⟩, rfl, rfl⟩
    · exact ⟨⟨2, [1], 9⟩, rfl, rfl⟩

theorem twoCommits_datesFall : DatesFall twoCommits where
  header id date commit hheader hread := by
    by_cases hone : id = 1
    · subst hone
      cases hheader
      cases hread
      rfl
    · simp [twoCommits, hone] at hheader
  older child parent h := by
    obtain ⟨commit, other, hread, -, hmem⟩ := h
    by_cases htwo : child = 2
    · subst htwo
      cases hread
      rw [mem_singleton.mp hmem]
      decide
    · by_cases hone : child = 1
      · subst hone
        cases hread
        cases hmem
      · simp [twoCommits, hone, htwo] at hread

theorem commitDateWalk_exact_twoCommits :
    ∃ steps, Yields (fun fuel => commitDateWalk twoCommits fromTwo fuel) (steps, none) ∧
      (idsOf steps).Nodup ∧ (∀ id, id ∈ idsOf steps ↔ Reachable twoCommits fromTwo id) ∧
      Shows twoCommits fromTwo steps ∧ ∀ before step middle later after,
        steps = before ++ step :: (middle ++ later :: after) →
        later.commit.committerTimestamp ≤ step.commit.committerTimestamp ∧
          ¬Passes (IsParent twoCommits) later.commit.id step.commit.id := by
  obtain ⟨steps, hyields, hnodup, hmem, -, hshows, hdates⟩ :=
    commitDateWalk_exact twoCommits_readable
  exact ⟨steps, hyields, hnodup, hmem, hshows, hdates twoCommits_datesFall⟩

end Tsgit.CommitDateWalk
