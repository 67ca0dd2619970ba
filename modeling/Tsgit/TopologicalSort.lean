import Mathlib.Algebra.BigOperators.Group.List.Basic
import Tsgit.Ancestry
import Tsgit.ArrivalQueue
import Tsgit.Loop

/-!
# The Topological Sort

`sortInTopologicalOrder` of `src/domain/commit/topological-sort.ts`: a commit is shown once every
child in the list is. The sort is about any queue that serves, of all that was put into it and not
shown, the best by some measure: a stack, or a heap by date and arrival.
-/

namespace Tsgit.TopoSort

open Ancestry ArrivalQueue List Run

/-- What the sort reads of a commit. -/
structure TopoSortable (κ : Type) where
  id : κ
  parents : List κ
  authorTimestamp : ℤ
  committerTimestamp : ℤ
  deriving DecidableEq

inductive TopoSortOrder
  | graph
  | commitDate
  | authorDate
  deriving DecidableEq

/-- A queue of commits, by its two methods. -/
structure TopoQueue (κ σ : Type) where
  put : TopoSortable κ → σ → σ
  get : σ → Option (TopoSortable κ × σ)

/-- A listed commit, and how many of its listed children are still to be shown. -/
structure Pending (κ : Type) where
  commit : TopoSortable κ
  children : ℤ

variable {κ σ : Type} [DecidableEq κ]

/-! ### The sort -/

/-- `Map.set`: the entries are in the order of their first insertion. -/
def setPending (pending : List (Pending κ)) (commit : TopoSortable κ) : List (Pending κ) :=
  if pending.any (·.commit.id = commit.id) then
    pending.map fun entry => if entry.commit.id = commit.id then ⟨commit, 0⟩ else entry
  else pending ++ [⟨commit, 0⟩]

def addChildren (change : ℤ) (pending : List (Pending κ)) (parent : κ) : List (Pending κ) :=
  pending.map fun entry =>
    if entry.commit.id = parent then { entry with children := entry.children + change } else entry

def pendingChildrenOf (commits : List (TopoSortable κ)) : List (Pending κ) :=
  commits.foldl (fun pending commit => commit.parents.foldl (addChildren 1) pending)
    (commits.foldl setPending [])

/-- A turn of `releaseParents`. -/
def releaseParent (queue : TopoQueue κ σ) (state : List (Pending κ) × σ) (parent : κ) :
    List (Pending κ) × σ :=
  match state.1.find? (·.commit.id = parent) with
  | none => state
  | some entry =>
    (addChildren (-1) state.1 parent,
      if entry.children - 1 = 0 then queue.put entry.commit state.2 else state.2)

def releaseParents (queue : TopoQueue κ σ) (commit : TopoSortable κ)
    (state : List (Pending κ) × σ) : List (Pending κ) × σ :=
  commit.parents.foldl (releaseParent queue) state

def sortTurn (queue : TopoQueue κ σ) (state : (List (Pending κ) × σ) × List (TopoSortable κ)) :
    Run Empty (Turn ((List (Pending κ) × σ) × List (TopoSortable κ)) (List (TopoSortable κ))) :=
  match queue.get state.1.2 with
  | none => pure (.stop state.2)
  | some (commit, rest) =>
    pure (.again (releaseParents queue commit (state.1.1, rest), state.2 ++ [commit]))

def tipsOf (pending : List (Pending κ)) : List (TopoSortable κ) :=
  (pending.filter (·.children = 0)).map (·.commit)

def sortWith (fuel : ℕ) (queue : TopoQueue κ σ) (queueOf : List (TopoSortable κ) → σ)
    (commits : List (TopoSortable κ)) : Run Empty (List (TopoSortable κ)) :=
  let pending := pendingChildrenOf commits
  loop (sortTurn queue) fuel ((pending, queueOf (tipsOf pending)), [])

/-! ### Queues -/

/-- The stack, from its top. -/
def stackQueue : TopoQueue κ (List (TopoSortable κ)) where
  put commit stack := commit :: stack
  get stack := stack.head?.map (·, stack.tail)

/-- `[...tips].reverse()`, whose end is the top. -/
def stackOf (tips : List (TopoSortable κ)) : List (TopoSortable κ) := tips

def dateQueue (dateOf : TopoSortable κ → ℤ) : TopoQueue κ (DateQueue (TopoSortable κ)) where
  put commit state := (state.1.push ⟨dateOf commit, state.2, commit⟩, state.2 + 1)
  get state := state.1.pop.map fun popped => (popped.1.value, (popped.2, state.2))

def dateQueueOf (dateOf : TopoSortable κ → ℤ) (tips : List (TopoSortable κ)) :
    DateQueue (TopoSortable κ) :=
  tips.foldl (fun state tip => (dateQueue dateOf).put tip state) (BinaryHeap.empty, 0)

def sortInTopologicalOrder (fuel : ℕ) (commits : List (TopoSortable κ)) (order : TopoSortOrder) :
    Run Empty (List (TopoSortable κ)) :=
  match order with
  | .graph => sortWith fuel stackQueue stackOf commits
  | .commitDate =>
    sortWith fuel (dateQueue (·.committerTimestamp)) (dateQueueOf (·.committerTimestamp)) commits
  | .authorDate =>
    sortWith fuel (dateQueue (·.authorTimestamp)) (dateQueueOf (·.authorTimestamp)) commits

/-! ### What a queue serves -/

/-- A queue by its history: it answers what waits, and of that the best. -/
structure Serves (queue : TopoQueue κ σ)
    (holds : List (TopoSortable κ) → List (TopoSortable κ) → σ → Prop)
    (best : List (TopoSortable κ) → TopoSortable κ → Prop) : Prop where
  put : ∀ {history shown state commit}, holds history shown state → commit ∉ history →
    commit ∉ shown → holds (history ++ [commit]) shown (queue.put commit state)
  get_none : ∀ {history shown state}, holds history shown state → queue.get state = none →
    waiting history shown = []
  get_some : ∀ {history shown state commit rest}, history.Nodup → holds history shown state →
    queue.get state = some (commit, rest) → holds history (shown ++ [commit]) rest ∧
      commit ∈ waiting history shown ∧ best (waiting history shown) commit

def StackHolds (history shown stack : List (TopoSortable κ)) : Prop :=
  stack = (waiting history shown).reverse

/-- The last to come is served. -/
def Latest (waiting : List (TopoSortable κ)) (commit : TopoSortable κ) : Prop :=
  ∃ earlier, waiting = earlier ++ [commit]

theorem stackQueue_serves : Serves (stackQueue : TopoQueue κ _) StackHolds Latest where
  put h _ hshown := by
    rw [StackHolds, waiting_append hshown, reverse_append, reverse_singleton, singleton_append, ← h]
    rfl
  get_none {history shown state} h hnone := by
    cases state with
    | nil => exact reverse_eq_nil_iff.mp h.symm
    | cons => cases hnone
  get_some {history shown state commit rest} hnodup h hsome := by
    cases state with
    | nil => cases hsome
    | cons top below =>
      obtain ⟨rfl, rfl⟩ := Prod.mk.inj (Option.some.inj hsome)
      have hwaiting : waiting history shown = below.reverse ++ [top] := by
        rw [← reverse_reverse (waiting history shown), ← h, reverse_cons]
      have hnew : (waiting history shown).Nodup := hnodup.filter _
      rw [hwaiting] at hnew
      refine ⟨?_, ?_, below.reverse, hwaiting⟩
      · rw [StackHolds, waiting_shown, hwaiting, filter_append,
          filter_cons_of_neg (by simp), filter_nil, append_nil,
          filter_eq_self.mpr, reverse_reverse, tail_cons]
        intro other hother
        rw [nodup_append] at hnew
        exact decide_eq_true (hnew.2.2 other hother top (mem_singleton_self _))
      · rw [hwaiting]
        exact mem_append_right _ (mem_singleton_self _)

theorem dateQueue_serves (dateOf : TopoSortable κ → ℤ) :
    Serves (dateQueue dateOf) (Holds dateOf) (Newest dateOf) where
  put h _ hshown := h.put hshown
  get_none h hnone := h.get_none (Option.map_eq_none_iff.mp hnone)
  get_some hnodup h hsome := by
    obtain ⟨⟨entry, heap⟩, hpop, hpair⟩ := Option.map_eq_some_iff.mp hsome
    obtain ⟨rfl, rfl⟩ := Prod.mk.inj hpair
    exact h.get_some hnodup hpop

theorem dateQueueOf_holds (dateOf : TopoSortable κ → ℤ) {tips : List (TopoSortable κ)}
    (hnodup : tips.Nodup) : Holds dateOf tips [] (dateQueueOf dateOf tips) := by
  induction tips using reverseRecOn with
  | nil => exact ⟨.refl _, rfl⟩
  | append_singleton tips tip ih =>
    rw [nodup_append] at hnodup
    rw [dateQueueOf, foldl_append, foldl_cons, foldl_nil]
    exact (dateQueue_serves dateOf).put (ih hnodup.1)
      (fun hmem => hnodup.2.2 tip hmem tip (mem_singleton_self _) rfl) not_mem_nil

/-! ### Counting children -/

def remaining (commits shown : List (TopoSortable κ)) (id : κ) : ℕ :=
  ((commits.filter fun commit => commit ∉ shown).map (·.parents.count id)).sum

def tipsIn (commits : List (TopoSortable κ)) : List (TopoSortable κ) :=
  commits.filter fun commit => remaining commits [] commit.id = 0

def counted (commits : List (TopoSortable κ)) (count : κ → ℤ) : List (Pending κ) :=
  commits.map fun commit => ⟨commit, count commit.id⟩

theorem addChildren_counted (commits : List (TopoSortable κ)) (count : κ → ℤ) (change : ℤ)
    (parent : κ) : addChildren change (counted commits count) parent =
      counted commits fun id => count id + if id = parent then change else 0 := by
  rw [addChildren, counted, counted, map_map]
  refine map_congr_left fun commit _ => ?_
  rw [Function.comp_apply]
  by_cases hid : commit.id = parent
  · rw [if_pos hid, if_pos hid]
  · rw [if_neg hid, if_neg hid, Int.add_zero]

theorem foldl_addChildren (commits : List (TopoSortable κ)) (count : κ → ℤ) (parents : List κ) :
    parents.foldl (addChildren 1) (counted commits count) =
      counted commits fun id => count id + parents.count id := by
  induction parents generalizing count with
  | nil => simp
  | cons parent parents ih =>
    rw [foldl_cons, addChildren_counted, ih]
    congr 1
    funext id
    rw [count_cons]
    by_cases hid : id = parent
    · subst hid
      simp
      omega
    · rw [if_neg hid, if_neg (by simpa using fun h => hid h.symm)]
      simp

theorem foldl_setPending {commits : List (TopoSortable κ)} (hnodup : (commits.map (·.id)).Nodup) :
    commits.foldl setPending [] = counted commits fun _ => 0 := by
  induction commits using reverseRecOn with
  | nil => rfl
  | append_singleton commits commit ih =>
    rw [map_append, nodup_append] at hnodup
    rw [foldl_append, foldl_cons, foldl_nil, ih hnodup.1, setPending, if_neg]
    · rw [counted, counted, map_append, map_singleton]
    · rw [Bool.not_eq_true, any_eq_false]
      intro entry hentry
      obtain ⟨other, hother, rfl⟩ := mem_map.mp hentry
      simpa using hnodup.2.2 other.id (mem_map_of_mem hother) commit.id
        (mem_map_of_mem (mem_singleton_self _))

theorem pendingChildrenOf_eq {commits : List (TopoSortable κ)}
    (hnodup : (commits.map (·.id)).Nodup) :
    pendingChildrenOf commits = counted commits fun id => remaining commits [] id := by
  have hfold : ∀ (rest : List (TopoSortable κ)) (count : κ → ℤ),
      rest.foldl (fun pending commit => commit.parents.foldl (addChildren 1) pending)
        (counted commits count) =
      counted commits fun id => count id + (rest.map (·.parents.count id)).sum := by
    intro rest
    induction rest with
    | nil => simp
    | cons commit rest ih =>
      intro count
      rw [foldl_cons, foldl_addChildren, ih]
      congr 1
      funext id
      rw [map_cons, sum_cons]
      omega
  have hall : (commits.filter fun commit => commit ∉ ([] : List (TopoSortable κ))) = commits :=
    filter_eq_self.mpr fun _ _ => decide_eq_true not_mem_nil
  rw [pendingChildrenOf, foldl_setPending hnodup, hfold]
  congr 1
  funext id
  rw [remaining, hall, Int.zero_add]

/-- Distinct commits without a cycle of listed ones. -/
structure Sortable (commits : List (TopoSortable κ)) : Prop where
  nodup : (commits.map (·.id)).Nodup
  acyclic : Acyclic fun child parent : TopoSortable κ =>
    child ∈ commits ∧ parent ∈ commits ∧ parent.id ∈ child.parents

/-- A listed commit that is not shown, every listed child of which is. -/
structure Ready (commits shown : List (TopoSortable κ)) (commit : TopoSortable κ) : Prop where
  listed : commit ∈ commits
  new : commit ∉ shown
  children : ∀ child ∈ commits, commit.id ∈ child.parents → child ∈ shown

variable {commits : List (TopoSortable κ)}

variable {shown : List (TopoSortable κ)}

theorem remaining_eq_zero_iff {id : κ} :
    remaining commits shown id = 0 ↔
      ∀ child ∈ commits, id ∈ child.parents → child ∈ shown := by
  rw [remaining, List.sum_eq_zero_iff_forall_eq_nat]
  constructor
  · intro h child hchild hmem
    by_contra hnew
    have hzero := h _ (mem_map_of_mem (mem_filter.mpr ⟨hchild, decide_eq_true hnew⟩))
    exact count_eq_zero.mp hzero hmem
  · intro h n hn
    obtain ⟨child, hchild, rfl⟩ := mem_map.mp hn
    obtain ⟨hlisted, hnew⟩ := mem_filter.mp hchild
    exact count_eq_zero.mpr fun hmem => of_decide_eq_true hnew (h child hlisted hmem)

variable {commit : TopoSortable κ}

theorem remaining_shown (hnodup : (commits.map (·.id)).Nodup) (hlisted : commit ∈ commits) (hnew : commit ∉ shown) (id : κ) :
    remaining commits shown id =
      remaining commits (shown ++ [commit]) id + commit.parents.count id := by
  obtain ⟨front, back, rfl⟩ := append_of_mem hlisted
  have hcommits := Nodup.of_map _ hnodup
  rw [nodup_append, nodup_cons] at hcommits
  have hkeep : ∀ part : List (TopoSortable κ), commit ∉ part →
      (part.filter fun other => other ∉ shown ++ [commit]) =
        part.filter fun other => other ∉ shown := by
    intro part hpart
    refine filter_congr fun other hother => ?_
    have hne : other ≠ commit := fun heq => hpart (heq ▸ hother)
    simp [hne]
  have hfront : commit ∉ front := fun hmem => hcommits.2.2 _ hmem _ mem_cons_self rfl
  rw [remaining, remaining, filter_append, filter_append, hkeep front hfront,
    filter_cons_of_pos (by simpa using hnew), filter_cons_of_neg (by simp),
    hkeep back hcommits.2.1.1]
  simp only [map_append, sum_append, map_cons, sum_cons]
  omega

/-! ### The order of arrival -/

def freed (commits shown : List (TopoSortable κ)) (id : κ) : Option (TopoSortable κ) :=
  commits.find? fun commit => commit.id = id ∧ remaining commits shown id = 0

/-- What becomes ready when a commit is shown, in the order of its parents, each at its last place.
-/
def released (commits shown : List (TopoSortable κ)) (parents : List κ) : List (TopoSortable κ) :=
  parents.dedup.filterMap (freed commits shown)

/-- What has become ready, by the first to come, what is shown and what is shown from there on. -/
def arrivalsFrom (commits : List (TopoSortable κ)) : List (TopoSortable κ) →
    List (TopoSortable κ) → List (TopoSortable κ) → List (TopoSortable κ)
  | history, _, [] => history
  | history, shown, commit :: rest =>
    arrivalsFrom commits (history ++ released commits (shown ++ [commit]) commit.parents)
      (shown ++ [commit]) rest

/-- What has become ready before and while some commits are shown, in that order. -/
def arrivals (commits first shown : List (TopoSortable κ)) : List (TopoSortable κ) :=
  arrivalsFrom commits first [] shown

theorem arrivals_append (commits first shown : List (TopoSortable κ)) (commit : TopoSortable κ) :
    arrivals commits first (shown ++ [commit]) =
      arrivals commits first shown ++ released commits (shown ++ [commit]) commit.parents := by
  have hfrom : ∀ (rest history before : List (TopoSortable κ)),
      arrivalsFrom commits history before (rest ++ [commit]) =
        arrivalsFrom commits history before rest ++
          released commits (before ++ rest ++ [commit]) commit.parents := by
    intro rest
    induction rest with
    | nil => intro history before; rw [append_nil]; rfl
    | cons other rest ih =>
      intro history before
      rw [cons_append, arrivalsFrom, arrivalsFrom, ih, append_assoc before [other] rest]
      rfl
  exact hfrom shown first []

/-! ### The release of parents -/

section

variable {queue : TopoQueue κ σ}
  {holds : List (TopoSortable κ) → List (TopoSortable κ) → σ → Prop}
  {best : List (TopoSortable κ) → TopoSortable κ → Prop}

theorem find_counted (commits : List (TopoSortable κ)) (count : κ → ℤ) (id : κ) :
    (counted commits count).find? (·.commit.id = id) =
      (commits.find? (·.id = id)).map fun commit => ⟨commit, count commit.id⟩ := by
  rw [counted, find?_map]
  rfl

theorem addChildren_release (commits shown : List (TopoSortable κ)) (parent : κ)
    (parents : List κ) :
    addChildren (-1) (counted commits fun id =>
        remaining commits shown id + (parent :: parents).count id) parent =
      counted commits fun id => remaining commits shown id + parents.count id := by
  rw [addChildren_counted]
  congr 1
  funext id
  rw [count_cons]
  by_cases hid : id = parent
  · subst hid
    simp
    omega
  · rw [if_neg hid, if_neg (by simpa using fun h => hid h.symm)]
    simp

theorem released_cons_of_none {parent : κ} {parents : List κ}
    (hnone : parent ∉ parents → freed commits shown parent = none) :
    released commits shown (parent :: parents) = released commits shown parents := by
  rw [released, released]
  by_cases hin : parent ∈ parents
  · rw [dedup_cons_of_mem hin]
  · rw [dedup_cons_of_notMem hin, filterMap_cons_none (hnone hin)]

theorem released_cons_of_some {parent : κ} {parents : List κ} (hnew : parent ∉ parents)
    (hfreed : freed commits shown parent = some commit) :
    released commits shown (parent :: parents) = commit :: released commits shown parents := by
  rw [released, released, dedup_cons_of_notMem hnew, filterMap_cons_some hfreed]

theorem foldl_releaseParent (hserves : Serves queue holds best)
    (hnodup : (commits.map (·.id)).Nodup) (parents : List κ)
    {history : List (TopoSortable κ)} {state : σ} (hholds : holds history shown state)
    (hdistinct : history.Nodup) (hshown : ∀ commit ∈ shown, commit ∈ history)
    (hready : ∀ commit, commit ∈ history ↔ commit ∈ commits ∧
      remaining commits shown commit.id = 0 ∧ commit.id ∉ parents) :
    ∃ state', parents.foldl (releaseParent queue)
        (counted commits (fun id => remaining commits shown id + parents.count id), state) =
          (counted commits (fun id => remaining commits shown id), state') ∧
      holds (history ++ released commits shown parents) shown state' ∧
      (history ++ released commits shown parents).Nodup ∧
      ∀ commit, commit ∈ history ++ released commits shown parents ↔
        commit ∈ commits ∧ remaining commits shown commit.id = 0 := by
  induction parents generalizing history state with
  | nil =>
    have hnone : released commits shown [] = [] := rfl
    rw [hnone, append_nil]
    refine ⟨state, ?_, hholds, hdistinct, fun commit => ?_⟩
    · simp
    · rw [hready]
      simp
  | cons parent parents ih =>
    have hunique : ∀ a ∈ commits, ∀ b ∈ commits, a.id = b.id → a = b :=
      fun a ha b hb => inj_on_of_nodup_map hnodup ha hb
    rw [foldl_cons, releaseParent, find_counted]
    cases hfind : commits.find? (·.id = parent) with
    | none =>
      have hnot : ∀ commit ∈ commits, commit.id ≠ parent := by
        intro commit hmem heq
        have hfalse := find?_eq_none.mp hfind commit hmem
        exact hfalse (decide_eq_true heq)
      have hsame : counted commits (fun id => remaining commits shown id +
            (parent :: parents).count id) =
          counted commits fun id => remaining commits shown id + parents.count id := by
        refine map_congr_left fun commit hmem => ?_
        dsimp only
        rw [count_cons_of_ne (hnot commit hmem).symm]
      have hreleased : released commits shown (parent :: parents) =
          released commits shown parents :=
        released_cons_of_none fun _ => find?_eq_none.mpr fun commit hmem htrue =>
          hnot commit hmem (of_decide_eq_true htrue).1
      rw [hreleased]
      dsimp only [Option.map_none]
      rw [hsame]
      refine ih hholds hdistinct hshown fun commit => ?_
      rw [hready, mem_cons, not_or]
      constructor
      · rintro ⟨hmem, hzero, -, hnew⟩
        exact ⟨hmem, hzero, hnew⟩
      · rintro ⟨hmem, hzero, hnew⟩
        exact ⟨hmem, hzero, hnot commit hmem, hnew⟩
    | some commit =>
      have hlisted : commit ∈ commits := mem_of_find?_eq_some hfind
      have hid : commit.id = parent := of_decide_eq_true
        (find?_some (p := fun c : TopoSortable κ => decide (c.id = parent)) hfind)
      subst hid
      have hnotin : commit ∉ history := fun hmem =>
        ((hready commit).mp hmem).2.2 mem_cons_self
      dsimp only [Option.map_some]
      rw [addChildren_release]
      by_cases hput : remaining commits shown commit.id = 0 ∧ commit.id ∉ parents
      · have hzero : (remaining commits shown commit.id : ℤ) +
            (commit.id :: parents).count commit.id - 1 = 0 := by
          rw [count_cons_self, count_eq_zero.mpr hput.2, hput.1]
          rfl
        have hfreed : freed commits shown commit.id = some commit := by
          rw [freed, ← hfind]
          congr 1
          funext other
          simp [hput.1]
        have hreleased := released_cons_of_some hput.2 hfreed
        rw [if_pos hzero, hreleased, ← singleton_append, ← append_assoc]
        refine ih (hserves.put hholds hnotin fun hmem => hnotin (hshown commit hmem))
          (concat_eq_append ▸ hdistinct.concat hnotin)
          (fun other hother => mem_append_left _ (hshown other hother)) fun other => ?_
        rw [mem_append, hready, mem_singleton, mem_cons, not_or]
        constructor
        · rintro (⟨hmem, hz, _, hnew⟩ | rfl)
          · exact ⟨hmem, hz, hnew⟩
          · exact ⟨hlisted, hput.1, hput.2⟩
        · rintro ⟨hmem, hz, hnew⟩
          by_cases heq : other = commit
          · exact .inr heq
          · exact .inl ⟨hmem, hz, fun hsame => heq (hunique _ hmem _ hlisted hsame), hnew⟩
      · have hnonzero : ¬ (remaining commits shown commit.id : ℤ) +
            (commit.id :: parents).count commit.id - 1 = 0 := by
          rw [count_cons_self]
          intro hzero
          refine hput ⟨by omega, count_eq_zero.mp ?_⟩
          omega
        have hreleased : released commits shown (commit.id :: parents) =
            released commits shown parents :=
          released_cons_of_none fun hin => find?_eq_none.mpr fun other _ htrue =>
            hput ⟨(of_decide_eq_true htrue).2, hin⟩
        rw [if_neg hnonzero, hreleased]
        refine ih hholds hdistinct hshown fun other => ?_
        rw [hready, mem_cons, not_or]
        constructor
        · rintro ⟨hmem, hz, -, hnew⟩
          exact ⟨hmem, hz, hnew⟩
        · rintro ⟨hmem, hz, hnew⟩
          refine ⟨hmem, hz, fun hsame => hput ?_, hnew⟩
          rw [← hsame]
          exact ⟨hz, hnew⟩

/-! ### The sort over a queue -/

def Shows (commits first : List (TopoSortable κ))
    (best : List (TopoSortable κ) → TopoSortable κ → Prop) (shown : List (TopoSortable κ)) : Prop :=
  ∀ before commit after, shown = before ++ commit :: after → (arrivals commits first before).Nodup ∧
    (∀ other, other ∈ waiting (arrivals commits first before) before ↔ Ready commits before other) ∧
    commit ∈ waiting (arrivals commits first before) before ∧
    best (waiting (arrivals commits first before) before) commit

/-- What holds at every turn of the sort. -/
structure Sorting (commits first : List (TopoSortable κ))
    (holds : List (TopoSortable κ) → List (TopoSortable κ) → σ → Prop)
    (best : List (TopoSortable κ) → TopoSortable κ → Prop)
    (state : (List (Pending κ) × σ) × List (TopoSortable κ)) : Prop where
  pending : state.1.1 = counted commits fun id => remaining commits state.2 id
  holds : holds (arrivals commits first state.2) state.2 state.1.2
  arrivals_nodup : (arrivals commits first state.2).Nodup
  shown_nodup : state.2.Nodup
  shown_mem : ∀ commit ∈ state.2, commit ∈ arrivals commits first state.2
  ready : ∀ commit, commit ∈ arrivals commits first state.2 ↔
    commit ∈ commits ∧ remaining commits state.2 commit.id = 0
  shows : Shows commits first best state.2

variable {first : List (TopoSortable κ)}

theorem Sorting.waiting_iff
    {state : (List (Pending κ) × σ) × List (TopoSortable κ)}
    (h : Sorting commits first holds best state) (commit : TopoSortable κ) :
    commit ∈ waiting (arrivals commits first state.2) state.2 ↔ Ready commits state.2 commit := by
  rw [mem_waiting, h.ready, remaining_eq_zero_iff]
  constructor
  · rintro ⟨⟨hmem, hchildren⟩, hnew⟩
    exact ⟨hmem, hnew, hchildren⟩
  · exact fun hready => ⟨⟨hready.listed, hready.children⟩, hready.new⟩

theorem Sorting.all_shown
    {state : (List (Pending κ) × σ) × List (TopoSortable κ)}
    (h : Sorting commits first holds best state) (hsortable : Sortable commits)
    (hnone : waiting (arrivals commits first state.2) state.2 = []) :
    ∀ commit ∈ commits, commit ∈ state.2 := by
  intro commit hcommit
  by_contra hnew
  have hfinite : {other | other ∈ commits ∧ other ∉ state.2}.Finite :=
    commits.toFinset.finite_toSet.subset fun other hother => mem_toFinset.mpr hother.1
  obtain ⟨top, ⟨hlisted, htop⟩, -, hnothing⟩ := exists_irreducible hsortable.acyclic hfinite
    (show commit ∈ {other | other ∈ commits ∧ other ∉ state.2} from ⟨hcommit, hnew⟩)
  have hready : Ready commits state.2 top := by
    refine ⟨hlisted, htop, fun child hchild hparent => ?_⟩
    by_contra hunshown
    exact hnothing child ⟨hchild, hunshown⟩ (.of_parent ⟨hchild, hlisted, hparent⟩)
  have hwaits := (h.waiting_iff top).mpr hready
  rw [hnone] at hwaits
  exact absurd hwaits not_mem_nil

/-- **The step of the sort.** -/
theorem Sorting.step (hserves : Serves queue holds best) (hnodup : (commits.map (·.id)).Nodup)
    {first : List (TopoSortable κ)} {state : (List (Pending κ) × σ) × List (TopoSortable κ)}
    (h : Sorting commits first holds best state) {commit : TopoSortable κ} {rest : σ}
    (hget : queue.get state.1.2 = some (commit, rest)) :
    Sorting commits first holds best
        (releaseParents queue commit (state.1.1, rest), state.2 ++ [commit]) ∧
      state.2.length < commits.length := by
  obtain ⟨⟨pending, waiters⟩, shown⟩ := state
  obtain ⟨hpending, hholds, harrivals, hshown, hmem, hready, hshows⟩ := h
  dsimp only at hpending hholds harrivals hshown hmem hready hshows hget ⊢
  have hinv : Sorting commits first holds best ((pending, waiters), shown) :=
    ⟨hpending, hholds, harrivals, hshown, hmem, hready, hshows⟩
  obtain ⟨hserved, hwaits, hbest⟩ := hserves.get_some harrivals hholds hget
  obtain ⟨hlisted, hnew, -⟩ := (hinv.waiting_iff commit).mp hwaits
  have harrived := (mem_waiting.mp hwaits).1
  have hcounts : pending = counted commits fun id =>
      remaining commits (shown ++ [commit]) id + commit.parents.count id := by
    rw [hpending]
    congr 1
    funext id
    rw [remaining_shown hnodup hlisted hnew id]
    exact Int.natCast_add _ _
  have hbegins : ∀ other, other ∈ arrivals commits first shown ↔ other ∈ commits ∧
      remaining commits (shown ++ [commit]) other.id = 0 ∧ other.id ∉ commit.parents := by
    intro other
    rw [hready, remaining_shown hnodup hlisted hnew other.id, Nat.add_eq_zero_iff, count_eq_zero]
  have hshown' : ∀ other ∈ shown ++ [commit], other ∈ arrivals commits first shown := by
    intro other hother
    rcases mem_append.mp hother with hold | hold
    · exact hmem other hold
    · rwa [mem_singleton.mp hold]
  obtain ⟨state', hrun, hholds', hdistinct, hall⟩ := foldl_releaseParent hserves hnodup
    commit.parents hserved harrivals hshown' hbegins
  rw [← arrivals_append] at hholds' hdistinct hall
  have hnodup' : (shown ++ [commit]).Nodup := concat_eq_append ▸ hshown.concat hnew
  refine ⟨?_, ?_⟩
  · rw [releaseParents, hcounts, hrun]
    refine ⟨rfl, hholds', hdistinct, hnodup', fun other hother => ?_, hall, ?_⟩
    · rw [arrivals_append]
      exact mem_append_left _ (hshown' other hother)
    · intro before next after hsplit
      rcases after.eq_nil_or_concat with rfl | ⟨front, last, rfl⟩
      · obtain ⟨rfl, hlast⟩ := append_inj' hsplit rfl
        obtain rfl := singleton_inj.mp hlast
        exact ⟨harrivals, hinv.waiting_iff, hwaits, hbest⟩
      · rw [concat_eq_append, ← cons_append, ← append_assoc] at hsplit
        exact hshows before next front (append_inj' hsplit rfl).1
  · have hle := hnodup'.subperm fun other hother =>
      ((hready other).mp (hshown' other hother)).1
    have hlength := hle.length_le
    rw [length_append, length_singleton] at hlength
    omega

theorem tipsOf_pendingChildrenOf (hnodup : (commits.map (·.id)).Nodup) :
    tipsOf (pendingChildrenOf commits) = tipsIn commits := by
  rw [pendingChildrenOf_eq hnodup, tipsOf, counted, filter_map, map_map, tipsIn]
  have hid : ((fun entry : Pending κ => entry.commit) ∘ fun commit : TopoSortable κ =>
      (⟨commit, (remaining commits [] commit.id : ℤ)⟩ : Pending κ)) = id := rfl
  rw [hid, map_id]
  refine filter_congr fun commit _ => ?_
  exact decide_eq_decide.mpr Int.natCast_eq_zero

/-- **A sort over any queue that serves**: it ends, with every commit once, each the best of those
that were ready. -/
theorem sortWith_spec (hserves : Serves queue holds best) (hsortable : Sortable commits)
    {queueOf : List (TopoSortable κ) → σ}
    (hfirst : first.Perm (tipsIn commits)) (hqueue : holds first [] (queueOf (tipsIn commits))) :
    ∃ sorted, Yields (fun fuel => sortWith fuel queue queueOf commits) sorted ∧
      sorted.Perm commits ∧ Shows commits first best sorted := by
  have htips : ∀ commit, commit ∈ first ↔ commit ∈ commits ∧
      remaining commits [] commit.id = 0 := by
    intro commit
    rw [hfirst.mem_iff, tipsIn, mem_filter, decide_eq_true_iff]
  have hdistinct : first.Nodup :=
    hfirst.nodup_iff.mpr ((Nodup.of_map _ hsortable.nodup).filter _)
  rw [← tipsOf_pendingChildrenOf hsortable.nodup] at hqueue
  have hstart : Sorting commits first holds best
      ((pendingChildrenOf commits, queueOf (tipsOf (pendingChildrenOf commits))), []) :=
    ⟨pendingChildrenOf_eq hsortable.nodup, hqueue, hdistinct, nodup_nil,
      forall_mem_nil _, htips, fun before commit after heq => by
        have hlength := congrArg length heq
        simp at hlength⟩
  have hturn : ∀ state, Sorting commits first holds best state →
      Returns (sortTurn queue state) (Turn.Meets
        (fun sorted => sorted.Perm commits ∧ Shows commits first best sorted)
        fun next => Sorting commits first holds best next ∧
          commits.length - next.2.length < commits.length - state.2.length) := by
    intro state hstate
    unfold sortTurn
    cases hget : queue.get state.1.2 with
    | none =>
      have hall := hstate.all_shown hsortable (hserves.get_none hstate.holds hget)
      refine .pure ⟨?_, hstate.shows⟩
      refine (perm_ext_iff_of_nodup hstate.shown_nodup
        (Nodup.of_map _ hsortable.nodup)).mpr fun commit => ⟨fun hmem => ?_, hall commit⟩
      exact ((hstate.ready commit).mp (hstate.shown_mem commit hmem)).1
    | some popped =>
      obtain ⟨commit, rest⟩ := popped
      obtain ⟨hnext, hlt⟩ := hstate.step hserves hsortable.nodup hget
      refine .pure ⟨hnext, ?_⟩
      rw [length_append, length_singleton]
      omega
  obtain ⟨sorted, hrun, hpost⟩ := loop_spec _ _ hturn (commits.length + 1) _ hstart
    (Nat.lt_succ_of_le (Nat.sub_le _ _))
  exact ⟨sorted, ⟨commits.length + 1, fun fuel hfuel => loop_mono hfuel hrun⟩, hpost⟩

/-! ### The orders -/

omit [DecidableEq κ] in
theorem mem_of_append_eq {α : Type} {a b earlier : List α} {x y : α}
    (h : a ++ b = earlier ++ [x]) (hy : y ∈ b) : x ∈ b := by
  rcases b.eq_nil_or_concat with rfl | ⟨front, last, rfl⟩
  · cases hy
  · rw [concat_eq_append, ← append_assoc] at h
    obtain rfl := singleton_inj.mp (append_inj' h rfl).2
    rw [concat_eq_append]
    exact mem_append_right _ (mem_singleton_self _)

theorem arrivals_extend (commits first shown more : List (TopoSortable κ)) :
    ∃ later, arrivals commits first (shown ++ more) = arrivals commits first shown ++ later := by
  induction more using reverseRecOn with
  | nil => exact ⟨[], by rw [append_nil, append_nil]⟩
  | append_singleton more commit ih =>
    obtain ⟨later, hlater⟩ := ih
    refine ⟨later ++ released commits (shown ++ more ++ [commit]) commit.parents, ?_⟩
    rw [← append_assoc shown, arrivals_append, hlater, append_assoc]

omit [DecidableEq κ] in
theorem Ready.append
    (h : Ready commits shown commit) {more : List (TopoSortable κ)} (hnew : commit ∉ more) :
    Ready commits (shown ++ more) commit where
  listed := h.listed
  new hmem := (mem_append.mp hmem).elim h.new hnew
  children child hchild hparent := mem_append_left _ (h.children child hchild hparent)

/-- What has become ready is output before everything that was ready earlier. -/
def LatestReadyFirst (commits sorted : List (TopoSortable κ)) : Prop :=
  ∀ before middle after older newer, sorted = before ++ middle ++ after →
    Ready commits before older → ¬Ready commits before newer →
    Ready commits (before ++ middle) newer → older ∈ after →
    ∃ front back, after = front ++ newer :: back ∧ older ∈ back

theorem Shows.latestReadyFirst {first sorted : List (TopoSortable κ)}
    (h : Shows commits first Latest sorted) : LatestReadyFirst commits sorted := by
  intro before middle after older newer hsplit holder hearly hnewer hmem
  obtain ⟨front, back, rfl⟩ := append_of_mem hmem
  obtain ⟨hnodup, hwaiting, -, earlier, hlast⟩ := h (before ++ middle ++ front) older back
    (hsplit.trans (append_assoc _ _ _).symm)
  by_cases hin : newer ∈ front
  · obtain ⟨left, right, rfl⟩ := append_of_mem hin
    exact ⟨left, right ++ older :: back, by rw [append_assoc, cons_append],
      mem_append_right _ mem_cons_self⟩
  exfalso
  have hnew : newer ∉ before := fun hbefore => hnewer.new (mem_append_left _ hbefore)
  obtain ⟨head, tail, hhead⟩ : ∃ head tail, middle ++ front ++ older :: back = head :: tail := by
    cases hcase : middle ++ front ++ older :: back with
    | nil => simp at hcase
    | cons head tail => exact ⟨head, tail, rfl⟩
  have hfirst := (h before head tail (by
    rw [hsplit, ← hhead, append_assoc, append_assoc])).2.1
  obtain ⟨later, hlater⟩ := arrivals_extend commits first before (middle ++ front)
  rw [← append_assoc] at hlater
  rw [hlater] at hnodup
  have harrived := (mem_waiting.mp ((hwaiting newer).mpr (hnewer.append hin))).1
  rw [hlater, mem_append] at harrived
  have hafter : newer ∈ later := harrived.resolve_left fun hbefore =>
    hearly ((hfirst newer).mp (mem_waiting.mpr ⟨hbefore, hnew⟩))
  have hshown : newer ∉ before ++ middle ++ front := fun hmem =>
    (mem_append.mp hmem).elim hnewer.new hin
  rw [hlater, waiting, filter_append] at hlast
  have hagain := mem_of_append_eq hlast
    (mem_filter.mpr ⟨hafter, decide_eq_true hshown⟩)
  have hinit := (mem_waiting.mp ((hfirst older).mpr holder)).1
  exact (nodup_append.mp hnodup).2.2 older hinit older (mem_filter.mp hagain).1 rfl

theorem Shows.ready {first sorted : List (TopoSortable κ)} (h : Shows commits first best sorted)
    {before after : List (TopoSortable κ)}
    (hsplit : sorted = before ++ commit :: after) : Ready commits before commit := by
  obtain ⟨-, hwaiting, hmem, -⟩ := h before commit after hsplit
  exact (hwaiting commit).mp hmem

end

def TopoSortOrder.dateOf {κ : Type} : TopoSortOrder → Option (TopoSortable κ → ℤ)
  | .graph => none
  | .commitDate => some (·.committerTimestamp)
  | .authorDate => some (·.authorTimestamp)

def NewestReadyFirst (dateOf : TopoSortable κ → ℤ) (commits sorted : List (TopoSortable κ)) :
    Prop :=
  ∀ before commit after, sorted = before ++ commit :: after →
    (∀ other, other ∈ waiting (arrivals commits (tipsIn commits) before) before ↔
      Ready commits before other) ∧
    Newest dateOf (waiting (arrivals commits (tipsIn commits) before) before) commit

theorem Shows.newestReadyFirst {dateOf : TopoSortable κ → ℤ} {sorted : List (TopoSortable κ)}
    (h : Shows commits (tipsIn commits) (Newest dateOf) sorted) :
    NewestReadyFirst dateOf commits sorted := by
  intro before commit after hsplit
  obtain ⟨-, hwaiting, -, hnewest⟩ := h before commit after hsplit
  exact ⟨hwaiting, hnewest⟩

/-- **The topological sort outputs every commit once, behind its listed children**: of those that
are ready the newest, or the last to become so. -/
theorem sortInTopologicalOrder_exact (hsortable : Sortable commits) (order : TopoSortOrder) :
    ∃ sorted, Yields (fun fuel => sortInTopologicalOrder fuel commits order) sorted ∧
      sorted.Perm commits ∧
      (∀ before commit after, sorted = before ++ commit :: after → Ready commits before commit) ∧
      (∀ dateOf, order.dateOf = some dateOf → NewestReadyFirst dateOf commits sorted) ∧
      (order = .graph → LatestReadyFirst commits sorted) := by
  have hnodup : (tipsIn commits).Nodup := (Nodup.of_map _ hsortable.nodup).filter _
  have hdates : ∀ dateOf : TopoSortable κ → ℤ, ∃ sorted,
      Yields (fun fuel => sortWith fuel (dateQueue dateOf) (dateQueueOf dateOf) commits) sorted ∧
      sorted.Perm commits ∧ Shows commits (tipsIn commits) (Newest dateOf) sorted := fun dateOf =>
    sortWith_spec (dateQueue_serves dateOf) hsortable (.refl _) (dateQueueOf_holds dateOf hnodup)
  cases order with
  | graph =>
    have hstack : StackHolds (tipsIn commits).reverse [] (stackOf (tipsIn commits)) := by
      rw [StackHolds, waiting, filter_eq_self.mpr, reverse_reverse, stackOf]
      exact fun _ _ => decide_eq_true not_mem_nil
    obtain ⟨sorted, hrun, hperm, hshows⟩ := sortWith_spec stackQueue_serves hsortable
      (reverse_perm _) hstack
    exact ⟨sorted, hrun, hperm, fun _ _ _ => hshows.ready, fun _ hsome => (by cases hsome),
      fun _ => hshows.latestReadyFirst⟩
  | commitDate =>
    obtain ⟨sorted, hrun, hperm, hshows⟩ := hdates (·.committerTimestamp)
    refine ⟨sorted, hrun, hperm, fun _ _ _ => hshows.ready, fun dateOf hsome => ?_,
      fun h => (by cases h)⟩
    exact Option.some.inj hsome ▸ hshows.newestReadyFirst
  | authorDate =>
    obtain ⟨sorted, hrun, hperm, hshows⟩ := hdates (·.authorTimestamp)
    refine ⟨sorted, hrun, hperm, fun _ _ _ => hshows.ready, fun dateOf hsome => ?_,
      fun h => (by cases h)⟩
    exact Option.some.inj hsome ▸ hshows.newestReadyFirst

/-- A commit with a parent that is named twice and one that is missing, before its child. -/
def parentFirst : List (TopoSortable ℕ) :=
  [⟨1, [0, 7], 5, 5⟩, ⟨2, [1, 1], 4, 4⟩, ⟨3, [], 9, 9⟩]

theorem parentFirst_sortable : Sortable parentFirst where
  nodup := by decide
  acyclic := by
    have hlt : ∀ child ∈ parentFirst, ∀ parent ∈ parentFirst, parent.id ∈ child.parents →
        parent.id < child.id := by decide
    intro commit hcycle
    exact lt_irrefl _ (hcycle.lt TopoSortable.id fun child parent hedge =>
      hlt child hedge.1 parent hedge.2.1 hedge.2.2)

theorem sortInTopologicalOrder_exact_parentFirst :
    ∃ sorted, Yields (fun fuel => sortInTopologicalOrder fuel parentFirst .commitDate) sorted ∧
      sorted.Perm parentFirst ∧
      (∀ before commit after, sorted = before ++ commit :: after →
        Ready parentFirst before commit) ∧
      (∀ dateOf, TopoSortOrder.commitDate.dateOf = some dateOf →
        NewestReadyFirst dateOf parentFirst sorted) ∧
      (TopoSortOrder.commitDate = .graph → LatestReadyFirst parentFirst sorted) :=
  sortInTopologicalOrder_exact parentFirst_sortable .commitDate

end Tsgit.TopoSort
