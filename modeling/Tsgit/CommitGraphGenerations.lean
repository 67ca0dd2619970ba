import Tsgit.Ancestry
import Tsgit.Loop

/-!
# The Generations of a Commit Graph

`computeCommitGraphGenerations` of `src/domain/commit/commit-graph-writer.ts`: topological levels
and corrected commit dates of the commits that are written, over the base layers, by two walks with
a stack.
-/

namespace Tsgit.CommitGraphWriter

open Ancestry List Run

/-- What the walks read of a commit. -/
structure CommitGraphWriterCommit (κ : Type) where
  parents : List κ
  committerDate : ℤ

structure CommitGraphGeneration where
  level : ℕ
  correctedDate : ℕ
  deriving DecidableEq

inductive CorrectedDatePass
  | skipped
  | trusted
  | untrusted
  deriving DecidableEq

/-- A pass: the values that are known, and the commits settled and parsed, in their order. -/
structure GenerationWalk (κ : Type) where
  known : κ → Option ℕ
  settled : List κ
  parses : List κ

variable {κ : Type} [DecidableEq κ]

/-! ### The walks -/

def GenerationWalk.parse (walk : GenerationWalk κ) (id : κ) : GenerationWalk κ :=
  { walk with parses := walk.parses ++ [id] }

def GenerationWalk.settle (walk : GenerationWalk κ) (id : κ) (value : ℕ) : GenerationWalk κ :=
  { walk with known := Function.update walk.known id (some value), settled := walk.settled ++ [id] }

def parentsOf (parsed : κ → Option (CommitGraphWriterCommit κ)) (id : κ) : List κ :=
  ((parsed id).map (·.parents)).getD []

def dateOf (parsed : κ → Option (CommitGraphWriterCommit κ)) (id : κ) : ℤ :=
  ((parsed id).map (·.committerDate)).getD 0

def MAX_TOPOLOGICAL_LEVEL : ℕ := 0x3fffffff

def deriveLevel (_ : ℤ) (maxParent : ℕ) : ℕ := min maxParent (MAX_TOPOLOGICAL_LEVEL - 1) + 1

def deriveCorrectedDate (date : ℤ) (maxParent : ℕ) : ℕ :=
  if date > maxParent then date.toNat else maxParent + 1

def firstUnknownParent : List κ → GenerationWalk κ → Option κ × GenerationWalk κ
  | [], walk => (none, walk)
  | parent :: rest, walk =>
    if (walk.known parent).isNone then (some parent, walk.parse parent)
    else firstUnknownParent rest (walk.parse parent)

/-- `Math.max(0, ...)` of the values of some commits. -/
def maxKnown (known : κ → Option ℕ) (parents : List κ) : ℕ :=
  (parents.map fun parent => (known parent).getD 0).foldl max 0

def settleTurn (parsed : κ → Option (CommitGraphWriterCommit κ)) (derive : ℤ → ℕ → ℕ)
    (state : List κ × GenerationWalk κ) :
    Run Empty (Turn (List κ × GenerationWalk κ) (GenerationWalk κ)) :=
  match state.1 with
  | [] => pure (.stop state.2)
  | current :: below =>
    let parents := parentsOf parsed current
    let looked := firstUnknownParent parents state.2
    match looked.1 with
    | some pending => pure (.again (pending :: current :: below, looked.2))
    | none => pure (.again (below, looked.2.settle current
        (derive (dateOf parsed current) (maxKnown looked.2.known parents))))

def settleFrom (fuel : ℕ) (parsed : κ → Option (CommitGraphWriterCommit κ)) (derive : ℤ → ℕ → ℕ)
    (start : κ) (walk : GenerationWalk κ) : Run Empty (GenerationWalk κ) :=
  loop (settleTurn parsed derive) fuel ([start], walk)

/-- A turn of `walkGenerations`. -/
def walkFrom (fuel : ℕ) (parsed : κ → Option (CommitGraphWriterCommit κ)) (derive : ℤ → ℕ → ℕ)
    (walk : GenerationWalk κ) (id : κ) : Run Empty (GenerationWalk κ) :=
  if (walk.known id).isSome then pure (walk.parse id)
  else settleFrom fuel parsed derive id (walk.parse id)

def walkGenerations (fuel : ℕ) (parsed : κ → Option (CommitGraphWriterCommit κ))
    (derive : ℤ → ℕ → ℕ) (walk : GenerationWalk κ) (order : List κ) :
    Run Empty (GenerationWalk κ) :=
  order.foldlM (walkFrom fuel parsed derive) walk

def baseGenerations (base : κ → Option CommitGraphGeneration) (field : CommitGraphGeneration → ℕ) :
    κ → Option ℕ := fun id => (base id).map field

/-- The pass over the levels. -/
def walkLevels (fuel : ℕ) (parsed : κ → Option (CommitGraphWriterCommit κ)) (order : List κ)
    (base : κ → Option CommitGraphGeneration) : Run Empty (GenerationWalk κ) :=
  walkGenerations fuel parsed deriveLevel ⟨baseGenerations base (·.level), [], []⟩ order

def walkCorrectedDates (fuel : ℕ) (parsed : κ → Option (CommitGraphWriterCommit κ))
    (order : List κ) (base : κ → Option CommitGraphGeneration) (untrusted : Bool) :
    Run Empty (GenerationWalk κ) :=
  walkGenerations fuel parsed deriveCorrectedDate
    ⟨baseGenerations base fun generation =>
        if untrusted then generation.level else generation.correctedDate,
      [], if untrusted then order else []⟩ order

/-- The dates that go with the levels. -/
def datesFor (fuel : ℕ) (parsed : κ → Option (CommitGraphWriterCommit κ)) (order : List κ)
    (base : κ → Option CommitGraphGeneration) (levels : GenerationWalk κ) :
    CorrectedDatePass → Run Empty (GenerationWalk κ)
  | .skipped => pure levels
  | .trusted => walkCorrectedDates fuel parsed order base false
  | .untrusted => walkCorrectedDates fuel parsed order base true

def generationOf (levels dates : GenerationWalk κ) (id : κ) : Option CommitGraphGeneration := do
  let level ← levels.known id
  let correctedDate ← dates.known id
  return ⟨level, correctedDate⟩

def computeCommitGraphGenerations (fuel : ℕ) (parsed : κ → Option (CommitGraphWriterCommit κ))
    (order : List κ) (base : κ → Option CommitGraphGeneration) (pass : CorrectedDatePass) :
    Run Empty (κ → Option CommitGraphGeneration) := do
  let levels ← walkLevels fuel parsed order base
  let dates ← datesFor fuel parsed order base levels pass
  return generationOf levels dates

/-! ### A pass -/

section

variable {parsed : κ → Option (CommitGraphWriterCommit κ)} {derive : ℤ → ℕ → ℕ} {order : List κ}
  {start : κ → Option ℕ} {walk : GenerationWalk κ}

theorem GenerationWalk.known_settle_self (walk : GenerationWalk κ) (id : κ) (value : ℕ) :
    (walk.settle id value).known id = some value := Function.update_self _ _ _

theorem GenerationWalk.known_settle_of_ne (walk : GenerationWalk κ) {id other : κ} (value : ℕ)
    (h : other ≠ id) : (walk.settle id value).known other = walk.known other :=
  Function.update_of_ne h _ _

omit [DecidableEq κ] in
theorem firstUnknownParent_spec (parents : List κ) (walk : GenerationWalk κ) :
    (firstUnknownParent parents walk).2.known = walk.known ∧
      (firstUnknownParent parents walk).2.settled = walk.settled ∧
      ((firstUnknownParent parents walk).1 = none → ∀ parent ∈ parents, walk.known parent ≠ none) ∧
      ∀ pending, (firstUnknownParent parents walk).1 = some pending →
        pending ∈ parents ∧ walk.known pending = none := by
  induction parents generalizing walk with
  | nil => exact ⟨rfl, rfl, fun _ _ hmem => absurd hmem not_mem_nil, fun _ h => (by cases h)⟩
  | cons parent rest ih =>
    rw [firstUnknownParent]
    by_cases hknown : walk.known parent = none
    · rw [if_pos (Option.isNone_iff_eq_none.mpr hknown)]
      refine ⟨rfl, rfl, fun h => (by cases h), fun pending h => ?_⟩
      obtain rfl := Option.some.inj h
      exact ⟨mem_cons_self, hknown⟩
    · rw [if_neg fun h => hknown (Option.isNone_iff_eq_none.mp h)]
      obtain ⟨hsame, hsettled, hall, hsome⟩ := ih (walk.parse parent)
      refine ⟨hsame, hsettled, fun h => ?_, fun pending h => ?_⟩
      · exact forall_mem_cons.mpr ⟨hknown, hall h⟩
      · exact ⟨mem_cons_of_mem _ (hsome pending h).1, (hsome pending h).2⟩

/-- What a walk has settled of a list of commits, over what was known at its start. -/
structure Walked (parsed : κ → Option (CommitGraphWriterCommit κ)) (derive : ℤ → ℕ → ℕ)
    (order : List κ) (start : κ → Option ℕ) (walk : GenerationWalk κ) : Prop where
  kept : ∀ id, start id ≠ none → walk.known id = start id
  known_iff : ∀ id, walk.known id ≠ none ↔ start id ≠ none ∨ id ∈ walk.settled
  nodup : walk.settled.Nodup
  settled : ∀ id ∈ walk.settled, id ∈ order ∧ start id = none
  parents : ∀ id ∈ walk.settled, ∀ parent ∈ parentsOf parsed id, walk.known parent ≠ none
  value : ∀ id ∈ walk.settled,
    walk.known id = some (derive (dateOf parsed id) (maxKnown walk.known (parentsOf parsed id)))

omit [DecidableEq κ] in
/-- What was parsed does not matter. -/
theorem Walked.congr (h : Walked parsed derive order start walk) {walk' : GenerationWalk κ}
    (hknown : walk'.known = walk.known) (hsettled : walk'.settled = walk.settled) :
    Walked parsed derive order start walk' := by
  obtain ⟨known, settled, parses⟩ := walk'
  obtain rfl : known = walk.known := hknown
  obtain rfl : settled = walk.settled := hsettled
  exact ⟨h.kept, h.known_iff, h.nodup, h.settled, h.parents, h.value⟩

omit [DecidableEq κ] in
theorem maxKnown_congr {known known' : κ → Option ℕ} {parents : List κ}
    (h : ∀ parent ∈ parents, known parent = known' parent) :
    maxKnown known parents = maxKnown known' parents := by
  have hmap : (parents.map fun parent => (known parent).getD 0) =
      parents.map fun parent => (known' parent).getD 0 :=
    map_congr_left fun parent hmem => by rw [h parent hmem]
  rw [maxKnown, maxKnown, hmap]

/-- **A commit whose parents are known is settled.** -/
theorem Walked.settle (h : Walked parsed derive order start walk) {id : κ} (hlisted : id ∈ order)
    (hnew : walk.known id = none)
    (hparents : ∀ parent ∈ parentsOf parsed id, walk.known parent ≠ none) :
    Walked parsed derive order start (walk.settle id
      (derive (dateOf parsed id) (maxKnown walk.known (parentsOf parsed id)))) := by
  have hstart : start id = none := by
    by_contra hbase
    exact (h.known_iff id).mpr (.inl hbase) hnew
  have hunsettled : id ∉ walk.settled := fun hmem => (h.known_iff id).mpr (.inr hmem) hnew
  have hother : ∀ (value : ℕ) other, walk.known other ≠ none →
      (walk.settle id value).known other = walk.known other := by
    intro value other hknown
    refine walk.known_settle_of_ne value ?_
    rintro rfl
    exact hknown hnew
  generalize hvalue : derive (dateOf parsed id) (maxKnown walk.known (parentsOf parsed id)) = value
  have hmax : ∀ parents : List κ, (∀ parent ∈ parents, walk.known parent ≠ none) →
      maxKnown (walk.settle id value).known parents = maxKnown walk.known parents :=
    fun parents hall => maxKnown_congr fun parent hmem => hother value parent (hall parent hmem)
  have hmem : ∀ other, other ∈ (walk.settle id value).settled ↔ other ∈ walk.settled ∨ other = id :=
    fun other => mem_append.trans (or_congr_right mem_singleton)
  constructor
  · intro other hbase
    rw [hother value other ((h.known_iff other).mpr (.inl hbase)), h.kept other hbase]
  · intro other
    rw [hmem, ← or_assoc, ← h.known_iff]
    by_cases heq : other = id
    · subst heq
      rw [walk.known_settle_self]
      exact iff_of_true (Option.some_ne_none _) (.inr rfl)
    · rw [walk.known_settle_of_ne value heq, or_iff_left heq]
  · rw [GenerationWalk.settle, ← concat_eq_append]
    exact h.nodup.concat hunsettled
  · intro other hother
    rcases (hmem other).mp hother with hold | rfl
    · exact h.settled other hold
    · exact ⟨hlisted, hstart⟩
  · intro other hset parent hparent
    have hknown : walk.known parent ≠ none := by
      rcases (hmem other).mp hset with hold | rfl
      · exact h.parents other hold parent hparent
      · exact hparents parent hparent
    rwa [hother value parent hknown]
  · intro other hset
    rcases (hmem other).mp hset with hold | rfl
    · rw [hmax _ (h.parents other hold), hother value other
        ((h.known_iff other).mpr (.inr hold)), h.value other hold]
    · rw [hmax _ hparents, walk.known_settle_self, hvalue]

/-- Every parent of a listed commit is listed or known at the start, and the listed commits have no
cycle. -/
structure Closed (parsed : κ → Option (CommitGraphWriterCommit κ)) (order : List κ)
    (known : κ → Prop) : Prop where
  parents : ∀ id ∈ order, ∀ parent ∈ parentsOf parsed id, parent ∈ order ∨ known parent
  acyclic : Acyclic fun child parent =>
    child ∈ order ∧ parent ∈ order ∧ parent ∈ parentsOf parsed child

/-- The stack is a path of commits that are not known, from a commit to one of its ancestors. -/
structure Stacked (parsed : κ → Option (CommitGraphWriterCommit κ)) (order : List κ)
    (walk : GenerationWalk κ) (stack : List κ) : Prop where
  path : stack.IsChain fun parent child =>
    child ∈ order ∧ parent ∈ order ∧ parent ∈ parentsOf parsed child
  unknown : ∀ id ∈ stack, id ∈ order ∧ walk.known id = none

omit [DecidableEq κ] in
theorem Stacked.nodup {known : κ → Prop} (hclosed : Closed parsed order known) {stack : List κ}
    (h : Stacked parsed order walk stack) : stack.Nodup := by
  have hpasses : stack.Pairwise fun parent child => Passes (fun child parent =>
      child ∈ order ∧ parent ∈ order ∧ parent ∈ parentsOf parsed child) child parent := by
    have htrans : IsTrans κ fun parent child => Passes (fun child parent =>
        child ∈ order ∧ parent ∈ order ∧ parent ∈ parentsOf parsed child) child parent :=
      ⟨fun _ _ _ hab hbc => hbc.trans hab⟩
    exact isChain_iff_pairwise.mp (h.path.imp fun _ _ hedge => .of_parent hedge)
  refine hpasses.imp fun hpass heq => ?_
  subst heq
  exact hclosed.acyclic _ hpass

omit [DecidableEq κ] in
theorem Walked.length_le {known : κ → Prop} (hclosed : Closed parsed order known)
    (h : Walked parsed derive order start walk) {stack : List κ}
    (hstack : Stacked parsed order walk stack) :
    walk.settled.length + stack.length ≤ order.length := by
  have hnodup : (walk.settled ++ stack).Nodup := by
    refine nodup_append.mpr ⟨h.nodup, hstack.nodup hclosed, ?_⟩
    rintro id hsettled _ hmem rfl
    exact (h.known_iff id).mpr (.inr hsettled) (hstack.unknown id hmem).2
  rw [← length_append]
  refine (hnodup.subperm fun id hmem => ?_).length_le
  rcases mem_append.mp hmem with hsettled | hstacked
  · exact (h.settled id hsettled).1
  · exact (hstack.unknown id hstacked).1

/-- What holds at every turn of the stack. -/
structure Settling (parsed : κ → Option (CommitGraphWriterCommit κ)) (derive : ℤ → ℕ → ℕ)
    (order : List κ) (start : κ → Option ℕ) (before : GenerationWalk κ) (id : κ)
    (state : List κ × GenerationWalk κ) : Prop where
  walked : Walked parsed derive order start state.2
  stacked : Stacked parsed order state.2 state.1
  grown : ∀ other, before.known other ≠ none → state.2.known other ≠ none
  reached : id ∈ state.1 ∨ state.2.known id ≠ none

/-- **The turn of the stack.** It stacks a parent that is not known, or settles the top. -/
theorem settleTurn_spec (hclosed : Closed parsed order fun id => start id ≠ none)
    {before : GenerationWalk κ} {id : κ} {state : List κ × GenerationWalk κ}
    (h : Settling parsed derive order start before id state) :
    Returns (settleTurn parsed derive state) (Turn.Meets
      (fun walk => Walked parsed derive order start walk ∧ walk.known id ≠ none ∧
        ∀ other, before.known other ≠ none → walk.known other ≠ none)
      fun next => Settling parsed derive order start before id next ∧
        2 * (order.length - next.2.settled.length) - next.1.length <
          2 * (order.length - state.2.settled.length) - state.1.length) := by
  obtain ⟨stack, walk⟩ := state
  obtain ⟨hwalked, hstacked, hgrown, hreached⟩ := h
  dsimp only at hwalked hstacked hgrown hreached ⊢
  rw [settleTurn]
  cases stack with
  | nil => exact .pure ⟨hwalked, hreached.resolve_left not_mem_nil, hgrown⟩
  | cons current below =>
    have hbound := hwalked.length_le hclosed hstacked
    rw [length_cons] at hbound
    dsimp only
    obtain ⟨hknown, hsettled, hall, hsome⟩ :=
      firstUnknownParent_spec (parentsOf parsed current) walk
    generalize firstUnknownParent (parentsOf parsed current) walk = looked at *
    obtain ⟨found, walk'⟩ := looked
    dsimp only at hknown hsettled hall hsome ⊢
    have hsame := hwalked.congr hknown hsettled
    obtain ⟨hlisted, hnew⟩ := hstacked.unknown current mem_cons_self
    cases found with
    | some pending =>
      obtain ⟨hparent, hunknown⟩ := hsome pending rfl
      have hpending : pending ∈ order :=
        (hclosed.parents current hlisted pending hparent).resolve_right fun hbase =>
          (hwalked.known_iff pending).mpr (.inl hbase) hunknown
      have hstacked' : Stacked parsed order walk (pending :: current :: below) := by
        refine ⟨isChain_cons_cons.mpr ⟨⟨hlisted, hpending, hparent⟩, hstacked.path⟩, ?_⟩
        exact forall_mem_cons.mpr ⟨⟨hpending, hunknown⟩, hstacked.unknown⟩
      have hbound' := hwalked.length_le hclosed hstacked'
      rw [length_cons, length_cons] at hbound'
      refine .pure ⟨⟨hsame, ⟨hstacked'.path, ?_⟩, ?_, ?_⟩, ?_⟩
      · rw [hknown]
        exact hstacked'.unknown
      · rw [hknown]
        exact hgrown
      · rw [hknown]
        exact hreached.imp_left (mem_cons_of_mem _)
      · dsimp only
        rw [hsettled, length_cons, length_cons]
        omega
    | none =>
      have hnodup := hstacked.nodup hclosed
      rw [nodup_cons] at hnodup
      have hother : ∀ (value : ℕ) other, other ≠ current →
          (walk'.settle current value).known other = walk.known other :=
        fun value other hne => by rw [walk'.known_settle_of_ne value hne, hknown]
      refine .pure ⟨⟨hsame.settle hlisted (hknown ▸ hnew) (hknown ▸ hall rfl),
        ⟨hstacked.path.tail, fun other hmem => ?_⟩, fun other hbefore => ?_, ?_⟩, ?_⟩
      · obtain ⟨hin, hunknown⟩ := hstacked.unknown other (mem_cons_of_mem _ hmem)
        refine ⟨hin, ?_⟩
        rw [hother _ other fun heq => hnodup.1 (heq ▸ hmem)]
        exact hunknown
      · rw [hother _ other fun heq => hgrown other hbefore (heq ▸ hnew)]
        exact hgrown other hbefore
      · by_cases heq : id = current
        · subst heq
          rw [walk'.known_settle_self]
          exact .inr (Option.some_ne_none _)
        · rw [hother _ id heq]
          exact hreached.imp_left fun hmem => (mem_cons.mp hmem).resolve_left heq
      · dsimp only
        rw [GenerationWalk.settle, length_append, length_singleton, hsettled, length_cons]
        omega

/-- **The stack empties, with the commit settled.** -/
theorem settleFrom_spec (hclosed : Closed parsed order fun id => start id ≠ none)
    (h : Walked parsed derive order start walk) {id : κ} (hlisted : id ∈ order)
    (hnew : walk.known id = none) {fuel : ℕ} (hfuel : 2 * order.length < fuel) :
    Returns (settleFrom fuel parsed derive id walk) fun next =>
      Walked parsed derive order start next ∧ next.known id ≠ none ∧
        ∀ other, walk.known other ≠ none → next.known other ≠ none := by
  refine loop_spec (Settling parsed derive order start walk id)
    (fun state => 2 * (order.length - state.2.settled.length) - state.1.length)
    (fun state hstate => settleTurn_spec hclosed hstate) fuel _
    ⟨h, ⟨isChain_singleton _, ?_⟩, fun _ hknown => hknown, .inl (mem_singleton_self _)⟩ ?_
  · intro other hmem
    rw [mem_singleton.mp hmem]
    exact ⟨hlisted, hnew⟩
  · dsimp only
    omega

/-- What holds before the turns over the rest of the commits. -/
structure Walking (parsed : κ → Option (CommitGraphWriterCommit κ)) (derive : ℤ → ℕ → ℕ)
    (order : List κ) (start : κ → Option ℕ) (rest : List κ) (walk : GenerationWalk κ) : Prop where
  walked : Walked parsed derive order start walk
  listed : ∀ id ∈ rest, id ∈ order
  known : ∀ id ∈ order, id ∈ rest ∨ walk.known id ≠ none

/-- **The turn of a pass.** -/
theorem walkFrom_spec (hclosed : Closed parsed order fun id => start id ≠ none) {id : κ}
    {rest : List κ} (h : Walking parsed derive order start (id :: rest) walk) {fuel : ℕ}
    (hfuel : 2 * order.length < fuel) :
    Returns (walkFrom fuel parsed derive walk id) (Walking parsed derive order start rest) := by
  have hparsed : Walked parsed derive order start (walk.parse id) := h.walked.congr rfl rfl
  obtain ⟨hid, hrest⟩ := forall_mem_cons.mp h.listed
  have hmore : ∀ next : GenerationWalk κ, next.known id ≠ none →
      (∀ other, walk.known other ≠ none → next.known other ≠ none) →
      ∀ other ∈ order, other ∈ rest ∨ next.known other ≠ none := by
    intro next hself hgrown other hother
    rcases h.known other hother with hmem | hknown
    · rcases mem_cons.mp hmem with rfl | hlater
      · exact .inr hself
      · exact .inl hlater
    · exact .inr (hgrown other hknown)
  rw [walkFrom]
  by_cases hknown : walk.known id = none
  · rw [if_neg (by rw [hknown]; exact Bool.false_ne_true)]
    refine (settleFrom_spec hclosed hparsed hid hknown hfuel).mono ?_
    rintro next ⟨hnext, hself, hgrown⟩
    exact ⟨hnext, hrest, hmore next hself hgrown⟩
  · rw [if_pos (Option.isSome_iff_ne_none.mpr hknown)]
    exact .pure ⟨hparsed, hrest, hmore _ hknown fun _ h => h⟩

/-- **A pass settles each listed commit once**, from what is known at its start. -/
theorem walkGenerations_spec (derive : ℤ → ℕ → ℕ)
    (hclosed : Closed parsed order fun id => start id ≠ none) (parses : List κ) :
    ∃ walk, Yields (fun fuel => walkGenerations fuel parsed derive ⟨start, [], parses⟩ order) walk ∧
      Walked parsed derive order start walk ∧ ∀ id ∈ order, walk.known id ≠ none := by
  have hbegin : Walked parsed derive order start ⟨start, [], parses⟩ := by
    refine ⟨fun _ _ => rfl, fun id => ?_, nodup_nil, ?_, ?_, ?_⟩
    · exact (or_iff_left not_mem_nil).symm
    all_goals exact forall_mem_nil _
  have hbegins : Walking parsed derive order start order ⟨start, [], parses⟩ :=
    ⟨hbegin, fun _ hmem => hmem, fun _ hmem => .inl hmem⟩
  obtain ⟨walk, hrun, hends⟩ := foldM_spec
    (fun _ _ _ h => walkFrom_spec hclosed h (Nat.lt_succ_self (2 * order.length))) hbegins
  refine ⟨walk, .of_extends (fun hle => ?_) hrun, hends.walked, fun id hid =>
    (hends.known id hid).resolve_left not_mem_nil⟩
  refine Extends.foldlM (fun walk id => ?_) _ _
  rw [walkFrom, walkFrom]
  split
  · exact .refl _
  · exact Extends.loop (fun _ => .refl _) hle _

/-- **What a pass comes to has nothing to do with the order of the commits.** -/
theorem Walked.unique {order' : List κ} {walk' : GenerationWalk κ}
    (hclosed : Closed parsed order fun id => start id ≠ none)
    (h : Walked parsed derive order start walk) (hall : ∀ id ∈ order, walk.known id ≠ none)
    (h' : Walked parsed derive order' start walk') (hall' : ∀ id ∈ order', walk'.known id ≠ none)
    (hsame : ∀ id, id ∈ order' ↔ id ∈ order) : walk'.known = walk.known := by
  by_contra hne
  obtain ⟨id, hid⟩ := Function.ne_iff.mp hne
  have hlisted : ∀ other, walk'.known other ≠ walk.known other →
      other ∈ walk.settled ∧ other ∈ walk'.settled := by
    intro other hdiffers
    have hnew : start other = none := by
      by_contra hbase
      exact hdiffers (by rw [h'.kept other hbase, h.kept other hbase])
    have hin : other ∈ order := by
      by_contra hout
      have hnone : ∀ {order : List κ} {walk : GenerationWalk κ},
          Walked parsed derive order start walk → other ∉ order → walk.known other = none := by
        intro order walk hwalked hnot
        by_contra hknown
        rcases (hwalked.known_iff other).mp hknown with hbase | hsettled
        · exact hbase hnew
        · exact hnot (hwalked.settled other hsettled).1
      exact hdiffers (by rw [hnone h hout, hnone h' fun hmem => hout ((hsame other).mp hmem)])
    exact ⟨((h.known_iff other).mp (hall other hin)).resolve_left fun hbase => hbase hnew,
      ((h'.known_iff other).mp (hall' other ((hsame other).mpr hin))).resolve_left
        fun hbase => hbase hnew⟩
  have hflipped : Acyclic fun parent child : κ =>
      child ∈ order ∧ parent ∈ order ∧ parent ∈ parentsOf parsed child := by
    intro other hcycle
    exact hclosed.acyclic other (Relation.transGen_swap.mp hcycle)
  have hfinite : {other | other ∈ order ∧ walk'.known other ≠ walk.known other}.Finite :=
    order.toFinset.finite_toSet.subset fun other hother => mem_toFinset.mpr hother.1
  obtain ⟨low, ⟨hlow, hdiffers⟩, -, hnothing⟩ := exists_irreducible hflipped hfinite
    (show id ∈ {other | other ∈ order ∧ walk'.known other ≠ walk.known other} from
      ⟨(h.settled id (hlisted id hid).1).1, hid⟩)
  obtain ⟨hset, hset'⟩ := hlisted low hdiffers
  refine hdiffers ?_
  rw [h.value low hset, h'.value low hset']
  congr 2
  refine maxKnown_congr fun parent hparent => ?_
  by_contra hother
  have hin := (h.settled parent (hlisted parent hother).1).1
  exact hnothing parent ⟨hin, hother⟩ (.of_parent ⟨hlow, hin, hparent⟩)

theorem walkGenerations_any (hclosed : Closed parsed order fun id => start id ≠ none) {walk}
    (h : Walked parsed derive order start walk) (hall : ∀ id ∈ order, walk.known id ≠ none)
    {order' : List κ} (hsame : ∀ id, id ∈ order' ↔ id ∈ order) (parses : List κ) :
    ∃ walk', Yields (fun fuel => walkGenerations fuel parsed derive ⟨start, [], parses⟩ order')
        walk' ∧ Walked parsed derive order' start walk' ∧
      (∀ id ∈ order', walk'.known id ≠ none) ∧ walk'.known = walk.known := by
  have hclosed' : Closed parsed order' fun id => start id ≠ none := by
    obtain ⟨hparents, hacyclic⟩ := hclosed
    constructor
    · intro id hid parent hparent
      rw [hsame]
      exact hparents id ((hsame id).mp hid) parent hparent
    · simpa only [hsame] using hacyclic
  obtain ⟨walk', hrun, hwalked, hall'⟩ := walkGenerations_spec derive hclosed' parses
  exact ⟨walk', hrun, hwalked, hall', h.unique hclosed hall hwalked hall' hsame⟩

omit [DecidableEq κ] in
theorem Walked.known_iff_listed (h : Walked parsed derive order start walk)
    (hall : ∀ id ∈ order, walk.known id ≠ none) (id : κ) :
    walk.known id ≠ none ↔ id ∈ order ∨ start id ≠ none := by
  constructor
  · intro hknown
    rcases (h.known_iff id).mp hknown with hbase | hsettled
    · exact .inr hbase
    · exact .inl (h.settled id hsettled).1
  · rintro (hlisted | hbase)
    · exact hall id hlisted
    · exact (h.known_iff id).mpr (.inl hbase)

omit [DecidableEq κ] in
theorem Walked.mem_settled (h : Walked parsed derive order start walk)
    (hall : ∀ id ∈ order, walk.known id ≠ none) (id : κ) :
    id ∈ walk.settled ↔ id ∈ order ∧ start id = none := by
  constructor
  · exact h.settled id
  · rintro ⟨hlisted, hnew⟩
    exact ((h.known_iff id).mp (hall id hlisted)).resolve_left fun hbase => hbase hnew

end

/-! ### Both passes -/

section

variable {parsed : κ → Option (CommitGraphWriterCommit κ)} {order : List κ}
  {base : κ → Option CommitGraphGeneration}

def baseDate (pass : CorrectedDatePass) (generation : CommitGraphGeneration) : ℕ :=
  match pass with
  | .trusted => generation.correctedDate
  | _ => generation.level

/-- The highest of a value over some commits, 0 where there are none. -/
def highest (generations : κ → Option CommitGraphGeneration) (field : CommitGraphGeneration → ℕ)
    (ids : List κ) : ℕ :=
  maxKnown (fun id => (generations id).map field) ids

def LevelsRise (parsed : κ → Option (CommitGraphWriterCommit κ)) (order : List κ)
    (base generations : κ → Option CommitGraphGeneration) : Prop :=
  ∀ id ∈ order, base id = none → ∃ generation, generations id = some generation ∧ generation.level =
      min (highest generations (·.level) (parentsOf parsed id) + 1) MAX_TOPOLOGICAL_LEVEL

def DatesRise (parsed : κ → Option (CommitGraphWriterCommit κ)) (order : List κ)
    (base generations : κ → Option CommitGraphGeneration) : Prop :=
  ∀ id ∈ order, base id = none → ∃ generation, generations id = some generation ∧
    (generation.correctedDate : ℤ) = max (dateOf parsed id)
      (highest generations (·.correctedDate) (parentsOf parsed id) + 1)

variable {levels dates : GenerationWalk κ}

omit [DecidableEq κ] in
theorem generationOf_level
    (hboth : ∀ id, levels.known id ≠ none ↔ dates.known id ≠ none) :
    (fun id => (generationOf levels dates id).map (·.level)) = levels.known := by
  funext id
  have hthis := hboth id
  rw [generationOf]
  cases hlevel : levels.known id with
  | none => rfl
  | some level =>
    rw [hlevel] at hthis
    obtain ⟨date, hdate⟩ :=
      Option.ne_none_iff_exists'.mp (hthis.mp (Option.some_ne_none level))
    rw [hdate]
    rfl

omit [DecidableEq κ] in
theorem generationOf_correctedDate
    (hboth : ∀ id, levels.known id ≠ none ↔ dates.known id ≠ none) :
    (fun id => (generationOf levels dates id).map (·.correctedDate)) = dates.known := by
  funext id
  have hthis := hboth id
  rw [generationOf]
  cases hlevel : levels.known id with
  | none =>
    rw [hlevel] at hthis
    by_contra hne
    exact hthis.mpr (Ne.symm hne) rfl
  | some level =>
    rw [hlevel] at hthis
    obtain ⟨date, hdate⟩ :=
      Option.ne_none_iff_exists'.mp (hthis.mp (Option.some_ne_none level))
    rw [hdate]
    rfl

omit [DecidableEq κ] in
theorem baseGenerations_ne_none (field : CommitGraphGeneration → ℕ) (id : κ) :
    baseGenerations base field id ≠ none ↔ base id ≠ none :=
  not_congr Option.map_eq_none_iff

def SettledOnce (order : List κ) (base : κ → Option CommitGraphGeneration)
    (walk : GenerationWalk κ) : Prop :=
  walk.settled.Nodup ∧ ∀ id, id ∈ walk.settled ↔ id ∈ order ∧ base id = none

/-- A whole pass over the values that the base has. -/
structure Passed (parsed : κ → Option (CommitGraphWriterCommit κ)) (derive : ℤ → ℕ → ℕ)
    (order : List κ) (base : κ → Option CommitGraphGeneration) (field : CommitGraphGeneration → ℕ)
    (walk : GenerationWalk κ) : Prop where
  walked : Walked parsed derive order (baseGenerations base field) walk
  known : ∀ id ∈ order, walk.known id ≠ none

variable {derive : ℤ → ℕ → ℕ} {field : CommitGraphGeneration → ℕ} {walk : GenerationWalk κ}

omit [DecidableEq κ] in
theorem Passed.known_iff (h : Passed parsed derive order base field walk) (id : κ) :
    walk.known id ≠ none ↔ id ∈ order ∨ base id ≠ none := by
  rw [h.walked.known_iff_listed h.known, baseGenerations_ne_none]

omit [DecidableEq κ] in
theorem Passed.known_base (h : Passed parsed derive order base field walk) {id : κ}
    {entry : CommitGraphGeneration} (hentry : base id = some entry) :
    walk.known id = some (field entry) := by
  have hbase : base id ≠ none := by
    rw [hentry]
    exact Option.some_ne_none entry
  rw [h.walked.kept id ((baseGenerations_ne_none field id).mpr hbase), baseGenerations, hentry]
  rfl

omit [DecidableEq κ] in
theorem Passed.settledOnce (h : Passed parsed derive order base field walk) :
    SettledOnce order base walk := by
  refine ⟨h.walked.nodup, fun id => ?_⟩
  rw [h.walked.mem_settled h.known, baseGenerations, Option.map_eq_none_iff]

omit [DecidableEq κ] in
theorem Passed.value (h : Passed parsed derive order base field walk) {id : κ}
    (hlisted : id ∈ order) (hnew : base id = none) : walk.known id =
      some (derive (dateOf parsed id) (maxKnown walk.known (parentsOf parsed id))) :=
  h.walked.value id (h.settledOnce.2 id |>.mpr ⟨hlisted, hnew⟩)

omit [DecidableEq κ] in
theorem Closed.ofBase (hclosed : Closed parsed order fun id => base id ≠ none)
    (field : CommitGraphGeneration → ℕ) :
    Closed parsed order fun id => baseGenerations base field id ≠ none := by
  simpa only [baseGenerations_ne_none] using hclosed

/-- **A pass for its commits in any order.** -/
theorem passes (hclosed : Closed parsed order fun id => base id ≠ none) (derive : ℤ → ℕ → ℕ)
    (field : CommitGraphGeneration → ℕ) :
    ∃ known : κ → Option ℕ, ∀ (order' parses : List κ), (∀ id, id ∈ order' ↔ id ∈ order) →
      ∃ walk, Yields (fun fuel => walkGenerations fuel parsed derive
          ⟨baseGenerations base field, [], parses⟩ order') walk ∧
        Passed parsed derive order' base field walk ∧ walk.known = known := by
  have hopen := hclosed.ofBase field
  obtain ⟨walk, -, hwalked, hall⟩ := walkGenerations_spec derive hopen []
  refine ⟨walk.known, fun order' parses hsame => ?_⟩
  obtain ⟨walk', hrun, hwalked', hall', hknown⟩ :=
    walkGenerations_any hopen hwalked hall hsame parses
  exact ⟨walk', hrun, ⟨hwalked', hall'⟩, hknown⟩

omit [DecidableEq κ] in
theorem generationOf_congr {levels' dates' : GenerationWalk κ}
    (hlevels : levels'.known = levels.known) (hdates : dates'.known = dates.known) :
    generationOf levels' dates' = generationOf levels dates := by
  funext id
  rw [generationOf, generationOf, hlevels, hdates]

theorem deriveLevel_eq (date : ℤ) (maxParent : ℕ) :
    deriveLevel date maxParent = min (maxParent + 1) MAX_TOPOLOGICAL_LEVEL := by
  have hcap : MAX_TOPOLOGICAL_LEVEL = MAX_TOPOLOGICAL_LEVEL - 1 + 1 := rfl
  rw [deriveLevel]
  omega

theorem deriveCorrectedDate_eq (date : ℤ) (maxParent : ℕ) :
    (deriveCorrectedDate date maxParent : ℤ) = max date (maxParent + 1) := by
  rw [deriveCorrectedDate]
  split
  · omega
  · push_cast
    omega

/-- What the two passes come to together. -/
structure Generations (parsed : κ → Option (CommitGraphWriterCommit κ)) (order : List κ)
    (base : κ → Option CommitGraphGeneration) (pass : CorrectedDatePass)
    (generations : κ → Option CommitGraphGeneration) : Prop where
  known : ∀ id, generations id ≠ none ↔ id ∈ order ∨ base id ≠ none
  kept : ∀ id entry, base id = some entry → generations id = some ⟨entry.level, baseDate pass entry⟩
  levels : LevelsRise parsed order base generations
  skipped : pass = .skipped → ∀ id generation, generations id = some generation →
    generation.correctedDate = generation.level
  dates : pass ≠ .skipped → DatesRise parsed order base generations

omit [DecidableEq κ] in
theorem generations_of_passed {pass : CorrectedDatePass}
    (hlevels : Passed parsed deriveLevel order base (·.level) levels)
    (hskipped : pass = .skipped → dates = levels)
    (hdates : pass ≠ .skipped →
      Passed parsed deriveCorrectedDate order base (baseDate pass) dates) :
    Generations parsed order base pass (generationOf levels dates) := by
  have hdated : ∀ id, dates.known id ≠ none ↔ id ∈ order ∨ base id ≠ none := by
    by_cases hpass : pass = .skipped
    · rw [hskipped hpass]
      exact hlevels.known_iff
    · exact (hdates hpass).known_iff
  have hboth : ∀ id, levels.known id ≠ none ↔ dates.known id ≠ none :=
    fun id => (hlevels.known_iff id).trans (hdated id).symm
  have hlevel := generationOf_level hboth
  have hdate := generationOf_correctedDate hboth
  have hsome : ∀ {id level date}, levels.known id = some level → dates.known id = some date →
      generationOf levels dates id = some ⟨level, date⟩ := by
    intro id level date hl hd
    rw [generationOf, hl, hd]
    rfl
  have hfound : ∀ {id}, id ∈ order ∨ base id ≠ none → ∃ generation,
      generationOf levels dates id = some generation ∧ levels.known id = some generation.level ∧
        dates.known id = some generation.correctedDate := by
    intro id hid
    obtain ⟨level, hl⟩ := Option.ne_none_iff_exists'.mp ((hlevels.known_iff id).mpr hid)
    obtain ⟨date, hd⟩ := Option.ne_none_iff_exists'.mp ((hdated id).mpr hid)
    exact ⟨⟨level, date⟩, hsome hl hd, hl, hd⟩
  refine ⟨fun id => ?_, fun id entry hentry => ?_, fun id hlisted hnew => ?_,
    fun hpass id generation hgeneration => ?_, fun hpass id hlisted hnew => ?_⟩
  · rw [← hlevels.known_iff, ← hlevel]
    exact (not_congr Option.map_eq_none_iff).symm
  · refine hsome (hlevels.known_base hentry) ?_
    by_cases hpass : pass = .skipped
    · subst hpass
      rw [hskipped rfl]
      exact hlevels.known_base hentry
    · exact (hdates hpass).known_base hentry
  · obtain ⟨generation, hgeneration, hl, -⟩ := hfound (.inl hlisted)
    refine ⟨generation, hgeneration, ?_⟩
    rw [highest, hlevel, ← deriveLevel_eq (dateOf parsed id)]
    exact Option.some.inj (hl.symm.trans (hlevels.value hlisted hnew))
  · have hknown : levels.known id ≠ none := by
      rw [← congrFun hlevel id, hgeneration]
      exact Option.some_ne_none _
    obtain ⟨other, hother, hl, hd⟩ := hfound ((hlevels.known_iff id).mp hknown)
    obtain rfl := Option.some.inj (hgeneration.symm.trans hother)
    rw [hskipped hpass, hl] at hd
    exact (Option.some.inj hd).symm
  · obtain ⟨generation, hgeneration, -, hd⟩ := hfound (.inl hlisted)
    refine ⟨generation, hgeneration, ?_⟩
    rw [highest, hdate, ← deriveCorrectedDate_eq]
    exact congrArg _ (Option.some.inj (hd.symm.trans ((hdates hpass).value hlisted hnew)))

theorem computeCommitGraphGenerations_yields {pass : CorrectedDatePass}
    (hlevels : Yields (fun fuel => walkLevels fuel parsed order base) levels)
    (hdates : Yields (fun fuel => datesFor fuel parsed order base levels pass) dates) :
    Yields (fun fuel => computeCommitGraphGenerations fuel parsed order base pass)
      (generationOf levels dates) := by
  obtain ⟨enough, hrun⟩ := hlevels
  obtain ⟨enough', hrun'⟩ := hdates
  refine ⟨max enough enough', fun fuel hfuel => ?_⟩
  dsimp only at hrun hrun' ⊢
  rw [computeCommitGraphGenerations, hrun fuel (le_of_max_le_left hfuel), pure_bind,
    hrun' fuel (le_of_max_le_right hfuel), pure_bind]

theorem datesFor_spec (hclosed : Closed parsed order fun id => base id ≠ none)
    (pass : CorrectedDatePass) (known : κ → Option ℕ) :
    ∃ dated : κ → Option ℕ, ∀ (order' : List κ) (levels : GenerationWalk κ),
      (∀ id, id ∈ order' ↔ id ∈ order) → levels.known = known → ∃ dates,
        Yields (fun fuel => datesFor fuel parsed order' base levels pass) dates ∧
          (pass = .skipped → dates = levels) ∧
          (pass ≠ .skipped → Passed parsed deriveCorrectedDate order' base (baseDate pass) dates) ∧
          dates.known = dated := by
  obtain ⟨dated, hdated⟩ := passes hclosed deriveCorrectedDate (baseDate pass)
  cases pass with
  | skipped =>
    exact ⟨known, fun order' levels _ hknown => ⟨levels, ⟨0, fun _ _ => rfl⟩, fun _ => rfl,
      fun h => absurd rfl h, hknown⟩⟩
  | trusted =>
    refine ⟨dated, fun order' levels hsame _ => ?_⟩
    obtain ⟨dates, hrun, hpassed, hknown⟩ := hdated order' [] hsame
    exact ⟨dates, hrun, fun h => (by cases h), fun _ => hpassed, hknown⟩
  | untrusted =>
    refine ⟨dated, fun order' levels hsame _ => ?_⟩
    obtain ⟨dates, hrun, hpassed, hknown⟩ := hdated order' order' hsame
    exact ⟨dates, hrun, fun h => (by cases h), fun _ => hpassed, hknown⟩

/-- **The generations of the commits that are written.** Both passes settle each commit once. The
levels rise by one, capped; so do the corrected dates, over the base's dates or its levels. -/
theorem computeCommitGraphGenerations_exact
    (hclosed : Closed parsed order fun id => base id ≠ none) (pass : CorrectedDatePass) :
    ∃ generations, Generations parsed order base pass generations ∧
      ∀ order', (∀ id, id ∈ order' ↔ id ∈ order) →
        Yields (fun fuel => computeCommitGraphGenerations fuel parsed order' base pass)
          generations ∧
        (∃ walk, Yields (fun fuel => walkLevels fuel parsed order' base) walk ∧
          SettledOnce order base walk) ∧
        ∀ untrusted, ∃ walk,
          Yields (fun fuel => walkCorrectedDates fuel parsed order' base untrusted) walk ∧
            SettledOnce order base walk := by
  obtain ⟨known, hknown⟩ := passes hclosed deriveLevel (·.level)
  obtain ⟨dated, hdated⟩ := datesFor_spec hclosed pass known
  have honce : ∀ {order'} {walk : GenerationWalk κ}, (∀ id, id ∈ order' ↔ id ∈ order) →
      SettledOnce order' base walk → SettledOnce order base walk :=
    fun hsame h => ⟨h.1, fun id => by rw [h.2, hsame]⟩
  obtain ⟨levels, -, hlevels, hlevel⟩ := hknown order [] fun _ => Iff.rfl
  obtain ⟨dates, -, hskipped, hdates, hdate⟩ := hdated order levels (fun _ => Iff.rfl) hlevel
  refine ⟨generationOf levels dates, generations_of_passed hlevels hskipped hdates,
    fun order' hsame => ⟨?_, ?_, fun untrusted => ?_⟩⟩
  · obtain ⟨levels', hrun, -, hlevel'⟩ := hknown order' [] hsame
    obtain ⟨dates', hrun', -, -, hdate'⟩ := hdated order' levels' hsame hlevel'
    rw [← generationOf_congr (hlevel'.trans hlevel.symm) (hdate'.trans hdate.symm)]
    exact computeCommitGraphGenerations_yields hrun hrun'
  · obtain ⟨levels', hrun, hpassed, -⟩ := hknown order' [] hsame
    exact ⟨levels', hrun, honce hsame hpassed.settledOnce⟩
  · obtain ⟨_, hall⟩ := passes hclosed deriveCorrectedDate
      fun generation => if untrusted then generation.level else generation.correctedDate
    obtain ⟨walk, hrun, hpassed, -⟩ := hall order' (if untrusted then order' else []) hsame
    exact ⟨walk, hrun, honce hsame hpassed.settledOnce⟩

/-- A commit over a parent that the base layers hold. -/
def oneOverBase : ℕ → Option (CommitGraphWriterCommit ℕ) :=
  fun id => if id = 1 then some ⟨[0], 10⟩ else none

/-- The parent's values. -/
def baseOfOne : ℕ → Option CommitGraphGeneration :=
  fun id => if id = 0 then some ⟨3, 50⟩ else none

theorem oneOverBase_closed : Closed oneOverBase [1] fun id => baseOfOne id ≠ none where
  parents := by decide
  acyclic := by
    intro id hcycle
    refine lt_irrefl id (hcycle.lt (fun id => id) ?_)
    rintro child parent ⟨hchild, hparent, hmem⟩
    rw [mem_singleton.mp hchild, mem_singleton.mp hparent] at hmem
    exact absurd hmem (by decide)

theorem computeCommitGraphGenerations_exact_oneOverBase :
    ∃ generations, Generations oneOverBase [1] baseOfOne .trusted generations ∧
      ∀ order', (∀ id, id ∈ order' ↔ id ∈ [1]) →
        Yields (fun fuel => computeCommitGraphGenerations fuel oneOverBase order' baseOfOne
          .trusted) generations ∧
        (∃ walk, Yields (fun fuel => walkLevels fuel oneOverBase order' baseOfOne) walk ∧
          SettledOnce [1] baseOfOne walk) ∧
        ∀ untrusted, ∃ walk,
          Yields (fun fuel => walkCorrectedDates fuel oneOverBase order' baseOfOne untrusted)
            walk ∧ SettledOnce [1] baseOfOne walk :=
  computeCommitGraphGenerations_exact oneOverBase_closed .trusted

/-- **A pass that is skipped computes no date**: the level stands in for it, and is below the
commit's own. -/
theorem skipped_computes_no_date :
    ∃ generations, Yields (fun fuel => computeCommitGraphGenerations fuel oneOverBase [1]
        baseOfOne .skipped) generations ∧ ¬DatesRise oneOverBase [1] baseOfOne generations := by
  let walk : GenerationWalk ℕ :=
    (((⟨baseGenerations baseOfOne (·.level), [], []⟩ : GenerationWalk ℕ).parse 1).parse 0).settle
      1 4
  refine ⟨generationOf walk walk, ⟨3, fun fuel hfuel => ?_⟩, fun hrise => ?_⟩
  · obtain ⟨more, rfl⟩ := Nat.exists_eq_add_of_le' hfuel
    rfl
  · obtain ⟨generation, hgeneration, hdate⟩ := hrise 1 (mem_singleton_self _) rfl
    have hfour : generation = ⟨4, 4⟩ := (Option.some.inj hgeneration).symm
    have hown : (10 : ℤ) ≤ generation.correctedDate := hdate ▸ le_max_left _ _
    rw [hfour] at hown
    exact absurd hown (by decide)

end

end Tsgit.CommitGraphWriter
