import Mathlib.Data.Set.Card
import Tsgit.Ancestry
import Tsgit.Loop

/-!
# The Next Commit of a Bisection

The choice of the candidate to test (`src/domain/bisect/find-bisection.ts` and
`src/domain/bisect/weight.ts`).
-/

namespace Tsgit.Bisect

open Ancestry List Run Function

variable {κ : Type} [DecidableEq κ]

/-- A candidate, with its parents among the candidates. -/
structure BisectCandidate (κ : Type) where
  id : κ
  parents : List κ
  deriving DecidableEq

structure Bisection (κ : Type) where
  nextCommit : κ
  candidateCount : ℕ
  reaches : ℕ
  deriving DecidableEq

/-- Where the source reads `undefined` as a candidate or a number. -/
inductive BisectError
  | undefinedCandidate
  | undefinedWeight
  deriving DecidableEq

abbrev Weights (κ : Type) := κ → Option ℕ

/-! ### The walk -/

def addById (byId : κ → Option (BisectCandidate κ)) (c : BisectCandidate κ) :
    κ → Option (BisectCandidate κ) := update byId c.id (some c)

/-- The map from ids to candidates. -/
def byIdOf (candidates : List (BisectCandidate κ)) : κ → Option (BisectCandidate κ) :=
  candidates.foldl addById fun _ => none

def countTurn (byId : κ → Option (BisectCandidate κ)) (state : List κ × List κ) :
    Run BisectError (Turn (List κ × List κ) ℕ) :=
  match state.2 with
  | [] => pure (.stop state.1.length)
  | id :: stack =>
    if state.1.contains id then pure (.again (state.1, stack))
    else
      match byId id with
      | none => throw .undefinedCandidate
      | some candidate =>
        let visited := id :: state.1
        pure (.again (visited,
          (candidate.parents.filter fun parentId => !visited.contains parentId).reverse ++ stack))

/-- The number of candidates that one reaches. -/
def countDistance (fuel : ℕ) (startId : κ) (byId : κ → Option (BisectCandidate κ)) :
    Run BisectError ℕ :=
  loop (countTurn byId) fuel ([], [startId])

/-! ### The search -/

def approxHalfway (weight all : ℕ) : Bool :=
  let diff : ℤ := 2 * weight - all
  diff ≥ -1 ∧ diff ≤ 1

/-- How well a weight halves the candidates. -/
def distOf (weight all : ℕ) : ℤ := min (weight : ℤ) (all - weight)

def bestFrom (weights : Weights κ) (all : ℕ) :
    List (BisectCandidate κ) → κ × ℕ → Run BisectError (κ × ℕ)
  | [], best => pure best
  | c :: rest, best =>
    match weights c.id with
    | none => throw .undefinedWeight
    | some w =>
      bestFrom weights all rest (if distOf w all > distOf best.2 all then (c.id, w) else best)

def bestBisection (candidates : List (BisectCandidate κ)) (weights : Weights κ) (all : ℕ) :
    Run BisectError (κ × ℕ) :=
  match candidates with
  | [] => throw .undefinedCandidate
  | first :: rest =>
    match weights first.id with
    | none => throw .undefinedWeight
    | some w => bestFrom weights all rest (first.id, w)

def seedOne (weights : Weights κ) (c : BisectCandidate κ) : Weights κ :=
  if c.parents.length = 0 then update weights c.id (some 1) else weights

def seedWeights (candidates : List (BisectCandidate κ)) (weights : Weights κ) : Weights κ :=
  candidates.foldl seedOne weights

def mergeWeights (fuel : ℕ) (byId : κ → Option (BisectCandidate κ)) (all : ℕ) :
    List (BisectCandidate κ) → Weights κ → Run BisectError (Weights κ × Option (Bisection κ))
  | [], weights => pure (weights, none)
  | c :: rest, weights =>
    if c.parents.length < 2 then mergeWeights fuel byId all rest weights
    else do
      let w ← countDistance fuel c.id byId
      if approxHalfway w all then
        return (update weights c.id (some w), some ⟨c.id, all, w⟩)
      else mergeWeights fuel byId all rest (update weights c.id (some w))

def tryFillOne (c : BisectCandidate κ) (weights : Weights κ) : Option ℕ :=
  if (weights c.id).isSome ∨ c.parents.length ≠ 1 then none
  else (c.parents.head?.bind weights).map (· + 1)

/-- One pass: the weights, whether any was set, and one that is about half. -/
def fillPass (all : ℕ) : List (BisectCandidate κ) → Weights κ → Bool →
    Weights κ × Bool × Option (Bisection κ)
  | [], weights, changed => (weights, changed, none)
  | c :: rest, weights, changed =>
    match tryFillOne c weights with
    | none => fillPass all rest weights changed
    | some w =>
      if approxHalfway w all then
        (update weights c.id (some w), true, some ⟨c.id, all, w⟩)
      else fillPass all rest (update weights c.id (some w)) true

def fillTurn (candidates : List (BisectCandidate κ)) (all : ℕ) (weights : Weights κ) :
    Run BisectError (Turn (Weights κ) (Weights κ × Option (Bisection κ))) :=
  let (weights', changed, outcome) := fillPass all candidates weights false
  match outcome with
  | some bisection => pure (.stop (weights', some bisection))
  | none => if changed then pure (.again weights') else pure (.stop (weights', none))

def fillWeights (fuel : ℕ) (candidates : List (BisectCandidate κ)) (all : ℕ)
    (weights : Weights κ) : Run BisectError (Weights κ × Option (Bisection κ)) :=
  loop (fillTurn candidates all) fuel weights

def findBisection (fuel : ℕ) (candidates : List (BisectCandidate κ)) :
    Run BisectError (Option (Bisection κ)) :=
  if candidates.isEmpty then pure none
  else do
    let all := candidates.length
    let byId := byIdOf candidates
    let (weights, mergeResult) ←
      mergeWeights fuel byId all candidates (seedWeights candidates fun _ => none)
    match mergeResult with
    | some bisection => return some bisection
    | none =>
      let (weights, fillResult) ← fillWeights fuel candidates all weights
      match fillResult with
      | some bisection => return some bisection
      | none =>
        let best ← bestBisection candidates weights all
        return some ⟨best.1, all, best.2⟩

/-! ### Candidates -/

def Parent (candidates : List (BisectCandidate κ)) (id parentId : κ) : Prop :=
  ∃ c ∈ candidates, c.id = id ∧ parentId ∈ c.parents

/-- Candidates of distinct ids, with parents among them and no cycle. -/
structure CandidateList (candidates : List (BisectCandidate κ)) : Prop where
  nodup : (candidates.map (·.id)).Nodup
  parents : ∀ c ∈ candidates, ∀ parentId ∈ c.parents, parentId ∈ candidates.map (·.id)
  acyclic : Acyclic (Parent candidates)

/-- The number of candidates that one reaches, itself included. -/
noncomputable def weightOf (candidates : List (BisectCandidate κ)) (id : κ) : ℕ :=
  {d | Reaches (Parent candidates) id d}.ncard

variable {candidates : List (BisectCandidate κ)}

theorem foldl_byId (candidates : List (BisectCandidate κ))
    (byId : κ → Option (BisectCandidate κ)) (hnodup : (candidates.map (·.id)).Nodup) (id : κ)
    (c : BisectCandidate κ) :
    candidates.foldl addById byId id = some c ↔
      c ∈ candidates ∧ c.id = id ∨ id ∉ candidates.map (·.id) ∧ byId id = some c := by
  induction candidates generalizing byId with
  | nil => simp
  | cons first rest ih =>
    rw [map_cons, nodup_cons] at hnodup
    rw [foldl_cons, ih _ hnodup.2, mem_cons, map_cons, mem_cons]
    by_cases hid : id = first.id
    · subst hid
      rw [addById, update_self, Option.some.injEq]
      constructor
      · rintro (⟨hmem, hc⟩ | ⟨-, rfl⟩)
        · exact .inl ⟨.inr hmem, hc⟩
        · exact .inl ⟨.inl rfl, rfl⟩
      · rintro (⟨rfl | hmem, hc⟩ | ⟨hnot, -⟩)
        · exact .inr ⟨hnodup.1, rfl⟩
        · exact .inl ⟨hmem, hc⟩
        · exact absurd (.inl rfl) hnot
    · rw [addById, update_of_ne hid]
      constructor
      · rintro (⟨hmem, hc⟩ | ⟨hnot, hget⟩)
        · exact .inl ⟨.inr hmem, hc⟩
        · exact .inr ⟨fun h => h.elim hid hnot, hget⟩
      · rintro (⟨rfl | hmem, hc⟩ | ⟨hnot, hget⟩)
        · exact absurd hc.symm hid
        · exact .inl ⟨hmem, hc⟩
        · exact .inr ⟨fun h => hnot (.inr h), hget⟩

variable {c : BisectCandidate κ}

theorem CandidateList.byId_iff (h : CandidateList candidates) {id : κ} :
    byIdOf candidates id = some c ↔ c ∈ candidates ∧ c.id = id := by
  rw [byIdOf, foldl_byId candidates _ h.nodup]
  exact or_iff_left fun hnone => by cases hnone.2

/-- Two candidates of one id are one. -/
theorem CandidateList.unique (h : CandidateList candidates) {a b : BisectCandidate κ}
    (ha : a ∈ candidates) (hb : b ∈ candidates) (hid : a.id = b.id) : a = b := by
  have hsome := h.byId_iff.mpr ⟨ha, hid⟩
  rw [h.byId_iff.mpr ⟨hb, rfl⟩] at hsome
  exact (Option.some.inj hsome).symm

theorem CandidateList.parent_iff (h : CandidateList candidates)
    (hc : c ∈ candidates) {parentId : κ} :
    Parent candidates c.id parentId ↔ parentId ∈ c.parents := by
  constructor
  · rintro ⟨other, hother, hid, hmem⟩
    rwa [h.unique hother hc hid] at hmem
  · exact fun hmem => ⟨c, hc, rfl, hmem⟩

omit [DecidableEq κ] in
theorem CandidateList.reaches_mem (h : CandidateList candidates) {id d : κ}
    (hid : id ∈ candidates.map (·.id)) (hreach : Reaches (Parent candidates) id d) :
    d ∈ candidates.map (·.id) := by
  induction hreach with
  | refl => exact hid
  | tail _ hparent _ =>
    obtain ⟨c, hc, -, hmem⟩ := hparent
    exact h.parents c hc _ hmem

theorem CandidateList.finite (h : CandidateList candidates) {id : κ}
    (hid : id ∈ candidates.map (·.id)) : {d | Reaches (Parent candidates) id d}.Finite :=
  (candidates.map (·.id)).toFinset.finite_toSet.subset fun _ hd =>
    mem_toFinset.mpr (h.reaches_mem hid hd)

theorem CandidateList.weight_root (h : CandidateList candidates)
    (hc : c ∈ candidates) (hparents : c.parents.length = 0) : weightOf candidates c.id = 1 := by
  have hset : {d | Reaches (Parent candidates) c.id d} = {c.id} := by
    ext d
    rw [Set.mem_ofPred_eq, Set.mem_singleton_iff]
    constructor
    · intro hreach
      rcases hreach.cases_head with heq | ⟨e, hparent, -⟩
      · exact heq.symm
      · rw [h.parent_iff hc, eq_nil_of_length_eq_zero hparents] at hparent
        exact absurd hparent not_mem_nil
    · rintro rfl
      exact .refl _
  rw [weightOf, hset, Set.ncard_singleton]

theorem CandidateList.weight_single (h : CandidateList candidates)
    (hc : c ∈ candidates) {parentId : κ} (hparents : c.parents = [parentId]) :
    weightOf candidates c.id = weightOf candidates parentId + 1 := by
  have hparent : Parent candidates c.id parentId := by
    rw [h.parent_iff hc, hparents]
    exact mem_singleton_self _
  have hset : {d | Reaches (Parent candidates) c.id d} =
      insert c.id {d | Reaches (Parent candidates) parentId d} := by
    ext d
    rw [Set.mem_insert_iff, Set.mem_ofPred_eq, Set.mem_ofPred_eq]
    constructor
    · intro hreach
      rcases hreach.cases_head with heq | ⟨e, hedge, hrest⟩
      · exact .inl heq.symm
      · rw [h.parent_iff hc, hparents, mem_singleton] at hedge
        subst hedge
        exact .inr hrest
    · rintro (rfl | hreach)
      · exact .refl _
      · exact .head hparent hreach
  have hnot : c.id ∉ {d | Reaches (Parent candidates) parentId d} := fun hreach =>
    h.acyclic c.id (.head' hparent hreach)
  have hmem : parentId ∈ candidates.map (·.id) :=
    h.parents c hc parentId (hparents ▸ mem_singleton_self _)
  rw [weightOf, hset, Set.ncard_insert_of_notMem hnot (h.finite hmem), weightOf]

/-! ### The walk counts -/

/-- What holds at every turn of the walk. -/
structure Counting (candidates : List (BisectCandidate κ)) (startId : κ)
    (state : List κ × List κ) : Prop where
  nodup : state.1.Nodup
  reaches : ∀ d, d ∈ state.1 ∨ d ∈ state.2 → Reaches (Parent candidates) startId d
  closed : ∀ d ∈ state.1, ∀ p, Parent candidates d p → p ∈ state.1 ∨ p ∈ state.2
  start : startId ∈ state.1 ∨ startId ∈ state.2

/-- The edges of what is not visited, and the stack. -/
def countVariant (candidates : List (BisectCandidate κ)) (state : List κ × List κ) : ℕ :=
  ((candidates.filter fun c => !state.1.contains c.id).map (·.parents.length + 1)).sum +
    state.2.length

theorem CandidateList.sum_visit (h : CandidateList candidates)
    (hc : c ∈ candidates) {visited : List κ} (hnew : c.id ∉ visited) :
    ((candidates.filter fun d => !visited.contains d.id).map (·.parents.length + 1)).sum =
      ((candidates.filter fun d => !(c.id :: visited).contains d.id).map
        (·.parents.length + 1)).sum + (c.parents.length + 1) := by
  obtain ⟨front, back, rfl⟩ := append_of_mem hc
  have hnodup := h.nodup
  rw [map_append, map_cons, nodup_append, nodup_cons] at hnodup
  have hkeep : ∀ part : List (BisectCandidate κ), c.id ∉ part.map (·.id) →
      (part.filter fun d => !(c.id :: visited).contains d.id) =
        part.filter fun d => !visited.contains d.id := by
    intro part hpart
    refine filter_congr fun d hd => ?_
    have hne : d.id ≠ c.id := fun heq => hpart (heq ▸ mem_map_of_mem hd)
    simp [hne]
  have hfront : c.id ∉ front.map (·.id) := fun hmem =>
    hnodup.2.2 _ hmem _ mem_cons_self rfl
  rw [filter_append, filter_append, hkeep front hfront,
    filter_cons_of_pos (by simpa using hnew), filter_cons_of_neg (by simp),
    hkeep back hnodup.2.1.1]
  simp only [map_append, sum_append, map_cons, sum_cons]
  omega

theorem countTurn_spec (h : CandidateList candidates) {startId : κ}
    (hstart : startId ∈ candidates.map (·.id)) (state : List κ × List κ)
    (hstate : Counting candidates startId state) :
    Returns (countTurn (byIdOf candidates) state)
      (Turn.Meets (· = weightOf candidates startId) fun next =>
        Counting candidates startId next ∧
          countVariant candidates next < countVariant candidates state) := by
  obtain ⟨visited, stack⟩ := state
  unfold countTurn
  cases stack with
  | nil =>
    have hset : {d | Reaches (Parent candidates) startId d} = (visited.toFinset : Set κ) := by
      ext d
      rw [Set.mem_ofPred_eq, Finset.mem_coe, mem_toFinset]
      constructor
      · intro hreach
        induction hreach with
        | refl => exact hstate.start.resolve_right not_mem_nil
        | tail _ hparent ih => exact (hstate.closed _ ih _ hparent).resolve_right not_mem_nil
      · exact fun hmem => hstate.reaches d (.inl hmem)
    refine .pure ?_
    rw [Turn.Meets, weightOf, hset, Set.ncard_coe_finset, toFinset_card_of_nodup hstate.nodup]
  | cons id stack =>
    dsimp only
    by_cases hvisited : visited.contains id = true
    · rw [if_pos hvisited]
      have hmem : id ∈ visited := contains_iff_mem.mp hvisited
      refine .pure ⟨⟨hstate.nodup, fun d hd => ?_, fun d hd p hp => ?_, ?_⟩, ?_⟩
      · exact hstate.reaches d (hd.imp_right (mem_cons_of_mem _))
      · rcases hstate.closed d hd p hp with hin | hin
        · exact .inl hin
        · rcases mem_cons.mp hin with rfl | hin
          · exact .inl hmem
          · exact .inr hin
      · rcases hstate.start with hin | hin
        · exact .inl hin
        · rcases mem_cons.mp hin with rfl | hin
          · exact .inl hmem
          · exact .inr hin
      · simp [countVariant]
    · rw [if_neg hvisited]
      have hnew : id ∉ visited := fun hmem => hvisited (contains_iff_mem.mpr hmem)
      have hreach := hstate.reaches id (.inr mem_cons_self)
      obtain ⟨c, hc, rfl⟩ := mem_map.mp (h.reaches_mem hstart hreach)
      rw [h.byId_iff.mpr ⟨hc, rfl⟩]
      dsimp only
      have hpush : ∀ p, p ∈ (c.parents.filter fun parentId =>
          !(c.id :: visited).contains parentId).reverse ++ stack ↔
            p ∈ c.parents ∧ p ∉ c.id :: visited ∨ p ∈ stack := by
        intro p
        rw [mem_append, mem_reverse, mem_filter, Bool.not_eq_true',
          ← Bool.not_eq_true, contains_iff_mem]
      refine .pure ⟨⟨nodup_cons.mpr ⟨hnew, hstate.nodup⟩, fun d hd => ?_,
        fun d hd p hp => ?_, ?_⟩, ?_⟩
      · rw [hpush] at hd
        rcases hd with hd | ⟨hd, -⟩ | hd
        · rcases mem_cons.mp hd with rfl | hd
          · exact hreach
          · exact hstate.reaches d (.inl hd)
        · exact hreach.step ((h.parent_iff hc).mpr hd)
        · exact hstate.reaches d (.inr (mem_cons_of_mem _ hd))
      · rw [hpush]
        by_cases hp' : p ∈ c.id :: visited
        · exact .inl hp'
        rcases mem_cons.mp hd with rfl | hd
        · exact .inr (.inl ⟨(h.parent_iff hc).mp hp, hp'⟩)
        · rcases hstate.closed d hd p hp with hin | hin
          · exact .inl (mem_cons_of_mem _ hin)
          · rcases mem_cons.mp hin with rfl | hin
            · exact absurd mem_cons_self hp'
            · exact .inr (.inr hin)
      · rw [hpush]
        rcases hstate.start with hin | hin
        · exact .inl (mem_cons_of_mem _ hin)
        · rcases mem_cons.mp hin with heq | hin
          · exact .inl (heq ▸ mem_cons_self)
          · exact .inr (.inr hin)
      · have hsum := h.sum_visit hc hnew
        have hle := length_filter_le (fun parentId => !(c.id :: visited).contains parentId)
          c.parents
        simp only [countVariant, length_append, length_reverse, length_cons]
        omega

/-- The fuel that every walk is content with. -/
def countFuel (candidates : List (BisectCandidate κ)) : ℕ :=
  (candidates.map (·.parents.length + 1)).sum + 2

/-- **The walk counts** what a candidate reaches. -/
theorem countDistance_spec (h : CandidateList candidates) {startId : κ}
    (hstart : startId ∈ candidates.map (·.id)) {fuel : ℕ} (hfuel : countFuel candidates ≤ fuel) :
    countDistance fuel startId (byIdOf candidates) = pure (weightOf candidates startId) := by
  have hbegin : Counting candidates startId ([], [startId]) :=
    ⟨nodup_nil, fun d hd => by
      rcases hd with hd | hd
      · exact absurd hd not_mem_nil
      · rw [mem_singleton.mp hd],
      fun d hd => absurd hd not_mem_nil, .inr (mem_singleton_self _)⟩
  have hvariant : countVariant candidates ([], [startId]) < fuel := by
    have hall : (candidates.filter fun c => !([] : List κ).contains c.id) = candidates :=
      filter_eq_self.mpr fun c _ => rfl
    rw [countVariant, hall]
    unfold countFuel at hfuel
    simp only [length_singleton]
    omega
  obtain ⟨w, hrun, rfl⟩ := loop_spec _ _ (countTurn_spec h hstart) fuel _ hbegin hvariant
  exact hrun

/-! ### The weights that are set -/

/-- Every weight that is set is the right one. -/
def Weighed (candidates : List (BisectCandidate κ)) (weights : Weights κ) : Prop :=
  ∀ id w, weights id = some w → w = weightOf candidates id

/-- A candidate that halves the list best, with what it reaches. -/
structure Best (candidates : List (BisectCandidate κ)) (bisection : Bisection κ) : Prop where
  mem : bisection.nextCommit ∈ candidates.map (·.id)
  count : bisection.candidateCount = candidates.length
  reaches : bisection.reaches = weightOf candidates bisection.nextCommit
  best : ∀ c ∈ candidates,
    min (weightOf candidates c.id : ℤ) (candidates.length - weightOf candidates c.id) ≤
      min (bisection.reaches : ℤ) (candidates.length - bisection.reaches)

theorem distOf_le_of_approxHalfway {weight all : ℕ} (h : approxHalfway weight all = true)
    (other : ℕ) : distOf other all ≤ distOf weight all := by
  rw [approxHalfway, decide_eq_true_iff] at h
  unfold distOf
  omega

omit [DecidableEq κ] in
theorem best_of_approxHalfway (hc : c ∈ candidates) {w : ℕ}
    (hw : w = weightOf candidates c.id) (h : approxHalfway w candidates.length = true) :
    Best candidates ⟨c.id, candidates.length, w⟩ :=
  ⟨mem_map_of_mem hc, rfl, hw, fun _ _ => distOf_le_of_approxHalfway h _⟩

omit [DecidableEq κ] in
theorem Weighed.empty : Weighed candidates fun _ => none := fun _ _ h => by cases h

variable {weights : Weights κ}

theorem Weighed.update (h : Weighed candidates weights) {id : κ} {w : ℕ}
    (hw : w = weightOf candidates id) :
    Weighed candidates (update weights id (some w)) := by
  intro other v hv
  by_cases hid : other = id
  · subst hid
    rw [update_self] at hv
    exact (Option.some.inj hv).symm.trans hw
  · rw [update_of_ne hid] at hv
    exact h other v hv

/-- What is set stays set. -/
def Keeps (weights weights' : Weights κ) : Prop :=
  ∀ id, (weights id).isSome = true → (weights' id).isSome = true

omit [DecidableEq κ] in
theorem Keeps.refl (weights : Weights κ) : Keeps weights weights := fun _ h => h

theorem Keeps.update (weights : Weights κ) (id : κ) (w : ℕ) :
    Keeps weights (update weights id (some w)) := by
  intro other h
  by_cases hid : other = id
  · rw [hid, update_self]
    rfl
  · rwa [update_of_ne hid]

omit [DecidableEq κ] in
theorem Keeps.trans {a b c : Weights κ} (hab : Keeps a b) (hbc : Keeps b c) : Keeps a c :=
  fun id h => hbc id (hab id h)

theorem foldl_seedOne (h : CandidateList candidates) (rest : List (BisectCandidate κ))
    (hrest : ∀ c ∈ rest, c ∈ candidates) (hweights : Weighed candidates weights) :
    Weighed candidates (rest.foldl seedOne weights) ∧ Keeps weights (rest.foldl seedOne weights) ∧
      ∀ c ∈ rest, c.parents.length = 0 → (rest.foldl seedOne weights c.id).isSome = true := by
  induction rest generalizing weights with
  | nil => exact ⟨hweights, .refl _, forall_mem_nil _⟩
  | cons c rest ih =>
    have hc := hrest c mem_cons_self
    have hone : Weighed candidates (seedOne weights c) ∧ Keeps weights (seedOne weights c) ∧
        (c.parents.length = 0 → (seedOne weights c c.id).isSome = true) := by
      unfold seedOne
      by_cases hroot : c.parents.length = 0
      · rw [if_pos hroot]
        refine ⟨hweights.update (h.weight_root hc hroot).symm, .update _ _ _, fun _ => ?_⟩
        rw [update_self]
        rfl
      · rw [if_neg hroot]
        exact ⟨hweights, .refl _, fun h => absurd h hroot⟩
    obtain ⟨hfold, hkeeps, hset⟩ :=
      ih (forall_mem_cons.mp hrest).2 hone.1
    refine ⟨hfold, hone.2.1.trans hkeeps, fun d hd hroot => ?_⟩
    rcases mem_cons.mp hd with rfl | hd
    · exact hkeeps _ (hone.2.2 hroot)
    · exact hset d hd hroot

/-- **The run of `mergeWeights`**: a merge that is about half, or the weights of all merges. -/
theorem mergeWeights_spec (h : CandidateList candidates) (rest : List (BisectCandidate κ))
    (hrest : ∀ c ∈ rest, c ∈ candidates) (hweights : Weighed candidates weights) :
    ∃ weights' outcome, (∀ fuel, countFuel candidates ≤ fuel →
        mergeWeights fuel (byIdOf candidates) candidates.length rest weights =
          pure (weights', outcome)) ∧
      Weighed candidates weights' ∧ Keeps weights weights' ∧
      (∀ bisection, outcome = some bisection → Best candidates bisection) ∧
      (outcome = none → ∀ c ∈ rest, 2 ≤ c.parents.length → (weights' c.id).isSome = true) := by
  induction rest generalizing weights with
  | nil =>
    exact ⟨weights, none, fun _ _ => rfl, hweights, .refl _, (fun _ heq => by cases heq),
      fun _ _ hmem => absurd hmem not_mem_nil⟩
  | cons c rest ih =>
    have hc := hrest c mem_cons_self
    have htail : ∀ d ∈ rest, d ∈ candidates := (forall_mem_cons.mp hrest).2
    by_cases hfew : c.parents.length < 2
    · obtain ⟨weights', outcome, hrun, hweighed, hkeeps, hbest, hset⟩ := ih htail hweights
      refine ⟨weights', outcome, fun fuel hfuel => ?_, hweighed, hkeeps, hbest,
        fun hnone d hd hmany => ?_⟩
      · rw [mergeWeights, if_pos hfew]
        exact hrun fuel hfuel
      · rcases mem_cons.mp hd with rfl | hd
        · omega
        · exact hset hnone d hd hmany
    · have hcount : ∀ fuel, countFuel candidates ≤ fuel →
          countDistance fuel c.id (byIdOf candidates) = pure (weightOf candidates c.id) :=
        fun fuel hfuel => countDistance_spec h (mem_map_of_mem hc) hfuel
      have hupdated := hweights.update (rfl : weightOf candidates c.id = _)
      by_cases hhalf : approxHalfway (weightOf candidates c.id) candidates.length = true
      · refine ⟨_, some ⟨c.id, candidates.length, weightOf candidates c.id⟩, fun fuel hfuel => ?_,
          hupdated, .update _ _ _, fun bisection heq => ?_, fun hnone => ?_⟩
        · rw [mergeWeights, if_neg hfew, hcount fuel hfuel, pure_bind, if_pos hhalf]
        · rw [← Option.some.inj heq]
          exact best_of_approxHalfway hc rfl hhalf
        · cases hnone
      · obtain ⟨weights', outcome, hrun, hweighed, hkeeps, hbest, hset⟩ := ih htail hupdated
        refine ⟨weights', outcome, fun fuel hfuel => ?_, hweighed,
          (Keeps.update _ _ _).trans hkeeps, hbest, fun hnone d hd hmany => ?_⟩
        · rw [mergeWeights, if_neg hfew, hcount fuel hfuel, pure_bind, if_neg hhalf]
          exact hrun fuel hfuel
        · rcases mem_cons.mp hd with rfl | hd
          · refine hkeeps _ ?_
            rw [update_self]
            rfl
          · exact hset hnone d hd hmany

/-! ### The passes -/

theorem tryFillOne_eq_some (h : CandidateList candidates)
    (hweights : Weighed candidates weights) (hc : c ∈ candidates) {w : ℕ}
    (hfill : tryFillOne c weights = some w) :
    w = weightOf candidates c.id ∧ weights c.id = none := by
  unfold tryFillOne at hfill
  split_ifs at hfill with hready
  rw [not_or, not_not, Bool.not_eq_true, Option.isSome_eq_false_iff, Option.isNone_iff_eq_none]
    at hready
  obtain ⟨parentId, hparents⟩ := length_eq_one_iff.mp hready.2
  rw [hparents, head?_cons, Option.bind_some] at hfill
  obtain ⟨v, hv, rfl⟩ := Option.map_eq_some_iff.mp hfill
  rw [h.weight_single hc hparents, hweights parentId v hv]
  exact ⟨rfl, hready.1⟩

/-- The candidates whose weight is not set. -/
def unset (candidates : List (BisectCandidate κ)) (weights : Weights κ) : ℕ :=
  candidates.countP fun c => (weights c.id).isNone

variable {weights' : Weights κ}

omit [DecidableEq κ] in
theorem unset_le (hkeeps : Keeps weights weights') :
    unset candidates weights' ≤ unset candidates weights := by
  refine countP_mono_left fun c _ hnone => ?_
  rw [Option.isNone_iff_eq_none] at hnone ⊢
  by_contra hsome
  have hkept := hkeeps c.id (Option.isSome_iff_ne_none.mpr hsome)
  rw [hnone] at hkept
  cases hkept

omit [DecidableEq κ] in
theorem unset_lt (hkeeps : Keeps weights weights') (hc : c ∈ candidates) (hbefore : weights c.id = none)
    (hafter : (weights' c.id).isSome = true) :
    unset candidates weights' < unset candidates weights := by
  obtain ⟨front, back, rfl⟩ := append_of_mem hc
  have hfront : unset front weights' ≤ unset front weights := unset_le hkeeps
  have hback : unset back weights' ≤ unset back weights := unset_le hkeeps
  unfold unset at *
  have hset : (weights' c.id).isNone = false := by
    rw [Option.isNone_eq_false_iff]
    exact hafter
  rw [countP_append, countP_append, countP_cons, countP_cons, hset, hbefore]
  simp only [Option.isNone_none, if_true, Bool.false_eq_true, if_false]
  omega

/-- **The step of a pass**, and its run: the weights stay right, and a pass that sets none is the
last. -/
theorem fillPass_spec (h : CandidateList candidates) (rest : List (BisectCandidate κ))
    (hrest : ∀ c ∈ rest, c ∈ candidates) {changed : Bool}
    (hweights : Weighed candidates weights) {changed' : Bool}
    {outcome : Option (Bisection κ)}
    (hpass : fillPass candidates.length rest weights changed = (weights', changed', outcome)) :
    Weighed candidates weights' ∧ Keeps weights weights' ∧
      (∀ bisection, outcome = some bisection → Best candidates bisection) ∧
      (changed = true → changed' = true) ∧
      (changed' = true → changed = true ∨ unset candidates weights' < unset candidates weights) ∧
      (outcome = none → changed' = false →
        weights' = weights ∧ ∀ c ∈ rest, tryFillOne c weights = none) := by
  induction rest generalizing weights changed with
  | nil =>
    rw [fillPass, Prod.mk.injEq, Prod.mk.injEq] at hpass
    obtain ⟨rfl, rfl, rfl⟩ := hpass
    exact ⟨hweights, .refl _, (fun _ heq => by cases heq), fun h => h, .inl,
      fun _ _ => ⟨rfl, forall_mem_nil _⟩⟩
  | cons c rest ih =>
    have hc := hrest c mem_cons_self
    have htail : ∀ d ∈ rest, d ∈ candidates := (forall_mem_cons.mp hrest).2
    rw [fillPass] at hpass
    cases hfill : tryFillOne c weights with
    | none =>
      rw [hfill] at hpass
      obtain ⟨hweighed, hkeeps, hbest, hstays, hchanged, hnone⟩ := ih htail hweights hpass
      refine ⟨hweighed, hkeeps, hbest, hstays, hchanged, fun hout hsame => ?_⟩
      obtain ⟨heq, hall⟩ := hnone hout hsame
      exact ⟨heq, forall_mem_cons.mpr ⟨hfill, hall⟩⟩
    | some w =>
      obtain ⟨hw, hfresh⟩ := tryFillOne_eq_some h hweights hc hfill
      have hupdated := hweights.update hw
      have hset : (update weights c.id (some w) c.id).isSome = true := by
        rw [update_self]
        rfl
      have hlt := unset_lt (Keeps.update weights c.id w) hc hfresh hset
      rw [hfill] at hpass
      dsimp only at hpass
      by_cases hhalf : approxHalfway w candidates.length = true
      · rw [if_pos hhalf, Prod.mk.injEq, Prod.mk.injEq] at hpass
        obtain ⟨rfl, rfl, rfl⟩ := hpass
        refine ⟨hupdated, .update _ _ _, fun bisection heq => ?_, fun _ => rfl,
          fun _ => .inr hlt, fun hout => by cases hout⟩
        rw [← Option.some.inj heq]
        exact best_of_approxHalfway hc hw hhalf
      · rw [if_neg hhalf] at hpass
        obtain ⟨hweighed, hkeeps, hbest, hstays, -, -⟩ := ih htail hupdated hpass
        refine ⟨hweighed, (Keeps.update _ _ _).trans hkeeps, hbest, fun _ => hstays rfl,
          fun _ => .inr ((unset_le hkeeps).trans_lt hlt), fun _ hsame => ?_⟩
        rw [hstays rfl] at hsame
        cases hsame

theorem all_set (h : CandidateList candidates)
    (hothers : ∀ c ∈ candidates, c.parents.length ≠ 1 → (weights c.id).isSome = true)
    (hready : ∀ c ∈ candidates, tryFillOne c weights = none) :
    ∀ c ∈ candidates, (weights c.id).isSome = true := by
  -- by the weight of the candidate: its parent weighs less, so it is set, and would make it ready
  intro c hc
  induction hn : weightOf candidates c.id using Nat.strongRecOn generalizing c with
  | ind n ih =>
    by_cases hone : c.parents.length = 1
    · obtain ⟨parentId, hparents⟩ := length_eq_one_iff.mp hone
      obtain ⟨parent, hparent, rfl⟩ := mem_map.mp
        (h.parents c hc parentId (hparents ▸ mem_singleton_self _))
      have hlt := h.weight_single hc hparents
      have hset := ih _ (by omega) parent hparent rfl
      obtain ⟨w, hw⟩ := Option.isSome_iff_exists.mp hset
      by_contra hnone
      have hfill := hready c hc
      rw [tryFillOne, if_neg (by rw [hone]; simpa using hnone), hparents, head?_cons,
        Option.bind_some, hw] at hfill
      cases hfill
    · exact hothers c hc hone

theorem fillWeights_spec (h : CandidateList candidates) (hweights : Weighed candidates weights)
    (hothers : ∀ c ∈ candidates, c.parents.length ≠ 1 → (weights c.id).isSome = true) :
    ∃ weights' outcome, (∀ fuel, candidates.length + 1 ≤ fuel →
        fillWeights fuel candidates candidates.length weights = pure (weights', outcome)) ∧
      Weighed candidates weights' ∧
      (∀ bisection, outcome = some bisection → Best candidates bisection) ∧
      (outcome = none → ∀ c ∈ candidates, (weights' c.id).isSome = true) := by
  have hturn : ∀ s, Weighed candidates s ∧
      (∀ c ∈ candidates, c.parents.length ≠ 1 → (s c.id).isSome = true) →
      Returns (fillTurn candidates candidates.length s)
        (Turn.Meets (fun result => Weighed candidates result.1 ∧
            (∀ bisection, result.2 = some bisection → Best candidates bisection) ∧
            (result.2 = none → ∀ c ∈ candidates, (result.1 c.id).isSome = true))
          fun t => (Weighed candidates t ∧
            ∀ c ∈ candidates, c.parents.length ≠ 1 → (t c.id).isSome = true) ∧
            unset candidates t < unset candidates s) := by
    rintro s ⟨hs, hset⟩
    obtain ⟨⟨t, changed, outcome⟩, hpass⟩ :
        ∃ result, fillPass candidates.length candidates s false = result := ⟨_, rfl⟩
    obtain ⟨ht, hkeeps, hbest, -, hchanged, hnone⟩ :=
      fillPass_spec h candidates (fun _ hc => hc) hs hpass
    rw [fillTurn, hpass]
    dsimp only
    cases outcome with
    | some bisection => exact .pure ⟨ht, hbest, fun hout => by cases hout⟩
    | none =>
      cases changed with
      | true =>
        refine .pure ⟨⟨ht, fun c hc hother => hkeeps c.id (hset c hc hother)⟩, ?_⟩
        exact (hchanged rfl).resolve_left (by decide)
      | false =>
        obtain ⟨rfl, hready⟩ := hnone rfl rfl
        exact .pure ⟨ht, hbest, fun _ => all_set h hset hready⟩
  have hbound : unset candidates weights < candidates.length + 1 :=
    Nat.lt_succ_of_le countP_le_length
  obtain ⟨⟨weights', outcome⟩, hrun, hpost⟩ :=
    loop_spec _ _ hturn (candidates.length + 1) weights ⟨hweights, hothers⟩ hbound
  exact ⟨weights', outcome, fun fuel hfuel => loop_mono hfuel hrun, hpost⟩

/-! ### The scan -/

omit [DecidableEq κ] in
theorem bestFrom_spec (hweights : Weighed candidates weights)
    (rest : List (BisectCandidate κ)) (hrest : ∀ c ∈ rest, c ∈ candidates)
    (hset : ∀ c ∈ rest, (weights c.id).isSome = true) {best : κ × ℕ}
    (hbest : best.1 ∈ candidates.map (·.id) ∧ best.2 = weightOf candidates best.1) :
    ∃ found, bestFrom weights candidates.length rest best = pure found ∧
      found.1 ∈ candidates.map (·.id) ∧ found.2 = weightOf candidates found.1 ∧
      distOf best.2 candidates.length ≤ distOf found.2 candidates.length ∧
      ∀ c ∈ rest, distOf (weightOf candidates c.id) candidates.length ≤
        distOf found.2 candidates.length := by
  induction rest generalizing best with
  | nil =>
    exact ⟨best, rfl, hbest.1, hbest.2, le_refl _, forall_mem_nil _⟩
  | cons c rest ih =>
    obtain ⟨w, hw⟩ := Option.isSome_iff_exists.mp (hset c mem_cons_self)
    have hweight := hweights c.id w hw
    rw [bestFrom, hw]
    dsimp only
    obtain ⟨next, hnext⟩ : ∃ next, (if distOf w candidates.length >
      distOf best.2 candidates.length then (c.id, w) else best) = next := ⟨_, rfl⟩
    rw [hnext]
    have hright : (next.1 ∈ candidates.map (·.id) ∧ next.2 = weightOf candidates next.1) ∧
        distOf best.2 candidates.length ≤ distOf next.2 candidates.length ∧
        distOf w candidates.length ≤ distOf next.2 candidates.length := by
      rw [← hnext]
      split_ifs with hbetter
      · exact ⟨⟨mem_map_of_mem (hrest c mem_cons_self), hweight⟩, hbetter.le, le_refl _⟩
      · exact ⟨hbest, le_refl _, not_lt.mp hbetter⟩
    obtain ⟨found, hrun, hmem, hreaches, hle, hall⟩ :=
      ih (forall_mem_cons.mp hrest).2
        (forall_mem_cons.mp hset).2 hright.1
    refine ⟨found, hrun, hmem, hreaches, hright.2.1.trans hle, forall_mem_cons.mpr ⟨?_, hall⟩⟩
    rw [← hweight]
    exact hright.2.2.trans hle

omit [DecidableEq κ] in
/-- **The final scan** finds every weight set, and the best candidate. -/
theorem bestBisection_spec (hweights : Weighed candidates weights)
    (hne : candidates ≠ []) (hset : ∀ c ∈ candidates, (weights c.id).isSome = true) :
    ∃ found, bestBisection candidates weights candidates.length = pure found ∧
      Best candidates ⟨found.1, candidates.length, found.2⟩ := by
  obtain ⟨first, rest, rfl⟩ := exists_cons_of_ne_nil hne
  obtain ⟨w, hw⟩ := Option.isSome_iff_exists.mp (hset first mem_cons_self)
  have hweight := hweights first.id w hw
  have hfirst : (first.id, w).1 ∈ (first :: rest).map (·.id) ∧
      (first.id, w).2 = weightOf (first :: rest) (first.id, w).1 :=
    ⟨mem_map_of_mem mem_cons_self, hweight⟩
  obtain ⟨found, hrun, hfound, hreaches, hle, hall⟩ := bestFrom_spec hweights rest
    (fun c hc => mem_cons_of_mem _ hc)
    (forall_mem_cons.mp hset).2 hfirst
  refine ⟨found, ?_, hfound, rfl, hreaches, forall_mem_cons.mpr ⟨?_, hall⟩⟩
  · rw [bestBisection, hw]
    exact hrun
  · rw [← hweight]
    exact hle

/-- **The next commit of a bisection** halves the candidates best, and says what it reaches. -/
theorem findBisection_best (h : CandidateList candidates) (hne : candidates ≠ []) :
    ∃ bisection, Yields (fun fuel => findBisection fuel candidates) (some bisection) ∧
      Best candidates bisection := by
  obtain ⟨hseeded, -, hroots⟩ :=
    foldl_seedOne h candidates (fun _ hc => hc) Weighed.empty
  obtain ⟨merged, outcome, hmerge, hmerged, hkeeps, hbest, hmerges⟩ :=
    mergeWeights_spec h candidates (fun _ hc => hc) hseeded
  have hnonempty : candidates.isEmpty = false := by
    rwa [isEmpty_eq_false_iff]
  cases outcome with
  | some bisection =>
    refine ⟨bisection, ⟨countFuel candidates, fun fuel hfuel => ?_⟩, hbest bisection rfl⟩
    dsimp only
    rw [findBisection, hnonempty, if_neg Bool.false_ne_true]
    dsimp only
    rw [seedWeights, hmerge fuel hfuel]
    rfl
  | none =>
    have hothers : ∀ c ∈ candidates, c.parents.length ≠ 1 → (merged c.id).isSome = true := by
      intro c hc hother
      by_cases hroot : c.parents.length = 0
      · exact hkeeps c.id (hroots c hc hroot)
      · exact hmerges rfl c hc (by omega)
    obtain ⟨filled, outcome, hfill, hfilled, hbest, hset⟩ := fillWeights_spec h hmerged hothers
    cases outcome with
    | some bisection =>
      refine ⟨bisection, ⟨max (countFuel candidates) (candidates.length + 1),
        fun fuel hfuel => ?_⟩, hbest bisection rfl⟩
      dsimp only
      rw [findBisection, hnonempty, if_neg Bool.false_ne_true]
      dsimp only
      rw [seedWeights, hmerge fuel (le_of_max_le_left hfuel), pure_bind]
      dsimp only
      rw [hfill fuel (le_of_max_le_right hfuel)]
      rfl
    | none =>
      obtain ⟨found, hscan, hfound⟩ := bestBisection_spec hfilled hne (hset rfl)
      refine ⟨_, ⟨max (countFuel candidates) (candidates.length + 1),
        fun fuel hfuel => ?_⟩, hfound⟩
      dsimp only
      rw [findBisection, hnonempty, if_neg Bool.false_ne_true]
      dsimp only
      rw [seedWeights, hmerge fuel (le_of_max_le_left hfuel), pure_bind]
      dsimp only
      rw [hfill fuel (le_of_max_le_right hfuel), pure_bind]
      dsimp only
      rw [hscan]
      rfl

/-- A merge of two lines that both come from the same root, once twice as its parent. -/
def diamondCandidates : List (BisectCandidate ℕ) :=
  [⟨3, [1, 2, 1]⟩, ⟨2, [0]⟩, ⟨1, [0]⟩, ⟨0, []⟩]

theorem diamondCandidates_list : CandidateList diamondCandidates where
  nodup := by decide
  parents := by decide
  acyclic id hpass := by
    have hlt : ∀ a b, Parent diamondCandidates a b → b < a := by
      rintro a b ⟨c, hc, rfl, hb⟩
      have hall : ∀ c ∈ diamondCandidates, ∀ b ∈ c.parents, b < c.id := by decide
      exact hall c hc b hb
    exact lt_irrefl _ (hpass.lt (fun v => v) hlt)

theorem findBisection_best_diamond : ∃ bisection,
    Yields (fun fuel => findBisection fuel diamondCandidates) (some bisection) ∧
      Best diamondCandidates bisection :=
  findBisection_best diamondCandidates_list (by decide)

end Tsgit.Bisect
