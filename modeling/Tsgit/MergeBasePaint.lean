import Mathlib.Algebra.Order.BigOperators.Group.Finset
import Tsgit.Ancestry
import Tsgit.MergeBase

/-!
# The Paint-Down Walk

What `paint` leaves behind, on a finite acyclic history whose generations are all infinite
or all rise from parent to child.
-/

namespace Tsgit.MergeBase

open Ancestry Flags List Function

variable {Id : Type} {commits : Dict Id (CommitMeta Id)}

/-! ### Histories -/

def Parent (commits : Dict Id (CommitMeta Id)) (c p : Id) : Prop :=
  ∃ found, commits.get c = some found ∧ p ∈ found.parents

/-- A commit DAG: the parents of a commit are commits, and none is its own ancestor. -/
structure History (commits : Dict Id (CommitMeta Id)) : Prop where
  closed : ∀ {c p}, Parent commits c p → commits.get p ≠ none
  acyclic : Acyclic (Parent commits)

def generationOf (commits : Dict Id (CommitMeta Id)) (c : Id) : WithTop ℕ :=
  ((commits.get c).map CommitMeta.generation).getD generationInfinity

/-- No graph serves a generation. -/
def AllInfinite (commits : Dict Id (CommitMeta Id)) : Prop :=
  ∀ c, generationOf commits c = generationInfinity

/-- Every generation is larger than each parent's. -/
def Rising (commits : Dict Id (CommitMeta Id)) : Prop :=
  ∀ c p, Parent commits c p → generationOf commits p < generationOf commits c

theorem generationOf_eq {c : Id} {found : CommitMeta Id} (h : commits.get c = some found) :
    generationOf commits c = found.generation := by
  rw [generationOf, h]
  rfl

theorem readCommit_eq {c : Id} {found : CommitMeta Id} (h : commits.get c = some found) :
    readCommit commits c = pure found := by
  rw [readCommit, h]

theorem Reaches.get_ne_none (history : History commits) {a b : Id}
    (h : Reaches (Parent commits) a b) (ha : commits.get a ≠ none) : commits.get b ≠ none := by
  cases h with
  | refl => exact ha
  | tail _ hb => exact history.closed hb

theorem finite_reaches (history : History commits) {a : Id} (ha : commits.get a ≠ none) :
    {b | Reaches (Parent commits) a b}.Finite :=
  commits.keys.finite_toSet.subset fun b hb =>
    commits.covered b (Reaches.get_ne_none history hb ha)

/-! ### The queue -/

section

variable {flags flags' : Id → Flags} {queued : Finset Id} {counts : PaintCounts}

/-- How many queued commits are in a bucket. -/
def tally (flags : Id → Flags) (queued : Finset Id) (bucket : Flags) : ℕ :=
  (queued.filter fun c => flags c &&& (both ||| stale) = bucket).card

/-- The counters count the queued commits of their buckets. -/
structure Counts (flags : Id → Flags) (queued : Finset Id) (counts : PaintCounts) : Prop where
  parent1 : counts.parent1 = tally flags queued parent1
  parent2 : counts.parent2 = tally flags queued parent2
  candidates : counts.candidates = tally flags queued both

theorem Counts.congr (h : Counts flags queued counts) (heq : ∀ c ∈ queued, flags' c = flags c) :
    Counts flags' queued counts := by
  have htally (bucket : Flags) : tally flags' queued bucket = tally flags queued bucket := by
    unfold tally
    congr 1
    exact Finset.filter_congr fun c hc => by rw [heq c hc]
  exact ⟨by rw [htally, h.parent1], by rw [htally, h.parent2], by rw [htally, h.candidates]⟩

variable [DecidableEq Id]

theorem tally_insert {id : Id} (h : id ∉ queued) (bucket : Flags) :
    tally flags (insert id queued) bucket =
      tally flags queued bucket + if flags id &&& (both ||| stale) = bucket then 1 else 0 := by
  unfold tally
  rw [Finset.filter_insert]
  split
  · rw [Finset.card_insert_of_notMem fun hmem => h (Finset.mem_filter.mp hmem).1]
  · rfl

theorem countBucket_tally {id : Id} (h : id ∉ queued) {delta : ℤ} {counts' : PaintCounts}
    (hcounts : counts' = countBucket counts (flags id) delta) :
    (counts'.parent1 - counts.parent1 =
      delta * (tally flags (insert id queued) parent1 - tally flags queued parent1 : ℤ)) ∧
    (counts'.parent2 - counts.parent2 =
      delta * (tally flags (insert id queued) parent2 - tally flags queued parent2 : ℤ)) ∧
    counts'.candidates - counts.candidates =
      delta * (tally flags (insert id queued) both - tally flags queued both : ℤ) := by
  have h12 : (parent1 : Flags) ≠ parent2 := by decide
  have h1b : (parent1 : Flags) ≠ both := by decide
  have h2b : (parent2 : Flags) ≠ both := by decide
  subst hcounts
  rw [tally_insert h, tally_insert h, tally_insert h, countBucket]
  split
  · next heq => simp [heq, h12, h1b]
  · next hne1 =>
    split
    · next heq => simp [heq, h2b]
    · next hne2 =>
      split
      · simp
      · simp

theorem Counts.insert (h : Counts flags queued counts) {id : Id} (hid : id ∉ queued) :
    Counts flags (insert id queued) (countBucket counts (flags id) 1) := by
  obtain ⟨h1, h2, hb⟩ := countBucket_tally hid (rfl : countBucket counts (flags id) 1 = _)
  have := h.parent1
  have := h.parent2
  have := h.candidates
  constructor <;> omega

theorem Counts.erase (h : Counts flags queued counts) {id : Id} (hid : id ∈ queued) :
    Counts flags (queued.erase id) (countBucket counts (flags id) (-1)) := by
  obtain ⟨h1, h2, hb⟩ := countBucket_tally (Finset.notMem_erase id queued)
    (rfl : countBucket counts (flags id) (-1) = _)
  rw [Finset.insert_erase hid] at h1 h2 hb
  have := h.parent1
  have := h.parent2
  have := h.candidates
  constructor <;> omega

end

section

variable [DecidableEq Id] {state : PaintState Id}

/-- The heap, the queued ids and the counters agree, and an entry carries its commit. -/
structure Queue (commits : Dict Id (CommitMeta Id)) (state : PaintState Id) : Prop where
  nodup : (state.heap.values.map PaintEntry.oid).Nodup
  mem_iff : ∀ id, id ∈ state.queued ↔ id ∈ state.heap.values.map PaintEntry.oid
  found : ∀ entry ∈ state.heap.values, ∃ found, commits.get entry.oid = some found ∧
    entry.generation = found.generation ∧ entry.parents = found.parents
  counts : Counts state.flags state.queued state.counts

omit [DecidableEq Id] in
theorem emptyPaintState_queue : Queue commits (emptyPaintState : PaintState Id) where
  nodup := nodup_nil
  mem_iff _ := by
    rw [emptyPaintState]
    simp [BinaryHeap.empty]
  found _ h := by cases h
  counts := ⟨rfl, rfl, rfl⟩

omit [DecidableEq Id] in
theorem Queue.congr (h : Queue commits state) {flags : Id → Flags}
    (heq : ∀ c ∈ state.queued, flags c = state.flags c) :
    Queue commits { state with flags := flags } :=
  ⟨h.nodup, h.mem_iff, h.found, h.counts.congr heq⟩

/-- **Marking** adds the bits, and the commit is queued then. -/
theorem markPainted_spec (h : Queue commits state) {id : Id} (hid : commits.get id ≠ none)
    (bits : Flags) :
    Run.Returns (markPainted (readCommit commits) state id bits) fun next =>
      next.flags = update state.flags id (state.flags id ||| bits) ∧
      next.queued = insert id state.queued ∧ Queue commits next := by
  obtain ⟨found, hfound⟩ := Option.ne_none_iff_exists'.mp hid
  have hafter : update state.flags id (state.flags id ||| bits) id =
      state.flags id ||| bits := update_self ..
  unfold markPainted
  dsimp only
  split
  · next hqueued =>
    refine .pure ⟨rfl, (Finset.insert_eq_of_mem hqueued).symm, h.nodup, h.mem_iff, h.found, ?_⟩
    have hothers : Counts (update state.flags id (state.flags id ||| bits))
        (state.queued.erase id) _ := (h.counts.erase hqueued).congr fun c hc =>
      update_of_ne (Finset.ne_of_mem_erase hc) ..
    have hcounts := hothers.insert (Finset.notMem_erase id state.queued)
    rwa [hafter, Finset.insert_erase hqueued] at hcounts
  · next hqueued =>
    rw [enqueuePainted, readCommit_eq hfound, pure_bind, pure_bind]
    have hperm := BinaryHeap.perm_push state.heap
      ⟨id, found.committerDate, found.generation, state.insertions, found.parents⟩
    have hoids := hperm.map PaintEntry.oid
    rw [map_cons] at hoids
    refine .pure ⟨rfl, rfl, ?_, fun c => ?_, fun entry hentry => ?_, ?_⟩
    · rw [hoids.nodup_iff, nodup_cons]
      exact ⟨fun hmem => hqueued ((h.mem_iff id).mpr hmem), h.nodup⟩
    · rw [Finset.mem_insert, hoids.mem_iff, mem_cons, h.mem_iff]
    · rcases mem_cons.mp (hperm.mem_iff.mp hentry) with rfl | hold
      · exact ⟨found, hfound, rfl, rfl⟩
      · exact h.found entry hold
    · have hothers : Counts (update state.flags id (state.flags id ||| bits))
          state.queued state.counts := h.counts.congr fun c hc =>
        update_of_ne (ne_of_mem_of_not_mem hc hqueued) ..
      have hcounts := hothers.insert hqueued
      rwa [hafter] at hcounts

/-- Every queued commit that `bit` has painted is stale. -/
def Dry (flags : Id → Flags) (queued : Finset Id) (bit : Flags) : Prop :=
  ∀ c ∈ queued, (flags c).has bit = true → (flags c).has stale = true

/-- Why no base can be waiting in the queue: both sides are dry, or one is and generations
rise. -/
def Exhausted (commits : Dict Id (CommitMeta Id)) (flags : Id → Flags) (queued : Finset Id) :
    Prop :=
  Dry flags queued parent1 ∧ Dry flags queued parent2 ∨
    Rising commits ∧ (Dry flags queued parent1 ∨ Dry flags queued parent2)

omit [DecidableEq Id] in
theorem tally_eq_zero {flags : Id → Flags} {queued : Finset Id} {bucket : Flags}
    (h : tally flags queued bucket = 0) {c : Id} (hc : c ∈ queued) :
    flags c &&& (both ||| stale) ≠ bucket := by
  intro heq
  rw [tally, Finset.card_eq_zero, Finset.filter_eq_empty_iff] at h
  exact h hc heq

omit [DecidableEq Id] in
theorem dry_of_counts {flags : Id → Flags} {queued : Finset Id} {counts : PaintCounts}
    (h : Counts flags queued counts) (hboth : counts.candidates = 0) :
    (counts.parent1 = 0 → Dry flags queued parent1) ∧
      (counts.parent2 = 0 → Dry flags queued parent2) := by
  have hboth' : tally flags queued both = 0 := by have := h.candidates; omega
  constructor <;> intro hnone c hc hbit <;> by_contra hstale
  all_goals
    obtain ⟨h1, h2, hb⟩ := bucket_iff (flags c)
    replace hstale := Bool.eq_false_of_not_eq_true hstale
  · have hone : tally flags queued parent1 = 0 := by have := h.parent1; omega
    cases hside : (flags c).has parent2 with
    | false => exact tally_eq_zero hone hc (h1.mpr ⟨hbit, hside, hstale⟩)
    | true => exact tally_eq_zero hboth' hc (hb.mpr ⟨hbit, hside, hstale⟩)
  · have htwo : tally flags queued parent2 = 0 := by have := h.parent2; omega
    cases hside : (flags c).has parent1 with
    | false => exact tally_eq_zero htwo hc (h2.mpr ⟨hside, hbit, hstale⟩)
    | true => exact tally_eq_zero hboth' hc (hb.mpr ⟨hside, hbit, hstale⟩)

omit [DecidableEq Id] in
theorem walkIsOver_spec {flags : Id → Flags} {queued : Finset Id} {counts : PaintCounts}
    {generation topoCeiling : WithTop ℕ} (h : Counts flags queued counts)
    (hgraded : generation < generationInfinity → Rising commits)
    (hover : walkIsOver counts generation topoCeiling = true) :
    Exhausted commits flags queued := by
  unfold walkIsOver at hover
  split at hover
  · cases hover
  · next hnone =>
    have hboth : counts.candidates = 0 := not_not.mp hnone
    split at hover
    · next hsides => exact .inl ⟨(dry_of_counts h hboth).1 hsides.1, (dry_of_counts h hboth).2 hsides.2⟩
    · have hover' := of_decide_eq_true hover
      refine .inr ⟨hgraded (hover'.2.trans_le le_top), ?_⟩
      rcases hover'.1 with hside | hside
      · exact .inl ((dry_of_counts h hboth).1 hside)
      · exact .inr ((dry_of_counts h hboth).2 hside)

theorem popPainted_spec (h : Queue commits state)
    (hgraded : AllInfinite commits ∨ Rising commits) (topoCeiling : WithTop ℕ) :
    match popPainted state topoCeiling with
    | none => Exhausted commits state.flags state.queued
    | some (entry, next) =>
      entry.oid ∈ state.queued ∧ entry.generation = generationOf commits entry.oid ∧
      (∀ p, p ∈ entry.parents ↔ Parent commits entry.oid p) ∧
      (∀ c ∈ state.queued, generationOf commits c ≤ generationOf commits entry.oid) ∧
      next.flags = state.flags ∧ next.queued = state.queued.erase entry.oid ∧
      Queue commits next := by
  unfold popPainted
  cases hpop : state.heap.pop with
  | none =>
    have hempty : ∀ c, c ∉ state.queued := fun c hc => by
      rw [h.mem_iff, BinaryHeap.pop_eq_none hpop] at hc
      cases hc
    exact .inl ⟨fun c hc => absurd hc (hempty c), fun c hc => absurd hc (hempty c)⟩
  | some popped =>
    obtain ⟨entry, heap⟩ := popped
    obtain ⟨hperm, hfirst⟩ := BinaryHeap.pop_spec hpop
    have hentry : entry ∈ state.heap.values := hperm.mem_iff.mpr mem_cons_self
    have hgeneration {other : PaintEntry Id} (hother : other ∈ state.heap.values) :
        other.generation = generationOf commits other.oid := by
      obtain ⟨found, hfound, heq, -⟩ := h.found other hother
      rw [heq, generationOf_eq hfound]
    have hoids := hperm.map PaintEntry.oid
    rw [map_cons] at hoids
    have hnodup := hoids.nodup_iff.mp h.nodup
    have hmem : entry.oid ∈ state.queued := (h.mem_iff _).mpr (mem_map_of_mem hentry)
    dsimp only
    split
    · next hnext =>
      split at hnext
      · next hover =>
        refine walkIsOver_spec h.counts (fun hfinite => ?_) hover
        rcases hgraded with hinfinite | hrising
        · rw [hgeneration hentry, hinfinite] at hfinite
          exact absurd hfinite (lt_irrefl _)
        · exact hrising
      · cases hnext
    · next hnext =>
      split at hnext
      · cases hnext
      cases hnext
      refine ⟨hmem, hgeneration hentry, fun p => ?_, fun c hc => ?_, rfl, rfl, ?_, fun c => ?_,
        fun other hother => ?_, h.counts.erase hmem⟩
      · obtain ⟨found, hfound, -, hparents⟩ := h.found entry hentry
        rw [hparents, Parent]
        simp [hfound]
      · obtain ⟨other, hother, rfl⟩ := mem_map.mp ((h.mem_iff c).mp hc)
        rw [← hgeneration hother, ← hgeneration hentry]
        have hafter := hfirst other hother
        rw [← Bool.not_eq_true, byGenerationThenDate_iff] at hafter
        exact le_of_not_gt fun hlt => hafter (.inl hlt)
      · exact (nodup_cons.mp hnodup).2
      · rw [Finset.mem_erase, h.mem_iff, hoids.mem_iff, mem_cons]
        have := (nodup_cons.mp hnodup).1
        constructor
        · rintro ⟨hne, rfl | hrest⟩
          · exact absurd rfl hne
          · exact hrest
        · rintro hrest
          exact ⟨fun heq => this (heq ▸ hrest), .inr hrest⟩
      · exact h.found other (hperm.mem_iff.mpr (mem_cons_of_mem _ hother))

end

/-! ### The walk -/

/-- The bits of `flags` are all among the bits a parent carries. -/
def Hands (flags parentFlags : Flags) : Prop := parentFlags &&& inherits flags = inherits flags

theorem Hands.parent1 {f g : Flags} (h : Hands f g) (hf : f.has parent1 = true) :
    g.has parent1 = true := has_of_and_eq h (by rw [(inherits_has f).1, hf])

theorem Hands.parent2 {f g : Flags} (h : Hands f g) (hf : f.has parent2 = true) :
    g.has parent2 = true := has_of_and_eq h (by rw [(inherits_has f).2.1, hf])

theorem Hands.stale {f g : Flags} (h : Hands f g)
    (hf : f.has Flags.stale = true ∨ f.has Flags.parent1 = true ∧ f.has Flags.parent2 = true) :
    g.has Flags.stale = true := by
  refine has_of_and_eq h ?_
  rw [(inherits_has f).2.2.1, Bool.or_eq_true, Bool.and_eq_true]
  exact hf

/-- What the flags, the queued ids and the results of a walk from `one` and `twos` satisfy.
`owed c p`: the commit `c` has still to hand its bits to its parent `p`. -/
structure Walk (commits : Dict Id (CommitMeta Id)) (one : Id) (twos : List Id)
    (owed : Id → Id → Prop) (flags : Id → Flags) (queued : Finset Id) (results : List Id) :
    Prop where
  /-- A bit came from its side. -/
  parent1 : ∀ c, (flags c).has parent1 = true → Reaches (Parent commits) one c
  parent2 : ∀ c, (flags c).has parent2 = true → ∃ two ∈ twos, Reaches (Parent commits) two c
  stale : ∀ c, (flags c).has stale = true →
    ∃ m, Common (Parent commits) one twos m ∧ Passes (Parent commits) m c
  /-- The results are the commits flagged as such. -/
  flagged : ∀ c, (flags c).has result = true ↔ c ∈ results
  common : ∀ c ∈ results, Common (Parent commits) one twos c
  nodup : results.Nodup
  /-- A commit that is not queued has handed its bits on, and is recorded as a candidate. -/
  handed : ∀ c p, c ∉ queued → Parent commits c p → ¬owed c p → Hands (flags c) (flags p)
  recorded : ∀ c, c ∉ queued → (flags c).has Flags.parent1 = true →
    (flags c).has Flags.parent2 = true → (flags c).has Flags.stale = false → c ∈ results

/-- No commit owes its bits to a parent. -/
def nothingOwed (_ _ : Id) : Prop := False

/-- The walk is at the generation `level`: nothing above it is queued, nothing below it has
left the queue. -/
structure Level (commits : Dict Id (CommitMeta Id)) (flags : Id → Flags) (queued : Finset Id)
    (level : WithTop ℕ) : Prop where
  queued_le : ∀ c ∈ queued, generationOf commits c ≤ level
  le_visited : ∀ c, c ∉ queued → flags c ≠ 0#5 → level ≤ generationOf commits c

/-- The seeds carry the bits of their sides. -/
structure Seeded (one : Id) (twos : List Id) (flags : Id → Flags) : Prop where
  one : (flags one).has parent1 = true
  twos : ∀ two ∈ twos, (flags two).has parent2 = true

section

variable [DecidableEq Id] {one : Id} {twos : List Id} {owed owed' : Id → Id → Prop}
  {flags : Id → Flags} {queued : Finset Id} {results : List Id}

variable {id : Id}

theorem has_update_or {bits bit : Flags} (c : Id) :
    (update flags id (flags id ||| bits) c).has bit = true ↔
      (flags c).has bit = true ∨ c = id ∧ bits.has bit = true := by
  by_cases heq : c = id
  · subst heq
    rw [update_self, has_or, Bool.or_eq_true]
    simp
  · rw [update_of_ne heq]
    simp [heq]

theorem Seeded.update (h : Seeded one twos flags) (id : Id) (bits : Flags) :
    Seeded one twos (update flags id (flags id ||| bits)) where
  one := (has_update_or one).mpr (.inl h.one)
  twos two htwo := (has_update_or two).mpr (.inl (h.twos two htwo))

omit [DecidableEq Id] in
/-- Fewer debts, once the difference is paid. -/
theorem Walk.pay (h : Walk commits one twos owed flags queued results)
    (hpaid : ∀ c p, c ∉ queued → Parent commits c p → owed c p → ¬owed' c p →
      Hands (flags c) (flags p)) :
    Walk commits one twos owed' flags queued results where
  parent1 := h.parent1
  parent2 := h.parent2
  stale := h.stale
  flagged := h.flagged
  common := h.common
  nodup := h.nodup
  recorded := h.recorded
  handed c p hc hp hnot := by
    by_cases howed : owed c p
    · exact hpaid c p hc hp howed hnot
    · exact h.handed c p hc hp howed

/-- Bits that a commit may be painted with. -/
structure Due (commits : Dict Id (CommitMeta Id)) (one : Id) (twos : List Id) (id : Id)
    (bits : Flags) : Prop where
  parent1 : bits.has parent1 = true → Reaches (Parent commits) one id
  parent2 : bits.has parent2 = true → ∃ two ∈ twos, Reaches (Parent commits) two id
  stale : bits.has stale = true →
    ∃ m, Common (Parent commits) one twos m ∧ Passes (Parent commits) m id
  result : bits.has result = false

theorem Walk.mark (h : Walk commits one twos owed flags queued results) {bits : Flags}
    (hdue : Due commits one twos id bits) :
    Walk commits one twos owed (update flags id (flags id ||| bits)) (insert id queued)
      results where
  parent1 c hc := by
    rcases (has_update_or c).mp hc with hold | ⟨rfl, hnew⟩
    · exact h.parent1 c hold
    · exact hdue.parent1 hnew
  parent2 c hc := by
    rcases (has_update_or c).mp hc with hold | ⟨rfl, hnew⟩
    · exact h.parent2 c hold
    · exact hdue.parent2 hnew
  stale c hc := by
    rcases (has_update_or c).mp hc with hold | ⟨rfl, hnew⟩
    · exact h.stale c hold
    · exact hdue.stale hnew
  flagged c := by
    rw [has_update_or, hdue.result, h.flagged]
    simp
  common := h.common
  nodup := h.nodup
  handed c p hc hp hnot := by
    have hne : c ≠ id := fun heq => hc (heq ▸ Finset.mem_insert_self id queued)
    have hhands := h.handed c p (fun hmem => hc (Finset.mem_insert_of_mem hmem)) hp hnot
    rw [Hands, update_of_ne hne]
    by_cases heq : p = id
    · subst heq
      rw [update_self]
      exact or_and_eq_of_and_eq hhands bits
    · rw [update_of_ne heq]
      exact hhands
  recorded c hc := by
    have hne : c ≠ id := fun heq => hc (heq ▸ Finset.mem_insert_self id queued)
    rw [update_of_ne hne]
    exact h.recorded c fun hmem => hc (Finset.mem_insert_of_mem hmem)

omit [DecidableEq Id] in
theorem Walk.due (h : Walk commits one twos owed flags queued results) {c p : Id}
    (hp : Parent commits c p) : Due commits one twos p (inherits (flags c)) := by
  obtain ⟨h1, h2, hstale, hresult, -⟩ := inherits_has (flags c)
  refine ⟨fun hbit => ?_, fun hbit => ?_, fun hbit => ?_, hresult⟩
  · rw [h1] at hbit
    exact (h.parent1 c hbit).step hp
  · rw [h2] at hbit
    obtain ⟨two, hmem, hreach⟩ := h.parent2 c hbit
    exact ⟨two, hmem, hreach.step hp⟩
  · rw [hstale, Bool.or_eq_true, Bool.and_eq_true] at hbit
    rcases hbit with hbit | ⟨hbit1, hbit2⟩
    · obtain ⟨m, hm, hpass⟩ := h.stale c hbit
      exact ⟨m, hm, hpass.step hp⟩
    · exact ⟨c, ⟨h.parent1 c hbit1, h.parent2 c hbit2⟩, .of_parent hp⟩

/-- The commit that a pop has taken owes its bits to its parents. -/
def owes (commits : Dict Id (CommitMeta Id)) (popped : Id) (c p : Id) : Prop :=
  c = popped ∧ Parent commits c p

def recordedFlags (flags : Id → Flags) (id : Id) : Id → Flags :=
  update flags id (flags id ||| Flags.result)

theorem visit_cases (flags : Id → Flags) (entry : PaintEntry Id) (results : List Id)
    (options : PaintOptions) :
    (¬flags entry.oid &&& (both ||| stale) = both ∨ (flags entry.oid).has result = true) ∧
      visit flags entry results options = (inherits (flags entry.oid), flags, results) ∨
    flags entry.oid &&& (both ||| stale) = both ∧ (flags entry.oid).has result = false ∧
      ∃ inherited, visit flags entry results options =
        (inherited, recordedFlags flags entry.oid, results ++ [entry.oid]) ∧
      (inherited.has done = true ∧ options.findAll = false ∧
          entry.generation < options.topoCeiling ∨
        inherited = inherits (flags entry.oid)) := by
  unfold visit
  dsimp only
  by_cases hboth : flags entry.oid &&& (both ||| stale) = both
  · have hinherits : inherits (flags entry.oid) = both ||| stale := if_pos hboth
    rw [if_neg (not_not.mpr hboth), hboth, hinherits]
    by_cases hresult : (flags entry.oid).has result = false
    · rw [if_pos hresult]
      refine .inr ⟨rfl, hresult, ?_⟩
      by_cases hdone : options.findAll = false ∧ entry.generation < options.topoCeiling
      · rw [if_pos hdone]
        exact ⟨_, rfl, .inl ⟨by decide, hdone⟩⟩
      · rw [if_neg hdone]
        exact ⟨_, rfl, .inr rfl⟩
    · rw [if_neg hresult]
      exact .inl ⟨.inr (Bool.eq_true_of_not_eq_false hresult), rfl⟩
  · have hinherits : inherits (flags entry.oid) = flags entry.oid &&& (both ||| stale) :=
      if_neg hboth
    rw [if_pos hboth, hinherits]
    exact .inl ⟨.inl hboth, rfl⟩

theorem Walk.release (h : Walk commits one twos nothingOwed flags queued results)
    (hdone : ¬flags id &&& (both ||| Flags.stale) = both ∨ (flags id).has result = true) :
    Walk commits one twos (owes commits id) flags (queued.erase id) results where
  parent1 := h.parent1
  parent2 := h.parent2
  stale := h.stale
  flagged := h.flagged
  common := h.common
  nodup := h.nodup
  handed c p hc hp hnot := by
    have hne : c ≠ id := fun heq => hnot ⟨heq, hp⟩
    exact h.handed c p (fun hmem => hc (Finset.mem_erase.mpr ⟨hne, hmem⟩)) hp fun hf => hf
  recorded c hc h1 h2 hstale := by
    by_cases heq : c = id
    · subst heq
      rcases hdone with hnot | hresult
      · exact absurd ((bucket_iff (flags c)).2.2.mpr ⟨h1, h2, hstale⟩) hnot
      · exact (h.flagged c).mp hresult
    · exact h.recorded c (fun hmem => hc (Finset.mem_erase.mpr ⟨heq, hmem⟩)) h1 h2 hstale

theorem has_recordedFlags {bit : Flags} (hbit : Flags.result.has bit = false) (c : Id) :
    (recordedFlags flags id c).has bit = (flags c).has bit := by
  rw [Bool.eq_iff_iff, recordedFlags, has_update_or, hbit]
  simp

theorem hands_recordedFlags (c p : Id) :
    Hands (flags c) (flags p) → Hands (recordedFlags flags id c) (recordedFlags flags id p) := by
  intro h
  have hinherits : inherits (recordedFlags flags id c) = inherits (flags c) := by
    by_cases heq : c = id
    · subst heq
      rw [recordedFlags, update_self, inherits_or_result]
    · rw [recordedFlags, update_of_ne heq]
  rw [Hands, hinherits]
  by_cases heq : p = id
  · subst heq
    rw [recordedFlags, update_self]
    exact or_and_eq_of_and_eq h _
  · rw [recordedFlags, update_of_ne heq]
    exact h

/-- Recording a popped commit of both sides. -/
theorem Walk.record (h : Walk commits one twos nothingOwed flags queued results)
    (hboth : flags id &&& (both ||| Flags.stale) = both) (hnew : (flags id).has result = false) :
    Walk commits one twos (owes commits id) (recordedFlags flags id) (queued.erase id)
      (results ++ [id]) := by
  obtain ⟨h1, h2, hstale⟩ := (bucket_iff (flags id)).2.2.mp hboth
  have hnotMem : id ∉ results := fun hmem => by
    rw [(h.flagged id).mpr hmem] at hnew
    cases hnew
  refine ⟨fun c hc => ?_, fun c hc => ?_, fun c hc => ?_, fun c => ?_, fun c hc => ?_, ?_,
    fun c p hc hp hnot => ?_, fun c hc hc1 hc2 hcs => ?_⟩
  · rw [has_recordedFlags (by decide)] at hc
    exact h.parent1 c hc
  · rw [has_recordedFlags (by decide)] at hc
    exact h.parent2 c hc
  · rw [has_recordedFlags (by decide)] at hc
    exact h.stale c hc
  · rw [recordedFlags, has_update_or, h.flagged, mem_append, mem_singleton]
    have hbit : Flags.result.has Flags.result = true := by decide
    simp [hbit]
  · rcases mem_append.mp hc with hold | hid
    · exact h.common c hold
    · rw [mem_singleton.mp hid]
      exact ⟨h.parent1 id h1, h.parent2 id h2⟩
  · exact nodup_append.mpr ⟨h.nodup, nodup_singleton id, fun a ha b hb heq =>
      hnotMem (mem_singleton.mp hb ▸ heq ▸ ha)⟩
  · have hne : c ≠ id := fun heq => hnot ⟨heq, hp⟩
    exact hands_recordedFlags c p
      (h.handed c p (fun hmem => hc (Finset.mem_erase.mpr ⟨hne, hmem⟩)) hp fun hf => hf)
  · rw [has_recordedFlags (by decide)] at hc1 hc2 hcs
    rw [mem_append, mem_singleton]
    by_cases heq : c = id
    · exact .inr heq
    · exact .inl (h.recorded c (fun hmem => hc (Finset.mem_erase.mpr ⟨heq, hmem⟩)) hc1 hc2 hcs)

omit [DecidableEq Id] in
theorem Walk.carry_parent1 (h : Walk commits one twos nothingOwed flags queued results) {a b : Id}
    (ha : (flags a).has Flags.parent1 = true) (hreach : Reaches (Parent commits) a b) :
    (flags b).has Flags.parent1 = true ∨ ∃ q, Reaches (Parent commits) a q ∧
      Passes (Parent commits) q b ∧ q ∈ queued ∧ (flags q).has Flags.parent1 = true :=
  carried_or_stopped (fun c p hc hstop hp => (h.handed c p hstop hp fun hf => hf).parent1 hc) ha
    hreach

omit [DecidableEq Id] in
theorem Walk.carry_parent2 (h : Walk commits one twos nothingOwed flags queued results) {a b : Id}
    (ha : (flags a).has Flags.parent2 = true) (hreach : Reaches (Parent commits) a b) :
    (flags b).has Flags.parent2 = true ∨ ∃ q, Reaches (Parent commits) a q ∧
      Passes (Parent commits) q b ∧ q ∈ queued ∧ (flags q).has Flags.parent2 = true :=
  carried_or_stopped (fun c p hc hstop hp => (h.handed c p hstop hp fun hf => hf).parent2 hc) ha
    hreach

omit [DecidableEq Id] in
theorem Rising.lt (hrising : Rising commits) {a b : Id} (h : Passes (Parent commits) a b) :
    generationOf commits b < generationOf commits a :=
  Passes.lt (generationOf commits) hrising h

omit [DecidableEq Id] in
theorem Walk.best (h : Walk commits one twos nothingOwed flags queued results)
    (history : History commits) (hrising : Rising commits) (hseeded : Seeded one twos flags) (hboth : flags id &&& (both ||| Flags.stale) = both)
    (htop : ∀ c ∈ queued, generationOf commits c ≤ generationOf commits id) :
    Best (Parent commits) one twos id := by
  obtain ⟨h1, h2, hfresh⟩ := (bucket_iff (flags id)).2.2.mp hboth
  refine ⟨⟨h.parent1 id h1, h.parent2 id h2⟩, fun m hm hpass => ?_⟩
  obtain ⟨hone, two, hmem, htwo⟩ := hm
  have habove := hrising.lt hpass
  have hclear {q v : Id} (hq : q ∈ queued) (hqv : Passes (Parent commits) q v) :
      generationOf commits v < generationOf commits id := (hrising.lt hqv).trans_le (htop q hq)
  have hm1 : (flags m).has Flags.parent1 = true := by
    rcases h.carry_parent1 hseeded.one hone with hbit | ⟨q, -, hqm, hq, -⟩
    · exact hbit
    · exact absurd (hclear hq hqm) (lt_asymm habove)
  have hm2 : (flags m).has Flags.parent2 = true := by
    rcases h.carry_parent2 (hseeded.twos two hmem) htwo with hbit | ⟨q, -, hqm, hq, -⟩
    · exact hbit
    · exact absurd (hclear hq hqm) (lt_asymm habove)
  have hstale : ∀ a b, (a = m ∨ (flags a).has Flags.stale = true) → a ∉ queued →
      Parent commits a b → b = m ∨ (flags b).has Flags.stale = true := by
    rintro a b hcarried hstop hp
    have hhands := h.handed a b hstop hp fun hf => hf
    rcases hcarried with rfl | hbit
    · exact .inr (hhands.stale (.inr ⟨hm1, hm2⟩))
    · exact .inr (hhands.stale (.inl hbit))
  rcases carried_or_stopped hstale (.inl rfl) hpass.reaches with hid | ⟨q, -, hqid, hq, -⟩
  · rcases hid with rfl | hbit
    · exact history.acyclic _ hpass
    · rw [hfresh] at hbit
      cases hbit
  · exact absurd (hclear hq hqid) (lt_irrefl _)

end

/-! ### Termination -/

section

variable [DecidableEq Id] {flags : Id → Flags} {queued : Finset Id}

/-- Every mark adds a missing bit, and queues one commit at most. -/
def variant (commits : Dict Id (CommitMeta Id)) (flags : Id → Flags) (queued : Finset Id) : ℕ :=
  (∑ c ∈ commits.keys.toFinset, missing (flags c)) + queued.card

theorem variant_mark {id : Id} (hid : commits.get id ≠ none) {bits : Flags}
    (hnew : ¬flags id &&& inherits bits = inherits bits) :
    variant commits (update flags id (flags id ||| inherits bits)) (insert id queued) ≤
      variant commits flags queued := by
  have hsum : ∑ c ∈ commits.keys.toFinset,
      missing (update flags id (flags id ||| inherits bits) c) <
        ∑ c ∈ commits.keys.toFinset, missing (flags c) := by
    refine Finset.sum_lt_sum (fun c _ => ?_)
      ⟨id, mem_toFinset.mpr (commits.covered id hid), ?_⟩
    · by_cases heq : c = id
      · subst heq
        rw [update_self]
        exact missing_or_le _ _
      · rw [update_of_ne heq]
    · rw [update_self]
      exact missing_or_lt _ _ hnew
  have hcard := Finset.card_insert_le id queued
  unfold variant
  omega

theorem variant_recordedFlags (id : Id) :
    variant commits (recordedFlags flags id) queued = variant commits flags queued := by
  unfold variant
  congr 1
  refine Finset.sum_congr rfl fun c _ => ?_
  by_cases heq : c = id
  · subst heq
    rw [recordedFlags, update_self, missing_or_result]
  · rw [recordedFlags, update_of_ne heq]

theorem variant_pop {id : Id} (hid : id ∈ queued) :
    variant commits flags (queued.erase id) < variant commits flags queued := by
  have hcard := Finset.card_erase_lt_of_mem hid
  unfold variant
  omega

end

/-! ### The loop -/

section

variable [DecidableEq Id] {one : Id} {twos : List Id} {options : PaintOptions}

/-- What holds between two pops. -/
structure Painting (commits : Dict Id (CommitMeta Id)) (one : Id) (twos : List Id)
    (state : PaintState Id) (results : List Id) : Prop where
  queue : Queue commits state
  walk : Walk commits one twos nothingOwed state.flags state.queued results
  seeded : Seeded one twos state.flags
  level : Rising commits → ∃ level, Level commits state.flags state.queued level
  best : Rising commits → ∀ c ∈ results, Best (Parent commits) one twos c

/-- The walk has been taken to its end. -/
structure Finished (commits : Dict Id (CommitMeta Id)) (one : Id) (twos : List Id)
    (options : PaintOptions) (outcome : PaintOutcome Id) (queued : Finset Id) : Prop where
  walk : Walk commits one twos nothingOwed outcome.flags queued outcome.results
  seeded : Seeded one twos outcome.flags
  level : Rising commits → ∃ level, Level commits outcome.flags queued level
  ended : Exhausted commits outcome.flags queued ∨
    ∃ c ∈ queued, generationOf commits c < options.minGeneration ∧
      ∀ c' ∈ queued, generationOf commits c' ≤ generationOf commits c

/-- What `paint` answers. -/
structure Painted (commits : Dict Id (CommitMeta Id)) (one : Id) (twos : List Id)
    (options : PaintOptions) (outcome : PaintOutcome Id) : Prop where
  walk : ∃ owed queued, Walk commits one twos owed outcome.flags queued outcome.results
  best : Rising commits → ∀ c ∈ outcome.results, Best (Parent commits) one twos c
  finish : (∃ queued, Finished commits one twos options outcome queued) ∨
    options.findAll = false ∧ Rising commits ∧ outcome.results ≠ []

/-- What holds while the parents of `popped` are marked: those in `pending` are left. -/
structure Marking (commits : Dict Id (CommitMeta Id)) (one : Id) (twos : List Id) (popped : Id)
    (bound : ℕ) (bits : Flags) (results : List Id) (pending : List Id) (state : PaintState Id) :
    Prop where
  queue : Queue commits state
  walk : Walk commits one twos (fun c p => c = popped ∧ p ∈ pending) state.flags state.queued
    results
  seeded : Seeded one twos state.flags
  bits_eq : inherits (state.flags popped) = bits
  notMem : popped ∉ state.queued
  parents : ∀ p ∈ pending, Parent commits popped p
  level : Rising commits → Level commits state.flags state.queued (generationOf commits popped)
  variant_le : variant commits state.flags state.queued ≤ bound

theorem Marking.step (history : History commits) {popped : Id} {bound : ℕ} {bits : Flags}
    {results pending : List Id} {p : Id} {state : PaintState Id}
    (h : Marking commits one twos popped bound bits results (p :: pending) state) :
    Run.Returns (markParent (readCommit commits) bits state p)
      (Marking commits one twos popped bound bits results pending) := by
  have hp := h.parents p mem_cons_self
  have hne : popped ≠ p := fun heq => history.acyclic popped (.of_parent (heq ▸ hp))
  have hparents : ∀ q ∈ pending, Parent commits popped q := fun q hq =>
    h.parents q (mem_cons_of_mem _ hq)
  unfold markParent
  split
  · next hhas =>
    refine .pure { h with walk := h.walk.pay ?_, parents := hparents }
    rintro c q - - ⟨rfl, hq⟩ hnot
    rcases mem_cons.mp hq with rfl | hq
    · rw [Hands, h.bits_eq]
      exact hhas
    · exact absurd ⟨rfl, hq⟩ hnot
  · next hnew =>
    refine (markPainted_spec h.queue (history.closed hp) bits).mono ?_
    rintro next ⟨hflags, hqueued, hqueue⟩
    have hbits := h.bits_eq
    subst hbits
    have hpopped : next.flags popped = state.flags popped := by
      rw [hflags, update_of_ne hne]
    have hwalk := h.walk.mark (h.walk.due hp)
    rw [← hflags, ← hqueued] at hwalk
    refine ⟨hqueue, hwalk.pay ?_, hflags ▸ h.seeded.update p _, by rw [hpopped], ?_, hparents,
      fun hrising => ?_, ?_⟩
    · rintro c q - - ⟨rfl, hq⟩ hnot
      rcases mem_cons.mp hq with rfl | hq
      · rw [Hands, hpopped, hflags, update_self]
        exact or_and_eq _ _
      · exact absurd ⟨rfl, hq⟩ hnot
    · rw [hqueued, Finset.mem_insert, not_or]
      exact ⟨hne, h.notMem⟩
    · have hlevel := h.level hrising
      refine ⟨fun c hc => ?_, fun c hc hpainted => ?_⟩
      · rw [hqueued, Finset.mem_insert] at hc
        rcases hc with rfl | hc
        · exact (hrising popped c hp).le
        · exact hlevel.queued_le c hc
      · rw [hqueued, Finset.mem_insert, not_or] at hc
        rw [hflags, update_of_ne hc.1] at hpainted
        exact hlevel.le_visited c hc.2 hpainted
    · rw [hflags, hqueued]
      exact (variant_mark (history.closed hp) hnew).trans h.variant_le

theorem Level.pop {flags flags' : Id → Flags} {queued : Finset Id} {level : WithTop ℕ}
    (h : Level commits flags queued level) {popped : Id} (hmem : popped ∈ queued)
    (htop : ∀ c ∈ queued, generationOf commits c ≤ generationOf commits popped)
    (hflags : ∀ c, c ≠ popped → flags' c = flags c) :
    Level commits flags' (queued.erase popped) (generationOf commits popped) where
  queued_le c hc := htop c (Finset.mem_of_mem_erase hc)
  le_visited c hc hpainted := by
    by_cases heq : c = popped
    · rw [heq]
    · rw [hflags c heq] at hpainted
      have hold := h.le_visited c (fun hq => hc (Finset.mem_erase.mpr ⟨heq, hq⟩)) hpainted
      exact (h.queued_le popped hmem).trans hold

theorem Marking.parents_spec (history : History commits) {popped : Id} {bound : ℕ} {bits : Flags}
    {results pending : List Id} {state : PaintState Id}
    (h : Marking commits one twos popped bound bits results pending state)
    (hbest : Rising commits → ∀ c ∈ results, Best (Parent commits) one twos c) :
    Run.Returns (pending.foldlM (markParent (readCommit commits) bits) state) fun next =>
      Painting commits one twos next results ∧
        variant commits next.flags next.queued ≤ bound := by
  refine (Run.foldM_spec (fun s p rest hs => hs.step history) h).mono ?_
  rintro next hnext
  refine ⟨⟨hnext.queue, hnext.walk.pay ?_, hnext.seeded, fun hrising => ⟨_, hnext.level hrising⟩,
    hbest⟩, hnext.variant_le⟩
  rintro c p - - ⟨-, hp⟩ -
  cases hp

/-- **One turn of the walk.** -/
theorem paintTurn_spec (options : PaintOptions) (history : History commits)
    (hgraded : AllInfinite commits ∨ Rising commits) (s : PaintState Id × List Id)
    (h : Painting commits one twos s.1 s.2) :
    Run.Returns (paintTurn (readCommit commits) options s)
      (Run.Turn.Meets (Painted commits one twos options) fun next =>
        Painting commits one twos next.1 next.2 ∧ variant commits next.1.flags next.1.queued <
            variant commits s.1.flags s.1.queued) := by
  obtain ⟨state, results⟩ := s
  dsimp only at h ⊢
  have hpop := popPainted_spec h.queue hgraded options.topoCeiling
  unfold paintTurn
  dsimp only
  cases hentry : popPainted state options.topoCeiling with
  | none =>
    rw [hentry] at hpop
    exact .pure ⟨⟨_, _, h.walk⟩, h.best, .inl ⟨_, h.walk, h.seeded, h.level, .inl hpop⟩⟩
  | some popped =>
    obtain ⟨entry, popped⟩ := popped
    rw [hentry] at hpop
    dsimp only at hpop ⊢
    obtain ⟨hmem, hgeneration, hparents, htop, hflags, hqueued, hqueue⟩ := hpop
    split
    · next hbelow =>
      rw [hgeneration] at hbelow
      rw [hflags]
      exact .pure ⟨⟨_, _, h.walk⟩, h.best,
        .inl ⟨_, h.walk, h.seeded, h.level, .inr ⟨_, hmem, hbelow, htop⟩⟩⟩
    have hvariant : variant commits state.flags (state.queued.erase entry.oid) <
        variant commits state.flags state.queued := variant_pop hmem
    -- Whatever the visit records, the parents are marked with the same bits.
    have hrest {flags : Id → Flags} {recorded : List Id}
        (hwalk : Walk commits one twos (owes commits entry.oid) flags popped.queued recorded)
        (hseeded : Seeded one twos flags) (hqueue : Queue commits { popped with flags := flags })
        (hsame : ∀ c, c ≠ entry.oid → flags c = state.flags c)
        (hbest : Rising commits → ∀ c ∈ recorded, Best (Parent commits) one twos c)
        (hbound : variant commits flags popped.queued <
          variant commits state.flags state.queued) :
        Run.Returns (do
          let next ← entry.parents.foldlM
            (markParent (readCommit commits) (inherits (flags entry.oid)))
            { popped with flags := flags }
          return (.again (next, recorded) : Run.Turn _ _))
          (Run.Turn.Meets (Painted commits one twos options) fun next =>
            Painting commits one twos next.1 next.2 ∧ variant commits next.1.flags next.1.queued <
                variant commits state.flags state.queued) := by
      have hmarking : Marking commits one twos entry.oid (variant commits flags popped.queued)
          (inherits (flags entry.oid)) recorded entry.parents
          { popped with flags := flags } := by
        refine ⟨hqueue, hwalk.pay ?_, hseeded, rfl, ?_, fun p hp => (hparents p).mp hp,
          fun hrising => ?_, Nat.le_refl _⟩
        · rintro c p - hp ⟨rfl, -⟩ hnot
          exact absurd ⟨rfl, (hparents p).mpr hp⟩ hnot
        · rw [hqueued]
          exact Finset.notMem_erase _ _
        · obtain ⟨level, hlevel⟩ := h.level hrising
          rw [hqueued]
          exact hlevel.pop hmem htop hsame
      refine (hmarking.parents_spec history hbest).bind ?_
      rintro next ⟨hnext, hle⟩
      exact .pure ⟨hnext, hle.trans_lt hbound⟩
    rcases visit_cases state.flags entry results options with
      ⟨hdone, hvisit⟩ | ⟨hboth, hnew, inherited, hvisit, hinherited⟩
    · have hnotDone := (inherits_has (state.flags entry.oid)).2.2.2.2
      rw [hflags, hvisit]
      simp only [hnotDone, Bool.false_eq_true, if_false]
      refine hrest (hqueued ▸ h.walk.release hdone) h.seeded ?_ (fun _ _ => rfl) h.best
        (hqueued ▸ hvariant)
      rw [← hflags]
      exact hqueue
    · have hwalk := h.walk.record hboth hnew
      have hbest : Rising commits →
          ∀ c ∈ results ++ [entry.oid], Best (Parent commits) one twos c := by
        rintro hrising c hc
        rcases mem_append.mp hc with hold | hnewest
        · exact h.best hrising c hold
        · rw [mem_singleton.mp hnewest]
          exact h.walk.best history hrising h.seeded hboth htop
      rw [hflags, hvisit]
      rcases hinherited with ⟨hdone, hfirst, hceiling⟩ | rfl
      · simp only [hdone, if_true]
        refine .pure ⟨⟨_, _, hwalk⟩, hbest, .inr ⟨hfirst, ?_, by simp⟩⟩
        rcases hgraded with hinfinite | hrising
        · rw [hgeneration, hinfinite] at hceiling
          exact absurd (hceiling.trans_le le_top) (lt_irrefl _)
        · exact hrising
      · have hnotDone := (inherits_has (state.flags entry.oid)).2.2.2.2
        have hbits : inherits (recordedFlags state.flags entry.oid entry.oid) =
            inherits (state.flags entry.oid) := by
          rw [recordedFlags, update_self, inherits_or_result]
        simp only [hnotDone, Bool.false_eq_true, if_false]
        rw [← hbits]
        refine hrest (hqueued ▸ hwalk) (h.seeded.update _ _) ?_
          (fun c hc => update_of_ne hc ..) hbest ?_
        · refine hqueue.congr fun c hc => ?_
          rw [hqueued] at hc
          rw [hflags, recordedFlags, update_of_ne (Finset.ne_of_mem_erase hc)]
        · rw [variant_recordedFlags, hqueued]
          exact hvariant

omit [DecidableEq Id] in
/-- Nothing is painted before the seeds. -/
theorem walk_empty : Walk commits one twos nothingOwed (fun _ => 0#5) ∅ [] where
  parent1 _ h := by cases h
  parent2 _ h := by cases h
  stale _ h := by cases h
  flagged c := by
    constructor
    · intro h
      cases h
    · intro h
      cases h
  common _ h := by cases h
  nodup := nodup_nil
  handed _ _ _ _ _ := by
    rw [Hands, show inherits 0#5 = 0#5 by decide, BitVec.and_zero]
  recorded _ _ h := by cases h

omit [DecidableEq Id] in
theorem due_one : Due commits one twos one Flags.parent1 :=
  ⟨fun _ => .refl one, fun h => absurd h (by decide), fun h => absurd h (by decide), by decide⟩

omit [DecidableEq Id] in
theorem due_two {two : Id} (h : two ∈ twos) : Due commits one twos two Flags.parent2 :=
  ⟨fun h => absurd h (by decide), fun _ => ⟨two, h, .refl two⟩, fun h => absurd h (by decide),
    by decide⟩

/-- What holds while the seeds are marked: those in `rest` are left. -/
structure Seeding (commits : Dict Id (CommitMeta Id)) (one : Id) (twos rest : List Id)
    (state : PaintState Id) : Prop where
  queue : Queue commits state
  walk : Walk commits one twos nothingOwed state.flags state.queued []
  paintedOne : (state.flags one).has parent1 = true
  paintedTwos : ∀ two ∈ twos, two ∈ rest ∨ (state.flags two).has parent2 = true
  left : ∀ two ∈ rest, two ∈ twos
  unpainted : ∀ c, c ∉ state.queued → state.flags c = 0#5

theorem Seeding.step (hcommits : ∀ two ∈ twos, commits.get two ≠ none) {two : Id}
    {rest : List Id} {state : PaintState Id} (h : Seeding commits one twos (two :: rest) state) :
    Run.Returns (markPainted (readCommit commits) state two parent2)
      (Seeding commits one twos rest) := by
  have htwo := h.left two mem_cons_self
  refine (markPainted_spec h.queue (hcommits two htwo) parent2).mono ?_
  rintro next ⟨hflags, hqueued, hqueue⟩
  refine ⟨hqueue, hflags ▸ hqueued ▸ h.walk.mark (due_two htwo), ?_, fun two' hmem => ?_,
    fun two' hmem => h.left two' (mem_cons_of_mem _ hmem), fun c hc => ?_⟩
  · rw [hflags, has_update_or]
    exact .inl h.paintedOne
  · rw [hflags, has_update_or]
    rcases h.paintedTwos two' hmem with hleft | hbit
    · rcases mem_cons.mp hleft with rfl | hleft
      · exact .inr (.inr ⟨rfl, by decide⟩)
      · exact .inl hleft
    · exact .inr (.inl hbit)
  · rw [hqueued, Finset.mem_insert, not_or] at hc
    rw [hflags, update_of_ne hc.1]
    exact h.unpainted c hc.2

omit [DecidableEq Id] in
theorem Seeding.painting {state : PaintState Id} (h : Seeding commits one twos [] state) :
    Painting commits one twos state [] where
  queue := h.queue
  walk := h.walk
  seeded := ⟨h.paintedOne, fun two htwo => (h.paintedTwos two htwo).resolve_left (fun hnil => by cases hnil)⟩
  level _ := ⟨⊤, fun _ _ => le_top, fun c hc hpainted => absurd (h.unpainted c hc) hpainted⟩
  best _ c hc := by cases hc

theorem Queue.variant_le {state : PaintState Id} (h : Queue commits state) :
    variant commits state.flags state.queued ≤ 4 * commits.keys.length := by
  have hkeys := commits.keys.toFinset_card_le
  have hsum : ∑ c ∈ commits.keys.toFinset, missing (state.flags c) ≤
      commits.keys.toFinset.card * 3 :=
    Finset.sum_le_card_nsmul _ _ 3 fun c _ => missing_le _
  have hqueued : state.queued.card ≤ commits.keys.toFinset.card := by
    refine Finset.card_le_card fun c hc => mem_toFinset.mpr ?_
    obtain ⟨entry, hentry, rfl⟩ := mem_map.mp ((h.mem_iff c).mp hc)
    obtain ⟨found, hfound, -⟩ := h.found entry hentry
    exact commits.covered _ (hfound ▸ Option.some_ne_none found)
  unfold variant
  omega

/-- The first mark, of `one`. -/
theorem mark_one_spec (twos : List Id) (hone : commits.get one ≠ none) :
    Run.Returns (markPainted (readCommit commits) emptyPaintState one parent1) fun state =>
      Seeding commits one twos twos state ∧
        state.flags = update (fun _ => 0#5) one parent1 := by
  refine (markPainted_spec emptyPaintState_queue hone parent1).mono ?_
  rintro state ⟨hflags, hqueued, hqueue⟩
  have hwalk := (walk_empty : Walk commits one twos _ _ _ _).mark due_one
  refine ⟨⟨hqueue, ?_, ?_, fun two htwo => .inl htwo, fun two htwo => htwo, fun c hc => ?_⟩, ?_⟩
  · rw [hflags, hqueued]
    exact hwalk
  · rw [hflags, has_update_or]
    exact .inr ⟨rfl, by decide⟩
  · rw [hqueued, Finset.mem_insert, not_or] at hc
    rw [hflags, update_of_ne hc.1]
    rfl
  · have hfirst : (0#5 ||| parent1 : Flags) = parent1 := by decide
    rw [hflags]
    change update (fun _ => 0#5) one (0#5 ||| parent1) = _
    rw [hfirst]

/-- **The walk ends**, with an outcome as described, whatever the dates are. -/
theorem paint_spec (history : History commits) (hgraded : AllInfinite commits ∨ Rising commits)
    (hone : commits.get one ≠ none) (htwos : ∀ two ∈ twos, commits.get two ≠ none)
    (hsome : twos ≠ []) (options : PaintOptions) {fuel : ℕ}
    (hfuel : 4 * commits.keys.length < fuel) :
    Run.Returns (paint fuel (readCommit commits) one twos options)
      (Painted commits one twos options) := by
  unfold paint
  refine (mark_one_spec twos hone).bind ?_
  rintro state ⟨hstate, -⟩
  rw [isEmpty_eq_false_iff.mpr hsome, if_neg Bool.false_ne_true]
  refine (Run.foldM_spec (fun s two rest hs => hs.step htwos) hstate).bind ?_
  rintro seeded hseeded
  have hbound : variant commits seeded.flags seeded.queued < fuel :=
    Nat.lt_of_le_of_lt hseeded.queue.variant_le hfuel
  have hloop := Run.loop_spec (fun s : PaintState Id × List Id => Painting commits one twos s.1 s.2)
    (fun s => variant commits s.1.flags s.1.queued) (paintTurn_spec options history hgraded) fuel
    (seeded, [])
  exact hloop hseeded.painting hbound

theorem paint_nil (hone : commits.get one ≠ none) (options : PaintOptions) (fuel : ℕ) :
    paint fuel (readCommit commits) one [] options =
      pure ⟨update (fun _ => 0#5) one parent1, [one]⟩ := by
  obtain ⟨state, hrun, -, hflags⟩ := mark_one_spec [] hone
  rw [paint, hrun, pure_bind, hflags]
  rfl

end

end Tsgit.MergeBase
