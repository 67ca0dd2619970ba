import Mathlib.Algebra.Order.BigOperators.Group.Finset
import Tsgit.Ancestry
import Tsgit.LimitList

/-!
# What the Limited Walk Shows

A commit that was seen waits in the queue, or its parents were seen too; and a marked one waits in
the queue, or its parents are marked too.
-/

namespace Tsgit.LimitList

open Ancestry List

variable {Id : Type} {commits : Dict Id (Parsed Id)} {options : LimitListOptions Id}

/-! ### What is to be shown -/

def Parent (commits : Dict Id (Parsed Id)) (c p : Id) : Prop :=
  ∃ found, commits.get c = some found ∧ p ∈ found.parents

def Excluded (commits : Dict Id (Parsed Id)) (options : LimitListOptions Id) (c : Id) : Prop :=
  ∃ u ∈ options.excluded, Reaches (Parent commits) u c

def Wanted (commits : Dict Id (Parsed Id)) (options : LimitListOptions Id) (c : Id) : Prop :=
  (∃ seed ∈ options.seeds, seed ∉ options.excluded ∧ Reaches (Parent commits) seed c) ∧
    ¬ Excluded commits options c

def generationOf (commits : Dict Id (Parsed Id)) (c : Id) : WithTop ℕ :=
  ((commits.get c).map (·.generation)).getD outsideGraph

/-- Every generation is infinite, or finite and larger than each parent's. -/
def Graded (commits : Dict Id (Parsed Id)) : Prop :=
  ∀ c p, Parent commits c p →
    generationOf commits c = outsideGraph ∨ generationOf commits p < generationOf commits c

theorem Excluded.parent {c p : Id} (h : Excluded commits options c) (hp : Parent commits c p) :
    Excluded commits options p := by
  obtain ⟨u, hu, hreach⟩ := h
  exact ⟨u, hu, hreach.step hp⟩

variable {parsed : Dict Id (Parsed Id)}

theorem mem_parentsOf {c p : Id} :
    p ∈ parentsOf parsed c ↔ Parent parsed c p := by
  unfold parentsOf Parent
  cases parsed.get c with
  | none => exact iff_of_false not_mem_nil fun ⟨_, h, _⟩ => by cases h
  | some found => exact ⟨fun h => ⟨found, rfl, h⟩, fun ⟨_, h, hp⟩ => by cases h; exact hp⟩

/-! ### The state of a walk -/

/-- The commit waits in the queue. -/
def LimitState.Queued (s : LimitState Id) (c : Id) : Prop := c ∈ s.queue.values.map (·.oid)

/-- What is known of a state. `owed` may be marked without their parents, `unfollowed` seen without
theirs. -/
structure Walk (commits : Dict Id (Parsed Id)) (options : LimitListOptions Id)
    (owed unfollowed : Id → Prop) (s : LimitState Id) : Prop where
  parsed : ∀ {c found}, s.parsed.get c = some found → commits.get c = some found
  seen : ∀ c ∈ s.seen, s.parsed.get c ≠ none
  queued : ∀ c, s.Queued c → c ∈ s.seen
  graded : ∀ e ∈ s.queue.values, e.generation = generationOf commits e.oid
  distinct : (s.queue.values.map (·.oid)).Nodup
  reached : ∀ c ∈ s.seen, ∃ seed ∈ options.seeds, Reaches (Parent commits) seed c
  marked : ∀ c ∈ s.uninteresting, Excluded commits options c
  settled : ∀ c ∈ s.uninteresting, c ∈ s.seen →
    s.Queued c ∨ owed c ∨ ∀ p, Parent commits c p → p ∈ s.uninteresting
  followed : ∀ c ∈ s.seen, s.Queued c ∨ unfollowed c ∨ ∀ p, Parent commits c p → p ∈ s.seen

/-- Every commit is settled, or every one is followed. -/
def nobody (_ : Id) : Prop := False

section

variable {owed owed' unfollowed unfollowed' : Id → Prop} {s t : LimitState Id}

variable {c : Id}

theorem Walk.parents_eq (h : Walk commits options owed unfollowed s)
    (hc : s.parsed.get c ≠ none) : parentsOf s.parsed c = parentsOf commits c := by
  obtain ⟨found, hfound⟩ := Option.ne_none_iff_exists'.mp hc
  unfold parentsOf
  rw [hfound, h.parsed hfound]

theorem Walk.get_ne_none (h : Walk commits options owed unfollowed s)
    (hc : s.parsed.get c ≠ none) : commits.get c ≠ none := by
  obtain ⟨found, hfound⟩ := Option.ne_none_iff_exists'.mp hc
  rw [h.parsed hfound]
  exact Option.some_ne_none found

theorem Walk.parents_sub (h : Walk commits options owed unfollowed s) (c : Id) :
    (parentsOf s.parsed c).length ≤ (parentsOf commits c).length := by
  by_cases hc : s.parsed.get c = none
  · unfold parentsOf
    rw [hc]
    exact Nat.zero_le _
  · rw [h.parents_eq hc]

theorem Walk.weaken (h : Walk commits options owed unfollowed s) (howed : ∀ c, owed c → owed' c)
    (hfollow : ∀ c, unfollowed c → unfollowed' c) : Walk commits options owed' unfollowed' s where
  parsed := h.parsed
  seen := h.seen
  queued := h.queued
  graded := h.graded
  distinct := h.distinct
  reached := h.reached
  marked := h.marked
  settled c hc hseen := (h.settled c hc hseen).imp_right (Or.imp_left (howed c))
  followed c hc := (h.followed c hc).imp_right (Or.imp_left (hfollow c))

/-- The walk knows more of the commits. -/
theorem Walk.reparse (h : Walk commits options owed unfollowed s)
    (hmore : ∀ {c found}, s.parsed.get c = some found → parsed.get c = some found)
    (hsound : ∀ {c found}, parsed.get c = some found → commits.get c = some found) :
    Walk commits options owed unfollowed { s with parsed := parsed } where
  parsed := hsound
  seen c hc := by
    obtain ⟨found, hfound⟩ := Option.ne_none_iff_exists'.mp (h.seen c hc)
    dsimp only
    rw [hmore hfound]
    exact Option.some_ne_none found
  queued := h.queued
  graded := h.graded
  distinct := h.distinct
  reached := h.reached
  marked := h.marked
  settled := h.settled
  followed := h.followed

theorem Walk.remark (h : Walk commits options owed unfollowed s) {uninteresting : Finset Id}
    (hmarked : ∀ c ∈ uninteresting, Excluded commits options c)
    (hsettled : ∀ c ∈ uninteresting, c ∈ s.seen →
      s.Queued c ∨ owed' c ∨ ∀ p, Parent commits c p → p ∈ uninteresting) :
    Walk commits options owed' unfollowed { s with uninteresting := uninteresting } where
  parsed := h.parsed
  seen := h.seen
  queued := h.queued
  graded := h.graded
  distinct := h.distinct
  reached := h.reached
  marked := hmarked
  settled := hsettled
  followed := h.followed

section

variable [DecidableEq Id]

/-- The commits that were not seen yet, and those that wait. -/
def LimitState.load (commits : Dict Id (Parsed Id)) (s : LimitState Id) : ℕ :=
  (commits.keys.toFinset \ s.seen).card + s.queue.values.length

/-- What a part of a turn leaves as it was: it marks more commits, and puts what it sees in the
queue. -/
structure Steps (commits : Dict Id (Parsed Id)) (s t : LimitState Id) : Prop where
  uninteresting : s.uninteresting ⊆ t.uninteresting
  seen : s.seen ⊆ t.seen
  popped : ∀ c ∈ t.seen, ¬ t.Queued c → c ∈ s.seen ∧ ¬ s.Queued c
  queued : ∀ c, s.Queued c → t.Queued c
  kept : ∀ c ∈ s.seen, t.Queued c → s.Queued c
  parsed : ∀ {c found}, s.parsed.get c = some found → t.parsed.get c = some found
  lowest : t.lowestShownGeneration = s.lowestShownGeneration
  load : t.load commits = s.load commits

theorem Steps.refl (s : LimitState Id) : Steps commits s s where
  uninteresting := Finset.Subset.refl _
  seen := Finset.Subset.refl _
  popped _ hseen hqueued := ⟨hseen, hqueued⟩
  queued _ h := h
  kept _ _ h := h
  parsed h := h
  lowest := rfl
  load := rfl

theorem Steps.trans {u : LimitState Id} (h : Steps commits s t) (h' : Steps commits t u) :
    Steps commits s u where
  uninteresting := h.uninteresting.trans h'.uninteresting
  seen := h.seen.trans h'.seen
  popped c hseen hqueued := (h'.popped c hseen hqueued).elim (h.popped c)
  queued c hc := h'.queued c (h.queued c hc)
  kept c hc hwaits := h.kept c hc (h'.kept c (h.seen hc) hwaits)
  parsed hc := h'.parsed (h.parsed hc)
  lowest := h'.lowest.trans h.lowest
  load := h'.load.trans h.load

theorem Steps.get_ne_none (h : Steps commits s t) (hc : s.parsed.get c ≠ none) :
    t.parsed.get c ≠ none := by
  obtain ⟨found, hfound⟩ := Option.ne_none_iff_exists'.mp hc
  rw [h.parsed hfound]
  exact Option.some_ne_none found

theorem Steps.remark {uninteresting : Finset Id} (h : s.uninteresting ⊆ uninteresting) :
    Steps commits s { s with uninteresting := uninteresting } where
  uninteresting := h
  seen := Finset.Subset.refl _
  popped _ hseen hqueued := ⟨hseen, hqueued⟩
  queued _ h := h
  kept _ _ h := h
  parsed h := h
  lowest := rfl
  load := rfl

theorem Steps.reparse
    (h : ∀ {c found}, s.parsed.get c = some found → parsed.get c = some found) :
    Steps commits s { s with parsed := parsed } where
  uninteresting := Finset.Subset.refl _
  seen := Finset.Subset.refl _
  popped _ hseen hqueued := ⟨hseen, hqueued⟩
  queued _ h := h
  kept _ _ h := h
  parsed := h
  lowest := rfl
  load := rfl

/-! ### The mark comes down -/

/-- What the marks may cost: the pointers to parents, and the commits. -/
def pointers (commits : Dict Id (Parsed Id)) (ids : Finset Id) : ℕ :=
  ∑ c ∈ ids, ((parentsOf commits c).length + 1)

theorem pointers_erase {ids : Finset Id} {c : Id} (hc : c ∈ ids) :
    pointers commits (ids.erase c) + ((parentsOf commits c).length + 1) = pointers commits ids :=
  Finset.sum_erase_add ids _ hc

omit [DecidableEq Id] in
theorem pointers_mono {ids ids' : Finset Id} (h : ids ⊆ ids') :
    pointers commits ids ≤ pointers commits ids' :=
  Finset.sum_le_sum_of_subset h

/-- The loop that marks, with `pending` still to be marked for the parents of `id`. -/
structure Marking (commits : Dict Id (Parsed Id)) (options : LimitListOptions Id)
    (owed : Id → Prop) (s : LimitState Id) (id : Id) (m : Finset Id × List Id) : Prop where
  more : s.uninteresting ⊆ m.1
  marked : ∀ c ∈ m.1, Excluded commits options c
  pending : ∀ c ∈ m.2, Excluded commits options c ∧ commits.get c ≠ none
  parents : ∀ p, Parent commits id p → p ∈ m.1 ∨ p ∈ m.2
  settled : ∀ c ∈ m.1, c ∈ s.seen →
    s.Queued c ∨ owed c ∨ ∀ p, Parent commits c p → p ∈ m.1 ∨ p ∈ m.2

def Closed (commits : Dict Id (Parsed Id)) : Prop :=
  ∀ c p, Parent commits c p → commits.get p ≠ none

theorem markTurn_spec (hclosed : Closed commits) (h : Walk commits options owed unfollowed s)
    {id : Id} {m : Finset Id × List Id} (hm : Marking commits options owed s id m) :
    (markTurn s.parsed m).Meets
      (fun u => s.uninteresting ⊆ u ∧ (∀ c ∈ u, Excluded commits options c) ∧
        (∀ p, Parent commits id p → p ∈ u) ∧
        ∀ c ∈ u, c ∈ s.seen → s.Queued c ∨ owed c ∨ ∀ p, Parent commits c p → p ∈ u)
      fun m' => Marking commits options owed s id m' ∧
        m'.2.length + pointers commits (commits.keys.toFinset \ m'.1) <
          m.2.length + pointers commits (commits.keys.toFinset \ m.1) := by
  obtain ⟨marks, pending⟩ := m
  unfold markTurn
  dsimp only
  cases hlast : pending.getLast? with
  | none =>
    obtain rfl := getLast?_eq_none_iff.mp hlast
    have hnone : ∀ {p : Id}, p ∈ marks ∨ p ∈ ([] : List Id) → p ∈ marks := fun hp =>
      hp.resolve_right not_mem_nil
    exact ⟨hm.more, hm.marked, fun p hp => hnone (hm.parents p hp), fun c hc hseen =>
      (hm.settled c hc hseen).imp_right (Or.imp_right fun hp p hparent => hnone (hp p hparent))⟩
  | some next =>
    obtain ⟨front, rfl⟩ := getLast?_eq_some_iff.mp hlast
    rw [dropLast_concat]
    dsimp only
    have hlength : (front ++ [next]).length = front.length + 1 := length_append
    have hsplit : ∀ {p : Id}, p ∈ front ++ [next] → p ∈ front ∨ p = next := fun hp =>
      (mem_append.mp hp).imp_right mem_singleton.mp
    by_cases hnext : next ∈ marks
    · rw [if_pos hnext]
      have hkeep : ∀ {p : Id}, p ∈ marks ∨ p ∈ front ++ [next] → p ∈ marks ∨ p ∈ front := by
        rintro p (hp | hp)
        · exact .inl hp
        · rcases hsplit hp with hp | rfl
          · exact .inr hp
          · exact .inl hnext
      refine ⟨⟨hm.more, hm.marked, fun c hc => hm.pending c (mem_append_left _ hc),
        fun p hp => hkeep (hm.parents p hp), fun c hc hseen => (hm.settled c hc hseen).imp_right
          (Or.imp_right fun hp p hparent => hkeep (hp p hparent))⟩, ?_⟩
      dsimp only
      omega
    · rw [if_neg hnext]
      obtain ⟨hexcluded, hthere⟩ := hm.pending next (mem_append_right _
        (mem_singleton_self _))
      have hkeep : ∀ {p : Id}, p ∈ marks ∨ p ∈ front ++ [next] →
          p ∈ insert next marks ∨ p ∈ front ++ parentsOf s.parsed next := by
        rintro p (hp | hp)
        · exact .inl (Finset.mem_insert_of_mem hp)
        · rcases hsplit hp with hp | rfl
          · exact .inr (mem_append_left _ hp)
          · exact .inl (Finset.mem_insert_self _ _)
      refine ⟨⟨hm.more.trans (Finset.subset_insert _ _), fun c hc => ?_, fun c hc => ?_,
        fun p hp => hkeep (hm.parents p hp), fun c hc hseen => ?_⟩, ?_⟩
      · rcases Finset.mem_insert.mp hc with rfl | hc
        · exact hexcluded
        · exact hm.marked c hc
      · rcases mem_append.mp hc with hc | hc
        · exact hm.pending c (mem_append_left _ hc)
        · obtain ⟨found, hfound, hp⟩ := mem_parentsOf.mp hc
          have hparent : Parent commits next c := ⟨found, h.parsed hfound, hp⟩
          exact ⟨hexcluded.parent hparent, hclosed _ _ hparent⟩
      · rcases Finset.mem_insert.mp hc with rfl | hc
        · refine .inr (.inr fun p hp => .inr (mem_append_right _ ?_))
          rw [h.parents_eq (h.seen _ hseen)]
          exact mem_parentsOf.mpr hp
        · exact (hm.settled c hc hseen).imp_right
            (Or.imp_right fun hp p hparent => hkeep (hp p hparent))
      · have hkey : next ∈ commits.keys.toFinset \ marks :=
          Finset.mem_sdiff.mpr ⟨mem_toFinset.mpr (commits.covered next hthere), hnext⟩
        have hcost := @pointers_erase _ commits _ _ _ hkey
        have hfewer := h.parents_sub next
        dsimp only
        rw [Finset.sdiff_insert, length_append]
        omega

def markFuel (commits : Dict Id (Parsed Id)) : ℕ := 2 * pointers commits commits.keys.toFinset

theorem markParentsUninteresting_spec (hclosed : Closed commits)
    (h : Walk commits options owed unfollowed s) {id : Id} (hid : s.parsed.get id ≠ none)
    (hexcluded : Excluded commits options id) {fuel : ℕ} (hfuel : markFuel commits < fuel) :
    Run.Returns (markParentsUninteresting fuel s id) fun t =>
      Walk commits options (fun c => owed c ∧ c ≠ id) unfollowed t ∧ Steps commits s t ∧
        t.seen = s.seen ∧ t.parsed = s.parsed := by
  have hparents : ∀ p, p ∈ parentsOf s.parsed id ↔ Parent commits id p := fun p => by
    rw [h.parents_eq hid, mem_parentsOf]
  have hstart : Marking commits options owed s id (s.uninteresting, parentsOf s.parsed id) :=
    ⟨Finset.Subset.refl _, h.marked, fun c hc => by
        have hparent := (hparents c).mp hc
        exact ⟨hexcluded.parent hparent, hclosed _ _ hparent⟩,
      fun p hp => .inr ((hparents p).mpr hp), fun c hc hseen => (h.settled c hc hseen).imp_right
        (Or.imp_right fun hp p hparent => .inl (hp p hparent))⟩
  have hkey : id ∈ commits.keys.toFinset :=
    mem_toFinset.mpr (commits.covered id (h.get_ne_none hid))
  have hcost : (parentsOf s.parsed id).length +
      pointers commits (commits.keys.toFinset \ s.uninteresting) < fuel := by
    have hone := @pointers_erase _ commits _ _ _ hkey
    have hrest : pointers commits (commits.keys.toFinset \ s.uninteresting) ≤
        pointers commits commits.keys.toFinset := pointers_mono Finset.sdiff_subset
    have hfewer := h.parents_sub id
    unfold markFuel at hfuel
    omega
  unfold markParentsUninteresting
  refine (Run.loop_spec (Marking commits options owed s id)
    (fun m => m.2.length + pointers commits (commits.keys.toFinset \ m.1))
    (fun m hm => .pure (markTurn_spec hclosed h hm)) fuel _ hstart hcost).bind fun u hu => .pure ?_
  obtain ⟨hmore, hmarked, hall, hsettled⟩ := hu
  refine ⟨h.remark hmarked fun c hc hseen => ?_, .remark hmore, rfl, rfl⟩
  rcases hsettled c hc hseen with hqueued | howed | hp
  · exact .inl hqueued
  · by_cases heq : c = id
    · subst heq
      exact .inr (.inr hall)
    · exact .inr (.inl ⟨howed, heq⟩)
  · exact .inr (.inr hp)

/-! ### Commits are parsed and queued -/

theorem parse_spec (h : Walk commits options owed unfollowed s) {id : Id}
    (hid : commits.get id ≠ none) (ignoreMissing : Bool) (mode : ParseMode) :
    Run.Returns (parse commits ignoreMissing mode s id) fun r =>
      r.1 = commits.get id ∧ Walk commits options owed unfollowed r.2 ∧ Steps commits s r.2 ∧
        r.2.parsed.get id ≠ none ∧ r.2.seen = s.seen ∧ r.2.uninteresting = s.uninteresting := by
  obtain ⟨found, hfound⟩ := Option.ne_none_iff_exists'.mp hid
  unfold parse
  cases hknown : s.parsed.get id with
  | some known =>
    refine .pure ⟨(h.parsed hknown).symm, h, .refl s, ?_, rfl, rfl⟩
    dsimp only
    rw [hknown]
    exact Option.some_ne_none known
  | none =>
    dsimp only
    rw [hfound]
    have hmore : ∀ {c found'}, s.parsed.get c = some found' →
        (s.parsed.insert id found).get c = some found' := by
      intro c found' hc
      rw [Dict.get_insert_of_ne]
      · exact hc
      · rintro rfl
        rw [hknown] at hc
        cases hc
    have hsound : ∀ {c found'}, (s.parsed.insert id found).get c = some found' →
        commits.get c = some found' := by
      intro c found' hc
      by_cases heq : c = id
      · subst heq
        rw [Dict.get_insert_self] at hc
        rw [hfound, hc]
      · rw [Dict.get_insert_of_ne _ _ heq] at hc
        exact h.parsed hc
    refine .pure ⟨rfl, h.reparse hmore hsound, .reparse hmore, ?_, rfl, rfl⟩
    unfold remember
    dsimp only
    rw [Dict.get_insert_self]
    exact Option.some_ne_none found

theorem parseAll_spec (h : Walk commits options owed unfollowed s) {ids : List Id}
    (hids : ∀ id ∈ ids, commits.get id ≠ none) (ignoreMissing : Bool) (mode : ParseMode) :
    Run.Returns (parseAll commits ignoreMissing mode s ids) fun r =>
      r.1 = ids.map commits.get ∧ Walk commits options owed unfollowed r.2 ∧
        Steps commits s r.2 ∧ (∀ id ∈ ids, r.2.parsed.get id ≠ none) ∧ r.2.seen = s.seen ∧
          r.2.uninteresting = s.uninteresting := by
  induction ids generalizing s with
  | nil =>
    exact .pure ⟨rfl, h, .refl s, fun id hid => absurd hid not_mem_nil, rfl, rfl⟩
  | cons id ids ih =>
    rw [parseAll]
    refine (parse_spec h (hids id mem_cons_self) ignoreMissing mode).bind fun first hfirst => ?_
    obtain ⟨entry, next⟩ := first
    obtain ⟨rfl, hnext, hsteps, hparsed, hseen, hmarks⟩ := hfirst
    refine (ih hnext (forall_mem_cons.mp hids).2).bind
      fun rest hrest => .pure ?_
    obtain ⟨entries, last⟩ := rest
    obtain ⟨rfl, hlast, hsteps', hparsed', hseen', hmarks'⟩ := hrest
    refine ⟨rfl, hlast, hsteps.trans hsteps', fun other hother => ?_, hseen'.trans hseen,
      hmarks'.trans hmarks⟩
    rcases mem_cons.mp hother with rfl | hmem
    · exact hsteps'.get_ne_none hparsed
    · exact hparsed' other hmem

omit [DecidableEq Id] in
theorem queued_enqueue {oid c : Id} {parsed : Parsed Id} :
    (enqueue s oid parsed).Queued c ↔ c = oid ∨ s.Queued c := by
  unfold LimitState.Queued enqueue
  rw [((s.queue.perm_push _).map (·.oid)).mem_iff, map_cons, mem_cons]

theorem enqueue_spec (h : Walk commits options owed unfollowed s) {id : Id} {found : Parsed Id}
    (hid : s.parsed.get id = some found) (hnew : id ∉ s.seen)
    (hreached : ∃ seed ∈ options.seeds, Reaches (Parent commits) seed id) :
    Walk commits options owed unfollowed
        (enqueue { s with seen := insert id s.seen } id found) ∧
      Steps commits s (enqueue { s with seen := insert id s.seen } id found) := by
  have hqueued : ∀ c, (enqueue { s with seen := insert id s.seen } id found).Queued c ↔
      c = id ∨ s.Queued c := fun c => queued_enqueue
  have hperm := s.queue.perm_push ⟨id, found.date, s.arrivals, found.generation⟩
  have hgeneration : found.generation = generationOf commits id := by
    rw [generationOf, h.parsed hid]
    rfl
  refine ⟨⟨h.parsed, fun c hc => ?_, fun c hc => ?_, fun e he => ?_, ?_, fun c hc => ?_, h.marked,
    fun c hc hseen => ?_, fun c hc => ?_⟩, ⟨Finset.Subset.refl _, Finset.subset_insert _ _,
    fun c hc hwaits => ?_, fun c hc => (hqueued c).mpr (.inr hc),
    fun c hc hwaits => ?_, fun hc => hc, rfl, ?_⟩⟩
  · rcases Finset.mem_insert.mp hc with rfl | hc
    · exact fun hnone => by
        rw [show s.parsed.get c = none from hnone] at hid
        cases hid
    · exact h.seen c hc
  · rcases (hqueued c).mp hc with rfl | hc
    · exact Finset.mem_insert_self _ _
    · exact Finset.mem_insert_of_mem (h.queued c hc)
  · rcases mem_cons.mp (hperm.mem_iff.mp he) with rfl | he
    · exact hgeneration
    · exact h.graded e he
  · refine (hperm.map (·.oid)).nodup_iff.mpr (nodup_cons.mpr ⟨fun hwaits => ?_, h.distinct⟩)
    exact hnew (h.queued id hwaits)
  · rcases Finset.mem_insert.mp hc with rfl | hc
    · exact hreached
    · exact h.reached c hc
  · rw [hqueued]
    rcases Finset.mem_insert.mp hseen with rfl | hseen
    · exact .inl (.inl rfl)
    · exact (h.settled c hc hseen).imp_left .inr
  · rw [hqueued]
    rcases Finset.mem_insert.mp hc with rfl | hc
    · exact .inl (.inl rfl)
    · exact (h.followed c hc).imp .inr
        (Or.imp_right fun hp p hparent => Finset.mem_insert_of_mem (hp p hparent))
  · rw [hqueued, not_or] at hwaits
    exact ⟨Finset.mem_of_mem_insert_of_ne hc hwaits.1, hwaits.2⟩
  · rcases (hqueued c).mp hwaits with rfl | hwaits
    · exact absurd hc hnew
    · exact hwaits
  have hkey : id ∈ commits.keys.toFinset \ s.seen := Finset.mem_sdiff.mpr
    ⟨mem_toFinset.mpr (commits.covered id (by rw [h.parsed hid]; exact Option.some_ne_none _)),
      hnew⟩
  have hfewer := Finset.card_erase_add_one hkey
  unfold LimitState.load enqueue
  dsimp only
  rw [hperm.length_eq, Finset.sdiff_insert, length_cons]
  omega

theorem enqueueOnce_spec (h : Walk commits options owed unfollowed s) {id : Id}
    (hid : s.parsed.get id ≠ none)
    (hreached : ∃ seed ∈ options.seeds, Reaches (Parent commits) seed id) :
    Walk commits options owed unfollowed (enqueueOnce s id (commits.get id)) ∧
      Steps commits s (enqueueOnce s id (commits.get id)) ∧
        id ∈ (enqueueOnce s id (commits.get id)).seen ∧
          (enqueueOnce s id (commits.get id)).uninteresting = s.uninteresting := by
  obtain ⟨found, hfound⟩ := Option.ne_none_iff_exists'.mp hid
  rw [h.parsed hfound, enqueueOnce]
  split
  · next hseen => exact ⟨h, .refl s, hseen, rfl⟩
  · next hnew =>
    obtain ⟨hwalk, hsteps⟩ := enqueue_spec h hfound hnew hreached
    exact ⟨hwalk, hsteps, Finset.mem_insert_self _ _, rfl⟩

/-! ### A popped commit -/

omit [DecidableEq Id] in
theorem Walk.finish {id : Id} (h : Walk commits options owed (· = id) s)
    (howed : ∀ c, ¬ owed c) (hparents : ∀ p, Parent commits id p → p ∈ s.seen) :
    Walk commits options nobody nobody s where
  parsed := h.parsed
  seen := h.seen
  queued := h.queued
  graded := h.graded
  distinct := h.distinct
  reached := h.reached
  marked := h.marked
  settled c hc hseen :=
    (h.settled c hc hseen).imp_right fun hc => .inr (hc.resolve_left (howed c))
  followed c hc := (h.followed c hc).imp_right fun hc => .inr <| by
    rcases hc with rfl | hp
    · exact hparents
    · exact hp

theorem mem_foldl_insert {ids : List Id} {set : Finset Id} :
    c ∈ ids.foldl (fun set id => insert id set) set ↔ c ∈ set ∨ c ∈ ids := by
  induction ids generalizing set with
  | nil => exact ⟨.inl, fun h => h.resolve_right not_mem_nil⟩
  | cons id ids ih =>
    rw [foldl_cons, ih, Finset.mem_insert, mem_cons]
    constructor
    · rintro ((heq | hset) | hids)
      · exact .inr (.inl heq)
      · exact .inl hset
      · exact .inr (.inr hids)
    · rintro (hset | heq | hids)
      · exact .inl (.inr hset)
      · exact .inl (.inl heq)
      · exact .inr hids

variable {id : Id}

/-- **The parents of a marked commit** are marked and seen. -/
theorem processUninterestingParents_spec (hclosed : Closed commits)
    (h : Walk commits options (· = id) (· = id) s) (hseen : id ∈ s.seen)
    (hmarked : id ∈ s.uninteresting) {fuel : ℕ} (hfuel : markFuel commits < fuel)
    (ignoreMissing : Bool) :
    Run.Returns (processUninterestingParents fuel commits ignoreMissing s (parentsOf s.parsed id))
      fun t => Walk commits options nobody nobody t ∧ Steps commits s t := by
  obtain ⟨parents, hdef⟩ : ∃ parents, parents = parentsOf s.parsed id := ⟨_, rfl⟩
  have hparents : ∀ p, p ∈ parents ↔ Parent commits id p := fun p => by
    rw [hdef, h.parents_eq (h.seen id hseen), mem_parentsOf]
  have hexcluded : ∀ p ∈ parents, Excluded commits options p := fun p hp =>
    (h.marked id hmarked).parent ((hparents p).mp hp)
  have hreached : ∀ p ∈ parents, ∃ seed ∈ options.seeds, Reaches (Parent commits) seed p := by
    intro p hp
    obtain ⟨seed, hseed, hreach⟩ := h.reached id hseen
    exact ⟨seed, hseed, hreach.step ((hparents p).mp hp)⟩
  rw [← hdef]
  unfold processUninterestingParents
  dsimp only
  obtain ⟨marks, hmarks⟩ : ∃ marks, marks =
    parents.foldl (fun set parent => insert parent set) s.uninteresting := ⟨_, rfl⟩
  have hmem : ∀ c, c ∈ marks ↔ c ∈ s.uninteresting ∨ c ∈ parents := fun c => by
    rw [hmarks, mem_foldl_insert]
  have hbulk : Walk commits options (· ∈ parents) (· = id) { s with uninteresting := marks } := by
    refine h.remark (fun c hc => ?_) fun c hc hcseen => ?_
    · rcases (hmem c).mp hc with hc | hc
      · exact h.marked c hc
      · exact hexcluded c hc
    by_cases hparent : c ∈ parents
    · exact .inr (.inl hparent)
    · rcases h.settled c (((hmem c).mp hc).resolve_right hparent) hcseen with hq | rfl | hp
      · exact .inl hq
      · exact .inr (.inr fun p hp => (hmem p).mpr (.inr ((hparents p).mpr hp)))
      · exact .inr (.inr fun p hp' => (hmem p).mpr (.inl (hp p hp')))
  rw [← hmarks]
  refine (parseAll_spec hbulk (fun p hp => hclosed id p ((hparents p).mp hp)) ignoreMissing
    .gentle).bind fun r hr => ?_
  obtain ⟨entries, read⟩ := r
  obtain ⟨rfl, hread, hsteps, hparsed, -, -⟩ := hr
  dsimp only
  rw [← map_prod_left_eq_zip, foldlM_map]
  -- the parents that are left owe the marks of their own parents
  refine (@Run.foldM_spec _ _ _ _ (fun rest t => Walk commits options (· ∈ rest) (· = id) t ∧
    Steps commits read t ∧ (∀ p ∈ parents, p ∈ rest ∨ p ∈ t.seen) ∧ rest ⊆ parents)
    (fun t p rest ht => ?_) _ _ ⟨hread, .refl read, fun p hp => .inl hp, fun p hp => hp⟩).mono
      fun t ht => ?_
  · obtain ⟨hwalk, hmore, hdone, hsub⟩ := ht
    have hp : p ∈ parents := hsub mem_cons_self
    obtain ⟨found, hfound⟩ := Option.ne_none_iff_exists'.mp (hparsed p hp)
    have hthere := hmore.get_ne_none (hparsed p hp)
    rw [hread.parsed hfound]
    refine (markParentsUninteresting_spec hclosed hwalk hthere (hexcluded p hp) hfuel).bind
      fun next hnext => .pure ?_
    obtain ⟨hnext, hsteps', hseen', hparsed'⟩ := hnext
    have hleft : Walk commits options (· ∈ rest) (· = id) next :=
      hnext.weaken (fun c hc => (mem_cons.mp hc.1).resolve_left hc.2) fun _ hc => hc
    have honce := enqueueOnce_spec hleft (hsteps'.get_ne_none hthere) (hreached p hp)
    rw [hread.parsed hfound] at honce
    obtain ⟨hlast, hsteps'', hpseen, -⟩ := honce
    refine ⟨hlast, (hmore.trans hsteps').trans hsteps'', fun other hother => ?_,
      fun other hother => hsub (mem_cons_of_mem _ hother)⟩
    rcases hdone other hother with hleft | hold
    · rcases mem_cons.mp hleft with rfl | hleft
      · exact .inr hpseen
      · exact .inl hleft
    · exact .inr (hsteps''.seen (hsteps'.seen hold))
  · obtain ⟨hwalk, hmore, hdone, -⟩ := ht
    refine ⟨hwalk.finish (fun c => not_mem_nil) fun p hp =>
      (hdone p ((hparents p).mpr hp)).resolve_left not_mem_nil, ?_⟩
    refine (Steps.remark fun c hc => ?_).trans (hsteps.trans hmore)
    exact (hmem c).mpr (.inl hc)

theorem processParents_spec (hclosed : Closed commits) (hplain : options.firstParent = false)
    (h : Walk commits options (· = id) (· = id) s) (hseen : id ∈ s.seen) {fuel : ℕ}
    (hfuel : markFuel commits < fuel) :
    Run.Returns (processParents fuel commits options s id) fun t =>
      Walk commits options nobody nobody t ∧ Steps commits s t := by
  unfold processParents
  dsimp only
  split
  · next hmarked =>
    exact processUninterestingParents_spec hclosed h hseen hmarked hfuel options.ignoreMissing
  · next hunmarked =>
    obtain ⟨parents, hdef⟩ : ∃ parents, parents = parentsOf s.parsed id := ⟨_, rfl⟩
    have hparents : ∀ p, p ∈ parents ↔ Parent commits id p := fun p => by
      rw [hdef, h.parents_eq (h.seen id hseen), mem_parentsOf]
    rw [← hdef, hplain, if_neg Bool.false_ne_true]
    have hread := parseAll_spec h (fun p hp => hclosed id p ((hparents p).mp hp))
      options.ignoreMissing .strict
    refine hread.bind fun r hr => .pure ?_
    obtain ⟨entries, read⟩ := r
    obtain ⟨rfl, hread, hsteps, hparsed, hseen', hmarks⟩ := hr
    dsimp only at hread hsteps hparsed hseen' hmarks ⊢
    rw [← map_prod_left_eq_zip, foldl_map]
    have hfold : ∀ (rest : List Id) (t : LimitState Id), rest ⊆ parents →
        Walk commits options (· = id) (· = id) t → Steps commits read t →
        t.uninteresting = read.uninteresting → (∀ p ∈ parents, p ∈ rest ∨ p ∈ t.seen) →
        (fun last => Walk commits options (· = id) (· = id) last ∧ Steps commits read last ∧
          last.uninteresting = read.uninteresting ∧ ∀ p ∈ parents, p ∈ last.seen)
          (rest.foldl (fun t p => enqueueOnce t p (commits.get p)) t) := by
      intro rest
      induction rest with
      | nil =>
        exact fun t _ hwalk hmore hmarks' hdone => ⟨hwalk, hmore, hmarks', fun p hp =>
          (hdone p hp).resolve_left not_mem_nil⟩
      | cons p rest ih =>
        intro t hsub hwalk hmore hmarks' hdone
        have hp : p ∈ parents := hsub mem_cons_self
        obtain ⟨seed, hseed, hreach⟩ := h.reached id hseen
        obtain ⟨hnext, hsteps', hpseen, hsame⟩ := enqueueOnce_spec hwalk
          (hmore.get_ne_none (hparsed p hp)) ⟨seed, hseed, hreach.step ((hparents p).mp hp)⟩
        rw [foldl_cons]
        refine ih _ (fun other hother => hsub (mem_cons_of_mem _ hother)) hnext
          (hmore.trans hsteps') (hsame.trans hmarks') fun other hother => ?_
        rcases hdone other hother with hleft | hold
        · rcases mem_cons.mp hleft with rfl | hleft
          · exact .inr hpseen
          · exact .inl hleft
        · exact .inr (hsteps'.seen hold)
    obtain ⟨hwalk, hmore, hmarks', hdone⟩ := hfold parents read (fun p hp => hp) hread (.refl read)
      rfl fun p hp => .inl hp
    -- the commit itself is not marked, so it owes no marks
    have hsettled : Walk commits options nobody (· = id)
        (parents.foldl (fun t p => enqueueOnce t p (commits.get p)) read) :=
      ⟨hwalk.parsed, hwalk.seen, hwalk.queued, hwalk.graded, hwalk.distinct, hwalk.reached,
        hwalk.marked, fun c hc hcseen => (hwalk.settled c hc hcseen).imp_right fun hc' =>
          .inr <| hc'.resolve_left <| by
            rintro rfl
            rw [hmarks', hmarks] at hc
            exact hunmarked hc, hwalk.followed⟩
    exact ⟨hsettled.finish (fun _ => not_false) fun p hp => hdone p ((hparents p).mpr hp),
      hsteps.trans hmore⟩

/-! ### The walk over the queue -/

omit [DecidableEq Id] in
theorem Walk.keep (h : Walk commits options owed unfollowed s) (cache : Option Id)
    (lowest : WithTop ℕ) : Walk commits options owed unfollowed
      { s with interestingCache := cache, lowestShownGeneration := lowest } :=
  ⟨h.parsed, h.seen, h.queued, h.graded, h.distinct, h.reached, h.marked, h.settled, h.followed⟩

/-- What the walk has come to: the popped commits are taken or marked. -/
structure Drained (commits : Dict Id (Parsed Id)) (options : LimitListOptions Id)
    (taken : List Id) (s : LimitState Id) : Prop where
  walk : Walk commits options nobody nobody s
  seeds : ∀ seed ∈ options.seeds, seed ∈ s.seen ∧ (seed ∈ options.excluded → seed ∈ s.uninteresting)
  nodup : taken.Nodup
  listed : ∀ c ∈ taken, c ∈ s.seen ∧ ¬ s.Queued c ∧ s.lowestShownGeneration ≤ generationOf commits c
  popped : ∀ c ∈ s.seen, ¬ s.Queued c → c ∈ taken ∨ c ∈ s.uninteresting

/-- No queued commit is interesting, nor young enough to descend from a taken one. -/
def Settled (options : LimitListOptions Id) (s : LimitState Id) : Prop :=
  ∀ e ∈ s.queue.values, e.oid ∈ s.uninteresting ∧
    (options.settle = .generation → e.generation < s.lowestShownGeneration)

theorem Walk.pop (h : Walk commits options nobody nobody s) {e : Entry Id}
    {queue : BinaryHeap (@precedesByArrival Id)} (hpop : s.queue.pop = some (e, queue))
    (cache : Option Id) :
    Walk commits options (· = e.oid) (· = e.oid)
        { s with queue := queue, interestingCache := cache } ∧
      (∀ c, s.Queued c ↔ c = e.oid ∨ ({ s with queue := queue } : LimitState Id).Queued c) ∧
      ¬ ({ s with queue := queue } : LimitState Id).Queued e.oid ∧
      ({ s with queue := queue } : LimitState Id).load commits + 1 = s.load commits := by
  obtain ⟨hperm, -⟩ := BinaryHeap.pop_spec hpop
  have hids := hperm.map (·.oid)
  rw [map_cons] at hids
  have hqueued : ∀ c, s.Queued c ↔ c = e.oid ∨
      ({ s with queue := queue } : LimitState Id).Queued c := fun c =>
    hids.mem_iff.trans mem_cons
  have hdistinct := nodup_cons.mp (hids.nodup_iff.mp h.distinct)
  refine ⟨⟨h.parsed, h.seen, fun c hc => h.queued c ((hqueued c).mpr (.inr hc)), fun e' he' =>
    h.graded e' (hperm.mem_iff.mpr (mem_cons_of_mem _ he')), hdistinct.2, h.reached, h.marked,
    fun c hc hseen => ?_, fun c hc => ?_⟩, hqueued, hdistinct.1, ?_⟩
  · rcases h.settled c hc hseen with hwaits | howed | hp
    · rcases (hqueued c).mp hwaits with heq | hwaits
      · exact .inr (.inl heq)
      · exact .inl hwaits
    · exact howed.elim
    · exact .inr (.inr hp)
  · rcases h.followed c hc with hwaits | howed | hp
    · rcases (hqueued c).mp hwaits with heq | hwaits
      · exact .inr (.inl heq)
      · exact .inl hwaits
    · exact howed.elim
    · exact .inr (.inr hp)
  · unfold LimitState.load
    dsimp only
    rw [hperm.length_eq, length_cons]
    omega

theorem everybodyUninteresting_spec (s : LimitState Id) :
    ∃ cache, (everybodyUninteresting s).2 = { s with interestingCache := cache } ∧
      ((everybodyUninteresting s).1 = true → ∀ e ∈ s.queue.values, e.oid ∈ s.uninteresting) := by
  unfold everybodyUninteresting
  split
  · exact ⟨s.interestingCache, rfl, fun h => absurd h Bool.false_ne_true⟩
  · refine ⟨_, rfl, fun h e he => ?_⟩
    have hnone := find?_eq_none.mp (Option.isNone_iff_eq_none.mp h) e he
    rw [decide_eq_true_iff, not_not] at hnone
    exact hnone

theorem keepWalking_spec (options : LimitListOptions Id) (s : LimitState Id) (date : Option ℤ)
    (slop : ℕ) : ∃ cache, (keepWalking options s date slop).2 = { s with interestingCache := cache } ∧
      ((keepWalking options s date slop).1 = 0 → Settled options s) := by
  obtain ⟨cache, hstate, heverybody⟩ := everybodyUninteresting_spec s
  have hlimit : slopLimit ≠ 0 := by decide
  unfold keepWalking
  split
  · next hslop =>
    have hsettled : (∀ e ∈ s.queue.values, e.oid ∈ s.uninteresting) → Settled options s :=
      fun h e he => ⟨h e he, fun hgeneration => by rw [hslop] at hgeneration; cases hgeneration⟩
    unfold stillInteresting
    split
    · next hhead =>
      rw [head?_eq_none_iff] at hhead
      exact ⟨s.interestingCache, rfl, fun _ => hsettled fun e he => by
        rw [hhead] at he
        exact absurd he not_mem_nil⟩
    split
    · exact ⟨s.interestingCache, rfl, fun h => absurd h hlimit⟩
    · dsimp only
      split
      · next htrue => exact ⟨cache, hstate, fun _ => hsettled (heverybody htrue)⟩
      · exact ⟨cache, hstate, fun h => absurd h hlimit⟩
  · unfold generationSettled
    dsimp only
    refine ⟨cache, hstate, fun h e he => ?_⟩
    split at h
    · next htrue =>
      obtain ⟨hall, hlower⟩ := Bool.and_eq_true_iff.mp htrue
      rw [hstate] at hlower
      exact ⟨heverybody hall e he, fun _ => of_decide_eq_true (all_eq_true.mp hlower e he)⟩
    · exact absurd h hlimit

/-- No commit is taken twice, none is left out by its date, and every one is followed. -/
structure Plain (options : LimitListOptions Id) : Prop where
  firstParent : options.firstParent = false
  takeAtMost : options.takeAtMost = none
  minAge : options.minAge = none

theorem drainTurn_spec (hclosed : Closed commits) (hplain : Plain options) {d : DrainState Id}
    (h : Drained commits options d.taken d.state) {fuel : ℕ} (hfuel : markFuel commits < fuel) :
    Run.Returns (drainTurn fuel commits options d) (Run.Turn.Meets
      (fun r => Drained commits options r.1 r.2 ∧ Settled options r.2)
      fun d' => Drained commits options d'.taken d'.state ∧
        d'.state.load commits < d.state.load commits) := by
  unfold drainTurn
  split
  · next hpop =>
    refine .pure ⟨h, fun e he => ?_⟩
    rw [BinaryHeap.pop_eq_none hpop] at he
    exact absurd he not_mem_nil
  · next e queue hpop =>
    dsimp only
    obtain ⟨cache, hcache⟩ : ∃ cache, cache = if d.state.interestingCache = some e.oid then none
      else d.state.interestingCache := ⟨_, rfl⟩
    rw [← hcache]
    obtain ⟨hpopped, hqueued, hgone, hload⟩ := h.walk.pop hpop cache
    have hwaits : d.state.Queued e.oid := (hqueued e.oid).mpr (.inl rfl)
    have hgeneration : e.generation = generationOf commits e.oid :=
      h.walk.graded e ((BinaryHeap.pop_spec hpop).1.mem_iff.mpr mem_cons_self)
    refine (processParents_spec hclosed hplain.firstParent hpopped (h.walk.queued _ hwaits)
      hfuel).bind fun t ht => ?_
    obtain ⟨hwalk, hsteps⟩ := ht
    have hlighter : t.load commits < d.state.load commits := by
      rw [hsteps.load]
      exact Nat.lt_of_succ_le hload.le
    have hseeds : ∀ seed ∈ options.seeds, seed ∈ t.seen ∧
        (seed ∈ options.excluded → seed ∈ t.uninteresting) := fun seed hseed =>
      ⟨hsteps.seen (h.seeds seed hseed).1, fun hex =>
        hsteps.uninteresting ((h.seeds seed hseed).2 hex)⟩
    have htaken : ∀ c ∈ d.taken, c ∈ t.seen ∧ ¬ t.Queued c ∧
        t.lowestShownGeneration ≤ generationOf commits c := by
      intro c hc
      obtain ⟨hseen, hnot, hlowest⟩ := h.listed c hc
      refine ⟨hsteps.seen hseen, fun hq => ?_, hsteps.lowest ▸ hlowest⟩
      exact hnot ((hqueued c).mpr (.inr (hsteps.kept c hseen hq)))
    have hdone : ∀ c ∈ t.seen, ¬ t.Queued c →
        c = e.oid ∨ c ∈ d.taken ∨ c ∈ t.uninteresting := by
      intro c hseen hnot
      obtain ⟨hseen', hnot'⟩ := hsteps.popped c hseen hnot
      by_cases heq : c = e.oid
      · exact .inl heq
      · have hold : ¬ d.state.Queued c := fun hq =>
          ((hqueued c).mp hq).elim heq hnot'
        exact .inr ((h.popped c hseen' hold).imp_right fun hmark => hsteps.uninteresting hmark)
    have hoid : e.oid ∈ t.seen ∧ ¬ t.Queued e.oid :=
      ⟨hsteps.seen (h.walk.queued _ hwaits), fun hq =>
        hgone (hsteps.kept _ (h.walk.queued _ hwaits) hq)⟩
    split
    · next hmarked =>
      obtain ⟨cache', hstate, hsettled⟩ := keepWalking_spec options t d.date d.slop
      have hnext : Drained commits options d.taken { t with interestingCache := cache' } :=
        ⟨hwalk.keep cache' t.lowestShownGeneration, hseeds, h.nodup, htaken, fun c hc hq => by
          rcases hdone c hc hq with rfl | hc
          · exact .inr hmarked
          · exact hc⟩
      rw [← hstate] at hnext
      split
      · next hzero =>
        refine .pure ⟨hnext, ?_⟩
        rw [hstate]
        exact hsettled hzero
      · refine .pure ⟨hnext, ?_⟩
        dsimp only
        rw [hstate]
        exact hlighter
    · rw [hplain.minAge, hplain.takeAtMost]
      dsimp only [Option.any_none]
      rw [if_neg Bool.false_ne_true, if_neg (fun hnone => by cases hnone)]
      have hfresh : e.oid ∉ d.taken := fun hmem => (h.listed _ hmem).2.1 hwaits
      refine .pure ⟨⟨hwalk.keep t.interestingCache _, hseeds, ?_, fun c hc => ?_, fun c hc hq => ?_⟩,
        hlighter⟩
      · refine nodup_append.mpr ⟨h.nodup, nodup_singleton _, fun a ha b hb => ?_⟩
        rintro rfl
        exact hfresh (mem_singleton.mp hb ▸ ha)
      · rcases mem_append.mp hc with hc | hc
        · obtain ⟨hseen, hnot, hlowest⟩ := htaken c hc
          exact ⟨hseen, hnot, (min_le_left _ _).trans hlowest⟩
        · obtain rfl := mem_singleton.mp hc
          exact ⟨hoid.1, hoid.2, (min_le_right _ _).trans hgeneration.le⟩
      · rcases hdone c hc hq with rfl | hc | hc
        · exact .inl (mem_append_right _ (mem_singleton_self _))
        · exact .inl (mem_append_left _ hc)
        · exact .inr hc

/-- **The walk stops**, settled. -/
theorem drain_spec (hclosed : Closed commits) (hplain : Plain options)
    (h : Drained commits options [] s) {fuel : ℕ} (hfuel : markFuel commits < fuel)
    (hload : s.load commits < fuel) :
    Run.Returns (drain fuel commits options s) fun r =>
      Drained commits options r.1 r.2 ∧ Settled options r.2 := by
  unfold drain
  exact Run.loop_spec (fun d : DrainState Id => Drained commits options d.taken d.state)
    (fun d => d.state.load commits) (fun d hd => drainTurn_spec hclosed hplain hd hfuel) fuel _ h
    hload

/-! ### The seeds -/

omit [DecidableEq Id] in
theorem createState_walk : Walk commits options nobody nobody (createState : LimitState Id) where
  parsed h := by cases h
  seen c hc := absurd hc (Finset.notMem_empty c)
  queued c hc := absurd hc not_mem_nil
  graded e he := absurd he not_mem_nil
  distinct := nodup_nil
  reached c hc := absurd hc (Finset.notMem_empty c)
  marked c hc := absurd hc (Finset.notMem_empty c)
  settled c hc := absurd hc (Finset.notMem_empty c)
  followed c hc := absurd hc (Finset.notMem_empty c)

/-- What is known before the seeds of `rest` are queued. -/
structure Seeding (commits : Dict Id (Parsed Id)) (options : LimitListOptions Id) (rest : List Id)
    (s : LimitState Id) : Prop where
  walk : Walk commits options nobody nobody s
  waiting : ∀ c ∈ s.seen, s.Queued c ∧ c ∉ rest
  seeds : ∀ seed ∈ options.seeds, seed ∈ rest ∨ seed ∈ s.seen ∧
    (seed ∈ options.excluded → seed ∈ s.uninteresting)
  nodup : rest.Nodup
  subset : rest ⊆ options.seeds

theorem enqueueSeed_spec (hclosed : Closed commits)
    (hseeds : ∀ seed ∈ options.seeds, commits.get seed ≠ none) {seed : Id} {rest : List Id}
    (h : Seeding commits options (seed :: rest) s) {fuel : ℕ} (hfuel : markFuel commits < fuel) :
    Run.Returns (enqueueSeed fuel commits options s seed) (Seeding commits options rest) := by
  have hmem : seed ∈ options.seeds := h.subset mem_cons_self
  have hnew : seed ∉ s.seen := fun hseen => (h.waiting seed hseen).2 mem_cons_self
  obtain ⟨hlater, hnodup⟩ := nodup_cons.mp h.nodup
  unfold enqueueSeed
  refine (parse_spec h.walk (hseeds seed hmem) options.ignoreMissing .strict).bind fun r hr => ?_
  obtain ⟨entry, read⟩ := r
  obtain ⟨rfl, hread, hsteps, hparsed, hseen, -⟩ := hr
  dsimp only at hread hsteps hparsed hseen ⊢
  obtain ⟨found, hfound⟩ := Option.ne_none_iff_exists'.mp hparsed
  rw [hread.parsed hfound]
  dsimp only
  -- an excluded seed is marked, and its parents with it
  have hmarked : Run.Returns (markSeed fuel options read seed) fun t =>
      Walk commits options nobody nobody t ∧ Steps commits read t ∧ t.seen = s.seen ∧
        t.parsed = read.parsed ∧ (seed ∈ options.excluded → seed ∈ t.uninteresting) := by
    unfold markSeed
    split
    · next hexcluded =>
      have hself : Excluded commits options seed := ⟨seed, hexcluded, .refl seed⟩
      have hinsert : Walk commits options nobody nobody
          { read with uninteresting := insert seed read.uninteresting } := by
        refine hread.remark (fun c hc => ?_) fun c hc hcseen => ?_
        · rcases Finset.mem_insert.mp hc with rfl | hc
          · exact hself
          · exact hread.marked c hc
        · rcases Finset.mem_insert.mp hc with rfl | hc
          · exact absurd (hseen ▸ hcseen) hnew
          · exact (hread.settled c hc hcseen).imp_right
              (Or.imp_right fun hp p hparent => Finset.mem_insert_of_mem (hp p hparent))
      refine (markParentsUninteresting_spec hclosed hinsert hparsed hself hfuel).mono
        fun t ht => ?_
      obtain ⟨hwalk, hmore, hsame, hsame'⟩ := ht
      exact ⟨hwalk.weaken (fun c hc => hc.1) fun c hc => hc,
        (Steps.remark (Finset.subset_insert _ _)).trans hmore, hsame.trans hseen, hsame',
        fun _ => hmore.uninteresting (Finset.mem_insert_self _ _)⟩
    · next hincluded =>
      exact .pure ⟨hread, .refl read, hseen, rfl, fun hexcluded => absurd hexcluded hincluded⟩
  refine hmarked.bind fun t ht => .pure ?_
  obtain ⟨hwalk, hmore, hseen', hparsed', hexcluded⟩ := ht
  obtain ⟨hlast, hsteps'⟩ := enqueue_spec hwalk (hparsed' ▸ hfound) (hseen' ▸ hnew)
    ⟨seed, hmem, .refl seed⟩
  have hall := hsteps.trans (hmore.trans hsteps')
  refine ⟨hlast, fun c hc => ?_, fun other hother => ?_, hnodup, fun other hother =>
    h.subset (mem_cons_of_mem _ hother)⟩
  · rcases Finset.mem_insert.mp hc with rfl | hc
    · exact ⟨queued_enqueue.mpr (.inl rfl), hlater⟩
    · obtain ⟨hwaits, hnot⟩ := h.waiting c (hseen' ▸ hc)
      exact ⟨hall.queued c hwaits, fun hmore => hnot (mem_cons_of_mem _ hmore)⟩
  · rcases h.seeds other hother with hleft | ⟨hold, hmark⟩
    · rcases mem_cons.mp hleft with rfl | hleft
      · exact .inr ⟨Finset.mem_insert_self _ _, hexcluded⟩
      · exact .inl hleft
    · exact .inr ⟨hall.seen hold, fun hex => hall.uninteresting (hmark hex)⟩

/-- **The seeds** are all queued. -/
theorem enqueueSeeds_spec (hclosed : Closed commits)
    (hseeds : ∀ seed ∈ options.seeds, commits.get seed ≠ none) {fuel : ℕ}
    (hfuel : markFuel commits < fuel) :
    Run.Returns (enqueueSeeds fuel commits options createState) (Drained commits options []) := by
  have hstart : Seeding commits options options.seeds.eraseDups createState :=
    ⟨createState_walk, fun c hc => absurd hc (Finset.notMem_empty c), fun seed hseed =>
      .inl (mem_eraseDups.mpr hseed), Dict.nodup_eraseDups _, fun seed hseed =>
        mem_eraseDups.mp hseed⟩
  unfold enqueueSeeds
  refine (Run.foldM_spec (fun s seed rest hs => enqueueSeed_spec hclosed hseeds hs hfuel)
    hstart).mono fun t ht => ?_
  exact ⟨ht.walk, fun seed hseed => (ht.seeds seed hseed).resolve_left not_mem_nil,
    nodup_nil, fun c hc => absurd hc not_mem_nil, fun c hc hnot =>
      absurd (ht.waiting c hc).1 hnot⟩

theorem Walk.load_le (h : Walk commits options owed unfollowed s) :
    s.load commits ≤ commits.keys.toFinset.card := by
  have hwaiting : (s.queue.values.map (·.oid)).toFinset ⊆ commits.keys.toFinset ∩ s.seen := by
    intro c hc
    have hseen := h.queued c (mem_toFinset.mp hc)
    exact Finset.mem_inter.mpr ⟨mem_toFinset.mpr (commits.covered c
      (h.get_ne_none (h.seen c hseen))), hseen⟩
  have hlength := toFinset_card_of_nodup h.distinct
  have hcard := Finset.card_le_card hwaiting
  have hsplit := Finset.card_sdiff_add_card_inter commits.keys.toFinset s.seen
  rw [hlength, length_map] at hcard
  unfold LimitState.load
  omega

/-! ### What was shown -/

section

variable {taken : List Id}

omit [DecidableEq Id] in
/-- **Every wanted commit** was taken, and not marked. -/
theorem Drained.wanted (h : Drained commits options taken s) (hsettled : Settled options s)
    (hc : Wanted commits options c) : c ∈ taken ∧ c ∉ s.uninteresting := by
  obtain ⟨⟨seed, hseed, -, hreach⟩, hnot⟩ := hc
  have hunmarked : ∀ q, Reaches (Parent commits) q c → q ∉ s.uninteresting := by
    intro q hqc hq
    obtain ⟨u, hu, huq⟩ := h.walk.marked q hq
    exact hnot ⟨u, hu, huq.trans hqc⟩
  have hpopped : ∀ q, Reaches (Parent commits) q c → ¬ s.Queued q := by
    intro q hqc hq
    obtain ⟨e, he, rfl⟩ := mem_map.mp hq
    exact hunmarked e.oid hqc (hsettled e he).1
  have hcarry : ∀ a b, a ∈ s.seen → ¬ s.Queued a → Parent commits a b → b ∈ s.seen := by
    intro a b ha hq hb
    exact ((h.walk.followed a ha).resolve_left hq).elim False.elim fun hall => hall b hb
  rcases carried_or_stopped hcarry (h.seeds seed hseed).1 hreach with hseen | ⟨q, -, hqc, hq, -⟩
  · exact ⟨(h.popped c hseen (hpopped c (.refl c))).resolve_right (hunmarked c (.refl c)),
      hunmarked c (.refl c)⟩
  · exact absurd hq (hpopped q hqc.reaches)

omit [DecidableEq Id] in
theorem Graded.passes (h : Graded commits) {a b : Id} (hab : Passes (Parent commits) a b) :
    generationOf commits a = outsideGraph ∨ generationOf commits b < generationOf commits a := by
  induction hab with
  | single hb => exact h _ _ hb
  | tail _ hc ih =>
    rcases ih with hinfinite | hless
    · exact .inl hinfinite
    · rcases h _ _ hc with hinfinite | hnext
      · rw [hinfinite] at hless
        exact absurd hless not_top_lt
      · exact .inr (hnext.trans hless)

omit [DecidableEq Id] in
/-- **Only wanted commits** are taken and not marked, where the walk settles by generation. -/
theorem Drained.only_wanted (h : Drained commits options taken s) (hsettled : Settled options s)
    (hgraded : Graded commits) (hsettle : options.settle = .generation)
    (hnamed : ∀ u ∈ options.excluded, u ∈ options.seeds) (hc : c ∈ taken)
    (hunmarked : c ∉ s.uninteresting) : Wanted commits options c := by
  obtain ⟨hseen, -, hlowest⟩ := h.listed c hc
  have hyoung : ∀ q, s.Queued q → ¬ Passes (Parent commits) q c := by
    intro q hq hpass
    obtain ⟨e, he, rfl⟩ := mem_map.mp hq
    have hless := (hsettled e he).2 hsettle
    rw [h.walk.graded e he] at hless
    rcases hgraded.passes hpass with hinfinite | hlater
    · rw [hinfinite] at hless
      exact absurd hless not_top_lt
    · exact absurd (hless.trans_le hlowest) hlater.not_gt
  have hcarry : ∀ a b, a ∈ s.uninteresting ∧ a ∈ s.seen → ¬ s.Queued a → Parent commits a b →
      b ∈ s.uninteresting ∧ b ∈ s.seen := by
    intro a b ha hq hb
    exact ⟨((h.walk.settled a ha.1 ha.2).resolve_left hq).elim False.elim fun hall => hall b hb,
      ((h.walk.followed a ha.2).resolve_left hq).elim False.elim fun hall => hall b hb⟩
  have hnot : ¬ Excluded commits options c := by
    rintro ⟨u, hu, hreach⟩
    obtain ⟨huseen, humark⟩ := h.seeds u (hnamed u hu)
    rcases carried_or_stopped hcarry ⟨humark hu, huseen⟩ hreach with hmark | ⟨q, -, hqc, hq, -⟩
    · exact hunmarked hmark.1
    · exact hyoung q hq hqc
  obtain ⟨seed, hseed, hreach⟩ := h.walk.reached c hseen
  exact ⟨⟨seed, hseed, fun hex => hnot ⟨seed, hex, hreach⟩, hreach⟩, hnot⟩

end

end

end

/-! ### Fuel -/

section

variable [DecidableEq Id] {fuel fuel' : ℕ} (hle : fuel ≤ fuel')

include hle

theorem markParentsUninteresting_extends (s : LimitState Id) (id : Id) :
    Run.Extends (markParentsUninteresting fuel s id) (markParentsUninteresting fuel' s id) := by
  unfold markParentsUninteresting
  exact (Run.Extends.loop (fun _ => .refl _) hle _).bind fun _ => .refl _

theorem processParents_extends (commits : Dict Id (Parsed Id)) (options : LimitListOptions Id)
    (s : LimitState Id) (id : Id) :
    Run.Extends (processParents fuel commits options s id)
      (processParents fuel' commits options s id) := by
  unfold processParents
  dsimp only
  split
  · unfold processUninterestingParents
    refine (Run.Extends.refl _).bind fun r => .foldlM (fun t pair => ?_) _ _
    obtain ⟨parent, entry⟩ := pair
    cases entry with
    | none => exact .refl _
    | some parsed => exact (markParentsUninteresting_extends hle t parent).bind fun _ => .refl _
  · exact .refl _

theorem drain_extends (commits : Dict Id (Parsed Id)) (options : LimitListOptions Id)
    (s : LimitState Id) : Run.Extends (drain fuel commits options s)
      (drain fuel' commits options s) := by
  unfold drain
  refine .loop (fun d => ?_) hle _
  unfold drainTurn
  split
  · exact .refl _
  · exact (processParents_extends hle commits options _ _).bind fun _ => .refl _

theorem enqueueSeeds_extends (commits : Dict Id (Parsed Id)) (options : LimitListOptions Id)
    (s : LimitState Id) : Run.Extends (enqueueSeeds fuel commits options s)
      (enqueueSeeds fuel' commits options s) := by
  unfold enqueueSeeds
  refine .foldlM (fun t seed => ?_) _ _
  unfold enqueueSeed
  refine (Run.Extends.refl _).bind fun r => ?_
  obtain ⟨entry, read⟩ := r
  cases entry with
  | none => exact .refl _
  | some parsed =>
    refine Run.Extends.bind ?_ fun _ => .refl _
    unfold markSeed
    split
    · exact markParentsUninteresting_extends hle _ _
    · exact .refl _

theorem limitList_extends (commits : Dict Id (Parsed Id)) (options : LimitListOptions Id) :
    Run.Extends (limitList fuel commits options) (limitList fuel' commits options) := by
  unfold limitList
  exact (enqueueSeeds_extends hle commits options _).bind fun s =>
    (drain_extends hle commits options s).bind fun _ => .refl _

end

/-- The excluded commits are among the seeds, unless others are given that lack one. -/
theorem mem_seeds_resolveLimitOptions [DecidableEq Id] {included : List Id} {ignoreMissing : Bool}
    {limits : LimitSettings Id}
    (hgiven : ∀ given, limits.seeds = some given → ∀ u ∈ limits.excluded, u ∈ given) :
    ∀ u ∈ (resolveLimitOptions included ignoreMissing limits).excluded,
      u ∈ (resolveLimitOptions included ignoreMissing limits).seeds := by
  intro u hu
  have hmem : u ∈ limits.excluded := mem_toFinset.mp hu
  cases hseeds : limits.seeds with
  | none =>
    simp only [resolveLimitOptions, hseeds, Option.getD_none]
    exact mem_append_right _ hmem
  | some given =>
    simp only [resolveLimitOptions, hseeds, Option.getD_some]
    exact hgiven given hseeds u hmem

/-- **The limited walk ends.** It takes no commit twice and shows every wanted commit; only those,
where it settles by generation. -/
theorem limitList_exact [DecidableEq Id] (commits : Dict Id (Parsed Id)) (included : List Id)
    (ignoreMissing : Bool) (limits : LimitSettings Id) (options : LimitListOptions Id)
    (hoptions : options = resolveLimitOptions included ignoreMissing limits)
    (hclosed : Closed commits) (hseeds : ∀ seed ∈ options.seeds, commits.get seed ≠ none)
    (hplain : Plain options) :
    ∃ walk, Run.Yields (fun fuel => limitList fuel commits options) walk ∧
      (walk.shown ++ walk.dropped).Nodup ∧
      (∀ c ∈ walk.uninteresting, Excluded commits options c) ∧
      (∀ c, Wanted commits options c → c ∈ walk.shown) ∧
      (options.settle = .generation → Graded commits →
        (∀ given, limits.seeds = some given → ∀ u ∈ limits.excluded, u ∈ given) →
          ∀ c, c ∈ walk.shown ↔ Wanted commits options c) := by
  obtain ⟨fuel, hmark, hload⟩ : ∃ fuel, markFuel commits < fuel ∧
      commits.keys.toFinset.card < fuel :=
    ⟨max (markFuel commits) commits.keys.toFinset.card + 1, by omega, by omega⟩
  obtain ⟨seeded, hseeded, hstart⟩ := enqueueSeeds_spec hclosed hseeds hmark
  obtain ⟨⟨taken, s⟩, hdrained, hend, hsettled⟩ :=
    drain_spec hclosed hplain hstart hmark (hstart.walk.load_le.trans_lt hload)
  dsimp only at hend hsettled
  obtain ⟨walk, hwalk⟩ : ∃ walk : LimitedWalk Id, walk = {
    shown := taken.filter (· ∉ s.uninteresting)
    uninteresting := s.uninteresting
    dropped := taken.filter (· ∈ s.uninteresting)
    shownHeads := (taken.filter (· ∉ s.uninteresting)).filterMap (headOf s) } := ⟨_, rfl⟩
  have hrun : limitList fuel commits options = pure walk := by
    unfold limitList
    rw [hseeded, pure_bind, hdrained, pure_bind, hwalk]
  have hshown : ∀ c, c ∈ walk.shown ↔ c ∈ taken ∧ c ∉ s.uninteresting := fun c => by
    rw [hwalk, mem_filter, decide_eq_true_iff]
  refine ⟨walk, .of_extends (limitList_extends · commits options) hrun, ?_, ?_, fun c hc => ?_,
    fun hsettle hgraded hgiven c => ?_⟩
  · rw [hwalk]
    refine nodup_append.mpr ⟨hend.nodup.filter _, hend.nodup.filter _, fun a ha b hb => ?_⟩
    rintro rfl
    exact of_decide_eq_true (mem_filter.mp ha).2 (of_decide_eq_true (mem_filter.mp hb).2)
  · rw [hwalk]
    exact hend.walk.marked
  · exact (hshown c).mpr (hend.wanted hsettled hc)
  · have hnamed : ∀ u ∈ options.excluded, u ∈ options.seeds := by
      rw [hoptions]
      exact mem_seeds_resolveLimitOptions hgiven
    rw [hshown]
    exact ⟨fun hc => hend.only_wanted hsettled hgraded hsettle hnamed hc.1 hc.2,
      fun hc => hend.wanted hsettled hc⟩

/-- A line of three commits, the oldest of them with the newest date. -/
def skewedLine : Dict ℕ (Parsed ℕ) where
  keys := [0, 1, 2]
  get
    | 0 => some ⟨10, [], 30, ((1 : ℕ) : WithTop ℕ)⟩
    | 1 => some ⟨11, [0], 10, ((2 : ℕ) : WithTop ℕ)⟩
    | 2 => some ⟨12, [1], 20, ⊤⟩
    | _ => none
  covered
    | 0, _ => mem_cons_self
    | 1, _ => mem_cons_of_mem _ mem_cons_self
    | 2, _ => mem_cons_of_mem _ (mem_cons_of_mem _ mem_cons_self)
    | _ + 3, h => absurd rfl h

/-- Without the commit in the middle. -/
def withoutMiddle : LimitSettings ℕ where
  seeds := none
  excluded := [1]
  firstParent := false
  settle := .generation
  takeAtMost := none
  minAge := none

theorem skewedLine_parent {c p : ℕ} (h : Parent skewedLine c p) :
    c = 1 ∧ p = 0 ∨ c = 2 ∧ p = 1 := by
  obtain ⟨found, hfound, hp⟩ := h
  match c with
  | 0 =>
    obtain rfl := Option.some.inj hfound
    cases hp
  | 1 =>
    obtain rfl := Option.some.inj hfound
    exact .inl ⟨rfl, mem_singleton.mp hp⟩
  | 2 =>
    obtain rfl := Option.some.inj hfound
    exact .inr ⟨rfl, mem_singleton.mp hp⟩
  | _ + 3 => cases hfound

theorem skewedLine_closed : Closed skewedLine := by
  intro c p h
  rcases skewedLine_parent h with ⟨rfl, rfl⟩ | ⟨rfl, rfl⟩
  · exact Option.some_ne_none _
  · exact Option.some_ne_none _

theorem skewedLine_graded : Graded skewedLine := by
  intro c p h
  rcases skewedLine_parent h with ⟨rfl, rfl⟩ | ⟨rfl, rfl⟩
  · exact .inr (WithTop.coe_lt_coe.mpr Nat.one_lt_two)
  · exact .inl rfl

/-- From the newest commit, without the one in the middle: the oldest commit is not shown, though
its date is the newest. -/
theorem limitList_exact_skewed :
    ∃ walk, Run.Yields (fun fuel => limitList fuel skewedLine
        (resolveLimitOptions [2] false withoutMiddle)) walk ∧ 2 ∈ walk.shown ∧
      0 ∉ walk.shown ∧
      ∀ c, c ∈ walk.shown ↔ Wanted skewedLine (resolveLimitOptions [2] false withoutMiddle) c := by
  have hseeds : ∀ seed ∈ (resolveLimitOptions [2] false withoutMiddle).seeds,
      skewedLine.get seed ≠ none := by
    intro seed hseed
    rcases mem_cons.mp hseed with rfl | hseed
    · exact Option.some_ne_none _
    · obtain rfl := mem_singleton.mp hseed
      exact Option.some_ne_none _
  obtain ⟨walk, hrun, -, -, -, hexact⟩ := limitList_exact skewedLine [2] false withoutMiddle _ rfl
    skewedLine_closed hseeds ⟨rfl, rfl, rfl⟩
  have hshown := hexact rfl skewedLine_graded fun given hgiven => by cases hgiven
  refine ⟨walk, hrun, (hshown 2).mpr ⟨⟨2, mem_cons_self, by decide, .refl 2⟩, ?_⟩,
    fun hzero => ?_, hshown⟩
  · rintro ⟨u, hu, hreach⟩
    obtain rfl : u = 1 := by simpa [resolveLimitOptions, withoutMiddle] using hu
    rcases hreach.eq_or_passes with heq | hpass
    · cases heq
    · obtain ⟨b, -, hb⟩ := Relation.TransGen.tail'_iff.mp hpass
      rcases skewedLine_parent hb with ⟨-, hzero⟩ | ⟨-, hone⟩
      · cases hzero
      · cases hone
  · exact ((hshown 0).mp hzero).2 ⟨1, by decide, (Reaches.refl 1).step ⟨_, rfl, mem_cons_self⟩⟩

end Tsgit.LimitList
