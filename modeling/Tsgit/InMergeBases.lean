import Tsgit.MergeBaseReduce

/-!
# Ancestry Queries

`inMergeBases` and `reduceHeads` of `src/src/application/primitives/merge-base.ts`. Where
generation numbers are served the question whether a commit reaches another is answered by
a depth-first descent, elsewhere by the paint-down walk.
-/

open List

namespace Tsgit.MergeBase

open Ancestry Flags

variable {Id : Type} [DecidableEq Id]

/-! ### The queries -/

/-- A commit that has been read. -/
structure Parsed (Id : Type) where
  id : Id
  found : CommitMeta Id

/-- Both ends of a query; `reference` is the source's `from`. -/
structure Ends (Id : Type) where
  target : Parsed Id
  reference : Parsed Id

/-- Git's `repo_in_merge_bases_many`: `target` painted `parent1`, `reference` `parent2`. -/
def reachesByPaint (fuel : ℕ) (commits : Dict Id (CommitMeta Id)) (correctedCommitDates : Bool)
    (ends : Ends Id) : Run (WalkError Id) Bool := do
  let outcome ← paint fuel (readCommit commits) ends.target.id [ends.reference.id]
    ⟨ends.target.found.generation, true, topoCeilingFor correctedCommitDates⟩
  return (outcome.flags ends.target.id).has parent2

/-- The state of a descent. -/
structure DepthFirst (Id : Type) where
  target : Id
  minGeneration : WithTop ℕ
  /-- Every commit already descended into or skipped. -/
  assigned : Finset Id
  /-- Commits found to reach the target. -/
  reached : Finset Id

def reaches (walk : DepthFirst Id) (id : Id) : Bool := id = walk.target ∨ id ∈ walk.reached

def markReached (walk : DepthFirst Id) (id : Id) : DepthFirst Id :=
  { walk with reached := insert id walk.reached }

def nextParent (commits : Dict Id (CommitMeta Id)) (top : Parsed Id) :
    List Id → DepthFirst Id → DepthFirst Id × Option (Parsed Id)
  | [], walk => (walk, none)
  | parent :: rest, walk =>
    let marked := if reaches walk parent then markReached walk top.id else walk
    if parent ∈ marked.assigned then nextParent commits top rest marked
    else
      let assigned := { marked with assigned := insert parent marked.assigned }
      match commits.get parent with
      | some found =>
        if assigned.minGeneration ≤ found.generation then (assigned, some ⟨parent, found⟩)
        else nextParent commits top rest assigned
      | none => nextParent commits top rest assigned

def step (commits : Dict Id (CommitMeta Id)) (walk : DepthFirst Id) (top : Parsed Id)
    (below : List (Parsed Id)) : DepthFirst Id × List (Parsed Id) :=
  if reaches walk top.id then
    match below with
    | [] => (walk, [])
    | next :: rest => (markReached walk next.id, next :: rest)
  else
    match nextParent commits top top.found.parents walk with
    | (walk, none) => (walk, below)
    | (walk, some parent) => (walk, parent :: top :: below)

def descentTurn (commits : Dict Id (CommitMeta Id)) :
    DepthFirst Id × List (Parsed Id) →
      Run (WalkError Id) (Run.Turn (DepthFirst Id × List (Parsed Id)) (DepthFirst Id))
  | (walk, []) => return .stop walk
  | (walk, top :: below) => return .again (step commits walk top below)

/-- Git's `can_all_from_reach_with_flag` for one reference and one target. -/
def reachesDepthFirst (fuel : ℕ) (commits : Dict Id (CommitMeta Id)) (ends : Ends Id) :
    Run (WalkError Id) Bool := do
  let walk ← Run.loop (descentTurn commits) fuel
    (⟨ends.target.id, ends.target.found.generation, ∅, ∅⟩, [ends.reference])
  return reaches walk ends.reference.id

def inMergeBases (fuel : ℕ) (commits : Dict Id (CommitMeta Id))
    (generationNumbersEnabled correctedCommitDates : Bool) (commit reference : Id) :
    Run (WalkError Id) Bool :=
  match commits.get commit, commits.get reference with
  | some target, some found =>
    if found.generation < target.generation then return false
    else if generationNumbersEnabled then
      reachesDepthFirst fuel commits ⟨⟨commit, target⟩, ⟨reference, found⟩⟩
    else
      reachesByPaint fuel commits correctedCommitDates ⟨⟨commit, target⟩, ⟨reference, found⟩⟩
  | _, _ => return false

/-- The commits given that are not reachable from another. -/
def reduceHeads (fuel : ℕ) (commits : Dict Id (CommitMeta Id)) (correctedCommitDates : Bool)
    (ids : List Id) : Run (WalkError Id) (List Id) :=
  removeRedundant fuel (readCommit commits) ids (topoCeilingFor correctedCommitDates)

variable {commits : Dict Id (CommitMeta Id)} {target origin : Id} {walk : DepthFirst Id}
  {stack below : List (Parsed Id)} {top : Parsed Id}

omit [DecidableEq Id] in
theorem Reaches.generation_le (hgraded : AllInfinite commits ∨ Rising commits) {a b : Id}
    (h : Reaches (Parent commits) a b) : generationOf commits b ≤ generationOf commits a := by
  rcases hgraded with hinfinite | hrising
  · rw [hinfinite, hinfinite]
  · rcases h.eq_or_passes with rfl | hpass
    · exact le_rfl
    · exact (hrising.lt hpass).le

/-! ### The descent -/

@[simp] theorem reaches_iff {c : Id} :
    reaches walk c = true ↔ c = walk.target ∨ c ∈ walk.reached := by
  simp [reaches]

/-- What holds between two turns: the stack is a path down from the origin, and what has left it is
known. -/
structure Descending (commits : Dict Id (CommitMeta Id)) (target origin : Id)
    (walk : DepthFirst Id) (stack : List (Parsed Id)) : Prop where
  target_eq : walk.target = target
  floor : walk.minGeneration = generationOf commits target
  sound : ∀ c ∈ walk.reached, Reaches (Parent commits) c target
  path : stack.IsChain fun upper lower => Parent commits lower.id upper.id
  known : ∀ e ∈ stack, commits.get e.id = some e.found
  complete : ∀ c, c = origin ∨ c ∈ walk.assigned → (∀ e ∈ stack, e.id ≠ c) →
    Reaches (Parent commits) c target → reaches walk c = true

namespace Descending

theorem reaches_sound (h : Descending commits target origin walk stack) {c : Id}
    (hc : reaches walk c = true) : Reaches (Parent commits) c target := by
  rcases reaches_iff.mp hc with rfl | hmem
  · rw [h.target_eq]
  · exact h.sound c hmem

theorem above_top (h : Descending commits target origin walk (top :: below)) :
    ∀ e ∈ top :: below, Reaches (Parent commits) e.id top.id := by
  have hpath := h.path
  clear h
  induction below generalizing top with
  | nil =>
    intro e he
    rw [mem_singleton.mp he]
  | cons next rest ih =>
    rw [isChain_cons_cons] at hpath
    intro e he
    rcases mem_cons.mp he with rfl | hrest
    · exact .refl e.id
    · exact (ih hpath.2 e hrest).step hpath.1

theorem parent_not_mem (history : History commits)
    (h : Descending commits target origin walk (top :: below)) {p : Id}
    (hp : Parent commits top.id p) : ∀ e ∈ top :: below, e.id ≠ p := by
  rintro e he rfl
  exact history.acyclic e.id ((h.above_top e he).trans_passes (.of_parent hp))

theorem mark (h : Descending commits target origin walk stack) {c : Id}
    (hc : Reaches (Parent commits) c target) :
    Descending commits target origin (markReached walk c) stack where
  target_eq := h.target_eq
  floor := h.floor
  sound v hv := by
    rcases Finset.mem_insert.mp hv with rfl | hold
    · exact hc
    · exact h.sound v hold
  path := h.path
  known := h.known
  complete v hv hoff hreach := by
    rcases reaches_iff.mp (h.complete v hv hoff hreach) with htarget | hmem
    · exact reaches_iff.mpr (.inl htarget)
    · exact reaches_iff.mpr (.inr (Finset.mem_insert_of_mem hmem))

theorem skip (h : Descending commits target origin walk stack) {p : Id}
    (hp : ¬Reaches (Parent commits) p target) :
    Descending commits target origin { walk with assigned := insert p walk.assigned } stack where
  target_eq := h.target_eq
  floor := h.floor
  sound := h.sound
  path := h.path
  known := h.known
  complete v hv hoff hreach := by
    refine h.complete v (hv.imp_right fun hmem => ?_) hoff hreach
    rcases Finset.mem_insert.mp hmem with rfl | hold
    · exact absurd hreach hp
    · exact hold

theorem push (h : Descending commits target origin walk (top :: below)) {p : Id}
    {found : CommitMeta Id} (hp : Parent commits top.id p) (hfound : commits.get p = some found) :
    Descending commits target origin { walk with assigned := insert p walk.assigned }
      (⟨p, found⟩ :: top :: below) where
  target_eq := h.target_eq
  floor := h.floor
  sound := h.sound
  path := isChain_cons_cons.mpr ⟨hp, h.path⟩
  known e he := by
    rcases mem_cons.mp he with rfl | hold
    · exact hfound
    · exact h.known e hold
  complete v hv hoff hreach := by
    have hne : p ≠ v := hoff _ mem_cons_self
    refine h.complete v (hv.imp_right fun hmem => ?_)
      (forall_mem_cons.mp hoff).2 hreach
    exact (Finset.mem_insert.mp hmem).resolve_left (Ne.symm hne)

theorem pop (h : Descending commits target origin walk (top :: below))
    (htop : Reaches (Parent commits) top.id target → reaches walk top.id = true) :
    Descending commits target origin walk below where
  target_eq := h.target_eq
  floor := h.floor
  sound := h.sound
  path := h.path.tail
  known e he := h.known e (mem_cons_of_mem _ he)
  complete v hv hoff hreach := by
    by_cases heq : top.id = v
    · subst heq
      exact htop hreach
    · refine h.complete v hv (fun e he => ?_) hreach
      rcases mem_cons.mp he with rfl | hrest
      · exact heq
      · exact hoff e hrest

def Next (commits : Dict Id (CommitMeta Id)) (target origin : Id) (walk : DepthFirst Id)
    (top : Parsed Id) (below : List (Parsed Id)) (result : DepthFirst Id × Option (Parsed Id)) :
    Prop :=
  walk.assigned ⊆ result.1.assigned ∧
    ((∃ parent, result.2 = some parent ∧ parent.id ∉ walk.assigned ∧
        parent.id ∈ result.1.assigned ∧ parent.id ∈ commits.keys ∧
        Descending commits target origin result.1 (parent :: top :: below)) ∨
      result.2 = none ∧ Descending commits target origin result.1 (top :: below) ∧
        ∀ p ∈ top.found.parents, Reaches (Parent commits) p target → top.id ∈ result.1.reached)

theorem nextParent (history : History commits) (hgraded : AllInfinite commits ∨ Rising commits)
    {parents : List Id} (h : Descending commits target origin walk (top :: below))
    (hleft : ∀ p ∈ parents, Parent commits top.id p)
    (hdone : ∀ p ∈ top.found.parents, p ∈ parents ∨
      (Reaches (Parent commits) p target → top.id ∈ walk.reached)) :
    Next commits target origin walk top below (nextParent commits top parents walk) := by
  induction parents generalizing walk with
  | nil =>
    refine ⟨Finset.Subset.refl _, .inr ⟨rfl, h, fun p hp hreach => ?_⟩⟩
    exact (hdone p hp).resolve_left not_mem_nil hreach
  | cons p rest ih =>
    have hp : Parent commits top.id p := hleft p mem_cons_self
    have hleft' : ∀ q ∈ rest, Parent commits top.id q := fun q hq =>
      hleft q (mem_cons_of_mem _ hq)
    rw [MergeBase.nextParent]
    generalize hmarked :
      (if reaches walk p = true then markReached walk top.id else walk) = marked
    have hassigned : marked.assigned = walk.assigned := by
      rw [← hmarked]
      split <;> rfl
    have hkept : ∀ c ∈ walk.reached, c ∈ marked.reached := by
      intro c hc
      rw [← hmarked]
      split
      · exact Finset.mem_insert_of_mem hc
      · exact hc
    have hreached : reaches walk p = true → top.id ∈ marked.reached := by
      intro hreaches
      rw [← hmarked, if_pos hreaches]
      exact Finset.mem_insert_self _ _
    have hm : Descending commits target origin marked (top :: below) := by
      rw [← hmarked]
      split
      · next hreaches => exact h.mark (.head hp (h.reaches_sound hreaches))
      · exact h
    -- The parents handled so far stay handled when `p` is.
    have hdone' (hthis : Reaches (Parent commits) p target → top.id ∈ marked.reached) :
        ∀ q ∈ top.found.parents, q ∈ rest ∨
          (Reaches (Parent commits) q target → top.id ∈ marked.reached) := by
      intro q hq
      rcases hdone q hq with hmem | hbefore
      · rcases mem_cons.mp hmem with rfl | hrest
        · exact .inr hthis
        · exact .inl hrest
      · exact .inr fun hreach => hkept _ (hbefore hreach)
    dsimp only
    split
    · next hmem =>
      obtain ⟨hsub, hnext⟩ := ih hm hleft' (hdone' fun hreach => hreached
        (h.complete p (.inr (hassigned ▸ hmem)) (h.parent_not_mem history hp) hreach))
      rw [hassigned] at hsub hnext
      exact ⟨hsub, hnext⟩
    · next hnot =>
      obtain ⟨found, hfound⟩ := Option.ne_none_iff_exists'.mp (history.closed hp)
      have hkeys : p ∈ commits.keys := commits.covered p (history.closed hp)
      have hnew : p ∉ walk.assigned := hassigned ▸ hnot
      have hgrow : walk.assigned ⊆ insert p marked.assigned := by
        rw [hassigned]
        exact Finset.subset_insert _ _
      rw [hfound]
      dsimp only
      split
      · exact ⟨hgrow, .inl ⟨⟨p, found⟩, rfl, hnew, Finset.mem_insert_self _ _, hkeys,
          hm.push hp hfound⟩⟩
      · next hlow =>
        have hnone : ¬Reaches (Parent commits) p target := fun hreach => by
          refine hlow ?_
          rw [hm.floor, ← generationOf_eq hfound]
          exact Reaches.generation_le hgraded hreach
        obtain ⟨hsub, hnext⟩ := ih (hm.skip hnone) hleft'
          (hdone' fun hreach => absurd hreach hnone)
        refine ⟨hgrow.trans hsub, hnext.imp_left ?_⟩
        rintro ⟨parent, hsome, hfresh, hrest⟩
        exact ⟨parent, hsome, fun hmem => hfresh (hgrow hmem), hrest⟩

/-- How many turns a descent may still take. -/
def variant (commits : Dict Id (CommitMeta Id)) (walk : DepthFirst Id)
    (stack : List (Parsed Id)) : ℕ :=
  2 * (commits.keys.toFinset \ walk.assigned).card + stack.length

/-- **One turn of the descent.** -/
theorem step (history : History commits) (hgraded : AllInfinite commits ∨ Rising commits)
    (h : Descending commits target origin walk (top :: below)) :
    Descending commits target origin (step commits walk top below).1
        (step commits walk top below).2 ∧
      variant commits (MergeBase.step commits walk top below).1
          (MergeBase.step commits walk top below).2 < variant commits walk (top :: below) := by
  unfold MergeBase.step
  split
  · next hreaches =>
    cases below with
    | nil => exact ⟨h.pop fun _ => hreaches, Nat.lt_succ_self _⟩
    | cons next rest =>
      have hparent := (isChain_cons_cons.mp h.path).1
      have hnext : Reaches (Parent commits) next.id target :=
        .head hparent (h.reaches_sound hreaches)
      exact ⟨(h.pop fun _ => hreaches).mark hnext, Nat.lt_succ_self _⟩
  · next hunknown =>
    have hfound := h.known top mem_cons_self
    have hparents : ∀ p ∈ top.found.parents, Parent commits top.id p := fun p hp =>
      ⟨top.found, hfound, hp⟩
    obtain ⟨hsub, hnext⟩ := h.nextParent history hgraded hparents fun p hp => .inl hp
    generalize MergeBase.nextParent commits top top.found.parents walk = result at hsub hnext ⊢
    obtain ⟨walk', next⟩ := result
    have hcard : (commits.keys.toFinset \ walk'.assigned).card ≤
        (commits.keys.toFinset \ walk.assigned).card :=
      Finset.card_le_card (Finset.sdiff_subset_sdiff (Finset.Subset.refl _) hsub)
    rcases hnext with ⟨parent, rfl, hnew, hold, hkey, hd⟩ | ⟨rfl, hd, hall⟩
    · refine ⟨hd, ?_⟩
      have hlt : (commits.keys.toFinset \ walk'.assigned).card <
          (commits.keys.toFinset \ walk.assigned).card := by
        refine Finset.card_lt_card (Finset.ssubset_iff_subset_ne.mpr
          ⟨Finset.sdiff_subset_sdiff (Finset.Subset.refl _) hsub, fun heq => ?_⟩)
        have hmem : parent.id ∈ commits.keys.toFinset \ walk.assigned :=
          Finset.mem_sdiff.mpr ⟨mem_toFinset.mpr hkey, hnew⟩
        rw [← heq] at hmem
        exact (Finset.mem_sdiff.mp hmem).2 hold
      simp only [variant, length_cons]
      omega
    · refine ⟨hd.pop fun hreach => ?_, ?_⟩
      · rcases Relation.ReflTransGen.cases_head hreach with heq | ⟨p, hp, hrest⟩
        · exact reaches_iff.mpr (.inl (heq.trans hd.target_eq.symm))
        · obtain ⟨found, hget, hmem⟩ := hp
          obtain rfl : top.found = found := Option.some.inj (hfound.symm.trans hget)
          exact reaches_iff.mpr (.inr (hall p hmem hrest))
      · simp only [variant, length_cons]
        omega

/-- A descent that is over has the answer. -/
theorem answer (h : Descending commits target origin walk []) :
    reaches walk origin = true ↔ Reaches (Parent commits) origin target :=
  ⟨h.reaches_sound, h.complete origin (.inl rfl) fun _ he => absurd he not_mem_nil⟩

end Descending

/-- **The depth-first strategy** answers whether the reference reaches the target. -/
theorem reachesDepthFirst_spec (history : History commits)
    (hgraded : AllInfinite commits ∨ Rising commits) (ends : Ends Id)
    (htarget : commits.get ends.target.id = some ends.target.found)
    (hreference : commits.get ends.reference.id = some ends.reference.found) {fuel : ℕ}
    (hfuel : 4 * commits.keys.length < fuel) :
    Run.Returns (reachesDepthFirst fuel commits ends) fun answer =>
      answer = true ↔ Reaches (Parent commits) ends.reference.id ends.target.id := by
  have hstart : Descending commits ends.target.id ends.reference.id
      ⟨ends.target.id, ends.target.found.generation, ∅, ∅⟩ [ends.reference] := by
    refine ⟨rfl, (generationOf_eq htarget).symm, fun c hc => absurd hc (Finset.notMem_empty c),
      isChain_singleton _, fun e he => ?_, ?_⟩
    · rw [mem_singleton.mp he]
      exact hreference
    · rintro c (rfl | hc) hoff -
      · exact absurd rfl (hoff _ (mem_singleton_self _))
      · exact absurd hc (Finset.notMem_empty c)
  have hkeys : 0 < commits.keys.length :=
    length_pos_of_mem (commits.covered _ (by rw [hreference]; exact Option.some_ne_none _))
  have hvariant : Descending.variant commits
      ⟨ends.target.id, ends.target.found.generation, ∅, ∅⟩ [ends.reference] < fuel := by
    have hcard := commits.keys.toFinset_card_le
    simp only [Descending.variant, Finset.sdiff_empty, length_singleton]
    omega
  have hrun : Run.Returns (Run.loop (descentTurn commits) fuel
      (⟨ends.target.id, ends.target.found.generation, ∅, ∅⟩, [ends.reference])) fun walk =>
        Descending commits ends.target.id ends.reference.id walk [] := by
    refine Run.loop_spec
      (fun s => Descending commits ends.target.id ends.reference.id s.1 s.2)
      (fun s => Descending.variant commits s.1 s.2) ?_ fuel _ hstart hvariant
    rintro ⟨walk, stack⟩ hs
    cases stack with
    | nil => exact .pure hs
    | cons top below => exact .pure (hs.step history hgraded)
  exact hrun.bind fun walk hwalk => .pure hwalk.answer

/-- **The paint-down strategy** answers whether the reference reaches the target. -/
theorem reachesByPaint_spec (history : History commits)
    (hgraded : AllInfinite commits ∨ Rising commits) (ends : Ends Id)
    (htarget : commits.get ends.target.id = some ends.target.found)
    (hreference : commits.get ends.reference.id = some ends.reference.found)
    (correctedCommitDates : Bool) {fuel : ℕ} (hfuel : 4 * commits.keys.length < fuel) :
    Run.Returns (reachesByPaint fuel commits correctedCommitDates ends) fun answer =>
      answer = true ↔ Reaches (Parent commits) ends.reference.id ends.target.id := by
  have hone : commits.get ends.target.id ≠ none := by
    rw [htarget]
    exact Option.some_ne_none _
  have htwos : ∀ two ∈ [ends.reference.id], commits.get two ≠ none := by
    intro two htwo
    rw [mem_singleton.mp htwo, hreference]
    exact Option.some_ne_none _
  refine (reducePaint_spec history hgraded hone htwos (generationOf_eq htarget).ge hfuel).bind ?_
  rintro outcome ⟨hiff, -⟩
  refine .pure (hiff.trans ?_)
  simp

theorem inMergeBases_spec (history : History commits)
    (hgraded : AllInfinite commits ∨ Rising commits)
    (generationNumbersEnabled correctedCommitDates : Bool) (commit : Id) {reference : Id}
    (hreference : commits.get reference ≠ none) {fuel : ℕ}
    (hfuel : 4 * commits.keys.length < fuel) :
    Run.Returns
      (inMergeBases fuel commits generationNumbersEnabled correctedCommitDates commit reference)
      fun answer => answer = true ↔ Reaches (Parent commits) reference commit := by
  obtain ⟨found, hfound⟩ := Option.ne_none_iff_exists'.mp hreference
  rw [inMergeBases]
  cases htarget : commits.get commit with
  | none =>
    refine .pure ⟨fun h => absurd h Bool.false_ne_true, fun hreach => ?_⟩
    exact absurd htarget (Reaches.get_ne_none history hreach hreference)
  | some target =>
    rw [hfound]
    dsimp only
    split
    · next hlow =>
      refine .pure ⟨fun h => absurd h Bool.false_ne_true, fun hreach => ?_⟩
      have hle := Reaches.generation_le hgraded hreach
      rw [generationOf_eq htarget, generationOf_eq hfound] at hle
      exact absurd hlow (not_lt_of_ge hle)
    · split
      · exact reachesDepthFirst_spec history hgraded
          ⟨⟨commit, target⟩, ⟨reference, found⟩⟩ htarget hfound hfuel
      · exact reachesByPaint_spec history hgraded
          ⟨⟨commit, target⟩, ⟨reference, found⟩⟩ htarget hfound _ hfuel

/-- **Ancestry queries.** By either strategy `inMergeBases` answers whether the first commit is the
second or an ancestor of it; `reduceHeads` keeps those that are no proper ancestor of another. -/
theorem ancestry_answers (history : History commits)
    (hgraded : AllInfinite commits ∨ Rising commits) {fuel : ℕ}
    (hfuel : 4 * commits.keys.length < fuel) :
    (∀ generationNumbersEnabled correctedCommitDates : Bool, ∀ commit reference : Id,
      commits.get reference ≠ none → ∃ answer,
        inMergeBases fuel commits generationNumbersEnabled correctedCommitDates commit reference =
          pure answer ∧
        (answer = true ↔ Reaches (Parent commits) reference commit)) ∧
    ∀ (correctedCommitDates : Bool) (ids : List Id), (∀ c ∈ ids, commits.get c ≠ none) →
      ∃ kept, reduceHeads fuel commits correctedCommitDates ids = pure kept ∧
        kept.Sublist ids.eraseDups ∧
        ∀ c, c ∈ kept ↔ c ∈ ids ∧ ∀ w ∈ ids, ¬Passes (Parent commits) w c :=
  ⟨fun enabled corrected commit _ hreference =>
      inMergeBases_spec history hgraded enabled corrected commit hreference hfuel,
    fun _ _ hids => removeRedundant_sublist history hgraded hids _ hfuel⟩

open Interleaving

/-- The root is an ancestor of either tip, and neither tip of the other. -/
theorem ancestry_answers_forked :
    (∃ answer, inMergeBases 13 forkedHistory true false .p0 .p1 = pure answer ∧
      (answer = true ↔ Reaches (Parent forkedHistory) .p1 .p0)) ∧
    ∃ kept, reduceHeads 13 forkedHistory false [Trio.p1, .p0, .p2, .p1] = pure kept ∧
      kept.Sublist [Trio.p1, .p0, .p2] ∧
      ∀ c, c ∈ kept ↔ c ∈ [Trio.p1, .p0, .p2, .p1] ∧
        ∀ w ∈ [Trio.p1, .p0, .p2, .p1], ¬Passes (Parent forkedHistory) w c := by
  have history : History forkedHistory := by
    refine ⟨fun h => ?_, forkedHistory_rising.acyclic⟩
    rw [(forkedHistory_parent h).1]
    exact Option.some_ne_none _
  have hcommits : ∀ c, forkedHistory.get c ≠ none := fun c => by
    cases c <;> exact Option.some_ne_none _
  obtain ⟨hquery, hreduce⟩ := ancestry_answers history (.inr forkedHistory_rising)
    (by decide : 4 * forkedHistory.keys.length < 13)
  exact ⟨hquery true false .p0 .p1 (hcommits _), hreduce false _ fun c _ => hcommits c⟩

/-- **An ancestor is its own merge base**: of two commits the query by any strategy answers that one
is the other or an ancestor of it just if the walk for their merge bases finds that one alone. -/
theorem inMergeBases_iff_mergeBasesOf (history : History commits)
    (hgraded : AllInfinite commits ∨ Rising commits) {commit reference : Id}
    (hcommit : commits.get commit ≠ none) (hreference : commits.get reference ≠ none) {fuel : ℕ}
    (hfuel : 4 * commits.keys.length < fuel) (enabled corrected corrected' all : Bool) :
    inMergeBases fuel commits enabled corrected commit reference = pure true ↔
      mergeBasesOf fuel commits corrected' reference [commit] ⟨all, false⟩ = pure [commit] := by
  obtain ⟨answer, hanswer, hreaches⟩ := inMergeBases_spec history hgraded enabled corrected commit
    hreference hfuel
  obtain ⟨bases, hbases, hspec⟩ := mergeBasesMany_spec history hgraded hreference
    (forall_mem_singleton.mpr hcommit) (cons_ne_nil commit []) all (topoCeilingFor corrected') hfuel
  have hrun : mergeBasesOf fuel commits corrected' reference [commit] ⟨all, false⟩ =
      pure (if all then bases else bases.take 1) := by
    rw [mergeBasesOf]
    simp only [Bool.false_eq_true, if_false, hbases, pure_bind]
  have hbest {c : Id} (hc : c ∈ bases) : Reaches (Parent commits) reference c ∧
      Reaches (Parent commits) commit c := by
    obtain ⟨⟨hone, two, htwo, hreach⟩, -⟩ := hspec.best c hc
    exact ⟨hone, mem_singleton.mp htwo ▸ hreach⟩
  rw [hanswer, hrun]
  constructor
  · intro htrue
    have hcommon : Common (Parent commits) reference [commit] commit :=
      ⟨hreaches.mp (Except.ok.inj (Option.some.inj htrue)), commit, mem_cons_self, .refl commit⟩
    have honly : ∀ c ∈ bases, c = commit := fun c hc =>
      (hbest hc).2.eq_or_passes.resolve_right ((hspec.best c hc).2 commit hcommon)
    have hmem : commit ∈ bases := by
      rcases hspec.complete with hcomplete | ⟨-, hsome⟩
      · refine hcomplete commit ⟨hcommon, fun w hw hpass => ?_⟩
        obtain ⟨-, two, htwo, hw⟩ := hw
        obtain rfl := mem_singleton.mp htwo
        exact history.acyclic _ (hw.trans_passes hpass)
      · obtain ⟨c, hc⟩ := exists_mem_of_ne_nil bases hsome
        exact honly c hc ▸ hc
    obtain rfl : bases = [commit] :=
      perm_singleton.mp ((perm_ext_iff_of_nodup hspec.nodup (nodup_singleton _)).mpr fun c =>
        ⟨fun hc => mem_singleton.mpr (honly c hc), fun hc => mem_singleton.mp hc ▸ hmem⟩)
    cases all <;> rfl
  · intro hfound
    have hlist : (if all then bases else bases.take 1) = [commit] :=
      Except.ok.inj (Option.some.inj hfound)
    have hmem : commit ∈ bases := by
      have : commit ∈ if all then bases else bases.take 1 := hlist ▸ mem_cons_self
      split at this
      · exact this
      · exact mem_of_mem_take this
    rw [hreaches.mpr (hbest hmem).1]

/-- The root and a tip. -/
theorem inMergeBases_iff_mergeBasesOf_forked :
    inMergeBases 13 forkedHistory true false .p0 .p1 = pure true ↔
      mergeBasesOf 13 forkedHistory false .p1 [.p0] ⟨true, false⟩ = pure [.p0] := by
  have history : History forkedHistory := by
    refine ⟨fun h => ?_, forkedHistory_rising.acyclic⟩
    rw [(forkedHistory_parent h).1]
    exact Option.some_ne_none _
  have hcommits : ∀ c, forkedHistory.get c ≠ none := fun c => by
    cases c <;> exact Option.some_ne_none _
  exact inMergeBases_iff_mergeBasesOf history (.inr forkedHistory_rising) (hcommits _) (hcommits _)
    (by decide : 4 * forkedHistory.keys.length < 13) true false false true

end Tsgit.MergeBase
