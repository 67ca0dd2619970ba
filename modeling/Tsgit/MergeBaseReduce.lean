import Tsgit.Interleaving
import Tsgit.MergeBasePaint

/-!
# Merge Bases Are the Best Common Ancestors

From the outcome of the walk to the answer of `mergeBasesOf`.
-/

namespace Tsgit.MergeBase

open Ancestry Flags List

variable {Id : Type} [DecidableEq Id] {commits : Dict Id (CommitMeta Id)} {one : Id}
  {twos : List Id} {options : PaintOptions} {outcome : PaintOutcome Id} {queued : Finset Id}

/-! ### What the walk decides -/

section

omit [DecidableEq Id]

theorem Finished.not_above (h : Finished commits one twos options outcome queued)
    (hrising : Rising commits) {c q : Id} (hc : c ∉ queued) (hpainted : outcome.flags c ≠ 0#5)
    (hq : q ∈ queued) : ¬Passes (Parent commits) q c := by
  intro hpass
  obtain ⟨level, hlevel⟩ := h.level hrising
  have hle := (hlevel.queued_le q hq).trans (hlevel.le_visited c hc hpainted)
  exact absurd (hrising.lt hpass) (not_lt_of_ge hle)

theorem ne_zero_of_has {flags bit : Flags} (h : flags.has bit = true) : flags ≠ 0#5 := by
  rintro rfl
  rw [has, BitVec.zero_and] at h
  cases h

theorem Walk.not_stale {flags : Id → Flags} {owed : Id → Id → Prop} {results : List Id}
    (h : Walk commits one twos owed flags queued results) {c : Id}
    (hbest : Best (Parent commits) one twos c) : (flags c).has Flags.stale = false := by
  by_contra hstale
  obtain ⟨m, hm, hpass⟩ := h.stale c (Bool.eq_true_of_not_eq_false hstale)
  exact hbest.2 m hm hpass

theorem Finished.best_mem (h : Finished commits one twos options outcome queued)
    (hover : Exhausted commits outcome.flags queued) {c : Id}
    (hbest : Best (Parent commits) one twos c) : c ∈ outcome.results := by
  have hfresh := h.walk.not_stale hbest
  obtain ⟨⟨hone, two, hmem, htwo⟩, htop⟩ := hbest
  have hclear {q : Id} (hpass : Passes (Parent commits) q c) :
      (outcome.flags q).has Flags.stale = false := by
    by_contra hstale
    obtain ⟨m, hm, hm'⟩ := h.walk.stale q (Bool.eq_true_of_not_eq_false hstale)
    exact htop m hm (hm'.trans hpass)
  have hside1 (hdry : Dry outcome.flags queued Flags.parent1) :
      (outcome.flags c).has Flags.parent1 = true ∧ c ∉ queued := by
    have hbit : (outcome.flags c).has Flags.parent1 = true := by
      rcases h.walk.carry_parent1 h.seeded.one hone with hbit | ⟨q, -, hpass, hq, hbit⟩
      · exact hbit
      · exact absurd (hdry q hq hbit) (by rw [hclear hpass]; decide)
    exact ⟨hbit, fun hc => absurd (hdry c hc hbit) (by rw [hfresh]; decide)⟩
  have hside2 (hdry : Dry outcome.flags queued Flags.parent2) :
      (outcome.flags c).has Flags.parent2 = true ∧ c ∉ queued := by
    have hbit : (outcome.flags c).has Flags.parent2 = true := by
      rcases h.walk.carry_parent2 (h.seeded.twos two hmem) htwo with hbit | ⟨q, -, hpass, hq, hbit⟩
      · exact hbit
      · exact absurd (hdry q hq hbit) (by rw [hclear hpass]; decide)
    exact ⟨hbit, fun hc => absurd (hdry c hc hbit) (by rw [hfresh]; decide)⟩
  rcases hover with ⟨hdry1, hdry2⟩ | ⟨hrising, hdry | hdry⟩
  · exact h.walk.recorded c (hside1 hdry1).2 (hside1 hdry1).1 (hside2 hdry2).1 hfresh
  · obtain ⟨hbit1, hc⟩ := hside1 hdry
    rcases h.walk.carry_parent2 (h.seeded.twos two hmem) htwo with hbit | ⟨q, -, hpass, hq, -⟩
    · exact h.walk.recorded c hc hbit1 hbit hfresh
    · exact absurd hpass (h.not_above hrising hc (ne_zero_of_has hbit1) hq)
  · obtain ⟨hbit2, hc⟩ := hside2 hdry
    rcases h.walk.carry_parent1 h.seeded.one hone with hbit | ⟨q, -, hpass, hq, -⟩
    · exact h.walk.recorded c hc hbit hbit2 hfresh
    · exact absurd hpass (h.not_above hrising hc (ne_zero_of_has hbit2) hq)

/-- **The live results of a walk without a floor.** -/
theorem Painted.alive_spec (h : Painted commits one twos options outcome)
    (hfloor : options.minGeneration = ((0 : ℕ) : WithTop ℕ)) {alive : List Id}
    (halive : alive = outcome.results.filter fun id => (outcome.flags id).has stale = false) :
    alive.Nodup ∧ (∀ c ∈ alive, Common (Parent commits) one twos c) ∧
      ((∀ c, Best (Parent commits) one twos c → c ∈ alive) ∨ options.findAll = false ∧ alive ≠ [] ∧
          ∀ c ∈ alive, Best (Parent commits) one twos c) := by
  subst halive
  obtain ⟨owed, queued, hwalk⟩ := h.walk
  have hkeep {c : Id} (hc : c ∈ outcome.results) (hbest : Best (Parent commits) one twos c) :
      c ∈ outcome.results.filter fun id => (outcome.flags id).has Flags.stale = false :=
    mem_filter.mpr ⟨hc, decide_eq_true (hwalk.not_stale hbest)⟩
  refine ⟨hwalk.nodup.filter _, fun c hc => hwalk.common c (mem_filter.mp hc).1, ?_⟩
  rcases h.finish with ⟨queued, hfinished⟩ | ⟨hfirst, hrising, hsome⟩
  · refine .inl fun c hbest => hkeep ?_ hbest
    rcases hfinished.ended with hover | ⟨c, -, hbelow, -⟩
    · exact hfinished.best_mem hover hbest
    · rw [hfloor] at hbelow
      exact absurd hbelow (not_lt_of_ge bot_le)
  · refine .inr ⟨hfirst, fun hnil => ?_, fun c hc => h.best hrising c (mem_filter.mp hc).1⟩
    obtain ⟨c, hc⟩ := exists_mem_of_ne_nil _ hsome
    have := hkeep hc (h.best hrising c hc)
    rw [hnil] at this
    cases this

/-- **The bit that makes `one` redundant**: some of the others reaches it. -/
theorem Painted.redundant_iff (h : Painted commits one twos options outcome)
    (history : History commits) (hgraded : AllInfinite commits ∨ Rising commits)
    (hall : options.findAll = true)
    (hfloor : options.minGeneration ≤ generationOf commits one) :
    (outcome.flags one).has parent2 = true ↔ ∃ two ∈ twos, Reaches (Parent commits) two one := by
  obtain ⟨owed, queued, hwalk⟩ := h.walk
  refine ⟨hwalk.parent2 one, ?_⟩
  rintro ⟨two, hmem, htwo⟩
  rcases h.finish with ⟨queued, hfinished⟩ | ⟨hfirst, -, -⟩
  · rcases hfinished.walk.carry_parent2 (hfinished.seeded.twos two hmem) htwo with
      hbit | ⟨q, -, hpass, hq, hbit⟩
    · exact hbit
    -- A commit waits above `one`: it is not stale, and the walk was not over.
    exfalso
    have hcycle {c : Id} (hc : Reaches (Parent commits) c one)
        (hstale : (outcome.flags c).has Flags.stale = true) : False := by
      obtain ⟨m, hm, hm'⟩ := hfinished.walk.stale c hstale
      exact history.acyclic m ((hm'.trans_reaches hc).trans_reaches hm.1)
    have hdry2 (hdry : Dry outcome.flags queued Flags.parent2) : False :=
      hcycle hpass.reaches (hdry q hq hbit)
    have hdry1 (hrising : Rising commits) (hdry : Dry outcome.flags queued Flags.parent1) :
        False := by
      have hone : one ∉ queued := fun hone =>
        hcycle (.refl one) (hdry one hone hfinished.seeded.one)
      exact hfinished.not_above hrising hone (ne_zero_of_has hfinished.seeded.one) hq hpass
    rcases hfinished.ended with (⟨-, hdry⟩ | ⟨hrising, hdry | hdry⟩) | ⟨c, hc, hbelow, htop⟩
    · exact hdry2 hdry
    · exact hdry1 hrising hdry
    · exact hdry2 hdry
    · rcases hgraded with hinfinite | hrising
      · rw [hinfinite] at hbelow
        exact absurd hbelow (not_lt_of_ge le_top)
      · have hle := (htop q hq).trans (hbelow.le.trans hfloor)
        exact absurd (hrising.lt hpass) (not_lt_of_ge hle)
  · rw [hall] at hfirst
    cases hfirst

end

/-! ### Reduction -/

variable {ids : List Id}

omit [DecidableEq Id] in
theorem byDateDescending_spec (hids : ∀ c ∈ ids, commits.get c ≠ none) :
    Run.Returns (byDateDescending (readCommit commits) ids) fun sorted => sorted.Perm ids := by
  have hread : ∀ c ∈ ids, (do
      let found ← readCommit commits c
      return (c, found.committerDate) : Run (WalkError Id) (Id × ℤ)) =
        pure (c, ((commits.get c).map CommitMeta.committerDate).getD 0) := by
    intro c hc
    obtain ⟨found, hfound⟩ := Option.ne_none_iff_exists'.mp (hids c hc)
    rw [readCommit_eq hfound, pure_bind, hfound]
    rfl
  rw [byDateDescending, Run.mapM_spec hread, pure_bind]
  refine .pure ?_
  refine ((perm_insertionSort _ _).map Prod.fst).trans (.of_eq ?_)
  rw [map_map]
  exact map_id ids

omit [DecidableEq Id] in
theorem lowestGeneration_spec (hids : ∀ c ∈ ids, commits.get c ≠ none) :
    Run.Returns (lowestGeneration (readCommit commits) ids) fun lowest =>
      ∀ c ∈ ids, lowest ≤ generationOf commits c := by
  let inv (rest : List Id) (lowest : WithTop ℕ) : Prop :=
    (∀ c ∈ rest, c ∈ ids) ∧ ∀ c ∈ ids, c ∈ rest ∨ lowest ≤ generationOf commits c
  have hstep : ∀ lowest c rest, inv (c :: rest) lowest → Run.Returns (do
        let generation := (← readCommit commits c).generation
        return if generation < lowest then generation else lowest) (inv rest) := by
    rintro lowest c rest ⟨hrest, hlowest⟩
    obtain ⟨found, hfound⟩ :=
      Option.ne_none_iff_exists'.mp (hids c (hrest c mem_cons_self))
    rw [readCommit_eq hfound, pure_bind]
    have hle : ∀ generation : WithTop ℕ,
        (if generation < lowest then generation else lowest) ≤ generation ∧
          (if generation < lowest then generation else lowest) ≤ lowest := by
      intro generation
      split
      · next hlt => exact ⟨le_rfl, hlt.le⟩
      · next hlt => exact ⟨not_lt.mp hlt, le_rfl⟩
    refine .pure ⟨fun c' hc' => hrest c' (mem_cons_of_mem _ hc'), fun c' hc' => ?_⟩
    rcases hlowest c' hc' with hleft | hkept
    · rcases mem_cons.mp hleft with rfl | hleft
      · exact .inr ((hle _).1.trans (generationOf_eq hfound).ge)
      · exact .inl hleft
    · exact .inr ((hle _).2.trans hkept)
  have hstart : inv ids generationInfinity := ⟨fun _ hc => hc, fun _ hc => .inl hc⟩
  refine (Run.foldM_spec hstep hstart).mono ?_
  rintro lowest ⟨-, hlowest⟩ c hc
  exact (hlowest c hc).resolve_left (not_mem_nil)

theorem mem_foldl_insert {marked : Id → Bool} {others : List Id} {ruled : Finset Id} {c : Id} :
    c ∈ others.foldl (fun ruled other => if marked other then insert other ruled else ruled) ruled ↔
      c ∈ ruled ∨ c ∈ others ∧ marked c = true := by
  induction others generalizing ruled with
  | nil => simp
  | cons other others ih =>
    rw [foldl_cons, ih, mem_cons]
    by_cases hmarked : marked other = true
    · rw [if_pos hmarked, Finset.mem_insert]
      constructor
      · rintro ((rfl | hruled) | ⟨hmem, hc⟩)
        · exact .inr ⟨.inl rfl, hmarked⟩
        · exact .inl hruled
        · exact .inr ⟨.inr hmem, hc⟩
      · rintro (hruled | ⟨rfl | hmem, hc⟩)
        · exact .inl (.inr hruled)
        · exact .inl (.inl rfl)
        · exact .inr ⟨hmem, hc⟩
    · rw [if_neg hmarked]
      constructor
      · rintro (hruled | ⟨hmem, hc⟩)
        · exact .inl hruled
        · exact .inr ⟨.inr hmem, hc⟩
      · rintro (hruled | ⟨rfl | hmem, hc⟩)
        · exact .inl hruled
        · exact absurd hc hmarked
        · exact .inr ⟨hmem, hc⟩

theorem reducePaint_spec (history : History commits)
    (hgraded : AllInfinite commits ∨ Rising commits) (hone : commits.get one ≠ none)
    (htwos : ∀ two ∈ twos, commits.get two ≠ none) {minGeneration topoCeiling : WithTop ℕ}
    (hfloor : minGeneration ≤ generationOf commits one) {fuel : ℕ}
    (hfuel : 4 * commits.keys.length < fuel) :
    Run.Returns (paint fuel (readCommit commits) one twos ⟨minGeneration, true, topoCeiling⟩)
      fun outcome =>
        ((outcome.flags one).has parent2 = true ↔ ∃ two ∈ twos, Reaches (Parent commits) two one) ∧
        ∀ c, (outcome.flags c).has parent1 = true → Reaches (Parent commits) one c := by
  by_cases hsome : twos = []
  · subst hsome
    rw [paint_nil hone]
    refine .pure ⟨?_, fun c hc => ?_⟩
    · dsimp only
      rw [Function.update_self]
      have hside : parent1.has parent2 = false := by decide
      simp [hside]
    · by_cases heq : c = one
      · rw [heq]
      · dsimp only at hc
        rw [Function.update_of_ne heq] at hc
        cases hc
  · refine (paint_spec history hgraded hone htwos hsome _ hfuel).mono ?_
    rintro outcome houtcome
    refine ⟨houtcome.redundant_iff history hgraded rfl hfloor, fun c hc => ?_⟩
    obtain ⟨owed, queued, hwalk⟩ := houtcome.walk
    exact hwalk.parent1 c hc

def Redundant (commits : Dict Id (CommitMeta Id)) (unique : List Id) (c : Id) : Prop :=
  ∃ w ∈ unique, Passes (Parent commits) w c

/-- The commits ruled redundant so far: rightly, and all of those already walked from. -/
structure Reducing (commits : Dict Id (CommitMeta Id)) (unique rest : List Id)
    (redundant : Finset Id) : Prop where
  left : ∀ c ∈ rest, c ∈ unique
  sound : ∀ c ∈ redundant, Redundant commits unique c
  complete : ∀ c ∈ unique, Redundant commits unique c → c ∈ rest ∨ c ∈ redundant

/-- Ruling on one candidate. -/
theorem Reducing.step (history : History commits)
    (hgraded : AllInfinite commits ∨ Rising commits) {unique : List Id}
    (hunique : ∀ c ∈ unique, commits.get c ≠ none) {topoCeiling : WithTop ℕ} {fuel : ℕ}
    (hfuel : 4 * commits.keys.length < fuel) {candidate : Id} {rest : List Id}
    {redundant : Finset Id} (h : Reducing commits unique (candidate :: rest) redundant) :
    Run.Returns
      (reduceCandidate fuel (readCommit commits) unique topoCeiling redundant candidate)
      (Reducing commits unique rest) := by
  have hcandidate := h.left candidate mem_cons_self
  have hleft : ∀ c ∈ rest, c ∈ unique := fun c hc => h.left c (mem_cons_of_mem _ hc)
  unfold reduceCandidate
  split
  · next hruled =>
    refine .pure ⟨hleft, h.sound, fun c hc hredundant => ?_⟩
    rcases h.complete c hc hredundant with hrest | hdone
    · rcases mem_cons.mp hrest with rfl | hrest
      · exact .inr hruled
      · exact .inl hrest
    · exact .inr hdone
  · next hruled =>
    have hothers {c : Id} : c ∈ unique.filter (fun other => other ≠ candidate ∧
        other ∉ redundant) ↔ c ∈ unique ∧ c ≠ candidate ∧ c ∉ redundant := by
      rw [mem_filter, decide_eq_true_iff]
    have hcommits : ∀ c ∈ candidate :: unique.filter (fun other => other ≠ candidate ∧
        other ∉ redundant), commits.get c ≠ none := by
      intro c hc
      rcases mem_cons.mp hc with rfl | hc
      · exact hunique c hcandidate
      · exact hunique c (hothers.mp hc).1
    refine (lowestGeneration_spec hcommits).bind fun minGeneration hfloor => ?_
    refine (reducePaint_spec history hgraded (hcommits candidate mem_cons_self)
      (forall_mem_cons.mp hcommits).2
      (hfloor candidate mem_cons_self) hfuel).bind ?_
    rintro outcome ⟨hiff, hreach⟩
    -- A commit that only redundant ones reach is also reached by one that is not.
    have hcomplete (hredundant : Redundant commits unique candidate) :
        (outcome.flags candidate).has parent2 = true := by
      obtain ⟨w, hw, hpass⟩ := hredundant
      obtain ⟨top, htop, htopw, hnone⟩ := exists_irreducible history.acyclic
        (unique.finite_toSet) hw
      have hpass' := htopw.trans_passes hpass
      refine hiff.mpr ⟨top, hothers.mpr ⟨htop, ?_, fun hmem => ?_⟩, hpass'.reaches⟩
      · rintro rfl
        exact history.acyclic _ hpass'
      · obtain ⟨v, hv, hpassv⟩ := h.sound top hmem
        exact hnone v hv hpassv
    refine .pure ⟨hleft, fun c hc => ?_, fun c hc hredundant => ?_⟩
    · rcases mem_foldl_insert.mp hc with hc | ⟨hother, hbit⟩
      · split at hc
        · next hbit =>
          rcases Finset.mem_insert.mp hc with rfl | hold
          · obtain ⟨w, hw, hwc⟩ := hiff.mp hbit
            obtain ⟨hw, hne, -⟩ := hothers.mp hw
            exact ⟨w, hw, hwc.eq_or_passes.resolve_left (Ne.symm hne)⟩
          · exact h.sound c hold
        · exact h.sound c hc
      · obtain ⟨-, hne, -⟩ := hothers.mp hother
        exact ⟨candidate, hcandidate, (hreach c hbit).eq_or_passes.resolve_left hne⟩
    · rcases h.complete c hc hredundant with hrest | hdone
      · rcases mem_cons.mp hrest with rfl | hrest
        · refine .inr (mem_foldl_insert.mpr (.inl ?_))
          rw [if_pos (hcomplete hredundant)]
          exact Finset.mem_insert_self c redundant
        · exact .inl hrest
      · refine .inr (mem_foldl_insert.mpr (.inl ?_))
        split
        · exact Finset.mem_insert_of_mem hdone
        · exact hdone

/-- **The reduction** keeps the commits that no other one of the list reaches, in order. -/
theorem removeRedundant_sublist (history : History commits)
    (hgraded : AllInfinite commits ∨ Rising commits)
    (hids : ∀ c ∈ ids, commits.get c ≠ none) (topoCeiling : WithTop ℕ) {fuel : ℕ}
    (hfuel : 4 * commits.keys.length < fuel) :
    Run.Returns (removeRedundant fuel (readCommit commits) ids topoCeiling) fun kept =>
      kept.Sublist ids.eraseDups ∧
        ∀ c, c ∈ kept ↔ c ∈ ids ∧ ∀ w ∈ ids, ¬Passes (Parent commits) w c := by
  have hunique : ∀ c ∈ ids.eraseDups, commits.get c ≠ none := fun c hc =>
    hids c (mem_eraseDups.mp hc)
  have hstart : Reducing commits ids.eraseDups ids.eraseDups ∅ :=
    ⟨fun _ hc => hc, fun c hc => absurd hc (Finset.notMem_empty c), fun _ hc _ => .inl hc⟩
  refine (Run.foldM_spec (fun redundant c rest hs =>
    hs.step history hgraded hunique hfuel) hstart).bind fun redundant hredundant => ?_
  refine .pure ⟨filter_sublist, fun c => ?_⟩
  rw [mem_filter, decide_eq_true_iff, mem_eraseDups]
  refine and_congr_right fun hc => ⟨fun hkept w hw hpass => ?_, fun hnone hmem => ?_⟩
  · rcases hredundant.complete c (mem_eraseDups.mpr hc)
      ⟨w, mem_eraseDups.mpr hw, hpass⟩ with hnil | hmem
    · cases hnil
    · exact hkept hmem
  · obtain ⟨w, hw, hpass⟩ := hredundant.sound c hmem
    exact hnone w (mem_eraseDups.mp hw) hpass

theorem removeRedundant_spec (history : History commits)
    (hgraded : AllInfinite commits ∨ Rising commits)
    (hids : ∀ c ∈ ids, commits.get c ≠ none) (topoCeiling : WithTop ℕ) {fuel : ℕ}
    (hfuel : 4 * commits.keys.length < fuel) :
    Run.Returns (removeRedundant fuel (readCommit commits) ids topoCeiling) fun kept =>
      kept.Nodup ∧ ∀ c, c ∈ kept ↔ c ∈ ids ∧ ∀ w ∈ ids, ¬Passes (Parent commits) w c :=
  (removeRedundant_sublist history hgraded hids topoCeiling hfuel).mono fun _ hkept =>
    ⟨(Dict.nodup_eraseDups ids).sublist hkept.1, hkept.2⟩

/-! ### Merge bases -/

/-- What `mergeBasesMany` answers: the best common ancestors, or some of them where it may
stop at the first. -/
structure Bases (commits : Dict Id (CommitMeta Id)) (one : Id) (twos : List Id) (findAll : Bool)
    (bases : List Id) : Prop where
  nodup : bases.Nodup
  best : ∀ c ∈ bases, Best (Parent commits) one twos c
  complete : (∀ c, Best (Parent commits) one twos c → c ∈ bases) ∨ findAll = false ∧ bases ≠ []

omit [DecidableEq Id] in
theorem Bases.of_alive (history : History commits) (hone : commits.get one ≠ none)
    {findAll : Bool} {alive kept : List Id}
    (hcommon : ∀ c ∈ alive, Common (Parent commits) one twos c)
    (hcomplete : (∀ c, Best (Parent commits) one twos c → c ∈ alive) ∨
      findAll = false ∧ alive ≠ [] ∧ ∀ c ∈ alive, Best (Parent commits) one twos c)
    (hnodup : kept.Nodup)
    (hkept : ∀ c, c ∈ kept ↔ c ∈ alive ∧ ∀ w ∈ alive, ¬Passes (Parent commits) w c) :
    Bases commits one twos findAll kept := by
  have hkeep {c : Id} (hc : c ∈ alive) (hbest : Best (Parent commits) one twos c) : c ∈ kept :=
    (hkept c).mpr ⟨hc, fun w hw => hbest.2 w (hcommon w hw)⟩
  refine ⟨hnodup, fun c hc => ?_, ?_⟩
  · obtain ⟨halive, hnone⟩ := (hkept c).mp hc
    rcases hcomplete with hall | ⟨-, -, hbest⟩
    · obtain ⟨top, htop, hreach⟩ := exists_best history.acyclic
        (finite_reaches history hone) (hcommon c halive)
      rcases hreach.eq_or_passes with rfl | hpass
      · exact htop
      · exact absurd hpass (hnone top (hall top htop))
    · exact hbest c halive
  · rcases hcomplete with hall | ⟨hfirst, hsome, hbest⟩
    · exact .inl fun c hbest => hkeep (hall c hbest) hbest
    · obtain ⟨c, hc⟩ := exists_mem_of_ne_nil alive hsome
      exact .inr ⟨hfirst, ne_nil_of_mem (hkeep hc (hbest c hc))⟩

omit [DecidableEq Id] in
theorem Bases.perm {findAll : Bool} {bases bases' : List Id}
    (h : Bases commits one twos findAll bases) (hperm : bases'.Perm bases) :
    Bases commits one twos findAll bases' := by
  refine ⟨hperm.nodup_iff.mpr h.nodup, fun c hc => h.best c (hperm.mem_iff.mp hc), ?_⟩
  rcases h.complete with hall | ⟨hfirst, hsome⟩
  · exact .inl fun c hbest => hperm.mem_iff.mpr (hall c hbest)
  · refine .inr ⟨hfirst, fun hnil => hsome ?_⟩
    rw [hnil] at hperm
    exact nil_perm.mp hperm

omit [DecidableEq Id] in
/-- A commit compared against itself is its own best common ancestor. -/
theorem bases_self (history : History commits) (hmem : one ∈ twos) (findAll : Bool) :
    Bases commits one twos findAll [one] := by
  have hcommon : Common (Parent commits) one twos one := ⟨.refl one, one, hmem, .refl one⟩
  refine ⟨nodup_singleton one, fun c hc => ?_, .inl fun c hbest => ?_⟩
  · rw [mem_singleton.mp hc]
    exact ⟨hcommon, fun m hm hpass => history.acyclic m (hpass.trans_reaches hm.1)⟩
  · rw [mem_singleton]
    exact hbest.1.1.eq_or_passes.resolve_right fun hpass => hbest.2 one hcommon hpass

theorem mergeBasesMany_spec (history : History commits)
    (hgraded : AllInfinite commits ∨ Rising commits) (hone : commits.get one ≠ none)
    (htwos : ∀ two ∈ twos, commits.get two ≠ none) (hsome : twos ≠ []) (findAll : Bool)
    (topoCeiling : WithTop ℕ) {fuel : ℕ} (hfuel : 4 * commits.keys.length < fuel) :
    Run.Returns (mergeBasesMany fuel (readCommit commits) one twos findAll topoCeiling)
      (Bases commits one twos findAll) := by
  unfold mergeBasesMany
  split
  · next hmem => exact .pure (bases_self history hmem findAll)
  · refine (paint_spec history hgraded hone htwos hsome _ hfuel).bind fun outcome houtcome => ?_
    obtain ⟨hnodup, hcommon, hcomplete⟩ := houtcome.alive_spec rfl rfl
    generalize outcome.results.filter (fun id => (outcome.flags id).has stale = false) = alive
      at hnodup hcommon hcomplete ⊢
    have halive : ∀ c ∈ alive, commits.get c ≠ none := fun c hc =>
      Reaches.get_ne_none history (hcommon c hc).1 hone
    refine (byDateDescending_spec halive).bind fun sorted hsorted => ?_
    split
    · next hshort =>
      refine .pure (Bases.perm (Bases.of_alive history hone hcommon hcomplete hnodup
        fun c => ⟨fun hc => ⟨hc, fun w hw hpass => ?_⟩, And.left⟩) hsorted)
      -- One candidate alone is reached by no other.
      have hle : alive.length ≤ 1 := hsorted.length_eq ▸ hshort
      obtain ⟨v, rfl⟩ := length_eq_one_iff.mp
        (Nat.le_antisymm hle (length_pos_of_mem hc))
      rw [mem_singleton.mp hc, mem_singleton.mp hw] at hpass
      exact history.acyclic v hpass
    · have hcommits : ∀ c ∈ sorted, commits.get c ≠ none := fun c hc =>
        halive c (hsorted.mem_iff.mp hc)
      refine (removeRedundant_spec history hgraded hcommits topoCeiling hfuel).bind ?_
      rintro kept ⟨hkeptNodup, hkept⟩
      have hkeptCommits : ∀ c ∈ kept, commits.get c ≠ none := fun c hc =>
        hcommits c ((hkept c).mp hc).1
      refine (byDateDescending_spec hkeptCommits).mono fun answer hanswer => ?_
      refine Bases.perm (Bases.of_alive history hone hcommon hcomplete hkeptNodup fun c => ?_)
        hanswer
      rw [hkept]
      simp only [hsorted.mem_iff]

/-- **Merge bases of two or more commits are their best common ancestors**: all of them, or one of
them if there is a common ancestor at all. -/
theorem mergeBasesOf_best (history : History commits)
    (hgraded : AllInfinite commits ∨ Rising commits) (correctedCommitDates all : Bool)
    {first second : Id} {rest : List Id}
    (hcommits : ∀ c ∈ first :: second :: rest, commits.get c ≠ none) {fuel : ℕ}
    (hfuel : 4 * commits.keys.length < fuel) :
    ∃ bases, mergeBasesOf fuel commits correctedCommitDates first (second :: rest) ⟨all, false⟩ =
        pure bases ∧
      (all = true → bases.Nodup ∧ ∀ c, c ∈ bases ↔ Best (Parent commits) first (second :: rest) c) ∧
      (all = false → bases.length ≤ 1 ∧
        (∀ c ∈ bases, Best (Parent commits) first (second :: rest) c) ∧
        (bases = [] ↔ ∀ c, ¬Common (Parent commits) first (second :: rest) c)) := by
  have hfirst := hcommits first mem_cons_self
  obtain ⟨bases, hbases, hspec⟩ := mergeBasesMany_spec history hgraded hfirst
    (forall_mem_cons.mp hcommits).2 (cons_ne_nil second rest)
    all (topoCeilingFor correctedCommitDates) hfuel
  refine ⟨if all then bases else bases.take 1, ?_, ?_, ?_⟩
  · rw [mergeBasesOf]
    simp only [Bool.false_eq_true, if_false, hbases, pure_bind]
  · rintro rfl
    refine ⟨hspec.nodup, fun c => ⟨hspec.best c, fun hbest => ?_⟩⟩
    rcases hspec.complete with hall | ⟨hnot, -⟩
    · exact hall c hbest
    · cases hnot
  rintro rfl
  refine ⟨length_take_le 1 bases, fun c hc => hspec.best c (mem_of_mem_take hc), ?_⟩
  have hempty : bases.take 1 = [] ↔ bases = [] := by
    cases bases <;> simp
  rw [if_neg Bool.false_ne_true, hempty]
  constructor
  · rintro rfl c hc
    obtain ⟨top, htop, -⟩ := exists_best history.acyclic (finite_reaches history hfirst) hc
    rcases hspec.complete with hall | ⟨-, hsome⟩
    · cases hall top htop
    · exact hsome rfl
  · intro hnone
    by_contra hsome
    obtain ⟨c, hc⟩ := exists_mem_of_ne_nil bases hsome
    exact hnone c (hspec.best c hc).1

/-! ### Runs -/

open Interleaving

omit [DecidableEq Id] in
theorem Rising.acyclic (h : Rising commits) : Acyclic (Parent commits) :=
  fun _ hpass => lt_irrefl _ (h.lt hpass)

/-- A root and two commits on top of it. -/
def forkedHistory : Dict Trio (CommitMeta Trio) :=
  ((Dict.empty.insert .p0 ⟨[], 10, ((1 : ℕ) : WithTop ℕ)⟩).insert
    .p1 ⟨[.p0], 20, ((2 : ℕ) : WithTop ℕ)⟩).insert .p2 ⟨[.p0], 5, ((2 : ℕ) : WithTop ℕ)⟩

theorem forkedHistory_parent {c p : Trio} (h : Parent forkedHistory c p) : p = .p0 ∧ c ≠ .p0 := by
  obtain ⟨found, hfound, hp⟩ := h
  cases c with
  | p0 =>
    obtain rfl : (⟨[], 10, ((1 : ℕ) : WithTop ℕ)⟩ : CommitMeta Trio) = found :=
      Option.some.inj hfound
    cases hp
  | p1 =>
    obtain rfl : (⟨[.p0], 20, ((2 : ℕ) : WithTop ℕ)⟩ : CommitMeta Trio) = found :=
      Option.some.inj hfound
    exact ⟨mem_singleton.mp hp, by decide⟩
  | p2 =>
    obtain rfl : (⟨[.p0], 5, ((2 : ℕ) : WithTop ℕ)⟩ : CommitMeta Trio) = found :=
      Option.some.inj hfound
    exact ⟨mem_singleton.mp hp, by decide⟩

theorem forkedHistory_rising : Rising forkedHistory := by
  intro c p h
  obtain ⟨rfl, hc⟩ := forkedHistory_parent h
  have hroot : generationOf forkedHistory .p0 = ((1 : ℕ) : WithTop ℕ) := rfl
  have htop : generationOf forkedHistory c = ((2 : ℕ) : WithTop ℕ) := by
    cases c with
    | p0 => exact absurd rfl hc
    | p1 => rfl
    | p2 => rfl
  rw [hroot, htop]
  exact WithTop.coe_lt_coe.mpr (Nat.lt_succ_self 1)

/-- The two commits have a merge base, which is their best common ancestor. -/
theorem mergeBasesOf_best_forked :
    ∃ bases, mergeBasesOf 13 forkedHistory false .p1 [.p2] ⟨true, false⟩ = pure bases ∧
      bases.Nodup ∧ ∀ c, c ∈ bases ↔ Best (Parent forkedHistory) .p1 [.p2] c := by
  have history : History forkedHistory := by
    refine ⟨fun h => ?_, forkedHistory_rising.acyclic⟩
    rw [(forkedHistory_parent h).1]
    exact Option.some_ne_none _
  have hcommits : ∀ c ∈ [Trio.p1, .p2], forkedHistory.get c ≠ none := fun c _ => by
    cases c <;> exact Option.some_ne_none _
  obtain ⟨bases, hrun, hall, -⟩ := mergeBasesOf_best history (.inr forkedHistory_rising) false true
    hcommits (by decide : 4 * forkedHistory.keys.length < 13)
  exact ⟨bases, hrun, hall rfl⟩

/-- A single commit. -/
def loneCommit : Dict Unit (CommitMeta Unit) := Dict.empty.insert () ⟨[], 10, generationInfinity⟩

/-- Compared with no other commit, a commit is still answered as its own base. -/
theorem not_best_of_singleCommit :
    History loneCommit ∧ AllInfinite loneCommit ∧
      mergeBasesOf 5 loneCommit false () [] ⟨true, false⟩ = pure [()] ∧
      ¬Best (Parent loneCommit) () [] () := by
  have hnone {c p : Unit} (h : Parent loneCommit c p) : False := by
    obtain ⟨found, hfound, hp⟩ := h
    obtain rfl : (⟨[], 10, generationInfinity⟩ : CommitMeta Unit) = found :=
      Option.some.inj hfound
    cases hp
  refine ⟨⟨fun h => (hnone h).elim, fun c hpass => ?_⟩, fun c => rfl, rfl, ?_⟩
  · cases hpass with
    | single h => exact hnone h
    | tail _ h => exact hnone h
  · rintro ⟨⟨-, two, htwo, -⟩, -⟩
    cases htwo

end Tsgit.MergeBase
