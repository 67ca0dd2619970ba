import Mathlib.Data.Bool.Count
import Tsgit.XdlCompactSlides

/-!
# Compaction Keeps a Diff Valid

A run of `compactChanges`, from two maps that leave the same lines unchanged.
-/

open List

namespace Tsgit.XdlCompact

/-! ### Placing a group -/

section

variable {ι : Type} [DecidableEq ι] {ids : List ι} {fuel : ℕ} {start w : Walk}

def BackTo (ids : List ι) (s' s : Walkers) : Prop :=
  s'.otherChanged = s.otherChanged ∧ groupSlideUp ids s'.changed s'.g = some (s.changed, s.g) ∧
    groupPrevious s'.otherChanged s'.go = pure s.go

abbrev CameDown (ids : List ι) (first s : Walkers) : Prop :=
  Relation.ReflTransGen (fun s s' => BackTo ids s' s) first s

/-- Sliding up leads to a place beside a group of the other side. -/
inductive Matched (ids : List ι) : Walkers → Prop
  | here {s : Walkers} (h : s.go.start < s.go.stop) : Matched ids s
  | back {s s' : Walkers} (h : Matched ids s) (hback : BackTo ids s' s) : Matched ids s'

theorem Matched.of_cameDown {first s : Walkers} (h : Matched ids first)
    (hdown : CameDown ids first s) : Matched ids s := by
  induction hdown with
  | refl => exact h
  | tail _ hback ih => exact .back ih hback

/-- What holds of a walk that started at `start` while it places the group found there. -/
structure Placing (ids : List ι) (start w : Walk) : Prop where
  other : w.otherChanged = start.otherChanged
  counts : start.changed.count false = start.otherChanged.count false
  keeps : Keeps ids start.changed w.changed
  here : Corresponding w.toWalkers
  nonempty : w.g.start < w.g.stop
  below : w.g.below w.changed ≤ start.g.below start.changed
  trail : ∀ s ∈ w.trail, Corresponding s
  rediffed : w.rediffed = start.rediffed

theorem nextOther_spec {k : ℕ} (h : IsGroup w.otherChanged w.go k)
    (hk : k < w.otherChanged.count false) :
    groupNext w.otherChanged w.go = some w.nextOther ∧
      IsGroup w.otherChanged w.nextOther (k + 1) := by
  rcases h.endsBelow.groupNext with ⟨-, hlast⟩ | ⟨go', hnext, hgroup, -, -⟩
  · omega
  · rw [Walk.nextOther, hnext]
    exact ⟨rfl, hgroup⟩

namespace Placing

omit [DecidableEq ι] in
theorem stop_le (h : Placing ids start w) : w.g.stop ≤ start.changed.length := by
  obtain ⟨k, hg, -⟩ := h.here
  rw [← h.keeps.length]
  exact hg.stop_le.2

variable {changed : List Bool}

omit [DecidableEq ι] in
theorem moved (h : Placing ids start w) {g go : Group} {k : ℕ}
    (hkeeps : Keeps ids w.changed changed) (hg : IsGroup changed g k)
    (hgo : IsGroup w.otherChanged go k) (hsize : w.g.size ≤ g.size)
    (hbelow : g.below changed ≤ w.g.below w.changed) :
    Placing ids start (w.moved changed g go) where
  other := h.other
  counts := h.counts
  keeps := h.keeps.trans hkeeps
  here := ⟨k, hg, hgo⟩
  nonempty := by
    have := h.nonempty
    rw [Group.size, Group.size] at hsize
    simp only [Walk.moved]
    omega
  below := hbelow.trans h.below
  trail s hs := by
    rcases mem_cons.mp hs with rfl | hold
    · exact ⟨k, hg, hgo⟩
    · exact h.trail s hold
  rediffed := h.rediffed

theorem slideUp (h : Placing ids start w) {g : Group}
    (hslide : groupSlideUp ids w.changed w.g = some (changed, g)) :
    ∃ go, groupPrevious w.otherChanged w.go = pure go ∧
      Placing ids start (w.moved changed g go) ∧ g.start < w.g.start ∧ g.stop + 1 = w.g.stop ∧
      w.g.size ≤ g.size := by
  obtain ⟨k, hg, hgo⟩ := h.here
  obtain ⟨j, rfl, hg', hkeeps, hstart, hstop, hsize, hbelow⟩ := hg.slideUp h.nonempty hslide
  obtain ⟨go, hprevious, hgo'⟩ := hgo.groupPrevious
  exact ⟨go, hprevious, h.moved hkeeps hg' hgo' hsize hbelow, hstart, hstop, hsize⟩

theorem slideDown (h : Placing ids start w) {g : Group}
    (hslide : groupSlideDown ids w.changed w.g = some (changed, g)) :
    Placing ids start (w.moved changed g w.nextOther) ∧ w.g.stop < g.stop ∧
      w.g.size ≤ g.size ∧ (g.size = w.g.size →
        BackTo ids (w.moved changed g w.nextOther).toWalkers w.toWalkers) := by
  obtain ⟨k, hg, hgo⟩ := h.here
  obtain ⟨hg', hkeeps, hk, hstop, hsize, hbelow, hback⟩ := hg.slideDown h.nonempty hslide
  have hcount : w.changed.count false = w.otherChanged.count false := by
    rw [h.keeps.count, h.other, h.counts]
  obtain ⟨hnext, hgo'⟩ := nextOther_spec hgo (hcount ▸ hk)
  exact ⟨h.moved hkeeps hg' hgo' hsize hbelow, hstop, hsize, fun heq =>
    ⟨rfl, hback heq, hgo.groupPrevious_next hnext⟩⟩

theorem back (h : Placing ids start w) {s : Walkers} (hback : BackTo ids w.toWalkers s) :
    Placing ids start (w.moved s.changed s.g s.go) ∧ s.g.stop + 1 = w.g.stop ∧
      (w.moved s.changed s.g s.go).toWalkers = s := by
  obtain ⟨hother, hslide, hprevious⟩ := hback
  obtain ⟨go, hgo, hplacing, -, hstop, -⟩ := h.slideUp hslide
  have heq : s.go = go := by
    rw [hprevious] at hgo
    exact Except.ok.inj (Option.some.inj hgo)
  subst heq
  refine ⟨hplacing, hstop, ?_⟩
  rw [Walk.moved, hother]

end Placing

theorem slideUpFully_spec (h : Placing ids start w) (hfuel : start.changed.length < fuel) :
    Run.Returns (slideUpFully fuel ids w) fun up =>
      Placing ids start up ∧ w.g.size ≤ up.g.size := by
  have hvariant : w.g.start < fuel := by
    have hle := h.stop_le
    have hlt := h.nonempty
    omega
  refine Run.loop_spec (fun v => Placing ids start v ∧ w.g.size ≤ v.g.size)
    (fun v => v.g.start) ?_ fuel w ⟨h, le_rfl⟩ hvariant
  rintro v ⟨hv, hsize⟩
  rw [slideUpTurn]
  cases hslide : groupSlideUp ids v.changed v.g with
  | none => exact .pure ⟨hv, hsize⟩
  | some slid =>
    obtain ⟨changed, g⟩ := slid
    obtain ⟨go, hgo, hplacing, hstart, -, hgrow⟩ := hv.slideUp hslide
    dsimp only
    rw [hgo, pure_bind]
    exact .pure ⟨⟨hplacing, hsize.trans hgrow⟩, hstart⟩

theorem slideDownFully_spec (h : Placing ids start w) (hfuel : start.changed.length < fuel) :
    Run.Returns (slideDownFully fuel ids w) fun r =>
      Placing ids start r.1 ∧ w.g.size ≤ r.1.g.size ∧ (r.1.g.size = w.g.size →
        CameDown ids w.toWalkers r.1.toWalkers ∧ (r.2 = true → Matched ids r.1.toWalkers)) := by
  let inv (r : Walk × Bool) : Prop :=
    Placing ids start r.1 ∧ w.g.size ≤ r.1.g.size ∧ (r.1.g.size = w.g.size →
      CameDown ids w.toWalkers r.1.toWalkers ∧ (r.2 = true → Matched ids r.1.toWalkers))
  have hstart : inv (w, false) :=
    ⟨h, le_rfl, fun _ => ⟨.refl, fun hfalse => absurd hfalse Bool.false_ne_true⟩⟩
  refine Run.loop_spec inv (fun r => start.changed.length - r.1.g.stop) ?_ fuel _ hstart
    (by dsimp only; omega)
  rintro ⟨v, seen⟩ ⟨hv, hsize, hdown⟩
  dsimp only at hv hsize hdown
  rw [slideDownTurn]
  cases hslide : groupSlideDown ids v.changed v.g with
  | none => exact .pure ⟨hv, hsize, hdown⟩
  | some slid =>
    obtain ⟨changed, g⟩ := slid
    obtain ⟨hplacing, hstop, hgrow, hback⟩ := hv.slideDown hslide
    have hle := hplacing.stop_le
    simp only [Walk.moved] at hle
    refine .pure ⟨⟨hplacing, hsize.trans hgrow, fun heq => ?_⟩, ?_⟩
    · have hsame : g.size = w.g.size := heq
      obtain ⟨hcame, hmatched⟩ := hdown (by omega)
      have hback' := hback (by omega)
      refine ⟨hcame.tail hback', fun hseen => ?_⟩
      dsimp only at hseen
      split at hseen
      · next hmatch => exact .here hmatch
      · exact .back (hmatched hseen) hback'
    · simp only [Walk.moved]
      omega

/-- **A group slid to its extremes** came down from the earliest place it can end at. -/
theorem slideGroupToExtremes_spec (h : Placing ids start w) (hfuel : start.changed.length < fuel) :
    Run.Returns (slideGroupToExtremes fuel ids w) fun r =>
      Placing ids start r.walk ∧ (∃ first : Walkers, first.g.stop = r.earliestEnd ∧
        CameDown ids first r.walk.toWalkers) ∧
        (r.matchesOtherGroup = true → Matched ids r.walk.toWalkers) := by
  refine Run.loop_spec (fun v => Placing ids start v)
    (fun v => start.changed.length - v.g.size) ?_ fuel w h (by omega)
  intro v hv
  rw [extremesTurn]
  refine (slideUpFully_spec hv hfuel).bind ?_
  rintro up ⟨hup, hgrow⟩
  refine (slideDownFully_spec hup hfuel).bind ?_
  rintro ⟨down, seen⟩ ⟨hdown, hgrow', hcame⟩
  dsimp only at hdown hgrow' hcame ⊢
  have hle := hdown.stop_le
  split
  · next hne =>
    refine .pure ⟨hdown, ?_⟩
    simp only [Group.size] at hgrow hgrow' ⊢
    omega
  · next heq =>
    have hsame : down.g.size = up.g.size := by
      simp only [Group.size] at hgrow hgrow' ⊢
      omega
    obtain ⟨hcame, hmatched⟩ := hcame hsame
    refine .pure ⟨hdown, ⟨up.toWalkers, rfl, hcame⟩, fun hmatch => ?_⟩
    rcases Bool.or_eq_true_iff.mp hmatch with hfirst | hseen
    · exact Matched.of_cameDown (.here (of_decide_eq_true hfirst)) hcame
    · exact hmatched hseen

theorem slideBackTurn_eq {again : Walk → Bool} {s : Walkers} (hagain : again w = true)
    (hback : BackTo ids w.toWalkers s) :
    slideBackTurn ids again w = pure (.again (w.moved s.changed s.g s.go)) := by
  obtain ⟨-, hslide, hprevious⟩ := hback
  rw [slideBackTurn, if_pos hagain, hslide, Option.getD_some]
  dsimp only
  rw [hprevious, pure_bind]

theorem slideUpToMatch_spec (h : Placing ids start w) (hmatched : Matched ids w.toWalkers)
    (hfuel : start.changed.length < fuel) :
    Run.Returns (slideUpToMatch fuel ids w) (Placing ids start) := by
  have hvariant := h.stop_le.trans_lt hfuel
  refine Run.loop_spec (fun v => Placing ids start v ∧ Matched ids v.toWalkers)
    (fun v => v.g.stop) ?_ fuel w ⟨h, hmatched⟩ hvariant
  rintro v ⟨hv, hm⟩
  by_cases hagain : v.go.stop = v.go.start
  · cases hm with
    | here hhere => exact absurd hagain hhere.ne'
    | back hm hback =>
      obtain ⟨hplacing, hstop, heq⟩ := hv.back hback
      rw [slideBackTurn_eq (decide_eq_true hagain) hback]
      refine .pure ⟨⟨hplacing, heq ▸ hm⟩, ?_⟩
      simp only [Walk.moved]
      omega
  · rw [slideBackTurn, if_neg (by simpa using hagain)]
    exact .pure hv

theorem le_foldl_betterShift {lines : List Line} {groupSize bound : ℕ} {shifts : List ℕ}
    {best : ℕ × SplitScore} (hshifts : ∀ shift ∈ shifts, bound ≤ shift) (hbest : bound ≤ best.1) :
    bound ≤ (shifts.foldl (betterShift lines groupSize) best).1 := by
  induction shifts generalizing best with
  | nil => exact hbest
  | cons shift shifts ih =>
    refine ih (forall_mem_cons.mp hshifts).2 ?_
    rw [betterShift]
    split
    · exact hshifts shift mem_cons_self
    · exact hbest

theorem le_bestIndentShift (lines : List Line) (groupSize earliestEnd latestEnd : ℕ) :
    earliestEnd ≤ bestIndentShift lines groupSize earliestEnd latestEnd := by
  rw [bestIndentShift]
  refine le_foldl_betterShift (fun shift hshift => ?_) (le_max_left _ _)
  have hrange := (mem_range'_1.mp hshift).1
  have hle := le_max_left earliestEnd (max (latestEnd - groupSize - 1) (latestEnd - 100))
  omega

theorem slideToIndentHeuristic_spec (h : Placing ids start w) {first : Walkers}
    (hdown : CameDown ids first w.toWalkers) (lines : List Line)
    (hfuel : start.changed.length < fuel) :
    Run.Returns (slideToIndentHeuristic fuel ids lines w first.g.stop) (Placing ids start) := by
  have hvariant := h.stop_le.trans_lt hfuel
  have hbest := le_bestIndentShift lines (w.g.stop - w.g.start) first.g.stop w.g.stop
  rw [slideToIndentHeuristic]
  generalize
    bestIndentShift lines (w.g.stop - w.g.start) first.g.stop w.g.stop = bestShift at hbest ⊢
  refine Run.loop_spec (fun v => Placing ids start v ∧ CameDown ids first v.toWalkers)
    (fun v => v.g.stop) ?_ fuel w ⟨h, hdown⟩ hvariant
  rintro v ⟨hv, hcame⟩
  by_cases hagain : bestShift < v.g.stop
  · rcases Relation.ReflTransGen.cases_tail hcame with heq | ⟨s, hs, hback⟩
    · rw [heq] at hagain
      omega
    · obtain ⟨hplacing, hstop, heq⟩ := hv.back hback
      rw [slideBackTurn_eq (decide_eq_true hagain) hback]
      refine .pure ⟨⟨hplacing, heq ▸ hs⟩, ?_⟩
      simp only [Walk.moved]
      omega
  · rw [slideBackTurn, if_neg (by simpa using hagain)]
    exact .pure hv

/-- **Placing a group** keeps both walkers at corresponding groups and the map's content. -/
theorem placeGroup_spec (h : Placing ids start w) (lines : List Line)
    (hfuel : start.changed.length < fuel) :
    Run.Returns (placeGroup fuel ids lines w) (Placing ids start) := by
  rw [placeGroup]
  refine (slideGroupToExtremes_spec h hfuel).bind ?_
  rintro ⟨slid, earliestEnd, matchesOtherGroup⟩ ⟨hslid, ⟨first, hfirst, hcame⟩, hmatched⟩
  dsimp only at hslid hfirst hcame hmatched ⊢
  split
  · exact .pure hslid
  · split
    · next hmatch => exact slideUpToMatch_spec hslid (hmatched hmatch) hfuel
    · rw [← hfirst]
      exact slideToIndentHeuristic_spec hslid hcame lines hfuel

end

/-! ### The whole walk -/

section

variable {ι : Type} [DecidableEq ι] {ids oids : List ι} {fallback : Option GroupFallback}
  {fuel : ℕ} {start w : Walk}

/-- Two maps that leave the same lines unchanged. -/
structure Valid (ids oids : List ι) (changed otherChanged : List Bool) : Prop where
  length : changed.length = ids.length
  otherLength : otherChanged.length = oids.length
  same : unchanged changed ids = unchanged otherChanged oids

/-- A callback that writes only in the spans of the two groups it is given, and leaves the
same lines of both unchanged. -/
def Rediffs (ids oids : List ι) (fallback : GroupFallback) : Prop :=
  ∀ (pre : List Bool) (n : ℕ) (post opre : List Bool) (m : ℕ) (opost : List Bool),
    (pre ++ (replicate n true ++ post)).length = ids.length →
    (opre ++ (replicate m true ++ opost)).length = oids.length →
    ∃ span ospan : List Bool, span.length = n ∧ ospan.length = m ∧
      fallback (pre ++ (replicate n true ++ post)) (opre ++ (replicate m true ++ opost))
          ⟨pre.length, pre.length + n⟩ ⟨opre.length, opre.length + m⟩ =
        (pre ++ (span ++ post), opre ++ (ospan ++ opost)) ∧
      unchanged span (ids.drop pre.length) = unchanged ospan (oids.drop opre.length)

omit [DecidableEq ι] in
theorem Valid.counts {changed otherChanged : List Bool} (h : Valid ids oids changed otherChanged) :
    changed.count false = otherChanged.count false := by
  rw [← length_unchanged h.length.le, ← length_unchanged h.otherLength.le, h.same]

omit [DecidableEq ι] in
/-- Two groups at corresponding places may be re-diffed. -/
theorem Valid.rediff {pre post opre opost span ospan : List Bool} {n m : ℕ}
    (h : Valid ids oids (pre ++ (replicate n true ++ post)) (opre ++ (replicate m true ++ opost)))
    (hcount : pre.count false = opre.count false) (hspan : span.length = n)
    (hospan : ospan.length = m)
    (hsame : unchanged span (ids.drop pre.length) = unchanged ospan (oids.drop opre.length)) :
    Valid ids oids (pre ++ (span ++ post)) (opre ++ (ospan ++ opost)) ∧
      span.count false = ospan.count false := by
  subst hspan
  subst hospan
  obtain ⟨hlength, hotherLength, hunchanged⟩ := h
  simp only [length_append, length_replicate] at hlength hotherLength
  have hpre : pre.length ≤ ids.length := by omega
  have hopre : opre.length ≤ oids.length := by omega
  rw [unchanged_append pre, unchanged_append opre, unchanged_replicate, unchanged_replicate]
    at hunchanged
  obtain ⟨habove, hbelow⟩ := append_inj hunchanged (by
    rw [length_unchanged hpre, length_unchanged hopre, hcount])
  refine ⟨⟨?_, ?_, ?_⟩, ?_⟩
  · simp only [length_append]
    exact hlength
  · simp only [length_append]
    exact hotherLength
  · rw [unchanged_append pre, unchanged_append opre, unchanged_append span, unchanged_append ospan,
      habove, hbelow, hsame]
  · have hlen := congrArg List.length hsame
    rwa [length_unchanged (by rw [length_drop]; omega),
      length_unchanged (by rw [length_drop]; omega)] at hlen

/-- What holds of a walk that started at `start`. -/
structure Compacting (ids oids : List ι) (fallback : Option GroupFallback) (start w : Walk) :
    Prop where
  valid : Valid ids oids w.changed w.otherChanged
  trail : ∀ s ∈ w.trail, Corresponding s
  quiet : fallback = none → w.rediffed = false
  kept : w.rediffed = false →
    w.otherChanged = start.otherChanged ∧ w.changed.count false = start.changed.count false

/-- What holds of a walk when it has compacted the group it was at. -/
structure Compacted (ids oids : List ι) (fallback : Option GroupFallback)
    (start before w : Walk) : Prop where
  compacting : Compacting ids oids fallback start w
  below : w.g.below w.changed ≤ before.g.below before.changed
  ends : ∃ k, EndsBelow w.changed w.g k ∧ EndsBelow w.otherChanged w.go k
  progress : before.g.start < before.g.stop ∨ w.g = before.g

/-- How many turns a walk may still take: changed lines from the group on come first. -/
def variant (w : Walk) : ℕ :=
  (w.changed.drop w.g.start).count true * (w.changed.length + 1) + (w.changed.length - w.g.stop)

omit [DecidableEq ι] in
theorem Compacting.placing_start (h : Compacting ids oids fallback start w)
    (hhere : Corresponding w.toWalkers)
    (hsome : w.g.start < w.g.stop) : Placing ids w w where
  other := rfl
  counts := h.valid.counts
  keeps := .refl _
  here := hhere
  nonempty := hsome
  below := le_rfl
  trail := h.trail
  rediffed := rfl

omit [DecidableEq ι] in
/-- A placed group, re-diffed or not. -/
theorem Compacting.rediff (h : Compacting ids oids fallback start w) {placed : Walk}
    (hplaced : Placing ids w placed) (hsome : w.g.start < w.g.stop)
    (hfallback : ∀ f, fallback = some f → Rediffs ids oids f) (original : Group) :
    Compacted ids oids fallback start w (rediff fallback original placed) := by
  have hvalid : Valid ids oids placed.changed placed.otherChanged := by
    refine ⟨hplaced.keeps.length.trans h.valid.length, ?_, ?_⟩
    · rw [hplaced.other, h.valid.otherLength]
    · rw [hplaced.keeps.same, hplaced.other, h.valid.same]
  have hcompacting : Compacting ids oids fallback start placed := by
    refine ⟨hvalid, hplaced.trail, fun hnone => hplaced.rediffed.trans (h.quiet hnone),
      fun hno => ?_⟩
    obtain ⟨hother, hcount⟩ := h.kept (hplaced.rediffed ▸ hno)
    exact ⟨hplaced.other.trans hother, hplaced.keeps.count.trans hcount⟩
  obtain ⟨k, hg, hgo⟩ := hplaced.here
  have hunmoved : Compacted ids oids fallback start w placed :=
    ⟨hcompacting, hplaced.below, ⟨k, hg.endsBelow, hgo.endsBelow⟩, .inl hsome⟩
  cases fallback with
  | none => exact hunmoved
  | some f =>
    rw [XdlCompact.rediff]
    split
    · exact hunmoved
    obtain ⟨pre, n, post, hchanged, hgroup, hcount, -, hpost⟩ := hg
    obtain ⟨opre, m, opost, hother, hogroup, hocount, -, hopost⟩ := hgo
    rw [hchanged, hother] at hvalid
    obtain ⟨span, ospan, hspan, hospan, heq, hsame⟩ := hfallback f rfl pre n post opre m opost
      hvalid.length hvalid.otherLength
    obtain ⟨hvalid', hcounts⟩ := hvalid.rediff (hcount.trans hocount.symm) hspan hospan hsame
    rw [hchanged, hother, hgroup, hogroup, heq]
    refine ⟨⟨hvalid', hplaced.trail, fun hnone => absurd hnone (Option.some_ne_none f),
      fun hno => absurd hno Bool.true_eq_false.mp⟩, ?_, ?_, .inl hsome⟩
    · have hbelow := hplaced.below
      rw [hchanged, hgroup, Group.below, drop_group] at hbelow
      have hdrop : (pre ++ (span ++ post)).drop (pre.length + n) = post := by
        rw [← hspan, ← drop_drop, drop_left, drop_left]
      rw [Group.below, hdrop]
      exact hbelow
    · refine ⟨k + span.count false, ⟨pre ++ span, post, ?_, ?_, ?_, hpost⟩,
        opre ++ ospan, opost, ?_, ?_, ?_, hopost⟩
      · rw [append_assoc]
      · rw [length_append, hspan]
      · rw [count_append, hcount]
      · rw [append_assoc]
      · rw [length_append, hospan]
      · rw [count_append, hocount, hcounts]

theorem compactNonempty_spec (h : Compacting ids oids fallback start w)
    (hhere : Corresponding w.toWalkers)
    (hfallback : ∀ f, fallback = some f → Rediffs ids oids f)
    (lines : List Line) (hfuel : w.changed.length < fuel) :
    Run.Returns (compactNonempty fuel ids lines fallback w)
      (Compacted ids oids fallback start w) := by
  obtain ⟨k, hg, hgo⟩ := hhere
  rw [compactNonempty]
  split
  · next hne =>
    have hsome : w.g.start < w.g.stop := lt_of_le_of_ne hg.stop_le.1 (Ne.symm hne)
    have hplacing := h.placing_start ⟨k, hg, hgo⟩ hsome
    rw [compactGroup]
    refine (placeGroup_spec hplacing lines hfuel).bind fun placed hplaced => ?_
    exact .pure (h.rediff hplaced hsome hfallback w.g)
  · exact .pure ⟨h, le_rfl, ⟨k, hg.endsBelow, hgo.endsBelow⟩, .inr rfl⟩

/-- **One turn of the walk.** -/
theorem compactTurn_spec (h : Compacting ids oids fallback start w)
    (hhere : Corresponding w.toWalkers)
    (hfallback : ∀ f, fallback = some f → Rediffs ids oids f)
    (lines : List Line) (hfuel : w.changed.length < fuel) :
    Run.Returns (compactTurn fuel ids lines fallback w)
      (Run.Turn.Meets (Compacting ids oids fallback start) fun t =>
        (Compacting ids oids fallback start t ∧ Corresponding t.toWalkers) ∧
          variant t < variant w) := by
  rw [compactTurn]
  obtain ⟨compacted, hrun, hcompacted⟩ := compactNonempty_spec h hhere hfallback lines hfuel
  rw [hrun, pure_bind]
  obtain ⟨k, hends, hoends⟩ := hcompacted.ends
  have hvalid := hcompacted.compacting.valid
  have hlen : compacted.changed.length = w.changed.length :=
    hvalid.length.trans h.valid.length.symm
  rcases hends.groupNext with ⟨hlast, -⟩ | ⟨g, hnext, hg, hstart, hk⟩
  · rw [hlast]
    exact .pure hcompacted.compacting
  rw [hnext]
  rcases hoends.groupNext with ⟨-, hlast⟩ | ⟨go, honext, hgo, -, -⟩
  · have hcounts := hvalid.counts
    omega
  have hother : compacted.nextOther = go := by
    rw [Walk.nextOther, honext, Option.getD_some]
  have hcorresponding : Corresponding ⟨compacted.changed, compacted.otherChanged, g, go⟩ :=
    ⟨k + 1, hg, hgo⟩
  rw [hother]
  refine .pure ⟨⟨⟨hvalid, fun s hs => ?_, hcompacted.compacting.quiet,
    hcompacted.compacting.kept⟩, hcorresponding⟩, ?_⟩
  · rcases mem_cons.mp hs with rfl | hold
    · exact hcorresponding
    · exact hcompacted.compacting.trail s hold
  have hstop := hg.stop_le
  -- The changed lines below the group are those below the compacted one at most.
  have hleft : (compacted.changed.drop g.start).count true ≤ w.g.below w.changed := by
    refine le_trans ?_ hcompacted.below
    rw [hstart, ← drop_drop]
    exact (drop_sublist 1 _).count_le true
  obtain ⟨k', hgroup, -⟩ := hhere
  simp only [variant, Walk.moved, hlen]
  rw [hlen] at hstop
  rcases hcompacted.progress with hsome | hsame
  · have hmul := Nat.mul_le_mul_right (w.changed.length + 1)
      (Nat.succ_le_of_lt (hleft.trans_lt (hgroup.below_lt hsome)))
    rw [Nat.succ_mul] at hmul
    omega
  · have hmul := Nat.mul_le_mul_right (w.changed.length + 1)
      (hleft.trans hgroup.below_le)
    rw [hsame] at hstart
    omega

/-- **Compaction keeps a diff valid.** The walk ends; its walkers are at corresponding groups after
every move; and the maps leave the same lines unchanged. -/
theorem compactChanges_valid {changed otherChanged : List Bool}
    (hvalid : Valid ids oids changed otherChanged) (lines : List Line)
    (fallback : Option GroupFallback)
    (hfallback : ∀ f, fallback = some f → Rediffs ids oids f)
    (hfuel : (changed.length + 1) * (changed.length + 1) ≤ fuel) :
    ∃ w, compactChanges fuel changed otherChanged ids lines fallback = pure w ∧
      (∀ s ∈ w.trail, Corresponding s) ∧ Valid ids oids w.changed w.otherChanged ∧
      (fallback = none → w.rediffed = false) ∧
      (w.rediffed = false → w.changed.count true = changed.count true ∧
        w.otherChanged.count true = otherChanged.count true) := by
  have hhere : Corresponding (Walk.first changed otherChanged).toWalkers :=
    ⟨0, groupInit_spec changed, groupInit_spec otherChanged⟩
  have hstart : Compacting ids oids fallback (Walk.first changed otherChanged)
      (Walk.first changed otherChanged) := by
    refine ⟨hvalid, fun s hs => ?_, fun _ => rfl, fun _ => ⟨rfl, rfl⟩⟩
    rw [mem_singleton.mp hs]
    exact hhere
  have hlarge : changed.length < fuel := by
    have hmul := Nat.mul_le_mul_right (changed.length + 1) (Nat.le_add_left 1 changed.length)
    omega
  have hvariant : variant (Walk.first changed otherChanged) < fuel := by
    have hcount : (changed.drop (groupInit changed).start).count true ≤ changed.length :=
      count_le_length.trans (by rw [length_drop]; omega)
    have hmul := Nat.mul_le_mul_right (changed.length + 1) hcount
    rw [Nat.succ_mul] at hfuel
    simp only [variant, Walk.first]
    omega
  obtain ⟨w, hrun, hw⟩ := Run.loop_spec
    (fun v => Compacting ids oids fallback (Walk.first changed otherChanged) v ∧
      Corresponding v.toWalkers)
    variant (fun v hv => compactTurn_spec hv.1 hv.2 hfallback lines
      (by rw [hv.1.valid.length, ← hvalid.length]; exact hlarge)) fuel _ ⟨hstart, hhere⟩ hvariant
  refine ⟨w, hrun, hw.trail, hw.valid, hw.quiet, fun hno => ?_⟩
  obtain ⟨hother, hcount⟩ := hw.kept hno
  refine ⟨?_, congrArg (List.count true) hother⟩
  have hlength := hw.valid.length.trans hvalid.length.symm
  have hbefore := count_false_add_count_true changed
  have hafter := count_false_add_count_true w.changed
  have hsame : w.changed.count false = changed.count false := hcount
  omega

omit [DecidableEq ι] in
/-- A callback that changes nothing. -/
theorem rediffs_id (ids oids : List ι) :
    Rediffs ids oids fun changed otherChanged _ _ => (changed, otherChanged) := by
  intro pre n post opre m opost _ _
  refine ⟨replicate n true, replicate m true, length_replicate, length_replicate, rfl, ?_⟩
  have hnone (n : ℕ) (rest : List ι) : unchanged (replicate n true) rest = [] := by
    have h := unchanged_replicate n [] rest
    rwa [append_nil] at h
  rw [hnone, hnone]

/-- A group of two lines slides up past a line of the id at its end. -/
theorem compactChanges_valid_sample :
    ∃ w, compactChanges 16 [false, true, true] [false] [1, 2, 1] []
        (some fun changed otherChanged _ _ => (changed, otherChanged)) = pure w ∧
      (∀ s ∈ w.trail, Corresponding s) ∧ Valid [1, 2, 1] [1] w.changed w.otherChanged := by
  have hvalid : Valid [1, 2, 1] [1] [false, true, true] [false] := ⟨rfl, rfl, rfl⟩
  obtain ⟨w, hrun, htrail, hsame, -⟩ := compactChanges_valid hvalid [] _
    (fun _ hf => Option.some.inj hf ▸ rediffs_id [1, 2, 1] [1]) (le_refl 16)
  exact ⟨w, hrun, htrail, hsame⟩

end

end Tsgit.XdlCompact
