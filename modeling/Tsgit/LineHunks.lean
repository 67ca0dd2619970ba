import Tsgit.XdlCompactValid

/-!
# Line Hunks

The hunks of a line diff, as `src/domain/diff/line-diff.ts` builds them from the maps of changed
lines of both sides. The lines of a file are their keys, of any type.
-/

namespace Tsgit.Hunks

open List XdlCompact

/-! ### Hunks -/

inductive HunkKind
  | common
  | oursOnly
  | theirsOnly
  deriving DecidableEq

structure LineHunk where
  kind : HunkKind
  oursStart : ℕ
  oursEnd : ℕ
  theirsStart : ℕ
  theirsEnd : ℕ
  deriving DecidableEq

def commonHunk (oursStart oursEnd theirsStart theirsEnd : ℕ) : LineHunk :=
  ⟨.common, oursStart, oursEnd, theirsStart, theirsEnd⟩

def oursOnlyHunk (oursStart oursEnd theirsPos : ℕ) : LineHunk :=
  ⟨.oursOnly, oursStart, oursEnd, theirsPos, theirsPos⟩

def theirsOnlyHunk (oursPos theirsStart theirsEnd : ℕ) : LineHunk :=
  ⟨.theirsOnly, oursPos, oursPos, theirsStart, theirsEnd⟩

/-- The lines that `consumeCommonRun` goes over, from a pair of positions on. -/
def commonRun : List Bool → List Bool → ℕ
  | false :: ours, false :: theirs => commonRun ours theirs + 1
  | _, _ => 0

/-- The lines that `consumeChangedRun` goes over. -/
def changedRun (changed : List Bool) : ℕ := (changed.takeWhile id).length

/-- A hunk, unless it has no line. -/
def pushIf (nonempty : Bool) (hunk : LineHunk) : List LineHunk := if nonempty then [hunk] else []

def buildHunksFrom (oursChanged theirsChanged : List Bool) :
    ℕ → ℕ → ℕ → Option (List LineHunk)
  | 0, _, _ => none
  | fuel + 1, i, j =>
    if i < oursChanged.length ∨ j < theirsChanged.length then
      let common := commonRun (oursChanged.drop i) (theirsChanged.drop j)
      let i' := i + common
      let j' := j + common
      let oursEnd := i' + changedRun (oursChanged.drop i')
      let theirsEnd := j' + changedRun (theirsChanged.drop j')
      (buildHunksFrom oursChanged theirsChanged fuel oursEnd theirsEnd).map fun rest =>
        pushIf (i' > i ∨ j' > j) (commonHunk i i' j j') ++
          (pushIf (oursEnd > i') (oursOnlyHunk i' oursEnd j') ++
            (pushIf (theirsEnd > j') (theirsOnlyHunk oursEnd j' theirsEnd) ++ rest))
    else some []

def buildHunksFromChanged (oursChanged theirsChanged : List Bool) : Option (List LineHunk) :=
  buildHunksFrom oursChanged theirsChanged (oursChanged.length + theirsChanged.length + 1) 0 0

section

variable {κ : Type}

/-- What a hunk says of the two files, where the one before it ended. -/
structure LineHunk.Fits (ours theirs : List κ) (i j : ℕ) (hunk : LineHunk) : Prop where
  oursStart : hunk.oursStart = i
  theirsStart : hunk.theirsStart = j
  ours_le : i ≤ hunk.oursEnd
  theirs_le : j ≤ hunk.theirsEnd
  common : hunk.kind = .common → ∃ count, hunk.oursEnd = i + count ∧ hunk.theirsEnd = j + count ∧
    ∀ k < count, i + k < ours.length ∧ j + k < theirs.length ∧ ours[i + k]? = theirs[j + k]?
  oursOnly : hunk.kind = .oursOnly → hunk.theirsEnd = j
  theirsOnly : hunk.kind = .theirsOnly → hunk.oursEnd = i

/-- Hunks that go over both files from a pair of positions to the ends. -/
def Describes (ours theirs : List κ) : ℕ → ℕ → List LineHunk → Prop
  | i, j, [] => i = ours.length ∧ j = theirs.length
  | i, j, hunk :: rest => hunk.Fits ours theirs i j ∧
    Describes ours theirs hunk.oursEnd hunk.theirsEnd rest

/-- A diff of a parent, `ours`, and a child, `theirs`. -/
structure LineDiff (ours theirs : List κ) where
  hunks : List LineHunk
  describes : Describes ours theirs 0 0 hunks

variable {ours theirs : List κ} {oursChanged theirsChanged : List Bool}

/-! ### The hunks of two maps -/

theorem commonRun_spec
    (hours : oursChanged.length = ours.length) (htheirs : theirsChanged.length = theirs.length)
    (hsame : unchanged oursChanged ours = unchanged theirsChanged theirs) :
    (∀ k < commonRun oursChanged theirsChanged,
      k < ours.length ∧ k < theirs.length ∧ ours[k]? = theirs[k]?) ∧
      unchanged (oursChanged.drop (commonRun oursChanged theirsChanged))
          (ours.drop (commonRun oursChanged theirsChanged)) =
        unchanged (theirsChanged.drop (commonRun oursChanged theirsChanged))
          (theirs.drop (commonRun oursChanged theirsChanged)) := by
  induction oursChanged, theirsChanged using commonRun.induct generalizing ours theirs with
  | case1 oursChanged theirsChanged ih =>
    cases ours with
    | nil => exact absurd hours (Nat.succ_ne_zero _)
    | cons line ours =>
      cases theirs with
      | nil => exact absurd htheirs (Nat.succ_ne_zero _)
      | cons other theirs =>
        rw [unchanged, unchanged, List.cons.injEq] at hsame
        obtain ⟨hkeys, hrest⟩ := ih (Nat.succ.inj hours) (Nat.succ.inj htheirs) hsame.2
        rw [commonRun]
        refine ⟨fun k hk => ?_, hrest⟩
        cases k with
        | zero => exact ⟨Nat.succ_pos _, Nat.succ_pos _, congrArg some hsame.1⟩
        | succ k =>
          obtain ⟨hlt, hlt', hkey⟩ := hkeys k (Nat.lt_of_succ_lt_succ hk)
          exact ⟨Nat.succ_lt_succ hlt, Nat.succ_lt_succ hlt', hkey⟩
  | case2 oursChanged theirsChanged hnot =>
    have hzero : commonRun oursChanged theirsChanged = 0 := by
      rw [commonRun]
      exact hnot
    rw [hzero]
    exact ⟨fun k hk => absurd hk (Nat.not_lt_zero k), hsame⟩

theorem commonRun_le (oursChanged theirsChanged : List Bool) :
    commonRun oursChanged theirsChanged ≤ oursChanged.length ∧
      commonRun oursChanged theirsChanged ≤ theirsChanged.length := by
  induction oursChanged, theirsChanged using commonRun.induct with
  | case1 oursChanged theirsChanged ih =>
    rw [commonRun, length_cons, length_cons]
    omega
  | case2 oursChanged theirsChanged hnot =>
    have hzero : commonRun oursChanged theirsChanged = 0 := by
      rw [commonRun]
      exact hnot
    omega

theorem changedRun_le (changed : List Bool) : changedRun changed ≤ changed.length :=
  ( takeWhile_prefix id).length_le

theorem unchanged_drop_changedRun (changed : List Bool) (lines : List κ) :
    unchanged (changed.drop (changedRun changed)) (lines.drop (changedRun changed)) =
      unchanged changed lines := by
  induction changed generalizing lines with
  | nil => cases lines <;> rfl
  | cons flag changed ih =>
    cases flag with
    | false => rfl
    | true =>
      cases lines with
      | nil => simp [unchanged_nil]
      | cons line lines => exact ih lines

/-- A pair of positions before a line goes over one. -/
theorem run_pos
    (hours : oursChanged.length = ours.length) (htheirs : theirsChanged.length = theirs.length)
    (hsame : unchanged oursChanged ours = unchanged theirsChanged theirs)
    (hmore : 0 < oursChanged.length ∨ 0 < theirsChanged.length) :
    0 < commonRun oursChanged theirsChanged ∨ 0 < changedRun oursChanged ∨
      0 < changedRun theirsChanged := by
  rcases oursChanged with - | ⟨flag, oursChanged⟩
  · rcases theirsChanged with - | ⟨flag', theirsChanged⟩
    · simp at hmore
    cases flag' with
    | true => exact .inr (.inr (Nat.succ_pos _))
    | false =>
      cases theirs with
      | nil => exact absurd htheirs (Nat.succ_ne_zero _)
      | cons line theirs =>
        cases ours with
        | nil => exact absurd hsame (by simp [unchanged])
        | cons other ours => exact absurd hours.symm (Nat.succ_ne_zero _)
  · cases flag with
    | true => exact .inr (.inl (Nat.succ_pos _))
    | false =>
      rcases theirsChanged with - | ⟨flag', theirsChanged⟩
      · cases ours with
        | nil => exact absurd hours (Nat.succ_ne_zero _)
        | cons line ours =>
          cases theirs with
          | nil => exact absurd hsame (by simp [unchanged])
          | cons other theirs => exact absurd htheirs.symm (Nat.succ_ne_zero _)
      · cases flag' with
        | true => exact .inr (.inr (Nat.succ_pos _))
        | false => exact .inl (Nat.succ_pos _)

theorem describes_pushIf {i j : ℕ} {hunk : LineHunk} {rest : List LineHunk} {nonempty : Bool}
    (hfits : nonempty = true → hunk.Fits ours theirs i j)
    (hend : nonempty = false → hunk.oursEnd = i ∧ hunk.theirsEnd = j)
    (hrest : Describes ours theirs hunk.oursEnd hunk.theirsEnd rest) :
    Describes ours theirs i j (pushIf nonempty hunk ++ rest) := by
  cases nonempty with
  | true => exact ⟨hfits rfl, hrest⟩
  | false =>
    obtain ⟨rfl, rfl⟩ := hend rfl
    exact hrest

theorem buildHunksFrom_describes (hours : oursChanged.length = ours.length)
    (htheirs : theirsChanged.length = theirs.length) {fuel i j : ℕ} (hi : i ≤ ours.length)
    (hj : j ≤ theirs.length) (hsame : unchanged (oursChanged.drop i) (ours.drop i) =
      unchanged (theirsChanged.drop j) (theirs.drop j))
    (hfuel : ours.length - i + (theirs.length - j) < fuel) :
    ∃ hunks, buildHunksFrom oursChanged theirsChanged fuel i j = some hunks ∧
      Describes ours theirs i j hunks := by
  induction fuel generalizing i j with
  | zero => exact absurd hfuel (Nat.not_lt_zero _)
  | succ fuel ih =>
    rw [buildHunksFrom]
    by_cases hmore : i < oursChanged.length ∨ j < theirsChanged.length
    · rw [if_pos hmore]
      dsimp only
      have hlen : (oursChanged.drop i).length = (ours.drop i).length := by
        rw [length_drop, length_drop, hours]
      have hlen' : (theirsChanged.drop j).length = (theirs.drop j).length := by
        rw [length_drop, length_drop, htheirs]
      obtain ⟨hkeys, hcommon⟩ := commonRun_spec hlen hlen' hsame
      have hle := commonRun_le (oursChanged.drop i) (theirsChanged.drop j)
      have hpos := run_pos hlen hlen' hsame
        (by rw [length_drop, length_drop]; omega)
      obtain ⟨count, hcount⟩ :
          ∃ count, commonRun (oursChanged.drop i) (theirsChanged.drop j) = count := ⟨_, rfl⟩
      rw [hcount] at hkeys hcommon hle hpos ⊢
      rw [drop_drop, drop_drop, drop_drop, drop_drop] at hcommon
      have hours' := changedRun_le (oursChanged.drop (i + count))
      have htheirs' := changedRun_le (theirsChanged.drop (j + count))
      have hafter := (unchanged_drop_changedRun (oursChanged.drop (i + count))
        (ours.drop (i + count))).trans (hcommon.trans (unchanged_drop_changedRun
          (theirsChanged.drop (j + count)) (theirs.drop (j + count))).symm)
      rw [length_drop] at hours' htheirs'
      rw [length_drop, length_drop] at hle
      rw [drop_drop, drop_drop, drop_drop, drop_drop] at hafter
      have hzero : count = 0 → 0 < changedRun (oursChanged.drop (i + count)) ∨
          0 < changedRun (theirsChanged.drop (j + count)) := by
        rintro rfl
        exact hpos.resolve_left (Nat.lt_irrefl 0)
      obtain ⟨n, hn⟩ : ∃ n, changedRun (oursChanged.drop (i + count)) = n := ⟨_, rfl⟩
      obtain ⟨m, hm⟩ : ∃ m, changedRun (theirsChanged.drop (j + count)) = m := ⟨_, rfl⟩
      rw [hn] at hours' hafter hzero ⊢
      rw [hm] at htheirs' hafter hzero ⊢
      obtain ⟨rest, hrest, hdescribes⟩ := ih (i := i + count + n) (j := j + count + m)
        (by omega) (by omega) hafter (by omega)
      rw [hrest]
      refine ⟨_, rfl, describes_pushIf (fun _ => ?_) (fun hempty => ?_)
        (describes_pushIf (fun _ => ?_) (fun hempty => ?_)
          (describes_pushIf (fun _ => ?_) (fun hempty => ?_) hdescribes))⟩
      · exact ⟨rfl, rfl, Nat.le_add_right .., Nat.le_add_right .., fun _ => ⟨count, rfl, rfl,
          fun k hk => by
            obtain ⟨hlt, hlt', hkey⟩ := hkeys k hk
            rw [length_drop] at hlt hlt'
            rw [getElem?_drop, getElem?_drop] at hkey
            exact ⟨by omega, by omega, hkey⟩⟩, (fun h => by cases h), (fun h => by cases h)⟩
      · rw [decide_eq_false_iff_not] at hempty
        exact ⟨show i + count = i by omega, show j + count = j by omega⟩
      · exact ⟨rfl, rfl, Nat.le_add_right .., le_refl _, (fun h => by cases h), fun _ => rfl,
          (fun h => by cases h)⟩
      · rw [decide_eq_false_iff_not] at hempty
        exact ⟨show i + count + n = i + count by omega, rfl⟩
      · exact ⟨rfl, rfl, le_refl _, Nat.le_add_right .., (fun h => by cases h),
          (fun h => by cases h), fun _ => rfl⟩
      · rw [decide_eq_false_iff_not] at hempty
        exact ⟨rfl, show j + count + m = j + count by omega⟩
    · rw [if_neg hmore]
      exact ⟨[], rfl, by omega, by omega⟩

/-- **The hunks of two maps** that leave the same lines unchanged describe both files. -/
theorem buildHunksFromChanged_describes (h : Valid ours theirs oursChanged theirsChanged) :
    ∃ hunks, buildHunksFromChanged oursChanged theirsChanged = some hunks ∧
      Describes ours theirs 0 0 hunks :=
  buildHunksFrom_describes h.length h.otherLength (Nat.zero_le _) (Nat.zero_le _) h.same
    (by rw [h.length, h.otherLength]; omega)

/-- A line goes in front of another one, and its copy behind goes. -/
theorem buildHunksFromChanged_describes_moved :
    ∃ hunks, buildHunksFromChanged [false, true] [true, false] = some hunks ∧
      Describes [1, 2] [2, 1] 0 0 hunks :=
  buildHunksFromChanged_describes ⟨rfl, rfl, rfl⟩

end

end Tsgit.Hunks
