import Mathlib.Tactic.Ring
import Tsgit.LineHunks

/-!
# Splitting Blame

Blame entries are split along the diff of a parent and a child
(`src/domain/blame/split-blame.ts`): what the diff leaves unchanged passes to the parent, the rest
is kept.
-/

namespace Tsgit.Blame

open Hunks List

section

variable {κ : Type} {ours theirs : List κ}

/-! ### Blame entries -/

/-- `count` lines of the queried file, and the lines of the suspect that they are. -/
structure BlameEntry where
  finalStart : ℕ
  count : ℕ
  sourceStart : ℕ
  deriving DecidableEq

structure SplitResult where
  passed : List BlameEntry
  kept : List BlameEntry
  deriving DecidableEq

/-- The entries of a common hunk, one for each of its lines. -/
def setLines (theirsStart oursStart count : ℕ) (map : ℕ → Option ℕ) : ℕ → Option ℕ :=
  (range count).foldl
    (fun map i => Function.update map (theirsStart + i) (some (oursStart + i))) map

def addHunk (map : ℕ → Option ℕ) (hunk : LineHunk) : ℕ → Option ℕ :=
  if hunk.kind ≠ .common then map
  else setLines hunk.theirsStart hunk.oursStart (hunk.theirsEnd - hunk.theirsStart) map

def buildChildToParent (hunks : List LineHunk) : ℕ → Option ℕ :=
  hunks.foldl addHunk fun _ => none

/-- The end of the lines without a parent from `j` on, of `room` lines. -/
def scanKept (childToParent : ℕ → Option ℕ) : ℕ → ℕ → ℕ
  | 0, j => j
  | room + 1, j => if (childToParent j).isNone then scanKept childToParent room (j + 1) else j

/-- The end of the lines from `j` on whose parents follow one another. -/
def scanPassed (childToParent : ℕ → Option ℕ) : ℕ → ℕ → ℕ → ℕ
  | 0, j, _ => j
  | room + 1, j, expectedParent =>
    if childToParent j = some expectedParent then
      scanPassed childToParent room (j + 1) (expectedParent + 1)
    else j

def splitTurns (entry : BlameEntry) (childToParent : ℕ → Option ℕ) (stop : ℕ) :
    ℕ → ℕ → SplitResult → SplitResult
  | 0, _, result => result
  | room + 1, i, result =>
    if i < stop then
      let finalStart := entry.finalStart + (i - entry.sourceStart)
      match childToParent i with
      | none =>
        let j := scanKept childToParent (stop - (i + 1)) (i + 1)
        splitTurns entry childToParent stop room j
          { result with kept := result.kept ++ [⟨finalStart, j - i, i⟩] }
      | some parent =>
        let j := scanPassed childToParent (stop - (i + 1)) (i + 1) (parent + 1)
        splitTurns entry childToParent stop room j
          { result with passed := result.passed ++ [⟨finalStart, j - i, parent⟩] }
    else result

def splitEntry (childToParent : ℕ → Option ℕ) (result : SplitResult) (entry : BlameEntry) :
    SplitResult :=
  splitTurns entry childToParent (entry.sourceStart + entry.count) entry.count entry.sourceStart
    result

def splitAgainstParent (entries : List BlameEntry) (hunks : List LineHunk) : SplitResult :=
  entries.foldl (splitEntry (buildChildToParent hunks)) ⟨[], []⟩

/-! ### The map of lines -/

theorem setLines_apply (theirsStart oursStart count : ℕ) (map : ℕ → Option ℕ) (line : ℕ) :
    setLines theirsStart oursStart count map line =
      if theirsStart ≤ line ∧ line < theirsStart + count then
        some (oursStart + (line - theirsStart))
      else map line := by
  unfold setLines
  induction count with
  | zero => rw [if_neg (by omega)]; rfl
  | succ count ih =>
    rw [range_succ, foldl_append, foldl_cons, foldl_nil]
    by_cases hline : line = theirsStart + count
    · subst hline
      rw [Function.update_self, if_pos (by omega), Nat.add_sub_cancel_left]
    · rw [Function.update_of_ne hline, ih]
      by_cases hin : theirsStart ≤ line ∧ line < theirsStart + count
      · rw [if_pos hin, if_pos (by omega)]
      · rw [if_neg hin, if_neg (by omega)]

/-- The lines of the parent, less those of the child, that hunks go over. -/
def shiftOf (hunks : List LineHunk) : ℤ :=
  (hunks.map fun hunk =>
    (hunk.oursEnd - hunk.oursStart : ℤ) - (hunk.theirsEnd - hunk.theirsStart)).sum

def InHunk (hunks : List LineHunk) (kind : HunkKind) (before : List LineHunk) (hunk : LineHunk)
    (line : ℕ) : Prop :=
  (∃ after, hunks = before ++ hunk :: after) ∧ hunk.kind = kind ∧ hunk.theirsStart ≤ line ∧
    line < hunk.theirsEnd

def Unchanged (ours theirs : List κ) (hunks : List LineHunk) (line parent : ℕ) : Prop :=
  (∃ before hunk, InHunk hunks .common before hunk line ∧ (parent : ℤ) = line + shiftOf before) ∧
    parent < ours.length ∧ line < theirs.length ∧ ours[parent]? = theirs[line]?

/-- A line of the child in no common hunk; those in the file are in one that only the child
has. -/
def Changed (theirs : List κ) (hunks : List LineHunk) (line : ℕ) : Prop :=
  (∀ before hunk, ¬ InHunk hunks .common before hunk line) ∧
    (line < theirs.length → ∃ before hunk, InHunk hunks .theirsOnly before hunk line)

/-- The lines below `j` that the map holds are those of the hunks so far. -/
structure Mapped (ours theirs : List κ) (done : List LineHunk) (i j : ℕ)
    (map : ℕ → Option ℕ) : Prop where
  shift : (i : ℤ) = j + shiftOf done
  none_of_le : ∀ line, j ≤ line → map line = none
  of_some : ∀ line parent, map line = some parent → Unchanged ours theirs done line parent
  of_none : ∀ line < j, map line = none → Changed theirs done line
  theirs_le : ∀ hunk ∈ done, hunk.theirsEnd ≤ j

theorem InHunk.append {hunks before : List LineHunk} {kind : HunkKind} {hunk : LineHunk}
    {line : ℕ} (h : InHunk hunks kind before hunk line) (more : List LineHunk) :
    InHunk (hunks ++ more) kind before hunk line := by
  obtain ⟨⟨after, rfl⟩, hrest⟩ := h
  exact ⟨⟨after ++ more, by rw [append_assoc, cons_append]⟩, hrest⟩

theorem InHunk.last {done : List LineHunk} {kind : HunkKind} {hunk : LineHunk} {line : ℕ}
    (hkind : hunk.kind = kind) (hstart : hunk.theirsStart ≤ line) (hend : line < hunk.theirsEnd) :
    InHunk (done ++ [hunk]) kind done hunk line := ⟨⟨[], rfl⟩, hkind, hstart, hend⟩

theorem InHunk.of_append {done before : List LineHunk} {kind : HunkKind} {last hunk : LineHunk}
    {line : ℕ} (h : InHunk (done ++ [last]) kind before hunk line) :
    InHunk done kind before hunk line ∨ hunk = last := by
  obtain ⟨⟨after, heq⟩, hrest⟩ := h
  rcases after.eq_nil_or_concat with rfl | ⟨front, final, rfl⟩
  · exact .inr (append_inj_right' heq rfl |> singleton_inj.mp).symm
  · rw [concat_eq_append, ← cons_append, ← append_assoc] at heq
    exact .inl ⟨⟨front, (append_inj' heq rfl).1⟩, hrest⟩

theorem Unchanged.append {hunks : List LineHunk} {line parent : ℕ}
    (h : Unchanged ours theirs hunks line parent) (more : List LineHunk) :
    Unchanged ours theirs (hunks ++ more) line parent := by
  obtain ⟨⟨before, hunk, hin, hshift⟩, hrest⟩ := h
  exact ⟨⟨before, hunk, hin.append more, hshift⟩, hrest⟩

theorem shiftOf_append (hunks : List LineHunk) (hunk : LineHunk) :
    shiftOf (hunks ++ [hunk]) = shiftOf hunks +
      ((hunk.oursEnd - hunk.oursStart : ℤ) - (hunk.theirsEnd - hunk.theirsStart)) := by
  simp [shiftOf]

/-- **The step of `buildChildToParent`.** -/
theorem Mapped.step {done : List LineHunk} {i j : ℕ} {map : ℕ → Option ℕ}
    (h : Mapped ours theirs done i j map) {hunk : LineHunk} (hfits : hunk.Fits ours theirs i j) :
    Mapped ours theirs (done ++ [hunk]) hunk.oursEnd hunk.theirsEnd (addHunk map hunk) := by
  have hlate : ∀ line, j ≤ line → ∀ before other, ¬ InHunk done .common before other line := by
    rintro line hle before other ⟨⟨after, rfl⟩, -, -, hlt⟩
    have hend := h.theirs_le other (mem_append_right _ mem_cons_self)
    omega
  have hshift : (hunk.oursEnd : ℤ) = hunk.theirsEnd + shiftOf (done ++ [hunk]) := by
    rw [shiftOf_append, hfits.oursStart, hfits.theirsStart]
    have hbefore := h.shift
    omega
  have hends : ∀ other ∈ done ++ [hunk], other.theirsEnd ≤ hunk.theirsEnd := by
    intro other hother
    rcases mem_append.mp hother with hold | hold
    · exact (h.theirs_le other hold).trans hfits.theirs_le
    · rw [mem_singleton.mp hold]
  unfold addHunk
  by_cases hkind : hunk.kind = .common
  · rw [if_neg (not_not_intro hkind)]
    obtain ⟨count, hours, htheirs, hkeys⟩ := hfits.common hkind
    rw [hfits.oursStart, hfits.theirsStart, htheirs, Nat.add_sub_cancel_left]
    refine ⟨?_, fun line hle => ?_, fun line parent hline => ?_, fun line hlt hline => ?_, ?_⟩
    · rw [← htheirs]
      exact hshift
    · rw [setLines_apply, if_neg (by omega)]
      exact h.none_of_le line (by omega)
    · rw [setLines_apply] at hline
      by_cases hin : j ≤ line ∧ line < j + count
      · rw [if_pos hin] at hline
        have hparent := (Option.some.inj hline).symm
        obtain ⟨hlt, hlt', hkey⟩ := hkeys (line - j) (by omega)
        rw [show j + (line - j) = line by omega] at hlt' hkey
        have hbefore := h.shift
        refine ⟨⟨done, hunk, .last hkind (by rw [hfits.theirsStart]; exact hin.1)
          (by rw [htheirs]; exact hin.2), by omega⟩, ?_, hlt', ?_⟩
        · rw [hparent]
          exact hlt
        · rw [hparent]
          exact hkey
      · rw [if_neg hin] at hline
        exact (h.of_some line parent hline).append [hunk]
    · rw [setLines_apply] at hline
      by_cases hin : j ≤ line ∧ line < j + count
      · rw [if_pos hin] at hline
        cases hline
      rw [if_neg hin] at hline
      obtain ⟨hnot, htheirsOnly⟩ := h.of_none line (by omega) hline
      refine ⟨fun before other hother => ?_, fun hlt => ?_⟩
      · rcases hother.of_append with hold | rfl
        · exact hnot before other hold
        · obtain ⟨-, -, hge, hlt'⟩ := hother
          rw [hfits.theirsStart] at hge
          omega
      · obtain ⟨before, other, hother⟩ := htheirsOnly hlt
        exact ⟨before, other, hother.append [hunk]⟩
    · rw [← htheirs]
      exact hends
  · rw [if_pos hkind]
    refine ⟨hshift, fun line hle => h.none_of_le line (hfits.theirs_le.trans hle),
      fun line parent hline => (h.of_some line parent hline).append [hunk],
      fun line hlt hline => ⟨fun before other hother => ?_, fun hin => ?_⟩, hends⟩
    · rcases hother.of_append with hold | rfl
      · by_cases hj : line < j
        · exact (h.of_none line hj hline).1 before other hold
        · exact hlate line (by omega) before other hold
      · exact hkind hother.2.1
    by_cases hj : line < j
    · obtain ⟨before, other, hother⟩ := (h.of_none line hj hline).2 hin
      exact ⟨before, other, hother.append [hunk]⟩
    refine ⟨done, hunk, .last ?_ (by rw [hfits.theirsStart]; omega) hlt⟩
    cases hk : hunk.kind with
    | common => exact absurd hk hkind
    | oursOnly =>
      have hend := hfits.oursOnly hk
      omega
    | theirsOnly => rfl

theorem foldl_addHunk {hunks done : List LineHunk} {i j : ℕ} {map : ℕ → Option ℕ}
    (h : Mapped ours theirs done i j map) (hdescribes : Describes ours theirs i j hunks) :
    Mapped ours theirs (done ++ hunks) ours.length theirs.length (hunks.foldl addHunk map) := by
  induction hunks generalizing done i j map with
  | nil =>
    obtain ⟨rfl, rfl⟩ := hdescribes
    rwa [append_nil]
  | cons hunk rest ih =>
    have hrest := ih (h.step hdescribes.1) hdescribes.2
    rwa [append_assoc] at hrest

/-- **The map of lines**: a line has a parent where the diff leaves it unchanged. -/
theorem buildChildToParent_spec (diff : LineDiff ours theirs) :
    (∀ line parent, buildChildToParent diff.hunks line = some parent →
        Unchanged ours theirs diff.hunks line parent) ∧
      ∀ line, buildChildToParent diff.hunks line = none → Changed theirs diff.hunks line := by
  have hstart : Mapped ours theirs [] 0 0 fun _ => none :=
    ⟨rfl, fun _ _ => rfl, (fun _ _ h => by cases h), fun _ h => absurd h (Nat.not_lt_zero _),
      fun _ h => absurd h not_mem_nil⟩
  have h := foldl_addHunk hstart diff.describes
  refine ⟨h.of_some, fun line hline => ?_⟩
  by_cases hlt : line < theirs.length
  · exact h.of_none line hlt hline
  refine ⟨fun before hunk hin => ?_, fun hlt' => absurd hlt' hlt⟩
  obtain ⟨⟨after, heq⟩, -, -, hend⟩ := hin
  have hle := h.theirs_le hunk (by
    rw [nil_append, heq]
    exact mem_append_right _ mem_cons_self)
  omega

/-! ### The parts of an entry -/

/-- A run of an entry's lines, with the line of the parent that the first one is. -/
structure Part where
  finalStart : ℕ
  count : ℕ
  sourceStart : ℕ
  parent : Option ℕ

def Part.kept (part : Part) : Option BlameEntry :=
  if part.parent.isNone then some ⟨part.finalStart, part.count, part.sourceStart⟩ else none

def Part.passed (part : Part) : Option BlameEntry :=
  part.parent.map (⟨part.finalStart, part.count, ·⟩)

/-- The parts go over the lines of an entry in order, none of them empty. -/
structure Cuts (parts : List Part) (finalStart sourceStart count : ℕ) : Prop where
  finals : parts.flatMap (fun part => range' part.finalStart part.count) =
    range' finalStart count
  sources : parts.flatMap (fun part => range' part.sourceStart part.count) =
    range' sourceStart count
  pos : ∀ part ∈ parts, 0 < part.count

def Part.Follows (childToParent : ℕ → Option ℕ) (part : Part) : Prop :=
  ∀ k < part.count, childToParent (part.sourceStart + k) = part.parent.map (· + k)

theorem scanKept_spec (childToParent : ℕ → Option ℕ) (room j : ℕ) :
    j ≤ scanKept childToParent room j ∧ scanKept childToParent room j ≤ j + room ∧
      ∀ line, j ≤ line → line < scanKept childToParent room j → childToParent line = none := by
  induction room generalizing j with
  | zero => exact ⟨le_refl j, le_refl j, fun line hle hlt => absurd hlt (Nat.not_lt.mpr hle)⟩
  | succ room ih =>
    rw [scanKept]
    by_cases hnone : (childToParent j).isNone = true
    · rw [if_pos hnone]
      obtain ⟨hge, hle, hlines⟩ := ih (j + 1)
      refine ⟨by omega, by omega, fun line hline hlt => ?_⟩
      rcases Nat.eq_or_lt_of_le hline with rfl | hlater
      · exact Option.isNone_iff_eq_none.mp hnone
      · exact hlines line hlater hlt
    · rw [if_neg hnone]
      exact ⟨le_refl j, Nat.le_add_right .., fun line hle hlt =>
        absurd hlt (Nat.not_lt.mpr hle)⟩

theorem scanPassed_spec (childToParent : ℕ → Option ℕ) (room j expectedParent : ℕ) :
    j ≤ scanPassed childToParent room j expectedParent ∧
      scanPassed childToParent room j expectedParent ≤ j + room ∧
      ∀ line, j ≤ line → line < scanPassed childToParent room j expectedParent →
        childToParent line = some (expectedParent + (line - j)) := by
  induction room generalizing j expectedParent with
  | zero => exact ⟨le_refl j, le_refl j, fun line hle hlt => absurd hlt (Nat.not_lt.mpr hle)⟩
  | succ room ih =>
    rw [scanPassed]
    by_cases hsome : childToParent j = some expectedParent
    · rw [if_pos hsome]
      obtain ⟨hge, hle, hlines⟩ := ih (j + 1) (expectedParent + 1)
      refine ⟨by omega, by omega, fun line hline hlt => ?_⟩
      rcases Nat.eq_or_lt_of_le hline with rfl | hlater
      · rw [hsome, Nat.sub_self, Nat.add_zero]
      · rw [hlines line hlater hlt]
        exact congrArg some (by omega)
    · rw [if_neg hsome]
      exact ⟨le_refl j, Nat.le_add_right .., fun line hle hlt =>
        absurd hlt (Nat.not_lt.mpr hle)⟩

theorem Cuts.cons {part : Part} {parts : List Part} {finalStart sourceStart count : ℕ}
    (hpos : 0 < part.count) (hfinal : part.finalStart = finalStart)
    (hsource : part.sourceStart = sourceStart)
    (h : Cuts parts (finalStart + part.count) (sourceStart + part.count) count) :
    Cuts (part :: parts) finalStart sourceStart (part.count + count) where
  finals := by rw [flatMap_cons, h.finals, hfinal, range'_append_1]
  sources := by rw [flatMap_cons, h.sources, hsource, range'_append_1]
  pos other hother := by
    rcases mem_cons.mp hother with rfl | hrest
    · exact hpos
    · exact h.pos other hrest

theorem Cuts.advance {entry : BlameEntry} {parts : List Part} {i j stop : ℕ}
    (parent : Option ℕ) (hstart : entry.sourceStart ≤ i) (hlt : i < j) (hstop : j ≤ stop)
    (h : Cuts parts (entry.finalStart + (j - entry.sourceStart)) j (stop - j)) :
    Cuts (⟨entry.finalStart + (i - entry.sourceStart), j - i, i, parent⟩ :: parts)
      (entry.finalStart + (i - entry.sourceStart)) i (stop - i) := by
  have hcount : stop - i = j - i + (stop - j) := by omega
  have hfinal : entry.finalStart + (j - entry.sourceStart) =
      entry.finalStart + (i - entry.sourceStart) + (j - i) := by omega
  have hsource : i + (j - i) = j := by omega
  rw [hfinal] at h
  rw [hcount]
  exact .cons (Nat.sub_pos_of_lt hlt) rfl rfl (hsource.symm ▸ h)

/-- **The run of `splitEntry`**: the lines that are left, cut into parts. -/
theorem splitTurns_spec (entry : BlameEntry) (childToParent : ℕ → Option ℕ) {stop room i : ℕ}
    (hstart : entry.sourceStart ≤ i) (hstop : i ≤ stop)
    (hroom : stop - i ≤ room) :
    ∃ parts, (∀ result, splitTurns entry childToParent stop room i result =
        ⟨result.passed ++ parts.filterMap Part.passed, result.kept ++ parts.filterMap Part.kept⟩) ∧
      Cuts parts (entry.finalStart + (i - entry.sourceStart)) i (stop - i) ∧
      ∀ part ∈ parts, part.Follows childToParent := by
  induction room generalizing i with
  | zero =>
    have hzero : stop - i = 0 := by omega
    refine ⟨[], fun result => ?_, ?_, forall_mem_nil _⟩
    · rw [splitTurns, filterMap_nil, filterMap_nil, append_nil, append_nil]
    · rw [hzero]
      exact ⟨rfl, rfl, forall_mem_nil _⟩
  | succ room ih =>
    by_cases hmore : i < stop
    · cases hmap : childToParent i with
      | none =>
        obtain ⟨hge, hle, hlines⟩ := scanKept_spec childToParent (stop - (i + 1)) (i + 1)
        obtain ⟨j, hj⟩ : ∃ j, scanKept childToParent (stop - (i + 1)) (i + 1) = j := ⟨_, rfl⟩
        rw [hj] at hge hle hlines
        obtain ⟨parts, hparts, hcuts, hfollows⟩ := ih (i := j) (by omega) (by omega) (by omega)
        refine ⟨_, fun result => ?_, hcuts.advance none hstart (by omega) (by omega), ?_⟩
        · rw [splitTurns, if_pos hmore, hmap]
          dsimp only
          rw [hj, hparts, filterMap_cons_none (f := Part.passed) rfl,
            filterMap_cons_some (f := Part.kept) rfl, append_assoc]
          rfl
        · intro other hother
          rcases mem_cons.mp hother with rfl | hrest
          · intro k hk
            dsimp only at hk
            cases k with
            | zero => exact hmap
            | succ k => exact hlines (i + (k + 1)) (by omega) (by omega)
          · exact hfollows other hrest
      | some parent =>
        obtain ⟨hge, hle, hlines⟩ :=
          scanPassed_spec childToParent (stop - (i + 1)) (i + 1) (parent + 1)
        obtain ⟨j, hj⟩ :
            ∃ j, scanPassed childToParent (stop - (i + 1)) (i + 1) (parent + 1) = j := ⟨_, rfl⟩
        rw [hj] at hge hle hlines
        obtain ⟨parts, hparts, hcuts, hfollows⟩ := ih (i := j) (by omega) (by omega) (by omega)
        refine ⟨_, fun result => ?_, hcuts.advance (some parent) hstart (by omega) (by omega), ?_⟩
        · rw [splitTurns, if_pos hmore, hmap]
          dsimp only
          rw [hj, hparts, filterMap_cons_some (f := Part.passed) rfl,
            filterMap_cons_none (f := Part.kept) rfl, append_assoc]
          rfl
        · intro other hother
          rcases mem_cons.mp hother with rfl | hrest
          · intro k hk
            dsimp only at hk
            cases k with
            | zero => exact hmap
            | succ k =>
              have hline := hlines (i + (k + 1)) (by omega) (by omega)
              have hparent : parent + 1 + (i + (k + 1) - (i + 1)) = parent + (k + 1) := by
                omega
              rwa [hparent] at hline
          · exact hfollows other hrest
    · have hzero : stop - i = 0 := by omega
      refine ⟨[], fun result => ?_, ?_, forall_mem_nil _⟩
      · rw [splitTurns, if_neg hmore, filterMap_nil, filterMap_nil, append_nil, append_nil]
      · rw [hzero]
        exact ⟨rfl, rfl, forall_mem_nil _⟩

theorem splitEntry_spec (childToParent : ℕ → Option ℕ) (entry : BlameEntry) :
    ∃ parts, (∀ result, splitEntry childToParent result entry =
        ⟨result.passed ++ parts.filterMap Part.passed, result.kept ++ parts.filterMap Part.kept⟩) ∧
      Cuts parts entry.finalStart entry.sourceStart entry.count ∧
      ∀ part ∈ parts, part.Follows childToParent := by
  have hroom : entry.sourceStart + entry.count - entry.sourceStart ≤ entry.count := by omega
  obtain ⟨parts, hresult, hcuts, hfollows⟩ := splitTurns_spec entry childToParent
    (le_refl entry.sourceStart) (Nat.le_add_right entry.sourceStart entry.count) hroom
  rw [Nat.sub_self, Nat.add_zero, Nat.add_sub_cancel_left] at hcuts
  exact ⟨parts, hresult, hcuts, hfollows⟩

theorem foldl_splitEntry {childToParent : ℕ → Option ℕ} {cut : BlameEntry → List Part}
    (hcut : ∀ entry result, splitEntry childToParent result entry =
      ⟨result.passed ++ (cut entry).filterMap Part.passed,
        result.kept ++ (cut entry).filterMap Part.kept⟩) (entries : List BlameEntry)
    (result : SplitResult) : entries.foldl (splitEntry childToParent) result =
      ⟨result.passed ++ entries.flatMap fun entry => (cut entry).filterMap Part.passed,
        result.kept ++ entries.flatMap fun entry => (cut entry).filterMap Part.kept⟩ := by
  induction entries generalizing result with
  | nil => rw [foldl_nil, flatMap_nil, flatMap_nil, append_nil, append_nil]
  | cons entry rest ih =>
    rw [foldl_cons, ih, hcut]
    dsimp only
    rw [flatMap_cons, flatMap_cons, append_assoc, append_assoc]

/-- What a part says of its lines, by the diff. -/
structure Part.Holds (ours theirs : List κ) (hunks : List LineHunk) (part : Part) : Prop where
  kept : part.parent = none → ∀ k < part.count, Changed theirs hunks (part.sourceStart + k)
  passed : ∀ parent, part.parent = some parent → ∀ k < part.count,
    Unchanged ours theirs hunks (part.sourceStart + k) (parent + k)

theorem Part.Follows.holds {part : Part} {diff : LineDiff ours theirs}
    (h : part.Follows (buildChildToParent diff.hunks)) : part.Holds ours theirs diff.hunks where
  kept hnone k hk := by
    refine (buildChildToParent_spec diff).2 _ ?_
    rw [h k hk, hnone, Option.map_none]
  passed parent hsome k hk := by
    refine (buildChildToParent_spec diff).1 _ _ ?_
    rw [h k hk, hsome, Option.map_some]

end

/-- **Entries along a diff** are cut into parts that go over their lines in order. The lines of a
part that is kept are changed, those that pass are lines of the parent. -/
theorem splitAgainstParent_parts {κ : Type} {ours theirs : List κ} (diff : LineDiff ours theirs)
    (entries : List BlameEntry) : ∃ cut : BlameEntry → List Part,
      (splitAgainstParent entries diff.hunks).passed =
          entries.flatMap (fun entry => (cut entry).filterMap Part.passed) ∧
        (splitAgainstParent entries diff.hunks).kept =
          entries.flatMap (fun entry => (cut entry).filterMap Part.kept) ∧
        ∀ entry, Cuts (cut entry) entry.finalStart entry.sourceStart entry.count ∧
          ∀ part ∈ cut entry, part.Holds ours theirs diff.hunks := by
  choose cut hcut hcuts hfollows using splitEntry_spec (buildChildToParent diff.hunks)
  have hfold := foldl_splitEntry hcut entries ⟨[], []⟩
  rw [nil_append, nil_append] at hfold
  refine ⟨cut, ?_, ?_, fun entry =>
    ⟨hcuts entry, fun part hpart => (hfollows entry part hpart).holds⟩⟩
  · rw [splitAgainstParent, hfold]
  · rw [splitAgainstParent, hfold]

end Tsgit.Blame
