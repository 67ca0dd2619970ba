import Tsgit.Loop
import Tsgit.RegexBacktrack

/-!
# The Search of the Backtracking Matcher

`backtrack` of `src/domain/regex/extended-regex.ts` attempts every position a match may start
at, leftmost first, until one matches or the steps are spent.
-/

namespace Tsgit.Regex

open List

variable {σ : Type}

/-! ### One start, and every start -/

/-- How a run from one position ends. -/
inductive Verdict
  | matched | failed | exhausted
  deriving DecidableEq

/-- A path and the work it has taken. -/
structure Running where
  path : Path
  budget : Budget

/-- The steps or the records are at their bounds. -/
def Running.Spent (limit : ℕ) (r : Running) : Prop :=
  limit ≤ r.budget.steps ∨ maxPathEntries ≤ r.path.entries

/-- A laid-out program, where its matches start, the classes they begin with and whether it
asserts on words. -/
structure Backtracker (σ : Type) where
  program : List (Op σ)
  slots : ℕ
  subjectStart : Bool
  leading : Option (List σ)
  words : Bool

namespace Setting

variable (S : Setting σ)

def attemptTurn (M : Backtracker σ) (limit : ℕ) (r : Running) :
    Run Empty (Run.Turn Running (Verdict × Running)) :=
  match M.program[r.path.pc]? with
  | none => pure (.stop (.matched, r))
  | some op =>
    let spent := spend limit r.budget r.path
    if spent.1 then
      let x := S.execute M.words r.path op
      let budget : Budget := { spent.2 with steps := spent.2.steps + x.steps }
      if x.going then pure (.again ⟨x.path, budget⟩)
      else if (backUp x.path).1 then pure (.again ⟨(backUp x.path).2, budget⟩)
      else pure (.stop (.failed, ⟨(backUp x.path).2, budget⟩))
    else pure (.stop (.exhausted, ⟨r.path, spent.2⟩))

/-- Follows one path from `start`, backing up whenever it fails. -/
def attempt (fuel : ℕ) (M : Backtracker σ) (limit start : ℕ) (r : Running) :
    Run Empty (Verdict × Running) :=
  Run.loop (S.attemptTurn M limit) fuel
    { r with path := { r.path with pc := 0, position := start } }

/-- The next position a match can begin at. -/
def nextLeading (leading : List σ) (position : ℕ) : Option ℕ :=
  ((S.subject.drop position).findIdx? fun c => leading.any fun source => S.reads source c).map
    (position + ·)

def firstStart (M : Backtracker σ) : Option ℕ :=
  match M.leading with
  | none => some 0
  | some leading => S.nextLeading leading 0

def nextStart (M : Backtracker σ) (start : ℕ) : Option ℕ :=
  if M.subjectStart || S.subject[start]?.isNone then none
  else
    match M.leading with
    | none => some (start + 1)
    | some leading => S.nextLeading leading (start + 1)

def searchTurn (fuel : ℕ) (M : Backtracker σ) (limit : ℕ) (s : Option ℕ × Running) :
    Run Empty (Run.Turn (Option ℕ × Running) (Verdict × Running)) :=
  match s.1 with
  | none => pure (.stop (.failed, s.2))
  | some start => do
      let ended ← S.attempt fuel M limit start s.2
      if ended.1 = .failed then return .again (S.nextStart M start, ended.2)
      else return .stop ended

/-- The most steps a subject may take. -/
def limit : ℕ := maxBacktrackSteps + stepsPerCodeUnit * (codeUnits S.subject).length

/-- Nothing recorded. -/
def fresh (M : Backtracker σ) : Running :=
  ⟨⟨0, 0, replicate M.slots none, [], []⟩, ⟨0, checkInterval⟩⟩

/-- Runs from each position a match may start at, leftmost first, until one matches or the
subject's steps are spent. -/
def search (fuel : ℕ) (M : Backtracker σ) : Run Empty (Verdict × Running) :=
  Run.loop (S.searchTurn fuel M S.limit) fuel (S.firstStart M, fresh M)

/-- Whether the subject holds a match. -/
def backtrack (fuel : ℕ) (M : Backtracker σ) : Run Empty Bool := do
  let ended ← S.search fuel M
  return ended.1 = .matched

/-- Some path from a start in the subject reaches the match. -/
def HasMatch (M : Backtracker σ) : Prop :=
  ∃ p, p ≤ S.subject.length ∧ S.MatchesFrom M.program M.slots p

variable {S}

/-- What a machine tells of its program. -/
structure Sound (S : Setting σ) (M : Backtracker σ) : Prop where
  words : M.words = false → ∀ mask, Op.assert mask ∈ M.program → dependsOnWords mask = false
  subjectStart : M.subjectStart = true → ∀ p, S.MatchesFrom M.program M.slots p → p = 0
  leading : ∀ leading, M.leading = some leading → ∀ p, S.MatchesFrom M.program M.slots p →
    leading.any (fun source => S.accepts source p) = true

/-- What an attempt comes to. -/
structure Attempted (S : Setting σ) (M : Backtracker σ) (memory : List (Option ℕ)) (limit : ℕ)
    (start : ℕ) (ended : Verdict × Running) : Prop where
  matched : ended.1 = .matched → S.CanMatch M.program ⟨0, start, memory⟩
  failed : ended.1 = .failed → ¬S.CanMatch M.program ⟨0, start, memory⟩ ∧
    ended.2.path.memory = memory ∧ ended.2.path.trail = [] ∧ ended.2.path.choices = [] ∧
      ended.2.budget.nextCheck ≤ limit + checkInterval
  exhausted : ended.1 = .exhausted → ended.2.Spent limit

/-- While an attempt runs, what can match is as it was at its start. -/
structure Attempting (S : Setting σ) (M : Backtracker σ) (memory : List (Option ℕ)) (limit : ℕ)
    (start : ℕ) (r : Running) : Prop where
  kept : Kept memory r.path
  live : S.CanMatch M.program ⟨0, start, memory⟩ ↔ S.Live M.program r.path
  nextCheck : r.budget.nextCheck ≤ limit + checkInterval

theorem spend_spec {limit : ℕ} {budget : Budget} (path : Path)
    (hcheck : budget.nextCheck ≤ limit + checkInterval) :
    (spend limit budget path).2.steps = budget.steps + 1 ∧ ((spend limit budget path).1 = true →
        budget.steps + 1 < limit + checkInterval ∧
          (spend limit budget path).2.nextCheck ≤ limit + checkInterval) ∧
      ((spend limit budget path).1 = false →
        limit ≤ budget.steps + 1 ∨ maxPathEntries ≤ path.entries) := by
  rw [spend]
  split
  · next hlt => exact ⟨rfl, fun _ => ⟨hlt.trans_le hcheck, hcheck⟩, nofun⟩
  · next hge =>
    refine ⟨rfl, fun hgoing => ?_, fun hspent => ?_⟩
    · rw [Bool.and_eq_true, decide_eq_true_iff] at hgoing
      exact ⟨Nat.lt_add_right _ hgoing.1, by dsimp only; omega⟩
    · rw [Bool.and_eq_false_iff, decide_eq_false_iff_not, decide_eq_false_iff_not, not_lt,
        not_lt] at hspent
      exact hspent

variable {M : Backtracker σ}

theorem attemptTurn_spec (hM : Sound S M) {memory : List (Option ℕ)}
    {limit start : ℕ} {r : Running} (h : Attempting S M memory limit start r) :
    Run.Returns (S.attemptTurn M limit r) (Run.Turn.Meets (Attempted S M memory limit start)
      fun t => Attempting S M memory limit start t ∧
        limit + checkInterval - t.budget.steps < limit + checkInterval - r.budget.steps) := by
  rw [attemptTurn]
  cases hop : M.program[r.path.pc]? with
  | none =>
    exact .pure ⟨fun _ => h.live.mpr (.inl ⟨0, _, .refl _, hop⟩), (fun h => by cases h),
      (fun h => by cases h)⟩
  | some op =>
    obtain ⟨hsteps, hgoing, hspent⟩ := spend_spec r.path h.nextCheck
    have hruns : Runs S M.program memory r.path (S.execute M.words r.path op) :=
      execute_runs hop (fun hwords mask heq =>
        hM.words hwords mask (heq ▸ mem_of_getElem? hop)) h.kept
    dsimp only
    split
    · next hspend =>
      obtain ⟨hlt, hcheck⟩ := hgoing hspend
      have hless (extra : ℕ) : limit + checkInterval -
          ((spend limit r.budget r.path).2.steps + extra) <
            limit + checkInterval - r.budget.steps := by
        omega
      split
      · next hx =>
        obtain ⟨hkept, hlive⟩ := hruns.going hx
        exact .pure ⟨⟨hkept, h.live.trans hlive, hcheck⟩, hless _⟩
      · next hx =>
        obtain ⟨hnone, hmemory, htrail, hchoices⟩ :=
          hruns.failed (Bool.eq_false_iff.mpr hx)
        have hkept : Kept memory (S.execute M.words r.path op).path := by
          refine ⟨?_, ?_⟩
          · rw [htrail, hchoices]
            exact h.kept.nested
          · rw [htrail, hmemory]
            exact h.kept.unwound
        have hlive : S.CanMatch M.program ⟨0, start, memory⟩ ↔
            ∃ c, Pending (S.execute M.words r.path op).path.choices
              (S.execute M.words r.path op).path.trail
              (S.execute M.words r.path op).path.memory c ∧ S.CanMatch M.program c := by
          rw [h.live, Live, or_iff_right hnone, htrail, hchoices, hmemory]
        obtain ⟨hback, hend⟩ := backUp_spec (S := S) M.program hkept
        split
        · next hb =>
          obtain ⟨hkept', hlive'⟩ := hback hb
          exact .pure ⟨⟨hkept', hlive.trans hlive', hcheck⟩, hless _⟩
        · next hb =>
          obtain ⟨hnot, hmem, htr, hch⟩ := hend (Bool.eq_false_iff.mpr hb)
          exact .pure ⟨(fun h => by cases h),
            fun _ => ⟨fun hmatch => hnot (hlive.mp hmatch), hmem, htr,
            hch, hcheck⟩, (fun h => by cases h)⟩
    · next hspend =>
      refine .pure ⟨(fun h => by cases h), (fun h => by cases h), fun _ => ?_⟩
      rw [Running.Spent, hsteps]
      exact hspent (Bool.eq_false_iff.mpr hspend)

/-- The fuel an attempt needs. -/
def attemptFuel (limit : ℕ) : ℕ := limit + checkInterval + 1

/-- **One start.** An attempt ends; it matches only where some path from its start reaches the
match, fails only where none does, and is exhausted only at a bound. -/
theorem attempt_spec (hM : Sound S M) {limit : ℕ} (start : ℕ) {fuel : ℕ}
    {r : Running} (htrail : r.path.trail = []) (hchoices : r.path.choices = [])
    (hcheck : r.budget.nextCheck ≤ limit + checkInterval) (hfuel : attemptFuel limit ≤ fuel) :
    Run.Returns (S.attempt fuel M limit start r) (Attempted S M r.path.memory limit start) := by
  refine Run.loop_spec (Attempting S M r.path.memory limit start)
    (fun t => limit + checkInterval - t.budget.steps) (fun t ht => attemptTurn_spec hM ht) fuel _
    ⟨⟨?_, ?_⟩, ?_, hcheck⟩ ?_
  · dsimp only
    rw [hchoices]
    trivial
  · dsimp only
    rw [htrail]
    rfl
  · rw [Live]
    dsimp only
    rw [hchoices]
    refine (or_iff_left ?_).symm
    rintro ⟨c, hc, -⟩
    exact hc
  · refine Nat.lt_of_le_of_lt (Nat.sub_le _ _) ?_
    rw [attemptFuel] at hfuel
    omega

/-- The position is a start that no match can begin before. -/
def StartsAt (S : Setting σ) (M : Backtracker σ) : Option ℕ → Prop
  | none => ∀ p, p ≤ S.subject.length → ¬S.MatchesFrom M.program M.slots p
  | some start => start ≤ S.subject.length ∧ ∀ p, p < start → ¬S.MatchesFrom M.program M.slots p

theorem accepts_any (leading : List σ) (p : ℕ) :
    leading.any (fun source => S.accepts source p) =
      (S.subject[p]?).any fun c => leading.any fun source => S.reads source c := by
  simp only [accepts]
  cases S.subject[p]? with
  | none => simp
  | some c => rfl

theorem startsAt_nextLeading (hM : Sound S M) {leading : List σ}
    (hleading : M.leading = some leading) {position : ℕ}
    (hbefore : ∀ p, p < position → ¬S.MatchesFrom M.program M.slots p) :
    StartsAt S M (S.nextLeading leading position) := by
  have hbegins (p : ℕ) (hp : S.MatchesFrom M.program M.slots p) (hle : position ≤ p) :
      ∃ c, (S.subject.drop position)[p - position]? = some c ∧
        (leading.any fun source => S.reads source c) = true := by
    have hany := hM.leading leading hleading p hp
    rw [accepts_any] at hany
    rw [getElem?_drop, Nat.add_sub_cancel' hle]
    cases hc : S.subject[p]? with
    | none =>
      rw [hc] at hany
      cases hany
    | some c =>
      rw [hc] at hany
      exact ⟨c, rfl, hany⟩
  rw [nextLeading]
  cases hfind : (S.subject.drop position).findIdx? fun c =>
      leading.any fun source => S.reads source c with
  | none =>
    intro p _ hp
    by_cases hlt : p < position
    · exact hbefore p hlt hp
    · obtain ⟨c, hc, hreads⟩ := hbegins p hp (not_lt.mp hlt)
      have hnone := findIdx?_eq_none_iff.mp hfind c (mem_of_getElem? hc)
      exact Bool.false_ne_true (hnone.symm.trans hreads)
  | some i =>
    obtain ⟨hi, -, hbelow⟩ := findIdx?_eq_some_iff_getElem.mp hfind
    rw [length_drop] at hi
    refine ⟨by change position + i ≤ _; omega, fun p hlt hp => ?_⟩
    change p < position + i at hlt
    by_cases hlt' : p < position
    · exact hbefore p hlt' hp
    · obtain ⟨c, hc, hreads⟩ := hbegins p hp (not_lt.mp hlt')
      have hnot := hbelow (p - position) (by omega)
      obtain ⟨hbound, hget⟩ := List.getElem?_eq_some_iff.mp hc
      rw [hget] at hnot
      exact hnot hreads

theorem startsAt_firstStart (hM : Sound S M) :
    StartsAt S M (S.firstStart M) := by
  rw [firstStart]
  cases hleading : M.leading with
  | none => exact ⟨Nat.zero_le _, fun p hp => absurd hp (Nat.not_lt_zero p)⟩
  | some leading =>
    exact startsAt_nextLeading hM hleading fun p hp => absurd hp (Nat.not_lt_zero p)

theorem startsAt_nextStart (hM : Sound S M) {start : ℕ}
    (hstart : StartsAt S M (some start)) (hfailed : ¬S.MatchesFrom M.program M.slots start) :
    StartsAt S M (S.nextStart M start) := by
  have hbefore (p : ℕ) (hp : p < start + 1) : ¬S.MatchesFrom M.program M.slots p := by
    rcases Nat.lt_succ_iff_lt_or_eq.mp hp with hlt | rfl
    · exact hstart.2 p hlt
    · exact hfailed
  rw [nextStart]
  by_cases hlast : (M.subjectStart || S.subject[start]?.isNone) = true
  · rw [if_pos hlast]
    intro p hp hmatch
    rcases (Bool.or_eq_true ..).mp hlast with hsubject | hend
    · obtain rfl := hM.subjectStart hsubject p hmatch
      exact hbefore 0 (Nat.succ_pos start) hmatch
    · rw [Option.isNone_iff_eq_none, List.getElem?_eq_none_iff] at hend
      exact hbefore p (Nat.lt_succ_of_le (hp.trans hend)) hmatch
  · rw [if_neg hlast]
    have hinside : start + 1 ≤ S.subject.length := by
      by_contra hout
      refine hlast ((Bool.or_eq_true ..).mpr (.inr ?_))
      rw [Option.isNone_iff_eq_none, List.getElem?_eq_none_iff]
      omega
    cases hleading : M.leading with
    | none => exact ⟨hinside, hbefore⟩
    | some leading => exact startsAt_nextLeading hM hleading hbefore

theorem nextStart_gt {start next : ℕ} (h : S.nextStart M start = some next) :
    start < next := by
  rw [nextStart] at h
  split at h
  · cases h
  cases hleading : M.leading with
  | none =>
    rw [hleading] at h
    cases h
    exact Nat.lt_succ_self start
  | some leading =>
    rw [hleading] at h
    dsimp only at h
    rw [nextLeading, Option.map_eq_some_iff] at h
    obtain ⟨i, -, rfl⟩ := h
    exact Nat.lt_of_lt_of_le (Nat.lt_succ_self start) (Nat.le_add_right _ i)

/-- What a search comes to. -/
structure Searched (S : Setting σ) (M : Backtracker σ) (ended : Verdict × Running) : Prop where
  matched : ended.1 = .matched → S.HasMatch M
  failed : ended.1 = .failed → ∀ p, p ≤ S.subject.length → ¬S.MatchesFrom M.program M.slots p
  exhausted : ended.1 = .exhausted → ended.2.Spent S.limit

/-- Between two starts nothing is recorded, and no start passed can match. -/
structure Searching (S : Setting σ) (M : Backtracker σ) (s : Option ℕ × Running) : Prop where
  starts : StartsAt S M s.1
  memory : s.2.path.memory = replicate M.slots none
  trail : s.2.path.trail = []
  choices : s.2.path.choices = []
  nextCheck : s.2.budget.nextCheck ≤ S.limit + checkInterval

def startsLeft (S : Setting σ) : Option ℕ → ℕ
  | none => 0
  | some start => S.subject.length + 1 - start

theorem searchTurn_spec (hM : Sound S M) {fuel : ℕ}
    (hfuel : attemptFuel S.limit ≤ fuel) {s : Option ℕ × Running} (h : Searching S M s) :
    Run.Returns (S.searchTurn fuel M S.limit s) (Run.Turn.Meets (Searched S M) fun t =>
      Searching S M t ∧ startsLeft S t.1 < startsLeft S s.1) := by
  obtain ⟨from', r⟩ := s
  obtain ⟨hstarts, hmemory, htrail, hchoices, hcheck⟩ := h
  dsimp only at hstarts hmemory htrail hchoices hcheck
  rw [searchTurn]
  cases from' with
  | none => exact .pure ⟨nofun, fun _ => hstarts, nofun⟩
  | some start =>
    have hattempt := attempt_spec hM start htrail hchoices hcheck hfuel
    refine hattempt.bind fun ended hended => ?_
    rw [hmemory] at hended
    by_cases hfailed : ended.1 = .failed
    · rw [if_pos hfailed]
      obtain ⟨hnot, hmem, htr, hch, hnext⟩ := hended.failed hfailed
      refine .pure ⟨⟨startsAt_nextStart hM hstarts hnot, hmem, htr, hch, hnext⟩, ?_⟩
      have hinside := hstarts.1
      dsimp only
      cases hstep : S.nextStart M start with
      | none =>
        rw [startsLeft, startsLeft]
        omega
      | some next =>
        have hgt := nextStart_gt hstep
        rw [startsLeft, startsLeft]
        omega
    · rw [if_neg hfailed]
      exact .pure ⟨fun hmatched => ⟨start, hstarts.1, hended.matched hmatched⟩,
        fun hfalse => absurd hfalse hfailed, hended.exhausted⟩

/-- The fuel a search needs. -/
def searchFuel (S : Setting σ) : ℕ := attemptFuel S.limit + S.subject.length + 2

/-- **Every start.** A search ends; it matches only where some path reaches the match, fails
only where none does, and is exhausted only at a bound. -/
theorem search_spec (hM : Sound S M) {fuel : ℕ}
    (hfuel : searchFuel S ≤ fuel) : Run.Returns (S.search fuel M) (Searched S M) := by
  rw [searchFuel] at hfuel
  refine Run.loop_spec (Searching S M) (fun s => startsLeft S s.1)
    (fun s hs => searchTurn_spec hM (by omega) hs) fuel _
    ⟨startsAt_firstStart hM, rfl, rfl, rfl, Nat.le_add_left _ _⟩ ?_
  have hleft : startsLeft S (S.firstStart M) ≤ S.subject.length + 1 := by
    cases S.firstStart M with
    | none => exact Nat.zero_le _
    | some start => exact Nat.sub_le _ _
  dsimp only
  omega

/-! ### More fuel -/

end Setting

end Tsgit.Regex
