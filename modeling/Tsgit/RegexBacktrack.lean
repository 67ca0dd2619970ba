import Tsgit.RegexPaths
import Tsgit.Utf16

/-!
# The Backtracking Matcher

The matcher of `src/domain/regex/extended-regex.ts` runs one path at a time, mutates its
captures and registers in place and undoes the writes of a path that fails. What is left to
try is the configurations its ways back lead to (`Pending`), each with the memory the trail
gives back there.
-/

open List

namespace Tsgit.Regex

variable {σ : Type}

/-! ### The matcher -/

/-- A way back: the other target of a fork, or a span that can give back characters. -/
inductive Choice
  | fork (pc position length : ℕ)
  | span (start pc position length : ℕ) (h : start < position)

/-- The trail's length where the way back was left. -/
def Choice.length : Choice → ℕ
  | .fork _ _ length => length
  | .span _ _ _ length _ => length

/-- The numbers a way back takes. -/
def Choice.entries : Choice → ℕ
  | .fork .. => 3
  | .span .. => 4

/-- One backtracking path and the ways back from it, the latest first. `trail` holds a slot
and its earlier value per write. -/
structure Path where
  pc : ℕ
  position : ℕ
  memory : List (Option ℕ)
  trail : List (ℕ × Option ℕ)
  choices : List Choice

/-- The numbers on both stacks. -/
def Path.entries (path : Path) : ℕ :=
  path.trail.length * 2 + (path.choices.map Choice.entries).sum

def Path.spot (path : Path) : Spot := ⟨path.position, path.memory⟩

def Path.config (path : Path) : Config := ⟨path.pc, path.spot⟩

/-- The work one subject has taken, and when the check next runs. -/
structure Budget where
  steps : ℕ
  nextCheck : ℕ

def checkInterval : ℕ := 2 ^ 16

def maxBacktrackSteps : ℕ := 2 ^ 22

def stepsPerCodeUnit : ℕ := 2 ^ 6

def maxPathEntries : ℕ := 2 ^ 22

/-- Takes a step; `false` once steps or records are past their bounds, looked at every interval. -/
def spend (limit : ℕ) (budget : Budget) (path : Path) : Bool × Budget :=
  if budget.steps + 1 < budget.nextCheck then (true, ⟨budget.steps + 1, budget.nextCheck⟩)
  else
    (decide (budget.steps + 1 < limit) && decide (path.entries < maxPathEntries),
      ⟨budget.steps + 1, budget.nextCheck + checkInterval⟩)

/-- Undoes the writes since the trail had the length. -/
def unwind (length : ℕ) :
    List (ℕ × Option ℕ) → List (Option ℕ) → List (ℕ × Option ℕ) × List (Option ℕ)
  | [], memory => ([], memory)
  | entry :: trail, memory =>
    if length < trail.length + 1 then unwind length trail (memory.set entry.1 entry.2)
    else (entry :: trail, memory)

/-- Returns to the last way back, undoing the writes since; `false` where none is left. A span gives
back its last character, and keeps its way back while it holds more than it started with. -/
def backUp (path : Path) : Bool × Path :=
  match path.choices with
  | [] =>
    (false, ⟨path.pc, path.position, (unwind 0 path.trail path.memory).2,
      (unwind 0 path.trail path.memory).1, []⟩)
  | .fork pc position length :: rest =>
    (true, ⟨pc, position, (unwind length path.trail path.memory).2,
      (unwind length path.trail path.memory).1, rest⟩)
  | .span start pc position length _ :: rest =>
    (true, ⟨pc, position - 1, (unwind length path.trail path.memory).2,
      (unwind length path.trail path.memory).1,
      if h : start < position - 1 then .span start pc (position - 1) length h :: rest else rest⟩)

def write (path : Path) (slot value : ℕ) : Path :=
  { path with
    memory := path.memory.set slot (some value)
    trail := (slot, path.memory.getD slot none) :: path.trail }

/-- Whether the path goes on, where it then stands and the steps beyond the one spent. -/
structure Executed where
  going : Bool
  path : Path
  steps : ℕ

/-- How many leading units agree. -/
def repeated : List ℕ → List ℕ → ℕ
  | unit :: units, unit' :: units' => if unit = unit' then repeated units units' + 1 else 0
  | _, _ => 0

namespace Setting

variable (S : Setting σ)

def readCharacter (source : σ) (path : Path) : Executed :=
  if S.accepts source path.position then
    ⟨true, { path with position := path.position + 1, pc := path.pc + 1 }, 0⟩
  else ⟨false, path, 0⟩

/-- The subject as a program sees it that asserts nothing of words. -/
def withoutWords : Setting σ := { S with isWord := fun _ => false }

def assertContext (words : Bool) (mask : ℕ) (path : Path) : Executed :=
  ⟨holdsIn mask ((if words then S else S.withoutWords).contextAt path.position),
    { path with pc := path.pc + 1 }, 0⟩

/-- A fork to one target is a jump; any other leaves its second target to back up to. -/
def branch (first second : ℕ) (path : Path) : Executed :=
  ⟨true, { path with
      pc := first
      choices := if first ≠ second then
          .fork second path.position path.trail.length :: path.choices
        else path.choices }, 0⟩

def run (source : σ) (position : ℕ) : List Char :=
  (S.subject.drop position).takeWhile (S.reads source)

/-- Each code unit read is a step. -/
def span (source : σ) (path : Path) : Executed :=
  ⟨true, { path with
      pc := path.pc + 1
      position := path.position + (S.run source path.position).length
      choices := if h : path.position < path.position + (S.run source path.position).length then
          .span path.position (path.pc + 1) (path.position + (S.run source path.position).length)
            path.trail.length h :: path.choices
        else path.choices },
    (codeUnits (S.run source path.position)).length⟩

def save (slot : ℕ) (path : Path) : Executed :=
  ⟨true, { write path slot path.position with pc := path.pc + 1 }, 0⟩

/-- A group no copy has captured reads nothing; each code unit compared is a step. -/
def reread (group : ℕ) (path : Path) : Executed :=
  match path.memory.getD (group * 2) none, path.memory.getD (group * 2 + 1) none with
  | some start, some stop =>
    let agreeing := repeated (codeUnits (S.text start stop))
      (codeUnits (S.subject.drop path.position))
    if start ≤ stop ∧ agreeing = (codeUnits (S.text start stop)).length then
      ⟨true, { path with position := path.position + (stop - start), pc := path.pc + 1 }, agreeing⟩
    else ⟨false, path, agreeing⟩
  | _, _ => ⟨false, path, 0⟩

/-- A copy that read nothing takes the skip it holds: past the jump back, or none, a failure. -/
def progress (register skip : ℕ) (path : Path) : Executed :=
  let taken := if path.memory.getD register none = some path.position then skip else 1
  ⟨taken != fails, { path with pc := path.pc + taken }, 0⟩

def execute (words : Bool) (path : Path) : Op σ → Executed
  | .char source => S.readCharacter source path
  | .fork first second => branch first second path
  | .assert mask => S.assertContext words mask path
  | .save slot => save slot path
  | .backref group => S.reread group path
  | .span source => S.span source path
  | .progress register skip => progress register skip path

end Setting

/-! ### What is left to try -/

/-- The configurations the ways back lead to. -/
def Pending : List Choice → List (ℕ × Option ℕ) → List (Option ℕ) → Config → Prop
  | [], _, _, _ => False
  | .fork pc position length :: rest, trail, memory, c =>
    c = ⟨pc, position, (unwind length trail memory).2⟩ ∨
      Pending rest (unwind length trail memory).1 (unwind length trail memory).2 c
  | .span start pc position length _ :: rest, trail, memory, c =>
    (∃ k, start ≤ k ∧ k < position ∧ c = ⟨pc, k, (unwind length trail memory).2⟩) ∨
      Pending rest (unwind length trail memory).1 (unwind length trail memory).2 c

/-- Each way back was left when the trail was no longer than at the next one. -/
def Nested : ℕ → List Choice → Prop
  | _, [] => True
  | n, choice :: rest => choice.length ≤ n ∧ Nested choice.length rest

theorem Nested.mono {n n' : ℕ} {choices : List Choice} (h : Nested n choices) (hle : n ≤ n') :
    Nested n' choices := by
  cases choices with
  | nil => trivial
  | cons choice rest => exact ⟨h.1.trans hle, h.2⟩

theorem set_getD (memory : List (Option ℕ)) (slot : ℕ) (value : Option ℕ) :
    (memory.set slot value).set slot (memory.getD slot none) = memory := by
  rw [set_set]
  by_cases h : slot < memory.length
  · rw [getD_eq_getElem _ _ h, set_getElem_self]
  · exact set_eq_of_length_le (not_lt.mp h)

theorem unwind_write (path : Path) (slot value length : ℕ) (h : length ≤ path.trail.length) :
    unwind length (write path slot value).trail (write path slot value).memory =
      unwind length path.trail path.memory := by
  rw [write, unwind, if_pos (Nat.lt_succ_of_le h), set_getD]

theorem unwind_of_le {length : ℕ} {trail : List (ℕ × Option ℕ)} (memory : List (Option ℕ))
    (h : trail.length ≤ length) : unwind length trail memory = (trail, memory) := by
  cases trail with
  | nil => rfl
  | cons entry trail =>
    rw [unwind, if_neg]
    exact not_lt.mpr h

theorem length_unwind {length : ℕ} {trail : List (ℕ × Option ℕ)} (memory : List (Option ℕ))
    (h : length ≤ trail.length) : (unwind length trail memory).1.length = length := by
  induction trail generalizing memory with
  | nil =>
    rw [unwind]
    exact (Nat.le_zero.mp h).symm
  | cons entry trail ih =>
    rw [unwind]
    split
    · next hlt => exact ih _ (Nat.le_of_lt_succ hlt)
    · next hge => exact le_antisymm (not_lt.mp hge) h

theorem unwind_unwind {length length' : ℕ} (hle : length' ≤ length)
    (trail : List (ℕ × Option ℕ)) (memory : List (Option ℕ)) :
    unwind length' (unwind length trail memory).1 (unwind length trail memory).2 =
      unwind length' trail memory := by
  induction trail generalizing memory with
  | nil => rfl
  | cons entry trail ih =>
    rw [unwind]
    split
    · next hlt => rw [ih, unwind, if_pos (hle.trans_lt hlt)]
    · rfl

namespace Setting

variable (S : Setting σ)

/-- Some path matches from where the matcher stands, or from a way back. -/
def Live (program : List (Op σ)) (path : Path) : Prop :=
  S.CanMatch program path.config ∨
    ∃ c, Pending path.choices path.trail path.memory c ∧ S.CanMatch program c

/-- The ways back are nested, and undoing every write gives the memory of the start. -/
structure Kept (memory : List (Option ℕ)) (path : Path) : Prop where
  nested : Nested path.trail.length path.choices
  unwound : unwind 0 path.trail path.memory = ([], memory)

variable {S} {program : List (Op σ)} {memory : List (Option ℕ)} {path : Path}

theorem canMatch_iff {c : Config} {op : Op σ} (hop : program[c.pc]? = some op) :
    S.CanMatch program c ↔ ∃ d, S.Step program c d ∧ S.CanMatch program d := by
  constructor
  · rintro ⟨n, e, hpath, hend⟩
    cases hpath with
    | refl =>
      rw [hop] at hend
      cases hend
    | step hstep hrest => exact ⟨_, hstep, _, e, hrest, hend⟩
  · rintro ⟨d, hstep, n, e, hrest, hend⟩
    exact ⟨n + 1, e, .step hstep hrest, hend⟩

/-- Backing up goes to what is left to try. -/
theorem backUp_spec (program : List (Op σ)) (h : Kept memory path) :
    ((backUp path).1 = true → Kept memory (backUp path).2 ∧
      ((∃ c, Pending path.choices path.trail path.memory c ∧ S.CanMatch program c) ↔
        S.Live program (backUp path).2)) ∧
    ((backUp path).1 = false →
      (¬∃ c, Pending path.choices path.trail path.memory c ∧ S.CanMatch program c) ∧
        (backUp path).2.memory = memory ∧ (backUp path).2.trail = [] ∧
          (backUp path).2.choices = []) := by
  obtain ⟨hnested, hunwound⟩ := h
  obtain ⟨pc, position, mem, trail, choices⟩ := path
  dsimp only at hnested hunwound
  cases choices with
  | nil =>
    refine ⟨nofun, fun _ => ⟨?_, ?_, ?_, rfl⟩⟩
    · rintro ⟨c, hc, -⟩
      exact hc
    · rw [backUp]
      dsimp only
      rw [hunwound]
    · rw [backUp]
      dsimp only
      rw [hunwound]
  | cons choice rest =>
    cases choice with
    | fork pc' position' length =>
      have hlength : (unwind length trail mem).1.length = length :=
        length_unwind mem hnested.1
      refine ⟨fun _ => ⟨⟨?_, ?_⟩, ?_⟩, nofun⟩
      · change Nested (unwind length trail mem).1.length rest
        rw [hlength]
        exact hnested.2
      · exact (unwind_unwind (Nat.zero_le _) trail mem).trans hunwound
      constructor
      · rintro ⟨c, rfl | hc, hmatch⟩
        · exact .inl hmatch
        · exact .inr ⟨c, hc, hmatch⟩
      · rintro (hmatch | ⟨c, hc, hmatch⟩)
        · exact ⟨_, .inl rfl, hmatch⟩
        · exact ⟨c, .inr hc, hmatch⟩
    | span start pc' position' length hlt =>
      have hlength : (unwind length trail mem).1.length = length :=
        length_unwind mem hnested.1
      have hagain : unwind length (unwind length trail mem).1 (unwind length trail mem).2 =
          ((unwind length trail mem).1, (unwind length trail mem).2) :=
        unwind_of_le _ hlength.le
      have hunwound' : unwind 0 (unwind length trail mem).1 (unwind length trail mem).2 =
          ([], memory) := (unwind_unwind (Nat.zero_le _) trail mem).trans hunwound
      have hrest : Nested (unwind length trail mem).1.length rest := by
        rw [hlength]
        exact hnested.2
      refine ⟨fun _ => ?_, nofun⟩
      rw [backUp]
      dsimp only
      by_cases hback : start < position' - 1
      · rw [dif_pos hback]
        refine ⟨⟨⟨hlength.ge, hnested.2⟩, hunwound'⟩, ?_⟩
        constructor
        · rintro ⟨c, ⟨k, hk, hk', rfl⟩ | hc, hmatch⟩
          · by_cases hlast : k = position' - 1
            · subst hlast
              exact .inl hmatch
            · refine .inr ⟨_, .inl ⟨k, hk, by omega, ?_⟩, hmatch⟩
              rw [hagain]
          · refine .inr ⟨c, .inr ?_, hmatch⟩
            dsimp only
            rw [hagain]
            exact hc
        · rintro (hmatch | ⟨c, ⟨k, hk, hk', rfl⟩ | hc, hmatch⟩)
          · exact ⟨_, .inl ⟨position' - 1, hback.le, by omega, rfl⟩, hmatch⟩
          · refine ⟨_, .inl ⟨k, hk, by omega, rfl⟩, ?_⟩
            dsimp only at hmatch
            rwa [hagain] at hmatch
          · refine ⟨c, .inr ?_, hmatch⟩
            dsimp only at hc
            rwa [hagain] at hc
      · rw [dif_neg hback]
        refine ⟨⟨hrest, hunwound'⟩, ?_⟩
        constructor
        · rintro ⟨c, ⟨k, hk, hk', rfl⟩ | hc, hmatch⟩
          · obtain rfl : k = position' - 1 := by omega
            exact .inl hmatch
          · exact .inr ⟨c, hc, hmatch⟩
        · rintro (hmatch | ⟨c, hc, hmatch⟩)
          · exact ⟨_, .inl ⟨position' - 1, by omega, by omega, rfl⟩, hmatch⟩
          · exact ⟨c, .inr hc, hmatch⟩

end Setting

/-! ### Captures read again -/

theorem repeated_eq_iff (units units' : List ℕ) :
    repeated units units' = units.length ↔ units <+: units' := by
  induction units generalizing units' with
  | nil => cases units' <;> simp [repeated]
  | cons unit units ih =>
    cases units' with
    | nil => simp [repeated]
    | cons unit' units' =>
      rw [repeated, cons_prefix_cons]
      split
      · next heq => rw [length_cons, Nat.add_right_cancel_iff, ih, and_iff_right heq]
      · next hne => simp [hne]

theorem toNat_bounds (c : Char) :
    c.toNat < 0xd800 ∨ 0xdfff < c.toNat ∧ c.toNat < 0x110000 := c.valid

/-- No character's units begin another's. -/
theorem utf16Units_append_inj {c d : Char} {units units' : List ℕ}
    (h : utf16Units c ++ units = utf16Units d ++ units') : c = d := by
  have hc := toNat_bounds c
  have hd := toNat_bounds d
  refine Char.ext (UInt32.toNat_inj.mp ?_)
  change c.toNat = d.toNat
  rw [utf16Units, utf16Units] at h
  split at h <;> split at h <;>
    simp only [cons_append, nil_append, List.cons.injEq] at h <;> omega

theorem utf16Units_ne_nil (c : Char) : utf16Units c ≠ [] := by
  rw [utf16Units]
  split <;> simp

theorem codeUnits_prefix_iff (text text' : List Char) :
    codeUnits text <+: codeUnits text' ↔ text <+: text' := by
  induction text generalizing text' with
  | nil => simp [codeUnits]
  | cons c text ih =>
    cases text' with
    | nil =>
      refine iff_of_false (fun h => ?_) (by simp)
      have hnil := prefix_nil.mp h
      rw [codeUnits, flatMap_cons] at hnil
      exact utf16Units_ne_nil c (append_eq_nil_iff.mp hnil).1
    | cons d text' =>
      rw [cons_prefix_cons, ← ih]
      constructor
      · rintro ⟨rest, hrest⟩
        rw [codeUnits, codeUnits, flatMap_cons, flatMap_cons, append_assoc] at hrest
        obtain rfl := utf16Units_append_inj hrest
        exact ⟨rfl, rest, append_cancel_left hrest⟩
      · rintro ⟨rfl, rest, hrest⟩
        refine ⟨rest, ?_⟩
        rw [codeUnits, codeUnits, flatMap_cons, flatMap_cons, append_assoc]
        exact congrArg (utf16Units c ++ ·) hrest

/-! ### One instruction -/

theorem contextBits_masked (atStart atEnd before after : Bool) :
    contextBits atStart atEnd before after &&& 3 = contextBits atStart atEnd false false ∧
      contextBits atStart atEnd before after ∈ List.range 16 := by
  cases atStart <;> cases atEnd <;> cases before <;> cases after <;> decide

theorem holdsIn_of_not_dependsOnWords {mask : ℕ} (h : dependsOnWords mask = false)
    (atStart atEnd before after : Bool) :
    holdsIn mask (contextBits atStart atEnd before after) =
      holdsIn mask (contextBits atStart atEnd false false) := by
  obtain ⟨hmasked, hmem⟩ := contextBits_masked atStart atEnd before after
  have hsame := any_eq_false.mp h _ hmem
  rw [hmasked] at hsame
  simpa using hsame

namespace Setting

variable {S : Setting σ} {program : List (Op σ)} {memory : List (Option ℕ)} {path : Path}

theorem contextAt_withoutWords {mask : ℕ} (h : dependsOnWords mask = false) (position : ℕ) :
    holdsIn mask (S.withoutWords.contextAt position) = holdsIn mask (S.contextAt position) := by
  have hword (p : ℕ) : S.withoutWords.wordAt p = false := by
    rw [wordAt, withoutWords]
    cases S.subject[p]? <;> rfl
  rw [contextAt, contextAt, hword, hword, Bool.and_false]
  exact (holdsIn_of_not_dependsOnWords h ..).symm

/-- An instruction that goes on to the next one, or nowhere. -/
theorem canMatch_next {op : Op σ} {pc : ℕ} {s : Spot} (hop : program[pc]? = some op)
    (hfork : ∀ first second, op ≠ .fork first second)
    (hleave : ∀ register skip, op = .progress register skip →
      s.memory.getD register none = some s.position → skip = fails) :
    S.CanMatch program ⟨pc, s⟩ ↔ ∃ t, S.Acts op s t ∧ S.CanMatch program ⟨pc + 1, t⟩ := by
  rw [canMatch_iff hop]
  constructor
  · rintro ⟨d, hstep, hmatch⟩
    cases hstep with
    | next hop' h =>
      obtain rfl := Option.some.inj (hop.symm.trans hop')
      exact ⟨_, h, hmatch⟩
    | first hop' => exact absurd (Option.some.inj (hop.symm.trans hop')) (hfork _ _)
    | second hop' => exact absurd (Option.some.inj (hop.symm.trans hop')) (hfork _ _)
    | leave hop' h hskip =>
      exact absurd (hleave _ _ (Option.some.inj (hop.symm.trans hop')) h) hskip
  · rintro ⟨t, h, hmatch⟩
    exact ⟨_, .next hop h, hmatch⟩

/-- What running an instruction comes to. -/
structure Runs (S : Setting σ) (program : List (Op σ)) (memory : List (Option ℕ)) (path : Path)
    (x : Executed) : Prop where
  going : x.going = true → Kept memory x.path ∧ (S.Live program path ↔ S.Live program x.path)
  failed : x.going = false → (¬S.CanMatch program path.config) ∧ x.path.memory = path.memory ∧
    x.path.trail = path.trail ∧ x.path.choices = path.choices

theorem Runs.of_next {op : Op σ} {x : Executed} (hop : program[path.pc]? = some op)
    (h : Kept memory path) (hfork : ∀ first second, op ≠ .fork first second)
    (hleave : ∀ register skip, op = .progress register skip →
      path.memory.getD register none = some path.position → skip = fails)
    (htrail : x.path.trail = path.trail) (hchoices : x.path.choices = path.choices)
    (hmemory : x.path.memory = path.memory)
    (hgoing : x.going = true → x.path.pc = path.pc + 1 ∧
      ∀ t, S.Acts op path.spot t ↔ t = x.path.spot)
    (hfailed : x.going = false → ∀ t, ¬S.Acts op path.spot t) : Runs S program memory path x := by
  have hnext := canMatch_next (S := S) (s := path.spot) hop hfork hleave
  refine ⟨fun hx => ?_, fun hx => ⟨?_, hmemory, htrail, hchoices⟩⟩
  · obtain ⟨hpc, hacts⟩ := hgoing hx
    refine ⟨⟨?_, ?_⟩, ?_⟩
    · rw [htrail, hchoices]
      exact h.nested
    · rw [htrail, hmemory]
      exact h.unwound
    rw [Live, Live, htrail, hchoices, hmemory]
    refine or_congr_left' fun _ => ?_
    rw [Path.config, hnext, Path.config, hpc]
    constructor
    · rintro ⟨t, ht, hmatch⟩
      rwa [(hacts t).mp ht] at hmatch
    · exact fun hmatch => ⟨_, (hacts _).mpr rfl, hmatch⟩
  · rw [Path.config, hnext]
    rintro ⟨t, ht, -⟩
    exact hfailed hx t ht

theorem readCharacter_runs {source : σ} (hop : program[path.pc]? = some (.char source))
    (h : Kept memory path) : Runs S program memory path (S.readCharacter source path) := by
  rw [readCharacter]
  split
  · next haccepts =>
    refine .of_next hop h (fun _ _ heq => by cases heq) (fun _ _ heq => by cases heq) rfl rfl rfl
      (fun _ => ⟨rfl, fun t => ⟨fun ht => ?_, ?_⟩⟩) (fun h => by cases h)
    · cases ht
      rfl
    · rintro rfl
      exact .char haccepts
  · next hnot =>
    refine .of_next hop h (fun _ _ heq => by cases heq) (fun _ _ heq => by cases heq)
      rfl rfl rfl (fun h => by cases h) fun _ t ht => ?_
    cases ht with
    | char haccepts => exact hnot haccepts

theorem assertContext_runs {words : Bool} {mask : ℕ} (hop : program[path.pc]? = some (.assert mask))
    (hwords : words = false → dependsOnWords mask = false) (h : Kept memory path) :
    Runs S program memory path (S.assertContext words mask path) := by
  have hcontext : holdsIn mask ((if words then S else S.withoutWords).contextAt path.position) =
      holdsIn mask (S.contextAt path.position) := by
    cases words with
    | true => rfl
    | false => exact contextAt_withoutWords (hwords rfl) _
  refine .of_next hop h nofun nofun rfl rfl rfl (fun hgoing => ⟨rfl, fun t => ⟨fun ht => ?_, ?_⟩⟩)
    fun hfailed t ht => ?_
  · cases ht
    rfl
  · rintro rfl
    exact .assert (hcontext.symm.trans hgoing)
  · cases ht with
    | assert hholds => exact Bool.false_ne_true (hfailed.symm.trans (hcontext.trans hholds))

theorem branch_runs {first second : ℕ} (hop : program[path.pc]? = some (.fork first second))
    (h : Kept memory path) : Runs S program memory path (branch first second path) := by
  have hiff : S.CanMatch program path.config ↔
      S.CanMatch program ⟨first, path.spot⟩ ∨ S.CanMatch program ⟨second, path.spot⟩ := by
    rw [canMatch_iff (c := path.config) hop]
    constructor
    · rintro ⟨d, hstep, hmatch⟩
      rcases hstep.of_fork hop with rfl | rfl
      · exact .inl hmatch
      · exact .inr hmatch
    · rintro (hmatch | hmatch)
      · exact ⟨_, .first hop, hmatch⟩
      · exact ⟨_, .second hop, hmatch⟩
  have hself : unwind path.trail.length path.trail path.memory = (path.trail, path.memory) :=
    unwind_of_le _ le_rfl
  refine ⟨fun _ => ?_, nofun⟩
  by_cases heq : first = second
  · rw [branch, if_neg (not_not.mpr heq)]
    subst heq
    refine ⟨⟨h.nested, h.unwound⟩, ?_⟩
    rw [Live, hiff, or_self]
    rfl
  rw [branch, if_pos heq]
  refine ⟨⟨⟨le_rfl, h.nested⟩, h.unwound⟩, ?_⟩
  rw [Live, hiff, Live]
  constructor
  · rintro ((hmatch | hmatch) | ⟨c, hc, hmatch⟩)
    · exact .inl hmatch
    · refine .inr ⟨_, .inl rfl, ?_⟩
      rw [hself]
      exact hmatch
    · refine .inr ⟨c, .inr ?_, hmatch⟩
      dsimp only
      rw [hself]
      exact hc
  · rintro (hmatch | ⟨c, rfl | hc, hmatch⟩)
    · exact .inl (.inl hmatch)
    · dsimp only at hmatch
      rw [hself] at hmatch
      exact .inl (.inr hmatch)
    · dsimp only at hc
      rw [hself] at hc
      exact .inr ⟨c, hc, hmatch⟩

/-- How far a class reads. -/
theorem accepts_run_iff (source : σ) (position n : ℕ) :
    (∀ i, i < n → S.accepts source (position + i) = true) ↔
      n ≤ (S.run source position).length := by
  have hget (i : ℕ) : S.subject[position + i]? = (S.subject.drop position)[i]? := by
    rw [getElem?_drop]
  simp only [accepts, hget, run]
  generalize S.subject.drop position = rest
  induction rest generalizing n with
  | nil =>
    rw [takeWhile_nil, length_nil, Nat.le_zero]
    refine ⟨fun h => ?_, fun h i hi => absurd (h ▸ hi) (Nat.not_lt_zero i)⟩
    by_contra hne
    have := h 0 (Nat.pos_of_ne_zero hne)
    simp at this
  | cons c rest ih =>
    cases n with
    | zero => exact iff_of_true (fun i hi => absurd hi (Nat.not_lt_zero i)) (Nat.zero_le _)
    | succ n =>
      have hsplit : (∀ i, i < n + 1 → ((c :: rest)[i]?).any (S.reads source) = true) ↔
          S.reads source c = true ∧ ∀ i, i < n → (rest[i]?).any (S.reads source) = true := by
        constructor
        · intro h
          refine ⟨by simpa using h 0 (Nat.succ_pos n), fun i hi => ?_⟩
          simpa using h (i + 1) (Nat.succ_lt_succ hi)
        · rintro ⟨hhead, htail⟩ i hi
          cases i with
          | zero => simpa using hhead
          | succ i => simpa using htail i (Nat.lt_of_succ_lt_succ hi)
      rw [hsplit, takeWhile_cons]
      split
      · next hc =>
        rw [length_cons, Nat.succ_le_succ_iff, and_iff_right hc]
        exact ih n
      · next hc => simp [hc]

theorem span_runs {source : σ} (hop : program[path.pc]? = some (.span source))
    (h : Kept memory path) : Runs S program memory path (S.span source path) := by
  have hiff : S.CanMatch program path.config ↔ ∃ n, n ≤ (S.run source path.position).length ∧
        S.CanMatch program ⟨path.pc + 1, path.position + n, path.memory⟩ := by
    rw [Path.config, canMatch_next (s := path.spot) hop nofun nofun]
    constructor
    · rintro ⟨t, ht, hmatch⟩
      cases ht with
      | span n hrun => exact ⟨n, (accepts_run_iff ..).mp hrun, hmatch⟩
    · rintro ⟨n, hn, hmatch⟩
      exact ⟨_, .span n ((accepts_run_iff ..).mpr hn), hmatch⟩
  have hself : unwind path.trail.length path.trail path.memory = (path.trail, path.memory) :=
    unwind_of_le _ le_rfl
  refine ⟨fun _ => ?_, nofun⟩
  rw [span]
  generalize (S.run source path.position).length = n at hiff
  by_cases hpos : path.position < path.position + n
  · rw [dif_pos hpos]
    refine ⟨⟨⟨le_rfl, h.nested⟩, h.unwound⟩, ?_⟩
    rw [Live, hiff, Live]
    constructor
    · rintro (⟨k, hk, hmatch⟩ | ⟨c, hc, hmatch⟩)
      · by_cases hlast : k = n
        · subst hlast
          exact .inl hmatch
        · refine .inr ⟨_, .inl ⟨path.position + k, Nat.le_add_right _ _, by omega, rfl⟩, ?_⟩
          dsimp only
          rwa [hself]
      · refine .inr ⟨c, .inr ?_, hmatch⟩
        dsimp only
        rw [hself]
        exact hc
    · rintro (hmatch | ⟨c, ⟨k, hk, hk', rfl⟩ | hc, hmatch⟩)
      · exact .inl ⟨n, le_rfl, hmatch⟩
      · dsimp only at hmatch
        rw [hself] at hmatch
        refine .inl ⟨k - path.position, by omega, ?_⟩
        rwa [Nat.add_sub_cancel' hk]
      · dsimp only at hc
        rw [hself] at hc
        exact .inr ⟨c, hc, hmatch⟩
  · rw [dif_neg hpos]
    refine ⟨⟨h.nested, h.unwound⟩, ?_⟩
    rw [Live, hiff, Live]
    refine or_congr_left' fun _ => ⟨?_, fun hmatch => ⟨n, le_rfl, hmatch⟩⟩
    rintro ⟨k, hk, hmatch⟩
    obtain rfl : k = n := by omega
    exact hmatch

theorem pending_write (path : Path) (slot value : ℕ)
    (hnested : Nested path.trail.length path.choices) (c : Config) :
    Pending path.choices (write path slot value).trail (write path slot value).memory c ↔
      Pending path.choices path.trail path.memory c := by
  cases hchoices : path.choices with
  | nil => exact .rfl
  | cons choice rest =>
    rw [hchoices] at hnested
    cases choice with
    | fork pc position length =>
      rw [Pending, Pending, unwind_write path slot value length hnested.1]
    | span start pc position length hlt =>
      rw [Pending, Pending, unwind_write path slot value length hnested.1]

theorem save_runs {slot : ℕ} (hop : program[path.pc]? = some (.save slot))
    (h : Kept memory path) : Runs S program memory path (save slot path) := by
  have hiff : S.CanMatch program path.config ↔ S.CanMatch program (save slot path).path.config := by
    rw [Path.config, canMatch_next (s := path.spot) hop nofun nofun]
    constructor
    · rintro ⟨t, ht, hmatch⟩
      cases ht
      exact hmatch
    · exact fun hmatch => ⟨_, .save, hmatch⟩
  refine ⟨fun _ => ⟨⟨?_, ?_⟩, ?_⟩, nofun⟩
  · exact h.nested.mono (Nat.le_succ _)
  · exact (unwind_write path slot path.position 0 (Nat.zero_le _)).trans h.unwound
  · rw [Live, hiff, Live]
    refine or_congr_right' fun _ => exists_congr fun c => and_congr_left fun _ => ?_
    exact (pending_write path slot path.position h.nested c).symm

theorem reread_runs {group : ℕ} (hop : program[path.pc]? = some (.backref group))
    (h : Kept memory path) : Runs S program memory path (S.reread group path) := by
  have hagree (start stop : ℕ) :
      repeated (codeUnits (S.text start stop)) (codeUnits (S.subject.drop path.position)) =
        (codeUnits (S.text start stop)).length ↔
      S.text start stop <+: S.subject.drop path.position := by
    rw [repeated_eq_iff, codeUnits_prefix_iff]
  rw [reread]
  cases hstart : path.memory.getD (group * 2) none with
  | none =>
    refine .of_next hop h (fun _ _ heq => by cases heq) (fun _ _ heq => by cases heq)
      rfl rfl rfl (fun h => by cases h) fun _ t ht => ?_
    cases ht with
    | backref hstart' => cases hstart.symm.trans hstart'
  | some start =>
    cases hstop : path.memory.getD (group * 2 + 1) none with
    | none =>
      refine .of_next hop h (fun _ _ heq => by cases heq) (fun _ _ heq => by cases heq)
        rfl rfl rfl (fun h => by cases h) fun _ t ht => ?_
      cases ht with
      | backref _ hstop' => cases hstop.symm.trans hstop'
    | some stop =>
      dsimp only
      split
      · next hreads =>
        refine .of_next hop h (fun _ _ heq => by cases heq) (fun _ _ heq => by cases heq)
          rfl rfl rfl
          (fun _ => ⟨rfl, fun t => ⟨fun ht => ?_, ?_⟩⟩) (fun h => by cases h)
        · cases ht with
          | backref hstart' hstop' =>
            obtain rfl := Option.some.inj (hstart.symm.trans hstart')
            obtain rfl := Option.some.inj (hstop.symm.trans hstop')
            rfl
        · rintro rfl
          exact .backref hstart hstop hreads.1 ((hagree start stop).mp hreads.2)
      · next hnot =>
        refine .of_next hop h (fun _ _ heq => by cases heq) (fun _ _ heq => by cases heq)
          rfl rfl rfl (fun h => by cases h) fun _ t ht => ?_
        cases ht with
        | backref hstart' hstop' hle hprefix =>
          obtain rfl := Option.some.inj (hstart.symm.trans hstart')
          obtain rfl := Option.some.inj (hstop.symm.trans hstop')
          exact hnot ⟨hle, (hagree _ _).mpr hprefix⟩

theorem progress_runs {register skip : ℕ}
    (hop : program[path.pc]? = some (.progress register skip)) (h : Kept memory path) :
    Runs S program memory path (progress register skip path) := by
  rw [progress]
  by_cases hempty : path.memory.getD register none = some path.position
  · rw [if_pos hempty]
    have hiff : S.CanMatch program path.config ↔
        skip ≠ fails ∧ S.CanMatch program ⟨path.pc + skip, path.spot⟩ := by
      rw [canMatch_iff (c := path.config) hop]
      constructor
      · rintro ⟨d, hstep, hmatch⟩
        cases hstep with
        | next hop' hacts =>
          obtain rfl := Option.some.inj (hop.symm.trans hop')
          cases hacts with
          | progress hread => exact absurd hempty hread
        | first hop' => cases hop.symm.trans hop'
        | second hop' => cases hop.symm.trans hop'
        | leave hop' _ hskip =>
          cases hop.symm.trans hop'
          exact ⟨hskip, hmatch⟩
      · rintro ⟨hskip, hmatch⟩
        exact ⟨_, .leave hop hempty hskip, hmatch⟩
    refine ⟨fun hgoing => ?_, fun hfailed => ⟨fun hmatch => ?_, rfl, rfl, rfl⟩⟩
    · refine ⟨⟨h.nested, h.unwound⟩, ?_⟩
      rw [Live, hiff, and_iff_right (by simpa using hgoing)]
      rfl
    · exact (hiff.mp hmatch).1 (by simpa using hfailed)
  · rw [if_neg hempty]
    refine .of_next hop h nofun (fun register' skip' heq hhere => ?_) rfl rfl rfl
      (fun _ => ⟨rfl, fun t => ⟨fun ht => ?_, ?_⟩⟩) nofun
    · cases heq
      exact absurd hhere hempty
    · cases ht
      rfl
    · rintro rfl
      exact .progress hempty

/-- **One instruction.** Where the path goes on, what can match is as before; where it fails,
nothing matches from there and the stacks are as they were. -/
theorem execute_runs {words : Bool} {op : Op σ} (hop : program[path.pc]? = some op)
    (hwords : words = false → ∀ mask, op = .assert mask → dependsOnWords mask = false)
    (h : Kept memory path) : Runs S program memory path (S.execute words path op) := by
  cases op with
  | char source => exact readCharacter_runs hop h
  | span source => exact span_runs hop h
  | fork first second => exact branch_runs hop h
  | assert mask => exact assertContext_runs hop (fun hfalse => hwords hfalse mask rfl) h
  | save slot => exact save_runs hop h
  | backref group => exact reread_runs hop h
  | progress register skip => exact progress_runs hop h

end Setting

end Tsgit.Regex
