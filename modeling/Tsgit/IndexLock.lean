import Tsgit.Error
import Tsgit.Interleaving

/-!
# The Index Lock

Any number of processes acquire `index.lock`, stage an index in it and rename it over
`index`, or drop it. Every filesystem call is one atomic step, and the processes' steps
interleave freely; a process may crash between any two of its steps.

A process that finds the lock taken and has a stale-lock window breaks it in four calls:
stat the lock, judge its age, remove the path, create it again. Nothing ties the removal
to the file that was examined. Lock files carry serial numbers here, which no process sees.
-/

namespace Tsgit.IndexLock

open Interleaving Interleaving.Trio

/-! ### The state -/

/-- What the processes were opened with: the repository's directory, and each process's
stale-lock window. -/
structure Config (Pid : Type*) where
  gitDir : String
  breakStaleLockMs : Pid → Option ℕ

def Config.indexPath {Pid : Type*} (cfg : Config Pid) : String := s!"{cfg.gitDir}/index"

def Config.lockPath {Pid : Type*} (cfg : Config Pid) : String := s!"{cfg.indexPath}.lock"

/-- A file at the lock path. It is created empty, and `index` is what has been staged in
it. `serial` tells it from every other file ever created there. -/
structure LockFile (Pid Index : Type*) where
  serial : ℕ
  creator : Pid
  createdAt : ℕ
  mtimeMs : ℕ
  index : Option Index
  deriving DecidableEq

/-- What the holder of the lock does next. `replaced` is the trailer of the index a refresh
was computed from, and `none` for a commit. -/
inductive Stage (Trailer : Type*) where
  /-- the caller has the lock handle -/
  | ready
  /-- the previous index has been read; the lock file is written next -/
  | staging (replaced : Option Trailer)
  /-- the lock file is written; it is renamed over the index next -/
  | publishing (replaced : Option Trailer)
  /-- the handle is released; the lock file is removed next -/
  | dropping
  deriving DecidableEq

/-- Where a process stands. -/
inductive Phase (Trailer : Type*) where
  | idle
  /-- the exclusive create found a lock; its modification time is read next -/
  | examining
  /-- `mtimeMs` was read off the lock file `serial`; the clock is read next -/
  | judging (serial mtimeMs : ℕ)
  /-- the age reached the window; the path is removed next -/
  | breaking (serial mtimeMs : ℕ)
  /-- one more exclusive create follows; `direct` when the lock had disappeared -/
  | retrying (direct : Bool)
  /-- the acquisition is refused; the refusal reads the modification time once more -/
  | refusing
  | failed (error : TsgitError)
  /-- the lock is held since `since` -/
  | holding (since : ℕ) (stage : Stage Trailer)
  /-- the lock was committed -/
  | spent
  | crashed
  deriving DecidableEq

/-- The phases from which a process may acquire anew. -/
def Phase.rested {Trailer : Type*} : Phase Trailer → Bool
  | .idle | .failed _ | .spent => true
  | _ => false

/-- Since when the lock is held. -/
def Phase.heldSince {Trailer : Type*} : Phase Trailer → Option ℕ
  | .holding since _ => some since
  | _ => none

/-- The lock file a breaker is about to remove, as it was examined. -/
def Phase.examined {Trailer : Type*} : Phase Trailer → Option (ℕ × ℕ)
  | .breaking serial mtimeMs => some (serial, mtimeMs)
  | _ => none

/-- The index file is `none` when absent, `some none` when empty, and `some (some index)`
when it holds one complete index. -/
structure State (Pid Index Trailer : Type*) where
  clock : ℕ
  nextSerial : ℕ
  lock : Option (LockFile Pid Index)
  index : Option (Option Index)
  phase : Pid → Phase Trailer

/-- One atomic step: what the clock does, a crash, or the next call of a process. -/
inductive Event (Pid Index Trailer : Type*) where
  | tick
  | crash (p : Pid)
  /-- `acquireIndexLock`: the first exclusive create -/
  | acquire (p : Pid)
  /-- `acquireOptionalIndexLock`: the only exclusive create -/
  | acquireOptional (p : Pid)
  /-- `readLockMtime` in `maybeBreakStaleLock` -/
  | examine (p : Pid)
  /-- the age against the window -/
  | judge (p : Pid)
  /-- `rm` of the lock path in `maybeBreakStaleLock` -/
  | breakStale (p : Pid)
  /-- the second exclusive create -/
  | retry (p : Pid)
  /-- `readLockMtime` of a refusal -/
  | refuse (p : Pid)
  /-- `commit`: the previous index is read -/
  | beginCommit (p : Pid)
  /-- `commitRefresh`: the previous index is read and its trailer compared -/
  | beginRefresh (p : Pid) (read : Trailer)
  | stage (p : Pid) (index : Index)
  /-- a call before `publishLock` fails -/
  | fail (p : Pid)
  | publish (p : Pid)
  /-- `release` marks the handle -/
  | release (p : Pid)
  /-- `rm` of the lock path in `releaseLock` -/
  | drop (p : Pid)

/-- The process that takes a step. -/
def Event.actor {Pid Index Trailer : Type*} : Event Pid Index Trailer → Option Pid
  | .tick => none
  | .crash p | .acquire p | .acquireOptional p | .examine p | .judge p | .breakStale p
  | .retry p | .refuse p | .beginCommit p | .beginRefresh p _ | .stage p _ | .fail p
  | .publish p | .release p | .drop p => some p

variable {Pid Index Trailer : Type*}

/-! ### The steps -/

def State.writeLock (s : State Pid Index Trailer) (p : Pid) (index : Index) :
    State Pid Index Trailer :=
  match s.lock with
  | some file => { s with lock := some { file with mtimeMs := s.clock, index := some index } }
  | none =>
    { s with
      nextSerial := s.nextSerial + 1
      lock := some ⟨s.nextSerial, p, s.clock, s.clock, some index⟩ }

def judgeAge (cfg : Config Pid) (clock serial mtimeMs windowMs : ℕ) : Phase Trailer :=
  if clock < mtimeMs then .failed (.resourceLocked "index" cfg.lockPath (some mtimeMs))
  else if clock - mtimeMs < windowMs then
    .failed (.resourceLocked "index" cfg.lockPath (some mtimeMs))
  else .breaking serial mtimeMs

/-- `writeRefreshed`'s comparison: the refresh goes on over the index it was read from, and
else the lock is dropped. -/
def compareTrailer [DecidableEq Trailer] (trailer : Index → Trailer)
    (index : Option (Option Index)) (read : Trailer) : Stage Trailer :=
  match index with
  | some (some previous) => if trailer previous = read then .staging (some read) else .dropping
  | _ => .dropping

/-- When a call of a commit fails a refresh drops the lock, a commit leaves it to the caller. -/
def afterFailure (replaced : Option Trailer) : Stage Trailer :=
  if replaced.isSome then .dropping else .ready

theorem Phase.rested_iff {phase : Phase Trailer} :
    phase.rested = true ↔ phase = .idle ∨ (∃ error, phase = .failed error) ∨ phase = .spent := by
  cases phase <;> simp [Phase.rested]

variable {p : Pid}

theorem free_of_rested {s : State Pid Index Trailer} (h : (s.phase p).rested = true) :
    s.phase p ≠ .crashed ∧ ∀ since stage, s.phase p ≠ .holding since stage := by
  rcases Phase.rested_iff.mp h with hp | ⟨error, hp⟩ | hp <;> simp [hp]

theorem compareTrailer_spec [DecidableEq Trailer] {trailer : Index → Trailer}
    {index : Option (Option Index)} {read : Trailer} :
    (∀ replaced, compareTrailer trailer index read ≠ .publishing replaced) ∧
    ∀ read', compareTrailer trailer index read = .staging (some read') →
      ∃ previous, index = some (some previous) ∧ trailer previous = read' := by
  match index with
  | none => simp [compareTrailer]
  | some none => simp [compareTrailer]
  | some (some previous) =>
    simp only [compareTrailer]
    split
    · next h => exact ⟨by simp, fun read' h' => ⟨previous, rfl, by simpa [h] using h'⟩⟩
    · simp

theorem afterFailure_spec (replaced : Option Trailer) :
    (∀ replaced', afterFailure replaced ≠ .publishing replaced') ∧
      ∀ read, afterFailure replaced ≠ .staging (some read) := by
  cases replaced <;> simp [afterFailure]

theorem judgeAge_cases (cfg : Config Pid) (clock serial mtimeMs windowMs : ℕ) :
    (∃ error, (judgeAge cfg clock serial mtimeMs windowMs : Phase Trailer) = .failed error) ∨
      (judgeAge cfg clock serial mtimeMs windowMs : Phase Trailer) =
        .breaking serial mtimeMs := by
  unfold judgeAge
  split
  · exact .inl ⟨_, rfl⟩
  · split
    · exact .inl ⟨_, rfl⟩
    · exact .inr rfl

variable [DecidableEq Pid]

def State.setPhase (s : State Pid Index Trailer) (p : Pid) (phase : Phase Trailer) :
    State Pid Index Trailer :=
  { s with phase := Function.update s.phase p phase }

def State.createLock (s : State Pid Index Trailer) (p : Pid) : State Pid Index Trailer :=
  { s with
    nextSerial := s.nextSerial + 1
    lock := some ⟨s.nextSerial, p, s.clock, s.clock, none⟩
    phase := Function.update s.phase p (.holding s.clock .ready) }

def State.writeExclusive (s : State Pid Index Trailer) (p : Pid) (taken : Phase Trailer) :
    State Pid Index Trailer :=
  match s.lock with
  | none => s.createLock p
  | some _ => s.setPhase p taken

def step [DecidableEq Trailer] (cfg : Config Pid) (trailer : Index → Trailer)
    (s : State Pid Index Trailer) :
    Event Pid Index Trailer → Option (State Pid Index Trailer)
  | .tick => some { s with clock := s.clock + 1 }
  | .crash p => some (s.setPhase p .crashed)
  | .acquire p =>
    if (s.phase p).rested then
      some (s.writeExclusive p
        (if (cfg.breakStaleLockMs p).isSome then .examining else .refusing))
    else none
  | .acquireOptional p =>
    if (s.phase p).rested then some (s.writeExclusive p .idle) else none
  | .examine p =>
    match s.phase p with
    | .examining =>
      match s.lock with
      | none => some (s.setPhase p (.retrying true))
      | some file => some (s.setPhase p (.judging file.serial file.mtimeMs))
    | _ => none
  | .judge p =>
    match s.phase p, cfg.breakStaleLockMs p with
    | .judging serial mtimeMs, some windowMs =>
      some (s.setPhase p (judgeAge cfg s.clock serial mtimeMs windowMs))
    | _, _ => none
  | .breakStale p =>
    match s.phase p with
    | .breaking _ _ =>
      match s.lock with
      | none => some (s.setPhase p (.failed (.fileNotFound cfg.lockPath)))
      | some _ => some ({ s with lock := none }.setPhase p (.retrying false))
    | _ => none
  | .retry p =>
    match s.phase p with
    | .retrying direct =>
      some (s.writeExclusive p (if direct then .failed (.fileExists cfg.lockPath) else .refusing))
    | _ => none
  | .refuse p =>
    match s.phase p with
    | .refusing =>
      some (s.setPhase p
        (.failed (.resourceLocked "index" cfg.lockPath (s.lock.map LockFile.mtimeMs))))
    | _ => none
  | .beginCommit p =>
    match s.phase p with
    | .holding since .ready => some (s.setPhase p (.holding since (.staging none)))
    | _ => none
  | .beginRefresh p read =>
    match s.phase p with
    | .holding since .ready =>
      some (s.setPhase p (.holding since (compareTrailer trailer s.index read)))
    | _ => none
  | .stage p index =>
    match s.phase p with
    | .holding since (.staging replaced) =>
      some ((s.writeLock p index).setPhase p (.holding since (.publishing replaced)))
    | _ => none
  | .fail p =>
    match s.phase p with
    | .holding since (.staging replaced) =>
      some (s.setPhase p (.holding since (afterFailure replaced)))
    | _ => none
  | .publish p =>
    match s.phase p with
    | .holding since (.publishing replaced) =>
      match s.lock with
      | none => some (s.setPhase p (.holding since (afterFailure replaced)))
      | some file => some ({ s with index := some file.index, lock := none }.setPhase p .spent)
    | _ => none
  | .release p =>
    match s.phase p with
    | .holding since .ready => some (s.setPhase p (.holding since .dropping))
    | .spent => some (s.setPhase p .idle)
    | _ => none
  | .drop p =>
    match s.phase p with
    | .holding _ .dropping => some ({ s with lock := none }.setPhase p .idle)
    | _ => none

/-- At the start nobody has acquired anything, and the index is absent or complete. -/
structure Initial (s : State Pid Index Trailer) : Prop where
  lock_eq : s.lock = none
  phase_eq : ∀ p, s.phase p = .idle
  index_complete : ∀ file, s.index = some file → file.isSome

/-! ### What a step can do -/

/-- The phases a step that touches neither the lock nor the index may lead `p` to. -/
inductive Moves (cfg : Config Pid) (trailer : Index → Trailer) (s : State Pid Index Trailer)
    (p : Pid) : Phase Trailer → Prop
  | crash : Moves cfg trailer s p .crashed
  | plain {phase : Phase Trailer} (hfree : ∀ since stage, s.phase p ≠ .holding since stage)
      (hlive : s.phase p ≠ .crashed)
      (hplain : phase.rested ∨ phase = .examining ∨ phase = .refusing ∨
        ∃ direct, phase = .retrying direct) : Moves cfg trailer s p phase
  | judging {file : LockFile Pid Index} (hphase : s.phase p = .examining)
      (hlock : s.lock = some file) : Moves cfg trailer s p (.judging file.serial file.mtimeMs)
  | breaking {serial mtimeMs windowMs : ℕ} (hphase : s.phase p = .judging serial mtimeMs)
      (hwindow : cfg.breakStaleLockMs p = some windowMs) :
      Moves cfg trailer s p (.breaking serial mtimeMs)
  | holding {since : ℕ} {stage stage' : Stage Trailer}
      (hphase : s.phase p = .holding since stage)
      (hstage : ∀ replaced, stage' ≠ .publishing replaced)
      (hover : ∀ read, stage' = .staging (some read) →
        ∃ previous, s.index = some (some previous) ∧ trailer previous = read) :
      Moves cfg trailer s p (.holding since stage')

/-- **What a step can do**, said once: time passes, one phase moves, or one call acts on the lock.
-/
inductive Effect (cfg : Config Pid) (trailer : Index → Trailer) (s : State Pid Index Trailer) :
    Event Pid Index Trailer → State Pid Index Trailer → Prop
  | tick : Effect cfg trailer s .tick { s with clock := s.clock + 1 }
  | move {e : Event Pid Index Trailer} {p : Pid} {phase : Phase Trailer} (hactor : e.actor = some p)
      (hmove : Moves cfg trailer s p phase) : Effect cfg trailer s e (s.setPhase p phase)
  | create {e : Event Pid Index Trailer} {p : Pid} (hactor : e.actor = some p)
      (hlive : s.phase p ≠ .crashed) (hfree : ∀ since stage, s.phase p ≠ .holding since stage)
      (hlock : s.lock = none) : Effect cfg trailer s e (s.createLock p)
  | breakStale {p : Pid} {serial mtimeMs : ℕ} {file : LockFile Pid Index}
      (hphase : s.phase p = .breaking serial mtimeMs) (hlock : s.lock = some file) :
      Effect cfg trailer s (.breakStale p) ({ s with lock := none }.setPhase p (.retrying false))
  | stage {p : Pid} {since : ℕ} {replaced : Option Trailer} {index : Index}
      (hphase : s.phase p = .holding since (.staging replaced)) :
      Effect cfg trailer s (.stage p index)
        ((s.writeLock p index).setPhase p (.holding since (.publishing replaced)))
  | publish {p : Pid} {since : ℕ} {replaced : Option Trailer} {file : LockFile Pid Index}
      (hphase : s.phase p = .holding since (.publishing replaced)) (hlock : s.lock = some file) :
      Effect cfg trailer s (.publish p)
        ({ s with index := some file.index, lock := none }.setPhase p .spent)
  | drop {p : Pid} {since : ℕ} (hphase : s.phase p = .holding since .dropping) :
      Effect cfg trailer s (.drop p) ({ s with lock := none }.setPhase p .idle)

section

variable {cfg : Config Pid} {trailer : Index → Trailer} {s t : State Pid Index Trailer}

theorem Effect.writeExclusive {e : Event Pid Index Trailer} {taken : Phase Trailer}
    (hactor : e.actor = some p) (hlive : s.phase p ≠ .crashed)
    (hfree : ∀ since stage, s.phase p ≠ .holding since stage)
    (htaken : taken.rested ∨ taken = .examining ∨ taken = .refusing ∨
      ∃ direct, taken = .retrying direct) :
    Effect cfg trailer s e (s.writeExclusive p taken) := by
  cases hlock : s.lock with
  | none =>
    simp only [State.writeExclusive, hlock]
    exact .create hactor hlive hfree hlock
  | some file =>
    simp only [State.writeExclusive, hlock]
    exact .move hactor (.plain hfree hlive htaken)

theorem effect_of_step [DecidableEq Trailer] {e : Event Pid Index Trailer}
    (h : step cfg trailer s e = some t) : Effect cfg trailer s e t := by
  cases e with
  | tick =>
    cases h
    exact .tick
  | crash p =>
    cases h
    exact .move rfl .crash
  | acquire p =>
    simp only [step] at h
    split at h
    · next hrested =>
      cases h
      obtain ⟨hlive, hfree⟩ := free_of_rested hrested
      refine .writeExclusive rfl hlive hfree ?_
      split <;> simp
    · cases h
  | acquireOptional p =>
    simp only [step] at h
    split at h
    · next hrested =>
      cases h
      obtain ⟨hlive, hfree⟩ := free_of_rested hrested
      exact .writeExclusive rfl hlive hfree (.inl rfl)
    · cases h
  | examine p =>
    simp only [step] at h
    split at h
    · next hphase =>
      split at h
      · cases h
        exact .move rfl (.plain (by simp [hphase]) (by simp [hphase]) (by simp))
      · next file hlock =>
        cases h
        exact .move rfl (.judging hphase hlock)
    · cases h
  | judge p =>
    simp only [step] at h
    split at h
    · next serial mtimeMs windowMs hphase hwindow =>
      cases h
      rcases judgeAge_cases cfg s.clock serial mtimeMs windowMs with ⟨error, hj⟩ | hj
      · rw [hj]
        exact .move rfl (.plain (by simp [hphase]) (by simp [hphase]) (.inl rfl))
      · rw [hj]
        exact .move rfl (.breaking hphase hwindow)
    · cases h
  | breakStale p =>
    simp only [step] at h
    split at h
    · next serial mtimeMs hphase =>
      split at h
      · cases h
        exact .move rfl (.plain (by simp [hphase]) (by simp [hphase]) (.inl rfl))
      · next file hlock =>
        cases h
        exact .breakStale hphase hlock
    · cases h
  | retry p =>
    simp only [step] at h
    split at h
    · next direct hphase =>
      cases h
      refine .writeExclusive rfl (by simp [hphase]) (by simp [hphase]) ?_
      cases direct <;> simp [Phase.rested]
    · cases h
  | refuse p =>
    simp only [step] at h
    split at h
    · next hphase =>
      cases h
      exact .move rfl (.plain (by simp [hphase]) (by simp [hphase]) (.inl rfl))
    · cases h
  | beginCommit p =>
    simp only [step] at h
    split at h
    · next since hphase =>
      cases h
      exact .move rfl (.holding hphase (by simp) (by simp))
    · cases h
  | beginRefresh p read =>
    simp only [step] at h
    split at h
    · next since hphase =>
      cases h
      exact .move rfl (.holding hphase compareTrailer_spec.1 compareTrailer_spec.2)
    · cases h
  | stage p index =>
    simp only [step] at h
    split at h
    · next since replaced hphase =>
      cases h
      exact .stage hphase
    · cases h
  | fail p =>
    simp only [step] at h
    split at h
    · next since replaced hphase =>
      cases h
      refine .move rfl (.holding hphase (afterFailure_spec replaced).1 fun read hread => ?_)
      exact absurd hread ((afterFailure_spec replaced).2 read)
    · cases h
  | publish p =>
    simp only [step] at h
    split at h
    · next since replaced hphase =>
      split at h
      · cases h
        refine .move rfl (.holding hphase (afterFailure_spec replaced).1 fun read hread => ?_)
        exact absurd hread ((afterFailure_spec replaced).2 read)
      · next file hlock =>
        cases h
        exact .publish hphase hlock
    · cases h
  | release p =>
    simp only [step] at h
    split at h
    · next since hphase =>
      cases h
      exact .move rfl (.holding hphase (by simp) (by simp))
    · next hphase =>
      cases h
      exact .move rfl (.plain (by simp [hphase]) (by simp [hphase]) (.inl rfl))
    · cases h
  | drop p =>
    simp only [step] at h
    split at h
    · next since hphase =>
      cases h
      exact .drop hphase
    · cases h

end

/-! ### What a run may assume, and what it keeps -/

/-- A process that has held the lock longer than a window has crashed. -/
def Timely (cfg : Config Pid) (s : State Pid Index Trailer) : Prop :=
  ∀ p q, ∀ since ∈ (s.phase p).heldSince, ∀ windowMs ∈ cfg.breakStaleLockMs q,
    s.clock ≤ since + windowMs

/-- A removal by a breaker hits what was examined: the file at the path is the one whose
modification time was read, and more than the window has passed since that time. -/
def BreaksExamined (cfg : Config Pid) (s : State Pid Index Trailer) :
    Event Pid Index Trailer → Prop
  | .breakStale p =>
    ∀ examined ∈ (s.phase p).examined, ∀ file ∈ s.lock, ∀ windowMs ∈ cfg.breakStaleLockMs p,
      file.serial = examined.1 ∧ examined.2 + windowMs < s.clock
  | _ => True

/-- The lock is held by a live process. -/
def Holds (s : State Pid Index Trailer) (p : Pid) : Prop :=
  ∃ since stage, s.phase p = .holding since stage

/-- What a step must not do: take away a lock file that another live process created, or
publish a refresh over another index than the one it was computed from. -/
structure SafeStep (trailer : Index → Trailer) (s : State Pid Index Trailer)
    (e : Event Pid Index Trailer) (t : State Pid Index Trailer) : Prop where
  removes : ∀ file, s.lock = some file → (∀ file', t.lock = some file' → file'.serial ≠ file.serial) →
    e.actor = some file.creator ∨ s.phase file.creator = .crashed
  refreshes : ∀ p since read, e = .publish p → s.phase p = .holding since (.publishing (some read)) →
    ∃ previous, s.index = some (some previous) ∧ trailer previous = read

/-- What the index lock promises of a state: one live holder at most, and an index that is
absent or complete. -/
structure Safe (s : State Pid Index Trailer) : Prop where
  one_holder : ∀ p q, Holds s p → Holds s q → p = q
  index_complete : ∀ file, s.index = some file → file.isSome

/-- The invariant. A live holder's lock file is at the path and is its own; a lock file whose
creator lives is held by it; and a file examined by a breaker that is still at the path was created
no later than the time read off it. -/
structure Inv (cfg : Config Pid) (trailer : Index → Trailer) (s : State Pid Index Trailer) :
    Prop where
  holder : ∀ p since stage, s.phase p = .holding since stage → ∃ file, s.lock = some file ∧
    file.creator = p ∧ file.createdAt = since ∧
      (∀ replaced, stage = .publishing replaced → file.index.isSome)
  creator : ∀ file, s.lock = some file → s.phase file.creator = .crashed ∨
    ∃ since stage, s.phase file.creator = .holding since stage
  replaced : ∀ p since read, s.phase p = .holding since (.staging (some read)) ∨
    s.phase p = .holding since (.publishing (some read)) →
      ∃ previous, s.index = some (some previous) ∧ trailer previous = read
  created_le : ∀ file, s.lock = some file → file.createdAt ≤ file.mtimeMs ∧
    file.mtimeMs ≤ s.clock ∧ file.serial < s.nextSerial
  examined : ∀ p serial mtimeMs, s.phase p = .judging serial mtimeMs ∨
    s.phase p = .breaking serial mtimeMs → serial < s.nextSerial ∧
      ∀ file, s.lock = some file → file.serial = serial → file.createdAt ≤ mtimeMs
  index_complete : ∀ file, s.index = some file → file.isSome
  window : ∀ p serial mtimeMs, s.phase p = .breaking serial mtimeMs →
    (cfg.breakStaleLockMs p).isSome

section

variable {cfg : Config Pid} {trailer : Index → Trailer} {s : State Pid Index Trailer}

@[simp] theorem setPhase_phase (s : State Pid Index Trailer) (p q : Pid) (phase : Phase Trailer) :
    (s.setPhase p phase).phase q = if q = p then phase else s.phase q := by
  simp [State.setPhase, Function.update_apply]

@[simp] theorem setPhase_lock (s : State Pid Index Trailer) (p : Pid) (phase : Phase Trailer) :
    (s.setPhase p phase).lock = s.lock := rfl

@[simp] theorem setPhase_index (s : State Pid Index Trailer) (p : Pid) (phase : Phase Trailer) :
    (s.setPhase p phase).index = s.index := rfl

@[simp] theorem setPhase_clock (s : State Pid Index Trailer) (p : Pid) (phase : Phase Trailer) :
    (s.setPhase p phase).clock = s.clock := rfl

@[simp] theorem setPhase_nextSerial (s : State Pid Index Trailer) (p : Pid)
    (phase : Phase Trailer) : (s.setPhase p phase).nextSerial = s.nextSerial := rfl

omit [DecidableEq Pid] in
theorem Initial.inv (h : Initial s) : Inv cfg trailer s where
  holder p since stage hp := by simp [h.phase_eq p] at hp
  creator file hfile := by simp [h.lock_eq] at hfile
  replaced p since read hp := by simp [h.phase_eq p] at hp
  created_le file hfile := by simp [h.lock_eq] at hfile
  examined p serial mtimeMs hp := by simp [h.phase_eq p] at hp
  index_complete := h.index_complete
  window p serial mtimeMs hp := by simp [h.phase_eq p] at hp

omit [DecidableEq Pid] in
theorem Inv.tick (h : Inv cfg trailer s) : Inv cfg trailer { s with clock := s.clock + 1 } where
  holder := h.holder
  creator := h.creator
  replaced := h.replaced
  created_le file hfile := by
    obtain ⟨h1, h2, h3⟩ := h.created_le file hfile
    exact ⟨h1, Nat.le_succ_of_le h2, h3⟩
  examined := h.examined
  index_complete := h.index_complete
  window := h.window

/-- A step of one phase keeps the invariant. -/
theorem Inv.move {p : Pid} {phase : Phase Trailer} (h : Inv cfg trailer s)
    (hmove : Moves cfg trailer s p phase) : Inv cfg trailer (s.setPhase p phase) where
  holder q since stage hq := by
    simp only [setPhase_phase] at hq
    split at hq
    · next heq =>
      subst heq hq
      cases hmove with
      | plain _ _ hplain => simp [Phase.rested] at hplain
      | holding hphase hstage _ =>
        obtain ⟨file, hlock, hcreator, hsince, -⟩ := h.holder q _ _ hphase
        exact ⟨file, hlock, hcreator, hsince, fun replaced h' => absurd h' (hstage replaced)⟩
    · exact h.holder q since stage hq
  creator file hfile := by
    simp only [setPhase_phase]
    split
    · next heq =>
      subst heq
      have hold := h.creator file hfile
      cases hmove with
      | crash => exact .inl rfl
      | plain hfree hlive _ =>
        rcases hold with hold | ⟨since, stage, hold⟩
        · exact absurd hold hlive
        · exact absurd hold (hfree since stage)
      | judging hphase _ => simp [hphase] at hold
      | breaking hphase _ => simp [hphase] at hold
      | holding hphase _ _ => exact .inr ⟨_, _, rfl⟩
    · exact h.creator file hfile
  replaced q since read hq := by
    simp only [setPhase_phase] at hq
    split at hq
    · next heq =>
      subst heq
      cases hmove with
      | crash => simp at hq
      | plain _ _ hplain => rcases hq with rfl | rfl <;> simp [Phase.rested] at hplain
      | judging => simp at hq
      | breaking => simp at hq
      | holding hphase hstage hover =>
        rcases hq with hq | hq
        · injection hq with _ hq
          exact hover read hq
        · injection hq with _ hq
          exact absurd hq (hstage _)
    · exact h.replaced q since read hq
  created_le := h.created_le
  examined q serial mtimeMs hq := by
    simp only [setPhase_phase] at hq
    split at hq
    · next heq =>
      subst heq
      cases hmove with
      | crash => simp at hq
      | plain _ _ hplain => rcases hq with rfl | rfl <;> simp [Phase.rested] at hplain
      | @judging file _ hlock =>
        have hfile := h.created_le file hlock
        simp only [Phase.judging.injEq, reduceCtorEq, or_false] at hq
        obtain ⟨rfl, rfl⟩ := hq
        refine ⟨hfile.2.2, fun file' hfile' _ => ?_⟩
        rw [setPhase_lock, hlock] at hfile'
        cases hfile'
        exact hfile.1
      | breaking hphase _ =>
        simp only [reduceCtorEq, Phase.breaking.injEq, false_or] at hq
        obtain ⟨rfl, rfl⟩ := hq
        exact h.examined q _ _ (.inl hphase)
      | holding => simp at hq
    · exact h.examined q serial mtimeMs hq
  index_complete := h.index_complete
  window q serial mtimeMs hq := by
    simp only [setPhase_phase] at hq
    split at hq
    · next heq =>
      subst heq
      cases hmove with
      | crash => simp at hq
      | plain _ _ hplain => subst hq; simp [Phase.rested] at hplain
      | judging => simp at hq
      | breaking _ hwindow => simp [hwindow]
      | holding => simp at hq
    · exact h.window q serial mtimeMs hq

variable {file : LockFile Pid Index}

omit [DecidableEq Pid] in
theorem Inv.creator_eq {since : ℕ} {stage : Stage Trailer}
    (h : Inv cfg trailer s) (hphase : s.phase p = .holding since stage)
    (hlock : s.lock = some file) : file.creator = p := by
  obtain ⟨file', hlock', hcreator, -⟩ := h.holder p since stage hphase
  rw [hlock] at hlock'
  cases hlock'
  exact hcreator

theorem Inv.create (h : Inv cfg trailer s) (hlock : s.lock = none) :
    Inv cfg trailer (s.createLock p) where
  holder q since stage hq := by
    simp only [State.createLock, Function.update_apply] at hq
    split at hq
    · next heq =>
      cases hq
      exact ⟨_, rfl, heq.symm, rfl, by simp⟩
    · obtain ⟨file, hfile, -⟩ := h.holder q since stage hq
      rw [hlock] at hfile
      cases hfile
  creator file hfile := by
    cases hfile
    exact .inr ⟨s.clock, .ready, by simp [State.createLock]⟩
  replaced q since read hq := by
    simp only [State.createLock, Function.update_apply] at hq
    split at hq
    · simp at hq
    · exact h.replaced q since read hq
  created_le file hfile := by
    cases hfile
    exact ⟨Nat.le_refl _, Nat.le_refl _, Nat.lt_succ_self _⟩
  examined q serial mtimeMs hq := by
    simp only [State.createLock, Function.update_apply] at hq
    split at hq
    · simp at hq
    · have hserial := (h.examined q serial mtimeMs hq).1
      refine ⟨Nat.lt_succ_of_lt hserial, fun file hfile heq => ?_⟩
      cases hfile
      exact absurd heq (Nat.ne_of_gt hserial)
  index_complete := h.index_complete
  window q serial mtimeMs hq := by
    simp only [State.createLock, Function.update_apply] at hq
    split at hq
    · simp at hq
    · exact h.window q serial mtimeMs hq

theorem Inv.unlock {phase : Phase Trailer}
    {index : Option (Option Index)} (h : Inv cfg trailer s) (hlock : s.lock = some file)
    (hfree : ∀ q since stage, q ≠ p → s.phase q = .holding since stage → file.creator ≠ q)
    (hphase : phase.rested ∨ ∃ direct, phase = .retrying direct)
    (hindex : index = s.index ∨ (∀ q since stage, q ≠ p → s.phase q ≠ .holding since stage) ∧
      ∃ published, index = some (some published)) :
    Inv cfg trailer ({ s with index := index, lock := none }.setPhase p phase) := by
  have hnone : ∀ q since stage, q ≠ p → s.phase q ≠ .holding since stage :=
    fun q since stage hne hq => hfree q since stage hne hq (h.creator_eq hq hlock)
  have hplain : ∀ since stage, phase ≠ .holding since stage := by
    rintro since stage rfl
    simp [Phase.rested] at hphase
  refine ⟨?_, ?_, ?_, ?_, ?_, ?_, ?_⟩
  · intro q since stage hq
    simp only [setPhase_phase] at hq
    split at hq
    · exact absurd hq (hplain since stage)
    · next hne => exact absurd hq (hnone q since stage hne)
  · intro file hfile
    simp at hfile
  · intro q since read hq
    simp only [setPhase_phase] at hq
    split at hq
    · rcases hq with hq | hq <;> exact absurd hq (hplain _ _)
    · next hne => rcases hq with hq | hq <;> exact absurd hq (hnone q _ _ hne)
  · intro file hfile
    simp at hfile
  · intro q serial mtimeMs hq
    simp only [setPhase_phase] at hq
    split at hq
    · rcases hq with rfl | rfl <;> simp [Phase.rested] at hphase
    · exact ⟨(h.examined q serial mtimeMs hq).1, fun file hfile => by simp at hfile⟩
  · intro written hwritten
    simp only [setPhase_index] at hwritten
    rcases hindex with rfl | ⟨-, published, rfl⟩
    · exact h.index_complete written hwritten
    · cases hwritten
      rfl
  · intro q serial mtimeMs hq
    simp only [setPhase_phase] at hq
    split at hq
    · subst hq
      simp [Phase.rested] at hphase
    · exact h.window q serial mtimeMs hq

omit [DecidableEq Pid] in
theorem Inv.crashed_of_breaksExamined {serial mtimeMs : ℕ}
    (h : Inv cfg trailer s) (htimely : Timely cfg s) (hbreak : BreaksExamined cfg s (.breakStale p))
    (hphase : s.phase p = .breaking serial mtimeMs) (hlock : s.lock = some file) :
    s.phase file.creator = .crashed := by
  rcases h.creator file hlock with hcrashed | ⟨since, stage, hholds⟩
  · exact hcrashed
  obtain ⟨windowMs, hwindow⟩ := Option.isSome_iff_exists.mp (h.window p serial mtimeMs hphase)
  obtain ⟨hserial, hage⟩ := hbreak (serial, mtimeMs) (by simp [hphase, Phase.examined]) file
    hlock windowMs hwindow
  obtain ⟨file', hlock', -, hsince, -⟩ := h.holder file.creator since stage hholds
  rw [hlock] at hlock'
  cases hlock'
  have hcreated := (h.examined p serial mtimeMs (.inr hphase)).2 file hlock hserial
  have hheld := htimely file.creator p since (by simp [hholds, Phase.heldSince]) windowMs hwindow
  omega

theorem Inv.stage {p : Pid} {since : ℕ} {replaced : Option Trailer} {index : Index}
    (h : Inv cfg trailer s) (hphase : s.phase p = .holding since (.staging replaced)) :
    Inv cfg trailer ((s.writeLock p index).setPhase p (.holding since (.publishing replaced))) := by
  obtain ⟨file, hlock, hcreator, hsince, -⟩ := h.holder p since _ hphase
  have hcreated := h.created_le file hlock
  have hwrite : s.writeLock p index =
      { s with lock := some { file with mtimeMs := s.clock, index := some index } } := by
    simp only [State.writeLock, hlock]
  rw [hwrite]
  refine ⟨?_, ?_, ?_, ?_, ?_, h.index_complete, ?_⟩
  · intro q since' stage' hq
    simp only [setPhase_phase] at hq
    split at hq
    · next heq =>
      cases hq
      exact ⟨_, rfl, heq ▸ hcreator, hsince, fun _ _ => rfl⟩
    · next hne => exact absurd (h.creator_eq hq hlock) (hcreator ▸ Ne.symm hne)
  · intro file' hfile'
    cases hfile'
    exact .inr ⟨since, .publishing replaced, by simp [hcreator]⟩
  · intro q since' read hq
    simp only [setPhase_phase] at hq
    split at hq
    · next heq =>
      refine h.replaced p since read (.inl ?_)
      simp only [Phase.holding.injEq, reduceCtorEq, and_false, Stage.publishing.injEq,
        false_or] at hq
      rw [hphase, hq.2]
    · exact h.replaced q since' read hq
  · intro file' hfile'
    cases hfile'
    exact ⟨Nat.le_trans hcreated.1 hcreated.2.1, Nat.le_refl _, hcreated.2.2⟩
  · intro q serial mtimeMs hq
    simp only [setPhase_phase] at hq
    split at hq
    · simp at hq
    · obtain ⟨hserial, hle⟩ := h.examined q serial mtimeMs hq
      refine ⟨hserial, fun file' hfile' heq => ?_⟩
      cases hfile'
      exact hle file hlock heq
  · intro q serial mtimeMs hq
    simp only [setPhase_phase] at hq
    split at hq
    · simp at hq
    · exact h.window q serial mtimeMs hq

/-- Every step that meets the conditions keeps the invariant. -/
theorem Inv.effect {e : Event Pid Index Trailer} {t : State Pid Index Trailer}
    (h : Inv cfg trailer s) (htimely : Timely cfg s) (hbreak : BreaksExamined cfg s e)
    (heffect : Effect cfg trailer s e t) : Inv cfg trailer t := by
  cases heffect with
  | tick => exact h.tick
  | move _ hmove => exact h.move hmove
  | create _ _ _ hlock => exact h.create hlock
  | @breakStale p serial mtimeMs file hphase hlock =>
    have hcrashed := h.crashed_of_breaksExamined htimely hbreak hphase hlock
    refine h.unlock hlock (fun q since stage _ hq heq => ?_) (.inr ⟨false, rfl⟩) (.inl rfl)
    rw [heq, hq] at hcrashed
    cases hcrashed
  | stage hphase => exact h.stage hphase
  | @publish p since replaced file hphase hlock =>
    have hcreator := h.creator_eq hphase hlock
    obtain ⟨file', hlock', -, -, hstaged⟩ := h.holder p since _ hphase
    rw [hlock] at hlock'
    cases hlock'
    obtain ⟨published, hpublished⟩ := Option.isSome_iff_exists.mp (hstaged replaced rfl)
    refine h.unlock hlock (fun q _ _ hne _ => hcreator ▸ Ne.symm hne) (.inl rfl) (.inr ⟨?_, ?_⟩)
    · intro q since' stage' hne hq
      exact hne ((h.creator_eq hq hlock).symm.trans hcreator)
    · exact ⟨published, by rw [hpublished]⟩
  | @drop p since hphase =>
    obtain ⟨file, hlock, hcreator, -⟩ := h.holder p since _ hphase
    exact h.unlock hlock (fun q _ _ hne _ => hcreator ▸ Ne.symm hne) (.inl rfl) (.inl rfl)

omit [DecidableEq Pid] in
/-- The invariant gives what the lock promises of a state. -/
theorem Inv.safe (h : Inv cfg trailer s) : Safe s where
  one_holder p q hp hq := by
    obtain ⟨_, _, hp⟩ := hp
    obtain ⟨_, _, hq⟩ := hq
    obtain ⟨file, hlock, hcreator, -⟩ := h.holder p _ _ hp
    exact hcreator.symm.trans (h.creator_eq hq hlock)
  index_complete := h.index_complete

theorem Inv.safeStep {e : Event Pid Index Trailer} {t : State Pid Index Trailer}
    (h : Inv cfg trailer s) (htimely : Timely cfg s) (hbreak : BreaksExamined cfg s e)
    (heffect : Effect cfg trailer s e t) : SafeStep trailer s e t where
  removes file hlock hgone := by
    cases heffect with
    | tick => exact absurd rfl (hgone file hlock)
    | move => exact absurd rfl (hgone file hlock)
    | create _ _ _ hnone =>
      rw [hnone] at hlock
      cases hlock
    | breakStale hphase _ =>
      exact .inr (h.crashed_of_breaksExamined htimely hbreak hphase hlock)
    | @stage p since replaced index _ =>
      exact absurd rfl (hgone { file with mtimeMs := s.clock, index := some index }
        (by simp [State.writeLock, hlock]))
    | publish hphase _ => exact .inl (congrArg some (h.creator_eq hphase hlock).symm)
    | drop hphase => exact .inl (congrArg some (h.creator_eq hphase hlock).symm)
  refreshes p since read _ hphase := h.replaced p since read (.inr hphase)

end

/-! ### The protocol -/

variable [DecidableEq Trailer]

/-- **The index lock is safe when removals hit what was examined.** In every such run whose holders
of more than a window have crashed, one live process at most holds the lock, no step takes away that
of another, and a refresh is published only over the index it was computed from. -/
theorem safe_of_breaksExamined {cfg : Config Pid} {trailer : Index → Trailer}
    {s : State Pid Index Trailer}
    (h : Reachable (step cfg trailer) (fun s e => Timely cfg s ∧ BreaksExamined cfg s e)
      Initial s) :
    Safe s ∧ ∀ e t, Timely cfg s → BreaksExamined cfg s e → step cfg trailer s e = some t →
      SafeStep trailer s e t := by
  have hinv : Inv cfg trailer s := h.invariant (fun _ hs => hs.inv)
    fun _ _ _ hs hok ht => hs.effect hok.1 hok.2 (effect_of_step ht)
  exact ⟨hinv.safe, fun e t htimely hbreak ht =>
    hinv.safeStep htimely hbreak (effect_of_step ht)⟩

/-- Two processes and a crashed one, every one with a window of one millisecond. -/
def exampleConfig : Config Trio := ⟨".git", fun _ => some 1⟩

/-- A repository with no index and nobody at the lock. -/
def emptyState : State Trio ℕ ℕ := ⟨0, 0, none, none, fun _ => .idle⟩

theorem emptyState_initial : Initial emptyState := ⟨rfl, fun _ => rfl, by simp [emptyState]⟩

instance (cfg : Config Trio) (s : State Trio ℕ ℕ) : Decidable (Timely cfg s) :=
  inferInstanceAs (Decidable (∀ p q, ∀ since ∈ (s.phase p).heldSince,
    ∀ windowMs ∈ cfg.breakStaleLockMs q, s.clock ≤ since + windowMs))

instance (cfg : Config Trio) (s : State Trio ℕ ℕ) (e : Event Trio ℕ ℕ) :
    Decidable (BreaksExamined cfg s e) :=
  match e with
  | .breakStale p =>
    inferInstanceAs (Decidable (∀ examined ∈ (s.phase p).examined, ∀ file ∈ s.lock,
      ∀ windowMs ∈ cfg.breakStaleLockMs p,
        file.serial = examined.1 ∧ examined.2 + windowMs < s.clock))
  | .tick | .crash _ | .acquire _ | .acquireOptional _ | .examine _ | .judge _ | .retry _
  | .refuse _ | .beginCommit _ | .beginRefresh _ _ | .stage _ _ | .fail _ | .publish _
  | .release _ | .drop _ => isTrue trivial

def breakAndCommit : List (Event Trio ℕ ℕ) :=
  [.acquire p0, .crash p0, .tick, .tick, .acquire p1, .examine p1, .judge p1, .breakStale p1, .retry p1,
    .beginCommit p1, .stage p1 7, .publish p1, .acquireOptional p2, .beginRefresh p2 7, .stage p2 8]

/-- The protocol's promise at the end of a run that breaks a lock. -/
theorem safe_after_breakAndCommit :
    ∃ s, Reachable (step exampleConfig (id : ℕ → ℕ))
        (fun s e => Timely exampleConfig s ∧ BreaksExamined exampleConfig s e) Initial s ∧
      s.phase .p2 = .holding 2 (.publishing (some 7)) ∧ s.index = some (some 7) ∧
      (Safe s ∧ ∀ e t, Timely exampleConfig s → BreaksExamined exampleConfig s e →
        step exampleConfig id s e = some t → SafeStep id s e t) := by
  obtain ⟨s, hs, hend⟩ := exists_reachable_of_exec (step exampleConfig (id : ℕ → ℕ))
    (fun s e => Timely exampleConfig s ∧ BreaksExamined exampleConfig s e) breakAndCommit
    (fun s => s.phase .p2 = .holding 2 (.publishing (some 7)) ∧ s.index = some (some 7))
    emptyState_initial (by decide)
  obtain ⟨hphase, hindex⟩ := of_decide_eq_true hend
  exact ⟨s, hs, hphase, hindex, safe_of_breaksExamined hs⟩

/-- Process `p0` takes the lock and crashes. Both other processes judge it stale; process `p1`
breaks it and takes it anew, and then process `p2` breaks the lock of process `p1`. -/
def twoBreakers : List (Event Trio ℕ ℕ) :=
  [.acquire p0, .crash p0, .tick, .tick, .acquire p1, .acquire p2, .examine p1, .examine p2, .judge p1,
    .judge p2, .breakStale p1, .retry p1, .breakStale p2, .retry p2]

/-- **Two breakers of one stale lock hold it both.** -/
theorem not_safe_of_twoBreakers :
    ¬ ∀ s, Reachable (step exampleConfig (id : ℕ → ℕ)) (fun s _ => Timely exampleConfig s)
      Initial s → Safe s := by
  intro hsafe
  obtain ⟨s, hs, hbad⟩ := exists_reachable_of_exec (step exampleConfig (id : ℕ → ℕ))
    (fun s _ => Timely exampleConfig s) twoBreakers
    (fun s => s.phase .p1 = .holding 2 .ready ∧ s.phase .p2 = .holding 2 .ready) emptyState_initial
    (by decide)
  obtain ⟨h1, h2⟩ := of_decide_eq_true hbad
  have heq := (hsafe s hs).one_holder .p1 .p2 ⟨2, .ready, h1⟩ ⟨2, .ready, h2⟩
  exact absurd heq (by decide)

end Tsgit.IndexLock
