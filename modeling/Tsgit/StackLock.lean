import Tsgit.Error
import Tsgit.Interleaving
import Tsgit.LockPath

/-!
# The Stack Lock without an Atomic Rename

Any number of reftable writers change `tables.list` under `tables.list.lock` on a
platform that cannot rename atomically: they append a table, or a compaction replaces a segment of
the tables by the table it was merged into (or by nothing, when no record is left). A writer commits
in three calls: it writes the new list into the lock file, overwrites `tables.list`, and removes the
lock. A writer that finds the lock taken reads both files, and when their bodies are equal it takes
the commit for completed and its lock for stranded, and removes the lock.

Every filesystem call is one atomic step, the steps interleave freely, and a process may
crash between any two of them. Lock files carry serial numbers, which no process sees. A
compaction takes the list lock twice: first to lock the tables of its segment (acquired and
abandoned), and, when they are merged, to commit. Which segments it takes is left open.

## Main results

* `safe_of_provableBreaks`: one live owner, nothing committed is lost, and no lock of another live
  process is taken away, in every run whose breaks are provable.
* `not_safe_of_breakBeforeRemove`: a break in front of the removal makes two owners.
-/

namespace Tsgit.StackLock

open List Interleaving Interleaving.Trio LockPath

/-! ### The state -/

/-- A file at the lock path. -/
structure LockFile (Pid Name : Type*) where
  serial : ℕ
  creator : Pid
  body : List Name
  deriving DecidableEq

/-- What a writer changes in the list. -/
inductive Change (Name : Type*) where
  /-- `applyReftableUpdates`: the table is written behind the others -/
  | append (name : Name)
  /-- a compaction of the tables of a segment, `merged` being `none` when no record was left -/
  | replace (segment : List Name) (merged : Option Name)
  deriving DecidableEq

/-- The list with a segment spliced out, unless it is no longer there in one piece. -/
def spliceLockedSegment {Name : Type*} [DecidableEq Name] (fresh lockedNames : List Name)
    (mergedName : Option Name) : Option (List Name) :=
  match lockedNames with
  | [] => none
  | first :: _ =>
    let startIndex := fresh.idxOf first
    if startIndex = fresh.length then none
    else
      let slice := (fresh.drop startIndex).take lockedNames.length
      if slice ≠ lockedNames then none
      else
        let before := fresh.take startIndex
        let after := fresh.drop (startIndex + lockedNames.length)
        some (before ++ (mergedName.toList ++ after))

/-- The body that a writer commits over the list it has read. -/
def Change.apply {Name : Type*} [DecidableEq Name] : Change Name → List Name → Option (List Name)
  | .append name, existing => some (existing ++ [name])
  | .replace segment merged, existing => spliceLockedSegment existing segment merged

/-- The tables that a change adds to the list. -/
def Change.added {Name : Type*} : Change Name → List Name
  | .append name => [name]
  | .replace _ merged => merged.toList

/-- The merge that a change puts into the list. -/
def Change.merge {Name : Type*} : Change Name → List (List Name × Option Name)
  | .append _ => []
  | .replace segment merged => [(segment, merged)]

/-- What the owner of the lock does next. -/
inductive Stage (Name : Type*) where
  /-- the list is read next -/
  | acquired
  /-- the list was `existing`; the tables are written, and then the lock's body -/
  | prepared (existing : List Name)
  /-- the lock's body is written; the list is overwritten next -/
  | lockWritten (change : Change Name) (body : List Name)
  /-- the list is overwritten; the lock is removed next -/
  | listWritten
  /-- the lock is released without a commit; it is removed next -/
  | releasing
  deriving DecidableEq

/-- Where a writer stands. -/
inductive Phase (Name : Type*) where
  | idle
  /-- `tryAcquireLock` comes next -/
  | acquiring
  /-- `breakStaleLockIfProvable` reads the lock and the list, in either order -/
  | comparing (lockBody : Option (ℕ × List Name)) (listBody : Option (List Name))
  /-- both bodies were `body`; the lock is removed next -/
  | unlinking (serial : ℕ) (body : List Name)
  /-- the lock stays; the writer sleeps or gives up -/
  | waiting
  | failed (error : TsgitError)
  | owning (stage : Stage Name)
  | crashed
  deriving DecidableEq

/-- The lock file a writer is about to remove: the one it read, and the body it compared. -/
def Phase.compared {Name : Type*} : Phase Name → Option (ℕ × List Name)
  | .unlinking serial body => some (serial, body)
  | _ => none

/-- The body that a writer is about to overwrite the list with. -/
def Phase.lockBody {Name : Type*} : Phase Name → Option (List Name)
  | .owning (.lockWritten _ body) => some body
  | _ => none

/-- `tables.list` is `none` when absent. What no process can see: the tables that writers have
committed, the merges that compactions have, and the lists that there have been. -/
structure State (Pid Name : Type*) where
  nextSerial : ℕ
  lock : Option (LockFile Pid Name)
  list : Option (List Name)
  committed : List Name
  merges : List (List Name × Option Name)
  lists : List (List Name)
  phase : Pid → Phase Name

/-- The names `readFreshStack` sees. -/
def State.names {Pid Name : Type*} (s : State Pid Name) : List Name := s.list.getD []

/-- One atomic step of a writer. -/
inductive Event (Pid Name : Type*) where
  | crash (p : Pid)
  /-- `applyReftableUpdates` begins -/
  | begin (p : Pid)
  | tryAcquire (p : Pid)
  | readLock (p : Pid)
  | readList (p : Pid)
  /-- `removeIfPresent` in `breakStaleLockIfProvable` -/
  | unlink (p : Pid)
  /-- the retry budget is not spent -/
  | retry (p : Pid)
  /-- the retry budget is spent -/
  | giveUp (p : Pid)
  | prepare (p : Pid)
  /-- nothing to write, or a refusal -/
  | abandon (p : Pid)
  /-- `commitListBody`: the body goes into the lock -/
  | writeLock (p : Pid) (change : Change Name)
  /-- `commitListBody`: the list is overwritten -/
  | writeList (p : Pid)
  /-- `commitListBody`: the lock is removed -/
  | removeLock (p : Pid)
  | release (p : Pid)

def Event.actor {Pid Name : Type*} : Event Pid Name → Pid
  | .crash p | .begin p | .tryAcquire p | .readLock p | .readList p | .unlink p | .retry p
  | .giveUp p | .prepare p | .abandon p | .writeLock p _ | .writeList p | .removeLock p
  | .release p => p

variable {Pid Name : Type*}

/-! ### The steps -/

/-- `write` on the lock path. -/
def State.writeLock (s : State Pid Name) (p : Pid) (body : List Name) : State Pid Name :=
  match s.lock with
  | some file => { s with lock := some { file with body := body } }
  | none =>
    { s with nextSerial := s.nextSerial + 1, lock := some ⟨s.nextSerial, p, body⟩ }

/-- `write` on the list path. -/
def State.writeList (s : State Pid Name) (change : Change Name) (body : List Name) :
    State Pid Name :=
  { s with
    list := some body
    committed := change.added ++ s.committed
    merges := change.merge ++ s.merges
    lists := body :: s.lists }

/-- What `breakStaleLockIfProvable` does with the bodies read so far. -/
def compareBodies [DecidableEq Name] :
    Option (ℕ × List Name) → Option (List Name) → Phase Name
  | some (serial, lockBody), some listBody =>
    if lockBody = listBody then .unlinking serial lockBody else .waiting
  | lockBody, listBody => .comparing lockBody listBody

variable [DecidableEq Pid]

def State.setPhase (s : State Pid Name) (p : Pid) (phase : Phase Name) : State Pid Name :=
  { s with phase := Function.update s.phase p phase }

/-- One event, where it can happen. -/
def step [DecidableEq Name] (stackDir : String) (s : State Pid Name) :
    Event Pid Name → Option (State Pid Name)
  | .crash p => some (s.setPhase p .crashed)
  | .begin p =>
    match s.phase p with
    | .idle | .failed _ => some (s.setPhase p .acquiring)
    | _ => none
  | .tryAcquire p =>
    match s.phase p with
    | .acquiring =>
      match s.lock with
      | none =>
        some ({ s with nextSerial := s.nextSerial + 1, lock := some ⟨s.nextSerial, p, []⟩ }.setPhase
          p (.owning .acquired))
      | some _ => some (s.setPhase p (.comparing none none))
    | _ => none
  | .readLock p =>
    match s.phase p with
    | .comparing none listBody =>
      match s.lock with
      | none => some (s.setPhase p .waiting)
      | some file => some (s.setPhase p (compareBodies (some (file.serial, file.body)) listBody))
    | _ => none
  | .readList p =>
    match s.phase p with
    | .comparing lockBody none =>
      match s.list with
      | none => some (s.setPhase p .waiting)
      | some names => some (s.setPhase p (compareBodies lockBody (some names)))
    | _ => none
  | .unlink p =>
    match s.phase p with
    | .unlinking _ _ => some ({ s with lock := none }.setPhase p .acquiring)
    | _ => none
  | .retry p =>
    match s.phase p with
    | .waiting => some (s.setPhase p .acquiring)
    | _ => none
  | .giveUp p =>
    match s.phase p with
    | .waiting =>
      some (s.setPhase p
        (.failed (.reftableLocked stackDir s!"held: {stackDir}/tables.list.lock")))
    | _ => none
  | .prepare p =>
    match s.phase p with
    | .owning .acquired => some (s.setPhase p (.owning (.prepared s.names)))
    | _ => none
  | .abandon p =>
    match s.phase p with
    | .owning .acquired | .owning (.prepared _) => some (s.setPhase p (.owning .releasing))
    | _ => none
  | .writeLock p change =>
    match s.phase p with
    | .owning (.prepared existing) =>
      match change.apply existing with
      | some body => some ((s.writeLock p body).setPhase p (.owning (.lockWritten change body)))
      | none => none
    | _ => none
  | .writeList p =>
    match s.phase p with
    | .owning (.lockWritten change body) =>
      some ((s.writeList change body).setPhase p (.owning .listWritten))
    | _ => none
  | .removeLock p =>
    match s.phase p with
    | .owning .listWritten =>
      match s.lock with
      | none => some (s.setPhase p (.owning .releasing))
      | some _ => some ({ s with lock := none }.setPhase p .idle)
    | _ => none
  | .release p =>
    match s.phase p with
    | .owning .releasing => some ({ s with lock := none }.setPhase p .idle)
    | _ => none

/-- At the start nobody has begun and no lock is there. -/
structure Initial (s : State Pid Name) : Prop where
  lock_eq : s.lock = none
  phase_eq : ∀ p, s.phase p = .idle
  committed_eq : s.committed = []
  merges_eq : s.merges = []
  lists_eq : s.lists = s.list.toList

/-- The live owner of the lock, in its own belief. -/
def Owns (s : State Pid Name) (p : Pid) : Prop := ∃ stage, s.phase p = .owning stage

def Crashed (s : State Pid Name) (p : Pid) : Prop := s.phase p = .crashed

/-! ### What is promised -/

/-- What a step must not do: take away a lock file that another live process created. -/
def SafeStep (s : State Pid Name) (e : Event Pid Name) (t : State Pid Name) : Prop :=
  ∀ file, s.lock = some file → (∀ file', t.lock = some file' → file'.serial ≠ file.serial) →
    e.actor = file.creator ∨ Crashed s file.creator

/-- A table is kept: it is listed, or a compaction merged it into a table that is kept, or into none
because no record of its segment was left. -/
inductive Kept (listed : List Name) (merges : List (List Name × Option Name)) : Name → Prop
  | listed {name : Name} (hname : name ∈ listed) : Kept listed merges name
  | merged {name : Name} {segment : List Name} {into : Option Name}
      (hmerge : (segment, into) ∈ merges) (hname : name ∈ segment)
      (hinto : ∀ table ∈ into, Kept listed merges table) : Kept listed merges name

/-- What the stack lock promises of a state: one live owner at most, and every committed table is
kept. -/
structure Safe (s : State Pid Name) : Prop where
  one_owner : ∀ p q, Owns s p → Owns s q → p = q
  committed_kept : ∀ name ∈ s.committed, Kept s.names s.merges name

/-- A break is provable: the lock file removed is the one whose body was compared, that body was not
empty, no live writer stands between its overwrite of the list and its removal of the lock, and
none is about to overwrite the list with one that it has been before. -/
def ProvableBreak (s : State Pid Name) : Event Pid Name → Prop
  | .unlink p => ∀ compared ∈ (s.phase p).compared,
      (∀ file ∈ s.lock, file.serial = compared.1) ∧ compared.2 ≠ [] ∧
        ∀ q, s.phase q ≠ .owning .listWritten ∧ ∀ body ∈ (s.phase q).lockBody, body ∉ s.lists
  | _ => True

/-- From one list to the next, as a relation. -/
def Change.Leads : Change Name → List Name → List Name → Prop
  | .append name, existing, body => body = existing ++ [name]
  | .replace segment merged, existing, body => ∃ before after,
      existing = before ++ (segment ++ after) ∧ body = before ++ (merged.toList ++ after)

variable {change : Change Name} {existing body : List Name}

theorem Change.leads_of_apply [DecidableEq Name] (h : change.apply existing = some body) :
    change.Leads existing body := by
  cases change with
  | append name => exact (Option.some.inj h).symm
  | replace segment merged =>
    cases segment with
    | nil => cases h
    | cons first rest =>
      simp only [Change.apply, spliceLockedSegment] at h
      split at h
      · cases h
      split at h
      · cases h
      next hslice =>
      have hpiece := not_not.mp hslice
      refine ⟨existing.take (existing.idxOf first),
        existing.drop (existing.idxOf first + (first :: rest).length), ?_,
        (Option.some.inj h).symm⟩
      rw [← drop_drop]
      conv_lhs => rw [← take_append_drop (existing.idxOf first) existing,
        ← take_append_drop (first :: rest).length (existing.drop (existing.idxOf first)),
        hpiece]

/-! ### What a step can do -/

/-- The phases a step that touches neither file may lead `p` to. -/
inductive Moves (s : State Pid Name) (p : Pid) : Phase Name → Prop
  | crash : Moves s p .crashed
  | plain {phase : Phase Name} (hfree : ¬Owns s p) (hlive : ¬Crashed s p)
      (hplain : phase = .acquiring ∨ phase = .waiting ∨ phase = .comparing none none ∨
        ∃ error, phase = .failed error) : Moves s p phase
  | sawLock {listBody : Option (List Name)} {file : LockFile Pid Name}
      (hphase : s.phase p = .comparing none listBody) (hlock : s.lock = some file) :
      Moves s p (.comparing (some (file.serial, file.body)) listBody)
  | sawList {lockBody : Option (ℕ × List Name)} {names : List Name}
      (hphase : s.phase p = .comparing lockBody none) (hlist : s.list = some names) :
      Moves s p (.comparing lockBody (some names))
  | sawEqualLock {file : LockFile Pid Name}
      (hphase : s.phase p = .comparing none (some file.body)) (hlock : s.lock = some file) :
      Moves s p (.unlinking file.serial file.body)
  | sawEqualList {serial : ℕ} {names : List Name}
      (hphase : s.phase p = .comparing (some (serial, names)) none)
      (hlist : s.list = some names) : Moves s p (.unlinking serial names)
  | prepare (hphase : s.phase p = .owning .acquired) : Moves s p (.owning (.prepared s.names))
  | abandon (hphase : s.phase p = .owning .acquired ∨
      (∃ existing, s.phase p = .owning (.prepared existing)) ∨ Owns s p ∧ s.lock = none) :
      Moves s p (.owning .releasing)

/-- **What a step can do**, said once. -/
inductive Effect (s : State Pid Name) : Event Pid Name → State Pid Name → Prop
  | move {e : Event Pid Name} {phase : Phase Name} (hmove : Moves s e.actor phase) :
      Effect s e (s.setPhase e.actor phase)
  | acquire {p : Pid} (hphase : s.phase p = .acquiring) (hlock : s.lock = none) :
      Effect s (.tryAcquire p)
        ({ s with nextSerial := s.nextSerial + 1, lock := some ⟨s.nextSerial, p, []⟩ }.setPhase p
          (.owning .acquired))
  | unlink {p : Pid} {serial : ℕ} {body : List Name} (hphase : s.phase p = .unlinking serial body) :
      Effect s (.unlink p) ({ s with lock := none }.setPhase p .acquiring)
  | writeLock {p : Pid} {existing body : List Name} {change : Change Name}
      (hphase : s.phase p = .owning (.prepared existing)) (hleads : change.Leads existing body) :
      Effect s (.writeLock p change)
        ((s.writeLock p body).setPhase p (.owning (.lockWritten change body)))
  | writeList {p : Pid} {change : Change Name} {body : List Name}
      (hphase : s.phase p = .owning (.lockWritten change body)) :
      Effect s (.writeList p) ((s.writeList change body).setPhase p (.owning .listWritten))
  | remove {e : Event Pid Name} (howns : Owns s e.actor) :
      Effect s e ({ s with lock := none }.setPhase e.actor .idle)

section

variable [DecidableEq Name] {stackDir : String} {s t : State Pid Name}

omit [DecidableEq Pid] [DecidableEq Name] in
/-- A plain move of a process that neither owns nor crashed. -/
theorem Moves.aside {p : Pid} {phase next : Phase Name} (hphase : s.phase p = phase)
    (hfree : ∀ stage, phase ≠ .owning stage) (hlive : phase ≠ .crashed)
    (hplain : next = .acquiring ∨ next = .waiting ∨ next = .comparing none none ∨
      ∃ error, next = .failed error) : Moves s p next := by
  refine .plain ?_ (by rwa [Crashed, hphase]) hplain
  rintro ⟨stage, hstage⟩
  exact hfree stage (hphase.symm.trans hstage)

theorem effect_of_step {e : Event Pid Name} (h : step stackDir s e = some t) : Effect s e t := by
  cases e with
  | crash p =>
    cases h
    exact .move .crash
  | begin p =>
    simp only [step] at h
    split at h
    · next hphase =>
      cases h
      exact .move (.aside hphase nofun nofun (.inl rfl))
    · next error hphase =>
      cases h
      exact .move (.aside hphase nofun nofun (.inl rfl))
    · cases h
  | tryAcquire p =>
    simp only [step] at h
    split at h
    · next hphase =>
      split at h
      · next hlock =>
        cases h
        exact .acquire hphase hlock
      · cases h
        exact .move (.plain (by simp [Owns, Event.actor, hphase])
          (by simp [Crashed, Event.actor, hphase]) (.inr (.inr (.inl rfl))))
    · cases h
  | readLock p =>
    simp only [step] at h
    split at h
    · next listBody hphase =>
      split at h
      · cases h
        exact .move (.aside hphase nofun nofun (.inr (.inl rfl)))
      · next file hlock =>
        cases h
        cases listBody with
        | none => exact .move (.sawLock hphase hlock)
        | some names =>
          simp only [compareBodies]
          split
          · next heq => exact .move (.sawEqualLock (heq ▸ hphase) hlock)
          · exact .move (.aside hphase nofun nofun (.inr (.inl rfl)))
    · cases h
  | readList p =>
    simp only [step] at h
    split at h
    · next lockBody hphase =>
      split at h
      · cases h
        exact .move (.aside hphase nofun nofun (.inr (.inl rfl)))
      · next names hlist =>
        cases h
        match lockBody with
        | none => exact .move (.sawList hphase hlist)
        | some (serial, body) =>
          simp only [compareBodies]
          split
          · next heq =>
            subst heq
            exact .move (.sawEqualList hphase hlist)
          · exact .move (.aside hphase nofun nofun (.inr (.inl rfl)))
    · cases h
  | unlink p =>
    simp only [step] at h
    split at h
    · next hphase =>
      cases h
      exact .unlink hphase
    · cases h
  | retry p =>
    simp only [step] at h
    split at h
    · next hphase =>
      cases h
      exact .move (.aside hphase nofun nofun (.inl rfl))
    · cases h
  | giveUp p =>
    simp only [step] at h
    split at h
    · next hphase =>
      cases h
      exact .move (.aside hphase nofun nofun (.inr (.inr (.inr ⟨_, rfl⟩))))
    · cases h
  | prepare p =>
    simp only [step] at h
    split at h
    · next hphase =>
      cases h
      exact .move (.prepare hphase)
    · cases h
  | abandon p =>
    simp only [step] at h
    split at h
    · next hphase =>
      cases h
      exact .move (.abandon (.inl hphase))
    · next existing hphase =>
      cases h
      exact .move (.abandon (.inr (.inl ⟨existing, hphase⟩)))
    · cases h
  | writeLock p change =>
    simp only [step] at h
    split at h
    · next existing hphase =>
      split at h
      · next body hbody =>
        cases h
        exact .writeLock hphase (Change.leads_of_apply hbody)
      · cases h
    · cases h
  | writeList p =>
    simp only [step] at h
    split at h
    · next change body hphase =>
      cases h
      exact .writeList hphase
    · cases h
  | removeLock p =>
    simp only [step] at h
    split at h
    · next hphase =>
      split at h
      · next hlock =>
        cases h
        exact .move (.abandon (.inr (.inr ⟨⟨_, hphase⟩, hlock⟩)))
      · cases h
        exact .remove ⟨_, hphase⟩
    · cases h
  | release p =>
    simp only [step] at h
    split at h
    · next hphase =>
      cases h
      exact .remove ⟨_, hphase⟩
    · cases h

end

/-! ### The invariant -/

/-- What is left of having read the lock: while that file is at the path and what was read was not
empty, the file has the body read. -/
def SawLock (s : State Pid Name) (serial : ℕ) (body : List Name) : Prop :=
  serial < s.nextSerial ∧
    ∀ file, s.lock = some file → file.serial = serial → body ≠ [] → file.body = body

/-- What is left of having read the list. -/
def SawList (s : State Pid Name) (names : List Name) : Prop := names ∈ s.lists

def Knows (s : State Pid Name) : Phase Name → Prop
  | .comparing lockBody listBody =>
    (∀ read, lockBody = some read → SawLock s read.1 read.2) ∧
      ∀ names, listBody = some names → SawList s names
  | .unlinking serial body => SawLock s serial body ∧ SawList s body
  | .owning (.prepared existing) =>
    existing = s.names ∧ ∀ file, s.lock = some file → file.body = []
  | .owning (.lockWritten change body) =>
    change.Leads s.names body ∧ ∀ file, s.lock = some file → file.body = body
  | .owning .acquired | .owning .releasing => ∀ file, s.lock = some file → file.body = []
  | _ => True

/-- The invariant: the lock is owned, every writer knows what its phase says, the list is one of
those that there have been, and the committed tables are kept. -/
structure Inv (s : State Pid Name) : Prop where
  owned : Owned LockFile.creator s.lock (Owns s) (Crashed s)
  serial_lt : ∀ file, s.lock = some file → file.serial < s.nextSerial
  knows : ∀ p, Knows s (s.phase p)
  list_mem : ∀ names, s.list = some names → names ∈ s.lists
  committed_kept : ∀ name ∈ s.committed, Kept s.names s.merges name

section

variable {s t : State Pid Name}

omit [DecidableEq Pid] in
theorem Knows.frame {phase : Phase Name} (h : Knows s phase) (hfree : ∀ stage, phase ≠ .owning stage)
    (hlock : ∀ serial body, SawLock s serial body → SawLock t serial body)
    (hlists : ∀ names ∈ s.lists, names ∈ t.lists) : Knows t phase := by
  cases phase with
  | comparing lockBody listBody =>
    exact ⟨fun read hread => hlock _ _ (h.1 read hread),
      fun names hnames => hlists names (h.2 names hnames)⟩
  | unlinking serial body => exact ⟨hlock _ _ h.1, hlists body h.2⟩
  | owning stage => exact absurd rfl (hfree stage)
  | idle => trivial
  | acquiring => trivial
  | waiting => trivial
  | failed error => trivial
  | crashed => trivial

variable {phase : Phase Name}

theorem knows_setPhase (s : State Pid Name) (p : Pid) (phase' : Phase Name) :
    Knows (s.setPhase p phase') phase ↔ Knows s phase := by
  cases phase with
  | owning stage => cases stage <;> exact Iff.rfl
  | _ => exact Iff.rfl

theorem phase_setPhase (s : State Pid Name) (p q : Pid) (phase : Phase Name) :
    (s.setPhase p phase).phase q = if q = p then phase else s.phase q := by
  simp [State.setPhase, Function.update_apply]

variable {p : Pid}

theorem owns_setPhase {q : Pid} :
    Owns (s.setPhase p phase) q ↔
      (q = p ∧ ∃ stage, phase = .owning stage) ∨ (q ≠ p ∧ Owns s q) := by
  simp only [Owns, phase_setPhase]
  by_cases hq : q = p <;> simp [hq]

theorem crashed_setPhase {q : Pid} :
    Crashed (s.setPhase p phase) q ↔ (q = p ∧ phase = .crashed) ∨ (q ≠ p ∧ Crashed s q) := by
  simp only [Crashed, phase_setPhase]
  by_cases hq : q = p <;> simp [hq]

omit [DecidableEq Pid] in
/-- A crashed process owns nothing. -/
theorem Owns.not_crashed (h : Owns s p) : ¬Crashed s p := by
  obtain ⟨stage, hstage⟩ := h
  simp [Crashed, hstage]

omit [DecidableEq Pid] in
theorem Initial.inv (h : Initial s) : Inv s where
  owned := by
    rw [h.lock_eq]
    exact .empty fun p => by simp [Owns, h.phase_eq p]
  serial_lt file hfile := by simp [h.lock_eq] at hfile
  knows p := by simp [h.phase_eq p, Knows]
  list_mem names hnames := by simp [h.lists_eq, hnames]
  committed_kept name hname := by simp [h.committed_eq] at hname

omit [DecidableEq Pid] in
theorem Moves.spec (hmove : Moves s p phase) (h : Inv s) :
    ((∃ stage, phase = .owning stage) → Owns s p) ∧
      (Owns s p → (∃ stage, phase = .owning stage) ∨ phase = .crashed) ∧
      (Crashed s p → phase = .crashed) ∧ Knows s phase := by
  have hknows := h.knows p
  cases hmove with
  | crash => exact ⟨by simp, fun _ => .inr rfl, fun _ => rfl, trivial⟩
  | plain hfree hlive hplain =>
    refine ⟨?_, fun hp => absurd hp hfree, fun hp => absurd hp hlive, ?_⟩
    · rintro ⟨stage, rfl⟩
      simp at hplain
    · rcases hplain with rfl | rfl | rfl | ⟨error, rfl⟩ <;> simp [Knows]
  | @sawLock listBody file hphase hlock =>
    rw [hphase] at hknows
    refine ⟨by simp, by simp [Owns, hphase], by simp [Crashed, hphase], ?_, hknows.2⟩
    intro read hread
    cases hread
    refine ⟨h.serial_lt file hlock, fun file' hfile' _ _ => ?_⟩
    rw [hlock] at hfile'
    cases hfile'
    rfl
  | @sawList lockBody names hphase hlist =>
    rw [hphase] at hknows
    refine ⟨by simp, by simp [Owns, hphase], by simp [Crashed, hphase], hknows.1, ?_⟩
    intro names' hnames'
    cases hnames'
    exact h.list_mem names hlist
  | @sawEqualLock file hphase hlock =>
    rw [hphase] at hknows
    refine ⟨by simp, by simp [Owns, hphase], by simp [Crashed, hphase], ?_, hknows.2 _ rfl⟩
    refine ⟨h.serial_lt file hlock, fun file' hfile' _ _ => ?_⟩
    rw [hlock] at hfile'
    cases hfile'
    rfl
  | @sawEqualList serial names hphase hlist =>
    rw [hphase] at hknows
    refine ⟨by simp, by simp [Owns, hphase], by simp [Crashed, hphase], hknows.1 _ rfl, ?_⟩
    exact h.list_mem names hlist
  | prepare hphase =>
    rw [hphase] at hknows
    exact ⟨fun _ => ⟨_, hphase⟩, fun _ => .inl ⟨_, rfl⟩, by simp [Crashed, hphase], rfl, hknows⟩
  | abandon hphase =>
    have howns : Owns s p := by
      rcases hphase with hphase | ⟨existing, hphase⟩ | ⟨howns, -⟩
      · exact ⟨_, hphase⟩
      · exact ⟨_, hphase⟩
      · exact howns
    refine ⟨fun _ => howns, fun _ => .inl ⟨_, rfl⟩, fun hp => absurd hp howns.not_crashed, ?_⟩
    rcases hphase with hphase | ⟨existing, hphase⟩ | ⟨-, hlock⟩
    · rw [hphase] at hknows
      exact hknows
    · rw [hphase] at hknows
      exact hknows.2
    · intro file hfile
      rw [hlock] at hfile
      cases hfile

theorem Inv.move (h : Inv s) (hmove : Moves s p phase) :
    Inv (s.setPhase p phase) := by
  obtain ⟨howns, hstays, hgone, hknows⟩ := hmove.spec h
  refine ⟨?_, h.serial_lt, fun q => ?_, h.list_mem, h.committed_kept⟩
  · refine h.owned.keep rfl (fun q hq => ?_) (fun q hq => ?_) fun q hq => ?_
    · rcases owns_setPhase.mp hq with ⟨rfl, hstage⟩ | ⟨-, hq⟩
      · exact howns hstage
      · exact hq
    · rw [owns_setPhase, crashed_setPhase]
      by_cases heq : q = p
      · subst heq
        rcases hstays hq with hstage | hcrashed
        · exact .inl (.inl ⟨rfl, hstage⟩)
        · exact .inr (.inl ⟨rfl, hcrashed⟩)
      · exact .inl (.inr ⟨heq, hq⟩)
    · rw [crashed_setPhase]
      by_cases heq : q = p
      · subst heq
        exact .inl ⟨rfl, hgone hq⟩
      · exact .inr ⟨heq, hq⟩
  · rw [knows_setPhase, phase_setPhase]
    split
    · exact hknows
    · exact h.knows q

theorem Inv.of_outside (h : Inv s) (houtside : ∀ q, q ≠ p → ¬Owns s q) (hphases : t.phase = s.phase)
    (howned : Owned LockFile.creator t.lock (Owns (t.setPhase p phase))
      (Crashed (t.setPhase p phase)))
    (hserial : ∀ file, t.lock = some file → file.serial < t.nextSerial) (hknows : Knows t phase)
    (hlock : ∀ serial body, SawLock s serial body → SawLock t serial body)
    (hlists : ∀ names ∈ s.lists, names ∈ t.lists)
    (hlist : ∀ names, t.list = some names → names ∈ t.lists)
    (hcommitted : ∀ name ∈ t.committed, Kept t.names t.merges name) :
    Inv (t.setPhase p phase) where
  owned := howned
  serial_lt := hserial
  knows q := by
    rw [knows_setPhase, phase_setPhase]
    split
    · exact hknows
    · next hne =>
      rw [hphases]
      refine (h.knows q).frame (fun stage hstage => houtside q hne ⟨stage, hstage⟩) hlock hlists
  list_mem := hlist
  committed_kept := hcommitted

theorem Inv.acquire (h : Inv s) (hlock : s.lock = none) :
    Inv ({ s with nextSerial := s.nextSerial + 1, lock := some ⟨s.nextSerial, p, []⟩ }.setPhase p
      (.owning .acquired)) := by
  have howned := h.owned
  rw [hlock] at howned
  refine h.of_outside (fun q _ => howned.free q) rfl ?_ ?_ ?_ ?_ (fun _ hnames => hnames)
    h.list_mem h.committed_kept
  · refine howned.create (owns_setPhase.mpr (.inl ⟨rfl, _, rfl⟩)) fun q hq => ?_
    rcases owns_setPhase.mp hq with ⟨heq, -⟩ | ⟨-, hq⟩
    · exact .inl heq
    · exact .inr hq
  · intro file hfile
    cases hfile
    exact Nat.lt_succ_self _
  · intro file hfile
    cases hfile
    rfl
  · rintro serial body ⟨hserial, -⟩
    refine ⟨Nat.lt_succ_of_lt hserial, fun file hfile heq _ => ?_⟩
    cases hfile
    exact absurd heq (Nat.ne_of_gt hserial)

theorem Inv.removeLock (h : Inv s)
    (houtside : ∀ q, q ≠ p → ¬Owns s q) (hphase : phase = .acquiring ∨ phase = .idle) :
    Inv ({ s with lock := none }.setPhase p phase) := by
  refine h.of_outside houtside rfl ?_ (by simp) ?_ ?_ (fun _ hnames => hnames) h.list_mem
    h.committed_kept
  · refine .empty fun q hq => ?_
    rcases owns_setPhase.mp hq with ⟨-, stage, hstage⟩ | ⟨hne, hq⟩
    · rcases hphase with rfl | rfl <;> cases hstage
    · exact houtside q hne hq
  · rcases hphase with rfl | rfl <;> trivial
  · rintro serial body ⟨hserial, -⟩
    exact ⟨hserial, by simp⟩

omit [DecidableEq Pid] in
/-- **A provable break removes a stranded lock.** Were its creator alive, the condition would
exclude that it has overwritten the list, and the list that was read that it has not: the body is
one that the list has not been before. -/
theorem Inv.crashed_of_provableBreak {serial : ℕ} {body : List Name}
    {file : LockFile Pid Name} (h : Inv s) (hphase : s.phase p = .unlinking serial body)
    (hbreak : ProvableBreak s (.unlink p)) (hlock : s.lock = some file) :
    Crashed s file.creator := by
  obtain ⟨hserial, hbody, hlisted⟩ := hbreak (serial, body) (by simp [hphase, Phase.compared])
  have hread := h.knows p
  rw [hphase] at hread
  obtain ⟨⟨-, hsaw⟩, hlist⟩ := hread
  have hcompared : file.body = body := hsaw file hlock (hserial file hlock) hbody
  rcases h.owned.holder_of_file file hlock with hcrashed | ⟨stage, hstage⟩
  · exact hcrashed
  have hknows := h.knows file.creator
  rw [hstage] at hknows
  cases stage with
  | acquired => exact absurd (hcompared.symm.trans (hknows file hlock)) hbody
  | releasing => exact absurd (hcompared.symm.trans (hknows file hlock)) hbody
  | prepared existing => exact absurd (hcompared.symm.trans (hknows.2 file hlock)) hbody
  | listWritten => exact absurd hstage (hlisted file.creator).1
  | lockWritten change written =>
    have hbodies : written = body := (hknows.2 file hlock).symm.trans hcompared
    have hnew := (hlisted file.creator).2 written (by simp [hstage, Phase.lockBody])
    exact absurd hlist (hbodies ▸ hnew)

omit [DecidableEq Pid] in
theorem Inv.file_of_owns (h : Inv s) (howns : Owns s p) :
    ∃ file, s.lock = some file ∧ file.creator = p ∧ ∀ q, q ≠ p → ¬Owns s q := by
  obtain ⟨file, hlock, hcreator⟩ := h.owned.file_of_holder p howns
  exact ⟨file, hlock, hcreator, fun q hne hq => hne (h.owned.unique hq howns)⟩

theorem Inv.owned_of_owns {stage : Stage Name} (h : Inv s) (howns : Owns s p)
    (hphases : t.phase = s.phase)
    (hlock : t.lock.map LockFile.creator = s.lock.map LockFile.creator) :
    Owned LockFile.creator t.lock (Owns (t.setPhase p (.owning stage)))
      (Crashed (t.setPhase p (.owning stage))) := by
  have howns_iff : ∀ q, Owns t q ↔ Owns s q := fun q => by simp only [Owns, hphases]
  have hcrashed_iff : ∀ q, Crashed t q ↔ Crashed s q := fun q => by simp only [Crashed, hphases]
  refine h.owned.keep hlock (fun q hq => ?_) (fun q hq => .inl ?_) fun q hq => ?_
  · rcases owns_setPhase.mp hq with ⟨rfl, -⟩ | ⟨-, hq⟩
    · exact howns
    · exact (howns_iff q).mp hq
  · rw [owns_setPhase, howns_iff]
    by_cases heq : q = p
    · exact .inl ⟨heq, stage, rfl⟩
    · exact .inr ⟨heq, hq⟩
  · rw [crashed_setPhase, hcrashed_iff]
    refine .inr ⟨fun heq => ?_, hq⟩
    subst heq
    exact howns.not_crashed hq

theorem Inv.writeLock {existing body : List Name} {change : Change Name} (h : Inv s)
    (hphase : s.phase p = .owning (.prepared existing)) (hleads : change.Leads existing body) :
    Inv ((s.writeLock p body).setPhase p (.owning (.lockWritten change body))) := by
  obtain ⟨file, hlock, -, houtside⟩ := h.file_of_owns ⟨_, hphase⟩
  have hknows := h.knows p
  rw [hphase] at hknows
  obtain ⟨rfl, hbodies⟩ := hknows
  have hempty : file.body = [] := hbodies file hlock
  have hwrite : s.writeLock p body = { s with lock := some { file with body := body } } := by
    simp only [State.writeLock, hlock]
  rw [hwrite]
  refine h.of_outside houtside rfl
    (h.owned_of_owns ⟨_, hphase⟩ rfl (by simp [hlock])) ?_ ⟨hleads, ?_⟩ ?_
    (fun _ hnames => hnames) h.list_mem h.committed_kept
  · intro file' hfile'
    cases hfile'
    exact h.serial_lt file hlock
  · intro file' hfile'
    cases hfile'
    rfl
  · rintro serial body ⟨hserial, hsaw⟩
    refine ⟨hserial, fun file' hfile' heq hbody => ?_⟩
    cases hfile'
    exact absurd ((hsaw file hlock heq hbody).symm.trans hempty) hbody

omit [DecidableEq Pid] in
/-- A change adds its tables to the list. -/
theorem Change.Leads.mem_added
    (h : change.Leads existing body) {name : Name} (hname : name ∈ change.added) :
    name ∈ body := by
  cases change with
  | append appended =>
    obtain rfl := h
    exact mem_append_right _ hname
  | replace segment merged =>
    obtain ⟨before, after, -, rfl⟩ := h
    exact mem_append_right _ (mem_append_left _ hname)

omit [DecidableEq Pid] in
/-- **No change loses a table**: what it takes out of the list it has merged. -/
theorem Change.Leads.kept
    (h : change.Leads existing body) {merges : List (List Name × Option Name)} {name : Name}
    (hkept : Kept existing merges name) : Kept body (change.merge ++ merges) name := by
  induction hkept with
  | merged hmerge hname hinto ih =>
    exact .merged (mem_append_right _ hmerge) hname ih
  | @listed name hname =>
    cases change with
    | append appended =>
      obtain rfl := h
      exact .listed (mem_append_left _ hname)
    | replace segment merged =>
      obtain ⟨before, after, rfl, rfl⟩ := h
      rcases mem_append.mp hname with hbefore | hname
      · exact .listed (mem_append_left _ hbefore)
      rcases mem_append.mp hname with hsegment | hafter
      · refine .merged (mem_append_left _ mem_cons_self) hsegment fun table htable => ?_
        exact .listed (mem_append_right _ (mem_append_left _
          (Option.mem_toList.mpr htable)))
      · exact .listed (mem_append_right _ (mem_append_right _ hafter))

theorem Inv.writeList {body : List Name} (h : Inv s)
    (hphase : s.phase p = .owning (.lockWritten change body)) :
    Inv ((s.writeList change body).setPhase p (.owning .listWritten)) := by
  obtain ⟨file, hlock, -, houtside⟩ := h.file_of_owns ⟨_, hphase⟩
  have hknows := h.knows p
  rw [hphase] at hknows
  obtain ⟨hleads, -⟩ := hknows
  refine h.of_outside houtside rfl (h.owned_of_owns ⟨_, hphase⟩ rfl rfl) h.serial_lt
    trivial (fun _ _ hsaw => hsaw) (fun _ hnames => mem_cons_of_mem _ hnames) ?_ ?_
  · intro names hnames
    cases hnames
    exact mem_cons_self
  · intro name hname
    rcases mem_append.mp hname with hadded | hold
    · exact .listed (hleads.mem_added hadded)
    · exact hleads.kept (h.committed_kept name hold)

theorem Inv.effect {e : Event Pid Name} (h : Inv s) (hbreak : ProvableBreak s e)
    (heffect : Effect s e t) : Inv t := by
  cases heffect with
  | move hmove => exact h.move hmove
  | acquire _ hlock => exact h.acquire hlock
  | unlink hphase =>
    refine h.removeLock (fun q _ hq => ?_) (.inl rfl)
    obtain ⟨file, hlock, hcreator, -⟩ := h.file_of_owns hq
    exact hq.not_crashed (hcreator ▸ h.crashed_of_provableBreak hphase hbreak hlock)
  | writeLock hphase hleads => exact h.writeLock hphase hleads
  | writeList hphase => exact h.writeList hphase
  | remove howns =>
    obtain ⟨_, -, -, houtside⟩ := h.file_of_owns howns
    exact h.removeLock houtside (.inr rfl)

theorem Inv.safeStep {e : Event Pid Name} (h : Inv s) (hbreak : ProvableBreak s e)
    (heffect : Effect s e t) : SafeStep s e t := by
  intro file hlock hgone
  cases heffect with
  | move => exact absurd rfl (hgone file hlock)
  | acquire _ hnone =>
    rw [hnone] at hlock
    cases hlock
  | unlink hphase => exact .inr (h.crashed_of_provableBreak hphase hbreak hlock)
  | @writeLock p existing body change hphase =>
    exact absurd rfl (hgone { file with body := body }
      (by simp [State.setPhase, State.writeLock, hlock]))
  | writeList => exact absurd rfl (hgone file hlock)
  | remove howns => exact .inl (h.owned.creator_eq howns hlock).symm

omit [DecidableEq Pid] in
theorem Inv.safe (h : Inv s) : Safe s :=
  ⟨fun _ _ hp hq => h.owned.unique hp hq, h.committed_kept⟩

end

/-! ### The protocol -/

variable [DecidableEq Name]

/-- **The stack lock is safe when breaks are provable.** In every such run one live writer at most
owns the lock, every committed table is kept, and no step takes away the lock of another. -/
theorem safe_of_provableBreaks {stackDir : String} {s : State Pid Name}
    (h : Reachable (step stackDir) ProvableBreak Initial s) :
    Safe s ∧ ∀ e t, ProvableBreak s e → step stackDir s e = some t → SafeStep s e t := by
  have hinv : Inv s := h.invariant (fun _ hs => hs.inv)
    fun _ _ _ hs hok ht => hs.effect hok (effect_of_step ht)
  exact ⟨hinv.safe, fun e t hbreak ht => hinv.safeStep hbreak (effect_of_step ht)⟩

/-- Three writers and a list of one table. -/
def emptyState : State Trio ℕ := ⟨0, none, some [0], [], [], [[0]], fun _ => .idle⟩

theorem emptyState_initial : Initial emptyState := ⟨rfl, fun _ => rfl, rfl, rfl, rfl⟩

instance (s : State Trio ℕ) (e : Event Trio ℕ) : Decidable (ProvableBreak s e) :=
  match e with
  | .unlink p =>
    inferInstanceAs (Decidable (∀ compared ∈ (s.phase p).compared,
      (∀ file ∈ s.lock, file.serial = compared.1) ∧ compared.2 ≠ [] ∧
        ∀ q, s.phase q ≠ .owning .listWritten ∧ ∀ body ∈ (s.phase q).lockBody, body ∉ s.lists))
  | .crash _ | .begin _ | .tryAcquire _ | .readLock _ | .readList _ | .retry _ | .giveUp _
  | .prepare _ | .abandon _ | .writeLock _ _ | .writeList _ | .removeLock _ | .release _ =>
    isTrue trivial

/-- A table is appended and its writer crashes; the next writer breaks the lock and appends another
one, and a third one compacts the two. -/
def breakStranded : List (Event Trio ℕ) :=
  [.begin p0, .tryAcquire p0, .prepare p0, .writeLock p0 (.append 1), .writeList p0, .crash p0,
    .begin p1, .tryAcquire p1, .readList p1, .readLock p1, .unlink p1, .tryAcquire p1, .prepare p1,
    .writeLock p1 (.append 2), .writeList p1, .removeLock p1, .begin p2, .tryAcquire p2,
    .prepare p2, .writeLock p2 (.replace [1, 2] (some 3)), .writeList p2]

/-- The stack lock's promise at the end of a run that breaks a stranded lock. -/
theorem safe_after_breakStranded :
    ∃ s : State Trio ℕ, Reachable (step "reftable") ProvableBreak Initial s ∧
      s.phase .p2 = .owning .listWritten ∧ s.list = some [0, 3] ∧ s.committed = [3, 2, 1] ∧
      (Safe s ∧ ∀ e t, ProvableBreak s e → step "reftable" s e = some t → SafeStep s e t) := by
  obtain ⟨s, hs, hend⟩ := exists_reachable_of_exec (step "reftable")
    ProvableBreak breakStranded
    (fun s => s.phase .p2 = .owning .listWritten ∧ s.list = some [0, 3] ∧ s.committed = [3, 2, 1])
    emptyState_initial (by decide)
  obtain ⟨hphase, hlist, hcommitted⟩ := of_decide_eq_true hend
  exact ⟨s, hs, hphase, hlist, hcommitted, safe_of_provableBreaks hs⟩

def breakBeforeRemove : List (Event Trio ℕ) :=
  [.begin p0, .tryAcquire p0, .prepare p0, .writeLock p0 (.append 1), .begin p1, .tryAcquire p1,
    .writeList p0, .readLock p1, .readList p1, .unlink p1, .tryAcquire p1, .removeLock p0, .begin p2,
    .tryAcquire p2]

/-- **Two live writers own the lock.** -/
theorem not_safe_of_breakBeforeRemove :
    ¬ ∀ s : State Trio ℕ, Reachable (step "reftable") (fun _ _ => True) Initial s →
      Safe s := by
  intro hsafe
  obtain ⟨s, hs, hbad⟩ := exists_reachable_of_exec (step "reftable")
    (fun _ _ => True) breakBeforeRemove
    (fun s => s.phase .p1 = .owning .acquired ∧ s.phase .p2 = .owning .acquired) emptyState_initial
    (by decide)
  obtain ⟨h1, h2⟩ := of_decide_eq_true hbad
  have heq := (hsafe s hs).one_owner .p1 .p2 ⟨_, h1⟩ ⟨_, h2⟩
  exact absurd heq (by decide)

end Tsgit.StackLock
