import Tsgit.Dict
import Tsgit.Interleaving
import Tsgit.LockPath

/-!
# The Files Ref Store

Processes that update one ref each, and processes that pack refs, over one files ref
store: the loose files, `packed-refs` and their lock files. Every filesystem call is one
atomic step, the steps interleave freely, and a process may crash between any two of them.

* a set creates `<loose>.lock` with its content and renames it onto the loose file;
* a delete locks the loose file and `packed-refs`, rewrites the one and removes the other;
* `packRefs` writes what it lists over `packed-refs` and removes the loose files of it.

Loose files are regular files whose content parses. No process sees `history`, what has taken effect so
far, and its lengths: `born`, when a loose file was created, and the `began` of an update.
-/

namespace Tsgit.RefStore

open LockPath

/-! ### Refs and updates -/

/-- What `resolveDirect` answers for a ref that is not missing. -/
inductive Value (Name Id : Type*)
  | direct (id : Id)
  | symbolic (target : Name)
  deriving DecidableEq

/-- What `checkExpected` compares: an id, or `none` for `'absent'`. -/
def Value.actual {Name Id : Type*} : Option (Value Name Id) → Option Id
  | some (.direct id) => some id
  | _ => none

/-- The kinds of update that write. -/
inductive Change (Name Id : Type*)
  | set (id : Id)
  | setSymbolic (target : Name)
  | delete
  deriving DecidableEq

/-- The value an update leaves. -/
def Change.result {Name Id : Type*} : Change Name Id → Option (Value Name Id)
  | .set id => some (.direct id)
  | .setSymbolic target => some (.symbolic target)
  | .delete => none

/-- A `RefUpdate`. `expected` is `none` when nothing is expected, and `some none` is
`'absent'`. -/
structure Update (Name Id : Type*) where
  name : Name
  change : Change Name Id
  expected : Option (Option Id)
  deriving DecidableEq

/-- The refusals. -/
inductive Refusal (Name Id : Type*)
  | refUpdateConflict (name : Name) (expected actual : Option Id)
  | refLocked (name : Name)
  | packedRefsLocked
  | fileNotFound (name : Name)
  /-- a name conflict or a reflog that cannot be written -/
  | other
  deriving DecidableEq

/-! ### Where a process stands -/

/-- The stages of a delete behind its loose lock. -/
inductive DeleteStage (Name Id : Type*)
  /-- `packed-refs.lock` is created next -/
  | lockingPacked
  /-- `loadPackedRefs` comes next -/
  | loading
  /-- `clearedLeafKind` comes next -/
  | probing (packed : Dict Name Id)
  /-- the lock's content is written next -/
  | writing (packed : Dict Name Id) (isFile : Bool)
  /-- the lock is renamed onto `packed-refs` next -/
  | committing (packed : Dict Name Id) (isFile : Bool)
  /-- the loose file is removed next; `packedHeld`: `packed-refs.lock` is not renamed away -/
  | removing (packedHeld : Bool)
  | unlockingPacked (refusal : Option (Refusal Name Id))
  | unlockingLoose (refusal : Option (Refusal Name Id))

/-- The stages of `packRefs`. -/
inductive PackStage (Name Id : Type*)
  /-- `walkAllLooseRefNames`, begun when the history had length `since` -/
  | walking (since : ℕ)
  /-- `resolveEntry` on the names of the walk: `todo` wait for their loose file, `missed`
  for `packed-refs` -/
  | reading (found todo missed : List Name) (listing : Dict Name (Value Name Id))
  | probing (packable : Dict Name Id) (todo duplicates : List Name)
  | pruning (duplicates : List Name)

/-- Where a process stands. -/
inductive Phase (Name Id : Type*)
  | idle
  /-- `checkExpected` reads the loose file next -/
  | comparing (update : Update Name Id)
  /-- the loose file was missing; `packed-refs` is read next -/
  | comparingPacked (update : Update Name Id) (began : ℕ)
  | compared (update : Update Name Id) (began : ℕ)
  /-- a set that holds its loose lock; the rename is next -/
  | writing (update : Update Name Id) (content : Value Name Id) (began : ℕ)
  /-- a set that was refused under its lock -/
  | unlocking (update : Update Name Id) (refusal : Refusal Name Id)
  /-- a delete whose loose directory is there; the loose lock is next -/
  | lockingLoose (update : Update Name Id) (began : ℕ)
  | deleting (update : Update Name Id) (began : ℕ) (locked : Bool) (stage : DeleteStage Name Id)
  | packing (stage : PackStage Name Id)
  | updated (update : Update Name Id)
  | packed
  | failed (refusal : Refusal Name Id)
  | crashed

section

variable {Name Id : Type*}

/-- The ref whose loose lock a process holds. -/
def Phase.looseLock : Phase Name Id → Option Name
  | .writing u .. | .unlocking u _ | .deleting u _ true _ => some u.name
  | _ => none

/-- Whether a process holds `packed-refs.lock`. -/
def Phase.packedLock : Phase Name Id → Bool
  | .deleting _ _ _ stage =>
    match stage with
    | .loading | .probing _ | .writing .. | .committing .. | .unlockingPacked _ => true
    | .removing packedHeld => packedHeld
    | .lockingPacked | .unlockingLoose _ => false
  | _ => false

/-- The update of a process that has taken effect and is not crashed. -/
def Phase.effective : Phase Name Id → Option (Update Name Id)
  | .updated u | .deleting u _ _ (.unlockingPacked none) | .deleting u _ _ (.unlockingLoose none) =>
    some u
  | _ => none

end

/-! ### The state -/

/-- A lock file; `none` is the empty file. -/
structure LockFile (Pid α : Type*) where
  creator : Pid
  content : Option α

/-- `write` on a lock path. -/
def LockFile.write {Pid α : Type*} (p : Pid) (content : α) (lock : Option (LockFile Pid α)) :
    LockFile Pid α :=
  { lock.getD ⟨p, none⟩ with content := some content }

/-- The files, the processes, and what none of them sees. -/
structure State (Pid Name Id : Type*) where
  loose : Dict Name (Value Name Id)
  looseLock : Name → Option (LockFile Pid (Value Name Id))
  packed : Dict Name Id
  packedLock : Option (LockFile Pid (Dict Name Id))
  phase : Pid → Phase Name Id
  history : List (Pid × Update Name Id)
  born : Name → ℕ

/-- One atomic step of a process. -/
inductive Event (Pid Name Id : Type*)
  | crash (p : Pid)
  /-- `applyRefUpdates` of one update -/
  | begin (p : Pid) (update : Update Name Id)
  | readLoose (p : Pid)
  | readPacked (p : Pid)
  /-- `writeExclusive` in `atomicWriteFile` -/
  | lockRef (p : Pid)
  /-- the rename of `commitLooseRef` -/
  | renameRef (p : Pid)
  /-- a refusal between a lock and the next change -/
  | refuse (p : Pid)
  /-- `atomicWriteFile`'s lock cleanup -/
  | unlockRef (p : Pid)
  /-- the `stat` of `deleteTargetFor` -/
  | statParent (p : Pid) (isDirectory : Bool)
  | lockLoose (p : Pid)
  /-- `withLockFile` on `packed-refs` -/
  | lockPacked (p : Pid)
  | loadPacked (p : Pid)
  | probeLeaf (p : Pid)
  /-- `commitPacked`: the content goes into the lock -/
  | writePacked (p : Pid)
  /-- `commitPacked`: the lock is renamed -/
  | renamePacked (p : Pid)
  | removeLoose (p : Pid)
  | unlockPacked (p : Pid)
  | unlockLoose (p : Pid)
  | packRefs (p : Pid)
  | endWalk (p : Pid) (found : List Name)
  | readEntry (p : Pid) (name : Name)
  | readMissed (p : Pid) (name : Name)
  /-- `listRefs` loads `packed-refs` and answers -/
  | listPacked (p : Pid)
  | probeLoose (p : Pid) (name : Name)
  /-- `writeUtf8` onto `packed-refs` -/
  | writePackedRefs (p : Pid)
  | prune (p : Pid) (name : Name)
  | endPack (p : Pid)
  /-- a failing call of `packRefs` -/
  | failPack (p : Pid)

def Event.actor {Pid Name Id : Type*} : Event Pid Name Id → Pid
  | .crash p | .begin p _ | .readLoose p | .readPacked p | .lockRef p | .renameRef p | .refuse p
  | .unlockRef p | .statParent p _ | .lockLoose p | .lockPacked p | .loadPacked p | .probeLeaf p
  | .writePacked p | .renamePacked p | .removeLoose p | .unlockPacked p | .unlockLoose p
  | .packRefs p | .endWalk p _ | .readEntry p _ | .readMissed p _ | .listPacked p | .probeLoose p _
  | .writePackedRefs p | .prune p _ | .endPack p | .failPack p => p

variable {Pid Name Id : Type*}

/-- What a ref resolves to: its loose file first, then `packed-refs`. -/
def State.view (s : State Pid Name Id) (n : Name) : Option (Value Name Id) :=
  (s.loose.get n).or ((s.packed.get n).map .direct)

/-- The loose file of `n` has been there since the history had length `since`. -/
def State.Steady (s : State Pid Name Id) (since : ℕ) (n : Name) : Prop :=
  s.loose.get n ≠ none ∧ s.born n ≤ since

/-! ### The steps -/

section

variable [DecidableEq Pid] [DecidableEq Name]

def State.setPhase (s : State Pid Name Id) (p : Pid) (phase : Phase Name Id) :
    State Pid Name Id :=
  { s with phase := Function.update s.phase p phase }

def State.setLooseLock (s : State Pid Name Id) (n : Name)
    (file : Option (LockFile Pid (Value Name Id))) : State Pid Name Id :=
  { s with looseLock := Function.update s.looseLock n file }

/-- The update of `p` takes effect. -/
def State.record (s : State Pid Name Id) (p : Pid) (u : Update Name Id) : State Pid Name Id :=
  { s with history := s.history ++ [(p, u)] }

/-- A loose file is put in place. -/
def State.putLoose (s : State Pid Name Id) (n : Name) (v : Value Name Id) : State Pid Name Id :=
  { s with
    loose := s.loose.insert n v
    born :=
      if s.loose.get n = none then Function.update s.born n (s.history.length + 1) else s.born }

/-- `checkExpected` with the value it read. -/
def checkExpected [DecidableEq Id] (u : Update Name Id) (actual : Option Id) (began : ℕ) :
    Phase Name Id :=
  match u.expected with
  | none => .compared u began
  | some expected =>
    if expected = actual then .compared u began
    else .failed (.refUpdateConflict u.name expected actual)

/-- The end of a delete once its locks are gone. -/
def concluded (u : Update Name Id) : Option (Refusal Name Id) → Phase Name Id
  | none => .updated u
  | some refusal => .failed refusal

def afterPacked (u : Update Name Id) (began : ℕ) (locked : Bool)
    (refusal : Option (Refusal Name Id)) : Phase Name Id :=
  if locked then .deleting u began locked (.unlockingLoose refusal) else concluded u refusal

/-- The next stage of a delete that has removed, or missed, its loose file. -/
def afterRemoval (u : Update Name Id) (began : ℕ) (locked packedHeld : Bool)
    (refusal : Option (Refusal Name Id)) : Phase Name Id :=
  if packedHeld then .deleting u began locked (.unlockingPacked refusal)
  else afterPacked u began locked refusal

def packableEntries (perWorktree : Name → Bool) (found : List Name)
    (listing : Dict Name (Value Name Id)) (packed : Dict Name Id) : Dict Name Id :=
  let entries := listing.orElse
    (packed.filterMap fun n id => if n ∈ found then none else some (.direct id))
  entries.filterMap fun n value =>
    match value with
    | .direct id => if perWorktree n then none else some id
    | .symbolic _ => none

def updateStep [DecidableEq Id] (s : State Pid Name Id) (p : Pid) :
    Phase Name Id → Event Pid Name Id → Option (State Pid Name Id)
  | .idle, .begin _ u =>
    match u.expected with
    | none => some (s.setPhase p (.compared u s.history.length))
    | some _ => some (s.setPhase p (.comparing u))
  | .comparing u, .readLoose _ =>
    match s.loose.get u.name with
    | some value =>
      some (s.setPhase p (checkExpected u (Value.actual (some value)) s.history.length))
    | none => some (s.setPhase p (.comparingPacked u s.history.length))
  | .comparingPacked u began, .readPacked _ =>
    some (s.setPhase p (checkExpected u (s.packed.get u.name) began))
  | .compared u began, .lockRef _ =>
    match u.change.result with
    | none => none
    | some content =>
      match s.looseLock u.name with
      | some _ => some (s.setPhase p (.failed (.refLocked u.name)))
      | none =>
        some ((s.setLooseLock u.name (some ⟨p, some content⟩)).setPhase p
          (.writing u content began))
  | .writing u _ _, .renameRef _ =>
    match s.looseLock u.name with
    | some ⟨_, some value⟩ =>
      some ((((s.putLoose u.name value).setLooseLock u.name none).record p u).setPhase p
        (.updated u))
    | _ => some (s.setPhase p (.unlocking u (.fileNotFound u.name)))
  | .writing u _ _, .refuse _ => some (s.setPhase p (.unlocking u .other))
  | .unlocking u refusal, .unlockRef _ =>
    some ((s.setLooseLock u.name none).setPhase p (.failed refusal))
  | .compared u began, .statParent _ isDirectory =>
    match u.change.result with
    | some _ => none
    | none =>
      if isDirectory then some (s.setPhase p (.lockingLoose u began))
      -- a loose file has a directory
      else if s.loose.get u.name = none then
        some (s.setPhase p (.deleting u began false .lockingPacked))
      else none
  | .lockingLoose u began, .lockLoose _ =>
    match s.looseLock u.name with
    | some _ => some (s.setPhase p (.failed (.refLocked u.name)))
    | none =>
      some ((s.setLooseLock u.name (some ⟨p, none⟩)).setPhase p
        (.deleting u began true .lockingPacked))
  | .deleting u began locked .lockingPacked, .lockPacked _ =>
    match s.packedLock with
    | some _ => some (s.setPhase p (afterPacked u began locked (some .packedRefsLocked)))
    | none =>
      some ({ s with packedLock := some ⟨p, none⟩ }.setPhase p (.deleting u began locked .loading))
  | .deleting u began locked .loading, .loadPacked _ =>
    some (s.setPhase p (.deleting u began locked (.probing s.packed)))
  | .deleting u began locked (.probing packed), .probeLeaf _ =>
    let isFile := (s.loose.get u.name).isSome
    if (packed.get u.name).isSome then
      some (s.setPhase p (.deleting u began locked (.writing packed isFile)))
    else if isFile then some (s.setPhase p (.deleting u began locked (.removing true)))
    -- the ref is absent: the delete is done without a change
    else some ((s.record p u).setPhase p (.deleting u began locked (.unlockingPacked none)))
  | .deleting u began locked (.probing _), .refuse _ =>
    some (s.setPhase p (.deleting u began locked (.unlockingPacked (some .other))))
  | .deleting u began locked (.writing packed isFile), .writePacked _ =>
    some ({ s with packedLock := some (LockFile.write p (packed.erase u.name) s.packedLock) }.setPhase
      p (.deleting u began locked (.committing packed isFile)))
  | .deleting u began locked (.committing _ isFile), .renamePacked _ =>
    match s.packedLock with
    | some ⟨_, some content⟩ =>
      let s' := { s with packed := content, packedLock := none }
      if isFile then some (s'.setPhase p (.deleting u began locked (.removing false)))
      else some ((s'.record p u).setPhase p (afterPacked u began locked none))
    | _ =>
      some (s.setPhase p (.deleting u began locked (.unlockingPacked (some .other))))
  | .deleting u began locked (.removing packedHeld), .removeLoose _ =>
    match s.loose.get u.name with
    | none =>
      some (s.setPhase p (afterRemoval u began locked packedHeld (some (.fileNotFound u.name))))
    | some _ =>
      some (({ s with loose := s.loose.erase u.name }.record p u).setPhase p
        (afterRemoval u began locked packedHeld none))
  | .deleting u began locked (.unlockingPacked refusal), .unlockPacked _ =>
    some ({ s with packedLock := none }.setPhase p (afterPacked u began locked refusal))
  | .deleting u _ true (.unlockingLoose refusal), .unlockLoose _ =>
    some ((s.setLooseLock u.name none).setPhase p (concluded u refusal))
  | _, _ => none

def packStep (perWorktree : Name → Bool) (s : State Pid Name Id) (p : Pid) :
    PackStage Name Id → Event Pid Name Id → Option (State Pid Name Id)
  | .walking since, .endWalk _ found =>
    -- a walk finds every file that was there all the time; of the others it may find any
    if ∀ n ∈ s.loose.keys, s.loose.get n ≠ none ∧ s.born n ≤ since ∧ perWorktree n = false →
        n ∈ found then
      some (s.setPhase p (.packing (.reading found found [] .empty)))
    else none
  | .reading found todo missed listing, .readEntry _ n =>
    if n ∈ todo then
      match s.loose.get n with
      | some value =>
        some (s.setPhase p
          (.packing (.reading found (todo.filter (· ≠ n)) missed (listing.insert n value))))
      | none =>
        some (s.setPhase p (.packing (.reading found (todo.filter (· ≠ n)) (n :: missed) listing)))
    else none
  | .reading found todo missed listing, .readMissed _ n =>
    if n ∈ missed then
      match s.packed.get n with
      | some id =>
        some (s.setPhase p (.packing
          (.reading found todo (missed.filter (· ≠ n)) (listing.insert n (.direct id)))))
      | none =>
        some (s.setPhase p (.packing (.reading found todo (missed.filter (· ≠ n)) listing)))
    else none
  | .reading found [] [] listing, .listPacked _ =>
    let packable := packableEntries perWorktree found listing s.packed
    if packable.isEmpty then some (s.setPhase p .packed)
    else some (s.setPhase p (.packing (.probing packable packable.keys [])))
  | .probing packable todo duplicates, .probeLoose _ n =>
    if n ∈ todo then
      if (packable.get n).isSome ∧ (s.loose.get n).isSome then
        some (s.setPhase p
          (.packing (.probing packable (todo.filter (· ≠ n)) (n :: duplicates))))
      else
        some (s.setPhase p (.packing (.probing packable (todo.filter (· ≠ n)) duplicates)))
    else none
  | .probing packable [] duplicates, .writePackedRefs _ =>
    some ({ s with packed := packable }.setPhase p (.packing (.pruning duplicates)))
  | .pruning duplicates, .prune _ n =>
    if n ∈ duplicates then
      some ({ s with loose := s.loose.erase n }.setPhase p
        (.packing (.pruning (duplicates.filter (· ≠ n)))))
    else none
  | .pruning [], .endPack _ => some (s.setPhase p .packed)
  | _, .failPack _ => some (s.setPhase p (.failed .other))
  | _, _ => none

/-- One step of any process; `none` when the event is not enabled. -/
def step [DecidableEq Id] (perWorktree : Name → Bool) (s : State Pid Name Id)
    (e : Event Pid Name Id) : Option (State Pid Name Id) :=
  match e, s.phase e.actor with
  | .crash p, _ => some (s.setPhase p .crashed)
  | .packRefs p, .idle => some (s.setPhase p (.packing (.walking s.history.length)))
  | e, .packing stage => packStep perWorktree s e.actor stage e
  | e, phase => updateStep s e.actor phase e

end

end Tsgit.RefStore
