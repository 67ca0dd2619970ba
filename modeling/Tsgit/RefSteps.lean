import Tsgit.RefStore

/-!
# What a Step of the Ref Store Can Do
-/

namespace Tsgit.RefStore

open LockPath Function

variable {Pid Name Id : Type*}

/-! ### Effects -/

/-- The phases a step of `packRefs` that touches no file may lead to. -/
inductive PackMoves (perWorktree : Name → Bool) (s : State Pid Name Id) [DecidableEq Name] :
    PackStage Name Id → Phase Name Id → Prop
  | endWalk {since : ℕ} {found : List Name}
      (hfound : ∀ n, s.Steady since n → perWorktree n = false → n ∈ found) :
      PackMoves perWorktree s (.walking since) (.packing (.reading found found [] .empty))
  | readEntry {found todo missed : List Name} {listing : Dict Name (Value Name Id)} {n : Name}
      {value : Value Name Id} (hloose : s.loose.get n = some value) :
      PackMoves perWorktree s (.reading found todo missed listing)
        (.packing (.reading found (todo.filter (· ≠ n)) missed (listing.insert n value)))
  | missEntry {found todo missed : List Name} {listing : Dict Name (Value Name Id)} {n : Name}
      (hloose : s.loose.get n = none) :
      PackMoves perWorktree s (.reading found todo missed listing)
        (.packing (.reading found (todo.filter (· ≠ n)) (n :: missed) listing))
  | readMissed {found todo missed : List Name} {listing : Dict Name (Value Name Id)} {n : Name}
      {id : Id} (hmissed : n ∈ missed) (hpacked : s.packed.get n = some id) :
      PackMoves perWorktree s (.reading found todo missed listing)
        (.packing (.reading found todo (missed.filter (· ≠ n)) (listing.insert n (.direct id))))
  | missMissed {found todo missed : List Name} {listing : Dict Name (Value Name Id)} {n : Name} :
      PackMoves perWorktree s (.reading found todo missed listing)
        (.packing (.reading found todo (missed.filter (· ≠ n)) listing))
  | listPacked {found : List Name} {listing : Dict Name (Value Name Id)} {todo : List Name} :
      PackMoves perWorktree s (.reading found [] [] listing)
        (.packing (.probing (packableEntries perWorktree found listing s.packed) todo []))
  | probe {packable : Dict Name Id} {todo duplicates duplicates' : List Name}
      (hduplicates : ∀ n ∈ duplicates', n ∈ duplicates ∨ packable.get n ≠ none) {todo' : List Name} :
      PackMoves perWorktree s (.probing packable todo duplicates)
        (.packing (.probing packable todo' duplicates'))
  | finish {stage : PackStage Name Id} : PackMoves perWorktree s stage .packed
  | fail {stage : PackStage Name Id} {refusal : Refusal Name Id} :
      PackMoves perWorktree s stage (.failed refusal)

/-- The phases a step that touches no file may lead to. -/
inductive Moves (perWorktree : Name → Bool) (s : State Pid Name Id) [DecidableEq Name]
    (e : Event Pid Name Id) : Phase Name Id → Prop
  | crash : Moves perWorktree s e .crashed
  | begin {u : Update Name Id} (hphase : s.phase e.actor = .idle) (hexpected : u.expected ≠ none) :
      Moves perWorktree s e (.comparing u)
  | skip {u : Update Name Id} (hphase : s.phase e.actor = .idle) (hexpected : u.expected = none)
      (hevent : e = .begin e.actor u) :
      Moves perWorktree s e (.compared u s.history.length)
  | miss {u : Update Name Id} (hphase : s.phase e.actor = .comparing u)
      (hloose : s.loose.get u.name = none) :
      Moves perWorktree s e (.comparingPacked u s.history.length)
  | matchLoose {u : Update Name Id} {value : Value Name Id} (hphase : s.phase e.actor = .comparing u)
      (hloose : s.loose.get u.name = some value)
      (hexpected : ∀ id ∈ u.expected, id = Value.actual (some value)) :
      Moves perWorktree s e (.compared u s.history.length)
  | matchPacked {u : Update Name Id} {began : ℕ} (hphase : s.phase e.actor = .comparingPacked u began)
      (hexpected : ∀ id ∈ u.expected, id = s.packed.get u.name) :
      Moves perWorktree s e (.compared u began)
  /-- a refusal of a process without a lock -/
  | fail {refusal : Refusal Name Id} (hlive : s.phase e.actor ≠ .crashed)
      (hloose : (s.phase e.actor).looseLock = none) (hpacked : (s.phase e.actor).packedLock = false)
      (hundone : (s.phase e.actor).effective = none) : Moves perWorktree s e (.failed refusal)
  | refuse {u : Update Name Id} {content : Value Name Id} {began : ℕ} {refusal : Refusal Name Id}
      (hphase : s.phase e.actor = .writing u content began) :
      Moves perWorktree s e (.unlocking u refusal)
  | statParent {u : Update Name Id} {began : ℕ} (hphase : s.phase e.actor = .compared u began)
      (hresult : u.change.result = none) : Moves perWorktree s e (.lockingLoose u began)
  | statMissing {u : Update Name Id} {began : ℕ} (hphase : s.phase e.actor = .compared u began)
      (hresult : u.change.result = none) :
      Moves perWorktree s e (.deleting u began false .lockingPacked)
  | packedLocked {u : Update Name Id} {began : ℕ} {locked : Bool} {refusal : Refusal Name Id}
      (hphase : s.phase e.actor = .deleting u began locked .lockingPacked) :
      Moves perWorktree s e (afterPacked u began locked (some refusal))
  | loadPacked {u : Update Name Id} {began : ℕ} {locked : Bool}
      (hphase : s.phase e.actor = .deleting u began locked .loading) :
      Moves perWorktree s e (.deleting u began locked (.probing s.packed))
  | probePacked {u : Update Name Id} {began : ℕ} {locked : Bool} {packed : Dict Name Id}
      (hphase : s.phase e.actor = .deleting u began locked (.probing packed))
      (hpacked : packed.get u.name ≠ none) :
      Moves perWorktree s e
        (.deleting u began locked (.writing packed (s.loose.get u.name).isSome))
  | probeLoose {u : Update Name Id} {began : ℕ} {locked : Bool} {packed : Dict Name Id}
      (hphase : s.phase e.actor = .deleting u began locked (.probing packed))
      (hpacked : packed.get u.name = none) :
      Moves perWorktree s e (.deleting u began locked (.removing true))
  /-- a refused delete, before it has changed anything -/
  | refuseDelete {u : Update Name Id} {began : ℕ} {locked : Bool} {stage : DeleteStage Name Id}
      {refusal : Refusal Name Id} (hphase : s.phase e.actor = .deleting u began locked stage)
      (hheld : (s.phase e.actor).packedLock = true) (hundone : (s.phase e.actor).effective = none) :
      Moves perWorktree s e (.deleting u began locked (.unlockingPacked (some refusal)))
  | missLoose {u : Update Name Id} {began : ℕ} {locked packedHeld : Bool}
      {refusal : Refusal Name Id}
      (hphase : s.phase e.actor = .deleting u began locked (.removing packedHeld)) :
      Moves perWorktree s e (afterRemoval u began locked packedHeld (some refusal))
  | packRefs (hphase : s.phase e.actor = .idle) (hevent : e = .packRefs e.actor) :
      Moves perWorktree s e (.packing (.walking s.history.length))
  | pack {stage : PackStage Name Id} {phase : Phase Name Id} (hphase : s.phase e.actor = .packing stage)
      (hmove : PackMoves perWorktree s stage phase) : Moves perWorktree s e phase

section

variable [DecidableEq Pid] [DecidableEq Name]

/-- **What a step can do**, said once. -/
inductive Effect (perWorktree : Name → Bool) (s : State Pid Name Id) :
    Event Pid Name Id → State Pid Name Id → Prop
  | move {e : Event Pid Name Id} {phase : Phase Name Id}
      (hmove : Moves perWorktree s e phase) :
      Effect perWorktree s e (s.setPhase e.actor phase)
  | lockRef {p : Pid} {u : Update Name Id} {content : Value Name Id} {began : ℕ}
      (hphase : s.phase p = .compared u began) (hresult : u.change.result = some content)
      (hlock : s.looseLock u.name = none) :
      Effect perWorktree s (.lockRef p)
        ((s.setLooseLock u.name (some ⟨p, some content⟩)).setPhase p (.writing u content began))
  | lockLoose {p : Pid} {u : Update Name Id} {began : ℕ}
      (hphase : s.phase p = .lockingLoose u began) (hlock : s.looseLock u.name = none) :
      Effect perWorktree s (.lockLoose p)
        ((s.setLooseLock u.name (some ⟨p, none⟩)).setPhase p
          (.deleting u began true .lockingPacked))
  | unlockRef {p : Pid} {u : Update Name Id} {refusal : Refusal Name Id}
      (hphase : s.phase p = .unlocking u refusal) :
      Effect perWorktree s (.unlockRef p)
        ((s.setLooseLock u.name none).setPhase p (.failed refusal))
  | unlockLoose {p : Pid} {u : Update Name Id} {began : ℕ} {refusal : Option (Refusal Name Id)}
      (hphase : s.phase p = .deleting u began true (.unlockingLoose refusal)) :
      Effect perWorktree s (.unlockLoose p)
        ((s.setLooseLock u.name none).setPhase p (concluded u refusal))
  | renameRef {p : Pid} {u : Update Name Id} {content value : Value Name Id} {began : ℕ}
      {creator : Pid} (hphase : s.phase p = .writing u content began)
      (hlock : s.looseLock u.name = some ⟨creator, some value⟩) :
      Effect perWorktree s (.renameRef p)
        ((((s.putLoose u.name value).setLooseLock u.name none).record p u).setPhase p (.updated u))
  | lockPacked {p : Pid} {u : Update Name Id} {began : ℕ} {locked : Bool}
      (hphase : s.phase p = .deleting u began locked .lockingPacked) (hlock : s.packedLock = none) :
      Effect perWorktree s (.lockPacked p)
        ({ s with packedLock := some ⟨p, none⟩ }.setPhase p (.deleting u began locked .loading))
  | writePacked {p : Pid} {u : Update Name Id} {began : ℕ} {locked isFile : Bool}
      {packed : Dict Name Id}
      (hphase : s.phase p = .deleting u began locked (.writing packed isFile)) :
      Effect perWorktree s (.writePacked p)
        ({ s with
          packedLock := some (LockFile.write p (packed.erase u.name) s.packedLock) }.setPhase p
            (.deleting u began locked (.committing packed isFile)))
  /-- the loose file is removed next -/
  | renamePacked {p : Pid} {u : Update Name Id} {began : ℕ} {locked : Bool}
      {packed content : Dict Name Id} {creator : Pid}
      (hphase : s.phase p = .deleting u began locked (.committing packed true))
      (hlock : s.packedLock = some ⟨creator, some content⟩) :
      Effect perWorktree s (.renamePacked p)
        ({ s with packed := content, packedLock := none }.setPhase p
          (.deleting u began locked (.removing false)))
  /-- there is no loose file: the ref is gone -/
  | dropPacked {p : Pid} {u : Update Name Id} {began : ℕ} {locked : Bool}
      {packed content : Dict Name Id} {creator : Pid}
      (hphase : s.phase p = .deleting u began locked (.committing packed false))
      (hlock : s.packedLock = some ⟨creator, some content⟩) :
      Effect perWorktree s (.renamePacked p)
        (({ s with packed := content, packedLock := none }.record p u).setPhase p
          (afterPacked u began locked none))
  | removeLoose {p : Pid} {u : Update Name Id} {began : ℕ} {locked packedHeld : Bool}
      (hphase : s.phase p = .deleting u began locked (.removing packedHeld))
      (hloose : s.loose.get u.name ≠ none) :
      Effect perWorktree s (.removeLoose p)
        (({ s with loose := s.loose.erase u.name }.record p u).setPhase p
          (afterRemoval u began locked packedHeld none))
  /-- the ref is absent -/
  | skip {p : Pid} {u : Update Name Id} {began : ℕ} {locked : Bool} {packed : Dict Name Id}
      (hphase : s.phase p = .deleting u began locked (.probing packed))
      (hpacked : packed.get u.name = none) (hloose : s.loose.get u.name = none) :
      Effect perWorktree s (.probeLeaf p)
        ((s.record p u).setPhase p (.deleting u began locked (.unlockingPacked none)))
  | unlockPacked {p : Pid} {u : Update Name Id} {began : ℕ} {locked : Bool}
      {refusal : Option (Refusal Name Id)}
      (hphase : s.phase p = .deleting u began locked (.unlockingPacked refusal)) :
      Effect perWorktree s (.unlockPacked p)
        ({ s with packedLock := none }.setPhase p (afterPacked u began locked refusal))
  | writePackedRefs {p : Pid} {packable : Dict Name Id} {duplicates : List Name}
      (hphase : s.phase p = .packing (.probing packable [] duplicates)) :
      Effect perWorktree s (.writePackedRefs p)
        ({ s with packed := packable }.setPhase p (.packing (.pruning duplicates)))
  | prune {p : Pid} {n : Name} {duplicates : List Name}
      (hphase : s.phase p = .packing (.pruning duplicates)) (hduplicate : n ∈ duplicates) :
      Effect perWorktree s (.prune p n)
        ({ s with loose := s.loose.erase n }.setPhase p
          (.packing (.pruning (duplicates.filter (· ≠ n)))))

variable {perWorktree : Name → Bool} {s t : State Pid Name Id} {p : Pid}

omit [DecidableEq Name] in
theorem checkExpected_cases [DecidableEq Id] (u : Update Name Id) (actual : Option Id) (began : ℕ) :
    (checkExpected u actual began = .compared u began ∧ ∀ id ∈ u.expected, id = actual) ∨
      ∃ refusal, checkExpected u actual began = .failed refusal := by
  rw [checkExpected]
  split
  · next hnone => exact .inl ⟨rfl, by simp [hnone]⟩
  · next expected hsome =>
    split
    · next heq => exact .inl ⟨rfl, by simp [hsome, heq]⟩
    · exact .inr ⟨_, rfl⟩

variable {e : Event Pid Name Id}

/-- The steps of `packRefs`. -/
theorem effect_of_packStep {stage : PackStage Name Id}
    (hphase : s.phase e.actor = .packing stage)
    (h : packStep perWorktree s e.actor stage e = some t) : Effect perWorktree s e t := by
  unfold packStep at h
  split at h
  · next since q found =>
    split at h
    · next hfound =>
      cases h
      refine .move (.pack hphase (.endWalk fun n hsteady hn => ?_))
      exact hfound n (s.loose.covered n hsteady.1) ⟨hsteady.1, hsteady.2, hn⟩
    · cases h
  · next found todo missed listing q n =>
    split at h
    · split at h
      · next value hloose =>
        cases h
        exact .move (.pack hphase (.readEntry hloose))
      · next hloose =>
        cases h
        exact .move (.pack hphase (.missEntry hloose))
    · cases h
  · next found todo missed listing q n =>
    split at h
    · next hmissed =>
      split at h
      · next id hpacked =>
        cases h
        exact .move (.pack hphase (.readMissed hmissed hpacked))
      · cases h
        exact .move (.pack hphase .missMissed)
    · cases h
  · dsimp only at h
    split at h
    · cases h
      exact .move (.pack hphase .finish)
    · cases h
      exact .move (.pack hphase .listPacked)
  · next packable todo duplicates q n =>
    split at h
    · split at h
      · next hprobe =>
        cases h
        refine .move (.pack hphase (.probe fun m hm => ?_))
        rcases List.mem_cons.mp hm with rfl | hm
        · exact .inr (Option.isSome_iff_ne_none.mp hprobe.1)
        · exact .inl hm
      · cases h
        exact .move (.pack hphase (.probe fun m hm => .inl hm))
    · cases h
  · cases h
    exact .writePackedRefs hphase
  · split at h
    · next hduplicate =>
      cases h
      exact .prune hphase hduplicate
    · cases h
  · cases h
    exact .move (.pack hphase .finish)
  · cases h
    exact .move (.pack hphase .fail)
  · cases h

theorem effect_of_updateStep [DecidableEq Id]
    (hstep : updateStep s e.actor (s.phase e.actor) e = some t) : Effect perWorktree s e t := by
  generalize hphase : s.phase e.actor = phase at hstep
  unfold updateStep at hstep
  split at hstep
  · next q u =>
    split at hstep
    · next hexpected =>
      cases hstep
      exact .move (.skip hphase hexpected rfl)
    · next expected hexpected =>
      cases hstep
      exact .move (.begin hphase (by simp [hexpected]))
  · next u q =>
    have hfail (refusal : Refusal Name Id) :
        Effect perWorktree s (.readLoose q) (s.setPhase q (.failed refusal)) :=
      .move (.fail (by simp [hphase]) (by simp [hphase, Phase.looseLock])
        (by simp [hphase, Phase.packedLock]) (by simp [hphase, Phase.effective]))
    split at hstep
    · next value hloose =>
      cases hstep
      rcases checkExpected_cases u (Value.actual (some value)) s.history.length with
        ⟨heq, hexpected⟩ | ⟨refusal, heq⟩
      · rw [heq]
        exact .move (.matchLoose hphase hloose hexpected)
      · rw [heq]
        exact hfail refusal
    · next hloose =>
      cases hstep
      exact .move (.miss hphase hloose)
  · next u began q =>
    cases hstep
    rcases checkExpected_cases u (s.packed.get u.name) began with
      ⟨heq, hexpected⟩ | ⟨refusal, heq⟩
    · rw [heq]
      exact .move (.matchPacked hphase hexpected)
    · rw [heq]
      exact .move (.fail (by simp [hphase]) (by simp [hphase, Phase.looseLock])
        (by simp [hphase, Phase.packedLock]) (by simp [hphase, Phase.effective]))
  · next u began q =>
    split at hstep
    · cases hstep
    · next content hresult =>
      split at hstep
      · cases hstep
        exact .move (.fail (by simp [hphase]) (by simp [hphase, Phase.looseLock])
          (by simp [hphase, Phase.packedLock]) (by simp [hphase, Phase.effective]))
      · next hlock =>
        cases hstep
        exact .lockRef hphase hresult hlock
  · next u content began q =>
    split at hstep
    · next creator value hlock =>
      cases hstep
      exact .renameRef hphase hlock
    · cases hstep
      exact .move (.refuse hphase)
  · cases hstep
    exact .move (.refuse hphase)
  · next u refusal q =>
    cases hstep
    exact .unlockRef hphase
  · next u began q isDirectory =>
    split at hstep
    · cases hstep
    · next hresult =>
      split at hstep
      · cases hstep
        exact .move (.statParent hphase hresult)
      · split at hstep
        · cases hstep
          exact .move (.statMissing hphase hresult)
        · cases hstep
  · next u began q =>
    split at hstep
    · cases hstep
      exact .move (.fail (by simp [hphase]) (by simp [hphase, Phase.looseLock])
        (by simp [hphase, Phase.packedLock]) (by simp [hphase, Phase.effective]))
    · next hlock =>
      cases hstep
      exact .lockLoose hphase hlock
  · next u began locked q =>
    split at hstep
    · cases hstep
      exact .move (.packedLocked hphase)
    · next hlock =>
      cases hstep
      exact .lockPacked hphase hlock
  · cases hstep
    exact .move (.loadPacked hphase)
  · next u began locked packed q =>
    dsimp only at hstep
    split at hstep
    · next hpacked =>
      cases hstep
      exact .move (.probePacked hphase (Option.isSome_iff_ne_none.mp hpacked))
    · next hpacked =>
      rw [Option.isSome_iff_ne_none, not_not] at hpacked
      split at hstep
      · cases hstep
        exact .move (.probeLoose hphase hpacked)
      · next hloose =>
        cases hstep
        rw [Option.isSome_iff_ne_none, not_not] at hloose
        exact .skip hphase hpacked hloose
  · cases hstep
    exact .move (.refuseDelete hphase (by simp [hphase, Phase.packedLock])
          (by simp [hphase, Phase.effective]))
  · cases hstep
    exact .writePacked hphase
  · next u began locked packed isFile q =>
    split at hstep
    · next creator content hlock =>
      dsimp only at hstep
      split at hstep
      · next hfile =>
        cases hstep
        subst hfile
        exact .renamePacked hphase hlock
      · next hfile =>
        cases hstep
        rw [Bool.not_eq_true] at hfile
        subst hfile
        exact .dropPacked hphase hlock
    · cases hstep
      exact .move (.refuseDelete hphase (by simp [hphase, Phase.packedLock])
        (by simp [hphase, Phase.effective]))
  · next u began locked packedHeld q =>
    split at hstep
    · cases hstep
      exact .move (.missLoose hphase)
    · next value hloose =>
      cases hstep
      exact .removeLoose hphase (by simp [hloose])
  · cases hstep
    exact .unlockPacked hphase
  · next u began refusal q =>
    cases hstep
    exact .unlockLoose hphase
  · cases hstep

theorem effect_of_step [DecidableEq Id]
    (h : step perWorktree s e = some t) : Effect perWorktree s e t := by
  unfold step at h
  split at h
  · next q _ _ =>
    cases h
    exact .move .crash
  · next q hphase =>
    cases h
    exact .move (.packRefs hphase rfl)
  · exact effect_of_packStep (by assumption) h
  · exact effect_of_updateStep h

end

/-! ### The lock discipline -/

/-- What a process that holds a lock file is about to put in place. -/
def Staged (s : State Pid Name Id) [DecidableEq Name] : Phase Name Id → Prop
  | .writing u content _ =>
    u.change.result = some content ∧
      ∀ file, s.looseLock u.name = some file → file.content = some content
  | .lockingLoose u _ => u.change.result = none
  | .deleting u _ _ stage =>
    u.change.result = none ∧ ∀ packed isFile, stage = .committing packed isFile →
      ∀ file, s.packedLock = some file → file.content = some (packed.erase u.name)
  | _ => True

/-- A lock file belongs to the process that created it, and holds what it is for. -/
structure Locked (s : State Pid Name Id) [DecidableEq Name] : Prop where
  loose : ∀ n, OwnedBy LockFile.creator (s.looseLock n) s.phase (·.looseLock = some n)
    (· = .crashed)
  packed : OwnedBy LockFile.creator s.packedLock s.phase (·.packedLock = true) (· = .crashed)
  staged : ∀ p, Staged s (s.phase p)

section

@[simp] theorem looseLock_afterPacked (u : Update Name Id) (began : ℕ) (locked : Bool)
    (refusal : Option (Refusal Name Id)) :
    (afterPacked u began locked refusal).looseLock = bif locked then some u.name else none := by
  cases locked <;> cases refusal <;> rfl

@[simp] theorem packedLock_afterPacked (u : Update Name Id) (began : ℕ) (locked : Bool)
    (refusal : Option (Refusal Name Id)) :
    (afterPacked u began locked refusal).packedLock = false := by
  cases locked <;> cases refusal <;> rfl

@[simp] theorem looseLock_afterRemoval (u : Update Name Id) (began : ℕ) (locked packedHeld : Bool)
    (refusal : Option (Refusal Name Id)) :
    (afterRemoval u began locked packedHeld refusal).looseLock =
      bif locked then some u.name else none := by
  cases packedHeld
  · exact looseLock_afterPacked ..
  · cases locked <;> rfl

@[simp] theorem packedLock_afterRemoval (u : Update Name Id) (began : ℕ) (locked packedHeld : Bool)
    (refusal : Option (Refusal Name Id)) :
    (afterRemoval u began locked packedHeld refusal).packedLock = packedHeld := by
  cases packedHeld
  · exact packedLock_afterPacked ..
  · rfl

theorem looseLock_deleting (u : Update Name Id) (began : ℕ) (locked : Bool)
    (stage : DeleteStage Name Id) :
    (Phase.deleting u began locked stage).looseLock = bif locked then some u.name else none := by
  cases locked <;> rfl

end

section

variable [DecidableEq Name] {perWorktree : Name → Bool} {s t : State Pid Name Id} {p : Pid}
  {phase : Phase Name Id}

variable {u : Update Name Id}

variable {began : ℕ}

theorem staged_afterPacked {locked : Bool}
    {refusal : Option (Refusal Name Id)} (hresult : u.change.result = none) :
    Staged s (afterPacked u began locked refusal) := by
  cases locked
  · cases refusal <;> trivial
  · exact ⟨hresult, fun _ _ h => nomatch h⟩

theorem staged_afterRemoval {locked packedHeld : Bool}
    {refusal : Option (Refusal Name Id)} (hresult : u.change.result = none) :
    Staged s (afterRemoval u began locked packedHeld refusal) := by
  cases packedHeld
  · exact staged_afterPacked hresult
  · exact ⟨hresult, fun _ _ h => nomatch h⟩

/-- A move gives up no lock and takes none. -/
theorem Moves.locks {e : Event Pid Name Id} (h : Moves perWorktree s e phase) :
    phase = .crashed ∨ s.phase e.actor ≠ .crashed ∧ phase.looseLock = (s.phase e.actor).looseLock ∧
        phase.packedLock = (s.phase e.actor).packedLock := by
  cases h with
  | crash => exact .inl rfl
  | fail hlive hloose hpacked _ => exact .inr ⟨hlive, hloose.symm, hpacked.symm⟩
  | refuseDelete hphase hheld _ =>
    rw [hphase] at hheld ⊢
    exact .inr ⟨by simp, by simp only [looseLock_deleting], hheld.symm⟩
  | packedLocked hphase | missLoose hphase =>
    rw [hphase]
    refine .inr ⟨by simp, by simp [looseLock_deleting], ?_⟩
    simp only [packedLock_afterPacked, packedLock_afterRemoval]
    rfl
  | loadPacked hphase | probePacked hphase | probeLoose hphase =>
    exact .inr ⟨by simp [hphase], by simp only [hphase, looseLock_deleting], by rw [hphase]; rfl⟩
  | pack hphase hmove =>
    cases hmove <;> exact .inr ⟨by simp [hphase], by rw [hphase]; rfl, by rw [hphase]; rfl⟩
  | _ hphase => exact .inr ⟨by simp [hphase], by rw [hphase]; rfl, by rw [hphase]; rfl⟩

/-- A move stages nothing new. -/
theorem Moves.staged {e : Event Pid Name Id} (h : Moves perWorktree s e phase)
    (hs : Staged s (s.phase e.actor)) : Staged s phase := by
  cases h with
  | statParent _ hresult => exact hresult
  | statMissing _ hresult => exact ⟨hresult, fun _ _ h => nomatch h⟩
  | packedLocked hphase =>
    rw [hphase] at hs
    exact staged_afterPacked hs.1
  | missLoose hphase =>
    rw [hphase] at hs
    exact staged_afterRemoval hs.1
  | loadPacked hphase | probePacked hphase | probeLoose hphase | refuseDelete hphase =>
    rw [hphase] at hs
    exact ⟨hs.1, fun _ _ h => nomatch h⟩
  | pack hphase hmove => cases hmove <;> trivial
  | _ => trivial

theorem Staged.frame (h : Staged s phase)
    (hloose : ∀ n, phase.looseLock = some n → t.looseLock n = s.looseLock n)
    (hpacked : phase.packedLock = true → t.packedLock = s.packedLock) : Staged t phase := by
  cases phase with
  | writing u content began =>
    refine ⟨h.1, fun file hfile => h.2 file ?_⟩
    rwa [← hloose u.name rfl]
  | deleting u began locked stage =>
    refine ⟨h.1, fun packed isFile hstage file hfile => h.2 packed isFile hstage file ?_⟩
    subst hstage
    rwa [← hpacked rfl]
  | lockingLoose => exact h
  | _ => trivial

/-- A set renames the value it is to leave. -/
theorem Locked.result_eq {content value : Value Name Id}
    {creator : Pid} (h : Locked s) (hphase : s.phase p = .writing u content began)
    (hlock : s.looseLock u.name = some ⟨creator, some value⟩) : u.change.result = some value := by
  have hstaged := h.staged p
  rw [hphase] at hstaged
  obtain ⟨hresult, hcontent⟩ := hstaged
  rw [hresult, ← hcontent _ hlock]

/-- A delete leaves no value. -/
theorem Locked.result_eq_none {locked : Bool}
    {stage : DeleteStage Name Id} (h : Locked s)
    (hphase : s.phase p = .deleting u began locked stage) : u.change.result = none := by
  have hstaged := h.staged p
  rw [hphase] at hstaged
  exact hstaged.1

theorem Locked.content_eq {locked isFile : Bool}
    {packed content : Dict Name Id} {creator : Pid} (h : Locked s)
    (hphase : s.phase p = .deleting u began locked (.committing packed isFile))
    (hlock : s.packedLock = some ⟨creator, some content⟩) : content = packed.erase u.name := by
  have hstaged := h.staged p
  rw [hphase] at hstaged
  exact Option.some.inj (hstaged.2 _ _ rfl _ hlock)

variable [DecidableEq Pid]

theorem Locked.keep (h : Locked s) (hphase : t.phase = update s.phase p phase)
    (hlooseLock : t.looseLock = s.looseLock) (hpackedLock : t.packedLock = s.packedLock)
    (hlocks : phase = .crashed ∨ s.phase p ≠ .crashed ∧
      phase.looseLock = (s.phase p).looseLock ∧ phase.packedLock = (s.phase p).packedLock)
    (hstaged : Staged s phase) : Locked t := by
  have hlive : s.phase p = .crashed → phase = .crashed := fun hcrashed =>
    hlocks.elim id fun ⟨hlive, _⟩ => absurd hcrashed hlive
  refine ⟨fun n => ?_, ?_, fun q => ?_⟩
  · rw [hphase, hlooseLock]
    refine (h.loose n).keep rfl (fun hn => ?_) (fun hn => ?_) hlive
    · rcases hlocks with rfl | ⟨-, heq, -⟩
      · cases hn
      · exact heq ▸ hn
    · rcases hlocks with rfl | ⟨-, heq, -⟩
      · exact .inr rfl
      · exact .inl (heq.trans hn)
  · rw [hphase, hpackedLock]
    refine h.packed.keep rfl (fun hheld => ?_) (fun hheld => ?_) hlive
    · rcases hlocks with rfl | ⟨-, -, heq⟩
      · cases hheld
      · exact heq ▸ hheld
    · rcases hlocks with rfl | ⟨-, -, heq⟩
      · exact .inr rfl
      · exact .inl (heq.trans hheld)
  · rw [hphase]
    have hframe {phase : Phase Name Id} (h : Staged s phase) : Staged t phase :=
      h.frame (fun n _ => by rw [hlooseLock]) fun _ => hpackedLock
    by_cases heq : q = p
    · rw [heq, update_self]
      exact hframe hstaged
    · rw [update_of_ne heq]
      exact hframe (h.staged q)

theorem Locked.loose_step {n : Name} {lock : Option (LockFile Pid (Value Name Id))}
    (h : Locked s) (hphase : t.phase = update s.phase p phase)
    (hlooseLock : t.looseLock = update s.looseLock n lock)
    (hpackedLock : t.packedLock = s.packedLock) (hlive : s.phase p ≠ .crashed)
    (hothers : ∀ q, q ≠ p → (s.phase q).looseLock ≠ some n)
    (howned : OwnedBy LockFile.creator lock t.phase (·.looseLock = some n) (· = .crashed))
    (hbefore : (s.phase p).looseLock = none ∨ (s.phase p).looseLock = some n)
    (hafter : phase.looseLock = none ∨ phase.looseLock = some n)
    (hpacked : phase.packedLock = (s.phase p).packedLock) (hstaged : Staged t phase) :
    Locked t := by
  have hdead : s.phase p = .crashed → phase = .crashed := fun hcrashed => absurd hcrashed hlive
  refine ⟨fun m => ?_, ?_, fun q => ?_⟩
  · by_cases heq : m = n
    · rw [heq, hlooseLock, update_self]
      exact howned
    rw [hphase, hlooseLock, update_of_ne heq]
    refine (h.loose m).keep rfl (fun hm => ?_) (fun hm => ?_) hdead
    · rcases hafter with hnone | hsome
      · rw [hnone] at hm
        cases hm
      · exact absurd (Option.some.inj (hm.symm.trans hsome)) heq
    · rcases hbefore with hnone | hsome
      · rw [hnone] at hm
        cases hm
      · exact absurd (Option.some.inj (hm.symm.trans hsome)) heq
  · rw [hphase, hpackedLock]
    refine h.packed.keep rfl (fun hheld => ?_) (fun hheld => .inl ?_) hdead
    · rwa [← hpacked]
    · rwa [hpacked]
  rw [hphase]
  by_cases heq : q = p
  · rwa [heq, update_self]
  · rw [update_of_ne heq]
    refine (h.staged q).frame (fun m hm => ?_) fun _ => hpackedLock
    rw [hlooseLock, update_of_ne]
    exact fun hmn => hothers q heq (hmn ▸ hm)

theorem Locked.createLoose {n : Name} {content : Option (Value Name Id)} (h : Locked s)
    (hphase : t.phase = update s.phase p phase)
    (hlooseLock : t.looseLock = update s.looseLock n (some ⟨p, content⟩))
    (hpackedLock : t.packedLock = s.packedLock) (hlive : s.phase p ≠ .crashed)
    (hlock : s.looseLock n = none) (hbefore : (s.phase p).looseLock = none)
    (hafter : phase.looseLock = some n) (hpacked : phase.packedLock = (s.phase p).packedLock)
    (hstaged : Staged t phase) : Locked t := by
  refine h.loose_step hphase hlooseLock hpackedLock hlive (fun q _ => (h.loose n).free hlock q) ?_
    (.inl hbefore) (.inr hafter) hpacked hstaged
  rw [hphase]
  exact (h.loose n).create hlock rfl hafter

theorem Locked.removeLoose {n : Name} (h : Locked s)
    (hphase : t.phase = update s.phase p phase)
    (hlooseLock : t.looseLock = update s.looseLock n none)
    (hpackedLock : t.packedLock = s.packedLock) (hlive : s.phase p ≠ .crashed)
    (hbefore : (s.phase p).looseLock = some n) (hafter : phase.looseLock = none)
    (hpacked : phase.packedLock = (s.phase p).packedLock) (hstaged : Staged t phase) :
    Locked t := by
  refine h.loose_step hphase hlooseLock hpackedLock hlive
    (fun q hne hq => hne ((h.loose n).unique hq hbefore)) ?_ (.inr hbefore) (.inl hafter) hpacked
    hstaged
  rw [hphase]
  exact (h.loose n).remove hbefore (by rw [hafter]; nofun)

theorem Locked.packed_step (h : Locked s) (hphase : t.phase = update s.phase p phase)
    (hlooseLock : t.looseLock = s.looseLock) (hlive : s.phase p ≠ .crashed)
    (hothers : ∀ q, q ≠ p → (s.phase q).packedLock ≠ true)
    (howned : OwnedBy LockFile.creator t.packedLock t.phase (·.packedLock = true) (· = .crashed))
    (hloose : phase.looseLock = (s.phase p).looseLock) (hstaged : Staged t phase) : Locked t := by
  refine ⟨fun n => ?_, howned, fun q => ?_⟩
  · rw [hphase, hlooseLock]
    exact (h.loose n).keep rfl (fun hn => hloose ▸ hn) (fun hn => .inl (hloose.trans hn))
      fun hcrashed => absurd hcrashed hlive
  · rw [hphase]
    by_cases heq : q = p
    · rwa [heq, update_self]
    · rw [update_of_ne heq]
      exact (h.staged q).frame (fun n _ => by rw [hlooseLock]) fun hq => absurd hq (hothers q heq)

theorem Locked.removePacked (h : Locked s) (hphase : t.phase = update s.phase p phase)
    (hlooseLock : t.looseLock = s.looseLock) (hpackedLock : t.packedLock = none)
    (hlive : s.phase p ≠ .crashed) (hbefore : (s.phase p).packedLock = true)
    (hafter : phase.packedLock = false) (hloose : phase.looseLock = (s.phase p).looseLock)
    (hstaged : Staged t phase) : Locked t := by
  refine h.packed_step hphase hlooseLock hlive
    (fun q hne hq => hne (h.packed.unique hq hbefore)) ?_ hloose hstaged
  rw [hphase, hpackedLock]
  exact h.packed.remove hbefore (by rw [hafter]; nofun)

/-- **Every step keeps the lock discipline.** -/
theorem Locked.effect {e : Event Pid Name Id} (h : Locked s) (heffect : Effect perWorktree s e t) :
    Locked t := by
  cases heffect with
  | move hmove => exact h.keep rfl rfl rfl hmove.locks (hmove.staged (h.staged _))
  | lockRef hphase hresult hlock =>
    refine h.createLoose rfl rfl rfl (by simp [hphase]) hlock (by simp [hphase, Phase.looseLock])
      rfl (by simp [hphase, Phase.packedLock]) ⟨hresult, fun file hfile => ?_⟩
    change update s.looseLock _ _ _ = some file at hfile
    rw [update_self] at hfile
    cases hfile
    rfl
  | @lockLoose p u began hphase hlock =>
    have hstaged := h.staged p
    rw [hphase] at hstaged
    exact h.createLoose rfl rfl rfl (by simp [hphase]) hlock (by simp [hphase, Phase.looseLock])
      rfl (by simp [hphase, Phase.packedLock]) ⟨hstaged, fun _ _ h => nomatch h⟩
  | unlockRef hphase =>
    exact h.removeLoose rfl rfl rfl (by simp [hphase]) (by simp [hphase, Phase.looseLock]) rfl
      (by simp [hphase, Phase.packedLock]) trivial
  | @unlockLoose p u began refusal hphase =>
    refine h.removeLoose rfl rfl rfl (by simp [hphase]) (by simp [hphase, Phase.looseLock]) ?_ ?_ ?_
    · cases refusal <;> rfl
    · cases refusal <;> simp [hphase, Phase.packedLock, concluded]
    · cases refusal <;> trivial
  | renameRef hphase _ =>
    exact h.removeLoose rfl rfl rfl (by simp [hphase]) (by simp [hphase, Phase.looseLock]) rfl
      (by simp [hphase, Phase.packedLock]) trivial
  | @lockPacked p u began locked hphase hlock =>
    have hstaged := h.staged p
    rw [hphase] at hstaged
    exact h.packed_step rfl rfl (by simp [hphase]) (fun q _ => h.packed.free hlock q)
      (h.packed.create hlock rfl rfl) (by simp only [hphase, looseLock_deleting])
      ⟨hstaged.1, fun _ _ h => nomatch h⟩
  | @writePacked p u began locked isFile packed hphase =>
    have hstaged := h.staged p
    rw [hphase] at hstaged
    have hheld : (s.phase p).packedLock = true := by rw [hphase]; rfl
    refine h.packed_step rfl rfl (by simp [hphase])
      (fun q hne hq => hne (h.packed.unique hq hheld)) ?_
      (by simp only [hphase, looseLock_deleting]) ⟨hstaged.1, fun packed' isFile' heq file hfile => ?_⟩
    · refine h.packed.keep ?_ (fun _ => hheld) (fun _ => .inl rfl) (by simp [hphase])
      obtain ⟨file, hfile, -⟩ := h.packed.exists_file hheld
      change some (LockFile.write p _ s.packedLock).creator = s.packedLock.map LockFile.creator
      rw [hfile]
      rfl
    · cases heq
      cases hfile
      rfl
  | @renamePacked p u began locked packed content creator hphase hlock =>
    have hstaged := h.staged p
    rw [hphase] at hstaged
    exact h.removePacked rfl rfl rfl (by simp [hphase]) (by simp [hphase, Phase.packedLock]) rfl
      (by simp only [hphase, looseLock_deleting]) ⟨hstaged.1, fun _ _ h => nomatch h⟩
  | @dropPacked p u began locked packed content creator hphase hlock =>
    have hstaged := h.staged p
    rw [hphase] at hstaged
    exact h.removePacked rfl rfl rfl (by simp [hphase]) (by simp [hphase, Phase.packedLock])
      (by simp) (by simp only [hphase, looseLock_deleting, looseLock_afterPacked])
      (staged_afterPacked hstaged.1)
  | @removeLoose p u began locked packedHeld hphase hloose =>
    have hstaged := h.staged p
    rw [hphase] at hstaged
    refine h.keep rfl rfl rfl (.inr ⟨by simp [hphase], by simp [hphase, looseLock_deleting], ?_⟩)
      (staged_afterRemoval hstaged.1)
    rw [hphase, packedLock_afterRemoval]
    rfl
  | @skip p u began locked packed hphase hpacked hloose =>
    have hstaged := h.staged p
    rw [hphase] at hstaged
    exact h.keep rfl rfl rfl (.inr (by simp [hphase, looseLock_deleting, Phase.packedLock]))
      ⟨hstaged.1, fun _ _ h => nomatch h⟩
  | @unlockPacked p u began locked refusal hphase =>
    have hstaged := h.staged p
    rw [hphase] at hstaged
    exact h.removePacked rfl rfl rfl (by simp [hphase]) (by simp [hphase, Phase.packedLock])
      (by simp) (by simp only [hphase, looseLock_deleting, looseLock_afterPacked])
      (staged_afterPacked hstaged.1)
  | writePackedRefs hphase =>
    exact h.keep rfl rfl rfl (.inr (by simp [hphase, Phase.looseLock, Phase.packedLock])) trivial
  | prune hphase _ =>
    exact h.keep rfl rfl rfl (.inr (by simp [hphase, Phase.looseLock, Phase.packedLock])) trivial

end

end Tsgit.RefStore
