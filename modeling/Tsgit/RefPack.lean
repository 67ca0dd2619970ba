import Tsgit.RefSteps

/-!
# Packing Refs beside Updates

`packRefs` lists the refs, rewrites `packed-refs` and prunes loose files without a lock, so
an update of a ref between its listing and its pruning is lost.
-/

namespace Tsgit.RefStore

open Interleaving Interleaving.Trio List LockPath Function

variable {Pid Name Id : Type*}

/-! ### What is promised -/

/-- At the start nobody has begun, nothing is locked, and `packed-refs` holds no ref of a
single worktree. -/
structure Initial (perWorktree : Name → Bool) (s : State Pid Name Id) : Prop where
  phase_eq : ∀ p, s.phase p = .idle
  looseLock_eq : ∀ n, s.looseLock n = none
  packedLock_eq : s.packedLock = none
  history_eq : s.history = []
  born_eq : ∀ n, s.born n = 0
  shared : ∀ n, s.packed.get n ≠ none → perWorktree n = false

def lastCommitted [DecidableEq Name] (view : Name → Option (Value Name Id))
    (history : List (Pid × Update Name Id)) (n : Name) : Option (Value Name Id) :=
  match history.reverse.find? (·.2.name = n) with
  | some entry => entry.2.change.result
  | none => view n

/-- Every ref resolves to the value of the last update of it that took effect. -/
def Preserved [DecidableEq Name] (view : Name → Option (Value Name Id)) (s : State Pid Name Id) :
    Prop :=
  ∀ n, s.view n = lastCommitted view s.history n

/-- What a step of `packRefs` must not do: lose the value of a loose file, put an old value into
`packed-refs`, or change what a ref resolves to. -/
structure SafePacking (s t : State Pid Name Id) : Prop where
  removed : ∀ n value, s.loose.get n = some value → t.loose.get n = none →
    ∃ id, value = .direct id ∧ t.packed.get n = some id
  written : ∀ n id, t.packed.get n = some id → s.packed.get n ≠ some id →
    s.view n = some (.direct id)
  view_eq : ∀ n, t.view n = s.view n

/-! ### What a run of `packRefs` knows -/

/-- The value of `n` that a run of `packRefs` has read and is going to write. -/
def Phase.recorded : Phase Name Id → Name → Option Id
  | .packing (.reading _ _ _ listing), n => Value.actual (listing.get n)
  | .packing (.probing packable _ _), n => packable.get n
  | _, _ => none

/-- A run of `packRefs` is going to remove the loose file of `n`. -/
def Phase.Prunes : Phase Name Id → Name → Prop
  | .packing (.pruning duplicates), n => n ∈ duplicates
  | _, _ => False

/-- A run of `packRefs` has read `n` and is not done with it. -/
def Phase.Remembers (phase : Phase Name Id) (n : Name) : Prop :=
  phase.recorded n ≠ none ∨ phase.Prunes n

/-- A run of `packRefs` may take the value of `n` from `packed-refs` without another look
for its loose file. -/
def State.MayMiss (s : State Pid Name Id) : Phase Name Id → Name → Prop
  | .packing (.walking since), n => ¬s.Steady since n
  | .packing (.reading found _ missed _), n => n ∉ found ∨ n ∈ missed
  | _, _ => False

/-- No loose file overrides the packed value of `n` by another one. -/
def State.Agrees (s : State Pid Name Id) (n : Name) : Prop :=
  ∀ id, s.packed.get n = some id → s.view n = some (.direct id)

def Orderly (s : State Pid Name Id) (e : Event Pid Name Id) : Prop :=
  match e, s.phase e.actor with
  | .renameRef _, .writing u _ _ => ∀ q, ¬(s.phase q).Remembers u.name ∧
      (s.MayMiss (s.phase q) u.name → s.packed.get u.name = none)
  | .probeLeaf _, .deleting u _ _ (.probing packed) =>
    packed.get u.name = none → s.loose.get u.name = none → s.packed.get u.name = none
  | .renamePacked _, .deleting u _ _ (.committing packed isFile) =>
    (∀ n, s.packed.get n = packed.get n) ∧ (s.loose.get u.name).isSome = isFile ∧
      ∀ q, ¬(s.phase q).Remembers u.name
  | .removeLoose _, .deleting u _ _ (.removing _) => s.loose.get u.name ≠ none →
      s.packed.get u.name = none ∧ ∀ q, ¬(s.phase q).Remembers u.name
  | .writePackedRefs _, .packing (.probing packable _ _) => ∀ n, s.packed.get n ≠ none →
      packable.get n ≠ none ∨ s.loose.get n ≠ none ∧ ∀ q, ¬(s.phase q).Prunes n
  | _, _ => True

/-! ### The invariant -/

/-- What a run of `packRefs` knows is so. -/
structure Knows (perWorktree : Name → Bool) (s : State Pid Name Id) (phase : Phase Name Id) :
    Prop where
  missed : ∀ n, perWorktree n = false → s.MayMiss phase n → s.Agrees n
  recorded : ∀ n id, phase.recorded n = some id → s.view n = some (.direct id)
  prunes : ∀ n, phase.Prunes n → s.packed.get n ≠ none ∧ s.Agrees n
  probed : ∀ packable todo duplicates, phase = .packing (.probing packable todo duplicates) →
    (∀ n ∈ duplicates, packable.get n ≠ none) ∧ ∀ n, packable.get n ≠ none → perWorktree n = false

structure Inv (perWorktree : Name → Bool) (view : Name → Option (Value Name Id))
    (s : State Pid Name Id) [DecidableEq Name] : Prop where
  locked : Locked s
  knows : ∀ p, Knows perWorktree s (s.phase p)
  born_le : ∀ n, s.born n ≤ s.history.length
  shared : ∀ n, s.packed.get n ≠ none → perWorktree n = false
  preserved : Preserved view s

section

variable {perWorktree : Name → Bool} {s t : State Pid Name Id} {phase : Phase Name Id} {n : Name}

theorem view_of_loose {value : Value Name Id} (h : s.loose.get n = some value) :
    s.view n = some value := by
  rw [State.view, h, Option.some_or]

theorem view_of_no_loose (h : s.loose.get n = none) :
    s.view n = (s.packed.get n).map .direct := by
  rw [State.view, h, Option.none_or]

theorem agrees_of_no_loose (h : s.loose.get n = none) : s.Agrees n := by
  intro id hid
  rw [view_of_no_loose h, hid]
  rfl

theorem agrees_of_not_packed (h : s.packed.get n = none) : s.Agrees n := by
  intro id hid
  rw [h] at hid
  cases hid

theorem actual_eq_some {value : Option (Value Name Id)} {id : Id} :
    Value.actual value = some id ↔ value = some (.direct id) := by
  rcases value with - | (id' | target) <;> simp [Value.actual]

theorem knows_of_not_packing (h : ∀ stage, phase ≠ .packing stage) :
    Knows perWorktree s phase := by
  cases phase with
  | packing stage => exact absurd rfl (h stage)
  | _ => exact ⟨fun _ _ => False.elim, nofun, fun _ => False.elim, nofun⟩

theorem mayMiss_of_steady (hsteady : ∀ since, s.Steady since n → t.Steady since n)
    (h : t.MayMiss phase n) : s.MayMiss phase n := by
  cases phase with
  | packing stage =>
    cases stage with
    | walking since => exact fun hs => h (hsteady since hs)
    | _ => exact h
  | _ => exact h

/-- The files of `n` stay as they are. -/
structure SameFiles (s t : State Pid Name Id) (n : Name) : Prop where
  loose : t.loose.get n = s.loose.get n
  packed : t.packed.get n = s.packed.get n
  born : t.born n = s.born n

/-- The files of `n` change, but not what a run of `packRefs` knows of them. -/
structure SameKnowledge (s t : State Pid Name Id) (phase : Phase Name Id) (n : Name) : Prop where
  recorded : phase.recorded n ≠ none → t.view n = s.view n
  missed : t.MayMiss phase n → t.Agrees n
  prunes : phase.Prunes n → t.packed.get n ≠ none ∧ t.Agrees n

theorem SameFiles.view_eq (h : SameFiles s t n) : t.view n = s.view n := by
  rw [State.view, State.view, h.loose, h.packed]

theorem SameFiles.agrees (h : SameFiles s t n) (hs : s.Agrees n) : t.Agrees n := by
  intro id hid
  rw [h.view_eq]
  exact hs id (h.packed ▸ hid)

theorem Knows.frame (h : Knows perWorktree s phase)
    (hstep : ∀ n, SameFiles s t n ∨ SameKnowledge s t phase n) : Knows perWorktree t phase := by
  refine ⟨fun n hn hmiss => ?_, fun n id hid => ?_, fun n hprunes => ?_, h.probed⟩
  · rcases hstep n with hsame | hknown
    · refine hsame.agrees (h.missed n hn (mayMiss_of_steady (fun since hsteady => ?_) hmiss))
      exact ⟨hsame.loose ▸ hsteady.1, hsame.born ▸ hsteady.2⟩
    · exact hknown.missed hmiss
  · rcases hstep n with hsame | hknown
    · rw [hsame.view_eq]
      exact h.recorded n id hid
    · rw [hknown.recorded (by simp [hid])]
      exact h.recorded n id hid
  · rcases hstep n with hsame | hknown
    · obtain ⟨hpacked, hs⟩ := h.prunes n hprunes
      exact ⟨hsame.packed ▸ hpacked, hsame.agrees hs⟩
    · exact hknown.prunes hprunes

variable [DecidableEq Name]

theorem get_packableEntries {found : List Name} {listing : Dict Name (Value Name Id)}
    {packed : Dict Name Id} {id : Id}
    (h : (packableEntries perWorktree found listing packed).get n = some id) :
    perWorktree n = false ∧ (listing.get n = some (.direct id) ∨
      n ∉ found ∧ packed.get n = some id) := by
  simp only [packableEntries, Dict.get_filterMap, Dict.get_orElse, Option.bind_eq_some_iff] at h
  obtain ⟨value, hvalue, hid⟩ := h
  cases value with
  | symbolic target => cases hid
  | direct id' =>
    simp only [Option.ite_none_left_eq_some, Bool.not_eq_true, Option.some.injEq] at hid
    obtain ⟨hn, rfl⟩ := hid
    refine ⟨hn, ?_⟩
    rcases Option.or_eq_some_iff.mp hvalue with hlisting | ⟨-, hpacked⟩
    · exact .inl hlisting
    · obtain ⟨packedId, hget, hfound⟩ := Option.bind_eq_some_iff.mp hpacked
      simp only [Option.ite_none_left_eq_some, Option.some.injEq, Value.direct.injEq] at hfound
      exact .inr ⟨hfound.1, hfound.2 ▸ hget⟩

theorem PackMoves.knows {stage : PackStage Name Id} (hmove : PackMoves perWorktree s stage phase)
    (h : Knows perWorktree s (.packing stage))
    (hshared : ∀ n, s.packed.get n ≠ none → perWorktree n = false) :
    Knows perWorktree s phase := by
  cases hmove with
  | @endWalk since found hfound =>
    refine ⟨fun n hn hmiss => ?_, nofun, fun _ => False.elim, nofun⟩
    rcases hmiss with hmiss | hmiss
    · exact h.missed n hn fun hsteady => hmiss (hfound n hsteady hn)
    · cases hmiss
  | @readEntry found todo missed listing n value hloose =>
    refine ⟨h.missed, fun m id hid => ?_, fun _ => False.elim, nofun⟩
    rw [Phase.recorded, actual_eq_some] at hid
    by_cases heq : m = n
    · subst heq
      rw [Dict.get_insert_self] at hid
      rw [view_of_loose hloose, hid]
    · rw [Dict.get_insert_of_ne _ _ heq] at hid
      exact h.recorded m id (actual_eq_some.mpr hid)
  | @missEntry found todo missed listing n hloose =>
    refine ⟨fun m hm hmiss => ?_, h.recorded, fun _ => False.elim, nofun⟩
    rcases hmiss with hmiss | hmiss
    · exact h.missed m hm (.inl hmiss)
    · rcases mem_cons.mp hmiss with rfl | hmiss
      · exact agrees_of_no_loose hloose
      · exact h.missed m hm (.inr hmiss)
  | @readMissed found todo missed listing n id hmissed hpacked =>
    refine ⟨fun m hm hmiss => ?_, fun m id' hid => ?_, fun _ => False.elim, nofun⟩
    · exact h.missed m hm (hmiss.imp_right fun hmem => (mem_filter.mp hmem).1)
    rw [Phase.recorded, actual_eq_some] at hid
    by_cases heq : m = n
    · subst heq
      rw [Dict.get_insert_self] at hid
      cases hid
      exact h.missed m (hshared m (by simp [hpacked])) (.inr hmissed) id hpacked
    · rw [Dict.get_insert_of_ne _ _ heq] at hid
      exact h.recorded m id' (actual_eq_some.mpr hid)
  | missMissed =>
    refine ⟨fun m hm hmiss => ?_, h.recorded, fun _ => False.elim, nofun⟩
    exact h.missed m hm (hmiss.imp_right fun hmem => (mem_filter.mp hmem).1)
  | @listPacked found listing todo =>
    refine ⟨fun _ _ => False.elim, fun n id hid => ?_, fun _ => False.elim, ?_⟩
    · obtain ⟨hn, hlisting | ⟨hfound, hpacked⟩⟩ := get_packableEntries hid
      · exact h.recorded n id (actual_eq_some.mpr hlisting)
      · exact h.missed n hn (.inl hfound) id hpacked
    · rintro _ _ _ ⟨⟩
      refine ⟨nofun, fun n hn => ?_⟩
      obtain ⟨id, hid⟩ := Option.ne_none_iff_exists'.mp hn
      exact (get_packableEntries hid).1
  | @probe packable todo duplicates duplicates' hduplicates todo' =>
    refine ⟨fun _ _ => False.elim, h.recorded, fun _ => False.elim, ?_⟩
    rintro _ _ _ ⟨⟩
    obtain ⟨hprobed, hpacked⟩ := h.probed _ _ _ rfl
    exact ⟨fun n hn => (hduplicates n hn).elim (hprobed n) id, hpacked⟩
  | finish | fail => exact knows_of_not_packing fun _ h => nomatch h

variable {u : Update Name Id}

omit [DecidableEq Name] in
theorem afterPacked_ne_packing {began : ℕ} {locked : Bool}
    {refusal : Option (Refusal Name Id)} (stage : PackStage Name Id) :
    afterPacked u began locked refusal ≠ .packing stage := by
  cases locked <;> cases refusal <;> exact fun h => nomatch h

omit [DecidableEq Name] in
theorem afterRemoval_ne_packing {began : ℕ} {locked packedHeld : Bool}
    {refusal : Option (Refusal Name Id)} (stage : PackStage Name Id) :
    afterRemoval u began locked packedHeld refusal ≠ .packing stage := by
  cases packedHeld
  · exact afterPacked_ne_packing stage
  · exact fun h => nomatch h

variable {e : Event Pid Name Id}

/-- A move keeps what is known. -/
theorem Moves.knows (hmove : Moves perWorktree s e phase)
    (h : Knows perWorktree s (s.phase e.actor)) (hborn : ∀ n, s.born n ≤ s.history.length)
    (hshared : ∀ n, s.packed.get n ≠ none → perWorktree n = false) :
    Knows perWorktree s phase := by
  cases hmove with
  | pack hphase hmove =>
    rw [hphase] at h
    exact hmove.knows h hshared
  | packRefs =>
    refine ⟨fun n _ hmiss => agrees_of_no_loose ?_, nofun, fun _ => False.elim, nofun⟩
    by_contra hloose
    exact hmiss ⟨hloose, hborn n⟩
  | packedLocked => exact knows_of_not_packing afterPacked_ne_packing
  | missLoose => exact knows_of_not_packing afterRemoval_ne_packing
  | _ => exact knows_of_not_packing nofun

/-! ### What an orderly step promises -/

omit [DecidableEq Name] in
theorem Orderly.renameRef {p : Pid} {u : Update Name Id} {content : Value Name Id} {began : ℕ}
    (h : Orderly s (.renameRef p)) (hphase : s.phase p = .writing u content began) (q : Pid) :
    ¬(s.phase q).Remembers u.name ∧
      (s.MayMiss (s.phase q) u.name → s.packed.get u.name = none) := by
  delta Orderly at h
  generalize hp : s.phase (Event.actor (.renameRef p)) = phase at h
  obtain rfl := hp.symm.trans hphase
  exact h q

omit [DecidableEq Name] in
theorem Orderly.probeLeaf {p : Pid} {began : ℕ} {locked : Bool}
    {packed : Dict Name Id} (h : Orderly s (.probeLeaf p))
    (hphase : s.phase p = .deleting u began locked (.probing packed))
    (hpacked : packed.get u.name = none) (hloose : s.loose.get u.name = none) :
    s.packed.get u.name = none := by
  delta Orderly at h
  generalize hp : s.phase (Event.actor (.probeLeaf p)) = phase at h
  obtain rfl := hp.symm.trans hphase
  exact h hpacked hloose

omit [DecidableEq Name] in
theorem Orderly.renamePacked {p : Pid} {u : Update Name Id} {began : ℕ} {locked isFile : Bool}
    {packed : Dict Name Id} (h : Orderly s (.renamePacked p))
    (hphase : s.phase p = .deleting u began locked (.committing packed isFile)) :
    (∀ n, s.packed.get n = packed.get n) ∧ (s.loose.get u.name).isSome = isFile ∧
      ∀ q, ¬(s.phase q).Remembers u.name := by
  delta Orderly at h
  generalize hp : s.phase (Event.actor (.renamePacked p)) = phase at h
  obtain rfl := hp.symm.trans hphase
  exact h

omit [DecidableEq Name] in
theorem Orderly.removeLoose {p : Pid} {u : Update Name Id} {began : ℕ}
    {locked packedHeld : Bool} (h : Orderly s (.removeLoose p))
    (hphase : s.phase p = .deleting u began locked (.removing packedHeld))
    (hloose : s.loose.get u.name ≠ none) :
    s.packed.get u.name = none ∧ ∀ q, ¬(s.phase q).Remembers u.name := by
  delta Orderly at h
  generalize hp : s.phase (Event.actor (.removeLoose p)) = phase at h
  obtain rfl := hp.symm.trans hphase
  exact h hloose

omit [DecidableEq Name] in
theorem Orderly.writePackedRefs {p : Pid} {packable : Dict Name Id} {todo duplicates : List Name}
    (h : Orderly s (.writePackedRefs p))
    (hphase : s.phase p = .packing (.probing packable todo duplicates)) (n : Name)
    (hn : s.packed.get n ≠ none) :
    packable.get n ≠ none ∨ s.loose.get n ≠ none ∧ ∀ q, ¬(s.phase q).Prunes n := by
  delta Orderly at h
  generalize hp : s.phase (Event.actor (.writePackedRefs p)) = phase at h
  obtain rfl := hp.symm.trans hphase
  exact h n hn

/-! ### What takes effect -/

omit [DecidableEq Name] in
theorem not_remembers {q : Pid} (h : ∀ q, ¬(s.phase q).Remembers n) :
    ¬(s.phase q).recorded n ≠ none ∧ ¬(s.phase q).Prunes n :=
  not_or.mp (h q)

omit [DecidableEq Name] in
theorem SameKnowledge.of_not_remembered {q : Pid} (h : ∀ q, ¬(s.phase q).Remembers n)
    (hmissed : t.MayMiss (s.phase q) n → t.Agrees n) : SameKnowledge s t (s.phase q) n :=
  ⟨fun hrecorded => absurd hrecorded (not_remembers h).1, hmissed,
    fun hprunes => absurd hprunes (not_remembers h).2⟩

theorem lastCommitted_append {view : Name → Option (Value Name Id)}
    {history : List (Pid × Update Name Id)} (p : Pid) (u : Update Name Id) (n : Name) :
    lastCommitted view (history ++ [(p, u)]) n =
      if u.name = n then u.change.result else lastCommitted view history n := by
  simp only [lastCommitted, reverse_append, reverse_singleton, singleton_append, find?_cons]
  by_cases heq : u.name = n <;> simp [heq]

theorem Preserved.record {view : Name → Option (Value Name Id)} {p : Pid}
    (h : Preserved view s) (hhistory : t.history = s.history ++ [(p, u)])
    (hname : t.view u.name = u.change.result) (hothers : ∀ n, n ≠ u.name → t.view n = s.view n) :
    Preserved view t := by
  intro n
  rw [hhistory, lastCommitted_append]
  by_cases heq : u.name = n
  · rw [if_pos heq, ← heq, hname]
  · rw [if_neg heq, hothers n (Ne.symm heq)]
    exact h n

theorem Preserved.same {view : Name → Option (Value Name Id)} (h : Preserved view s)
    (hhistory : t.history = s.history) (hview : ∀ n, t.view n = s.view n) : Preserved view t := by
  intro n
  rw [hhistory, hview n]
  exact h n

theorem sameFiles_putLoose (s : State Pid Name Id) {m : Name} (value : Value Name Id)
    (h : m ≠ n) : SameFiles s (s.putLoose n value) m := by
  refine ⟨Dict.get_insert_of_ne _ _ h, rfl, ?_⟩
  rw [State.putLoose]
  dsimp only
  split
  · exact update_of_ne h ..
  · rfl

variable [DecidableEq Pid] {view : Name → Option (Value Name Id)} {p : Pid}

theorem Inv.of_others (h : Inv perWorktree view s) (hlocked : Locked t)
    (hphase : t.phase = update s.phase p phase) (hknows : Knows perWorktree t phase)
    (hothers : ∀ q n, SameFiles s t n ∨ SameKnowledge s t (s.phase q) n)
    (hborn : ∀ n, t.born n ≤ t.history.length)
    (hshared : ∀ n, t.packed.get n ≠ none → perWorktree n = false)
    (hpreserved : Preserved view t) : Inv perWorktree view t := by
  refine ⟨hlocked, fun q => ?_, hborn, hshared, hpreserved⟩
  rw [hphase]
  by_cases heq : q = p
  · rwa [heq, update_self]
  · rw [update_of_ne heq]
    exact (h.knows q).frame (hothers q)

theorem Inv.of_same (h : Inv perWorktree view s) (hlocked : Locked t)
    (hphase : t.phase = update s.phase p phase) (hknows : Knows perWorktree t phase)
    (hloose : t.loose = s.loose) (hpacked : t.packed = s.packed) (hborn : t.born = s.born)
    (hhistory : t.history = s.history) : Inv perWorktree view t := by
  have hsame (n : Name) : SameFiles s t n := ⟨by rw [hloose], by rw [hpacked], by rw [hborn]⟩
  refine h.of_others hlocked hphase hknows (fun _ n => .inl (hsame n)) ?_ ?_
    (h.preserved.same hhistory fun n => (hsame n).view_eq)
  · rw [hborn, hhistory]
    exact h.born_le
  · rw [hpacked]
    exact h.shared

/-- A set takes effect. -/
theorem Inv.renameRef {u : Update Name Id} {content value : Value Name Id} {began : ℕ}
    {creator : Pid} (h : Inv perWorktree view s) (horderly : Orderly s (.renameRef p))
    (hphase : s.phase p = .writing u content began)
    (hlock : s.looseLock u.name = some ⟨creator, some value⟩)
    (hlocked : Locked ((((s.putLoose u.name value).setLooseLock u.name none).record p u).setPhase p
      (.updated u))) :
    Inv perWorktree view ((((s.putLoose u.name value).setLooseLock u.name none).record p u).setPhase
      p (.updated u)) := by
  have hquiet := horderly.renameRef hphase
  have hother (n : Name) (hn : n ≠ u.name) : SameFiles s ((((s.putLoose u.name value).setLooseLock
      u.name none).record p u).setPhase p (.updated u)) n := by
    have hsame := sameFiles_putLoose s value hn
    exact ⟨hsame.loose, hsame.packed, hsame.born⟩
  have hsteady (since : ℕ) (hs : s.Steady since u.name) :
      ((((s.putLoose u.name value).setLooseLock u.name none).record p u).setPhase p
        (.updated u)).Steady since u.name := by
    refine ⟨by simp [State.setPhase, State.record, State.setLooseLock, State.putLoose], ?_⟩
    change (if _ then update _ _ _ else s.born) u.name ≤ since
    rw [if_neg hs.1]
    exact hs.2
  refine h.of_others hlocked rfl (knows_of_not_packing nofun) (fun q n => ?_) (fun n => ?_) h.shared
    (h.preserved.record rfl ?_ fun n hn => (hother n hn).view_eq)
  · by_cases heq : n = u.name
    · subst heq
      refine .inr (.of_not_remembered (fun q => (hquiet q).1) fun hmiss => ?_)
      exact agrees_of_not_packed ((hquiet q).2 (mayMiss_of_steady hsteady hmiss))
    · exact .inl (hother n heq)
  · change (if _ then update _ _ _ else s.born) n ≤ (s.history ++ [(p, u)]).length
    have hborn := h.born_le n
    rw [length_append, length_singleton]
    split
    · by_cases heq : n = u.name
      · rw [heq, update_self]
      · rw [update_of_ne heq]
        omega
    · omega
  · rw [h.locked.result_eq hphase hlock]
    exact view_of_loose (Dict.get_insert_self ..)

theorem Inv.rename_packed {began : ℕ} {locked isFile : Bool}
    {packed content : Dict Name Id} {creator : Pid} (h : Inv perWorktree view s)
    (horderly : Orderly s (.renamePacked p))
    (hphase : s.phase p = .deleting u began locked (.committing packed isFile))
    (hlock : s.packedLock = some ⟨creator, some content⟩) (hlocked : Locked t)
    (hnext : t.phase = update s.phase p phase) (hstage : ∀ stage, phase ≠ .packing stage)
    (hloose : t.loose = s.loose) (hpacked : t.packed = content) (hborn : t.born = s.born)
    (hhistory : t.history = if isFile then s.history else s.history ++ [(p, u)]) :
    Inv perWorktree view t := by
  obtain ⟨hcurrent, hfile, hquiet⟩ := horderly.renamePacked hphase
  have hcontent := h.locked.content_eq hphase hlock
  have hnone : t.packed.get u.name = none := by
    rw [hpacked, hcontent]
    exact Dict.get_erase_self ..
  have hother (n : Name) (hn : n ≠ u.name) : SameFiles s t n := by
    refine ⟨by rw [hloose], ?_, by rw [hborn]⟩
    rw [hpacked, hcontent, hcurrent]
    exact Dict.get_erase_of_ne _ hn
  refine h.of_others hlocked hnext (knows_of_not_packing hstage) (fun q n => ?_) (fun n => ?_)
    (fun n hn => ?_) ?_
  · by_cases heq : n = u.name
    · subst heq
      exact .inr (.of_not_remembered hquiet fun _ => agrees_of_not_packed hnone)
    · exact .inl (hother n heq)
  · have hle := h.born_le n
    rw [hborn, hhistory]
    split
    · exact hle
    · rw [length_append]
      omega
  · by_cases heq : n = u.name
    · exact absurd (heq ▸ hnone) hn
    · exact h.shared n ((hother n heq).packed ▸ hn)
  cases isFile with
  | true =>
    refine h.preserved.same hhistory fun n => ?_
    by_cases heq : n = u.name
    · obtain ⟨value, hvalue⟩ := Option.isSome_iff_exists.mp hfile
      rw [heq, view_of_loose hvalue, view_of_loose (hloose ▸ hvalue)]
    · exact (hother n heq).view_eq
  | false =>
    refine h.preserved.record hhistory ?_ fun n hn => (hother n hn).view_eq
    rw [Option.isSome_eq_false_iff, Option.isNone_iff_eq_none] at hfile
    rw [view_of_no_loose (hloose ▸ hfile), hnone, h.locked.result_eq_none hphase]
    rfl

theorem Inv.removeLoose {u : Update Name Id} {began : ℕ} {locked packedHeld : Bool}
    (h : Inv perWorktree view s) (horderly : Orderly s (.removeLoose p))
    (hphase : s.phase p = .deleting u began locked (.removing packedHeld))
    (hloose : s.loose.get u.name ≠ none)
    (hlocked : Locked (({ s with loose := s.loose.erase u.name }.record p u).setPhase p
      (afterRemoval u began locked packedHeld none))) :
    Inv perWorktree view (({ s with loose := s.loose.erase u.name }.record p u).setPhase p
      (afterRemoval u began locked packedHeld none)) := by
  obtain ⟨hpacked, hquiet⟩ := horderly.removeLoose hphase hloose
  have hother (n : Name) (hn : n ≠ u.name) : SameFiles s (({ s with
      loose := s.loose.erase u.name }.record p u).setPhase p
        (afterRemoval u began locked packedHeld none)) n :=
    ⟨Dict.get_erase_of_ne _ hn, rfl, rfl⟩
  refine h.of_others hlocked rfl (knows_of_not_packing afterRemoval_ne_packing) (fun q n => ?_)
    (fun n => ?_) h.shared (h.preserved.record rfl ?_ fun n hn => (hother n hn).view_eq)
  · by_cases heq : n = u.name
    · subst heq
      exact .inr (.of_not_remembered hquiet fun _ => agrees_of_not_packed hpacked)
    · exact .inl (hother n heq)
  · change s.born n ≤ (s.history ++ [(p, u)]).length
    rw [length_append]
    exact Nat.le_add_right_of_le (h.born_le n)
  · rw [view_of_no_loose (Dict.get_erase_self ..), h.locked.result_eq_none hphase]
    change (s.packed.get u.name).map _ = none
    rw [hpacked]
    rfl

omit [DecidableEq Name] [DecidableEq Pid] in
theorem Knows.packable_view {packable : Dict Name Id} {todo duplicates : List Name} {id : Id}
    (h : Knows perWorktree s (.packing (.probing packable todo duplicates)))
    (hid : packable.get n = some id) : s.view n = some (.direct id) :=
  h.recorded n id hid

omit [DecidableEq Name] [DecidableEq Pid] in
theorem view_writePackedRefs {packable : Dict Name Id} {todo duplicates : List Name}
    (h : Knows perWorktree s (.packing (.probing packable todo duplicates)))
    (hkept : ∀ n, s.packed.get n ≠ none → packable.get n ≠ none ∨ s.loose.get n ≠ none)
    (hloose : t.loose = s.loose) (hpacked : t.packed = packable) (n : Name) :
    t.view n = s.view n := by
  by_cases hn : s.loose.get n = none
  · rw [view_of_no_loose (hloose ▸ hn), hpacked]
    cases hid : packable.get n with
    | some id =>
      rw [h.packable_view hid]
      rfl
    | none =>
      rw [view_of_no_loose hn]
      by_cases hold : s.packed.get n = none
      · rw [hold]
      · rcases hkept n hold with hnew | hloose
        · exact absurd hid hnew
        · exact absurd hn hloose
  · obtain ⟨value, hvalue⟩ := Option.ne_none_iff_exists'.mp hn
    rw [view_of_loose hvalue, view_of_loose (hloose ▸ hvalue)]

theorem Inv.writePackedRefs {packable : Dict Name Id} {duplicates : List Name}
    (h : Inv perWorktree view s) (horderly : Orderly s (.writePackedRefs p))
    (hphase : s.phase p = .packing (.probing packable [] duplicates))
    (hlocked : Locked ({ s with packed := packable }.setPhase p (.packing (.pruning duplicates)))) :
    Inv perWorktree view ({ s with packed := packable }.setPhase p
      (.packing (.pruning duplicates))) := by
  have hkept := horderly.writePackedRefs hphase
  have hknows := h.knows p
  rw [hphase] at hknows
  obtain ⟨hduplicates, hshared⟩ := hknows.probed _ _ _ rfl
  set t := { s with packed := packable }.setPhase p (.packing (.pruning duplicates)) with ht
  have hview (n : Name) : t.view n = s.view n :=
    view_writePackedRefs hknows (fun n hn => (hkept n hn).imp_right And.left)
      (show t.loose = s.loose from rfl) (show t.packed = packable from rfl) n
  have hagrees (n : Name) : t.Agrees n := fun id hid => by
    rw [hview]
    exact hknows.packable_view hid
  refine h.of_others hlocked rfl ⟨fun _ _ => False.elim, nofun, fun n hn => ?_, nofun⟩
    (fun q n => .inr ⟨fun _ => hview n, fun _ => hagrees n, fun hprunes => ?_⟩) h.born_le hshared
    (h.preserved.same rfl hview)
  · exact ⟨hduplicates n hn, hagrees n⟩
  · refine ⟨?_, hagrees n⟩
    rcases hkept n ((h.knows q).prunes n hprunes).1 with hnew | ⟨-, hothers⟩
    · exact hnew
    · exact absurd hprunes (hothers q)

omit [DecidableEq Name] [DecidableEq Pid] in
/-- Pruning changes no ref. -/
theorem view_prune (h : s.packed.get n ≠ none ∧ s.Agrees n) (hloose : t.loose.get n = none)
    (hpacked : t.packed = s.packed) : t.view n = s.view n := by
  obtain ⟨id, hid⟩ := Option.ne_none_iff_exists'.mp h.1
  rw [view_of_no_loose hloose, hpacked, h.2 id hid, hid]
  rfl

theorem Inv.prune {duplicates : List Name} (h : Inv perWorktree view s)
    (hphase : s.phase p = .packing (.pruning duplicates)) (hduplicate : n ∈ duplicates)
    (hlocked : Locked ({ s with loose := s.loose.erase n }.setPhase p
      (.packing (.pruning (duplicates.filter (· ≠ n)))))) :
    Inv perWorktree view ({ s with loose := s.loose.erase n }.setPhase p
      (.packing (.pruning (duplicates.filter (· ≠ n))))) := by
  have hknows := h.knows p
  rw [hphase] at hknows
  have hpruned := hknows.prunes n hduplicate
  set t := { s with loose := s.loose.erase n }.setPhase p
    (.packing (.pruning (duplicates.filter (· ≠ n)))) with ht
  have hloose : t.loose.get n = none := Dict.get_erase_self ..
  have hview : t.view n = s.view n := view_prune hpruned hloose rfl
  have hother (m : Name) (hm : m ≠ n) : SameFiles s t m := ⟨Dict.get_erase_of_ne _ hm, rfl, rfl⟩
  refine h.of_others hlocked rfl ⟨fun _ _ => False.elim, nofun, fun m hm => ?_, nofun⟩
    (fun q m => ?_) h.born_le h.shared (h.preserved.same rfl fun m => ?_)
  · obtain ⟨hmem, hne⟩ := mem_filter.mp hm
    have hsame := hother m (of_decide_eq_true hne)
    obtain ⟨hpacked, hagrees⟩ := hknows.prunes m hmem
    exact ⟨hpacked, hsame.agrees hagrees⟩
  · by_cases heq : m = n
    · subst heq
      refine .inr ⟨fun _ => hview, fun _ => agrees_of_no_loose hloose, fun hprunes => ?_⟩
      exact ⟨((h.knows q).prunes m hprunes).1, agrees_of_no_loose hloose⟩
    · exact .inl (hother m heq)
  · by_cases heq : m = n
    · rw [heq, hview]
    · exact (hother m heq).view_eq

/-- **Every orderly step keeps the invariant.** -/
theorem Inv.effect (h : Inv perWorktree view s) (horderly : Orderly s e)
    (heffect : Effect perWorktree s e t) : Inv perWorktree view t := by
  have hlocked := h.locked.effect heffect
  cases heffect with
  | move hmove =>
    refine h.of_same hlocked rfl ?_ rfl rfl rfl rfl
    exact (hmove.knows (h.knows _) h.born_le h.shared).frame fun n => .inl ⟨rfl, rfl, rfl⟩
  | lockRef | lockLoose | lockPacked | writePacked | unlockRef =>
    exact h.of_same hlocked rfl (knows_of_not_packing nofun) rfl rfl rfl rfl
  | @unlockLoose p u began refusal hphase =>
    refine h.of_same hlocked rfl (knows_of_not_packing fun stage => ?_) rfl rfl rfl rfl
    cases refusal <;> nofun
  | unlockPacked =>
    exact h.of_same hlocked rfl (knows_of_not_packing afterPacked_ne_packing) rfl rfl rfl rfl
  | renameRef hphase hlock => exact h.renameRef horderly hphase hlock hlocked
  | renamePacked hphase hlock =>
    exact h.rename_packed horderly hphase hlock hlocked rfl nofun rfl rfl rfl rfl
  | dropPacked hphase hlock =>
    exact h.rename_packed horderly hphase hlock hlocked rfl afterPacked_ne_packing rfl rfl rfl rfl
  | removeLoose hphase hloose => exact h.removeLoose horderly hphase hloose hlocked
  | @skip p u began locked packed hphase hpacked hloose =>
    have hnone := horderly.probeLeaf hphase hpacked hloose
    refine h.of_others hlocked rfl (knows_of_not_packing nofun)
      (fun q n => .inl ⟨rfl, rfl, rfl⟩) (fun n => ?_) h.shared
      (h.preserved.record rfl ?_ fun n _ => rfl)
    · change s.born n ≤ (s.history ++ [(p, u)]).length
      rw [length_append]
      exact Nat.le_add_right_of_le (h.born_le n)
    · change s.view u.name = _
      rw [view_of_no_loose hloose, hnone, h.locked.result_eq_none hphase]
      rfl
  | writePackedRefs hphase => exact h.writePackedRefs horderly hphase hlocked
  | prune hphase hduplicate => exact h.prune hphase hduplicate hlocked

omit [DecidableEq Pid] in
theorem Initial.inv (h : Initial perWorktree s) : Inv perWorktree s.view s := by
  refine ⟨⟨fun n => ?_, ?_, fun p => ?_⟩, fun p => ?_, fun n => ?_, h.shared, fun n => ?_⟩
  · rw [h.looseLock_eq]
    exact Owned.empty fun p => by simp [h.phase_eq p, Phase.looseLock]
  · rw [h.packedLock_eq]
    exact Owned.empty fun p => by simp [h.phase_eq p, Phase.packedLock]
  · rw [h.phase_eq]
    trivial
  · rw [h.phase_eq]
    refine knows_of_not_packing fun stage hphase => ?_
    cases hphase
  · rw [h.born_eq]
    exact Nat.zero_le _
  · rw [h.history_eq]
    rfl

/-- A step of `packRefs` takes nothing away. -/
theorem Inv.safePacking {stage : PackStage Name Id}
    (h : Inv perWorktree view s) (horderly : Orderly s e) (heffect : Effect perWorktree s e t)
    (hpacking : s.phase e.actor = .packing stage) : SafePacking s t := by
  have hkeeps (t : State Pid Name Id) (hloose : t.loose = s.loose) (hpacked : t.packed = s.packed) :
      SafePacking s t := by
    refine ⟨fun n value hvalue hnone => ?_, fun n id hid hold => ?_, fun n => ?_⟩
    · rw [hloose, hvalue] at hnone
      cases hnone
    · rw [hpacked] at hid
      exact absurd hid hold
    · rw [State.view, State.view, hloose, hpacked]
  cases heffect with
  | move => exact hkeeps _ rfl rfl
  | @writePackedRefs p packable duplicates hphase =>
    have hkept := horderly.writePackedRefs hphase
    have hknows := h.knows p
    rw [hphase] at hknows
    refine ⟨fun n value hvalue hnone => ?_, fun n id hid _ => hknows.packable_view hid,
      view_writePackedRefs hknows (fun n hn => (hkept n hn).imp_right And.left) rfl rfl⟩
    change s.loose.get n = none at hnone
    rw [hvalue] at hnone
    cases hnone
  | @prune p n duplicates hphase hduplicate =>
    have hknows := h.knows p
    rw [hphase] at hknows
    have hpruned := hknows.prunes n hduplicate
    have hview (m : Name) : ({ s with loose := s.loose.erase n }.setPhase p
        (.packing (.pruning (duplicates.filter (· ≠ n))))).view m = s.view m := by
      by_cases heq : m = n
      · subst heq
        exact view_prune hpruned (Dict.get_erase_self ..) rfl
      · exact SameFiles.view_eq ⟨Dict.get_erase_of_ne _ heq, rfl, rfl⟩
    refine ⟨fun m value hvalue hnone => ?_, fun m id hid hold => absurd hid hold, hview⟩
    have heq : m = n := by
      by_contra hne
      change (s.loose.erase n).get m = none at hnone
      rw [Dict.get_erase_of_ne _ hne, hvalue] at hnone
      cases hnone
    subst heq
    obtain ⟨id, hid⟩ := Option.ne_none_iff_exists'.mp hpruned.1
    refine ⟨id, ?_, hid⟩
    have hagrees := hpruned.2 id hid
    rw [view_of_loose hvalue] at hagrees
    exact Option.some.inj hagrees
  | _ hphase =>
    simp only [Event.actor] at hpacking
    rw [hphase] at hpacking
    cases hpacking

/-- **Packing beside updates is safe when the steps are orderly.** In every such run every ref
resolves to the value of the last update of it that took effect, and no step of `packRefs` loses a
value or writes an outdated one. -/
theorem preserved_of_orderly [DecidableEq Id] {s₀ : State Pid Name Id}
    (hinitial : Initial perWorktree s₀)
    (h : Reachable (step perWorktree) Orderly (Eq s₀) s) :
    Preserved s₀.view s ∧ ∀ e t stage, Orderly s e → step perWorktree s e = some t →
      s.phase e.actor = .packing stage → SafePacking s t := by
  have hkeep (s : State Pid Name Id) (e : Event Pid Name Id) (t : State Pid Name Id)
      (hs : Inv perWorktree s₀.view s) (horderly : Orderly s e)
      (ht : step perWorktree s e = some t) : Inv perWorktree s₀.view t :=
    hs.effect horderly (effect_of_step ht)
  have hinv : Inv perWorktree s₀.view s := h.invariant (fun _ hs => hs ▸ hinitial.inv) hkeep
  exact ⟨hinv.preserved, fun e t stage horderly ht hpacking =>
    hinv.safePacking horderly (effect_of_step ht) hpacking⟩

end

/-! ### Runs -/

def oneRef : State Trio Trio ℕ where
  loose := Dict.empty.insert .p0 (.direct 0)
  looseLock _ := none
  packed := .empty
  packedLock := none
  phase _ := .idle
  history := []
  born _ := 0

theorem oneRef_initial : Initial (fun _ => false) oneRef :=
  ⟨fun _ => rfl, fun _ => rfl, rfl, rfl, fun _ => rfl, fun _ _ => rfl⟩

instance (s : State Trio Trio ℕ) (since : ℕ) (n : Trio) : Decidable (s.Steady since n) :=
  inferInstanceAs (Decidable (_ ∧ _))

instance (phase : Phase Trio ℕ) (n : Trio) : Decidable (phase.Prunes n) := by
  unfold Phase.Prunes
  split <;> infer_instance

instance (s : State Trio Trio ℕ) (phase : Phase Trio ℕ) (n : Trio) :
    Decidable (s.MayMiss phase n) := by
  unfold State.MayMiss
  split <;> infer_instance

instance (phase : Phase Trio ℕ) (n : Trio) : Decidable (phase.Remembers n) :=
  inferInstanceAs (Decidable (_ ∨ _))

instance (s : State Trio Trio ℕ) (e : Event Trio Trio ℕ) : Decidable (Orderly s e) := by
  unfold Orderly
  split <;> infer_instance

def setPackDelete : List (Event Trio Trio ℕ) :=
  [.packRefs p0, .endWalk p0 [p0], .begin p1 ⟨p0, .set 1, some (some 0)⟩, .readLoose p1,
    .lockRef p1, .renameRef p1, .readEntry p0 p0, .listPacked p0, .probeLoose p0 p0,
    .writePackedRefs p0, .prune p0 p0, .begin p2 ⟨p0, .delete, none⟩, .statParent p2 true,
    .lockLoose p2, .lockPacked p2, .loadPacked p2, .probeLeaf p2, .writePacked p2,
    .renamePacked p2, .unlockLoose p2]

/-- What is promised, at the end of that run. -/
theorem preserved_after_setPackDelete :
    ∃ s, Reachable (step fun _ => false) Orderly (Eq oneRef) s ∧ s.view p0 = none ∧
      s.history.length = 2 ∧ (Preserved oneRef.view s ∧
        ∀ e t stage, Orderly s e → step (fun _ => false) s e = some t →
          s.phase e.actor = .packing stage → SafePacking s t) := by
  obtain ⟨s, hs, hend⟩ := exists_reachable_of_exec (step fun _ => false) Orderly setPackDelete
    (fun s => s.view p0 = none ∧ s.history.length = 2) (Eq.refl oneRef) (by decide)
  obtain ⟨hview, hlength⟩ := of_decide_eq_true hend
  exact ⟨s, hs, hview, hlength, preserved_of_orderly oneRef_initial hs⟩

def setBeforePrune : List (Event Trio Trio ℕ) :=
  [.packRefs p0, .endWalk p0 [p0], .readEntry p0 p0, .listPacked p0, .probeLoose p0 p0,
    .begin p1 ⟨p0, .set 1, some (some 0)⟩, .readLoose p1, .lockRef p1, .renameRef p1,
    .writePackedRefs p0, .prune p0 p0]

/-- **A set is lost.** -/
theorem not_preserved_of_setBeforePrune :
    ¬ ∀ s, Reachable (step fun _ => false) (fun _ _ => True) (Eq oneRef) s →
      Preserved oneRef.view s := by
  intro hpreserved
  obtain ⟨s, hs, hbad⟩ := exists_reachable_of_exec (step fun _ => false) (fun _ _ => True)
    setBeforePrune
    (fun s => s.view p0 = some (.direct 0) ∧ s.history = [(p1, ⟨p0, .set 1, some (some 0)⟩)])
    (Eq.refl oneRef) (by decide)
  obtain ⟨hview, hhistory⟩ := of_decide_eq_true hbad
  have heq := hpreserved s hs p0
  rw [hview, hhistory] at heq
  exact absurd heq (by decide)

/-! ### The locks -/

section

variable {Pid Name Id : Type*} [DecidableEq Pid] [DecidableEq Name] [DecidableEq Id]
  {perWorktree : Name → Bool} {s₀ s t : State Pid Name Id}

theorem Locked.of_reachable (hinitial : Initial perWorktree s₀)
    (h : Reachable (step perWorktree) (fun _ _ => True) (Eq s₀) s) : Locked s :=
  h.invariant (fun _ hs => hs ▸ hinitial.inv.locked)
    fun _ _ _ hs _ ht => hs.effect (effect_of_step ht)

/-- **The locks of refs**, in every run, crashes included: one process at most holds each; a lock
file belongs to a process that holds it or has crashed; and a rename puts in place what its process
wrote. -/
theorem locks_of_reachable (hinitial : Initial perWorktree s₀)
    (h : Reachable (step perWorktree) (fun _ _ => True) (Eq s₀) s) :
    (∀ n p q, (s.phase p).looseLock = some n → (s.phase q).looseLock = some n → p = q) ∧
    (∀ p q, (s.phase p).packedLock = true → (s.phase q).packedLock = true → p = q) ∧
    (∀ n file, s.looseLock n = some file →
      s.phase file.creator = .crashed ∨ (s.phase file.creator).looseLock = some n) ∧
    (∀ file, s.packedLock = some file →
      s.phase file.creator = .crashed ∨ (s.phase file.creator).packedLock = true) ∧
    (∀ p u content began, s.phase p = .writing u content began →
      s.looseLock u.name = some ⟨p, some content⟩ ∧ u.change.result = some content) ∧
    ∀ p u began locked packed isFile,
      s.phase p = .deleting u began locked (.committing packed isFile) →
        s.packedLock = some ⟨p, some (packed.erase u.name)⟩ ∧ u.change.result = none := by
  have hlocked := Locked.of_reachable hinitial h
  refine ⟨fun n p q => (hlocked.loose n).unique, fun p q => hlocked.packed.unique,
    fun n => (hlocked.loose n).holder_of_file, hlocked.packed.holder_of_file, ?_, ?_⟩
  · intro p u content began hphase
    have hstaged := hlocked.staged p
    rw [hphase] at hstaged
    obtain ⟨⟨creator, staged⟩, hlock, rfl⟩ :=
      (hlocked.loose u.name).exists_file (p := p) (by rw [hphase]; rfl)
    obtain rfl : staged = some content := hstaged.2 _ hlock
    exact ⟨hlock, hstaged.1⟩
  · intro p u began locked packed isFile hphase
    have hstaged := hlocked.staged p
    rw [hphase] at hstaged
    obtain ⟨⟨creator, staged⟩, hlock, rfl⟩ :=
      hlocked.packed.exists_file (p := p) (by rw [hphase]; rfl)
    obtain rfl : staged = some (packed.erase u.name) := hstaged.2 _ _ rfl _ hlock
    exact ⟨hlock, hstaged.1⟩

/-- A process crashes while it holds the lock of a ref. -/
theorem locks_of_reachable_crashed : ∃ s,
    Reachable (step fun _ => false) (fun _ _ => True) (Eq oneRef) s ∧ s.looseLock p0 ≠ none ∧
      ∀ n file, s.looseLock n = some file →
        s.phase file.creator = .crashed ∨ (s.phase file.creator).looseLock = some n := by
  obtain ⟨s, hs, hend⟩ := exists_reachable_of_exec (step fun _ => false) (fun _ _ => True)
    [.begin p1 ⟨p0, .set 1, none⟩, .lockRef p1, .crash p1]
    (fun s => (s.looseLock p0).isSome) (Eq.refl oneRef) (by decide)
  refine ⟨s, hs, fun hnone => ?_, (locks_of_reachable oneRef_initial hs).2.2.1⟩
  rw [hnone] at hend
  cases hend

omit [DecidableEq Id] in
theorem Effect.actor_phase {e : Event Pid Name Id} (h : Effect perWorktree s e t) :
    ∃ phase, t.phase = update s.phase e.actor phase ∧
      (s.phase e.actor = .crashed → phase = .crashed) := by
  cases h with
  | move hmove =>
    exact ⟨_, rfl, fun hcrashed => hmove.locks.elim id fun h => absurd hcrashed h.1⟩
  | _ hphase => exact ⟨_, rfl, fun hcrashed => by simp_all [Event.actor]⟩

omit [DecidableEq Id] in
/-- Only its holder takes a lock away. -/
theorem Effect.looseLock {e : Event Pid Name Id} {n : Name} (h : Effect perWorktree s e t) :
    t.looseLock n = s.looseLock n ∨ s.looseLock n = none ∨
      (s.phase e.actor).looseLock = some n := by
  by_contra hnot
  obtain ⟨hchanged, hnone, hholds⟩ := not_or.mp hnot |>.imp id not_or.mp
  refine hchanged ?_
  cases h with
  | lockRef _ _ hlock | lockLoose _ hlock =>
    exact update_of_ne (by rintro rfl; exact hnone hlock) _ _
  | unlockRef hphase | unlockLoose hphase | renameRef hphase =>
    exact update_of_ne
      (by rintro rfl; exact hholds (by simp [Event.actor, hphase, Phase.looseLock])) _ _
  | _ => rfl

omit [DecidableEq Pid] [DecidableEq Id] in
theorem Locked.not_held (hlocked : Locked s) {n : Name} {file : LockFile Pid (Value Name Id)}
    (hlock : s.looseLock n = some file) (hcrashed : s.phase file.creator = .crashed) (p : Pid) :
    (s.phase p).looseLock ≠ some n := by
  intro hholds
  rw [← (hlocked.loose n).creator_eq hholds hlock, hcrashed] at hholds
  cases hholds

/-- **A stale lock stays**: the ref of a process that crashed with its lock is locked in every later
state, and every set of it is refused. -/
theorem stale_lock_stays (hinitial : Initial perWorktree s₀)
    (h : Reachable (step perWorktree) (fun _ _ => True) (Eq s₀) s) {n : Name}
    {file : LockFile Pid (Value Name Id)} (hlock : s.looseLock n = some file)
    (hcrashed : s.phase file.creator = .crashed)
    (hlater : Reachable (step perWorktree) (fun _ _ => True) (Eq s) t) :
    t.looseLock n = some file ∧ (∀ p, (t.phase p).looseLock ≠ some n) ∧
      ∀ p u began, t.phase p = .compared u began → u.name = n → u.change.result ≠ none →
        step perWorktree t (.lockRef p) = some (t.setPhase p (.failed (.refLocked n))) := by
  have hkeep (v : State Pid Name Id) (e : Event Pid Name Id) (w : State Pid Name Id)
      (hstale : v.looseLock n = some file ∧ v.phase file.creator = .crashed ∧ Locked v)
      (_ : True) (hstep : step perWorktree v e = some w) :
      w.looseLock n = some file ∧ w.phase file.creator = .crashed ∧ Locked w := by
    obtain ⟨hkept, hgone, hv⟩ := hstale
    have heffect := effect_of_step hstep
    obtain ⟨phase, hphase, hstays⟩ := heffect.actor_phase
    refine ⟨?_, ?_, hv.effect heffect⟩
    · rcases heffect.looseLock (n := n) with hsame | hnone | hholds
      · rw [hsame, hkept]
      · rw [hnone] at hkept
        cases hkept
      · exact absurd hholds (hv.not_held hkept hgone _)
    · rw [hphase, update_apply]
      split_ifs with heq
      · exact hstays (heq ▸ hgone)
      · exact hgone
  obtain ⟨hkept, hgone, hlocked⟩ := hlater.invariant
    (fun _ hs => hs ▸ ⟨hlock, hcrashed, Locked.of_reachable hinitial h⟩) hkeep
  refine ⟨hkept, hlocked.not_held hkept hgone, ?_⟩
  rintro p u began hphase rfl hresult
  obtain ⟨content, hcontent⟩ := Option.ne_none_iff_exists'.mp hresult
  simp [step, Event.actor, hphase, updateStep, hcontent, hkept]

/-- A second process begins to set the ref of that one. -/
theorem stale_lock_stays_begun : ∃ t : State Trio Trio ℕ, t.phase p2 ≠ .idle ∧
    t.looseLock p0 = some ⟨p1, some (.direct 1)⟩ ∧ ∀ p, (t.phase p).looseLock ≠ some p0 := by
  have hs := (Reachable.start (Eq.refl oneRef)).exec
    (show exec (step fun _ => false) (fun _ _ => True) oneRef
      [.begin p1 ⟨p0, .set 1, none⟩, .lockRef p1, .crash p1] = some _ from rfl)
  have hstays := @stale_lock_stays _ _ _ _ _ _ _ _ _ _ oneRef_initial hs p0
    ⟨p1, some (.direct 1)⟩ rfl rfl
    (.next (e := .begin p2 ⟨p0, .set 2, none⟩) (.start rfl) trivial rfl)
  refine ⟨_, fun h => ?_, hstays.1, hstays.2.1⟩
  cases h

end

end Tsgit.RefStore
