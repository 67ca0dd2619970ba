import Tsgit.RefPack

/-!
# Compare-and-Swap on Refs

An update compares what it expects before it takes a lock, so that another update of the
ref can take effect between the comparison and the lock.
-/

namespace Tsgit.RefStore

open Interleaving Interleaving.Trio List LockPath Function

variable {Pid Name Id : Type*}

/-! ### What is promised -/

/-- The sequential compare-and-swap. -/
def applyCas [DecidableEq Name] [DecidableEq Id] (view : Name → Option (Value Name Id))
    (u : Update Name Id) : Option (Name → Option (Value Name Id)) :=
  if u.expected = some (Value.actual (view u.name)) then
    some (update view u.name u.change.result)
  else none

def Phase.TookEffect (phase : Phase Name Id) (u : Update Name Id) : Prop :=
  phase.effective = some u ∨ phase = .crashed

/-- `order` explains the state: it holds just the updates that succeeded, and run sequentially each
finds what it expects and they leave what the refs resolve to. -/
structure Explains [DecidableEq Name] [DecidableEq Id] (view : Name → Option (Value Name Id))
    (s : State Pid Name Id) (order : List (Pid × Update Name Id)) : Prop where
  succeeded : ∀ p u, s.phase p = .updated u → (p, u) ∈ order
  tookEffect : ∀ entry ∈ order, (s.phase entry.1).TookEffect entry.2
  nodup : (order.map Prod.fst).Nodup
  sequential : order.foldlM (fun view entry => applyCas view entry.2) view = some s.view

/-- The updates that succeed can be put in one order. -/
def Linearizable [DecidableEq Name] [DecidableEq Id] (view : Name → Option (Value Name Id))
    (s : State Pid Name Id) : Prop :=
  ∃ order, Explains view s order

/-- No update of `n` has taken effect since the history had length `began`. -/
def State.Quiet (s : State Pid Name Id) (n : Name) (began : ℕ) : Prop :=
  ∀ entry ∈ s.history.drop began, entry.2.name ≠ n

/-- Only updates with an expected value run. -/
def updatesOnly : Event Pid Name Id → Bool
  | .begin _ u => u.expected.isSome
  | .packRefs _ => false
  | _ => true

/-- The update that takes effect by a step, and the length of the history when it read its ref. -/
def State.takesEffect (s : State Pid Name Id) (e : Event Pid Name Id) :
    Option (Update Name Id × ℕ) :=
  match e, s.phase e.actor with
  | .renameRef _, .writing u _ began => some (u, began)
  | .probeLeaf _, .deleting u began _ (.probing packed) =>
    if (packed.get u.name).isNone ∧ (s.loose.get u.name).isNone then some (u, began) else none
  | .renamePacked _, .deleting u began _ (.committing _ false) => some (u, began)
  | .removeLoose _, .deleting u began _ (.removing _) =>
    if (s.loose.get u.name).isSome then some (u, began) else none
  | _, _ => none

/-- When an update takes effect, no other update of its ref has taken effect since it read
the ref for its comparison. -/
def Undisturbed (s : State Pid Name Id) (e : Event Pid Name Id) : Prop :=
  ∀ effect ∈ s.takesEffect e, s.Quiet effect.1.name effect.2

/-! ### Sequential runs -/

section

variable [DecidableEq Name] [DecidableEq Id] {view view' : Name → Option (Value Name Id)}

theorem applyCas_eq_some {u : Update Name Id} (h : applyCas view u = some view') :
    u.expected = some (Value.actual (view u.name)) ∧
      view' = update view u.name u.change.result := by
  rw [applyCas] at h
  split at h
  · next hexpected => exact ⟨hexpected, (Option.some.inj h).symm⟩
  · cases h

/-- A value that is no longer there and that nobody writes back stays away. -/
theorem actual_ne_of_foldlM {order : List (Pid × Update Name Id)} {n : Name} {actual : Option Id}
    (h : order.foldlM (fun view entry => applyCas view entry.2) view = some view')
    (hview : Value.actual (view n) ≠ actual)
    (hwrites : ∀ entry ∈ order, entry.2.name = n → Value.actual entry.2.change.result ≠ actual) :
    Value.actual (view' n) ≠ actual := by
  induction order generalizing view with
  | nil =>
    cases h
    exact hview
  | cons entry order ih =>
    rw [foldlM_cons] at h
    obtain ⟨next, hnext, hrest⟩ := Option.bind_eq_some_iff.mp h
    obtain ⟨-, rfl⟩ := applyCas_eq_some hnext
    refine ih hrest ?_ (forall_mem_cons.mp hwrites).2
    by_cases heq : n = entry.2.name
    · rw [heq, update_self]
      exact hwrites entry mem_cons_self heq.symm
    · rwa [update_of_ne heq]

theorem exists_writer_of_foldlM {before between : List (Pid × Update Name Id)}
    {first second : Pid × Update Name Id} {after : List (Pid × Update Name Id)}
    (h : (before ++ first :: (between ++ second :: after)).foldlM
      (fun view entry => applyCas view entry.2) view = some view')
    (hname : first.2.name = second.2.name) (hexpected : first.2.expected = second.2.expected) :
    ∃ entry ∈ first :: between, entry.2.name = first.2.name ∧
      some (Value.actual entry.2.change.result) = first.2.expected := by
  rw [foldlM_append] at h
  obtain ⟨start, -, h⟩ := Option.bind_eq_some_iff.mp h
  rw [← cons_append, foldlM_append] at h
  obtain ⟨middle, hmiddle, h⟩ := Option.bind_eq_some_iff.mp h
  rw [foldlM_cons] at h
  obtain ⟨_, hsecond, -⟩ := Option.bind_eq_some_iff.mp h
  obtain ⟨hfound, -⟩ := applyCas_eq_some hsecond
  by_contra hnobody
  have hwrites : ∀ entry ∈ first :: between, entry.2.name = first.2.name →
      Value.actual entry.2.change.result ≠ Value.actual (middle first.2.name) := by
    intro entry hentry hentryName hactual
    refine hnobody ⟨entry, hentry, hentryName, ?_⟩
    rw [hactual, hexpected, hfound, hname]
  rw [foldlM_cons] at hmiddle
  obtain ⟨next, hnext, hmiddle⟩ := Option.bind_eq_some_iff.mp hmiddle
  obtain ⟨-, rfl⟩ := applyCas_eq_some hnext
  refine actual_ne_of_foldlM hmiddle ?_ (fun entry hentry =>
    hwrites entry (mem_cons_of_mem _ hentry)) rfl
  rw [update_self]
  exact hwrites first mem_cons_self rfl

/-- **Two updates that expect the same value of one ref both succeed only if somebody writes
that value back.** -/
theorem Explains.exists_writer {s : State Pid Name Id} {order : List (Pid × Update Name Id)}
    (h : Explains view s order) {p q : Pid} {u w : Update Name Id} (hpq : p ≠ q)
    (hp : s.phase p = .updated u) (hq : s.phase q = .updated w) (hname : u.name = w.name)
    (hexpected : u.expected = w.expected) :
    ∃ r x, (s.phase r).TookEffect x ∧ x.name = u.name ∧
      some (Value.actual x.change.result) = u.expected := by
  -- the one of the two that comes first
  have hkey (first second : Pid × Update Name Id) (before after : List (Pid × Update Name Id))
      (horder : order = before ++ first :: after) (hsecond : second ∈ after)
      (hname : first.2.name = second.2.name) (hexpected : first.2.expected = second.2.expected) :
      ∃ r x, (s.phase r).TookEffect x ∧ x.name = first.2.name ∧
        some (Value.actual x.change.result) = first.2.expected := by
    obtain ⟨between, rest, rfl⟩ := append_of_mem hsecond
    have hrun := h.sequential
    rw [horder] at hrun
    obtain ⟨entry, hentry, hentryName, hwrites⟩ := exists_writer_of_foldlM hrun hname hexpected
    refine ⟨entry.1, entry.2, h.tookEffect entry ?_, hentryName, hwrites⟩
    rw [horder]
    rcases mem_cons.mp hentry with rfl | hentry
    · exact mem_append_right _ mem_cons_self
    · exact mem_append_right _ (mem_cons_of_mem _ (mem_append_left _ hentry))
  obtain ⟨before, after, horder⟩ := append_of_mem (h.succeeded p u hp)
  have hmem := h.succeeded q w hq
  rw [horder, mem_append, mem_cons] at hmem
  rcases hmem with hbefore | heq | hafter
  · obtain ⟨front, back, rfl⟩ := append_of_mem hbefore
    have hlater : (p, u) ∈ back ++ (p, u) :: after := mem_append_right _ mem_cons_self
    rw [append_assoc, cons_append] at horder
    have hfound := hkey (q, w) (p, u) front _ horder hlater hname.symm hexpected.symm
    rwa [← hname, ← hexpected] at hfound
  · cases heq
    exact absurd rfl hpq
  · exact hkey (p, u) (q, w) before after horder hafter hname hexpected

end

/-! ### The invariant -/

/-- While no other update of the ref takes effect, the comparison holds. -/
def State.Compared (s : State Pid Name Id) (u : Update Name Id) (began : ℕ) : Prop :=
  began ≤ s.history.length ∧
    (s.Quiet u.name began → u.expected = some (Value.actual (s.view u.name)))

def CasKnows (s : State Pid Name Id) : Phase Name Id → Prop
  | .comparing u => u.expected ≠ none
  | .comparingPacked u began => u.expected ≠ none ∧ began ≤ s.history.length ∧
      (s.Quiet u.name began → s.loose.get u.name = none)
  | .compared u began | .writing u _ began | .lockingLoose u began => s.Compared u began
  | .deleting u began _ stage =>
    match stage with
    | .lockingPacked | .loading => s.Compared u began
    | .probing packed => s.Compared u began ∧ s.packed = packed
    | .writing packed isFile | .committing packed isFile =>
      s.Compared u began ∧ s.packed = packed ∧ packed.get u.name ≠ none ∧
        (isFile = true → s.loose.get u.name ≠ none) ∧
        (isFile = false → s.Quiet u.name began → s.loose.get u.name = none)
    | .removing _ => s.Compared u began ∧ s.packed.get u.name = none
    | .unlockingPacked _ | .unlockingLoose _ => True
  | .packing _ => False
  | .idle | .unlocking .. | .updated _ | .packed | .failed _ | .crashed => True

structure CasInv (view : Name → Option (Value Name Id)) (s : State Pid Name Id)
    [DecidableEq Name] [DecidableEq Id] : Prop where
  knows : ∀ p, CasKnows s (s.phase p)
  effective : ∀ p u, (s.phase p).effective = some u → (p, u) ∈ s.history
  tookEffect : ∀ entry ∈ s.history, (s.phase entry.1).TookEffect entry.2
  nodup : (s.history.map Prod.fst).Nodup
  sequential : s.history.foldlM (fun view entry => applyCas view entry.2) view = some s.view

section

variable {s t : State Pid Name Id} {phase : Phase Name Id} {began : ℕ}

/-- The history grows by one update at most; the other refs stay as they are, and so does the loose
file of a packed ref. -/
structure Respects (s t : State Pid Name Id) : Prop where
  history : t.history = s.history ∨ ∃ entry, t.history = s.history ++ [entry]
  view_eq : ∀ m, (∀ entry, t.history = s.history ++ [entry] → entry.2.name ≠ m) →
    t.view m = s.view m
  loose_eq : ∀ m, (∀ entry, t.history = s.history ++ [entry] → entry.2.name ≠ m) →
    t.loose.get m = s.loose.get m
  packed_none : ∀ m, s.packed.get m = none → t.packed.get m = none
  loose_some : ∀ m, s.packed.get m ≠ none → s.loose.get m ≠ none → t.loose.get m ≠ none

theorem Respects.length_le (h : Respects s t) : s.history.length ≤ t.history.length := by
  rcases h.history with heq | ⟨entry, heq⟩
  · rw [heq]
  · rw [heq, length_append]
    exact Nat.le_add_right _ _

theorem Respects.quiet {m : Name} (h : Respects s t) (hbegan : began ≤ s.history.length)
    (hquiet : t.Quiet m began) :
    s.Quiet m began ∧ ∀ entry, t.history = s.history ++ [entry] → entry.2.name ≠ m := by
  have hlast (entry : Pid × Update Name Id) (heq : t.history = s.history ++ [entry]) :
      entry.2.name ≠ m := by
    rw [State.Quiet, heq, drop_append_of_le_length hbegan] at hquiet
    exact hquiet entry (mem_append_right _ (mem_singleton_self _))
  refine ⟨fun other hother => hquiet other ?_, hlast⟩
  rcases h.history with heq | ⟨entry, heq⟩
  · rwa [heq]
  · rw [heq, drop_append_of_le_length hbegan]
    exact mem_append_left _ hother

variable {u : Update Name Id}

theorem State.Compared.frame (h : s.Compared u began)
    (hstep : Respects s t) : t.Compared u began := by
  refine ⟨h.1.trans hstep.length_le, fun hquiet => ?_⟩
  obtain ⟨hold, hother⟩ := hstep.quiet h.1 hquiet
  rw [hstep.view_eq _ hother]
  exact h.2 hold

theorem CasKnows.frame (h : CasKnows s phase) (hstep : Respects s t)
    (hpacked : phase.packedLock = true → t.packed = s.packed) : CasKnows t phase := by
  have hnone {u : Update Name Id} {began : ℕ} (hbegan : began ≤ s.history.length)
      (hloose : s.Quiet u.name began → s.loose.get u.name = none)
      (hquiet : t.Quiet u.name began) : t.loose.get u.name = none := by
    obtain ⟨hold, hother⟩ := hstep.quiet hbegan hquiet
    rw [hstep.loose_eq _ hother]
    exact hloose hold
  cases phase with
  | comparing => exact h
  | comparingPacked u began =>
    obtain ⟨hexpected, hbegan, hloose⟩ := h
    exact ⟨hexpected, hbegan.trans hstep.length_le, hnone hbegan hloose⟩
  | compared | writing | lockingLoose => exact State.Compared.frame h hstep
  | deleting u began locked stage =>
    cases stage with
    | lockingPacked | loading => exact State.Compared.frame h hstep
    | probing packed => exact ⟨h.1.frame hstep, (hpacked rfl).trans h.2⟩
    | writing packed isFile | committing packed isFile =>
      obtain ⟨hcompared, heq, hname, hfile, hnoFile⟩ := h
      refine ⟨hcompared.frame hstep, (hpacked rfl).trans heq, hname, fun hisFile => ?_,
        fun hisFile => hnone hcompared.1 (hnoFile hisFile)⟩
      exact hstep.loose_some _ (heq ▸ hname) (hfile hisFile)
    | removing packedHeld => exact ⟨h.1.frame hstep, hstep.packed_none _ h.2⟩
    | unlockingPacked | unlockingLoose => trivial
  | packing => exact h
  | idle | unlocking | updated | packed | failed | crashed => trivial

theorem Respects.of_same (hhistory : t.history = s.history) (hloose : t.loose = s.loose)
    (hpacked : t.packed = s.packed) : Respects s t :=
  ⟨.inl hhistory, fun m _ => by rw [State.view, State.view, hloose, hpacked],
    fun m _ => by rw [hloose], fun m hm => by rwa [hpacked], fun m _ hm => by rwa [hloose]⟩

theorem Respects.of_record {entry : Pid × Update Name Id}
    (hhistory : t.history = s.history ++ [entry])
    (hothers : ∀ m, m ≠ entry.2.name → SameFiles s t m)
    (hpacked : s.packed.get entry.2.name = none → t.packed.get entry.2.name = none)
    (hloose : s.packed.get entry.2.name ≠ none → s.loose.get entry.2.name ≠ none →
      t.loose.get entry.2.name ≠ none) : Respects s t := by
  refine ⟨.inr ⟨entry, hhistory⟩, fun m hm => ?_, fun m hm => ?_, fun m hm => ?_, fun m hm hfile => ?_⟩
  · exact (hothers m (hm entry hhistory).symm).view_eq
  · exact (hothers m (hm entry hhistory).symm).loose
  · by_cases heq : m = entry.2.name
    · subst heq
      exact hpacked hm
    · rwa [(hothers m heq).packed]
  · by_cases heq : m = entry.2.name
    · subst heq
      exact hloose hm hfile
    · rwa [(hothers m heq).loose]

/-! ### Preservation -/

variable [DecidableEq Name] {perWorktree : Name → Bool}

variable {e : Event Pid Name Id}

/-- What checks have shown is known. -/
theorem Moves.casKnows (hmove : Moves perWorktree s e phase)
    (honly : updatesOnly e) (h : CasKnows s (s.phase e.actor)) : CasKnows s phase := by
  cases hmove with
  | crash | fail | refuse | refuseDelete => trivial
  | begin _ hexpected => exact hexpected
  | skip _ hexpected hevent =>
    rw [hevent] at honly
    exact absurd hexpected (Option.isSome_iff_ne_none.mp honly)
  | packRefs _ hevent =>
    rw [hevent] at honly
    cases honly
  | miss hphase hloose =>
    rw [hphase] at h
    exact ⟨h, Nat.le_refl _, fun _ => hloose⟩
  | @matchLoose u value hphase hloose hexpected =>
    rw [hphase] at h
    refine ⟨Nat.le_refl _, fun _ => ?_⟩
    obtain ⟨id, hid⟩ := Option.ne_none_iff_exists'.mp h
    rw [view_of_loose hloose, hid, hexpected id hid]
  | @matchPacked u began hphase hexpected =>
    rw [hphase] at h
    obtain ⟨hsome, hbegan, hloose⟩ := h
    refine ⟨hbegan, fun hquiet => ?_⟩
    obtain ⟨id, hid⟩ := Option.ne_none_iff_exists'.mp hsome
    rw [view_of_no_loose (hloose hquiet), hid, hexpected id hid]
    cases s.packed.get u.name <;> rfl
  | statParent hphase _ | statMissing hphase _ =>
    rw [hphase] at h
    exact h
  | @packedLocked u began locked refusal hphase =>
    cases locked <;> trivial
  | loadPacked hphase =>
    rw [hphase] at h
    exact ⟨h, rfl⟩
  | @probePacked u began locked packed hphase hpacked =>
    rw [hphase] at h
    refine ⟨h.1, h.2, hpacked, fun hfile => Option.isSome_iff_ne_none.mp hfile, fun hfile _ => ?_⟩
    rwa [Option.isSome_eq_false_iff, Option.isNone_iff_eq_none] at hfile
  | probeLoose hphase hpacked =>
    rw [hphase] at h
    exact ⟨h.1, h.2 ▸ hpacked⟩
  | @missLoose u began locked packedHeld refusal hphase =>
    cases packedHeld <;> cases locked <;> trivial
  | pack hphase _ =>
    rw [hphase] at h
    exact h.elim

theorem Moves.effective (hmove : Moves perWorktree s e phase)
    (h : CasKnows s (s.phase e.actor)) :
    phase = .crashed ∨ s.phase e.actor ≠ .crashed ∧ phase.effective = (s.phase e.actor).effective := by
  cases hmove with
  | crash => exact .inl rfl
  | fail hlive _ _ hundone => exact .inr ⟨hlive, hundone.symm⟩
  | refuseDelete hphase _ hundone => exact .inr ⟨by simp [hphase], hundone.symm⟩
  | @packedLocked u began locked refusal hphase =>
    rw [hphase]
    cases locked <;> exact .inr ⟨by simp, rfl⟩
  | @missLoose u began locked packedHeld refusal hphase =>
    rw [hphase]
    cases packedHeld <;> cases locked <;> exact .inr ⟨by simp, rfl⟩
  | pack hphase _ =>
    rw [hphase] at h
    exact h.elim
  | _ hphase => exact .inr ⟨by simp [hphase], by rw [hphase]; rfl⟩

variable [DecidableEq Pid] [DecidableEq Id] {view : Name → Option (Value Name Id)} {p : Pid}

theorem CasInv.knows_step (h : CasInv view s) (hphase : t.phase = update s.phase p phase)
    (hknows : CasKnows t phase) (hstep : Respects s t)
    (hpacked : ∀ q, q ≠ p → (s.phase q).packedLock = true → t.packed = s.packed) (q : Pid) :
    CasKnows t (t.phase q) := by
  rw [hphase]
  by_cases heq : q = p
  · rwa [heq, update_self]
  · rw [update_of_ne heq]
    exact (h.knows q).frame hstep (hpacked q heq)

/-- A step that no update takes effect by. -/
theorem CasInv.of_same (h : CasInv view s) (hphase : t.phase = update s.phase p phase)
    (hknows : CasKnows t phase) (hstep : Respects s t)
    (hpacked : ∀ q, q ≠ p → (s.phase q).packedLock = true → t.packed = s.packed)
    (hhistory : t.history = s.history)
    (heffective : phase = .crashed ∨
      s.phase p ≠ .crashed ∧ phase.effective = (s.phase p).effective) : CasInv view t := by
  refine ⟨h.knows_step hphase hknows hstep hpacked, fun q u hq => ?_, fun entry hentry => ?_, ?_, ?_⟩
  · rw [hhistory]
    rw [hphase] at hq
    by_cases heq : q = p
    · subst heq
      rw [update_self] at hq
      rcases heffective with rfl | ⟨-, heffective⟩
      · cases hq
      · exact h.effective q u (heffective ▸ hq)
    · rw [update_of_ne heq] at hq
      exact h.effective q u hq
  · rw [hhistory] at hentry
    have htook := h.tookEffect entry hentry
    rw [hphase]
    by_cases heq : entry.1 = p
    · rw [heq, update_self]
      rw [heq] at htook
      rcases heffective with rfl | ⟨hlive, heffective⟩
      · exact .inr rfl
      · exact .inl (htook.elim heffective.trans fun hcrashed => absurd hcrashed hlive)
    · rwa [update_of_ne heq]
  · rw [hhistory]
    exact h.nodup
  have hview : t.view = s.view := by
    funext m
    refine hstep.view_eq m fun entry hentry => ?_
    rw [hhistory] at hentry
    exact absurd hentry (by simp)
  rw [hhistory, hview]
  exact h.sequential

theorem CasInv.of_record (h : CasInv view s)
    (hphase : t.phase = update s.phase p phase) (hknows : CasKnows t phase)
    (hstep : Respects s t)
    (hpacked : ∀ q, q ≠ p → (s.phase q).packedLock = true → t.packed = s.packed)
    (hhistory : t.history = s.history ++ [(p, u)]) (hlive : s.phase p ≠ .crashed)
    (hbefore : (s.phase p).effective = none) (hafter : phase.effective = some u)
    (hcompared : s.Compared u began) (hquiet : s.Quiet u.name began)
    (hresult : t.view u.name = u.change.result) : CasInv view t := by
  have hfresh (u' : Update Name Id) : ¬(s.phase p).TookEffect u' := by
    rintro (heffective | hcrashed)
    · rw [hbefore] at heffective
      cases heffective
    · exact hlive hcrashed
  refine ⟨h.knows_step hphase hknows hstep hpacked, fun q w hq => ?_, fun entry hentry => ?_, ?_, ?_⟩
  · rw [hhistory]
    rw [hphase] at hq
    by_cases heq : q = p
    · subst heq
      rw [update_self, hafter] at hq
      cases hq
      exact mem_append_right _ (mem_singleton_self _)
    · rw [update_of_ne heq] at hq
      exact mem_append_left _ (h.effective q w hq)
  · rw [hhistory, mem_append, mem_singleton] at hentry
    rw [hphase]
    rcases hentry with hold | rfl
    · have hne : entry.1 ≠ p := fun heq => hfresh entry.2 (heq ▸ h.tookEffect entry hold)
      rw [update_of_ne hne]
      exact h.tookEffect entry hold
    · rw [update_self]
      exact .inl hafter
  · rw [hhistory, map_append, map_singleton, nodup_append]
    refine ⟨h.nodup, pairwise_singleton _ _, fun q hq q' hq' heq => ?_⟩
    obtain ⟨entry, hentry, rfl⟩ := mem_map.mp hq
    have hp : entry.1 = p := heq.trans (mem_singleton.mp hq')
    exact hfresh entry.2 (hp ▸ h.tookEffect entry hentry)
  have hview : t.view = update s.view u.name u.change.result := by
    funext m
    by_cases heq : m = u.name
    · rw [heq, update_self, hresult]
    · rw [update_of_ne heq]
      refine hstep.view_eq m fun entry hentry => ?_
      rw [hhistory] at hentry
      obtain rfl := singleton_inj.mp (append_cancel_left hentry)
      exact Ne.symm heq
  rw [hhistory, foldlM_append, h.sequential]
  change (applyCas s.view u).bind some = some t.view
  rw [applyCas, if_pos (hcompared.2 hquiet), hview]
  rfl

omit [DecidableEq Name] [DecidableEq Pid] [DecidableEq Id] in
theorem effective_afterPacked (u : Update Name Id) (began : ℕ) (locked : Bool)
    (refusal : Option (Refusal Name Id)) :
    (afterPacked u began locked refusal).effective = if refusal = none then some u else none := by
  cases locked <;> cases refusal <;> rfl

omit [DecidableEq Name] [DecidableEq Pid] [DecidableEq Id] in
theorem effective_afterRemoval (u : Update Name Id) (began : ℕ) (locked packedHeld : Bool) :
    (afterRemoval u began locked packedHeld none).effective = some u := by
  cases packedHeld <;> cases locked <;> rfl

omit [DecidableEq Name] [DecidableEq Pid] [DecidableEq Id] in
theorem casKnows_afterPacked {locked : Bool}
    {refusal : Option (Refusal Name Id)} : CasKnows s (afterPacked u began locked refusal) := by
  cases locked <;> cases refusal <;> trivial

omit [DecidableEq Name] [DecidableEq Pid] [DecidableEq Id] in
theorem casKnows_afterRemoval {locked packedHeld : Bool}
    {refusal : Option (Refusal Name Id)} :
    CasKnows s (afterRemoval u began locked packedHeld refusal) := by
  cases packedHeld <;> cases locked <;> cases refusal <;> trivial

omit [DecidableEq Pid] in
theorem CasInv.not_packing (h : CasInv view s) (q : Pid) (stage : PackStage Name Id) :
    s.phase q ≠ .packing stage := by
  intro hphase
  have hknows := h.knows q
  rw [hphase] at hknows
  exact hknows

omit [DecidableEq Pid] in
theorem CasInv.not_remembers (h : CasInv view s) (q : Pid) (n : Name) :
    ¬(s.phase q).Remembers n := by
  have hstage := h.not_packing q
  rintro (hrecorded | hprunes)
  · cases hphase : s.phase q with
    | packing stage => exact hstage stage hphase
    | _ =>
      rw [hphase] at hrecorded
      exact hrecorded rfl
  · cases hphase : s.phase q with
    | packing stage => exact hstage stage hphase
    | _ =>
      rw [hphase] at hprunes
      exact hprunes

omit [DecidableEq Pid] in
theorem CasInv.not_mayMiss (h : CasInv view s) (q : Pid) (n : Name) :
    ¬s.MayMiss (s.phase q) n := by
  have hstage := h.not_packing q
  intro hmiss
  cases hphase : s.phase q with
  | packing stage => exact hstage stage hphase
  | _ =>
    rw [hphase] at hmiss
    exact hmiss

omit [DecidableEq Pid] in
/-- **An undisturbed step is orderly.** -/
theorem CasInv.orderly (h : CasInv view s)
    (hundisturbed : Undisturbed s e) : Orderly s e := by
  have hknows := h.knows e.actor
  unfold Orderly
  split
  · exact fun q => ⟨h.not_remembers q _, fun hmiss => absurd hmiss (h.not_mayMiss q _)⟩
  · next q u began locked packed hphase =>
    rw [hphase] at hknows
    exact fun hpacked _ => hknows.2 ▸ hpacked
  · next q u began locked packed isFile hphase =>
    rw [hphase] at hknows
    obtain ⟨-, heq, -, hfile, hnoFile⟩ := hknows
    refine ⟨fun n => by rw [heq], ?_, fun q => h.not_remembers q _⟩
    cases isFile with
    | true => exact Option.isSome_iff_ne_none.mpr (hfile rfl)
    | false =>
      rw [Option.isSome_eq_false_iff, Option.isNone_iff_eq_none]
      exact hnoFile rfl (hundisturbed (u, began) (by simp [State.takesEffect, hphase]))
  · next q u began locked packedHeld hphase =>
    rw [hphase] at hknows
    exact fun _ => ⟨hknows.2, fun q => h.not_remembers q _⟩
  · next hphase => exact absurd hphase (h.not_packing _ _)
  · trivial

omit [DecidableEq Pid] [DecidableEq Id] in
theorem Locked.not_packedLock {locked isFile : Bool}
    {packed : Dict Name Id} (h : Locked s)
    (hphase : s.phase p = .deleting u began locked (.committing packed isFile)) (q : Pid)
    (hne : q ≠ p) : (s.phase q).packedLock ≠ true :=
  fun hq => hne (h.packed.unique hq (by rw [hphase]; rfl))

theorem CasInv.renamePacked {u : Update Name Id} {began : ℕ} {locked : Bool}
    {packed content : Dict Name Id} {creator : Pid} (h : CasInv view s) (hlocked : Locked s)
    (hphase : s.phase p = .deleting u began locked (.committing packed true))
    (hlock : s.packedLock = some ⟨creator, some content⟩) :
    CasInv view ({ s with packed := content, packedLock := none }.setPhase p
      (.deleting u began locked (.removing false))) := by
  have hknows := h.knows p
  rw [hphase] at hknows
  obtain ⟨hcompared, rfl, -, hfile, -⟩ := hknows
  rw [hlocked.content_eq hphase hlock]
  have hother (m : Name) (hm : m ≠ u.name) : SameFiles s
      ({ s with packed := s.packed.erase u.name, packedLock := none }.setPhase p
        (.deleting u began locked (.removing false))) m :=
    ⟨rfl, Dict.get_erase_of_ne _ hm, rfl⟩
  have hstep : Respects s ({ s with packed := s.packed.erase u.name, packedLock := none }.setPhase p
      (.deleting u began locked (.removing false))) := by
    refine ⟨.inl rfl, fun m _ => ?_, fun m _ => rfl, fun m hm => ?_, fun m _ hm => hm⟩
    · by_cases heq : m = u.name
      · obtain ⟨value, hvalue⟩ := Option.ne_none_iff_exists'.mp (hfile rfl)
        rw [heq, view_of_loose hvalue]
        exact view_of_loose hvalue
      · exact (hother m heq).view_eq
    · by_cases heq : m = u.name
      · rw [heq]
        exact Dict.get_erase_self ..
      · rwa [(hother m heq).packed]
  exact h.of_same rfl ⟨hcompared.frame hstep, Dict.get_erase_self ..⟩ hstep
    (fun q hne hq => absurd hq (hlocked.not_packedLock hphase q hne)) rfl
    (.inr (by simp [hphase, Phase.effective]))

theorem CasInv.dropPacked {u : Update Name Id} {began : ℕ} {locked : Bool}
    {packed content : Dict Name Id} {creator : Pid} (h : CasInv view s) (hlocked : Locked s)
    (hquiet : s.Quiet u.name began)
    (hphase : s.phase p = .deleting u began locked (.committing packed false))
    (hlock : s.packedLock = some ⟨creator, some content⟩) :
    CasInv view (({ s with packed := content, packedLock := none }.record p u).setPhase p
      (afterPacked u began locked none)) := by
  have hknows := h.knows p
  rw [hphase] at hknows
  obtain ⟨hcompared, rfl, -, -, hnoFile⟩ := hknows
  have hloose : s.loose.get u.name = none := hnoFile rfl hquiet
  rw [hlocked.content_eq hphase hlock]
  refine h.of_record rfl casKnows_afterPacked
    (.of_record rfl (fun m hm => ⟨rfl, Dict.get_erase_of_ne _ hm, rfl⟩)
      (fun _ => Dict.get_erase_self ..) fun _ hfile => absurd hloose hfile)
    (fun q hne hq => absurd hq (hlocked.not_packedLock hphase q hne)) rfl (by simp [hphase])
    (by rw [hphase]; rfl) (effective_afterPacked ..) hcompared hquiet ?_
  rw [hlocked.result_eq_none hphase]
  refine (view_of_no_loose ?_).trans ?_
  · exact hloose
  · change ((s.packed.erase u.name).get u.name).map _ = none
    rw [Dict.get_erase_self]
    rfl

/-- **Every undisturbed step keeps the invariant.** -/
theorem CasInv.effect (h : CasInv view s) (hlocked : Locked s)
    (honly : updatesOnly e) (hundisturbed : Undisturbed s e) (heffect : Effect perWorktree s e t) : CasInv view t := by
  have hsame {t : State Pid Name Id} {p : Pid} {phase : Phase Name Id}
      (hphase : t.phase = update s.phase p phase) (hknows : CasKnows s phase)
      (hloose : t.loose = s.loose) (hpacked : t.packed = s.packed)
      (hhistory : t.history = s.history) (heffective : phase = .crashed ∨
        s.phase p ≠ .crashed ∧ phase.effective = (s.phase p).effective) : CasInv view t := by
    have hstep := Respects.of_same hhistory hloose hpacked
    exact h.of_same hphase (hknows.frame hstep fun _ => hpacked) hstep (fun _ _ _ => hpacked) hhistory
      heffective
  cases heffect with
  | @move e phase hmove =>
    have hknows := h.knows e.actor
    exact hsame rfl (hmove.casKnows honly hknows) rfl rfl rfl (hmove.effective hknows)
  | @lockRef p u content began hphase _ _ =>
    have hknows := h.knows p
    rw [hphase] at hknows
    exact hsame rfl hknows rfl rfl rfl (.inr (by simp [hphase, Phase.effective]))
  | @lockLoose p u began hphase _ =>
    have hknows := h.knows p
    rw [hphase] at hknows
    exact hsame rfl hknows rfl rfl rfl (.inr (by simp [hphase, Phase.effective]))
  | unlockRef hphase =>
    exact hsame rfl trivial rfl rfl rfl (.inr (by simp [hphase, Phase.effective]))
  | @unlockLoose p u began refusal hphase =>
    cases refusal <;>
      exact hsame rfl trivial rfl rfl rfl (.inr (by simp [hphase, Phase.effective, concluded]))
  | @lockPacked p u began locked hphase _ =>
    have hknows := h.knows p
    rw [hphase] at hknows
    exact hsame rfl hknows rfl rfl rfl (.inr (by simp [hphase, Phase.effective]))
  | @writePacked p u began locked isFile packed hphase =>
    have hknows := h.knows p
    rw [hphase] at hknows
    exact hsame rfl hknows rfl rfl rfl (.inr (by simp [hphase, Phase.effective]))
  | @unlockPacked p u began locked refusal hphase =>
    refine hsame rfl casKnows_afterPacked rfl rfl rfl (.inr ⟨by simp [hphase], ?_⟩)
    rw [hphase, effective_afterPacked]
    cases refusal <;> rfl
  | writePackedRefs hphase | prune hphase _ => exact absurd hphase (h.not_packing _ _)
  | @renameRef p u content value began creator hphase hlock =>
    have hknows := h.knows p
    have hquiet : s.Quiet u.name began :=
      hundisturbed (u, began) (by simp [State.takesEffect, Event.actor, hphase])
    rw [hphase] at hknows
    have hloose := Dict.get_insert_self s.loose u.name value
    refine h.of_record rfl trivial (.of_record rfl (fun m hm => ?_) id fun _ _ => ?_)
      (fun _ _ _ => rfl) rfl (by simp [hphase]) (by rw [hphase]; rfl) rfl hknows hquiet ?_
    · have hother := sameFiles_putLoose s value hm
      exact ⟨hother.loose, hother.packed, hother.born⟩
    · exact Option.ne_none_iff_exists'.mpr ⟨value, hloose⟩
    · rw [hlocked.result_eq hphase hlock]
      exact view_of_loose hloose
  | @renamePacked p u began locked packed content creator hphase hlock =>
    exact h.renamePacked hlocked hphase hlock
  | @dropPacked p u began locked packed content creator hphase hlock =>
    have hquiet : s.Quiet u.name began :=
      hundisturbed (u, began) (by simp [State.takesEffect, Event.actor, hphase])
    exact h.dropPacked hlocked hquiet hphase hlock
  | @removeLoose p u began locked packedHeld hphase hloose =>
    have hknows := h.knows p
    have hquiet : s.Quiet u.name began := hundisturbed (u, began)
      (by simp [State.takesEffect, Event.actor, hphase, Option.isSome_iff_ne_none, hloose])
    rw [hphase] at hknows
    obtain ⟨hcompared, hpacked⟩ := hknows
    refine h.of_record rfl casKnows_afterRemoval
      (.of_record rfl (fun m hm => ⟨Dict.get_erase_of_ne _ hm, rfl, rfl⟩) id
        fun hname _ => absurd hpacked hname)
      (fun _ _ _ => rfl) rfl (by simp [hphase]) (by rw [hphase]; rfl)
      (effective_afterRemoval ..) hcompared hquiet ?_
    rw [view_of_no_loose (Dict.get_erase_self ..), hlocked.result_eq_none hphase]
    change (s.packed.get u.name).map _ = none
    rw [hpacked]
    rfl
  | @skip p u began locked packed hphase hpacked hloose =>
    have hknows := h.knows p
    have hquiet : s.Quiet u.name began := hundisturbed (u, began)
      (by simp [State.takesEffect, Event.actor, hphase, hpacked, hloose])
    rw [hphase] at hknows
    obtain ⟨hcompared, heq⟩ := hknows
    refine h.of_record rfl trivial
      (.of_record rfl (fun m _ => ⟨rfl, rfl, rfl⟩) id fun _ hfile => hfile)
      (fun _ _ _ => rfl) rfl (by simp [hphase]) (by rw [hphase]; rfl) rfl hcompared
      hquiet ?_
    change s.view u.name = _
    rw [view_of_no_loose hloose, heq, hpacked, hlocked.result_eq_none hphase]
    rfl

omit [DecidableEq Pid] in
theorem Initial.casInv (h : Initial perWorktree s) : CasInv s.view s := by
  refine ⟨fun p => ?_, fun p u hp => ?_, fun entry hentry => ?_, ?_, ?_⟩
  · rw [h.phase_eq]
    trivial
  · rw [h.phase_eq] at hp
    cases hp
  · rw [h.history_eq] at hentry
    cases hentry
  · rw [h.history_eq]
    exact nodup_nil
  · rw [h.history_eq]
    rfl

omit [DecidableEq Pid] in
/-- The history explains the state. -/
theorem CasInv.explains (h : CasInv view s) : Explains view s s.history :=
  ⟨fun p u hp => h.effective p u (by rw [hp]; rfl), h.tookEffect, h.nodup, h.sequential⟩

/-- **Compare-and-swap is linearizable when it is undisturbed**: in every run in which an update
takes effect only while no other update of its ref has since it read the ref, the updates that
succeed have one order in which each finds the value it expects. -/
theorem linearizable_of_undisturbed {s₀ : State Pid Name Id} (hinitial : Initial perWorktree s₀)
    (h : Reachable (step perWorktree) (fun s e => updatesOnly e ∧ Undisturbed s e) (Eq s₀) s) :
    Linearizable s₀.view s ∧ ∀ p q u w, p ≠ q → s.phase p = .updated u → s.phase q = .updated w →
      u.name = w.name → u.expected = w.expected →
        ∃ r x, (s.phase r).TookEffect x ∧ x.name = u.name ∧
          some (Value.actual x.change.result) = u.expected := by
  have hkeep (s : State Pid Name Id) (e : Event Pid Name Id) (t : State Pid Name Id)
      (hs : Inv perWorktree s₀.view s ∧ CasInv s₀.view s) (hok : updatesOnly e ∧ Undisturbed s e)
      (ht : step perWorktree s e = some t) : Inv perWorktree s₀.view t ∧ CasInv s₀.view t := by
    have heffect := effect_of_step ht
    exact ⟨hs.1.effect (hs.2.orderly hok.2) heffect, hs.2.effect hs.1.locked hok.1 hok.2 heffect⟩
  have hinv : Inv perWorktree s₀.view s ∧ CasInv s₀.view s :=
    h.invariant (fun _ hs => hs ▸ ⟨hinitial.inv, hinitial.casInv⟩) hkeep
  have hexplains := hinv.2.explains
  exact ⟨⟨_, hexplains⟩, fun _ _ _ _ hpq hp hq hname hexpected =>
    hexplains.exists_writer hpq hp hq hname hexpected⟩

end

/-! ### Runs -/

instance (s : State Trio Trio ℕ) (n : Trio) (began : ℕ) : Decidable (s.Quiet n began) :=
  inferInstanceAs (Decidable (∀ entry ∈ _, _))

instance (s : State Trio Trio ℕ) (e : Event Trio Trio ℕ) : Decidable (Undisturbed s e) :=
  inferInstanceAs (Decidable (∀ effect ∈ s.takesEffect e, _))

def setThenDelete : List (Event Trio Trio ℕ) :=
  [.begin p0 ⟨p0, .set 1, some (some 0)⟩, .begin p1 ⟨p0, .set 2, some (some 0)⟩, .readLoose p0,
    .lockRef p0, .renameRef p0, .readLoose p1, .begin p2 ⟨p0, .delete, some (some 1)⟩,
    .readLoose p2, .statParent p2 true, .lockLoose p2, .lockPacked p2, .loadPacked p2,
    .probeLeaf p2, .removeLoose p2, .unlockPacked p2, .unlockLoose p2]

/-- The one order of that run. -/
theorem linearizable_after_setThenDelete :
    ∃ s, Reachable (step fun _ => false) (fun s e => updatesOnly e ∧ Undisturbed s e)
        (Eq oneRef) s ∧
      s.view p0 = none ∧ s.history.length = 2 ∧ (Linearizable oneRef.view s ∧
        ∀ p q u w, p ≠ q → s.phase p = .updated u → s.phase q = .updated w → u.name = w.name →
          u.expected = w.expected → ∃ r x, (s.phase r).TookEffect x ∧ x.name = u.name ∧
            some (Value.actual x.change.result) = u.expected) := by
  obtain ⟨s, hs, hend⟩ := exists_reachable_of_exec (step fun _ => false)
    (fun s e => updatesOnly e ∧ Undisturbed s e) setThenDelete
    (fun s => s.view p0 = none ∧ s.history.length = 2) (Eq.refl oneRef) (by decide)
  obtain ⟨hview, hlength⟩ := of_decide_eq_true hend
  exact ⟨s, hs, hview, hlength, linearizable_of_undisturbed oneRef_initial hs⟩

def bothCompare : List (Event Trio Trio ℕ) :=
  [.begin p0 ⟨p0, .set 1, some (some 0)⟩, .begin p1 ⟨p0, .set 2, some (some 0)⟩, .readLoose p0,
    .readLoose p1, .lockRef p0, .renameRef p0, .lockRef p1, .renameRef p1]

/-- **Two sets that expect the same value both succeed.** -/
theorem not_linearizable_of_bothCompare :
    ¬ ∀ s, Reachable (step fun _ => false) (fun _ e => updatesOnly e) (Eq oneRef) s →
      Linearizable oneRef.view s := by
  intro hlinearizable
  obtain ⟨s, hs, hbad⟩ := exists_reachable_of_exec (step fun _ => false)
    (fun _ e => updatesOnly e) bothCompare
    (fun s => match s.phase p0, s.phase p1, s.phase p2 with
      | .updated u, .updated w, .idle =>
        u = ⟨p0, .set 1, some (some 0)⟩ ∧ w = ⟨p0, .set 2, some (some 0)⟩
      | _, _, _ => false) (Eq.refl oneRef) (by decide)
  split at hbad
  · next u w hphase0 hphase1 hphase2 =>
    obtain ⟨rfl, rfl⟩ := of_decide_eq_true hbad
    obtain ⟨order, hexplains⟩ := hlinearizable s hs
    -- some process would have had to write `0` back
    obtain ⟨r, x, htook, -, hwrites⟩ := hexplains.exists_writer (by decide) hphase0 hphase1 rfl rfl
    rcases htook with heffective | hcrashed
    · cases r with
      | p0 =>
        rw [hphase0] at heffective
        cases heffective
        exact absurd hwrites (by decide)
      | p1 =>
        rw [hphase1] at heffective
        cases heffective
        exact absurd hwrites (by decide)
      | p2 =>
        rw [hphase2] at heffective
        cases heffective
    · cases r <;> simp [hphase0, hphase1, hphase2] at hcrashed
  · cases hbad

end Tsgit.RefStore
