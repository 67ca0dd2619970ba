import Mathlib.Tactic.Linarith

/-!
# Interleaved Runs

Safety of a transition system whose steps are the atomic actions of its processes in any
order. A system is a step function `σ → ε → Option σ` (`none`: the event is not enabled)
together with a condition `ok` on the steps a run may take.
-/

namespace Interleaving

variable {σ ε : Type*}

/-- The states that runs from `init` reach by steps that meet `ok`. -/
inductive Reachable (step : σ → ε → Option σ) (ok : σ → ε → Prop) (init : σ → Prop) : σ → Prop
  | start {s : σ} : init s → Reachable step ok init s
  | next {s t : σ} {e : ε} :
      Reachable step ok init s → ok s e → step s e = some t → Reachable step ok init t

section

variable {step : σ → ε → Option σ} {ok ok' : σ → ε → Prop} {init inv : σ → Prop}

/-- **The invariant rule.** -/
theorem Reachable.invariant (hinit : ∀ s, init s → inv s)
    (hstep : ∀ s e t, inv s → ok s e → step s e = some t → inv t) {s : σ}
    (h : Reachable step ok init s) : inv s := by
  induction h with
  | start hs => exact hinit _ hs
  | next _ hok ht ih => exact hstep _ _ _ ih hok ht

end

/-- The processes of a system of three. -/
inductive Trio
  | p0
  | p1
  | p2
  deriving DecidableEq

instance {P : Trio → Prop} [DecidablePred P] : Decidable (∀ p, P p) :=
  decidable_of_iff (P .p0 ∧ P .p1 ∧ P .p2)
    ⟨fun ⟨h0, h1, h2⟩ p => by cases p <;> assumption, fun h => ⟨h _, h _, h _⟩⟩

/-- Runs a schedule; `none` when one of its events is not enabled or misses `ok`. -/
def exec (step : σ → ε → Option σ) (ok : σ → ε → Prop) [∀ s e, Decidable (ok s e)] :
    σ → List ε → Option σ
  | s, [] => some s
  | s, e :: es => if ok s e then (step s e).bind fun t => exec step ok t es else none

theorem Reachable.exec {step : σ → ε → Option σ} {ok : σ → ε → Prop}
    [∀ s e, Decidable (ok s e)] {init : σ → Prop} {s t : σ} {es : List ε}
    (hs : Reachable step ok init s) (h : exec step ok s es = some t) :
    Reachable step ok init t := by
  induction es generalizing s with
  | nil =>
    cases h
    exact hs
  | cons e es ih =>
    rw [Interleaving.exec] at h
    split at h
    · next hok =>
      obtain ⟨u, hu, hrest⟩ := Option.bind_eq_some_iff.mp h
      exact ih (.next hs hok hu) hrest
    · cases h

theorem exists_reachable_of_exec (step : σ → ε → Option σ) (ok : σ → ε → Prop)
    [∀ s e, Decidable (ok s e)] {init : σ → Prop} {s : σ} (es : List ε) (bad : σ → Bool)
    (hs : init s) (h : (exec step ok s es).any bad = true) :
    ∃ t, Reachable step ok init t ∧ bad t = true := by
  obtain ⟨t, ht, hbad⟩ := (Option.any_eq_true _ _).mp h
  exact ⟨t, (Reachable.start hs).exec ht, hbad⟩

end Interleaving
