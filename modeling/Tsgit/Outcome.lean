import Tsgit.Loop

/-!
# Outcomes

A computation that may refuse: what holds of its answer, and what its refusals are. The rules
compose the two along a program, so that a long parser is followed step by step.
-/

/-- The answer satisfies `post`, or the error is one that `refuses` allows. -/
def Outcome {ε α : Type} (refuses : ε → Prop) (post : α → Prop) : Except ε α → Prop
  | .ok a => post a
  | .error e => refuses e

open List

namespace Outcome

variable {ε α β : Type} {refuses : ε → Prop} {post : α → Prop}

theorem ok {a : α} (h : post a) : Outcome refuses post (.ok a) := h

theorem pure {a : α} (h : post a) : Outcome refuses post (pure a : Except ε α) := h

theorem error {e : ε} (h : refuses e) : Outcome refuses post (.error e : Except ε α) := h

theorem bind {step : Except ε α} {next : α → Except ε β} {post' : β → Prop}
    (h : Outcome refuses post step) (hnext : ∀ a, post a → Outcome refuses post' (next a)) :
    Outcome refuses post' (step >>= next) := by
  cases step with
  | error e => exact h
  | ok a => exact hnext a h

theorem bind_eq {step : Except ε α} {next : α → Except ε β} {post' : β → Prop}
    (h : Outcome refuses post step)
    (hnext : ∀ a, step = .ok a → post a → Outcome refuses post' (next a)) :
    Outcome refuses post' (step >>= next) := by
  cases step with
  | error e => exact h
  | ok a => exact hnext a rfl h

theorem ite {c : Prop} [Decidable c] {yes no : Except ε α}
    (hyes : c → Outcome refuses post yes) (hno : ¬ c → Outcome refuses post no) :
    Outcome refuses post (if c then yes else no) := by
  by_cases hc : c
  · rw [if_pos hc]
    exact hyes hc
  · rw [if_neg hc]
    exact hno hc

theorem mono {post' : α → Prop} {run : Except ε α} (h : Outcome refuses post run)
    (himp : ∀ a, post a → post' a) : Outcome refuses post' run := by
  cases run with
  | error e => exact h
  | ok a => exact himp a h

theorem weaken {refuses' : ε → Prop} {run : Except ε α} (h : Outcome refuses post run)
    (himp : ∀ e, refuses e → refuses' e) : Outcome refuses' post run := by
  cases run with
  | error e => exact himp e h
  | ok a => exact h

theorem any (run : Except ε α) : Outcome (fun _ => True) (fun _ => True) run := by
  cases run <;> trivial

theorem ok_iff {a : α} : Outcome refuses post (.ok a) ↔ post a := Iff.rfl

theorem error_iff {e : ε} : Outcome refuses post (.error e : Except ε α) ↔ refuses e := Iff.rfl

/-- The rule of a list of steps. -/
theorem mapM {γ : Type} {items : List γ} {step : γ → Except ε α}
    (h : ∀ item ∈ items, Outcome refuses post (step item)) :
    Outcome refuses (fun answers => ∀ a ∈ answers, post a) (items.mapM step) := by
  induction items with
  | nil => exact .pure fun a ha => absurd ha not_mem_nil
  | cons item items ih =>
    rw [mapM_cons]
    refine (h item mem_cons_self).bind fun a ha => ?_
    refine (ih (forall_mem_cons.mp h).2).bind fun rest hrest => ?_
    refine .pure fun b hb => ?_
    rcases mem_cons.mp hb with rfl | hmem
    · exact ha
    · exact hrest b hmem

theorem elim {run : Except ε α} (h : Outcome refuses post run) :
    (∃ e, run = .error e ∧ refuses e) ∨ ∃ a, run = .ok a ∧ post a := by
  cases run with
  | error e => exact .inl ⟨e, rfl, h⟩
  | ok a => exact .inr ⟨a, rfl, h⟩

end Outcome

/-- A list of steps that all run. -/
theorem mapM_eq_ok {ε α β : Type} {step : α → Except ε β} {f : α → β} {items : List α}
    (h : ∀ item ∈ items, step item = .ok (f item)) : items.mapM step = .ok (items.map f) := by
  induction items with
  | nil => rfl
  | cons item items ih =>
    rw [mapM_cons, h item mem_cons_self, ih fun other hother =>
      h other (mem_cons_of_mem _ hother)]
    rfl

/-- What a list of steps gives that runs. -/
theorem mapM_ok {ε α β : Type} {step : α → Except ε β} {items : List α} {results : List β}
    (h : items.mapM step = .ok results) :
    results.length = items.length ∧ ∀ a ∈ items, ∃ b ∈ results, step a = .ok b := by
  induction items generalizing results with
  | nil =>
    cases h
    exact ⟨rfl, forall_mem_nil _⟩
  | cons a items ih =>
    rw [mapM_cons] at h
    cases hfirst : step a with
    | error e =>
      rw [hfirst] at h
      cases h
    | ok b =>
      rw [hfirst] at h
      cases hrest : items.mapM step with
      | error e =>
        rw [hrest] at h
        cases h
      | ok rest =>
        rw [hrest] at h
        cases h
        obtain ⟨hlength, hall⟩ := ih hrest
        refine ⟨congrArg Nat.succ hlength,
          forall_mem_cons.mpr ⟨⟨b, mem_cons_self, hfirst⟩, fun a' hmem => ?_⟩⟩
        obtain ⟨b', hmem', hb'⟩ := hall a' hmem
        exact ⟨b', mem_cons_of_mem _ hmem', hb'⟩

theorem exists_mapM_ok {ε α β : Type} {step : α → Except ε β} {items : List α}
    (h : ∀ a ∈ items, ∃ b, step a = .ok b) : ∃ results, items.mapM step = .ok results := by
  induction items with
  | nil => exact ⟨[], rfl⟩
  | cons a items ih =>
    obtain ⟨⟨b, hfirst⟩, hothers⟩ := forall_mem_cons.mp h
    obtain ⟨rest, hrest⟩ := ih hothers
    refine ⟨b :: rest, ?_⟩
    rw [mapM_cons, hfirst, hrest]
    rfl

def Except.Throws {ε α : Type} (bad : ε → Prop) : Except ε α → Prop
  | .ok _ => False
  | .error e => bad e

section

open Except (Throws)

variable {ε α β : Type} {bad refuses : ε → Prop} {post : α → Prop}

theorem throws_bind_iff {step : Except ε α} {next : α → Except ε β} :
    Throws bad (step >>= next) ↔ Throws bad step ∨ ∃ a, step = .ok a ∧ Throws bad (next a) := by
  cases step with
  | error e =>
    constructor
    · intro h
      exact .inl h
    · rintro (h | ⟨a, ⟨⟩, -⟩)
      exact h
  | ok a =>
    constructor
    · intro h
      exact .inr ⟨a, rfl, h⟩
    · rintro (h | ⟨a, ⟨⟩, h⟩)
      · exact h.elim
      · exact h

theorem throws_bind_iff_of_not {step : Except ε α} {next : α → Except ε β} (h : ¬ Throws bad step) :
    Throws bad (step >>= next) ↔ ∃ a, step = .ok a ∧ Throws bad (next a) := by
  rw [throws_bind_iff, or_iff_right h]

theorem Outcome.not_throws {run : Except ε α} (h : Outcome refuses post run)
    (hbad : ∀ e, refuses e → ¬ bad e) : ¬ Throws bad run := by
  cases run with
  | error e => exact hbad e h
  | ok a => exact id

/-- Whatever it throws is bad, or allowed. -/
theorem Outcome.of_not_throws {run : Except ε α} (h : Outcome (fun e => refuses e ∨ bad e) post run)
    (hbad : ¬ Throws bad run) : Outcome refuses post run := by
  cases run with
  | error e => exact h.resolve_right hbad
  | ok a => exact h

end

-- What an outcome is of is a program: to unfold it is to run it.
attribute [irreducible] Outcome

namespace Run

def EndsIn {ε α : Type} (refuses : ε → Prop) (post : α → Prop) (run : ℕ → Run ε α) : Prop :=
  ∀ fuel result, run fuel = (some result : Option (Except ε α)) → Outcome refuses post result

variable {ε α β : Type} {refuses : ε → Prop} {post : α → Prop}

theorem EndsIn.ofExcept {result : Except ε α} (h : Outcome refuses post result) :
    EndsIn refuses post fun _ => Run.ofExcept result := by
  intro fuel ended hrun
  cases hrun
  exact h

theorem EndsIn.pure {a : α} (h : post a) : EndsIn refuses post fun _ => (pure a : Run ε α) :=
  EndsIn.ofExcept (Outcome.ok h)

theorem EndsIn.bind {run : ℕ → Run ε α} {next : ℕ → α → Run ε β} {post' : β → Prop}
    (h : EndsIn refuses post run) (hnext : ∀ a, post a → EndsIn refuses post' (next · a)) :
    EndsIn refuses post' fun fuel => run fuel >>= next fuel := by
  intro fuel result hrun
  cases hstep : (run fuel : Option (Except ε α)) with
  | none =>
    dsimp only at hrun
    rw [hstep] at hrun
    cases hrun
  | some ended =>
    have hended := h fuel ended hstep
    dsimp only at hrun
    rw [hstep] at hrun
    cases ended with
    | error e =>
      cases hrun
      exact Outcome.error (Outcome.error_iff.mp hended)
    | ok a => exact hnext a (Outcome.ok_iff.mp hended) fuel result hrun

end Run
