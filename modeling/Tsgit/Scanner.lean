import Mathlib.Data.List.Basic

/-!
# Scanners

A scanner is given its input in pieces. Its
state is a function of the input so far, whatever the pieces were, if a step that was taken early
is also taken late.
-/

/-- A scanner with states `σ` and input `α`: a step is `none` where it waits. -/
structure Scanner (σ α : Type*) where
  step : σ → Option σ
  size : σ → ℕ
  extend : σ → List α → σ
  size_lt : ∀ {s s' : σ}, step s = some s' → size s' < size s
  extend_extend : ∀ s xs ys, extend (extend s xs) ys = extend s (xs ++ ys)
  joins : ∀ {s s' : σ} xs, step s = some s' →
    ∃ t, step (extend s xs) = some t ∧ (extend s' xs = t ∨ step (extend s' xs) = some t)

namespace Scanner

variable {σ α : Type*} (m : Scanner σ α)

/-- The steps, as long as there are any. -/
def drain (s : σ) : σ :=
  match _h : m.step s with
  | none => s
  | some s' => drain s'
termination_by m.size s
decreasing_by exact m.size_lt _h

/-- More input, and the steps it allows. -/
def feed (s : σ) (xs : List α) : σ := m.drain (m.extend s xs)

variable {m}

theorem drain_of_none {s : σ} (h : m.step s = none) : m.drain s = s := by
  rw [drain]
  split
  · rfl
  · next s' hstep =>
    rw [h] at hstep
    cases hstep

theorem drain_of_some {s s' : σ} (h : m.step s = some s') : m.drain s = m.drain s' := by
  rw [drain]
  split
  · next hstep =>
    rw [h] at hstep
    cases hstep
  · next found hstep =>
    cases h.symm.trans hstep
    rfl

/-- What is drained waits. -/
theorem step_drain (s : σ) : m.step (m.drain s) = none := by
  induction hn : m.size s using Nat.strongRecOn generalizing s with
  | ind n ih =>
    cases hstep : m.step s with
    | none => rw [drain_of_none hstep, hstep]
    | some s' =>
      rw [drain_of_some hstep]
      exact ih _ (hn ▸ m.size_lt hstep) s' rfl

theorem drain_invariant {Inv : σ → Prop} (hstep : ∀ s s', Inv s → m.step s = some s' → Inv s')
    {s : σ} (h : Inv s) : Inv (m.drain s) := by
  induction hn : m.size s using Nat.strongRecOn generalizing s with
  | ind n ih =>
    cases hnext : m.step s with
    | none => rwa [drain_of_none hnext]
    | some s' =>
      rw [drain_of_some hnext]
      exact ih _ (hn ▸ m.size_lt hnext) (hstep s s' h hnext) rfl

/-- **Steps may be taken before or after more input comes.** -/
theorem drain_extend_drain (s : σ) (xs : List α) :
    m.drain (m.extend (m.drain s) xs) = m.drain (m.extend s xs) := by
  induction hn : m.size s using Nat.strongRecOn generalizing s with
  | ind n ih =>
    cases hstep : m.step s with
    | none => rw [drain_of_none hstep]
    | some s' =>
      have hlater : m.drain (m.extend s' xs) = m.drain (m.extend s xs) := by
        obtain ⟨t, ht, heq | hjoin⟩ := m.joins xs hstep
        · rw [drain_of_some ht, heq]
        · rw [drain_of_some ht, drain_of_some hjoin]
      rw [drain_of_some hstep, ih _ (hn ▸ m.size_lt hstep) s' rfl, hlater]

theorem feed_feed (s : σ) (xs ys : List α) : m.feed (m.feed s xs) ys = m.feed s (xs ++ ys) := by
  rw [feed, feed, feed, drain_extend_drain, m.extend_extend]

/-- **The pieces do not count**, only what they make together. -/
theorem foldl_feed {s : σ} (hwaits : m.feed s [] = s) (pieces : List (List α)) :
    pieces.foldl m.feed s = m.feed s pieces.flatten := by
  have hmore : ∀ (rest : List (List α)) (xs : List α),
      rest.foldl m.feed (m.feed s xs) = m.feed s (xs ++ rest.flatten) := by
    intro rest
    induction rest with
    | nil =>
      intro xs
      rw [List.foldl_nil, List.flatten_nil, List.append_nil]
    | cons piece rest ih =>
      intro xs
      rw [List.foldl_cons, feed_feed, ih, List.flatten_cons, List.append_assoc]
  have hall := hmore pieces []
  rw [hwaits] at hall
  exact hall

end Scanner
