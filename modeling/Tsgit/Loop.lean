import Mathlib.Tactic.Linarith

/-!
# Loops That May Throw

A computation that may throw and may loop is a `Run ε α`: an `Option (Except ε α)` that is
`none` while its fuel does not last. `loop` repeats a turn until it stops, and a loop with
an invariant and a variant needs no more fuel than the variant says.
-/

universe u

/-- A computation that throws, or returns, or (`none`) runs out of fuel. -/
abbrev Run (ε α : Type u) := ExceptT ε Option α

namespace Run

variable {ε α β σ ρ : Type u}

/-- A computation that does not loop. -/
def ofExcept (result : Except ε α) : Run ε α := (some result : Option (Except ε α))

theorem ofExcept_ok (a : α) : ofExcept (.ok a : Except ε α) = pure a := rfl

/-- What one turn of a loop comes to. -/
inductive Turn (σ ρ : Type u)
  | stop (answer : ρ)
  | again (state : σ)

def Turn.Meets (post : ρ → Prop) (keeps : σ → Prop) : Turn σ ρ → Prop
  | .stop answer => post answer
  | .again state => keeps state

/-- Repeats `turn` until it stops. -/
def loop (turn : σ → Run ε (Turn σ ρ)) : ℕ → σ → Run ε ρ
  | 0, _ => (none : Option (Except ε ρ))
  | fuel + 1, state => do
      match ← turn state with
      | .stop answer => return answer
      | .again state => loop turn fuel state

def Returns (run : Run ε α) (post : α → Prop) : Prop := ∃ a, run = pure a ∧ post a

def Yields (run : ℕ → Run ε α) (answer : α) : Prop :=
  ∃ enough, ∀ fuel, enough ≤ fuel → run fuel = pure answer

/-- With enough fuel a run ends, always in the same way. -/
def Halts (run : ℕ → Run ε α) : Prop :=
  ∃ enough result, ∀ fuel, enough ≤ fuel → run fuel = (some result : Option (Except ε α))

theorem Halts.ofExcept (result : Except ε α) : Halts fun _ => (ofExcept result : Run ε α) :=
  ⟨0, result, fun _ _ => rfl⟩

theorem Halts.bind {run : ℕ → Run ε α} {next : ℕ → α → Run ε β} (h : Halts run)
    (hnext : ∀ a, Halts (next · a)) : Halts fun fuel => run fuel >>= next fuel := by
  obtain ⟨enough, result, hrun⟩ := h
  cases result with
  | error e =>
    refine ⟨enough, .error e, fun fuel hfuel => ?_⟩
    dsimp only
    rw [hrun fuel hfuel]
    rfl
  | ok a =>
    obtain ⟨enough', result', hrun'⟩ := hnext a
    refine ⟨max enough enough', result', fun fuel hfuel => ?_⟩
    dsimp only
    rw [hrun fuel (le_of_max_le_left hfuel)]
    exact hrun' fuel (le_of_max_le_right hfuel)

theorem bind_congr_of {run : Run ε α} {next next' : α → Run ε β}
    (h : ∀ a, run = (some (.ok a) : Option (Except ε α)) → next a = next' a) :
    run >>= next = run >>= next' := by
  cases hrun : (run : Option (Except ε α)) with
  | none => rfl
  | some ended =>
    cases ended with
    | error e => rfl
    | ok a => exact h a hrun

theorem Returns.pure {post : α → Prop} {a : α} (h : post a) : Returns (pure a : Run ε α) post :=
  ⟨a, rfl, h⟩

theorem Returns.ofExcept {post : α → Prop} {result : Except ε α} {a : α} (h : result = .ok a)
    (ha : post a) : Returns (ofExcept result) post :=
  ⟨a, by rw [h]; rfl, ha⟩

theorem Returns.bind {run : Run ε α} {next : α → Run ε β} {mid : α → Prop} {post : β → Prop}
    (h : Returns run mid) (hnext : ∀ a, mid a → Returns (next a) post) :
    Returns (run >>= next) post := by
  obtain ⟨a, rfl, ha⟩ := h
  rw [pure_bind]
  exact hnext a ha

theorem Returns.mono {run : Run ε α} {post post' : α → Prop} (h : Returns run post)
    (himp : ∀ a, post a → post' a) : Returns run post' := by
  obtain ⟨a, ha, hpost⟩ := h
  exact ⟨a, ha, himp a hpost⟩

variable {turn : σ → Run ε (Turn σ ρ)}

/-- **Total correctness of a loop.** A turn either stops with a right answer or keeps the invariant
and lowers the variant. -/
theorem loop_spec {post : ρ → Prop} (inv : σ → Prop) (variant : σ → ℕ)
    (hturn : ∀ s, inv s → Returns (turn s) (Turn.Meets post fun t => inv t ∧ variant t < variant s))
    (fuel : ℕ) (s : σ) (hs : inv s) (hfuel : variant s < fuel) :
    Returns (loop turn fuel s) post := by
  induction fuel generalizing s with
  | zero => exact absurd hfuel (Nat.not_lt_zero _)
  | succ fuel ih =>
    refine (hturn s hs).bind fun next hnext => ?_
    cases next with
    | stop answer => exact .pure hnext
    | again t =>
      obtain ⟨ht, hlt⟩ := hnext
      exact ih t ht (by omega)

/-- Where `run` ends, `run'` ends in the same way. -/
def Extends (run run' : Run ε α) : Prop :=
  ∀ result : Except ε α, run = (some result : Option (Except ε α)) →
    run' = (some result : Option (Except ε α))

theorem Extends.refl (run : Run ε α) : Extends run run := fun _ h => h

theorem Extends.bind {run run' : Run ε α} {next next' : α → Run ε β} (h : Extends run run')
    (hnext : ∀ a, Extends (next a) (next' a)) : Extends (run >>= next) (run' >>= next') := by
  intro result hresult
  cases hrun : (run : Option (Except ε α)) with
  | none =>
    rw [hrun] at hresult
    cases hresult
  | some ended =>
    rw [h ended hrun]
    rw [hrun] at hresult
    cases ended with
    | error e => exact hresult
    | ok a => exact hnext a result hresult

theorem Extends.loop {turn' : σ → Run ε (Turn σ ρ)} (hturn : ∀ s, Extends (turn s) (turn' s))
    {fuel fuel' : ℕ} (hle : fuel ≤ fuel') (s : σ) :
    Extends (loop turn fuel s) (loop turn' fuel' s) := by
  induction fuel generalizing fuel' s with
  | zero =>
    intro result h
    cases h
  | succ fuel ih =>
    obtain ⟨fuel', rfl⟩ := Nat.exists_eq_add_of_lt hle
    rw [Run.loop, Run.loop]
    refine (hturn s).bind fun next => ?_
    cases next with
    | stop answer => exact .refl _
    | again t => exact ih (Nat.le_add_right _ _) t

theorem Extends.foldlM {step step' : σ → α → Run ε σ} (hstep : ∀ s a, Extends (step s a) (step' s a))
    (l : List α) (s : σ) : Extends (l.foldlM step s) (l.foldlM step' s) := by
  induction l generalizing s with
  | nil => exact .refl _
  | cons a rest ih =>
    rw [List.foldlM_cons, List.foldlM_cons]
    exact (hstep s a).bind ih

theorem Yields.of_extends {run : ℕ → Run ε α}
    (hrun : ∀ {fuel fuel'}, fuel ≤ fuel' → Extends (run fuel) (run fuel')) {enough : ℕ} {answer : α}
    (h : run enough = pure answer) : Yields run answer :=
  ⟨enough, fun _ hfuel => hrun hfuel _ h⟩

theorem Yields.unique {run : ℕ → Run ε α} {answer answer' : α} (h : Yields run answer)
    (h' : Yields run answer') : answer = answer' := by
  obtain ⟨enough, h⟩ := h
  obtain ⟨enough', h'⟩ := h'
  have heq := (h (max enough enough') (le_max_left _ _)).symm.trans
    (h' (max enough enough') (le_max_right _ _))
  injection heq with heq
  injection heq

/-- More fuel changes no result. -/
theorem loop_mono {fuel fuel' : ℕ} (hle : fuel ≤ fuel') {s : σ}
    {result : Except ε ρ} (h : loop turn fuel s = (some result : Option (Except ε ρ))) :
    loop turn fuel' s = (some result : Option (Except ε ρ)) :=
  Extends.loop (fun s => .refl (turn s)) hle s result h

theorem loop_halts {post : ρ → Prop} (inv : σ → Prop) (variant : σ → ℕ)
    (hturn : ∀ s, inv s → Returns (turn s) (Turn.Meets post fun t => inv t ∧ variant t < variant s))
    {s : σ} (hs : inv s) : Halts (loop turn · s) := by
  obtain ⟨a, hrun, -⟩ := loop_spec inv variant hturn (variant s + 1) s hs (Nat.lt_succ_self _)
  exact ⟨variant s + 1, .ok a, fun fuel hfuel => loop_mono hfuel hrun⟩

/-- A loop over a list keeps an invariant that knows which elements are left. -/
theorem foldM_spec {step : σ → α → Run ε σ} {inv : List α → σ → Prop}
    (hstep : ∀ s a rest, inv (a :: rest) s → Returns (step s a) (inv rest)) {l : List α} {s : σ}
    (hs : inv l s) : Returns (l.foldlM step s) (inv []) := by
  induction l generalizing s with
  | nil => exact .pure hs
  | cons a rest ih =>
    rw [List.foldlM_cons]
    exact (hstep s a rest hs).bind fun t ht => ih ht

theorem mapM_spec {f : α → Run ε β} {g : α → β} {l : List α} (h : ∀ a ∈ l, f a = pure (g a)) :
    l.mapM f = pure (l.map g) := by
  induction l with
  | nil => rfl
  | cons a rest ih =>
    rw [List.mapM_cons, h a List.mem_cons_self, pure_bind,
      ih fun b hb => h b (List.mem_cons_of_mem _ hb), pure_bind, List.map_cons]

end Run
