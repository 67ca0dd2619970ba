import Tsgit.Outcome

/-!
# Generators

A computation that hands out items while it runs: a `Generator ω ε α` yields items of type `ω`
one by one, and then returns, throws or (`spent`) runs out of fuel.
-/

universe u

/-- Yields items, then returns, throws, or (`spent`) runs out of fuel. -/
inductive Generator (ω ε α : Type u)
  | returned (answer : α)
  | thrown (error : ε)
  | spent
  | yielded (item : ω) (rest : Generator ω ε α)

namespace Generator

variable {ω ε α β γ σ ρ : Type u}

/-- Goes on with `next` once the generator has returned. -/
def andThen (next : α → Generator ω ε β) : Generator ω ε α → Generator ω ε β
  | returned answer => next answer
  | thrown error => thrown error
  | spent => spent
  | yielded item rest => yielded item (andThen next rest)

instance : Monad (Generator ω ε) where
  pure := returned
  bind generator next := andThen next generator

theorem returned_bind (answer : α) (next : α → Generator ω ε β) :
    returned answer >>= next = next answer := rfl

theorem yielded_bind (item : ω) (rest : Generator ω ε α) (next : α → Generator ω ε β) :
    yielded item rest >>= next = yielded item (rest >>= next) := rfl

theorem bind_returned (generator : Generator ω ε α) : generator >>= returned = generator := by
  induction generator with
  | returned answer => rfl
  | thrown error => rfl
  | spent => rfl
  | yielded item rest ih => exact congrArg (yielded item) ih

theorem bind_bind (generator : Generator ω ε α) (next : α → Generator ω ε β)
    (last : β → Generator ω ε γ) :
    generator >>= next >>= last = generator >>= fun answer => next answer >>= last := by
  induction generator with
  | returned answer => rfl
  | thrown error => rfl
  | spent => rfl
  | yielded item rest ih => exact congrArg (yielded item) ih

instance : LawfulMonad (Generator ω ε) :=
  LawfulMonad.mk' _ bind_returned returned_bind bind_bind

def yield (item : ω) : Generator ω ε PUnit := yielded item (returned ⟨⟩)

/-- A computation that yields nothing. -/
def ofExcept : Except ε α → Generator ω ε α
  | .ok answer => returned answer
  | .error error => thrown error

instance : MonadLift (Except ε) (Generator ω ε) := ⟨ofExcept⟩

def mapItems {ω' : Type u} (f : ω → ω') : Generator ω ε α → Generator ω' ε α
  | returned answer => returned answer
  | thrown error => thrown error
  | spent => spent
  | yielded item rest => yielded (f item) (mapItems f rest)

/-- Repeats `turn` until it stops. -/
def loop (turn : σ → Generator ω ε (Run.Turn σ ρ)) : ℕ → σ → Generator ω ε ρ
  | 0, _ => spent
  | fuel + 1, state => do
      match ← turn state with
      | .stop answer => return answer
      | .again state => loop turn fuel state

/-- The items, in order. -/
def items : Generator ω ε α → List ω
  | yielded item rest => item :: items rest
  | _ => []

def ending : Generator ω ε α → Option (Except ε α)
  | returned answer => some (.ok answer)
  | thrown error => some (.error error)
  | spent => none
  | yielded _ rest => ending rest

/-- Whatever the generator returns satisfies `post`. -/
def Ends (post : α → Prop) (generator : Generator ω ε α) : Prop :=
  ∀ answer, generator.ending = some (.ok answer) → post answer

theorem Ends.returned {post : α → Prop} {answer : α} (h : post answer) :
    Ends post (returned answer : Generator ω ε α) := by
  rintro _ ⟨⟩
  exact h

theorem Ends.thrown {post : α → Prop} (error : ε) : Ends post (thrown error : Generator ω ε α) := by
  rintro _ ⟨⟩

theorem Ends.yielded {post : α → Prop} (item : ω) {rest : Generator ω ε α} (h : Ends post rest) :
    Ends post (yielded item rest) := h

/-- Two generators yield the same items to the same end, where their answers are related. -/
inductive Alike (related : α → β → Prop) : Generator ω ε α → Generator ω ε β → Prop
  | returned {a : α} {b : β} : related a b → Alike related (returned a) (returned b)
  | thrown (error : ε) : Alike related (thrown error) (thrown error)
  | yielded (item : ω) {a : Generator ω ε α} {b : Generator ω ε β} :
      Alike related a b → Alike related (yielded item a) (yielded item b)

section

variable {related : α → β → Prop} {related' : σ → ρ → Prop}

variable {a : Generator ω ε α} {b : Generator ω ε β}

theorem Alike.bind {next : α → Generator ω ε σ}
    {next' : β → Generator ω ε ρ} (h : Alike related a b)
    (hnext : ∀ x y, related x y → Alike related' (next x) (next' y)) :
    Alike related' (a >>= next) (b >>= next') := by
  induction h with
  | returned hxy => exact hnext _ _ hxy
  | thrown error => exact .thrown error
  | yielded item h ih => exact .yielded item ih

theorem Alike.bind_left {next : α → Generator ω ε σ}
    {related'' : σ → β → Prop} (h : Alike related a b)
    (hnext : ∀ x y, related x y → Alike related'' (next x) (.returned y)) :
    Alike related'' (a >>= next) b := by
  have hbind := h.bind hnext
  rwa [bind_returned] at hbind

theorem Alike.mono {related'' : α → β → Prop}
    (h : Alike related a b) (himp : ∀ x y, related x y → related'' x y) :
    Alike related'' a b := by
  induction h with
  | returned hxy => exact .returned (himp _ _ hxy)
  | thrown error => exact .thrown error
  | yielded item h ih => exact .yielded item ih

theorem Alike.with_ends {post : β → Prop}
    (h : Alike related a b) (hends : Ends post b) :
    Alike (fun x y => related x y ∧ post y) a b := by
  induction h with
  | returned hxy => exact .returned ⟨hxy, hends _ rfl⟩
  | thrown error => exact .thrown error
  | yielded item h ih => exact .yielded item (ih hends)

theorem Alike.eq {b : Generator ω ε α} (h : Alike (· = ·) a b) : a = b := by
  induction h with
  | returned hxy => rw [hxy]
  | thrown error => rfl
  | yielded item h ih => rw [ih]

theorem Alike.ends {post : β → Prop}
    (h : Alike related a b) (hends : Ends post b) :
    Ends (fun x => ∃ y, related x y ∧ post y) a := by
  induction h with
  | returned hxy => exact .returned ⟨_, hxy, hends _ rfl⟩
  | thrown error => exact .thrown error
  | yielded item h ih => exact .yielded item (ih hends)

end

/-! ### How generators end -/

def Settles (refuses : ε → Prop) (post : α → Prop) : Generator ω ε α → Prop
  | returned answer => post answer
  | thrown error => refuses error
  | spent => False
  | yielded _ rest => Settles refuses post rest

def Throws (bad : ε → Prop) : Generator ω ε α → Prop
  | thrown error => bad error
  | yielded _ rest => Throws bad rest
  | _ => False

def Returns (answer : α) (generator : Generator ω ε α) : Prop :=
  generator.ending = some (.ok answer)

section

variable {refuses bad : ε → Prop} {post : α → Prop} {post' : β → Prop}
  {generator : Generator ω ε α} {next : α → Generator ω ε β}

theorem Settles.bind (h : Settles refuses post generator)
    (hnext : ∀ a, Returns a generator → post a → Settles refuses post' (next a)) :
    Settles refuses post' (generator >>= next) := by
  induction generator with
  | returned answer => exact hnext answer rfl h
  | thrown error => exact h
  | spent => exact h.elim
  | yielded item rest ih => exact ih h hnext

theorem throws_bind_iff : Throws bad (generator >>= next) ↔
    Throws bad generator ∨ ∃ a, Returns a generator ∧ Throws bad (next a) := by
  induction generator with
  | returned answer =>
    constructor
    · intro h
      exact .inr ⟨answer, rfl, h⟩
    · rintro (h | ⟨a, ha, h⟩)
      · exact h.elim
      · cases ha
        exact h
  | thrown error =>
    constructor
    · intro h
      exact .inl h
    · rintro (h | ⟨a, ha, -⟩)
      · exact h
      · cases ha
  | spent =>
    constructor
    · intro h
      exact h.elim
    · rintro (h | ⟨a, ha, -⟩)
      · exact h.elim
      · cases ha
  | yielded item rest ih => exact ih

theorem returns_bind_iff {b : β} : Returns b (generator >>= next) ↔
    ∃ a, Returns a generator ∧ Returns b (next a) := by
  induction generator with
  | returned answer =>
    constructor
    · intro h
      exact ⟨answer, rfl, h⟩
    · rintro ⟨a, ha, h⟩
      cases ha
      exact h
  | thrown error =>
    constructor
    · intro h
      cases h
    · rintro ⟨a, ha, -⟩
      cases ha
  | spent =>
    constructor
    · intro h
      cases h
    · rintro ⟨a, ha, -⟩
      cases ha
  | yielded item rest ih => exact ih

theorem Settles.not_throws (h : Settles refuses post generator)
    (hbad : ∀ error, refuses error → ¬ bad error) : ¬ Throws bad generator := by
  induction generator with
  | returned answer => exact id
  | thrown error => exact hbad error h
  | spent => exact h.elim
  | yielded item rest ih => exact ih h

theorem Settles.of_not_throws
    (h : Settles (fun error => refuses error ∨ bad error) post generator)
    (hbad : ¬ Throws bad generator) : Settles refuses post generator := by
  induction generator with
  | returned answer => exact h
  | thrown error => exact h.resolve_right hbad
  | spent => exact h
  | yielded item rest ih => exact ih h hbad

theorem settles_mapItems {ω' : Type u} {f : ω → ω'} :
    Settles refuses post (generator.mapItems f) ↔ Settles refuses post generator := by
  induction generator with
  | returned answer => exact Iff.rfl
  | thrown error => exact Iff.rfl
  | spent => exact Iff.rfl
  | yielded item rest ih => exact ih

theorem throws_mapItems {ω' : Type u} {f : ω → ω'} :
    Throws bad (generator.mapItems f) ↔ Throws bad generator := by
  induction generator with
  | returned answer => exact Iff.rfl
  | thrown error => exact Iff.rfl
  | spent => exact Iff.rfl
  | yielded item rest ih => exact ih

end

/-! ### Computations that yield nothing -/

section

variable {ω ε α : Type} {refuses bad : ε → Prop} {post : α → Prop} {run : Except ε α}

theorem settles_lift_iff :
    Settles refuses post (liftM run : Generator ω ε α) ↔ Outcome refuses post run := by
  cases run with
  | error error =>
    rw [Outcome.error_iff]
    exact Iff.rfl
  | ok answer =>
    rw [Outcome.ok_iff]
    exact Iff.rfl

theorem lift_bind {β : Type} (next : α → Except ε β) :
    (liftM (run >>= next) : Generator ω ε β) =
      (liftM run : Generator ω ε α) >>= fun answer => liftM (next answer) := by
  cases run with
  | error error => rfl
  | ok answer => rfl

theorem throws_lift_iff :
    Throws bad (liftM run : Generator ω ε α) ↔ Except.Throws bad run := by
  cases run with
  | error error => exact Iff.rfl
  | ok answer => exact Iff.rfl

theorem returns_lift_iff {answer : α} :
    Returns answer (liftM run : Generator ω ε α) ↔ run = .ok answer := by
  cases run with
  | error error =>
    constructor
    · rintro ⟨⟩
    · rintro ⟨⟩
  | ok read =>
    constructor
    · rintro ⟨⟩
      rfl
    · rintro ⟨⟩
      rfl

end

end Generator
