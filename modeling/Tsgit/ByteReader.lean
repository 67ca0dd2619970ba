import Mathlib.Data.List.Basic
import Mathlib.Tactic.Linarith

/-!
# Byte Readers

A reader takes bytes from the front of its input, or refuses. Two judgements are kept about a
reader:

* `Reads r front a` — on any input that starts with `front` it takes just that, and gives `a`;
* `Gives r P` — whatever the input, what it gives has the property `P`.
-/

/-- A reader: what it gives, and the bytes it leaves. -/
abbrev ByteReader (α : Type) := StateT (List UInt8) Option α

namespace ByteReader

open List

variable {α β : Type}

def byte : ByteReader UInt8
  | [] => none
  | b :: rest => some (b, rest)

def take (count : ℕ) : ByteReader (List UInt8) := fun bytes =>
  if count ≤ bytes.length then some (bytes.take count, bytes.drop count) else none

/-- Refuses what does not start with the bytes. -/
def expect (front : List UInt8) : ByteReader Unit := do
  let bytes ← take front.length
  if bytes = front then pure () else fun _ => none

/-- A little-endian word. -/
def word : ℕ → ByteReader ℕ
  | 0 => pure 0
  | width + 1 => do
    let b ← byte
    let high ← word width
    pure (b.toNat + 256 * high)

/-- One reader, again and again. -/
def replicate (r : ByteReader α) : ℕ → ByteReader (List α)
  | 0 => pure []
  | count + 1 => do
    let a ← r
    let rest ← replicate r count
    pure (a :: rest)

/-- One reader, again and again, up to a mark that is left; at most so many times. -/
def till (mark : List UInt8) (r : ByteReader α) : ℕ → ByteReader (List α)
  | 0 => fun _ => none
  | fuel + 1 => fun bytes =>
    if mark <+: bytes then some ([], bytes)
    else (r bytes).bind fun read => (till mark r fuel read.2).map fun rest =>
      (read.1 :: rest.1, rest.2)

/-- The bytes of a little-endian word. -/
def littleEndian : ℕ → ℕ → List UInt8
  | 0, _ => []
  | width + 1, value => UInt8.ofNat value :: littleEndian width (value / 256)

/-! ### What a reader takes -/

/-- The reader takes `front` and gives `a`. -/
def Reads (r : ByteReader α) (front : List UInt8) (a : α) : Prop :=
  ∀ rest, r (front ++ rest) = some (a, rest)

theorem bind_apply (r : ByteReader α) (f : α → ByteReader β) (bytes : List UInt8) :
    (r >>= f) bytes = (r bytes).bind fun read => f read.1 read.2 := rfl

theorem pure_apply (a : α) (bytes : List UInt8) :
    (pure a : ByteReader α) bytes = some (a, bytes) := rfl

theorem reads_pure (a : α) : Reads (pure a) [] a := fun _ => rfl

variable {r : ByteReader α}

theorem Reads.bind {f : α → ByteReader β} {front next : List UInt8} {a : α}
    {b : β} (h : Reads r front a) (hf : Reads (f a) next b) :
    Reads (r >>= f) (front ++ next) b := by
  intro rest
  rw [bind_apply, append_assoc, h, Option.bind_some]
  exact hf rest

/-- Nothing is left to take behind the last bytes. -/
theorem Reads.bind_pure {f : α → β} {front : List UInt8} {a : α}
    (h : Reads r front a) : Reads (r >>= fun a => pure (f a)) front (f a) := by
  intro rest
  rw [bind_apply, h, Option.bind_some]
  rfl

variable {P : α → Prop}

/-- What is given is checked first. -/
theorem Reads.bind_check [DecidablePred P] {f : α → β}
    {front : List UInt8} {a : α} (h : Reads r front a) (ha : P a) :
    Reads (r >>= fun a => if P a then pure (f a) else fun _ => none) front (f a) := by
  intro rest
  rw [bind_apply, h, Option.bind_some]
  dsimp only
  rw [if_pos ha]
  rfl

theorem reads_take (bytes : List UInt8) {count : ℕ} (h : bytes.length = count) :
    Reads (take count) bytes bytes := by
  intro rest
  rw [take, if_pos (by rw [length_append]; omega), ← h, take_left, drop_left]

theorem reads_expect (front : List UInt8) : Reads (expect front) front () :=
  (reads_take front rfl).bind_check rfl

theorem reads_word (width value : ℕ) :
    Reads (word width) (littleEndian width value) (value % 256 ^ width) := by
  induction width generalizing value with
  | zero =>
    rw [pow_zero, Nat.mod_one]
    exact reads_pure 0
  | succ width ih =>
    have hvalue : value % 256 ^ (width + 1) =
        (UInt8.ofNat value).toNat + 256 * (value / 256 % 256 ^ width) := by
      have hbyte : (UInt8.ofNat value).toNat = value % 256 := rfl
      rw [hbyte, pow_succ', Nat.mod_mul]
    have hbyte : Reads byte [UInt8.ofNat value] (UInt8.ofNat value) := fun _ => rfl
    rw [hvalue]
    exact hbyte.bind (ih (value / 256)).bind_pure

/-- A word that has room is read back. -/
theorem reads_word_of_lt {width value : ℕ} (h : value < 256 ^ width) :
    Reads (word width) (littleEndian width value) value := by
  have hread := reads_word width value
  rwa [Nat.mod_eq_of_lt h] at hread

theorem till_eq {γ : Type} {mark : List UInt8} {front : γ → List UInt8}
    {value : γ → α} {source : List γ} (h : ∀ c ∈ source, Reads r (front c) (value c))
    (hmark : ∀ c ∈ source, ∀ rest, ¬ mark <+: front c ++ rest) {rest : List UInt8}
    (hrest : mark <+: rest) {fuel : ℕ} (hfuel : source.length < fuel) :
    till mark r fuel (source.flatMap front ++ rest) = some (source.map value, rest) := by
  induction source generalizing fuel with
  | nil =>
    obtain ⟨fuel, rfl⟩ : ∃ n, fuel = n + 1 := ⟨fuel - 1, by omega⟩
    exact if_pos hrest
  | cons c source ih =>
    obtain ⟨hfirst, hothers⟩ := forall_mem_cons.mp h
    obtain ⟨hmarkFirst, hmarkOthers⟩ := forall_mem_cons.mp hmark
    rw [length_cons] at hfuel
    obtain ⟨fuel, rfl⟩ : ∃ n, fuel = n + 1 := ⟨fuel - 1, by omega⟩
    rw [flatMap_cons, append_assoc]
    refine (if_neg (hmarkFirst _)).trans ?_
    rw [hfirst, Option.bind_some, ih hothers hmarkOthers (by omega)]
    rfl

/-! ### What a reader gives -/

def Gives (r : ByteReader α) (P : α → Prop) : Prop :=
  ∀ bytes a rest, r bytes = some (a, rest) → P a

theorem gives_pure {a : α} (h : P a) : Gives (pure a) P := by
  intro bytes b rest hread
  rw [pure_apply] at hread
  cases hread
  exact h

theorem Gives.bind {f : α → ByteReader β} {Q : β → Prop}
    (h : Gives r P) (hf : ∀ a, P a → Gives (f a) Q) : Gives (r >>= f) Q := by
  intro bytes b rest hread
  rw [bind_apply] at hread
  obtain ⟨⟨a, left⟩, hfirst, hnext⟩ := Option.bind_eq_some_iff.mp hread
  exact hf a (h bytes a left hfirst) left b rest hnext

/-- Of what is only passed by, nothing is known. -/
theorem gives_any (r : ByteReader α) : Gives r fun _ => True := fun _ _ _ _ => trivial

theorem gives_byte : Gives byte fun b => b.toNat < 256 := fun _ b _ _ => b.toNat_lt

theorem gives_word (width : ℕ) : Gives (word width) (· < 256 ^ width) := by
  induction width with
  | zero => exact gives_pure (by decide)
  | succ width ih =>
    refine gives_byte.bind fun b hb => ih.bind fun high hhigh => gives_pure ?_
    rw [pow_succ']
    omega

theorem gives_take (count : ℕ) : Gives (take count) (·.length = count) := by
  intro bytes taken rest hread
  rw [take] at hread
  split_ifs at hread with hroom
  cases hread
  rw [length_take]
  omega

theorem gives_replicate (h : Gives r P) (count : ℕ) :
    Gives (replicate r count) fun values => values.length = count ∧ ∀ a ∈ values, P a := by
  induction count with
  | zero => exact gives_pure ⟨rfl, forall_mem_nil _⟩
  | succ count ih =>
    refine h.bind fun a ha => ih.bind fun values hvalues => gives_pure ⟨?_, ?_⟩
    · rw [length_cons, hvalues.1]
    · exact forall_mem_cons.mpr ⟨ha, hvalues.2⟩

end ByteReader
