import Mathlib.Tactic.Ring
import Tsgit.RegexProgram

/-!
# Paths through a Program

What a program of the regex engine does, as a relation. A path reads the subject, asserts,
records, and reads again what it last recorded of a group; it is free at every fork, and in
how much of its run a span reads. Positions count the characters of a well-formed subject.
-/

open List

namespace Tsgit.Regex

variable {σ : Type}

/-! ### Paths -/

/-- Where a path stands, and what it has recorded. -/
structure Spot where
  position : ℕ
  memory : List (Option ℕ)

/-- A spot and the instruction to run there. -/
structure Config where
  pc : ℕ
  spot : Spot

/-- The classes' meaning and the subject they read. -/
structure Setting (σ : Type) where
  reads : σ → Char → Bool
  isWord : Char → Bool
  subject : List Char

namespace Setting

variable (S : Setting σ)

/-- The character at a position is one of the class. -/
def accepts (source : σ) (position : ℕ) : Bool := (S.subject[position]?).any (S.reads source)

def wordAt (position : ℕ) : Bool := (S.subject[position]?).any S.isWord

def contextAt (position : ℕ) : ℕ :=
  contextBits (position == 0) (position == S.subject.length)
    (0 < position && S.wordAt (position - 1)) (S.wordAt position)

/-- The text of a capture. -/
def text (start stop : ℕ) : List Char := (S.subject.drop start).take (stop - start)

/-- What an instruction does that goes on to the next one. -/
inductive Acts : Op σ → Spot → Spot → Prop
  | char {source : σ} {p : ℕ} {m : List (Option ℕ)} (h : S.accepts source p = true) :
      Acts (.char source) ⟨p, m⟩ ⟨p + 1, m⟩
  | span {source : σ} {p : ℕ} {m : List (Option ℕ)} (n : ℕ)
      (h : ∀ i, i < n → S.accepts source (p + i) = true) : Acts (.span source) ⟨p, m⟩ ⟨p + n, m⟩
  | assert {mask p : ℕ} {m : List (Option ℕ)} (h : holdsIn mask (S.contextAt p) = true) :
      Acts (.assert mask) ⟨p, m⟩ ⟨p, m⟩
  | save {slot p : ℕ} {m : List (Option ℕ)} : Acts (.save slot) ⟨p, m⟩ ⟨p, m.set slot (some p)⟩
  | backref {group p start stop : ℕ} {m : List (Option ℕ)}
      (hstart : m.getD (group * 2) none = some start)
      (hstop : m.getD (group * 2 + 1) none = some stop) (hle : start ≤ stop)
      (h : S.text start stop <+: S.subject.drop p) :
      Acts (.backref group) ⟨p, m⟩ ⟨p + (stop - start), m⟩
  | progress {register skip p : ℕ} {m : List (Option ℕ)} (h : m.getD register none ≠ some p) :
      Acts (.progress register skip) ⟨p, m⟩ ⟨p, m⟩

/-- One step of a path through a program. -/
inductive Step (program : List (Op σ)) : Config → Config → Prop
  | next {pc : ℕ} {op : Op σ} {s t : Spot} (hop : program[pc]? = some op) (h : S.Acts op s t) :
      Step program ⟨pc, s⟩ ⟨pc + 1, t⟩
  | first {pc first second : ℕ} {s : Spot} (hop : program[pc]? = some (.fork first second)) :
      Step program ⟨pc, s⟩ ⟨first, s⟩
  | second {pc first second : ℕ} {s : Spot} (hop : program[pc]? = some (.fork first second)) :
      Step program ⟨pc, s⟩ ⟨second, s⟩
  | leave {pc register skip : ℕ} {s : Spot}
      (hop : program[pc]? = some (.progress register skip))
      (h : s.memory.getD register none = some s.position) (hskip : skip ≠ fails) :
      Step program ⟨pc, s⟩ ⟨pc + skip, s⟩

/-- A path of `n` steps. -/
inductive Takes (program : List (Op σ)) : ℕ → Config → Config → Prop
  | refl (c : Config) : Takes program 0 c c
  | step {n : ℕ} {c d e : Config} (h : S.Step program c d) (hrest : Takes program n d e) :
      Takes program (n + 1) c e

/-- Some path from `c` reaches the match. -/
def CanMatch (program : List (Op σ)) (c : Config) : Prop :=
  ∃ n d, S.Takes program n c d ∧ program[d.pc]? = none

/-- Some path from a start at `position`, with nothing recorded, reaches the match. -/
def MatchesFrom (program : List (Op σ)) (slots position : ℕ) : Prop :=
  S.CanMatch program ⟨0, position, replicate slots none⟩

variable {S}

variable {program : List (Op σ)}

theorem Takes.trans {n m : ℕ} {c d e : Config}
    (h : S.Takes program n c d) (h' : S.Takes program m d e) : S.Takes program (n + m) c e := by
  induction h with
  | refl c => rwa [Nat.zero_add]
  | @step n c d' e' hstep hrest ih =>
    rw [Nat.add_right_comm]
    exact .step hstep (ih h')

/-! ### What a fragment does -/

def Placed (program : List (Op σ)) (base : ℕ) (L : List (Instruction σ)) : Prop :=
  ∀ k i, L[k]? = some i → program[base + k]? = some (i.encode (base + k))

theorem placed_layOut (L : List (Instruction σ)) : Placed (layOut L) 0 L := by
  intro k i hi
  rw [Nat.zero_add, getElem?_layOut, hi, Option.map_some]

variable {L L' : List (Instruction σ)}

theorem Placed.left {base : ℕ} (h : Placed program base (L ++ L')) : Placed program base L := by
  intro k i hi
  refine h k i ?_
  rw [getElem?_append_left (List.getElem?_eq_some_iff.mp hi).1]
  exact hi

theorem Placed.right {base : ℕ}
    (h : Placed program base (L ++ L')) : Placed program (base + L.length) L' := by
  intro k i hi
  rw [Nat.add_assoc]
  refine h (L.length + k) i ?_
  rw [getElem?_append_right (Nat.le_add_right _ _), Nat.add_sub_cancel_left]
  exact hi

theorem Placed.head {base : ℕ} {i : Instruction σ} (h : Placed program base (i :: L)) :
    program[base]? = some (i.encode base) :=
  h 0 i rfl

theorem Placed.tail {base : ℕ} {i : Instruction σ}
    (h : Placed program base (i :: L)) : Placed program (base + 1) L :=
  Placed.right (L := [i]) h

/-- Wherever they stand, the instructions take a spot to the spots related to it and leave by
their end. -/
structure Means (S : Setting σ) (L : List (Instruction σ)) (R : Spot → Spot → Prop) : Prop where
  sound : ∀ {program : List (Op σ)} {base n : ℕ} {s : Spot} {c : Config}, Placed program base L →
    (c.pc < base ∨ base + L.length ≤ c.pc) → S.Takes program n ⟨base, s⟩ c →
    ∃ m t, m ≤ n ∧ R s t ∧ S.Takes program m ⟨base + L.length, t⟩ c
  complete : ∀ {program : List (Op σ)} {base : ℕ} {s t : Spot}, Placed program base L →
    R s t → ∃ n, S.Takes program n ⟨base, s⟩ ⟨base + L.length, t⟩

theorem Means.nil : Means S [] Eq where
  sound _ _ hpath := ⟨_, _, le_rfl, rfl, hpath⟩
  complete _ h := ⟨0, h ▸ .refl _⟩

/-- One instruction after another. -/
def Comp (R R' : Spot → Spot → Prop) (s u : Spot) : Prop := ∃ t, R s t ∧ R' t u

variable {R R' : Spot → Spot → Prop}

theorem Means.append (h : Means S L R) (h' : Means S L' R') : Means S (L ++ L') (Comp R R') where
  sound := by
    intro program base n s c hplaced hout hpath
    rw [length_append] at hout
    obtain ⟨m, t, hm, hR, hpath⟩ := h.sound hplaced.left (by omega) hpath
    obtain ⟨m', u, hm', hR', hpath⟩ := h'.sound hplaced.right (by omega) hpath
    refine ⟨m', u, hm'.trans hm, ⟨t, hR, hR'⟩, ?_⟩
    rwa [length_append, ← Nat.add_assoc]
  complete := by
    rintro program base s u hplaced ⟨t, hR, hR'⟩
    obtain ⟨n, hpath⟩ := h.complete hplaced.left hR
    obtain ⟨m, hpath'⟩ := h'.complete hplaced.right hR'
    refine ⟨n + m, ?_⟩
    rw [length_append, ← Nat.add_assoc]
    exact hpath.trans hpath'

theorem Means.congr (h : Means S L R) (hiff : ∀ s t, R s t ↔ R' s t) : Means S L R' := by
  obtain rfl : R = R' := funext fun s => funext fun t => propext (hiff s t)
  exact h

/-- The instructions mean one relation. -/
theorem Means.unique (h : Means S L R) (h' : Means S L R') : R = R' := by
  have hsub {R R' : Spot → Spot → Prop} (h : Means S L R) (h' : Means S L R') (s t : Spot)
      (hR : R s t) : R' s t := by
    obtain ⟨n, hpath⟩ := h.complete (placed_layOut L) hR
    obtain ⟨m, u, -, hR', hrest⟩ := h'.sound (placed_layOut L) (.inr le_rfl) hpath
    have hend : (layOut L)[0 + L.length]? = none := by
      rw [Nat.zero_add, List.getElem?_eq_none_iff, layOut, length_mapIdx]
    cases hrest with
    | refl => exact hR'
    | step hstep _ =>
      cases hstep with
      | next hop | first hop | second hop | leave hop => cases hend.symm.trans hop
  exact funext fun s => funext fun t => propext ⟨hsub h h' s t, hsub h' h s t⟩

theorem Takes.exists_step {n : ℕ} {c e : Config} (h : S.Takes program n c e) (hne : e.pc ≠ c.pc) :
    ∃ m d, n = m + 1 ∧ S.Step program c d ∧ S.Takes program m d e := by
  cases h with
  | refl => exact absurd rfl hne
  | step hstep hrest => exact ⟨_, _, rfl, hstep, hrest⟩

theorem Means.one {i : Instruction σ} {op : Op σ} (hencode : ∀ pc, i.encode pc = op)
    (hfork : ∀ first second, op ≠ .fork first second)
    (hleave : ∀ register skip, op = .progress register skip → skip = fails) :
    Means S [i] (S.Acts op) where
  sound := by
    intro program base n s c hplaced hout hpath
    have hop := hplaced.head
    rw [hencode] at hop
    rw [length_singleton] at hout
    obtain ⟨m, d, rfl, hstep, hpath⟩ := hpath.exists_step (by dsimp only; omega)
    cases hstep with
    | next hop' h =>
      obtain rfl := Option.some.inj (hop.symm.trans hop')
      exact ⟨m, _, Nat.le_succ m, h, hpath⟩
    | first hop' => exact absurd (Option.some.inj (hop.symm.trans hop')) (hfork _ _)
    | second hop' => exact absurd (Option.some.inj (hop.symm.trans hop')) (hfork _ _)
    | leave hop' _ hskip =>
      exact absurd (hleave _ _ (Option.some.inj (hop.symm.trans hop'))) hskip
  complete := by
    intro program base s t hplaced h
    have hop := hplaced.head
    rw [hencode] at hop
    exact ⟨1, .step (.next hop h) (.refl _)⟩

theorem encode_fork (pc a b : ℕ) :
    (Instruction.fork (a : ℤ) (b : ℤ) : Instruction σ).encode pc = .fork (pc + a) (pc + b) := by
  rw [Instruction.encode, ← Nat.cast_add, ← Nat.cast_add, Int.toNat_natCast, Int.toNat_natCast]

theorem Step.of_fork {pc first second : ℕ} {s : Spot} {d : Config}
    (h : S.Step program ⟨pc, s⟩ d) (hop : program[pc]? = some (.fork first second)) :
    d = ⟨first, s⟩ ∨ d = ⟨second, s⟩ := by
  cases h with
  | next hop' h =>
    obtain rfl := Option.some.inj (hop.symm.trans hop')
    cases h
  | first hop' =>
    cases hop.symm.trans hop'
    exact .inl rfl
  | second hop' =>
    cases hop.symm.trans hop'
    exact .inr rfl
  | leave hop' => cases hop.symm.trans hop'

/-- A part that may be skipped. -/
theorem Means.skip (h : Means S L R) {b : ℤ} (hb : b = (L.length + 1 : ℕ)) :
    Means S (.fork 1 b :: L) fun s t => R s t ∨ s = t where
  sound := by
    intro program base n s c hplaced hout hpath
    have hop := hplaced.head
    rw [hb, ← Nat.cast_one, encode_fork] at hop
    rw [length_cons] at hout
    obtain ⟨m, d, rfl, hstep, hpath⟩ := hpath.exists_step (by dsimp only; omega)
    rcases hstep.of_fork hop with rfl | rfl
    · obtain ⟨m', t, hm, hR, hpath⟩ := h.sound hplaced.tail (by omega) hpath
      refine ⟨m', t, hm.trans (Nat.le_succ m), .inl hR, ?_⟩
      rwa [length_cons, Nat.add_comm L.length, ← Nat.add_assoc]
    · exact ⟨m, s, Nat.le_succ m, .inr rfl, hpath⟩
  complete := by
    intro program base s t hplaced hRt
    have hop := hplaced.head
    rw [hb, ← Nat.cast_one, encode_fork] at hop
    rcases hRt with hR | rfl
    · obtain ⟨n, hpath⟩ := h.complete hplaced.tail hR
      refine ⟨n + 1, .step (.first hop) ?_⟩
      rwa [length_cons, Nat.add_comm L.length, ← Nat.add_assoc]
    · exact ⟨1, .step (.second hop) (.refl _)⟩

/-- A branch or the rest of the branches. -/
theorem Means.either (h : Means S L R) (h' : Means S L' R') {b j : ℤ} (hb : b = (L.length + 2 : ℕ))
    (hj : j = (L'.length + 1 : ℕ)) :
    Means S (.fork 1 b :: (L ++ .fork j j :: L')) fun s t => R s t ∨ R' s t where
  sound := by
    intro program base n s c hplaced hout hpath
    have hop := hplaced.head
    have hjump := hplaced.tail.right.head
    rw [hb, ← Nat.cast_one, encode_fork] at hop
    rw [hj, encode_fork] at hjump
    rw [length_cons, length_append, length_cons] at hout ⊢
    obtain ⟨m, d, rfl, hstep, hpath⟩ := hpath.exists_step (by dsimp only; omega)
    rcases hstep.of_fork hop with rfl | rfl
    · obtain ⟨m', t, hm, hR, hpath⟩ := h.sound hplaced.tail.left (by omega) hpath
      obtain ⟨k, d, rfl, hstep, hpath⟩ := hpath.exists_step (by dsimp only; omega)
      have hd : d = ⟨base + 1 + L.length + (L'.length + 1), t⟩ :=
        (hstep.of_fork hjump).elim id id
      subst hd
      refine ⟨k, t, by omega, .inl hR, ?_⟩
      convert hpath using 2
      omega
    · have hplaced' : Placed program (base + (L.length + 2)) L' := by
        convert hplaced.tail.right.tail using 1
        omega
      obtain ⟨m', t, hm, hR, hpath⟩ := h'.sound hplaced' (by omega) hpath
      refine ⟨m', t, by omega, .inr hR, ?_⟩
      convert hpath using 2
      omega
  complete := by
    intro program base s t hplaced hRt
    have hop := hplaced.head
    have hjump := hplaced.tail.right.head
    rw [hb, ← Nat.cast_one, encode_fork] at hop
    rw [hj, encode_fork] at hjump
    rw [length_cons, length_append, length_cons]
    rcases hRt with hR | hR
    · obtain ⟨n, hpath⟩ := h.complete hplaced.tail.left hR
      refine ⟨n + 1 + 1, .step (.first hop) (hpath.trans (.step (.first hjump) ?_))⟩
      convert (Takes.refl _ : S.Takes program 0 _ _) using 2
      omega
    have hplaced' : Placed program (base + (L.length + 2)) L' := by
      convert hplaced.tail.right.tail using 1
      omega
    obtain ⟨n, hpath⟩ := h'.complete hplaced' hR
    refine ⟨n + 1, .step (.second hop) ?_⟩
    convert hpath using 2
    omega

/-- The jump back of a repetition. -/
theorem encode_back (base n : ℕ) {j : ℤ} (hj : j = -(n : ℤ) - 1) :
    (Instruction.fork j j : Instruction σ).encode (base + 1 + n) = .fork base base := by
  rw [Instruction.encode, hj, show ((base + 1 + n : ℕ) : ℤ) + (-(n : ℤ) - 1) = base by omega,
    Int.toNat_natCast]

/-- Any number of copies. -/
theorem Means.star (h : Means S L R)
    {b j : ℤ} (hb : b = (L.length + 2 : ℕ)) (hj : j = -(L.length : ℤ) - 1) :
    Means S (.fork 1 b :: (L ++ [.fork j j])) (Relation.ReflTransGen R) where
  sound := by
    intro program base n s c hplaced hout hpath
    have hop := hplaced.head
    have hback := hplaced.tail.right.head
    rw [hb, ← Nat.cast_one, encode_fork] at hop
    rw [encode_back _ _ hj] at hback
    rw [length_cons, length_append, length_singleton] at hout ⊢
    -- every round starts with a step of its own
    induction n using Nat.strong_induction_on generalizing s with
    | _ n ih =>
      obtain ⟨m, d, rfl, hstep, hpath⟩ := hpath.exists_step (by dsimp only; omega)
      rcases hstep.of_fork hop with rfl | rfl
      · obtain ⟨m', t, hm, hR, hpath⟩ := h.sound hplaced.tail.left (by omega) hpath
        obtain ⟨k, d, rfl, hstep, hpath⟩ := hpath.exists_step (by dsimp only; omega)
        obtain rfl : d = ⟨base, t⟩ := (hstep.of_fork hback).elim id id
        obtain ⟨k', u, hk, hstar, hpath⟩ := ih k (by omega) hpath
        exact ⟨k', u, by omega, .head hR hstar, hpath⟩
      · exact ⟨m, s, Nat.le_succ m, .refl, hpath⟩
  complete := by
    intro program base s t hplaced hstar
    have hop := hplaced.head
    have hback := hplaced.tail.right.head
    rw [hb, ← Nat.cast_one, encode_fork] at hop
    rw [encode_back _ _ hj] at hback
    rw [length_cons, length_append, length_singleton]
    induction hstar using Relation.ReflTransGen.head_induction_on with
    | refl => exact ⟨1, .step (.second hop) (.refl _)⟩
    | head hR _ ih =>
      obtain ⟨n, hpath⟩ := h.complete hplaced.tail.left hR
      obtain ⟨m, hrest⟩ := ih
      exact ⟨n + (m + 1) + 1, .step (.first hop) (hpath.trans (.step (.first hback) hrest))⟩

/-- The rounds of a repetition that ends with a copy that read nothing. -/
inductive Rounds (register : ℕ) (R : Spot → Spot → Prop) : Spot → Spot → Prop
  | done (s : Spot) : Rounds register R s s
  | again {s t u : Spot} (h : R s t) (hread : t.memory.getD register none ≠ some t.position)
      (hrest : Rounds register R t u) : Rounds register R s u
  | empty {s t : Spot} (h : R s t) (hnothing : t.memory.getD register none = some t.position) :
      Rounds register R s t

/-- Any number of copies, an empty one the last. -/
theorem Means.rounds (h : Means S L R)
    (register : ℕ) {b j : ℤ} (hb : b = (L.length + 3 : ℕ)) (hj : j = -(L.length : ℤ) - 2) :
    Means S (.fork 1 b :: (L ++ [.progress register pastJumpBack, .fork j j]))
      (Rounds register R) where
  sound := by
    intro program base n s c hplaced hout hpath
    have hop := hplaced.head
    have hprogress := hplaced.tail.right.head
    have hback := hplaced.tail.right.tail.head
    rw [hb, ← Nat.cast_one, encode_fork] at hop
    rw [Nat.add_assoc, encode_back base (L.length + 1) (by rw [hj]; omega)] at hback
    rw [length_cons, length_append, length_cons, length_singleton] at hout ⊢
    induction n using Nat.strong_induction_on generalizing s with
    | _ n ih =>
      obtain ⟨m, d, rfl, hstep, hpath⟩ := hpath.exists_step (by dsimp only; omega)
      rcases hstep.of_fork hop with rfl | rfl
      · obtain ⟨m', t, hm, hR, hpath⟩ := h.sound hplaced.tail.left (by omega) hpath
        obtain ⟨k, d, rfl, hstep, hpath⟩ := hpath.exists_step (by dsimp only; omega)
        cases hstep with
        | next hop' hacts =>
          obtain rfl := Option.some.inj (hprogress.symm.trans hop')
          cases hacts with
          | progress hread =>
            obtain ⟨k', d, rfl, hstep, hpath⟩ := hpath.exists_step (by dsimp only; omega)
            obtain rfl : d = ⟨base, _⟩ := (hstep.of_fork hback).elim id id
            obtain ⟨l, u, hl, hrounds, hpath⟩ := ih k' (by omega) hpath
            exact ⟨l, u, by omega, .again hR hread hrounds, hpath⟩
        | first hop' => cases hprogress.symm.trans hop'
        | second hop' => cases hprogress.symm.trans hop'
        | leave hop' hnothing =>
          cases hprogress.symm.trans hop'
          refine ⟨k, t, by omega, .empty hR hnothing, ?_⟩
          convert hpath using 2
          rw [pastJumpBack]
          omega
      · exact ⟨m, s, Nat.le_succ m, .done s, hpath⟩
  complete := by
    intro program base s t hplaced hrounds
    have hop := hplaced.head
    have hprogress := hplaced.tail.right.head
    have hback := hplaced.tail.right.tail.head
    rw [hb, ← Nat.cast_one, encode_fork] at hop
    rw [Nat.add_assoc, encode_back base (L.length + 1) (by rw [hj]; omega)] at hback
    rw [length_cons, length_append, length_cons, length_singleton]
    induction hrounds with
    | done s => exact ⟨1, .step (.second hop) (.refl _)⟩
    | @again s t u hR hread _ ih =>
      obtain ⟨n, hpath⟩ := h.complete hplaced.tail.left hR
      obtain ⟨m, hrest⟩ := ih
      exact ⟨n + (m + 1 + 1) + 1, .step (.first hop)
        (hpath.trans (.step (.next hprogress (.progress hread)) (.step (.first hback) hrest)))⟩
    | @empty s t hR hnothing =>
      obtain ⟨n, hpath⟩ := h.complete hplaced.tail.left hR
      refine ⟨n + 1 + 1, .step (.first hop) (hpath.trans
        (.step (.leave hprogress hnothing (by decide)) ?_))⟩
      convert (Takes.refl _ : S.Takes program 0 _ _) using 2
      rw [pastJumpBack]
      omega

/-- One class repeated, as one instruction and by a fork and a jump. -/
theorem reflTransGen_char (source : σ) (s t : Spot) :
    Relation.ReflTransGen (S.Acts (.char source)) s t ↔ S.Acts (.span source) s t := by
  constructor
  · intro h
    induction h using Relation.ReflTransGen.head_induction_on with
    | refl => exact .span 0 fun i hi => absurd hi (Nat.not_lt_zero i)
    | head hchar _ ih =>
      cases hchar with
      | @char _ p m hhere =>
        cases ih with
        | span n hrun =>
          have hlonger : S.Acts (.span source) ⟨p, m⟩ ⟨p + (n + 1), m⟩ := .span (n + 1)
            (by
              intro i hi
              cases i with
              | zero => exact hhere
              | succ i =>
                have := hrun i (Nat.lt_of_succ_lt_succ hi)
                rwa [Nat.add_right_comm, Nat.add_assoc] at this)
          rwa [← Nat.add_assoc, Nat.add_right_comm] at hlonger
  · intro h
    cases h with
    | @span _ p m n hrun =>
      induction n with
      | zero => exact .refl
      | succ n ih =>
        refine .tail (ih fun i hi => hrun i (Nat.lt_succ_of_lt hi)) ?_
        exact .char (hrun n (Nat.lt_succ_self n))

end Setting

end Tsgit.Regex
