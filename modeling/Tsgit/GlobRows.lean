import Mathlib.Computability.Language

/-!
# Rows of a Glob

A glob is matched backwards, token by token: a row holds, for every suffix of the text, whether
the tokens read so far match it. The row of a language `L` is `IsRow L`, and each step of a
matcher turns the row of `L` into the row of `K * L`.
-/

namespace Tsgit.GlobRows

open Computability List

variable {α : Type}

theorem takeWhile_run [DecidableEq α] {a : α} {rest : List α} (hrest : rest.head? ≠ some a)
    (n : ℕ) :
    ((replicate n a ++ rest).takeWhile (· == a)).length = n ∧
      (replicate n a ++ rest).dropWhile (· == a) = rest := by
  induction n with
  | zero =>
    cases rest with
    | nil => exact ⟨rfl, rfl⟩
    | cons b rest =>
      have hb : ¬(b == a) = true := fun h => hrest (congrArg some (beq_iff_eq.mp h))
      simp [hb]
  | succ n ih =>
    simp only [replicate_succ, cons_append]
    rw [takeWhile_cons_of_pos (p := fun b => b == a) (beq_self_eq_true a),
      dropWhile_cons_of_pos (p := fun b => b == a) (beq_self_eq_true a), length_cons,
      ih.1]
    exact ⟨rfl, ih.2⟩

theorem exists_run [DecidableEq α] (a : α) (text : List α) :
    ∃ n rest, text = replicate n a ++ rest ∧ rest.head? ≠ some a := by
  induction text with
  | nil => exact ⟨0, [], rfl, by simp⟩
  | cons b text ih =>
    by_cases hb : b = a
    · subst hb
      obtain ⟨n, rest, rfl, hrest⟩ := ih
      exact ⟨n + 1, rest, rfl, hrest⟩
    · exact ⟨0, b :: text, rfl, fun h => hb (Option.some.inj h)⟩

/-! ### Languages -/

/-- The texts of one letter that is admitted. -/
def letter (S : Set α) : Language α := {w | ∃ a ∈ S, w = [a]}

/-- The texts whose letters are all admitted. -/
def runs (S : Set α) : Language α := {w | ∀ a ∈ w, a ∈ S}

/-- Zero or more directories: segments without the separator, each followed by it. -/
def dirs (slash : α) : Language α := (runs {slash}ᶜ * letter {slash})∗

variable {S : Set α}

theorem nil_not_mem_letter_mul {L : Language α} : [] ∉ letter S * L := by
  rintro ⟨a, ⟨b, -, rfl⟩, c, -, h⟩
  cases h

variable {w : List α}

theorem cons_mem_letter_mul {L : Language α} {b : α} :
    b :: w ∈ letter S * L ↔ b ∈ S ∧ w ∈ L := by
  constructor
  · rintro ⟨_, ⟨a, ha, rfl⟩, c, hc, h⟩
    obtain ⟨rfl, rfl⟩ := cons_eq_cons.mp h
    exact ⟨ha, hc⟩
  · rintro ⟨hb, hw⟩
    exact Language.append_mem_mul (a := [b]) ⟨b, hb, rfl⟩ hw

theorem nil_mem_runs (S : Set α) : [] ∈ runs S := fun _ ha => absurd ha not_mem_nil

theorem nil_mem_runs_mul {L : Language α} : [] ∈ runs S * L ↔ [] ∈ L := by
  constructor
  · rintro ⟨a, -, c, hc, h⟩
    obtain ⟨-, rfl⟩ := append_eq_nil_iff.mp h
    exact hc
  · intro h
    exact Language.append_mem_mul (a := []) (nil_mem_runs S) h

theorem cons_mem_runs_mul {L : Language α} {b : α} :
    b :: w ∈ runs S * L ↔ b :: w ∈ L ∨ b ∈ S ∧ w ∈ runs S * L := by
  constructor
  · rintro ⟨a, ha, c, hc, h⟩
    cases a with
    | nil =>
      obtain rfl : c = b :: w := h
      exact .inl hc
    | cons a rest =>
      obtain ⟨rfl, rfl⟩ := cons_eq_cons.mp h
      exact .inr ⟨ha a mem_cons_self, Language.append_mem_mul
        (forall_mem_cons.mp ha).2 hc⟩
  · rintro (h | ⟨hb, a, ha, c, hc, rfl⟩)
    · exact Language.append_mem_mul (a := []) (nil_mem_runs S) h
    · refine Language.append_mem_mul (a := b :: a) (fun x hx => ?_) hc
      rcases mem_cons.mp hx with rfl | hx
      · exact hb
      · exact ha x hx

/-- Some directories are nothing at all or any text that ends in the separator. -/
theorem mem_dirs {slash : α} :
    w ∈ dirs slash ↔ w = [] ∨ ∃ u, w = u ++ [slash] := by
  constructor
  · intro h
    obtain ⟨L, rfl, hL⟩ := Language.mem_kstar.mp h
    rcases eq_nil_or_concat L with rfl | ⟨front, last, rfl⟩
    · exact .inl rfl
    · obtain ⟨a, -, _, ⟨s, rfl, rfl⟩, rfl⟩ := hL last (by simp)
      exact .inr ⟨front.flatten ++ a, by simp⟩
  · rintro (rfl | ⟨u, rfl⟩)
    · exact Language.nil_mem_kstar _
    induction hn : u.length using Nat.strong_induction_on generalizing u with
    | _ n ih =>
      by_cases hslash : slash ∈ u
      · obtain ⟨a, b, rfl, hb⟩ := eq_append_cons_of_mem hslash
        have hlen : b.length < n := by
          rw [← hn, length_append, length_cons]
          omega
        have hseg : a ++ [slash] ∈ runs {slash}ᶜ * letter {slash} :=
          Language.append_mem_mul (fun x hx heq => hb (heq ▸ hx)) ⟨slash, rfl, rfl⟩
        have hrest := ih b.length hlen b rfl
        have hsplit : a ++ slash :: b ++ [slash] = (a ++ [slash]) ++ (b ++ [slash]) := by simp
        rw [hsplit]
        exact mul_kstar_le_kstar (a := runs {slash}ᶜ * letter {slash})
          (Language.append_mem_mul hseg hrest)
      · have hseg : u ++ [slash] ∈ runs {slash}ᶜ * letter {slash} :=
          Language.append_mem_mul (fun x hx heq => hslash (heq ▸ hx)) ⟨slash, rfl, rfl⟩
        have hall : ∀ y ∈ [u ++ [slash]], y ∈ runs {slash}ᶜ * letter {slash} := by
          intro y hy
          rw [mem_singleton.mp hy]
          exact hseg
        have hstar := Language.join_mem_kstar hall
        rwa [flatten_singleton] at hstar

theorem mem_dirs_mul {slash : α} {L : Language α} :
    w ∈ dirs slash * L ↔ w ∈ L ∨ w ∈ runs Set.univ * (letter {slash} * L) := by
  constructor
  · rintro ⟨a, ha, c, hc, rfl⟩
    rcases mem_dirs.mp ha with rfl | ⟨u, rfl⟩
    · exact .inl hc
    · refine .inr ⟨u, fun _ _ => Set.mem_univ _, slash :: c, cons_mem_letter_mul.mpr ⟨rfl, hc⟩, ?_⟩
      simp
  rintro (h | ⟨u, -, v, hv, rfl⟩)
  · exact Language.append_mem_mul (a := []) (mem_dirs.mpr (.inl rfl)) h
  cases v with
  | nil => exact absurd hv nil_not_mem_letter_mul
  | cons b c =>
    obtain ⟨rfl, hc⟩ := cons_mem_letter_mul.mp hv
    refine ⟨u ++ [b], mem_dirs.mpr (.inr ⟨u, rfl⟩), c, hc, ?_⟩
    simp

/-! ### Rows -/

def IsRow (L : Language α) : List α → List Bool → Prop
  | [], row => ∃ cell, row = [cell] ∧ (cell = true ↔ [] ∈ L)
  | b :: text, row => ∃ cell rest, row = cell :: rest ∧ (cell = true ↔ b :: text ∈ L) ∧
      IsRow L text rest

/-- The row before any token: only the end of the text. -/
def baseRow : List α → List Bool
  | [] => [true]
  | _ :: text => false :: baseRow text

/-- One admitted letter. -/
def one (admits : α → Bool) : List α → List Bool → List Bool
  | b :: text, _ :: next => (admits b && next.headD false) :: one admits text next
  | _, _ => [false]

/-- Any run of admitted letters. -/
def run (admits : α → Bool) : List α → List Bool → List Bool
  | b :: text, cell :: next =>
    let rest := run admits text next
    (cell || (admits b && rest.headD false)) :: rest
  | _, next => [next.headD false]

variable {L : Language α} {text : List α} {row : List Bool}

theorem IsRow.head (h : IsRow L text row) : row.headD false = true ↔ text ∈ L := by
  cases text with
  | nil =>
    obtain ⟨cell, rfl, hcell⟩ := h
    exact hcell
  | cons b text =>
    obtain ⟨cell, rest, rfl, hcell, -⟩ := h
    exact hcell

theorem IsRow.congr {L' : Language α} (h : IsRow L text row) (heq : ∀ w, w ∈ L ↔ w ∈ L') :
    IsRow L' text row := by
  induction text generalizing row with
  | nil =>
    obtain ⟨cell, rfl, hcell⟩ := h
    exact ⟨cell, rfl, hcell.trans (heq _)⟩
  | cons b text ih =>
    obtain ⟨cell, rest, rfl, hcell, hrest⟩ := h
    exact ⟨cell, rest, rfl, hcell.trans (heq _), ih hrest⟩

theorem isRow_base (text : List α) : IsRow 1 text (baseRow text) := by
  induction text with
  | nil => exact ⟨true, rfl, by simp⟩
  | cons b text ih => exact ⟨false, baseRow text, rfl, by simp [Language.mem_one], ih⟩

theorem isRow_one {admits : α → Bool} (hadmits : ∀ b, admits b = true ↔ b ∈ S)
    (h : IsRow L text row) : IsRow (letter S * L) text (one admits text row) := by
  induction text generalizing row with
  | nil =>
    refine ⟨false, rfl, ?_⟩
    simp [nil_not_mem_letter_mul]
  | cons b text ih =>
    obtain ⟨cell, rest, rfl, -, hrest⟩ := h
    refine ⟨_, _, rfl, ?_, ih hrest⟩
    rw [Bool.and_eq_true, hadmits, hrest.head, cons_mem_letter_mul]

theorem isRow_run {admits : α → Bool} (hadmits : ∀ b, admits b = true ↔ b ∈ S)
    (h : IsRow L text row) : IsRow (runs S * L) text (run admits text row) := by
  induction text generalizing row with
  | nil =>
    obtain ⟨cell, rfl, hcell⟩ := h
    exact ⟨cell, rfl, hcell.trans nil_mem_runs_mul.symm⟩
  | cons b text ih =>
    obtain ⟨cell, rest, rfl, hcell, hrest⟩ := h
    have hrun := ih hrest
    refine ⟨_, _, rfl, ?_, hrun⟩
    rw [Bool.or_eq_true, Bool.and_eq_true, hcell, hadmits, hrun.head, cons_mem_runs_mul]

/-- Cell by cell. -/
theorem IsRow.union {K : Language α} {row' : List Bool} (h : IsRow K text row)
    (h' : IsRow L text row') : IsRow (K + L) text (List.zipWith (· || ·) row row') := by
  induction text generalizing row row' with
  | nil =>
    obtain ⟨cell, rfl, hcell⟩ := h
    obtain ⟨cell', rfl, hcell'⟩ := h'
    refine ⟨cell || cell', rfl, ?_⟩
    rw [Bool.or_eq_true, hcell, hcell', Language.mem_add]
  | cons b text ih =>
    obtain ⟨cell, rest, rfl, hcell, hrest⟩ := h
    obtain ⟨cell', rest', rfl, hcell', hrest'⟩ := h'
    refine ⟨cell || cell', _, rfl, ?_, ih hrest hrest'⟩
    rw [Bool.or_eq_true, hcell, hcell', Language.mem_add]

/-- A row without a cell set decides for every token in front. -/
theorem IsRow.not_mem_mul (h : IsRow L text row) (hempty : row.contains true = false)
    (K : Language α) : text ∉ K * L := by
  have hnone {suffix : List α} (hs : suffix ∈ L) (a : List α) : a ++ suffix ≠ text := by
    intro heq
    induction a generalizing text row with
    | nil =>
      obtain rfl : suffix = text := heq
      have hhead := h.head.mpr hs
      cases row with
      | nil => cases hhead
      | cons cell rest =>
        obtain rfl : cell = true := hhead
        simp at hempty
    | cons x a ih =>
      cases text with
      | nil => cases heq
      | cons b text =>
        obtain ⟨cell, rest, rfl, -, hrest⟩ := h
        rw [contains_cons, Bool.or_eq_false_iff] at hempty
        exact ih hrest hempty.2 (cons_eq_cons.mp heq).2
  rintro ⟨a, -, c, hc, heq⟩
  exact hnone hc a heq

end Tsgit.GlobRows
