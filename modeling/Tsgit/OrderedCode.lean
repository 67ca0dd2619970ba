import Mathlib.Data.List.Lex
import Mathlib.Order.Lattice

/-!
# Codes That Keep the Order

A code writes each letter as a word. Where of two different letters the word of the smaller one
comes first, whatever follows, the code keeps the lexicographic order of texts.
-/

namespace OrderedCode

open List

variable {α β : Type}

/-- The words of letters in order are in order, whatever follows them, and none is empty. -/
structure Ordered [LT α] [LT β] (code : α → List β) : Prop where
  ne_nil : ∀ a, code a ≠ []
  lt : ∀ a b, a < b → ∀ s t, code a ++ s < code b ++ t

section

variable [LinearOrder α] [LT β] {code : α → List β}

theorem append_lt_append {s t : List β} (word : List β) (h : s < t) : word ++ s < word ++ t := by
  induction word with
  | nil => exact h
  | cons b word ih => exact cons_lt_cons_iff.mpr (.inr ⟨rfl, ih⟩)

variable {xs ys : List α}

theorem Ordered.flatMap_lt (h : Ordered code) (hlt : xs < ys) :
    xs.flatMap code < ys.flatMap code := by
  induction xs generalizing ys with
  | nil =>
    cases ys with
    | nil => exact absurd hlt (lt_irrefl _)
    | cons y ys =>
      rw [flatMap_nil, flatMap_cons]
      obtain ⟨b, word, hword⟩ := exists_cons_of_ne_nil (h.ne_nil y)
      rw [hword, cons_append]
      exact nil_lt_cons _ _
  | cons x xs ih =>
    cases ys with
    | nil => exact absurd hlt (not_lt_nil _)
    | cons y ys =>
      rw [flatMap_cons, flatMap_cons]
      rcases cons_lt_cons_iff.mp hlt with hletter | ⟨rfl, hrest⟩
      · exact h.lt x y hletter _ _
      · exact append_lt_append _ (ih hrest)

/-- **A code that keeps the order of letters** keeps that of texts. -/
theorem Ordered.flatMap_lt_iff [Std.Asymm fun a b : β => a < b] (h : Ordered code) : xs.flatMap code < ys.flatMap code ↔ xs < ys := by
  refine ⟨fun hlt => ?_, h.flatMap_lt⟩
  rcases lt_trichotomy xs ys with hless | rfl | hmore
  · exact hless
  · exact absurd hlt (List.lt_asymm hlt)
  · exact absurd hlt (List.lt_asymm (h.flatMap_lt hmore))

theorem Ordered.flatMap_prefix_iff [Std.Asymm fun a b : β => a < b] (h : Ordered code) : xs.flatMap code <+: ys.flatMap code ↔ xs <+: ys := by
  induction xs generalizing ys with
  | nil => exact iff_of_true nil_prefix nil_prefix
  | cons x xs ih =>
    cases ys with
    | nil =>
      refine iff_of_false (fun hbegins => ?_) (fun hbegins => ?_)
      · rw [flatMap_nil, prefix_nil, flatMap_cons, append_eq_nil_iff] at hbegins
        exact h.ne_nil x hbegins.1
      · cases prefix_nil.mp hbegins
    | cons y ys =>
      rw [flatMap_cons, flatMap_cons, cons_prefix_cons]
      constructor
      · rintro ⟨rest, hrest⟩
        rw [append_assoc] at hrest
        rcases lt_trichotomy x y with hless | rfl | hmore
        · have hlt := h.lt x y hless (xs.flatMap code ++ rest) (ys.flatMap code)
          rw [hrest] at hlt
          exact absurd hlt (List.lt_asymm hlt)
        · exact ⟨rfl, ih.mp ⟨rest, append_cancel_left hrest⟩⟩
        · have hlt := h.lt y x hmore (ys.flatMap code) (xs.flatMap code ++ rest)
          rw [hrest] at hlt
          exact absurd hlt (List.lt_asymm hlt)
      · rintro ⟨rfl, hbegins⟩
        exact (prefix_append_right_inj _).mpr (ih.mpr hbegins)

end

end OrderedCode
