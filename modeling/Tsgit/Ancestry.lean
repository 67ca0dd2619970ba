import Mathlib.Data.Fintype.Order

/-!
# Ancestry in a Finite Acyclic Graph

`parent a b` says that `b` is a parent of `a`. A vertex reaches its ancestors, itself among
them, and passes nothing but its proper ancestors.
-/

namespace Ancestry

variable {V : Type*} (parent : V → V → Prop)

/-- `b` is an ancestor of `a`, or `a` itself. -/
abbrev Reaches : V → V → Prop := Relation.ReflTransGen parent

/-- `b` is an ancestor of `a` over at least one edge. -/
abbrev Passes : V → V → Prop := Relation.TransGen parent

/-- No vertex is its own ancestor. -/
def Acyclic : Prop := ∀ v, ¬Passes parent v v

/-- An ancestor of `one` and of some of `twos`. -/
def Common (one : V) (twos : List V) (v : V) : Prop :=
  Reaches parent one v ∧ ∃ two ∈ twos, Reaches parent two v

/-- A common ancestor that is an ancestor of no other one. -/
def Best (one : V) (twos : List V) (v : V) : Prop :=
  Common parent one twos v ∧ ∀ w, Common parent one twos w → ¬Passes parent w v

variable {parent}

theorem Reaches.refl (v : V) : Reaches parent v v := Relation.ReflTransGen.refl

theorem Reaches.trans {a b c : V} (hab : Reaches parent a b) (hbc : Reaches parent b c) :
    Reaches parent a c := Relation.ReflTransGen.trans hab hbc

theorem Reaches.step {a b c : V} (hab : Reaches parent a b) (hbc : parent b c) :
    Reaches parent a c := Relation.ReflTransGen.tail hab hbc

variable {a b : V}

theorem Passes.of_parent (h : parent a b) : Passes parent a b := .single h

theorem Passes.reaches (h : Passes parent a b) : Reaches parent a b := h.to_reflTransGen

theorem Passes.trans {a b c : V} (hab : Passes parent a b) (hbc : Passes parent b c) :
    Passes parent a c := Relation.TransGen.trans hab hbc

theorem Passes.trans_reaches {a b c : V} (hab : Passes parent a b) (hbc : Reaches parent b c) :
    Passes parent a c := Relation.TransGen.trans_left hab hbc

theorem Reaches.trans_passes {a b c : V} (hab : Reaches parent a b) (hbc : Passes parent b c) :
    Passes parent a c := Relation.TransGen.trans_right hab hbc

theorem Passes.step {a b c : V} (hab : Passes parent a b) (hbc : parent b c) :
    Passes parent a c := Relation.TransGen.tail hab hbc

theorem Reaches.eq_or_passes (h : Reaches parent a b) : b = a ∨ Passes parent a b :=
  Relation.reflTransGen_iff_eq_or_transGen.mp h

/-- What every edge lowers, every path lowers. -/
theorem Passes.lt {α : Type*} [Preorder α] (rank : V → α)
    (hrank : ∀ a b, parent a b → rank b < rank a) (h : Passes parent a b) :
    rank b < rank a := by
  induction h with
  | single hb => exact hrank _ _ hb
  | tail _ hc ih => exact (hrank _ _ hc).trans ih

theorem exists_irreducible (hacyclic : Acyclic parent) {s : Set V} (hs : s.Finite) {v : V}
    (hv : v ∈ s) : ∃ top ∈ s, Reaches parent top v ∧ ∀ w ∈ s, ¬Passes parent w top := by
  have hfinite : Finite s := hs
  let below (a b : s) : Prop := Passes parent a.1 b.1
  have : IsTrans s below := ⟨fun _ _ _ hab hbc => hab.trans hbc⟩
  have : Std.Irrefl below := ⟨fun a => hacyclic a.1⟩
  have hwf : WellFounded below := Finite.wellFounded_of_trans_of_irrefl below
  obtain ⟨⟨top, htop⟩, hreach, hmin⟩ :=
    hwf.has_min {a | Reaches parent a.1 v} ⟨⟨v, hv⟩, .refl v⟩
  refine ⟨top, htop, hreach, fun w hw hpass => ?_⟩
  exact hmin ⟨w, hw⟩ (hpass.reaches.trans hreach) hpass

theorem exists_best (hacyclic : Acyclic parent) {one : V} {twos : List V}
    (hfinite : {v | Reaches parent one v}.Finite) {v : V} (hv : Common parent one twos v) :
    ∃ top, Best parent one twos top ∧ Reaches parent top v := by
  obtain ⟨top, htop, hreach, hnone⟩ := exists_irreducible hacyclic
    (hfinite.subset fun w (hw : Common parent one twos w) => hw.1) hv
  exact ⟨top, ⟨htop, hnone⟩, hreach⟩

/-- **A mark has come down the whole path, or waits at a stopped vertex on the way.** -/
theorem carried_or_stopped {carried stopped : V → Prop}
    (hcarry : ∀ a b, carried a → ¬stopped a → parent a b → carried b)
    (ha : carried a) (h : Reaches parent a b) :
    carried b ∨ ∃ q, Reaches parent a q ∧ Passes parent q b ∧ stopped q ∧ carried q := by
  induction h with
  | refl => exact .inl ha
  | @tail b c hab hbc ih =>
    rcases ih with hb | ⟨q, haq, hqb, hstopped, hq⟩
    · by_cases hstopped : stopped b
      · exact .inr ⟨b, hab, .single hbc, hstopped, hb⟩
      · exact .inl (hcarry b c hb hstopped hbc)
    · exact .inr ⟨q, haq, hqb.step hbc, hstopped, hq⟩

end Ancestry
