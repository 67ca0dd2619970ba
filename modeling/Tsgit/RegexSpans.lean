import Mathlib.Data.List.Forall2
import Tsgit.RegexPaths

/-!
# Spans and Repetitions

A pattern translated with some of its repeated classes as spans and others by forks and jumps
means the same relation (`Alike`).
-/

namespace Tsgit.Regex

variable {σ : Type}

namespace Setting

variable {S : Setting σ}

/-- The instructions mean the same, with spans and without. -/
def Same (S : Setting σ) (L L' : List (Instruction σ)) (R : Spot → Spot → Prop) : Prop :=
  Means S L R ∧ Means S L' R

theorem Same.append {L L' M M' : List (Instruction σ)} {R R' : Spot → Spot → Prop}
    (h : Same S L L' R) (h' : Same S M M' R') : Same S (L ++ M) (L' ++ M') (Comp R R') :=
  ⟨h.1.append h'.1, h.2.append h'.2⟩

end Setting

open List hiding flatten
open Setting

namespace Fragment

theorem flattenAll_append (fs gs : List (Fragment σ)) :
    flattenAll (fs ++ gs) = flattenAll fs ++ flattenAll gs := by
  induction fs with
  | nil => rfl
  | cons f rest ih => rw [cons_append, flattenAll, flattenAll, ih, append_assoc]

theorem flatten_sequenceOf (fs : List (Fragment σ)) : (sequenceOf fs).flatten = flattenAll fs := by
  rw [sequenceOf, flatten]
  induction fs with
  | nil => rfl
  | cons f rest ih =>
    rw [filter_cons, flattenAll]
    split
    · rw [flattenAll, ih]
    · next hsize =>
      have hnil : f.flatten = [] := length_eq_zero_iff.mp
        (Nat.eq_zero_of_not_pos fun hpos => hsize (decide_eq_true hpos))
      rw [ih, hnil, nil_append]

/-- The translation asks the same of the fragments. -/
structure Alike (f g : Fragment σ) : Prop where
  size : 0 < f.size ↔ 0 < g.size
  isFork : f.isFork = g.isFork
  charSource : f.charSource = g.charSource
  reads : f.reads = g.reads

theorem Alike.refl (f : Fragment σ) : Alike f f := ⟨.rfl, rfl, rfl, rfl⟩

theorem alike_fork (a b c d : ℤ) : Alike (fork a b : Fragment σ) (fork c d) :=
  ⟨.rfl, rfl, rfl, rfl⟩

variable {fs gs : List (Fragment σ)}

theorem flattenAll_pos (h : List.Forall₂ Alike fs gs) :
    0 < (flattenAll fs).length ↔ 0 < (flattenAll gs).length := by
  induction h with
  | nil => exact .rfl
  | @cons f g fs gs hhead _ ih =>
    have := hhead.size
    rw [size, size] at this
    rw [flattenAll, flattenAll, length_append, length_append]
    omega

theorem any_isFork (h : List.Forall₂ Alike fs gs) :
    fs.any isFork = gs.any isFork := by
  induction h with
  | nil => rfl
  | cons hhead _ ih => rw [any_cons, any_cons, hhead.isFork, ih]

theorem readsSome_eq (h : List.Forall₂ Alike fs gs) :
    readsSome fs = readsSome gs := by
  induction h with
  | nil => rfl
  | cons hhead _ ih => rw [readsSome, readsSome, hhead.reads, ih]

theorem alike_sequenceOf (h : List.Forall₂ Alike fs gs) :
    Alike (sequenceOf fs) (sequenceOf gs) := by
  have hfilter : List.Forall₂ Alike (fs.filter fun f => decide (0 < f.size))
      (gs.filter fun g => decide (0 < g.size)) :=
    rel_filter (fun f g hfg => by
      change decide (0 < f.size) = true ↔ decide (0 < g.size) = true
      rw [decide_eq_true_iff, decide_eq_true_iff, hfg.size]) h
  refine ⟨?_, rfl, rfl, ?_⟩
  · rw [size, size, flatten_sequenceOf, flatten_sequenceOf]
    exact flattenAll_pos h
  · rw [sequenceOf, sequenceOf, reads, reads, any_isFork hfilter, readsSome_eq hfilter]

theorem alike_alternateParts (h : List.Forall₂ Alike fs gs) :
    List.Forall₂ Alike (alternateParts fs) (alternateParts gs) := by
  induction h with
  | nil => exact .nil
  | @cons f g fs gs hhead htail ih =>
    cases htail with
    | nil => exact .cons hhead .nil
    | cons hnext hrest =>
      exact .cons (alike_fork ..) (.cons hhead (.cons (alike_fork ..) ih))

theorem alike_star {f g : Fragment σ} (h : Alike f g) : Alike (star f) (star g) :=
  alike_sequenceOf (.cons (alike_fork ..) (.cons h (.cons (alike_fork ..) .nil)))

theorem alike_guarded {f g : Fragment σ} (h : Alike f g) (register empty : ℕ) :
    Alike (guarded f register empty) (guarded g register empty) :=
  alike_sequenceOf (.cons (.refl _) (.cons h (.cons (.refl _) .nil)))

theorem eq_of_charSource {f : Fragment σ} {source : σ} (h : f.charSource = some source) :
    f = .one (.char source) := by
  cases f with
  | sequence parts => cases h
  | one i =>
    cases i with
    | char source' =>
      cases h
      rfl
    | _ => cases h

/-- Fragments that mean the same and of which the translation asks the same. -/
def Twin (S : Setting σ) (f g : Fragment σ) (R : Spot → Spot → Prop) : Prop :=
  Same S f.flatten g.flatten R ∧ Alike f g

theorem twin_one {S : Setting σ} {i : Instruction σ} {op : Op σ}
    (hencode : ∀ pc, i.encode pc = op) (hfork : ∀ first second, op ≠ .fork first second)
    (hleave : ∀ register skip, op = .progress register skip → skip = fails) :
    Twin S (.one i) (.one i) (S.Acts op) :=
  ⟨⟨.one hencode hfork hleave, .one hencode hfork hleave⟩, .refl _⟩

theorem twin_save {S : Setting σ} (slot : ℕ) :
    Twin S (.one (.save slot)) (.one (.save slot)) (S.Acts (.save slot)) :=
  twin_one (fun _ => rfl) nofun nofun

/-- One fragment after another. -/
inductive Twins (S : Setting σ) :
    List (Fragment σ) → List (Fragment σ) → (Spot → Spot → Prop) → Prop
  | nil : Twins S [] [] Eq
  | cons {f g : Fragment σ} {fs gs : List (Fragment σ)} {R R' : Spot → Spot → Prop}
      (hhead : Twin S f g R) (htail : Twins S fs gs R') : Twins S (f :: fs) (g :: gs) (Comp R R')

theorem Twins.same {S : Setting σ} {R : Spot → Spot → Prop}
    (h : Twins S fs gs R) : Same S (flattenAll fs) (flattenAll gs) R := by
  induction h with
  | nil => exact ⟨.nil, .nil⟩
  | cons hhead _ ih => exact hhead.1.append ih

theorem Twins.alike {S : Setting σ} {R : Spot → Spot → Prop}
    (h : Twins S fs gs R) : List.Forall₂ Alike fs gs := by
  induction h with
  | nil => exact .nil
  | cons hhead _ ih => exact .cons hhead.2 ih

theorem Twins.sequenceOf {S : Setting σ} {R : Spot → Spot → Prop}
    (h : Twins S fs gs R) : Twin S (sequenceOf fs) (sequenceOf gs) R := by
  refine ⟨?_, alike_sequenceOf h.alike⟩
  rw [flatten_sequenceOf, flatten_sequenceOf]
  exact h.same

end Fragment

/-! ### Translations, with spans and without -/

open Fragment

variable {S : Setting σ}

variable {f g : Fragment σ} {R : Spot → Spot → Prop}

theorem twin_star (h : Twin S f g R) :
    Twin S (Fragment.star f) (Fragment.star g) (Relation.ReflTransGen R) := by
  refine ⟨?_, alike_star h.2⟩
  rw [Fragment.star, Fragment.star, flatten_sequenceOf, flatten_sequenceOf]
  exact ⟨h.1.1.star (by simp [size]) (by simp [size]), h.1.2.star (by simp [size]) (by simp [size])⟩

/-- Any number of one class, as one instruction or by a fork and a jump. -/
def unboundedClass (spans : Bool) (source : σ) : Fragment σ :=
  if spans then .one (.span source) else Fragment.star (.one (.char source))

theorem means_unboundedClass (spans : Bool) (source : σ) :
    Means S (unboundedClass spans source).flatten (S.Acts (.span source)) := by
  cases spans with
  | true => exact .one (fun _ => rfl) nofun nofun
  | false =>
    have hchar : Means S [Instruction.char source] (S.Acts (.char source)) :=
      .one (fun _ => rfl) nofun nofun
    have hstar := (hchar.star (b := (1 + 2 : ℤ)) (j := (-1 - 1 : ℤ)) rfl rfl).congr
      (reflTransGen_char source)
    change Means S (Fragment.star (.one (.char source))).flatten _
    rw [Fragment.star, flatten_sequenceOf]
    exact hstar

theorem alike_unboundedClass (spans spans' : Bool) (source : σ) :
    Alike (unboundedClass spans source) (unboundedClass spans' source) := by
  have hstar : Alike (.one (.span source)) (Fragment.star (.one (.char source))) := by
    refine ⟨iff_of_true Nat.one_pos ?_, rfl, rfl, rfl⟩
    rw [size, Fragment.star, flatten_sequenceOf]
    exact Nat.succ_pos _
  cases spans with
  | true =>
    cases spans' with
    | true => exact .refl _
    | false => exact hstar
  | false =>
    cases spans' with
    | true => exact ⟨hstar.size.symm, hstar.isFork.symm, hstar.charSource.symm, hstar.reads.symm⟩
    | false => exact .refl _

theorem twin_unbounded (spans spans' : Bool) (source : σ) :
    Twin S (unboundedClass spans source) (unboundedClass spans' source) (S.Acts (.span source)) :=
  ⟨⟨means_unboundedClass spans source, means_unboundedClass spans' source⟩,
    alike_unboundedClass spans spans' source⟩

theorem twin_guarded (h : Twin S f g R) (register : ℕ) :
    ∃ R', Twin S (guarded f register fails) (guarded g register fails) R' := by
  have hprogress : Twin S (.one (.progress register fails)) (.one (.progress register fails))
      (S.Acts (.progress register fails)) := by
    refine twin_one (fun _ => rfl) nofun fun register' skip heq => ?_
    cases heq
    rfl
  exact ⟨_, (Twins.cons (twin_save register) (.cons h (.cons hprogress .nil))).sequenceOf⟩

theorem means_guardedStar (h : Means S f.flatten R) (register : ℕ) :
    Means S (Fragment.star (guarded f register pastJumpBack)).flatten
      (Rounds register (Comp (S.Acts (.save register)) R)) := by
  have hsave : Means S [Instruction.save register] (S.Acts (.save register)) :=
    .one (fun _ => rfl) nofun nofun
  have hcopy : (guarded f register pastJumpBack).flatten =
      ([.save register] ++ f.flatten) ++ [.progress register pastJumpBack] := by
    rw [guarded, flatten_sequenceOf]
    simp [flattenAll, flatten]
  rw [Fragment.star, flatten_sequenceOf]
  have hrounds := (hsave.append h).rounds register
    (b := ((guarded f register pastJumpBack).size + 2 : ℤ))
    (j := (-(guarded f register pastJumpBack).size - 1 : ℤ))
    (by rw [size, hcopy]; simp; ring) (by rw [size, hcopy]; simp; ring)
  convert hrounds using 1
  rw [flattenAll, flattenAll, flattenAll, flattenAll, hcopy]
  simp [fork, flatten]

theorem twin_guardedStar (h : Twin S f g R) (register : ℕ) :
    ∃ R', Twin S (Fragment.star (guarded f register pastJumpBack))
      (Fragment.star (guarded g register pastJumpBack)) R' :=
  ⟨_, ⟨means_guardedStar h.1.1 register, means_guardedStar h.1.2 register⟩,
    alike_star (alike_guarded h.2 register pastJumpBack)⟩

theorem copiesOf_twin (h : Twin S f g R) (spans spans' : σ → Bool) (capturing : Bool) (slots : ℕ) :
    (copiesOf spans f capturing slots).1.body = f ∧ (copiesOf spans' g capturing slots).1.body = g ∧
      (copiesOf spans f capturing slots).2 = (copiesOf spans' g capturing slots).2 ∧
      (∃ R', Twin S (copiesOf spans f capturing slots).1.optional
        (copiesOf spans' g capturing slots).1.optional R') ∧
      ∃ R', Twin S (copiesOf spans f capturing slots).1.unbounded
        (copiesOf spans' g capturing slots).1.unbounded R' := by
  have hsource := h.2.charSource
  rw [copiesOf, copiesOf, ← hsource]
  cases hchar : f.charSource with
  | some source =>
    obtain rfl := eq_of_charSource hchar
    obtain rfl := eq_of_charSource (hsource.symm.trans hchar)
    exact ⟨rfl, rfl, rfl, ⟨R, h⟩, _, twin_unbounded (spans source) (spans' source) source⟩
  | none =>
    dsimp only
    rw [← h.2.reads]
    by_cases hreads : f.reads = true
    · rw [if_pos hreads, if_pos hreads]
      exact ⟨rfl, rfl, rfl, ⟨R, h⟩, _, twin_star h⟩
    rw [if_neg hreads, if_neg hreads]
    cases capturing with
    | true => exact ⟨rfl, rfl, rfl, ⟨R, h⟩, twin_guardedStar h slots⟩
    | false =>
      obtain ⟨R', hguarded⟩ := twin_guarded h slots
      exact ⟨rfl, rfl, rfl, ⟨R', hguarded⟩, _, twin_star hguarded⟩

theorem twins_replicate (h : Twin S f g R) (n : ℕ) :
    ∃ R', Twins S (List.replicate n f) (List.replicate n g) R' ∧
      (0 < n → ∀ s t, R' s t → ∃ u, R s u) := by
  induction n with
  | zero => exact ⟨Eq, .nil, fun hpos => absurd hpos (Nat.lt_irrefl 0)⟩
  | succ n ih =>
    obtain ⟨R', hrest, -⟩ := ih
    refine ⟨_, .cons h hrest, fun _ s t hst => ?_⟩
    obtain ⟨u, hu, -⟩ := hst
    exact ⟨u, hu⟩

theorem length_optionalCopies (copy : Fragment σ) (count : ℕ) :
    (flattenAll (optionalCopies copy count)).length = count * (copy.size + 1) := by
  induction count with
  | zero => rw [optionalCopies, flattenAll, length_nil, Nat.zero_mul]
  | succ count ih =>
    rw [optionalCopies, flattenAll, flatten_sequenceOf, length_append, ih]
    simp only [flattenAll, fork, flatten, append_nil, length_append,
      length_singleton]
    rw [size]
    ring

/-- At most so many copies. -/
def UpTo (R : Spot → Spot → Prop) : ℕ → Spot → Spot → Prop
  | 0, s, t => s = t
  | n + 1, s, t => Comp R (UpTo R n) s t ∨ s = t

theorem means_optionalCopies {copy : Fragment σ} (h : Means S copy.flatten R) (count : ℕ) :
    Means S (flattenAll (optionalCopies copy count)) (UpTo R count) := by
  induction count with
  | zero => exact .nil
  | succ count ih =>
    have hskip := (h.append ih).skip (b := ((count + 1 : ℕ) * (copy.size + 1) : ℤ))
      (by rw [length_append, length_optionalCopies, size]; push_cast; ring)
    have hflatten : flattenAll (optionalCopies copy (count + 1)) =
        .fork 1 ((count + 1 : ℕ) * (copy.size + 1)) ::
          (copy.flatten ++ flattenAll (optionalCopies copy count)) := by
      rw [optionalCopies, flattenAll, flatten_sequenceOf]
      simp [flattenAll, fork, flatten]
    rw [hflatten]
    exact hskip

theorem alike_optionalCopies (h : Alike f g) (count : ℕ) :
    List.Forall₂ Alike (optionalCopies f count) (optionalCopies g count) := by
  induction count with
  | zero => exact .nil
  | succ count ih =>
    exact .cons (alike_sequenceOf (.cons (alike_fork ..) (.cons h .nil))) ih

/-- A repetition of twins is twins. -/
theorem repeatFragment_twin (h : Twin S f g R)
    (spans spans' : σ → Bool) (capturing : Bool) (slots min : ℕ) (max : Option ℕ) :
    ∃ R', Twin S (repeatFragment (copiesOf spans f capturing slots).1 min max)
        (repeatFragment (copiesOf spans' g capturing slots).1 min max) R' ∧
      (0 < min → ∀ s t, R' s t → ∃ u, R s u) := by
  obtain ⟨hbody, hbody', -, ⟨Ro, hoptional⟩, ⟨Ru, hunbounded⟩⟩ :=
    copiesOf_twin h spans spans' capturing slots
  rw [repeatFragment, repeatFragment, hbody, hbody']
  by_cases hsize : f.size = 0
  · have hsize' : g.size = 0 := by
      have := h.2.size
      omega
    rw [if_pos hsize, if_pos hsize']
    exact ⟨R, h, fun _ s t hst => ⟨t, hst⟩⟩
  have hsize' : g.size ≠ 0 := by
    have := h.2.size
    omega
  rw [if_neg hsize, if_neg hsize']
  obtain ⟨Rm, hmin, hfirst⟩ := twins_replicate h min
  have hstarts (R' : Spot → Spot → Prop) (hpos : 0 < min) (s t : Spot) (hst : Comp Rm R' s t) :
      ∃ u, R s u := by
    obtain ⟨u, hu, -⟩ := hst
    exact hfirst hpos s u hu
  cases max with
  | none =>
    have htail := Twins.cons hunbounded .nil
    refine ⟨Comp Rm (Comp Ru Eq),
      ⟨?_, alike_sequenceOf (rel_append hmin.alike htail.alike)⟩, hstarts _⟩
    rw [flatten_sequenceOf, flatten_sequenceOf, flattenAll_append, flattenAll_append]
    exact hmin.same.append htail.same
  | some max =>
    have htail : Same S _ _ (UpTo Ro (max - min)) :=
      ⟨means_optionalCopies hoptional.1.1 (max - min),
        means_optionalCopies hoptional.1.2 (max - min)⟩
    refine ⟨Comp Rm (UpTo Ro (max - min)), ⟨?_, alike_sequenceOf (rel_append hmin.alike
      (alike_optionalCopies hoptional.2 (max - min)))⟩, hstarts _⟩
    rw [flatten_sequenceOf, flatten_sequenceOf, flattenAll_append, flattenAll_append]
    exact hmin.same.append htail

/-- Pieces that mean the same, and start at the subject's start where they say so. -/
structure TwinPieces (S : Setting σ) (p q : Piece σ) : Prop where
  twin : ∃ R, Twin S p.fragment q.fragment R ∧
    (p.subjectStart = true → ∀ s t, R s t → s.position = 0)
  subjectStart : p.subjectStart = q.subjectStart
  capturing : p.capturing = q.capturing

variable {ps qs : List (Piece σ)}

theorem branch_twins (h : List.Forall₂ (TwinPieces S) ps qs) :
    ∃ R, Twins S (ps.map Piece.fragment) (qs.map Piece.fragment) R ∧
      ((ps.head?.map Piece.subjectStart).getD false = true → ∀ s t, R s t → s.position = 0) := by
  induction h with
  | nil => exact ⟨Eq, .nil, nofun⟩
  | cons hhead _ ih =>
    obtain ⟨R, hR, hstart⟩ := hhead.twin
    obtain ⟨R', hR', -⟩ := ih
    refine ⟨_, .cons hR hR', fun hsubject s t hst => ?_⟩
    obtain ⟨u, hu, -⟩ := hst
    exact hstart hsubject s u hu

theorem any_capturing (h : List.Forall₂ (TwinPieces S) ps qs) :
    ps.any Piece.capturing = qs.any Piece.capturing := by
  induction h with
  | nil => rfl
  | cons hhead _ ih => rw [any_cons, any_cons, hhead.capturing, ih]

theorem all_subjectStart (h : List.Forall₂ (TwinPieces S) ps qs) :
    ps.all Piece.subjectStart = qs.all Piece.subjectStart := by
  induction h with
  | nil => rfl
  | cons hhead _ ih => rw [all_cons, all_cons, hhead.subjectStart, ih]

theorem branchPiece_twin (h : List.Forall₂ (TwinPieces S) ps qs) :
    TwinPieces S (branchPiece ps) (branchPiece qs) := by
  obtain ⟨R, hR, hstart⟩ := branch_twins h
  refine ⟨⟨R, hR.sequenceOf, hstart⟩, ?_, any_capturing h⟩
  cases h with
  | nil => rfl
  | cons hhead _ => exact hhead.subjectStart

variable {p q : Piece σ}

theorem alternate_same (hpq : TwinPieces S p q)
    (h : List.Forall₂ (TwinPieces S) ps qs) :
    ∃ R, Same S (flattenAll (alternateParts ((p :: ps).map Piece.fragment)))
        (flattenAll (alternateParts ((q :: qs).map Piece.fragment))) R ∧
      ((p :: ps).all Piece.subjectStart = true → ∀ s t, R s t → s.position = 0) := by
  induction h generalizing p q with
  | nil =>
    obtain ⟨R, hR, hstart⟩ := hpq.twin
    refine ⟨_, (Twins.cons hR .nil).same, fun hall s t hst => ?_⟩
    obtain ⟨u, hu, -⟩ := hst
    exact hstart (by simpa using hall) s u hu
  | cons hnext _ ih =>
    obtain ⟨R, hR, hstart⟩ := hpq.twin
    obtain ⟨R', hR', hstart'⟩ := ih hnext
    refine ⟨_, ⟨hR.1.1.either hR'.1 (by simp [size]) (by simp),
      hR.1.2.either hR'.2 (by simp [size]) (by simp)⟩, fun hall s t hst => ?_⟩
    rw [all_cons, Bool.and_eq_true] at hall
    rcases hst with hst | hst
    · exact hstart hall.1 s t hst
    · exact hstart' hall.2 s t hst

theorem alternatePieces_twin (hpq : TwinPieces S p q)
    (h : List.Forall₂ (TwinPieces S) ps qs) :
    TwinPieces S (alternatePieces (p :: ps)) (alternatePieces (q :: qs)) := by
  obtain ⟨R, hR, hstart⟩ := alternate_same hpq h
  have hparts : List.Forall₂ Alike ((p :: ps).map Piece.fragment)
      ((q :: qs).map Piece.fragment) := by
    rw [forall₂_map_left_iff, forall₂_map_right_iff]
    refine (List.Forall₂.cons hpq h).imp fun p q hpq => ?_
    obtain ⟨R, hR, -⟩ := hpq.twin
    exact hR.2
  refine ⟨⟨R, ⟨?_, alike_sequenceOf (alike_alternateParts hparts)⟩, hstart⟩, ?_,
    any_capturing (.cons hpq h)⟩
  · rw [alternatePieces, alternatePieces, alternate, alternate, flatten_sequenceOf,
      flatten_sequenceOf]
    exact hR
  · exact all_subjectStart (.cons hpq h)

theorem captured_twin (h : TwinPieces S p q) (referenced : ℕ → Bool)
    (index : ℕ) : TwinPieces S (captured referenced index p) (captured referenced index q) := by
  rw [captured, captured]
  split
  · obtain ⟨R, hR, hstart⟩ := h.twin
    refine ⟨⟨_, (Twins.cons (twin_save _) (.cons hR (.cons (twin_save _) .nil))).sequenceOf,
      fun hsubject s t hst => ?_⟩, h.subjectStart, rfl⟩
    obtain ⟨u, hu, v, hv, -⟩ := hst
    cases hu
    have hposition := hstart hsubject _ v hv
    exact hposition
  · exact h

theorem repeatPiece_twin (h : TwinPieces S p q) (spans spans' : σ → Bool)
    (slots min : ℕ) (max : Option ℕ) :
    TwinPieces S (repeatPiece spans p min max slots).1 (repeatPiece spans' q min max slots).1 ∧
      (repeatPiece spans p min max slots).2 = (repeatPiece spans' q min max slots).2 := by
  obtain ⟨R, hR, hstart⟩ := h.twin
  obtain ⟨R', hR', hfirst⟩ := repeatFragment_twin hR spans spans' p.capturing slots min max
  refine ⟨⟨⟨R', ?_, fun hsubject s t hst => ?_⟩, ?_, h.capturing⟩, ?_⟩
  · rw [repeatPiece, repeatPiece, ← h.capturing]
    exact hR'
  · rw [repeatPiece, Bool.and_eq_true, decide_eq_true_iff] at hsubject
    obtain ⟨u, hu⟩ := hfirst hsubject.1 s t hst
    exact hstart hsubject.2 s u hu
  · rw [repeatPiece, repeatPiece, h.subjectStart]
  · rw [repeatPiece, repeatPiece, ← h.capturing]
    exact (copiesOf_twin hR spans spans' p.capturing slots).2.2.1

theorem contextBits_start (atStart atEnd before after : Bool) :
    holdsIn (maskOf (Anchor.holds .subjectStart)) (contextBits atStart atEnd before after) =
      atStart := by
  cases atStart <;> cases atEnd <;> cases before <;> cases after <;> decide

mutual

theorem translate_twin (S : Setting σ) (spans spans' : σ → Bool) (referenced : ℕ → Bool)
    (e : Expression σ) (slots : ℕ) :
    TwinPieces S (translate spans referenced e slots).1 (translate spans' referenced e slots).1 ∧
      (translate spans referenced e slots).2 = (translate spans' referenced e slots).2 := by
  cases e with
  | character source =>
    rw [translate, translate]
    exact ⟨⟨⟨_, twin_one (fun _ => rfl) nofun nofun, nofun⟩, rfl, rfl⟩, rfl⟩
  | anchor which =>
    rw [translate, translate]
    refine ⟨⟨⟨_, twin_one (fun _ => rfl) nofun nofun, fun hsubject s t hst => ?_⟩, rfl, rfl⟩, rfl⟩
    obtain rfl := eq_of_beq hsubject
    cases hst with
    | assert h =>
      rw [Setting.contextAt, contextBits_start] at h
      exact eq_of_beq h
  | backreference group =>
    rw [translate, translate]
    exact ⟨⟨⟨_, twin_one (fun _ => rfl) nofun nofun, nofun⟩, rfl, rfl⟩, rfl⟩
  | group index inner =>
    obtain ⟨h, hslots⟩ := translate_twin S spans spans' referenced inner slots
    rw [translate, translate]
    exact ⟨captured_twin h referenced index, hslots⟩
  | branch parts =>
    obtain ⟨h, hslots⟩ := translateAll_twin S spans spans' referenced parts slots
    rw [translate, translate]
    exact ⟨branchPiece_twin h, hslots⟩
  | alternation first rest =>
    obtain ⟨h, hslots⟩ := translate_twin S spans spans' referenced first slots
    obtain ⟨hrest, hslots'⟩ := translateAll_twin S spans spans' referenced rest
      (translate spans referenced first slots).2
    rw [translate, translate, ← hslots]
    exact ⟨alternatePieces_twin h hrest, hslots'⟩
  | repetition inner min max =>
    obtain ⟨h, hslots⟩ := translate_twin S spans spans' referenced inner slots
    rw [translate, translate, ← hslots]
    exact repeatPiece_twin h spans spans' _ min max

theorem translateAll_twin (S : Setting σ) (spans spans' : σ → Bool) (referenced : ℕ → Bool)
    (es : List (Expression σ)) (slots : ℕ) :
    List.Forall₂ (TwinPieces S) (translateAll spans referenced es slots).1
        (translateAll spans' referenced es slots).1 ∧
      (translateAll spans referenced es slots).2 = (translateAll spans' referenced es slots).2 := by
  cases es with
  | nil =>
    rw [translateAll, translateAll]
    exact ⟨.nil, rfl⟩
  | cons e rest =>
    obtain ⟨h, hslots⟩ := translate_twin S spans spans' referenced e slots
    obtain ⟨hrest, hslots'⟩ := translateAll_twin S spans spans' referenced rest
      (translate spans referenced e slots).2
    rw [translateAll, translateAll, ← hslots]
    exact ⟨.cons h hrest, hslots'⟩

end

end Tsgit.Regex
