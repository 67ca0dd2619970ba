import Mathlib.Data.List.Lex
import Mathlib.Data.List.Pairwise
import Mathlib.Data.List.Sort

/-!
# Sorted Lists Side by Side

Two orders of the same list, and the walk that takes a sorted list of keys along a list of items
to leave out what they name.
-/

namespace SortedWalk

open List

variable {κ κ' β : Type} [LinearOrder κ] [LinearOrder κ']

/-! ### Two sorts -/

def byKey (key : β → κ) (a b : β) : Bool := decide (key a ≤ key b)

theorem pairwise_byKey (key : β → κ) (xs : List β) :
    (xs.mergeSort (byKey key)).Pairwise fun a b => key a ≤ key b := by
  have hsorted := @pairwise_mergeSort _ (byKey key)
    (fun a b c hab hbc => decide_eq_true ((of_decide_eq_true hab).trans (of_decide_eq_true hbc)))
    (fun a b => by
      rw [byKey, byKey, Bool.or_eq_true, decide_eq_true_iff, decide_eq_true_iff]
      exact le_total _ _) xs
  exact hsorted.imp fun hab => of_decide_eq_true hab

/-- With distinct keys the sort is strict. -/
theorem pairwise_lt_byKey {key : β → κ} {xs : List β} (hkeys : (xs.map key).Nodup) :
    (xs.mergeSort (byKey key)).Pairwise fun a b => key a < key b := by
  have hperm : (xs.mergeSort (byKey key)).Perm xs := mergeSort_perm xs _
  have hdistinct : (xs.mergeSort (byKey key)).Pairwise fun a b => key a ≠ key b :=
    pairwise_map.mp ((hperm.map key).nodup_iff.mpr hkeys)
  exact (pairwise_byKey key xs).imp₂ (fun a b hle hne => lt_of_le_of_ne hle hne) hdistinct

/-- **Two sorts of one list** agree exactly where their orders do, on its members. -/
theorem mergeSort_byKey_eq_iff {key : β → κ} {key' : β → κ'} {xs : List β}
    (hkeys : (xs.map key).Nodup) (hkeys' : (xs.map key').Nodup) :
    xs.mergeSort (byKey key) = xs.mergeSort (byKey key') ↔
      ∀ a ∈ xs, ∀ b ∈ xs, (key a < key b ↔ key' a < key' b) := by
  constructor
  · intro heq
    have hboth : (xs.mergeSort (byKey key)).Pairwise fun a b => key a < key b ∧ key' a < key' b := by
      refine List.Pairwise.and (pairwise_lt_byKey hkeys) ?_
      rw [heq]
      exact pairwise_lt_byKey hkeys'
    have hall := @List.Pairwise.forall_of_forall_of_flip _ _
      (fun a b => key a < key b ↔ key' a < key' b)
      (fun a _ => iff_of_false (lt_irrefl _) (lt_irrefl _))
      (hboth.imp fun h => iff_of_true h.1 h.2)
      (hboth.imp fun h => iff_of_false h.1.not_gt h.2.not_gt)
    exact fun a ha b hb => hall (mem_mergeSort.mpr ha) (mem_mergeSort.mpr hb)
  · intro hagree
    have hsame : (xs.mergeSort (byKey key')).Pairwise fun a b => key a < key b :=
      (pairwise_lt_byKey hkeys').imp_of_mem fun {a b} ha hb hlt =>
        (hagree a (mem_mergeSort.mp ha) b (mem_mergeSort.mp hb)).mpr hlt
    have hperm : (xs.mergeSort (byKey key)).Perm (xs.mergeSort (byKey key')) :=
      (mergeSort_perm xs _).trans (mergeSort_perm xs _).symm
    exact hperm.eq_of_pairwise (fun a b _ _ hab hba => absurd hba hab.not_gt)
      (pairwise_lt_byKey hkeys) hsame

/-! ### The walk -/

/-- The test of a key against another one. -/
def below (k other : κ) : Bool := decide (other < k)

@[simp] theorem below_iff {k other : κ} : below k other = true ↔ other < k := decide_eq_true_iff

def keepUnmatched (key : β → κ) : List κ → List β → List β
  | _, [] => []
  | keys, item :: items =>
    let left := keys.dropWhile (below (key item))
    if left.head? = some (key item) then keepUnmatched key left.tail items
    else item :: keepUnmatched key left items

section

variable {key : β → κ} {keys : List κ} {k : κ}

theorem keepUnmatched_sublist (key : β → κ) (keys : List κ) (items : List β) :
    (items.filter fun item => decide (key item ∉ keys)).Sublist (keepUnmatched key keys items) := by
  induction items generalizing keys with
  | nil => exact List.Sublist.slnil
  | cons item items ih =>
    have hdrop : (keys.dropWhile (below (key item))).Sublist keys :=
      dropWhile_sublist _
    have hfewer : ∀ left : List κ, left.Sublist keys →
        (items.filter fun item => decide (key item ∉ keys)).Sublist
          (items.filter fun item => decide (key item ∉ left)) := fun left hleft =>
      monotone_filter_right items fun item hnot =>
        decide_eq_true fun hmem => of_decide_eq_true hnot (hleft.subset hmem)
    rw [keepUnmatched]
    split
    · next hhead =>
      have hmem : key item ∈ keys := hdrop.subset (mem_of_mem_head? hhead)
      rw [filter_cons_of_neg (by rw [decide_eq_true_iff]; exact not_not_intro hmem)]
      exact (hfewer _ ((tail_sublist _).trans hdrop)).trans (ih _)
    · by_cases hmem : key item ∈ keys
      · rw [filter_cons_of_neg (by rw [decide_eq_true_iff]; exact not_not_intro hmem)]
        exact ((hfewer _ hdrop).trans (ih _)).cons _
      · rw [filter_cons, if_pos (decide_eq_true hmem)]
        exact ((hfewer _ hdrop).trans (ih _)).cons_cons _

theorem mem_dropWhile_lt (hkeys : keys.Pairwise (· < ·)) {other : κ} :
    other ∈ keys.dropWhile (below k) ↔ other ∈ keys ∧ k ≤ other := by
  induction keys with
  | nil => exact ⟨fun h => absurd h not_mem_nil, fun h => absurd h.1 not_mem_nil⟩
  | cons first keys ih =>
    obtain ⟨hfirst, hrest⟩ := pairwise_cons.mp hkeys
    by_cases hlt : first < k
    · rw [dropWhile_cons, if_pos (below_iff.mpr hlt), ih hrest, mem_cons]
      constructor
      · exact fun h => ⟨.inr h.1, h.2⟩
      · rintro ⟨rfl | hmem, hle⟩
        · exact absurd hle hlt.not_ge
        · exact ⟨hmem, hle⟩
    · rw [dropWhile_cons, if_neg (by rwa [below_iff])]
      refine ⟨fun hmem => ⟨hmem, ?_⟩, And.left⟩
      rcases mem_cons.mp hmem with rfl | hlater
      · exact not_lt.mp hlt
      · exact (not_lt.mp hlt).trans (hfirst other hlater).le

theorem mem_left_iff (hkeys : keys.Pairwise (· < ·)) {other : κ} :
    other ∈ (if (keys.dropWhile (below k)).head? = some k
      then (keys.dropWhile (below k)).tail
      else keys.dropWhile (below k)) ↔ other ∈ keys ∧ k < other := by
  have hmem := fun other => @mem_dropWhile_lt _ _ keys k hkeys other
  have hsorted : (keys.dropWhile (below k)).Pairwise (· < ·) :=
    hkeys.sublist (dropWhile_sublist _)
  split
  · next hhead =>
    obtain ⟨left, hleft⟩ := head?_eq_some_iff.mp hhead
    rw [hleft] at hsorted hmem ⊢
    rw [tail_cons]
    constructor
    · intro hother
      exact ⟨((hmem other).mp (mem_cons_of_mem _ hother)).1,
        (pairwise_cons.mp hsorted).1 other hother⟩
    · rintro ⟨hother, hlt⟩
      rcases mem_cons.mp ((hmem other).mpr ⟨hother, hlt.le⟩) with rfl | htail
      · exact absurd hlt (lt_irrefl _)
      · exact htail
  · next hhead =>
    rw [hmem other]
    refine and_congr_right fun hother => ⟨fun hle => lt_of_le_of_ne hle ?_, le_of_lt⟩
    rintro rfl
    -- a key that is there would be the first of what is left
    refine hhead ?_
    obtain ⟨first, left, hleft⟩ := exists_cons_of_ne_nil
      (ne_nil_of_mem ((hmem k).mpr ⟨hother, hle⟩))
    rw [hleft] at hsorted hmem ⊢
    have hfirst : k ≤ first := ((hmem first).mp mem_cons_self).2
    rcases mem_cons.mp ((hmem k).mpr ⟨hother, hle⟩) with rfl | hlater
    · rfl
    · exact absurd ((pairwise_cons.mp hsorted).1 k hlater) hfirst.not_gt

theorem head?_eq_some_iff_mem (hkeys : keys.Pairwise (· < ·)) :
    (keys.dropWhile (below k)).head? = some k ↔ k ∈ keys := by
  have hmem := @mem_dropWhile_lt _ _ keys k hkeys k
  constructor
  · exact fun hhead => (hmem.mp (mem_of_mem_head? hhead)).1
  · intro hk
    by_contra hhead
    have hleft := @mem_left_iff _ _ keys k hkeys k
    rw [if_neg hhead, hmem] at hleft
    exact lt_irrefl k (hleft.mp ⟨hk, le_rfl⟩).2

/-- **The walk leaves out every named item** exactly where none comes behind one of a key not below
its own. -/
theorem keepUnmatched_eq_filter_iff (hkeys : keys.Pairwise (· < ·)) (items : List β) :
    keepUnmatched key keys items = (items.filter fun item => decide (key item ∉ keys)) ↔
      items.Pairwise fun a b => key b ∈ keys → key a < key b := by
  induction items generalizing keys with
  | nil => exact iff_of_true rfl List.Pairwise.nil
  | cons item items ih =>
    obtain ⟨left, hleft⟩ : ∃ left, left =
      (if (keys.dropWhile (below (key item))).head? = some (key item)
        then (keys.dropWhile (below (key item))).tail
        else keys.dropWhile (below (key item))) := ⟨_, rfl⟩
    have hmem : ∀ other, other ∈ left ↔ other ∈ keys ∧ key item < other := fun other =>
      hleft ▸ mem_left_iff hkeys
    have hsorted : left.Pairwise (· < ·) := by
      rw [hleft]
      have hdrop := hkeys.sublist (dropWhile_sublist (below (key item)))
      split
      · exact hdrop.sublist (tail_sublist _)
      · exact hdrop
    -- both sides treat the first item alike
    have hfirst : keepUnmatched key keys (item :: items) =
        ((item :: items).filter fun item => decide (key item ∉ keys)) ↔
        keepUnmatched key left items = (items.filter fun item => decide (key item ∉ keys)) := by
      rw [keepUnmatched]
      by_cases hhead : (keys.dropWhile (below (key item))).head? = some (key item)
      · have hnamed : key item ∈ keys := (head?_eq_some_iff_mem hkeys).mp hhead
        rw [if_pos hhead] at hleft ⊢
        rw [filter_cons_of_neg (by rw [decide_eq_true_iff]; exact not_not_intro hnamed), hleft]
      · have hother : key item ∉ keys := fun h => hhead ((head?_eq_some_iff_mem hkeys).mpr h)
        rw [if_neg hhead] at hleft ⊢
        rw [filter_cons, if_pos (decide_eq_true hother), hleft, cons_inj_right]
    rw [hfirst, pairwise_cons]
    -- where no later item is named too early, the keys that are left name the same items
    have hfilter : (∀ other ∈ items, key other ∈ keys → key item < key other) →
        (items.filter fun item => decide (key item ∉ keys)) =
          items.filter fun item => decide (key item ∉ left) := fun hlater =>
      filter_congr fun other hother => decide_eq_decide.mpr <| not_congr
        ⟨fun hk => (hmem _).mpr ⟨hk, hlater other hother hk⟩, fun hk => ((hmem _).mp hk).1⟩
    have hpairs : (∀ other ∈ items, key other ∈ keys → key item < key other) →
        ((items.Pairwise fun a b => key b ∈ left → key a < key b) ↔
          items.Pairwise fun a b => key b ∈ keys → key a < key b) := fun hlater =>
      List.Pairwise.iff_of_mem fun {a b} _ hb => imp_congr_left
        ⟨fun hk => ((hmem _).mp hk).1, fun hk => (hmem _).mpr ⟨hk, hlater b hb hk⟩⟩
    constructor
    · intro hkept
      have hsame : (items.filter fun item => decide (key item ∉ keys)) =
          items.filter fun item => decide (key item ∉ left) := by
        refine List.Sublist.antisymm (monotone_filter_right items fun other hnot =>
          decide_eq_true fun hk => of_decide_eq_true hnot ((hmem _).mp hk).1) ?_
        rw [← hkept]
        exact keepUnmatched_sublist key left items
      have hlater : ∀ other ∈ items, key other ∈ keys → key item < key other := by
        intro other hother hk
        by_contra hnot
        have hin : other ∈ items.filter fun item => decide (key item ∉ left) :=
          mem_filter.mpr ⟨hother, decide_eq_true fun h => hnot ((hmem _).mp h).2⟩
        rw [← hsame] at hin
        exact of_decide_eq_true (mem_filter.mp hin).2 hk
      exact ⟨hlater, (hpairs hlater).mp ((ih hsorted).mp (hkept.trans hsame))⟩
    · rintro ⟨hlater, hrest⟩
      rw [hfilter hlater]
      exact (ih hsorted).mpr ((hpairs hlater).mpr hrest)

end

end SortedWalk
