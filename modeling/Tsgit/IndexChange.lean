import Mathlib.Data.Prod.Lex
import Tsgit.CarryExtensions
import Tsgit.IndexQueries

/-!
# The Change of an Index

What `diffIndexEntries` of `src/domain/git-index/diff-index-entries.ts` reports, in terms of the
entries alone.
-/

namespace Tsgit.CacheTree

open List Tsgit.IndexFile Tsgit.Objects Tsgit.Path

@[reducible] def byteOrder : LinearOrder UInt8 where
  le_refl := UInt8.le_refl
  le_trans _ _ _ := UInt8.le_trans
  le_antisymm _ _ := UInt8.le_antisymm
  le_total := UInt8.le_total
  lt_iff_le_not_ge _ _ := by rw [UInt8.not_le, UInt8.lt_iff_le_and_ne]; grind
  toDecidableLE := inferInstance
  toDecidableLT := inferInstance

attribute [local instance] byteOrder

/-- What an entry is found by. -/
def slotOf (entry : IndexEntry) : Lex (Bytes × ℕ) := toLex (pathKey entry, entry.flags.stage)

/-- The id and the mode of a path at a stage. -/
def rowAt (entries : List IndexEntry) (slot : Lex (Bytes × ℕ)) : Option (Text × FileMode) :=
  (entries.find? fun entry => slotOf entry = slot).map fun entry => (entry.id, entry.mode)

abbrev Ordered (entries : List IndexEntry) : Prop := entries.Pairwise fun a b => slotOf a < slotOf b

/-- The entries that the walk marks. -/
def touched (comparePath : PathComparator) : List IndexEntry → List IndexEntry → List IndexEntry
  | [], after => after
  | before, [] => before
  | left :: before, right :: after =>
    let order := byPathThenStage comparePath left right
    if order < 0 then left :: touched comparePath before (right :: after)
    else if order > 0 then right :: touched comparePath (left :: before) after
    else if differs left right then left :: touched comparePath before after
    else touched comparePath before after
termination_by before after => before.length + after.length

theorem collectFrom_eq (comparePath : PathComparator) (before after : List IndexEntry)
    (changed : List IndexPath) : collectFrom comparePath before after changed =
      (touched comparePath before after).foldl mark changed := by
  fun_induction collectFrom comparePath before after changed with
  | case1 => simp [touched]
  | case2 => simp [touched]
  | case3 left before right after changed order h ih =>
    rw [ih, touched, if_pos h, foldl_cons]
  | case4 left before right after changed order h h' ih =>
    rw [ih, touched, if_neg h, if_pos h', foldl_cons]
  | case5 left before right after changed order h h' ih =>
    simp only [dite_eq_ite] at ih
    rw [ih, touched, if_neg h, if_neg h']
    split <;> rfl

/-! ### The order -/

section

variable {entries : List IndexEntry} {comparePath : PathComparator}

/-- What the comparators of the walks are for, on the entries at hand. -/
def Compares (comparePath : PathComparator) (entries : List IndexEntry) : Prop :=
  ∀ a ∈ entries, ∀ b ∈ entries, ComparesPaths comparePath a b

theorem Compares.stages (h : Compares comparePath entries) {a b : IndexEntry} (ha : a ∈ entries)
    (hb : b ∈ entries) :
    (byPathThenStage comparePath a b < 0 ↔ slotOf a < slotOf b) ∧
      (byPathThenStage comparePath a b = 0 ↔ slotOf a = slotOf b) := by
  obtain ⟨hneg, hzero, -⟩ := h a ha b hb
  simp only [byPathThenStage, slotOf, Prod.Lex.toLex_lt_toLex, ← hneg,
    EmbeddingLike.apply_eq_iff_eq, Prod.mk.injEq, ← hzero]
  constructor <;> split_ifs <;> omega

theorem comparatorForBoth_eq (before after : List IndexEntry) :
    comparatorForBoth before after = entryComparator (before ++ after) := by
  funext a b
  simp only [comparatorForBoth, entryComparator, pathComparatorFor, map_append, any_append, any_map]
  by_cases hbefore : (before.any fun entry => surrogateOrAbove entry.path) = true
  · simp [hbefore, Function.comp_def]
  · simp [hbefore, Function.comp_def]

theorem byPathThenStage_preorder (entries : List IndexEntry) :
    (∀ a b c, byPathThenStage (entryComparator entries) a b ≤ 0 →
      byPathThenStage (entryComparator entries) b c ≤ 0 →
      byPathThenStage (entryComparator entries) a c ≤ 0) ∧
    ∀ a b, byPathThenStage (entryComparator entries) a b ≤ 0 ∨
      byPathThenStage (entryComparator entries) b a ≤ 0 := by
  obtain ⟨htrans, -⟩ := pathComparatorFor_preorder (entries.map (·.toIndexPath))
  have hle : ∀ a b c, entryComparator entries a b ≤ 0 → entryComparator entries b c ≤ 0 →
      entryComparator entries a c ≤ 0 := fun a b c => htrans _ _ _
  have hswap := entryComparator_neg_swap entries
  constructor
  · intro a b c hab hbc
    have h₁ := hle a b c
    have h₂ := hle c a b
    have h₃ := hle b c a
    have s₁ := hswap a b
    have s₂ := hswap b a
    have s₃ := hswap b c
    have s₄ := hswap c b
    have s₅ := hswap a c
    have s₆ := hswap c a
    unfold byPathThenStage at *
    split_ifs at * <;> omega
  · intro a b
    have s₁ := hswap a b
    have s₂ := hswap b a
    unfold byPathThenStage
    split_ifs <;> omega

theorem isOrdered_pairwise {compare : PathComparator}
    (htrans : ∀ a b c, compare a b ≤ 0 → compare b c ≤ 0 → compare a c ≤ 0)
    (h : isOrdered compare entries = true) : entries.Pairwise fun a b => compare a b ≤ 0 := by
  have hchain : entries.IsChain fun a b => compare a b ≤ 0 := by
    fun_induction isOrdered compare entries with
    | case1 a b rest hpos => cases h
    | case2 a b rest hnot ih => exact isChain_cons_cons.mpr ⟨not_lt.mp hnot, ih h⟩
    | case3 l hl => cases l with
      | nil => exact .nil
      | cons a l => cases l with
        | nil => exact .singleton a
        | cons b rest => exact absurd rfl (hl a b rest)
  have : IsTrans IndexEntry fun a b => compare a b ≤ 0 := ⟨htrans⟩
  exact hchain.pairwise

/-- **The lists that are walked** are in the order of their slots. -/
theorem ordered_inOrder {all : List IndexEntry}
    (hvalid : ∀ entry ∈ all, entry.toIndexPath.WellFormed) (hsub : entries ⊆ all)
    (hnodup : (entries.map slotOf).Nodup) :
    Ordered (inOrder entries (byPathThenStage (entryComparator all))) := by
  have hperm := inOrder_perm entries (byPathThenStage (entryComparator all))
  obtain ⟨htrans, htotal⟩ := byPathThenStage_preorder all
  have hle : (inOrder entries (byPathThenStage (entryComparator all))).Pairwise fun a b =>
      byPathThenStage (entryComparator all) a b ≤ 0 := by
    unfold inOrder
    split
    · next hordered => exact isOrdered_pairwise htrans hordered
    · have hsorted := @pairwise_mergeSort _
        (fun a b => decide (byPathThenStage (entryComparator all) a b ≤ 0))
        (fun a b c hab hbc => by simpa using htrans a b c (by simpa using hab) (by simpa using hbc))
        (fun a b => by simpa using htotal a b) entries
      simpa using hsorted
  have hdistinct := (hperm.map slotOf).nodup_iff.mpr hnodup
  have hcompares : Compares (entryComparator all) all := fun a ha b hb =>
    entryComparator_comparesPaths hvalid ha hb
  refine (hle.and (pairwise_map.mp hdistinct)).imp_of_mem fun {a b} ha hb h => ?_
  obtain ⟨hneg, hzero⟩ := hcompares.stages (hsub (hperm.subset ha)) (hsub (hperm.subset hb))
  have hne := mt hzero.mp h.2
  exact hneg.mp (by omega)

end

/-! ### The entries that differ -/

section

variable {entries before after all : List IndexEntry} {comparePath : PathComparator}
  {slot : Lex (Bytes × ℕ)}

theorem rowAt_cons (entry : IndexEntry) (entries : List IndexEntry) (slot : Lex (Bytes × ℕ)) :
    rowAt (entry :: entries) slot =
      if slotOf entry = slot then some (entry.id, entry.mode) else rowAt entries slot := by
  by_cases h : slotOf entry = slot <;> simp [rowAt, h]

theorem rowAt_perm {entries' : List IndexEntry} (hperm : entries.Perm entries')
    (hnodup : (entries.map slotOf).Nodup) : rowAt entries slot = rowAt entries' slot := by
  induction hperm with
  | nil => rfl
  | cons entry _ ih => rw [rowAt_cons, rowAt_cons, ih (nodup_cons.mp hnodup).2]
  | swap a b entries =>
    have hne : slotOf a ≠ slotOf b := fun heq => (nodup_cons.mp hnodup).1 (by simp [heq])
    simp only [rowAt_cons]
    split_ifs with hb ha <;> grind
  | trans hperm _ ih ih' => rw [ih hnodup, ih' ((hperm.map slotOf).nodup_iff.mp hnodup)]

theorem rowAt_ne_none_iff : rowAt entries slot ≠ none ↔ ∃ entry ∈ entries, slotOf entry = slot := by
  simp [rowAt]

theorem rowAt_eq_none (h : ∀ entry ∈ entries, slotOf entry ≠ slot) : rowAt entries slot = none := by
  by_contra hne
  obtain ⟨entry, hmem, heq⟩ := rowAt_ne_none_iff.mp hne
  exact h entry hmem heq

theorem touched_subset (before after : List IndexEntry) :
    touched comparePath before after ⊆ before ++ after := by
  intro entry hmem
  fun_induction touched comparePath before after <;> simp_all <;> tauto

theorem ordered_cons_touched {first : IndexEntry}
    (hrest : Ordered (touched comparePath before after))
    (hleft : ∀ entry ∈ before, slotOf first < slotOf entry)
    (hright : ∀ entry ∈ after, slotOf first < slotOf entry) :
    Ordered (first :: touched comparePath before after) :=
  pairwise_cons.mpr ⟨fun entry hmem =>
    (mem_append.mp (touched_subset _ _ hmem)).elim (hleft entry) (hright entry), hrest⟩

theorem touched_spec (hcompares : Compares comparePath all) (hbefore : before ⊆ all)
    (hafter : after ⊆ all) (hleft : Ordered before) (hright : Ordered after) :
    (∀ slot, (∃ entry ∈ touched comparePath before after, slotOf entry = slot) ↔
      rowAt before slot ≠ rowAt after slot) ∧ Ordered (touched comparePath before after) := by
  fun_induction touched comparePath before after with
  | case1 after =>
    refine ⟨fun slot => ?_, hright⟩
    rw [← rowAt_ne_none_iff]
    exact ne_comm
  | case2 before _ =>
    exact ⟨fun slot => rowAt_ne_none_iff.symm, hleft⟩
  | case3 left before right after order h ih =>
    obtain ⟨hbefore', hrest⟩ := pairwise_cons.mp hleft
    have hlt := (hcompares.stages (hbefore mem_cons_self) (hafter mem_cons_self)).1.mp h
    have habove : ∀ entry ∈ right :: after, slotOf left < slotOf entry := forall_mem_cons.mpr
      ⟨hlt, fun entry hmem => hlt.trans ((pairwise_cons.mp hright).1 entry hmem)⟩
    obtain ⟨hmem, hsorted⟩ := ih (cons_subset.mp hbefore).2 hafter hrest hright
    refine ⟨fun slot => ?_, ordered_cons_touched hsorted hbefore' habove⟩
    rw [rowAt_cons, exists_mem_cons_iff]
    by_cases hslot : slotOf left = slot
    · subst hslot
      simp [rowAt_eq_none fun entry hmem => (habove entry hmem).ne']
    · simp [hslot, hmem]
  | case4 left before right after order h h' ih =>
    obtain ⟨hafter', hrest⟩ := pairwise_cons.mp hright
    obtain ⟨hneg, hzero⟩ := hcompares.stages (hbefore mem_cons_self) (hafter mem_cons_self)
    have hlt : slotOf right < slotOf left :=
      lt_of_le_of_ne (not_lt.mp (mt hneg.mpr h)) fun heq => h'.ne' (hzero.mpr heq.symm)
    have habove : ∀ entry ∈ left :: before, slotOf right < slotOf entry := forall_mem_cons.mpr
      ⟨hlt, fun entry hmem => hlt.trans ((pairwise_cons.mp hleft).1 entry hmem)⟩
    obtain ⟨hmem, hsorted⟩ := ih hbefore (cons_subset.mp hafter).2 hleft hrest
    refine ⟨fun slot => ?_, ordered_cons_touched hsorted habove hafter'⟩
    rw [rowAt_cons right, exists_mem_cons_iff]
    by_cases hslot : slotOf right = slot
    · subst hslot
      simp [rowAt_eq_none fun entry hmem => (habove entry hmem).ne']
    · simp [hslot, hmem]
  | case5 left before right after order h h' hdiffers ih
  | case6 left before right after order h h' hdiffers ih =>
    obtain ⟨hbefore', hrest⟩ := pairwise_cons.mp hleft
    obtain ⟨hafter', hrest'⟩ := pairwise_cons.mp hright
    have hsame : slotOf left = slotOf right :=
      (hcompares.stages (hbefore mem_cons_self) (hafter mem_cons_self)).2.mp
        (le_antisymm (not_lt.mp h') (not_lt.mp h))
    rw [← hsame] at hafter'
    obtain ⟨hmem, hsorted⟩ := ih (cons_subset.mp hbefore).2
      (cons_subset.mp hafter).2 hrest hrest'
    first
    | refine ⟨fun slot => ?_, ordered_cons_touched hsorted hbefore' hafter'⟩
    | refine ⟨fun slot => ?_, hsorted⟩
    simp only [rowAt_cons, exists_mem_cons_iff, hmem, ← hsame]
    by_cases hslot : slotOf left = slot
    · subst hslot
      simp [rowAt_eq_none fun entry hentry => (hbefore' entry hentry).ne',
        rowAt_eq_none fun entry hentry => (hafter' entry hentry).ne', differs, imp_iff_not_or]
        at hdiffers ⊢
      tauto
    · simp [hslot]

end

/-! ### The three reports -/

section

variable {before after all : List IndexEntry} {comparePath : PathComparator}

theorem lt_of_slotOf {a b : IndexEntry} (h : slotOf a < slotOf b) : pathKey a ≤ pathKey b := by
  rcases Prod.Lex.toLex_lt_toLex.mp h with hlt | ⟨heq, -⟩
  · exact hlt.le
  · exact heq.le

theorem Ordered.paths (h : Ordered before) : before.Pairwise fun a b => pathKey a ≤ pathKey b :=
  h.imp lt_of_slotOf

theorem indexPathKey_inj {a b : IndexPath} (ha : a.WellFormed) (hb : b.WellFormed) :
    indexPathKey a = indexPathKey b ↔ a = b := by
  refine ⟨fun heq => ?_, congrArg _⟩
  rw [← indexPathOfBytes_written ha, ← indexPathOfBytes_written hb,
    indexPathKey_indexPathOfBytes, indexPathKey_indexPathOfBytes] at heq
  rw [← indexPathOfBytes_written ha, ← indexPathOfBytes_written hb,
    decodeEscapingInvalid_injective heq]

theorem mark_eq {entry : IndexEntry} {changed : List IndexPath}
    (hvalid : ∀ path ∈ entry.toIndexPath :: changed, path.WellFormed)
    (hchanged : changed.Pairwise fun a b => pathBytesOf a < pathBytesOf b)
    (hlast : ∀ path ∈ changed, pathBytesOf path ≤ pathKey entry) : mark changed entry =
      if entry.toIndexPath ∈ changed then changed else changed ++ [entry.toIndexPath] := by
  rcases eq_nil_or_concat' changed with rfl | ⟨front, last, rfl⟩
  · rfl
  · have hkey := indexPathKey_inj (hvalid last (by simp)) (hvalid entry.toIndexPath (by simp))
    have hfront : entry.toIndexPath ∉ front := fun hmem =>
      not_lt.mpr (hlast last (by simp)) ((pairwise_append.mp hchanged).2.2 _ hmem last (by simp))
    simp only [mark, getLast?_concat, mem_append, mem_singleton, hfront, false_or, ne_eq, hkey,
      ite_not, eq_comm]

theorem foldl_mark {entries : List IndexEntry} {changed : List IndexPath}
    (hvalid : ∀ path ∈ entries.map (·.toIndexPath) ++ changed, path.WellFormed)
    (hsorted : entries.Pairwise fun a b => pathKey a ≤ pathKey b)
    (hchanged : changed.Pairwise fun a b => pathBytesOf a < pathBytesOf b)
    (hlast : ∀ path ∈ changed, ∀ entry ∈ entries, pathBytesOf path ≤ pathKey entry) :
    (entries.foldl mark changed).Pairwise (fun a b => pathBytesOf a < pathBytesOf b) ∧
      ∀ path, path ∈ entries.foldl mark changed ↔
        path ∈ entries.map (·.toIndexPath) ∨ path ∈ changed := by
  induction entries generalizing changed with
  | nil => simpa using hchanged
  | cons entry entries ih =>
    obtain ⟨hle, hrest⟩ := pairwise_cons.mp hsorted
    simp only [map_cons, cons_append, mem_cons, mem_append, forall_eq_or_imp] at hvalid hlast
    rw [foldl_cons, mark_eq (by simpa using ⟨hvalid.1, fun path h => hvalid.2 path (.inr h)⟩)
      hchanged fun path hpath => (hlast path hpath).1]
    split_ifs with hold
    · obtain ⟨hpairs, hmem⟩ := @ih changed (by simpa using hvalid.2) hrest hchanged
        fun path hpath => (hlast path hpath).2
      refine ⟨hpairs, fun path => ?_⟩
      rw [hmem, map_cons, mem_cons]
      constructor
      · tauto
      · rintro ((rfl | h) | h) <;> tauto
    · have hlt : ∀ path ∈ changed, pathBytesOf path < pathKey entry := fun path hpath =>
        lt_of_le_of_ne (hlast path hpath).1 fun heq =>
          hold (eq_of_pathBytesOf (hvalid.2 path (.inr hpath)) hvalid.1 heq ▸ hpath)
      obtain ⟨hpairs, hmem⟩ := @ih (changed ++ [entry.toIndexPath])
        (by simp only [mem_append, mem_singleton]; rintro path (h | h | rfl)
            exacts [hvalid.2 path (.inl h), hvalid.2 path (.inr h), hvalid.1]) hrest
        (pairwise_append.mpr ⟨hchanged, pairwise_singleton _ _, fun path hpath other hother =>
          mem_singleton.mp hother ▸ hlt path hpath⟩)
        (by simp only [mem_append, mem_singleton]; rintro path (h | rfl)
            exacts [(hlast path h).2, hle])
      refine ⟨hpairs, fun path => ?_⟩
      rw [hmem, map_cons, mem_append, mem_singleton, mem_cons]
      tauto

theorem while_eq_filter {α : Type} {p : α → Bool} {l : List α}
    (h : l.Pairwise fun a b => p b = true → p a = true) :
    l.takeWhile p = l.filter p ∧ l.dropWhile p = l.filter fun a => !p a := by
  induction l with
  | nil => simp
  | cons a l ih =>
    obtain ⟨hfirst, hrest⟩ := pairwise_cons.mp h
    by_cases hp : p a = true
    · simp [hp, ih hrest]
    · have hnone : ∀ b ∈ l, p b = false := fun b hb => by
        simpa using mt (hfirst b hb) hp
      have hall : (l.filter fun a => !p a) = l := filter_eq_self.mpr fun b hb => by simp [hnone b hb]
      simpa [hp, hall] using hnone

theorem skipSamePath_eq (hcompares : Compares comparePath all) {first : IndexEntry}
    {rest : List IndexEntry} (hsub : first :: rest ⊆ all)
    (hsorted : (first :: rest).Pairwise fun a b => pathKey a ≤ pathKey b) :
    skipSamePath comparePath first rest = rest.filter fun next => pathKey next ≠ pathKey first := by
  obtain ⟨hfirst, hrest⟩ := pairwise_cons.mp hsorted
  have hzero : ∀ next ∈ rest, comparePath first next = 0 ↔ pathKey first = pathKey next :=
    fun next hnext => (hcompares _ (hsub mem_cons_self) _ (hsub (mem_cons_of_mem _ hnext))).zero_iff
  rw [skipSamePath, (while_eq_filter _).2]
  · refine filter_congr fun next hnext => ?_
    simp [hzero next hnext, eq_comm]
  · refine hrest.imp_of_mem fun {a b} ha hb hab => ?_
    simp only [decide_eq_true_eq, hzero a ha, hzero b hb]
    exact fun h => le_antisymm (hfirst a ha) (h ▸ hab)

theorem pathSetsDiffer_iff (hcompares : Compares comparePath all) (hbefore : before ⊆ all)
    (hafter : after ⊆ all) (hleft : before.Pairwise fun a b => pathKey a ≤ pathKey b)
    (hright : after.Pairwise fun a b => pathKey a ≤ pathKey b) :
    pathSetsDiffer comparePath before after = true ↔
      ¬ ∀ path, path ∈ before.map pathKey ↔ path ∈ after.map pathKey := by
  fun_induction pathSetsDiffer comparePath before after with
  | case1 after =>
    cases after with
    | nil => simp
    | cons other after =>
      exact iff_of_true rfl fun h => absurd ((h (pathKey other)).mpr (by simp)) not_mem_nil
  | case2 left before =>
    exact iff_of_true rfl fun h => absurd ((h (pathKey left)).mp (by simp)) not_mem_nil
  | case3 left before right after hne =>
    have hcompare := hcompares left (hbefore mem_cons_self) right (hafter mem_cons_self)
    refine iff_of_true rfl fun hsame => hne (hcompare.zero_iff.mpr ?_)
    have hfirst : ∀ {a b : IndexEntry} {l : List IndexEntry},
        (a :: l).Pairwise (fun a b => pathKey a ≤ pathKey b) →
        pathKey b ∈ (a :: l).map pathKey → pathKey a ≤ pathKey b := by
      intro a b l hsorted hmem
      obtain ⟨c, hc, heq⟩ := mem_map.mp hmem
      rcases mem_cons.mp hc with rfl | hlater
      · exact heq.le
      · exact heq ▸ (pairwise_cons.mp hsorted).1 c hlater
    exact le_antisymm (hfirst hleft ((hsame _).mpr (by simp)))
      (hfirst hright ((hsame _).mp (by simp)))
  | case4 left before right after heq ih =>
    have hkey := (hcompares left (hbefore mem_cons_self) right (hafter mem_cons_self)).zero_iff.mp
      (not_not.mp heq)
    have hskip := skipSamePath_eq hcompares hafter hright
    rw [← hkey] at hskip
    rw [skipSamePath_eq hcompares hbefore hleft, hskip] at ih ⊢
    rw [ih (fun _ h => hbefore (mem_cons_of_mem _ (mem_of_mem_filter h)))
      (fun _ h => hafter (mem_cons_of_mem _ (mem_of_mem_filter h)))
      ((pairwise_cons.mp hleft).2.filter _) ((pairwise_cons.mp hright).2.filter _)]
    have hmem : ∀ (l : List IndexEntry) path,
        path ∈ (l.filter fun next => pathKey next ≠ pathKey left).map pathKey ↔
          path ≠ pathKey left ∧ path ∈ l.map pathKey := by
      intro l path
      simp only [mem_map, mem_filter, decide_eq_true_eq]
      constructor
      · rintro ⟨a, ⟨ha, hne⟩, rfl⟩
        exact ⟨hne, a, ha, rfl⟩
      · rintro ⟨hne, a, ha, rfl⟩
        exact ⟨a, ⟨ha, hne⟩, rfl⟩
    refine not_congr (forall_congr' fun path => ?_)
    rw [hmem, hmem, map_cons, map_cons, mem_cons, mem_cons, ← hkey]
    tauto

def Resolved (before after : List IndexEntry) : Prop := ∃ entry ∈ before,
  entry.flags.stage ≠ 0 ∧ (∃ other ∈ after, pathKey other = pathKey entry) ∧
    ∀ other ∈ after, pathKey other = pathKey entry → other.flags.stage = 0

theorem hasResolvedUnmerged_iff (hcompares : Compares comparePath all) (hbefore : before ⊆ all)
    (hafter : after ⊆ all) (hleft : before.Pairwise fun a b => pathKey a ≤ pathKey b)
    (hright : after.Pairwise fun a b => pathKey a ≤ pathKey b) :
    hasResolvedUnmerged comparePath before after = true ↔ Resolved before after := by
  induction before generalizing after with
  | nil => simp [hasResolvedUnmerged, Resolved]
  | cons entry before ih =>
    obtain ⟨hfirst, hrest⟩ := pairwise_cons.mp hleft
    have hbefore' := (cons_subset.mp hbefore).2
    rw [hasResolvedUnmerged, Resolved, exists_mem_cons_iff]
    by_cases hstage : entry.flags.stage = 0
    · rw [if_pos hstage, ih hbefore' hafter hrest hright]
      simp [hstage, Resolved]
    rw [if_neg hstage]
    have hcompare := fun other (h : other ∈ after) =>
      hcompares other (hafter h) entry (hbefore mem_cons_self)
    have hdrop : (after.dropWhile fun other => comparePath other entry < 0) =
        after.filter fun other => pathKey entry ≤ pathKey other := by
      rw [(while_eq_filter _).2]
      · refine filter_congr fun other hother => ?_
        rw [← decide_not, decide_eq_decide, (hcompare other hother).neg_iff, not_lt]
      · refine hright.imp_of_mem fun {a b} ha hb hab => ?_
        simpa [(hcompare a ha).neg_iff, (hcompare b hb).neg_iff] using hab.trans_lt
    have htake : ((after.filter fun other => pathKey entry ≤ pathKey other).takeWhile
          fun other => comparePath other entry = 0) =
        after.filter fun other => pathKey other = pathKey entry := by
      rw [(while_eq_filter _).1, filter_filter]
      · refine filter_congr fun other hother => ?_
        simp only [(hcompare other hother).zero_iff]
        grind
      · refine (hright.filter _).imp_of_mem fun {a b} ha hb hab => ?_
        simp only [mem_filter, decide_eq_true_eq] at ha hb ⊢
        rw [(hcompare a ha.1).zero_iff, (hcompare b hb.1).zero_iff]
        exact fun h => le_antisymm (h ▸ hab) ha.2
    simp only [hdrop, htake]
    have hlater : ∀ later ∈ before, ∀ other,
        (other ∈ (after.filter fun other => pathKey entry ≤ pathKey other) ∧
          pathKey other = pathKey later) ↔ other ∈ after ∧ pathKey other = pathKey later := by
      intro later hmem other
      have := hfirst later hmem
      simp only [mem_filter, decide_eq_true_eq]
      constructor
      · exact fun h => ⟨h.1.1, h.2⟩
      · exact fun h => ⟨⟨h.1, h.2 ▸ this⟩, h.2⟩
    have hih := ih hbefore' (fun _ h => hafter (mem_of_mem_filter h)) hrest (hright.filter
      fun other => decide (pathKey entry ≤ pathKey other))
    have hrest' : hasResolvedUnmerged comparePath before
        (after.filter fun other => pathKey entry ≤ pathKey other) = true ↔
          Resolved before after := by
      rw [hih]
      refine exists_congr fun later => and_congr_right fun hmem => and_congr_right fun _ =>
        and_congr (exists_congr (hlater later hmem)) (forall_congr' fun other => ?_)
      rw [← and_imp, ← and_imp, hlater later hmem]
    have hcond : (!(after.filter fun other => pathKey other = pathKey entry).isEmpty &&
        (after.filter fun other => pathKey other = pathKey entry).all
          fun other => other.flags.stage = 0) = true ↔
        (∃ other ∈ after, pathKey other = pathKey entry) ∧
          ∀ other ∈ after, pathKey other = pathKey entry → other.flags.stage = 0 := by
      simp [imp_iff_not_or]
    split_ifs with hhere
    · exact iff_of_true rfl (.inl ⟨hstage, hcond.mp hhere⟩)
    · rw [hrest', ← Resolved, or_iff_right]
      exact fun h => hhere (hcond.mpr h.2)

/-- What the three reports say of the two lists. -/
structure Reports (before after : List IndexEntry) (change : IndexChange) : Prop where
  ascending : change.changedPaths.Pairwise fun a b => pathBytesOf a < pathBytesOf b
  mem_changedPaths : ∀ path : IndexPath, path ∈ change.changedPaths ↔ path.WellFormed ∧
    ∃ stage, rowAt before (toLex (pathBytesOf path, stage)) ≠
      rowAt after (toLex (pathBytesOf path, stage))
  trackedSetChanged : change.trackedSetChanged = true ↔
    ¬ ∀ path, path ∈ before.map pathKey ↔ path ∈ after.map pathKey
  resolvedUnmerged : change.resolvedUnmerged = true ↔ Resolved before after

theorem diffIndexEntries_reports (hbefore : ∀ entry ∈ before, entry.toIndexPath.WellFormed)
    (hafter : ∀ entry ∈ after, entry.toIndexPath.WellFormed)
    (hdistinct : (before.map slotOf).Nodup) (hdistinct' : (after.map slotOf).Nodup) :
    Reports before after (diffIndexEntries before after) := by
  have hvalid : ∀ entry ∈ before ++ after, entry.toIndexPath.WellFormed := fun entry hentry =>
    (mem_append.mp hentry).elim (hbefore entry) (hafter entry)
  have hcompares : Compares (entryComparator (before ++ after)) (before ++ after) :=
    fun a ha b hb => entryComparator_comparesPaths hvalid ha hb
  have hleft := ordered_inOrder hvalid (subset_append_left before after) hdistinct
  have hright := ordered_inOrder hvalid (subset_append_right before after) hdistinct'
  have hperm := inOrder_perm before (byPathThenStage (entryComparator (before ++ after)))
  have hperm' := inOrder_perm after (byPathThenStage (entryComparator (before ++ after)))
  have hsub : inOrder before _ ⊆ before ++ after := fun _ h =>
    subset_append_left before after (hperm.subset h)
  have hsub' : inOrder after _ ⊆ before ++ after := fun _ h =>
    subset_append_right before after (hperm'.subset h)
  obtain ⟨hmem, htouched⟩ := touched_spec hcompares hsub hsub' hleft hright
  have hmarked : ∀ entry ∈ touched (entryComparator (before ++ after)) _ _,
      entry.toIndexPath.WellFormed := fun entry hentry =>
    hvalid entry ((mem_append.mp (touched_subset _ _ hentry)).elim (@hsub _) (@hsub' _))
  obtain ⟨hpairs, hpaths⟩ := @foldl_mark _ [] (by simpa using hmarked) htouched.paths .nil (by simp)
  simp only [diffIndexEntries, comparatorForBoth_eq, collectChangedPaths, collectFrom_eq]
  refine ⟨hpairs, fun path => ?_, ?_, ?_⟩
  · have hrow : ∀ stage, (rowAt before (toLex (pathBytesOf path, stage)) ≠
        rowAt after (toLex (pathBytesOf path, stage))) ↔ _ := fun stage => by
      rw [rowAt_perm hperm.symm hdistinct, rowAt_perm hperm'.symm hdistinct', ← hmem]
    rw [hpaths, or_iff_left not_mem_nil, mem_map]
    simp only [hrow]
    constructor
    · rintro ⟨entry, hentry, rfl⟩
      exact ⟨hmarked entry hentry, entry.flags.stage, entry, hentry, rfl⟩
    · rintro ⟨hpath, stage, entry, hentry, hslot⟩
      refine ⟨entry, hentry, eq_of_pathBytesOf (hmarked entry hentry) hpath ?_⟩
      exact congrArg (fun slot => (ofLex slot).1) hslot
  · rw [pathSetsDiffer_iff hcompares hsub hsub' hleft.paths hright.paths]
    simp only [(hperm.map pathKey).mem_iff, (hperm'.map pathKey).mem_iff]
  · rw [hasResolvedUnmerged_iff hcompares hsub hsub' hleft.paths hright.paths]
    simp only [Resolved, hperm.mem_iff, hperm'.mem_iff]

/-- **The reports are exact.** -/
theorem diffIndexEntries_exact (before after : List IndexEntry)
    (hbefore : ∀ entry ∈ before, entry.toIndexPath.WellFormed)
    (hafter : ∀ entry ∈ after, entry.toIndexPath.WellFormed)
    (hdistinct : (before.map slotOf).Nodup) (hdistinct' : (after.map slotOf).Nodup) :
    Reports before after (diffIndexEntries before after) ∧
      (diffIndexEntries after before).changedPaths = (diffIndexEntries before after).changedPaths ∧
      (diffIndexEntries after before).trackedSetChanged =
        (diffIndexEntries before after).trackedSetChanged := by
  have hreports := diffIndexEntries_reports hbefore hafter hdistinct hdistinct'
  have hswapped := diffIndexEntries_reports hafter hbefore hdistinct' hdistinct
  refine ⟨hreports, ?_, ?_⟩
  · have hnodup : ∀ {l : List IndexPath}, l.Pairwise (fun a b => pathBytesOf a < pathBytesOf b) →
        l.Nodup := by
      intro l h
      refine nodup_iff_pairwise_ne.mpr (h.imp ?_)
      intro a b hlt heq
      exact hlt.ne (congrArg pathBytesOf heq)
    refine ((perm_ext_iff_of_nodup (hnodup hswapped.ascending)
      (hnodup hreports.ascending)).mpr fun path => ?_).eq_of_pairwise
        (fun a b _ _ hab hba => absurd hab hba.asymm) hswapped.ascending hreports.ascending
    rw [hreports.mem_changedPaths, hswapped.mem_changedPaths]
    simp only [ne_comm]
  · rw [Bool.eq_iff_iff, hreports.trackedSetChanged, hswapped.trackedSetChanged]
    simp only [iff_comm]

/-- Two stages before; the entry itself after, with a path of raw bytes. -/
theorem diffIndexEntries_exact_resolved :
    Reports (stagesOf [1, 2]) mixedIndex.entries
      (diffIndexEntries (stagesOf [1, 2]) mixedIndex.entries) ∧
    (diffIndexEntries (stagesOf [1, 2]) mixedIndex.entries).resolvedUnmerged = true := by
  have hreports := (diffIndexEntries_exact _ _ (stagesOf_wellFormed [1, 2])
    (fun entry hmem => (mixedIndex_fits.entries entry hmem).wellFormed) (by decide) (by decide)).1
  exact ⟨hreports, hreports.resolvedUnmerged.mpr ⟨_, mem_cons_self, by decide,
    ⟨_, mem_cons_of_mem _ mem_cons_self, rfl⟩, by decide⟩⟩

end

end Tsgit.CacheTree
