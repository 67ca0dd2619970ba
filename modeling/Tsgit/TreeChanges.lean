import Tsgit.TreeRoundTrip

/-!
# Tree Changes

What `diffRawTrees` of `src/domain/diff/raw-tree-diff.ts` reports, and nothing else.
-/

namespace Tsgit.Diff

open List Objects

/-- `change` is a path one side alone has, or one that both have and that is not the same. -/
def Changed (olds news : List KeyedEntry) (change : DiffChange) : Prop :=
  (∃ old ∈ olds, (∀ new ∈ news, old.key ≠ new.key) ∧ change = deleteFrom old.entry) ∨
  (∃ new ∈ news, (∀ old ∈ olds, old.key ≠ new.key) ∧ change = addFrom new.entry) ∨
  ∃ old ∈ olds, ∃ new ∈ news, old.key = new.key ∧
    classifySamePath old.entry new.entry = some change

section

variable {olds news : List KeyedEntry} {old new : KeyedEntry} {change : DiffChange}

theorem changed_cons_left (h : ∀ new ∈ news, old.key ≠ new.key) :
    Changed (old :: olds) news change ↔ change = deleteFrom old.entry ∨ Changed olds news change := by
  unfold Changed
  grind

theorem changed_cons_right (h : ∀ old ∈ olds, old.key ≠ new.key) :
    Changed olds (new :: news) change ↔ change = addFrom new.entry ∨ Changed olds news change := by
  unfold Changed
  grind

theorem changed_cons_both (hkey : old.key = new.key) (hold : ∀ o ∈ olds, o.key ≠ old.key)
    (hnew : ∀ n ∈ news, n.key ≠ new.key) :
    Changed (old :: olds) (new :: news) change ↔
      classifySamePath old.entry new.entry = some change ∨ Changed olds news change := by
  unfold Changed
  grind

def Ascending (entries : List KeyedEntry) : Prop :=
  entries.Pairwise fun a b => compareBytes a.key b.key < 0

theorem Ascending.ne_of_neg (h : Ascending (new :: news)) {key : Bytes}
    (hneg : compareBytes key new.key < 0) : ∀ n ∈ new :: news, key ≠ n.key := by
  intro n hmem
  rw [Ne, ← compareBytes_eq_zero_iff]
  rcases mem_cons.mp hmem with rfl | hmem
  · omega
  · have hlt := compareBytes_neg_of_neg_of_nonpos hneg (rel_of_pairwise_cons h hmem).le
    omega

/-- **The join reports exactly the changes.** -/
theorem mem_mergeEntries (holds : Ascending olds) (hnews : Ascending news) :
    change ∈ mergeEntries olds news ↔ Changed olds news change := by
  induction olds, news using mergeEntries.induct with
  | case1 old olds new news cmp hlt ih =>
    rw [mergeEntries, if_pos hlt, mem_cons, ih holds.of_cons hnews,
      changed_cons_left (hnews.ne_of_neg hlt)]
  | case2 old olds new news cmp hnlt hgt ih =>
    have hneg : compareBytes new.key old.key < 0 := by
      rw [compareBytes_swap old.key]
      exact neg_neg_of_pos hgt
    rw [mergeEntries, if_neg hnlt, if_pos hgt, mem_cons, ih holds hnews.of_cons,
      changed_cons_right fun o hmem => (holds.ne_of_neg hneg o hmem).symm]
  | case3 old olds new news cmp hnlt hngt ih =>
    have hkey : old.key = new.key := compareBytes_eq_zero_iff.mp (by omega)
    have apart {key : Bytes} {rest : List KeyedEntry}
        (h : ∀ entry ∈ rest, compareBytes key entry.key < 0) : ∀ entry ∈ rest, entry.key ≠ key := by
      intro entry hmem heq
      have hneg := h entry hmem
      rw [compareBytes_eq_zero_iff.mpr heq.symm] at hneg
      exact lt_irrefl _ hneg
    rw [mergeEntries, if_neg hnlt, if_neg hngt, mem_append, Option.mem_toList,
      ih holds.of_cons hnews.of_cons,
      changed_cons_both hkey (apart fun _ => rel_of_pairwise_cons holds)
        (apart fun _ => rel_of_pairwise_cons hnews)]
  | case4 olds news hempty =>
    rw [mergeEntries.eq_2 olds news hempty, mem_append, mem_map, mem_map]
    unfold Changed
    rcases olds with _ | ⟨old, olds⟩
    · simp [eq_comm]
    · rcases news with _ | ⟨new, news⟩
      · simp [eq_comm]
      · exact absurd rfl (hempty old olds new news rfl)

end

theorem ascending_sort {entries : List TreeEntry} (hslash : ∀ entry ∈ entries, 0x2f ∉ entry.nameBytes)
    (hnames : (entries.map (·.nameBytes)).Nodup) :
    Ascending ((sortTreeEntries entries).map keyed) :=
  pairwise_map.mpr (sortTreeEntries_strict hslash hnames)

/-- **The difference of two trees that were written** is exactly what changed. -/
theorem diffRawTrees_changed {hash : HashConfig} {oldTree newTree : Tree}
    (hold : ∀ entry ∈ oldTree.entries, entry.Fits hash)
    (hnew : ∀ entry ∈ newTree.entries, entry.Fits hash)
    (holdNames : (oldTree.entries.map (·.nameBytes)).Nodup)
    (hnewNames : (newTree.entries.map (·.nameBytes)).Nodup) :
    ∃ oldBytes newBytes changes, serializeTreeContent oldTree hash = .ok oldBytes ∧
      serializeTreeContent newTree hash = .ok newBytes ∧
      diffRawTrees (some oldBytes) (some newBytes) hash = .ok changes ∧
      ∀ change, change ∈ changes ↔
        Changed (oldTree.entries.map keyed) (newTree.entries.map keyed) change := by
  have hparse {tree : Tree} (h : ∀ entry ∈ tree.entries, entry.Fits hash) :
      parseTreeContent [] ((sortTreeEntries tree.entries).flatMap entryRow) hash =
        .ok ⟨[], sortTreeEntries tree.entries⟩ := by
    have hsorted : ∀ entry ∈ sortTreeEntries tree.entries, entry.Fits hash :=
      fun entry hmem => h entry ((sortTreeEntries_perm _).mem_iff.mp hmem)
    rw [parseTreeContent, ok_bind_eq (parseTreeFrom_rows hsorted drop_zero)]
    rfl
  have hids {tree : Tree} (h : ∀ entry ∈ tree.entries, entry.Fits hash) (entry)
      (hmem : entry ∈ tree.entries) := And.intro (h entry hmem).length_id (h entry hmem).digits
  obtain ⟨a, hopenA, hfollowsA, hhashA⟩ := openTreeCursor_of_parse (hparse hold)
  obtain ⟨b, hopenB, hfollowsB, hhashB⟩ := openTreeCursor_of_parse (hparse hnew)
  refine ⟨_, _, mergeEntries ((sortTreeEntries oldTree.entries).map keyed)
    ((sortTreeEntries newTree.entries).map keyed), serializeTreeContent_eq (hids hold),
    serializeTreeContent_eq (hids hnew), ?_, fun change => ?_⟩
  · rw [diffRawTrees, Option.getD_some, Option.getD_some, hopenA, hopenB]
    exact diffCursors_of_follows hfollowsA hfollowsB (hhashA.trans hhashB.symm)
  · rw [mem_mergeEntries (ascending_sort (fun entry hmem => (hold entry hmem).slash_not_mem) holdNames)
      (ascending_sort (fun entry hmem => (hnew entry hmem).slash_not_mem) hnewNames)]
    simp only [Changed, ((sortTreeEntries_perm _).map keyed).mem_iff]

/-- A directory that is gone, beside a file that stays. -/
theorem diffRawTrees_changed_slashed : ∃ oldBytes newBytes changes,
    serializeTreeContent slashedTree .sha1 = .ok oldBytes ∧
      serializeTreeContent ⟨[], slashedTree.entries.drop 1⟩ .sha1 = .ok newBytes ∧
      diffRawTrees (some oldBytes) (some newBytes) .sha1 = .ok changes ∧
      deleteFrom ⟨.directory, [0x61], bytesToHex (replicate 20 7)⟩ ∈ changes := by
  obtain ⟨oldBytes, newBytes, changes, hold, hnew, hdiff, hchanges⟩ :=
    @diffRawTrees_changed .sha1 slashedTree ⟨[], slashedTree.entries.drop 1⟩ slashedTree_fits
      (fun entry hmem => slashedTree_fits entry (mem_of_mem_drop hmem)) (by decide) (by decide)
  exact ⟨oldBytes, newBytes, changes, hold, hnew, hdiff,
    (hchanges _).mpr (.inl ⟨_, mem_map_of_mem mem_cons_self, by decide, rfl⟩)⟩

end Tsgit.Diff
