import Tsgit.CacheTreeInvalidate

/-!
# Extensions Carried to New Entries

Before an index is written, the entries it holds are compared with those it is to hold
(`src/domain/git-index/diff-index-entries.ts`), and the extensions of the old file are kept as
far as the change leaves them true (`src/domain/git-index/carry-extensions.ts`).
-/

namespace Tsgit.CacheTree

open List Tsgit.IndexFile Tsgit.Objects Tsgit.Path

/-! ### The change of an index -/

structure IndexChange where
  changedPaths : List IndexPath
  trackedSetChanged : Bool
  resolvedUnmerged : Bool

/-- The comparison of two paths, by their entries. -/
abbrev PathComparator := IndexEntry → IndexEntry → ℤ

def byPathThenStage (comparePath : PathComparator) (a b : IndexEntry) : ℤ :=
  if comparePath a b ≠ 0 then comparePath a b else (a.flags.stage : ℤ) - b.flags.stage

def comparatorForBoth (before after : List IndexEntry) : PathComparator :=
  fun a b =>
    if before.any fun entry => surrogateOrAbove entry.path then
      compareEntryPath a.toIndexPath b.toIndexPath
    else pathComparatorFor (after.map (·.toIndexPath)) a.toIndexPath b.toIndexPath

def differs (a b : IndexEntry) : Bool := a.id ≠ b.id ∨ a.mode ≠ b.mode

/-- The list itself where it is in order, else a sorted copy. -/
def isOrdered (compare : PathComparator) : List IndexEntry → Bool
  | a :: b :: rest => if compare a b > 0 then false else isOrdered compare (b :: rest)
  | _ => true

def inOrder (items : List IndexEntry) (compare : PathComparator) : List IndexEntry :=
  if isOrdered compare items then items else items.mergeSort fun a b => compare a b ≤ 0

def mark (changed : List IndexPath) (entry : IndexEntry) : List IndexPath :=
  match changed.getLast? with
  | none => changed ++ [entry.toIndexPath]
  | some last =>
    if indexPathKey last ≠ indexPathKey entry.toIndexPath then changed ++ [entry.toIndexPath]
    else changed

def collectFrom (comparePath : PathComparator) :
    List IndexEntry → List IndexEntry → List IndexPath → List IndexPath
  | [], after, changed => after.foldl mark changed
  | before, [], changed => before.foldl mark changed
  | left :: before, right :: after, changed =>
    let order := byPathThenStage comparePath left right
    if order < 0 then collectFrom comparePath before (right :: after) (mark changed left)
    else if order > 0 then collectFrom comparePath (left :: before) after (mark changed right)
    else
      collectFrom comparePath before after
        (if differs left right then mark changed left else changed)
termination_by before after => before.length + after.length

def collectChangedPaths (before after : List IndexEntry) (comparePath : PathComparator) :
    List IndexPath := collectFrom comparePath before after []

def skipSamePath (comparePath : PathComparator) (first : IndexEntry) (rest : List IndexEntry) :
    List IndexEntry := rest.dropWhile fun next => comparePath first next = 0

theorem length_skipSamePath (comparePath : PathComparator) (first : IndexEntry)
    (rest : List IndexEntry) : (skipSamePath comparePath first rest).length < rest.length + 1 :=
  Nat.lt_succ_of_le (dropWhile_sublist _).length_le

def pathSetsDiffer (comparePath : PathComparator) :
    List IndexEntry → List IndexEntry → Bool
  | [], after => !after.isEmpty
  | _ :: _, [] => true
  | left :: before, right :: after =>
    if comparePath left right ≠ 0 then true
    else
      pathSetsDiffer comparePath (skipSamePath comparePath left before)
        (skipSamePath comparePath right after)
termination_by before => before.length
decreasing_by exact length_skipSamePath comparePath left before

def hasResolvedUnmerged (comparePath : PathComparator) :
    List IndexEntry → List IndexEntry → Bool
  | [], _ => false
  | entry :: before, after =>
    if entry.flags.stage = 0 then hasResolvedUnmerged comparePath before after
    else
      let rest := after.dropWhile fun other => comparePath other entry < 0
      let same := rest.takeWhile fun other => comparePath other entry = 0
      if !same.isEmpty && same.all fun other => other.flags.stage = 0 then true
      else hasResolvedUnmerged comparePath before rest

def diffIndexEntries (before after : List IndexEntry) : IndexChange :=
  let comparePath := comparatorForBoth before after
  let compare := byPathThenStage comparePath
  let sortedBefore := inOrder before compare
  let sortedAfter := inOrder after compare
  { changedPaths := collectChangedPaths sortedBefore sortedAfter comparePath
    trackedSetChanged := pathSetsDiffer comparePath sortedBefore sortedAfter
    resolvedUnmerged := hasResolvedUnmerged comparePath sortedBefore sortedAfter }

/-! ### The extensions -/

inductive CarryKind where
  | refresh
  | update
  | replace
  deriving DecidableEq

structure CarrySettings where
  untrackedCache : Option Bool
  digestLength : ℕ

def treeSignature : Text := ['T', 'R', 'E', 'E']
def reucSignature : Text := ['R', 'E', 'U', 'C']
def untrSignature : Text := ['U', 'N', 'T', 'R']

def findExtension (previous : List IndexExtension) (signature : Text) : Option IndexExtension :=
  previous.find? fun extension => extension.signature = signature

def carryTree (tree : Option IndexExtension) (change : IndexChange) (kind : CarryKind)
    (digestLength : ℕ) : Except Thrown (Option IndexExtension) :=
  match tree with
  | none => .ok none
  | some tree =>
    if kind = .refresh ∨ change.changedPaths.length = 0 then .ok (some tree)
    else do
      match ← parseCarriedCacheTree tree.data digestLength with
      | none => pure none
      | some root =>
        let data ← serializeCacheTree (invalidateCacheTree root change.changedPaths) digestLength
        pure (some ⟨treeSignature, data⟩)

def carryUnmerged (reuc : Option IndexExtension) (change : IndexChange) (kind : CarryKind) :
    Option IndexExtension :=
  if kind = .replace then none
  else if kind = .update ∧ change.resolvedUnmerged then none
  else reuc

def carryUntracked (untr : Option IndexExtension) (change : IndexChange) (kind : CarryKind)
    (untrackedCache : Option Bool) : Option IndexExtension :=
  if untrackedCache = some false then none
  else if kind = .refresh then untr
  else if change.trackedSetChanged then none else untr

def carryExtensions (previous : List IndexExtension) (change : IndexChange) (kind : CarryKind)
    (settings : CarrySettings) : Except Thrown (List IndexExtension) := do
  let tree ← carryTree (findExtension previous treeSignature) change kind settings.digestLength
  pure ([tree, carryUnmerged (findExtension previous reucSignature) change kind,
    carryUntracked (findExtension previous untrSignature) change kind
      settings.untrackedCache].filterMap id)

def setKey : List IndexPath → IndexPath → List IndexPath
  | [], item => [item]
  | other :: rest, item =>
    if indexPathKey other = indexPathKey item then item :: rest else other :: setKey rest item

def uniqueByKey (items : List IndexPath) : List IndexPath := items.foldl setKey []

def withRestagedPaths (change : IndexChange) (restagedPaths : List IndexPath) : IndexChange :=
  if restagedPaths.length = 0 then change
  else
    let union := uniqueByKey (change.changedPaths ++ restagedPaths)
    { change with changedPaths := union.mergeSort fun a b => pathComparatorFor union a b ≤ 0 }

/-! ### One path, one key -/

section

variable {before after : List IndexEntry}

theorem compareEntryPath_eq_zero {a b : IndexPath} (h : compareEntryPath a b = 0) :
    pathBytesOf a = pathBytesOf b := by
  unfold compareEntryPath at h
  split at h
  · next hnone =>
    have hswap : comparePathStrings b.path a.path = -comparePathStrings a.path b.path :=
      compareUnits_swap _ _
    have hle := comparePathStrings_nonpos_iff.mp h.le
    have hback : comparePathStrings b.path a.path ≤ 0 := by omega
    have hge := comparePathStrings_nonpos_iff.mp hback
    rw [compareBytes_swap] at hge
    rw [pathBytesOf, pathBytesOf, hnone.1, hnone.2, Option.getD_none, Option.getD_none]
    exact compareBytes_eq_zero_iff.mp (by omega)
  · exact compareBytes_eq_zero_iff.mp h

theorem compareUtf16Path_eq_zero {a b : IndexPath} (h : compareUtf16Path a b = 0)
    (ha : surrogateOrAbove a.path = false) (hb : surrogateOrAbove b.path = false)
    (hnone : a.pathBytes = none ∧ b.pathBytes = none) : pathBytesOf a = pathBytesOf b := by
  have hback : compareUtf16Path b a ≤ 0 := by
    unfold compareUtf16Path compareUtf16Strings at h ⊢
    split_ifs at h ⊢ <;> omega
  have hle := (compareUtf16Path_nonpos_iff ha hb hnone).mp h.le
  have hge := (compareUtf16Path_nonpos_iff hb ha hnone.symm).mp hback
  rw [compareBytes_swap] at hge
  exact compareBytes_eq_zero_iff.mp (by omega)

/-- A path is told by its bytes. -/
theorem eq_of_pathBytesOf {a b : IndexPath} (ha : a.WellFormed) (hb : b.WellFormed)
    (h : pathBytesOf a = pathBytesOf b) : a = b := by
  have hpath : a.path = b.path := by rw [← ha.decode_eq, ← hb.decode_eq, h]
  have hbytes : a.pathBytes = b.pathBytes := by
    rw [← ha.lossyPathBytes_eq, ← hb.lossyPathBytes_eq, hpath, h]
  obtain ⟨path, pathBytes⟩ := a
  obtain ⟨path', pathBytes'⟩ := b
  cases hpath
  cases hbytes
  rfl

/-- **Entries the comparator takes for one path** have one path. -/
theorem comparatorForBoth_eq_zero (hbefore : ∀ entry ∈ before, entry.toIndexPath.WellFormed)
    (hafter : ∀ entry ∈ after, entry.toIndexPath.WellFormed) {a b : IndexEntry} (ha : a ∈ before)
    (hb : b ∈ after) (h : comparatorForBoth before after a b = 0) :
    a.toIndexPath = b.toIndexPath := by
  refine eq_of_pathBytesOf (hbefore a ha) (hafter b hb) ?_
  unfold comparatorForBoth pathComparatorFor at h
  split at h
  · exact compareEntryPath_eq_zero h
  · next hlow =>
    split at h
    · exact compareEntryPath_eq_zero h
    · next hlow' =>
      have hleft : surrogateOrAbove a.path = false :=
        Bool.eq_false_iff.mpr fun htrue => hlow (any_eq_true.mpr ⟨a, ha, htrue⟩)
      have hright : surrogateOrAbove b.path = false :=
        Bool.eq_false_iff.mpr fun htrue =>
          hlow' (any_eq_true.mpr ⟨b.toIndexPath, mem_map_of_mem hb, htrue⟩)
      exact compareUtf16Path_eq_zero h hleft hright
        ⟨(hbefore a ha).lossless hleft, (hafter b hb).lossless hright⟩

end

/-! ### The paths that are reported -/

/-- What of an entry goes into a tree. -/
def rowOf (entry : IndexEntry) : Key × ℕ × Text × FileMode :=
  (indexPathKey entry.toIndexPath, entry.flags.stage, entry.id, entry.mode)

theorem subset_mark (changed : List IndexPath) (entry : IndexEntry) :
    changed ⊆ mark changed entry := by
  intro path hmem
  unfold mark
  split
  · exact mem_append_left _ hmem
  · split
    · exact mem_append_left _ hmem
    · exact hmem

theorem key_mem_mark (changed : List IndexPath) (entry : IndexEntry) :
    indexPathKey entry.toIndexPath ∈ (mark changed entry).map indexPathKey := by
  unfold mark
  split
  · exact mem_map_of_mem (mem_append_right _ mem_cons_self)
  · next last hlast =>
    split
    · exact mem_map_of_mem (mem_append_right _ mem_cons_self)
    · next hkey =>
      rw [← not_not.mp hkey]
      exact mem_map_of_mem (mem_of_getLast? hlast)

theorem subset_foldl_mark (entries : List IndexEntry) (changed : List IndexPath) :
    changed ⊆ entries.foldl mark changed := by
  induction entries generalizing changed with
  | nil => exact List.Subset.refl _
  | cons entry rest ih => exact List.Subset.trans (subset_mark changed entry) (ih _)

theorem key_mem_foldl_mark {entries : List IndexEntry} (changed : List IndexPath)
    {entry : IndexEntry} (hmem : entry ∈ entries) :
    indexPathKey entry.toIndexPath ∈ (entries.foldl mark changed).map indexPathKey := by
  induction entries generalizing changed with
  | nil => exact absurd hmem not_mem_nil
  | cons first rest ih =>
    rcases mem_cons.mp hmem with rfl | hmem
    · exact map_subset _ (subset_foldl_mark rest _) (key_mem_mark changed entry)
    · exact ih _ hmem

section

variable {comparePath : PathComparator}

theorem subset_collectFrom (before after : List IndexEntry) (changed : List IndexPath) :
    changed ⊆ collectFrom comparePath before after changed := by
  fun_induction collectFrom comparePath before after changed with
  | case1 after changed => exact subset_foldl_mark after changed
  | case2 before changed => exact subset_foldl_mark before changed
  | case3 left before right after changed order hless =>
    rename_i ih
    exact List.Subset.trans (subset_mark changed left) ih
  | case4 left before right after changed order hless hmore =>
    rename_i ih
    exact List.Subset.trans (subset_mark changed right) ih
  | case5 left before right after changed order hless hmore =>
    rename_i ih
    refine List.Subset.trans ?_ ih
    split
    · exact subset_mark changed left
    · exact List.Subset.refl _

theorem count_map_rowOf_eq_zero {entries : List IndexEntry} {row : Key × ℕ × Text × FileMode}
    (h : ∀ entry ∈ entries, indexPathKey entry.toIndexPath ≠ row.1) :
    (entries.map rowOf).count row = 0 := by
  refine count_eq_zero.mpr fun hmem => ?_
  obtain ⟨entry, hentry, rfl⟩ := mem_map.mp hmem
  exact h entry hentry rfl

/-- **A row of a path that is not reported** is there as often before as after. -/
theorem count_collectFrom (before after : List IndexEntry) (changed : List IndexPath)
    (hzero : ∀ a ∈ before, ∀ b ∈ after, comparePath a b = 0 → a.toIndexPath = b.toIndexPath)
    {row : Key × ℕ × Text × FileMode}
    (hrow : row.1 ∉ (collectFrom comparePath before after changed).map indexPathKey) :
    (before.map rowOf).count row = (after.map rowOf).count row := by
  fun_induction collectFrom comparePath before after changed with
  | case1 after changed =>
    refine (count_map_rowOf_eq_zero fun entry hmem heq => hrow ?_).symm
    exact heq ▸ key_mem_foldl_mark changed hmem
  | case2 before changed =>
    refine count_map_rowOf_eq_zero fun entry hmem heq => hrow ?_
    exact heq ▸ key_mem_foldl_mark changed hmem
  | case3 left before right after changed order hless =>
    rename_i ih
    have hrest := ih (forall_mem_cons.mp hzero).2 hrow
    have hne : rowOf left ≠ row := fun heq => hrow (heq ▸
      map_subset _ (subset_collectFrom _ _ _) (key_mem_mark changed left))
    rw [← hrest, map_cons, count_cons_of_ne hne]
  | case4 left before right after changed order hless hmore =>
    rename_i ih
    have hrest := ih (fun a ha b hb => hzero a ha b (mem_cons_of_mem _ hb)) hrow
    have hne : rowOf right ≠ row := fun heq => hrow (heq ▸
      map_subset _ (subset_collectFrom _ _ _) (key_mem_mark changed right))
    rw [hrest, map_cons (l := after), count_cons_of_ne hne]
  | case5 left before right after changed order hless hmore =>
    rename_i ih
    have hrest := ih (fun a ha b hb =>
      hzero a (mem_cons_of_mem _ ha) b (mem_cons_of_mem _ hb)) hrow
    have horder : byPathThenStage comparePath left right = 0 := by omega
    have hpath : comparePath left right = 0 := by
      by_contra hne
      rw [byPathThenStage, if_pos hne] at horder
      exact hne horder
    have hstage : left.flags.stage = right.flags.stage := by
      rw [byPathThenStage, if_neg (not_not_intro hpath)] at horder
      omega
    have hsame := hzero left mem_cons_self right mem_cons_self hpath
    rw [map_cons, map_cons, count_cons, count_cons, hrest]
    by_cases hdiffers : differs left right = true
    · rw [if_pos hdiffers] at hrow
      have hkey : row.1 ≠ indexPathKey left.toIndexPath := fun heq => hrow (heq ▸
        map_subset _ (subset_collectFrom _ _ _) (key_mem_mark changed left))
      have hleft : rowOf left ≠ row := fun heq => hkey (heq ▸ rfl)
      have hright : rowOf right ≠ row := fun heq => hkey (by rw [hsame, ← heq]; rfl)
      rw [beq_eq_false_iff_ne.mpr hleft, beq_eq_false_iff_ne.mpr hright]
    · have hboth : ¬ (left.id ≠ right.id ∨ left.mode ≠ right.mode) := fun h =>
        hdiffers (decide_eq_true h)
      have hrows : rowOf left = rowOf right := by
        rw [rowOf, rowOf, hsame, hstage, not_not.mp fun h => hboth (.inl h),
          not_not.mp fun h => hboth (.inr h)]
      rw [hrows]

end

theorem inOrder_perm (items : List IndexEntry) (compare : PathComparator) :
    (inOrder items compare).Perm items := by
  unfold inOrder
  split
  · exact .refl items
  · exact mergeSort_perm items _

section

variable {before after : List IndexEntry}

theorem count_diffIndexEntries (hbefore : ∀ entry ∈ before, entry.toIndexPath.WellFormed)
    (hafter : ∀ entry ∈ after, entry.toIndexPath.WellFormed) {row : Key × ℕ × Text × FileMode}
    (hrow : row.1 ∉ (diffIndexEntries before after).changedPaths.map indexPathKey) :
    (before.map rowOf).count row = (after.map rowOf).count row := by
  have hleft := inOrder_perm before (byPathThenStage (comparatorForBoth before after))
  have hright := inOrder_perm after (byPathThenStage (comparatorForBoth before after))
  rw [← (hleft.map rowOf).count_eq, ← (hright.map rowOf).count_eq]
  exact count_collectFrom _ _ [] (fun a ha b hb => comparatorForBoth_eq_zero hbefore hafter
    (hleft.mem_iff.mp ha) (hright.mem_iff.mp hb)) hrow

def isBeneath (directory : List Key) (path : Pending) : Bool :=
  directory.isPrefixOf path && directory.length < path.length

def rowsBeneath (directory : List Key) (entries : List IndexEntry) :
    List (Key × ℕ × Text × FileMode) :=
  (entries.map rowOf).filter fun row => isBeneath directory (row.1.splitOn 0x2f)

/-- **A directory whose rows changed** has a reported path beneath it. -/
theorem exists_changed_beneath (hbefore : ∀ entry ∈ before, entry.toIndexPath.WellFormed)
    (hafter : ∀ entry ∈ after, entry.toIndexPath.WellFormed) {directory : List Key}
    (hchanged : ¬ (rowsBeneath directory before).Perm (rowsBeneath directory after)) :
    ∃ path ∈ (diffIndexEntries before after).changedPaths,
      isBeneath directory (componentKeysOf path) = true := by
  by_contra hnone
  refine hchanged (perm_iff_count.mpr fun row => ?_)
  by_cases hbeneath : isBeneath directory (row.1.splitOn 0x2f) = true
  · have hrow : row.1 ∉ (diffIndexEntries before after).changedPaths.map indexPathKey := by
      intro hmem
      obtain ⟨path, hpath, hkey⟩ := mem_map.mp hmem
      exact hnone ⟨path, hpath, by rw [componentKeysOf, hkey]; exact hbeneath⟩
    have hcount : ∀ entries, (rowsBeneath directory entries).count row =
        (entries.map rowOf).count row := fun entries => count_filter hbeneath
    rw [hcount, hcount]
    exact count_diffIndexEntries hbefore hafter hrow
  · have hnot : ∀ entries, row ∉ rowsBeneath directory entries := fun entries hmem =>
      hbeneath (mem_filter.mp hmem).2
    rw [count_eq_zero.mpr (hnot before), count_eq_zero.mpr (hnot after)]

end

/-! ### Restaged paths -/

theorem mem_keys_setKey {key : Key} (items : List IndexPath) (item : IndexPath) :
    key ∈ (setKey items item).map indexPathKey ↔
      key ∈ items.map indexPathKey ∨ key = indexPathKey item := by
  induction items with
  | nil => rw [setKey, map_singleton, mem_singleton, map_nil]; simp
  | cons other rest ih =>
    rw [setKey]
    split
    · next hkey =>
      rw [map_cons, map_cons, mem_cons, mem_cons, hkey]
      tauto
    · rw [map_cons, map_cons, mem_cons, mem_cons, ih]
      tauto

theorem mem_keys_foldl_setKey {key : Key} (items found : List IndexPath) :
    key ∈ (items.foldl setKey found).map indexPathKey ↔
      key ∈ found.map indexPathKey ∨ key ∈ items.map indexPathKey := by
  induction items generalizing found with
  | nil => simp
  | cons item rest ih =>
    rw [foldl_cons, ih, mem_keys_setKey, map_cons, mem_cons]
    tauto

theorem mem_keys_withRestagedPaths {change : IndexChange} {key : Key}
    (hmem : key ∈ change.changedPaths.map indexPathKey) (restagedPaths : List IndexPath) :
    key ∈ (withRestagedPaths change restagedPaths).changedPaths.map indexPathKey := by
  unfold withRestagedPaths
  split
  · exact hmem
  · refine ((mergeSort_perm _ _).map indexPathKey).mem_iff.mpr ?_
    rw [uniqueByKey, mem_keys_foldl_setKey, map_append]
    exact .inr (mem_append_left _ hmem)

/-! ### The tree that is carried -/

theorem nodeFits_invalidate {digestLength : ℕ} {entry : CacheTreeEntry}
    (h : NodeFits digestLength entry) (paths : List Pending) :
    NodeFits digestLength (invalidate dropOid entry paths) := by
  obtain ⟨path, nameBytes, entryCount, subtreeCount, id, children⟩ := entry
  have hlength := (keys_invalidateAll dropOid children paths).length_le
  have hcount : subtreeCount = children.length := h.subtreeCount_eq
  have hsafe := abs_le.mp h.subtreeCount_safe
  have hminus : |(-1 : ℤ)| ≤ maxSafeInteger := abs_le.mpr ⟨by decide, by decide⟩
  have hnegative : ¬ (0 : ℤ) ≤ -1 := by decide
  rw [length_map, length_map] at hlength
  rw [invalidate]
  exact {
    nul_not_mem := h.nul_not_mem
    path_eq := h.path_eq
    nameBytes_eq := h.nameBytes_eq
    entryCount_safe := hminus
    subtreeCount_eq := by
      dsimp only
      omega
    subtreeCount_safe := by
      dsimp only at hsafe ⊢
      exact abs_le.mpr ⟨by omega, by omega⟩
    invalid := fun _ => rfl
    valid := fun hvalid => absurd hvalid hnegative }

mutual

theorem fits_invalidate {digestLength : ℕ} : ∀ (entry : CacheTreeEntry) (paths : List Pending)
    (room : ℕ), Fits digestLength room entry → Fits digestLength room (invalidate dropOid entry paths)
  | ⟨path, nameBytes, entryCount, subtreeCount, id, children⟩, paths, room, h => by
    cases h with
    | node hnode hchildren =>
      refine .node (nodeFits_invalidate hnode paths) ?_
      rw [invalidate]
      exact fits_invalidateAll children paths _ hchildren

theorem fits_invalidateAll {digestLength : ℕ} : ∀ (children : List CacheTreeEntry)
    (paths : List Pending) (room : ℕ), (∀ child ∈ children, Fits digestLength room child) →
      ∀ child ∈ invalidateAll dropOid children paths, Fits digestLength room child
  | [], _, _, _ => by
    rw [invalidateAll]
    exact forall_mem_nil _
  | first :: rest, paths, room, h => by
    have hfirst := h first mem_cons_self
    have hrest := fits_invalidateAll rest paths room fun child hmem =>
      h child (mem_cons_of_mem _ hmem)
    have hgoes := fits_invalidate first (below (keyOfChild first) paths) room hfirst
    rw [invalidateAll]
    split
    · exact hrest
    · split
      · exact forall_mem_cons.mpr ⟨hfirst, hrest⟩
      · exact forall_mem_cons.mpr ⟨hgoes, hrest⟩

end

theorem nil_not_mem_componentKeys (paths : List IndexPath) :
    [] ∉ paths.map componentKeysOf := by
  intro hmem
  obtain ⟨path, -, hnil⟩ := mem_map.mp hmem
  exact componentKeysOf_ne_nil path hnil

theorem isBeneath_iff {directory : List Key} {path : Pending} :
    isBeneath directory path = true ↔ directory <+: path ∧ directory.length < path.length := by
  rw [isBeneath, Bool.and_eq_true, isPrefixOf_iff_prefix, decide_eq_true_iff]

/-- **A node above a changed path** is invalid, if it is still there. -/
theorem invalid_above {root : CacheTreeEntry} (hnamed : NamedOnce root) {paths : List IndexPath}
    {directory : List Key}
    (habove : ∃ path ∈ paths, isBeneath directory (componentKeysOf path) = true)
    {node : CacheTreeEntry} (hnode : nodeAt directory (invalidateCacheTree root paths) = some node) :
    node.id = none ∧ node.entryCount = -1 := by
  obtain ⟨path, hpath, hbeneath⟩ := habove
  have hpaths : paths.map componentKeysOf ≠ [] := ne_nil_of_mem (mem_map_of_mem hpath)
  rw [invalidateCacheTree, invalidated_eq hnamed (ne_nil_of_mem hpath)] at hnode
  have hfate := nodeAt_invalidate dropOid directory hnamed hpaths (nil_not_mem_componentKeys paths)
  by_cases hgone : ∃ path ∈ paths.map componentKeysOf, path <+: directory
  · rw [hfate.1 hgone] at hnode
    cases hnode
  obtain ⟨under, hunder⟩ := hfate.2.1 hgone
    ⟨_, mem_map_of_mem hpath, (isBeneath_iff.mp hbeneath).1⟩
  rw [hunder] at hnode
  obtain ⟨kept, -, rfl⟩ := Option.map_eq_some_iff.mp hnode
  have hspec := invalidate_spec dropOid kept under
  exact ⟨hspec.2.1, hspec.1⟩

theorem namedOnce_of_carried {data : Bytes} {digestLength : ℕ} {root : CacheTreeEntry}
    (h : parseCarriedCacheTree data digestLength = .ok (some root)) : NamedOnce root := by
  unfold parseCarriedCacheTree at h
  split at h
  · next parsed _ =>
    split at h
    · next honce =>
      cases h
      exact namedOnce_of_namesEachSubtreeOnce root honce
    · cases h
  · cases h
  · cases h

theorem carryTree_of_mem {previous carried : List IndexExtension} {change : IndexChange}
    {kind : CarryKind} {settings : CarrySettings} {extension : IndexExtension}
    (hcarried : carryExtensions previous change kind settings = .ok carried)
    (hmem : extension ∈ carried) (htree : extension.signature = treeSignature) :
    carryTree (findExtension previous treeSignature) change kind settings.digestLength =
      .ok (some extension) := by
  obtain ⟨tree, hcarry, hrest⟩ := bind_eq_ok.mp hcarried
  rw [hcarry]
  cases hrest
  rw [mem_filterMap] at hmem
  obtain ⟨found, hfound, rfl⟩ := hmem
  have hother : ∀ signature, findExtension previous signature = some extension →
      extension.signature = signature := by
    intro signature hfind
    have hfound := find?_some hfind
    exact of_decide_eq_true hfound
  rcases mem_cons.mp hfound with hfirst | hfound
  · rw [hfirst]
  have hkept : findExtension previous reucSignature = some extension ∨
      findExtension previous untrSignature = some extension := by
    rcases mem_cons.mp hfound with hreuc | hfound
    · left
      unfold carryUnmerged at hreuc
      split at hreuc
      · cases hreuc
      · split at hreuc
        · cases hreuc
        · exact hreuc.symm
    · right
      have huntr := mem_singleton.mp hfound
      unfold carryUntracked at huntr
      split at huntr
      · cases huntr
      · split at huntr
        · exact huntr.symm
        · split at huntr
          · cases huntr
          · exact huntr.symm
  rcases hkept with hfind | hfind
  · exact absurd (htree.symm.trans (hother _ hfind)) (by decide)
  · exact absurd (htree.symm.trans (hother _ hfind)) (by decide)

/-- **A change of the index and the cache tree.** The node of a directory is gone if it is at or
below a changed path, invalid if one is beneath it, and else as it was, in any order of the paths. A
tree that is carried over is written from one valid for no directory whose rows changed. -/
theorem cacheTree_invalidation :
    (∀ root (paths : List IndexPath) (directory : List Key), NamedOnce root →
      ((∃ path ∈ paths, componentKeysOf path <+: directory) →
        nodeAt directory (invalidateCacheTree root paths) = none) ∧
      ((∃ path ∈ paths, isBeneath directory (componentKeysOf path) = true) →
        ∀ node, nodeAt directory (invalidateCacheTree root paths) = some node →
          node.id = none ∧ node.entryCount = -1) ∧
      ((∀ path ∈ paths, ¬ componentKeysOf path <+: directory ∧
          ¬ directory <+: componentKeysOf path) →
        nodeAt directory (invalidateCacheTree root paths) = nodeAt directory root)) ∧
    (∀ root (paths order : List IndexPath), NamedOnce root → order.Perm paths →
      order.foldl (fun tree path => invalidateCacheTree tree [path]) root =
        invalidateCacheTree root paths) ∧
    ∀ before after previous restagedPaths kind settings carried extension directory,
      (∀ entry ∈ before, entry.toIndexPath.WellFormed) →
      (∀ entry ∈ after, entry.toIndexPath.WellFormed) → kind ≠ .refresh →
      carryExtensions previous (withRestagedPaths (diffIndexEntries before after) restagedPaths)
        kind settings = .ok carried →
      extension ∈ carried → extension.signature = treeSignature →
      ¬ (rowsBeneath directory before).Perm (rowsBeneath directory after) →
        ∃ tree ∈ previous, ∃ root changedPaths,
          parseCarriedCacheTree tree.data settings.digestLength = .ok (some root) ∧
          serializeCacheTree (invalidateCacheTree root changedPaths) settings.digestLength =
            .ok extension.data ∧
          (Fits settings.digestLength (maxCacheTreeDepth + 1) root →
            parseCacheTree extension.data settings.digestLength =
              .ok (invalidateCacheTree root changedPaths)) ∧
          ∀ node, nodeAt directory (invalidateCacheTree root changedPaths) = some node →
            node.id = none ∧ node.entryCount = -1 := by
  refine ⟨fun root paths directory hnamed => ⟨fun ⟨path, hpath, hprefix⟩ => ?_,
    fun habove node hnode => invalid_above hnamed habove hnode, fun hneither => ?_⟩,
    fun root paths order hnamed hperm => ?_, ?_⟩
  · rw [invalidateCacheTree, invalidated_eq hnamed (ne_nil_of_mem hpath)]
    exact (nodeAt_invalidate dropOid directory hnamed
      (ne_nil_of_mem (mem_map_of_mem hpath)) (nil_not_mem_componentKeys paths)).1
      ⟨_, mem_map_of_mem hpath, hprefix⟩
  · by_cases hpaths : paths = []
    · rw [hpaths]
      rfl
    rw [invalidateCacheTree, invalidated_eq hnamed hpaths]
    refine (nodeAt_invalidate dropOid directory hnamed (fun h => hpaths (map_eq_nil_iff.mp h))
      (nil_not_mem_componentKeys paths)).2.2 ?_ ?_
    · rintro ⟨item, hmem, hprefix⟩
      obtain ⟨path, hpath, rfl⟩ := mem_map.mp hmem
      exact (hneither path hpath).1 hprefix
    · rintro ⟨item, hmem, hprefix⟩
      obtain ⟨path, hpath, rfl⟩ := mem_map.mp hmem
      exact (hneither path hpath).2 hprefix
  · rw [foldl_invalidate hnamed]
    exact invalidateCacheTree_perm hnamed hperm
  · intro before after previous restagedPaths kind settings carried extension directory hbefore
      hafter hkind hcarried hmem htree hchanged
    obtain ⟨reported, hreported, hbeneath⟩ := exists_changed_beneath hbefore hafter hchanged
    obtain ⟨change, hchange⟩ : ∃ change, change =
        withRestagedPaths (diffIndexEntries before after) restagedPaths := ⟨_, rfl⟩
    rw [← hchange] at hcarried
    have hkey := mem_keys_withRestagedPaths (mem_map_of_mem hreported) restagedPaths
    rw [← hchange] at hkey
    obtain ⟨path, hpath, hsame⟩ := mem_map.mp hkey
    have habove : isBeneath directory (componentKeysOf path) = true := by
      rw [componentKeysOf, hsame]
      exact hbeneath
    have hcarry := carryTree_of_mem hcarried hmem htree
    unfold carryTree at hcarry
    cases hfind : findExtension previous treeSignature with
    | none =>
      rw [hfind] at hcarry
      cases hcarry
    | some tree =>
      rw [hfind] at hcarry
      have hsome : ¬ (kind = .refresh ∨ change.changedPaths.length = 0) := fun h =>
        h.elim hkind fun hzero => ne_nil_of_mem hpath (length_eq_zero_iff.mp hzero)
      dsimp only at hcarry
      rw [if_neg hsome] at hcarry
      obtain ⟨parsed, hparsed, hwritten⟩ := bind_eq_ok.mp hcarry
      cases parsed with
      | none => cases hwritten
      | some root =>
        obtain ⟨data, hdata, hextension⟩ := bind_eq_ok.mp hwritten
        cases hextension
        refine ⟨tree, mem_of_find?_eq_some hfind, root, change.changedPaths, hparsed,
          hdata, fun hfits => ?_, fun node hnode =>
            invalid_above (namedOnce_of_carried hparsed) ⟨path, hpath, habove⟩ hnode⟩
        have hagain : Fits settings.digestLength (maxCacheTreeDepth + 1)
            (invalidateCacheTree root change.changedPaths) := by
          rw [invalidateCacheTree, invalidated_eq (namedOnce_of_carried hparsed)
            (ne_nil_of_mem hpath)]
          exact fits_invalidate root _ _ hfits
        obtain ⟨bytes, hbytes, hread⟩ := parseCacheTree_written hagain
        cases hdata.symm.trans hbytes
        exact hread

/-- A valid leaf, and trees with one and with two of them. -/
def leafNode (name : Text) : CacheTreeEntry := ⟨name, none, 1, 0, some (replicate 40 'a'), []⟩
def singleTree : CacheTreeEntry := ⟨[], none, 1, 1, some (replicate 40 'a'), [leafNode ['x']]⟩
def twinTree : CacheTreeEntry :=
  ⟨[], none, 2, 2, some (replicate 40 'a'), [leafNode ['x'], leafNode ['x']]⟩

def fileInside : IndexPath := ⟨['x', '/', 'a'], none⟩
def fileInstead : IndexPath := ⟨['x'], none⟩

theorem singleTree_namedOnce : NamedOnce singleTree :=
  namedOnce_of_namesEachSubtreeOnce singleTree (by decide)

theorem leafNode_fits (room : ℕ) : Fits 20 (room + 1) (leafNode ['x']) := by
  refine .node ?_ fun child hmem => absurd hmem not_mem_nil
  exact {
    nul_not_mem := by decide
    path_eq := by decide
    nameBytes_eq := by decide
    entryCount_safe := abs_le.mpr ⟨by decide, by decide⟩
    subtreeCount_eq := rfl
    subtreeCount_safe := abs_le.mpr ⟨by decide, by decide⟩
    invalid := fun h => absurd h (by decide)
    valid := fun _ => ⟨_, rfl, rfl, (isObjectId_replicate (by decide)).digits⟩ }

theorem singleTree_fits (room : ℕ) : Fits 20 (room + 2) singleTree := by
  refine .node ?_ (forall_mem_singleton.mpr (leafNode_fits room))
  exact {
    nul_not_mem := by decide
    path_eq := by decide
    nameBytes_eq := by decide
    entryCount_safe := abs_le.mpr ⟨by decide, by decide⟩
    subtreeCount_eq := rfl
    subtreeCount_safe := abs_le.mpr ⟨by decide, by decide⟩
    invalid := fun h => absurd h (by decide)
    valid := fun _ => ⟨_, rfl, rfl, (isObjectId_replicate (by decide)).digits⟩ }

/-- An entry of a file in the directory of the leaf. -/
def entryInside : IndexEntry := bareEntry fileInside ⟨false, 0, false, false⟩

theorem changedPaths_inside :
    (diffIndexEntries [] [entryInside]).changedPaths = [fileInside] := by
  have hnone : ∀ compare, inOrder [] compare = [] := fun _ => if_pos rfl
  have hone : ∀ compare, inOrder [entryInside] compare = [entryInside] := fun _ => if_pos rfl
  unfold diffIndexEntries collectChangedPaths
  dsimp only
  rw [hnone, hone, collectFrom]
  rfl

theorem carried_inside : ∃ data carried extension, carryExtensions [⟨treeSignature, data⟩]
      (withRestagedPaths (diffIndexEntries [] [entryInside]) []) .update ⟨none, 20⟩ = .ok carried ∧
    extension ∈ carried ∧ extension.signature = treeSignature := by
  obtain ⟨data, hdata, hparse⟩ := parseCacheTree_written (singleTree_fits (maxCacheTreeDepth - 1))
  obtain ⟨written, hwritten, -⟩ := parseCacheTree_written
    (fits_invalidate singleTree ([fileInside].map componentKeysOf) _
      (singleTree_fits (maxCacheTreeDepth - 1)))
  rw [← invalidated_eq singleTree_namedOnce (cons_ne_nil _ _)] at hwritten
  have hcarried : parseCarriedCacheTree data 20 = .ok (some singleTree) := by
    unfold parseCarriedCacheTree
    rw [hparse]
    rfl
  refine ⟨data, [⟨treeSignature, written⟩], ⟨treeSignature, written⟩, ?_, mem_cons_self, rfl⟩
  have htree : carryTree (findExtension [⟨treeSignature, data⟩] treeSignature)
      (diffIndexEntries [] [entryInside]) .update 20 = .ok (some ⟨treeSignature, written⟩) := by
    have hfind : findExtension [⟨treeSignature, data⟩] treeSignature =
        some ⟨treeSignature, data⟩ := find?_cons_of_pos (decide_eq_true rfl)
    rw [hfind, carryTree, changedPaths_inside]
    dsimp only
    rw [if_neg (by decide), ok_bind_eq hcarried]
    exact ok_bind_eq hwritten
  have hrestaged : withRestagedPaths (diffIndexEntries [] [entryInside]) [] =
      diffIndexEntries [] [entryInside] := if_pos rfl
  have hother : ∀ signature, signature ≠ treeSignature →
      findExtension [⟨treeSignature, data⟩] signature = none := fun signature hne =>
    find?_cons_of_neg fun h => hne (of_decide_eq_true h).symm
  have hunmerged : ∀ change, carryUnmerged none change .update = none := fun change => by
    unfold carryUnmerged
    split_ifs <;> rfl
  have huntracked : ∀ change, carryUntracked none change .update none = none := fun change => by
    unfold carryUntracked
    split_ifs <;> rfl
  rw [hrestaged, carryExtensions, ok_bind_eq htree, hother reucSignature (by decide),
    hother untrSignature (by decide), hunmerged, huntracked]
  rfl

theorem cacheTree_invalidation_single :
    nodeAt [codeUnits ['x']] (invalidateCacheTree singleTree [fileInstead]) = none ∧
    [fileInside, fileInstead].foldl (fun tree path => invalidateCacheTree tree [path]) singleTree =
      invalidateCacheTree singleTree [fileInstead, fileInside] ∧
    ∃ (extension : IndexExtension) (tree : CacheTreeEntry),
      serializeCacheTree tree 20 = .ok extension.data ∧
      extension.signature = treeSignature ∧
      ∀ node, nodeAt [codeUnits ['x']] tree = some node → node.id = none ∧ node.entryCount = -1 := by
  refine ⟨(cacheTree_invalidation.1 singleTree [fileInstead] _ singleTree_namedOnce).1
      ⟨fileInstead, mem_singleton_self _, by decide⟩,
    cacheTree_invalidation.2.1 singleTree [fileInstead, fileInside] _ singleTree_namedOnce
      (List.Perm.swap _ _ _), ?_⟩
  obtain ⟨data, carried, extension, hcarried, hmem, htree⟩ := carried_inside
  have hinside : ∀ entry ∈ [entryInside], entry.toIndexPath.WellFormed :=
    forall_mem_singleton.mpr fun raw hraw => by cases hraw
  have hchanged : ¬ (rowsBeneath [codeUnits ['x']] []).Perm
      (rowsBeneath [codeUnits ['x']] [entryInside]) := by decide
  obtain ⟨_, _, root, changedPaths, _, hwritten, _, hinvalid⟩ :=
    cacheTree_invalidation.2.2 [] [entryInside] _ [] .update _ carried extension [codeUnits ['x']]
      (fun _ hnone => absurd hnone not_mem_nil) hinside (by decide) hcarried hmem htree hchanged
  exact ⟨extension, _, hwritten, htree, hinvalid⟩

/-- Of twins the second stays valid above a changed path; and a directory whose name a path takes
has no node. -/
theorem invalidation_twins_and_switch :
    (∃ node ∈ (invalidateCacheTree twinTree [fileInside]).children,
      [keyOfChild node] <+: componentKeysOf fileInside ∧ node.id ≠ none) ∧
    isBeneath [codeUnits ['x']] (componentKeysOf fileInstead) = false ∧
    (nodeAt [codeUnits ['x']] singleTree).isSome = true ∧
    nodeAt [codeUnits ['x']] (invalidateCacheTree singleTree [fileInstead]) = none := by
  refine ⟨⟨leafNode ['x'], ?_, ?_⟩, by decide, by decide, ?_⟩
  · rw [invalidateCacheTree, invalidated, if_neg (cons_ne_nil _ _)]
    exact mem_cons_of_mem _ mem_cons_self
  · decide
  · rfl

end Tsgit.CacheTree
