import Tsgit.CacheTree
import Tsgit.Dict
import Tsgit.EscapedBytes

/-!
# Invalidation of the Cache Tree

A change of the index invalidates the nodes of the cache tree that are above a changed path
(`src/domain/git-index/cache-tree.ts`).
-/

namespace Tsgit.CacheTree

open List Tsgit.IndexFile Tsgit.Path

def keyOfChild (child : CacheTreeEntry) : Key := escapedOf child.path child.nameBytes

/-! ### The trees that are taken over -/

/-- The loop of `namesEachSubtreeOnce` over the children. -/
def keysOnce (seen : List Key) : List CacheTreeEntry → Bool
  | [] => true
  | child :: rest =>
    if seen.contains (keyOfChild child) then false else keysOnce (keyOfChild child :: seen) rest

mutual

def namesEachSubtreeOnce : CacheTreeEntry → Bool
  | ⟨_, _, _, _, _, children⟩ => keysOnce [] children && allNameOnce children

def allNameOnce : List CacheTreeEntry → Bool
  | [] => true
  | child :: rest => namesEachSubtreeOnce child && allNameOnce rest

end

/-- The tree of a payload, `none` where it cannot be read or names a subtree twice. -/
def parseCarriedCacheTree (data : Bytes) (digestLength : ℕ) :
    Except Thrown (Option CacheTreeEntry) :=
  match parseCacheTree data digestLength with
  | .ok root => .ok (if namesEachSubtreeOnce root then some root else none)
  | .error (.refusal (.invalidIndexEntry _ _)) => .ok none
  | .error thrown => .error thrown

/-! ### Invalidation -/

/-- The components of a path that is still to be invalidated. -/
abbrev Pending := List Key

def componentKeysOf (entry : IndexPath) : Pending := (indexPathKey entry).splitOn 0x2f

/-- One turn of `groupByComponent`. -/
def addToGroup (depth : ℕ) (groups : Dict Key (List Pending)) (item : Pending) :
    Dict Key (List Pending) :=
  let key := item.getD depth []
  match groups.get key with
  | none => groups.insert key [item]
  | some group => groups.insert key (group ++ [item])

def groupByComponent (pending : List Pending) (depth : ℕ) : Dict Key (List Pending) :=
  pending.foldl (addToGroup depth) Dict.empty

def reachesLeaf (group : List Pending) (depth : ℕ) : Bool :=
  group.any fun item => item.length = depth + 1

/-- What an invalidated node keeps of its id. -/
abbrev Retain := Option Text → Option Text

def dropOid : Retain := fun _ => none
def keepOid : Retain := fun id => id

mutual

def invalidateNode (retain : Retain) : CacheTreeEntry → List Pending → ℕ → CacheTreeEntry
  | ⟨path, nameBytes, _, subtreeCount, id, children⟩, pending, depth =>
    let rebuilt := rebuildChildren retain children (groupByComponent pending depth) depth
    ⟨path, nameBytes, -1, subtreeCount - ((children.length : ℤ) - rebuilt.length), retain id,
      rebuilt⟩

def rebuildChildren (retain : Retain) :
    List CacheTreeEntry → Dict Key (List Pending) → ℕ → List CacheTreeEntry
  | [], _, _ => []
  | child :: rest, groups, depth =>
    let key := keyOfChild child
    match groups.get key with
    | none => child :: rebuildChildren retain rest (groups.erase key) depth
    | some group =>
      if reachesLeaf group depth then rebuildChildren retain rest (groups.erase key) depth
      else
        invalidateNode retain child group (depth + 1) ::
          rebuildChildren retain rest (groups.erase key) depth

end

def invalidated (root : CacheTreeEntry) (paths : List IndexPath) (retain : Retain) :
    CacheTreeEntry :=
  if paths = [] then root else invalidateNode retain root (paths.map componentKeysOf) 0

def invalidateCacheTree (root : CacheTreeEntry) (paths : List IndexPath) : CacheTreeEntry :=
  invalidated root paths dropOid

def invalidateCacheTreeKeepingOids (root : CacheTreeEntry) (paths : List IndexPath) :
    CacheTreeEntry := invalidated root paths keepOid

/-! ### Invalidation as a recursion on the tree -/

/-- What is left of the paths that go below a name. -/
def below (key : Key) (paths : List Pending) : List Pending :=
  paths.filterMap fun
    | [] => none
    | first :: rest => if first = key then some rest else none

mutual

/-- The node, with the paths as they go on from it. -/
def invalidate (retain : Retain) : CacheTreeEntry → List Pending → CacheTreeEntry
  | ⟨path, nameBytes, _, subtreeCount, id, children⟩, paths =>
    let rebuilt := invalidateAll retain children paths
    ⟨path, nameBytes, -1, subtreeCount - ((children.length : ℤ) - rebuilt.length), retain id,
      rebuilt⟩

def invalidateAll (retain : Retain) : List CacheTreeEntry → List Pending → List CacheTreeEntry
  | [], _ => []
  | child :: rest, paths =>
    let under := below (keyOfChild child) paths
    if [] ∈ under then invalidateAll retain rest paths
    else if under = [] then child :: invalidateAll retain rest paths
    else invalidate retain child under :: invalidateAll retain rest paths

end

/-- A tree in which no node has two children of one name. -/
inductive NamedOnce : CacheTreeEntry → Prop
  | node {entry : CacheTreeEntry} (hkeys : (entry.children.map keyOfChild).Nodup)
    (hchildren : ∀ child ∈ entry.children, NamedOnce child) : NamedOnce entry

theorem NamedOnce.keys {entry : CacheTreeEntry} (h : NamedOnce entry) :
    (entry.children.map keyOfChild).Nodup := by
  cases h with
  | node hkeys hchildren => exact hkeys

theorem NamedOnce.child {entry child : CacheTreeEntry} (h : NamedOnce entry)
    (hmem : child ∈ entry.children) : NamedOnce child := by
  cases h with
  | node hkeys hchildren => exact hchildren child hmem

theorem keysOnce_iff (seen : List Key) (children : List CacheTreeEntry) :
    keysOnce seen children = true ↔
      (children.map keyOfChild).Nodup ∧ ∀ child ∈ children, keyOfChild child ∉ seen := by
  induction children generalizing seen with
  | nil =>
    exact ⟨fun _ => ⟨nodup_nil, forall_mem_nil _⟩, fun _ => rfl⟩
  | cons child rest ih =>
    rw [keysOnce, map_cons, nodup_cons, forall_mem_cons]
    by_cases hseen : keyOfChild child ∈ seen
    · rw [if_pos (contains_iff_mem.mpr hseen)]
      exact ⟨fun h => (by cases h), fun h => absurd hseen h.2.1⟩
    rw [if_neg fun h => hseen (contains_iff_mem.mp h), ih]
    refine ⟨fun ⟨hnodup, hother⟩ => ⟨⟨?_, hnodup⟩, hseen, fun other hmem hin =>
      hother other hmem (mem_cons_of_mem _ hin)⟩, fun ⟨⟨hnot, hnodup⟩, _, hother⟩ =>
        ⟨hnodup, fun other hmem hin => ?_⟩⟩
    · intro hmem
      obtain ⟨other, hother', heq⟩ := mem_map.mp hmem
      exact hother other hother' (heq ▸ mem_cons_self)
    · rcases mem_cons.mp hin with heq | hin
      · exact hnot (heq ▸ mem_map_of_mem hmem)
      · exact hother other hmem hin

mutual

theorem namedOnce_of_namesEachSubtreeOnce :
    ∀ entry, namesEachSubtreeOnce entry = true → NamedOnce entry
  | ⟨_, _, _, _, _, children⟩, h => by
    rw [namesEachSubtreeOnce, Bool.and_eq_true] at h
    exact .node ((keysOnce_iff [] children).mp h.1).1 (namedOnce_of_allNameOnce children h.2)

theorem namedOnce_of_allNameOnce :
    ∀ children, allNameOnce children = true → ∀ child ∈ children, NamedOnce child
  | [], _ => forall_mem_nil _
  | first :: rest, h => by
    rw [allNameOnce, Bool.and_eq_true] at h
    exact forall_mem_cons.mpr
      ⟨namedOnce_of_namesEachSubtreeOnce first h.1, namedOnce_of_allNameOnce rest h.2⟩

end

theorem mem_below {key : Key} {paths : List Pending} {rest : Pending} :
    rest ∈ below key paths ↔ key :: rest ∈ paths := by
  rw [below, mem_filterMap]
  refine ⟨fun ⟨item, hmem, hitem⟩ => ?_, fun hmem => ⟨key :: rest, hmem, if_pos rfl⟩⟩
  cases item with
  | nil => cases hitem
  | cons first others =>
    dsimp only at hitem
    split at hitem
    · next hfirst =>
      cases hitem
      exact hfirst ▸ hmem
    · cases hitem

/-- The pending paths of one group. -/
def groupOf (pending : List Pending) (depth : ℕ) (key : Key) : List Pending :=
  pending.filter fun item => item.getD depth [] = key

theorem get_foldl_addToGroup (depth : ℕ) (key : Key) (pending : List Pending)
    (groups : Dict Key (List Pending)) :
    (pending.foldl (addToGroup depth) groups).get key =
      if groupOf pending depth key = [] then groups.get key
      else some ((groups.get key).getD [] ++ groupOf pending depth key) := by
  induction pending generalizing groups with
  | nil => rfl
  | cons item rest ih =>
    rw [foldl_cons, ih]
    have hadd : (addToGroup depth groups item).get key =
        if item.getD depth [] = key then some ((groups.get key).getD [] ++ [item])
        else groups.get key := by
      unfold addToGroup
      dsimp only
      by_cases hkey : item.getD depth [] = key
      · rw [if_pos hkey, ← hkey]
        cases groups.get (item.getD depth []) with
        | none => exact Dict.get_insert_self _ _ _
        | some group => exact Dict.get_insert_self _ _ _
      · rw [if_neg hkey]
        cases groups.get (item.getD depth []) with
        | none => exact Dict.get_insert_of_ne _ _ fun heq => hkey heq.symm
        | some group => exact Dict.get_insert_of_ne _ _ fun heq => hkey heq.symm
    rw [hadd, groupOf, groupOf, filter_cons]
    by_cases hkey : item.getD depth [] = key
    · rw [if_pos hkey, if_pos (decide_eq_true hkey), if_neg (cons_ne_nil _ _)]
      split
      · next hnil => rw [hnil]
      · rw [Option.getD_some, append_assoc, singleton_append]
    · rw [if_neg hkey, if_neg fun h => hkey (of_decide_eq_true h)]

theorem get_groupByComponent (pending : List Pending) (depth : ℕ) (key : Key) :
    (groupByComponent pending depth).get key =
      if groupOf pending depth key = [] then none else some (groupOf pending depth key) := by
  rw [groupByComponent, get_foldl_addToGroup]
  rfl

/-- The paths as they go on from the depth. -/
def goingOn (pending : List Pending) (depth : ℕ) : List Pending := pending.map (List.drop depth)

theorem below_goingOn {pending : List Pending} {depth : ℕ}
    (hlong : ∀ item ∈ pending, depth < item.length) (key : Key) :
    below key (goingOn pending depth) = goingOn (groupOf pending depth key) (depth + 1) := by
  induction pending with
  | nil => rfl
  | cons item rest ih =>
    have hitem := hlong item mem_cons_self
    have hrest := ih (forall_mem_cons.mp hlong).2
    have hdrop : item.drop depth = item.getD depth [] :: item.drop (depth + 1) := by
      rw [getD_eq_getElem?_getD, getElem?_eq_getElem hitem]
      exact drop_eq_getElem_cons hitem
    rw [goingOn, below, goingOn] at hrest
    rw [goingOn, below, goingOn, groupOf, map_cons, filterMap_cons, hdrop, hrest, filter_cons]
    by_cases hkey : item.getD depth [] = key
    · rw [if_pos (decide_eq_true hkey)]
      dsimp only
      rw [if_pos hkey]
      rfl
    · rw [if_neg fun h => hkey (of_decide_eq_true h)]
      dsimp only
      rw [if_neg hkey]
      rfl

theorem reachesLeaf_iff {group : List Pending} {depth : ℕ}
    (hlong : ∀ item ∈ group, depth < item.length) :
    reachesLeaf group depth = true ↔ [] ∈ goingOn group (depth + 1) := by
  rw [reachesLeaf, any_eq_true, goingOn, mem_map]
  refine exists_congr fun item => and_congr_right fun hmem => ?_
  have hitem := hlong item hmem
  rw [decide_eq_true_iff, drop_eq_nil_iff]
  omega

section

variable (retain : Retain)

mutual

theorem invalidateNode_eq : ∀ (entry : CacheTreeEntry) (pending : List Pending) (depth : ℕ),
    NamedOnce entry → (∀ item ∈ pending, depth < item.length) →
      invalidateNode retain entry pending depth = invalidate retain entry (goingOn pending depth)
  | ⟨path, nameBytes, entryCount, subtreeCount, id, children⟩, pending, depth, hnamed, hlong => by
    have hchildren := rebuildChildren_eq children (groupByComponent pending depth) pending depth
      hnamed.keys (fun child hmem => hnamed.child hmem) hlong
      fun child _ => get_groupByComponent pending depth (keyOfChild child)
    rw [invalidateNode, invalidate]
    rw [hchildren]

theorem rebuildChildren_eq : ∀ (children : List CacheTreeEntry) (groups : Dict Key (List Pending))
    (pending : List Pending) (depth : ℕ), (children.map keyOfChild).Nodup →
      (∀ child ∈ children, NamedOnce child) → (∀ item ∈ pending, depth < item.length) →
      (∀ child ∈ children, groups.get (keyOfChild child) =
        if groupOf pending depth (keyOfChild child) = [] then none
        else some (groupOf pending depth (keyOfChild child))) →
      rebuildChildren retain children groups depth =
        invalidateAll retain children (goingOn pending depth)
  | [], _, _, _, _, _, _, _ => by rw [rebuildChildren, invalidateAll]
  | child :: rest, groups, pending, depth, hnodup, hnamed, hlong, hgroups => by
    rw [map_cons, nodup_cons] at hnodup
    have hrest := rebuildChildren_eq rest (groups.erase (keyOfChild child)) pending depth hnodup.2
      (forall_mem_cons.mp hnamed).2 hlong fun other hmem => by
        have hne : keyOfChild other ≠ keyOfChild child := fun heq =>
          hnodup.1 (heq ▸ mem_map_of_mem hmem)
        rw [Dict.get_erase_of_ne _ hne]
        exact hgroups other (mem_cons_of_mem _ hmem)
    have hgroup := hgroups child mem_cons_self
    rw [rebuildChildren, invalidateAll]
    rw [hgroup, hrest, below_goingOn hlong]
    obtain ⟨group, hdef⟩ : ∃ group, group = groupOf pending depth (keyOfChild child) := ⟨_, rfl⟩
    rw [← hdef]
    have hlong' : ∀ item ∈ group, depth < item.length := fun item hmem =>
      hlong item (mem_of_mem_filter (hdef ▸ hmem))
    by_cases hempty : group = []
    · rw [if_pos hempty, hempty]
      rfl
    have hgoing : goingOn group (depth + 1) ≠ [] := fun h => hempty (map_eq_nil_iff.mp h)
    rw [if_neg hempty]
    dsimp only
    by_cases hleaf : reachesLeaf group depth = true
    · rw [if_pos hleaf, if_pos ((reachesLeaf_iff hlong').mp hleaf)]
    have hnode := invalidateNode_eq child group (depth + 1)
      (hnamed child mem_cons_self) fun item hmem => by
        have hitem := hlong' item hmem
        have hnot : item.length ≠ depth + 1 := fun heq =>
          hleaf (any_eq_true.mpr ⟨item, hmem, decide_eq_true heq⟩)
        omega
    rw [if_neg hleaf, if_neg fun h => hleaf ((reachesLeaf_iff hlong').mpr h), if_neg hgoing,
      hnode]

end

end

theorem componentKeysOf_ne_nil (entry : IndexPath) : componentKeysOf entry ≠ [] :=
  splitOn_ne_nil _ _

variable {root : CacheTreeEntry}

theorem invalidated_eq (hnamed : NamedOnce root) {paths : List IndexPath}
    (hpaths : paths ≠ []) (retain : Retain) :
    invalidated root paths retain = invalidate retain root (paths.map componentKeysOf) := by
  have hlong : ∀ item ∈ paths.map componentKeysOf, 0 < item.length := by
    intro item hmem
    obtain ⟨path, -, rfl⟩ := mem_map.mp hmem
    exact length_pos_iff.mpr (componentKeysOf_ne_nil path)
  have hgoing : goingOn (paths.map componentKeysOf) 0 = paths.map componentKeysOf := by
    rw [goingOn]
    exact map_id _
  rw [invalidated, if_neg hpaths, invalidateNode_eq retain root _ 0 hnamed hlong, hgoing]

/-! ### What becomes of a node -/

theorem keyOfChild_invalidate (retain : Retain) (entry : CacheTreeEntry) (paths : List Pending) :
    keyOfChild (invalidate retain entry paths) = keyOfChild entry := by
  obtain ⟨path, nameBytes, entryCount, subtreeCount, id, children⟩ := entry
  rw [invalidate]
  rfl

theorem invalidate_spec (retain : Retain) (entry : CacheTreeEntry) (paths : List Pending) :
    (invalidate retain entry paths).entryCount = -1 ∧
      (invalidate retain entry paths).id = retain entry.id ∧
      (invalidate retain entry paths).children = invalidateAll retain entry.children paths := by
  obtain ⟨path, nameBytes, entryCount, subtreeCount, id, children⟩ := entry
  rw [invalidate]
  exact ⟨rfl, rfl, rfl⟩

/-- The node of a directory. -/
def nodeAt : List Key → CacheTreeEntry → Option CacheTreeEntry
  | [], entry => some entry
  | key :: rest, entry =>
    (entry.children.find? fun child => keyOfChild child = key).bind (nodeAt rest)

/-- What becomes of a child, by the paths that go below it. -/
def fate (retain : Retain) (under : List Pending) (child : CacheTreeEntry) :
    Option CacheTreeEntry :=
  if [] ∈ under then none
  else if under = [] then some child
  else some (invalidate retain child under)

theorem invalidateAll_cons (retain : Retain) (child : CacheTreeEntry) (rest : List CacheTreeEntry)
    (paths : List Pending) : invalidateAll retain (child :: rest) paths =
      (fate retain (below (keyOfChild child) paths) child).toList ++
        invalidateAll retain rest paths := by
  rw [invalidateAll, fate]
  split
  · rfl
  · split <;> rfl

theorem keyOfChild_fate {retain : Retain} {under : List Pending} {child kept : CacheTreeEntry}
    (h : fate retain under child = some kept) : keyOfChild kept = keyOfChild child := by
  unfold fate at h
  split at h
  · cases h
  · split at h
    · cases h
      rfl
    · cases h
      exact keyOfChild_invalidate retain child under

theorem find_invalidateAll (retain : Retain) {children : List CacheTreeEntry}
    (hnodup : (children.map keyOfChild).Nodup) (key : Key) (paths : List Pending) :
    (invalidateAll retain children paths).find? (fun child => keyOfChild child = key) =
      (children.find? fun child => keyOfChild child = key).bind
        (fate retain (below key paths)) := by
  induction children with
  | nil => rw [invalidateAll, find?_nil, Option.bind_none]
  | cons child rest ih =>
    rw [map_cons, nodup_cons] at hnodup
    have hrest := ih hnodup.2
    rw [invalidateAll_cons, find?_append, hrest]
    by_cases hkey : keyOfChild child = key
    · have hnone : rest.find? (fun child => keyOfChild child = key) = none := by
        refine find?_eq_none.mpr fun other hmem heq => hnodup.1 ?_
        rw [hkey, ← of_decide_eq_true heq]
        exact mem_map_of_mem hmem
      have hfirst : (child :: rest).find? (fun child => keyOfChild child = key) = some child :=
        find?_cons_of_pos (decide_eq_true hkey)
      rw [hnone, Option.bind_none, Option.or_none, hfirst, hkey, Option.bind_some]
      cases hfate : fate retain (below key paths) child with
      | none => rfl
      | some kept =>
        have hkept : keyOfChild kept = key := (keyOfChild_fate hfate).trans hkey
        exact find?_cons_of_pos (decide_eq_true hkept)
    · have hskip : (fate retain (below (keyOfChild child) paths) child).toList.find?
          (fun child => keyOfChild child = key) = none := by
        refine find?_eq_none.mpr fun kept hmem heq => hkey ?_
        rw [← keyOfChild_fate (Option.mem_toList.mp hmem)]
        exact of_decide_eq_true heq
      have hfirst : (child :: rest).find? (fun child => keyOfChild child = key) =
          rest.find? fun child => keyOfChild child = key :=
        find?_cons_of_neg fun h => hkey (of_decide_eq_true h)
      rw [hskip, Option.none_or, hfirst]

/-- **What becomes of the node of a directory.** At or below a changed path it is gone; above one
it is invalid; else it is as it was, with all below it. -/
theorem nodeAt_invalidate (retain : Retain) (directory : List Key) {entry : CacheTreeEntry}
    (hnamed : NamedOnce entry) {paths : List Pending} (hpaths : paths ≠ []) (hne : [] ∉ paths) :
    ((∃ path ∈ paths, path <+: directory) →
      nodeAt directory (invalidate retain entry paths) = none) ∧
    ((¬ ∃ path ∈ paths, path <+: directory) → (∃ path ∈ paths, directory <+: path) →
      ∃ under : List Pending, nodeAt directory (invalidate retain entry paths) =
        (nodeAt directory entry).map fun node => invalidate retain node under) ∧
    ((¬ ∃ path ∈ paths, path <+: directory) → (¬ ∃ path ∈ paths, directory <+: path) →
      nodeAt directory (invalidate retain entry paths) = nodeAt directory entry) := by
  induction directory generalizing entry paths with
  | nil =>
    refine ⟨fun ⟨path, hmem, hprefix⟩ => ?_, fun _ _ => ⟨paths, rfl⟩, fun _ habove => ?_⟩
    · exact absurd (prefix_nil.mp hprefix ▸ hmem) hne
    · obtain ⟨path, rest, rfl⟩ := exists_cons_of_ne_nil hpaths
      exact absurd ⟨path, mem_cons_self, nil_prefix⟩ habove
  | cons key rest ih =>
    have hat : nodeAt (key :: rest) (invalidate retain entry paths) =
        (entry.children.find? fun child => keyOfChild child = key).bind fun child =>
          (fate retain (below key paths) child).bind (nodeAt rest) := by
      rw [nodeAt, (invalidate_spec retain entry paths).2.2,
        find_invalidateAll retain hnamed.keys key paths, Option.bind_assoc]
    have hbelow : (∃ path ∈ paths, path <+: key :: rest) ↔
        ∃ path ∈ below key paths, path <+: rest := by
      refine ⟨fun ⟨path, hmem, hprefix⟩ => ?_, fun ⟨path, hmem, hprefix⟩ =>
        ⟨key :: path, mem_below.mp hmem, cons_prefix_cons.mpr ⟨rfl, hprefix⟩⟩⟩
      cases path with
      | nil => exact absurd hmem hne
      | cons first others =>
        obtain ⟨rfl, hothers⟩ := cons_prefix_cons.mp hprefix
        exact ⟨others, mem_below.mpr hmem, hothers⟩
    have habove : (∃ path ∈ paths, key :: rest <+: path) ↔
        ∃ path ∈ below key paths, rest <+: path := by
      refine ⟨fun ⟨path, hmem, hprefix⟩ => ?_, fun ⟨path, hmem, hprefix⟩ =>
        ⟨key :: path, mem_below.mp hmem, cons_prefix_cons.mpr ⟨rfl, hprefix⟩⟩⟩
      cases path with
      | nil => exact absurd hmem hne
      | cons first others =>
        obtain ⟨rfl, hothers⟩ := cons_prefix_cons.mp hprefix
        exact ⟨others, mem_below.mpr hmem, hothers⟩
    rw [hat, hbelow, habove, nodeAt]
    cases hfind : entry.children.find? fun child => keyOfChild child = key with
    | none => exact ⟨fun _ => rfl, fun _ _ => ⟨[], rfl⟩, fun _ _ => rfl⟩
    | some child =>
      have hchild : NamedOnce child := hnamed.child (mem_of_find?_eq_some hfind)
      rw [Option.bind_some, Option.bind_some]
      by_cases hleaf : [] ∈ below key paths
      · have hdropped : fate retain (below key paths) child = none := if_pos hleaf
        rw [hdropped, Option.bind_none]
        have hgone : ∃ path ∈ below key paths, path <+: rest := ⟨[], hleaf, nil_prefix⟩
        exact ⟨fun _ => rfl, fun hnot => absurd hgone hnot, fun hnot => absurd hgone hnot⟩
      by_cases hempty : below key paths = []
      · have hkept : fate retain (below key paths) child = some child :=
          (if_neg hleaf).trans (if_pos hempty)
        rw [hkept, Option.bind_some, hempty]
        refine ⟨fun ⟨path, hmem, _⟩ => absurd hmem not_mem_nil,
          fun _ ⟨path, hmem, _⟩ => absurd hmem not_mem_nil, fun _ _ => rfl⟩
      · have hgoes : fate retain (below key paths) child =
            some (invalidate retain child (below key paths)) :=
          (if_neg hleaf).trans (if_neg hempty)
        rw [hgoes, Option.bind_some]
        exact ih hchild hempty hleaf

/-! ### Invalidating one by one -/

mutual

theorem invalidate_append {retain : Retain} (hretain : ∀ id, retain (retain id) = retain id) :
    ∀ (entry : CacheTreeEntry) (first second : List Pending),
      invalidate retain (invalidate retain entry first) second =
        invalidate retain entry (first ++ second)
  | ⟨path, nameBytes, entryCount, subtreeCount, id, children⟩, first, second => by
    have hchildren := invalidateAll_append hretain children first second
    rw [invalidate, invalidate, invalidate]
    rw [hchildren, hretain]
    have hcount : subtreeCount -
          ((children.length : ℤ) - (invalidateAll retain children first).length) -
        ((invalidateAll retain children first).length -
          (invalidateAll retain children (first ++ second)).length) =
        subtreeCount - ((children.length : ℤ) -
          (invalidateAll retain children (first ++ second)).length) := by omega
    rw [hcount]

theorem invalidateAll_append {retain : Retain} (hretain : ∀ id, retain (retain id) = retain id) :
    ∀ (children : List CacheTreeEntry) (first second : List Pending),
      invalidateAll retain (invalidateAll retain children first) second =
        invalidateAll retain children (first ++ second)
  | [], _, _ => by rw [invalidateAll, invalidateAll, invalidateAll]
  | child :: rest, first, second => by
    have hrest := invalidateAll_append hretain rest first second
    have hboth : below (keyOfChild child) (first ++ second) =
        below (keyOfChild child) first ++ below (keyOfChild child) second := filterMap_append
    rw [invalidateAll_cons, invalidateAll_cons, hboth, ← hrest]
    obtain ⟨under, hunder⟩ : ∃ under, under = below (keyOfChild child) first := ⟨_, rfl⟩
    obtain ⟨others, hothers⟩ : ∃ others, others = below (keyOfChild child) second := ⟨_, rfl⟩
    rw [← hunder, ← hothers]
    by_cases hleaf : [] ∈ under
    · have hgone : fate retain under child = none := if_pos hleaf
      have hgone' : fate retain (under ++ others) child = none :=
        if_pos (mem_append_left _ hleaf)
      rw [hgone, hgone']
      rfl
    by_cases hempty : under = []
    · have hkept : fate retain under child = some child := (if_neg hleaf).trans (if_pos hempty)
      rw [hkept, hempty, nil_append, Option.toList_some, singleton_append,
        invalidateAll_cons, ← hothers]
    have hgoes : fate retain under child = some (invalidate retain child under) :=
      (if_neg hleaf).trans (if_neg hempty)
    rw [hgoes, Option.toList_some, singleton_append, invalidateAll_cons,
      keyOfChild_invalidate, ← hothers]
    refine congrArg (fun kept => Option.toList kept ++ _) ?_
    by_cases hleaf' : [] ∈ others
    · have hgone : fate retain others (invalidate retain child under) = none := if_pos hleaf'
      have hgone' : fate retain (under ++ others) child = none :=
        if_pos (mem_append_right _ hleaf')
      rw [hgone, hgone']
    have hneither : [] ∉ under ++ others := fun hmem =>
      (mem_append.mp hmem).elim hleaf hleaf'
    have hgoes' : fate retain (under ++ others) child =
        some (invalidate retain child (under ++ others)) :=
      (if_neg hneither).trans (if_neg (append_ne_nil_of_left_ne_nil hempty _))
    rw [hgoes']
    by_cases hempty' : others = []
    · have hkept : fate retain others (invalidate retain child under) =
          some (invalidate retain child under) := (if_neg hleaf').trans (if_pos hempty')
      rw [hkept, hempty', append_nil]
    · have hagain : fate retain others (invalidate retain child under) =
          some (invalidate retain (invalidate retain child under) others) :=
        (if_neg hleaf').trans (if_neg hempty')
      rw [hagain, invalidate_append hretain child under others]

end

mutual

/-- Only the set of the paths counts. -/
theorem invalidate_congr (retain : Retain) : ∀ (entry : CacheTreeEntry) {paths paths' : List Pending},
    (∀ path, path ∈ paths ↔ path ∈ paths') → invalidate retain entry paths =
      invalidate retain entry paths'
  | ⟨path, nameBytes, entryCount, subtreeCount, id, children⟩, paths, paths', h => by
    rw [invalidate, invalidate, invalidateAll_congr retain children h]

theorem invalidateAll_congr (retain : Retain) : ∀ (children : List CacheTreeEntry)
    {paths paths' : List Pending}, (∀ path, path ∈ paths ↔ path ∈ paths') →
      invalidateAll retain children paths = invalidateAll retain children paths'
  | [], _, _, _ => by rw [invalidateAll, invalidateAll]
  | child :: rest, paths, paths', h => by
    have hunder : ∀ path, path ∈ below (keyOfChild child) paths ↔
        path ∈ below (keyOfChild child) paths' := fun path => by
      rw [mem_below, mem_below, h]
    have hempty : below (keyOfChild child) paths = [] ↔ below (keyOfChild child) paths' = [] := by
      rw [eq_nil_iff_forall_not_mem, eq_nil_iff_forall_not_mem]
      exact forall_congr' fun path => not_congr (hunder path)
    have hchild := invalidate_congr retain child hunder
    rw [invalidateAll, invalidateAll, invalidateAll_congr retain rest h]
    rw [hchild]
    simp only [hunder, hempty]

end

theorem keys_invalidateAll (retain : Retain) (children : List CacheTreeEntry)
    (paths : List Pending) :
    ((invalidateAll retain children paths).map keyOfChild).Sublist (children.map keyOfChild) := by
  induction children with
  | nil => rw [invalidateAll]
  | cons child rest ih =>
    rw [invalidateAll_cons, map_append, map_cons]
    cases hfate : fate retain (below (keyOfChild child) paths) child with
    | none => exact ih.cons _
    | some kept =>
      rw [Option.toList_some, map_singleton, keyOfChild_fate hfate, singleton_append]
      exact ih.cons_cons _

mutual

theorem namedOnce_invalidate (retain : Retain) : ∀ (entry : CacheTreeEntry) (paths : List Pending),
    NamedOnce entry → NamedOnce (invalidate retain entry paths)
  | ⟨path, nameBytes, entryCount, subtreeCount, id, children⟩, paths, h => by
    rw [invalidate]
    exact .node ((keys_invalidateAll retain children paths).nodup h.keys)
      (namedOnce_invalidateAll retain children paths fun child hmem => h.child hmem)

theorem namedOnce_invalidateAll (retain : Retain) : ∀ (children : List CacheTreeEntry)
    (paths : List Pending), (∀ child ∈ children, NamedOnce child) →
      ∀ child ∈ invalidateAll retain children paths, NamedOnce child
  | [], _, _ => by
    rw [invalidateAll]
    exact forall_mem_nil _
  | first :: rest, paths, h => by
    have hfirst := h first mem_cons_self
    have hrest := namedOnce_invalidateAll retain rest paths fun child hmem =>
      h child (mem_cons_of_mem _ hmem)
    have hgoes := namedOnce_invalidate retain first (below (keyOfChild first) paths) hfirst
    rw [invalidateAll]
    split
    · exact hrest
    · split
      · exact forall_mem_cons.mpr ⟨hfirst, hrest⟩
      · exact forall_mem_cons.mpr ⟨hgoes, hrest⟩

end

/-- **Paths may be invalidated one by one.** -/
theorem foldl_invalidate (hnamed : NamedOnce root)
    (paths : List IndexPath) : paths.foldl (fun tree path => invalidateCacheTree tree [path]) root =
      invalidateCacheTree root paths := by
  have hidempotent : ∀ id, dropOid (dropOid id) = dropOid id := fun _ => rfl
  have hmore : ∀ (rest : List IndexPath) (done : List Pending),
      rest.foldl (fun tree path => invalidateCacheTree tree [path]) (invalidate dropOid root done) =
        invalidate dropOid root (done ++ rest.map componentKeysOf) := by
    intro rest
    induction rest with
    | nil =>
      intro done
      rw [foldl_nil, map_nil, append_nil]
    | cons path rest ih =>
      intro done
      have hone : invalidateCacheTree (invalidate dropOid root done) [path] =
          invalidate dropOid root (done ++ [componentKeysOf path]) := by
        rw [invalidateCacheTree,
          invalidated_eq (namedOnce_invalidate dropOid root done hnamed) (cons_ne_nil _ _),
          invalidate_append hidempotent]
        rfl
      rw [foldl_cons, hone, ih, map_cons, append_assoc, singleton_append]
  cases paths with
  | nil => rfl
  | cons path rest =>
    rw [foldl_cons, invalidateCacheTree, invalidateCacheTree,
      invalidated_eq hnamed (cons_ne_nil _ _), invalidated_eq hnamed (cons_ne_nil _ _)]
    exact hmore rest [componentKeysOf path]

/-- The order of the paths does not count. -/
theorem invalidateCacheTree_perm (hnamed : NamedOnce root)
    {paths paths' : List IndexPath} (h : paths.Perm paths') :
    invalidateCacheTree root paths = invalidateCacheTree root paths' := by
  by_cases hpaths : paths = []
  · rw [hpaths] at h ⊢
    rw [nil_perm.mp h]
  · have hpaths' : paths' ≠ [] := fun hnil => hpaths (perm_nil.mp (hnil ▸ h))
    rw [invalidateCacheTree, invalidateCacheTree, invalidated_eq hnamed hpaths,
      invalidated_eq hnamed hpaths']
    exact invalidate_congr dropOid root fun path => (h.map componentKeysOf).mem_iff

end Tsgit.CacheTree
