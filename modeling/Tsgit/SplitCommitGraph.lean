import Mathlib

/-!
# Split Commit Graphs

`src/domain/commit/commit-graph-split.ts` and the plan of
`src/application/primitives/write-split-commit-graph.ts`: which layers at the tip of a chain are
folded into the one that is written, what it holds, and where the parents of its commits are found.
A layer is the ids of its commits in the order of its table.
-/

open List

namespace Tsgit.SplitGraph

/-! ### The plan -/

structure Layer (Id : Type) where
  commits : List Id
  isLocal : Bool

variable {Id : Type} [LinearOrder Id]

def Layer.commitCount (layer : Layer Id) : ℕ := layer.commits.length

/-- The commits of a chain, from its base on. -/
def commitsOf (layers : List (Layer Id)) : List Id := layers.flatMap Layer.commits

def positionOf (layer : Layer Id) (id : Id) : Option ℕ :=
  if id ∈ layer.commits then some (layer.commits.idxOf id) else none

/-- The position of `id` in the chain, with `offset` commits below. -/
def locateFrom : ℕ → List (Layer Id) → Id → Option ℕ
  | _, [], _ => none
  | offset, layer :: rest, id =>
    match positionOf layer id with
    | some position => some (offset + position)
    | none => locateFrom (offset + layer.commitCount) rest id

def locate (layers : List (Layer Id)) (id : Id) : Option ℕ := locateFrom 0 layers id

/-- The walk of `mergedLayerCount`, from the tip down. -/
def mergedFrom : List ℕ → ℕ → ℕ
  | [], _ => 0
  | count :: rest, gathered =>
    if count > 2 * gathered then 0 else mergedFrom rest (gathered + count) + 1

def mergedLayerCount (layerCommitCounts : List ℕ) (newCommitCount : ℕ) : ℕ :=
  mergedFrom layerCommitCounts.reverse newCommitCount

def localTipStart (layers : List (Layer Id)) : ℕ :=
  layers.length - (layers.reverse.takeWhile Layer.isLocal).length

structure SplitPlan (Id : Type) where
  base : List (Layer Id)
  folded : List (Layer Id)

def planSplit (layers : List (Layer Id)) (newCommitCount : ℕ) : SplitPlan Id :=
  let counts := (layers.drop (localTipStart layers)).map Layer.commitCount
  let keep := layers.length - mergedLayerCount counts newCommitCount
  ⟨layers.take keep, layers.drop keep⟩

/-- The commits of folded layers whose object is there. -/
def foldedCommits (parents : Id → Option (List Id)) (folded : List (Layer Id)) : List Id :=
  (commitsOf folded).filter fun id => (parents id).isSome

def mergedOrder (ids : List Id) : List Id := ids.dedup.insertionSort (· ≤ ·)

/-- `objectNotFound`. -/
structure ObjectNotFound (Id : Type) where
  id : Id

/-- The positions in the chain of the parents that are not written, one by one. -/
def enterParents (base : List (Layer Id)) (order : List Id) :
    List Id → (Id → Option ℕ) → Except (ObjectNotFound Id) (Id → Option ℕ)
  | [], entries => .ok entries
  | parent :: rest, entries =>
    if parent ∈ order ∨ (entries parent).isSome then enterParents base order rest entries
    else
      match locate base parent with
      | none => .error ⟨parent⟩
      | some position =>
        enterParents base order rest (Function.update entries parent (some position))

def graphBase (parents : Id → Option (List Id)) (base : List (Layer Id)) (order : List Id) :
    Except (ObjectNotFound Id) (Id → Option ℕ) :=
  enterParents base order (order.flatMap fun id => (parents id).getD []) fun _ => none

/-- What a layer is written from. -/
structure FreshLayer (Id : Type) where
  plan : SplitPlan Id
  order : List Id
  basePositions : Id → Option ℕ

def writeFreshLayer (parents : Id → Option (List Id)) (layers : List (Layer Id))
    (fresh : List Id) : Except (ObjectNotFound Id) (FreshLayer Id) :=
  let plan := planSplit layers fresh.length
  let order := mergedOrder (fresh ++ foldedCommits parents plan.folded)
  (graphBase parents plan.base order).map (⟨plan, order, ·⟩)

/-- The chain once the layer is written. -/
def FreshLayer.chain (written : FreshLayer Id) : List (Layer Id) :=
  written.plan.base ++ [⟨written.order, true⟩]

/-! ### Chains -/

/-- A chain of disjoint layers. The parents of a commit are in its layer or below. -/
structure Chain (parents : Id → Option (List Id)) (layers : List (Layer Id)) : Prop where
  nodup : (commitsOf layers).Nodup
  closed : ∀ below layer, below ++ [layer] <+: layers → ∀ id ∈ layer.commits,
    ∃ ids, parents id = some ids ∧ ids ⊆ commitsOf (below ++ [layer])

/-- Commits outside of a chain, with their parents up to it. -/
structure Fresh (parents : Id → Option (List Id)) (layers : List (Layer Id)) (fresh : List Id) :
    Prop where
  ne_nil : fresh ≠ []
  nodup : fresh.Nodup
  outside : ∀ id ∈ fresh, id ∉ commitsOf layers
  closed : ∀ id ∈ fresh, ∃ ids, parents id = some ids ∧ ids ⊆ fresh ++ commitsOf layers

/-- Of two local layers, the one above is less than half the size of the one below. -/
def Halves (below above : Layer Id) : Prop :=
  below.isLocal = true → above.isLocal = true → 2 * above.commitCount < below.commitCount

/-- A local layer that lies on another local one is less than half its size. -/
def Halving (layers : List (Layer Id)) : Prop := layers.IsChain Halves

/-- One write. -/
def Writes (parents : Id → Option (List Id)) (layers layers' : List (Layer Id)) : Prop :=
  ∃ fresh, Fresh parents layers fresh ∧
    ∃ written, writeFreshLayer parents layers fresh = .ok written ∧ layers' = written.chain

section

variable {parents : Id → Option (List Id)} {layers : List (Layer Id)} {fresh : List Id}

omit [LinearOrder Id] in
theorem commitsOf_append (layers layers' : List (Layer Id)) :
    commitsOf (layers ++ layers') = commitsOf layers ++ commitsOf layers' := flatMap_append

omit [LinearOrder Id] in
theorem commitsOf_singleton (layer : Layer Id) : commitsOf [layer] = layer.commits :=
  flatMap_singleton Layer.commits layer

omit [LinearOrder Id] in
theorem length_commitsOf (layers : List (Layer Id)) :
    (commitsOf layers).length = (layers.map Layer.commitCount).sum := length_flatMap

omit [LinearOrder Id] in
theorem Chain.exists_parents (h : Chain parents layers) {id : Id} (hid : id ∈ commitsOf layers) :
    ∃ ids, parents id = some ids ∧ ids ⊆ commitsOf layers := by
  obtain ⟨layer, hlayer, hmem⟩ := mem_flatMap.mp hid
  obtain ⟨below, above, rfl⟩ := append_of_mem hlayer
  have hsplit : below ++ layer :: above = below ++ [layer] ++ above := by
    rw [append_assoc, singleton_append]
  rw [hsplit] at h ⊢
  obtain ⟨ids, hparents, hids⟩ := h.closed below layer ( prefix_append _ _) id hmem
  refine ⟨ids, hparents, fun parent hparent => ?_⟩
  rw [commitsOf_append (below ++ [layer])]
  exact mem_append_left _ (hids hparent)

/-! ### Positions -/

theorem locateFrom_spec {id : Id} {offset : ℕ} : (id ∈ commitsOf layers →
    ∃ k, locateFrom offset layers id = some (offset + k) ∧ (commitsOf layers)[k]? = some id) := by
  induction layers generalizing offset with
  | nil => exact fun hid => absurd hid not_mem_nil
  | cons layer rest ih =>
    intro hid
    rw [locateFrom, positionOf, commitsOf, flatMap_cons]
    by_cases hhere : id ∈ layer.commits
    · rw [if_pos hhere]
      refine ⟨_, rfl, ?_⟩
      rw [getElem?_append_left (idxOf_lt_length_of_mem hhere), getElem?_idxOf hhere]
    rw [if_neg hhere]
    rw [commitsOf, flatMap_cons, mem_append] at hid
    obtain ⟨k, hk, hget⟩ := @ih (offset + layer.commitCount) (hid.resolve_left hhere)
    refine ⟨layer.commitCount + k, hk.trans (by rw [add_assoc]), ?_⟩
    rw [Layer.commitCount, getElem?_append_right (Nat.le_add_right _ _), Nat.add_sub_cancel_left]
    exact hget

theorem locateFrom_append (above : List (Layer Id)) {id : Id} {offset : ℕ}
    (hid : id ∈ commitsOf layers) :
    locateFrom offset (layers ++ above) id = locateFrom offset layers id := by
  induction layers generalizing offset with
  | nil => exact absurd hid not_mem_nil
  | cons layer rest ih =>
    rw [cons_append, locateFrom, locateFrom]
    cases hhere : positionOf layer id with
    | some position => rfl
    | none =>
      refine ih ((mem_append.mp hid).resolve_left fun hmem => ?_)
      rw [positionOf, if_pos hmem] at hhere
      cases hhere

/-- Each parent that is not written is entered with its position. -/
theorem enterParents_spec {base : List (Layer Id)} {order ids : List Id} {entries : Id → Option ℕ}
    (hids : ∀ parent ∈ ids, parent ∈ order ∨ parent ∈ commitsOf base)
    (hentries : ∀ parent, ∀ position ∈ entries parent,
      (commitsOf base)[position]? = some parent) :
    ∃ entered, enterParents base order ids entries = .ok entered ∧
      (∀ parent, ∀ position ∈ entered parent, (commitsOf base)[position]? = some parent) ∧
      (∀ parent, (entries parent).isSome → (entered parent).isSome) ∧
      ∀ parent ∈ ids, parent ∈ order ∨ (entered parent).isSome := by
  induction ids generalizing entries with
  | nil => exact ⟨entries, rfl, hentries, fun _ h => h, forall_mem_nil _⟩
  | cons parent rest ih =>
    obtain ⟨hparent, hrest⟩ := forall_mem_cons.mp hids
    rw [enterParents]
    by_cases hknown : parent ∈ order ∨ (entries parent).isSome
    · rw [if_pos hknown]
      obtain ⟨entered, hrun, hright, hkeeps, hall⟩ := ih hrest hentries
      exact ⟨entered, hrun, hright, hkeeps,
        forall_mem_cons.mpr ⟨hknown.imp id (hkeeps parent), hall⟩⟩
    rw [if_neg hknown]
    obtain ⟨horder, hnew⟩ := not_or.mp hknown
    obtain ⟨k, hlocate, hget⟩ := @locateFrom_spec _ _ base _ 0 (hparent.resolve_left horder)
    rw [zero_add] at hlocate
    rw [locate, hlocate]
    obtain ⟨entered, hrun, hright, hkeeps, hall⟩ :=
      @ih (Function.update entries parent (some k)) hrest fun other position hposition => by
        by_cases heq : other = parent
        · subst heq
          rw [Function.update_self] at hposition
          exact Option.some.inj hposition ▸ hget
        · rw [Function.update_of_ne heq] at hposition
          exact hentries other position hposition
    have hentered : (entered parent).isSome := hkeeps parent (by rw [Function.update_self]; rfl)
    refine ⟨entered, hrun, hright, fun other hother => hkeeps other ?_,
      forall_mem_cons.mpr ⟨.inr hentered, hall⟩⟩
    by_cases heq : other = parent
    · subst heq
      exact absurd hother hnew
    · rwa [Function.update_of_ne heq]

/-- The walk stops at a layer of more than twice what it has gathered. -/
theorem mergedFrom_spec (counts : List ℕ) (gathered : ℕ) :
    mergedFrom counts gathered ≤ counts.length ∧
      ∀ count ∈ counts[mergedFrom counts gathered]?,
        2 * (gathered + (counts.take (mergedFrom counts gathered)).sum) < count := by
  induction counts generalizing gathered with
  | nil => exact ⟨le_rfl, fun count h => by cases h⟩
  | cons first rest ih =>
    rw [mergedFrom]
    split_ifs with hlarge
    · refine ⟨Nat.zero_le _, fun count hcount => ?_⟩
      cases hcount
      exact hlarge
    · obtain ⟨hle, hstop⟩ := ih (gathered + first)
      refine ⟨Nat.succ_le_succ hle, fun count hcount => ?_⟩
      rw [take_succ_cons, sum_cons, ← add_assoc]
      exact hstop count hcount

omit [LinearOrder Id] in
/-- **The plan** folds local layers at the tip, and keeps a local one only if it is large. -/
theorem planSplit_spec (layers : List (Layer Id)) (newCommitCount : ℕ) :
    (planSplit layers newCommitCount).base ++ (planSplit layers newCommitCount).folded = layers ∧
      (∀ layer ∈ (planSplit layers newCommitCount).folded, layer.isLocal = true) ∧
      ∀ below ∈ (planSplit layers newCommitCount).base.getLast?, below.isLocal = true →
        2 * (newCommitCount + (commitsOf (planSplit layers newCommitCount).folded).length) <
          below.commitCount := by
  obtain ⟨tip, htip⟩ : ∃ tip, tip = layers.reverse.takeWhile Layer.isLocal := ⟨_, rfl⟩
  obtain ⟨rest, hrest⟩ : ∃ rest, rest = layers.reverse.dropWhile Layer.isLocal := ⟨_, rfl⟩
  have hreverse : layers.reverse = tip ++ rest := by rw [htip, hrest, takeWhile_append_dropWhile]
  have hlayers : layers = rest.reverse ++ tip.reverse := by
    rw [← reverse_append, ← hreverse, reverse_reverse]
  have hlength : layers.length = rest.length + tip.length := by
    rw [hlayers, length_append, length_reverse, length_reverse]
  have hcounts : (layers.drop (localTipStart layers)).map Layer.commitCount =
      (tip.map Layer.commitCount).reverse := by
    rw [localTipStart, ← htip, hlength, Nat.add_sub_cancel, ← @length_reverse _ rest]
    conv_lhs => rw [hlayers]
    rw [drop_left, map_reverse]
  obtain ⟨hle, hstop⟩ := mergedFrom_spec (tip.map Layer.commitCount) newCommitCount
  rw [planSplit, hcounts, mergedLayerCount, reverse_reverse]
  generalize mergedFrom (tip.map Layer.commitCount) newCommitCount = m at hle hstop ⊢
  rw [length_map] at hle
  have hcut : layers = (tip.drop m ++ rest).reverse ++ (tip.take m).reverse := by
    rw [← reverse_append, ← append_assoc, take_append_drop, ← hreverse, reverse_reverse]
  have hkeep : (tip.drop m ++ rest).reverse.length = layers.length - m := by
    rw [length_reverse, length_append, length_drop, hlength]
    omega
  have hbase : layers.take (layers.length - m) = (tip.drop m ++ rest).reverse := by
    rw [← hkeep]
    conv_lhs => rw [hcut]
    exact take_left
  have hfolded : layers.drop (layers.length - m) = (tip.take m).reverse := by
    rw [← hkeep]
    conv_lhs => rw [hcut]
    exact drop_left
  dsimp only
  rw [hbase, hfolded]
  refine ⟨hcut.symm, fun layer hlayer => ?_, fun below hbelow hlocal => ?_⟩
  · have hmem := mem_of_mem_take (mem_reverse.mp hlayer)
    rw [htip] at hmem
    exact mem_takeWhile_imp hmem
  rw [getLast?_reverse] at hbelow
  have hat : tip[m]? = some below := by
    rw [head?_append, head?_drop] at hbelow
    cases hget : tip[m]? with
    | some layer =>
      rw [hget] at hbelow
      exact hbelow
    | none =>
      rw [hget, Option.none_or, hrest] at hbelow
      have hnot := head?_dropWhile_not Layer.isLocal layers.reverse
      rw [Option.mem_def.mp hbelow] at hnot
      exact absurd hlocal (Bool.eq_false_iff.mp hnot)
  have hcount : (tip.map Layer.commitCount)[m]? = some below.commitCount := by
    rw [getElem?_map, hat]
    rfl
  have hsum : (commitsOf (tip.take m).reverse).length =
      ((tip.map Layer.commitCount).take m).sum := by
    rw [length_commitsOf, map_reverse, sum_reverse, map_take]
  rw [hsum]
  exact hstop _ hcount

/-! ### What is written -/

theorem mergedOrder_perm {ids : List Id} (h : ids.Nodup) : mergedOrder ids ~ ids := by
  rw [mergedOrder, h.dedup]
  exact perm_insertionSort _ _

/-- What a write comes to. -/
structure FreshLayer.Exact (written : FreshLayer Id) (parents : Id → Option (List Id))
    (layers : List (Layer Id)) (fresh : List Id) : Prop where
  split_eq : written.plan.base ++ written.plan.folded = layers
  folded_local : ∀ layer ∈ written.plan.folded, layer.isLocal = true
  nodup : (commitsOf written.chain).Nodup
  mem_iff : ∀ id, id ∈ commitsOf written.chain ↔ id ∈ commitsOf layers ∨ id ∈ fresh
  parents_found : ∀ id ∈ written.order, ∃ ids, parents id = some ids ∧ ∀ parent ∈ ids,
    parent ∈ written.order ∨ ∃ position ∈ written.basePositions parent,
      (commitsOf written.plan.base)[position]? = some parent
  halving : Halving layers → Halving written.chain

omit [LinearOrder Id] in
theorem FreshLayer.commitsOf_chain (written : FreshLayer Id) :
    commitsOf written.chain = commitsOf written.plan.base ++ written.order := by
  rw [FreshLayer.chain, commitsOf_append, commitsOf_singleton]

/-- **A layer is written** from every plan. -/
theorem writeFreshLayer_spec (hchain : Chain parents layers) (hfresh : Fresh parents layers fresh) :
    ∃ written, writeFreshLayer parents layers fresh = .ok written ∧
      written.Exact parents layers fresh := by
  obtain ⟨hsplit, hlocal, hlarge⟩ := planSplit_spec layers fresh.length
  unfold writeFreshLayer
  dsimp only
  generalize planSplit layers fresh.length = plan at hsplit hlocal hlarge ⊢
  have hcommits : commitsOf layers = commitsOf plan.base ++ commitsOf plan.folded := by
    rw [← commitsOf_append, hsplit]
  have hpresent : foldedCommits parents plan.folded = commitsOf plan.folded := by
    refine filter_eq_self.mpr fun id hid => ?_
    have hmem : id ∈ commitsOf layers := by
      rw [hcommits]
      exact mem_append_right _ hid
    obtain ⟨ids, hids, -⟩ := hchain.exists_parents hmem
    rw [hids]
    rfl
  have hnodup := hchain.nodup
  have houtside := hfresh.outside
  rw [hcommits] at hnodup houtside
  obtain ⟨hbase, hfolded, hapart⟩ := nodup_append'.mp hnodup
  have hunordered : (fresh ++ commitsOf plan.folded).Nodup :=
    nodup_append'.mpr ⟨hfresh.nodup, hfolded, fun id hid hold =>
      houtside id hid (mem_append_right _ hold)⟩
  have hperm := mergedOrder_perm hunordered
  rw [hpresent]
  generalize mergedOrder (fresh ++ commitsOf plan.folded) = order at hperm ⊢
  have hmem (id : Id) : id ∈ order ↔ id ∈ fresh ∨ id ∈ commitsOf plan.folded :=
    hperm.mem_iff.trans mem_append
  have hall (id : Id) : id ∈ commitsOf plan.base ++ order ↔ id ∈ commitsOf layers ∨ id ∈ fresh := by
    rw [mem_append, hmem, hcommits, mem_append]
    tauto
  have hparents : ∀ id ∈ order, ∃ ids, parents id = some ids ∧
      ∀ parent ∈ ids, parent ∈ order ∨ parent ∈ commitsOf plan.base := by
    intro id hid
    rcases (hmem id).mp hid with hnew | hold
    · obtain ⟨ids, hids, hsub⟩ := hfresh.closed id hnew
      refine ⟨ids, hids, fun parent hparent => ?_⟩
      exact (mem_append.mp ((hall parent).mpr (mem_append.mp (hsub hparent)).symm)).symm
    have hlayers : id ∈ commitsOf layers := by
      rw [hcommits]
      exact mem_append_right _ hold
    obtain ⟨ids, hids, hsub⟩ := hchain.exists_parents hlayers
    exact ⟨ids, hids, fun parent hparent =>
      (mem_append.mp ((hall parent).mpr (.inl (hsub hparent)))).symm⟩
  obtain ⟨entered, hrun, hright, -, hentered⟩ :=
    @enterParents_spec _ _ plan.base order (order.flatMap fun id => (parents id).getD [])
      (fun _ => none) (fun parent hparent => by
        obtain ⟨id, hid, hparent⟩ := mem_flatMap.mp hparent
        obtain ⟨ids, hids, hfound⟩ := hparents id hid
        rw [hids] at hparent
        exact hfound parent hparent) fun parent position h => by cases h
  refine ⟨⟨plan, order, entered⟩, congrArg (Except.map _) hrun, hsplit, hlocal, ?_, ?_, ?_, ?_⟩
  · rw [FreshLayer.commitsOf_chain]
    refine nodup_append'.mpr ⟨hbase, hperm.nodup_iff.mpr hunordered, fun id hid hwritten => ?_⟩
    exact ((hmem id).mp hwritten).elim
      (fun hnew => houtside id hnew (mem_append_left _ hid)) (hapart hid)
  · intro id
    rw [FreshLayer.commitsOf_chain]
    exact hall id
  · intro id hid
    obtain ⟨ids, hids, -⟩ := hparents id hid
    refine ⟨ids, hids, fun parent hparent => ?_⟩
    have hread : parent ∈ order.flatMap fun id => (parents id).getD [] :=
      mem_flatMap.mpr ⟨id, hid, by rw [hids]; exact hparent⟩
    refine (hentered parent hread).imp (fun h => h) fun hsome => ?_
    obtain ⟨position, hposition⟩ := Option.isSome_iff_exists.mp hsome
    exact ⟨position, hposition, hright parent position hposition⟩
  · intro hhalving
    rw [← hsplit] at hhalving
    refine isChain_append.mpr ⟨(isChain_append.mp hhalving).1, isChain_singleton _, ?_⟩
    intro below hbelow above habove hlow _
    cases habove
    have hcount : order.length = fresh.length + (commitsOf plan.folded).length := by
      rw [hperm.length_eq, length_append]
    change 2 * order.length < _
    rw [hcount]
    exact hlarge below hbelow hlow

omit [LinearOrder Id] in
/-- The chain of a write is one again. -/
theorem FreshLayer.Exact.isChain {written : FreshLayer Id} (h : written.Exact parents layers fresh)
    (hchain : Chain parents layers) : Chain parents written.chain where
  nodup := h.nodup
  closed below layer hprefix id hid := by
    rcases prefix_concat_iff.mp hprefix with heq | hbase
    · rw [heq]
      obtain ⟨rfl, hlayer⟩ := append_inj' heq rfl
      obtain rfl := (List.cons.inj hlayer).1
      obtain ⟨ids, hids, hfound⟩ := h.parents_found id hid
      refine ⟨ids, hids, fun parent hparent => ?_⟩
      rw [commitsOf_append, commitsOf_singleton, mem_append]
      rcases hfound parent hparent with hwritten | ⟨position, -, hget⟩
      · exact .inr hwritten
      · exact .inl (mem_of_getElem? hget)
    · refine hchain.closed below layer (hbase.trans ?_) id hid
      rw [← h.split_eq]
      exact prefix_append _ _

/-- What holds over any number of writes. -/
theorem writes_halving (hchain : Chain parents layers) (hhalving : Halving layers)
    {layers' : List (Layer Id)} (hwrites : Relation.ReflTransGen (Writes parents) layers layers') :
    Chain parents layers' ∧ Halving layers' := by
  induction hwrites with
  | refl => exact ⟨hchain, hhalving⟩
  | tail _ hwrite ih =>
    obtain ⟨fresh, hfresh, written, hwritten, rfl⟩ := hwrite
    obtain ⟨written', hrun, hexact⟩ := writeFreshLayer_spec ih.1 hfresh
    rw [hwritten] at hrun
    cases hrun
    exact ⟨hexact.isChain ih.1, hexact.halving ih.2⟩

/-- **Chains over any number of writes** lose no commit; each is found at its position, with its
parents in the chain, and the commits of layers that are still there keep theirs. -/
theorem writes_located (hchain : Chain parents layers) {layers' : List (Layer Id)}
    (hwrites : Relation.ReflTransGen (Writes parents) layers layers') :
    commitsOf layers ⊆ commitsOf layers' ∧
    (∀ id ∈ commitsOf layers', ∃ k, locate layers' id = some k ∧ (commitsOf layers')[k]? = some id) ∧
    (∀ id ∈ commitsOf layers', ∃ ids, parents id = some ids ∧ ids ⊆ commitsOf layers') ∧
    ∀ base, base <+: layers → base <+: layers' → ∀ id ∈ commitsOf base,
      locate layers' id = locate layers id := by
  have hrun : Chain parents layers' ∧ commitsOf layers ⊆ commitsOf layers' := by
    induction hwrites with
    | refl => exact ⟨hchain, Subset.refl _⟩
    | tail _ hwrite ih =>
      obtain ⟨fresh, hfresh, written, hwritten, rfl⟩ := hwrite
      obtain ⟨written', hrun, hexact⟩ := writeFreshLayer_spec ih.1 hfresh
      rw [hwritten] at hrun
      cases hrun
      exact ⟨hexact.isChain ih.1, fun id hid => (hexact.mem_iff id).mpr (.inl (ih.2 hid))⟩
  obtain ⟨hchain', hkept⟩ := hrun
  refine ⟨hkept, fun id hid => ?_, fun id => hchain'.exists_parents, ?_⟩
  · simpa only [zero_add, locate] using @locateFrom_spec _ _ layers' id 0 hid
  · rintro base ⟨above, rfl⟩ ⟨above', rfl⟩ id hid
    exact (locateFrom_append above' hid).trans (locateFrom_append above hid).symm

/-- A write over a small layer. -/
theorem writes_located_two : ∃ layers',
    Relation.ReflTransGen (Writes fun _ : ℕ => some []) [⟨[4], true⟩] layers' ∧
      ∀ id ∈ commitsOf layers', ∃ k, locate layers' id = some k ∧ (commitsOf layers')[k]? = some id := by
  have hchain : Chain (fun _ : ℕ => some []) [⟨[4], true⟩] :=
    ⟨by decide, fun _ _ _ _ _ => ⟨[], rfl, nil_subset _⟩⟩
  have hfresh : Fresh (fun _ : ℕ => some []) [⟨[4], true⟩] [3] :=
    ⟨cons_ne_nil _ _, nodup_singleton _, by decide, fun _ _ => ⟨[], rfl, nil_subset _⟩⟩
  obtain ⟨written, hwritten, -⟩ := writeFreshLayer_spec hchain hfresh
  have hwrites : Writes (fun _ : ℕ => some []) [⟨[4], true⟩] written.chain :=
    ⟨[3], hfresh, written, hwritten, rfl⟩
  exact ⟨_, .single hwrites, (writes_located hchain (.single hwrites)).2.1⟩

omit [LinearOrder Id] in
/-- Local layers on each other are few. -/
theorem two_pow_length_le {run : List (Layer Id)} (h : Halving run)
    (hlocal : ∀ layer ∈ run, layer.isLocal = true) :
    ∀ first ∈ run.head?, 2 ^ run.length ≤ 2 * (first.commitCount + 1) := by
  induction run with
  | nil => exact fun first hfirst => by cases hfirst
  | cons first rest ih =>
    intro _ hfirst
    cases hfirst
    cases rest with
    | nil =>
      rw [length_singleton, pow_one]
      omega
    | cons second rest =>
      obtain ⟨hhalves, hrest⟩ := isChain_cons_cons.mp h
      obtain ⟨hfirst, hothers⟩ := forall_mem_cons.mp hlocal
      have hle := ih hrest hothers second rfl
      have hlt := hhalves hfirst (hothers second mem_cons_self)
      rw [length_cons, pow_succ]
      omega

/-- **The plan of a split commit graph** is exact, and keeps the local layers that lie on each other
few over any number of writes. -/
theorem writeFreshLayer_exact (hchain : Chain parents layers) :
    (∀ fresh, Fresh parents layers fresh → ∃ written,
      writeFreshLayer parents layers fresh = .ok written ∧ written.Exact parents layers fresh) ∧
    (Halving layers → ∀ layers', Relation.ReflTransGen (Writes parents) layers layers' →
      Halving layers' ∧ ∀ below run above, layers' = below ++ run ++ above →
        (∀ layer ∈ run, layer.isLocal = true) →
          2 ^ run.length ≤ 2 * ((commitsOf layers').length + 1)) := by
  refine ⟨fun fresh hfresh => writeFreshLayer_spec hchain hfresh, fun hhalving layers' hwrites => ?_⟩
  obtain ⟨-, hhalving'⟩ := writes_halving hchain hhalving hwrites
  refine ⟨hhalving', ?_⟩
  rintro below run above rfl hlocal
  have hrun : Halving run := (isChain_append.mp (isChain_append.mp hhalving').1).2.1
  cases run with
  | nil =>
    rw [length_nil, pow_zero]
    omega
  | cons first rest =>
    have hle := two_pow_length_le hrun hlocal first rfl
    have hcount : first.commitCount ≤ (commitsOf (below ++ first :: rest ++ above)).length := by
      rw [length_commitsOf, map_append, map_append, map_cons, sum_append, sum_append, sum_cons]
      omega
    omega

end

/-- The parent of every commit but the root. -/
def rootOf (id : ℕ) : Option (List ℕ) := some (if id = 0 then [] else [0])

/-- A layer that is kept, and one that is folded. -/
def keptAndFolded : List (Layer ℕ) := [⟨[0, 1, 2, 3, 4], true⟩, ⟨[5], true⟩]

theorem writeFreshLayer_exact_two : ∃ written,
    writeFreshLayer rootOf keptAndFolded [6] = .ok written ∧
      written.Exact rootOf keptAndFolded [6] := by
  have hroot : ∀ below layer, below ++ [layer] <+: keptAndFolded →
      0 ∈ commitsOf (below ++ [layer]) := by
    intro below layer hfront
    rw [prefix_iff_eq_take.mp hfront, length_append, length_singleton, keptAndFolded,
      take_succ_cons]
    exact mem_append_left _ mem_cons_self
  refine (writeFreshLayer_exact ⟨by decide, fun below layer hfront id _ => ⟨_, rfl, ?_⟩⟩).1 [6]
    ⟨cons_ne_nil _ _, nodup_singleton _, by decide, fun id hid => ⟨_, rfl, ?_⟩⟩
  · split
    · exact nil_subset _
    · exact forall_mem_singleton.mpr (hroot below layer hfront)
  · rw [mem_singleton.mp hid]
    decide

/-- A foreign layer keeps a local one below it from being folded, however small it is. -/
theorem writeFreshLayer_apart :
    Chain (fun _ : ℕ => some []) [⟨[1], true⟩, ⟨[2], false⟩] ∧
      Fresh (fun _ : ℕ => some []) [⟨[1], true⟩, ⟨[2], false⟩] [3] ∧
      [(⟨[1], true⟩ : Layer ℕ), ⟨[2], false⟩].Pairwise Halves ∧
      ∃ written, writeFreshLayer (fun _ : ℕ => some []) [⟨[1], true⟩, ⟨[2], false⟩] [3] =
        .ok written ∧ ¬ written.chain.Pairwise Halves := by
  refine ⟨⟨by decide, fun _ _ _ _ _ => ⟨[], rfl, nil_subset _⟩⟩, ⟨cons_ne_nil _ _,
    nodup_singleton _, by decide, fun _ _ => ⟨[], rfl, nil_subset _⟩⟩, ?_,
    ⟨⟨[⟨[1], true⟩, ⟨[2], false⟩], []⟩, [3], fun _ => none⟩, rfl, fun h => ?_⟩
  · refine pairwise_cons.mpr ⟨fun above habove _ hlocal => ?_, List.pairwise_singleton _ _⟩
    rw [mem_singleton.mp habove] at hlocal
    cases hlocal
  · have hlt := (pairwise_cons.mp h).1 ⟨[3], true⟩ (by simp) rfl rfl
    exact absurd hlt (by decide)

end Tsgit.SplitGraph
