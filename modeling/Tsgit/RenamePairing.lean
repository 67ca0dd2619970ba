import Mathlib.Data.Vector.Basic
import Tsgit.Dict
import Tsgit.EscapedBytes
import Tsgit.TreeDiff

/-!
# Pairing Renames and Copies

The pairing of sources with destinations (`src/domain/diff/rename-pairing.ts`).
-/

namespace Tsgit.RenamePairing

open List hiding Vector
open IndexFile Objects Diff

/-! ### Sources and destinations -/

inductive PairingMode
  | rename
  | copy
  deriving DecidableEq

/-- A file that was added. `ref` is what tells one object from another in a `Set`. -/
structure AddChange where
  ref : ℕ
  newPath : Key
  newId : Text
  newMode : FileMode
  deriving DecidableEq

/-- A source, with the uses it has before any pair. -/
structure RenameSource where
  path : Key
  id : Text
  mode : FileMode
  seedUses : ℕ
  deriving DecidableEq

/-- A pair names its source by the index. -/
structure SourcePair (n : ℕ) where
  source : Fin n
  destination : AddChange
  score : ℚ
  deriving DecidableEq

def maxScore : ℚ := 60000

def exactCandidateCap : ℕ := 100

def perfectCandidateScore : ℤ := 2

/-- Regular files pair across the executable bit. -/
def exactKey (id : Text) (mode : FileMode) : Text :=
  id ++ ' ' :: (if kindOf mode = .file then FileMode.regular else mode).text

/-- The last segment of a path. -/
def basenameOf (filePath : Key) : Key := (filePath.reverse.takeWhile (· ≠ 0x2f)).reverse

def hasSameBasename (oldPath newPath : Key) : Bool := basenameOf oldPath = basenameOf newPath

/-- The result of the exact pass, and its state: the groups are of no use afterwards. -/
structure ExactPairing (n : ℕ) where
  pairs : List (SourcePair n)
  unpaired : List AddChange
  uses : Vector ℕ n

section

variable {n : ℕ}

/-! ### The exact pass -/

def addToGroup (sources : Vector RenameSource n) (mode : PairingMode)
    (byKey : Dict Text (List (Fin n))) (index : Fin n) : Dict Text (List (Fin n)) :=
  let source := sources[index]
  if mode = .rename ∧ source.seedUses > 0 then byKey
  else
    let key := exactKey source.id source.mode
    byKey.insert key ((byKey.get key).getD [] ++ [index])

/-- The indexes of the sources by key, the latest source first. -/
def buildSourceGroups (sources : Vector RenameSource n) (mode : PairingMode) :
    Dict Text (List (Fin n)) :=
  ((List.finRange n).foldl (addToGroup sources mode) Dict.empty).filterMap
    fun _ group => some group.reverse

def candidateScore (source : RenameSource) (destination : AddChange) (useCount : ℕ) : ℤ :=
  (if useCount > 0 then 0 else 1) +
    (if hasSameBasename source.path destination.newPath then 1 else 0)

def scanCandidates (group : List (Fin n)) (sources : Vector RenameSource n) (uses : Vector ℕ n)
    (destination : AddChange) (scanStart : ℕ) : ℕ → Option ℕ → ℤ → Option ℕ
  | 0, bestPosition, _ => bestPosition
  | position + 1, bestPosition, bestScore =>
    if position < scanStart then bestPosition
    else
      match group[position]? with
      | none => bestPosition
      | some sourceIndex =>
        let score := candidateScore sources[sourceIndex] destination uses[sourceIndex]
        if score > bestScore then
          if score = perfectCandidateScore then some position
          else
            scanCandidates group sources uses destination scanStart position (some position) score
        else scanCandidates group sources uses destination scanStart position bestPosition bestScore

/-- The position in the group of the candidate to pair, the tail first. -/
def findBestCandidate (group : List (Fin n)) (sources : Vector RenameSource n) (uses : Vector ℕ n)
    (destination : AddChange) : Option ℕ :=
  scanCandidates group sources uses destination (group.length - exactCandidateCap) group.length
    none (-1)

def countUse (uses : Vector ℕ n) (source : Fin n) : Vector ℕ n :=
  uses.set source (uses[source] + 1)

/-- The turn of the exact pass for one destination. -/
def pairIdentical (sources : Vector RenameSource n) (mode : PairingMode)
    (state : Dict Text (List (Fin n)) × ExactPairing n) (destination : AddChange) :
    Dict Text (List (Fin n)) × ExactPairing n :=
  let (groups, found) := state
  let key := exactKey destination.newId destination.newMode
  let group := (groups.get key).getD []
  match (findBestCandidate group sources found.uses destination).bind
      fun position => group[position]?.map (position, ·) with
  | none => (groups, { found with unpaired := found.unpaired ++ [destination] })
  | some (position, sourceIndex) =>
    (if mode = .rename then groups.insert key (group.eraseIdx position) else groups, { found with
        pairs := found.pairs ++ [⟨sourceIndex, destination, maxScore⟩],
        uses := countUse found.uses sourceIndex })

def seedUsesOf (sources : Vector RenameSource n) : Vector ℕ n := sources.map (·.seedUses)

def pairIdenticalFiles (sources : Vector RenameSource n) (destinations : List AddChange)
    (mode : PairingMode) : ExactPairing n :=
  (destinations.foldl (pairIdentical sources mode)
    (buildSourceGroups sources mode, ⟨[], [], seedUsesOf sources⟩)).2

/-! ### The matrix -/

/-- A candidate of the matrix, with its rank. -/
structure MatrixCandidate (n : ℕ) where
  score : ℚ
  nameScore : ℕ
  source : Fin n
  destination : AddChange
  deriving DecidableEq

structure SelectPairsOptions where
  copies : Bool
  threshold : ℚ

structure SelectPairsResult (n : ℕ) where
  pairs : List (SourcePair n)
  uses : Vector ℕ n

/-- The result of one pass; `paired` holds the destinations by their `ref`. -/
structure SelectionPassResult (n : ℕ) where
  pairs : List (SourcePair n)
  uses : Vector ℕ n
  paired : List ℕ

def selectionTurns (threshold : ℚ) (pass : PairingMode) :
    List (MatrixCandidate n) → SelectionPassResult n → SelectionPassResult n
  | [], found => found
  | candidate :: rest, found =>
    if candidate.score < threshold then found
    else if found.paired.contains candidate.destination.ref then
      selectionTurns threshold pass rest found
    else if pass = .rename ∧ found.uses[candidate.source] > 0 then
      selectionTurns threshold pass rest found
    else
      selectionTurns threshold pass rest
        ⟨found.pairs ++ [⟨candidate.source, candidate.destination, candidate.score⟩],
          countUse found.uses candidate.source, candidate.destination.ref :: found.paired⟩

def runSelectionPass (sorted : List (MatrixCandidate n)) (uses : Vector ℕ n) (paired : List ℕ)
    (threshold : ℚ) (pass : PairingMode) : SelectionPassResult n :=
  selectionTurns threshold pass sorted ⟨[], uses, paired⟩

def selectPairs (sorted : List (MatrixCandidate n)) (uses : Vector ℕ n)
    (options : SelectPairsOptions) : SelectPairsResult n :=
  let renamePass := runSelectionPass sorted uses [] options.threshold .rename
  if ¬ options.copies then ⟨renamePass.pairs, renamePass.uses⟩
  else
    let copyPass :=
      runSelectionPass sorted renamePass.uses renamePass.paired options.threshold .copy
    ⟨renamePass.pairs ++ copyPass.pairs, copyPass.uses⟩

/-! ### Labels -/

structure LabelledPair (n : ℕ) where
  pair : SourcePair n
  kind : PairingMode

def encodePath (path : Key) : Bytes :=
  if hasEscapedBytes path then encodeEscaped path else encodeUnits path

def sortByPath {α : Type} (items : List α) (pathOf : α → Key) : List α :=
  items.mergeSort fun a b => compareBytes (encodePath (pathOf a)) (encodePath (pathOf b)) ≤ 0

def labelTurns : List (SourcePair n) → Vector ℤ n → List (LabelledPair n)
  | [], _ => []
  | candidate :: rest, remaining =>
    let left := remaining[candidate.source] - 1
    ⟨candidate, if left > 0 then .copy else .rename⟩ ::
      labelTurns rest (remaining.set candidate.source left)

def labelRenameCopy (pairs : List (SourcePair n)) (uses : Vector ℕ n) : List (LabelledPair n) :=
  labelTurns (sortByPath pairs (·.destination.newPath)) (uses.map Nat.cast)

/-- The exact pass, and the matrix over what it left. -/
def exactThenMatrix (sources : Vector RenameSource n) (destinations : List AddChange)
    (sorted : List (MatrixCandidate n)) (mode : PairingMode) (threshold : ℚ) :
    SelectPairsResult n :=
  let exact := pairIdenticalFiles sources destinations mode
  let selected := selectPairs sorted exact.uses ⟨mode = .copy, threshold⟩
  ⟨exact.pairs ++ selected.pairs, selected.uses⟩

/-! ### The ledger -/

def pairsOf (pairs : List (SourcePair n)) (source : Fin n) : List (SourcePair n) :=
  pairs.filter (·.source = source)

/-- What every pass keeps of the pairs so far and the uses. -/
structure Ledger (sources : Vector RenameSource n) (mode : PairingMode)
    (pairs : List (SourcePair n)) (uses : Vector ℕ n) : Prop where
  uses_eq : ∀ source : Fin n,
    uses[source] = sources[source].seedUses + (pairsOf pairs source).length
  refs : (pairs.map (·.destination.ref)).Nodup
  once : mode = .rename → (pairs.map (·.source)).Nodup

theorem getElem_countUse (uses : Vector ℕ n) (source other : Fin n) :
    (countUse uses source)[other] = uses[other] + if source = other then 1 else 0 := by
  unfold countUse
  by_cases heq : source = other
  · subst heq
    simp
  · have hval : (source : ℕ) ≠ other := fun h => heq (Fin.ext h)
    simp [heq, Vector.getElem_set_ne _ _ hval]

theorem length_pairsOf_append (pairs : List (SourcePair n)) (pair : SourcePair n)
    (source : Fin n) : (pairsOf (pairs ++ [pair]) source).length =
      (pairsOf pairs source).length + if pair.source = source then 1 else 0 := by
  unfold pairsOf
  rw [filter_append, length_append]
  by_cases heq : pair.source = source <;> simp [heq]

theorem Ledger.start (sources : Vector RenameSource n) (mode : PairingMode) :
    Ledger sources mode [] (seedUsesOf sources) where
  uses_eq source := by simp [seedUsesOf, pairsOf]
  refs := nodup_nil
  once _ := nodup_nil

variable {sources : Vector RenameSource n} {mode : PairingMode} {pairs : List (SourcePair n)}
  {uses : Vector ℕ n}

theorem Ledger.not_mem (h : Ledger sources mode pairs uses) {source : Fin n}
    (hzero : uses[source] = 0) : source ∉ pairs.map (·.source) := by
  intro hmem
  obtain ⟨pair, hpair, hsource⟩ := mem_map.mp hmem
  have hof : pair ∈ pairsOf pairs source :=
    mem_filter.mpr ⟨hpair, decide_eq_true hsource⟩
  have hpos := length_pos_of_mem hof
  have huses := h.uses_eq source
  omega

theorem Ledger.add (h : Ledger sources mode pairs uses) {pair : SourcePair n}
    (hfresh : pair.destination.ref ∉ pairs.map (·.destination.ref))
    (hunused : mode = .rename → uses[pair.source] = 0) :
    Ledger sources mode (pairs ++ [pair]) (countUse uses pair.source) where
  uses_eq source := by
    rw [getElem_countUse, length_pairsOf_append, h.uses_eq source]
    omega
  refs := by
    rw [map_append, map_singleton, ← concat_eq_append]
    exact h.refs.concat hfresh
  once hrename := by
    rw [map_append, map_singleton, ← concat_eq_append]
    exact (h.once hrename).concat (h.not_mem (hunused hrename))

/-! ### The groups -/

def Grouped (sources : Vector RenameSource n) (groups : Dict Text (List (Fin n))) : Prop :=
  ∀ key group, groups.get key = some group →
    group.Nodup ∧ ∀ index ∈ group, exactKey sources[index].id sources[index].mode = key

/-- No source of a group is used. -/
def Unused (uses : Vector ℕ n) (groups : Dict Text (List (Fin n))) : Prop :=
  ∀ key group, groups.get key = some group → ∀ index ∈ group, uses[index] = 0

def GroupedOf (sources : Vector RenameSource n) (mode : PairingMode) (indexes : List (Fin n))
    (groups : Dict Text (List (Fin n))) : Prop :=
  ∀ key group, groups.get key = some group → group.Nodup ∧ ∀ index ∈ group, index ∈ indexes ∧
    exactKey sources[index].id sources[index].mode = key ∧
    (mode = .rename → sources[index].seedUses = 0)

variable {groups : Dict Text (List (Fin n))}

theorem GroupedOf.addToGroup {indexes : List (Fin n)}
    (h : GroupedOf sources mode indexes groups) {index : Fin n} (hnew : index ∉ indexes) :
    GroupedOf sources mode (indexes ++ [index]) (addToGroup sources mode groups index) := by
  have hkeep : GroupedOf sources mode (indexes ++ [index]) groups := by
    intro key group hgroup
    refine ⟨(h key group hgroup).1, fun other hother => ?_⟩
    obtain ⟨hmem, hrest⟩ := (h key group hgroup).2 other hother
    exact ⟨mem_append_left _ hmem, hrest⟩
  unfold RenamePairing.addToGroup
  by_cases hused : mode = .rename ∧ sources[index].seedUses > 0
  · rw [if_pos hused]
    exact hkeep
  rw [if_neg hused]
  intro key group hgroup
  by_cases hkey : key = exactKey sources[index].id sources[index].mode
  · rw [hkey, Dict.get_insert_self, Option.some.injEq] at hgroup
    subst hgroup
    obtain ⟨old, hold⟩ : ∃ old,
        (groups.get (exactKey sources[index].id sources[index].mode)).getD [] = old := ⟨_, rfl⟩
    rw [hold]
    have hspec : old.Nodup ∧ ∀ other ∈ old, other ∈ indexes ∧
        exactKey sources[other].id sources[other].mode = key ∧
        (mode = .rename → sources[other].seedUses = 0) := by
      cases hget : groups.get (exactKey sources[index].id sources[index].mode) with
      | none =>
        rw [hget, Option.getD_none] at hold
        subst hold
        exact ⟨nodup_nil, fun _ hmem => absurd hmem not_mem_nil⟩
      | some group =>
        rw [hget, Option.getD_some] at hold
        subst hold
        rw [hkey]
        exact h _ group hget
    refine ⟨?_, fun other hother => ?_⟩
    · rw [← concat_eq_append]
      exact hspec.1.concat fun hmem => hnew (hspec.2 index hmem).1
    rcases mem_append.mp hother with hmem | hmem
    · obtain ⟨hin, hrest⟩ := hspec.2 other hmem
      exact ⟨mem_append_left _ hin, hrest⟩
    · rw [mem_singleton] at hmem
      subst hmem
      refine ⟨mem_append_right _ (mem_singleton_self _), hkey.symm, fun hrename => ?_⟩
      have hseed : ¬ sources[other].seedUses > 0 := fun hpos => hused ⟨hrename, hpos⟩
      omega
  · rw [Dict.get_insert_of_ne _ _ hkey] at hgroup
    exact hkeep key group hgroup

theorem foldl_addToGroup (sources : Vector RenameSource n) (mode : PairingMode)
    (indexes : List (Fin n)) (hnodup : indexes.Nodup) : GroupedOf sources mode indexes
      (indexes.foldl (addToGroup sources mode) Dict.empty) := by
  induction indexes using List.reverseRecOn with
  | nil => exact fun key group hgroup => by cases hgroup
  | append_singleton indexes index ih =>
    rw [nodup_append] at hnodup
    rw [foldl_append, foldl_cons, foldl_nil]
    exact (ih hnodup.1).addToGroup fun hmem =>
      hnodup.2.2 index hmem index (mem_singleton_self _) rfl

theorem buildSourceGroups_spec (sources : Vector RenameSource n) (mode : PairingMode) :
    Grouped sources (buildSourceGroups sources mode) ∧
      (mode = .rename → Unused (seedUsesOf sources) (buildSourceGroups sources mode)) := by
  have hspec := foldl_addToGroup sources mode (List.finRange n) (nodup_finRange n)
  have hget : ∀ key group, (buildSourceGroups sources mode).get key = some group →
      ∃ built, ((List.finRange n).foldl (addToGroup sources mode) Dict.empty).get key =
        some built ∧ group = built.reverse := by
    intro key group hgroup
    obtain ⟨built, hbuilt, hreverse⟩ := Option.bind_eq_some_iff.mp hgroup
    exact ⟨built, hbuilt, (Option.some.inj hreverse).symm⟩
  constructor
  · intro key group hgroup
    obtain ⟨built, hbuilt, rfl⟩ := hget key group hgroup
    refine ⟨nodup_reverse.mpr (hspec key built hbuilt).1, fun index hindex => ?_⟩
    exact ((hspec key built hbuilt).2 index (mem_reverse.mp hindex)).2.1
  · intro hrename key group hgroup index hindex
    obtain ⟨built, hbuilt, rfl⟩ := hget key group hgroup
    have hseed := ((hspec key built hbuilt).2 index (mem_reverse.mp hindex)).2.2 hrename
    simpa [seedUsesOf] using hseed

/-! ### The exact pass keeps the ledger -/

/-- What holds after the destinations in a list. -/
structure Paired (sources : Vector RenameSource n) (mode : PairingMode) (done : List AddChange)
    (groups : Dict Text (List (Fin n))) (found : ExactPairing n) : Prop where
  ledger : Ledger sources mode found.pairs found.uses
  pairs_done : ∀ pair ∈ found.pairs, pair.destination ∈ done
  unpaired_done : ∀ destination ∈ found.unpaired, destination ∈ done
  apart : ∀ destination ∈ found.unpaired, destination.ref ∉ found.pairs.map (·.destination.ref)
  grouped : Grouped sources groups
  unused : mode = .rename → Unused found.uses groups

theorem Grouped.group (h : Grouped sources groups) (key : Text) :
    ((groups.get key).getD []).Nodup ∧ ∀ index ∈ (groups.get key).getD [],
      exactKey sources[index].id sources[index].mode = key := by
  cases hget : groups.get key with
  | none => exact ⟨nodup_nil, fun _ hmem => absurd hmem not_mem_nil⟩
  | some group => exact h key group hget

theorem Unused.group (h : Unused uses groups) (key : Text) :
    ∀ index ∈ (groups.get key).getD [], uses[index] = 0 := by
  cases hget : groups.get key with
  | none => exact fun _ hmem => absurd hmem not_mem_nil
  | some group => exact h key group hget

theorem Grouped.eraseIdx (h : Grouped sources groups) (key : Text) (position : ℕ) :
    Grouped sources (groups.insert key (((groups.get key).getD []).eraseIdx position)) := by
  intro other group hgroup
  by_cases hkey : other = key
  · subst hkey
    rw [Dict.get_insert_self, Option.some.injEq] at hgroup
    subst hgroup
    have hsub := eraseIdx_sublist ((groups.get other).getD []) position
    exact ⟨(h.group other).1.sublist hsub,
      fun index hindex => (h.group other).2 index (hsub.subset hindex)⟩
  · rw [Dict.get_insert_of_ne _ _ hkey] at hgroup
    exact h other group hgroup

theorem Unused.eraseIdx (h : Unused uses groups)
    (hgrouped : Grouped sources groups) {key : Text} {position : ℕ} {index : Fin n}
    (hindex : ((groups.get key).getD [])[position]? = some index) :
    Unused (countUse uses index)
      (groups.insert key (((groups.get key).getD []).eraseIdx position)) := by
  obtain ⟨hlt, hat⟩ := List.getElem?_eq_some_iff.mp hindex
  have hmem : index ∈ (groups.get key).getD [] := mem_of_getElem? hindex
  intro other group hgroup source hsource
  have hkept : source ≠ index ∧ uses[source] = 0 := by
    by_cases hkey : other = key
    · subst hkey
      rw [Dict.get_insert_self, Option.some.injEq] at hgroup
      subst hgroup
      have hsub := (eraseIdx_sublist _ position).subset hsource
      refine ⟨fun hsame => ?_, h.group other source hsub⟩
      rw [← (hgrouped.group other).1.erase_getElem position hlt, hat, hsame] at hsource
      exact (hgrouped.group other).1.not_mem_erase hsource
    · rw [Dict.get_insert_of_ne _ _ hkey] at hgroup
      refine ⟨fun hsame => hkey ?_, h other group hgroup source hsource⟩
      subst hsame
      exact ((hgrouped other group hgroup).2 source hsource).symm.trans
        ((hgrouped.group key).2 source hmem)
  rw [getElem_countUse, hkept.2, if_neg hkept.1.symm]

/-- **The step of the exact pass.** -/
theorem Paired.step {done : List AddChange}
    {found : ExactPairing n} (h : Paired sources mode done groups found) {destination : AddChange}
    (hnew : destination.ref ∉ done.map (·.ref)) :
    Paired sources mode (done ++ [destination])
      (pairIdentical sources mode (groups, found) destination).1
      (pairIdentical sources mode (groups, found) destination).2 := by
  have hfresh : destination.ref ∉ found.pairs.map (·.destination.ref) := by
    intro hmem
    obtain ⟨pair, hpair, href⟩ := mem_map.mp hmem
    exact hnew (mem_map.mpr ⟨pair.destination, h.pairs_done pair hpair, href⟩)
  unfold pairIdentical
  dsimp only
  obtain ⟨key, hkey⟩ : ∃ key, exactKey destination.newId destination.newMode = key := ⟨_, rfl⟩
  rw [hkey]
  cases hbest : (findBestCandidate ((groups.get key).getD []) sources found.uses destination).bind
      fun position => ((groups.get key).getD [])[position]?.map (position, ·) with
  | none =>
    exact {
      ledger := h.ledger
      pairs_done := fun pair hpair => mem_append_left _ (h.pairs_done pair hpair)
      unpaired_done := fun other hother => by
        rcases mem_append.mp hother with hmem | hmem
        · exact mem_append_left _ (h.unpaired_done other hmem)
        · exact mem_append_right _ hmem
      apart := fun other hother => by
        rcases mem_append.mp hother with hmem | hmem
        · exact h.apart other hmem
        · rwa [mem_singleton.mp hmem]
      grouped := h.grouped
      unused := h.unused }
  | some best =>
    obtain ⟨position, index⟩ := best
    have hindex : ((groups.get key).getD [])[position]? = some index := by
      obtain ⟨tried, -, hmap⟩ := Option.bind_eq_some_iff.mp hbest
      obtain ⟨source, hsource, hpair⟩ := Option.map_eq_some_iff.mp hmap
      simp only [Prod.mk.injEq] at hpair
      rw [← hpair.1, ← hpair.2]
      exact hsource
    have hmem : index ∈ (groups.get key).getD [] := mem_of_getElem? hindex
    exact {
      ledger := h.ledger.add hfresh fun hrename => (h.unused hrename).group key index hmem
      pairs_done := fun pair hpair => by
        rcases mem_append.mp hpair with hold | hold
        · exact mem_append_left _ (h.pairs_done pair hold)
        · rw [mem_singleton.mp hold]
          exact mem_append_right _ (mem_singleton_self _)
      unpaired_done := fun other hother =>
        mem_append_left _ (h.unpaired_done other hother)
      apart := fun other hother => by
        rw [map_append, mem_append]
        rintro (hold | hold)
        · exact h.apart other hother hold
        · rw [map_singleton, mem_singleton] at hold
          exact hnew (hold ▸ mem_map_of_mem (h.unpaired_done other hother))
      grouped := by
        dsimp only
        split_ifs
        · exact h.grouped.eraseIdx key position
        · exact h.grouped
      unused := fun hrename => by
        dsimp only
        rw [if_pos hrename]
        exact (h.unused hrename).eraseIdx h.grouped hindex }

theorem foldl_pairIdentical (sources : Vector RenameSource n) (mode : PairingMode)
    (destinations : List AddChange) (hrefs : (destinations.map (·.ref)).Nodup) :
    Paired sources mode destinations
      (destinations.foldl (pairIdentical sources mode)
        (buildSourceGroups sources mode, ⟨[], [], seedUsesOf sources⟩)).1
      (destinations.foldl (pairIdentical sources mode)
        (buildSourceGroups sources mode, ⟨[], [], seedUsesOf sources⟩)).2 := by
  induction destinations using List.reverseRecOn with
  | nil =>
    exact {
      ledger := Ledger.start sources mode
      pairs_done := fun _ hmem => absurd hmem not_mem_nil
      unpaired_done := fun _ hmem => absurd hmem not_mem_nil
      apart := fun _ hmem => absurd hmem not_mem_nil
      grouped := (buildSourceGroups_spec sources mode).1
      unused := (buildSourceGroups_spec sources mode).2 }
  | append_singleton destinations destination ih =>
    rw [map_append, nodup_append] at hrefs
    rw [foldl_append, foldl_cons, foldl_nil]
    exact (ih hrefs.1).step fun hmem =>
      hrefs.2.2 _ hmem _ (mem_singleton_self _) rfl

theorem pairIdenticalFiles_ledger (sources : Vector RenameSource n) (mode : PairingMode)
    {destinations : List AddChange} (hrefs : (destinations.map (·.ref)).Nodup) :
    Ledger sources mode (pairIdenticalFiles sources destinations mode).pairs
        (pairIdenticalFiles sources destinations mode).uses ∧
      (∀ pair ∈ (pairIdenticalFiles sources destinations mode).pairs,
        pair.destination ∈ destinations) ∧
      ∀ destination ∈ (pairIdenticalFiles sources destinations mode).unpaired,
        destination ∈ destinations ∧ destination.ref ∉
          (pairIdenticalFiles sources destinations mode).pairs.map (·.destination.ref) :=
  have h := foldl_pairIdentical sources mode destinations hrefs
  ⟨h.ledger, h.pairs_done, fun destination hmem =>
    ⟨h.unpaired_done destination hmem, h.apart destination hmem⟩⟩

/-! ### The matrix keeps the ledger -/

/-- What holds between two candidates of a pass, after the pairs from before it. -/
structure Selecting (sources : Vector RenameSource n) (mode : PairingMode) (threshold : ℚ)
    (sorted : List (MatrixCandidate n)) (before : List (SourcePair n)) (claimed : List ℕ)
    (found : SelectionPassResult n) : Prop where
  ledger : Ledger sources mode (before ++ found.pairs) found.uses
  paired : ∀ ref ∈ (before ++ found.pairs).map (·.destination.ref),
    ref ∈ claimed ∨ ref ∈ found.paired
  above : ∀ pair ∈ found.pairs, threshold ≤ pair.score ∧ ∃ candidate ∈ sorted,
    candidate.source = pair.source ∧ candidate.destination = pair.destination ∧
      candidate.score = pair.score

variable {sorted : List (MatrixCandidate n)} {before : List (SourcePair n)}

theorem Selecting.add {threshold : ℚ} {claimed : List ℕ} {found : SelectionPassResult n}
    (h : Selecting sources mode threshold sorted before claimed found)
    {candidate : MatrixCandidate n} (hmem : candidate ∈ sorted)
    (hclaimed : candidate.destination.ref ∉ claimed)
    (hscore : ¬ candidate.score < threshold)
    (hpaired : candidate.destination.ref ∉ found.paired)
    (hunused : mode = .rename → found.uses[candidate.source] = 0) :
    Selecting sources mode threshold sorted before claimed
      ⟨found.pairs ++ [⟨candidate.source, candidate.destination, candidate.score⟩],
        countUse found.uses candidate.source, candidate.destination.ref :: found.paired⟩ where
  ledger := by
    have hfresh : candidate.destination.ref ∉
        (before ++ found.pairs).map (·.destination.ref) := fun hold =>
      (h.paired _ hold).elim hclaimed hpaired
    have hadd : Ledger sources mode
        ((before ++ found.pairs) ++ [⟨candidate.source, candidate.destination, candidate.score⟩])
        (countUse found.uses candidate.source) := h.ledger.add hfresh hunused
    rwa [append_assoc] at hadd
  paired ref href := by
    rw [← append_assoc, map_append, mem_append] at href
    rcases href with hold | hold
    · exact (h.paired ref hold).imp_right (mem_cons_of_mem _)
    · rw [map_singleton, mem_singleton] at hold
      exact .inr (hold ▸ mem_cons_self)
  above pair hpair := by
    rcases mem_append.mp hpair with hold | hold
    · exact h.above pair hold
    · rw [mem_singleton.mp hold]
      exact ⟨not_lt.mp hscore, candidate, hmem, rfl, rfl, rfl⟩

theorem selectionTurns_spec {threshold : ℚ} {pass : PairingMode}
    (hpass : mode = .rename → pass = .rename) {claimed : List ℕ}
    (hclaimed : ∀ candidate ∈ sorted, candidate.destination.ref ∉ claimed)
    (candidates : List (MatrixCandidate n)) (hsub : ∀ candidate ∈ candidates, candidate ∈ sorted)
    {found : SelectionPassResult n}
    (h : Selecting sources mode threshold sorted before claimed found) :
    Selecting sources mode threshold sorted before claimed
      (selectionTurns threshold pass candidates found) := by
  induction candidates generalizing found with
  | nil => exact h
  | cons candidate rest ih =>
    have hrest : ∀ other ∈ rest, other ∈ sorted := fun other hother =>
      hsub other (mem_cons_of_mem _ hother)
    have hmem := hsub candidate mem_cons_self
    rw [selectionTurns]
    by_cases hscore : candidate.score < threshold
    · rw [if_pos hscore]
      exact h
    rw [if_neg hscore]
    by_cases hpaired : found.paired.contains candidate.destination.ref = true
    · rw [if_pos hpaired]
      exact ih hrest h
    rw [if_neg hpaired]
    by_cases hused : pass = .rename ∧ found.uses[candidate.source] > 0
    · rw [if_pos hused]
      exact ih hrest h
    rw [if_neg hused]
    refine ih hrest (h.add hmem (hclaimed candidate hmem) hscore
      (fun hin => hpaired (contains_iff_mem.mpr hin)) fun hrename => ?_)
    have hzero : ¬ found.uses[candidate.source] > 0 := fun hpos => hused ⟨hpass hrename, hpos⟩
    omega

theorem selectPairs_ledger
    (threshold : ℚ) (h : Ledger sources mode before uses)
    (hsorted : ∀ candidate ∈ sorted, candidate.destination.ref ∉ before.map (·.destination.ref)) :
    Ledger sources mode
        (before ++ (selectPairs sorted uses ⟨mode = .copy, threshold⟩).pairs)
        (selectPairs sorted uses ⟨mode = .copy, threshold⟩).uses ∧
      ∀ pair ∈ (selectPairs sorted uses ⟨mode = .copy, threshold⟩).pairs,
        threshold ≤ pair.score ∧ ∃ candidate ∈ sorted, candidate.source = pair.source ∧
          candidate.destination = pair.destination ∧ candidate.score = pair.score := by
  have hrename : Selecting sources mode threshold sorted before
      (before.map (·.destination.ref)) (runSelectionPass sorted uses [] threshold .rename) := by
    refine selectionTurns_spec (fun _ => rfl) hsorted sorted (fun _ hmem => hmem) ?_
    exact {
      ledger := by rwa [append_nil]
      paired := fun ref href => by rw [append_nil] at href; exact .inl href
      above := fun _ hmem => absurd hmem not_mem_nil }
  obtain ⟨first, hfirst⟩ : ∃ first, runSelectionPass sorted uses [] threshold .rename = first :=
    ⟨_, rfl⟩
  rw [hfirst] at hrename
  unfold selectPairs
  dsimp only
  rw [hfirst]
  by_cases hmode : mode = .copy
  · have hcopy : Selecting sources mode threshold sorted (before ++ first.pairs)
        (before.map (·.destination.ref))
        (runSelectionPass sorted first.uses first.paired threshold .copy) := by
      refine selectionTurns_spec (fun hr => absurd (hmode.symm.trans hr) (by decide)) hsorted
        sorted (fun _ hmem => hmem) ?_
      exact {
        ledger := by rw [append_nil]; exact hrename.ledger
        paired := fun ref href => by rw [append_nil] at href; exact hrename.paired ref href
        above := fun _ hmem => absurd hmem not_mem_nil }
    rw [if_neg (by simp [hmode])]
    refine ⟨append_assoc .. ▸ hcopy.ledger, fun pair hpair => ?_⟩
    exact (mem_append.mp hpair).elim (hrename.above pair) (hcopy.above pair)
  · rw [if_pos (by simp [hmode])]
    exact ⟨hrename.ledger, hrename.above⟩

/-! ### The countdown -/

/-- The kinds that a counter gives, by its value and the pairs that come. -/
def countdown (remaining : ℤ) : ℕ → List PairingMode
  | 0 => []
  | count + 1 => (if remaining - 1 > 0 then .copy else .rename) :: countdown (remaining - 1) count

/-- **One source's labels**: what its counter gives for as many pairs as it has. -/
theorem kinds_labelTurns (sorted : List (SourcePair n)) (remaining : Vector ℤ n) (source : Fin n) :
    ((labelTurns sorted remaining).filter (·.pair.source = source)).map (·.kind) =
      countdown remaining[source] (pairsOf sorted source).length := by
  induction sorted generalizing remaining with
  | nil => rfl
  | cons candidate rest ih =>
    rw [labelTurns]
    by_cases hsource : candidate.source = source
    · subst hsource
      have hpairs : pairsOf (candidate :: rest) candidate.source =
          candidate :: pairsOf rest candidate.source := by simp [pairsOf]
      rw [filter_cons_of_pos (by simp), map_cons, ih, hpairs, length_cons, countdown]
      simp
    · have hval : (candidate.source : ℕ) ≠ source := fun h => hsource (Fin.ext h)
      have hpairs : pairsOf (candidate :: rest) source = pairsOf rest source := by
        simp [pairsOf, hsource]
      rw [filter_cons_of_neg (by simpa using hsource), ih, hpairs]
      simp [Vector.getElem_set_ne _ _ hval]

theorem pairs_labelTurns (sorted : List (SourcePair n)) (remaining : Vector ℤ n) :
    (labelTurns sorted remaining).map (·.pair) = sorted := by
  induction sorted generalizing remaining with
  | nil => rfl
  | cons candidate rest ih => rw [labelTurns, map_cons, ih]

theorem countdown_exact (count : ℕ) :
    countdown (count + 1 : ℕ) (count + 1) = List.replicate count .copy ++ [.rename] := by
  induction count with
  | zero => rfl
  | succ count ih =>
    have hleft : ((count + 1 + 1 : ℕ) : ℤ) - 1 = (count + 1 : ℕ) := by omega
    rw [countdown, hleft, if_pos (by omega), ih]
    rfl

/-- A counter that has more never reaches 0. -/
theorem countdown_above {remaining : ℤ} (count : ℕ) (h : (count : ℤ) < remaining) :
    countdown remaining count = List.replicate count .copy := by
  induction count generalizing remaining with
  | zero => rfl
  | succ count ih =>
    rw [countdown, if_pos (by omega), ih (by omega)]
    rfl

theorem sortByPath_perm {α : Type} (items : List α) (pathOf : α → Key) :
    (sortByPath items pathOf).Perm items := mergeSort_perm items _

theorem sortByPath_sorted {α : Type} (items : List α) (pathOf : α → Key) :
    (sortByPath items pathOf).Pairwise fun a b =>
      compareBytes (encodePath (pathOf a)) (encodePath (pathOf b)) ≤ 0 := by
  refine (pairwise_mergeSort ?_ ?_ items).imp fun {a b} h => of_decide_eq_true h
  · intro a b c hab hbc
    exact decide_eq_true (compareBytes_nonpos_trans (of_decide_eq_true hab) (of_decide_eq_true hbc))
  · intro a b
    rw [Bool.or_eq_true, decide_eq_true_eq, decide_eq_true_eq]
    have hswap := compareBytes_swap (encodePath (pathOf a)) (encodePath (pathOf b))
    omega

def byDestinationPath (a b : LabelledPair n) : Prop :=
  compareBytes (encodePath a.pair.destination.newPath) (encodePath b.pair.destination.newPath) ≤ 0

def labelsOf (labels : List (LabelledPair n)) (source : Fin n) : List (LabelledPair n) :=
  labels.filter (·.pair.source = source)

/-- What the labels say of the pairs, by the uses that the sources have before them. -/
structure Labelled (sources : Vector RenameSource n) (pairs : List (SourcePair n))
    (labels : List (LabelledPair n)) : Prop where
  perm : (labels.map (·.pair)).Perm pairs
  sorted : labels.Pairwise byDestinationPath
  fresh : ∀ source : Fin n, sources[source].seedUses = 0 → labelsOf labels source ≠ [] →
    ∃ earlier last, labelsOf labels source = earlier ++ [last] ∧ last.kind = .rename ∧
      ∀ label ∈ earlier, label.kind = .copy ∧ byDestinationPath label last
  spent : ∀ source : Fin n, 0 < sources[source].seedUses →
    ∀ label ∈ labelsOf labels source, label.kind = .copy

theorem Ledger.labelled (h : Ledger sources mode pairs uses) :
    Labelled sources pairs (labelRenameCopy pairs uses) := by
  have hpairs := pairs_labelTurns (sortByPath pairs (·.destination.newPath)) (uses.map Nat.cast)
  have hsorted : (labelRenameCopy pairs uses).Pairwise byDestinationPath := by
    have hpaths := sortByPath_sorted pairs (·.destination.newPath)
    rw [← hpairs, pairwise_map] at hpaths
    exact hpaths
  have hkinds : ∀ source : Fin n, (labelsOf (labelRenameCopy pairs uses) source).map (·.kind) =
      countdown (sources[source].seedUses + (pairsOf pairs source).length : ℕ)
        (pairsOf pairs source).length := by
    intro source
    have hlength : (pairsOf (sortByPath pairs (·.destination.newPath)) source).length =
        (pairsOf pairs source).length :=
      ((sortByPath_perm pairs (·.destination.newPath)).filter _).length_eq
    have hturns := kinds_labelTurns (sortByPath pairs (·.destination.newPath))
      (uses.map Nat.cast) source
    rw [hlength] at hturns
    rw [← h.uses_eq source]
    simpa [labelsOf, labelRenameCopy] using hturns
  exact {
    perm := (congrArg (List.Perm · pairs) hpairs).mpr (sortByPath_perm pairs _)
    sorted := hsorted
    fresh := fun source hseed hne => by
      obtain ⟨earlier, last, hlast⟩ := eq_nil_or_concat _ |>.resolve_left hne
      rw [concat_eq_append] at hlast
      have hof := hkinds source
      rw [hseed, Nat.zero_add, hlast, map_append, map_singleton] at hof
      obtain ⟨count, hcount⟩ : ∃ count, (pairsOf pairs source).length = count + 1 := by
        cases hc : (pairsOf pairs source).length with
        | zero =>
          rw [hc, countdown] at hof
          exact absurd hof (by simp)
        | succ count => exact ⟨count, rfl⟩
      rw [hcount, countdown_exact] at hof
      obtain ⟨hearlier, hkind⟩ := append_inj' hof rfl
      have hpairwise := hsorted.sublist (filter_sublist (p := (·.pair.source = source)))
      rw [← labelsOf, hlast, pairwise_append] at hpairwise
      refine ⟨earlier, last, hlast, singleton_inj.mp hkind, fun label hlabel => ⟨?_, ?_⟩⟩
      · have hmem := mem_map_of_mem (f := LabelledPair.kind) hlabel
        rw [hearlier] at hmem
        exact (mem_replicate.mp hmem).2
      · exact hpairwise.2.2 label hlabel last (mem_singleton_self _)
    spent := fun source hseed label hlabel => by
      have hmem := mem_map_of_mem (f := LabelledPair.kind) hlabel
      rw [hkinds source, countdown_above _ (by omega)] at hmem
      exact (mem_replicate.mp hmem).2 }

/-- What the pairs of both passes are, and their labels. -/
structure PairsAndLabels (sources : Vector RenameSource n) (destinations : List AddChange)
    (sorted : List (MatrixCandidate n)) (mode : PairingMode) (threshold : ℚ) : Prop where
  /-- A destination is in one pair at most. -/
  destinations_once :
    ((exactThenMatrix sources destinations sorted mode threshold).pairs.map
      (·.destination.ref)).Nodup
  /-- Without copies a source is in one pair at most. -/
  sources_once : mode = .rename →
    ((exactThenMatrix sources destinations sorted mode threshold).pairs.map (·.source)).Nodup
  /-- The uses are those of the seed and the pairs. -/
  uses_eq : ∀ source : Fin n,
    (exactThenMatrix sources destinations sorted mode threshold).uses[source] =
      sources[source].seedUses +
        (pairsOf (exactThenMatrix sources destinations sorted mode threshold).pairs source).length
  /-- A pair is one of the exact pass, or a candidate that reaches the threshold. -/
  above : ∀ pair ∈ (exactThenMatrix sources destinations sorted mode threshold).pairs,
    pair ∈ (pairIdenticalFiles sources destinations mode).pairs ∨
      threshold ≤ pair.score ∧ ∃ candidate ∈ sorted, candidate.source = pair.source ∧
        candidate.destination = pair.destination ∧ candidate.score = pair.score
  labelled : Labelled sources (exactThenMatrix sources destinations sorted mode threshold).pairs
    (labelRenameCopy (exactThenMatrix sources destinations sorted mode threshold).pairs
      (exactThenMatrix sources destinations sorted mode threshold).uses)

end

/-- **The exact pass, the matrix and the labels**, for candidates of the destinations that the
exact pass left. -/
theorem exactThenMatrix_paired {n : ℕ} (sources : Vector RenameSource n)
    (destinations : List AddChange) (sorted : List (MatrixCandidate n)) (mode : PairingMode)
    (threshold : ℚ) (hrefs : (destinations.map (·.ref)).Nodup)
    (hsorted : ∀ candidate ∈ sorted,
      candidate.destination ∈ (pairIdenticalFiles sources destinations mode).unpaired) :
    PairsAndLabels sources destinations sorted mode threshold := by
  obtain ⟨hexact, -, hunpaired⟩ := pairIdenticalFiles_ledger sources mode hrefs
  obtain ⟨hledger, habove⟩ := selectPairs_ledger threshold hexact fun candidate hmem =>
    (hunpaired _ (hsorted candidate hmem)).2
  exact {
    destinations_once := hledger.refs
    sources_once := hledger.once
    uses_eq := hledger.uses_eq
    above := fun pair hpair => (mem_append.mp hpair).imp_right (habove pair)
    labelled := hledger.labelled }

/-! ### A sample -/

/-- A file that is still there, and one that was deleted. -/
def sampleSources : Vector RenameSource 2 :=
  #v[⟨[0x61], ['1'], .regular, 1⟩, ⟨[0x62], ['2'], .regular, 0⟩]

def sampleDestinations : List AddChange :=
  [⟨0, [0x63], ['1'], .executable⟩, ⟨1, [0x64], ['3'], .regular⟩]

def sampleCandidates : List (MatrixCandidate 2) :=
  [⟨40000, 0, Fin.last 1, ⟨1, [0x64], ['3'], .regular⟩⟩]

theorem exactThenMatrix_paired_sample :
    PairsAndLabels sampleSources sampleDestinations sampleCandidates .copy 30000 :=
  exactThenMatrix_paired sampleSources sampleDestinations sampleCandidates .copy 30000
    (by decide) (by decide +kernel)

end Tsgit.RenamePairing
