import Tsgit.BinarySearch
import Tsgit.IndexRoundTrip

/-!
# The Order of an Index and Its Directories

What the comparator of a list of entries is against the bytes of their paths, and the questions
about the entries beneath a directory (`src/domain/git-index/directory-file-conflict.ts`).
-/

namespace Tsgit.IndexFile

open BinarySearch List

/-! ### The comparator -/

section

variable {entries : List IndexEntry}

/-- The comparator that the writer picks for the entries. -/
def entryComparator (entries : List IndexEntry) (a b : IndexEntry) : ℤ :=
  pathComparatorFor (entries.map (·.toIndexPath)) a.toIndexPath b.toIndexPath

/-- What a comparator says of two entries: the order of the bytes of their paths, nothing else. -/
structure ComparesPaths (compare : IndexEntry → IndexEntry → ℤ) (a b : IndexEntry) : Prop where
  neg_iff : compare a b < 0 ↔ pathKey a < pathKey b
  zero_iff : compare a b = 0 ↔ pathKey a = pathKey b
  pos_iff : 0 < compare a b ↔ pathKey b < pathKey a

theorem entryComparator_neg_swap (entries : List IndexEntry) (a b : IndexEntry) :
    entryComparator entries b a < 0 ↔ 0 < entryComparator entries a b := by
  unfold entryComparator pathComparatorFor
  split_ifs
  · unfold compareEntryPath
    by_cases hnone : a.pathBytes = none ∧ b.pathBytes = none
    · rw [if_pos hnone, if_pos hnone.symm, comparePathStrings, comparePathStrings,
        compareUnits_swap (codeUnits a.path)]
      omega
    · rw [if_neg hnone, if_neg fun h => hnone h.symm, compareBytes_swap (pathBytesOf a.toIndexPath)]
      omega
  · unfold compareUtf16Path compareUtf16Strings stringLt
    simp only [decide_eq_true_eq]
    split_ifs with hba hab hab
    · exact absurd hab (lt_asymm hba)
    · exact iff_of_true (by decide) (by decide)
    · exact iff_of_false (by decide) (by decide)
    · exact iff_of_false (by decide) (by decide)

theorem entryComparator_comparesPaths
    (hvalid : ∀ entry ∈ entries, entry.toIndexPath.WellFormed) {a b : IndexEntry}
    (ha : a ∈ entries) (hb : b ∈ entries) : ComparesPaths (entryComparator entries) a b := by
  have hle : ∀ {a b : IndexEntry}, a ∈ entries → b ∈ entries →
      (entryComparator entries a b ≤ 0 ↔ compareBytes (pathKey a) (pathKey b) ≤ 0) := by
    intro a b ha hb
    have hiff := pathLe_iff hvalid ha hb
    rwa [pathLe, decide_eq_true_iff] at hiff
  have hab := hle ha hb
  have hba := hle hb ha
  have hswap := compareBytes_swap (pathKey a) (pathKey b)
  have hneg := entryComparator_neg_swap entries a b
  have hneg' := entryComparator_neg_swap entries b a
  refine ⟨?_, ?_, ?_⟩
  · rw [← compareBytes_neg_iff]
    omega
  · rw [← compareBytes_eq_zero_iff]
    omega
  · rw [← compareBytes_neg_iff, hswap]
    omega

end

/-- **The order of an index** is that of the bytes of the paths, whichever comparator is picked. The
writer sorts by it and keeps the entries of one path in their order. -/
theorem pathComparatorFor_exact {entries : List IndexEntry}
    (hvalid : ∀ entry ∈ entries, entry.toIndexPath.WellFormed) :
    (∀ a ∈ entries, ∀ b ∈ entries, ComparesPaths (entryComparator entries) a b) ∧
      (∀ a b c, entryComparator entries a b ≤ 0 → entryComparator entries b c ≤ 0 →
        entryComparator entries a c ≤ 0) ∧
      (∀ a b, entryComparator entries a b ≤ 0 ∨ entryComparator entries b a ≤ 0) ∧
      (sortEntries entries).Perm entries ∧
      (sortEntries entries).Pairwise (fun a b => compareBytes (pathKey a) (pathKey b) ≤ 0) ∧
      (∀ path, (sortEntries entries).filter (pathKey · = path) =
        entries.filter (pathKey · = path)) ∧
      ((sortEntries entries).Pairwise Before ↔
        entries.Pairwise fun a b => pathKey a = pathKey b → a.flags.stage < b.flags.stage) := by
  obtain ⟨htrans, htotal⟩ := pathComparatorFor_preorder (entries.map (·.toIndexPath))
  refine ⟨fun a ha b hb => entryComparator_comparesPaths hvalid ha hb,
    fun a b c => htrans a.toIndexPath b.toIndexPath c.toIndexPath,
    fun a b => htotal a.toIndexPath b.toIndexPath, sortEntries_perm entries,
    sortEntries_sorted hvalid, sortEntries_filter hvalid, sortEntries_before_iff hvalid⟩

def stagesOf (stages : List ℕ) : List IndexEntry :=
  stages.map fun stage => bareEntry ⟨['a'], none⟩ ⟨false, stage, false, false⟩

theorem stagesOf_wellFormed (stages : List ℕ) :
    ∀ entry ∈ stagesOf stages, entry.toIndexPath.WellFormed := by
  intro entry hmem raw hraw
  obtain ⟨stage, -, rfl⟩ := mem_map.mp hmem
  cases hraw

/-- A path of raw bytes behind a text, and two stages of one path. -/
theorem pathComparatorFor_exact_stages :
    (sortEntries mixedIndex.entries).Pairwise
      (fun a b => compareBytes (pathKey a) (pathKey b) ≤ 0) ∧
    ((sortEntries (stagesOf [1, 2])).Pairwise Before ↔ (stagesOf [1, 2]).Pairwise fun a b =>
        pathKey a = pathKey b → a.flags.stage < b.flags.stage) :=
  ⟨(pathComparatorFor_exact fun entry hmem =>
      (mixedIndex_fits.entries entry hmem).wellFormed).2.2.2.2.1,
    (pathComparatorFor_exact (stagesOf_wellFormed [1, 2])).2.2.2.2.2.2⟩

/-- **Stages are not compared**: the entries of one path are equal to the comparator, and are
written as they were given. -/
theorem comparator_ignores_stages :
    (∀ a ∈ stagesOf [2, 1], ∀ b ∈ stagesOf [2, 1], entryComparator (stagesOf [2, 1]) a b = 0) ∧
    (∃ a ∈ stagesOf [2, 1], ∃ b ∈ stagesOf [2, 1], Before a b) ∧
    ¬ (sortEntries (stagesOf [2, 1])).Pairwise Before := by
  refine ⟨by decide, ?_, fun hsorted => ?_⟩
  · exact ⟨_, mem_cons_of_mem _ mem_cons_self, _, mem_cons_self, .inr ⟨rfl, by decide⟩⟩
  · have hgiven := (sortEntries_before_iff (stagesOf_wellFormed [2, 1])).mp hsorted
    exact absurd ((pairwise_cons.mp hgiven).1 _ mem_cons_self rfl) (by decide)

/-! ### Entries beneath a directory -/

/-- Whether the bytes of a path begin with those of a directory and a slash. -/
def hasBytePrefix (bytes front : Bytes) : Bool :=
  if bytes.length ≤ front.length ∨ bytes[front.length]? ≠ some 0x2f then false
  else front.isPrefixOf bytes

def startsWithText (path directory : Text) : Bool :=
  (codeUnits directory).isPrefixOf (codeUnits path)

def beneathPredicate (path : Text) (entry : IndexEntry) : Bool :=
  match entry.pathBytes with
  | some raw => hasBytePrefix raw (encode path)
  | none => startsWithText entry.path (path ++ ['/'])

/-- The test of the bisection. -/
def isBefore (sorted : List IndexEntry) (probe : IndexPath) (middle : ℕ) : Bool :=
  match sorted[middle]? with
  | none => false
  | some entry => compareEntryPath entry.toIndexPath probe < 0

def lowerBound (fuel : ℕ) (sorted : List IndexEntry) (probe : IndexPath) : Run TsgitError ℕ :=
  partitionPoint (isBefore sorted probe) fuel 0 sorted.length

def firstBeneath (fuel : ℕ) (sorted : List IndexEntry) (path : Text) : Run TsgitError ℕ :=
  lowerBound fuel sorted ⟨path ++ ['/'], none⟩

def entriesBeneath (fuel : ℕ) (sorted : List IndexEntry) (path : Text) :
    Run TsgitError (List IndexEntry) := do
  let first ← firstBeneath fuel sorted path
  return (sorted.drop first).takeWhile (beneathPredicate path)

def hasEntryBeneath (fuel : ℕ) (sorted : List IndexEntry) (path : Text) : Run TsgitError Bool := do
  let first ← firstBeneath fuel sorted path
  return sorted[first]?.any (beneathPredicate path)

def directoryKey (path : Text) : Bytes := encode (path ++ ['/'])

def Beneath (path : Text) (entry : IndexEntry) : Prop := directoryKey path <+: pathKey entry

theorem directoryKey_eq (path : Text) : directoryKey path = encode path ++ [0x2f] := by
  rw [directoryKey, encode, flatMap_append]
  rfl

theorem hasBytePrefix_iff {bytes front : Bytes} :
    hasBytePrefix bytes front = true ↔ front ++ [0x2f] <+: bytes := by
  unfold hasBytePrefix
  constructor
  · intro h
    split_ifs at h with hnot
    rw [not_or, not_not] at hnot
    obtain ⟨rest, rfl⟩ := isPrefixOf_iff_prefix.mp h
    obtain ⟨-, hslash⟩ := hnot
    rw [getElem?_append_right (le_refl _), Nat.sub_self] at hslash
    obtain ⟨slash, tail, rfl⟩ : ∃ slash tail, rest = slash :: tail := by
      cases rest with
      | nil => cases hslash
      | cons slash tail => exact ⟨slash, tail, rfl⟩
    obtain rfl := Option.some.inj hslash
    exact ⟨tail, by rw [append_assoc, singleton_append]⟩
  · rintro ⟨tail, rfl⟩
    have hslash : (front ++ [0x2f] ++ tail)[front.length]? = some 0x2f := by simp
    rw [if_neg (by rw [hslash]; simp), isPrefixOf_iff_prefix]
    exact ⟨[0x2f] ++ tail, by rw [append_assoc]⟩

theorem startsWithText_iff {path directory : Text} :
    startsWithText path directory = true ↔ encode directory <+: encode path := by
  rw [startsWithText, isPrefixOf_iff_prefix, encode, encode,
    ordered_utf8EncodeChar.flatMap_prefix_iff]
  constructor
  · intro h
    have hranks := h.map utf8Rank
    rw [rank_codeUnits, rank_codeUnits] at hranks
    exact ordered_rankUnits.flatMap_prefix_iff.mp hranks
  · rintro ⟨rest, rfl⟩
    rw [codeUnits, codeUnits, flatMap_append]
    exact prefix_append _ _

theorem beneathPredicate_iff {path : Text} {entry : IndexEntry} :
    beneathPredicate path entry = true ↔ Beneath path entry := by
  unfold beneathPredicate Beneath pathKey pathBytesOf
  cases entry.pathBytes with
  | none => exact startsWithText_iff
  | some raw =>
    rw [Option.getD_some, directoryKey_eq]
    exact hasBytePrefix_iff

theorem compareEntryPath_neg_iff {a b : IndexPath} :
    compareEntryPath a b < 0 ↔ pathBytesOf a < pathBytesOf b := by
  unfold compareEntryPath
  by_cases hnone : a.pathBytes = none ∧ b.pathBytes = none
  · rw [if_pos hnone, pathBytesOf, pathBytesOf, hnone.1, hnone.2]
    exact comparePathStrings_neg_iff
  · rw [if_neg hnone, compareBytes_neg_iff]

variable {sorted : List IndexEntry}

theorem isBefore_iff {path : Text} {i : ℕ} (hi : i < sorted.length) :
    isBefore sorted ⟨path ++ ['/'], none⟩ i = true ↔ pathKey sorted[i] < directoryKey path := by
  rw [isBefore, getElem?_eq_getElem hi]
  dsimp only
  rw [decide_eq_true_iff]
  exact compareEntryPath_neg_iff

/-! ### The run of a directory -/

theorem not_lt_of_begins {front bytes : Bytes} (h : front <+: bytes) : ¬ bytes < front := by
  obtain ⟨rest, rfl⟩ := h
  induction front with
  | nil => exact not_lt_nil _
  | cons byte front ih =>
    intro hlt
    rcases cons_lt_cons_iff.mp hlt with hfirst | ⟨-, hrest⟩
    · exact UInt8.lt_irrefl _ hfirst
    · exact ih hrest

/-- What begins with a word stands together: nothing else is between the word and it. -/
theorem begins_of_between {front bytes later : Bytes} (hfront : ¬ bytes < front)
    (hlater : ¬ later < bytes) (h : front <+: later) : front <+: bytes := by
  induction front generalizing bytes later with
  | nil => exact nil_prefix
  | cons byte front ih =>
    obtain ⟨rest, rfl⟩ := h
    rw [cons_append] at hlater
    cases bytes with
    | nil => exact absurd (nil_lt_cons _ _) hfront
    | cons first bytes =>
      rw [cons_lt_cons_iff, not_or, not_and] at hfront hlater
      have hsame : first = byte := UInt8.le_antisymm (UInt8.not_lt.mp hlater.1)
        (UInt8.not_lt.mp hfront.1)
      subst hsame
      rw [cons_prefix_cons]
      exact ⟨rfl, ih (hfront.2 rfl) (hlater.2 rfl) (prefix_append _ _)⟩

def InPathOrder (sorted : List IndexEntry) : Prop :=
  sorted.Pairwise fun a b => compareBytes (pathKey a) (pathKey b) ≤ 0

theorem not_lt_of_nonpos {a b : Bytes} (h : compareBytes a b ≤ 0) : ¬ b < a := by
  rw [← compareBytes_neg_iff, compareBytes_swap]
  omega

theorem exists_run_beneath (hsorted : InPathOrder sorted) (path : Text)
    {first : ℕ} (hbefore : ∀ i (hi : i < sorted.length), i < first →
      pathKey sorted[i] < directoryKey path)
    (hbehind : ∀ i (hi : i < sorted.length), first ≤ i → ¬ pathKey sorted[i] < directoryKey path) :
    (∀ entry ∈ sorted.take first, ¬ Beneath path entry) ∧
      ∀ entry ∈ (sorted.drop first).dropWhile (beneathPredicate path), ¬ Beneath path entry := by
  constructor
  · intro entry hmem hbeneath
    obtain ⟨i, hi, rfl⟩ := getElem_of_mem hmem
    rw [length_take] at hi
    rw [getElem_take] at hbeneath
    exact not_lt_of_begins hbeneath (hbefore i (by omega) (by omega))
  have hdrop : ∀ entry ∈ sorted.drop first, ¬ pathKey entry < directoryKey path := by
    intro entry hmem
    obtain ⟨i, hi, rfl⟩ := getElem_of_mem hmem
    rw [length_drop] at hi
    rw [getElem_drop]
    exact hbehind (first + i) (by omega) (Nat.le_add_right ..)
  have hpairwise := hsorted.sublist (drop_sublist first sorted)
  obtain ⟨rest, hrest⟩ : ∃ rest, sorted.drop first = rest := ⟨_, rfl⟩
  rw [hrest] at hdrop hpairwise ⊢
  clear hrest hbefore hbehind
  induction rest with
  | nil => exact forall_mem_nil _
  | cons head rest ih =>
    obtain ⟨hhead, htail⟩ := pairwise_cons.mp hpairwise
    by_cases hbeneath : beneathPredicate path head = true
    · rw [dropWhile_cons_of_pos hbeneath]
      exact ih htail (forall_mem_cons.mp hdrop).2
    rw [dropWhile_cons_of_neg hbeneath]
    intro entry hmem hentry
    rcases mem_cons.mp hmem with rfl | hmem
    · exact hbeneath (beneathPredicate_iff.mpr hentry)
    · exact hbeneath (beneathPredicate_iff.mpr
        (begins_of_between (hdrop head mem_cons_self)
          (not_lt_of_nonpos (hhead entry hmem)) hentry))

def BeneathFound (sorted : List IndexEntry) (path : Text) : Prop :=
  ∃ before run behind, sorted = before ++ (run ++ behind) ∧
    (∀ entry ∈ run, Beneath path entry) ∧ (∀ entry ∈ before, ¬ Beneath path entry) ∧
    (∀ entry ∈ behind, ¬ Beneath path entry) ∧
    Run.Yields (fun fuel => entriesBeneath fuel sorted path) run ∧
    Run.Yields (fun fuel => hasEntryBeneath fuel sorted path) (!run.isEmpty)

theorem any_head_takeWhile (p : IndexEntry → Bool) (entries : List IndexEntry) :
    entries.head?.any p = !(entries.takeWhile p).isEmpty := by
  cases entries with
  | nil => rfl
  | cons head rest => cases hp : p head <;> simp [hp]

/-- **Up to `2 ^ 31` entries** both questions are answered. -/
theorem entriesBeneath_spec (hsorted : InPathOrder sorted)
    (hlength : sorted.length ≤ 2 ^ 31) (path : Text) : BeneathFound sorted path := by
  have hmono : ∀ i j, 0 ≤ i → i ≤ j → j < sorted.length →
      isBefore sorted ⟨path ++ ['/'], none⟩ j = true →
        isBefore sorted ⟨path ++ ['/'], none⟩ i = true := by
    intro i j _ hij hj hbefore
    rw [isBefore_iff (by omega)]
    rw [isBefore_iff hj] at hbefore
    rcases Nat.eq_or_lt_of_le hij with rfl | hlt
    · exact hbefore
    · have hle := pairwise_iff_getElem.mp hsorted i j (by omega) hj hlt
      exact compareBytes_neg_iff.mp (compareBytes_neg_of_nonpos_of_neg hle
        (compareBytes_neg_iff.mpr hbefore))
  have hfirst : ∃ first, Run.Yields (fun fuel => firstBeneath fuel sorted path) first ∧
      Point (isBefore sorted ⟨path ++ ['/'], none⟩) 0 sorted.length first := by
    obtain ⟨first, hrun, hpoint⟩ := partitionPoint_spec (ε := TsgitError) hmono (Nat.zero_le _)
      hlength (Nat.lt_succ_self (sorted.length - 0))
    exact ⟨first, ⟨_, fun fuel hfuel => Run.loop_mono hfuel hrun⟩, hpoint⟩
  obtain ⟨first, ⟨enough, hyields⟩, hpoint⟩ := hfirst
  dsimp only at hyields
  have hrun := exists_run_beneath hsorted path
    (fun i hi hlt => (isBefore_iff hi).mp (hpoint.before_left i (Nat.zero_le i) hlt))
    fun i hi hle hlt => by
      have hnot := hpoint.not_before_right i hle hi
      rw [(isBefore_iff hi).mpr hlt] at hnot
      cases hnot
  refine ⟨sorted.take first, (sorted.drop first).takeWhile (beneathPredicate path),
    (sorted.drop first).dropWhile (beneathPredicate path), ?_, ?_, hrun.1, hrun.2,
    ⟨enough, fun fuel hfuel => ?_⟩, ⟨enough, fun fuel hfuel => ?_⟩⟩
  · rw [takeWhile_append_dropWhile, take_append_drop]
  · exact fun entry hmem => beneathPredicate_iff.mp
      (all_eq_true.mp all_takeWhile entry hmem)
  · dsimp only
    rw [entriesBeneath, hyields fuel hfuel]
    rfl
  · dsimp only
    rw [hasEntryBeneath, hyields fuel hfuel, ← any_head_takeWhile, head?_drop]
    rfl

/-! ### What the loader takes -/

/-- A turn of the parser adds one entry. -/
theorem parseEntry_outcome (bytes : Bytes) (version digestLength : ℕ)
    (state : ℕ × List IndexEntry) :
    Outcome (fun _ => True) (fun next => next.2.length = state.2.length + 1)
      (parseEntry bytes version digestLength state) := by
  unfold parseEntry
  refine .ite (fun _ => .error trivial) fun _ => ?_
  iterate 10 refine (Outcome.any _).bind fun _ _ => ?_
  refine (Outcome.any _).bind fun _ _ => ?_
  refine (Outcome.any _).bind fun flags _ => ?_
  refine (Outcome.any _).bind fun _ _ => ?_
  refine (Outcome.any _).bind fun path _ => ?_
  refine (Outcome.any _).bind fun _ _ => .pure ?_
  exact length_append

/-- An accepted file holds more bytes than entries. -/
theorem parseIndex_length_le {bytes : Bytes} {digestLength : ℕ} {index : GitIndex}
    (h : parseIndex bytes digestLength = .ok index) : index.entries.length ≤ bytes.length := by
  have hloop : ∀ version count, Outcome (fun _ => True)
      (fun final : ℕ × List IndexEntry => final.2.length = count)
      (forRange count (fun _ => parseEntry bytes version digestLength)
        (indexHeaderSize, [])) := fun version count =>
    forRange_outcome (fun i (state : ℕ × List IndexEntry) => state.2.length = i) rfl
      fun _ _ state hstate => hstate ▸ parseEntry_outcome bytes version digestLength state
  have houtcome : Outcome (fun _ => True)
      (fun index : GitIndex => index.entries.length ≤ bytes.length)
      (parseIndex bytes digestLength) := by
    unfold parseIndex
    refine .ite (fun _ => .error trivial) fun _ => ?_
    refine (Outcome.any _).bind fun _ _ => .ite (fun _ => .error trivial) fun _ => ?_
    refine (Outcome.any _).bind fun version _ => .ite (fun _ => .error trivial) fun _ => ?_
    refine (Outcome.any _).bind fun count _ => .ite (fun _ => .error trivial) fun hcapacity => ?_
    refine (hloop version count).bind fun final hfinal => ?_
    refine (Outcome.any _).bind fun _ _ => .pure ?_
    -- the count was checked against the room that the smallest entries take
    have hroom : count ≤ count * entryHeaderSize digestLength :=
      Nat.le_mul_of_pos_right _ (by unfold entryHeaderSize statFieldsSize; omega)
    dsimp only
    omega
  rw [h] at houtcome
  have hlength := Outcome.ok_iff.mp houtcome
  exact hlength

def maxIndexBytes : ℕ := 256 * 1024 * 1024

def exceedsMaxIndexBytes (size : ℕ) : Bool := maxIndexBytes < size

/-- `readIndexAt` and `loadIndex` behind its cache: the size that the look at the file gave, and
the bytes that were then read of it. -/
def loadIndex (hashHex : Bytes → Text) (statSize : ℕ) (bytes : Bytes) (digestLength : ℕ) :
    Except Thrown GitIndex :=
  if exceedsMaxIndexBytes statSize then invalidIndexHeader "index file exceeds 256 MiB"
  else if exceedsMaxIndexBytes bytes.length then invalidIndexHeader "index file exceeds 256 MiB"
  else if bytes.length < digestLength then
    invalidIndexHeader "file is shorter than the hash trailer"
  else
    let payload := subarray bytes 0 (bytes.length - digestLength)
    let trailer := bytesToHex (subarray bytes (bytes.length - digestLength) bytes.length)
    if hashHex payload ≠ trailer then invalidIndexHeader "index trailer checksum mismatch"
    else parseIndex bytes digestLength

theorem length_le_of_loadIndex {hashHex : Bytes → Text} {statSize digestLength : ℕ} {bytes : Bytes}
    {index : GitIndex} (h : loadIndex hashHex statSize bytes digestLength = .ok index) :
    index.entries.length ≤ 2 ^ 28 := by
  unfold loadIndex at h
  dsimp only at h
  split at h
  · cases h
  split at h
  · cases h
  next hsize =>
  split at h
  · cases h
  split at h
  · cases h
  have hbytes : bytes.length ≤ maxIndexBytes :=
    Nat.not_lt.mp fun hlarge => hsize (decide_eq_true hlarge)
  exact (parseIndex_length_le h).trans hbytes

/-- **The queries beneath a directory are exact** on every list in path order of up to `2 ^ 31`
entries, and on every index that the loader takes. -/
theorem beneath_exact :
    (∀ sorted : List IndexEntry, sorted.length ≤ 2 ^ 31 → InPathOrder sorted →
      ∀ path, BeneathFound sorted path) ∧
    ∀ hashHex statSize bytes digestLength index,
      loadIndex hashHex statSize bytes digestLength = .ok index → InPathOrder index.entries →
        ∀ path, BeneathFound index.entries path := by
  refine ⟨fun sorted hlength hsorted path => entriesBeneath_spec hsorted hlength path, ?_⟩
  intro hashHex statSize bytes digestLength index hload hsorted path
  have hlength := length_le_of_loadIndex hload
  exact entriesBeneath_spec hsorted (by omega) path

/-- `a`, `a-b`, `a/c`, `a/d` and `a0`: the run of `a` stands behind a sibling. -/
theorem beneath_exact_siblings :
    BeneathFound (["a", "a-b", "a/c", "a/d", "a0"].map fun path =>
      bareEntry ⟨path.toList, none⟩ ⟨false, 0, false, false⟩) ['a'] :=
  beneath_exact.1 _ (by decide) (by unfold InPathOrder; decide) _

end Tsgit.IndexFile
