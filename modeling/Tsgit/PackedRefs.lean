import Tsgit.CommitRoundTrip
import Tsgit.IndexOrder
import Tsgit.RefName
import Tsgit.SortedWalk

/-!
# The File of Packed Refs

The reader and the writer of `packed-refs` (`src/domain/refs/packed-refs.ts`), and its rewrite
without some names. Both order names as the platform does, by code units.
-/

namespace Tsgit.Packed

open List SortedWalk

inductive Peeling where
  | none
  | tags
  | fully
  deriving DecidableEq

structure PackedRefEntry where
  name : Text
  id : Text
  peeled : Option Text
  deriving DecidableEq

structure PackedRefs where
  entries : List PackedRefEntry
  peeling : Peeling
  sorted : Bool
  deriving DecidableEq

def invalidPackedRefs {α : Type} (reason : String) : Except Thrown α :=
  .error (.refusal (.invalidPackedRefs reason))

def headerPrefix : Text :=
  ['#', ' ', 'p', 'a', 'c', 'k', '-', 'r', 'e', 'f', 's', ' ', 'w', 'i', 't', 'h', ':']

def peeledTrait : Text := ['p', 'e', 'e', 'l', 'e', 'd']
def fullyPeeledTrait : Text := ['f', 'u', 'l', 'l', 'y', '-', 'p', 'e', 'e', 'l', 'e', 'd']
def sortedTrait : Text := ['s', 'o', 'r', 't', 'e', 'd']

/-! ### The reader -/

structure Header where
  peeling : Peeling
  sorted : Bool
  startIndex : ℕ
  deriving DecidableEq

def traitsOf (firstLine : Text) : List Text :=
  let traitStr := trim (firstLine.drop headerPrefix.length)
  if traitStr = [] then [] else splitWhitespace traitStr

def parseHeader (lines : List Text) : Header :=
  let firstLine := lines.headD []
  if headerPrefix.isPrefixOf firstLine then
    let traits := traitsOf firstLine
    let peeling := if fullyPeeledTrait ∈ traits then Peeling.fully
      else if peeledTrait ∈ traits then .tags else .none
    ⟨peeling, decide (sortedTrait ∈ traits), 1⟩
  else ⟨.none, false, 0⟩

/-- One turn of the loop of `parseEntries`. -/
def parseLine (entries : List PackedRefEntry) (line : Text) : Except Thrown (List PackedRefEntry) :=
  if line = [] ∨ line.head? = some '#' then .ok entries
  else if line.head? = some '^' then
    match entries.getLast? with
    | none => invalidPackedRefs "peel line without preceding ref entry"
    | some last => do
      let peeled ← objectIdFrom (line.drop 1)
      pure (entries.dropLast ++ [{ last with peeled := some peeled }])
  else
    match line.findIdx? (· = ' ') with
    | none => invalidPackedRefs s!"invalid ref line format: {String.ofList (sliceUnits 80 line)}"
    | some spaceIdx => do
      let sha := line.take spaceIdx
      let name := line.drop (spaceIdx + 1)
      let safe ← isSafeRefName name
      if safe then
        let id ← objectIdFrom sha
        let refName ← refNameFrom name
        pure (entries ++ [⟨refName, id, none⟩])
      else
        invalidPackedRefs s!"packed refname is dangerous: {String.ofList (sliceUnits 80 name)}"

def parseEntries (lines : List Text) (startIndex : ℕ) : Except Thrown (List PackedRefEntry) :=
  (lines.drop startIndex).foldlM parseLine []

def parsePackedRefs (content : Text) : Except Thrown PackedRefs :=
  if content = [] then .ok ⟨[], .none, false⟩
  else do
    let lines := content.splitOn '\n'
    let header := parseHeader lines
    let entries ← parseEntries lines header.startIndex
    pure ⟨entries, header.peeling, header.sorted⟩

/-! ### The writer -/

def refLine (entry : PackedRefEntry) : Text := entry.id ++ ' ' :: entry.name

def renderEntries (entries : List PackedRefEntry) : List Text :=
  entries.flatMap fun entry => refLine entry :: (entry.peeled.map ('^' :: ·)).toList

def traitWords (refs : PackedRefs) : List Text :=
  (if refs.peeling = .tags ∨ refs.peeling = .fully then [peeledTrait] else []) ++
    (if refs.peeling = .fully then [fullyPeeledTrait] else []) ++
    if refs.sorted then [sortedTrait] else []

def buildHeaderLine (refs : PackedRefs) : Text :=
  let traits := traitWords refs
  if traits.length > 0 then headerPrefix ++ ' ' :: ([' '].intercalate traits ++ [' '])
  else headerPrefix

def compareNames (a b : PackedRefEntry) : ℤ :=
  if stringLt a.name b.name then -1 else if stringLt b.name a.name then 1 else 0

def serializePackedRefs (refs : PackedRefs) : Text :=
  if refs.entries = [] then []
  else
    let sorted := refs.entries.mergeSort fun a b => compareNames a b ≤ 0
    joinLines (buildHeaderLine refs :: renderEntries sorted) ++ ['\n']

structure PackedRefsRewrite where
  entries : List PackedRefEntry
  content : Text
  deriving DecidableEq

def keptFrom : List Text → List PackedRefEntry → List PackedRefEntry
  | _, [] => []
  | dropping, entry :: rest =>
    let left := dropping.dropWhile (stringLt · entry.name)
    if left.head? = some entry.name then keptFrom left.tail rest
    else entry :: keptFrom left rest

def sortNames (names : List Text) : List Text := names.mergeSort fun a b => ! stringLt b a

/-- The names are the members of a set, in the order of their insertion. -/
def keptAfterDrops (entries : List PackedRefEntry) (names : List Text) : List PackedRefEntry :=
  keptFrom (sortNames names) entries

def packedRefsWithout (entries : List PackedRefEntry) (names : List Text) : PackedRefsRewrite :=
  let kept := keptAfterDrops entries names
  let header := buildHeaderLine ⟨[], .fully, true⟩
  ⟨kept, joinLines (header :: renderEntries kept) ++ ['\n']⟩

/-! ### What is written is read -/

/-- A record that the reader takes: a safe name and ids. -/
structure PackedRefEntry.Valid (entry : PackedRefEntry) : Prop where
  name : isSafeRefName entry.name = .ok true
  id : IsObjectId entry.id
  peeled : ∀ peeled, entry.peeled = some peeled → IsObjectId peeled

section

variable {entries : List PackedRefEntry} {entry : PackedRefEntry}

theorem not_mem_objectId {id : Text} (h : IsObjectId id) {c : Char} (hc : isHexDigit c = false) :
    c ∉ id := by
  intro hmem
  rw [h.digits c hmem] at hc
  cases hc

/-- An id begins with a digit. -/
theorem exists_cons_objectId {id : Text} (h : IsObjectId id) :
    ∃ c rest, id = c :: rest ∧ isHexDigit c = true := by
  cases id with
  | nil => rcases h.length_eq with hlength | hlength <;> cases hlength
  | cons c rest => exact ⟨c, rest, rfl, h.digits c mem_cons_self⟩

theorem findIdx?_space {id name : Text} (h : IsObjectId id) :
    (id ++ ' ' :: name).findIdx? (· = ' ') = some id.length := by
  have hfront : id.findIdx? (· = ' ') = none := findIdx?_eq_none_iff.mpr fun c hc =>
    decide_eq_false fun heq => not_mem_objectId h (by decide) (heq ▸ hc)
  rw [findIdx?_append, hfront, findIdx?_cons, if_pos (decide_eq_true rfl),
    Option.map_some, Nat.zero_add, Option.none_or]

theorem parseLine_refLine (h : entry.Valid) (entries : List PackedRefEntry) :
    parseLine entries (refLine entry) = .ok (entries ++ [{ entry with peeled := none }]) := by
  obtain ⟨c, rest, hid, hdigit⟩ := exists_cons_objectId h.id
  have hhead : (refLine entry).head? = some c := by
    rw [refLine, hid]
    rfl
  have hne : ∀ {other : Char}, isHexDigit other = false → (refLine entry).head? ≠ some other := by
    intro other hother heq
    rw [hhead] at heq
    obtain rfl := Option.some.inj heq
    rw [hdigit] at hother
    cases hother
  have hnil : refLine entry ≠ [] := fun heq => by
    rw [heq] at hhead
    cases hhead
  have hdrop : (refLine entry).drop (entry.id.length + 1) = entry.name := by
    rw [refLine, ← drop_drop, drop_left]
    rfl
  have htake : (refLine entry).take entry.id.length = entry.id := by
    rw [refLine, take_left]
  have hname : refNameFrom entry.name = .ok entry.name := if_neg (isSafeRefName_ok h.name).1
  unfold parseLine
  rw [if_neg (not_or.mpr ⟨hnil, hne (by decide)⟩), if_neg (hne (by decide)),
    show (refLine entry).findIdx? (· = ' ') = some entry.id.length from findIdx?_space h.id]
  dsimp only
  rw [hdrop, htake]
  refine (ok_bind_eq h.name).trans ?_
  exact (ok_bind_eq (objectIdFrom_ok h.id)).trans (ok_bind_eq hname)

theorem parseLine_peeled {peeled : Text} (h : IsObjectId peeled) :
    parseLine (entries ++ [entry]) ('^' :: peeled) =
      .ok (entries ++ [{ entry with peeled := some peeled }]) := by
  have hlast : (entries ++ [entry]).getLast? = some entry := getLast?_concat
  unfold parseLine
  rw [head?_cons, if_neg (not_or.mpr ⟨cons_ne_nil _ _, by decide⟩), if_pos rfl, hlast]
  dsimp only
  refine (ok_bind_eq (objectIdFrom_ok h)).trans ?_
  rw [dropLast_concat]
  rfl

/-- **The lines of records** are read as the records. -/
theorem parseLine_renderEntries (hvalid : ∀ entry ∈ entries, entry.Valid)
    (before : List PackedRefEntry) :
    (renderEntries entries).foldlM parseLine before = .ok (before ++ entries) := by
  induction entries generalizing before with
  | nil => rw [append_nil]; rfl
  | cons entry entries ih =>
    have hentry := hvalid entry mem_cons_self
    have hrest := ih (forall_mem_cons.mp hvalid).2
      (before ++ [entry])
    rw [append_assoc] at hrest
    rw [renderEntries, flatMap_cons, cons_append, foldlM_cons]
    refine (ok_bind_eq (parseLine_refLine hentry before)).trans ?_
    cases hpeeled : entry.peeled with
    | none =>
      have hsame : ({ entry with peeled := none } : PackedRefEntry) = entry := by
        rw [← hpeeled]
      rw [hsame]
      exact hrest
    | some peeled =>
      have hsame : ({ entry with peeled := some peeled } : PackedRefEntry) = entry := by
        rw [← hpeeled]
      rw [Option.map_some, Option.toList_some, singleton_append, foldlM_cons]
      refine (ok_bind_eq (parseLine_peeled (hentry.peeled peeled hpeeled))).trans ?_
      rw [hsame]
      exact hrest

/-! ### The header -/

theorem isWord_traitWords (refs : PackedRefs) : ∀ word ∈ traitWords refs, IsWord word := by
  have hpeeled : IsWord peeledTrait := isWord_of_all (by decide) (by decide)
  have hfully : IsWord fullyPeeledTrait := isWord_of_all (by decide) (by decide)
  have hsorted : IsWord sortedTrait := isWord_of_all (by decide) (by decide)
  intro word hmem
  unfold traitWords at hmem
  rcases mem_append.mp hmem with hfront | hlast
  · rcases mem_append.mp hfront with hfirst | hsecond
    · split at hfirst
      · rwa [mem_singleton.mp hfirst]
      · cases hfirst
    · split at hsecond
      · rwa [mem_singleton.mp hsecond]
      · cases hsecond
  · split at hlast
    · rwa [mem_singleton.mp hlast]
    · cases hlast

theorem traitsOf_buildHeaderLine (refs : PackedRefs) :
    traitsOf (buildHeaderLine refs) = traitWords refs := by
  have hwords := isWord_traitWords refs
  unfold traitsOf buildHeaderLine
  dsimp only
  by_cases hne : (traitWords refs).length > 0
  · have htrim : trim (' ' :: ([' '].intercalate (traitWords refs) ++ [' '])) =
        [' '].intercalate (traitWords refs) := by
      have hall : ∀ peeling sorted, trim (' ' :: ([' '].intercalate
          (traitWords ⟨[], peeling, sorted⟩) ++ [' '])) =
          [' '].intercalate (traitWords ⟨[], peeling, sorted⟩) := by
        intro peeling sorted
        cases peeling <;> cases sorted <;> decide
      exact hall refs.peeling refs.sorted
    have hsplit := splitWhitespace_words (ne_nil_of_length_pos hne) hwords
    have hnil : [' '].intercalate (traitWords refs) ≠ [] := fun hnil => by
      rw [hnil] at hsplit
      rw [← hsplit] at hwords
      exact absurd rfl (hwords [] (by rw [splitWhitespace]; exact mem_singleton_self _)).ne_nil
    rw [if_pos hne, drop_left, htrim, if_neg hnil, hsplit]
  · have hempty : traitWords refs = [] := eq_nil_of_length_eq_zero (by omega)
    rw [if_neg hne, hempty]
    exact if_pos (by decide)

theorem parseHeader_buildHeaderLine (refs : PackedRefs) (lines : List Text) :
    parseHeader (buildHeaderLine refs :: lines) = ⟨refs.peeling, refs.sorted, 1⟩ := by
  have hbegins : headerPrefix.isPrefixOf (buildHeaderLine refs) = true := by
    rw [ isPrefixOf_iff_prefix]
    unfold buildHeaderLine
    dsimp only
    split
    · exact prefix_append _ _
    · exact prefix_rfl
  unfold parseHeader
  rw [headD_cons]
  dsimp only
  rw [if_pos hbegins, traitsOf_buildHeaderLine]
  have hall : ∀ peeling sorted,
      (⟨if fullyPeeledTrait ∈ traitWords ⟨[], peeling, sorted⟩ then Peeling.fully
        else if peeledTrait ∈ traitWords ⟨[], peeling, sorted⟩ then .tags else .none,
        decide (sortedTrait ∈ traitWords ⟨[], peeling, sorted⟩), 1⟩ : Header) =
        ⟨peeling, sorted, 1⟩ := by
    intro peeling sorted
    cases peeling <;> cases sorted <;> decide
  exact hall refs.peeling refs.sorted

/-! ### The file -/

theorem newline_not_mem_buildHeaderLine (refs : PackedRefs) : '\n' ∉ buildHeaderLine refs := by
  have hall : ∀ peeling sorted, '\n' ∉ buildHeaderLine ⟨[], peeling, sorted⟩ := by
    intro peeling sorted
    cases peeling <;> cases sorted <;> decide
  exact hall refs.peeling refs.sorted

theorem newline_not_mem_renderEntries (hvalid : ∀ entry ∈ entries, entry.Valid) :
    ∀ line ∈ renderEntries entries, '\n' ∉ line := by
  intro line hline
  obtain ⟨entry, hentry, hmem⟩ := mem_flatMap.mp hline
  have h := hvalid entry hentry
  rcases mem_cons.mp hmem with rfl | hpeeled
  · rw [refLine, mem_append, mem_cons, not_or, not_or]
    exact ⟨not_mem_objectId h.id (by decide), by decide,
      not_mem_of_isSafeRefName h.name (by decide)⟩
  · obtain ⟨peeled, hsome, rfl⟩ := Option.mem_map.mp (Option.mem_toList.mp hpeeled)
    rw [mem_cons, not_or]
    exact ⟨by decide, not_mem_objectId (h.peeled peeled hsome) (by decide)⟩

/-- **A file of a header and of records** is read as them. -/
theorem parsePackedRefs_written (header : PackedRefs) (hvalid : ∀ entry ∈ entries, entry.Valid) :
    parsePackedRefs (joinLines (buildHeaderLine header :: renderEntries entries) ++ ['\n']) =
      .ok ⟨entries, header.peeling, header.sorted⟩ := by
  have hlines : (joinLines (buildHeaderLine header :: renderEntries entries) ++ ['\n']).splitOn '\n' =
      buildHeaderLine header :: (renderEntries entries ++ [[]]) := by
    have hjoin : joinLines (buildHeaderLine header :: renderEntries entries) ++ ['\n'] =
        ['\n'].intercalate (buildHeaderLine header :: (renderEntries entries ++ [[]])) := by
      rw [joinLines, ← cons_append, intercalate_append (cons_ne_nil _ _) (cons_ne_nil _ _),
        intercalate_singleton]
    rw [hjoin]
    refine splitOn_intercalate '\n' (fun line hline => ?_) (cons_ne_nil _ _)
    rcases mem_cons.mp hline with rfl | hrest
    · exact newline_not_mem_buildHeaderLine header
    · rcases mem_append.mp hrest with hentry | hlast
      · exact newline_not_mem_renderEntries hvalid line hentry
      · rw [mem_singleton.mp hlast]
        exact not_mem_nil
  unfold parsePackedRefs
  rw [if_neg (append_ne_nil_of_right_ne_nil _ (cons_ne_nil _ _)), hlines]
  dsimp only
  rw [parseHeader_buildHeaderLine]
  have hentries : parseEntries (buildHeaderLine header :: (renderEntries entries ++ [[]])) 1 =
      .ok entries := by
    unfold parseEntries
    rw [drop_one, tail_cons, foldlM_append]
    refine (ok_bind_eq (parseLine_renderEntries hvalid [])).trans ?_
    rw [nil_append]
    rfl
  exact (ok_bind_eq hentries).trans rfl

end

/-! ### Two orders of names -/

/-- The records in the order of the bytes of their names. -/
def sortedByBytes (entries : List PackedRefEntry) : List PackedRefEntry :=
  entries.mergeSort fun a b => compareBytes (encode a.name) (encode b.name) ≤ 0

/-- The platform and the bytes order these names alike. -/
def UnitsFollowBytes (names : List Text) : Prop :=
  ∀ a ∈ names, ∀ b ∈ names, stringLt a b = true ↔ compareBytes (encode a) (encode b) < 0

section

variable {entries : List PackedRefEntry} {names : List Text}

theorem codeUnits_injective {a b : Text} (h : codeUnits a = codeUnits b) : a = b := by
  have hrank : a.flatMap IndexFile.rankUnits = b.flatMap IndexFile.rankUnits := by
    rw [← IndexFile.rank_codeUnits, ← IndexFile.rank_codeUnits, h]
  rcases lt_trichotomy a b with hlt | heq | hgt
  · have hcoded := IndexFile.ordered_rankUnits.flatMap_lt_iff.mpr hlt
    rw [hrank] at hcoded
    exact absurd hcoded (lt_irrefl _)
  · exact heq
  · have hcoded := IndexFile.ordered_rankUnits.flatMap_lt_iff.mpr hgt
    rw [hrank] at hcoded
    exact absurd hcoded (lt_irrefl _)

theorem stringLt_iff {a b : Text} : stringLt a b = true ↔ codeUnits a < codeUnits b :=
  decide_eq_true_iff

theorem compareBytes_encode_neg_iff {a b : Text} :
    compareBytes (encode a) (encode b) < 0 ↔ a < b := by
  rw [compareBytes_neg_iff, IndexFile.encode_lt_iff]

theorem compareNames_nonpos (a b : PackedRefEntry) :
    decide (compareNames a b ≤ 0) = byKey (fun entry => codeUnits entry.name) a b := by
  have hle : codeUnits a.name ≤ codeUnits b.name ↔ ¬ stringLt b.name a.name = true := by
    rw [stringLt_iff, not_lt]
  unfold compareNames byKey
  rw [decide_eq_decide, hle]
  split
  · next hlt =>
    have hback : ¬ stringLt b.name a.name = true := fun h =>
      lt_asymm (stringLt_iff.mp hlt) (stringLt_iff.mp h)
    exact iff_of_true (by decide) hback
  · split
    · next hgt => exact iff_of_false (by decide) (not_not_intro hgt)
    · next hnot => exact iff_of_true le_rfl hnot

theorem sortedByBytes_eq (entries : List PackedRefEntry) :
    sortedByBytes entries = entries.mergeSort (byKey fun entry => entry.name) := by
  unfold sortedByBytes
  congr 1
  funext a b
  have hle : a.name ≤ b.name ↔ ¬ compareBytes (encode b.name) (encode a.name) < 0 := by
    rw [compareBytes_encode_neg_iff, not_lt]
  unfold byKey
  rw [decide_eq_decide, hle, compareBytes_swap (encode a.name)]
  omega

theorem nodup_codeUnits (h : names.Nodup) : (names.map codeUnits).Nodup :=
  h.map fun _ _ heq => codeUnits_injective heq

/-- The two sorts agree where the orders do. -/
theorem sorts_agree_iff (hnames : (entries.map (·.name)).Nodup) :
    (entries.mergeSort fun a b => decide (compareNames a b ≤ 0)) = sortedByBytes entries ↔
      UnitsFollowBytes (entries.map (·.name)) := by
  have hunits : (entries.map fun entry => codeUnits entry.name).Nodup := by
    have hmap := nodup_codeUnits hnames
    rwa [map_map] at hmap
  have horder : (fun a b => decide (compareNames a b ≤ 0)) =
      byKey fun entry : PackedRefEntry => codeUnits entry.name :=
    funext fun a => funext fun b => compareNames_nonpos a b
  rw [horder, sortedByBytes_eq, mergeSort_byKey_eq_iff hunits hnames]
  unfold UnitsFollowBytes
  simp only [forall_mem_map, stringLt_iff, compareBytes_encode_neg_iff]

/-- **What is read of a file** that was written. -/
theorem parsePackedRefs_serialize (refs : PackedRefs) (hvalid : ∀ entry ∈ refs.entries, entry.Valid) :
    parsePackedRefs (serializePackedRefs refs) = .ok (if refs.entries = [] then ⟨[], .none, false⟩
        else ⟨refs.entries.mergeSort fun a b => decide (compareNames a b ≤ 0), refs.peeling,
          refs.sorted⟩) := by
  unfold serializePackedRefs
  split
  · rfl
  · exact parsePackedRefs_written refs fun entry hentry =>
      hvalid entry (mem_mergeSort.mp hentry)

/-! ### The walk -/

theorem keptFrom_eq (dropping : List Text) (entries : List PackedRefEntry) :
    keptFrom dropping entries =
      keepUnmatched (fun entry => codeUnits entry.name) (dropping.map codeUnits) entries := by
  induction entries generalizing dropping with
  | nil => rfl
  | cons entry entries ih =>
    have hbelow : below (codeUnits entry.name) ∘ codeUnits = (stringLt · entry.name) :=
      funext fun name => Bool.eq_iff_iff.mpr (below_iff.trans stringLt_iff.symm)
    have hhead : ((dropping.dropWhile (stringLt · entry.name)).map codeUnits).head? =
        some (codeUnits entry.name) ↔
          (dropping.dropWhile (stringLt · entry.name)).head? = some entry.name := by
      rw [head?_map]
      refine ⟨fun h => ?_, fun h => by rw [h]; rfl⟩
      obtain ⟨name, hname, hunits⟩ := Option.map_eq_some_iff.mp h
      rw [hname, codeUnits_injective hunits]
    rw [keptFrom, keepUnmatched, dropWhile_map, hbelow]
    simp only [hhead]
    split
    · rw [ih, map_tail]
    · rw [ih]

theorem sortNames_eq (names : List Text) : sortNames names = names.mergeSort (byKey codeUnits) := by
  unfold sortNames
  congr 1
  funext a b
  rw [byKey, ← Bool.decide_coe (! stringLt b a), decide_eq_decide, ← not_lt, ← stringLt_iff,
    Bool.not_eq_true', Bool.not_eq_true]

/-- **The rewrite leaves out every name** exactly where none comes behind one that the platform does
not put below it. -/
theorem keptAfterDrops_eq_filter_iff (hnames : names.Nodup) (entries : List PackedRefEntry) :
    keptAfterDrops entries names = entries.filter (fun entry => decide (entry.name ∉ names)) ↔
      entries.Pairwise fun a b => b.name ∈ names → stringLt a.name b.name = true := by
  have hperm : (sortNames names).Perm names := mergeSort_perm names _
  have hsorted : ((sortNames names).map codeUnits).Pairwise (· < ·) := by
    rw [sortNames_eq, pairwise_map]
    exact pairwise_lt_byKey (nodup_codeUnits hnames)
  have hmem : ∀ name, codeUnits name ∈ (sortNames names).map codeUnits ↔ name ∈ names := by
    intro name
    rw [mem_map_of_injective fun _ _ h => codeUnits_injective h, hperm.mem_iff]
  unfold keptAfterDrops
  rw [keptFrom_eq]
  have hwalk := @keepUnmatched_eq_filter_iff _ _ _ (fun entry : PackedRefEntry =>
    codeUnits entry.name) _ hsorted entries
  simp only [hmem, ← stringLt_iff] at hwalk
  exact hwalk

end

/-- **The file and its rewrite are in the order of bytes** where the platform's order is that of the
bytes: on the names of the file, and from each record that the rewrite leaves out to those in
front. -/
theorem packedRefs_inByteOrder_iff (refs : PackedRefs) (hvalid : ∀ entry ∈ refs.entries, entry.Valid)
    (hdistinct : (refs.entries.map (·.name)).Nodup) (snapshot : List PackedRefEntry)
    (names : List Text) (hnames : names.Nodup) :
    (parsePackedRefs (serializePackedRefs refs) =
        .ok { refs with entries := sortedByBytes refs.entries } ↔
      (refs.entries = [] → refs.peeling = .none ∧ refs.sorted = false) ∧
        UnitsFollowBytes (refs.entries.map (·.name))) ∧
    ((packedRefsWithout snapshot names).entries =
        snapshot.filter (fun entry => decide (entry.name ∉ names)) ↔
      snapshot.Pairwise fun a b => b.name ∈ names → stringLt a.name b.name = true) := by
  refine ⟨?_, keptAfterDrops_eq_filter_iff hnames snapshot⟩
  rw [parsePackedRefs_serialize refs hvalid, Except.ok.injEq, ← sorts_agree_iff hdistinct]
  obtain ⟨entries, peeling, sorted⟩ := refs
  dsimp only
  by_cases hnil : entries = []
  · subst hnil
    have hunits : ([] : List PackedRefEntry).mergeSort (fun a b => decide (compareNames a b ≤ 0)) =
        [] := mergeSort_nil
    have hbytes : sortedByBytes [] = [] := mergeSort_nil
    rw [if_pos rfl, hunits, hbytes, PackedRefs.mk.injEq]
    exact ⟨fun h => ⟨fun _ => ⟨h.2.1.symm, h.2.2.symm⟩, rfl⟩,
      fun h => ⟨rfl, (h.1 rfl).1.symm, (h.1 rfl).2.symm⟩⟩
  · rw [if_neg hnil, PackedRefs.mk.injEq]
    exact ⟨fun h => ⟨fun hempty => absurd hempty hnil, h.1⟩, fun h => ⟨h.2, rfl, rfl⟩⟩

/-- Two names whose bytes are in order, and whose code units are not. -/
def wideTilde : Text := ['\uFF5E']
def grinningFace : Text := [Char.ofNat 0x1f600]

def tildeThenFace : List PackedRefEntry :=
  [⟨wideTilde, replicate 40 '1', none⟩, ⟨grinningFace, replicate 40 '2', none⟩]

theorem tildeThenFace_valid : ∀ entry ∈ tildeThenFace, entry.Valid := by
  intro entry hentry
  rcases mem_cons.mp hentry with rfl | hentry
  · exact ⟨by decide, isObjectId_replicate (by decide), fun _ h => by cases h⟩
  · obtain rfl := mem_singleton.mp hentry
    exact ⟨by decide, isObjectId_replicate (by decide), fun _ h => by cases h⟩

theorem packedRefs_inByteOrder_tilde :
    (parsePackedRefs (serializePackedRefs ⟨tildeThenFace.take 1, .fully, true⟩) =
        .ok ⟨sortedByBytes (tildeThenFace.take 1), .fully, true⟩ ↔
      (tildeThenFace.take 1 = [] → Peeling.fully = .none ∧ true = false) ∧
        UnitsFollowBytes [wideTilde]) ∧
    ((packedRefsWithout tildeThenFace [wideTilde]).entries =
        tildeThenFace.filter (fun entry => decide (entry.name ∉ [wideTilde])) ↔
      tildeThenFace.Pairwise fun a b => b.name ∈ [wideTilde] → stringLt a.name b.name = true) :=
  packedRefs_inByteOrder_iff ⟨tildeThenFace.take 1, .fully, true⟩
    (fun entry hentry => tildeThenFace_valid entry (mem_of_mem_take hentry)) (by decide)
    tildeThenFace [wideTilde] (by decide)

/-- A file in the order of bytes keeps a name that it should lose, and is written out of order. -/
theorem packedRefs_outOfByteOrder :
    (∀ entry ∈ tildeThenFace, entry.Valid) ∧ sortedByBytes tildeThenFace = tildeThenFace ∧
    (packedRefsWithout tildeThenFace [wideTilde, grinningFace]).entries ≠
      tildeThenFace.filter (fun entry => decide (entry.name ∉ [wideTilde, grinningFace])) ∧
    parsePackedRefs (serializePackedRefs ⟨tildeThenFace, .fully, true⟩) ≠
      .ok ⟨sortedByBytes tildeThenFace, .fully, true⟩ := by
  have hsorted : sortedByBytes tildeThenFace = tildeThenFace :=
    mergeSort_of_pairwise (by decide)
  have hunits : ¬ UnitsFollowBytes (tildeThenFace.map (·.name)) := fun h =>
    absurd (h wideTilde (by decide) grinningFace (by decide)) (by decide)
  refine ⟨tildeThenFace_valid, hsorted, ?_, ?_⟩
  · refine fun heq => absurd ((keptAfterDrops_eq_filter_iff (by decide) _).mp heq) ?_
    decide
  · rw [parsePackedRefs_serialize _ tildeThenFace_valid]
    intro heq
    rw [if_neg (by decide)] at heq
    exact hunits ((sorts_agree_iff (by decide)).mp (congrArg PackedRefs.entries (Except.ok.inj heq)))

end Tsgit.Packed
