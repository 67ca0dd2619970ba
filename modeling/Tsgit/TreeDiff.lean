import Mathlib.Data.List.Sort
import Tsgit.TreeCursor

/-!
# Tree Differences

`src/domain/diff/tree-diff.ts` joins two parsed trees by the names of their entries;
`src/domain/diff/raw-tree-diff.ts` joins two raw bodies by two cursors, parsing neither.
-/

namespace Tsgit.Diff

open List Objects

inductive ModeKind
  | file
  | symlink
  | directory
  | gitlink
  deriving DecidableEq

def kindOf : FileMode → ModeKind
  | .regular => .file
  | .executable => .file
  | .symlink => .symlink
  | .directory => .directory
  | .gitlink => .gitlink

def isSameKind (a b : FileMode) : Bool := kindOf a = kindOf b

/-- `DiffChange`, as far as trees yield it. -/
inductive DiffChange
  | add (newPath newId : Text) (newMode : FileMode)
  | delete (oldPath oldId : Text) (oldMode : FileMode)
  | modify (path oldId newId : Text) (oldMode newMode : FileMode)
  | typeChange (path oldId newId : Text) (oldMode newMode : FileMode)
  deriving DecidableEq

/-! ### Parsed trees -/

def addFrom (entry : TreeEntry) : DiffChange := .add entry.name entry.id entry.mode

def deleteFrom (entry : TreeEntry) : DiffChange := .delete entry.name entry.id entry.mode

def classifySamePath (old new : TreeEntry) : Option DiffChange :=
  if old.id = new.id ∧ old.mode = new.mode then none
  else if ¬ isSameKind old.mode new.mode then
    some (.typeChange old.name old.id new.id old.mode new.mode)
  else some (.modify old.name old.id new.id old.mode new.mode)

structure KeyedEntry where
  entry : TreeEntry
  key : Bytes
  deriving DecidableEq

def entryKey (entry : TreeEntry) : Bytes :=
  encodeEntryName entry.nameBytes (isDirectory entry.mode)

def keyed (entry : TreeEntry) : KeyedEntry := ⟨entry, entryKey entry⟩

def entriesOf (tree : Option Tree) : List KeyedEntry :=
  match tree with
  | none => []
  | some tree =>
    (tree.entries.map keyed).insertionSort fun a b => compareBytes a.key b.key ≤ 0

/-- The merge-join of two sorted rows. -/
def mergeEntries : List KeyedEntry → List KeyedEntry → List DiffChange
  | old :: olds, new :: news =>
    let cmp := compareBytes old.key new.key
    if cmp < 0 then deleteFrom old.entry :: mergeEntries olds (new :: news)
    else if cmp > 0 then addFrom new.entry :: mergeEntries (old :: olds) news
    else (classifySamePath old.entry new.entry).toList ++ mergeEntries olds news
  | olds, news => olds.map (deleteFrom ·.entry) ++ news.map (addFrom ·.entry)
termination_by olds news => olds.length + news.length

def diffTrees (oldTree newTree : Option Tree) : List DiffChange :=
  mergeEntries (entriesOf oldTree) (entriesOf newTree)

/-! ### Raw bodies -/

def cursorNameByte (c : TreeCursor) (i : ℕ) : ℕ :=
  if i < c.nameEnd - c.nameStart then byteAt c.buf (c.nameStart + i) else 0x2f

def cursorNameLength (c : TreeCursor) : ℕ :=
  c.nameEnd - c.nameStart + if c.isDir then 1 else 0

def compareNamesFrom (a b : TreeCursor) (stop i : ℕ) : ℤ :=
  if i < stop then
    let diff : ℤ := cursorNameByte a i - cursorNameByte b i
    if diff ≠ 0 then diff else compareNamesFrom a b stop (i + 1)
  else (cursorNameLength a : ℤ) - cursorNameLength b
termination_by stop - i

def compareCursorNames (a b : TreeCursor) : ℤ :=
  compareNamesFrom a b (min (cursorNameLength a) (cursorNameLength b)) 0

def sameOid (a b : TreeCursor) : Bool :=
  cursorOidBytes a = subarray b.buf b.oidStart (b.oidStart + a.hash.digestLength)

def skipLeadingZeros (buf : Bytes) (start stop : ℕ) : ℕ := skipModeZeros buf start stop

/-- The modes without their padding are byte for byte the same. -/
def sameMode (a b : TreeCursor) : Bool :=
  subarray a.buf (skipLeadingZeros a.buf a.offset a.modeEnd) a.modeEnd =
    subarray b.buf (skipLeadingZeros b.buf b.offset b.modeEnd) b.modeEnd

def cursorsSame (a b : TreeCursor) : Bool := sameOid a b && sameMode a b

def cursorMode (c : TreeCursor) : Except TsgitError FileMode :=
  matchFileModeBytes c.buf c.offset c.modeEnd

def addFromCursor (c : TreeCursor) : Except TsgitError DiffChange := do
  let newId ← cursorOid c
  let newMode ← cursorMode c
  pure (.add (cursorName c) newId newMode)

def deleteFromCursor (c : TreeCursor) : Except TsgitError DiffChange := do
  let oldId ← cursorOid c
  let oldMode ← cursorMode c
  pure (.delete (cursorName c) oldId oldMode)

def classifySamePathCursor (a b : TreeCursor) : Except TsgitError (Option DiffChange) :=
  if cursorsSame a b then pure none
  else do
    let path := cursorName a
    let oldId ← cursorOid a
    let newId ← cursorOid b
    let oldMode ← cursorMode a
    let newMode ← cursorMode b
    if ¬ isSameKind oldMode newMode then
      pure (some (.typeChange path oldId newId oldMode newMode))
    else pure (some (.modify path oldId newId oldMode newMode))

def drainCursor (emit : TreeCursor → Except TsgitError DiffChange) (c : TreeCursor) :
    Except TsgitError (List DiffChange) :=
  if _hdone : c.done = false then do
    let change ← emit c
    match _h : advanceCursor c with
    | .error e => .error e
    | .ok next =>
      let rest ← drainCursor emit next
      pure (change :: rest)
  else .ok []
termination_by c.remaining
decreasing_by
  exact advanceCursor_lt _hdone _h

/-- The merge-join of two cursors. -/
def diffCursors (a b : TreeCursor) : Except TsgitError (List DiffChange) :=
  if _hdone : a.done = false ∧ b.done = false then
    let cmp := compareCursorNames a b
    if cmp < 0 then do
      let change ← deleteFromCursor a
      match _h : advanceCursor a with
      | .error e => .error e
      | .ok next =>
        let rest ← diffCursors next b
        pure (change :: rest)
    else if cmp > 0 then do
      let change ← addFromCursor b
      match _h : advanceCursor b with
      | .error e => .error e
      | .ok next =>
        let rest ← diffCursors a next
        pure (change :: rest)
    else do
      let change ← classifySamePathCursor a b
      match _ha : advanceCursor a with
      | .error e => .error e
      | .ok nextA =>
        match _hb : advanceCursor b with
        | .error e => .error e
        | .ok nextB =>
          let rest ← diffCursors nextA nextB
          pure (change.toList ++ rest)
  else do
    let deletes ← drainCursor deleteFromCursor a
    let adds ← drainCursor addFromCursor b
    pure (deletes ++ adds)
termination_by a.remaining + b.remaining
decreasing_by
  · exact Nat.add_lt_add_right (advanceCursor_lt _hdone.1 _h) _
  · exact Nat.add_lt_add_left (advanceCursor_lt _hdone.2 _h) _
  · exact Nat.add_lt_add (advanceCursor_lt _hdone.1 _ha) (advanceCursor_lt _hdone.2 _hb)

/-- The changes from one body to another. -/
def diffRawTrees (oldContent newContent : Option Bytes) (hash : HashConfig) :
    Except TsgitError (List DiffChange) := do
  let a ← openTreeCursor (oldContent.getD []) hash
  let b ← openTreeCursor (newContent.getD []) hash
  diffCursors a b

theorem drainCursor_eq (emit : TreeCursor → Except TsgitError DiffChange) (c : TreeCursor) :
    drainCursor emit c = if c.done = false then do
        let change ← emit c
        let next ← advanceCursor c
        let rest ← drainCursor emit next
        pure (change :: rest)
      else .ok [] := by
  rw [drainCursor]
  by_cases hdone : c.done = false
  · rw [dif_pos hdone, if_pos hdone]
    cases advanceCursor c with
    | error e => rfl
    | ok next => rfl
  · rw [dif_neg hdone, if_neg hdone]

theorem diffCursors_eq (a b : TreeCursor) :
    diffCursors a b = (if a.done = false ∧ b.done = false then
        if compareCursorNames a b < 0 then do
          let change ← deleteFromCursor a
          let next ← advanceCursor a
          let rest ← diffCursors next b
          pure (change :: rest)
        else if compareCursorNames a b > 0 then do
          let change ← addFromCursor b
          let next ← advanceCursor b
          let rest ← diffCursors a next
          pure (change :: rest)
        else do
          let change ← classifySamePathCursor a b
          let nextA ← advanceCursor a
          let nextB ← advanceCursor b
          let rest ← diffCursors nextA nextB
          pure (change.toList ++ rest)
      else do
        let deletes ← drainCursor deleteFromCursor a
        let adds ← drainCursor addFromCursor b
        pure (deletes ++ adds)) := by
  rw [diffCursors]
  by_cases hdone : a.done = false ∧ b.done = false
  · rw [dif_pos hdone, if_pos hdone]
    cases advanceCursor a with
    | error e => cases advanceCursor b <;> rfl
    | ok nextA => cases advanceCursor b <;> rfl
  · rw [dif_neg hdone, if_neg hdone]

/-! ### The order of names -/

/-- The sort key of what a cursor shows. -/
def cursorKey (c : TreeCursor) : Bytes := encodeEntryName (cursorNameBytes c) c.isDir

/-- A cursor whose name lies in the body. -/
def NameInside (c : TreeCursor) : Prop := c.nameEnd ≤ c.buf.length

variable {c : TreeCursor}

theorem length_cursorKey (h : NameInside c) :
    (cursorKey c).length = cursorNameLength c := by
  have hname : (cursorNameBytes c).length = c.nameEnd - c.nameStart := length_subarray _ h
  rw [cursorKey, encodeEntryName, cursorNameLength]
  split
  · rw [length_append, hname, length_singleton]
  · rw [hname, Nat.add_zero]

theorem cursorKey_getElem (h : NameInside c) {i : ℕ}
    (hi : i < cursorNameLength c) :
    ∃ byte, (cursorKey c)[i]? = some byte ∧ byte.toNat = cursorNameByte c i := by
  have hname : (cursorNameBytes c).length = c.nameEnd - c.nameStart := length_subarray _ h
  by_cases hreal : i < c.nameEnd - c.nameStart
  · have hplace : (cursorKey c)[i]? = c.buf[c.nameStart + i]? := by
      rw [cursorKey, encodeEntryName]
      split
      · rw [getElem?_append_left (by omega)]
        exact getElem?_subarray (by omega)
      · exact getElem?_subarray (by omega)
    have hinside : c.nameStart + i < c.buf.length := by
      have : c.nameEnd ≤ c.buf.length := h
      omega
    refine ⟨c.buf[c.nameStart + i], hplace.trans (getElem?_eq_getElem hinside), ?_⟩
    rw [cursorNameByte, if_pos hreal, byteAt, getElem?_eq_getElem hinside, Option.getD_some]
  · -- Only the slash of a directory is behind the name.
    rw [cursorNameLength] at hi
    split at hi
    · next hdir =>
      obtain rfl : i = (cursorNameBytes c).length := by omega
      refine ⟨0x2f, ?_, (if_neg hreal).symm⟩
      rw [cursorKey, encodeEntryName, if_pos hdir, getElem?_concat_length]
    · omega

theorem compareNamesFrom_eq {a b : TreeCursor} (ha : NameInside a) (hb : NameInside b) {i : ℕ}
    (hi : i ≤ min (cursorNameLength a) (cursorNameLength b)) :
    compareNamesFrom a b (min (cursorNameLength a) (cursorNameLength b)) i =
      compareBytes ((cursorKey a).drop i) ((cursorKey b).drop i) := by
  induction i using compareNamesFrom.induct a b
      (min (cursorNameLength a) (cursorNameLength b)) with
  | case1 i hlt diff hdiff =>
    obtain ⟨byteA, hbyteA, hvalueA⟩ := cursorKey_getElem ha (Nat.lt_min.mp hlt).1
    obtain ⟨byteB, hbyteB, hvalueB⟩ := cursorKey_getElem hb (Nat.lt_min.mp hlt).2
    have hne : byteA ≠ byteB := by
      rintro rfl
      exact hdiff (by simp only [diff, ← hvalueA, ← hvalueB, Int.sub_self])
    rw [compareNamesFrom, if_pos hlt, drop_eq_cons hbyteA, drop_eq_cons hbyteB, compareBytes,
      if_pos hne, hvalueA, hvalueB]
    exact if_pos hdiff
  | case2 i hlt diff hdiff ih =>
    obtain ⟨byteA, hbyteA, hvalueA⟩ := cursorKey_getElem ha (Nat.lt_min.mp hlt).1
    obtain ⟨byteB, hbyteB, hvalueB⟩ := cursorKey_getElem hb (Nat.lt_min.mp hlt).2
    have hzero : (cursorNameByte a i : ℤ) - cursorNameByte b i = 0 := not_not.mp hdiff
    obtain rfl : byteA = byteB := UInt8.toNat_inj.mp (by omega)
    rw [compareNamesFrom, if_pos hlt, drop_eq_cons hbyteA, drop_eq_cons hbyteB,
      compareBytes_cons_self, ← ih hlt]
    exact if_neg hdiff
  | case3 i hend =>
    have hlengthA := length_cursorKey ha
    have hlengthB := length_cursorKey hb
    rw [compareNamesFrom, if_neg hend]
    -- One of the keys ends here.
    rcases Nat.le_or_le (cursorNameLength a) (cursorNameLength b) with hle | hle
    · have hdrop : (cursorKey a).drop i = [] := drop_eq_nil_of_le (by omega)
      rw [hdrop, compareBytes.eq_2 _ _ (by simp), length_drop, length_nil]
      omega
    · have hdrop : (cursorKey b).drop i = [] := drop_eq_nil_of_le (by omega)
      rw [hdrop, compareBytes.eq_2 _ _ (by simp), length_drop, length_nil]
      omega

/-- **Cursors compare as their sort keys.** -/
theorem compareCursorNames_eq {a b : TreeCursor} (ha : NameInside a) (hb : NameInside b) :
    compareCursorNames a b = compareBytes (cursorKey a) (cursorKey b) :=
  compareNamesFrom_eq ha hb (Nat.zero_le _)

/-! ### Entries under cursors -/

section

variable {a b : TreeCursor} {old new : TreeEntry}

theorem cursorKey_of_shows (h : Shows a old) : cursorKey a = entryKey old := by
  rw [cursorKey, entryKey, h.name_eq, h.isDir_eq]

theorem cursorName_of_shows (h : Shows a old) : cursorName a = old.name := by
  rw [cursorName, TreeEntry.name, h.name_eq]

theorem cursorMode_of_shows (h : Shows a old) : cursorMode a = .ok old.mode :=
  matchFileModeBytes_of_digits h.modeEnd_le.1 h.modeEnd_le.2 h.mode_eq

theorem addFromCursor_of_shows (h : Shows a old) : addFromCursor a = .ok (addFrom old) := by
  rw [addFromCursor, h.cursorOid_eq, cursorMode_of_shows h, cursorName_of_shows h]
  rfl

theorem deleteFromCursor_of_shows (h : Shows a old) :
    deleteFromCursor a = .ok (deleteFrom old) := by
  rw [deleteFromCursor, h.cursorOid_eq, cursorMode_of_shows h, cursorName_of_shows h]
  rfl

theorem cursorsSame_iff (ha : Shows a old) (hb : Shows b new) (hhash : a.hash = b.hash) :
    cursorsSame a b = true ↔ old.id = new.id ∧ old.mode = new.mode := by
  have hoid : sameOid a b = true ↔ old.id = new.id := by
    rw [sameOid, decide_eq_true_eq, hhash, ← ha.oid_eq, ← hb.oid_eq, bytesToHex_injective.eq_iff]
    rfl
  have hmode : sameMode a b = true ↔ old.mode = new.mode := by
    rw [sameMode, decide_eq_true_eq, skipLeadingZeros, skipLeadingZeros,
      (skipModeZeros_spec ha.modeEnd_le.1 ha.modeEnd_le.2).2, ha.mode_eq,
      (skipModeZeros_spec hb.modeEnd_le.1 hb.modeEnd_le.2).2, hb.mode_eq,
      FileMode.bytes_injective.eq_iff]
  rw [cursorsSame, Bool.and_eq_true, hoid, hmode]

theorem classifySamePathCursor_of_shows (ha : Shows a old) (hb : Shows b new)
    (hhash : a.hash = b.hash) :
    classifySamePathCursor a b = .ok (classifySamePath old new) := by
  unfold classifySamePathCursor classifySamePath
  by_cases hsame : old.id = new.id ∧ old.mode = new.mode
  · rw [if_pos ((cursorsSame_iff ha hb hhash).mpr hsame), if_pos hsame]
    rfl
  rw [if_neg (fun h => hsame ((cursorsSame_iff ha hb hhash).mp h)), if_neg hsame,
    ha.cursorOid_eq, hb.cursorOid_eq, cursorMode_of_shows ha, cursorMode_of_shows hb,
    cursorName_of_shows ha]
  dsimp only [bind, Except.bind]
  split
  · rfl
  · rfl

end

theorem drainCursor_of_follows {emit : TreeCursor → Except TsgitError DiffChange}
    {change : TreeEntry → DiffChange}
    (hemit : ∀ {c : TreeCursor} {entry}, Shows c entry → emit c = .ok (change entry)) {entries : List TreeEntry} (h : Follows c entries) :
    drainCursor emit c = .ok (entries.map change) := by
  induction entries generalizing c with
  | nil =>
    have hdone : c.done = true := h
    rw [drainCursor_eq, hdone]
    rfl
  | cons entry entries ih =>
    obtain ⟨hshows, next, hnext, hrest⟩ := h
    rw [drainCursor_eq, if_pos hshows.done_eq, hemit hshows, hnext]
    dsimp only [bind, Except.bind]
    rw [ih hrest]
    rfl

theorem advanceCursor_hash {c next : TreeCursor} (h : advanceCursor c = .ok next) :
    next.hash = c.hash := by
  unfold advanceCursor at h
  dsimp only at h
  split at h
  · cases h
    rfl
  · exact (scanEntryAt_ok h).hash_eq

theorem mergeEntries_of_empty {olds news : List KeyedEntry} (h : olds = [] ∨ news = []) :
    mergeEntries olds news = olds.map (deleteFrom ·.entry) ++ news.map (addFrom ·.entry) := by
  refine mergeEntries.eq_2 olds news ?_
  rintro old olds' new news' rfl rfl
  simp at h

/-- **One turn of the raw join is one turn of the parsed one.** -/
theorem diffCursors_of_follows {a b : TreeCursor} {olds news : List TreeEntry}
    (ha : Follows a olds) (hb : Follows b news) (hhash : a.hash = b.hash) :
    diffCursors a b = .ok (mergeEntries (olds.map keyed) (news.map keyed)) := by
  induction hsize : olds.length + news.length using Nat.strongRecOn
      generalizing a b olds news with
  | ind size ih =>
    have hdrain (hend : ¬ (a.done = false ∧ b.done = false)) (hempty : olds = [] ∨ news = []) :
        diffCursors a b = .ok (mergeEntries (olds.map keyed) (news.map keyed)) := by
      rw [diffCursors_eq, if_neg hend, drainCursor_of_follows deleteFromCursor_of_shows ha,
        drainCursor_of_follows addFromCursor_of_shows hb,
        mergeEntries_of_empty (hempty.imp (by rintro rfl; rfl) (by rintro rfl; rfl)),
        map_map, map_map]
      rfl
    cases olds with
    | nil =>
      have hdone : a.done = true := ha
      exact hdrain (fun h => by rw [hdone] at h; exact absurd h.1 (by decide)) (.inl rfl)
    | cons old olds =>
      cases news with
      | nil =>
        have hdone : b.done = true := hb
        exact hdrain (fun h => by rw [hdone] at h; exact absurd h.2 (by decide)) (.inr rfl)
      | cons new news =>
        obtain ⟨hshowsA, nextA, hnextA, hrestA⟩ := id ha
        obtain ⟨hshowsB, nextB, hnextB, hrestB⟩ := id hb
        have hcmp : compareCursorNames a b = compareBytes (keyed old).key (keyed new).key := by
          rw [compareCursorNames_eq hshowsA.nameEnd_le.2 hshowsB.nameEnd_le.2,
            cursorKey_of_shows hshowsA, cursorKey_of_shows hshowsB]
          rfl
        have hhashA := advanceCursor_hash hnextA
        have hhashB := advanceCursor_hash hnextB
        rw [length_cons, length_cons] at hsize
        rw [diffCursors_eq, if_pos ⟨hshowsA.done_eq, hshowsB.done_eq⟩, hcmp, map_cons,
          map_cons, mergeEntries]
        split
        · rw [deleteFromCursor_of_shows hshowsA, hnextA]
          dsimp only [bind, Except.bind]
          rw [ih _ (by rw [length_cons]; omega) hrestA hb (hhashA.trans hhash) rfl]
          rfl
        split
        · rw [addFromCursor_of_shows hshowsB, hnextB]
          dsimp only [bind, Except.bind]
          rw [ih _ (by rw [length_cons]; omega) ha hrestB
            (hhash.trans hhashB.symm) rfl]
          rfl
        · rw [classifySamePathCursor_of_shows hshowsA hshowsB hhash, hnextA, hnextB]
          dsimp only [bind, Except.bind]
          rw [ih _ (by omega) hrestA hrestB (hhashA.trans (hhash.trans hhashB.symm)) rfl]
          rfl

theorem openTreeCursor_of_parse {id : Text} {content : Bytes} {hash : HashConfig}
    {tree : Tree} (h : parseTreeContent id content hash = .ok tree) :
    ∃ c, openTreeCursor content hash = .ok c ∧ Follows c tree.entries ∧ c.hash = hash := by
  obtain ⟨entries, hentries, h⟩ := bind_eq_ok.mp h
  cases h
  obtain ⟨c, harrive, hfollows⟩ := follows_of_parseTreeFrom
    (c := ⟨content, hash, 0, 0, 0, 0, 0, false, false⟩) rfl hentries
  refine ⟨c, by rw [openTreeCursor_eq, harrive], hfollows, ?_⟩
  unfold arrive at harrive
  split at harrive
  · cases harrive
    rfl
  · exact (scanEntryAt_ok harrive).hash_eq

def InTreeOrder (entries : List TreeEntry) : Prop :=
  entries.Pairwise fun a b => treeEntryCompare a b ≤ 0

theorem entriesOf_inTreeOrder {tree : Tree} (h : InTreeOrder tree.entries) :
    entriesOf (some tree) = tree.entries.map keyed := by
  refine List.Pairwise.insertionSort_eq (pairwise_map.mpr ?_)
  exact h

/-- **The raw difference is the difference of the parsed trees**: for bodies that parse into
entries in tree order, the same changes in the same order. -/
theorem diffRawTrees_eq_diffTrees {oldId newId : Text} {oldContent newContent : Bytes}
    {hash : HashConfig} {oldTree newTree : Tree}
    (hold : parseTreeContent oldId oldContent hash = .ok oldTree)
    (hnew : parseTreeContent newId newContent hash = .ok newTree)
    (holdOrder : InTreeOrder oldTree.entries) (hnewOrder : InTreeOrder newTree.entries) :
    diffRawTrees (some oldContent) (some newContent) hash =
      .ok (diffTrees (some oldTree) (some newTree)) := by
  obtain ⟨a, hopenA, hfollowsA, hhashA⟩ := openTreeCursor_of_parse hold
  obtain ⟨b, hopenB, hfollowsB, hhashB⟩ := openTreeCursor_of_parse hnew
  rw [diffRawTrees, Option.getD_some, Option.getD_some, hopenA, hopenB, diffTrees,
    entriesOf_inTreeOrder holdOrder, entriesOf_inTreeOrder hnewOrder]
  exact diffCursors_of_follows hfollowsA hfollowsB (hhashA.trans hhashB.symm)

/-- The file `a` gives way to a directory of that name, whose mode is padded. -/
theorem diffRawTrees_eq_diffTrees_typeChange :
    let file := [0x31, 0x30, 0x30, 0x36, 0x34, 0x34, 0x20, 0x61, 0] ++ replicate 20 7
    let directory := [0x30, 0x34, 0x30, 0x30, 0x30, 0x30, 0x20, 0x61, 0] ++ replicate 20 8
    diffRawTrees (some file) (some directory) .sha1 = .ok (diffTrees
        (some ⟨[], [⟨.regular, [0x61], bytesToHex (replicate 20 7)⟩]⟩)
        (some ⟨[], [⟨.directory, [0x61], bytesToHex (replicate 20 8)⟩]⟩)) :=
  @diffRawTrees_eq_diffTrees [] [] _ _ _ _ _ (by decide +kernel) (by decide +kernel)
    (pairwise_singleton _ _) (pairwise_singleton _ _)

end Tsgit.Diff
