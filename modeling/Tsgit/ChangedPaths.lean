import Tsgit.BloomFilter
import Tsgit.Loop
import Tsgit.TreeDiff

/-!
# Changed Paths

The paths that a tree changes against the tree of the first parent, and the filter that is made of
them (`src/application/primitives/internal/changed-path-filters.ts`).
-/

namespace Tsgit.Bloom

open List Objects
open Run (Yields)

/-! ### The join -/

/-- `PathWalk`: how raw trees are read, and the limit. -/
structure PathWalk where
  readRawTreeById : Text → Except Thrown Bytes
  hash : HashConfig
  limit : ℕ

/-- A name below a prefix. -/
def joinPath (before name : Bytes) : Bytes :=
  if before.length = 0 then name else before ++ slash :: name

def childPath (before : Bytes) (cursor : TreeCursor) : Bytes :=
  joinPath before (cursorNameBytes cursor)

def ofCursor {α : Type} (result : Except TsgitError α) : Run Thrown α :=
  Run.ofExcept (result.mapError .refusal)

def openTree (walk : PathWalk) (tree : Option Text) : Run Thrown TreeCursor := do
  let content ← Run.ofExcept (tree.elim (.ok []) walk.readRawTreeById)
  ofCursor (openTreeCursor content walk.hash)

/-- Runs the join below a directory: the two trees, the path, the paths found before. -/
abbrev Descend := Option Text → Option Text → Bytes → List Bytes → Run Thrown (List Bytes)

/-- The directory under a cursor, if the join takes it. -/
def sideOf (taken : Bool) (c : TreeCursor) : Run Thrown (Option Text) :=
  if taken then some <$> ofCursor (cursorOid c) else pure none

def step (descend : Descend) (old now : TreeCursor) (before : Bytes) (order : ℤ)
    (paths : List Bytes) : Run Thrown (List Bytes) :=
  if order = 0 ∧ Diff.cursorsSame old now then pure paths
  else
    let entry := if order > 0 then now else old
    let path := childPath before entry
    if entry.isDir = false then pure (paths ++ [path])
    else do
      let oldTree ← sideOf (order ≤ 0) old
      let newTree ← sideOf (order ≥ 0) now
      descend oldTree newTree path paths

/-- Moves a cursor, if the join took its entry. -/
def advanceIf (taken : Bool) (c : TreeCursor) : Run Thrown TreeCursor :=
  if taken then ofCursor (advanceCursor c) else pure c

def orderOf (old now : TreeCursor) : ℤ :=
  if old.done then 1 else if now.done then -1 else Diff.compareCursorNames old now

/-- The loop of `diffLevel` from two cursors on. -/
def diffFrom (walk : PathWalk) : ℕ → Bytes → TreeCursor → TreeCursor → List Bytes →
    Run Thrown (List Bytes)
  | 0, _, _, _, _ => (none : Option (Except Thrown (List Bytes)))
  | fuel + 1, before, old, now, paths =>
    if (old.done = false ∨ now.done = false) ∧ paths.length ≤ walk.limit then do
      let order := orderOf old now
      let descend : Descend := fun oldTree newTree path paths => do
        let old ← openTree walk oldTree
        let now ← openTree walk newTree
        diffFrom walk fuel path old now paths
      let paths ← step descend old now before order paths
      let old ← advanceIf (order ≤ 0) old
      let now ← advanceIf (order ≥ 0) now
      diffFrom walk fuel before old now paths
    else pure paths

def diffLevel (walk : PathWalk) (fuel : ℕ) : Descend := fun oldTree newTree before paths => do
  let old ← openTree walk oldTree
  let now ← openTree walk newTree
  diffFrom walk fuel before old now paths

def firstParentChangedPaths (walk : PathWalk) (fuel : ℕ) (tree : Text)
    (parentTree : Option Text) : Run Thrown (List Bytes) :=
  diffLevel walk fuel parentTree (some tree) [] []

def computedFilter (read : Text → Except Thrown Bytes) (hash : HashConfig) (fuel : ℕ)
    (rootTree : Text) (parentTree : Option Text) (settings : BloomFilterSettings) :
    Run Thrown Bytes := do
  let paths ← firstParentChangedPaths ⟨read, hash, settings.maxChangedPaths⟩ fuel rootTree
    parentTree
  pure (changedPathFilter paths settings)

/-! ### Trees -/

/-- An entry of a raw tree: the digits of its mode without padding, its name, its raw id. -/
structure RawEntry where
  mode : Bytes
  name : Bytes
  oid : Bytes
  isDir : Bool
  deriving DecidableEq

/-- The sort key of an entry: the name, with a slash behind that of a directory. -/
def RawEntry.key (entry : RawEntry) : Bytes := encodeEntryName entry.name entry.isDir

def RawEntry.id (entry : RawEntry) : Text := bytesToHex entry.oid

def rawEntryOf (c : TreeCursor) : RawEntry :=
  ⟨subarray c.buf (Diff.skipLeadingZeros c.buf c.offset c.modeEnd) c.modeEnd, cursorNameBytes c,
    cursorOidBytes c, c.isDir⟩

/-- A cursor that will yield a row of raw entries. -/
def Stands : TreeCursor → List RawEntry → Prop
  | c, [] => c.done = true
  | c, entry :: rest => c.done = false ∧ rawEntryOf c = entry ∧ Diff.NameInside c ∧
      (cursorOidBytes c).length = c.hash.digestLength ∧
        ∃ next, advanceCursor c = .ok next ∧ next.hash = c.hash ∧ Stands next rest

def Holds (hash : HashConfig) (content : Bytes) (entries : List RawEntry) : Prop :=
  ∃ c, openTreeCursor content hash = .ok c ∧ c.hash = hash ∧ Stands c entries

/-- The entries of a tree, if any. -/
def EntriesAt (walk : PathWalk) (tree : Option Text) (entries : List RawEntry) : Prop :=
  ∃ content, tree.elim (.ok []) walk.readRawTreeById = .ok content ∧ Holds walk.hash content entries

/-- The mode and the id of a leaf. -/
abbrev Leaf := Bytes × Bytes

/-- **The leaves of a tree**: files, links and links to other repositories, by their paths. -/
inductive LeafAt (walk : PathWalk) : Option Text → Bytes → Leaf → Prop
  | here {tree : Option Text} {entries : List RawEntry} {entry : RawEntry} :
      EntriesAt walk tree entries → entry ∈ entries → entry.isDir = false →
        LeafAt walk tree entry.name (entry.mode, entry.oid)
  | inside {tree : Option Text} {entries : List RawEntry} {entry : RawEntry} {path : Bytes}
      {leaf : Leaf} : EntriesAt walk tree entries → entry ∈ entries → entry.isDir = true →
        LeafAt walk (some entry.id) path leaf → LeafAt walk tree (entry.name ++ slash :: path) leaf

/-- **A path at which two trees differ**: a leaf is at it in only one of them. -/
def Differs (walk : PathWalk) (old now : Option Text) (path : Bytes) : Prop :=
  ¬ ∀ leaf, LeafAt walk old path leaf ↔ LeafAt walk now path leaf

/-- A tree of finite depth that can be read: entries in order, none twice, names without a slash. -/
def WellFormed (walk : PathWalk) : ℕ → Option Text → Prop
  | 0, _ => False
  | depth + 1, tree => ∃ entries, EntriesAt walk tree entries ∧
      entries.Pairwise (fun a b => compareBytes a.key b.key < 0) ∧
      (∀ entry ∈ entries, entry.name ≠ [] ∧ slash ∉ entry.name) ∧
      ∀ entry ∈ entries, entry.isDir = true → WellFormed walk depth (some entry.id)

/-! ### Rows of entries -/

section

variable {walk : PathWalk} {path : Bytes} {leaf : Leaf} {entries olds news : List RawEntry}

theorem Stands.unique {c : TreeCursor} {entries' : List RawEntry} (h : Stands c entries)
    (h' : Stands c entries') : entries = entries' := by
  induction entries generalizing c entries' with
  | nil =>
    cases entries' with
    | nil => rfl
    | cons entry rest =>
      have hdone : c.done = true := h
      rw [h'.1] at hdone
      cases hdone
  | cons entry rest ih =>
    obtain ⟨hnot, hentry, -, -, next, hnext, -, hrest⟩ := h
    cases entries' with
    | nil =>
      have hdone : c.done = true := h'
      rw [hnot] at hdone
      cases hdone
    | cons entry' rest' =>
      obtain ⟨-, hentry', -, -, next', hnext', -, hrest'⟩ := h'
      rw [hnext] at hnext'
      cases hnext'
      rw [← hentry, ← hentry', ih hrest hrest']

theorem EntriesAt.unique {tree : Option Text} {entries' : List RawEntry}
    (h : EntriesAt walk tree entries) (h' : EntriesAt walk tree entries') :
    entries = entries' := by
  obtain ⟨content, hread, c, hopen, -, hstands⟩ := h
  obtain ⟨content', hread', c', hopen', -, hstands'⟩ := h'
  rw [hread] at hread'
  cases hread'
  rw [hopen] at hopen'
  cases hopen'
  exact hstands.unique hstands'

def EntryLeaf (walk : PathWalk) (entry : RawEntry) (path : Bytes) (leaf : Leaf) : Prop :=
  (entry.isDir = false ∧ path = entry.name ∧ leaf = (entry.mode, entry.oid)) ∨
    (entry.isDir = true ∧ ∃ rest, path = entry.name ++ slash :: rest ∧
      LeafAt walk (some entry.id) rest leaf)

def RowLeaf (walk : PathWalk) (entries : List RawEntry) (path : Bytes) (leaf : Leaf) : Prop :=
  ∃ entry ∈ entries, EntryLeaf walk entry path leaf

theorem leafAt_iff {tree : Option Text} (h : EntriesAt walk tree entries) :
    LeafAt walk tree path leaf ↔ RowLeaf walk entries path leaf := by
  constructor
  · intro hleaf
    cases hleaf with
    | here hentries hmem hfile =>
      obtain rfl := h.unique hentries
      exact ⟨_, hmem, .inl ⟨hfile, rfl, rfl⟩⟩
    | inside hentries hmem hdir hrest =>
      obtain rfl := h.unique hentries
      exact ⟨_, hmem, .inr ⟨hdir, _, rfl, hrest⟩⟩
  · rintro ⟨entry, hmem, ⟨hfile, rfl, rfl⟩ | ⟨hdir, rest, rfl, hrest⟩⟩
    · exact .here h hmem hfile
    · exact .inside h hmem hdir hrest

/-- The key of the entry that a path is below: up to its first slash, and with it. -/
def keyOf (path : Bytes) : Bytes :=
  if slash ∈ path then path.takeWhile (· ≠ slash) ++ [slash] else path

theorem keyOf_below {name rest : Bytes} (h : slash ∉ name) :
    keyOf (name ++ slash :: rest) = name ++ [slash] := by
  have hmem : slash ∈ name ++ slash :: rest := mem_append_right _ mem_cons_self
  have hall : ∀ b ∈ name, decide (b ≠ slash) = true := fun b hb =>
    decide_eq_true fun heq => h (heq ▸ hb)
  rw [keyOf, if_pos hmem, takeWhile_append_of_pos hall]
  have hstop : (slash :: rest).takeWhile (fun b => decide (b ≠ slash)) = [] := rfl
  rw [hstop, append_nil]

theorem EntryLeaf.key_eq {entry : RawEntry} (h : EntryLeaf walk entry path leaf)
    (hname : slash ∉ entry.name) : keyOf path = entry.key := by
  rcases h with ⟨hfile, rfl, -⟩ | ⟨hdir, rest, rfl, -⟩
  · rw [keyOf, if_neg hname, RawEntry.key, encodeEntryName, hfile]
    rfl
  · rw [keyOf_below hname, RawEntry.key, encodeEntryName, hdir]
    rfl

def RowsDiffer (walk : PathWalk) (olds news : List RawEntry) (path : Bytes) : Prop :=
  ¬ ∀ leaf, RowLeaf walk olds path leaf ↔ RowLeaf walk news path leaf

theorem differs_iff {old now : Option Text} (hold : EntriesAt walk old olds)
    (hnow : EntriesAt walk now news) : Differs walk old now path ↔ RowsDiffer walk olds news path :=
  not_congr (forall_congr' fun _ => iff_congr (leafAt_iff hold) (leafAt_iff hnow))

theorem rowLeaf_append {more : List RawEntry} :
    RowLeaf walk (entries ++ more) path leaf ↔
      RowLeaf walk entries path leaf ∨ RowLeaf walk more path leaf := by
  unfold RowLeaf
  simp only [mem_append, or_and_right, exists_or]

theorem RowLeaf.exists_key (h : RowLeaf walk entries path leaf)
    (hnames : ∀ entry ∈ entries, slash ∉ entry.name) :
    ∃ entry ∈ entries, entry.key = keyOf path := by
  obtain ⟨entry, hmem, hleaf⟩ := h
  exact ⟨entry, hmem, (hleaf.key_eq (hnames entry hmem)).symm⟩

theorem rowsDiffer_append {olds' news' : List RawEntry} {key : Bytes}
    (hnames : ∀ entry ∈ (olds ++ olds') ++ (news ++ news'), slash ∉ entry.name)
    (hhead : ∀ entry ∈ olds ++ news, entry.key = key)
    (hrest : ∀ entry ∈ olds' ++ news', entry.key ≠ key) :
    (RowsDiffer walk olds news path → keyOf path = key) ∧
    (RowsDiffer walk olds' news' path → keyOf path ≠ key) ∧
    (RowsDiffer walk (olds ++ olds') (news ++ news') path ↔
      RowsDiffer walk olds news path ∨ RowsDiffer walk olds' news' path) := by
  -- a row whose keys are not that of the path has no leaf at it
  have hnone : ∀ {row : List RawEntry}, (∀ entry ∈ row, slash ∉ entry.name) →
      (∀ entry ∈ row, entry.key ≠ keyOf path) → ∀ leaf, ¬ RowLeaf walk row path leaf := by
    intro row hslash hkeys leaf hleaf
    obtain ⟨entry, hmem, hkey⟩ := hleaf.exists_key hslash
    exact hkeys entry hmem hkey
  have hsame : ∀ {row row' : List RawEntry}, (∀ leaf, ¬ RowLeaf walk row path leaf) →
      (∀ leaf, ¬ RowLeaf walk row' path leaf) → ¬ RowsDiffer walk row row' path := by
    intro row row' hrow hrow'
    exact not_not_intro fun leaf => iff_of_false (hrow leaf) (hrow' leaf)
  simp only [mem_append, or_imp, forall_and] at hnames hhead hrest
  obtain ⟨⟨hnOlds, hnOlds'⟩, hnNews, hnNews'⟩ := hnames
  by_cases hkey : keyOf path = key
  · have hnoneOlds := hnone hnOlds' fun entry hmem heq => hrest.1 entry hmem (heq.trans hkey)
    have hnoneNews := hnone hnNews' fun entry hmem heq => hrest.2 entry hmem (heq.trans hkey)
    have hrestSame := hsame hnoneOlds hnoneNews
    refine ⟨fun _ => hkey, fun h => absurd h hrestSame, ?_⟩
    rw [or_iff_left hrestSame]
    refine not_congr (forall_congr' fun leaf => ?_)
    rw [rowLeaf_append, rowLeaf_append, or_iff_left (hnoneOlds leaf), or_iff_left (hnoneNews leaf)]
  · have hnoneOlds := hnone hnOlds fun entry hmem heq =>
      hkey (heq.symm.trans (hhead.1 entry hmem))
    have hnoneNews := hnone hnNews fun entry hmem heq =>
      hkey (heq.symm.trans (hhead.2 entry hmem))
    have hheadSame := hsame hnoneOlds hnoneNews
    refine ⟨fun h => absurd h hheadSame, fun _ => hkey, ?_⟩
    rw [or_iff_right hheadSame]
    refine not_congr (forall_congr' fun leaf => ?_)
    rw [rowLeaf_append, rowLeaf_append, or_iff_right (hnoneOlds leaf),
      or_iff_right (hnoneNews leaf)]

end

/-! ### One turn of the join -/

section

variable {walk : PathWalk} {old now : TreeCursor} {entry : RawEntry} {rest : List RawEntry}
  {order : ℤ} {before : Bytes} {paths : List Bytes}

theorem Stands.head (h : Stands old (entry :: rest)) :
    cursorNameBytes old = entry.name ∧ old.isDir = entry.isDir ∧
      ofCursor (cursorOid old) = pure entry.id := by
  obtain ⟨-, rfl, -, hlength, -⟩ := h
  refine ⟨rfl, rfl, ?_⟩
  rw [cursorOid, fromRaw_eq_ok old.hash hlength]
  rfl

theorem cursorsSame_iff_of_stands {entry' : RawEntry} {rest' : List RawEntry}
    (h : Stands old (entry :: rest)) (h' : Stands now (entry' :: rest'))
    (hhash : old.hash = now.hash) : Diff.cursorsSame old now = true ↔
      entry.mode = entry'.mode ∧ entry.oid = entry'.oid := by
  obtain ⟨-, rfl, -⟩ := h
  obtain ⟨-, rfl, -⟩ := h'
  rw [Diff.cursorsSame, Bool.and_eq_true, Diff.sameOid, Diff.sameMode, decide_eq_true_iff,
    decide_eq_true_iff, hhash, and_comm]
  exact Iff.rfl

theorem step_file {descend : Descend} (hskip : ¬ (order = 0 ∧ Diff.cursorsSame old now = true))
    {c : TreeCursor} (hc : (if order > 0 then now else old) = c)
    (hname : cursorNameBytes c = entry.name) (hfile : c.isDir = false) :
    step descend old now before order paths = pure (paths ++ [joinPath before entry.name]) := by
  unfold step
  rw [if_neg hskip, hc]
  dsimp only
  rw [if_pos hfile, childPath, hname]

theorem step_dir {descend : Descend} (hskip : ¬ (order = 0 ∧ Diff.cursorsSame old now = true))
    {c : TreeCursor} (hc : (if order > 0 then now else old) = c)
    (hname : cursorNameBytes c = entry.name) (hdir : c.isDir = true) {oldTree newTree : Option Text}
    (hold : sideOf (order ≤ 0) old = pure oldTree)
    (hnew : sideOf (order ≥ 0) now = pure newTree) :
    step descend old now before order paths =
      descend oldTree newTree (joinPath before entry.name) paths := by
  unfold step
  rw [if_neg hskip, hc]
  dsimp only
  rw [if_neg (by rw [hdir]; exact Bool.false_ne_true.symm), hold, hnew, pure_bind, pure_bind,
    childPath, hname]

end

/-! ### What the join finds -/

section

variable {walk : PathWalk} {olds news : List RawEntry} {path : Bytes}

/-- The paths that two trees differ at are found, each once, up to the limit. -/
structure Finds (walk : PathWalk) (old now : Option Text) (found : List Bytes) : Prop where
  nodup : found.Nodup
  mem_iff : ∀ path, path ∈ found ↔ Differs walk old now path
  yields : ∀ before paths, paths.length ≤ walk.limit + 1 →
    Yields (fun fuel => diffLevel walk fuel old now before paths)
      ((paths ++ found.map (joinPath before)).take (walk.limit + 1))

/-- One turn finds the paths that the entries it takes differ at. -/
structure TurnFinds (walk : PathWalk) (olds news : List RawEntry) (old now : TreeCursor)
    (order : ℤ) (found : List Bytes) : Prop where
  nodup : found.Nodup
  mem_iff : ∀ path, path ∈ found ↔ RowsDiffer walk olds news path
  yields : ∀ before paths, paths.length ≤ walk.limit →
    Yields (fun fuel => step (diffLevel walk fuel) old now before order paths)
      ((paths ++ found.map (joinPath before)).take (walk.limit + 1))

theorem take_take_append {α : Type} (xs ys : List α) (count : ℕ) :
    (xs.take count ++ ys).take count = (xs ++ ys).take count := by
  rw [take_append, take_append, take_take, Nat.min_self, length_take]
  rcases Nat.lt_or_ge xs.length count with hlt | hle
  · rw [Nat.min_eq_right hlt.le]
  · rw [Nat.min_eq_left hle, Nat.sub_self, Nat.sub_eq_zero_of_le hle]

theorem joinPath_joinPath {before name : Bytes} (hname : name ≠ []) (below : Bytes) :
    joinPath (joinPath before name) below = joinPath before (name ++ slash :: below) := by
  have hlength : name.length ≠ 0 := fun h => hname (length_eq_zero_iff.mp h)
  unfold joinPath
  by_cases hbefore : before.length = 0
  · rw [if_pos hbefore, if_pos hbefore, if_neg hlength]
  · rw [if_neg hbefore, if_neg hbefore, if_neg (by rw [length_append]; omega), append_assoc]
    rfl

theorem rowLeaf_singleton {entry : RawEntry} {leaf : Leaf} :
    RowLeaf walk [entry] path leaf ↔ EntryLeaf walk entry path leaf := by
  unfold RowLeaf
  simp only [mem_singleton, exists_eq_left]

theorem not_rowLeaf_nil {leaf : Leaf} : ¬ RowLeaf walk [] path leaf := by
  rintro ⟨entry, hmem, -⟩
  exact absurd hmem not_mem_nil

theorem entriesAt_none : EntriesAt walk none [] := ⟨[], rfl, _, rfl, rfl, rfl⟩

theorem not_leafAt_none {leaf : Leaf} : ¬ LeafAt walk none path leaf := fun h =>
  not_rowLeaf_nil ((leafAt_iff entriesAt_none).mp h)

theorem rowsDiffer_file {name : Bytes} {oldLeaf newLeaf : Option Leaf}
    (hold : ∀ path leaf, RowLeaf walk olds path leaf ↔ path = name ∧ oldLeaf = some leaf)
    (hnew : ∀ path leaf, RowLeaf walk news path leaf ↔ path = name ∧ newLeaf = some leaf)
    (hne : oldLeaf ≠ newLeaf) (path : Bytes) : path ∈ [name] ↔ RowsDiffer walk olds news path := by
  rw [mem_singleton]
  constructor
  · rintro rfl hall
    refine hne (Option.ext fun leaf => ?_)
    have hleaf := hall leaf
    rw [hold, hnew] at hleaf
    simpa only [true_and] using hleaf
  · intro hdiffer
    by_contra hpath
    refine hdiffer fun leaf => ?_
    rw [hold, hnew]
    exact iff_of_false (fun h => hpath h.1) fun h => hpath h.1

theorem rowsDiffer_dir {name : Bytes} {oldTree newTree : Option Text} {found : List Bytes}
    (hold : ∀ path leaf, RowLeaf walk olds path leaf ↔
      ∃ below, path = name ++ slash :: below ∧ LeafAt walk oldTree below leaf)
    (hnew : ∀ path leaf, RowLeaf walk news path leaf ↔
      ∃ below, path = name ++ slash :: below ∧ LeafAt walk newTree below leaf)
    (hfound : ∀ path, path ∈ found ↔ Differs walk oldTree newTree path) (path : Bytes) :
    path ∈ found.map (fun below => name ++ slash :: below) ↔ RowsDiffer walk olds news path := by
  have hbelow : ∀ {tree : Option Text} {below : Bytes} {leaf : Leaf},
      (∃ other, name ++ slash :: below = name ++ slash :: other ∧ LeafAt walk tree other leaf) ↔
        LeafAt walk tree below leaf := by
    intro tree below leaf
    constructor
    · rintro ⟨other, heq, hleaf⟩
      have hsame := (cons.inj (append_cancel_left heq)).2
      exact hsame ▸ hleaf
    · exact fun hleaf => ⟨below, rfl, hleaf⟩
  rw [mem_map]
  constructor
  · rintro ⟨below, hmem, rfl⟩ hall
    refine (hfound below).mp hmem fun leaf => ?_
    have hleaf := hall leaf
    rwa [hold, hnew, hbelow, hbelow] at hleaf
  · intro hdiffer
    have hpath : ∃ below, path = name ++ slash :: below := by
      by_contra hnone
      refine hdiffer fun leaf => ?_
      rw [hold, hnew]
      exact iff_of_false (fun ⟨below, heq, _⟩ => hnone ⟨below, heq⟩)
        fun ⟨below, heq, _⟩ => hnone ⟨below, heq⟩
    obtain ⟨below, rfl⟩ := hpath
    refine ⟨below, (hfound below).mpr fun hall => hdiffer fun leaf => ?_, rfl⟩
    rw [hold, hnew, hbelow, hbelow]
    exact hall leaf

theorem entryLeaf_file {entry : RawEntry} (hfile : entry.isDir = false) (path : Bytes)
    (leaf : Leaf) : EntryLeaf walk entry path leaf ↔
      path = entry.name ∧ some (entry.mode, entry.oid) = some leaf := by
  unfold EntryLeaf
  rw [hfile, Option.some.injEq]
  constructor
  · rintro (⟨-, hpath, hleaf⟩ | ⟨hdir, -⟩)
    · exact ⟨hpath, hleaf.symm⟩
    · cases hdir
  · rintro ⟨hpath, hleaf⟩
    exact .inl ⟨rfl, hpath, hleaf.symm⟩

theorem entryLeaf_dir {entry : RawEntry} (hdir : entry.isDir = true) (path : Bytes)
    (leaf : Leaf) : EntryLeaf walk entry path leaf ↔
      ∃ below, path = entry.name ++ slash :: below ∧ LeafAt walk (some entry.id) below leaf := by
  unfold EntryLeaf
  rw [hdir]
  constructor
  · rintro (⟨hfile, -⟩ | ⟨-, h⟩)
    · cases hfile
    · exact h
  · exact fun h => .inr ⟨rfl, h⟩

/-- A turn that records a file. -/
theorem turnFinds_file {old now : TreeCursor} {order : ℤ} {entry : RawEntry}
    (hskip : ¬ (order = 0 ∧ Diff.cursorsSame old now = true)) {c : TreeCursor}
    (hc : (if order > 0 then now else old) = c) (hname : cursorNameBytes c = entry.name)
    (hfile : c.isDir = false)
    (hmem : ∀ path, path ∈ [entry.name] ↔ RowsDiffer walk olds news path) :
    TurnFinds walk olds news old now order [entry.name] := by
  refine ⟨nodup_singleton _, hmem, fun before paths hroom => ⟨0, fun fuel _ => ?_⟩⟩
  have hlength : (paths ++ [joinPath before entry.name]).length ≤ walk.limit + 1 := by
    rw [length_append, length_singleton]
    omega
  rw [map_singleton, take_of_length_le hlength]
  exact step_file hskip hc hname hfile

/-- A turn that descends. -/
theorem turnFinds_dir {old now : TreeCursor} {order : ℤ} {entry : RawEntry}
    (hskip : ¬ (order = 0 ∧ Diff.cursorsSame old now = true)) {c : TreeCursor}
    (hc : (if order > 0 then now else old) = c) (hname : cursorNameBytes c = entry.name)
    (hdir : c.isDir = true) (hne : entry.name ≠ []) {oldTree newTree : Option Text}
    (hold : sideOf (order ≤ 0) old = pure oldTree) (hnew : sideOf (order ≥ 0) now = pure newTree)
    {found : List Bytes} (hfinds : Finds walk oldTree newTree found)
    (hmem : ∀ path, path ∈ found.map (fun below => entry.name ++ slash :: below) ↔
      RowsDiffer walk olds news path) :
    TurnFinds walk olds news old now order
      (found.map fun below => entry.name ++ slash :: below) := by
  refine ⟨hfinds.nodup.map fun a b heq => ?_, hmem, fun before paths hroom => ?_⟩
  · exact (cons.inj (append_cancel_left heq)).2
  obtain ⟨enough, hrun⟩ := hfinds.yields (joinPath before entry.name) paths (by omega)
  refine ⟨enough, fun fuel hfuel => ?_⟩
  have hmap : found.map (joinPath (joinPath before entry.name)) =
      (found.map fun below => entry.name ++ slash :: below).map (joinPath before) := by
    rw [map_map]
    exact map_congr_left fun below _ => joinPath_joinPath hne below
  rw [← hmap]
  exact (step_dir hskip hc hname hdir hold hnew).trans (hrun fuel hfuel)

/-- What the rows under two cursors differ at is found. -/
structure RowFinds (walk : PathWalk) (olds news : List RawEntry) (old now : TreeCursor)
    (found : List Bytes) : Prop where
  nodup : found.Nodup
  mem_iff : ∀ path, path ∈ found ↔ RowsDiffer walk olds news path
  yields : ∀ before paths, paths.length ≤ walk.limit + 1 →
    Yields (fun fuel => diffFrom walk fuel before old now paths)
      ((paths ++ found.map (joinPath before)).take (walk.limit + 1))

theorem rowFinds_nil {old now : TreeCursor} (hold : old.done = true) (hnow : now.done = true) :
    RowFinds walk [] [] old now [] := by
  refine ⟨nodup_nil, fun path => ?_, fun before paths hroom => ⟨1, fun fuel hfuel => ?_⟩⟩
  · refine iff_of_false not_mem_nil (not_not_intro fun leaf => ?_)
    exact iff_of_false not_rowLeaf_nil not_rowLeaf_nil
  obtain ⟨fuel, rfl⟩ : ∃ more, fuel = more + 1 := ⟨fuel - 1, by omega⟩
  have hend : ¬ ((old.done = false ∨ now.done = false) ∧ paths.length ≤ walk.limit) := by
    rw [hold, hnow]
    rintro ⟨h | h, -⟩
    · cases h
    · cases h
  rw [map_nil, append_nil, take_of_length_le hroom]
  exact if_neg hend

theorem TurnFinds.cons {olds' news' : List RawEntry} {old now old' now' : TreeCursor} {order : ℤ}
    {found found' : List Bytes} (h : TurnFinds walk olds news old now order found)
    (hrest : RowFinds walk olds' news' old' now' found')
    (hopen : old.done = false ∨ now.done = false) (horder : orderOf old now = order)
    (hold : advanceIf (order ≤ 0) old = pure old') (hnow : advanceIf (order ≥ 0) now = pure now')
    {key : Bytes} (hnames : ∀ entry ∈ (olds ++ olds') ++ (news ++ news'), slash ∉ entry.name)
    (hhead : ∀ entry ∈ olds ++ news, entry.key = key)
    (htail : ∀ entry ∈ olds' ++ news', entry.key ≠ key) :
    RowFinds walk (olds ++ olds') (news ++ news') old now (found ++ found') := by
  have happend := fun path => @rowsDiffer_append walk path olds news olds' news' key hnames hhead
    htail
  refine ⟨?_, fun path => ?_, fun before paths hroom => ?_⟩
  · refine nodup_append'.mpr ⟨h.nodup, hrest.nodup, fun path hmem hmem' => ?_⟩
    exact (happend path).2.1 ((hrest.mem_iff path).mp hmem')
      ((happend path).1 ((h.mem_iff path).mp hmem))
  · rw [mem_append, h.mem_iff, hrest.mem_iff, (happend path).2.2]
  by_cases hmore : paths.length ≤ walk.limit
  · obtain ⟨enough, hstep⟩ := h.yields before paths hmore
    obtain ⟨enough', hloop⟩ := hrest.yields before
      ((paths ++ found.map (joinPath before)).take (walk.limit + 1)) (length_take_le _ _)
    refine ⟨max enough enough' + 1, fun fuel hfuel => ?_⟩
    obtain ⟨fuel, rfl⟩ : ∃ more, fuel = more + 1 := ⟨fuel - 1, by omega⟩
    have hstep' : step (diffLevel walk fuel) old now before order paths =
        pure ((paths ++ found.map (joinPath before)).take (walk.limit + 1)) :=
      hstep fuel (by omega)
    have hloop' := hloop fuel (by omega)
    dsimp only at hloop' ⊢
    rw [take_take_append, append_assoc, ← map_append] at hloop'
    rw [diffFrom, if_pos ⟨hopen, hmore⟩, horder]
    have hdescend : (fun oldTree newTree path paths => do
        let old ← openTree walk oldTree
        let now ← openTree walk newTree
        diffFrom walk fuel path old now paths) = diffLevel walk fuel := rfl
    dsimp only
    rw [hdescend, hstep', pure_bind, hold, pure_bind, hnow, pure_bind, hloop']
  · refine ⟨1, fun fuel hfuel => ?_⟩
    obtain ⟨fuel, rfl⟩ : ∃ more, fuel = more + 1 := ⟨fuel - 1, by omega⟩
    have hfull : (paths ++ (found ++ found').map (joinPath before)).take (walk.limit + 1) =
        paths := by
      rw [take_append_of_le_length (by omega), take_of_length_le hroom]
    rw [hfull]
    exact if_neg fun hboth => hmore hboth.2

/-- A row of a tree that is well formed, with trees of a depth below it. -/
structure GoodRow (walk : PathWalk) (depth : ℕ) (entries : List RawEntry) : Prop where
  ordered : entries.Pairwise fun a b => compareBytes a.key b.key < 0
  names : ∀ entry ∈ entries, entry.name ≠ [] ∧ slash ∉ entry.name
  trees : ∀ entry ∈ entries, entry.isDir = true → WellFormed walk depth (some entry.id)

theorem GoodRow.tail {depth : ℕ} {entry : RawEntry} {entries : List RawEntry}
    (h : GoodRow walk depth (entry :: entries)) : GoodRow walk depth entries :=
  ⟨(pairwise_cons.mp h.ordered).2, (forall_mem_cons.mp h.names).2, (forall_mem_cons.mp h.trees).2⟩

theorem WellFormed.none {depth : ℕ} {tree : Option Text} (h : WellFormed walk depth tree) :
    WellFormed walk depth none := by
  cases depth with
  | zero => exact h.elim
  | succ depth =>
    exact ⟨[], entriesAt_none, List.Pairwise.nil, forall_mem_nil _,
      forall_mem_nil _⟩

theorem RawEntry.name_eq_of_key {a b : RawEntry} (ha : slash ∉ a.name) (hb : slash ∉ b.name)
    (h : a.key = b.key) : a.name = b.name ∧ a.isDir = b.isDir := by
  unfold RawEntry.key encodeEntryName at h
  cases hdir : a.isDir with
  | true =>
    cases hdir' : b.isDir with
    | true =>
      rw [hdir, hdir', if_pos rfl, if_pos rfl] at h
      exact ⟨append_cancel_right h, rfl⟩
    | false =>
      rw [hdir, hdir', if_pos rfl, if_neg Bool.false_ne_true] at h
      exact absurd (h ▸ mem_append_right _ (mem_singleton_self _)) hb
  | false =>
    cases hdir' : b.isDir with
    | true =>
      rw [hdir, hdir', if_pos rfl, if_neg Bool.false_ne_true] at h
      exact absurd (h ▸ mem_append_right _ (mem_singleton_self _)) ha
    | false =>
      rw [hdir, hdir', if_neg Bool.false_ne_true, if_neg Bool.false_ne_true] at h
      exact ⟨h, rfl⟩

section

variable {depth : ℕ} {old now : TreeCursor} {entry entry' : RawEntry}
  {rest rest' : List RawEntry} {order : ℤ}

/-- The trees below are found. -/
def FindsBelow (walk : PathWalk) (depth : ℕ) : Prop :=
  ∀ old now, WellFormed walk depth old → WellFormed walk depth now →
    ∃ found, Finds walk old now found

theorem turnFinds_old (hbelow : FindsBelow walk depth) (hgood : GoodRow walk depth (entry :: rest))
    (h : Stands old (entry :: rest)) (horder : order < 0) :
    ∃ found, TurnFinds walk [entry] [] old now order found := by
  obtain ⟨hname, hisDir, hid⟩ := h.head
  have hskip : ¬ (order = 0 ∧ Diff.cursorsSame old now = true) := fun hboth =>
    absurd hboth.1 (by omega)
  have hc : (if order > 0 then now else old) = old := if_neg (by omega)
  have hempty : ∀ path leaf, RowLeaf walk [] path leaf ↔
      path = entry.name ∧ (none : Option Leaf) = some leaf := fun path leaf =>
    iff_of_false not_rowLeaf_nil fun hboth => Option.some_ne_none _ hboth.2.symm
  cases hkind : entry.isDir with
  | false =>
    refine ⟨_, turnFinds_file hskip hc hname (hisDir.trans hkind)
      (rowsDiffer_file (fun path leaf => ?_) hempty
        (Option.some_ne_none (entry.mode, entry.oid)))⟩
    rw [rowLeaf_singleton]
    exact entryLeaf_file hkind path leaf
  | true =>
    have htree := hgood.trees entry mem_cons_self hkind
    obtain ⟨found, hfound⟩ := hbelow (some entry.id) none htree htree.none
    have holdTree : sideOf (order ≤ 0) old = pure (some entry.id) := by
      rw [sideOf, if_pos (decide_eq_true (by omega)), hid]
      rfl
    have hnewTree : sideOf (order ≥ 0) now = pure none :=
      if_neg (by rw [decide_eq_true_iff]; omega)
    refine ⟨_, turnFinds_dir hskip hc hname (hisDir.trans hkind)
      (hgood.names entry mem_cons_self).1 holdTree hnewTree hfound
        (rowsDiffer_dir (fun path leaf => ?_) (fun path leaf => ?_) hfound.mem_iff)⟩
    · rw [rowLeaf_singleton]
      exact entryLeaf_dir hkind path leaf
    · exact iff_of_false not_rowLeaf_nil fun ⟨_, _, hleaf⟩ => not_leafAt_none hleaf

theorem turnFinds_new (hbelow : FindsBelow walk depth) (hgood : GoodRow walk depth (entry :: rest))
    (h : Stands now (entry :: rest)) (horder : 0 < order) :
    ∃ found, TurnFinds walk [] [entry] old now order found := by
  obtain ⟨hname, hisDir, hid⟩ := h.head
  have hskip : ¬ (order = 0 ∧ Diff.cursorsSame old now = true) := fun hboth =>
    absurd hboth.1 (by omega)
  have hc : (if order > 0 then now else old) = now := if_pos (by omega)
  have hempty : ∀ path leaf, RowLeaf walk [] path leaf ↔
      path = entry.name ∧ (none : Option Leaf) = some leaf := fun path leaf =>
    iff_of_false not_rowLeaf_nil fun hboth => Option.some_ne_none _ hboth.2.symm
  cases hkind : entry.isDir with
  | false =>
    refine ⟨_, turnFinds_file hskip hc hname (hisDir.trans hkind)
      (rowsDiffer_file hempty (fun path leaf => ?_)
        (Option.some_ne_none (entry.mode, entry.oid)).symm)⟩
    rw [rowLeaf_singleton]
    exact entryLeaf_file hkind path leaf
  | true =>
    have htree := hgood.trees entry mem_cons_self hkind
    obtain ⟨found, hfound⟩ := hbelow none (some entry.id) htree.none htree
    have holdTree : sideOf (order ≤ 0) old = pure none :=
      if_neg (by rw [decide_eq_true_iff]; omega)
    have hnewTree : sideOf (order ≥ 0) now = pure (some entry.id) := by
      rw [sideOf, if_pos (decide_eq_true (by omega)), hid]
      rfl
    refine ⟨_, turnFinds_dir hskip hc hname (hisDir.trans hkind)
      (hgood.names entry mem_cons_self).1 holdTree hnewTree hfound
        (rowsDiffer_dir (fun path leaf => ?_) (fun path leaf => ?_) hfound.mem_iff)⟩
    · exact iff_of_false not_rowLeaf_nil fun ⟨_, _, hleaf⟩ => not_leafAt_none hleaf
    · rw [rowLeaf_singleton]
      exact entryLeaf_dir hkind path leaf

theorem turnFinds_both (hbelow : FindsBelow walk depth)
    (hgood : GoodRow walk depth (entry :: rest)) (hgood' : GoodRow walk depth (entry' :: rest'))
    (h : Stands old (entry :: rest)) (h' : Stands now (entry' :: rest'))
    (hhash : old.hash = now.hash) (hkey : entry.key = entry'.key) :
    ∃ found, TurnFinds walk [entry] [entry'] old now 0 found := by
  obtain ⟨hname, hisDir, hid⟩ := h.head
  obtain ⟨-, -, hid'⟩ := h'.head
  obtain ⟨hne, hslash⟩ := hgood.names entry mem_cons_self
  obtain ⟨hsameName, hsameKind⟩ := RawEntry.name_eq_of_key hslash
    (hgood'.names entry' mem_cons_self).2 hkey
  by_cases hsame : Diff.cursorsSame old now = true
  · obtain ⟨hmode, hoid⟩ := (cursorsSame_iff_of_stands h h' hhash).mp hsame
    have hentry : entry = entry' := by
      obtain ⟨mode, name, oid, isDir⟩ := entry
      obtain ⟨mode', name', oid', isDir'⟩ := entry'
      dsimp only at hmode hoid hsameName hsameKind
      rw [hmode, hoid, hsameName, hsameKind]
    subst hentry
    refine ⟨[], nodup_nil, fun path => ?_, fun before paths hroom => ⟨0, fun fuel _ => ?_⟩⟩
    · exact iff_of_false not_mem_nil (not_not_intro fun _ => Iff.rfl)
    · rw [map_nil, append_nil, take_of_length_le (by omega)]
      exact if_pos ⟨rfl, hsame⟩
  · have hskip : ¬ ((0 : ℤ) = 0 ∧ Diff.cursorsSame old now = true) := fun hboth => hsame hboth.2
    have hc : (if (0 : ℤ) > 0 then now else old) = old := rfl
    cases hkind : entry.isDir with
    | false =>
      have hleaf : some (entry.mode, entry.oid) ≠ some (entry'.mode, entry'.oid) := by
        intro heq
        have hpair := Prod.mk.inj (Option.some.inj heq)
        exact hsame ((cursorsSame_iff_of_stands h h' hhash).mpr hpair)
      refine ⟨_, turnFinds_file hskip hc hname (hisDir.trans hkind)
        (rowsDiffer_file (fun path leaf => ?_) (fun path leaf => ?_) hleaf)⟩
      · rw [rowLeaf_singleton]
        exact entryLeaf_file hkind path leaf
      · rw [rowLeaf_singleton, hsameName]
        exact entryLeaf_file (hsameKind.symm.trans hkind) path leaf
    | true =>
      have hkind' := hsameKind.symm.trans hkind
      obtain ⟨found, hfound⟩ := hbelow (some entry.id) (some entry'.id)
        (hgood.trees entry mem_cons_self hkind)
        (hgood'.trees entry' mem_cons_self hkind')
      have holdTree : sideOf (decide ((0 : ℤ) ≤ 0)) old = pure (some entry.id) := by
        rw [sideOf, if_pos (by decide), hid]
        rfl
      have hnewTree : sideOf (decide ((0 : ℤ) ≥ 0)) now = pure (some entry'.id) := by
        rw [sideOf, if_pos (by decide), hid']
        rfl
      refine ⟨_, turnFinds_dir hskip hc hname (hisDir.trans hkind) hne holdTree hnewTree hfound
        (rowsDiffer_dir (fun path leaf => ?_) (fun path leaf => ?_) hfound.mem_iff)⟩
      · rw [rowLeaf_singleton]
        exact entryLeaf_dir hkind path leaf
      · rw [rowLeaf_singleton, hsameName]
        exact entryLeaf_dir hkind' path leaf

end

theorem Stands.advance {c : TreeCursor} {entry : RawEntry} {rest : List RawEntry}
    (h : Stands c (entry :: rest)) : ∃ next, ofCursor (advanceCursor c) = pure next ∧
      next.hash = c.hash ∧ Stands next rest := by
  obtain ⟨-, -, -, -, next, hnext, hhash, hrest⟩ := h
  exact ⟨next, by rw [hnext]; rfl, hhash, hrest⟩

theorem orderOf_eq {old now : TreeCursor} {entry entry' : RawEntry} {rest rest' : List RawEntry}
    (h : Stands old (entry :: rest)) (h' : Stands now (entry' :: rest')) :
    orderOf old now = compareBytes entry.key entry'.key := by
  obtain ⟨hdone, rfl, hinside, -⟩ := h
  obtain ⟨hdone', rfl, hinside', -⟩ := h'
  rw [orderOf, hdone, hdone', if_neg Bool.false_ne_true, if_neg Bool.false_ne_true,
    Diff.compareCursorNames_eq hinside hinside']
  rfl

theorem key_ne_of_neg {a b : RawEntry} (h : compareBytes a.key b.key < 0) : b.key ≠ a.key := by
  intro heq
  rw [compareBytes_eq_zero_iff.mpr heq.symm] at h
  exact absurd h (by decide)

theorem GoodRow.key_ne {depth : ℕ} {entry : RawEntry} {entries : List RawEntry}
    (h : GoodRow walk depth (entry :: entries)) : ∀ other ∈ entries, other.key ≠ entry.key :=
  fun other hmem => key_ne_of_neg ((pairwise_cons.mp h.ordered).1 other hmem)

theorem GoodRow.key_ne_of_before {depth : ℕ} {entry : RawEntry} {entries : List RawEntry}
    (h : GoodRow walk depth (entry :: entries)) {a : RawEntry}
    (ha : compareBytes a.key entry.key < 0) :
    ∀ other ∈ entry :: entries, other.key ≠ a.key := by
  intro other hmem
  rcases mem_cons.mp hmem with rfl | hmem
  · exact key_ne_of_neg ha
  · exact key_ne_of_neg (compareBytes_neg_of_neg_of_nonpos ha
      ((pairwise_cons.mp h.ordered).1 other hmem).le)

/-- **The loop finds what the rows differ at**, by induction on how many entries are left. -/
theorem exists_rowFinds {depth : ℕ} (hbelow : FindsBelow walk depth) {old now : TreeCursor}
    (hgood : GoodRow walk depth olds) (hgood' : GoodRow walk depth news) (h : Stands old olds)
    (h' : Stands now news) (hhash : old.hash = now.hash) :
    ∃ found, RowFinds walk olds news old now found := by
  induction hsize : olds.length + news.length using Nat.strongRecOn
      generalizing olds news old now with
  | ind size ih =>
    have hall : ∀ entry ∈ olds ++ news, slash ∉ entry.name := by
      intro entry hmem
      rcases mem_append.mp hmem with hmem | hmem
      · exact (hgood.names entry hmem).2
      · exact (hgood'.names entry hmem).2
    -- a turn that takes the old entry, the new one, or both
    have htakeOld : ∀ entry rest, olds = entry :: rest → orderOf old now < 0 →
        (∀ other ∈ news, other.key ≠ entry.key) →
          ∃ found, RowFinds walk olds news old now found := by
      rintro entry rest rfl horder hkeys
      obtain ⟨next, hnext, hhashNext, hstands⟩ := h.advance
      obtain ⟨found, hfound⟩ := @turnFinds_old walk depth old now entry rest _ hbelow hgood h
        horder
      obtain ⟨found', hfound'⟩ := ih (rest.length + news.length)
        (by rw [← hsize, length_cons]; omega) hgood.tail hgood' hstands h'
          (hhashNext.trans hhash) rfl
      refine ⟨_, @TurnFinds.cons walk [entry] [] rest news old now next now _ found found' hfound
        hfound' (.inl h.1) rfl ?_ ?_ entry.key hall ?_ ?_⟩
      · exact (if_pos (decide_eq_true (by omega))).trans hnext
      · exact if_neg (by rw [decide_eq_true_iff]; omega)
      · exact fun other hmem => congrArg RawEntry.key (mem_singleton.mp hmem)
      · intro other hmem
        rcases mem_append.mp hmem with hmem | hmem
        · exact hgood.key_ne other hmem
        · exact hkeys other hmem
    have htakeNew : ∀ entry rest, news = entry :: rest → 0 < orderOf old now →
        (∀ other ∈ olds, other.key ≠ entry.key) →
          ∃ found, RowFinds walk olds news old now found := by
      rintro entry rest rfl horder hkeys
      obtain ⟨next, hnext, hhashNext, hstands⟩ := h'.advance
      obtain ⟨found, hfound⟩ := @turnFinds_new walk depth old now entry rest _ hbelow hgood' h'
        horder
      obtain ⟨found', hfound'⟩ := ih (olds.length + rest.length)
        (by rw [← hsize, length_cons]; omega) hgood hgood'.tail h hstands
          (hhash.trans hhashNext.symm) rfl
      refine ⟨_, @TurnFinds.cons walk [] [entry] olds rest old now old next _ found found' hfound
        hfound' (.inr h'.1) rfl ?_ ?_ entry.key hall ?_ ?_⟩
      · exact if_neg (by rw [decide_eq_true_iff]; omega)
      · exact (if_pos (decide_eq_true (by omega))).trans hnext
      · exact fun other hmem => congrArg RawEntry.key (mem_singleton.mp hmem)
      · intro other hmem
        rcases mem_append.mp hmem with hmem | hmem
        · exact hkeys other hmem
        · exact hgood'.key_ne other hmem
    cases olds with
    | nil =>
      have hdone : old.done = true := h
      cases news with
      | nil => exact ⟨[], rowFinds_nil hdone h'⟩
      | cons entry rest =>
        refine htakeNew entry rest rfl ?_ (forall_mem_nil _)
        rw [orderOf, if_pos hdone]
        decide
    | cons entry rest =>
      cases news with
      | nil =>
        have hdone : now.done = true := h'
        refine htakeOld entry rest rfl ?_ (forall_mem_nil _)
        rw [orderOf, h.1, if_neg Bool.false_ne_true, if_pos hdone]
        decide
      | cons entry' rest' =>
        have horder := orderOf_eq h h'
        rcases lt_trichotomy (compareBytes entry.key entry'.key) 0 with hlt | heq | hgt
        · exact htakeOld entry rest rfl (horder ▸ hlt) (hgood'.key_ne_of_before hlt)
        · have hkey := compareBytes_eq_zero_iff.mp heq
          obtain ⟨next, hnext, hhashNext, hstands⟩ := h.advance
          obtain ⟨next', hnext', hhashNext', hstands'⟩ := h'.advance
          obtain ⟨found, hfound⟩ := turnFinds_both hbelow hgood hgood' h h' hhash hkey
          obtain ⟨found', hfound'⟩ := ih (rest.length + rest'.length)
            (by rw [← hsize, length_cons, length_cons]; omega) hgood.tail
              hgood'.tail hstands hstands' (hhashNext.trans (hhash.trans hhashNext'.symm)) rfl
          refine ⟨_, @TurnFinds.cons walk [entry] [entry'] rest rest' old now next next' 0
            found found' hfound hfound' (.inl h.1) (horder.trans heq) hnext hnext' entry.key
              hall ?_ ?_⟩
          · intro other hmem
            rcases mem_append.mp hmem with hmem | hmem
            · rw [mem_singleton.mp hmem]
            · rw [mem_singleton.mp hmem, hkey]
          · intro other hmem
            rcases mem_append.mp hmem with hmem | hmem
            · exact hgood.key_ne other hmem
            · exact hkey ▸ hgood'.key_ne other hmem
        · have hlt : compareBytes entry'.key entry.key < 0 := by
            rw [compareBytes_swap]
            omega
          exact htakeNew entry' rest' rfl (horder ▸ hgt) (hgood.key_ne_of_before hlt)

/-- **The join finds what two trees differ at**, by induction on their depth. -/
theorem diffLevel_spec (depth : ℕ) : FindsBelow walk depth := by
  induction depth with
  | zero => exact fun _ _ h _ => h.elim
  | succ depth ih =>
    rintro old now ⟨olds, hold, hordered, hnames, htrees⟩ ⟨news, hnow, hordered', hnames', htrees'⟩
    obtain ⟨content, hread, c, hopen, hhash, hstands⟩ := id hold
    obtain ⟨content', hread', c', hopen', hhash', hstands'⟩ := id hnow
    obtain ⟨found, hfound⟩ := exists_rowFinds ih ⟨hordered, hnames, htrees⟩
      ⟨hordered', hnames', htrees'⟩ hstands hstands' (hhash.trans hhash'.symm)
    have hopenTree : openTree walk old = pure c := by
      rw [openTree, hread, Run.ofExcept_ok, pure_bind, hopen]
      rfl
    have hopenTree' : openTree walk now = pure c' := by
      rw [openTree, hread', Run.ofExcept_ok, pure_bind, hopen']
      rfl
    refine ⟨found, hfound.nodup, fun path => ?_, fun before paths hroom => ?_⟩
    · rw [hfound.mem_iff, differs_iff hold hnow]
    · obtain ⟨enough, hrun⟩ := hfound.yields before paths hroom
      refine ⟨enough, fun fuel hfuel => ?_⟩
      have hloop := hrun fuel hfuel
      dsimp only at hloop ⊢
      rw [diffLevel, hopenTree, pure_bind, hopenTree', pure_bind, hloop]

end

/-! ### Filters of trees -/

section

variable {walk : PathWalk} {depth : ℕ} {tree : Text} {parentTree : Option Text}

/-- **The collection** ends, and holds no path twice; within the limit these are the paths that the
trees differ at. -/
theorem firstParentChangedPaths_spec (htree : WellFormed walk depth (some tree))
    (hparent : WellFormed walk depth parentTree) :
    ∃ paths, Yields (fun fuel => firstParentChangedPaths walk fuel tree parentTree) paths ∧
      paths.Nodup ∧ (∀ path ∈ paths, Differs walk parentTree (some tree) path) ∧
      (paths.length ≤ walk.limit → ∀ path, path ∈ paths ↔
        Differs walk parentTree (some tree) path) := by
  obtain ⟨found, hfound⟩ := diffLevel_spec depth parentTree (some tree) hparent htree
  have hjoin : found.map (joinPath []) = found := map_id _
  have hyields := hfound.yields [] [] (Nat.zero_le _)
  rw [nil_append, hjoin] at hyields
  refine ⟨_, hyields, hfound.nodup.sublist (take_sublist _ _), fun path hmem => ?_,
    fun hroom path => ?_⟩
  · exact (hfound.mem_iff path).mp (mem_of_mem_take hmem)
  · have hall : found.take (walk.limit + 1) = found := by
      rw [length_take] at hroom
      exact take_of_length_le (by omega)
    rw [hall, hfound.mem_iff]

theorem Differs.head {old now : Option Text} {path : Bytes} (hold : WellFormed walk depth old)
    (hnow : WellFormed walk depth now) (h : Differs walk old now path) :
    ∃ first more, path = first :: more ∧ first ≠ slash := by
  have hleaf : ∀ {tree : Option Text} {leaf : Leaf}, WellFormed walk depth tree →
      LeafAt walk tree path leaf → ∃ first more, path = first :: more ∧ first ≠ slash := by
    intro tree leaf hwell hleaf
    cases depth with
    | zero => exact hwell.elim
    | succ depth =>
      obtain ⟨entries, hentries, -, hnames, -⟩ := hwell
      obtain ⟨entry, hmem, hentry⟩ := (leafAt_iff hentries).mp hleaf
      obtain ⟨hne, hslash⟩ := hnames entry hmem
      obtain ⟨first, more, hname⟩ := exists_cons_of_ne_nil hne
      have hfirst : first ≠ slash := fun heq =>
        hslash (by rw [hname, heq]; exact mem_cons_self)
      rcases hentry with ⟨-, hpath, -⟩ | ⟨-, rest, hpath, -⟩
      · exact ⟨first, more, hpath.trans hname, hfirst⟩
      · exact ⟨first, more ++ slash :: rest, by rw [hpath, hname]; rfl, hfirst⟩
  by_contra hnone
  exact h fun leaf => iff_of_false (fun h => hnone (hleaf hold h)) fun h => hnone (hleaf hnow h)

/-- **What a commit touches**: a path that differs, or a directory that leads to one. -/
def Touches (walk : PathWalk) (old now : Option Text) (key : Bytes) : Prop :=
  Differs walk old now key ∨ ∃ rest, Differs walk old now (key ++ slash :: rest)

theorem Touches.key {old now : Option Text} {key : Bytes} (hold : WellFormed walk depth old)
    (hnow : WellFormed walk depth now) (h : Touches walk old now key) :
    ∃ path, Differs walk old now path ∧ (key = path ∨ IsLeadingDirectory key path) := by
  rcases h with hdiffers | ⟨rest, hdiffers⟩
  · exact ⟨key, hdiffers, .inl rfl⟩
  · refine ⟨_, hdiffers, .inr ⟨?_, rest, rfl⟩⟩
    rintro rfl
    obtain ⟨first, more, hpath, hfirst⟩ := hdiffers.head hold hnow
    exact hfirst (cons.inj hpath).1.symm

theorem mayContain_of_touches {settings : BloomFilterSettings} {paths : List Bytes}
    (hold : WellFormed walk depth parentTree) (hnow : WellFormed walk depth (some tree))
    (hlimit : walk.limit = settings.maxChangedPaths) (hnodup : paths.Nodup)
    (hexact : paths.length ≤ walk.limit → ∀ path, path ∈ paths ↔
      Differs walk parentTree (some tree) path) {key : Bytes}
    (h : Touches walk parentTree (some tree) key) :
    mayContain (changedPathFilter paths settings) key settings = true := by
  rcases Nat.lt_or_ge walk.limit paths.length with hmany | hroom
  · rw [changedPathFilter_eq_tooLarge hnodup (hlimit ▸ hmany)]
    exact mayContain_tooLarge key
  · obtain ⟨path, hdiffers, hkey⟩ := h.key hold hnow
    exact mayContain_changedPathFilter ((hexact hroom path).mpr hdiffers) hkey

end

/-! ### Bodies that the parser accepts -/

theorem stands_of_follows {c : TreeCursor} {entries : List TreeEntry} (h : Follows c entries) :
    ∃ raws, Stands c raws ∧ raws.map (fun raw => (raw.mode, raw.name, raw.id, raw.isDir)) =
      entries.map fun entry =>
        (entry.mode.bytes, entry.nameBytes, entry.id, isDirectory entry.mode) := by
  induction entries generalizing c with
  | nil => exact ⟨[], h, rfl⟩
  | cons entry entries ih =>
    obtain ⟨hshows, next, hnext, hrest⟩ := h
    obtain ⟨raws, hstands, hraws⟩ := ih hrest
    have hlength : (cursorOidBytes c).length = c.hash.digestLength := by
      rw [cursorOidBytes, length_subarray _ hshows.oidEnd_le, Nat.add_sub_cancel_left]
    have hmode : (rawEntryOf c).mode = entry.mode.bytes := by
      rw [rawEntryOf, Diff.skipLeadingZeros,
        (skipModeZeros_spec hshows.modeEnd_le.1 hshows.modeEnd_le.2).2, hshows.mode_eq]
    have hname : (rawEntryOf c).name = entry.nameBytes := hshows.name_eq
    have hid : (rawEntryOf c).id = entry.id := hshows.oid_eq
    have hkind : (rawEntryOf c).isDir = isDirectory entry.mode := hshows.isDir_eq
    refine ⟨rawEntryOf c :: raws, ⟨hshows.done_eq, rfl, hshows.nameEnd_le.2, hlength, next, hnext,
      Diff.advanceCursor_hash hnext, hstands⟩, ?_⟩
    rw [map_cons, map_cons, hraws, hmode, hname, hid, hkind]

/-- **Filters have no false negatives.** Within the limit the collection is exactly what differs,
and the filter answers maybe for every path of it; past the limit for every path. -/
theorem changedPathFilters_spec (read : Text → Except Thrown Bytes) (hash : HashConfig)
    (settings : BloomFilterSettings) (tree : Text) (parentTree : Option Text) (depth : ℕ)
    (htree : WellFormed ⟨read, hash, settings.maxChangedPaths⟩ depth (some tree))
    (hparent : WellFormed ⟨read, hash, settings.maxChangedPaths⟩ depth parentTree) :
    ∃ paths, Yields (fun fuel => firstParentChangedPaths ⟨read, hash, settings.maxChangedPaths⟩
        fuel tree parentTree) paths ∧
      Yields (fun fuel => computedFilter read hash fuel tree parentTree settings)
        (changedPathFilter paths settings) ∧
      (paths.length ≤ settings.maxChangedPaths → ∀ path, path ∈ paths ↔
        Differs ⟨read, hash, settings.maxChangedPaths⟩ parentTree (some tree) path) ∧
      (∀ path ∈ paths, ∀ key, key = path ∨ IsLeadingDirectory key path →
        mayContain (changedPathFilter paths settings) key settings = true) ∧
      (settings.maxChangedPaths < (distinctPathsWithDirectories paths).length → ∀ key,
        mayContain (changedPathFilter paths settings) key settings = true) ∧
      ∀ key, Touches ⟨read, hash, settings.maxChangedPaths⟩ parentTree (some tree) key →
        mayContain (changedPathFilter paths settings) key settings = true := by
  obtain ⟨paths, hyields, hnodup, -, hexact⟩ := firstParentChangedPaths_spec htree hparent
  refine ⟨paths, hyields, ?_, hexact, fun path hmem key hkey => ?_, fun hmany key => ?_,
    fun key htouches => ?_⟩
  · obtain ⟨enough, hrun⟩ := hyields
    refine ⟨enough, fun fuel hfuel => ?_⟩
    have hcollect := hrun fuel hfuel
    dsimp only at hcollect ⊢
    rw [computedFilter, hcollect, pure_bind]
  · exact mayContain_changedPathFilter hmem hkey
  · have htooLarge : changedPathFilter paths settings = [tooLargeFilter] := if_pos hmany
    rw [htooLarge]
    exact mayContain_tooLarge key
  · exact mayContain_of_touches hparent htree rfl hnodup hexact htouches

/-- A tree of one file. -/
def sampleTree : Bytes :=
  [0x31, 0x30, 0x30, 0x36, 0x34, 0x34, 0x20, 0x61, 0] ++ replicate 20 7

/-- A root commit that adds a file. -/
theorem changedPathFilters_spec_root :
    ∃ paths, Yields (fun fuel => firstParentChangedPaths ⟨fun _ => .ok sampleTree, .sha1, 512⟩
        fuel [] none) paths ∧
      Yields (fun fuel => computedFilter (fun _ => .ok sampleTree) .sha1 fuel [] none
        defaultBloomFilterSettings) (changedPathFilter paths defaultBloomFilterSettings) ∧
      ∀ key, Touches ⟨fun _ => .ok sampleTree, .sha1, 512⟩ none (some []) key →
        mayContain (changedPathFilter paths defaultBloomFilterSettings) key
          defaultBloomFilterSettings = true := by
  have hparse : parseTreeContent [] sampleTree .sha1 =
      .ok ⟨[], [⟨.regular, [0x61], bytesToHex (replicate 20 7)⟩]⟩ := by decide +kernel
  obtain ⟨c, hopen, hfollows, hhash⟩ := Diff.openTreeCursor_of_parse hparse
  obtain ⟨raws, hstands, hraws⟩ := stands_of_follows hfollows
  obtain ⟨raw, hraw, hfields⟩ := map_eq_singleton_iff.mp hraws
  simp only [Prod.mk.injEq] at hfields
  obtain ⟨-, hname, -, hkind⟩ := hfields
  subst hraw
  have htree : WellFormed ⟨fun _ => .ok sampleTree, .sha1, 512⟩ 1 (some []) := by
    refine ⟨[raw], ⟨sampleTree, rfl, c, hopen, hhash, hstands⟩, pairwise_singleton _ _,
      fun entry hmem => ?_, fun entry hmem hdir => ?_⟩
    · rw [mem_singleton.mp hmem, hname]
      decide
    · rw [mem_singleton.mp hmem, hkind] at hdir
      cases hdir
  obtain ⟨paths, hpaths, hfilter, -, -, -, htouches⟩ := changedPathFilters_spec
    (fun _ => .ok sampleTree) .sha1 defaultBloomFilterSettings [] none 1 htree htree.none
  exact ⟨paths, hpaths, hfilter, htouches⟩

end Tsgit.Bloom
