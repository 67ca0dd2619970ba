import Tsgit.DataView
import Tsgit.TreeDiff

/-!
# Writing a Tree

`serializeTreeContent` of `src/domain/objects/tree.ts`: the entries in the order of trees, each a
row of its mode, a space, its name, a NUL and the raw id.
-/

namespace Tsgit.Objects

open List

open Diff (InTreeOrder)

/-- An entry as it is written. -/
structure EncodedEntry where
  mode : Bytes
  name : Bytes
  hash : Bytes

def encodeEntry (entry : TreeEntry) : Except Thrown EncodedEntry := do
  let hash ← hexToBytes entry.id
  pure ⟨encode entry.mode.text, entry.nameBytes, hash⟩

/-- The sort is stable. -/
def sortTreeEntries (entries : List TreeEntry) : List TreeEntry :=
  entries.mergeSort fun a b => treeEntryCompare a b ≤ 0

/-- What an entry adds to `totalLength`. -/
def encodedLength (hash : HashConfig) (e : EncodedEntry) : ℕ :=
  e.mode.length + 1 + e.name.length + 1 + hash.digestLength

def setByte (result : Bytes) (offset : ℕ) (byte : UInt8) : Except Thrown Bytes :=
  .ok (result.set offset byte)

def writeRow (result : Bytes) (offset : ℕ) (e : EncodedEntry) : Except Thrown Bytes := do
  let result ← setBytes result e.mode offset
  let result ← setByte result (offset + e.mode.length) 0x20
  let result ← setBytes result e.name (offset + e.mode.length + 1)
  let result ← setByte result (offset + e.mode.length + 1 + e.name.length) 0x00
  setBytes result e.hash (offset + e.mode.length + 1 + e.name.length + 1)

def writeRows (result : Bytes) (offset : ℕ) : List EncodedEntry → Except Thrown Bytes
  | [] => .ok result
  | e :: rest => do
    let result ← writeRow result offset e
    writeRows result (offset + e.mode.length + 1 + e.name.length + 1 + e.hash.length) rest

def serializeTreeContent (tree : Tree) (hash : HashConfig) : Except Thrown Bytes := do
  let encoded ← (sortTreeEntries tree.entries).mapM encodeEntry
  let totalLength := (encoded.map (encodedLength hash)).sum
  writeRows (replicate totalLength 0) 0 encoded

/-! ### Rows -/

def rowOf (e : EncodedEntry) : Bytes :=
  e.mode ++ ([0x20] ++ (e.name ++ ([0x00] ++ e.hash)))

section

variable {written : Bytes} {offset : ℕ} {e : EncodedEntry} {hash : HashConfig}

theorem length_rowOf (e : EncodedEntry) :
    (rowOf e).length = e.mode.length + 1 + e.name.length + 1 + e.hash.length := by
  simp only [rowOf, length_append, length_singleton]
  omega

theorem appends_setByte (hoffset : offset = written.length) (byte : UInt8) :
    Appends (fun buf => setByte buf offset byte) written [byte] := by
  intro room hroom
  obtain ⟨room, rfl⟩ := Nat.exists_eq_succ_of_ne_zero (Nat.ne_zero_of_lt hroom)
  dsimp only [setByte]
  rw [hoffset, replicate_succ, set_append_right _ _ (le_refl _), Nat.sub_self,
    set_cons_zero, append_assoc]
  rfl

theorem appends_writeRow (hoffset : offset = written.length) :
    Appends (fun buf => writeRow buf offset e) written (rowOf e) := by
  unfold writeRow rowOf
  refine (appends_setBytes hoffset).bind <| (appends_setByte ?_ _).bind <|
    (appends_setBytes ?_).bind <| (appends_setByte ?_ _).bind (appends_setBytes ?_)
  all_goals
    simp only [length_append, length_singleton]
    omega

theorem appends_writeRows {encoded : List EncodedEntry} (hoffset : offset = written.length) :
    Appends (fun buf => writeRows buf offset encoded) written (encoded.flatMap rowOf) := by
  induction encoded generalizing written offset with
  | nil => exact appends_ok written
  | cons e rest ih =>
    rw [flatMap_cons]
    refine (appends_writeRow hoffset).bind (ih ?_)
    rw [length_append, length_rowOf, hoffset]
    omega

def entryIdBytes (entry : TreeEntry) : Bytes :=
  match hexToBytes entry.id with
  | .ok bytes => bytes
  | .error _ => []

def entryRow (entry : TreeEntry) : Bytes :=
  rowOf ⟨encode entry.mode.text, entry.nameBytes, entryIdBytes entry⟩

/-- **What an entry must be** for a tree: a name that is not empty and has neither a NUL nor a
slash, and an id of the width of the hash. -/
structure TreeEntry.Fits (hash : HashConfig) (entry : TreeEntry) : Prop where
  name_ne_nil : entry.nameBytes ≠ []
  nul_not_mem : 0x00 ∉ entry.nameBytes
  slash_not_mem : 0x2f ∉ entry.nameBytes
  length_id : entry.id.length = 2 * hash.digestLength
  digits : ∀ c ∈ entry.id, isHexDigit c = true

variable {entry : TreeEntry}

theorem TreeEntry.idBytes (hlength : entry.id.length = 2 * hash.digestLength)
    (hdigits : ∀ c ∈ entry.id, isHexDigit c = true) :
    hexToBytes entry.id = .ok (entryIdBytes entry) ∧ bytesToHex (entryIdBytes entry) = entry.id ∧
      (entryIdBytes entry).length = hash.digestLength := by
  obtain ⟨bytes, hbytes, hhex⟩ := hexToBytes_spec (by omega) hdigits
  have hid : entryIdBytes entry = bytes := by rw [entryIdBytes, hbytes]
  refine ⟨by rw [hid, hbytes], by rw [hid, hhex], ?_⟩
  rw [← hhex, length_bytesToHex] at hlength
  rw [hid]
  omega

/-- **The written body**: the rows of the entries, in the order of trees. -/
theorem serializeTreeContent_eq {tree : Tree}
    (hids : ∀ entry ∈ tree.entries, entry.id.length = 2 * hash.digestLength ∧
      ∀ c ∈ entry.id, isHexDigit c = true) :
    serializeTreeContent tree hash = .ok ((sortTreeEntries tree.entries).flatMap entryRow) := by
  have hsorted : ∀ entry ∈ sortTreeEntries tree.entries, hexToBytes entry.id =
      .ok (entryIdBytes entry) ∧ (entryIdBytes entry).length = hash.digestLength := by
    intro entry hmem
    obtain ⟨hlength, hdigits⟩ := hids entry ((mergeSort_perm _ _).mem_iff.mp hmem)
    obtain ⟨hbytes, -, hwidth⟩ := TreeEntry.idBytes hlength hdigits
    exact ⟨hbytes, hwidth⟩
  have hencoded : (sortTreeEntries tree.entries).mapM encodeEntry =
      .ok ((sortTreeEntries tree.entries).map fun entry =>
        ⟨encode entry.mode.text, entry.nameBytes, entryIdBytes entry⟩) := by
    refine mapM_eq_ok fun entry hmem => ?_
    rw [encodeEntry, (hsorted entry hmem).1]
    rfl
  have hlength : ((sortTreeEntries tree.entries).map fun entry => encodedLength hash
      ⟨encode entry.mode.text, entry.nameBytes, entryIdBytes entry⟩).sum =
        ((sortTreeEntries tree.entries).flatMap entryRow).length := by
    rw [length_flatMap]
    refine congrArg List.sum (map_congr_left fun entry hmem => ?_)
    rw [entryRow, length_rowOf, encodedLength, (hsorted entry hmem).2]
  have hrows : ((sortTreeEntries tree.entries).map fun entry =>
      (⟨encode entry.mode.text, entry.nameBytes, entryIdBytes entry⟩ : EncodedEntry)).flatMap rowOf =
        (sortTreeEntries tree.entries).flatMap entryRow := flatMap_map ..
  have hwritten := @appends_writeRows [] 0 ((sortTreeEntries tree.entries).map fun entry =>
    ⟨encode entry.mode.text, entry.nameBytes, entryIdBytes entry⟩) rfl _ (le_of_eq rfl)
  rw [serializeTreeContent, ok_bind_eq hencoded]
  dsimp only
  rw [map_map, Function.comp_def, hlength]
  rw [hrows, nil_append, Nat.sub_self, replicate_zero, append_nil, nil_append]
    at hwritten
  exact hwritten

/-! ### Reading rows -/

/-- A byte that is not in front of itself. -/
theorem indexOf_of_holds {body src : Bytes} {byte : UInt8} (h : Holds body offset (src ++ [byte]))
    (hnone : byte ∉ src) : indexOf body byte offset = some (offset + src.length) := by
  refine indexOf_eq_some (Nat.le_add_right _ _) ?_ fun i hle hlt => ?_
  · have hlast := h src.length (by rw [length_append, length_singleton]; omega)
    rwa [getElem?_append_right (le_refl _), Nat.sub_self] at hlast
  · have hbefore := h (i - offset) (by rw [length_append]; omega)
    rw [Nat.add_sub_cancel' hle, getElem?_append_left (by omega)] at hbefore
    rw [hbefore]
    intro hbyte
    exact hnone (mem_of_getElem? hbyte)

theorem FileMode.bytes_digits (mode : FileMode) :
    (mode.bytes.any fun byte => byte.toNat < 0x30 ∨ byte.toNat > 0x37) = false ∧
      0x20 ∉ mode.bytes ∧ mode.bytes ≠ [] := by
  cases mode <;> decide

theorem normalizeFileMode_text (mode : FileMode) : normalizeFileMode mode.text = .ok mode := by
  cases mode <;> decide

variable {body : Bytes}

/-- A row is read as its entry. -/
theorem parseEntryAt_row (h : entry.Fits hash)
    (hrow : Holds body offset (entryRow entry)) :
    parseEntryAt body hash offset = .ok (entry, offset + (entryRow entry).length) := by
  obtain ⟨hid, hhex, hwidth⟩ := TreeEntry.idBytes h.length_id h.digits
  obtain ⟨hoctal, hspace, hmode⟩ := entry.mode.bytes_digits
  have hmodeLength := length_pos_iff.mpr hmode
  have hnameLength := length_pos_iff.mpr h.name_ne_nil
  have hsplit : entryRow entry = (entry.mode.bytes ++ [0x20]) ++
      ((entry.nameBytes ++ [0x00]) ++ entryIdBytes entry) := by
    rw [entryRow, rowOf, append_assoc, append_assoc]
    rfl
  have hlength : (entryRow entry).length = entry.mode.bytes.length + 1 +
      (entry.nameBytes.length + 1 + hash.digestLength) := by
    rw [hsplit, length_append, length_append, length_append, length_append,
      hwidth, length_singleton, length_singleton]
  rw [hsplit] at hrow
  have hmodeHeld := hrow.left
  have hrest := hrow.right
  rw [length_append, length_singleton, ← Nat.add_assoc] at hrest
  have hidHeld := hrest.right
  rw [length_append, length_singleton, ← Nat.add_assoc] at hidHeld
  have hpositive : 0 < hash.digestLength := by cases hash <;> decide
  have hfits := hidHeld.le_length (by rw [hwidth]; exact hpositive)
  have hname : subarray body (offset + entry.mode.bytes.length + 1)
      (offset + entry.mode.bytes.length + 1 + entry.nameBytes.length) = entry.nameBytes :=
    hrest.left.left.subarray_eq
  have hraw := hidHeld.subarray_eq
  have hmodeRead : subarray body offset (offset + entry.mode.bytes.length) = entry.mode.bytes :=
    hmodeHeld.left.subarray_eq
  have hdecode : decode entry.mode.bytes = entry.mode.text := by
    cases entry.mode <;> decide
  rw [hwidth] at hfits hraw
  have hread : fromRaw (entryIdBytes entry) = .ok entry.id := by
    rw [fromRaw_eq_ok hash hwidth, hhex]
  unfold parseEntryAt
  rw [indexOf_of_holds hmodeHeld hspace]
  dsimp only
  rw [if_neg (by rw [hasNonOctalByte, hmodeRead, hoctal]; simp [hmode]),
    indexOf_of_holds hrest.left h.nul_not_mem]
  dsimp only
  rw [if_neg (by omega), if_neg (by omega), hname, hraw, hmodeRead, hdecode, ok_bind_eq hread,
    ok_bind_eq (normalizeFileMode_text _), hlength]
  have hend : offset + entry.mode.bytes.length + 1 + entry.nameBytes.length + 1 +
      hash.digestLength = offset + (entry.mode.bytes.length + 1 +
        (entry.nameBytes.length + 1 + hash.digestLength)) := by omega
  rw [hend]
  rfl

/-- **Rows are read as their entries.** -/
theorem parseTreeFrom_rows {entries : List TreeEntry}
    (h : ∀ entry ∈ entries, entry.Fits hash) (hrows : body.drop offset = entries.flatMap entryRow) :
    parseTreeFrom body hash offset = .ok entries := by
  induction entries generalizing offset with
  | nil =>
    have hend := drop_eq_nil_iff.mp hrows
    rw [parseTreeFrom_eq, if_neg (Nat.not_lt.mpr hend)]
  | cons entry rest ih =>
    rw [flatMap_cons] at hrows
    have hheld : Holds body offset (entryRow entry) := by
      intro i hi
      rw [← getElem?_drop, hrows, getElem?_append_left hi]
    have hparse := parseEntryAt_row (h entry mem_cons_self) hheld
    have hlt := (parseEntryAt_lt hparse)
    have hrest : body.drop (offset + (entryRow entry).length) = rest.flatMap entryRow := by
      rw [← drop_drop, hrows, drop_left]
    rw [parseTreeFrom_eq, if_pos (by omega), ok_bind_eq hparse]
    dsimp only
    rw [ok_bind_eq (ih (forall_mem_cons.mp h).2 hrest)]
    rfl

/-- Each entry from `offset` on spells its mode without padding. -/
inductive CanonicalFrom (body : Bytes) (hash : HashConfig) : ℕ → Prop
  | done {offset : ℕ} : body.length ≤ offset → CanonicalFrom body hash offset
  | entry {offset spaceIndex next : ℕ} {entry : TreeEntry} :
      parseEntryAt body hash offset = .ok (entry, next) →
      indexOf body 0x20 offset = some spaceIndex →
      subarray body offset spaceIndex = encode entry.mode.text → CanonicalFrom body hash next →
      CanonicalFrom body hash offset

/-- Ids that are read are ids. -/
theorem parseEntryAt_id {next : ℕ}
    (h : parseEntryAt body hash offset = .ok (entry, next)) :
    entry.id.length = 2 * hash.digestLength ∧ ∀ c ∈ entry.id, isHexDigit c = true := by
  obtain ⟨spaceIndex, nullIndex, hspans, hnext, -, hid, -⟩ := parseEntryAt_ok h
  have hfits := hspans.fits
  rw [hid, length_bytesToHex, length_subarray _ (by omega), hnext, Nat.add_sub_cancel_left]
  exact ⟨rfl, isHexDigit_bytesToHex _⟩

theorem drop_eq_subarray_append {xs : Bytes} {i j : ℕ} (hij : i ≤ j) :
    xs.drop i = subarray xs i j ++ xs.drop j := by
  have hrest : xs.drop j = (xs.drop i).drop (j - i) := by
    rw [drop_drop, Nat.add_sub_cancel' hij]
  rw [hrest, subarray, take_append_drop]

theorem row_of_parse {next spaceIndex : ℕ}
    (h : parseEntryAt body hash offset = .ok (entry, next))
    (hspace : indexOf body 0x20 offset = some spaceIndex)
    (hmode : subarray body offset spaceIndex = encode entry.mode.text) :
    body.drop offset = entryRow entry ++ body.drop next := by
  obtain ⟨spaceIndex', nullIndex, hspans, hnext, hname, hid, -⟩ := parseEntryAt_ok h
  obtain rfl : spaceIndex = spaceIndex' := Option.some.inj (hspace.symm.trans hspans.space)
  obtain ⟨hbefore, hspaceByte, -⟩ := indexOf_spec hspans.space
  obtain ⟨hbefore', hnullByte, -⟩ := indexOf_spec hspans.null
  have hraw : entryIdBytes entry = subarray body (nullIndex + 1) next := by
    rw [entryIdBytes, hid, hexToBytes_bytesToHex]
  have hfits := hspans.fits
  rw [drop_eq_subarray_append hbefore, drop_eq_cons hspaceByte, drop_eq_subarray_append hbefore',
    drop_eq_cons hnullByte, drop_eq_subarray_append (show nullIndex + 1 ≤ next by omega), hmode,
    entryRow, rowOf, hraw, hname]
  simp only [append_assoc, cons_append, nil_append]

/-- **A body without padding is the rows of its entries.** -/
theorem rows_of_parse (hcanonical : CanonicalFrom body hash offset)
    {entries : List TreeEntry} (h : parseTreeFrom body hash offset = .ok entries) :
    body.drop offset = entries.flatMap entryRow := by
  induction hcanonical generalizing entries with
  | done hend =>
    rw [parseTreeFrom_eq, if_neg (Nat.not_lt.mpr hend)] at h
    cases h
    exact drop_eq_nil_of_le hend
  | entry hparse hspace hmode hnext ih =>
    have hlt := parseEntryAt_lt hparse
    rw [parseTreeFrom_eq, if_pos (by omega), ok_bind_eq hparse] at h
    obtain ⟨rest, hrest, h⟩ := bind_eq_ok.mp h
    cases h
    rw [row_of_parse hparse hspace hmode, ih hrest, flatMap_cons]

/-- Every entry that is read has an id. -/
theorem parseTreeFrom_ids {entries : List TreeEntry}
    (h : parseTreeFrom body hash offset = .ok entries) : ∀ entry ∈ entries,
      entry.id.length = 2 * hash.digestLength ∧ ∀ c ∈ entry.id, isHexDigit c = true := by
  induction hn : body.length - offset using Nat.strongRecOn generalizing offset entries with
  | ind n ih =>
    rw [parseTreeFrom_eq] at h
    split at h
    · obtain ⟨⟨entry, next⟩, hparse, h⟩ := bind_eq_ok.mp h
      obtain ⟨rest, hrest, h⟩ := bind_eq_ok.mp h
      cases h
      have hlt := parseEntryAt_lt hparse
      intro other hother
      rcases mem_cons.mp hother with rfl | hmem
      · exact parseEntryAt_id hparse
      · exact ih _ (by omega) hrest rfl other hmem
    · cases h
      exact forall_mem_nil _

end

/-! ### The order of trees -/

section

variable {entries : List TreeEntry}

/-- The test of the sort. -/
def treeEntryLe (a b : TreeEntry) : Bool := treeEntryCompare a b ≤ 0

theorem treeEntryLe_trans (a b c : TreeEntry) (hab : treeEntryLe a b) (hbc : treeEntryLe b c) :
    treeEntryLe a c :=
  decide_eq_true (compareBytes_nonpos_trans (of_decide_eq_true hab) (of_decide_eq_true hbc))

theorem treeEntryLe_total (a b : TreeEntry) : treeEntryLe a b || treeEntryLe b a := by
  rw [Bool.or_eq_true, treeEntryLe, treeEntryLe, decide_eq_true_iff, decide_eq_true_iff,
    treeEntryCompare, treeEntryCompare, compareBytes_swap (encodeEntryName a.nameBytes _)]
  omega

theorem sortTreeEntries_perm (entries : List TreeEntry) : (sortTreeEntries entries).Perm entries :=
  mergeSort_perm entries _

theorem sortTreeEntries_sorted (entries : List TreeEntry) : InTreeOrder (sortTreeEntries entries) := by
  have hsorted := pairwise_mergeSort treeEntryLe_trans treeEntryLe_total entries
  exact hsorted.imp fun h => of_decide_eq_true h

/-- Entries in order stay as they are. -/
theorem sortTreeEntries_of_inTreeOrder (h : InTreeOrder entries) : sortTreeEntries entries = entries :=
  mergeSort_of_pairwise (h.imp fun hle => decide_eq_true hle)

theorem treeEntryCompare_ne_zero {a b : TreeEntry} (ha : 0x2f ∉ a.nameBytes)
    (hb : 0x2f ∉ b.nameBytes) (hne : a.nameBytes ≠ b.nameBytes) : treeEntryCompare a b ≠ 0 := by
  rw [treeEntryCompare, Ne, compareBytes_eq_zero_iff]
  unfold encodeEntryName
  intro heq
  split at heq
  · split at heq
    · exact hne (append_cancel_right heq)
    · exact hb (heq ▸ mem_append_right _ mem_cons_self)
  · split at heq
    · exact ha (heq ▸ mem_append_right _ mem_cons_self)
    · exact hne heq

/-- **One order of the entries**: no two entries have one place. -/
theorem sortTreeEntries_strict (hslash : ∀ entry ∈ entries, 0x2f ∉ entry.nameBytes)
    (hnames : (entries.map (·.nameBytes)).Nodup) :
    (sortTreeEntries entries).Pairwise fun a b => treeEntryCompare a b < 0 := by
  have hperm := sortTreeEntries_perm entries
  have hdistinct : (sortTreeEntries entries).Pairwise fun a b => a.nameBytes ≠ b.nameBytes :=
    pairwise_map.mp ((hperm.map TreeEntry.nameBytes).nodup_iff.mpr hnames)
  refine ((sortTreeEntries_sorted entries).and hdistinct).imp_of_mem fun {a b} ha hb hboth => ?_
  have hne := treeEntryCompare_ne_zero (hslash a (hperm.mem_iff.mp ha))
    (hslash b (hperm.mem_iff.mp hb)) hboth.2
  have := hboth.1
  omega

theorem sortTreeEntries_congr {other : List TreeEntry}
    (hslash : ∀ entry ∈ entries, 0x2f ∉ entry.nameBytes)
    (hnames : (entries.map (·.nameBytes)).Nodup) (hperm : other.Perm entries) :
    sortTreeEntries other = sortTreeEntries entries := by
  have hboth := (sortTreeEntries_perm other).trans (hperm.trans (sortTreeEntries_perm entries).symm)
  refine hboth.eq_of_pairwise (fun a b ha hb hab hba => ?_) (sortTreeEntries_sorted other)
    (sortTreeEntries_sorted entries)
  have ha' := hperm.mem_iff.mp ((sortTreeEntries_perm other).mem_iff.mp ha)
  have hb' := (sortTreeEntries_perm entries).mem_iff.mp hb
  refine inj_on_of_nodup_map hnames ha' hb' ?_
  by_contra hne
  have hzero := treeEntryCompare_ne_zero (hslash a ha') (hslash b hb') hne
  have hswap : treeEntryCompare b a = -treeEntryCompare a b := compareBytes_swap _ _
  omega

end

/-- **Trees round-trip**: what is written is read as the entries in the order of trees, and a body
in that order whose modes have no padding is written again. -/
theorem tree_roundTrips (hash : HashConfig) :
    (∀ tree : Tree, (∀ entry ∈ tree.entries, entry.Fits hash) →
      (tree.entries.map (·.nameBytes)).Nodup →
        ∃ bytes sorted, serializeTreeContent tree hash = .ok bytes ∧
          parseTreeContent tree.id bytes hash = .ok ⟨tree.id, sorted⟩ ∧ sorted.Perm tree.entries ∧
          sorted.Pairwise (fun a b => encodeEntryName a.nameBytes (isDirectory a.mode) <
            encodeEntryName b.nameBytes (isDirectory b.mode)) ∧
          ∀ other, other.Perm tree.entries → serializeTreeContent ⟨tree.id, other⟩ hash = .ok bytes) ∧
    ∀ id content tree, parseTreeContent id content hash = .ok tree → InTreeOrder tree.entries →
      CanonicalFrom content hash 0 → serializeTreeContent tree hash = .ok content := by
  constructor
  · intro tree hfits hnames
    have hids := fun entry hmem => And.intro (hfits entry hmem).length_id (hfits entry hmem).digits
    have hslash := fun entry hmem => (hfits entry hmem).slash_not_mem
    refine ⟨_, sortTreeEntries tree.entries, serializeTreeContent_eq hids, ?_,
      sortTreeEntries_perm _, (sortTreeEntries_strict hslash hnames).imp compareBytes_neg_iff.mp,
      fun other hperm => ?_⟩
    · have hsorted : ∀ entry ∈ sortTreeEntries tree.entries, entry.Fits hash :=
        fun entry hmem => hfits entry ((sortTreeEntries_perm _).mem_iff.mp hmem)
      rw [parseTreeContent, ok_bind_eq (parseTreeFrom_rows hsorted drop_zero)]
      rfl
    · rw [serializeTreeContent_eq fun entry hmem => hids entry (hperm.mem_iff.mp hmem),
        sortTreeEntries_congr hslash hnames hperm]
  · intro id content tree hparse horder hcanonical
    obtain ⟨entries, hentries, h⟩ := bind_eq_ok.mp hparse
    cases h
    rw [serializeTreeContent_eq (parseTreeFrom_ids hentries),
      sortTreeEntries_of_inTreeOrder horder, ← rows_of_parse hcanonical hentries, drop_zero]

/-- A directory `a` and a file `a.b`, whose order the slash decides. -/
def slashedTree : Tree where
  id := []
  entries := [⟨.directory, [0x61], bytesToHex (replicate 20 7)⟩,
    ⟨.regular, [0x61, 0x2e, 0x62], bytesToHex (replicate 20 8)⟩]

theorem slashedTree_fits : ∀ entry ∈ slashedTree.entries, entry.Fits .sha1 := by
  intro entry hmem
  rcases mem_cons.mp hmem with rfl | hmem
  · exact ⟨by decide, by decide, by decide, length_bytesToHex _, isHexDigit_bytesToHex _⟩
  · obtain rfl := mem_singleton.mp hmem
    exact ⟨by decide, by decide, by decide, length_bytesToHex _, isHexDigit_bytesToHex _⟩

theorem tree_roundTrips_slashed : ∃ bytes sorted, serializeTreeContent slashedTree .sha1 = .ok bytes ∧
    parseTreeContent [] bytes .sha1 = .ok ⟨[], sorted⟩ ∧ sorted.Perm slashedTree.entries := by
  obtain ⟨bytes, sorted, hbytes, hparse, hperm, -⟩ :=
    (tree_roundTrips .sha1).1 slashedTree slashedTree_fits (by decide)
  exact ⟨bytes, sorted, hbytes, hparse, hperm⟩

end Tsgit.Objects
