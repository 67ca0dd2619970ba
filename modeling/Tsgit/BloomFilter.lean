import Mathlib.Data.List.Nodup
import Mathlib.Data.List.Perm.Subperm
import Tsgit.Bytes

/-!
# Changed-Path Bloom Filters

The filter of the paths that a commit changes (`src/domain/commit/bloom-filter.ts`): one bit for
each probe of each path and of each of its leading directories.
-/

namespace Tsgit.Bloom

open List

inductive HashVersion
  | v1
  | v2
  deriving DecidableEq

structure BloomFilterSettings where
  hashVersion : HashVersion
  numHashes : ℕ
  bitsPerEntry : ℕ
  maxChangedPaths : ℕ
  deriving DecidableEq

def defaultBloomFilterSettings : BloomFilterSettings := ⟨.v1, 7, 10, 512⟩

/-! ### Hashing -/

def seed0 : BitVec 32 := 0x293ae76f#32
def seed1 : BitVec 32 := 0x7e646e2c#32
def c1 : BitVec 32 := 0xcc9e2d51#32
def c2 : BitVec 32 := 0x1b873593#32
def finalMultiplier1 : BitVec 32 := 0x85ebca6b#32
def finalMultiplier2 : BitVec 32 := 0xc2b2ae35#32
def slash : UInt8 := 0x2f
def tooLargeFilter : UInt8 := 0xff

/-- `unsignedByte` or `signedByte`: a byte as an int32. -/
def readByte (version : HashVersion) (byte : UInt8) : BitVec 32 :=
  match version with
  | .v2 => BitVec.ofNat 32 byte.toNat
  | .v1 => ((BitVec.ofNat 32 byte.toNat) <<< 24).sshiftRight 24

def rotateLeft (value : BitVec 32) (count : ℕ) : BitVec 32 :=
  value <<< count ||| value >>> (32 - count)

def scramble (k : BitVec 32) : BitVec 32 := rotateLeft (k * c1) 15 * c2

/-- The byte at a place, read. -/
def readAt (version : HashVersion) (data : Bytes) (i : ℕ) : BitVec 32 :=
  readByte version ((data[i]?).getD 0)

def blockAt (data : Bytes) (i : ℕ) (version : HashVersion) : BitVec 32 :=
  readAt version data i ||| readAt version data (i + 1) <<< 8 |||
    readAt version data (i + 2) <<< 16 ||| readAt version data (i + 3) <<< 24

/-- The loop of `tailOf`, from the last place down. -/
def tailOf (data : Bytes) (start : ℕ) (version : HashVersion) : BitVec 32 :=
  (range (data.length - start)).reverse.foldl
    (fun k i => k ^^^ readAt version data (start + i) <<< (i * 8)) 0#32

def finalMix (hash : BitVec 32) : BitVec 32 :=
  let h := hash ^^^ hash >>> 16
  let h := h * finalMultiplier1
  let h := h ^^^ h >>> 13
  let h := h * finalMultiplier2
  h ^^^ h >>> 16

/-- The loop over the blocks of four bytes. -/
def mixBlocks (data : Bytes) (version : HashVersion) (seed : BitVec 32) (blocks : ℕ) :
    BitVec 32 :=
  (range blocks).foldl (fun hash block =>
    rotateLeft (hash ^^^ scramble (blockAt data (block * 4) version)) 13 * 5#32 +
      0xe6546b64#32) seed

def murmur3Seeded (seed : BitVec 32) (data : Bytes) (version : HashVersion) : BitVec 32 :=
  let tailStart := data.length - data.length % 4
  let hash := mixBlocks data version seed (tailStart / 4)
  let hash := if tailStart < data.length then hash ^^^ scramble (tailOf data tailStart version)
    else hash
  finalMix (hash ^^^ BitVec.ofNat 32 data.length)

/-- The probes of a path, as unsigned numbers. -/
def bloomKeyHashes (path : Bytes) (settings : BloomFilterSettings) : List ℕ :=
  let hash0 := murmur3Seeded seed0 path settings.hashVersion
  let hash1 := murmur3Seeded seed1 path settings.hashVersion
  (range settings.numHashes).map fun i => (hash0 + BitVec.ofNat 32 i * hash1).toNat

/-- The probes of `file.txt`. -/
example : bloomKeyHashes [0x66, 0x69, 0x6c, 0x65, 0x2e, 0x74, 0x78, 0x74]
    defaultBloomFilterSettings = [0x20ab385b, 0xf5237fe2, 0xc99bc769, 0x9e140ef0, 0x728c5677,
      0x47049dfe, 0x1b7ce585] := by decide

/-! ### Keys -/

/-- `Map.set` with the path as its own key and value: a known key keeps its place. -/
def setKey (distinct : List Bytes) (path : Bytes) : List Bytes :=
  if path ∈ distinct then distinct else distinct ++ [path]

def lastSlashBelow (path : Bytes) : ℕ → Option ℕ
  | 0 => none
  | i + 1 => if path[i]? = some slash then some i else lastSlashBelow path i

theorem lastSlashBelow_lt {path : Bytes} {stop i : ℕ} (h : lastSlashBelow path stop = some i) :
    i < stop ∧ path[i]? = some slash ∧ ∀ j, i < j → j < stop → path[j]? ≠ some slash := by
  induction stop with
  | zero => cases h
  | succ stop ih =>
    rw [lastSlashBelow] at h
    by_cases hslash : path[stop]? = some slash
    · rw [if_pos hslash] at h
      cases h
      exact ⟨Nat.lt_succ_self _, hslash, fun j hj hj' => absurd hj (by omega)⟩
    rw [if_neg hslash] at h
    obtain ⟨hlt, hhere, hnone⟩ := ih h
    refine ⟨Nat.lt_succ_of_lt hlt, hhere, fun j hj hj' => ?_⟩
    rcases Nat.lt_or_ge j stop with hbelow | hge
    · exact hnone j hj hbelow
    · obtain rfl : j = stop := by omega
      exact hslash

theorem lastSlashBelow_none {path : Bytes} {stop : ℕ} (h : lastSlashBelow path stop = none) :
    ∀ j < stop, path[j]? ≠ some slash := by
  induction stop with
  | zero => exact fun j hj => absurd hj (Nat.not_lt_zero _)
  | succ stop ih =>
    rw [lastSlashBelow] at h
    by_cases hslash : path[stop]? = some slash
    · rw [if_pos hslash] at h
      cases h
    rw [if_neg hslash] at h
    intro j hj
    rcases Nat.lt_or_ge j stop with hbelow | hge
    · exact ih h j hbelow
    · obtain rfl : j = stop := by omega
      exact hslash

/-- The loop over the leading directories of a path, the longest one first. -/
def addDirectories (path : Bytes) (distinct : List Bytes) (stop : ℕ) : List Bytes :=
  match h : lastSlashBelow path stop with
  | none => distinct
  | some 0 => distinct
  | some (i + 1) => addDirectories path (setKey distinct (path.take (i + 1))) (i + 1)
termination_by stop
decreasing_by exact (lastSlashBelow_lt h).1

/-- Each changed path and every leading directory of it, once. -/
def distinctPathsWithDirectories (changedPaths : List Bytes) : List Bytes :=
  changedPaths.foldl
    (fun distinct path => addDirectories path (setKey distinct path) path.length) []

/-! ### Filters -/

def setBit (filter : Bytes) (bit : ℕ) : Bytes :=
  filter.modify (bit / 8) fun byte => byte ||| 1 <<< UInt8.ofNat (bit % 8)

def addKey (filter : Bytes) (hashes : List ℕ) : Bytes :=
  hashes.foldl (fun filter hash => setBit filter (hash % (filter.length * 8))) filter

def changedPathFilter (changedPaths : List Bytes) (settings : BloomFilterSettings) : Bytes :=
  let paths := distinctPathsWithDirectories changedPaths
  if paths.length > settings.maxChangedPaths then [tooLargeFilter]
  else
    let length := (paths.length * settings.bitsPerEntry + 7) / 8
    paths.foldl (fun filter path => addKey filter (bloomKeyHashes path settings))
      (replicate (max length 1) 0)

/-- The bit of a probe. -/
def bitIsSet (filter : Bytes) (hash : ℕ) : Bool :=
  (((filter[hash % (filter.length * 8) / 8]?).getD 0).toNat).testBit
    (hash % (filter.length * 8) % 8)

/-- **The query**: maybe, if the bit of every probe is set. -/
def mayContain (filter path : Bytes) (settings : BloomFilterSettings) : Bool :=
  (bloomKeyHashes path settings).all (bitIsSet filter)

/-! ### The bits of a filter -/

section

variable {filter path : Bytes} {hash bit : ℕ}

theorem length_setBit : (setBit filter bit).length = filter.length := length_modify _ _ _

theorem toNat_shifted_one {k : ℕ} (h : k < 8) : (1 <<< UInt8.ofNat k : UInt8).toNat = 2 ^ k := by
  have hall : ∀ k < 8, (1 <<< UInt8.ofNat k : UInt8).toNat = 2 ^ k := by decide
  exact hall k h

/-- The bits of a byte after one is set. -/
theorem testBit_or_shifted (byte : UInt8) {k : ℕ} (h : k < 8) (j : ℕ) :
    (byte ||| 1 <<< UInt8.ofNat k).toNat.testBit j = (byte.toNat.testBit j || decide (k = j)) := by
  rw [UInt8.toNat_or, Nat.testBit_or, toNat_shifted_one h, Nat.testBit_two_pow]

theorem bitIsSet_setBit_self (hlength : 0 < filter.length) :
    bitIsSet (setBit filter (hash % (filter.length * 8))) hash = true := by
  have hbit : hash % (filter.length * 8) < filter.length * 8 := Nat.mod_lt _ (by omega)
  have hplace : hash % (filter.length * 8) / 8 < filter.length := by omega
  rw [bitIsSet, length_setBit, setBit, getElem?_modify, getElem?_eq_getElem hplace,
    Option.map_eq_map, Option.map_some, Option.getD_some, if_pos rfl,
    testBit_or_shifted _ (Nat.mod_lt _ (by decide)), decide_eq_true rfl, Bool.or_true]

/-- No bit is cleared. -/
theorem bitIsSet_setBit (h : bitIsSet filter hash = true) :
    bitIsSet (setBit filter bit) hash = true := by
  rw [bitIsSet] at h
  rw [bitIsSet, length_setBit, setBit, getElem?_modify]
  cases hbyte : filter[hash % (filter.length * 8) / 8]? with
  | none =>
    rw [hbyte] at h
    rw [Option.map_eq_map, Option.map_none]
    exact h
  | some byte =>
    rw [hbyte, Option.getD_some] at h
    rw [Option.map_eq_map, Option.map_some, Option.getD_some]
    by_cases hsame : bit / 8 = hash % (filter.length * 8) / 8
    · rw [if_pos hsame, testBit_or_shifted _ (Nat.mod_lt _ (by decide)), h, Bool.true_or]
    · rw [if_neg hsame, h]

theorem length_addKey (hashes : List ℕ) : (addKey filter hashes).length = filter.length := by
  unfold addKey
  induction hashes generalizing filter with
  | nil => rfl
  | cons hash hashes ih => rw [foldl_cons, ih, length_setBit]

theorem bitIsSet_addKey (hashes : List ℕ) (h : bitIsSet filter hash = true) :
    bitIsSet (addKey filter hashes) hash = true := by
  unfold addKey
  induction hashes generalizing filter with
  | nil => exact h
  | cons first hashes ih =>
    rw [foldl_cons]
    exact ih (bitIsSet_setBit h)

theorem bitIsSet_addKey_of_mem {hashes : List ℕ} (hlength : 0 < filter.length)
    (hmem : hash ∈ hashes) : bitIsSet (addKey filter hashes) hash = true := by
  induction hashes generalizing filter with
  | nil => exact absurd hmem not_mem_nil
  | cons first hashes ih =>
    have hstep : addKey filter (first :: hashes) =
        addKey (setBit filter (first % (filter.length * 8))) hashes := rfl
    rw [hstep]
    rcases mem_cons.mp hmem with rfl | hmem
    · exact bitIsSet_addKey hashes (bitIsSet_setBit_self hlength)
    · exact ih (by rw [length_setBit]; exact hlength) hmem

end

/-! ### The keys of a filter -/

section

variable {path directory : Bytes} {distinct paths : List Bytes} {settings : BloomFilterSettings}

def IsLeadingDirectory (directory path : Bytes) : Prop :=
  directory ≠ [] ∧ ∃ rest, path = directory ++ slash :: rest

variable {key : Bytes}

theorem mem_setKey :
    key ∈ setKey distinct path ↔ key ∈ distinct ∨ key = path := by
  unfold setKey
  split_ifs with hknown
  · exact ⟨Or.inl, fun h => h.elim id fun heq => heq ▸ hknown⟩
  · rw [mem_append, mem_singleton]

theorem take_of_slash {i : ℕ} (h : path[i]? = some slash) :
    path = path.take i ++ slash :: path.drop (i + 1) := by
  rw [← drop_eq_cons h, take_append_drop]

/-- **The loop adds the leading directories** below its place, and nothing else. -/
theorem mem_addDirectories (stop : ℕ) :
    key ∈ addDirectories path distinct stop ↔
      key ∈ distinct ∨ ∃ i, 0 < i ∧ i < stop ∧ path[i]? = some slash ∧ key = path.take i := by
  induction stop using Nat.strongRecOn generalizing distinct with
  | ind stop ih =>
    rw [addDirectories]
    split
    · next hnone =>
      refine ⟨Or.inl, fun h => h.elim id ?_⟩
      rintro ⟨i, -, hlt, hslash, -⟩
      exact absurd hslash (lastSlashBelow_none hnone i hlt)
    · next hzero =>
      obtain ⟨-, -, hnone⟩ := lastSlashBelow_lt hzero
      refine ⟨Or.inl, fun h => h.elim id ?_⟩
      rintro ⟨i, hpos, hlt, hslash, -⟩
      exact absurd hslash (hnone i hpos hlt)
    · next i hfound =>
      obtain ⟨hlt, hslash, hnone⟩ := lastSlashBelow_lt hfound
      rw [ih (i + 1) hlt, mem_setKey, or_assoc]
      refine or_congr_right ⟨?_, ?_⟩
      · rintro (rfl | ⟨j, hpos, hj, hslash', rfl⟩)
        · exact ⟨i + 1, Nat.succ_pos i, hlt, hslash, rfl⟩
        · exact ⟨j, hpos, hj.trans hlt, hslash', rfl⟩
      · rintro ⟨j, hpos, hj, hslash', rfl⟩
        rcases Nat.lt_trichotomy j (i + 1) with hbelow | rfl | habove
        · exact Or.inr ⟨j, hpos, hbelow, hslash', rfl⟩
        · exact Or.inl rfl
        · exact absurd hslash' (hnone j habove hj)

theorem isLeadingDirectory_iff : IsLeadingDirectory directory path ↔
    ∃ i, 0 < i ∧ i < path.length ∧ path[i]? = some slash ∧ directory = path.take i := by
  constructor
  · rintro ⟨hne, rest, rfl⟩
    refine ⟨directory.length, length_pos_iff.mpr hne, ?_, ?_, ?_⟩
    · rw [length_append, length_cons]
      omega
    · rw [getElem?_append_right (Nat.le_refl _), Nat.sub_self]
      rfl
    · rw [take_left]
  · rintro ⟨i, hpos, hlt, hslash, rfl⟩
    refine ⟨fun hnil => ?_, path.drop (i + 1), take_of_slash hslash⟩
    have hlength := congrArg length hnil
    rw [length_take, length_nil] at hlength
    omega

theorem mem_foldl_addDirectories :
    key ∈ paths.foldl (fun distinct path =>
        addDirectories path (setKey distinct path) path.length) distinct ↔
      key ∈ distinct ∨ ∃ path ∈ paths, key = path ∨ IsLeadingDirectory key path := by
  induction paths generalizing distinct with
  | nil => exact ⟨Or.inl, fun h => h.elim id fun ⟨_, hmem, _⟩ => absurd hmem not_mem_nil⟩
  | cons path paths ih =>
    rw [foldl_cons, ih, mem_addDirectories, mem_setKey, ← isLeadingDirectory_iff,
      exists_mem_cons_iff, or_assoc, or_assoc, or_assoc]

/-- **The keys** are the paths and their leading directories. -/
theorem mem_distinctPathsWithDirectories :
    key ∈ distinctPathsWithDirectories paths ↔
      ∃ path ∈ paths, key = path ∨ IsLeadingDirectory key path := by
  rw [distinctPathsWithDirectories, mem_foldl_addDirectories]
  exact or_iff_right not_mem_nil

theorem mayContain_foldl {keys : List Bytes} {filter key : Bytes} (hlength : 0 < filter.length)
    (hmem : key ∈ keys) :
    mayContain (keys.foldl (fun filter path => addKey filter (bloomKeyHashes path settings))
      filter) key settings = true := by
  have hkept : ∀ (keys : List Bytes) {filter : Bytes} {hash : ℕ}, bitIsSet filter hash = true →
      bitIsSet (keys.foldl (fun filter path => addKey filter (bloomKeyHashes path settings))
        filter) hash = true := by
    intro keys
    induction keys with
    | nil => exact fun h => h
    | cons first keys ih => exact fun h => ih (bitIsSet_addKey _ h)
  rw [mayContain, all_eq_true]
  intro hash hhash
  induction keys generalizing filter with
  | nil => exact absurd hmem not_mem_nil
  | cons first keys ih =>
    rw [foldl_cons]
    rcases mem_cons.mp hmem with rfl | hmem
    · exact hkept keys (bitIsSet_addKey_of_mem hlength hhash)
    · exact ih (by rw [length_addKey]; exact hlength) hmem

/-- **The filter of too many paths** answers maybe for every path. -/
theorem mayContain_tooLarge (path : Bytes) : mayContain [tooLargeFilter] path settings = true := by
  rw [mayContain, all_eq_true]
  intro hash _
  have hbyte : hash % 8 / 8 = 0 := Nat.div_eq_of_lt (Nat.mod_lt _ (by decide))
  have hall : ∀ k < 8, tooLargeFilter.toNat.testBit k = true := by decide
  have hbit := hall (hash % 8 % 8) (Nat.mod_lt _ (by decide))
  have hlength : [tooLargeFilter].length * 8 = 8 := rfl
  rw [bitIsSet, hlength, hbyte]
  exact hbit

/-- **No false negatives**: a filter answers maybe for its paths and their leading directories. -/
theorem mayContain_changedPathFilter (hmem : path ∈ paths)
    (hkey : key = path ∨ IsLeadingDirectory key path) :
    mayContain (changedPathFilter paths settings) key settings = true := by
  unfold changedPathFilter
  dsimp only
  split_ifs
  · exact mayContain_tooLarge key
  · refine mayContain_foldl ?_ (mem_distinctPathsWithDirectories.mpr ⟨path, hmem, hkey⟩)
    rw [length_replicate]
    omega

theorem changedPathFilter_eq_tooLarge (hnodup : paths.Nodup)
    (hmany : settings.maxChangedPaths < paths.length) :
    changedPathFilter paths settings = [tooLargeFilter] := by
  have hsubset : paths ⊆ distinctPathsWithDirectories paths := fun path hmem =>
    mem_distinctPathsWithDirectories.mpr ⟨path, hmem, Or.inl rfl⟩
  have hlength := (subperm_of_subset hnodup hsubset).length_le
  unfold changedPathFilter
  exact if_pos (by omega)

end

end Tsgit.Bloom
