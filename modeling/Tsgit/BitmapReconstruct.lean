import Mathlib.Data.List.Forall2
import Tsgit.Bitmap
import Tsgit.LruCache

/-!
# Reconstructed Bit Sets

`src/application/primitives/internal/bitmap-reconstruct.ts`. An entry of a bitmap whose `xorOffset`
is not zero stands for the difference to the entry that many places before. An array is a
place in a memory here, since the cache and the callers may hold the same one.
-/

theorem Run.Yields.bind {ε α β : Type} {run : ℕ → Run ε α} {next : ℕ → α → Run ε β} {a : α} {b : β}
    (h : Run.Yields run a) (hnext : Run.Yields (next · a) b) :
    Run.Yields (fun fuel => run fuel >>= next fuel) b := by
  obtain ⟨enough, hrun⟩ := h
  obtain ⟨enough', hrun'⟩ := hnext
  refine ⟨max enough enough', fun fuel hfuel => ?_⟩
  dsimp only
  rw [hrun fuel (le_of_max_le_left hfuel), pure_bind]
  exact hrun' fuel (le_of_max_le_right hfuel)

namespace Tsgit

open List

namespace LruCache

variable {κ V : Type} [DecidableEq κ] (cache : LruCache κ V) (key : κ)

omit [DecidableEq κ] in
theorem evict_subset : cache.evict.entries ⊆ cache.entries := by
  fun_induction evict cache with
  | case1 cache h => exact fun _ hentry => hentry
  | case2 cache head tail h hover ih => exact fun _ hentry => dropLast_subset _ (ih hentry)
  | case3 cache head tail h hover => exact fun _ hentry => hentry

theorem get_spec : (cache.get key).2.entries ⊆ cache.entries ∧
    ∀ value ∈ (cache.get key).1, ∃ entry ∈ cache.entries, entry.key = key ∧ entry.value = value := by
  unfold LruCache.get
  cases hfind : cache.entries.find? (·.key = key) with
  | none => exact ⟨fun _ hentry => hentry, fun value hvalue => by cases hvalue⟩
  | some entry =>
    have hentry := mem_of_find?_eq_some hfind
    have hkey : entry.key = key := by simpa using find?_some hfind
    refine ⟨cons_subset.mpr ⟨hentry, filter_subset_self _⟩, fun value hvalue => ?_⟩
    exact ⟨entry, hentry, hkey, Option.some.inj hvalue⟩

theorem set_spec (value : V) {byteSize : ℕ} (hsize : byteSize ≠ 0) : ∃ resident stored,
    cache.set key value byteSize = .ok (resident, stored) ∧
      stored.entries ⊆ ⟨key, value, byteSize⟩ :: cache.entries := by
  unfold LruCache.set
  rw [if_neg hsize]
  split
  · exact ⟨_, _, rfl, subset_cons_self _ _⟩
  · exact ⟨_, _, rfl, fun _ hentry =>
      cons_subset_cons _ (filter_subset_self _) (evict_subset _ hentry)⟩

end LruCache

namespace Bitmap

open BitLanes Ewah

def reconstructionCacheMaxBytes : ℕ := 8 * 1024 * 1024

/-- The arrays of `memory` are those that were made so far; the cache holds places in it. -/
structure ReconstructionContext where
  bitmap : PackBitmap
  headers : List BitmapEntryHeader
  laneCount : ℕ
  cache : LruCache ℕ ℕ
  memory : List (List UInt32)

def createReconstructionContext (bitmap : PackBitmap) (headers : List BitmapEntryHeader)
    (laneCount : ℕ) : ReconstructionContext :=
  ⟨bitmap, headers, laneCount, createLruCache ℕ ℕ reconstructionCacheMaxBytes none, []⟩

def laneCountFor (bitCount : ℕ) : ℕ := (bitCount + 31) / 32

def zeroLanes (laneCount : ℕ) : List UInt32 := replicate laneCount 0

/-- The links back from `cursor`, and the array to start from: a cached one, or none behind an
entry that stands for itself. The chain has the entry to fold first in front. -/
def followChain (rc : ReconstructionContext) (chain : List ℕ) (cursor : ℕ) :
    Except Thrown (List ℕ × Option ℕ × ReconstructionContext) :=
  match rc.headers[cursor]? with
  | none => .error .typeError
  | some header =>
    if header.xorOffset = 0 then .ok (chain, none, rc)
    else if cursor < header.xorOffset then .error .typeError
    else
      match _h : rc.cache.get (cursor - header.xorOffset) with
      | (some cachedParent, cache) => .ok (chain, some cachedParent, { rc with cache := cache })
      | (none, _) => followChain rc ((cursor - header.xorOffset) :: chain) (cursor - header.xorOffset)
termination_by cursor
decreasing_by omega

def foldOp (header : BitmapEntryHeader) : EwahFoldOp := if header.xorOffset = 0 then .or else .xor

def foldChain (fuel : ℕ) (rc : ReconstructionContext) (working : ℕ) :
    List ℕ → Run Thrown (ℕ × ReconstructionContext)
  | [] => pure (working, rc)
  | idx :: chain =>
    match rc.headers[idx]? with
    | none => Run.ofExcept (.error .typeError)
    | some header => do
      let folded ← foldEwahStream fuel rc.bitmap.bytes header.stream (rc.memory.getD working [])
        (foldOp header)
      let (_, cache) ← Run.ofExcept (rc.cache.set idx rc.memory.length (4 * folded.length))
      foldChain fuel
        { rc with cache := cache, memory := rc.memory.set working folded ++ [folded] } working chain

/-- The array to work in is new: zeros, or a copy. -/
def reconstructFrom (fuel : ℕ) (found : List ℕ × Option ℕ × ReconstructionContext) :
    Run Thrown (ℕ × ReconstructionContext) :=
  let (chain, base, rc) := found
  let start := base.elim (zeroLanes rc.laneCount) fun place => rc.memory.getD place []
  foldChain fuel { rc with memory := rc.memory ++ [start] } rc.memory.length chain

def reconstructEntry (fuel : ℕ) (rc : ReconstructionContext) (entryIndex : ℕ) :
    Run Thrown (ℕ × ReconstructionContext) :=
  match rc.cache.get entryIndex with
  | (some direct, cache) => pure (direct, { rc with cache := cache })
  | (none, _) => do
    let found ← Run.ofExcept (followChain rc [entryIndex] entryIndex)
    reconstructFrom fuel found

/-- One call behind the other, each with the array it returns and what it leaves. -/
def reconstructAll (fuel : ℕ) (rc : ReconstructionContext) :
    List ℕ → Run Thrown (List (ℕ × ReconstructionContext))
  | [] => pure []
  | entryIndex :: calls => do
    let answer ← reconstructEntry fuel rc entryIndex
    let answers ← reconstructAll fuel answer.2 calls
    pure (answer :: answers)

/-! ### The bit set of an entry -/

def foldEntry (bytes : Bytes) (header : BitmapEntryHeader) (working : List UInt32) : List UInt32 :=
  foldLanes (foldOp header) working
    (lanesOf (RunLengthWords.decodeWords (streamWords bytes header.stream)))

/-- **The bit set of an entry**: its own stream, folded into the bit set that it is the difference
to. -/
def entryLanes (bitmap : PackBitmap) (headers : List BitmapEntryHeader) (laneCount entryIndex : ℕ) :
    List UInt32 :=
  match headers[entryIndex]? with
  | none => zeroLanes laneCount
  | some header =>
    if 0 < header.xorOffset ∧ header.xorOffset ≤ entryIndex then
      foldEntry bitmap.bytes header
        (entryLanes bitmap headers laneCount (entryIndex - header.xorOffset))
    else foldEntry bitmap.bytes header (zeroLanes laneCount)
termination_by entryIndex
decreasing_by omega

section

variable {bitmap : PackBitmap} {headers : List BitmapEntryHeader} {laneCount : ℕ}

theorem length_entryLanes (entryIndex : ℕ) :
    (entryLanes bitmap headers laneCount entryIndex).length = laneCount := by
  fun_induction entryLanes bitmap headers laneCount entryIndex with
  | case1 i hnone => exact length_replicate
  | case2 i header hheader hoffset ih => rw [foldEntry, length_foldLanes, ih]
  | case3 i header hheader hoffset => rw [foldEntry, length_foldLanes, zeroLanes, length_replicate]

/-- The words of contiguous streams are in the file. -/
theorem Contiguous.words_le {bytes : Bytes} {gap start stop : ℕ} {streams : List EwahStream}
    (h : Contiguous bytes gap start streams stop) : ∀ stream ∈ streams,
      stream.wordsOffset + stream.wordCount * ewahWordSize ≤ bytes.length := by
  induction streams generalizing start with
  | nil => exact forall_mem_nil _
  | cons stream rest ih =>
    obtain ⟨hfirst, hrest⟩ := h
    refine forall_mem_cons.mpr ⟨?_, ih hrest⟩
    have hend := hfirst.endOffset_eq
    have hle := hfirst.endOffset_le
    omega

/-- **A bit of the set of an entry**: the one of its own stream, xor that of the entry it is the
difference to. -/
def entryBit (bitmap : PackBitmap) (headers : List BitmapEntryHeader) (entryIndex i : ℕ) : Bool :=
  match headers[entryIndex]? with
  | none => false
  | some header =>
    let own := referenceBit bitmap.bytes header.stream i
    if 0 < header.xorOffset ∧ header.xorOffset ≤ entryIndex then
      own ^^ entryBit bitmap headers (entryIndex - header.xorOffset) i
    else own
termination_by entryIndex
decreasing_by omega

/-- An array that holds the set of an entry. -/
structure IsSetOf (bitmap : PackBitmap) (headers : List BitmapEntryHeader) (laneCount entryIndex : ℕ)
    (lanes : List UInt32) : Prop where
  length_eq : lanes.length = laneCount
  bit_eq : ∀ i < 32 * laneCount, bitOf lanes i = entryBit bitmap headers entryIndex i

theorem bitOf_zeroLanes (laneCount i : ℕ) : bitOf (zeroLanes laneCount) i = false := by
  have hzeros := @bitAt_append_zeros 32 (by decide) [] laneCount i
  rw [nil_append, bitAt_nil] at hzeros
  rw [bitOf, zeroLanes, map_replicate]
  exact hzeros

/-- A stream folded into an array, bit by bit. -/
theorem bitOf_foldEntry {bytes : Bytes} {header : BitmapEntryHeader}
    (hfits : header.stream.wordsOffset + header.stream.wordCount * ewahWordSize ≤ bytes.length)
    {working : List UInt32} {i : ℕ} (hi : i < 32 * working.length) :
    bitOf (foldEntry bytes header working) i =
      foldBit (foldOp header) (bitOf working i) (referenceBit bytes header.stream i) := by
  have hlt := RunLengthWords.decodeWords_fits (streamWords_lt bytes header.stream)
  rw [foldEntry, bitOf_foldLanes (lanesOf_lt hlt), if_pos hi, bitAt_lanesOf, streamWords_eq hfits]
  rfl

theorem isSetOf_entryLanes (hfits : ∀ header ∈ headers,
      header.stream.wordsOffset + header.stream.wordCount * ewahWordSize ≤ bitmap.bytes.length)
    (entryIndex : ℕ) : IsSetOf bitmap headers laneCount entryIndex
      (entryLanes bitmap headers laneCount entryIndex) := by
  refine ⟨length_entryLanes entryIndex, fun i hi => ?_⟩
  have hzero : i < 32 * (zeroLanes laneCount).length := by rwa [zeroLanes, length_replicate]
  fun_induction entryLanes bitmap headers laneCount entryIndex with
  | case1 entryIndex hnone =>
    rw [entryBit, hnone]
    exact bitOf_zeroLanes laneCount i
  | case2 entryIndex header hheader hoffset ih =>
    have hbase : i < 32 *
        (entryLanes bitmap headers laneCount (entryIndex - header.xorOffset)).length := by
      rwa [length_entryLanes]
    have hop : foldOp header = .xor := if_neg (by omega)
    rw [bitOf_foldEntry (hfits _ (mem_of_getElem? hheader)) hbase, hop, ih,
      entryBit.eq_1 bitmap headers entryIndex, hheader]
    dsimp only
    rw [if_pos hoffset]
    exact Bool.xor_comm _ _
  | case3 entryIndex header hheader hoffset =>
    rw [bitOf_foldEntry (hfits _ (mem_of_getElem? hheader)) hzero, bitOf_zeroLanes, entryBit,
      hheader]
    dsimp only
    rw [if_neg hoffset]
    cases foldOp header
    · exact Bool.false_or _
    · exact Bool.false_xor _

def Ready (bitmap : PackBitmap) (headers : List BitmapEntryHeader) (laneCount : ℕ)
    (target : List UInt32) : List UInt32 → List ℕ → Prop
  | working, [] => working = target
  | working, idx :: chain =>
    (∃ header, headers[idx]? = some header ∧
      foldEntry bitmap.bytes header working = entryLanes bitmap headers laneCount idx) ∧
      Ready bitmap headers laneCount target (entryLanes bitmap headers laneCount idx) chain

/-- A context over the bitmap: every cached array is the bit set of its entry, and none is the one
at `working`. -/
structure Fresh (bitmap : PackBitmap) (headers : List BitmapEntryHeader) (laneCount : ℕ)
    (working : Option ℕ) (rc : ReconstructionContext) : Prop where
  bitmap_eq : rc.bitmap = bitmap
  headers_eq : rc.headers = headers
  laneCount_eq : rc.laneCount = laneCount
  cached : ∀ entry ∈ rc.cache.entries, some entry.value ≠ working ∧
    rc.memory[entry.value]? = some (entryLanes bitmap headers laneCount entry.key)

variable {rc : ReconstructionContext}

theorem Fresh.get (h : Fresh bitmap headers laneCount none rc) (key : ℕ) :
    Fresh bitmap headers laneCount none { rc with cache := (rc.cache.get key).2 } ∧
      ∀ place ∈ (rc.cache.get key).1,
        rc.memory[place]? = some (entryLanes bitmap headers laneCount key) := by
  obtain ⟨hsubset, hvalue⟩ := rc.cache.get_spec key
  refine ⟨{ h with cached := fun entry hentry => h.cached entry (hsubset hentry) }, ?_⟩
  intro place hplace
  obtain ⟨entry, hentry, rfl, rfl⟩ := hvalue place hplace
  exact (h.cached entry hentry).2

theorem followChain_spec (hearlier : ∀ i (header : BitmapEntryHeader),
      headers[i]? = some header → header.xorOffset ≤ i)
    (h : Fresh bitmap headers laneCount none rc) {target : List UInt32} {chain : List ℕ}
    {cursor : ℕ} (hcursor : cursor < headers.length)
    (hready : Ready bitmap headers laneCount target (entryLanes bitmap headers laneCount cursor)
      chain) : ∃ found base cache, followChain rc (cursor :: chain) cursor =
        .ok (found, base, { rc with cache := cache }) ∧
      Fresh bitmap headers laneCount none { rc with cache := cache } ∧
      Ready bitmap headers laneCount target
        (base.elim (zeroLanes laneCount) fun place => rc.memory.getD place []) found := by
  induction hn : cursor using Nat.strongRecOn generalizing cursor chain with
  | ind n ih =>
    subst hn
    have hheader : headers[cursor]? = some headers[cursor] := getElem?_eq_getElem hcursor
    have hle := hearlier cursor _ hheader
    have hlanes := entryLanes.eq_1 bitmap headers laneCount cursor
    rw [hheader] at hlanes
    dsimp only at hlanes
    have hread : rc.headers[cursor]? = some headers[cursor] := h.headers_eq ▸ hheader
    rw [followChain, hread]
    dsimp only
    split
    · next hzero =>
      rw [if_neg (by omega)] at hlanes
      exact ⟨_, none, rc.cache, rfl, h, ⟨_, hheader, hlanes.symm⟩, hready⟩
    · next hpos =>
      rw [if_neg (Nat.not_lt.mpr hle)]
      rw [if_pos (by omega)] at hlanes
      obtain ⟨hfresh, hhit⟩ := h.get (cursor - headers[cursor].xorOffset)
      split
      · next cachedParent cache hcached =>
        rw [hcached] at hfresh hhit
        refine ⟨_, some cachedParent, cache, rfl, hfresh, ⟨_, hheader, ?_⟩, hready⟩
        rw [hlanes, Option.elim_some, getD_eq_getElem?_getD, hhit cachedParent rfl]
        rfl
      · exact ih (cursor - headers[cursor].xorOffset) (by omega) (by omega)
          ⟨⟨_, hheader, hlanes.symm⟩, hready⟩ rfl

/-- **A chain that is ready comes to its target**, in the new array alone. -/
theorem foldChain_spec (hlanes : laneCount ≠ 0) {old : List (List UInt32)}
    (h : Fresh bitmap headers laneCount (some old.length) rc) (hold : old <+: rc.memory)
    {target lanes : List UInt32} (hworking : rc.memory[old.length]? = some lanes) {chain : List ℕ}
    (hready : Ready bitmap headers laneCount target lanes chain) :
    ∃ rc', Run.Yields (foldChain · rc old.length chain) (old.length, rc') ∧
      Fresh bitmap headers laneCount none rc' ∧ old <+: rc'.memory ∧
      rc'.memory[old.length]? = some target := by
  induction chain generalizing rc lanes with
  | nil =>
    refine ⟨rc, ⟨0, fun _ _ => rfl⟩, { h with cached := fun entry hentry => ?_ }, hold, ?_⟩
    · exact ⟨Option.some_ne_none _, (h.cached entry hentry).2⟩
    · rw [hworking, show lanes = target from hready]
  | cons idx chain ih =>
    obtain ⟨⟨header, hheader, hfold⟩, hrest⟩ := hready
    have hread : rc.headers[idx]? = some header := h.headers_eq ▸ hheader
    have hlt : old.length < rc.memory.length := (List.getElem?_eq_some_iff.mp hworking).1
    set folded := entryLanes bitmap headers laneCount idx with hfolded
    have hsize : 4 * folded.length ≠ 0 := by
      rw [hfolded, length_entryLanes]
      omega
    obtain ⟨resident, cache, hset, hsubset⟩ := rc.cache.set_spec idx rc.memory.length hsize
    have hnext : Fresh bitmap headers laneCount (some old.length)
        { rc with cache := cache, memory := rc.memory.set old.length folded ++ [folded] } := by
      refine { h with cached := fun entry hentry => ?_ }
      rcases mem_cons.mp (hsubset hentry) with rfl | hmem
      · refine ⟨by simpa using hlt.ne', ?_⟩
        rw [getElem?_append_right (by rw [length_set]), length_set, Nat.sub_self]
        rfl
      · obtain ⟨hne, hlanes⟩ := h.cached entry hmem
        have hbound := (List.getElem?_eq_some_iff.mp hlanes).1
        refine ⟨hne, ?_⟩
        rw [getElem?_append_left (by rwa [length_set]), getElem?_set_ne (fun heq => hne (by rw [heq])),
          hlanes]
    have hold' : old <+: rc.memory.set old.length folded ++ [folded] := by
      obtain ⟨more, hmore⟩ := hold
      rw [← hmore, set_append_right _ _ le_rfl, append_assoc]
      exact prefix_append _ _
    have hworking' : (rc.memory.set old.length folded ++ [folded])[old.length]? = some folded := by
      rw [getElem?_append_left (by rwa [length_set]), getElem?_set_self hlt]
    obtain ⟨rc', hrun, hpost⟩ := ih hnext hold' hworking' hrest
    refine ⟨rc', ?_, hpost⟩
    simp only [foldChain, hread]
    have hstream := foldEwahStream_yields rc.bitmap.bytes header.stream
      (rc.memory.getD old.length []) (foldOp header)
    have hlanes' : rc.memory.getD old.length [] = lanes := by
      rw [getD_eq_getElem?_getD, hworking, Option.getD_some]
    rw [foldEntry, ← h.bitmap_eq] at hfold
    rw [hlanes', hfold] at hstream
    rw [hlanes']
    refine Run.Yields.bind hstream ?_
    simp only [hset, Run.ofExcept_ok, pure_bind]
    exact hrun

/-- **One call**: it returns the bit set, and changes no array that was there. -/
theorem reconstructEntry_spec (hearlier : ∀ i (header : BitmapEntryHeader),
      headers[i]? = some header → header.xorOffset ≤ i) (hlanes : laneCount ≠ 0)
    (h : Fresh bitmap headers laneCount none rc) {entryIndex : ℕ}
    (hentry : entryIndex < headers.length) :
    ∃ place rc', Run.Yields (reconstructEntry · rc entryIndex) (place, rc') ∧
      Fresh bitmap headers laneCount none rc' ∧ rc.memory <+: rc'.memory ∧
      rc'.memory[place]? = some (entryLanes bitmap headers laneCount entryIndex) := by
  obtain ⟨hfresh, hhit⟩ := h.get entryIndex
  unfold reconstructEntry
  cases hcached : rc.cache.get entryIndex with
  | mk direct cache =>
    rw [hcached] at hfresh hhit
    cases direct with
    | some direct => exact ⟨direct, _, ⟨0, fun _ _ => rfl⟩, hfresh, prefix_rfl, hhit direct rfl⟩
    | none =>
      obtain ⟨chain, base, cache, hfound, hfresh, hready⟩ := followChain_spec hearlier h hentry
        (show Ready bitmap headers laneCount _ _ [] from rfl)
      have hstart : Fresh bitmap headers laneCount (some rc.memory.length)
          { rc with cache := cache, memory := rc.memory ++ [base.elim (zeroLanes rc.laneCount)
            fun place => rc.memory.getD place []] } := by
        refine { hfresh with cached := fun entry hentry => ?_ }
        have hvalue := (hfresh.cached entry hentry).2
        have hbound := (List.getElem?_eq_some_iff.mp hvalue).1
        exact ⟨by simpa using hbound.ne, by rw [getElem?_append_left hbound, hvalue]⟩
      have hready' : Ready bitmap headers laneCount (entryLanes bitmap headers laneCount entryIndex)
          (base.elim (zeroLanes rc.laneCount) fun place => rc.memory.getD place []) chain := by
        rw [h.laneCount_eq]
        exact hready
      obtain ⟨rc', hrun, hpost⟩ := foldChain_spec hlanes hstart ( prefix_append _ _)
        getElem?_concat_length hready'
      refine ⟨_, rc', ?_, hpost⟩
      rw [hfound]
      exact hrun

theorem reconstructAll_spec (hearlier : ∀ i (header : BitmapEntryHeader),
      headers[i]? = some header → header.xorOffset ≤ i) {calls : List ℕ}
    (hcalls : ∀ entryIndex ∈ calls, entryIndex < headers.length)
    (hlanes : 0 < headers.length → laneCount ≠ 0)
    (h : Fresh bitmap headers laneCount none rc) :
    ∃ answers, Run.Yields (reconstructAll · rc calls) answers ∧
      Forall₂ (fun entryIndex answer => answer.2.memory[answer.1]? =
        some (entryLanes bitmap headers laneCount entryIndex)) calls answers ∧
      (∀ answer ∈ answers, ∀ entry ∈ answer.2.cache.entries,
        answer.2.memory[entry.value]? = some (entryLanes bitmap headers laneCount entry.key)) ∧
      (rc.memory :: answers.map (·.2.memory)).Pairwise (· <+: ·) := by
  induction calls generalizing rc with
  | nil => exact ⟨[], ⟨0, fun _ _ => rfl⟩, .nil, forall_mem_nil _, List.pairwise_singleton _ _⟩
  | cons entryIndex calls ih =>
    obtain ⟨hentry, hrest⟩ := forall_mem_cons.mp hcalls
    obtain ⟨place, rc', hrun, hfresh, hgrows, hplace⟩ :=
      reconstructEntry_spec hearlier (hlanes (by omega)) h hentry
    obtain ⟨answers, hruns, hanswers, hcached, hchain⟩ := ih hrest hfresh
    refine ⟨(place, rc') :: answers, ?_, .cons hplace hanswers, ?_, ?_⟩
    · exact Run.Yields.bind hrun (Run.Yields.bind hruns ⟨0, fun _ _ => rfl⟩)
    · exact forall_mem_cons.mpr ⟨fun entry hentry => (hfresh.cached entry hentry).2, hcached⟩
    · refine pairwise_cons.mpr ⟨fun later hlater => ?_, hchain⟩
      rcases mem_cons.mp hlater with rfl | hlater
      · exact hgrows
      · exact hgrows.trans ((pairwise_cons.mp hchain).1 later hlater)

/-- **Reconstruction is exact.** Calls in any order end, each with the bit set of its entry, and no
array is changed by a later call. -/
theorem reconstructAll_exact {bytes : Bytes} {digestLength objectCount : ℕ}
    (h : readPackBitmap bytes digestLength = .ok (bitmap, headers))
    (hcount : bitmap.entryCount ≤ objectCount) (maxSizeBytes : ℕ) (maxEntries : Option ℕ)
    (memory : List (List UInt32)) (calls : List ℕ)
    (hcalls : ∀ entryIndex ∈ calls, entryIndex < headers.length) :
    ∃ answers, Run.Yields (reconstructAll · ⟨bitmap, headers, laneCountFor objectCount,
        createLruCache ℕ ℕ maxSizeBytes maxEntries, memory⟩ calls) answers ∧
      Forall₂ (fun entryIndex answer => ∃ lanes, answer.2.memory[answer.1]? = some lanes ∧
        IsSetOf bitmap headers (laneCountFor objectCount) entryIndex lanes) calls answers ∧
      (∀ answer ∈ answers, ∀ entry ∈ answer.2.cache.entries,
        ∃ lanes, answer.2.memory[entry.value]? = some lanes ∧
          IsSetOf bitmap headers (laneCountFor objectCount) entry.key lanes) ∧
      (memory :: answers.map (·.2.memory)).Pairwise (· <+: ·) := by
  obtain ⟨hearlier, hlength, hfits⟩ : (∀ i (header : BitmapEntryHeader),
      headers[i]? = some header → header.xorOffset ≤ i) ∧ headers.length = bitmap.entryCount ∧
      ∀ header ∈ headers, header.stream.wordsOffset +
        header.stream.wordCount * ewahWordSize ≤ bitmap.bytes.length := by
    obtain ⟨hbytes, hlaid⟩ : bitmap.bytes = bytes ∧ LaidOut bytes digestLength bitmap headers := by
      have hlaid := Outcome.ok_iff.mp (h ▸ readPackBitmap_outcome bytes digestLength)
      exact ⟨hlaid.bytes_eq, hlaid⟩
    refine ⟨hlaid.earlier, hlaid.length_eq, fun header hheader => ?_⟩
    obtain ⟨_, -, hentries⟩ := hlaid.entries
    rw [hbytes]
    exact hentries.words_le _ (mem_map_of_mem hheader)
  have hset := fun entryIndex =>
    @isSetOf_entryLanes bitmap headers (laneCountFor objectCount) hfits entryIndex
  obtain ⟨answers, hruns, hanswers, hcached, hgrows⟩ :=
    @reconstructAll_spec bitmap headers (laneCountFor objectCount)
      ⟨bitmap, headers, laneCountFor objectCount, createLruCache ℕ ℕ maxSizeBytes maxEntries, memory⟩
      hearlier calls hcalls (by unfold laneCountFor; omega) ⟨rfl, rfl, rfl, forall_mem_nil _⟩
  refine ⟨answers, hruns, Forall₂.imp (fun _ _ hplace => ⟨_, hplace, hset _⟩) hanswers,
    fun answer hanswer entry hentry => ⟨_, hcached answer hanswer entry hentry, hset _⟩, hgrows⟩

/-- A stream of one literal word. -/
def streamOf (word : UInt8) : Bytes :=
  [0, 0, 0, 64, 0, 0, 0, 2] ++ [0, 0, 0, 2, 0, 0, 0, 0] ++ [0, 0, 0, 0, 0, 0, 0, word] ++
    replicate 4 0

/-- Two entries, of which the second is the difference to the first: the bits 0 and 2, and the bits
1 and 2 that it differs in. -/
def twoEntries : Bytes :=
  [0x42, 0x49, 0x54, 0x4d, 0, 1, 0, 1, 0, 0, 0, 2] ++ replicate 48 0 ++
    (replicate 6 0 ++ streamOf 5) ++ ([0, 0, 0, 1, 1, 0] ++ streamOf 6)

def parsedTwo : PackBitmap :=
  ⟨1, 1, 2, 0, [], ⟨⟨0, 0, 20, 24⟩, ⟨0, 0, 32, 36⟩, ⟨0, 0, 44, 48⟩, ⟨0, 0, 56, 60⟩⟩, 60, twoEntries⟩

def headersOfTwo : List BitmapEntryHeader :=
  [⟨0, 0, 0, ⟨64, 2, 74, 94⟩⟩, ⟨1, 1, 0, ⟨64, 2, 108, 128⟩⟩]

set_option maxRecDepth 4000 in
theorem readPackBitmap_twoEntries :
    readPackBitmap twoEntries 0 = .ok (parsedTwo, headersOfTwo) := by decide

theorem referenceBit_twoEntries {offset stop i : ℕ} {word : ℕ}
    (hwords : declaredWords twoEntries ⟨64, 2, offset, stop⟩ = [2 ^ 33, word]) (hi : i < 32) :
    referenceBit twoEntries ⟨64, 2, offset, stop⟩ i = word.testBit i := by
  have hdecoded : RunLengthWords.decodeWords [2 ^ 33, word] = [word] := by
    simp [RunLengthWords.decodeWords, RunLengthWords.cleanCount, RunLengthWords.literalCount]
  rw [referenceBit, hwords, hdecoded, bitAt_cons (by decide), if_pos (by omega)]

/-- The cache holds one array at most: each of the three calls puts the one before out. -/
theorem reconstructAll_exact_two : ∃ answers,
    readPackBitmap twoEntries 0 = .ok (parsedTwo, headersOfTwo) ∧
    Run.Yields (reconstructAll · ⟨parsedTwo, headersOfTwo, 1, createLruCache ℕ ℕ 4 none, []⟩
      [1, 0, 1]) answers ∧
    Forall₂ (fun set answer => ∃ lanes, answer.2.memory[answer.1]? = some lanes ∧
      ∀ i < 32, bitOf lanes i = Nat.testBit set i) [3, 5, 3] answers := by
  obtain ⟨answers, hruns, hanswers, -⟩ := @reconstructAll_exact _ _ _ 0 2 readPackBitmap_twoEntries
    (by decide) 4 none [] [1, 0, 1] (by decide)
  have hfirst : ∀ i < 32, referenceBit twoEntries ⟨64, 2, 74, 94⟩ i = Nat.testBit 5 i :=
    fun i hi => referenceBit_twoEntries (by decide) hi
  have hsecond : ∀ i < 32, referenceBit twoEntries ⟨64, 2, 108, 128⟩ i = Nat.testBit 6 i :=
    fun i hi => referenceBit_twoEntries (by decide) hi
  have hbase : ∀ i < 32, entryBit parsedTwo headersOfTwo 0 i = Nat.testBit 5 i := by
    intro i hi
    rw [entryBit]
    exact hfirst i hi
  have hown : ∀ i < 32, entryBit parsedTwo headersOfTwo 1 i = Nat.testBit 3 i := by
    intro i hi
    rw [entryBit]
    exact (congrArg₂ Bool.xor (hsecond i hi) (hbase i hi)).trans (Nat.testBit_xor 6 5 i).symm
  refine ⟨answers, readPackBitmap_twoEntries, hruns, ?_⟩
  rcases hanswers with _ | ⟨⟨lanes, hplace, hset⟩, _ | ⟨⟨lanes', hplace', hset'⟩,
    _ | ⟨⟨lanes'', hplace'', hset''⟩, _ | _⟩⟩⟩
  exact .cons ⟨lanes, hplace, fun i hi => (hset.bit_eq i hi).trans (hown i hi)⟩
    (.cons ⟨lanes', hplace', fun i hi => (hset'.bit_eq i hi).trans (hbase i hi)⟩
      (.cons ⟨lanes'', hplace'', fun i hi => (hset''.bit_eq i hi).trans (hown i hi)⟩ .nil))

end

end Bitmap

end Tsgit
