import Mathlib.Algebra.BigOperators.Ring.Finset
import Mathlib.Algebra.Order.BigOperators.Group.Finset
import Tsgit.TypedArray

/-!
# Similarity Fingerprints

`packFingerprint`, `denseFingerprint`, `countCopied` and `estimateSimilarityFromFingerprints` of
`src/domain/diff/similarity.ts`.
-/

namespace Tsgit.Similarity

open List

/-- `Uint32Array` elements are below it. -/
def uint32Limit : ℕ := 2 ^ 32

def MAX_SCORE : ℕ := 60000

def HASHBASE : ℕ := 107927

def MAX_CHUNK_LEN : ℕ := 64

def CR : UInt8 := 0x0d

inductive ContentKind
  | text
  | binary
  deriving DecidableEq

/-- Two arrays of one length. -/
structure SpanFingerprint where
  hashes : List ℕ
  counts : List ℕ
  deriving DecidableEq

/-! ### The chunks -/

/-- The two accumulators, and the bytes of the chunk so far. -/
structure Rolling where
  accum1 : UInt32
  accum2 : UInt32
  n : ℕ

def Rolling.start : Rolling := ⟨0, 0, 0⟩

def Rolling.add (r : Rolling) (c : UInt8) : Rolling where
  accum1 := ((r.accum1 <<< 7) ^^^ (r.accum2 >>> 25)) + c.toUInt32
  accum2 := (r.accum2 <<< 7) ^^^ (r.accum1 >>> 25)
  n := r.n + 1

def Rolling.bucket (r : Rolling) : ℕ := (r.accum1 + r.accum2 * 0x61).toNat % HASHBASE

/-- The CR of a CRLF pair in a text. -/
def isSkipped (kind : ContentKind) (c : UInt8) (rest : Bytes) : Bool :=
  kind = .text && c = CR && rest.head? = some 0x0a

/-- The loop that both builders have: `emit` gets the bucket and the bytes of each chunk. -/
def walkChunks {σ : Type} (kind : ContentKind) (emit : σ → ℕ → ℕ → σ) :
    Bytes → Rolling → σ → σ
  | [], r, state => if r.n > 0 then emit state r.bucket r.n else state
  | c :: rest, r, state =>
    if isSkipped kind c rest then walkChunks kind emit rest r state
    else if (r.add c).n < MAX_CHUNK_LEN && c ≠ 0x0a then
      walkChunks kind emit rest (r.add c) state
    else walkChunks kind emit rest .start (emit state (r.add c).bucket (r.add c).n)

/-! ### The builders -/

/-- A chunk as a number below `2 ^ 24`. -/
def pack (bucket n : ℕ) : ℕ := bucket <<< 7 ||| n

/-- A turn of the fold: the count goes to the last bucket, or to a new one. -/
def foldPacked (table : SpanFingerprint) (value : ℕ) : SpanFingerprint :=
  if table.hashes.getLast? = some (value >>> 7) then
    { table with
      counts := table.counts.dropLast ++
        [(table.counts.getLast?.getD 0 + (value &&& 127)) % uint32Limit] }
  else ⟨table.hashes ++ [value >>> 7], table.counts ++ [value &&& 127]⟩

def packFingerprint (data : Bytes) (kind : ContentKind) : SpanFingerprint :=
  let packed := walkChunks kind (fun packed bucket n => packed ++ [pack bucket n]) data .start []
  packed.mergeSort.foldl foldPacked ⟨[], []⟩

/-- The bytes in each bucket, and the buckets in the order of their first bytes. -/
structure Dense where
  accum : ℕ → ℕ
  touched : List ℕ

def Dense.touch (dense : Dense) (bucket n : ℕ) : Dense where
  accum := Function.update dense.accum bucket ((dense.accum bucket + n) % uint32Limit)
  touched := if dense.accum bucket = 0 then dense.touched ++ [bucket] else dense.touched

def denseFingerprint (data : Bytes) (kind : ContentKind) : SpanFingerprint :=
  let dense := walkChunks kind Dense.touch data .start ⟨fun _ => 0, []⟩
  let sortedTouched := dense.touched.mergeSort
  ⟨sortedTouched, sortedTouched.map dense.accum⟩

def buildFingerprint (data : Bytes) (kind : ContentKind) : SpanFingerprint :=
  if data.length < HASHBASE then packFingerprint data kind else denseFingerprint data kind

/-! ### The estimate -/

/-- The merge walk over two tables, what was copied so far at hand. -/
def countCopiedFrom : List (ℕ × ℕ) → List (ℕ × ℕ) → ℕ → ℕ
  | (a, x) :: src, (b, y) :: dst, copied =>
    if a = b then countCopiedFrom src dst (copied + min x y)
    else if a < b then countCopiedFrom src ((b, y) :: dst) copied
    else countCopiedFrom ((a, x) :: src) dst copied
  | _, _, copied => copied
termination_by src dst => src.length + dst.length

def SpanFingerprint.rows (table : SpanFingerprint) : List (ℕ × ℕ) :=
  table.hashes.zip table.counts

def countCopied (src dst : SpanFingerprint) : ℕ := countCopiedFrom src.rows dst.rows 0

def sumFingerprintCounts (table : SpanFingerprint) : ℕ := table.counts.sum

def estimateSimilarityFromFingerprints (src : SpanFingerprint) (srcSize : ℕ)
    (dst : SpanFingerprint) (dstSize : ℕ) : ℕ :=
  let maxSize := max srcSize dstSize
  if maxSize = 0 then MAX_SCORE
  else if srcSize = 0 ∨ dstSize = 0 then 0
  else countCopied src dst * MAX_SCORE / maxSize

/-! ### Chunks as a list -/

def chunksOf (kind : ContentKind) (data : Bytes) : List (ℕ × ℕ) :=
  walkChunks kind (fun chunks bucket n => chunks ++ [(bucket, n)]) data .start []

/-- The bytes of a content that count: all but the skipped ones. -/
def countedSize (kind : ContentKind) : Bytes → ℕ
  | [] => 0
  | c :: rest => (if isSkipped kind c rest then 0 else 1) + countedSize kind rest

theorem walkChunks_eq {σ : Type} (kind : ContentKind) (emit : σ → ℕ → ℕ → σ) (data : Bytes)
    (r : Rolling) (state : σ) (chunks : List (ℕ × ℕ)) :
    (walkChunks kind (fun chunks bucket n => chunks ++ [(bucket, n)]) data r chunks).foldl
        (fun state chunk => emit state chunk.1 chunk.2) state =
      walkChunks kind emit data r (chunks.foldl (fun state chunk => emit state chunk.1 chunk.2)
        state) := by
  induction data generalizing r chunks with
  | nil =>
    rw [walkChunks, walkChunks]
    split
    · rw [foldl_append]
      rfl
    · rfl
  | cons c rest ih =>
    rw [walkChunks, walkChunks]
    split
    · exact ih r chunks
    · split
      · exact ih _ chunks
      · rw [ih, foldl_append]
        rfl

theorem walkChunks_chunksOf {σ : Type} (kind : ContentKind) (emit : σ → ℕ → ℕ → σ)
    (data : Bytes) (state : σ) : walkChunks kind emit data .start state =
      (chunksOf kind data).foldl (fun state chunk => emit state chunk.1 chunk.2) state :=
  (walkChunks_eq kind emit data .start state []).symm

theorem bucket_lt (r : Rolling) : r.bucket < HASHBASE := Nat.mod_lt _ (by decide)

/-- What a list of chunks is, whatever the content: buckets in range, and none empty or too long. -/
def Chunked (chunks : List (ℕ × ℕ)) : Prop :=
  ∀ chunk ∈ chunks, chunk.1 < HASHBASE ∧ 0 < chunk.2 ∧ chunk.2 ≤ MAX_CHUNK_LEN

variable {chunks : List (ℕ × ℕ)}

theorem walkChunks_spec (kind : ContentKind) (data : Bytes) {r : Rolling}
    (hr : r.n < MAX_CHUNK_LEN) (hchunks : Chunked chunks) :
    Chunked (walkChunks kind (fun chunks bucket n => chunks ++ [(bucket, n)]) data r chunks) ∧
      ((walkChunks kind (fun chunks bucket n => chunks ++ [(bucket, n)]) data r chunks).map
        (·.2)).sum = (chunks.map (·.2)).sum + r.n + countedSize kind data := by
  have happend : ∀ {r : Rolling} {chunks : List (ℕ × ℕ)}, Chunked chunks → 0 < r.n →
      r.n ≤ MAX_CHUNK_LEN → Chunked (chunks ++ [(r.bucket, r.n)]) := by
    intro r chunks hall hpos hle chunk hmem
    rcases mem_append.mp hmem with hold | hnew
    · exact hall chunk hold
    · rw [mem_singleton.mp hnew]
      exact ⟨bucket_lt r, hpos, hle⟩
  induction data generalizing r chunks with
  | nil =>
    rw [walkChunks, countedSize]
    split
    · rename_i hpos
      refine ⟨happend hchunks hpos hr.le, ?_⟩
      rw [map_append, sum_append, map_singleton, sum_singleton, Nat.add_zero]
    · exact ⟨hchunks, by omega⟩
  | cons c rest ih =>
    have hadd : (r.add c).n = r.n + 1 := rfl
    rw [walkChunks, countedSize]
    split
    · rw [Nat.zero_add]
      exact ih hr hchunks
    split
    · rename_i hmore
      have hlt := of_decide_eq_true ((Bool.and_eq_true _ _).mp hmore).1
      obtain ⟨hall, hsum⟩ := ih hlt hchunks
      refine ⟨hall, ?_⟩
      rw [hsum, hadd]
      omega
    · have hle : (r.add c).n ≤ MAX_CHUNK_LEN := hadd ▸ hr
      obtain ⟨hall, hsum⟩ := ih (r := .start) (by decide)
        (happend hchunks (hadd ▸ Nat.succ_pos _) hle)
      refine ⟨hall, ?_⟩
      rw [hsum, map_append, sum_append, map_singleton, sum_singleton, hadd]
      have hstart : Rolling.start.n = 0 := rfl
      omega

theorem chunksOf_chunked (kind : ContentKind) (data : Bytes) : Chunked (chunksOf kind data) :=
  (walkChunks_spec kind data (by decide) (forall_mem_nil _)).1

/-- **The chunks hold each byte that counts once.** -/
theorem sum_chunksOf (kind : ContentKind) (data : Bytes) :
    ((chunksOf kind data).map (·.2)).sum = countedSize kind data := by
  have hnone : Chunked [] := forall_mem_nil _
  have hsum := (walkChunks_spec kind data (r := .start) (by decide) hnone).2
  rw [chunksOf, hsum]
  exact Nat.zero_add _

theorem countedSize_le (kind : ContentKind) (data : Bytes) :
    countedSize kind data ≤ data.length := by
  induction data with
  | nil => exact le_rfl
  | cons c rest ih =>
    rw [countedSize, length_cons]
    split <;> omega

/-! ### Tables -/

def total (chunks : List (ℕ × ℕ)) (bucket : ℕ) : ℕ :=
  ((chunks.filter (·.1 = bucket)).map (·.2)).sum

/-- A table holds, of each bucket in ascending order, the bytes of its chunks. -/
structure Tallies (table : SpanFingerprint) (chunks : List (ℕ × ℕ)) : Prop where
  ascending : table.hashes.Pairwise (· < ·)
  mem_iff : ∀ bucket, bucket ∈ table.hashes ↔ bucket ∈ chunks.map (·.1)
  counts : table.counts = table.hashes.map (total chunks)

theorem total_append (chunks : List (ℕ × ℕ)) (bucket n other : ℕ) :
    total (chunks ++ [(bucket, n)]) other =
      total chunks other + if bucket = other then n else 0 := by
  rw [total, total, filter_append, map_append, sum_append]
  by_cases heq : bucket = other
  · simp [heq]
  · simp [heq]

variable {chunks' : List (ℕ × ℕ)}

theorem total_perm (h : chunks.Perm chunks') :
    total chunks = total chunks' := by
  funext bucket
  exact ((h.filter _).map _).sum_nat

theorem total_le_sum (chunks : List (ℕ × ℕ)) (bucket : ℕ) :
    total chunks bucket ≤ (chunks.map (·.2)).sum := by
  induction chunks with
  | nil => exact le_rfl
  | cons chunk rest ih =>
    rw [total] at ih ⊢
    rw [filter_cons, map_cons, sum_cons]
    split
    · rw [map_cons, sum_cons]
      omega
    · omega

theorem total_eq_zero_iff (h : Chunked chunks) (bucket : ℕ) :
    total chunks bucket = 0 ↔ bucket ∉ chunks.map (·.1) := by
  rw [total, List.sum_eq_zero_iff_forall_eq_nat]
  constructor
  · intro hzero hmem
    obtain ⟨chunk, hchunk, hbucket⟩ := mem_map.mp hmem
    have hnone := hzero chunk.2
      (mem_map_of_mem (mem_filter.mpr ⟨hchunk, decide_eq_true hbucket⟩))
    exact absurd hnone (h chunk hchunk).2.1.ne'
  · intro hnot n hn
    obtain ⟨chunk, hchunk, rfl⟩ := mem_map.mp hn
    obtain ⟨hmem, hbucket⟩ := mem_filter.mp hchunk
    exact absurd (mem_map.mpr ⟨chunk, hmem, of_decide_eq_true hbucket⟩) hnot

variable {table : SpanFingerprint}

/-- The order of the chunks does not matter. -/
theorem Tallies.perm
    (h : Tallies table chunks) (hperm : chunks.Perm chunks') : Tallies table chunks' where
  ascending := h.ascending
  mem_iff bucket := by rw [h.mem_iff, (hperm.map _).mem_iff]
  counts := by rw [h.counts, total_perm hperm]

theorem Tallies.nodup
    (h : Tallies table chunks) : table.hashes.Nodup := h.ascending.imp fun hlt => hlt.ne

/-- **There is one table of some chunks.** -/
theorem Tallies.unique {table' : SpanFingerprint}
    (h : Tallies table chunks) (h' : Tallies table' chunks) : table = table' := by
  have hhashes : table.hashes = table'.hashes := by
    refine Perm.eq_of_pairwise (fun a b _ _ hab hba => absurd hba hab.not_gt) h.ascending
      h'.ascending ((perm_ext_iff_of_nodup h.nodup h'.nodup).mpr fun bucket => ?_)
    rw [h.mem_iff, h'.mem_iff]
  have hcounts : table.counts = table'.counts := by
    rw [h.counts, h'.counts, hhashes]
  cases table
  cases table'
  exact congr (congrArg _ hhashes) hcounts

/-! ### The dense builder -/

/-- **A turn of the dense builder**, as long as the bytes fit. -/
theorem foldl_touch (h : Chunked chunks) (hfits : (chunks.map (·.2)).sum < uint32Limit) :
    (chunks.foldl (fun (dense : Dense) chunk => dense.touch chunk.1 chunk.2)
        ⟨fun _ => 0, []⟩).accum = total chunks ∧
      (chunks.foldl (fun (dense : Dense) chunk => dense.touch chunk.1 chunk.2)
        ⟨fun _ => 0, []⟩).touched.Nodup ∧
      ∀ bucket, bucket ∈ (chunks.foldl (fun (dense : Dense) chunk => dense.touch chunk.1 chunk.2)
        ⟨fun _ => 0, []⟩).touched ↔ bucket ∈ chunks.map (·.1) := by
  induction chunks using reverseRecOn with
  | nil => exact ⟨rfl, nodup_nil, fun _ => Iff.rfl⟩
  | append_singleton chunks chunk ih =>
    obtain ⟨bucket, n⟩ := chunk
    have hchunks : Chunked chunks := fun chunk hmem => h chunk (mem_append_left _ hmem)
    rw [map_append, sum_append, map_singleton, sum_singleton] at hfits
    dsimp only at hfits
    obtain ⟨haccum, hnodup, hmem⟩ := ih hchunks (by omega)
    have hle := total_le_sum chunks bucket
    rw [foldl_append, foldl_cons, foldl_nil]
    generalize chunks.foldl (fun (dense : Dense) chunk => dense.touch chunk.1 chunk.2)
      ⟨fun _ => 0, []⟩ = dense at *
    have hzero : dense.accum bucket = 0 ↔ bucket ∉ dense.touched := by
      rw [haccum, total_eq_zero_iff hchunks, hmem]
    refine ⟨?_, ?_, fun other => ?_⟩
    · funext other
      rw [total_append, Dense.touch, haccum]
      dsimp only
      by_cases heq : bucket = other
      · subst heq
        rw [Function.update_self, if_pos rfl]
        exact Nat.mod_eq_of_lt (by omega)
      · rw [Function.update_of_ne (Ne.symm heq), if_neg heq, Nat.add_zero]
    · rw [Dense.touch]
      split
      · rename_i hnew
        rw [← concat_eq_append]
        exact hnodup.concat (hzero.mp hnew)
      · exact hnodup
    · rw [Dense.touch, map_append, mem_append, ← hmem, map_singleton, mem_singleton]
      split
      · exact mem_append.trans (or_congr_right mem_singleton)
      · rename_i hold
        refine ⟨.inl, fun hor => hor.elim id ?_⟩
        rintro rfl
        exact not_not.mp fun hnot => hold (hzero.mpr hnot)

/-- A content whose bytes all fit a counter; `MAX_INFLATE_OUTPUT_BYTES` caps contents at half of
that. -/
def Fits (data : Bytes) : Prop := data.length < uint32Limit

variable {data : Bytes}

theorem denseFingerprint_tallies (hfits : Fits data) (kind : ContentKind) :
    Tallies (denseFingerprint data kind) (chunksOf kind data) := by
  have hsum : ((chunksOf kind data).map (·.2)).sum < uint32Limit :=
    (sum_chunksOf kind data).trans_lt ((countedSize_le kind data).trans_lt hfits)
  obtain ⟨haccum, hnodup, hmem⟩ := foldl_touch (chunksOf_chunked kind data) hsum
  rw [denseFingerprint, walkChunks_chunksOf]
  generalize (chunksOf kind data).foldl (fun (dense : Dense) chunk => dense.touch chunk.1 chunk.2)
    ⟨fun _ => 0, []⟩ = dense at *
  have hsorted : dense.touched.mergeSort.Pairwise (· ≤ ·) := pairwise_mergeSort' _ _
  refine ⟨?_, fun bucket => ?_, by rw [haccum]⟩
  · have hnodup' := (mergeSort_perm dense.touched fun a b => decide (a ≤ b)).nodup_iff.mpr
      hnodup
    exact hsorted.imp₂ (fun _ _ hle hne => lt_of_le_of_ne hle hne) hnodup'
  · rw [← hmem]
    exact mem_mergeSort

/-! ### The packing builder -/

/-- The bucket and the bytes of a packed chunk. -/
def unpack (value : ℕ) : ℕ × ℕ := (value >>> 7, value &&& 127)

theorem pack_eq {bucket n : ℕ} (h : n < 2 ^ 7) : pack bucket n = bucket * 2 ^ 7 + n := by
  rw [pack, ← Nat.shiftLeft_add_eq_or_of_lt h, Nat.shiftLeft_eq]

theorem unpack_pack {bucket n : ℕ} (h : n < 2 ^ 7) : unpack (pack bucket n) = (bucket, n) := by
  have hmask : pack bucket n &&& 127 = pack bucket n % 2 ^ 7 :=
    Nat.and_two_pow_sub_one_eq_mod _ 7
  rw [unpack, hmask, Nat.shiftRight_eq_div_pow, pack_eq h]
  congr 1 <;> omega

theorem unpack_mono {value value' : ℕ} (h : value ≤ value') :
    (unpack value).1 ≤ (unpack value').1 := by
  rw [unpack, unpack, Nat.shiftRight_eq_div_pow, Nat.shiftRight_eq_div_pow]
  exact Nat.div_le_div_right h

theorem total_of_notMem {bucket : ℕ} (h : bucket ∉ chunks.map (·.1)) :
    total chunks bucket = 0 := by
  have hnone : chunks.filter (·.1 = bucket) = [] := by
    refine filter_eq_nil_iff.mpr fun chunk hmem htrue => h ?_
    exact mem_map.mpr ⟨chunk, hmem, of_decide_eq_true htrue⟩
  rw [total, hnone]
  rfl

theorem getLast?_of_le {hashes : List ℕ} {bucket : ℕ} (hascending : hashes.Pairwise (· < ·))
    (hle : ∀ other ∈ hashes, other ≤ bucket) (hmem : bucket ∈ hashes) :
    hashes.getLast? = some bucket := by
  rcases hashes.eq_nil_or_concat with rfl | ⟨front, last, rfl⟩
  · exact absurd hmem not_mem_nil
  rw [concat_eq_append] at *
  rw [getLast?_concat]
  have hlast := hle last (mem_append_right _ (mem_singleton_self _))
  rcases mem_append.mp hmem with hfront | hend
  · have hlt := (pairwise_append.mp hascending).2.2 bucket hfront last
      (mem_singleton_self _)
    omega
  · rw [mem_singleton.mp hend]

/-- **A turn of the fold** over a chunk that is not below the others. -/
theorem Tallies.foldPacked (h : Tallies table chunks) {value : ℕ}
    (hle : ∀ chunk ∈ chunks, chunk.1 ≤ (unpack value).1)
    (hfits : total chunks (unpack value).1 + (unpack value).2 < uint32Limit) :
    Tallies (foldPacked table value) (chunks ++ [unpack value]) := by
  obtain ⟨hashes, counts⟩ := table
  obtain ⟨hascending, hmem, hcounts⟩ := h
  dsimp only at hascending hmem hcounts
  generalize hbucket : (unpack value).1 = bucket at hle hfits
  generalize hn : (unpack value).2 = n at hfits
  have hpair : unpack value = (bucket, n) := Prod.ext hbucket hn
  have hshift : value >>> 7 = bucket := hbucket
  have hmask : value &&& 127 = n := hn
  have hbelow : ∀ other ∈ hashes, other ≤ bucket := by
    intro other hother
    obtain ⟨chunk, hchunk, rfl⟩ := mem_map.mp ((hmem other).mp hother)
    exact hle chunk hchunk
  have hmap : ∀ part : List ℕ, bucket ∉ part →
      part.map (total (chunks ++ [(bucket, n)])) = part.map (total chunks) := by
    intro part hpart
    refine map_congr_left fun other hother => ?_
    have hne : bucket ≠ other := by
      rintro rfl
      exact hpart hother
    rw [total_append, if_neg hne, Nat.add_zero]
  rw [hpair, Similarity.foldPacked, hshift, hmask]
  dsimp only
  by_cases hlast : hashes.getLast? = some bucket
  · rw [if_pos hlast]
    obtain ⟨front, rfl⟩ := getLast?_eq_some_iff.mp hlast
    have hfront : bucket ∉ front := fun hin => (lt_irrefl bucket
      ((pairwise_append.mp hascending).2.2 bucket hin bucket (mem_singleton_self _)))
    refine ⟨hascending, fun other => ?_, ?_⟩
    · rw [hmem, map_append, mem_append, map_singleton, mem_singleton]
      refine ⟨.inl, fun hor => hor.elim id ?_⟩
      rintro rfl
      exact (hmem _).mp (mem_append_right _ (mem_singleton_self _))
    · dsimp only
      rw [hcounts, map_append, map_append, map_singleton, map_singleton,
        dropLast_concat, getLast?_concat, Option.getD_some, Nat.mod_eq_of_lt hfits,
        hmap front hfront, total_append, if_pos rfl]
  · rw [if_neg hlast]
    have hnew : bucket ∉ hashes := fun hin => hlast (getLast?_of_le hascending hbelow hin)
    refine ⟨?_, fun other => ?_, ?_⟩
    · refine pairwise_append.mpr ⟨hascending, pairwise_singleton _ _, ?_⟩
      intro other hother last hend
      rw [mem_singleton.mp hend]
      refine lt_of_le_of_ne (hbelow other hother) ?_
      rintro rfl
      exact hnew hother
    · rw [mem_append, hmem, map_append, mem_append, map_singleton]
    · dsimp only
      rw [hcounts, map_append, map_singleton, hmap hashes hnew, total_append,
        if_pos rfl, total_of_notMem fun hin => hnew ((hmem bucket).mpr hin), Nat.zero_add]

/-- **The run of the fold** over sorted chunks. -/
theorem foldl_foldPacked {values : List ℕ} (hsorted : values.Pairwise (· ≤ ·))
    (hfits : ((values.map unpack).map (·.2)).sum < uint32Limit) :
    Tallies (values.foldl foldPacked ⟨[], []⟩) (values.map unpack) := by
  induction values using reverseRecOn with
  | nil => exact ⟨.nil, fun _ => Iff.rfl, rfl⟩
  | append_singleton values value ih =>
    rw [pairwise_append] at hsorted
    rw [map_append, map_append, sum_append, map_singleton, map_singleton, sum_singleton] at hfits
    rw [foldl_append, foldl_cons, foldl_nil, map_append, map_singleton]
    refine (ih hsorted.1 (by omega)).foldPacked ?_ ?_
    · intro chunk hchunk
      obtain ⟨other, hother, rfl⟩ := mem_map.mp hchunk
      exact unpack_mono (hsorted.2.2 other hother value (mem_singleton_self _))
    · exact (Nat.add_le_add_right (total_le_sum _ _) _).trans_lt hfits

theorem packFingerprint_tallies (hfits : Fits data) (kind : ContentKind) :
    Tallies (packFingerprint data kind) (chunksOf kind data) := by
  have hchunked := chunksOf_chunked kind data
  have hpacked : walkChunks kind (fun packed bucket n => packed ++ [pack bucket n]) data .start [] =
      (chunksOf kind data).map fun chunk => pack chunk.1 chunk.2 := by
    rw [walkChunks_chunksOf]
    generalize chunksOf kind data = chunks
    induction chunks using reverseRecOn with
    | nil => rfl
    | append_singleton chunks chunk ih =>
      rw [foldl_append, ih, map_append]
      rfl
  have hunpacked : ((chunksOf kind data).map fun chunk => pack chunk.1 chunk.2).map unpack =
      chunksOf kind data := by
    rw [map_map]
    refine (map_congr_left fun chunk hmem => ?_).trans (map_id _)
    have hle := (hchunked chunk hmem).2.2
    have hmax : MAX_CHUNK_LEN = 64 := rfl
    exact unpack_pack (by omega)
  rw [packFingerprint, hpacked]
  generalize (chunksOf kind data).map (fun chunk => pack chunk.1 chunk.2) = packed at *
  have hperm : (packed.mergeSort.map unpack).Perm (chunksOf kind data) := by
    rw [← hunpacked]
    exact (mergeSort_perm packed _).map unpack
  refine (foldl_foldPacked (pairwise_mergeSort' _ _) ?_).perm hperm
  rw [(hperm.map _).sum_nat, sum_chunksOf]
  exact (countedSize_le kind data).trans_lt hfits

/-! ### The merge walk -/

theorem total_cons (chunk : ℕ × ℕ) (chunks : List (ℕ × ℕ)) (bucket : ℕ) :
    total (chunk :: chunks) bucket = (if chunk.1 = bucket then chunk.2 else 0) +
      total chunks bucket := by
  rw [total, total]
  by_cases heq : chunk.1 = bucket
  · simp [heq]
  · simp [heq]

/-- **The merge walk over two sorted tables** adds what they share of each bucket. -/
theorem countCopiedFrom_eq {src dst : List (ℕ × ℕ)} (copied : ℕ)
    (hsrc : src.Pairwise fun a b => a.1 < b.1) (hdst : dst.Pairwise fun a b => a.1 < b.1) :
    countCopiedFrom src dst copied =
      copied + (src.map fun row => min row.2 (total dst row.1)).sum := by
  have hbelow : ∀ {bucket : ℕ} {rows : List (ℕ × ℕ)}, (∀ row ∈ rows, bucket < row.1) →
      total rows bucket = 0 := by
    intro bucket rows hlt
    refine total_of_notMem fun hmem => ?_
    obtain ⟨row, hrow, rfl⟩ := mem_map.mp hmem
    exact lt_irrefl _ (hlt row hrow)
  have hskip : ∀ {b y : ℕ} {rows dst : List (ℕ × ℕ)}, (∀ row ∈ rows, b < row.1) →
      (rows.map fun row => min row.2 (total ((b, y) :: dst) row.1)) =
        rows.map fun row => min row.2 (total dst row.1) := by
    intro b y rows dst hlt
    refine map_congr_left fun row hrow => ?_
    rw [total_cons, if_neg (hlt row hrow).ne, Nat.zero_add]
  induction src, dst, copied using countCopiedFrom.induct with
  | case1 x src a y dst copied ih =>
    rw [pairwise_cons] at hsrc hdst
    rw [countCopiedFrom, if_pos rfl, ih hsrc.2 hdst.2, map_cons, sum_cons,
      hskip hsrc.1, total_cons, if_pos rfl, hbelow hdst.1]
    omega
  | case2 a x src b y dst copied hne hlt ih =>
    rw [pairwise_cons] at hsrc
    have hnone : total ((b, y) :: dst) a = 0 := by
      refine hbelow fun row hrow => ?_
      rcases mem_cons.mp hrow with rfl | hlater
      · exact hlt
      · exact hlt.trans ((pairwise_cons.mp hdst).1 row hlater)
    rw [countCopiedFrom, if_neg hne, if_pos hlt, ih hsrc.2 hdst, map_cons, sum_cons,
      hnone, Nat.min_zero, Nat.zero_add]
  | case3 a x src b y dst copied hne hge ih =>
    rw [pairwise_cons] at hdst
    have hgt : ∀ row ∈ (a, x) :: src, b < row.1 := by
      intro row hrow
      rcases mem_cons.mp hrow with rfl | hlater
      · exact lt_of_le_of_ne (not_lt.mp hge) (Ne.symm hne)
      · exact (lt_of_le_of_ne (not_lt.mp hge) (Ne.symm hne)).trans
          ((pairwise_cons.mp hsrc).1 row hlater)
    rw [countCopiedFrom, if_neg hne, if_neg hge, ih hsrc hdst.2, hskip hgt]
  | case4 src dst copied hnot =>
    cases src with
    | nil => rw [countCopiedFrom] <;> simp
    | cons row src =>
      cases dst with
      | nil =>
        rw [countCopiedFrom]
        · simp [total]
        · simp
      | cons other dst => exact absurd rfl (hnot row.1 row.2 src other.1 other.2 dst rfl)

/-- The walk takes each row of the other table once. -/
theorem countCopiedFrom_le (src dst : List (ℕ × ℕ)) (copied : ℕ) :
    countCopiedFrom src dst copied ≤ copied + (dst.map (·.2)).sum := by
  induction src, dst, copied using countCopiedFrom.induct with
  | case1 x src a y dst copied ih =>
    rw [countCopiedFrom, if_pos rfl, map_cons, sum_cons]
    have hmin := Nat.min_le_right x y
    omega
  | case2 a x src b y dst copied hne hlt ih =>
    rw [countCopiedFrom, if_neg hne, if_pos hlt]
    exact ih
  | case3 a x src b y dst copied hne hge ih =>
    rw [countCopiedFrom, if_neg hne, if_neg hge, map_cons, sum_cons]
    omega
  | case4 src dst copied hnot =>
    rw [countCopiedFrom]
    · exact Nat.le_add_right _ _
    · exact hnot

/-! ### The estimate by the chunks -/

def sharedBytes (chunks chunks' : List (ℕ × ℕ)) : ℕ :=
  ∑ bucket ∈ (chunks.map (·.1)).toFinset, min (total chunks bucket) (total chunks' bucket)

theorem Tallies.rows (h : Tallies table chunks) :
    table.rows = table.hashes.map fun bucket => (bucket, total chunks bucket) := by
  rw [SpanFingerprint.rows, h.counts]
  generalize table.hashes = hashes
  induction hashes with
  | nil => rfl
  | cons hash hashes ih => rw [map_cons, zip_cons_cons, ih, map_cons]

theorem Tallies.map_rows
    (h : Tallies table chunks) : table.rows.map (·.2) = table.counts := by
  rw [h.rows, h.counts, map_map]
  rfl

theorem Tallies.rows_ascending
    (h : Tallies table chunks) : table.rows.Pairwise fun a b => a.1 < b.1 := by
  rw [h.rows, pairwise_map]
  exact h.ascending

theorem Tallies.toFinset
    (h : Tallies table chunks) : table.hashes.toFinset = (chunks.map (·.1)).toFinset := by
  ext bucket
  rw [mem_toFinset, mem_toFinset, h.mem_iff]

theorem Tallies.sum_hashes (h : Tallies table chunks) (f : ℕ → ℕ) :
    (table.hashes.map f).sum = ∑ bucket ∈ (chunks.map (·.1)).toFinset, f bucket := by
  rw [← h.toFinset, sum_toFinset _ h.nodup]

theorem sum_total (chunks : List (ℕ × ℕ)) {buckets : Finset ℕ}
    (h : ∀ chunk ∈ chunks, chunk.1 ∈ buckets) :
    ∑ bucket ∈ buckets, total chunks bucket = (chunks.map (·.2)).sum := by
  induction chunks with
  | nil => exact Finset.sum_const_zero
  | cons chunk chunks ih =>
    obtain ⟨hin, hrest⟩ := forall_mem_cons.mp h
    simp only [total_cons]
    rw [Finset.sum_add_distrib, ih hrest, Finset.sum_ite_eq, if_pos hin, map_cons, sum_cons]

theorem Tallies.total_rows
    (h : Tallies table chunks) : total table.rows = total chunks := by
  funext bucket
  by_cases hmem : bucket ∈ table.hashes
  · have hnodup := h.nodup
    obtain ⟨front, back, hsplit⟩ := append_of_mem hmem
    rw [hsplit, nodup_append, nodup_cons] at hnodup
    have hnone : ∀ part : List ℕ, bucket ∉ part →
        (part.map fun bucket => (bucket, total chunks bucket)).filter (·.1 = bucket) = [] := by
      intro part hnot
      refine filter_eq_nil_iff.mpr fun row hrow htrue => hnot ?_
      obtain ⟨other, hother, rfl⟩ := mem_map.mp hrow
      exact (of_decide_eq_true htrue : other = bucket) ▸ hother
    have hfront : bucket ∉ front := fun hin =>
      hnodup.2.2 bucket hin bucket mem_cons_self rfl
    rw [h.rows, hsplit, map_append, map_cons]
    generalize total chunks = bytes at hnone ⊢
    rw [total, filter_append, hnone front hfront, filter_cons, hnone back hnodup.2.1.1]
    simp
  · have hkeys : table.rows.map (·.1) = table.hashes := by
      rw [h.rows, map_map]
      exact map_id _
    rw [total_of_notMem (hkeys ▸ hmem),
      total_of_notMem fun hin => hmem ((h.mem_iff bucket).mpr hin)]

/-- **What the merge walk over two tables counts.** -/
theorem countCopied_eq {src dst : SpanFingerprint}
    (h : Tallies src chunks) (h' : Tallies dst chunks') :
    countCopied src dst = sharedBytes chunks chunks' := by
  rw [countCopied, countCopiedFrom_eq 0 h.rows_ascending h'.rows_ascending, Nat.zero_add, h.rows,
    map_map, h'.total_rows, sharedBytes, ← h.sum_hashes]
  rfl

theorem sumFingerprintCounts_eq {kind : ContentKind}
    (h : Tallies table (chunksOf kind data)) :
    sumFingerprintCounts table = countedSize kind data := by
  rw [sumFingerprintCounts, h.counts, h.sum_hashes, ← sum_chunksOf]
  exact sum_total _ fun chunk hmem => mem_toFinset.mpr (mem_map_of_mem hmem)

theorem sharedBytes_le_left (chunks chunks' : List (ℕ × ℕ)) :
    sharedBytes chunks chunks' ≤ (chunks.map (·.2)).sum := by
  rw [← sum_total chunks fun chunk hmem => mem_toFinset.mpr (mem_map_of_mem hmem)]
  exact Finset.sum_le_sum fun bucket _ => Nat.min_le_left _ _

theorem sharedBytes_self (chunks : List (ℕ × ℕ)) :
    sharedBytes chunks chunks = (chunks.map (·.2)).sum := by
  rw [← sum_total chunks fun chunk hmem => mem_toFinset.mpr (mem_map_of_mem hmem)]
  exact Finset.sum_congr rfl fun bucket _ => Nat.min_self _

/-- The fingerprints of a content, by any of the builders. -/
inductive FingerprintOf (kind : ContentKind) (data : Bytes) : SpanFingerprint → Prop
  | packed : FingerprintOf kind data (packFingerprint data kind)
  | dense : FingerprintOf kind data (denseFingerprint data kind)

theorem FingerprintOf.tallies {kind : ContentKind} (hfits : Fits data) (h : FingerprintOf kind data table) :
    Tallies table (chunksOf kind data) := by
  cases h with
  | packed => exact packFingerprint_tallies hfits kind
  | dense => exact denseFingerprint_tallies hfits kind

theorem buildFingerprint_of (kind : ContentKind) (data : Bytes) :
    FingerprintOf kind data (buildFingerprint data kind) := by
  rw [buildFingerprint]
  split
  · exact .packed
  · exact .dense

/-- **Whichever builder made a fingerprint, it is the table of the content's chunks**; the estimate
never exceeds either content, and is all of identical ones. -/
theorem fingerprints_agree {kind kind' : ContentKind} {data other : Bytes}
    (hdata : Fits data) (hother : Fits other) {src dst : SpanFingerprint}
    (hsrc : FingerprintOf kind data src) (hdst : FingerprintOf kind' other dst) :
    Tallies src (chunksOf kind data) ∧ src = buildFingerprint data kind ∧
      countCopied src dst = sharedBytes (chunksOf kind data) (chunksOf kind' other) ∧
      countCopied src dst ≤ countedSize kind data ∧
      countCopied src dst ≤ countedSize kind' other ∧
      (kind = kind' → data = other → countCopied src dst = countedSize kind data) ∧
      estimateSimilarityFromFingerprints src data.length dst other.length =
        estimateSimilarityFromFingerprints (buildFingerprint data kind) data.length
          (buildFingerprint other kind') other.length := by
  have hsame := (hsrc.tallies hdata).unique ((buildFingerprint_of kind data).tallies hdata)
  have hsame' := (hdst.tallies hother).unique ((buildFingerprint_of kind' other).tallies hother)
  have hcopied := countCopied_eq (hsrc.tallies hdata) (hdst.tallies hother)
  refine ⟨hsrc.tallies hdata, hsame, hcopied, ?_, ?_, ?_, ?_⟩
  · rw [hcopied, ← sum_chunksOf]
    exact sharedBytes_le_left _ _
  · rw [← sumFingerprintCounts_eq (hdst.tallies hother), sumFingerprintCounts]
    have hle := countCopiedFrom_le src.rows dst.rows 0
    rwa [(hdst.tallies hother).map_rows, Nat.zero_add] at hle
  · rintro rfl rfl
    rw [hcopied, sharedBytes_self, sum_chunksOf]
  · rw [← hsame, ← hsame']

/-- Two lines, the first of which ends with a CRLF. -/
def twoLines : Bytes := [0x61, 0x0d, 0x0a, 0x62]

theorem fingerprints_agree_twoLines :
    Tallies (packFingerprint twoLines .text) (chunksOf .text twoLines) ∧
      packFingerprint twoLines .text = buildFingerprint twoLines .text ∧
      countCopied (packFingerprint twoLines .text) (denseFingerprint twoLines .text) =
        sharedBytes (chunksOf .text twoLines) (chunksOf .text twoLines) ∧
      countCopied (packFingerprint twoLines .text) (denseFingerprint twoLines .text) ≤
        countedSize .text twoLines ∧
      countCopied (packFingerprint twoLines .text) (denseFingerprint twoLines .text) ≤
        countedSize .text twoLines ∧
      (ContentKind.text = .text → twoLines = twoLines →
        countCopied (packFingerprint twoLines .text) (denseFingerprint twoLines .text) =
          countedSize .text twoLines) ∧
      estimateSimilarityFromFingerprints (packFingerprint twoLines .text) twoLines.length
          (denseFingerprint twoLines .text) twoLines.length =
        estimateSimilarityFromFingerprints (buildFingerprint twoLines .text) twoLines.length
          (buildFingerprint twoLines .text) twoLines.length :=
  fingerprints_agree (by unfold Fits; decide) (by unfold Fits; decide) .packed .dense

end Tsgit.Similarity
