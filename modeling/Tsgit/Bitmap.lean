import Tsgit.Ewah

/-!
# Bitmap Containers

The parser of a bitmap file (`src/domain/storage/bitmap.ts`).
-/

namespace Tsgit.Bitmap

open Ewah

def bitmapMagic : ℕ := 0x4249544d
def headerSize : ℕ := 12
def entryFixedSize : ℕ := 6
def fullDagFlag : ℕ := 0x1

structure TypeStreams where
  commits : EwahStream
  trees : EwahStream
  blobs : EwahStream
  tags : EwahStream
  deriving DecidableEq

structure PackBitmap where
  version : ℕ
  optionFlags : ℕ
  entryCount : ℕ
  digestLength : ℕ
  checksum : Bytes
  typeStreams : TypeStreams
  entriesOffset : ℕ
  bytes : Bytes
  deriving DecidableEq

structure BitmapEntryHeader where
  position : ℕ
  xorOffset : ℕ
  flags : ℕ
  stream : EwahStream
  deriving DecidableEq

def hexHalfWord (word : ℕ) : String :=
  let digits := Nat.toDigits 16 word
  String.ofList (List.replicate (4 - digits.length) '0' ++ digits)

def readTypeStreams (bytes : Bytes) (start : ℕ) : Except Thrown TypeStreams := do
  let commits ← readEwahStream bytes start
  let trees ← readEwahStream bytes commits.endOffset
  let blobs ← readEwahStream bytes trees.endOffset
  let tags ← readEwahStream bytes blobs.endOffset
  pure ⟨commits, trees, blobs, tags⟩

def parsePackBitmap (bytes : Bytes) (digestLength : ℕ) : Except Thrown PackBitmap :=
  if bytes.length < headerSize + digestLength then
    invalidPackBitmap .size "truncated: file too short for header"
  else do
    let signature ← getUint32 bytes 0
    if signature ≠ bitmapMagic then
      invalidPackBitmap .signature
        s!"invalid signature: expected 0x4249544d, got 0x{hexWord signature}"
    else
      let version ← getUint16 bytes 4
      if version ≠ 1 then
        invalidPackBitmap .version s!"unsupported version: expected 1, got {version}"
      else
        let optionFlags ← getUint16 bytes 6
        if optionFlags &&& fullDagFlag = 0 then
          invalidPackBitmap .options
            s!"option flags 0x{hexHalfWord optionFlags} lack the mandatory full-DAG bit"
        else
          let entryCount ← getUint32 bytes 8
          let checksum := subarray bytes headerSize (headerSize + digestLength)
          let typeStreams ← readTypeStreams bytes (headerSize + digestLength)
          pure ⟨version, optionFlags, entryCount, digestLength, checksum, typeStreams,
            typeStreams.tags.endOffset, bytes⟩

def readEntryStream (bytes : Bytes) (start entryIndex : ℕ) : Except Thrown EwahStream :=
  match readEwahStream bytes start with
  | .ok stream => .ok stream
  | .error _ =>
    invalidPackBitmap .entry s!"entry {entryIndex} has an invalid embedded stream at offset {start}"

def readEntryHeader (bytes : Bytes) (i : ℕ) (state : ℕ × List BitmapEntryHeader) :
    Except Thrown (ℕ × List BitmapEntryHeader) :=
  let (start, headers) := state
  if start + entryFixedSize > bytes.length then
    invalidPackBitmap .entry s!"entry {i} header extends past end of file at offset {start}"
  else do
    let position ← getUint32 bytes start
    let xorOffset ← getUint8 bytes (start + 4)
    let flags ← getUint8 bytes (start + 5)
    if xorOffset > i then
      invalidPackBitmap .entry
        s!"entry {i} xorOffset {xorOffset} refers to a base that has not been parsed yet"
    else
      let stream ← readEntryStream bytes (start + entryFixedSize) i
      pure (stream.endOffset, headers ++ [⟨position, xorOffset, flags, stream⟩])

def bitmapEntryHeaders (bitmap : PackBitmap) : Except Thrown (List BitmapEntryHeader) := do
  let (_, headers) ← forRange bitmap.entryCount (readEntryHeader bitmap.bytes)
    (bitmap.entriesOffset, [])
  pure headers

/-- The parser and then the walk over the entries. -/
def readPackBitmap (bytes : Bytes) (digestLength : ℕ) :
    Except Thrown (PackBitmap × List BitmapEntryHeader) := do
  let bitmap ← parsePackBitmap bytes digestLength
  let headers ← bitmapEntryHeaders bitmap
  pure (bitmap, headers)

/-! ### The layout -/

/-- A typed refusal of a bitmap. -/
def Refuses (thrown : Thrown) : Prop :=
  ∃ check reason, thrown = .refusal (.invalidPackBitmap check reason)

/-- A stream that begins at `start`, with all of its words in the file. -/
structure StreamAt (bytes : Bytes) (start : ℕ) (stream : EwahStream) : Prop where
  wordsOffset_eq : stream.wordsOffset = start + ewahStreamHeaderSize
  endOffset_eq : stream.endOffset =
    stream.wordsOffset + stream.wordCount * ewahWordSize + ewahPositionWordSize
  endOffset_le : stream.endOffset ≤ bytes.length

def Contiguous (bytes : Bytes) (gap : ℕ) : ℕ → List EwahStream → ℕ → Prop
  | start, [], stop => start = stop
  | start, stream :: rest, stop =>
    StreamAt bytes (start + gap) stream ∧ Contiguous bytes gap stream.endOffset rest stop

def TypeStreams.toList (streams : TypeStreams) : List EwahStream :=
  [streams.commits, streams.trees, streams.blobs, streams.tags]

/-- **The layout of a container**: the type streams behind the header, then the entries. -/
structure LaidOut (bytes : Bytes) (digestLength : ℕ) (bitmap : PackBitmap)
    (headers : List BitmapEntryHeader) : Prop where
  bytes_eq : bitmap.bytes = bytes
  types : Contiguous bytes 0 (headerSize + digestLength) bitmap.typeStreams.toList
    bitmap.entriesOffset
  entries : ∃ stop ≤ bytes.length, Contiguous bytes entryFixedSize bitmap.entriesOffset
    (headers.map (·.stream)) stop
  length_eq : headers.length = bitmap.entryCount
  earlier : ∀ (i : ℕ) (header : BitmapEntryHeader), headers[i]? = some header → header.xorOffset ≤ i

section

variable {bytes : Bytes}

variable {streams : List EwahStream}

variable {stream : EwahStream}

theorem Contiguous.append {gap start middle : ℕ}
    (h : Contiguous bytes gap start streams middle)
    (hstream : StreamAt bytes (middle + gap) stream) :
    Contiguous bytes gap start (streams ++ [stream]) stream.endOffset := by
  induction streams generalizing start with
  | nil =>
    obtain rfl : start = middle := h
    exact ⟨hstream, rfl⟩
  | cons first rest ih => exact ⟨h.1, ih h.2⟩

theorem StreamAt.lt {start : ℕ} (h : StreamAt bytes start stream) :
    start < stream.endOffset := by
  rw [h.endOffset_eq, h.wordsOffset_eq]
  unfold ewahStreamHeaderSize
  omega

variable {gap start stop : ℕ}

theorem Contiguous.le
    (h : Contiguous bytes gap start streams stop) : start ≤ stop := by
  induction streams generalizing start with
  | nil => exact Nat.le_of_eq h
  | cons first rest ih =>
    have hlater := ih h.2
    have hfirst := h.1.lt
    omega

theorem invalidPackBitmap_outcome {α : Type} {post : α → Prop} (check : BitmapCheck)
    (reason : String) : Outcome Refuses post (invalidPackBitmap check reason) :=
  .error ⟨check, reason, rfl⟩

theorem getUint16_outcome {offset : ℕ} (h : offset + 2 ≤ bytes.length) :
    Outcome Refuses (fun _ => True) (getUint16 bytes offset) := by
  unfold getUint16
  rw [if_pos h]
  exact .ok trivial

theorem readEwahStream_outcome (bytes : Bytes) (start : ℕ) :
    Outcome Refuses (StreamAt bytes start) (readEwahStream bytes start) := by
  unfold readEwahStream
  refine .ite (fun _ => invalidPackBitmap_outcome _ _) fun hroom => ?_
  unfold ewahStreamHeaderSize at hroom
  refine (getUint32_outcome (by omega)).bind fun bitSize _ => ?_
  refine (getUint32_outcome (by omega)).bind fun wordCount _ => ?_
  dsimp only
  refine .ite (fun _ => invalidPackBitmap_outcome _ _) fun hfits => .pure ?_
  exact ⟨rfl, rfl, Nat.not_lt.mp hfits⟩

theorem readTypeStreams_outcome (bytes : Bytes) (start : ℕ) :
    Outcome Refuses (fun streams => Contiguous bytes 0 start streams.toList streams.tags.endOffset)
      (readTypeStreams bytes start) := by
  unfold readTypeStreams
  refine (readEwahStream_outcome bytes start).bind fun commits hcommits => ?_
  refine (readEwahStream_outcome bytes _).bind fun trees htrees => ?_
  refine (readEwahStream_outcome bytes _).bind fun blobs hblobs => ?_
  refine (readEwahStream_outcome bytes _).bind fun tags htags => .pure ?_
  exact ⟨hcommits, htrees, hblobs, htags, rfl⟩

theorem parsePackBitmap_outcome (bytes : Bytes) (digestLength : ℕ) :
    Outcome Refuses (fun bitmap => bitmap.bytes = bytes ∧
      Contiguous bytes 0 (headerSize + digestLength) bitmap.typeStreams.toList bitmap.entriesOffset)
      (parsePackBitmap bytes digestLength) := by
  unfold parsePackBitmap
  refine .ite (fun _ => invalidPackBitmap_outcome _ _) fun hlength => ?_
  unfold headerSize at hlength
  refine (getUint32_outcome (by omega)).bind fun signature _ => ?_
  refine .ite (fun _ => invalidPackBitmap_outcome _ _) fun _ => ?_
  refine (getUint16_outcome (by omega)).bind fun version _ => ?_
  refine .ite (fun _ => invalidPackBitmap_outcome _ _) fun _ => ?_
  refine (getUint16_outcome (by omega)).bind fun optionFlags _ => ?_
  refine .ite (fun _ => invalidPackBitmap_outcome _ _) fun _ => ?_
  refine (getUint32_outcome (by omega)).bind fun entryCount _ => ?_
  exact (readTypeStreams_outcome bytes _).bind fun streams hstreams => .pure ⟨rfl, hstreams⟩

theorem readEntryStream_outcome (bytes : Bytes) (start entryIndex : ℕ) :
    Outcome Refuses (StreamAt bytes start) (readEntryStream bytes start entryIndex) := by
  unfold readEntryStream
  have hread := readEwahStream_outcome bytes start
  split
  · next stream hok =>
    rw [hok] at hread
    exact .ok (Outcome.ok_iff.mp hread)
  · exact invalidPackBitmap_outcome _ _

/-- What the loop over the entries has read, before entry `i`. -/
structure EntriesRead (bytes : Bytes) (start i : ℕ) (state : ℕ × List BitmapEntryHeader) :
    Prop where
  contiguous : Contiguous bytes entryFixedSize start (state.2.map (·.stream)) state.1
  length_eq : state.2.length = i
  earlier : ∀ (k : ℕ) (header : BitmapEntryHeader), state.2[k]? = some header → header.xorOffset ≤ k

theorem readEntryHeader_outcome {start i : ℕ} {state : ℕ × List BitmapEntryHeader}
    (h : EntriesRead bytes start i state) :
    Outcome Refuses (EntriesRead bytes start (i + 1)) (readEntryHeader bytes i state) := by
  obtain ⟨offset, headers⟩ := state
  unfold readEntryHeader
  dsimp only
  refine .ite (fun _ => invalidPackBitmap_outcome _ _) fun hroom => ?_
  unfold entryFixedSize at hroom
  refine (getUint32_outcome (by omega)).bind fun position _ => ?_
  refine (getUint8_outcome (by omega)).bind fun xorOffset _ => ?_
  refine (getUint8_outcome (by omega)).bind fun flags _ => ?_
  refine .ite (fun _ => invalidPackBitmap_outcome _ _) fun hearlier => ?_
  refine (readEntryStream_outcome bytes _ i).bind fun stream hstream => .pure ?_
  refine ⟨?_, ?_, fun k header hget => ?_⟩
  · rw [List.map_append, List.map_singleton]
    exact h.contiguous.append hstream
  · rw [List.length_append, List.length_singleton, h.length_eq]
  rcases Nat.lt_or_ge k headers.length with hbefore | hlast
  · rw [List.getElem?_append_left hbefore] at hget
    exact h.earlier k header hget
  obtain rfl : headers.length = i := h.length_eq
  rw [List.getElem?_append_right hlast, List.getElem?_singleton] at hget
  split at hget
  · obtain rfl := Option.some.inj hget
    exact (Nat.not_lt.mp hearlier).trans hlast
  · cases hget

theorem Contiguous.le_length
    (h : Contiguous bytes gap start streams stop) (hstart : start ≤ bytes.length) :
    stop ≤ bytes.length := by
  induction streams generalizing start with
  | nil => exact (show start = stop from h) ▸ hstart
  | cons first rest ih => exact ih h.2 h.1.endOffset_le

theorem bitmapEntryHeaders_outcome (bitmap : PackBitmap) :
    Outcome Refuses (fun headers => ∃ stop,
      EntriesRead bitmap.bytes bitmap.entriesOffset bitmap.entryCount (stop, headers))
      (bitmapEntryHeaders bitmap) := by
  have hstart : EntriesRead bitmap.bytes bitmap.entriesOffset 0 (bitmap.entriesOffset, []) :=
    ⟨rfl, rfl, fun k header hget => by cases hget⟩
  unfold bitmapEntryHeaders
  exact (forRange_outcome _ hstart fun i _ state h => readEntryHeader_outcome h).bind
    fun state hstate => .pure ⟨state.1, hstate⟩

/-- **The parser** refuses, or what it returns is laid out in the file. -/
theorem readPackBitmap_outcome (bytes : Bytes) (digestLength : ℕ) :
    Outcome Refuses (fun read => LaidOut bytes digestLength read.1 read.2)
      (readPackBitmap bytes digestLength) := by
  unfold readPackBitmap
  refine (parsePackBitmap_outcome bytes digestLength).bind fun bitmap hbitmap => ?_
  obtain ⟨hbytes, htypes⟩ := hbitmap
  refine (bitmapEntryHeaders_outcome bitmap).bind fun headers hheaders => .pure ?_
  obtain ⟨stop, hread⟩ := hheaders
  rw [hbytes] at hread
  have hentries : bitmap.entriesOffset ≤ bytes.length := by
    obtain ⟨-, -, -, htags, hend⟩ := htypes
    exact (show bitmap.typeStreams.tags.endOffset = bitmap.entriesOffset from hend) ▸
      htags.endOffset_le
  exact ⟨hbytes, htypes, ⟨stop, hread.contiguous.le_length hentries, hread.contiguous⟩,
    hread.length_eq, hread.earlier⟩

/-! ### What the layout gives -/

/-- The streams of a container, in the order of the file. -/
def streamsOf (bitmap : PackBitmap) (headers : List BitmapEntryHeader) : List EwahStream :=
  bitmap.typeStreams.toList ++ headers.map (·.stream)

/-- A stream begins behind those in front of it. -/
def Behind (a b : EwahStream) : Prop := a.endOffset + ewahStreamHeaderSize ≤ b.wordsOffset

theorem Contiguous.mem
    (h : Contiguous bytes gap start streams stop) (hmem : stream ∈ streams) :
    start + ewahStreamHeaderSize ≤ stream.wordsOffset ∧ stream.endOffset ≤ stop := by
  induction streams generalizing start with
  | nil => cases hmem
  | cons first rest ih =>
    have hbegin := h.1.wordsOffset_eq
    have hlater : first.endOffset ≤ stop := h.2.le
    rcases List.mem_cons.mp hmem with rfl | hrest
    · exact ⟨by omega, hlater⟩
    · obtain ⟨hwords, hend⟩ := ih h.2 hrest
      have hfirst := h.1.lt
      exact ⟨by omega, hend⟩

theorem Contiguous.pairwise
    (h : Contiguous bytes gap start streams stop) : streams.Pairwise Behind := by
  induction streams generalizing start with
  | nil => exact List.Pairwise.nil
  | cons first rest ih =>
    exact List.pairwise_cons.mpr ⟨fun stream hmem => (h.2.mem hmem).1, ih h.2⟩

variable {digestLength : ℕ} {bitmap : PackBitmap} {headers : List BitmapEntryHeader}

theorem LaidOut.pairwise (h : LaidOut bytes digestLength bitmap headers) :
    (streamsOf bitmap headers).Pairwise Behind := by
  obtain ⟨stop, -, hentries⟩ := h.entries
  refine List.pairwise_append.mpr ⟨h.types.pairwise, hentries.pairwise, fun a ha b hb => ?_⟩
  have hend := (h.types.mem ha).2
  have hbegin := (hentries.mem hb).1
  unfold Behind
  omega

theorem LaidOut.inside (h : LaidOut bytes digestLength bitmap headers)
    (hmem : stream ∈ streamsOf bitmap headers) :
    headerSize + digestLength + ewahStreamHeaderSize ≤ stream.wordsOffset ∧
      stream.endOffset ≤ bytes.length := by
  obtain ⟨stop, hstop, hentries⟩ := h.entries
  have htypes := h.types.le
  have hafter := hentries.le
  rcases List.mem_append.mp hmem with htype | hentry
  · obtain ⟨hbegin, hend⟩ := h.types.mem htype
    exact ⟨hbegin, by omega⟩
  · obtain ⟨hbegin, hend⟩ := hentries.mem hentry
    exact ⟨by omega, by omega⟩

def IsBase (headers : List BitmapEntryHeader) (j i : ℕ) : Prop :=
  ∃ header : BitmapEntryHeader, headers[i]? = some header ∧ header.xorOffset ≠ 0 ∧
    j + header.xorOffset = i

theorem IsBase.lt {j i : ℕ} (h : IsBase headers j i) : j < i := by
  obtain ⟨header, -, hne, heq⟩ := h
  omega

/-- Chains of differences end. -/
theorem wellFounded_isBase (headers : List BitmapEntryHeader) : WellFounded (IsBase headers) :=
  Subrelation.wf (fun h => h.lt) wellFounded_lt

end

/-- **The parser of a bitmap** refuses with its typed error, or returns a container whose streams
are folded and walked to their ends inside the file. -/
theorem bitmap_laidOut (bytes : Bytes) (digestLength : ℕ) :
    (∃ check reason, readPackBitmap bytes digestLength =
      .error (.refusal (.invalidPackBitmap check reason))) ∨
    ∃ bitmap headers, readPackBitmap bytes digestLength = .ok (bitmap, headers) ∧
      LaidOut bytes digestLength bitmap headers ∧
      (streamsOf bitmap headers).Pairwise Behind ∧
      (∀ stream ∈ streamsOf bitmap headers,
        headerSize + digestLength + ewahStreamHeaderSize ≤ stream.wordsOffset ∧
        stream.endOffset ≤ bytes.length ∧
        (∀ into op, ∃ result,
          Run.Yields (fun fuel => foldEwahStream fuel bytes stream into op) result) ∧
        ∃ max, Run.Yields (fun fuel => maxSetBitPosition fuel bytes stream) max) ∧
      WellFounded (IsBase headers) := by
  rcases (readPackBitmap_outcome bytes digestLength).elim with
    ⟨thrown, hrun, check, reason, rfl⟩ | ⟨⟨bitmap, headers⟩, hrun, hlaid⟩
  · exact .inl ⟨check, reason, hrun⟩
  · refine .inr ⟨bitmap, headers, hrun, hlaid, hlaid.pairwise, fun stream hmem => ?_,
      wellFounded_isBase headers⟩
    obtain ⟨hbegin, hend⟩ := hlaid.inside hmem
    exact ⟨hbegin, hend, fun into op => ⟨_, foldEwahStream_yields bytes stream into op⟩,
      maxSetBitPosition_ends bytes stream⟩

end Tsgit.Bitmap
