import Tsgit.Delta

/-!
# The Delta Encoder

`createDeltaIndex` hashes the base block by block, and
`encodeDeltaFromIndex` scans a target against such an index: a candidate block is
extended forwards and backwards, the longest match becomes a COPY, and what no match
covers becomes INSERT literals.

Every part goes through `emit`, which gives up once the total passes the caller's size limit.
-/

namespace Tsgit.Delta

/-- Block size of the index, and the least length that makes a match worth a COPY. -/
def deltaBlockBytes : ℕ := 16

/-- INSERT's command byte is its length, so the high bit bounds it. -/
def maxInsertBytes : ℕ := 127

/-- A COPY size spans at most three bytes. -/
def maxCopyBytes : ℕ := 0xffffff

/-- Candidates looked at in one bucket. -/
def maxCandidatesPerBucket : ℕ := 6

/-- The multiplier of the block hash. -/
def hashMultiplier : UInt32 := 0x01000193

/-- The base's block table. `none` is the source's `END_OF_CHAIN`. -/
structure DeltaIndex where
  base : Bytes
  /-- bucket to its most recently indexed block -/
  heads : List (Option ℕ)
  /-- block to the older block of the same bucket -/
  next : List (Option ℕ)
  mask : ℕ
  deriving DecidableEq

/-! ### Instruction bytes -/

def encodeVarIntGroups : ℕ → ℕ → Except TsgitError Bytes
  | 0, _ => .error (.invalidDelta "variable-length integer too long")
  | left + 1, remaining =>
    if remaining / 0x80 = 0 then .ok [UInt8.ofNat (remaining % 0x80)]
    else do
      let bytes ← encodeVarIntGroups left (remaining / 0x80)
      pure (UInt8.ofNat (remaining % 0x80 ||| 0x80) :: bytes)

/-- A variable-length integer, low group first. -/
def encodeDeltaVarInt (value : ℕ) : Except TsgitError Bytes :=
  encodeVarIntGroups maxVarintBytes value

/-- The command bits of a COPY field and its non-zero bytes. -/
structure CopyField where
  cmdBits : ℕ
  bytes : Bytes
  deriving DecidableEq

/-- One byte of a COPY field: a zero byte is left out and its command bit stays clear. -/
def addCopyByte (value firstBit : ℕ) (field : CopyField) (shift : ℕ) : CopyField :=
  let byte := value >>> shift &&& 0xff
  if byte ≠ 0 then
    { cmdBits := field.cmdBits ||| firstBit <<< (shift / 8)
      bytes := field.bytes ++ [UInt8.ofNat byte] }
  else field

def encodeCopyOffset (offset : ℕ) : CopyField :=
  [0, 8, 16, 24].foldl (addCopyByte offset 0x01) ⟨0, []⟩

def encodeCopySize (size : ℕ) : CopyField :=
  [0, 8, 16].foldl (addCopyByte size 0x10) ⟨0, []⟩

def encodeCopy (offset size : ℕ) : Bytes :=
  let offsetField := encodeCopyOffset offset
  let sizeField := encodeCopySize size
  UInt8.ofNat (0x80 ||| offsetField.cmdBits ||| sizeField.cmdBits) ::
    (offsetField.bytes ++ sizeField.bytes)

def encodeInsert (data : Bytes) : Bytes := UInt8.ofNat data.length :: data

/-! ### The validated codec -/

def assertValidCopy (offset size : ℕ) : Except TsgitError Unit :=
  if size = 0 then .error (.invalidDelta "COPY size must be non-zero")
  else if size > maxCopyBytes then
    .error (.invalidDelta s!"COPY size {size} exceeds {maxCopyBytes}")
  else if offset > 0xffffffff then
    .error (.invalidDelta s!"COPY offset {offset} out of range")
  else .ok ()

def assertValidInsert (data : Bytes) : Except TsgitError Unit :=
  if data.length = 0 then .error (.invalidDelta "INSERT with N=0 is reserved")
  else if data.length > maxInsertBytes then
    .error (.invalidDelta s!"INSERT length {data.length} exceeds {maxInsertBytes}")
  else .ok ()

def encodeDeltaInstruction : DeltaInstruction → Except TsgitError Bytes
  | .copy offset size => do
    assertValidCopy offset size
    pure (encodeCopy offset size)
  | .insert data => do
    assertValidInsert data
    pure (encodeInsert data)

def writeParts : List Bytes → Bytes → ℕ → Bytes
  | [], result, _ => result
  | chunk :: chunks, result, offset =>
    writeParts chunks (overwrite result chunk offset) (offset + chunk.length)

def assembleParts (chunks : List Bytes) (length : ℕ) : Bytes :=
  writeParts chunks (List.replicate length 0) 0

def serializeDelta (sourceLength targetLength : ℕ) (instructions : List DeltaInstruction) :
    Except TsgitError Bytes := do
  let source ← encodeDeltaVarInt sourceLength
  let target ← encodeDeltaVarInt targetLength
  let encoded ← instructions.mapM encodeDeltaInstruction
  let chunks := source :: target :: encoded
  pure (assembleParts chunks (chunks.map List.length).sum)

/-! ### The block table of the base -/

/-- The loop of `nextPowerOfTwo`; `fuel` bounds the doublings. -/
def doubleUntil (value : ℕ) : ℕ → ℕ → ℕ
  | 0, power => power
  | fuel + 1, power => if power < value then doubleUntil value fuel (power * 2) else power

def nextPowerOfTwo (value : ℕ) : ℕ := doubleUntil value value 1

def hashBlock (bytes : Bytes) (offset : ℕ) : ℕ :=
  ((List.range deltaBlockBytes).foldl
    (fun hash i => (hash ^^^ ((bytes[offset + i]?).getD 0).toUInt32) * hashMultiplier)
    (0 : UInt32)).toNat

def indexBlock (base : Bytes) (mask : ℕ) (tables : List (Option ℕ) × List (Option ℕ))
    (block : ℕ) : List (Option ℕ) × List (Option ℕ) :=
  let bucket := hashBlock base (block * deltaBlockBytes) &&& mask
  (tables.1.set bucket (some block), tables.2.set block ((tables.1[bucket]?).getD none))

def createDeltaIndex (base : Bytes) : DeltaIndex :=
  let blockCount := base.length / deltaBlockBytes
  let mask := nextPowerOfTwo (max blockCount 1) - 1
  let tables := (List.range blockCount).foldl (indexBlock base mask)
    (List.replicate (mask + 1) none, List.replicate blockCount none)
  { base, heads := tables.1, next := tables.2, mask }

/-! ### Matching -/

/-- A window of the target that equals a window of the base. -/
structure Match where
  baseOffset : ℕ
  targetStart : ℕ
  length : ℕ
  deriving DecidableEq

def countForward (base target : Bytes) : ℕ → ℕ → ℕ → ℕ
  | 0, _, _ => 0
  | cap + 1, baseOffset, targetPos =>
    if base[baseOffset]? = target[targetPos]? then
      countForward base target cap (baseOffset + 1) (targetPos + 1) + 1
    else 0

def matchForward (base target : Bytes) (baseOffset targetPos : ℕ) : ℕ :=
  countForward base target
    (min maxCopyBytes (min (base.length - baseOffset) (target.length - targetPos)))
    baseOffset targetPos

def matchBackward (base target : Bytes) : ℕ → ℕ → ℕ → ℕ
  | 0, _, _ => 0
  | cap + 1, baseOffset, targetPos =>
    if base[baseOffset - 1]? = target[targetPos - 1]? then
      matchBackward base target cap (baseOffset - 1) (targetPos - 1) + 1
    else 0

/-- A candidate extended both ways; backwards it only reclaims pending literals. -/
def evaluateCandidate (index : DeltaIndex) (target : Bytes) (blockOffset pos literalStart : ℕ) :
    Match :=
  let forward := matchForward index.base target blockOffset pos
  let backwardCap := min blockOffset (min (pos - literalStart) (maxCopyBytes - forward))
  let backward := matchBackward index.base target backwardCap blockOffset pos
  { baseOffset := blockOffset - backward
    targetStart := pos - backward
    length := forward + backward }

def isBetterMatch (candidate : Match) : Option Match → Bool
  | none => true
  | some best =>
    if candidate.length ≠ best.length then decide (candidate.length > best.length)
    else decide (candidate.baseOffset < best.baseOffset)

def walkChain (index : DeltaIndex) (target : Bytes) (pos literalStart : ℕ) :
    ℕ → Option ℕ → Option Match → Option Match
  | 0, _, best => best
  | _ + 1, none, best => best
  | left + 1, some block, best =>
    let candidate := evaluateCandidate index target (block * deltaBlockBytes) pos literalStart
    walkChain index target pos literalStart left ((index.next[block]?).getD none)
      (if isBetterMatch candidate best then some candidate else best)

def findBestMatch (index : DeltaIndex) (target : Bytes) (pos literalStart : ℕ) : Option Match :=
  let bucket := hashBlock target pos &&& index.mask
  walkChain index target pos literalStart maxCandidatesPerBucket
    ((index.heads[bucket]?).getD none) none

def acceptedMatch (index : DeltaIndex) (target : Bytes) (pos literalStart : ℕ) : Option Match :=
  (if target.length - pos ≥ deltaBlockBytes then findBestMatch index target pos literalStart
    else none).filter fun found => decide (found.length ≥ deltaBlockBytes)

/-! ### Emitting under a size limit -/

structure Emitter where
  parts : List Bytes
  maxSize : Option ℤ
  emitted : ℕ
  deriving DecidableEq

/-- Whether `size` bytes are more than the limit allows. -/
def breaches (maxSize : Option ℤ) (size : ℕ) : Bool :=
  maxSize.any fun limit => decide ((size : ℤ) > limit)

/-- Appends a part, or `none` when the running total passes the limit. -/
def emit (state : Emitter) (bytes : Bytes) : Option Emitter :=
  if breaches state.maxSize (state.emitted + bytes.length) then none
  else some { state with parts := state.parts ++ [bytes], emitted := state.emitted + bytes.length }

def flushPendingLiteral (state : Emitter) (target : Bytes) (start stop : ℕ) : Option Emitter :=
  if start = stop then some state else emit state (encodeInsert (subarray target start stop))

structure ScanCursor where
  pos : ℕ
  literalStart : ℕ
  deriving DecidableEq

def emitMatch (state : Emitter) (target : Bytes) (literalStart : ℕ) (found : Match) :
    Option (Emitter × ScanCursor) := do
  let state ← flushPendingLiteral state target literalStart found.targetStart
  let state ← emit state (encodeCopy found.baseOffset found.length)
  let pos := found.targetStart + found.length
  pure (state, { pos, literalStart := pos })

def emitHeader (state : Emitter) (baseLength targetLength : ℕ) :
    Except TsgitError (Option Emitter) := do
  let base ← encodeDeltaVarInt baseLength
  match emit state base with
  | none => pure none
  | some state => do
    let target ← encodeDeltaVarInt targetLength
    pure (emit state target)

/-! ### What a match covers -/

theorem countForward_le (base target : Bytes) (cap baseOffset targetPos : ℕ) :
    countForward base target cap baseOffset targetPos ≤ cap := by
  induction cap generalizing baseOffset targetPos with
  | zero => exact Nat.le_refl 0
  | succ cap ih =>
    simp only [countForward]
    split
    · exact Nat.succ_le_succ (ih _ _)
    · exact Nat.zero_le _

theorem getElem?_eq_of_lt_countForward {base target : Bytes} {cap baseOffset targetPos i : ℕ}
    (hi : i < countForward base target cap baseOffset targetPos) :
    base[baseOffset + i]? = target[targetPos + i]? := by
  induction cap generalizing baseOffset targetPos i with
  | zero => exact absurd hi (Nat.not_lt_zero i)
  | succ cap ih =>
    simp only [countForward] at hi
    split at hi
    · next heq =>
      cases i with
      | zero => exact heq
      | succ i =>
        have := ih (Nat.lt_of_succ_lt_succ hi)
        rwa [Nat.add_assoc, Nat.add_assoc, Nat.add_comm 1 i] at this
    · exact absurd hi (Nat.not_lt_zero i)

theorem matchBackward_le (base target : Bytes) (cap baseOffset targetPos : ℕ) :
    matchBackward base target cap baseOffset targetPos ≤ cap := by
  induction cap generalizing baseOffset targetPos with
  | zero => exact Nat.le_refl 0
  | succ cap ih =>
    simp only [matchBackward]
    split
    · exact Nat.succ_le_succ (ih _ _)
    · exact Nat.zero_le _

theorem getElem?_eq_of_lt_matchBackward {base target : Bytes} {cap baseOffset targetPos i : ℕ}
    (hi : i < matchBackward base target cap baseOffset targetPos) :
    base[baseOffset - (i + 1)]? = target[targetPos - (i + 1)]? := by
  induction cap generalizing baseOffset targetPos i with
  | zero => exact absurd hi (Nat.not_lt_zero i)
  | succ cap ih =>
    simp only [matchBackward] at hi
    split at hi
    · next heq =>
      cases i with
      | zero => exact heq
      | succ i =>
        have := ih (Nat.lt_of_succ_lt_succ hi)
        rwa [Nat.sub_sub, Nat.sub_sub, Nat.add_comm 1 (i + 1)] at this
    · exact absurd hi (Nat.not_lt_zero i)

/-- What a match found at `pos` promises: its target window reaches back to `literalStart` at most,
ends at `pos` or later and lies inside the target, and the base holds the same bytes. -/
structure Match.Valid (base target : Bytes) (pos literalStart : ℕ) (found : Match) : Prop where
  literalStart_le : literalStart ≤ found.targetStart
  targetStart_le : found.targetStart ≤ pos
  pos_le : pos ≤ found.targetStart + found.length
  target_le : found.targetStart + found.length ≤ target.length
  length_le : found.length ≤ maxCopyBytes
  getElem?_eq : ∀ i < found.length, base[found.baseOffset + i]? = target[found.targetStart + i]?

variable {literalStart : ℕ}

variable {target : Bytes}

theorem evaluateCandidate_valid (index : DeltaIndex) {pos : ℕ}
    (blockOffset : ℕ) (hpos : pos < target.length) (hliteral : literalStart ≤ pos) :
    (evaluateCandidate index target blockOffset pos literalStart).Valid
      index.base target pos literalStart := by
  set forward := matchForward index.base target blockOffset pos with hforward
  set cap := min blockOffset (min (pos - literalStart) (maxCopyBytes - forward)) with hcap
  set backward := matchBackward index.base target cap blockOffset pos with hbackward
  have hf : forward ≤ min maxCopyBytes
      (min (index.base.length - blockOffset) (target.length - pos)) :=
    countForward_le _ _ _ _ _
  have hb : backward ≤ cap := matchBackward_le _ _ _ _ _
  refine ⟨?_, ?_, ?_, ?_, ?_, ?_⟩ <;>
    simp only [evaluateCandidate, ← hforward, ← hcap, ← hbackward]
  · omega
  · omega
  · omega
  · omega
  · omega
  · intro i hi
    -- the window is the backward extension followed by the forward one
    rcases Nat.lt_or_ge i backward with hlt | hge
    · have := getElem?_eq_of_lt_matchBackward
        (show backward - 1 - i < backward by omega)
      have hidx : backward - 1 - i + 1 = backward - i := by omega
      rw [hidx] at this
      rw [show blockOffset - backward + i = blockOffset - (backward - i) by omega,
        show pos - backward + i = pos - (backward - i) by omega]
      exact this
    · have := getElem?_eq_of_lt_countForward
        (show i - backward < forward by omega)
      rw [show blockOffset - backward + i = blockOffset + (i - backward) by omega,
        show pos - backward + i = pos + (i - backward) by omega]
      exact this

variable {found : Match}

theorem walkChain_valid {index : DeltaIndex} {pos : ℕ}
    (hpos : pos < target.length) (hliteral : literalStart ≤ pos) {left : ℕ}
    {block : Option ℕ} {best : Option Match}
    (hbest : ∀ m, best = some m → m.Valid index.base target pos literalStart)
    (h : walkChain index target pos literalStart left block best = some found) :
    found.Valid index.base target pos literalStart := by
  induction left generalizing block best with
  | zero => exact hbest _ h
  | succ left ih =>
    cases block with
    | none => exact hbest _ h
    | some block =>
      refine ih ?_ h
      intro m hm
      split at hm
      · cases hm
        exact evaluateCandidate_valid index _ hpos hliteral
      · exact hbest m hm

theorem Match.Valid.base_le {base target : Bytes} {pos : ℕ}
    (h : found.Valid base target pos literalStart) (hlen : 0 < found.length) :
    found.baseOffset + found.length ≤ base.length := by
  have htarget : found.targetStart + (found.length - 1) < target.length := by
    have := h.target_le
    omega
  have heq := h.getElem?_eq (found.length - 1) (by omega)
  rw [List.getElem?_eq_getElem htarget] at heq
  have := (List.getElem?_eq_some_iff.mp heq).1
  omega

theorem acceptedMatch_valid {index : DeltaIndex} {pos : ℕ} (hpos : pos < target.length) (hliteral : literalStart ≤ pos)
    (h : acceptedMatch index target pos literalStart = some found) :
    found.Valid index.base target pos literalStart ∧ deltaBlockBytes ≤ found.length := by
  rw [acceptedMatch, Option.filter_eq_some_iff] at h
  obtain ⟨hfound, hlen⟩ := h
  refine ⟨?_, of_decide_eq_true hlen⟩
  split at hfound
  · exact walkChain_valid hpos hliteral (by simp) hfound
  · cases hfound

theorem emitMatch_cursor {state state' : Emitter} {cursor : ScanCursor}
    (h : emitMatch state target literalStart found = some (state', cursor)) :
    cursor = ⟨found.targetStart + found.length, found.targetStart + found.length⟩ := by
  simp only [emitMatch, bind, Option.bind_eq_some_iff, pure, Option.some.injEq, Prod.mk.injEq] at h
  obtain ⟨_, -, _, -, -, rfl⟩ := h
  rfl

/-! ### The scan -/

def scanTarget (index : DeltaIndex) (target : Bytes) (state : Emitter)
    (pos literalStart : ℕ) (hliteral : literalStart ≤ pos) : Option (Emitter × ℕ) :=
  if hpos : pos < target.length then
    match hmatch : acceptedMatch index target pos literalStart with
    | some found =>
      match hemit : emitMatch state target literalStart found with
      | none => none
      | some (state, cursor) =>
        scanTarget index target state cursor.pos cursor.literalStart
          (Nat.le_of_eq (by rw [emitMatch_cursor hemit]))
    | none =>
      if pos + 1 - literalStart < maxInsertBytes then
        scanTarget index target state (pos + 1) literalStart (Nat.le_succ_of_le hliteral)
      else
        match emit state (encodeInsert (subarray target literalStart (pos + 1))) with
        | none => none
        | some state => scanTarget index target state (pos + 1) (pos + 1) (Nat.le_refl _)
  else some (state, literalStart)
termination_by (target.length - pos, pos - literalStart)
decreasing_by
  · obtain ⟨hvalid, hlen⟩ := acceptedMatch_valid hpos hliteral hmatch
    have h1 := hvalid.literalStart_le
    have h3 := hvalid.pos_le
    simp only [emitMatch_cursor hemit, deltaBlockBytes] at hlen ⊢
    rw [Prod.lex_def]
    dsimp only
    omega
  · exact Prod.Lex.left _ _ (by omega)
  · exact Prod.Lex.left _ _ (by omega)

def encodeDeltaFromIndex (index : DeltaIndex) (target : Bytes) (maxSize : Option ℤ) :
    Except TsgitError (Option Bytes) := do
  let header ← emitHeader { parts := [], maxSize, emitted := 0 } index.base.length target.length
  pure (do
    let state ← header
    let (state, literalStart) ← scanTarget index target state 0 0 (Nat.le_refl 0)
    let state ← flushPendingLiteral state target literalStart target.length
    pure (assembleParts state.parts state.emitted))

/-- The delta of `target` against `base`, or `none` past the size limit. -/
def encodeDelta (base target : Bytes) (maxSize : Option ℤ) : Except TsgitError (Option Bytes) :=
  encodeDeltaFromIndex (createDeltaIndex base) target maxSize

end Tsgit.Delta
