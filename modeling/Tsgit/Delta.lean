import Tsgit.Error
import Tsgit.TypedArray

/-!
# The Delta Decoder

The read side of the delta grammar: a header of two variable-length integers (the
lengths of the base and of the target) followed by instructions that either copy a
window of the base or insert literal bytes.
-/

namespace Tsgit.Delta

/-- One instruction of a delta: copy `size` bytes of the base from `offset`, or insert
literal bytes. -/
inductive DeltaInstruction where
  | copy (offset size : ℕ)
  | insert (data : Bytes)
  deriving DecidableEq

/-- A delta read into its header and instructions. -/
structure DeltaParsed where
  sourceLength : ℕ
  targetLength : ℕ
  instructions : List DeltaInstruction
  deriving DecidableEq

/-- A variable-length integer spans at most this many bytes. -/
def maxVarintBytes : ℕ := 5

/-- The value carried by `byte` at `shift`, truncated to 32 bits as `<<` truncates. -/
def varintGroup (byte : UInt8) (shift : ℕ) : ℕ :=
  (byte.toNat &&& 0x7f) <<< shift % 2 ^ 32

def readVarintFrom (bytes : Bytes) : ℕ → ℕ → ℕ → ℕ → Except TsgitError (ℕ × ℕ)
  | left, value, shift, pos =>
    match bytes[pos]? with
    | none => .error (.invalidDelta "truncated variable-length integer")
    | some byte =>
      let value := value ||| varintGroup byte shift
      if byte.toNat &&& 0x80 = 0 then .ok (value, pos + 1)
      else
        match left with
        | 0 => .error (.invalidDelta "variable-length integer too long")
        | left + 1 => readVarintFrom bytes left value (shift + 7) (pos + 1)

def readVariableLengthInt (bytes : Bytes) (offset : ℕ) : Except TsgitError (ℕ × ℕ) :=
  readVarintFrom bytes (maxVarintBytes - 1) 0 0 offset

/-- Whether `cmd` has `bit` set. -/
def hasBit (cmd bit : ℕ) : Bool := cmd &&& bit != 0

def countCopyFieldBytes (cmd : ℕ) : ℕ :=
  ([0x01, 0x02, 0x04, 0x08, 0x10, 0x20, 0x40].filter (hasBit cmd)).length

def copyFieldByte (bytes : Bytes) (cmd bit shift : ℕ) (field : ℕ × ℕ) : ℕ × ℕ :=
  if hasBit cmd bit then
    (field.1 ||| ((bytes[field.2]?).getD 0).toNat <<< shift, field.2 + 1)
  else field

def decodeCopyFields (bytes : Bytes) (pos cmd : ℕ) : Except TsgitError (ℕ × ℕ × ℕ) :=
  let needed := countCopyFieldBytes cmd
  if pos + needed > bytes.length then
    .error (.invalidDelta s!"COPY instruction truncated: needs {needed} bytes at position {pos}")
  else
    let offset := copyFieldByte bytes cmd 0x08 24 <| copyFieldByte bytes cmd 0x04 16 <|
      copyFieldByte bytes cmd 0x02 8 <| copyFieldByte bytes cmd 0x01 0 (0, pos)
    let size := copyFieldByte bytes cmd 0x40 16 <| copyFieldByte bytes cmd 0x20 8 <|
      copyFieldByte bytes cmd 0x10 0 (0, offset.2)
    .ok (offset.1, if size.1 = 0 then 0x10000 else size.1, size.2)

def validateCopyBounds (offset size baseLen resultPos targetLen : ℕ) :
    Except TsgitError Unit :=
  if offset + size > baseLen then
    .error (.invalidDelta
      s!"COPY out of bounds: offset={offset} size={size} exceeds base length {baseLen}")
  else if resultPos + size > targetLen then
    .error (.invalidDelta
      s!"COPY overflows target: position={resultPos} size={size} exceeds target length {targetLen}")
  else .ok ()

/-- The largest target the decoder allocates. -/
def maxTargetLength : ℕ := 2 * 1024 * 1024 * 1024

def validateDeltaHeader (base : Bytes) (sourceLength targetLength : ℕ) :
    Except TsgitError Unit :=
  if base.length ≠ sourceLength then
    .error (.invalidDelta
      s!"source length mismatch: expected {sourceLength}, got {base.length}")
  else if targetLength > maxTargetLength then
    .error (.invalidDelta s!"target length {targetLength} exceeds maximum allowed size")
  else .ok ()

def applyInsert (delta : Bytes) (pos cmd : ℕ) (result : Bytes) (resultPos targetLength : ℕ) :
    Except TsgitError (Bytes × ℕ × ℕ) :=
  if cmd = 0 then .error (.invalidDelta "INSERT with N=0 is reserved")
  else if pos + cmd > delta.length then
    .error (.invalidDelta s!"INSERT data truncated: needs {cmd} bytes at position {pos}")
  else if resultPos + cmd > targetLength then
    .error (.invalidDelta
      s!"INSERT overflows target: position={resultPos} size={cmd} exceeds target length {targetLength}")
  else
    .ok (overwrite result (subarray delta pos (pos + cmd)) resultPos, pos + cmd, resultPos + cmd)

def readDeltaTargetSize (delta : Bytes) : Except TsgitError ℕ := do
  let (_, o1) ← readVariableLengthInt delta 0
  let (targetLength, _) ← readVariableLengthInt delta o1
  pure targetLength

/-- One turn of `applyDelta`'s loop: the command byte at `pos` and what it needs. -/
def applyStep (base delta : Bytes) (targetLength : ℕ) (cmd : UInt8) (pos : ℕ)
    (result : Bytes) (resultPos : ℕ) : Except TsgitError (Bytes × ℕ × ℕ) :=
  if hasBit cmd.toNat 0x80 then do
    let (offset, size, nextPos) ← decodeCopyFields delta pos cmd.toNat
    validateCopyBounds offset size base.length resultPos targetLength
    .ok (overwrite result (subarray base offset (offset + size)) resultPos, nextPos,
      resultPos + size)
  else applyInsert delta pos cmd.toNat result resultPos targetLength

/-! ### The loops advance -/

theorem copyFieldByte_snd_le (bytes : Bytes) (cmd bit shift : ℕ) (field : ℕ × ℕ) :
    field.2 ≤ (copyFieldByte bytes cmd bit shift field).2 := by
  unfold copyFieldByte
  split <;> simp

theorem le_of_decodeCopyFields {bytes : Bytes} {pos cmd offset size nextPos : ℕ}
    (h : decodeCopyFields bytes pos cmd = .ok (offset, size, nextPos)) : pos ≤ nextPos := by
  simp only [decodeCopyFields] at h
  split at h
  · cases h
  simp only [Except.ok.injEq, Prod.mk.injEq] at h
  obtain ⟨-, -, rfl⟩ := h
  calc pos ≤ _ := copyFieldByte_snd_le bytes cmd 0x01 0 (0, pos)
    _ ≤ _ := copyFieldByte_snd_le bytes cmd 0x02 8 _
    _ ≤ _ := copyFieldByte_snd_le bytes cmd 0x04 16 _
    _ ≤ _ := copyFieldByte_snd_le bytes cmd 0x08 24 _
    _ ≤ _ := copyFieldByte_snd_le bytes cmd 0x10 0 (0, _)
    _ ≤ _ := copyFieldByte_snd_le bytes cmd 0x20 8 _
    _ ≤ _ := copyFieldByte_snd_le bytes cmd 0x40 16 _

theorem le_of_applyStep {base delta : Bytes} {targetLength pos resultPos : ℕ} {cmd : UInt8}
    {result result' : Bytes} {nextPos nextResultPos : ℕ}
    (h : applyStep base delta targetLength cmd pos result resultPos =
      .ok (result', nextPos, nextResultPos)) : pos ≤ nextPos := by
  unfold applyStep at h
  split at h
  · cases hf : decodeCopyFields delta pos cmd.toNat with
    | error e => rw [hf] at h; cases h
    | ok f =>
      obtain ⟨offset, size, next⟩ := f
      rw [hf] at h
      cases hv : validateCopyBounds offset size base.length resultPos targetLength with
      | error e => simp only [bind, Except.bind, hv] at h; cases h
      | ok u =>
        simp only [bind, Except.bind, hv, Except.ok.injEq, Prod.mk.injEq] at h
        obtain ⟨-, rfl, -⟩ := h
        exact le_of_decodeCopyFields hf
  · unfold applyInsert at h
    split_ifs at h
    simp only [Except.ok.injEq, Prod.mk.injEq] at h
    omega

def applyLoop (base delta : Bytes) (targetLength pos : ℕ) (result : Bytes) (resultPos : ℕ) :
    Except TsgitError (Bytes × ℕ) :=
  if hpos : pos < delta.length then
    match hstep : applyStep base delta targetLength delta[pos] (pos + 1) result resultPos with
    | .error e => .error e
    | .ok (result, nextPos, resultPos) =>
      applyLoop base delta targetLength nextPos result resultPos
  else .ok (result, resultPos)
termination_by delta.length - pos
decreasing_by
  have := le_of_applyStep hstep
  omega

def applyDelta (base delta : Bytes) : Except TsgitError Bytes := do
  let (sourceLength, o1) ← readVariableLengthInt delta 0
  let (targetLength, o2) ← readVariableLengthInt delta o1
  validateDeltaHeader base sourceLength targetLength
  let (result, resultPos) ←
    applyLoop base delta targetLength o2 (List.replicate targetLength 0) 0
  if resultPos ≠ targetLength then
    .error (.invalidDelta
      s!"underfill: produced {resultPos} bytes but target length is {targetLength}")
  else .ok result

def parseInstruction (delta : Bytes) (cmd : UInt8) (pos : ℕ) :
    Except TsgitError (DeltaInstruction × ℕ) :=
  if hasBit cmd.toNat 0x80 then do
    let (offset, size, nextPos) ← decodeCopyFields delta pos cmd.toNat
    .ok (.copy offset size, nextPos)
  else if cmd.toNat = 0 then .error (.invalidDelta "INSERT with N=0 is reserved")
  else if pos + cmd.toNat > delta.length then
    .error (.invalidDelta
      s!"INSERT data truncated: needs {cmd.toNat} bytes at position {pos}, only {delta.length - pos} available")
  else .ok (.insert (subarray delta pos (pos + cmd.toNat)), pos + cmd.toNat)

theorem le_of_parseInstruction {delta : Bytes} {cmd : UInt8} {pos nextPos : ℕ}
    {instruction : DeltaInstruction}
    (h : parseInstruction delta cmd pos = .ok (instruction, nextPos)) : pos ≤ nextPos := by
  unfold parseInstruction at h
  split at h
  · cases hf : decodeCopyFields delta pos cmd.toNat with
    | error e => rw [hf] at h; cases h
    | ok f =>
      obtain ⟨offset, size, next⟩ := f
      rw [hf] at h
      simp only [bind, Except.bind, Except.ok.injEq, Prod.mk.injEq] at h
      obtain ⟨-, rfl⟩ := h
      exact le_of_decodeCopyFields hf
  · split_ifs at h
    simp only [Except.ok.injEq, Prod.mk.injEq] at h
    omega

def parseLoop (delta : Bytes) (pos : ℕ) : Except TsgitError (List DeltaInstruction) :=
  if hpos : pos < delta.length then
    match hstep : parseInstruction delta delta[pos] (pos + 1) with
    | .error e => .error e
    | .ok (instruction, nextPos) =>
      match parseLoop delta nextPos with
      | .error e => .error e
      | .ok instructions => .ok (instruction :: instructions)
  else .ok []
termination_by delta.length - pos
decreasing_by
  have := le_of_parseInstruction hstep
  omega

def parseDelta (delta : Bytes) : Except TsgitError DeltaParsed := do
  let (sourceLength, o1) ← readVariableLengthInt delta 0
  let (targetLength, o2) ← readVariableLengthInt delta o1
  let instructions ← parseLoop delta o2
  pure { sourceLength, targetLength, instructions }

end Tsgit.Delta
