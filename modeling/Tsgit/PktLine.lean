import Tsgit.DataView
import Tsgit.Generator
import Tsgit.TextDecoder

/-!
# Packet Lines

`src/domain/protocol/pkt-line.ts`: the frames that a service exchange is made of. A stream
is encoded at once and decoded chunk by chunk.
-/

namespace Tsgit.Pkt

inductive PktLine
  | data (payload : Bytes)
  | flush
  | delim
  | responseEnd
  deriving DecidableEq

def maxPktLinePayload : ℕ := 65516
def pktLengthBytes : ℕ := 4
def maxPktLineFrame : ℕ := maxPktLinePayload + pktLengthBytes

def flushPkt : Bytes := encode ['0', '0', '0', '0']

/-! ### The encoder -/

def lengthPrefix (length : ℕ) : Bytes :=
  let hex := Nat.toDigits 16 (length + 0x10000)
  encode (hex.drop (hex.length - 4))

def assertPayloadFits (payload : Bytes) : Except Thrown Unit :=
  if payload.length > maxPktLinePayload then
    .error (.outOfRange
      s!"pkt-line: payload too large ({payload.length} > {maxPktLinePayload})")
  else .ok ()

/-- Writes one frame at the offset, and moves the offset behind it. -/
def writeFrame (written : Bytes × ℕ) (payload : Bytes) : Except Thrown (Bytes × ℕ) := do
  let out ← setBytes written.1 (lengthPrefix (payload.length + pktLengthBytes)) written.2
  let off := written.2 + pktLengthBytes
  let out ← setBytes out payload off
  pure (out, off + payload.length)

def concatPktLines (payloads : List Bytes) (trailer : Bytes) : Except Thrown Bytes := do
  let total ← payloads.foldlM (fun total payload => do
    assertPayloadFits payload
    pure (total + (payload.length + pktLengthBytes))) trailer.length
  let (out, off) ← payloads.foldlM writeFrame (List.replicate total 0, 0)
  setBytes out trailer off

def encodePktStream (payloads : List Bytes) : Except Thrown Bytes :=
  concatPktLines payloads flushPkt

/-! ### The decoder -/

/-- The value of a digit of `[0-9a-f]` in either case. -/
def hexValue (digit : Char) : Option ℕ :=
  if 'A' ≤ digit ∧ digit ≤ 'F' then some (digit.toNat - 55) else parseHexDigit digit

def isHexLength (header : Text) : Bool :=
  decide (header.length = 4) && header.all fun digit => (hexValue digit).isSome

def parseHexLength (header : Text) : ℕ :=
  header.foldl (fun value digit => value * 16 + (hexValue digit).getD 0) 0

def parseLength (view : Bytes) (offset : ℕ) : Except Thrown ℕ :=
  let header := decode (subarray view offset (offset + pktLengthBytes))
  if ¬ isHexLength header then .error (.refusal (.invalidPktLength header))
  else
    let length := parseHexLength header
    if length > maxPktLineFrame then .error (.refusal (.pktTooLarge length)) else .ok length

/-- What a header calls for: a marker, a payload, or more bytes. -/
inductive Decision
  | marker (packet : PktLine) (consume : ℕ)
  | data (consume : ℕ)
  | wait

def classify (length available : ℕ) (v2 : Bool) : Except Thrown Decision :=
  if length = 0 then .ok (.marker .flush pktLengthBytes)
  else if length = 1 then
    if ¬ v2 then .error (.refusal (.pktLengthReserved 1)) else .ok (.marker .delim pktLengthBytes)
  else if length = 2 then
    if ¬ v2 then .error (.refusal (.pktLengthReserved 2))
    else .ok (.marker .responseEnd pktLengthBytes)
  else if length < pktLengthBytes then .error (.refusal (.pktLengthReserved length))
  else if available < length then .ok .wait
  else .ok (.data length)

/-- One turn of `drainFrames`. -/
def drainTurn (view : Bytes) (limit : ℕ) (v2 : Bool) (offset : ℕ) :
    Generator PktLine Thrown (Run.Turn ℕ ℕ) :=
  if limit - offset < pktLengthBytes then pure (.stop offset)
  else do
    let length ← .ofExcept (parseLength view offset)
    match ← .ofExcept (classify length (limit - offset) v2) with
    | .wait => pure (.stop offset)
    | .data consume => do
      .yield (.data (subarray view (offset + pktLengthBytes) (offset + consume)))
      pure (.again (offset + consume))
    | .marker packet consume => do
      .yield packet
      pure (.again (offset + consume))

/-- Yields the complete frames of `view[start, limit)`, and returns where they end. -/
def drainFrames (fuel : ℕ) (view : Bytes) (limit : ℕ) (v2 : Bool) (start : ℕ) :
    Generator PktLine Thrown ℕ :=
  Generator.loop (drainTurn view limit v2) fuel start

/-- The incomplete frame between two chunks: the first `used` bytes of a buffer that is filled
again and again. -/
structure PktBuffer where
  buf : Bytes
  used : ℕ

def PktBuffer.fresh : PktBuffer := ⟨List.replicate maxPktLineFrame 0, 0⟩

def copyDown (buf : Bytes) (start stop : ℕ) : Bytes := overwrite buf (subarray buf start stop) 0

def acceptTurn (fuel : ℕ) (chunk : Bytes) (v2 : Bool) (state : PktBuffer × ℕ) :
    Generator PktLine Thrown (Run.Turn (PktBuffer × ℕ) PktBuffer) :=
  let (buffer, chunkOffset) := state
  if ¬ chunkOffset < chunk.length then pure (.stop buffer)
  else if buffer.used > 0 then do
    -- The pending frame takes as much of the chunk as the buffer has room for.
    let room := buffer.buf.length - buffer.used
    let take := min room (chunk.length - chunkOffset)
    let buf ← .ofExcept
      (setBytes buffer.buf (subarray chunk chunkOffset (chunkOffset + take)) buffer.used)
    let used := buffer.used + take
    let consumed ← drainFrames fuel buf used v2 0
    pure (.again (⟨copyDown buf consumed used, used - consumed⟩, chunkOffset + take))
  else do
    let consumed ← drainFrames fuel chunk chunk.length v2 chunkOffset
    if consumed < chunk.length then do
      let buf ← .ofExcept (setBytes buffer.buf (subarray chunk consumed chunk.length) 0)
      pure (.again (⟨buf, chunk.length - consumed⟩, chunk.length))
    else pure (.again (buffer, consumed))

def accept (fuel : ℕ) (v2 : Bool) (buffer : PktBuffer) (chunk : Bytes) :
    Generator PktLine Thrown PktBuffer :=
  Generator.loop (acceptTurn fuel chunk v2) fuel (buffer, 0)

/-- What the bytes come from: the chunks, and what is thrown behind them, if anything is. -/
structure Source where
  chunks : List Bytes
  failure : Option Thrown

def decodePktStream (fuel : ℕ) (v2 : Bool) (source : Source) : Generator PktLine Thrown Unit := do
  let buffer ← source.chunks.foldlM (accept fuel v2) .fresh
  match source.failure with
  | some error => Generator.thrown error
  | none => if buffer.used > 0 then Generator.thrown (.refusal (.pktTruncated buffer.used)) else pure ()

end Tsgit.Pkt
