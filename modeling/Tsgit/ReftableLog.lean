import Tsgit.ReflogFormat
import Tsgit.ReftableBlock

/-!
# Logs of a Reftable Stack

The log blocks of `src/domain/refs/reftable/reftable-log.ts`, the merged view of
`src/domain/refs/reftable/reftable-stack.ts`, and the two ways in which
`src/application/primitives/reftable-transaction.ts` asks whether a name has a log.
-/

namespace Tsgit.ReftableFile

open List

open Reflog (ReflogEntry)

def forOf {ω ω' ε α σ : Type} (step : σ → ω → Generator ω' ε σ) (state : σ) :
    Generator ω ε α → Generator ω' ε σ
  | .returned _ => .returned state
  | .thrown error => .thrown error
  | .spent => .spent
  | .yielded item rest => step state item >>= fun next => forOf step next rest

/-- Whether a generator yields anything. It is left at the first item. -/
def hasItem {ω ε α : Type} : Generator ω ε α → Generator Empty ε Bool
  | .returned _ => .returned false
  | .thrown error => .thrown error
  | .spent => .spent
  | .yielded _ _ => .returned true

/-! ### Records -/

def logTypeDeletion : ℕ := 0x0

def logTypeMask : ℕ := 0x7

def reverseInt64Max : ℕ := 0xffffffffffffffff

def logKeyUpdateIndexWidth : ℕ := 8

def logKeySeparatorWidth : ℕ := 1

def tzOffsetWidth : ℕ := 2

inductive LogRecordEntry
  | deletion
  | entry (entry : ReflogEntry)
  deriving DecidableEq

structure ReftableLogRecord where
  name : Text
  updateIndex : ℕ
  entry : LogRecordEntry
  deriving DecidableEq

/-- A table whose log blocks have been inflated. -/
structure LoadedReftable extends Reftable where
  logBlocks : List Bytes

/-- The number that `getInt16` reads. -/
def getInt16 (bytes : Bytes) (offset : ℕ) : Except Thrown ℤ := do
  let value ← getUint16 bytes offset
  return if value < 0x8000 then value else value - 0x10000

def decodeTzOffset (raw : ℤ) : Text :=
  let digits := Nat.toDigits 10 raw.natAbs
  (if raw < 0 then '-' else '+') :: (replicate (4 - digits.length) '0' ++ digits)

def splitLogKey (keyBytes : Bytes) : Except Thrown (Text × ℕ) :=
  let suffixWidth := logKeySeparatorWidth + logKeyUpdateIndexWidth
  if keyBytes.length < suffixWidth then
    invalidReftable .recordOverrun
      (s!"log key of {keyBytes.length} bytes is too short to hold the {suffixWidth}-byte " ++
        "separator + reversed update_index suffix")
  else do
    let nameBytes := keyBytes.take (keyBytes.length - suffixWidth)
    let reversed ← getBigUint64 keyBytes (keyBytes.length - logKeyUpdateIndexWidth)
    let name ← decodeSafeRefName nameBytes "reflog ref name"
    return (name, reverseInt64Max - reversed)

structure LogKey where
  keyBytes : Bytes
  name : Text
  updateIndex : ℕ
  logType : ℕ
  afterKey : ℕ

def decodeLogKey (bytes : Bytes) (offset : ℕ) (priorKeyBytes : Option Bytes) :
    Except Thrown LogKey := do
  let key ← readPrefixedName bytes offset priorKeyBytes
  let (name, updateIndex) ← splitLogKey key.nameBytes
  return ⟨key.nameBytes, name, updateIndex, key.packed &&& logTypeMask, key.nextOffset⟩

structure LogData where
  entry : ReflogEntry
  nextOffset : ℕ

def decodeLogData (bytes : Bytes) (offset digestLength : ℕ) : Except Thrown LogData :=
  if bytes.length < offset + 2 * digestLength then
    invalidReftable .recordOverrun
      (s!"log record at byte {offset} needs {2 * digestLength} bytes for old_id + new_id, " ++
        s!"past the {bytes.length}-byte payload")
  else do
    let oldId ← readObjectId bytes offset digestLength
    let newIdOffset := offset + digestLength
    let newId ← readObjectId bytes newIdOffset digestLength
    let nameLen ← readVarint bytes (newIdOffset + digestLength)
    let name := decode (subarray bytes nameLen.nextOffset (nameLen.nextOffset + nameLen.value))
    let emailLen ← readVarint bytes (nameLen.nextOffset + nameLen.value)
    let email := decode (subarray bytes emailLen.nextOffset (emailLen.nextOffset + emailLen.value))
    let timestamp ← readVarint bytes (emailLen.nextOffset + emailLen.value)
    if bytes.length < timestamp.nextOffset + tzOffsetWidth then
      invalidReftable .recordOverrun
        (s!"log record tz_offset at byte {timestamp.nextOffset} runs past the " ++
          s!"{bytes.length}-byte payload")
    else do
      let tzOffset ← getInt16 bytes timestamp.nextOffset
      let messageLen ← readVarint bytes (timestamp.nextOffset + tzOffsetWidth)
      let messageEnd := messageLen.nextOffset + messageLen.value
      let message := decode (subarray bytes messageLen.nextOffset messageEnd)
      let identity := ⟨name, email, timestamp.value, decodeTzOffset tzOffset⟩
      return ⟨⟨oldId, newId, identity, message, none⟩, messageEnd⟩

def skipLogData (bytes : Bytes) (offset digestLength : ℕ) : Except Thrown ℕ := do
  let nameLen ← readVarint bytes (offset + 2 * digestLength)
  let emailLen ← readVarint bytes (nameLen.nextOffset + nameLen.value)
  let timestamp ← readVarint bytes (emailLen.nextOffset + emailLen.value)
  let messageLen ← readVarint bytes (timestamp.nextOffset + 2)
  return messageLen.nextOffset + messageLen.value

structure LogBlockBounds where
  recordsStart : ℕ
  recordsEnd : ℕ
  restartOffsets : List ℕ

def logBlockBounds (payload : Bytes) : Except Thrown LogBlockBounds :=
  if payload.length < restartCountSize then
    invalidReftable .blockBounds
      (s!"log block payload of {payload.length} bytes is too short to hold its own restart_count")
  else do
    let restartCount ← getUint16 payload (payload.length - restartCountSize)
    if payload.length < restartCountSize + restartCount * restartEntrySize then
      invalidReftable .blockBounds
        (s!"log block declares restart_count {restartCount}, overrunning its " ++
          s!"{payload.length}-byte payload")
    else do
      let restartArrayStart := payload.length - restartCountSize - restartCount * restartEntrySize
      let restartOffsets ← (range restartCount).mapM fun i =>
        readUint24 payload (restartArrayStart + i * restartEntrySize)
      return ⟨0, restartArrayStart, restartOffsets⟩

/-- What a turn of `walkLogBlockRecords` comes to: the record it yields, if any, and where the
next one begins. -/
structure LogStep where
  keyBytes : Bytes
  yields : Option ReftableLogRecord
  nextOffset : ℕ

/-- A turn of `walkLogBlockRecords`. -/
def readLogRecord (payload : Bytes) (digestLength : ℕ) (wanted : Text → Bool) (cursor : ℕ)
    (priorKeyBytes : Option Bytes) : Except Thrown LogStep := do
  let key ← decodeLogKey payload cursor priorKeyBytes
  if key.logType = logTypeDeletion then
    return ⟨key.keyBytes,
      if wanted key.name then some ⟨key.name, key.updateIndex, .deletion⟩ else none, key.afterKey⟩
  else if wanted key.name then do
    let data ← decodeLogData payload key.afterKey digestLength
    return ⟨key.keyBytes, some ⟨key.name, key.updateIndex, .entry data.entry⟩, data.nextOffset⟩
  else do
    let nextOffset ← skipLogData payload key.afterKey digestLength
    return ⟨key.keyBytes, none, nextOffset⟩

/-! ### Progress -/

variable {bytes : Bytes} {offset digestLength : ℕ}

theorem readVarintFrom_lt {left pos byte value : ℕ} {read : Varint}
    (h : readVarintFrom bytes offset left pos byte value = .ok read) : pos < read.nextOffset := by
  induction left generalizing pos byte value with
  | zero =>
    unfold readVarintFrom at h
    split at h
    · cases h
      exact Nat.lt_succ_self pos
    · cases h
  | succ left ih =>
    unfold readVarintFrom at h
    split at h
    · cases h
      exact Nat.lt_succ_self pos
    · dsimp only at h
      split at h
      · cases h
      · exact (Nat.lt_succ_self pos).trans (ih h)

theorem readVarint_lt {read : Varint} (h : readVarint bytes offset = .ok read) :
    offset < read.nextOffset := by
  unfold readVarint at h
  split at h
  · cases h
  · exact readVarintFrom_lt h

theorem readPrefixedName_lt {prior : Option Bytes} {name : PrefixedName}
    (h : readPrefixedName bytes offset prior = .ok name) : offset < name.nextOffset := by
  obtain ⟨length, hlength, h⟩ := bind_eq_ok.mp h
  dsimp only at h
  split at h
  · cases h
  obtain ⟨packed, hpacked, h⟩ := bind_eq_ok.mp h
  have hfirst := readVarint_lt hlength
  have hsecond := readVarint_lt hpacked
  unfold readSuffix at h
  dsimp only at h
  split at h
  · cases h
  · cases h
    exact (hfirst.trans hsecond).trans_le (Nat.le_add_right _ _)

theorem decodeLogKey_lt {prior : Option Bytes} {key : LogKey}
    (h : decodeLogKey bytes offset prior = .ok key) : offset < key.afterKey := by
  obtain ⟨name, hname, h⟩ := bind_eq_ok.mp h
  obtain ⟨split, -, h⟩ := bind_eq_ok.mp h
  cases h
  exact readPrefixedName_lt hname

theorem skipLogData_lt {nextOffset : ℕ}
    (h : skipLogData bytes offset digestLength = .ok nextOffset) : offset < nextOffset := by
  obtain ⟨nameLen, hname, h⟩ := bind_eq_ok.mp h
  obtain ⟨emailLen, hemail, h⟩ := bind_eq_ok.mp h
  obtain ⟨timestamp, htimestamp, h⟩ := bind_eq_ok.mp h
  obtain ⟨messageLen, hmessage, h⟩ := bind_eq_ok.mp h
  cases h
  have := readVarint_lt hname
  have := readVarint_lt hemail
  have := readVarint_lt htimestamp
  have := readVarint_lt hmessage
  omega

/-- **The value of another name** is skipped to where it would be decoded to. -/
theorem skipLogData_of_decode {data : LogData}
    (h : decodeLogData bytes offset digestLength = .ok data) :
    skipLogData bytes offset digestLength = .ok data.nextOffset := by
  unfold decodeLogData at h
  split at h
  · cases h
  obtain ⟨oldId, -, h⟩ := bind_eq_ok.mp h
  obtain ⟨newId, -, h⟩ := bind_eq_ok.mp h
  obtain ⟨nameLen, hname, h⟩ := bind_eq_ok.mp h
  obtain ⟨emailLen, hemail, h⟩ := bind_eq_ok.mp h
  obtain ⟨timestamp, htimestamp, h⟩ := bind_eq_ok.mp h
  dsimp only at h
  split at h
  · cases h
  obtain ⟨tzOffset, -, h⟩ := bind_eq_ok.mp h
  obtain ⟨messageLen, hmessage, h⟩ := bind_eq_ok.mp h
  cases h
  have hids : offset + 2 * digestLength = offset + digestLength + digestLength := by
    omega
  rw [← hids] at hname
  exact bind_eq_ok.mpr ⟨nameLen, hname, bind_eq_ok.mpr ⟨emailLen, hemail,
    bind_eq_ok.mpr ⟨timestamp, htimestamp, bind_eq_ok.mpr ⟨messageLen, hmessage, rfl⟩⟩⟩⟩

variable {wanted : Text → Bool}

theorem readLogRecord_lt {cursor : ℕ} {prior : Option Bytes} {step : LogStep}
    (h : readLogRecord bytes digestLength wanted cursor prior = .ok step) :
    cursor < step.nextOffset := by
  obtain ⟨key, hkey, h⟩ := bind_eq_ok.mp h
  have hforward := decodeLogKey_lt hkey
  split at h
  · cases h
    exact hforward
  split at h
  · obtain ⟨data, hdata, h⟩ := bind_eq_ok.mp h
    cases h
    exact hforward.trans (skipLogData_lt (skipLogData_of_decode hdata))
  · obtain ⟨nextOffset, hskip, h⟩ := bind_eq_ok.mp h
    cases h
    exact hforward.trans (skipLogData_lt hskip)

/-! ### Walks -/

/-- Yields an item, if there is one, and goes on. -/
def handOut {ω ε α : Type} (item : Option ω) (rest : Generator ω ε α) : Generator ω ε α :=
  match item with
  | none => rest
  | some item => .yielded item rest

/-- The loop of `walkLogBlockRecords`. -/
def walkLogRecordsFrom (payload : Bytes) (digestLength : ℕ) (wanted : Text → Bool)
    (recordsEnd cursor : ℕ) (priorKeyBytes : Option Bytes) :
    Generator ReftableLogRecord Thrown Unit :=
  if cursor < recordsEnd then
    match _h : readLogRecord payload digestLength wanted cursor priorKeyBytes with
    | .error thrown => .thrown thrown
    | .ok step =>
      handOut step.yields
        (walkLogRecordsFrom payload digestLength wanted recordsEnd step.nextOffset
          (some step.keyBytes))
  else .returned ()
termination_by recordsEnd - cursor
decreasing_by
  have hforward := readLogRecord_lt _h
  omega

def walkLogBlockRecords (payload : Bytes) (digestLength : ℕ) (wanted : Text → Bool) :
    Generator ReftableLogRecord Thrown Unit := do
  let bounds ← liftM (logBlockBounds payload)
  walkLogRecordsFrom payload digestLength wanted bounds.recordsEnd bounds.recordsStart none

/-- Whether a record of the name is looked for. -/
def isWanted (name : Option Text) (candidate : Text) : Bool :=
  match name with
  | none => true
  | some name => candidate = name

def iterateReftableLogs (table : LoadedReftable) (name : Option Text) :
    Generator ReftableLogRecord Thrown Unit :=
  table.logBlocks.forM fun payload =>
    walkLogBlockRecords payload table.header.digestLength (isWanted name)

/-! ### Stacks -/

def logsInStackStep (seenIndices : List ℕ) (record : ReftableLogRecord) :
    Generator ReftableLogRecord Thrown (List ℕ) :=
  if seenIndices.contains record.updateIndex then return seenIndices
  else if record.entry = .deletion then return record.updateIndex :: seenIndices
  else do
    Generator.yield record
    return record.updateIndex :: seenIndices

def logsInStack (tablesNewestFirst : List LoadedReftable) (name : Text) :
    Generator ReftableLogRecord Thrown (List ℕ) :=
  tablesNewestFirst.foldlM
    (fun seenIndices table =>
      forOf logsInStackStep seenIndices (iterateReftableLogs table (some name)))
    []

/-- `ReftableStack`, of which the tables go from the oldest to the newest. -/
structure ReftableStack where
  tables : List LoadedReftable

def ReftableStack.logs (stack : ReftableStack) (name : Text) :
    Generator ReftableLogRecord Thrown (List ℕ) :=
  logsInStack stack.tables.reverse name

def shadowKey (record : ReftableLogRecord) : Text :=
  record.name ++ '\x00' :: Nat.toDigits 10 record.updateIndex

/-- The variables of `collectLoggableNames`. -/
structure Collected where
  live : List Text
  shadowedKeys : List Text

/-- A turn of `collectLoggableNames`. -/
def collectStep (collected : Collected) (record : ReftableLogRecord) : Collected :=
  let key := shadowKey record
  if collected.shadowedKeys.contains key then collected
  else if record.entry = .deletion then ⟨collected.live, key :: collected.shadowedKeys⟩
  else ⟨record.name :: collected.live, key :: collected.shadowedKeys⟩

def collectLoggableNames (stack : ReftableStack) : Generator Empty Thrown (List Text) := do
  let collected ← stack.tables.reverse.foldlM
    (fun collected table =>
      forOf (fun state record => return collectStep state record) collected
        (iterateReftableLogs table none))
    ⟨[], []⟩
  return collected.live

def hasLiveLogRecord (stack : ReftableStack) (name : Text) : Generator Empty Thrown Bool :=
  hasItem (stack.logs name)

/-! ### Generators that return -/

section

open Generator (Returns returns_bind_iff)

variable {ω ω' ε α β σ : Type}

variable {generator : Generator ω ε α}

theorem items_bind {next : α → Generator ω ε β} {answer : α} (h : Returns answer generator) :
    (generator >>= next).items = generator.items ++ (next answer).items := by
  induction generator with
  | returned found =>
    cases h
    rfl
  | thrown error => cases h
  | spent => cases h
  | yielded item rest ih => exact congrArg (item :: ·) (ih h)

theorem forOf_eq {step : σ → ω → Generator ω' ε σ} {answer : α}
    (h : Returns answer generator) (state : σ) :
    forOf step state generator = generator.items.foldlM step state := by
  induction generator generalizing state with
  | returned found => rfl
  | thrown error => cases h
  | spent => cases h
  | yielded item rest ih =>
    refine (congrArg (step state item >>= ·) (funext fun next => ih h next)).trans ?_
    exact (foldlM_cons ..).symm

theorem forOf_returned {step : σ → ω → σ} {state last : σ} (h : Returns last
      (forOf (fun state item => (return step state item : Generator ω' ε σ)) state generator)) :
    ∃ answer, Returns answer generator ∧ last = generator.items.foldl step state := by
  induction generator generalizing state with
  | returned found =>
    cases h
    exact ⟨found, rfl, rfl⟩
  | thrown error => cases h
  | spent => cases h
  | yielded item rest ih => exact ih h

theorem hasItem_eq {answer : α} (h : Returns answer generator) :
    hasItem generator = .returned (! generator.items.isEmpty) := by
  cases generator with
  | returned found => rfl
  | thrown error => cases h
  | spent => cases h
  | yielded item rest => rfl

def Selects (select : ω → Bool) (all chosen : Generator ω ε Unit) : Prop :=
  Returns () all → Returns () chosen ∧ chosen.items = all.items.filter select

variable {select : ω → Bool}

theorem Selects.bind {all chosen all' chosen' : Generator ω ε Unit} (h : Selects select all chosen)
    (hnext : Selects select all' chosen') :
    Selects select (all >>= fun _ => all') (chosen >>= fun _ => chosen') := by
  intro hreturns
  obtain ⟨⟨⟩, hall, hall'⟩ := returns_bind_iff.mp hreturns
  obtain ⟨hchosen, hitems⟩ := h hall
  obtain ⟨hchosen', hitems'⟩ := hnext hall'
  refine ⟨returns_bind_iff.mpr ⟨(), hchosen, hchosen'⟩, ?_⟩
  rw [items_bind hall, items_bind hchosen, hitems, hitems', filter_append]

end

/-! ### One name -/

section

open Generator (Returns returns_bind_iff)

variable {payload : Bytes} {prior : Option Bytes} (name : Text)

/-- Whether a record is of the name. -/
def isOf (record : ReftableLogRecord) : Bool := record.name = name

theorem readLogRecord_named {cursor : ℕ} {step : LogStep}
    (h : readLogRecord payload digestLength (isWanted none) cursor prior = .ok step) :
    ∃ record, step.yields = some record ∧
      readLogRecord payload digestLength (isWanted (some name)) cursor prior =
        .ok ⟨step.keyBytes, if isOf name record then some record else none, step.nextOffset⟩ := by
  obtain ⟨key, hkey, h⟩ := bind_eq_ok.mp h
  split at h
  · next hdeletion =>
    cases h
    refine ⟨_, rfl, bind_eq_ok.mpr ⟨key, hkey, ?_⟩⟩
    exact if_pos hdeletion
  · next hentry =>
    rw [if_pos (show isWanted none key.name = true from rfl)] at h
    obtain ⟨data, hdata, h⟩ := bind_eq_ok.mp h
    cases h
    refine ⟨_, rfl, bind_eq_ok.mpr ⟨key, hkey, (if_neg hentry).trans ?_⟩⟩
    by_cases hname : key.name = name
    · have hwanted : isWanted (some name) key.name = true := decide_eq_true hname
      have hof : isOf name ⟨key.name, key.updateIndex, .entry data.entry⟩ = true :=
        decide_eq_true hname
      rw [if_pos hwanted, if_pos hof]
      exact bind_eq_ok.mpr ⟨data, hdata, rfl⟩
    have hwanted : ¬ isWanted (some name) key.name = true := fun hsame =>
      hname (of_decide_eq_true hsame)
    have hof : ¬ isOf name ⟨key.name, key.updateIndex, .entry data.entry⟩ = true := fun hsame =>
      hname (of_decide_eq_true hsame)
    rw [if_neg hwanted, if_neg hof]
    exact bind_eq_ok.mpr ⟨_, skipLogData_of_decode hdata, rfl⟩

theorem walkLogRecordsFrom_step {recordsEnd cursor : ℕ} {step : LogStep}
    (hmore : cursor < recordsEnd)
    (hstep : readLogRecord payload digestLength wanted cursor prior = .ok step) :
    walkLogRecordsFrom payload digestLength wanted recordsEnd cursor prior = handOut step.yields
        (walkLogRecordsFrom payload digestLength wanted recordsEnd step.nextOffset
          (some step.keyBytes)) := by
  rw [walkLogRecordsFrom, if_pos hmore]
  split
  · next thrown hthrown => cases hstep.symm.trans hthrown
  · next found hfound =>
    cases hstep.symm.trans hfound
    rfl

theorem walkLogRecordsFrom_returns {recordsEnd cursor : ℕ}
    (hmore : cursor < recordsEnd)
    (h : Returns () (walkLogRecordsFrom payload digestLength wanted recordsEnd cursor prior)) :
    ∃ step, readLogRecord payload digestLength wanted cursor prior = .ok step := by
  cases hstep : readLogRecord payload digestLength wanted cursor prior with
  | ok step => exact ⟨step, rfl⟩
  | error thrown =>
    rw [walkLogRecordsFrom, if_pos hmore] at h
    split at h
    · cases h
    · next found hfound => cases hstep.symm.trans hfound

/-- **A walk for one name** yields what the walk for all of them yields for it. -/
theorem walk_named (recordsEnd cursor : ℕ) (prior : Option Bytes) :
    Selects (isOf name)
      (walkLogRecordsFrom payload digestLength (isWanted none) recordsEnd cursor prior)
      (walkLogRecordsFrom payload digestLength (isWanted (some name)) recordsEnd cursor prior) := by
  induction hn : recordsEnd - cursor using Nat.strong_induction_on generalizing cursor prior with
  | _ n ih =>
    intro h
    by_cases hmore : cursor < recordsEnd
    · obtain ⟨step, hstep⟩ := walkLogRecordsFrom_returns hmore h
      obtain ⟨record, hyields, hnamed⟩ := readLogRecord_named name hstep
      have hforward := readLogRecord_lt hstep
      rw [walkLogRecordsFrom_step hmore hstep, hyields] at h
      obtain ⟨hreturns, hitems⟩ :=
        ih (recordsEnd - step.nextOffset) (by omega) step.nextOffset (some step.keyBytes) rfl h
      rw [walkLogRecordsFrom_step hmore hstep, walkLogRecordsFrom_step hmore hnamed, hyields]
      dsimp only
      cases hof : isOf name record with
      | true =>
        refine ⟨hreturns, ?_⟩
        have hselected := filter_cons_of_pos (l := (walkLogRecordsFrom payload digestLength
          (isWanted none) recordsEnd step.nextOffset (some step.keyBytes)).items) hof
        exact (congrArg (record :: ·) hitems).trans hselected.symm
      | false =>
        refine ⟨hreturns, ?_⟩
        have hskipped := filter_cons_of_neg (l := (walkLogRecordsFrom payload digestLength
          (isWanted none) recordsEnd step.nextOffset (some step.keyBytes)).items)
          (Bool.eq_false_iff.mp hof)
        exact hitems.trans hskipped.symm
    · rw [walkLogRecordsFrom, walkLogRecordsFrom, if_neg hmore, if_neg hmore]
      exact ⟨rfl, rfl⟩

theorem walkBlock_named (payload : Bytes) (digestLength : ℕ) :
    Selects (isOf name) (walkLogBlockRecords payload digestLength (isWanted none))
      (walkLogBlockRecords payload digestLength (isWanted (some name))) := by
  intro h
  unfold walkLogBlockRecords at h ⊢
  cases hbounds : logBlockBounds payload with
  | error thrown =>
    rw [hbounds] at h
    cases h
  | ok bounds =>
    rw [hbounds] at h
    exact walk_named name bounds.recordsEnd bounds.recordsStart none h

/-- **The logs of a table for one name** are those of the table that are of the name. -/
theorem iterate_named (table : LoadedReftable) :
    Selects (isOf name) (iterateReftableLogs table none)
      (iterateReftableLogs table (some name)) := by
  unfold iterateReftableLogs
  generalize table.logBlocks = blocks
  induction blocks with
  | nil => exact fun _ => ⟨rfl, rfl⟩
  | cons block blocks ih =>
    exact (walkBlock_named name block table.header.digestLength).bind ih

end

/-! ### The three answers -/

section

open Generator (Returns returns_bind_iff)

variable {name : Text}

/-- The records of all tables, where they can be read. -/
def recordsOf (tables : List LoadedReftable) : List ReftableLogRecord :=
  tables.flatMap fun table => (iterateReftableLogs table none).items

theorem recordsOf_cons (table : LoadedReftable) (tables : List LoadedReftable) :
    recordsOf (table :: tables) = (iterateReftableLogs table none).items ++ recordsOf tables :=
  flatMap_cons

/-- The records that are live, behind some update indices. -/
def visible : List ℕ → List ReftableLogRecord → List ReftableLogRecord
  | _, [] => []
  | seen, record :: rest =>
    if seen.contains record.updateIndex then visible seen rest
    else if record.entry = .deletion then visible (record.updateIndex :: seen) rest
    else record :: visible (record.updateIndex :: seen) rest

theorem logsInStackStep_foldlM (records : List ReftableLogRecord) (seen : List ℕ) :
    (∃ last, Returns last (records.foldlM logsInStackStep seen)) ∧
      (records.foldlM logsInStackStep seen).items = visible seen records := by
  induction records generalizing seen with
  | nil => exact ⟨⟨seen, rfl⟩, rfl⟩
  | cons record records ih =>
    rw [foldlM_cons, logsInStackStep, visible]
    by_cases hseen : seen.contains record.updateIndex = true
    · rw [if_pos hseen, if_pos hseen]
      exact ih seen
    rw [if_neg hseen, if_neg hseen]
    by_cases hdeletion : record.entry = .deletion
    · rw [if_pos hdeletion, if_pos hdeletion]
      exact ih _
    · rw [if_neg hdeletion, if_neg hdeletion]
      obtain ⟨hreturns, hitems⟩ := ih (record.updateIndex :: seen)
      exact ⟨hreturns, congrArg (record :: ·) hitems⟩

theorem visible_live {seen : List ℕ} {records : List ReftableLogRecord} {record : ReftableLogRecord}
    (h : record ∈ visible seen records) : record ∈ records ∧ record.entry ≠ .deletion := by
  induction records generalizing seen with
  | nil => cases h
  | cons first records ih =>
    rw [visible] at h
    split at h
    · exact (ih h).imp_left (mem_cons_of_mem _)
    split at h
    · exact (ih h).imp_left (mem_cons_of_mem _)
    · next hentry =>
      rcases mem_cons.mp h with rfl | h
      · exact ⟨mem_cons_self, hentry⟩
      · exact (ih h).imp_left (mem_cons_of_mem _)

theorem nul_not_mem_toDigits (n : ℕ) : '\x00' ∉ Nat.toDigits 10 n := fun h =>
  absurd (isDigit_of_mem_toDigits h) (by decide)

theorem shadowKey_inj {first second : ReftableLogRecord} (h : shadowKey first = shadowKey second) :
    first.name = second.name ∧ first.updateIndex = second.updateIndex := by
  have hplace : ∀ record : ReftableLogRecord,
      lastIndexOf (shadowKey record) '\x00' = some record.name.length := fun record =>
    lastIndexBefore_append (nul_not_mem_toDigits _) (by simp [shadowKey])
      (by simp only [shadowKey, length_append, length_cons]; omega)
  have hlength : first.name.length = second.name.length :=
    Option.some.inj
      ((hplace first).symm.trans ((congrArg (lastIndexOf · '\x00') h).trans (hplace second)))
  obtain ⟨hname, hdigits⟩ := append_inj h hlength
  refine ⟨hname, ?_⟩
  rw [← Nat.ofDigitChars_ten_toDigits (n := first.updateIndex), (cons.inj hdigits).2,
    Nat.ofDigitChars_ten_toDigits]

def SeenOf (collected : Collected) (name : Text) (seen : List ℕ) : Prop :=
  ∀ record : ReftableLogRecord, record.name = name →
    (shadowKey record ∈ collected.shadowedKeys ↔ record.updateIndex ∈ seen)

theorem SeenOf.other {collected : Collected} {seen : List ℕ} (h : SeenOf collected name seen)
    {record : ReftableLogRecord} (hname : record.name ≠ name) :
    SeenOf (collectStep collected record) name seen ∧
      (name ∈ (collectStep collected record).live ↔ name ∈ collected.live) := by
  have hkey : ∀ other : ReftableLogRecord, other.name = name →
      (shadowKey other ∈ shadowKey record :: collected.shadowedKeys ↔
        other.updateIndex ∈ seen) := fun other hother => by
    rw [mem_cons, ← h other hother]
    refine ⟨fun hmem => hmem.resolve_left fun hsame => ?_, .inr⟩
    exact hname ((shadowKey_inj hsame).1.symm.trans hother)
  unfold collectStep
  dsimp only
  split
  · exact ⟨h, Iff.rfl⟩
  · split
    · exact ⟨hkey, Iff.rfl⟩
    · exact ⟨hkey, by rw [mem_cons, or_iff_right hname.symm]⟩

/-- **What is collected** for a name is whether one of its records is live. -/
theorem mem_collected (records : List ReftableLogRecord) (collected : Collected) (seen : List ℕ)
    (h : SeenOf collected name seen) :
    name ∈ (records.foldl collectStep collected).live ↔
      name ∈ collected.live ∨ visible seen (records.filter (isOf name)) ≠ [] := by
  induction records generalizing collected seen with
  | nil => simp [visible]
  | cons record records ih =>
    rw [foldl_cons]
    by_cases hname : record.name = name
    · have hof : isOf name record = true := decide_eq_true hname
      rw [filter_cons_of_pos hof, visible]
      by_cases hmem : record.updateIndex ∈ seen
      · have hstep : collectStep collected record = collected :=
          if_pos (contains_iff_mem.mpr ((h record hname).mpr hmem))
        rw [hstep, if_pos (contains_iff_mem.mpr hmem)]
        exact ih collected seen h
      have hkey : ¬ collected.shadowedKeys.contains (shadowKey record) = true := fun hfound =>
        hmem ((h record hname).mp (contains_iff_mem.mp hfound))
      have hindex : ¬ seen.contains record.updateIndex = true := fun hfound =>
        hmem (contains_iff_mem.mp hfound)
      have hseen : ∀ live, SeenOf ⟨live, shadowKey record :: collected.shadowedKeys⟩ name
          (record.updateIndex :: seen) := fun live other hother => by
        rw [mem_cons, mem_cons, h other hother]
        refine or_congr_left ⟨fun hsame => (shadowKey_inj hsame).2, fun hsame => ?_⟩
        rw [shadowKey, shadowKey, hsame, hother, hname]
      rw [if_neg hindex]
      by_cases hdeletion : record.entry = .deletion
      · have hstep : collectStep collected record =
            ⟨collected.live, shadowKey record :: collected.shadowedKeys⟩ :=
          (if_neg hkey).trans (if_pos hdeletion)
        rw [hstep, if_pos hdeletion]
        exact ih _ _ (hseen _)
      · have hstep : collectStep collected record =
            ⟨record.name :: collected.live, shadowKey record :: collected.shadowedKeys⟩ :=
          (if_neg hkey).trans (if_neg hdeletion)
        rw [hstep, if_neg hdeletion, ih _ _ (hseen _)]
        simp [hname]
    · have hof : ¬ isOf name record = true := fun hsame => hname (of_decide_eq_true hsame)
      obtain ⟨hseen, hlive⟩ := h.other hname
      rw [filter_cons_of_neg hof, ih _ _ hseen, hlive]

theorem collect_returned {tables : List LoadedReftable} {collected last : Collected}
    (h : Returns last (tables.foldlM (fun collected table =>
      forOf (fun state record => (return collectStep state record : Generator Empty Thrown _))
        collected (iterateReftableLogs table none)) collected)) :
    (∀ table ∈ tables, Returns () (iterateReftableLogs table none)) ∧
      last = (recordsOf tables).foldl collectStep collected := by
  induction tables generalizing collected with
  | nil =>
    cases h
    exact ⟨forall_mem_nil _, rfl⟩
  | cons table tables ih =>
    rw [foldlM_cons] at h
    obtain ⟨middle, hmiddle, hrest⟩ := returns_bind_iff.mp h
    obtain ⟨⟨⟩, htable, rfl⟩ := forOf_returned hmiddle
    obtain ⟨htables, hlast⟩ := ih hrest
    refine ⟨forall_mem_cons.mpr ⟨htable, htables⟩, ?_⟩
    rw [hlast, recordsOf_cons, foldl_append]

theorem logsInStack_eq {tables : List LoadedReftable}
    (h : ∀ table ∈ tables, Returns () (iterateReftableLogs table none)) (seen : List ℕ) :
    tables.foldlM (fun seenIndices table =>
        forOf logsInStackStep seenIndices (iterateReftableLogs table (some name))) seen =
      ((recordsOf tables).filter (isOf name)).foldlM logsInStackStep seen := by
  induction tables generalizing seen with
  | nil => rfl
  | cons table tables ih =>
    obtain ⟨htable, htables⟩ := forall_mem_cons.mp h
    obtain ⟨hnamed, hitems⟩ := iterate_named name table htable
    rw [foldlM_cons, forOf_eq hnamed, hitems, recordsOf_cons, filter_append, foldlM_append]
    exact bind_congr fun next => ih htables next

/-- **Loggable names**: a name is collected exactly where the question for one name says so, and
where the merged view has a record, each of which is live. -/
theorem loggable_agree (stack : ReftableStack) (name : Text) (live : List Text)
    (hlive : collectLoggableNames stack = .returned live) :
    ∃ records : List ReftableLogRecord,
      (stack.logs name).items = records ∧ (∃ last, Returns last (stack.logs name)) ∧
      (∀ record ∈ records, record.name = name ∧ record.entry ≠ .deletion) ∧
      (hasLiveLogRecord stack name = .returned true ↔ records ≠ []) ∧
      (hasLiveLogRecord stack name = .returned false ↔ records = []) ∧
      (name ∈ live ↔ records ≠ []) := by
  have hreturns : Returns live (collectLoggableNames stack) := by
    rw [hlive]
    rfl
  obtain ⟨collected, hcollected, hsame⟩ := returns_bind_iff.mp hreturns
  obtain ⟨hread, rfl⟩ := collect_returned hcollected
  cases hsame
  obtain ⟨⟨last, hlast⟩, hitems⟩ := logsInStackStep_foldlM
    ((recordsOf stack.tables.reverse).filter (isOf name)) []
  rw [← logsInStack_eq hread] at hlast hitems
  have hrecords : (stack.logs name).items =
      visible [] ((recordsOf stack.tables.reverse).filter (isOf name)) := hitems
  have hhas : hasLiveLogRecord stack name = .returned (! (stack.logs name).items.isEmpty) :=
    hasItem_eq hlast
  have hmem := mem_collected (recordsOf stack.tables.reverse) ⟨[], []⟩ []
    (fun (record : ReftableLogRecord) (_ : record.name = name) =>
      ⟨fun h => absurd h not_mem_nil, fun h => absurd h not_mem_nil⟩)
  rw [or_iff_right not_mem_nil] at hmem
  rw [hrecords] at hhas
  refine ⟨_, hrecords, ⟨last, hlast⟩, fun record hrecord => ?_, ?_, ?_, hmem⟩
  · obtain ⟨hmem, hentry⟩ := visible_live hrecord
    exact ⟨of_decide_eq_true (mem_filter.mp hmem).2, hentry⟩
  · rw [hhas]
    cases visible [] ((recordsOf stack.tables.reverse).filter (isOf name)) with
    | nil => simp
    | cons record records => simp
  · rw [hhas]
    cases visible [] ((recordsOf stack.tables.reverse).filter (isOf name)) with
    | nil => simp
    | cons record records => simp

end

/-! ### A table whose second log block is cut -/

def headName : Text := ['H', 'E', 'A', 'D']

/-- One record, and no restart offset. -/
def logBlock : Bytes :=
  [0, 0x69, 0x48, 0x45, 0x41, 0x44, 0, 0xff, 0xff, 0xff, 0xff, 0xff, 0xff, 0xff, 0xfe] ++
    replicate 40 0 ++ [0, 0, 0, 0, 0, 0] ++ [0, 0]

/-- A table of two log blocks, of which the second is too short. -/
def cutLogTable : LoadedReftable where
  header := ⟨.v1, 0, 1, 1, .sha1⟩
  footer := ⟨0, 0, 0, 0, 1, 0⟩
  bytes := []
  logBlocks := [logBlock, []]

/-- The record of the block. -/
def headRecord : ReftableLogRecord :=
  ⟨headName, 1, .entry ⟨replicate 40 '0', replicate 40 '0',
    ⟨[], [], 0, ['+', '0', '0', '0', '0']⟩, [], none⟩⟩

theorem readLogRecord_logBlock (h : wanted headName = true) :
    readLogRecord logBlock 20 wanted 0 none =
      .ok ⟨subarray logBlock 2 15, some headRecord, 61⟩ := by
  have hkey : decodeLogKey logBlock 0 none = .ok ⟨subarray logBlock 2 15, headName, 1, 1, 15⟩ := rfl
  have hdata : decodeLogData logBlock 15 20 = .ok ⟨⟨replicate 40 '0', replicate 40 '0',
        ⟨[], [], 0, ['+', '0', '0', '0', '0']⟩, [], none⟩, 61⟩ := rfl
  refine bind_eq_ok.mpr ⟨_, hkey, (if_neg (by decide)).trans ((if_pos h).trans ?_)⟩
  exact bind_eq_ok.mpr ⟨_, hdata, rfl⟩

set_option maxRecDepth 4096 in
theorem logBlockBounds_logBlock : logBlockBounds logBlock = .ok ⟨0, 61, []⟩ := rfl

theorem walk_logBlock (h : wanted headName = true) :
    walkLogBlockRecords logBlock 20 wanted = .yielded headRecord (.returned ()) := by
  have hwalk : walkLogRecordsFrom logBlock 20 wanted 61 0 none =
      .yielded headRecord (.returned ()) := by
    rw [walkLogRecordsFrom_step (by decide) (readLogRecord_logBlock h), walkLogRecordsFrom,
      if_neg (by decide)]
    rfl
  unfold walkLogBlockRecords
  rw [logBlockBounds_logBlock]
  exact hwalk

def logTable : LoadedReftable := { cutLogTable with logBlocks := [logBlock] }

theorem loggable_agree_sample :
    headName ∈ [headName] ↔ (ReftableStack.logs ⟨[logTable]⟩ headName).items ≠ [] := by
  have hany : iterateReftableLogs logTable none = .yielded headRecord (.returned ()) := by
    have hfirst : iterateReftableLogs logTable none =
        (walkLogBlockRecords logBlock 20 (isWanted none) >>= fun _ => .returned ()) := rfl
    rw [hfirst, walk_logBlock rfl]
    rfl
  have hcollect : collectLoggableNames ⟨[logTable]⟩ = .returned [headName] := by
    have hcollected : collectLoggableNames ⟨[logTable]⟩ =
        (forOf (fun state record => return collectStep state record) ⟨[], []⟩
          (iterateReftableLogs logTable none) >>= .returned) >>= fun collected =>
            (return collected.live : Generator Empty Thrown (List Text)) := rfl
    rw [hcollected, hany]
    rfl
  obtain ⟨records, hitems, -, -, -, -, hmem⟩ :=
    loggable_agree ⟨[logTable]⟩ headName [headName] hcollect
  rw [hitems]
  exact hmem

theorem iterate_cutLogTable {name : Option Text} (h : isWanted name headName = true) :
    ∃ thrown, iterateReftableLogs cutLogTable name = .yielded headRecord (.thrown thrown) := by
  have hfirst : iterateReftableLogs cutLogTable name =
      (walkLogBlockRecords logBlock 20 (isWanted name) >>= fun _ =>
        walkLogBlockRecords [] 20 (isWanted name) >>= fun _ => .returned ()) := rfl
  rw [hfirst, walk_logBlock h]
  exact ⟨_, rfl⟩

/-- Where a later block cannot be read, a name may have a live record, and the collection throws. -/
theorem loggable_cutLogTable : ¬ ∀ (stack : ReftableStack) (name : Text),
    hasLiveLogRecord stack name = .returned true ↔
      ∃ live, collectLoggableNames stack = .returned live ∧ name ∈ live := by
  intro hall
  obtain ⟨thrown, hnamed⟩ := @iterate_cutLogTable (some headName) (by decide)
  obtain ⟨thrown', hany⟩ := @iterate_cutLogTable none rfl
  have hhas : hasLiveLogRecord ⟨[cutLogTable]⟩ headName = .returned true := by
    have hlogs : ReftableStack.logs ⟨[cutLogTable]⟩ headName =
        (forOf logsInStackStep [] (iterateReftableLogs cutLogTable (some headName)) >>=
          .returned) := rfl
    rw [hasLiveLogRecord, hlogs, hnamed]
    rfl
  obtain ⟨live, hlive, -⟩ := (hall ⟨[cutLogTable]⟩ headName).mp hhas
  have hcollect : collectLoggableNames ⟨[cutLogTable]⟩ =
      (forOf (fun state record => return collectStep state record) ⟨[], []⟩
        (iterateReftableLogs cutLogTable none) >>= .returned) >>= fun collected =>
          (return collected.live : Generator Empty Thrown (List Text)) := rfl
  rw [hcollect, hany] at hlive
  cases hlive

end Tsgit.ReftableFile
