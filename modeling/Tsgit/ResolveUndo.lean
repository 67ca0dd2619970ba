import Tsgit.CacheTree
import Tsgit.EscapedBytes

/-!
# The Resolve-Undo Extension of the Index

The `REUC` extension, `src/domain/git-index/resolve-undo.ts`: a record for each path whose
conflict was resolved, with the mode and the id of each stage there was.
-/

namespace Tsgit.ResolveUndo

open List Tsgit.CacheTree Tsgit.IndexFile Tsgit.Objects

structure ResolveUndoStage where
  stage : ℕ
  mode : ℕ
  id : Text
  deriving DecidableEq

structure ResolveUndoRecord extends IndexPath where
  stages : List ResolveUndoStage
  deriving DecidableEq

def stages : List ℕ := [1, 2, 3]

/-! ### The parser -/

def isAsciiSpace (byte : UInt8) : Bool := byte = 0x20 ∨ (0x09 ≤ byte.toNat ∧ byte.toNat ≤ 0x0d)

/-- A NUL-terminated field, and where it ends. One that ends the data is refused. -/
def field (data : Bytes) (offset : ℕ) : Option (Bytes × ℕ) :=
  match indexOf data 0x00 offset with
  | none => none
  | some stop => if stop + 1 ≥ data.length then none else some (subarray data offset stop, stop + 1)

/-- Where the digits of a number start, and whether it is negated. -/
def signedStart (bytes : Bytes) : ℕ × Bool :=
  let start := (bytes.takeWhile isAsciiSpace).length
  let sign := bytes[start]?
  if sign ≠ some 0x2b ∧ sign ≠ some 0x2d then (start, false)
  else (start + 1, sign = some 0x2d)

/-- The loop of `octalDigits`. -/
def octalDigitsFrom : ℕ → Bytes → Option ℕ
  | value, [] => some value
  | value, byte :: rest =>
    if byte.toNat < 0x30 ∨ byte.toNat > 0x37 then none
    else octalDigitsFrom (value * 8 + (byte.toNat - 0x30)) rest

def octalDigits (bytes : Bytes) (start : ℕ) : Option ℕ := octalDigitsFrom 0 (bytes.drop start)

def ulongRange : ℕ := 2 ^ 64
def ulongMax : ℕ := ulongRange - 1

/-- A mode, as `strtoul` reads it and an unsigned integer of 32 bits keeps it. -/
def octal (bytes : Bytes) : Option ℕ :=
  let (start, negative) := signedStart bytes
  if start = bytes.length then none
  else
    (octalDigits bytes start).map fun digits =>
      let wide :=
        if digits > ulongMax then ulongMax
        else if negative then (ulongRange - digits) % ulongRange
        else digits
      wide % 2 ^ 32

/-- The loop of `readModes`. -/
def readModes (data : Bytes) : ℕ → ℕ → Option (List ℕ × ℕ)
  | 0, offset => some ([], offset)
  | count + 1, offset =>
    match field data offset with
    | none => none
    | some (bytes, next) =>
      match octal bytes with
      | none => none
      | some mode => (readModes data count next).map fun (modes, last) => (mode :: modes, last)

def readStages (data : Bytes) (digestLength : ℕ) :
    List (ℕ × ℕ) → ℕ → Option (List ResolveUndoStage × ℕ)
  | [], offset => some ([], offset)
  | (stage, mode) :: rest, offset =>
    if mode = 0 then readStages data digestLength rest offset
    else if offset + digestLength > data.length then none
    else
      (readStages data digestLength rest (offset + digestLength)).map fun (read, last) =>
        (⟨stage, mode, bytesToHex (subarray data offset (offset + digestLength))⟩ :: read, last)

def readRecord (data : Bytes) (digestLength offset : ℕ) : Option (ResolveUndoRecord × ℕ) :=
  match field data offset with
  | none => none
  | some (path, afterPath) =>
    match readModes data 3 afterPath with
    | none => none
    | some (modes, afterModes) =>
      (readStages data digestLength (stages.zip modes) afterModes).map fun (read, last) =>
        (⟨indexPathOfBytes path, read⟩, last)

theorem field_lt {data bytes : Bytes} {offset next : ℕ}
    (h : field data offset = some (bytes, next)) :
    offset < next := by
  unfold field at h
  cases hstop : indexOf data 0x00 offset with
  | none =>
    rw [hstop] at h
    cases h
  | some stop =>
    rw [hstop] at h
    dsimp only at h
    split at h
    · cases h
    · have hle := (indexOf_spec hstop).1
      cases h
      omega

theorem readModes_le {data : Bytes} {count offset last : ℕ} {modes : List ℕ}
    (h : readModes data count offset = some (modes, last)) : offset ≤ last := by
  induction count generalizing offset modes with
  | zero =>
    cases h
    exact le_rfl
  | succ count ih =>
    rw [readModes] at h
    split at h
    · cases h
    · next bytes next hfield =>
      have hlt := field_lt hfield
      split at h
      · cases h
      · obtain ⟨⟨others, end'⟩, hothers, heq⟩ := Option.map_eq_some_iff.mp h
        cases heq
        have hle := ih hothers
        omega

theorem readStages_le {data : Bytes} {digestLength offset last : ℕ} {wanted : List (ℕ × ℕ)}
    {read : List ResolveUndoStage}
    (h : readStages data digestLength wanted offset = some (read, last)) : offset ≤ last := by
  induction wanted generalizing offset read with
  | nil =>
    cases h
    exact le_rfl
  | cons first rest ih =>
    obtain ⟨stage, mode⟩ := first
    rw [readStages] at h
    split at h
    · exact ih h
    split at h
    · cases h
    · obtain ⟨⟨others, end'⟩, hothers, heq⟩ := Option.map_eq_some_iff.mp h
      cases heq
      have hle := ih hothers
      omega

variable {record : ResolveUndoRecord}

theorem readRecord_lt {data : Bytes} {digestLength offset next : ℕ}
    (h : readRecord data digestLength offset = some (record, next)) : offset < next := by
  unfold readRecord at h
  split at h
  · cases h
  · next path afterPath hfield =>
    have hlt := field_lt hfield
    split at h
    · cases h
    · next modes afterModes hmodes =>
      have hle := readModes_le hmodes
      obtain ⟨⟨read, last⟩, hread, heq⟩ := Option.map_eq_some_iff.mp h
      cases heq
      have hle' := readStages_le hread
      omega

def parseRecordsFrom (data : Bytes) (digestLength offset : ℕ) : Option (List ResolveUndoRecord) :=
  if offset < data.length then
    match _h : readRecord data digestLength offset with
    | none => none
    | some (record, next) => (parseRecordsFrom data digestLength next).map (record :: ·)
  else some []
termination_by data.length - offset
decreasing_by
  exact Nat.sub_lt_sub_left ‹_› (readRecord_lt _h)

/-- `none` where a record is malformed: the whole extension is dropped then. -/
def parseResolveUndo (data : Bytes) (digestLength : ℕ) : Option (List ResolveUndoRecord) :=
  parseRecordsFrom data digestLength 0

/-! ### The writer -/

def stageOf (record : ResolveUndoRecord) (stage : ℕ) : Option ResolveUndoStage :=
  record.stages.find? fun entry => entry.stage = stage

def modeText : Option ResolveUndoStage → Text
  | none => ['0']
  | some entry => octalText entry.mode

def stageId : Option ResolveUndoStage → Except Thrown Bytes
  | none => .ok []
  | some entry => hexToBytes entry.id

def recordParts (record : ResolveUndoRecord) : Except Thrown Bytes := do
  let byStage := stages.map (stageOf record)
  let modes := byStage.flatMap fun entry => encode (modeText entry) ++ [0x00]
  let ids ← byStage.mapM stageId
  pure (pathBytesOf record.toIndexPath ++ 0x00 :: (modes ++ ids.flatten))

def serializeResolveUndo (records : List ResolveUndoRecord) : Except Thrown Bytes := do
  let parts ← records.mapM recordParts
  pure parts.flatten

/-! ### What is read back -/

/-- A record that is kept as the reader keeps it: each stage once and in order, with a mode and an
id. -/
structure RecordFits (digestLength : ℕ) (record : ResolveUndoRecord) : Prop where
  wellFormed : record.toIndexPath.WellFormed
  nul_not_mem : 0x00 ∉ pathBytesOf record.toIndexPath
  stages_eq : record.stages = stages.filterMap (stageOf record)
  mode_pos : ∀ entry ∈ record.stages, 0 < entry.mode ∧ entry.mode < 2 ^ 32
  length_id : ∀ entry ∈ record.stages, entry.id.length = 2 * digestLength
  digits : ∀ entry ∈ record.stages, ∀ c ∈ entry.id, isHexDigit c = true

def modeOf : Option ResolveUndoStage → ℕ
  | none => 0
  | some entry => entry.mode

section

theorem octalDigitsFrom_append (front : Bytes) {value : ℕ} (back : Bytes) :
    octalDigitsFrom value (front ++ back) =
      (octalDigitsFrom value front).bind fun read => octalDigitsFrom read back := by
  induction front generalizing value with
  | nil => rfl
  | cons byte front ih =>
    rw [cons_append, octalDigitsFrom, octalDigitsFrom]
    split
    · rfl
    · exact ih

theorem octalDigit (digit : ℕ) (h : digit < 8) :
    encode [Nat.digitChar digit] = [UInt8.ofNat (0x30 + digit)] := by
  have hall : ∀ digit < 8, encode [Nat.digitChar digit] = [UInt8.ofNat (0x30 + digit)] := by decide
  exact hall digit h

theorem octalDigitsFrom_octalText (n : ℕ) : octalDigitsFrom 0 (encode (octalText n)) = some n ∧
    encode (octalText n) ≠ [] ∧
      ∀ byte ∈ encode (octalText n), 0x30 ≤ byte.toNat ∧ byte.toNat ≤ 0x37 := by
  induction n using Nat.strong_induction_on with
  | _ n ih =>
    have hbyte : ∀ digit < 8, (UInt8.ofNat (0x30 + digit)).toNat = 0x30 + digit :=
      fun digit hdigit => Nat.mod_eq_of_lt (by omega)
    have hread : ∀ value digit, digit < 8 →
        octalDigitsFrom value [UInt8.ofNat (0x30 + digit)] = some (value * 8 + digit) := by
      intro value digit hdigit
      rw [octalDigitsFrom, hbyte digit hdigit, if_neg (by omega), octalDigitsFrom,
        Nat.add_sub_cancel_left]
    rw [octalText, Nat.toDigits_eq_if (by decide)]
    split
    · next hlt =>
      rw [octalDigit n hlt]
      refine ⟨by rw [hread 0 n hlt, Nat.zero_mul, Nat.zero_add], cons_ne_nil _ _,
        fun byte hmem => ?_⟩
      rw [mem_singleton.mp hmem, hbyte n hlt]
      omega
    · next hge =>
      obtain ⟨hdigits, hne, hall⟩ := ih (n / 8) (by omega)
      rw [octalText] at hdigits hne hall
      have hmod : n % 8 < 8 := Nat.mod_lt _ (by decide)
      rw [encode_append, octalDigit _ hmod]
      refine ⟨?_, append_ne_nil_of_left_ne_nil hne _, fun byte hmem => ?_⟩
      · rw [octalDigitsFrom_append, hdigits]
        dsimp only [Option.bind_some]
        rw [hread _ _ hmod]
        exact congrArg some (by omega)
      · rcases mem_append.mp hmem with hfront | hlast
        · exact hall byte hfront
        · rw [mem_singleton.mp hlast, hbyte _ hmod]
          omega

theorem octal_octalText {mode : ℕ} (h : mode < 2 ^ 32) :
    octal (encode (octalText mode)) = some mode := by
  obtain ⟨hdigits, hne, hall⟩ := octalDigitsFrom_octalText mode
  obtain ⟨bytes, hbytes⟩ : ∃ bytes, bytes = encode (octalText mode) := ⟨_, rfl⟩
  rw [← hbytes] at hdigits hne hall ⊢
  have hstart : signedStart bytes = (0, false) := by
    cases bytes with
    | nil => exact absurd rfl hne
    | cons first rest =>
      have hfirst := hall first mem_cons_self
      have hspace : isAsciiSpace first = false := by
        refine decide_eq_false fun hspace => ?_
        rcases hspace with rfl | hspace
        · exact absurd hfirst.1 (by decide)
        · omega
      have hplus : first ≠ 0x2b := by
        rintro rfl
        exact absurd hfirst.1 (by decide)
      have hminus : first ≠ 0x2d := by
        rintro rfl
        exact absurd hfirst.1 (by decide)
      have htake : (first :: rest).takeWhile isAsciiSpace = [] :=
        takeWhile_cons_of_neg (by rw [hspace]; exact Bool.false_ne_true)
      unfold signedStart
      rw [htake]
      exact if_pos ⟨fun heq => hplus (Option.some_inj.mp heq),
        fun heq => hminus (Option.some_inj.mp heq)⟩
  have hlength : ¬ 0 = bytes.length := fun heq => hne (length_eq_zero_iff.mp heq.symm)
  unfold octal
  rw [hstart]
  dsimp only
  rw [if_neg hlength, octalDigits, drop_zero, hdigits, Option.map_some]
  have hmax : ¬ mode > ulongMax := by
    have hbound : ulongMax = 2 ^ 64 - 1 := rfl
    omega
  rw [if_neg hmax, if_neg Bool.false_ne_true, Nat.mod_eq_of_lt h]

theorem modeText_eq (entry : Option ResolveUndoStage) :
    modeText entry = octalText (modeOf entry) := by
  cases entry with
  | none => rfl
  | some entry => rfl

end

section

variable {data : Bytes} {digestLength : ℕ}

theorem field_written {src : Bytes} {offset : ℕ} (hnul : 0x00 ∉ src)
    (hheld : Holds data offset (src ++ [0x00])) (hinside : offset + src.length + 1 < data.length) :
    field data offset = some (src, offset + src.length + 1) := by
  unfold field
  rw [indexOf_of_holds hheld hnul]
  dsimp only
  rw [if_neg (by omega), hheld.left.subarray_eq]

/-- The modes as they are written. -/
def modeBytes (byStage : List (Option ResolveUndoStage)) : Bytes :=
  byStage.flatMap fun entry => encode (modeText entry) ++ [0x00]

theorem readModes_written {byStage : List (Option ResolveUndoStage)}
    (hmodes : ∀ entry ∈ byStage, modeOf entry < 2 ^ 32) {offset : ℕ}
    (hheld : Holds data offset (modeBytes byStage))
    (hinside : offset + (modeBytes byStage).length < data.length) :
    readModes data byStage.length offset =
      some (byStage.map modeOf, offset + (modeBytes byStage).length) := by
  induction byStage generalizing offset with
  | nil => rfl
  | cons entry rest ih =>
    have hcons : modeBytes (entry :: rest) =
        (encode (modeText entry) ++ [0x00]) ++ modeBytes rest := flatMap_cons
    rw [hcons] at hheld hinside ⊢
    have hwidth : (encode (modeText entry) ++ [0x00]).length =
        (encode (modeText entry)).length + 1 := by
      rw [length_append, length_singleton]
    rw [length_append, hwidth] at hinside ⊢
    have hbehind := hheld.right
    rw [hwidth] at hbehind
    have hdigits := (octalDigitsFrom_octalText (modeOf entry)).2.2
    have hnul : 0x00 ∉ encode (modeText entry) := by
      intro hmem
      rw [modeText_eq] at hmem
      exact absurd (hdigits _ hmem).1 (by decide)
    have hfield := field_written hnul hheld.left (by omega)
    have hrest := ih (forall_mem_cons.mp hmodes).2 hbehind
      (by omega)
    have hoctal : octal (encode (modeText entry)) = some (modeOf entry) := by
      rw [modeText_eq]
      exact octal_octalText (hmodes entry mem_cons_self)
    rw [length_cons, readModes, hfield]
    dsimp only
    rw [hoctal]
    dsimp only
    rw [Nat.add_assoc offset, hrest, Option.map_some, map_cons, Nat.add_assoc]

theorem readStages_written (h : RecordFits digestLength record)
    {wanted : List ℕ} {ids : List Bytes} {offset : ℕ}
    (hids : (wanted.map (stageOf record)).mapM stageId = .ok ids)
    (hheld : Holds data offset ids.flatten) (hinside : offset + ids.flatten.length ≤ data.length) :
    readStages data digestLength (wanted.zip ((wanted.map (stageOf record)).map modeOf)) offset =
        some (wanted.filterMap (stageOf record), offset + ids.flatten.length) ∧
      ids.flatten.length = digestLength * (wanted.filterMap (stageOf record)).length := by
  induction wanted generalizing offset ids with
  | nil =>
    obtain rfl := Except.ok.inj hids
    exact ⟨rfl, rfl⟩
  | cons stage wanted ih =>
    rw [map_cons, mapM_cons] at hids
    obtain ⟨id, hid, hids⟩ := bind_eq_ok.mp hids
    obtain ⟨others, hothers, hids⟩ := bind_eq_ok.mp hids
    obtain rfl := Except.ok.inj hids
    rw [flatten_cons] at hheld hinside ⊢
    rw [length_append] at hinside ⊢
    rw [map_cons, map_cons, zip_cons_cons, readStages]
    cases hstage : stageOf record stage with
    | none =>
      rw [hstage] at hid
      obtain rfl := Except.ok.inj hid
      rw [nil_append] at hheld
      rw [length_nil, Nat.zero_add] at hinside ⊢
      rw [filterMap_cons_none hstage]
      obtain ⟨hread, hlength⟩ := ih hothers hheld hinside
      exact ⟨(if_pos rfl).trans hread, hlength⟩
    | some entry =>
      rw [hstage] at hid
      have hmem : entry ∈ record.stages := mem_of_find?_eq_some hstage
      have hfound := find?_some hstage
      have hself : entry.stage = stage := of_decide_eq_true hfound
      have hpos := (h.mode_pos entry hmem).1
      have hwidth := h.length_id entry hmem
      obtain ⟨bytes, hbytes, hhex⟩ := hexToBytes_spec (by omega) (h.digits entry hmem)
      obtain rfl : id = bytes := Except.ok.inj (hid.symm.trans hbytes)
      have hlength : id.length = digestLength := by
        have hdouble := length_bytesToHex id
        rw [hhex] at hdouble
        omega
      obtain ⟨hread, hcount⟩ := ih hothers hheld.right (by omega)
      rw [filterMap_cons_some hstage]
      refine ⟨?_, by rw [hcount, hlength, length_cons, Nat.mul_succ, Nat.add_comm]⟩
      have hzero : ¬ modeOf (some entry) = 0 := by
        have hmode : modeOf (some entry) = entry.mode := rfl
        omega
      have hfits : ¬ offset + digestLength > data.length := by omega
      rw [← hlength] at hread
      rw [if_neg hzero, if_neg hfits, ← hlength, hread, hheld.left.subarray_eq, hhex,
        Option.map_some, ← hself, Nat.add_assoc]
      rfl

theorem recordParts_ok {bytes : Bytes}
    (h : recordParts record = .ok bytes) :
    ∃ ids, (stages.map (stageOf record)).mapM stageId = .ok ids ∧
      bytes = (pathBytesOf record.toIndexPath ++ [0x00]) ++
        (modeBytes (stages.map (stageOf record)) ++ ids.flatten) := by
  obtain ⟨ids, hids, h⟩ := bind_eq_ok.mp h
  refine ⟨ids, hids, (Except.ok.inj h).symm.trans ?_⟩
  simp only [append_assoc, cons_append, nil_append]
  rfl

theorem RecordFits.recordParts_ok
    (h : RecordFits digestLength record) :
    ∃ bytes, recordParts record = .ok bytes := by
  have hids : ∀ wanted : List ℕ,
      ∃ ids, (wanted.map (stageOf record)).mapM stageId = .ok ids := by
    intro wanted
    induction wanted with
    | nil => exact ⟨[], rfl⟩
    | cons stage wanted ih =>
      obtain ⟨ids, hids⟩ := ih
      have hfirst : ∃ id, stageId (stageOf record stage) = .ok id := by
        cases hstage : stageOf record stage with
        | none => exact ⟨[], rfl⟩
        | some entry =>
          have hmem : entry ∈ record.stages := mem_of_find?_eq_some hstage
          have hwidth := h.length_id entry hmem
          obtain ⟨bytes, hbytes, -⟩ := hexToBytes_spec (by omega) (h.digits entry hmem)
          exact ⟨bytes, hbytes⟩
      obtain ⟨id, hid⟩ := hfirst
      refine ⟨id :: ids, ?_⟩
      rw [map_cons, mapM_cons, ok_bind_eq hid, ok_bind_eq hids]
      rfl
  obtain ⟨ids, hids⟩ := hids stages
  exact ⟨_, by rw [recordParts]; exact ok_bind_eq hids⟩

theorem modeBytes_length_pos {byStage : List (Option ResolveUndoStage)} (h : byStage ≠ []) :
    0 < (modeBytes byStage).length := by
  obtain ⟨entry, rest, rfl⟩ := exists_cons_of_ne_nil h
  have hcons : modeBytes (entry :: rest) =
      (encode (modeText entry) ++ [0x00]) ++ modeBytes rest := flatMap_cons
  rw [hcons, length_append, length_append, length_singleton]
  omega

/-- **A record that was written is read back**, if its last field does not end the data. -/
theorem readRecord_written (h : RecordFits digestLength record)
    {bytes : Bytes} (hbytes : recordParts record = .ok bytes) {offset : ℕ}
    (hheld : Holds data offset bytes) (hinside : offset + bytes.length ≤ data.length)
    (hmore : record.stages = [] ∨ digestLength = 0 → offset + bytes.length < data.length) :
    readRecord data digestLength offset = some (record, offset + bytes.length) := by
  obtain ⟨ids, hids, rfl⟩ := Tsgit.ResolveUndo.recordParts_ok hbytes
  have hwidth : (pathBytesOf record.toIndexPath ++ [0x00]).length =
      (pathBytesOf record.toIndexPath).length + 1 := by
    rw [length_append, length_singleton]
  simp only [length_append, length_singleton] at hinside hmore ⊢
  have hbehind := hheld.right
  rw [hwidth] at hbehind
  have hpositive : 0 < (modeBytes (stages.map (stageOf record))).length :=
    modeBytes_length_pos (cons_ne_nil _ _)
  have hfield := field_written h.nul_not_mem hheld.left (by omega)
  have hbehind' := hbehind.right
  rw [Nat.add_assoc] at hbehind'
  obtain ⟨hstages, hcount⟩ := readStages_written h hids hbehind' (by omega)
  rw [← h.stages_eq] at hstages hcount
  have hlast : offset + ((pathBytesOf record.toIndexPath).length + 1) +
      (modeBytes (stages.map (stageOf record))).length < data.length := by
    by_cases hempty : record.stages = [] ∨ digestLength = 0
    · have hmore' := hmore hempty
      omega
    · rw [not_or] at hempty
      have hpos : 0 < ids.flatten.length := by
        rw [hcount]
        exact Nat.mul_pos (Nat.pos_of_ne_zero hempty.2) (length_pos_iff.mpr hempty.1)
      omega
  have hmodeBound : ∀ entry ∈ stages.map (stageOf record), modeOf entry < 2 ^ 32 := by
    intro entry hmem
    obtain ⟨stage, -, rfl⟩ := mem_map.mp hmem
    cases hstage : stageOf record stage with
    | none => exact Nat.two_pow_pos 32
    | some entry => exact (h.mode_pos entry (mem_of_find?_eq_some hstage)).2
  have hmodes := readModes_written hmodeBound hbehind.left hlast
  have hthree : (stages.map (stageOf record)).length = 3 := rfl
  rw [hthree] at hmodes
  unfold readRecord
  rw [hfield]
  dsimp only
  rw [Nat.add_assoc offset, hmodes]
  dsimp only
  rw [Nat.add_assoc offset, hstages, Option.map_some, indexPathOfBytes_written h.wellFormed]
  refine congrArg some (Prod.ext rfl ?_)
  dsimp only
  omega

theorem recordParts_pos {bytes : Bytes}
    (h : recordParts record = .ok bytes) : 0 < bytes.length := by
  obtain ⟨ids, -, rfl⟩ := Tsgit.ResolveUndo.recordParts_ok h
  simp only [length_append, length_singleton]
  omega

/-- **Records that are written are read back**, if the last of them has a stage. -/
theorem parseRecordsFrom_written {records : List ResolveUndoRecord}
    (hfits : ∀ record ∈ records, RecordFits digestLength record) (hdigest : 0 < digestLength)
    (hlast : ∀ record, records.getLast? = some record → record.stages ≠ []) {parts : List Bytes}
    (hparts : records.mapM recordParts = .ok parts) {front : Bytes}
    (hdata : data = front ++ parts.flatten) :
    parseRecordsFrom data digestLength front.length = some records := by
  induction records generalizing front parts with
  | nil =>
    have hnil : [] = parts := Except.ok.inj hparts
    have hend : ¬ front.length < data.length := by
      rw [hdata, ← hnil, flatten_nil, append_nil]
      exact Nat.lt_irrefl _
    rw [parseRecordsFrom, if_neg hend]
  | cons record rest ih =>
    rw [mapM_cons] at hparts
    obtain ⟨bytes, hbytes, hparts⟩ := bind_eq_ok.mp hparts
    obtain ⟨others, hothers, hparts⟩ := bind_eq_ok.mp hparts
    obtain rfl := Except.ok.inj hparts
    rw [flatten_cons] at hdata
    have hlength : data.length = front.length + (bytes.length + others.flatten.length) := by
      rw [hdata, length_append, length_append]
    have hpos := recordParts_pos hbytes
    have hheld : Holds data front.length bytes := hdata ▸ holds_append front bytes others.flatten
    have hmore : record.stages = [] ∨ digestLength = 0 →
        front.length + bytes.length < data.length := by
      intro hempty
      cases rest with
      | nil =>
        have hstages := hlast record rfl
        rcases hempty with hnone | hzero
        · exact absurd hnone hstages
        · omega
      | cons next rest =>
        rw [mapM_cons] at hothers
        obtain ⟨nextBytes, hnext, hothers⟩ := bind_eq_ok.mp hothers
        obtain ⟨last, -, hothers⟩ := bind_eq_ok.mp hothers
        obtain rfl := Except.ok.inj hothers
        have hnextPos := recordParts_pos hnext
        rw [flatten_cons, length_append] at hlength
        omega
    have hread := readRecord_written (hfits record mem_cons_self) hbytes hheld (by omega)
      hmore
    have hnext : front.length + bytes.length = (front ++ bytes).length :=
      length_append.symm
    have hlast' : ∀ other, rest.getLast? = some other → other.stages ≠ [] := by
      intro other hother
      refine hlast other ?_
      rw [getLast?_cons, hother]
      rfl
    have hrest := ih (forall_mem_cons.mp hfits).2 hlast' hothers
      (show data = (front ++ bytes) ++ others.flatten by rw [hdata, append_assoc])
    have hunfold : parseRecordsFrom data digestLength front.length =
        (parseRecordsFrom data digestLength (front.length + bytes.length)).map (record :: ·) := by
      rw [parseRecordsFrom, if_pos (show front.length < data.length by omega)]
      split
      · next hnone =>
        rw [hread] at hnone
        cases hnone
      · next found next hfound =>
        rw [hread] at hfound
        cases hfound
        rfl
    rw [hunfold, hnext, hrest]
    rfl

theorem parseResolveUndo_written {records : List ResolveUndoRecord}
    (hfits : ∀ record ∈ records, RecordFits digestLength record) (hdigest : 0 < digestLength)
    (hlast : ∀ record, records.getLast? = some record → record.stages ≠ []) :
    ∃ bytes, serializeResolveUndo records = .ok bytes ∧
      parseResolveUndo bytes digestLength = some records := by
  have hparts : ∃ parts, records.mapM recordParts = .ok parts := by
    clear hlast
    induction records with
    | nil => exact ⟨[], rfl⟩
    | cons record rest ih =>
      obtain ⟨bytes, hbytes⟩ := (hfits record mem_cons_self).recordParts_ok
      obtain ⟨parts, hparts⟩ := ih (forall_mem_cons.mp hfits).2
      exact ⟨bytes :: parts,
        by rw [mapM_cons, ok_bind_eq hbytes, ok_bind_eq hparts]; rfl⟩
  obtain ⟨parts, hparts⟩ := hparts
  refine ⟨parts.flatten, ok_bind_eq hparts, ?_⟩
  exact @parseRecordsFrom_written _ _ _ hfits hdigest hlast _ hparts [] rfl

end

/-! ### Both extensions -/

/-- **The cache tree and the resolve-undo records round trip**: a tree of at most 1,025 levels, and
records of which the last has a stage. -/
theorem indexExtensions_roundTrip :
    (∀ digestLength root, Fits digestLength (maxCacheTreeDepth + 1) root →
      ∃ bytes, serializeCacheTree root digestLength = .ok bytes ∧
        parseCacheTree bytes digestLength = .ok root) ∧
    (∀ digestLength records, 0 < digestLength →
      (∀ record ∈ records, RecordFits digestLength record) →
      (∀ record, records.getLast? = some record → record.stages ≠ []) →
        ∃ bytes, serializeResolveUndo records = .ok bytes ∧
          parseResolveUndo bytes digestLength = some records) ∧
    ∀ data digestLength, ((∃ root, parseCacheTree data digestLength = .ok root) ∨
        ∃ offset reason, parseCacheTree data digestLength =
          .error (.refusal (.invalidIndexEntry offset reason))) ∧
      (parseResolveUndo data digestLength = none ∨
        ∃ records, parseResolveUndo data digestLength = some records) := by
  refine ⟨fun digestLength root h => parseCacheTree_written h,
    fun digestLength records hdigest hfits hlast => parseResolveUndo_written hfits hdigest hlast,
    fun data digestLength => ⟨parseCacheTree_outcome data digestLength, ?_⟩⟩
  cases parseResolveUndo data digestLength with
  | none => exact Or.inl rfl
  | some records => exact Or.inr ⟨records, rfl⟩

def stagedRecord : ResolveUndoRecord := ⟨⟨['b'], none⟩, [⟨2, 0o100644, replicate 40 'a'⟩]⟩
def bareRecord : ResolveUndoRecord := ⟨⟨['a'], none⟩, []⟩

theorem bareRecord_fits : RecordFits 20 bareRecord where
  wellFormed := fun raw hraw => by cases hraw
  nul_not_mem := by decide
  stages_eq := rfl
  mode_pos := fun entry hmem => absurd hmem not_mem_nil
  length_id := fun entry hmem => absurd hmem not_mem_nil
  digits := fun entry hmem => absurd hmem not_mem_nil

theorem stagedRecord_fits : RecordFits 20 stagedRecord where
  wellFormed := fun raw hraw => by cases hraw
  nul_not_mem := by decide
  stages_eq := rfl
  mode_pos := fun entry hmem => by
    rw [mem_singleton.mp hmem]
    exact ⟨by decide, by decide⟩
  length_id := fun entry hmem => by
    rw [mem_singleton.mp hmem]
    rfl
  digits := fun entry hmem => by
    rw [mem_singleton.mp hmem]
    exact (isObjectId_replicate (by decide)).digits

/-- The deepest chain that is read, and a record without stages before one with a stage. -/
theorem indexExtensions_roundTrip_staged :
    (∃ bytes, serializeCacheTree (chain maxCacheTreeDepth) 20 = .ok bytes ∧
      parseCacheTree bytes 20 = .ok (chain maxCacheTreeDepth)) ∧
    ∃ bytes, serializeResolveUndo [bareRecord, stagedRecord] = .ok bytes ∧
      parseResolveUndo bytes 20 = some [bareRecord, stagedRecord] := by
  refine ⟨indexExtensions_roundTrip.1 20 _ (chain_fits 20 maxCacheTreeDepth), ?_⟩
  refine indexExtensions_roundTrip.2.1 20 [bareRecord, stagedRecord] (by decide)
    (forall_mem_cons.mpr ⟨bareRecord_fits, forall_mem_singleton.mpr stagedRecord_fits⟩) ?_
  intro record hlast
  obtain rfl := Option.some_inj.mp hlast
  exact cons_ne_nil _ _

/-- A chain of 1,026 nodes is not read; nor is a last record whose modes are all zero. -/
theorem indexExtensions_not_roundTrip :
    (Fits 20 (maxCacheTreeDepth + 2) (chain (maxCacheTreeDepth + 1)) ∧ ∃ bytes thrown,
      serializeCacheTree (chain (maxCacheTreeDepth + 1)) 20 = .ok bytes ∧
        parseCacheTree bytes 20 = .error thrown) ∧
    RecordFits 20 bareRecord ∧ ∃ bytes, serializeResolveUndo [bareRecord] = .ok bytes ∧
      parseResolveUndo bytes 20 = none := by
  refine ⟨⟨chain_fits 20 (maxCacheTreeDepth + 1), parseCacheTree_chain 20⟩, bareRecord_fits,
    [0x61, 0x00, 0x30, 0x00, 0x30, 0x00, 0x30, 0x00], by decide, ?_⟩
  have hread : readRecord [0x61, 0x00, 0x30, 0x00, 0x30, 0x00, 0x30, 0x00] 20 0 = none := by
    decide +kernel
  rw [parseResolveUndo, parseRecordsFrom, if_pos (by decide)]
  split
  · rfl
  · next record next hfound =>
    rw [hread] at hfound
    cases hfound

end Tsgit.ResolveUndo
