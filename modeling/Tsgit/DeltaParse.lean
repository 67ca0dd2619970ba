import Tsgit.DeltaRoundTrip

/-!
# Parsing and Applying a Delta

`applyDelta` and `parseDelta` read the same bytes with loops of their own. They agree: a
delta applies exactly when it parses to instructions that fit the base and fill the target.
-/

namespace Tsgit.Delta

open List

/-- How many bytes an instruction writes. -/
def DeltaInstruction.size : DeltaInstruction → ℕ
  | .copy _ size => size
  | .insert data => data.length

/-- The bytes an instruction writes. -/
def DeltaInstruction.denote (base : Bytes) : DeltaInstruction → Bytes
  | .copy offset size => subarray base offset (offset + size)
  | .insert data => data

/-- A copy stays inside the base. -/
def DeltaInstruction.InBounds (base : Bytes) : DeltaInstruction → Prop
  | .copy offset size => offset + size ≤ base.length
  | .insert _ => True

def denoteAll (base : Bytes) (instructions : List DeltaInstruction) : Bytes :=
  (instructions.map (DeltaInstruction.denote base)).flatten

def totalSize (instructions : List DeltaInstruction) : ℕ :=
  (instructions.map DeltaInstruction.size).sum

theorem DeltaInstruction.InBounds.length_denote {base : Bytes} {instruction : DeltaInstruction}
    (h : instruction.InBounds base) : (instruction.denote base).length = instruction.size := by
  cases instruction with
  | copy offset size =>
    rw [denote, length_subarray offset h, Nat.add_sub_cancel_left]
    rfl
  | insert data => rfl

variable {instructions : List DeltaInstruction}

theorem length_denoteAll {base : Bytes}
    (h : ∀ instruction ∈ instructions, instruction.InBounds base) :
    (denoteAll base instructions).length = totalSize instructions := by
  rw [denoteAll, totalSize, length_flatten, map_map]
  congr 1
  exact map_congr_left fun instruction hmem => (h instruction hmem).length_denote

/-! ### The two loops -/

/-- **One turn**: applying an instruction is parsing it, checking it, and writing what it denotes.
-/
theorem applyStep_iff {base delta : Bytes} {targetLength pos : ℕ} {cmd : UInt8}
    {result result' : Bytes} {resultPos nextPos nextResultPos : ℕ} :
    applyStep base delta targetLength cmd pos result resultPos =
        .ok (result', nextPos, nextResultPos) ↔
      ∃ instruction, parseInstruction delta cmd pos = .ok (instruction, nextPos) ∧
        instruction.InBounds base ∧ resultPos + instruction.size ≤ targetLength ∧
        result' = overwrite result (instruction.denote base) resultPos ∧
        nextResultPos = resultPos + instruction.size := by
  unfold applyStep parseInstruction
  by_cases hcopy : hasBit cmd.toNat 0x80 = true
  · rw [if_pos hcopy, if_pos hcopy]
    cases hfields : decodeCopyFields delta pos cmd.toNat with
    | error e =>
      simp only [bind, Except.bind, reduceCtorEq, false_and, exists_false]
    | ok fields =>
      obtain ⟨offset, size, next⟩ := fields
      simp only [bind, Except.bind, validateCopyBounds, Except.ok.injEq, Prod.mk.injEq]
      by_cases hbase : offset + size > base.length
      · rw [if_pos hbase]
        constructor
        · intro h
          cases h
        · rintro ⟨_, ⟨rfl, -⟩, hin, -⟩
          exact absurd hin (Nat.not_le_of_gt hbase)
      · rw [if_neg hbase]
        by_cases htarget : resultPos + size > targetLength
        · rw [if_pos htarget]
          constructor
          · intro h
            cases h
          · rintro ⟨_, ⟨rfl, -⟩, -, hfit, -⟩
            exact absurd hfit (Nat.not_le_of_gt htarget)
        · rw [if_neg htarget]
          constructor
          · intro h
            cases h
            exact ⟨_, ⟨rfl, rfl⟩, Nat.le_of_not_gt hbase, Nat.le_of_not_gt htarget, rfl, rfl⟩
          · rintro ⟨_, ⟨rfl, rfl⟩, -, -, rfl, rfl⟩
            rfl
  · rw [if_neg hcopy, if_neg hcopy, applyInsert]
    by_cases hzero : cmd.toNat = 0
    · rw [if_pos hzero, if_pos hzero]
      simp
    rw [if_neg hzero, if_neg hzero]
    by_cases hshort : pos + cmd.toNat > delta.length
    · rw [if_pos hshort, if_pos hshort]
      simp
    rw [if_neg hshort, if_neg hshort]
    have hlength : (subarray delta pos (pos + cmd.toNat)).length = cmd.toNat := by
      rw [length_subarray pos (Nat.le_of_not_gt hshort), Nat.add_sub_cancel_left]
    simp only [Except.ok.injEq, Prod.mk.injEq]
    by_cases htarget : resultPos + cmd.toNat > targetLength
    · rw [if_pos htarget]
      constructor
      · intro h
        cases h
      · rintro ⟨_, ⟨rfl, -⟩, -, hfit, -⟩
        rw [DeltaInstruction.size, hlength] at hfit
        exact absurd hfit (Nat.not_le_of_gt htarget)
    · rw [if_neg htarget]
      constructor
      · intro h
        cases h
        refine ⟨_, ⟨rfl, rfl⟩, trivial, ?_, rfl, ?_⟩
        · rw [DeltaInstruction.size, hlength]
          exact Nat.le_of_not_gt htarget
        · rw [DeltaInstruction.size, hlength]
      · rintro ⟨_, ⟨rfl, rfl⟩, -, -, rfl, rfl⟩
        rw [DeltaInstruction.size, hlength]
        rfl

theorem parseLoop_iff {delta : Bytes} {pos : ℕ} :
    parseLoop delta pos = .ok instructions ↔ delta.length ≤ pos ∧ instructions = [] ∨
      ∃ (h : pos < delta.length) (instruction : DeltaInstruction) (nextPos : ℕ)
        (rest : List DeltaInstruction),
        parseInstruction delta delta[pos] (pos + 1) = .ok (instruction, nextPos) ∧
          parseLoop delta nextPos = .ok rest ∧ instructions = instruction :: rest := by
  rw [parseLoop]
  by_cases hpos : pos < delta.length
  · rw [dif_pos hpos]
    split
    · next e he =>
      constructor
      · intro h
        cases h
      · rintro (⟨hle, -⟩ | ⟨_, instruction, nextPos, rest, hstep, -⟩)
        · exact absurd hpos (Nat.not_lt_of_le hle)
        · rw [hstep] at he
          cases he
    · next instruction nextPos he =>
      constructor
      · intro h
        cases hrest : parseLoop delta nextPos with
        | error e =>
          rw [hrest] at h
          cases h
        | ok rest =>
          rw [hrest] at h
          cases h
          exact .inr ⟨hpos, instruction, nextPos, rest, he, hrest, rfl⟩
      · rintro (⟨hle, -⟩ | ⟨_, instruction', nextPos', rest, hstep, hrest, rfl⟩)
        · exact absurd hpos (Nat.not_lt_of_le hle)
        · rw [hstep] at he
          cases he
          rw [hrest]
  · rw [dif_neg hpos]
    constructor
    · intro h
      cases h
      exact .inl ⟨Nat.le_of_not_lt hpos, rfl⟩
    · rintro (⟨-, rfl⟩ | ⟨h, -⟩)
      · rfl
      · exact absurd h hpos

theorem applyLoop_unfold {base delta : Bytes} {targetLength pos : ℕ} {result : Bytes}
    {resultPos : ℕ} {final : Bytes × ℕ} :
    applyLoop base delta targetLength pos result resultPos = .ok final ↔
      delta.length ≤ pos ∧ final = (result, resultPos) ∨
      ∃ (h : pos < delta.length) (result' : Bytes) (nextPos nextResultPos : ℕ),
        applyStep base delta targetLength delta[pos] (pos + 1) result resultPos =
            .ok (result', nextPos, nextResultPos) ∧
          applyLoop base delta targetLength nextPos result' nextResultPos = .ok final := by
  rw [applyLoop]
  by_cases hpos : pos < delta.length
  · rw [dif_pos hpos]
    split
    · next e he =>
      constructor
      · intro h
        cases h
      · rintro (⟨hle, -⟩ | ⟨_, _, _, _, hstep, -⟩)
        · exact absurd hpos (Nat.not_lt_of_le hle)
        · rw [hstep] at he
          cases he
    · next result' nextPos nextResultPos he =>
      constructor
      · intro h
        exact .inr ⟨hpos, result', nextPos, nextResultPos, he, h⟩
      · rintro (⟨hle, -⟩ | ⟨_, _, _, _, hstep, hrest⟩)
        · exact absurd hpos (Nat.not_lt_of_le hle)
        · rw [hstep] at he
          cases he
          exact hrest
  · rw [dif_neg hpos]
    constructor
    · intro h
      cases h
      exact .inl ⟨Nat.le_of_not_lt hpos, rfl⟩
    · rintro (⟨-, rfl⟩ | ⟨h, -⟩)
      · rfl
      · exact absurd h hpos

/-- **The loops agree**: the decoder succeeds exactly when the rest parses to instructions that stay
inside. -/
theorem applyLoop_iff {base delta : Bytes} {targetLength : ℕ} (pos : ℕ) {result : Bytes}
    {resultPos : ℕ} {final : Bytes × ℕ} (hlength : result.length = targetLength)
    (hfilled : resultPos ≤ targetLength) :
    applyLoop base delta targetLength pos result resultPos = .ok final ↔
      ∃ instructions, parseLoop delta pos = .ok instructions ∧
        (∀ instruction ∈ instructions, instruction.InBounds base) ∧
        resultPos + totalSize instructions ≤ targetLength ∧
        final = (overwrite result (denoteAll base instructions) resultPos,
          resultPos + totalSize instructions) := by
  induction hn : delta.length - pos using Nat.strongRecOn generalizing pos result resultPos with
  | ind n ih =>
    have hempty : overwrite result (denoteAll base []) resultPos = result := by
      simp [overwrite, denoteAll]
    rw [applyLoop_unfold]
    constructor
    · rintro (⟨hle, rfl⟩ | ⟨hpos, result', nextPos, nextResultPos, hstep, hrest⟩)
      · refine ⟨[], parseLoop_iff.mpr (.inl ⟨hle, rfl⟩), fun _ h => ?_, hfilled, ?_⟩
        · cases h
        · rw [hempty]
          rfl
      obtain ⟨instruction, hparse, hin, hfit, rfl, rfl⟩ := applyStep_iff.mp hstep
      have hadvance := le_of_parseInstruction hparse
      have hone : resultPos + (instruction.denote base).length ≤ result.length := by
        rw [hin.length_denote, hlength]
        exact hfit
      obtain ⟨rest, hrestParse, hrestIn, hrestFit, rfl⟩ := (ih _ (by omega) nextPos
        ((length_overwrite hone).trans hlength) hfit rfl).mp hrest
      have hall : ∀ i ∈ instruction :: rest, i.InBounds base := by
        rintro i hi
        rcases mem_cons.mp hi with rfl | hi
        · exact hin
        · exact hrestIn i hi
      refine ⟨instruction :: rest, parseLoop_iff.mpr (.inr ⟨hpos, instruction, nextPos, rest,
        hparse, hrestParse, rfl⟩), hall, ?_, ?_⟩
      · rw [totalSize, map_cons, sum_cons, ← Nat.add_assoc]
        exact hrestFit
      · have hwrite := @overwrite_overwrite _ result (instruction.denote base) (denoteAll base rest)
          resultPos hone
        rw [hin.length_denote] at hwrite
        rw [hwrite, denoteAll, denoteAll, map_cons, flatten_cons, totalSize, totalSize,
          map_cons, sum_cons, Nat.add_assoc]
    · rintro ⟨instructions, hparse, hin, hfit, rfl⟩
      rcases parseLoop_iff.mp hparse with ⟨hle, rfl⟩ |
        ⟨hpos, instruction, nextPos, rest, hstep, hrest, rfl⟩
      · refine .inl ⟨hle, ?_⟩
        rw [hempty]
        rfl
      rw [totalSize, map_cons, sum_cons, ← Nat.add_assoc] at hfit
      have hhead := hin instruction mem_cons_self
      have hadvance := le_of_parseInstruction hstep
      have hfirst : resultPos + instruction.size ≤ targetLength :=
        Nat.le_trans (Nat.le_add_right _ _) hfit
      have hone : resultPos + (instruction.denote base).length ≤ result.length := by
        rw [hhead.length_denote, hlength]
        exact hfirst
      refine .inr ⟨hpos, _, nextPos, _, applyStep_iff.mpr ⟨instruction, hstep, hhead, hfirst,
        rfl, rfl⟩, ?_⟩
      refine (ih _ (by omega) nextPos ((length_overwrite hone).trans hlength) hfirst rfl).mpr
        ⟨rest, hrest, (forall_mem_cons.mp hin).2, hfit, ?_⟩
      have hwrite := @overwrite_overwrite _ result (instruction.denote base) (denoteAll base rest)
          resultPos hone
      rw [hhead.length_denote] at hwrite
      rw [hwrite, denoteAll, denoteAll, map_cons, flatten_cons, totalSize, totalSize,
        map_cons, sum_cons, Nat.add_assoc]

/-- The parsed delta fits the base, and its instructions fill the target. -/
structure DeltaParsed.Fits (base : Bytes) (parsed : DeltaParsed) : Prop where
  sourceLength : parsed.sourceLength = base.length
  targetLength : parsed.targetLength ≤ maxTargetLength
  inBounds : ∀ instruction ∈ parsed.instructions, instruction.InBounds base
  total : totalSize parsed.instructions = parsed.targetLength

theorem parseDelta_iff {delta : Bytes} {sourceLength targetLength o1 o2 : ℕ} {parsed : DeltaParsed}
    (hsource : readVariableLengthInt delta 0 = .ok (sourceLength, o1))
    (htarget : readVariableLengthInt delta o1 = .ok (targetLength, o2)) :
    parseDelta delta = .ok parsed ↔ ∃ instructions, parseLoop delta o2 = .ok instructions ∧
      parsed = ⟨sourceLength, targetLength, instructions⟩ := by
  simp only [parseDelta, bind, Except.bind, hsource, htarget]
  cases parseLoop delta o2 with
  | error e => simp
  | ok instructions =>
    constructor
    · intro h
      cases h
      exact ⟨instructions, rfl, rfl⟩
    · rintro ⟨found, hfound, rfl⟩
      cases hfound
      rfl

/-- **A delta applies exactly when it parses to instructions that fit.** -/
theorem applyDelta_iff {base delta result : Bytes} :
    applyDelta base delta = .ok result ↔
      ∃ parsed, parseDelta delta = .ok parsed ∧ parsed.Fits base ∧
        result = denoteAll base parsed.instructions := by
  cases hsource : readVariableLengthInt delta 0 with
  | error e => simp [applyDelta, parseDelta, bind, Except.bind, hsource]
  | ok source =>
    obtain ⟨sourceLength, o1⟩ := source
    cases htarget : readVariableLengthInt delta o1 with
    | error e => simp [applyDelta, parseDelta, bind, Except.bind, hsource, htarget]
    | ok target =>
      obtain ⟨targetLength, o2⟩ := target
      have hloop := @applyLoop_iff base delta targetLength o2 (replicate targetLength 0) 0
      simp only [parseDelta_iff hsource htarget]
      simp only [applyDelta, bind, Except.bind, hsource, htarget, validateDeltaHeader]
      by_cases hlength : base.length ≠ sourceLength
      · rw [if_pos hlength]
        constructor
        · intro h
          cases h
        · rintro ⟨_, ⟨instructions, -, rfl⟩, hfits, -⟩
          exact absurd hfits.sourceLength.symm hlength
      rw [if_neg hlength]
      by_cases hmax : targetLength > maxTargetLength
      · rw [if_pos hmax]
        constructor
        · intro h
          cases h
        · rintro ⟨_, ⟨instructions, -, rfl⟩, hfits, -⟩
          exact absurd hfits.targetLength (Nat.not_le_of_gt hmax)
      rw [if_neg hmax]
      dsimp only
      constructor
      · intro h
        cases hrun : applyLoop base delta targetLength o2 (replicate targetLength 0) 0 with
        | error e =>
          rw [hrun] at h
          cases h
        | ok final =>
          obtain ⟨instructions, hparse, hin, -, rfl⟩ :=
            (hloop length_replicate (Nat.zero_le _)).mp hrun
          rw [hrun] at h
          dsimp only at h
          rw [Nat.zero_add] at h
          split at h
          · cases h
          · next hnot =>
            have htotal : totalSize instructions = targetLength := not_not.mp hnot
            cases h
            refine ⟨_, ⟨instructions, hparse, rfl⟩,
              ⟨(not_not.mp hlength).symm, Nat.le_of_not_gt hmax, hin, htotal⟩, ?_⟩
            refine overwrite_all ?_
            rw [length_denoteAll hin, htotal, length_replicate]
      · rintro ⟨_, ⟨instructions, hparse, rfl⟩, hfits, rfl⟩
        have htotal : totalSize instructions = targetLength := hfits.total
        have hrun := (hloop length_replicate (Nat.zero_le _)).mpr
          ⟨instructions, hparse, hfits.inBounds, by rw [Nat.zero_add, htotal], rfl⟩
        rw [hrun]
        dsimp only
        rw [Nat.zero_add, if_neg (not_not.mpr htotal), overwrite_all]
        rw [length_denoteAll hfits.inBounds, htotal, length_replicate]

/-! ### Writing instructions -/

/-- What the encoder of an instruction accepts. -/
def DeltaInstruction.WellFormed : DeltaInstruction → Prop
  | .copy offset size => 0 < size ∧ size ≤ maxCopyBytes ∧ offset ≤ 0xffffffff
  | .insert data => 0 < data.length ∧ data.length ≤ maxInsertBytes

theorem encodeDeltaInstruction_spec {instruction : DeltaInstruction} (h : instruction.WellFormed) :
    ∃ cmd fields, encodeDeltaInstruction instruction = .ok (cmd :: fields) ∧
      ∀ pre rest : Bytes, parseInstruction (pre ++ cmd :: (fields ++ rest)) cmd (pre.length + 1) =
        .ok (instruction, pre.length + 1 + fields.length) := by
  cases instruction with
  | copy offset size =>
    obtain ⟨hpos, hsize, hoffset⟩ := h
    obtain ⟨cmd, fields, henc, hbit, hfields⟩ :=
      decodeCopyFields_encodeCopy (show offset < 2 ^ 32 by omega) hpos hsize
    refine ⟨cmd, fields, ?_, fun pre rest => ?_⟩
    · rw [encodeDeltaInstruction, assertValidCopy, if_neg (Nat.ne_of_gt hpos),
        if_neg (Nat.not_lt_of_le hsize), if_neg (Nat.not_lt_of_le hoffset), ← henc]
      rfl
    · have hread := hfields (pre ++ [cmd]) rest
      rw [append_assoc, singleton_append, length_append, length_singleton]
        at hread
      rw [parseInstruction, if_pos hbit, hread]
      rfl
  | insert data =>
    obtain ⟨hpos, hlen⟩ := h
    obtain ⟨hbit, hcmd⟩ := hasBit_insert data.length hlen
    refine ⟨UInt8.ofNat data.length, data, ?_, fun pre rest => ?_⟩
    · rw [encodeDeltaInstruction, assertValidInsert, if_neg (Nat.ne_of_gt hpos),
        if_neg (Nat.not_lt_of_le hlen)]
      rfl
    have hdata : subarray (pre ++ UInt8.ofNat data.length :: (data ++ rest)) (pre.length + 1)
        (pre.length + 1 + data.length) = data := by
      have hwindow := subarray_append_left (pre ++ [UInt8.ofNat data.length]) data rest
      simpa [append_assoc] using hwindow
    rw [parseInstruction, hbit, if_neg (by decide), hcmd, if_neg (Nat.ne_of_gt hpos),
      if_neg (by simp only [length_append, length_cons]; omega), hdata]

theorem parseLoop_encode
    (h : ∀ instruction ∈ instructions, instruction.WellFormed) :
    ∃ encoded, instructions.mapM encodeDeltaInstruction = .ok encoded ∧
      ∀ pre : Bytes, parseLoop (pre ++ encoded.flatten) pre.length = .ok instructions := by
  induction instructions with
  | nil =>
    refine ⟨[], rfl, fun pre => parseLoop_iff.mpr (.inl ⟨?_, rfl⟩)⟩
    simp
  | cons instruction rest ih =>
    obtain ⟨cmd, fields, hencode, hparse⟩ :=
      encodeDeltaInstruction_spec (h instruction mem_cons_self)
    obtain ⟨encoded, hrest, hloop⟩ := ih (forall_mem_cons.mp h).2
    refine ⟨(cmd :: fields) :: encoded, ?_, fun pre => parseLoop_iff.mpr (.inr ?_)⟩
    · rw [mapM_cons, hencode, hrest]
      rfl
    have hsplit : pre ++ ((cmd :: fields) :: encoded).flatten =
        pre ++ cmd :: (fields ++ encoded.flatten) := by simp
    have hlt : pre.length < (pre ++ cmd :: (fields ++ encoded.flatten)).length := by simp
    have hcmd : (pre ++ cmd :: (fields ++ encoded.flatten))[pre.length] = cmd := by simp
    rw [hsplit]
    refine ⟨hlt, instruction, pre.length + 1 + fields.length, rest, ?_, ?_, rfl⟩
    · rw [hcmd]
      exact hparse pre encoded.flatten
    · have hnext := hloop (pre ++ cmd :: fields)
      rwa [append_assoc, cons_append, length_append, length_cons,
        Nat.add_comm fields.length 1, ← Nat.add_assoc] at hnext

theorem parseDelta_serialized {sourceLength targetLength : ℕ} {source target : Bytes}
    (hsource : encodeDeltaVarInt sourceLength = .ok source)
    (htarget : encodeDeltaVarInt targetLength = .ok target)
    (h : ∀ instruction ∈ instructions, instruction.WellFormed) :
    ∃ bytes, serializeDelta sourceLength targetLength instructions = .ok bytes ∧ parseDelta bytes =
        .ok ⟨sourceLength % 2 ^ 32, targetLength % 2 ^ 32, instructions⟩ := by
  obtain ⟨encoded, hencode, hloop⟩ := parseLoop_encode h
  refine ⟨source ++ (target ++ encoded.flatten), ?_, ?_⟩
  · have hparts := assembleParts_eq (source :: target :: encoded)
    rw [length_flatten] at hparts
    simp only [serializeDelta, bind, Except.bind, hsource, htarget, hencode]
    rw [hparts]
    rfl
  have hread1 := readVariableLengthInt_of_encode hsource [] (target ++ encoded.flatten)
  have hread2 := readVariableLengthInt_of_encode htarget source encoded.flatten
  rw [nil_append, length_nil, Nat.zero_add] at hread1
  refine (parseDelta_iff hread1 hread2).mpr ⟨instructions, ?_, rfl⟩
  have hrest := hloop (source ++ target)
  rwa [append_assoc, length_append] at hrest

/-- **The round trip** gives back the lengths exactly when they are 32-bit values. -/
theorem parseDelta_serializeDelta {sourceLength targetLength : ℕ}
    (h : ∀ instruction ∈ instructions, instruction.WellFormed) :
    (∃ bytes, serializeDelta sourceLength targetLength instructions = .ok bytes ∧
        parseDelta bytes = .ok ⟨sourceLength, targetLength, instructions⟩) ↔
      sourceLength < 2 ^ 32 ∧ targetLength < 2 ^ 32 := by
  constructor
  · rintro ⟨bytes, hbytes, hparse⟩
    cases hsource : encodeDeltaVarInt sourceLength with
    | error e =>
      rw [serializeDelta, hsource] at hbytes
      cases hbytes
    | ok source =>
      cases htarget : encodeDeltaVarInt targetLength with
      | error e =>
        simp only [serializeDelta, bind, Except.bind, hsource, htarget] at hbytes
        cases hbytes
      | ok target =>
        obtain ⟨bytes', hbytes', hparse'⟩ := parseDelta_serialized hsource htarget h
        obtain rfl := Except.ok.inj (hbytes.symm.trans hbytes')
        rw [hparse, Except.ok.injEq, DeltaParsed.mk.injEq] at hparse'
        constructor
        · rw [hparse'.1]
          exact Nat.mod_lt _ (by decide)
        · rw [hparse'.2.1]
          exact Nat.mod_lt _ (by decide)
  · rintro ⟨hsource, htarget⟩
    obtain ⟨source, hsource', -⟩ := readVariableLengthInt_encodeDeltaVarInt hsource
    obtain ⟨target, htarget', -⟩ := readVariableLengthInt_encodeDeltaVarInt htarget
    have hround := parseDelta_serialized hsource' htarget' h
    rwa [Nat.mod_eq_of_lt hsource, Nat.mod_eq_of_lt htarget] at hround

/-- **Both directions**: applying a delta is parsing it and writing what its instructions denote,
and written instructions parse back for lengths of 32 bits. -/
theorem applyDelta_iff_and_serializeDelta_iff (base delta result : Bytes)
    (sourceLength targetLength : ℕ) {instructions : List DeltaInstruction}
    (hwell : ∀ instruction ∈ instructions, instruction.WellFormed) :
    (applyDelta base delta = .ok result ↔
      ∃ parsed, parseDelta delta = .ok parsed ∧ parsed.Fits base ∧
        result = denoteAll base parsed.instructions) ∧
    ((∃ bytes, serializeDelta sourceLength targetLength instructions = .ok bytes ∧
        parseDelta bytes = .ok ⟨sourceLength, targetLength, instructions⟩) ↔
      sourceLength < 2 ^ 32 ∧ targetLength < 2 ^ 32) :=
  ⟨applyDelta_iff, parseDelta_serializeDelta hwell⟩

/-- A literal and a copy of a three-byte base, written and parsed back. -/
theorem applyDelta_iff_and_serializeDelta_iff_small :
    ∃ bytes, serializeDelta 3 5 [.insert [7, 8], .copy 0 3] = .ok bytes ∧
      parseDelta bytes = .ok ⟨3, 5, [.insert [7, 8], .copy 0 3]⟩ := by
  refine ((applyDelta_iff_and_serializeDelta_iff [] [] [] 3 5 ?_).2).mpr ⟨by decide, by decide⟩
  rintro instruction hmem
  rcases mem_cons.mp hmem with rfl | hmem
  · exact ⟨by decide, by decide⟩
  · rw [mem_singleton.mp hmem]
    exact ⟨by decide, by decide, by decide⟩

/-- A source length of `2 ^ 32` is written in five bytes and read as 0. -/
theorem parseDelta_serializeDelta_wraps :
    ∃ bytes, serializeDelta (2 ^ 32) 0 [] = .ok bytes ∧ parseDelta bytes = .ok ⟨0, 0, []⟩ ∧
      parseDelta bytes ≠ .ok ⟨2 ^ 32, 0, []⟩ := by
  obtain ⟨bytes, hbytes, hparse⟩ := parseDelta_serialized
    (rfl : encodeDeltaVarInt (2 ^ 32) = .ok [0x80, 0x80, 0x80, 0x80, 0x10])
    (rfl : encodeDeltaVarInt 0 = .ok [0]) fun _ h => absurd h not_mem_nil
  refine ⟨bytes, hbytes, hparse, fun hsame => ?_⟩
  rw [hparse] at hsame
  cases hsame

end Tsgit.Delta
