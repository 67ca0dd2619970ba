import Tsgit.BitLanes
import Tsgit.Midx
import Tsgit.RunLengthWords

/-!
# EWAH Streams

The compressed bit sets of a bitmap (`src/domain/storage/ewah.ts`). A stream is folded into lanes
of 32 bits that the caller owns, a run cut off at their end, or walked for its highest bit.
-/

namespace Tsgit.Ewah

open BitLanes List Midx RunLengthWords

def ewahStreamHeaderSize : ℕ := 8
def ewahWordSize : ℕ := 8
def ewahPositionWordSize : ℕ := 4
def lanesPerWord : ℕ := 2
def laneBits : ℕ := 32
def fullLane : UInt32 := 0xffffffff
def noSetBit : ℤ := -1

structure EwahStream where
  bitSize : ℕ
  wordCount : ℕ
  wordsOffset : ℕ
  endOffset : ℕ
  deriving DecidableEq

inductive EwahFoldOp where
  | or
  | xor
  deriving DecidableEq

def invalidPackBitmap {α : Type} (check : BitmapCheck) (reason : String) : Except Thrown α :=
  .error (.refusal (.invalidPackBitmap check reason))

def readEwahStream (bytes : Bytes) (start : ℕ) : Except Thrown EwahStream :=
  if start + ewahStreamHeaderSize > bytes.length then
    invalidPackBitmap .stream s!"truncated stream descriptor at offset {start}"
  else do
    let bitSize ← getUint32 bytes start
    let wordCount ← getUint32 bytes (start + 4)
    let wordsOffset := start + ewahStreamHeaderSize
    let endOffset := wordsOffset + wordCount * ewahWordSize + ewahPositionWordSize
    if endOffset > bytes.length then
      invalidPackBitmap .stream
        s!"stream at offset {start} declares {wordCount} word(s), which overruns the buffer"
    else pure ⟨bitSize, wordCount, wordsOffset, endOffset⟩

structure RunLengthWord where
  runValue : ℕ
  cleanWordCount : ℕ
  literalWordCount : ℕ

/-- The fields of a marker; the count of the run crosses the halves. -/
def decodeRunLengthWord (high low : ℕ) : RunLengthWord where
  runValue := low &&& 1
  cleanWordCount := low >>> 1 ||| (high &&& 1) <<< 31
  literalWordCount := high >>> 1

def readWordHalves (bytes : Bytes) (offset : ℕ) : Except Thrown (ℕ × ℕ) := do
  let high ← getUint32 bytes offset
  let low ← getUint32 bytes (offset + 4)
  pure (high, low)

def applyFold (current value : UInt32) : EwahFoldOp → UInt32
  | .or => current ||| value
  | .xor => current ^^^ value

def foldLane (into : List UInt32) (lane : ℕ) (value : UInt32) (op : EwahFoldOp) : List UInt32 :=
  into.set lane (applyFold ((into[lane]?).getD 0) value op)

def fillFrom (op : EwahFoldOp) : ℕ → ℕ → List UInt32 → List UInt32
  | 0, _, into => into
  | left + 1, lane, into => fillFrom op left (lane + 1) (foldLane into lane fullLane op)

def fillClean (into : List UInt32) (start count : ℕ) (op : EwahFoldOp) : ℕ × List UInt32 :=
  let stop := min (start + count) into.length
  (stop, fillFrom op (stop - start) start into)

def foldLiteralLane (into : List UInt32) (lane : ℕ) (value : UInt32) (op : EwahFoldOp) :
    ℕ × List UInt32 :=
  let into' := if lane < into.length then foldLane into lane value op else into
  (min (lane + 1) into.length, into')

def availableWordCount (bytes : Bytes) (wordsOffset : ℕ) : ℕ :=
  (bytes.length - wordsOffset) / ewahWordSize

section

variable {σ : Type}

/-- The inner loop of both walks: the literal words behind a marker, as far as there are words. -/
def walkLiterals (literal : σ → ℕ → ℕ → σ) (bytes : Bytes) (wordsOffset wordLimit : ℕ) :
    ℕ → ℕ × σ → Except Thrown (ℕ × σ)
  | 0, state => .ok state
  | count + 1, (wordIndex, state) =>
    if wordIndex < wordLimit then do
      let (high, low) ← readWordHalves bytes (wordsOffset + wordIndex * ewahWordSize)
      walkLiterals literal bytes wordsOffset wordLimit count (wordIndex + 1, literal state high low)
    else .ok (wordIndex, state)

/-- One turn of the outer loop of both walks. -/
def walkTurn (clean : σ → ℕ → ℕ → σ) (literal : σ → ℕ → ℕ → σ) (bytes : Bytes)
    (wordsOffset wordLimit : ℕ) (s : ℕ × σ) : Except Thrown (Run.Turn (ℕ × σ) σ) :=
  if s.1 < wordLimit then do
    let (high, low) ← readWordHalves bytes (wordsOffset + s.1 * ewahWordSize)
    let rlw := decodeRunLengthWord high low
    let next ← walkLiterals literal bytes wordsOffset wordLimit rlw.literalWordCount
      (s.1 + 1, clean s.2 rlw.runValue rlw.cleanWordCount)
    pure (.again next)
  else .ok (.stop s.2)

/-- What `foldEwahStream` and `maxSetBitPosition` have in common. -/
def walkStream (clean : σ → ℕ → ℕ → σ) (literal : σ → ℕ → ℕ → σ) (fuel : ℕ)
    (bytes : Bytes) (stream : EwahStream) (state : σ) : Run Thrown σ :=
  let wordLimit := min stream.wordCount (availableWordCount bytes stream.wordsOffset)
  Run.loop (fun s => Run.ofExcept (walkTurn clean literal bytes stream.wordsOffset wordLimit s)) fuel
    (0, state)

end

/-- A destination, and the lane that the walk has come to. -/
abbrev FoldState := ℕ × List UInt32

def foldClean (op : EwahFoldOp) (state : FoldState) (runValue cleanWordCount : ℕ) : FoldState :=
  if runValue = 1 then fillClean state.2 state.1 (cleanWordCount * lanesPerWord) op
  else (min (state.1 + cleanWordCount * lanesPerWord) state.2.length, state.2)

/-- The low half goes first. -/
def foldLiteral (op : EwahFoldOp) (state : FoldState) (high low : ℕ) : FoldState :=
  let (lane, into) := foldLiteralLane state.2 state.1 (UInt32.ofNat low) op
  foldLiteralLane into lane (UInt32.ofNat high) op

def foldEwahStream (fuel : ℕ) (bytes : Bytes) (stream : EwahStream) (into : List UInt32)
    (op : EwahFoldOp) : Run Thrown (List UInt32) := do
  let (_, result) ← walkStream (foldClean op) (foldLiteral op) fuel bytes stream (0, into)
  pure result

def clz32 (word : ℕ) : ℕ := if word = 0 then 32 else 31 - word.log2

def highestSetBitInLane (lane word : ℕ) : ℤ :=
  if word = 0 then noSetBit else (toNumber (lane * laneBits + (laneBits - 1 - clz32 word)) : ℕ)

/-- The highest place so far, and the lane that the walk has come to. -/
structure MaxState where
  lane : ℕ
  max : ℤ

def maxClean (state : MaxState) (runValue cleanWordCount : ℕ) : MaxState :=
  let cleanLanes := cleanWordCount * lanesPerWord
  let max := if runValue = 1 ∧ cleanLanes > 0 then
    (toNumber (toNumber (state.lane + cleanLanes) * laneBits - 1) : ℤ) else state.max
  ⟨toNumber (state.lane + cleanLanes), max⟩

def maxLiteral (state : MaxState) (high low : ℕ) : MaxState where
  lane := toNumber (state.lane + lanesPerWord)
  max := max (max state.max (highestSetBitInLane state.lane low))
    (highestSetBitInLane (toNumber (state.lane + 1)) high)

def maxSetBitPosition (fuel : ℕ) (bytes : Bytes) (stream : EwahStream) : Run Thrown ℤ := do
  let state ← walkStream maxClean maxLiteral fuel bytes stream ⟨0, noSetBit⟩
  pure state.max

/-! ### The words of a stream -/

def wordLimitOf (bytes : Bytes) (stream : EwahStream) : ℕ :=
  min stream.wordCount (availableWordCount bytes stream.wordsOffset)

/-- A word of 64 bits, the high half first. -/
def wordAt (bytes : Bytes) (wordsOffset k : ℕ) : ℕ :=
  bigEndian (subarray bytes (wordsOffset + k * 8) (wordsOffset + k * 8 + 8))

def streamWords (bytes : Bytes) (stream : EwahStream) : List ℕ :=
  (range (wordLimitOf bytes stream)).map (wordAt bytes stream.wordsOffset)

theorem length_streamWords (bytes : Bytes) (stream : EwahStream) :
    (streamWords bytes stream).length = wordLimitOf bytes stream := by
  rw [streamWords, length_map, length_range]

theorem wordAt_lt (bytes : Bytes) (wordsOffset k : ℕ) : wordAt bytes wordsOffset k < 2 ^ 64 := by
  refine (bigEndian_lt _).trans_le ?_
  have hlength : (subarray bytes (wordsOffset + k * 8) (wordsOffset + k * 8 + 8)).length ≤ 8 := by
    rw [subarray, length_take]
    omega
  calc 256 ^ (subarray bytes (wordsOffset + k * 8) (wordsOffset + k * 8 + 8)).length
      ≤ 256 ^ 8 := Nat.pow_le_pow_right (by decide) hlength
    _ = 2 ^ 64 := by decide

theorem streamWords_lt (bytes : Bytes) (stream : EwahStream) :
    ∀ word ∈ streamWords bytes stream, word < 2 ^ 64 := by
  intro word hmem
  obtain ⟨k, -, rfl⟩ := mem_map.mp hmem
  exact wordAt_lt bytes stream.wordsOffset k

theorem drop_streamWords {bytes : Bytes} {stream : EwahStream} {k : ℕ}
    (hk : k < wordLimitOf bytes stream) : (streamWords bytes stream).drop k =
      wordAt bytes stream.wordsOffset k :: (streamWords bytes stream).drop (k + 1) := by
  have hlt : k < (streamWords bytes stream).length := by rwa [length_streamWords]
  rw [drop_eq_getElem_cons hlt]
  refine congrArg₂ List.cons ?_ rfl
  simp only [streamWords, getElem_map, getElem_range]

theorem readWordHalves_eq {bytes : Bytes} {stream : EwahStream} {k : ℕ}
    (hk : k < wordLimitOf bytes stream) :
    readWordHalves bytes (stream.wordsOffset + k * ewahWordSize) =
      .ok (wordAt bytes stream.wordsOffset k / 2 ^ 32,
        wordAt bytes stream.wordsOffset k % 2 ^ 32) := by
  have hroom : stream.wordsOffset + k * 8 + 8 ≤ bytes.length := by
    have hlimit : k < availableWordCount bytes stream.wordsOffset :=
      hk.trans_le (Nat.min_le_right _ _)
    unfold availableWordCount ewahWordSize at hlimit
    omega
  obtain ⟨offset, hoffset⟩ : ∃ offset, offset = stream.wordsOffset + k * 8 := ⟨_, rfl⟩
  have hsplit : subarray bytes offset (offset + 8) =
      subarray bytes offset (offset + 4) ++ subarray bytes (offset + 4) (offset + 8) := by
    have hlater : offset + 8 - (offset + 4) = 4 := by omega
    rw [subarray, subarray, subarray, ← drop_drop, Nat.add_sub_cancel_left,
      Nat.add_sub_cancel_left, hlater]
    exact @take_add _ (bytes.drop offset) 4 4
  have hback : (subarray bytes (offset + 4) (offset + 8)).length = 4 := by
    rw [length_subarray _ (by omega)]
    omega
  have hlow : bigEndian (subarray bytes (offset + 4) (offset + 8)) < 2 ^ 32 := by
    have hlt := bigEndian_lt (subarray bytes (offset + 4) (offset + 8))
    rwa [hback] at hlt
  have hword : wordAt bytes stream.wordsOffset k =
      bigEndian (subarray bytes offset (offset + 4)) * 2 ^ 32 +
        bigEndian (subarray bytes (offset + 4) (offset + 8)) := by
    have hpower : (256 : ℕ) ^ 4 = 2 ^ 32 := by decide
    rw [wordAt, ← hoffset, hsplit, bigEndian_append, hback, hpower]
  have hhighRead : getUint32 bytes offset = .ok (bigEndian (subarray bytes offset (offset + 4))) :=
    if_pos (by omega)
  have hlowRead : getUint32 bytes (offset + 4) =
      .ok (bigEndian (subarray bytes (offset + 4) (offset + 8))) := if_pos (by omega)
  rw [hword]
  unfold readWordHalves ewahWordSize
  rw [← hoffset]
  refine (ok_bind_eq hhighRead).trans <| (ok_bind_eq hlowRead).trans ?_
  refine congrArg Except.ok (Prod.ext ?_ ?_)
  · dsimp only
    omega
  · dsimp only
    omega

theorem decodeRunLengthWord_halves (word : ℕ) :
    (decodeRunLengthWord (word / 2 ^ 32) (word % 2 ^ 32)).runValue = (runBit word).toNat ∧
    (decodeRunLengthWord (word / 2 ^ 32) (word % 2 ^ 32)).cleanWordCount = cleanCount word ∧
    (decodeRunLengthWord (word / 2 ^ 32) (word % 2 ^ 32)).literalWordCount =
      literalCount word := by
  unfold decodeRunLengthWord runBit cleanCount literalCount
  dsimp only
  have hlow : (word % 2 ^ 32) >>> 1 < 2 ^ 31 := by
    rw [Nat.shiftRight_eq_div_pow]
    omega
  refine ⟨?_, ?_, ?_⟩
  · rw [Nat.and_one_is_mod, Nat.testBit_zero]
    rcases Nat.mod_two_eq_zero_or_one word with hzero | hone
    · rw [hzero, decide_eq_false (by decide), Bool.toNat_false]
      omega
    · rw [hone, decide_eq_true rfl, Bool.toNat_true]
      omega
  · rw [Nat.or_comm, ← Nat.shiftLeft_add_eq_or_of_lt hlow, Nat.and_one_is_mod, Nat.shiftLeft_eq,
      Nat.shiftRight_eq_div_pow]
    omega
  · rw [Nat.shiftRight_eq_div_pow]
    omega

/-! ### The walks take every word -/

section

variable {σ : Type} {clean : σ → ℕ → ℕ → σ} {literal : σ → ℕ → ℕ → σ} {bytes : Bytes}
  {stream : EwahStream}

/-- What a walk does with a whole word. -/
def onWord (literal : σ → ℕ → ℕ → σ) (state : σ) (word : ℕ) : σ :=
  literal state (word / 2 ^ 32) (word % 2 ^ 32)

def onRun (clean : σ → ℕ → ℕ → σ) (state : σ) (bit : Bool) (count : ℕ) : σ :=
  clean state bit.toNat count

theorem walkLiterals_eq {k : ℕ} (hk : k ≤ wordLimitOf bytes stream) (count : ℕ) (state : σ) :
    walkLiterals literal bytes stream.wordsOffset (wordLimitOf bytes stream) count (k, state) =
      .ok (min (k + count) (wordLimitOf bytes stream),
        (((streamWords bytes stream).drop k).take count).foldl (onWord literal) state) := by
  induction count generalizing k state with
  | zero =>
    rw [walkLiterals, take_zero, foldl_nil, Nat.add_zero, Nat.min_eq_left hk]
  | succ count ih =>
    rw [walkLiterals]
    split
    · next hlt =>
      have hplace : k + 1 + count = k + (count + 1) := by omega
      refine (ok_bind_eq (readWordHalves_eq hlt)).trans ?_
      dsimp only
      rw [ih (show k + 1 ≤ wordLimitOf bytes stream from hlt), drop_streamWords hlt,
        take_succ_cons, foldl_cons, hplace]
      rfl
    · next hge =>
      have hend : (streamWords bytes stream).drop k = [] :=
        drop_eq_nil_of_le (by rw [length_streamWords]; omega)
      rw [hend, take_nil, foldl_nil, Nat.min_eq_right (by omega)]
      exact congrArg (fun i => Except.ok (i, state)) (by omega)

theorem walkStream_yields (clean : σ → ℕ → ℕ → σ) (literal : σ → ℕ → ℕ → σ) (bytes : Bytes)
    (stream : EwahStream) (state : σ) :
    Run.Yields (fun fuel => walkStream clean literal fuel bytes stream state)
      (walk (onRun clean) (onWord literal) state (streamWords bytes stream)) := by
  obtain ⟨target, htarget⟩ : ∃ target, target =
    walk (onRun clean) (onWord literal) state (streamWords bytes stream) := ⟨_, rfl⟩
  have hturn : ∀ s : ℕ × σ, (s.1 ≤ wordLimitOf bytes stream ∧
      walk (onRun clean) (onWord literal) s.2 ((streamWords bytes stream).drop s.1) = target) →
      Run.Returns (Run.ofExcept (walkTurn clean literal bytes stream.wordsOffset
          (wordLimitOf bytes stream) s))
        (Run.Turn.Meets (· = target) fun t => (t.1 ≤ wordLimitOf bytes stream ∧
          walk (onRun clean) (onWord literal) t.2 ((streamWords bytes stream).drop t.1) =
            target) ∧ wordLimitOf bytes stream - t.1 < wordLimitOf bytes stream - s.1) := by
    rintro ⟨k, s⟩ ⟨hk, hs⟩
    rcases Nat.lt_or_ge k (wordLimitOf bytes stream) with hlt | hge
    · obtain ⟨hrun, hclean, hliteral⟩ :=
        decodeRunLengthWord_halves (wordAt bytes stream.wordsOffset k)
      rw [drop_streamWords hlt, walk] at hs
      obtain ⟨count, hcount⟩ : ∃ count, count =
        literalCount (wordAt bytes stream.wordsOffset k) := ⟨_, rfl⟩
      have hdrop : (streamWords bytes stream).drop (min (k + 1 + count)
          (wordLimitOf bytes stream)) = ((streamWords bytes stream).drop (k + 1)).drop count := by
        rw [drop_drop]
        rcases Nat.le_total (k + 1 + count) (wordLimitOf bytes stream) with hfits | hbehind
        · rw [Nat.min_eq_left hfits]
        · rw [Nat.min_eq_right hbehind, drop_eq_nil_of_le (by rw [length_streamWords]),
            drop_eq_nil_of_le (by rw [length_streamWords]; omega)]
      rw [← hcount, ← hdrop] at hs
      refine Run.Returns.ofExcept ?_
        (show Run.Turn.Meets _ _ (.again (min (k + 1 + count) (wordLimitOf bytes stream), _)) from
          ⟨⟨Nat.min_le_right _ _, hs⟩, ?_⟩)
      · unfold walkTurn
        rw [if_pos hlt]
        refine (ok_bind_eq (readWordHalves_eq hlt)).trans ?_
        dsimp only
        rw [hrun, hclean, hliteral, ← hcount]
        exact (ok_bind_eq (walkLiterals_eq (show k + 1 ≤ wordLimitOf bytes stream from hlt) count
          _)).trans rfl
      · dsimp only
        omega
    · have hend : (streamWords bytes stream).drop k = [] :=
        drop_eq_nil_of_le (by rw [length_streamWords]; exact hge)
      rw [hend, walk] at hs
      exact Run.Returns.ofExcept (if_neg (Nat.not_lt.mpr hge)) hs
  refine ⟨wordLimitOf bytes stream + 1, fun fuel hfuel => ?_⟩
  obtain ⟨answer, hrun, hanswer⟩ := Run.loop_spec _ _ hturn fuel (0, state)
    ⟨Nat.zero_le _, htarget.symm⟩ (by dsimp only; omega)
  rw [← htarget, ← hanswer]
  exact hrun

end

/-! ### Lanes -/

/-- The lanes of words, the low half of each first. -/
def lanesOf (words : List ℕ) : List ℕ := words.flatMap fun word => [word % 2 ^ 32, word / 2 ^ 32]

theorem lanesOf_append (words words' : List ℕ) :
    lanesOf (words ++ words') = lanesOf words ++ lanesOf words' := flatMap_append

theorem length_lanesOf (words : List ℕ) : (lanesOf words).length = words.length * 2 :=
  length_flatMap_of_width fun _ _ => rfl

theorem lanesOf_run (bit : Bool) (count : ℕ) :
    lanesOf (replicate count (runWord bit)) =
      replicate (count * 2) (if bit then 2 ^ 32 - 1 else 0) := by
  induction count with
  | zero => rfl
  | succ count ih =>
    have hhalves : [runWord bit % 2 ^ 32, runWord bit / 2 ^ 32] =
        replicate 2 (if bit then 2 ^ 32 - 1 else 0) := by
      cases bit with
      | false => rfl
      | true => rfl
    rw [replicate_succ, lanesOf, flatMap_cons, hhalves, Nat.succ_mul, Nat.add_comm,
      ← replicate_append_replicate, ← ih]
    rfl

theorem bitAt_lanesOf (words : List ℕ) (i : ℕ) : bitAt 32 (lanesOf words) i = bitAt 64 words i :=
  bitAt_halves (by decide) words i

theorem lanesOf_lt {words : List ℕ} (hwords : ∀ word ∈ words, word < 2 ^ 64) :
    ∀ lane ∈ lanesOf words, lane < 2 ^ 32 := by
  intro lane hmem
  obtain ⟨word, hword, hlane⟩ := mem_flatMap.mp hmem
  have hlt := hwords word hword
  rcases mem_cons.mp hlane with rfl | hhigh
  · exact Nat.mod_lt _ (by decide)
  · rw [mem_singleton.mp hhigh]
    omega

/-! ### The fold -/

section

variable {op : EwahFoldOp} {into : List UInt32} {lanes : List ℕ}

/-- Lanes folded into a destination, as far as it goes. -/
def foldLanes (op : EwahFoldOp) : List UInt32 → List ℕ → List UInt32
  | current :: rest, lane :: lanes =>
    applyFold current (UInt32.ofNat lane) op :: foldLanes op rest lanes
  | into, _ => into

theorem foldLanes_nil (op : EwahFoldOp) (into : List UInt32) : foldLanes op into [] = into := by
  cases into with
  | nil => rfl
  | cons current rest => rfl

theorem length_foldLanes (op : EwahFoldOp) (into : List UInt32) (lanes : List ℕ) :
    (foldLanes op into lanes).length = into.length := by
  induction into generalizing lanes with
  | nil => rfl
  | cons current rest ih =>
    cases lanes with
    | nil => rfl
    | cons lane lanes => rw [foldLanes, length_cons, ih, length_cons]

theorem foldLanes_snoc (op : EwahFoldOp) (into : List UInt32) (lanes : List ℕ) (lane : ℕ) :
    foldLanes op into (lanes ++ [lane]) =
      if lanes.length < into.length then
        foldLane (foldLanes op into lanes) lanes.length (UInt32.ofNat lane) op
      else foldLanes op into lanes := by
  induction lanes generalizing into with
  | nil =>
    cases into with
    | nil => rfl
    | cons current rest =>
      rw [if_pos (by exact Nat.succ_pos _), nil_append, foldLanes, foldLanes_nil, foldLanes_nil]
      rfl
  | cons first lanes ih =>
    cases into with
    | nil => rfl
    | cons current rest =>
      rw [cons_append, foldLanes, ih, foldLanes, length_cons, length_cons]
      split
      · next hlt =>
        rw [if_pos (Nat.succ_lt_succ hlt)]
        rfl
      · next hge => rw [if_neg (fun h => hge (Nat.lt_of_succ_lt_succ h))]

/-- Lanes behind the destination are lost. -/
theorem foldLanes_append_of_le (h : into.length ≤ lanes.length) (more : List ℕ) :
    foldLanes op into (lanes ++ more) = foldLanes op into lanes := by
  induction lanes generalizing into with
  | nil =>
    rw [eq_nil_of_length_eq_zero (Nat.le_zero.mp h)]
    rfl
  | cons lane lanes ih =>
    cases into with
    | nil => rfl
    | cons current rest =>
      rw [cons_append, foldLanes, foldLanes, ih (Nat.le_of_succ_le_succ h)]

theorem applyFold_zero (current : UInt32) (op : EwahFoldOp) : applyFold current 0 op = current := by
  cases op with
  | or => exact UInt32.or_zero
  | xor => exact UInt32.xor_zero

theorem foldLanes_append_zeros (op : EwahFoldOp) (into : List UInt32) (lanes : List ℕ)
    (count : ℕ) : foldLanes op into (lanes ++ replicate count 0) = foldLanes op into lanes := by
  induction into generalizing lanes count with
  | nil => rfl
  | cons current rest ih =>
    cases lanes with
    | cons lane lanes => rw [cons_append, foldLanes, foldLanes, ih]
    | nil =>
      cases count with
      | zero => rfl
      | succ count =>
        have hrest := ih [] count
        rw [nil_append, foldLanes_nil] at hrest
        rw [nil_append, replicate_succ, foldLanes, foldLanes_nil, hrest]
        exact congrArg (· :: rest) (applyFold_zero current op)

theorem foldLiteralLane_eq (op : EwahFoldOp) (into : List UInt32) (lanes : List ℕ) (lane : ℕ) :
    foldLiteralLane (foldLanes op into lanes) (min lanes.length into.length) (UInt32.ofNat lane)
        op =
      (min (lanes ++ [lane]).length into.length, foldLanes op into (lanes ++ [lane])) := by
  unfold foldLiteralLane
  rw [foldLanes_snoc, length_foldLanes, length_append, length_singleton]
  rcases Nat.lt_or_ge lanes.length into.length with hlt | hge
  · rw [Nat.min_eq_left hlt.le, if_pos hlt]
  · rw [Nat.min_eq_right hge, if_neg (lt_irrefl _), if_neg (Nat.not_lt.mpr hge)]
    exact Prod.ext (by dsimp only; omega) rfl

theorem fillFrom_eq {left : ℕ} (h : lanes.length + left ≤ into.length) :
    fillFrom op left lanes.length (foldLanes op into lanes) =
      foldLanes op into (lanes ++ replicate left (2 ^ 32 - 1)) := by
  induction left generalizing lanes with
  | zero => rw [fillFrom, replicate_zero, append_nil]
  | succ left ih =>
    have hsnoc := foldLanes_snoc op into lanes (2 ^ 32 - 1)
    rw [if_pos (by omega)] at hsnoc
    have hlength : (lanes ++ [2 ^ 32 - 1]).length = lanes.length + 1 := length_append
    have hnext := @ih (lanes ++ [2 ^ 32 - 1]) (by rw [hlength]; omega)
    rw [fillFrom, replicate_succ, append_cons, ← hnext, hsnoc, hlength]
    rfl

/-- A run, as far as there is room for it. -/
theorem fillClean_eq (op : EwahFoldOp) (into : List UInt32) (lanes : List ℕ) (count : ℕ) :
    fillClean (foldLanes op into lanes) (min lanes.length into.length) count op =
      (min (lanes ++ replicate count (2 ^ 32 - 1)).length into.length,
        foldLanes op into (lanes ++ replicate count (2 ^ 32 - 1))) := by
  unfold fillClean
  dsimp only
  rw [length_foldLanes, length_append, length_replicate]
  rcases Nat.lt_or_ge lanes.length into.length with hlt | hge
  · obtain ⟨left, hleft⟩ : ∃ left, left = min (lanes.length + count) into.length - lanes.length :=
      ⟨_, rfl⟩
    have hruns : replicate count (2 ^ 32 - 1) =
        replicate left (2 ^ 32 - 1) ++ replicate (count - left) (2 ^ 32 - 1) := by
      rw [replicate_append_replicate]
      exact congrArg (replicate · _) (by omega)
    have hfill := @fillFrom_eq op into lanes left (by omega)
    rw [Nat.min_eq_left hlt.le, ← hleft, hfill]
    refine Prod.ext rfl ?_
    dsimp only
    rw [hruns, ← append_assoc]
    rcases Nat.lt_or_ge left count with hcut | hall
    · refine (foldLanes_append_of_le ?_ _).symm
      rw [length_append, length_replicate]
      omega
    · rw [Nat.sub_eq_zero_of_le hall, replicate_zero, append_nil]
  · rw [Nat.min_eq_right hge, Nat.min_eq_right (Nat.le_add_right _ _), Nat.sub_self, fillFrom,
      foldLanes_append_of_le hge, Nat.min_eq_right (hge.trans (Nat.le_add_right _ _))]

/-- What a walk has folded so far. -/
def Folded (op : EwahFoldOp) (into : List UInt32) (done : List ℕ) (state : FoldState) : Prop :=
  state = (min (lanesOf done).length into.length, foldLanes op into (lanesOf done))

theorem Folded.run {done : List ℕ} {state : FoldState} (h : Folded op into done state) (bit : Bool)
    (count : ℕ) : Folded op into (done ++ replicate count (runWord bit))
      (onRun (foldClean op) state bit count) := by
  unfold Folded onRun foldClean lanesPerWord at *
  rw [h, lanesOf_append, lanesOf_run]
  dsimp only
  cases bit with
  | true =>
    rw [if_pos (show true.toNat = 1 from rfl), if_pos rfl]
    exact fillClean_eq op into (lanesOf done) (count * 2)
  | false =>
    rw [if_neg (show ¬ false.toNat = 1 from by decide), if_neg Bool.false_ne_true,
      foldLanes_append_zeros, length_foldLanes, length_append, length_replicate]
    exact Prod.ext (by dsimp only; omega) rfl

theorem Folded.literal {done : List ℕ} {state : FoldState} (h : Folded op into done state)
    (word : ℕ) : Folded op into (done ++ [word]) (onWord (foldLiteral op) state word) := by
  unfold Folded onWord foldLiteral at *
  have hlanes : lanesOf (done ++ [word]) =
      (lanesOf done ++ [word % 2 ^ 32]) ++ [word / 2 ^ 32] := by
    rw [lanesOf_append, append_assoc]
    rfl
  rw [h, hlanes]
  dsimp only
  rw [foldLiteralLane_eq]
  exact foldLiteralLane_eq op into _ _

/-- **The fold** ends, and folds the lanes that the stream stands for. -/
theorem foldEwahStream_yields (bytes : Bytes) (stream : EwahStream) (into : List UInt32)
    (op : EwahFoldOp) : Run.Yields (fun fuel => foldEwahStream fuel bytes stream into op)
      (foldLanes op into (lanesOf (decodeWords (streamWords bytes stream)))) := by
  have hstart : Folded op into [] (0, into) := by
    unfold Folded
    rw [lanesOf, flatMap_nil, foldLanes_nil, length_nil, Nat.zero_min]
  have hfolded := walk_spec (streamWords_lt bytes stream)
    (fun done state bit count h => h.run bit count) (fun done state word h _ => h.literal word)
    hstart
  rw [nil_append] at hfolded
  obtain ⟨enough, hrun⟩ := walkStream_yields (foldClean op) (foldLiteral op) bytes stream (0, into)
  refine ⟨enough, fun fuel hfuel => ?_⟩
  have hwalk := hrun fuel hfuel
  dsimp only at hwalk
  unfold foldEwahStream
  dsimp only
  rw [hwalk, hfolded]
  rfl

/-- The operation on bits. -/
def foldBit : EwahFoldOp → Bool → Bool → Bool
  | .or => (· || ·)
  | .xor => Bool.xor

/-- Bit `i` of a destination. -/
def bitOf (lanes : List UInt32) (i : ℕ) : Bool := bitAt 32 (lanes.map UInt32.toNat) i

theorem testBit_applyFold (current : UInt32) {lane : ℕ} (hlane : lane < 2 ^ 32) (op : EwahFoldOp)
    (i : ℕ) : (applyFold current (UInt32.ofNat lane) op).toNat.testBit i =
      foldBit op (current.toNat.testBit i) (lane.testBit i) := by
  cases op with
  | or =>
    rw [applyFold, UInt32.toNat_or, UInt32.toNat_ofNat_of_lt' hlane, Nat.testBit_or]
    rfl
  | xor =>
    rw [applyFold, UInt32.toNat_xor, UInt32.toNat_ofNat_of_lt' hlane, Nat.testBit_xor]
    rfl

theorem bitOf_foldLanes (hlanes : ∀ lane ∈ lanes, lane < 2 ^ 32) (i : ℕ) :
    bitOf (foldLanes op into lanes) i =
      if i < 32 * into.length then foldBit op (bitOf into i) (bitAt 32 lanes i) else false := by
  unfold bitOf
  induction into generalizing lanes i with
  | nil =>
    have hnone : foldLanes op [] lanes = [] := rfl
    rw [hnone, map_nil, bitAt_nil, length_nil, if_neg (by omega)]
  | cons current rest ih =>
    cases lanes with
    | nil =>
      rw [foldLanes_nil, bitAt_nil]
      split
      · cases op with
        | or => exact (Bool.or_false _).symm
        | xor => exact (Bool.xor_false _).symm
      · next hbehind =>
        refine bitAt_of_le (by decide) ?_
        rw [length_map]
        exact Nat.not_lt.mp hbehind
    | cons lane lanes =>
      have hrest := ih (forall_mem_cons.mp hlanes).2 (i - 32)
      rw [foldLanes, map_cons, map_cons, bitAt_cons (by decide),
        bitAt_cons (by decide), bitAt_cons (by decide), hrest, length_cons]
      rcases Nat.lt_or_ge i 32 with hfirst | hlater
      · rw [if_pos hfirst, if_pos hfirst, if_pos hfirst, if_pos (by omega),
          testBit_applyFold current (hlanes lane mem_cons_self)]
      · simp only [if_neg (Nat.not_lt.mpr hlater)]
        exact if_congr (by omega) rfl rfl

end

/-! ### The highest place -/

section

variable {bytes : Bytes} {stream : EwahStream}

/-- What a walk has found so far, for places that a number can state. -/
def Found (done : List ℕ) (state : MaxState) : Prop :=
  64 * done.length < 2 ^ 53 →
    state.lane = done.length * 2 ∧ IsHighest (bitAt 32 (lanesOf done)) state.max

theorem toNumber_of_lt {n : ℕ} (h : n < 2 ^ 53) : toNumber n = n := if_pos h

theorem highestSetBitInLane_eq {lane word : ℕ} (hword : word < 2 ^ 32)
    (hlane : 32 * (lane + 1) < 2 ^ 53) : highestSetBitInLane lane word =
      if word = 0 then noSetBit else (32 * lane + word.log2 : ℕ) := by
  unfold highestSetBitInLane clz32 laneBits
  split
  · rfl
  · next hne =>
    have hlog : word.log2 < 32 := (Nat.log2_lt hne).mpr hword
    have hplace : lane * 32 + (32 - 1 - (31 - word.log2)) = 32 * lane + word.log2 := by omega
    rw [hplace, toNumber_of_lt (by omega)]

/-- A lane that is looked at, in a maximum. -/
theorem isHighest_max {lanes : List ℕ} {max' : ℤ} (h : IsHighest (bitAt 32 lanes) max')
    {lane : ℕ} (hlane : lane < 2 ^ 32) (hlength : 32 * (lanes.length + 1) < 2 ^ 53) :
    IsHighest (bitAt 32 (lanes ++ [lane])) (max max' (highestSetBitInLane lanes.length lane)) := by
  have hnext := h.append_lane (by decide) hlane
  rw [highestSetBitInLane_eq hlane hlength]
  have hlt := h.lt (by decide)
  split
  · next hzero =>
    rw [if_pos hzero] at hnext
    have hle : noSetBit ≤ max' := by
      rcases h.none_or_set with hnone | ⟨place, hplace, -⟩
      · exact hnone.ge
      · unfold noSetBit
        omega
    rwa [max_eq_left hle]
  · next hne =>
    rw [if_neg hne] at hnext
    rwa [max_eq_right (by omega)]

theorem Found.run {done : List ℕ} {state : MaxState} (h : Found done state) (bit : Bool)
    (count : ℕ) : Found (done ++ replicate count (runWord bit))
      (onRun maxClean state bit count) := by
  intro hbound
  rw [length_append, length_replicate] at hbound
  obtain ⟨hlane, hmax⟩ := h (by omega)
  unfold onRun maxClean lanesPerWord laneBits
  dsimp only
  have hsum : toNumber (state.lane + count * 2) = done.length * 2 + count * 2 := by
    rw [hlane, toNumber_of_lt (by omega)]
  rw [hsum, lanesOf_append, lanesOf_run, length_append, length_replicate]
  refine ⟨by omega, ?_⟩
  cases bit with
  | true =>
    rcases Nat.eq_zero_or_pos count with rfl | hpos
    · rw [if_pos rfl, if_neg (fun hrun => absurd hrun.2 (by decide)), Nat.zero_mul,
        replicate_zero, append_nil]
      exact hmax
    have hfull := @isHighest_append_full 32 (by decide) (lanesOf done) _
      (show 0 < count * 2 by omega)
    have hplace : (32 * ((lanesOf done).length + count * 2) : ℕ) - 1 =
        (toNumber ((done.length * 2 + count * 2) * 32 - 1) : ℤ) := by
      rw [length_lanesOf, toNumber_of_lt (by omega)]
      omega
    have hrun : true.toNat = 1 ∧ count * 2 > 0 := ⟨rfl, by omega⟩
    rw [if_pos rfl, if_pos hrun, ← hplace]
    exact hfull
  | false =>
    have hrun : ¬(false.toNat = 1 ∧ count * 2 > 0) := fun h => absurd h.1 (by decide)
    rw [if_neg Bool.false_ne_true, if_neg hrun]
    exact hmax.congr fun i => bitAt_append_zeros (by decide) _ _ i

theorem Found.literal {done : List ℕ} {state : MaxState} (h : Found done state) {word : ℕ}
    (hword : word < 2 ^ 64) : Found (done ++ [word]) (onWord maxLiteral state word) := by
  intro hbound
  rw [length_append, length_singleton] at hbound
  obtain ⟨hlane, hmax⟩ := h (by omega)
  have hlanes : lanesOf (done ++ [word]) =
      (lanesOf done ++ [word % 2 ^ 32]) ++ [word / 2 ^ 32] := by
    rw [lanesOf_append, append_assoc]
    rfl
  have hlength := length_lanesOf done
  have hlow := isHighest_max hmax (Nat.mod_lt word (by decide : 0 < 2 ^ 32)) (by omega)
  have hhigh := isHighest_max hlow (show word / 2 ^ 32 < 2 ^ 32 by omega)
    (by rw [length_append, length_singleton]; omega)
  rw [length_append, length_singleton, hlength] at hhigh
  unfold onWord maxLiteral lanesPerWord
  dsimp only
  rw [hlane, toNumber_of_lt (by omega), toNumber_of_lt (by omega), hlanes]
  refine ⟨?_, ?_⟩
  · rw [length_append, length_singleton]
    omega
  · exact hhigh

theorem maxSetBitPosition_ends (bytes : Bytes) (stream : EwahStream) :
    ∃ max, Run.Yields (fun fuel => maxSetBitPosition fuel bytes stream) max := by
  obtain ⟨enough, hrun⟩ := walkStream_yields maxClean maxLiteral bytes stream ⟨0, noSetBit⟩
  refine ⟨(walk (onRun maxClean) (onWord maxLiteral) ⟨0, noSetBit⟩
    (streamWords bytes stream)).max, enough, fun fuel hfuel => ?_⟩
  have hwalk := hrun fuel hfuel
  dsimp only at hwalk
  unfold maxSetBitPosition
  dsimp only
  rw [hwalk]
  rfl

/-- **The walk for the highest place** ends with it. -/
theorem maxSetBitPosition_yields
    (hbound : 64 * (decodeWords (streamWords bytes stream)).length < 2 ^ 53) :
    ∃ max, Run.Yields (fun fuel => maxSetBitPosition fuel bytes stream) max ∧
      IsHighest (bitAt 64 (decodeWords (streamWords bytes stream))) max := by
  have hstart : Found [] ⟨0, noSetBit⟩ := fun _ => ⟨rfl, isHighest_nil 32⟩
  have hfound := walk_spec (streamWords_lt bytes stream)
    (fun done state bit count h => h.run bit count)
    (fun done state word h hword => h.literal hword) hstart
  rw [nil_append] at hfound
  obtain ⟨-, hmax⟩ := hfound hbound
  obtain ⟨enough, hrun⟩ := walkStream_yields maxClean maxLiteral bytes stream ⟨0, noSetBit⟩
  refine ⟨_, ⟨enough, fun fuel hfuel => ?_⟩, hmax.congr fun i => (bitAt_lanesOf _ i).symm⟩
  have hwalk := hrun fuel hfuel
  dsimp only at hwalk
  unfold maxSetBitPosition
  dsimp only
  rw [hwalk]
  rfl

end

/-! ### Well-formed streams -/

def declaredWords (bytes : Bytes) (stream : EwahStream) : List ℕ :=
  (range stream.wordCount).map (wordAt bytes stream.wordsOffset)

/-- The bits that a stream stands for. -/
def referenceBit (bytes : Bytes) (stream : EwahStream) (i : ℕ) : Bool :=
  bitAt 64 (decodeWords (declaredWords bytes stream)) i

/-- A stream whose words are in the buffer, and stand for no more words than its bits take. -/
structure WellFormed (bytes : Bytes) (stream : EwahStream) : Prop where
  fits : stream.wordsOffset + stream.wordCount * ewahWordSize ≤ bytes.length
  bitSize_lt : stream.bitSize < 2 ^ 32
  length_le : (decodeWords (declaredWords bytes stream)).length ≤ (stream.bitSize + 63) / 64

theorem streamWords_eq {bytes : Bytes} {stream : EwahStream}
    (hfits : stream.wordsOffset + stream.wordCount * ewahWordSize ≤ bytes.length) :
    streamWords bytes stream = declaredWords bytes stream := by
  have hlimit : wordLimitOf bytes stream = stream.wordCount := by
    unfold wordLimitOf availableWordCount
    unfold ewahWordSize at *
    omega
  rw [streamWords, declaredWords, hlimit]

/-- **A well-formed stream is decoded**: folded into any destination as far as that goes, and its
highest place found. -/
theorem ewah_decodes (bytes : Bytes) (stream : EwahStream) (h : WellFormed bytes stream) :
    (∀ (into : List UInt32) (op : EwahFoldOp),
      ∃ result, Run.Yields (fun fuel => foldEwahStream fuel bytes stream into op) result ∧
        result.length = into.length ∧
        ∀ i < 32 * into.length,
          bitOf result i = foldBit op (bitOf into i) (referenceBit bytes stream i)) ∧
    ∃ max, Run.Yields (fun fuel => maxSetBitPosition fuel bytes stream) max ∧
      IsHighest (referenceBit bytes stream) max ∧
      ∀ laneCount : ℕ, max < (32 * laneCount : ℕ) →
        ∀ i, referenceBit bytes stream i = true → i < 32 * laneCount := by
  have hwords := streamWords_eq h.fits
  constructor
  · intro into op
    have hrun := foldEwahStream_yields bytes stream into op
    rw [hwords] at hrun
    refine ⟨_, hrun, length_foldLanes _ _ _, fun i hi => ?_⟩
    have hlt := decodeWords_fits (hwords ▸ streamWords_lt bytes stream)
    rw [bitOf_foldLanes (lanesOf_lt hlt), if_pos hi, bitAt_lanesOf]
    rfl
  · have hbound : 64 * (decodeWords (streamWords bytes stream)).length < 2 ^ 53 := by
      rw [hwords]
      have hle := h.length_le
      have hlt := h.bitSize_lt
      omega
    obtain ⟨max, hrun, hmax⟩ := maxSetBitPosition_yields hbound
    rw [hwords] at hmax
    refine ⟨max, hrun, hmax, fun laneCount hcount i hi => ?_⟩
    have hle := hmax.le i hi
    omega

/-- A run of 64 ones, and a word with two bits. -/
def sampleBytes : Bytes :=
  uint32Bytes 128 ++ uint32Bytes 2 ++ (uint32Bytes 2 ++ uint32Bytes 3) ++
    (uint32Bytes 0 ++ uint32Bytes 5) ++ uint32Bytes 0

def sampleStream : EwahStream := ⟨128, 2, 8, 28⟩

theorem declaredWords_sample : declaredWords sampleBytes sampleStream = [2 ^ 33 + 3, 5] := by decide

theorem sampleStream_wellFormed : WellFormed sampleBytes sampleStream where
  fits := by decide
  bitSize_lt := by decide
  length_le := by
    rw [declaredWords_sample]
    simp [decodeWords, cleanCount, literalCount, sampleStream]

theorem ewah_decodes_sample :
    (∃ result, Run.Yields (fun fuel => foldEwahStream fuel sampleBytes sampleStream [5, 0] .xor)
      result ∧ ∀ i < 32 * 2, bitOf result i =
        Bool.xor (bitOf [5, 0] i) (referenceBit sampleBytes sampleStream i)) ∧
    ∃ max, Run.Yields (fun fuel => maxSetBitPosition fuel sampleBytes sampleStream) max ∧
      IsHighest (referenceBit sampleBytes sampleStream) max := by
  obtain ⟨hfold, max, hrun, hmax, -⟩ :=
    ewah_decodes sampleBytes sampleStream sampleStream_wellFormed
  obtain ⟨result, hfolded, -, hbits⟩ := hfold [5, 0] .xor
  exact ⟨⟨result, hfolded, hbits⟩, max, hrun, hmax⟩

end Tsgit.Ewah
