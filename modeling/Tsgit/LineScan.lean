import Tsgit.LineDigest
import Tsgit.Loop
import Tsgit.TypedArray

/-!
# Comparing Lines as They Stream

`createLineDigestScanner` and `scanEqual` of `src/domain/diff/line-digest-scanner.ts`: two contents
are compared by the digests of their lines, and what the digests do not tell apart is compared by
normal forms.
-/

namespace Tsgit.Whitespace

open List Run

/-! ### Lines -/

/-- `splitLines`, what the open line has so far at hand. -/
def splitFrom (line : Bytes) : Bytes → List Bytes
  | [] => if line = [] then [] else [line]
  | b :: rest => if b = LF then (line ++ [b]) :: splitFrom [] rest else splitFrom (line ++ [b]) rest

def splitLines (bytes : Bytes) : List Bytes := splitFrom [] bytes

/-- Lines that a content falls into: all but the last end with their only LF. -/
inductive Lined : List Bytes → Prop
  | nil : Lined []
  | last {content : Bytes} (hnoLf : LF ∉ content) (hne : content ≠ []) : Lined [content]
  | cons {content : Bytes} {rest : List Bytes} (hnoLf : LF ∉ content)
      (hrest : Lined rest) : Lined ((content ++ [LF]) :: rest)

theorem splitFrom_lined {line : Bytes} (hnoLf : LF ∉ line) (bytes : Bytes) :
    Lined (splitFrom line bytes) ∧ (splitFrom line bytes).flatten = line ++ bytes := by
  induction bytes generalizing line with
  | nil =>
    rw [splitFrom, append_nil]
    split
    · rename_i hempty
      exact ⟨.nil, hempty.symm⟩
    · rename_i hne
      exact ⟨.last hnoLf hne, by simp⟩
  | cons b rest ih =>
    rw [splitFrom]
    split
    · rename_i hlf
      subst hlf
      have hnone : LF ∉ ([] : Bytes) := not_mem_nil
      obtain ⟨hlined, hflatten⟩ := ih hnone
      refine ⟨.cons hnoLf hlined, ?_⟩
      rw [flatten_cons, hflatten, nil_append, append_assoc]
      rfl
    · rename_i hne
      have hnoLf' : LF ∉ line ++ [b] := by
        rw [mem_append, not_or, mem_singleton]
        exact ⟨hnoLf, Ne.symm hne⟩
      obtain ⟨hlined, hflatten⟩ := ih hnoLf'
      exact ⟨hlined, by rw [hflatten, append_assoc]; rfl⟩

/-- **A content falls into lines.** -/
theorem splitLines_lined (bytes : Bytes) :
    Lined (splitLines bytes) ∧ (splitLines bytes).flatten = bytes :=
  splitFrom_lined not_mem_nil bytes

/-! ### The scanner -/

def BINARY_DETECTION_BYTES : ℕ := 8000

inductive BinaryOverride
  | binary
  | text
  deriving DecidableEq

def forcesBinary (override : Option BinaryOverride) : Bool := override = some .binary

def sniffDecides (override : Option BinaryOverride) : Bool := override = none

/-- A scanner: what is left of its chunk, and the fold of the line at hand. -/
structure Scanner (H : Type) where
  chunk : Bytes
  ended : Bool
  nulScanOffset : ℕ
  binary : Bool
  fold : FoldState H

inductive ScanStep (H : Type)
  | digest (digest : LineDigest H)
  | needsInput
  | exhausted

variable {H : Type}

def scanForNul (s : Scanner H) (chunk : Bytes) : Scanner H :=
  { s with
    binary := s.binary || (decide (s.nulScanOffset < BINARY_DETECTION_BYTES) &&
      (chunk.take (BINARY_DETECTION_BYTES - s.nulScanOffset)).contains 0)
    nulScanOffset := s.nulScanOffset + chunk.length }

def createLineDigestScanner (hash : LineHash H) (override : Option BinaryOverride) : Scanner H :=
  ⟨[], false, 0, forcesBinary override, createFoldState hash⟩

def Scanner.push (s : Scanner H) (override : Option BinaryOverride) (chunk : Bytes) :
    Scanner H :=
  { (if sniffDecides override then scanForNul s chunk else s) with chunk := chunk }

def Scanner.finish (s : Scanner H) : Scanner H := { s with ended := true }

variable (hash : LineHash H) (key : LineKey) (ignoreBlankLines : Bool)

def advanceLine (s : Scanner H) : ScanStep H × Scanner H :=
  let pushed := pushChunk hash key s.fold s.chunk
  let emitted := ScanStep.digest (emitDigest hash pushed.1 key)
  match pushed.2 with
  | some rest => (emitted, { s with chunk := rest, fold := createFoldState hash })
  | none =>
    if !s.ended then (.needsInput, { s with chunk := [], fold := pushed.1 })
    else if pushed.1.lineHasBytes then
      (emitted, { s with chunk := [], fold := createFoldState hash })
    else (.exhausted, { s with chunk := [], fold := pushed.1 })

/-- A turn of `computeNextStep`. -/
def nextTurn (s : Scanner H) : Run Empty (Turn (Scanner H) (ScanStep H × Scanner H)) :=
  if s.binary then pure (.stop (.exhausted, s))
  else
    let advanced := advanceLine hash key s
    match advanced.1 with
    | .digest digest =>
      if !ignoreBlankLines || !digestIsBlank digest then pure (.stop advanced)
      else pure (.again advanced.2)
    | .needsInput => pure (.stop advanced)
    | .exhausted => pure (.stop advanced)

def next (fuel : ℕ) (s : Scanner H) : Run Empty (ScanStep H × Scanner H) :=
  loop (nextTurn hash key ignoreBlankLines) fuel s

/-! ### The comparison -/

/-- The verdict, or nothing to continue. -/
def applyLadder [DecidableEq H] (old new : Scanner H) : ScanStep H → ScanStep H → Option Bool
  | .digest a, .digest b =>
    if old.binary || new.binary then some false else if digestsEqual a b then none else some false
  | .digest _, _ => some false
  | _, .digest _ => some false
  | _, _ => some (!(old.binary || new.binary))

def nextSignificant (lines : List Bytes) : List Bytes :=
  if ignoreBlankLines then lines.dropWhile (isBlankLine · key) else lines

def equalTurn (state : List Bytes × List Bytes) :
    Run Empty (Turn (List Bytes × List Bytes) Bool) :=
  match state.1, state.2 with
  | oldLine :: oldLines, newLine :: newLines =>
    if linesEqualUnder oldLine newLine key then
      pure (.again (nextSignificant key ignoreBlankLines oldLines,
        nextSignificant key ignoreBlankLines newLines))
    else pure (.stop false)
  | oldLines, newLines => pure (.stop (oldLines = [] && newLines = []))

def contentsEqualUnder (fuel : ℕ) (oldContent newContent : Bytes) : Run Empty Bool :=
  loop (equalTurn key ignoreBlankLines) fuel
    (nextSignificant key ignoreBlankLines (splitLines oldContent),
      nextSignificant key ignoreBlankLines (splitLines newContent))

def scanTurn [DecidableEq H] (fuel : ℕ) (oldContent newContent : Bytes)
    (scanners : Scanner H × Scanner H) : Run Empty (Turn (Scanner H × Scanner H) Bool) := do
  let old ← next hash key ignoreBlankLines fuel scanners.1
  let new ← next hash key ignoreBlankLines fuel scanners.2
  match applyLadder old.2 new.2 old.1 new.1 with
  | none => return .again (old.2, new.2)
  | some false => return .stop false
  | some true => return .stop (← contentsEqualUnder key ignoreBlankLines fuel oldContent newContent)

def scanEqual [DecidableEq H] (fuel : ℕ) (oldContent newContent : Bytes)
    (override : Option BinaryOverride) : Run Empty Bool :=
  let scanner := createLineDigestScanner hash override
  loop (scanTurn hash key ignoreBlankLines fuel oldContent newContent) fuel
    ((scanner.push override oldContent).finish, (scanner.push override newContent).finish)

/-! ### A step of the scanner -/

variable {hash key ignoreBlankLines}

/-- A scanner that stands at some lines, with no more chunks to come. -/
structure At (hash : LineHash H) (lines : List Bytes) (s : Scanner H) : Prop where
  lined : Lined lines
  chunk : s.chunk = lines.flatten
  ended : s.ended = true
  text : s.binary = false
  fold : s.fold = createFoldState hash

variable {content : Bytes}

theorem isLine_last (h : LF ∉ content) : IsLine content content false :=
  ⟨(append_nil _).symm, h⟩

theorem isLine_terminated (h : LF ∉ content) :
    IsLine (content ++ [LF]) content true := ⟨rfl, h⟩

variable {s : Scanner H}

/-- Nothing is left. -/
theorem advanceLine_nil (key : LineKey) (h : At hash [] s) :
    ∃ s', advanceLine hash key s = (.exhausted, s') ∧ At hash [] s' := by
  refine ⟨{ s with chunk := [], fold := createFoldState hash }, ?_,
    ⟨.nil, rfl, h.ended, h.text, rfl⟩⟩
  have hchunk : s.chunk = [] := h.chunk
  rw [advanceLine, pushChunk, hchunk, if_pos rfl, foldRange, h.fold, h.ended]
  rfl

/-- **The next line is digested.** -/
theorem advanceLine_cons (key : LineKey) {line : Bytes} {lines : List Bytes} (h : At hash (line :: lines) s) :
    ∃ s', advanceLine hash key s = (.digest (digestOf hash (normalizeLine line key)), s') ∧
      At hash lines s' := by
  obtain ⟨hlined, hchunk, hended, htext, hfold⟩ := h
  have hstart : Folded hash key [] { createFoldState hash with lineHasBytes := true } :=
    Folded.start key rfl rfl rfl rfl rfl
  have hafter : Lined lines → At hash lines
      { s with chunk := lines.flatten, fold := createFoldState hash } :=
    fun hlines => ⟨hlines, rfl, hended, htext, rfl⟩
  cases hlined with
  | last hnoLf hne =>
    obtain ⟨state, hrun, hdigest, hbytes⟩ :=
      foldRange_line key (isLine_last hnoLf) hstart rfl [] fun _ => rfl
    rw [append_nil] at hrun
    refine ⟨_, ?_, hafter .nil⟩
    have hwhole : s.chunk = line := by rw [hchunk, flatten_singleton]
    rw [advanceLine, pushChunk, hwhole, if_neg hne, hfold, hrun, hended]
    dsimp only
    rw [if_neg (by decide), if_pos hbytes, hdigest]
    rfl
  | @cons content _ hnoLf hrest =>
    obtain ⟨state, hrun, hdigest, -⟩ := foldRange_line key (isLine_terminated hnoLf) hstart rfl
      lines.flatten fun h => (by cases h)
    refine ⟨_, ?_, hafter hrest⟩
    have hne : ¬ content ++ [LF] ++ lines.flatten = [] := by simp
    rw [advanceLine, pushChunk, hchunk, flatten_cons, if_neg hne, hfold, hrun]
    dsimp only
    rw [hdigest]
    rfl

/-- A line that does not count. -/
def isInsignificant (key : LineKey) (ignoreBlankLines : Bool) (line : Bytes) : Bool :=
  ignoreBlankLines && isBlankLine line key

theorem nextSignificant_eq (lines : List Bytes) :
    nextSignificant key ignoreBlankLines lines =
      lines.dropWhile (isInsignificant key ignoreBlankLines) := by
  rw [nextSignificant]
  cases ignoreBlankLines with
  | true => rfl
  | false =>
    rw [if_neg Bool.false_ne_true]
    cases lines with
    | nil => rfl
    | cons line rest => rfl

/-- What a step of the scanner comes to: the next line that counts, or the end. -/
inductive Steps (hash : LineHash H) (key : LineKey) :
    List Bytes → ScanStep H × Scanner H → Prop
  | exhausted {s : Scanner H} (h : At hash [] s) : Steps hash key [] (.exhausted, s)
  | digest {line : Bytes} {rest : List Bytes} {s : Scanner H} (h : At hash rest s) :
      Steps hash key (line :: rest) (.digest (digestOf hash (normalizeLine line key)), s)

/-- **A step of the scanner.** -/
theorem next_spec {lines : List Bytes} (h : At hash lines s) {fuel : ℕ}
    (hfuel : lines.length < fuel) : ∃ result, next hash key ignoreBlankLines fuel s = pure result ∧
        Steps hash key (lines.dropWhile (isInsignificant key ignoreBlankLines)) result := by
  induction lines generalizing s fuel with
  | nil =>
    obtain ⟨s', hadvance, hat⟩ := advanceLine_nil key h
    obtain ⟨fuel, rfl⟩ := Nat.exists_eq_succ_of_ne_zero (Nat.ne_zero_of_lt hfuel)
    refine ⟨(.exhausted, s'), ?_, .exhausted hat⟩
    rw [next, loop, nextTurn, h.text, hadvance]
    rfl
  | cons line lines ih =>
    obtain ⟨s', hadvance, hat⟩ := advanceLine_cons key h
    obtain ⟨fuel, rfl⟩ := Nat.exists_eq_succ_of_ne_zero (Nat.ne_zero_of_lt hfuel)
    rw [length_cons] at hfuel
    obtain ⟨result, hresult, hsteps⟩ := ih hat (Nat.lt_of_succ_lt_succ hfuel)
    have hblank : digestIsBlank (digestOf hash (normalizeLine line key)) =
        isBlankLine line key := rfl
    cases hskip : isInsignificant key ignoreBlankLines line with
    | true =>
      refine ⟨result, ?_, ?_⟩
      · obtain ⟨hignore, hisBlank⟩ := (Bool.and_eq_true _ _).mp hskip
        rw [next, loop, nextTurn, h.text, hadvance]
        dsimp only
        rw [hblank, hisBlank, hignore, if_neg (by decide), if_neg (by decide), pure_bind]
        rw [hignore] at hresult
        exact hresult
      · rw [dropWhile_cons_of_pos hskip]
        exact hsteps
    | false =>
      refine ⟨(.digest (digestOf hash (normalizeLine line key)), s'), ?_, ?_⟩
      · have hcounts : (!ignoreBlankLines || !isBlankLine line key) = true := by
          rw [← Bool.not_and]
          exact congrArg _ hskip
        rw [next, loop, nextTurn, h.text, hadvance]
        dsimp only
        rw [hblank, hcounts]
        rfl
      · rw [dropWhile_cons_of_neg (by simp [hskip])]
        exact .digest hat

/-! ### The comparison of contents -/

/-- The normal forms of the lines that count. -/
def normalLines (key : LineKey) (ignoreBlankLines : Bool) (lines : List Bytes) :
    List Bytes :=
  (lines.filter fun line => !isInsignificant key ignoreBlankLines line).map (normalizeLine · key)

/-- The lines from the next one that counts. -/
theorem normalLines_cases (key : LineKey) (ignoreBlankLines : Bool) (lines : List Bytes) :
    (lines.dropWhile (isInsignificant key ignoreBlankLines) = [] ∧
      normalLines key ignoreBlankLines lines = []) ∨
    ∃ line rest, lines.dropWhile (isInsignificant key ignoreBlankLines) = line :: rest ∧
      normalLines key ignoreBlankLines lines =
        normalizeLine line key :: normalLines key ignoreBlankLines rest ∧
      rest.length < lines.length := by
  induction lines with
  | nil => exact .inl ⟨rfl, rfl⟩
  | cons line lines ih =>
    cases hskip : isInsignificant key ignoreBlankLines line with
    | true =>
      have hsame : normalLines key ignoreBlankLines (line :: lines) =
          normalLines key ignoreBlankLines lines := by
        rw [normalLines, filter_cons_of_neg (by simp [hskip])]
        rfl
      rw [dropWhile_cons_of_pos hskip, hsame, length_cons]
      rcases ih with hnone | ⟨next, rest, hdrop, hnormal, hlt⟩
      · exact .inl hnone
      · exact .inr ⟨next, rest, hdrop, hnormal, hlt.trans (Nat.lt_succ_self _)⟩
    | false =>
      refine .inr ⟨line, lines, ?_, ?_, Nat.lt_succ_self _⟩
      · rw [dropWhile_cons_of_neg (by simp [hskip])]
      · rw [normalLines, filter_cons_of_pos (by simp [hskip]), map_cons]
        rfl

/-- **The exact comparison** tells whether the normal forms are equal. -/
theorem equalLoop_spec (oldLines newLines : List Bytes) {fuel : ℕ}
    (hfuel : oldLines.length < fuel) :
    loop (equalTurn key ignoreBlankLines) fuel
        (nextSignificant key ignoreBlankLines oldLines,
          nextSignificant key ignoreBlankLines newLines) =
      pure (decide (normalLines key ignoreBlankLines oldLines =
        normalLines key ignoreBlankLines newLines)) := by
  induction fuel generalizing oldLines newLines with
  | zero => exact absurd hfuel (Nat.not_lt_zero _)
  | succ fuel ih =>
    rw [nextSignificant_eq, nextSignificant_eq, loop, equalTurn]
    rcases normalLines_cases key ignoreBlankLines oldLines with
      ⟨hold, holdNormal⟩ | ⟨oldLine, oldRest, hold, holdNormal, hlt⟩
    · rcases normalLines_cases key ignoreBlankLines newLines with
        ⟨hnew, hnewNormal⟩ | ⟨newLine, newRest, hnew, hnewNormal, -⟩
      · rw [hold, hnew, holdNormal, hnewNormal]
        rfl
      · rw [hold, hnew, holdNormal, hnewNormal]
        rfl
    · rcases normalLines_cases key ignoreBlankLines newLines with
        ⟨hnew, hnewNormal⟩ | ⟨newLine, newRest, hnew, hnewNormal, -⟩
      · rw [hold, hnew, holdNormal, hnewNormal]
        rfl
      rw [hold, hnew, holdNormal, hnewNormal]
      dsimp only
      by_cases hequal : normalizeLine oldLine key = normalizeLine newLine key
      · have htrue : linesEqualUnder oldLine newLine key = true := decide_eq_true hequal
        rw [if_pos htrue, pure_bind, hequal]
        have hrest := ih oldRest newRest (by omega)
        dsimp only
        rw [hrest]
        congr 1
        exact decide_eq_decide.mpr (cons_inj_right _).symm
      · have hfalse : ¬ linesEqualUnder oldLine newLine key = true :=
          fun htrue => hequal (of_decide_eq_true htrue)
        have hdiffers : ¬ normalizeLine oldLine key ::
              normalLines key ignoreBlankLines oldRest =
            normalizeLine newLine key :: normalLines key ignoreBlankLines newRest :=
          fun heq => hequal (cons.inj heq).1
        rw [if_neg hfalse, decide_eq_false hdiffers]
        rfl

/-- **The ladder of digests**: a difference is final, and the rest is left to the exact comparison.
-/
theorem scanLoop_spec [DecidableEq H] {fuel : ℕ} {oldContent newContent : Bytes}
    {answer : Bool}
    (hexact : contentsEqualUnder key ignoreBlankLines fuel oldContent newContent = pure answer)
    (oldLines newLines : List Bytes) {old new : Scanner H} (hold : At hash oldLines old)
    (hnew : At hash newLines new) (holdFuel : oldLines.length < fuel)
    (hnewFuel : newLines.length < fuel) {turns : ℕ} (hturns : oldLines.length < turns) :
    loop (scanTurn hash key ignoreBlankLines fuel oldContent newContent) turns (old, new) =
      pure (if (normalLines key ignoreBlankLines oldLines).map (digestOf hash) =
          (normalLines key ignoreBlankLines newLines).map (digestOf hash) then answer
        else false) := by
  induction turns generalizing oldLines newLines old new with
  | zero => exact absurd hturns (Nat.not_lt_zero _)
  | succ turns ih =>
    have hnext : ∀ {lines : List Bytes} {s : Scanner H}, At hash lines s →
        lines.length < fuel → ∃ result, next hash key ignoreBlankLines fuel s = pure result ∧
          Steps hash key (lines.dropWhile (isInsignificant key ignoreBlankLines)) result :=
      fun hat hlt => next_spec hat hlt
    obtain ⟨oldResult, holdRun, holdSteps⟩ := hnext hold holdFuel
    obtain ⟨newResult, hnewRun, hnewSteps⟩ := hnext hnew hnewFuel
    rw [loop, scanTurn]
    dsimp only
    rw [holdRun, hnewRun]
    simp only [pure_bind]
    rcases normalLines_cases key ignoreBlankLines oldLines with
      ⟨hdrop, hnormal⟩ | ⟨oldLine, oldRest, hdrop, hnormal, hlt⟩
    · rw [hdrop] at holdSteps
      rcases normalLines_cases key ignoreBlankLines newLines with
        ⟨hdrop', hnormal'⟩ | ⟨newLine, newRest, hdrop', hnormal', -⟩
      · rw [hdrop'] at hnewSteps
        cases holdSteps with
        | exhausted hat =>
          cases hnewSteps with
          | exhausted hat' =>
            rw [hnormal, hnormal', if_pos rfl, applyLadder, hat.text, hat'.text]
            · simp only [Bool.or_false, Bool.not_false, hexact, pure_bind]
            all_goals simp
      · rw [hdrop'] at hnewSteps
        cases holdSteps with
        | exhausted hat =>
          cases hnewSteps with
          | digest hat' =>
            rw [hnormal, hnormal', if_neg (by simp)]
            rfl
    · rw [hdrop] at holdSteps
      rcases normalLines_cases key ignoreBlankLines newLines with
        ⟨hdrop', hnormal'⟩ | ⟨newLine, newRest, hdrop', hnormal', hlt'⟩
      · rw [hdrop'] at hnewSteps
        cases holdSteps with
        | digest hat =>
          cases hnewSteps with
          | exhausted hat' =>
            rw [hnormal, hnormal', if_neg (by simp)]
            rfl
      · rw [hdrop'] at hnewSteps
        cases holdSteps with
        | digest hat =>
          cases hnewSteps with
          | digest hat' =>
            rw [hnormal, hnormal', applyLadder, hat.text, hat'.text, if_neg (by decide),
              map_cons, map_cons]
            by_cases hequal : digestOf hash (normalizeLine oldLine key) =
                digestOf hash (normalizeLine newLine key)
            · rw [if_pos (digestsEqual_eq_true.mpr hequal), hequal]
              simp only [pure_bind]
              rw [ih oldRest newRest hat hat' (hlt.trans holdFuel) (hlt'.trans hnewFuel) (by omega)]
              simp only [List.cons.injEq, true_and]
            · rw [if_neg fun h => hequal (digestsEqual_eq_true.mp h),
                if_neg fun heq => hequal (cons.inj heq).1]
              rfl

/-- The binary verdict for one side. -/
def sideIsBinary (bytes : Bytes) (override : Option BinaryOverride) : Bool :=
  if sniffDecides override then (bytes.take BINARY_DETECTION_BYTES).contains 0
  else forcesBinary override

def wholeScanner (hash : LineHash H) (override : Option BinaryOverride) (content : Bytes) :
    Scanner H :=
  ((createLineDigestScanner hash override).push override content).finish

theorem wholeScanner_binary (override : Option BinaryOverride) (content : Bytes) :
    (wholeScanner hash override content).binary = sideIsBinary content override := by
  cases override with
  | none => exact Bool.false_or _ |>.trans (Bool.true_and _)
  | some forced => rfl

theorem wholeScanner_at {override : Option BinaryOverride}
    (h : sideIsBinary content override = false) :
    At hash (splitLines content) (wholeScanner hash override content) := by
  obtain ⟨hlined, hflatten⟩ := splitLines_lined content
  refine ⟨hlined, hflatten.symm, rfl, (wholeScanner_binary override content).trans h, ?_⟩
  cases override <;> rfl

theorem next_binary (h : s.binary = true) (fuel : ℕ) :
    next hash key ignoreBlankLines (fuel + 1) s = pure (.exhausted, s) := by
  rw [next, loop, nextTurn, if_pos h]
  rfl

/-- **A step of any whole scanner.** -/
theorem next_whole (override : Option BinaryOverride) (content : Bytes) {fuel : ℕ}
    (hfuel : (splitLines content).length < fuel) : ∃ step s,
      next hash key ignoreBlankLines fuel (wholeScanner hash override content) = pure (step, s) ∧
        s.binary = sideIsBinary content override := by
  cases hbinary : sideIsBinary content override with
  | true =>
    obtain ⟨fuel, rfl⟩ := Nat.exists_eq_succ_of_ne_zero (Nat.ne_zero_of_lt hfuel)
    have hthis : (wholeScanner hash override content).binary = true :=
      (wholeScanner_binary override content).trans hbinary
    exact ⟨_, _, next_binary hthis fuel, hthis⟩
  | false =>
    obtain ⟨result, hrun, hsteps⟩ : ∃ result, next hash key ignoreBlankLines fuel
          (wholeScanner hash override content) = pure result ∧ Steps hash key
        ((splitLines content).dropWhile (isInsignificant key ignoreBlankLines)) result :=
      next_spec (wholeScanner_at hbinary) hfuel
    refine ⟨result.1, result.2, hrun, ?_⟩
    generalize (splitLines content).dropWhile (isInsignificant key ignoreBlankLines) = lines
      at hsteps
    cases hsteps with
    | exhausted hat => exact hat.text
    | digest hat => exact hat.text

theorem applyLadder_binary [DecidableEq H] {old new : Scanner H}
    (h : (old.binary || new.binary) = true) (a b : ScanStep H) :
    applyLadder old new a b = some false := by
  cases a <;> cases b <;> simp [applyLadder, h]

/-- **The streaming comparison** tells whether the normal forms of the lines that count are equal,
whatever the hash. -/
theorem scanEqual_spec [DecidableEq H] (hash : LineHash H) (key : LineKey)
    (ignoreBlankLines : Bool) (oldContent newContent : Bytes)
    (override : Option BinaryOverride) :
    Yields (fun fuel => scanEqual hash key ignoreBlankLines fuel oldContent newContent override)
      (!(sideIsBinary oldContent override || sideIsBinary newContent override) &&
        decide (normalLines key ignoreBlankLines (splitLines oldContent) =
          normalLines key ignoreBlankLines (splitLines newContent))) := by
  refine ⟨(splitLines oldContent).length + (splitLines newContent).length + 1,
    fun fuel hfuel => ?_⟩
  have holdFuel : (splitLines oldContent).length < fuel := by omega
  have hnewFuel : (splitLines newContent).length < fuel := by omega
  change loop (scanTurn hash key ignoreBlankLines fuel oldContent newContent) fuel
    (wholeScanner hash override oldContent, wholeScanner hash override newContent) = _
  cases hbinary : sideIsBinary oldContent override || sideIsBinary newContent override with
  | true =>
    have hnext : ∀ content, (splitLines content).length < fuel → ∃ step s,
        next hash key ignoreBlankLines fuel (wholeScanner hash override content) =
          pure (step, s) ∧ s.binary = sideIsBinary content override :=
      fun content hlt => next_whole override content hlt
    obtain ⟨oldStep, old, holdRun, hold⟩ := hnext oldContent holdFuel
    obtain ⟨newStep, new, hnewRun, hnew⟩ := hnext newContent hnewFuel
    obtain ⟨turns, rfl⟩ := Nat.exists_eq_succ_of_ne_zero (Nat.ne_zero_of_lt holdFuel)
    have hladder : applyLadder old new oldStep newStep = some false :=
      applyLadder_binary (by rw [hold, hnew, hbinary]) oldStep newStep
    rw [loop, scanTurn]
    dsimp only
    rw [holdRun, hnewRun]
    simp only [pure_bind]
    rw [hladder]
    rfl
  | false =>
    rw [Bool.or_eq_false_iff] at hbinary
    have hexact : contentsEqualUnder key ignoreBlankLines fuel oldContent newContent = _ :=
      equalLoop_spec (splitLines oldContent) (splitLines newContent) holdFuel
    rw [scanLoop_spec hexact _ _ (wholeScanner_at hbinary.1) (wholeScanner_at hbinary.2)
      holdFuel hnewFuel holdFuel]
    congr 1
    split
    · rfl
    · rename_i hdiffers
      refine (decide_eq_false fun heq => hdiffers ?_).symm
      rw [heq]

/-! ### The comparison of lines -/

theorem splitLines_line (line : Line) : splitLines line.bytes = [line.bytes] := by
  have hfrom : ∀ (content open_ : Bytes), LF ∉ content → ∀ terminated : Bool,
      (open_ ++ content ++ if terminated then [LF] else []) ≠ [] →
      splitFrom open_ (content ++ if terminated then [LF] else []) =
        [open_ ++ content ++ if terminated then [LF] else []] := by
    intro content
    induction content with
    | nil =>
      intro open_ _ terminated hne
      cases terminated with
      | false =>
        have hopen : open_ ≠ [] := by simpa using hne
        rw [if_neg Bool.false_ne_true, append_nil, append_nil, splitFrom, if_neg hopen, append_nil]
      | true =>
        rw [if_pos rfl, nil_append, splitFrom, if_pos rfl, splitFrom, if_pos rfl, append_nil]
    | cons b content ih =>
      intro open_ hnoLf terminated hne
      rw [mem_cons, not_or] at hnoLf
      rw [cons_append, splitFrom, if_neg (Ne.symm hnoLf.1), ih _ hnoLf.2 terminated
        (by simp)]
      simp
  have hthis := hfrom line.content [] line.isLine.noLf line.terminated
    (by rw [nil_append, ← line.isLine.eq]; exact line.nonempty)
  rw [nil_append, ← line.isLine.eq] at hthis
  exact hthis

theorem normalizeLine_of_blank {a b : Line} (ha : isBlankLine a.bytes key = true)
    (hb : isBlankLine b.bytes key = true) :
    normalizeLine a.bytes key = normalizeLine b.bytes key := by
  have hblank : ∀ line : Line, isBlankLine line.bytes key = true →
      normalizeLine line.bytes key = if lineKeyIsActive key then [] else [LF] := by
    intro line hline
    have hnormal := normalizeLine_eq line.isLine key
    have hzero : lfIndex (normalizeLine line.bytes key) = 0 := of_decide_eq_true hline
    have hempty := hnormal.parts.1
    rw [hzero, take_zero] at hempty
    rw [hnormal.eq, ← hempty, nil_append]
    cases hactive : lineKeyIsActive key with
    | true => simp
    | false =>
      cases hterminated : line.terminated with
      | true => rfl
      | false =>
        -- a line that is neither normalized nor terminated is its content
        have hsame : normalizeLine line.bytes key = line.bytes := by
          rw [lineKeyIsActive, Bool.or_eq_false_iff] at hactive
          have hmode : key.mode = .none := by simpa using hactive.1
          rw [normalizeLine, lineKeyIsActive, hmode, hactive.2, applyCrRule, hmode,
            hactive.2, normalizeUnderMode, hmode]
          rfl
        rw [hnormal.eq, ← hempty, hterminated] at hsame
        exact absurd hsame.symm line.nonempty
  rw [hblank a ha, hblank b hb]

theorem normalLines_line {a b : Line} :
    normalLines key ignoreBlankLines [a.bytes] = normalLines key ignoreBlankLines [b.bytes] ↔
      normalizeLine a.bytes key = normalizeLine b.bytes key := by
  have hone : ∀ line : Line, normalLines key ignoreBlankLines [line.bytes] =
      if isInsignificant key ignoreBlankLines line.bytes then []
      else [normalizeLine line.bytes key] := by
    intro line
    rw [normalLines, filter_singleton]
    cases isInsignificant key ignoreBlankLines line.bytes <;> rfl
  have hcongr : normalizeLine a.bytes key = normalizeLine b.bytes key →
      isInsignificant key ignoreBlankLines a.bytes = isInsignificant key ignoreBlankLines b.bytes :=
    fun heq => by rw [isInsignificant, isInsignificant, isBlankLine, isBlankLine, heq]
  constructor
  · intro heq
    rw [hone, hone] at heq
    cases ha : isInsignificant key ignoreBlankLines a.bytes with
    | true =>
      cases hb : isInsignificant key ignoreBlankLines b.bytes with
      | true =>
        exact normalizeLine_of_blank ((Bool.and_eq_true _ _).mp ha).2
          ((Bool.and_eq_true _ _).mp hb).2
      | false =>
        rw [ha, hb] at heq
        cases heq
    | false =>
      cases hb : isInsignificant key ignoreBlankLines b.bytes with
      | true =>
        rw [ha, hb] at heq
        cases heq
      | false =>
        rw [ha, hb] at heq
        exact singleton_inj.mp heq
  · intro heq
    rw [hone, hone, hcongr heq, heq]

/-- **One equality of lines under a whitespace key.** The streaming comparison of lines that are no
binary content is equality of normal forms; so are digests where the hashes do not collide. -/
theorem lines_compared [DecidableEq H] (hash : LineHash H) (key : LineKey)
    (ignoreBlankLines : Bool) :
    (∀ (a b : Line) (override : Option BinaryOverride),
      Yields (fun fuel => scanEqual hash key ignoreBlankLines fuel a.bytes b.bytes override)
        (!(sideIsBinary a.bytes override || sideIsBinary b.bytes override) &&
          decide (normalizeLine a.bytes key = normalizeLine b.bytes key))) ∧
    (∀ a b : Line, linesEqualUnder a.bytes b.bytes key = true ↔
      normalizeLine a.bytes key = normalizeLine b.bytes key) ∧
    (∀ a b : Line, normalizeLine a.bytes key = normalizeLine b.bytes key →
      digestsEqual (digestNormalizedLine hash a.bytes key)
        (digestNormalizedLine hash b.bytes key) = true) ∧
    (∀ a b : Line, (hashOf hash (normalizeLine a.bytes key) =
        hashOf hash (normalizeLine b.bytes key) →
          normalizeLine a.bytes key = normalizeLine b.bytes key) →
      (digestsEqual (digestNormalizedLine hash a.bytes key)
          (digestNormalizedLine hash b.bytes key) = true ↔
        normalizeLine a.bytes key = normalizeLine b.bytes key)) ∧
    (Equivalence fun a b : Line => linesEqualUnder a.bytes b.bytes key = true) ∧
    ∀ oldContent newContent override,
      Yields (fun fuel => scanEqual hash key ignoreBlankLines fuel oldContent newContent override)
        (!(sideIsBinary oldContent override || sideIsBinary newContent override) &&
          decide (normalLines key ignoreBlankLines (splitLines oldContent) =
            normalLines key ignoreBlankLines (splitLines newContent))) := by
  have hequal : ∀ a b : Line, linesEqualUnder a.bytes b.bytes key = true ↔
      normalizeLine a.bytes key = normalizeLine b.bytes key := fun _ _ => decide_eq_true_iff
  refine ⟨fun a b override => ?_, hequal, fun a b hsame => ?_, fun a b hcollide => ?_, ?_,
    fun oldContent newContent override =>
      scanEqual_spec hash key ignoreBlankLines oldContent newContent override⟩
  · have hrun := scanEqual_spec hash key ignoreBlankLines a.bytes b.bytes override
    rw [splitLines_line, splitLines_line, decide_eq_decide.mpr normalLines_line] at hrun
    exact hrun
  · rw [digestsEqual_eq_true, digestNormalizedLine_eq, digestNormalizedLine_eq, hsame]
  · rw [digestsEqual_eq_true, digestNormalizedLine_eq, digestNormalizedLine_eq]
    exact digestOf_inj hcollide
  · constructor
    · exact fun a => (hequal a a).mpr rfl
    · exact fun {a b} h => (hequal b a).mpr ((hequal a b).mp h).symm
    · exact fun {a b c} hab hbc =>
        (hequal a c).mpr (((hequal a b).mp hab).trans ((hequal b c).mp hbc))

/-- A line of one NUL byte. -/
def nulLine : Line := ⟨[0], [0], false, ⟨rfl, by decide⟩, by decide⟩

/-- **A side with a NUL byte is binary**, and not even equal to itself as it streams. -/
theorem nulLine_differs :
    Yields (fun fuel => scanEqual fnv ⟨.none, true⟩ false fuel nulLine.bytes nulLine.bytes none)
        false ∧
      linesEqualUnder nulLine.bytes nulLine.bytes ⟨.none, true⟩ = true := by
  refine ⟨?_, by decide⟩
  have hrun := scanEqual_spec fnv ⟨.none, true⟩ false nulLine.bytes nulLine.bytes none
  have hbinary : sideIsBinary nulLine.bytes none = true := by decide
  rw [hbinary] at hrun
  exact hrun

end Tsgit.Whitespace
