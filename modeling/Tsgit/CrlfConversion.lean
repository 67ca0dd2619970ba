import Mathlib.Data.List.Chain
import Tsgit.TypedArray

/-!
# Line Endings in and out of the Repository

`text-stats.ts`, `crlf-action.ts` and `crlf-conversion.ts` of `src/domain/eol/`. Both directions
decide from counts of the bytes at hand. A byte string is read as its `marks`, the pairs of CR and
LF and the single bytes, and each conversion changes marks one by one.
-/

namespace Tsgit.Eol

open List

def cr : UInt8 := 0x0d

def lf : UInt8 := 0x0a

@[simp] theorem cr_ne_lf : ¬ cr = lf := by decide

@[simp] theorem lf_ne_cr : ¬ lf = cr := by decide

/-! ### Statistics -/

structure TextStats where
  nul : ℕ
  loneCr : ℕ
  loneLf : ℕ
  crlf : ℕ
  printable : ℕ
  nonPrintable : ℕ
  deriving DecidableEq

def isPrintableControl (byte : UInt8) : Bool :=
  byte = 0x08 || byte = 0x09 || byte = 0x1b || byte = 0x0c

/-- The loop's turn at a byte that opens no pair. -/
def countByte (stats : TextStats) (byte : UInt8) : TextStats :=
  if byte = cr then { stats with loneCr := stats.loneCr + 1 }
  else if byte = lf then { stats with loneLf := stats.loneLf + 1 }
  else if byte = 0x7f then { stats with nonPrintable := stats.nonPrintable + 1 }
  else if byte ≥ 0x20 || isPrintableControl byte then
    { stats with printable := stats.printable + 1 }
  else
    { stats with
      nul := if byte = 0x00 then stats.nul + 1 else stats.nul
      nonPrintable := stats.nonPrintable + 1 }

def countBytes (stats : TextStats) : Bytes → TextStats
  | [] => stats
  | [byte] => countByte stats byte
  | byte :: next :: rest =>
    if byte = cr ∧ next = lf then countBytes { stats with crlf := stats.crlf + 1 } rest
    else countBytes (countByte stats byte) (next :: rest)

def gatherTextStats (bytes : Bytes) : TextStats :=
  let stats := countBytes ⟨0, 0, 0, 0, 0, 0⟩ bytes
  -- a last SUB was counted, so one can be taken off
  if bytes.getLast? = some 0x1a then { stats with nonPrintable := stats.nonPrintable - 1 }
  else stats

def isBinaryText (stats : TextStats) : Bool :=
  stats.loneCr > 0 || stats.nul > 0 ||
    ((BitVec.ofNat 32 stats.printable).sshiftRight 7).toInt < stats.nonPrintable

/-! ### Actions -/

inductive AutoCrlf
  | off
  | on
  | input
  deriving DecidableEq

inductive LineEnding
  | lf
  | crlf
  deriving DecidableEq

inductive CoreEol
  | lf
  | crlf
  | native
  deriving DecidableEq

inductive CrlfAction
  | binary
  | textInput
  | textCrlf
  | auto
  | autoInput
  | autoCrlf
  deriving DecidableEq

structure EolSettings where
  autoCrlf : AutoCrlf
  coreEol : Option CoreEol
  nativeEol : LineEnding
  deriving DecidableEq

def textEolIsCrlf (settings : EolSettings) : Bool :=
  if settings.autoCrlf = .on then true
  else if settings.autoCrlf = .input then false
  else if settings.coreEol = some .crlf then true
  else if settings.coreEol = some .lf then false
  else settings.nativeEol = .crlf

def outputLineEnding (action : CrlfAction) (settings : EolSettings) : Option LineEnding :=
  if action = .binary then none
  else if action = .auto then some (if textEolIsCrlf settings then .crlf else .lf)
  else some (if action = .textCrlf ∨ action = .autoCrlf then .crlf else .lf)

def isAuto : CrlfAction → Bool
  | .auto | .autoInput | .autoCrlf => true
  | _ => false

/-! ### Conversions -/

def isDroppedCr (byte : UInt8) (next : Option UInt8) (dropEveryCr : Bool) : Bool :=
  byte = cr && (dropEveryCr || next = some lf)

def stripCr (dropEveryCr : Bool) : Bytes → Bytes
  | [] => []
  | byte :: rest =>
    if isDroppedCr byte rest.head? dropEveryCr then stripCr dropEveryCr rest
    else byte :: stripCr dropEveryCr rest

def willConvertLfToCrlf (stats : TextStats) (action : CrlfAction) (settings : EolSettings) :
    Bool :=
  if outputLineEnding action settings ≠ some .crlf ∨ stats.loneLf = 0 then false
  else if !isAuto action then true
  else stats.crlf = 0 && !isBinaryText stats

def withLoneLfAsCrlf (stats : TextStats) : TextStats :=
  { stats with crlf := stats.crlf + stats.loneLf, loneLf := 0 }

inductive RoundTripLoss
  | crlfToLf
  | lfToCrlf
  deriving DecidableEq

structure LineEndingLoss where
  loss : RoundTripLoss
  crlf : ℕ
  loneLf : ℕ
  deriving DecidableEq

def simulateRoundTrip (stats : TextStats) (convert : Bool) (action : CrlfAction)
    (settings : EolSettings) : Option LineEndingLoss :=
  let added := if convert then { stats with loneLf := stats.loneLf + stats.crlf, crlf := 0 }
    else stats
  let checkedOut := if willConvertLfToCrlf added action settings then withLoneLfAsCrlf added
    else added
  if stats.crlf > 0 ∧ checkedOut.crlf = 0 then some ⟨.crlfToLf, stats.crlf, stats.loneLf⟩
  else if stats.loneLf > 0 ∧ checkedOut.loneLf = 0 then
    some ⟨.lfToCrlf, stats.crlf, stats.loneLf⟩
  else none

structure CrlfToGitInput where
  bytes : Bytes
  action : CrlfAction
  settings : EolSettings
  renormalize : Bool
  indexHasCrlf : Bool
  deriving DecidableEq

structure CrlfToGitResult where
  bytes : Bytes
  roundTrip : Option LineEndingLoss
  deriving DecidableEq

def keepsIndexCrlf (input : CrlfToGitInput) : Bool :=
  isAuto input.action && !input.renormalize && input.indexHasCrlf

def crlfToGit (input : CrlfToGitInput) : CrlfToGitResult :=
  let stats := gatherTextStats input.bytes
  if input.action = .binary then ⟨input.bytes, none⟩
  else if isAuto input.action && isBinaryText stats then ⟨input.bytes, none⟩
  else
    let convert := stats.crlf > 0 && !keepsIndexCrlf input
    ⟨if convert then stripCr (isAuto input.action) input.bytes else input.bytes,
      simulateRoundTrip stats convert input.action input.settings⟩

/-- `bytes[i - 1]` is carried along; there is none at the start. -/
def insertCrFrom (before : Option UInt8) : Bytes → Bytes
  | [] => []
  | byte :: rest =>
    if byte = lf ∧ before ≠ some cr then cr :: byte :: insertCrFrom (some byte) rest
    else byte :: insertCrFrom (some byte) rest

def insertCr (bytes : Bytes) : Bytes := insertCrFrom none bytes

def crlfToWorkingTree (bytes : Bytes) (action : CrlfAction) (settings : EolSettings) : Bytes :=
  if outputLineEnding action settings ≠ some .crlf then bytes
  else if willConvertLfToCrlf (gatherTextStats bytes) action settings then insertCr bytes
  else bytes

def indexBlobHasCrlf (blob : Option Bytes) : Bool :=
  match blob with
  | none => false
  | some content => !isBinaryText (gatherTextStats content) && (gatherTextStats content).crlf > 0

/-! ### Marks -/

/-- What the statistics read at once: a pair, or a byte. -/
def marks : Bytes → List (Option UInt8)
  | [] => []
  | [byte] => [some byte]
  | byte :: next :: rest =>
    if byte = cr ∧ next = lf then none :: marks rest else some byte :: marks (next :: rest)

def text : Option UInt8 → Bytes
  | none => [cr, lf]
  | some byte => [byte]

/-- No CR stands alone before an LF. -/
def Parsed (l : List (Option UInt8)) : Prop :=
  l.IsChain fun a b => a = some cr → b ≠ some lf

/-- What checking out makes of a mark. -/
def paired (mark : Option UInt8) : Option UInt8 := if mark = some lf then none else mark

/-- What adding makes of a mark. -/
def stripped (dropEveryCr : Bool) : Option UInt8 → Bytes
  | none => [lf]
  | some byte => if byte = cr ∧ dropEveryCr then [] else [byte]

def countMark (stats : TextStats) : Option UInt8 → TextStats
  | none => { stats with crlf := stats.crlf + 1 }
  | some byte => countByte stats byte

variable {l : List (Option UInt8)}

theorem countBytes_eq (stats : TextStats) (bytes : Bytes) :
    countBytes stats bytes = (marks bytes).foldl countMark stats := by
  fun_induction countBytes stats bytes with
  | case1 => rfl
  | case2 => rfl
  | case3 stats byte next rest h ih => simp [marks, h, ih, countMark]
  | case4 stats byte next rest h ih => simp [marks, h, ih, countMark]

theorem flatMap_marks (bytes : Bytes) : (marks bytes).flatMap text = bytes := by
  fun_induction marks bytes <;> simp_all [text]

theorem head_marks (byte : UInt8) (bytes : Bytes) :
    (marks (byte :: bytes)).head? =
      some (if byte = cr ∧ bytes.head? = some lf then none else some byte) := by
  cases bytes with
  | nil => simp [marks]
  | cons next rest => by_cases h : byte = cr ∧ next = lf <;> simp [marks, h]

theorem parsed_marks (bytes : Bytes) : Parsed (marks bytes) := by
  fun_induction marks bytes with
  | case1 => exact .nil
  | case2 byte => exact .singleton _
  | case3 byte next rest h ih => exact isChain_cons.mpr ⟨by simp, ih⟩
  | case4 byte next rest h ih =>
    refine isChain_cons.mpr ⟨fun mark hmark => ?_, ih⟩
    rw [head_marks, Option.mem_some_iff] at hmark
    rintro ⟨rfl⟩ hlf
    have hne : next ≠ lf := fun heq => h ⟨rfl, heq⟩
    subst hmark
    split at hlf <;> simp_all

theorem head_text (mark : Option UInt8) (bytes : Bytes) :
    (text mark ++ bytes).head? = some lf ↔ mark = some lf := by
  cases mark <;> simp [text]

theorem marks_flatMap (h : Parsed l) : marks (l.flatMap text) = l := by
  induction l with
  | nil => rfl
  | cons mark l ih =>
    obtain ⟨hhead, hrest⟩ := isChain_cons.mp h
    have hmarks := ih hrest
    cases mark with
    | none => simp [text, marks, hmarks]
    | some byte =>
      cases hbytes : l.flatMap text with
      | nil =>
        rw [hbytes] at hmarks
        simp [← hmarks, text, marks]
      | cons next rest =>
        have hnot : ¬ (byte = cr ∧ next = lf) := by
          rintro ⟨rfl, rfl⟩
          cases l with
          | nil => simp at hbytes
          | cons mark' l =>
            have hlf := (head_text mark' (l.flatMap text)).mp (by
              rw [← flatMap_cons, hbytes]; rfl)
            exact hhead mark' (by simp) rfl hlf
        rw [hbytes] at hmarks
        rw [flatMap_cons, hbytes]
        simp [text, marks, hnot, hmarks]

theorem Parsed.paired (h : Parsed l) : Parsed (l.map paired) := by
  rw [Parsed, isChain_map]
  refine h.imp fun a b _ _ hb => ?_
  rw [Eol.paired] at hb
  split at hb <;> simp_all

theorem insertCrFrom_flatMap {before : Option UInt8} (h : Parsed l)
    (hbefore : before = some cr → l.head? ≠ some (some lf)) :
    insertCrFrom before (l.flatMap text) = (l.map paired).flatMap text := by
  induction l generalizing before with
  | nil => rfl
  | cons mark l ih =>
    obtain ⟨hhead, hrest⟩ := isChain_cons.mp h
    cases mark with
    | none =>
      have hnext := @ih (some lf) hrest (by simp)
      simp [text, paired, insertCrFrom, hnext]
    | some byte =>
      have hnext := @ih (some byte) hrest fun hcr hlf =>
        hhead (some lf) hlf hcr rfl
      by_cases hbyte : byte = lf
      · subst hbyte
        have hnot : before ≠ some cr := fun hcr => hbefore hcr rfl
        simp [text, paired, insertCrFrom, hnext, hnot]
      · simp [text, paired, insertCrFrom, hnext, hbyte]

theorem insertCr_flatMap (h : Parsed l) :
    insertCr (l.flatMap text) = (l.map paired).flatMap text :=
  insertCrFrom_flatMap h (by simp)

theorem stripCr_flatMap (h : Parsed l) (dropEveryCr : Bool) :
    stripCr dropEveryCr (l.flatMap text) = l.flatMap (stripped dropEveryCr) := by
  induction l with
  | nil => rfl
  | cons mark l ih =>
    obtain ⟨hhead, hrest⟩ := isChain_cons.mp h
    cases mark with
    | none => simp [text, stripped, stripCr, isDroppedCr, ih hrest]
    | some byte =>
      have hnot : byte = cr → (l.flatMap text).head? ≠ some lf := by
        rintro rfl hlf
        cases l with
        | nil => simp at hlf
        | cons mark' l =>
          rw [flatMap_cons] at hlf
          exact hhead mark' (by simp) rfl ((head_text _ _).mp hlf)
      by_cases hbyte : byte = cr
      · cases dropEveryCr <;> simp [text, stripped, stripCr, isDroppedCr, ih hrest, hbyte, hnot]
      · simp [text, stripped, stripCr, isDroppedCr, ih hrest, hbyte]

/-! ### Counts -/

theorem foldl_countMark (stats : TextStats) (l : List (Option UInt8)) :
    (l.foldl countMark stats).crlf = stats.crlf + l.count none ∧
      (l.foldl countMark stats).loneLf = stats.loneLf + l.count (some lf) ∧
      (l.foldl countMark stats).loneCr = stats.loneCr + l.count (some cr) := by
  induction l generalizing stats with
  | nil => simp
  | cons mark l ih =>
    obtain ⟨hcrlf, hlf, hcr⟩ := ih (countMark stats mark)
    rw [foldl_cons, hcrlf, hlf, hcr]
    cases mark with
    | none => simp [countMark]; omega
    | some byte =>
      simp only [countMark, countByte, count_cons]
      refine ⟨?_, ?_, ?_⟩ <;> split_ifs <;> simp_all <;> omega

theorem gatherTextStats_counts (h : Parsed l) :
    (gatherTextStats (l.flatMap text)).crlf = l.count none ∧
      (gatherTextStats (l.flatMap text)).loneLf = l.count (some lf) ∧
      (gatherTextStats (l.flatMap text)).loneCr = l.count (some cr) := by
  have hfold := foldl_countMark ⟨0, 0, 0, 0, 0, 0⟩ l
  simp only [gatherTextStats, countBytes_eq, marks_flatMap h]
  split <;> simpa using hfold

/-- The counts that no line ending enters. -/
def TextStats.textual (stats : TextStats) : ℕ × ℕ × ℕ × ℕ :=
  (stats.nul, stats.loneCr, stats.printable, stats.nonPrintable)

theorem textual_foldl {stats stats' : TextStats} (h : stats.textual = stats'.textual)
    (l : List (Option UInt8)) :
    (l.foldl countMark stats).textual = ((l.map paired).foldl countMark stats').textual := by
  induction l generalizing stats stats' with
  | nil => exact h
  | cons mark l ih =>
    rw [map_cons, foldl_cons, foldl_cons]
    refine ih ?_
    simp only [TextStats.textual, Prod.mk.injEq] at h ⊢
    obtain ⟨hnul, hcr, hprintable, hnon⟩ := h
    by_cases hlf : mark = some lf
    · simp [paired, hlf, countMark, countByte, cr, lf, hnul, hcr, hprintable, hnon]
    rw [paired, if_neg hlf]
    cases mark with
    | none => exact ⟨hnul, hcr, hprintable, hnon⟩
    | some byte =>
      simp only [countMark, countByte]
      split_ifs <;> simp [hnul, hcr, hprintable, hnon]

theorem getLast_flatMap (l : List (Option UInt8)) :
    ((l.map paired).flatMap text).getLast? = (l.flatMap text).getLast? := by
  induction l using List.reverseRecOn with
  | nil => rfl
  | append_singleton l mark _ =>
    have hlast : ∀ (front : Bytes) (mark : Option UInt8),
        (front ++ text (paired mark)).getLast? = (text mark).getLast? := by
      intro front mark
      by_cases hlf : mark = some lf
      · simp [paired, hlf, text, getLast?_append]
      · rw [paired, if_neg hlf]
        cases mark <;> simp [text, getLast?_append]
    have hsame := hlast (l.flatMap text) mark
    cases mark <;> simp_all [text, getLast?_append]

theorem isBinaryText_paired (h : Parsed l) :
    isBinaryText (gatherTextStats ((l.map paired).flatMap text)) =
      isBinaryText (gatherTextStats (l.flatMap text)) := by
  have hfold := @textual_foldl ⟨0, 0, 0, 0, 0, 0⟩ _ rfl l
  have hsame : (gatherTextStats ((l.map paired).flatMap text)).textual =
      (gatherTextStats (l.flatMap text)).textual := by
    simp only [TextStats.textual, Prod.mk.injEq] at hfold ⊢
    simp only [gatherTextStats, getLast_flatMap, countBytes_eq, marks_flatMap h,
      marks_flatMap h.paired]
    split <;> simp [hfold]
  simp only [TextStats.textual, Prod.mk.injEq] at hsame
  simp [isBinaryText, hsame]

/-! ### Checking out and adding back -/

theorem flatMap_congr_of_mem {f g : Option UInt8 → Bytes} (h : ∀ mark ∈ l, f mark = g mark) :
    l.flatMap f = l.flatMap g := by
  rw [flatMap_def, flatMap_def, map_congr_left h]

theorem infix_iff (bytes : Bytes) : [cr, lf] <:+: bytes ↔ none ∈ marks bytes := by
  fun_induction marks bytes with
  | case1 => simp
  | case2 byte => simp [infix_cons_iff]
  | case3 byte next rest h ih => simp [infix_cons_iff, h]
  | case4 byte next rest h ih =>
    rw [infix_cons_iff, ih, mem_cons]
    simp [cons_prefix_cons, eq_comm] at h ⊢
    exact fun hcr hlf => absurd hlf (h hcr)

/-- **A file that is checked out is added back as its blob**, where the blob has no pair. -/
theorem checkedOut_addedBack (action : CrlfAction) (settings : EolSettings) (renormalize : Bool)
    (blob : Bytes) (hblob : ¬ [cr, lf] <:+: blob) :
    (crlfToGit ⟨crlfToWorkingTree blob action settings, action, settings, renormalize,
      indexBlobHasCrlf (some blob)⟩).bytes = blob := by
  obtain ⟨l, hl, rfl⟩ : ∃ l, Parsed l ∧ l.flatMap text = blob :=
    ⟨marks blob, parsed_marks blob, flatMap_marks blob⟩
  have hnone : none ∉ l := fun hmem => hblob ((infix_iff _).mpr (by rwa [marks_flatMap hl]))
  obtain ⟨hcrlf, hlf, hcr⟩ := gatherTextStats_counts hl
  obtain ⟨hcrlf', hlf', hcr'⟩ := gatherTextStats_counts hl.paired
  rw [count_eq_zero.mpr hnone] at hcrlf
  have hindex : indexBlobHasCrlf (some (l.flatMap text)) = false := by
    simp [indexBlobHasCrlf, hcrlf]
  rw [hindex, crlfToWorkingTree]
  split_ifs with hending hconvert
  · simp [crlfToGit, hcrlf]
    split_ifs <;> rfl
  · -- the pairs that checking out made are the only ones, and no CR stands beside them
    have hauto : isAuto action = true → isBinaryText (gatherTextStats (l.flatMap text)) = false := by
      intro hauto
      simp [willConvertLfToCrlf, hauto] at hconvert
      exact hconvert.2.2
    have hback : (l.map paired).flatMap (stripped (isAuto action)) = l.flatMap text := by
      rw [flatMap_map]
      refine flatMap_congr_of_mem fun mark hmark => ?_
      cases mark with
      | none => exact absurd hmark hnone
      | some byte =>
        by_cases hbyte : byte = lf
        · simp [paired, hbyte, stripped, text]
        have hlone : isAuto action = true → byte ≠ cr := by
          rintro hisAuto rfl
          have hbinary := hauto hisAuto
          simp [isBinaryText, hcr] at hbinary
          exact hbinary.1.1 hmark
        have hkept : ¬ (byte = cr ∧ isAuto action = true) := fun h => hlone h.2 h.1
        simp [paired, hbyte, stripped, text, hkept]
    have hpairs : 0 < (gatherTextStats ((l.map paired).flatMap text)).crlf := by
      simp [willConvertLfToCrlf, hlf] at hconvert
      rw [hcrlf', count_pos_iff]
      have hmem : some lf ∈ l := count_pos_iff.mp (Nat.pos_of_ne_zero hconvert.1.2)
      exact mem_map.mpr ⟨some lf, hmem, by simp [paired]⟩
    have haction : action ≠ .binary := by
      rintro rfl
      simp [outputLineEnding] at hending
    rw [insertCr_flatMap hl, crlfToGit]
    dsimp only
    rw [if_neg haction, isBinaryText_paired hl]
    split_ifs with hbinary hstrip
    · simp [hauto (by simp_all)] at hbinary
    · rw [stripCr_flatMap hl.paired, hback]
    · simp [hpairs, keepsIndexCrlf] at hstrip
  · simp [crlfToGit, hcrlf]
    split_ifs <;> rfl

theorem checkedOut_addedBack_line : ¬ [cr, lf] <:+: [0x61, lf] ∧
    (crlfToGit ⟨crlfToWorkingTree [0x61, lf] .autoCrlf ⟨.off, none, .lf⟩, .autoCrlf,
      ⟨.off, none, .lf⟩, false, indexBlobHasCrlf (some [0x61, lf])⟩).bytes = [0x61, lf] :=
  ⟨by decide, checkedOut_addedBack .autoCrlf ⟨.off, none, .lf⟩ false [0x61, lf] (by decide)⟩

/-! ### The report -/

theorem crcrlf_infix_iff (bytes : Bytes) :
    [cr, cr, lf] <:+: bytes ↔ ¬ (marks bytes).IsChain fun a b => a = some cr → b ≠ none := by
  fun_induction marks bytes with
  | case1 => simp
  | case2 byte => simp [infix_cons_iff]
  | case3 byte next rest h ih =>
    obtain ⟨rfl, rfl⟩ := h
    rw [infix_cons_iff, infix_cons_iff, ih, isChain_cons]
    simp
  | case4 byte next rest h ih =>
    rw [infix_cons_iff, ih, isChain_cons, head_marks]
    cases rest with
    | nil => simp [cons_prefix_cons]
    | cons last rest =>
      by_cases hpair : next = cr ∧ last = lf <;>
        simp [cons_prefix_cons, hpair, eq_comm, imp_iff_not_or]

/-- **A CR before a pair is what adding loses**: the pair's own CR is taken for one that is kept. -/
theorem insertCr_stripped {before : Option UInt8} (hlf : some lf ∉ l) :
    insertCrFrom before (l.flatMap (stripped false)) = l.flatMap text ↔
      (before = some cr → l.head? ≠ some none) ∧
        l.IsChain fun a b => a = some cr → b ≠ none := by
  induction l generalizing before with
  | nil => simp [insertCrFrom]
  | cons mark l ih =>
    simp only [mem_cons, not_or] at hlf
    rw [isChain_cons, flatMap_cons, flatMap_cons]
    cases mark with
    | none =>
      have hnext := @ih (some lf) hlf.2
      by_cases hbefore : before = some cr <;>
        simp_all [stripped, text, insertCrFrom, eq_comm]
    | some byte =>
      have hnext := @ih (some byte) hlf.2
      have hbyte : ¬ byte = lf := fun heq => hlf.1 (heq ▸ rfl)
      simp [stripped, text, insertCrFrom, hbyte, hnext]
      cases l.head? <;> simp

theorem map_paired_eq_self (hlf : some lf ∉ l) : l.map paired = l := by
  have hsame : ∀ mark ∈ l, paired mark = id mark := fun mark hmark =>
    if_neg fun heq => hlf (by rwa [heq] at hmark)
  rw [map_congr_left hsame, map_id]

variable {settings : EolSettings} {action : CrlfAction}

theorem crlfToWorkingTree_text
    (hauto : isAuto action = false) (hending : outputLineEnding action settings = some .crlf)
    (bytes : Bytes) : crlfToWorkingTree bytes action settings = insertCr bytes := by
  rw [crlfToWorkingTree, if_neg (not_not_intro hending)]
  split_ifs with hconvert
  · rfl
  have hl := parsed_marks bytes
  obtain ⟨-, hlf, -⟩ := gatherTextStats_counts hl
  have hinsert := insertCr_flatMap hl
  rw [flatMap_marks] at hlf hinsert
  have hnone : some lf ∉ marks bytes := by
    simp [willConvertLfToCrlf, hending, hauto, hlf] at hconvert
    exact count_eq_zero.mp hconvert
  rw [hinsert, map_paired_eq_self hnone, flatMap_marks]

/-- What the counts say where nothing is reported. -/
theorem unreported {stats : TextStats} {convert : Bool} (hcrlf : convert = true → 0 < stats.crlf)
    (h : simulateRoundTrip stats convert action settings = none) :
    if convert then outputLineEnding action settings = some .crlf ∧ stats.loneLf = 0
    else willConvertLfToCrlf stats action settings = false := by
  cases convert with
  | false =>
    by_contra hwill
    simp only [Bool.false_eq_true, if_false, Bool.not_eq_false] at hwill
    have hlf : stats.loneLf ≠ 0 := by
      intro hzero
      simp [willConvertLfToCrlf, hzero] at hwill
    simp [simulateRoundTrip, hwill, withLoneLfAsCrlf] at h
    split_ifs at h with hcond
    omega
  | true =>
    have hpos := hcrlf rfl
    simp only [simulateRoundTrip, if_true] at h ⊢
    split_ifs at h with hwill
    · simp_all [withLoneLfAsCrlf, willConvertLfToCrlf]
    · simp_all

theorem crlfToWorkingTree_auto {bytes : Bytes}
    (hauto : isAuto action = true) (hending : outputLineEnding action settings = some .crlf)
    (htextual : isBinaryText (gatherTextStats bytes) = false)
    (hnocr : some cr ∉ marks bytes) (hnolf : some lf ∉ marks bytes) (hpair : none ∈ marks bytes) :
    crlfToWorkingTree (stripCr true bytes) action settings = bytes := by
  obtain ⟨l, hl⟩ : ∃ l, l = (marks bytes).map fun mark => some (mark.getD lf) := ⟨_, rfl⟩
  have hparsed : Parsed l := by
    refine (pairwise_of_forall_mem_list fun a ha b _ hcr => ?_).isChain
    rw [hl, mem_map] at ha
    obtain ⟨mark, hmark, rfl⟩ := ha
    cases mark <;> simp_all
  have hstrip : stripCr true bytes = l.flatMap text := by
    have hparts := stripCr_flatMap (parsed_marks bytes) true
    rw [flatMap_marks] at hparts
    rw [hparts, hl, flatMap_map]
    refine flatMap_congr_of_mem fun mark hmark => ?_
    cases mark with
    | none => rfl
    | some byte =>
      have hbyte : ¬ byte = cr := fun heq => hnocr (heq ▸ hmark)
      simp [stripped, text, hbyte]
  have hback : l.map paired = marks bytes := by
    have hsame : ∀ mark ∈ marks bytes, paired (some (mark.getD lf)) = id mark := by
      intro mark hmark
      cases mark with
      | none => simp [paired]
      | some byte =>
        have hbyte : ¬ byte = lf := fun heq => hnolf (heq ▸ hmark)
        simp [paired, hbyte]
    rw [hl, map_map]
    exact (map_congr_left hsame).trans (map_id _)
  have hbinary := isBinaryText_paired hparsed
  rw [hback, flatMap_marks, htextual] at hbinary
  obtain ⟨hcrlf, hlf, -⟩ := gatherTextStats_counts hparsed
  have hnopair : l.count none = 0 := count_eq_zero.mpr (by simp [hl])
  have hlone : l.count (some lf) ≠ 0 := by
    refine (count_pos_iff.mpr ?_).ne'
    rw [hl, mem_map]
    exact ⟨none, hpair, rfl⟩
  have hinsert := insertCr_flatMap hparsed
  rw [hback, flatMap_marks] at hinsert
  rw [hstrip, crlfToWorkingTree, if_neg (not_not_intro hending), if_pos, hinsert]
  simp [willConvertLfToCrlf, hending, hauto, hcrlf, hlf, hnopair, hlone, ← hbinary]

/-- **Where no loss is reported**, what is added is checked out as it was, but for a CR that
stands before a pair where the action does not look for binary content. -/
theorem crlfToGit_unreported_iff (input : CrlfToGitInput) (h : (crlfToGit input).roundTrip = none) :
    crlfToWorkingTree (crlfToGit input).bytes input.action input.settings = input.bytes ↔
      isAuto input.action = true ∨ input.action = .binary ∨ ¬ [cr, cr, lf] <:+: input.bytes := by
  obtain ⟨bytes, action, settings, renormalize, indexHasCrlf⟩ := input
  by_cases hbinary : action = .binary
  · simp [crlfToGit, crlfToWorkingTree, outputLineEnding, hbinary]
  have hl := parsed_marks bytes
  obtain ⟨hcrlf, hlf, hcr⟩ := gatherTextStats_counts hl
  rw [flatMap_marks] at hcrlf hlf hcr
  by_cases hskip : (isAuto action && isBinaryText (gatherTextStats bytes)) = true
  · simp only [Bool.and_eq_true] at hskip
    simp [crlfToGit, crlfToWorkingTree, willConvertLfToCrlf, hbinary, hskip]
  simp only [crlfToGit, if_neg hbinary, if_neg hskip] at h ⊢
  have hreport := unreported (by simp; omega) h
  by_cases hconvert : ((gatherTextStats bytes).crlf > 0 && !keepsIndexCrlf
      ⟨bytes, action, settings, renormalize, indexHasCrlf⟩) = true
  · rw [if_pos hconvert] at hreport ⊢
    obtain ⟨hending, hnolf⟩ := hreport
    have hnone : some lf ∉ marks bytes := count_eq_zero.mp (hlf ▸ hnolf)
    by_cases hauto : isAuto action = true
    · refine iff_of_true ?_ (.inl hauto)
      have htextual : isBinaryText (gatherTextStats bytes) = false := by
        simpa [hauto] using hskip
      have hnocr : some cr ∉ marks bytes := by
        simp [isBinaryText, hcr] at htextual
        exact htextual.1.1
      rw [hauto]
      refine crlfToWorkingTree_auto hauto hending htextual hnocr hnone (count_pos_iff.mp ?_)
      simp at hconvert
      omega
    · have hstrip := stripCr_flatMap hl false
      rw [flatMap_marks] at hstrip
      have hback := @insertCr_stripped _ none hnone
      rw [flatMap_marks] at hback
      rw [crlfToWorkingTree_text (Bool.eq_false_iff.mpr hauto) hending,
        Bool.eq_false_iff.mpr hauto, hstrip, insertCr, hback, crcrlf_infix_iff]
      simp [hbinary]
  · rw [if_neg hconvert] at hreport ⊢
    have hsame : crlfToWorkingTree bytes action settings = bytes := by
      simp [crlfToWorkingTree, hreport]
    refine iff_of_true hsame ?_
    by_cases hauto : isAuto action = true
    · exact .inl hauto
    refine .inr (.inr fun hinfix => ?_)
    have hpair : none ∈ marks bytes := (infix_iff bytes).mp
      ((suffix_cons cr [cr, lf]).isInfix.trans hinfix)
    have hpos := count_pos_iff.mpr hpair
    simp [keepsIndexCrlf, hauto] at hconvert
    omega

theorem crlfToGit_unreported_iff_pair :
    crlfToWorkingTree (crlfToGit ⟨[0x61, cr, lf], .textCrlf, ⟨.off, none, .lf⟩, false,
      false⟩).bytes .textCrlf ⟨.off, none, .lf⟩ = [0x61, cr, lf] :=
  (crlfToGit_unreported_iff ⟨[0x61, cr, lf], .textCrlf, ⟨.off, none, .lf⟩, false, false⟩
    (by decide)).mpr (by decide)

/-- The CR before the pair is not given back, and no loss is reported. -/
theorem crBeforePair_lost :
    (crlfToGit ⟨[cr, cr, lf], .textCrlf, ⟨.off, none, .lf⟩, false, false⟩).roundTrip = none ∧
      crlfToWorkingTree (crlfToGit ⟨[cr, cr, lf], .textCrlf, ⟨.off, none, .lf⟩, false,
        false⟩).bytes .textCrlf ⟨.off, none, .lf⟩ ≠ [cr, cr, lf] := by
  decide

end Tsgit.Eol
