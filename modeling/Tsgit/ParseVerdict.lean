import Tsgit.ParseAcceptance

/-!
# The Rules behind the Verdicts

What the scan of `src/domain/objects/parse-acceptance.ts` accepts, read off the whole body. A
tag is taken by its rule but for two kinds of bodies: a byte-order mark in front of the name of
the type, and a name that a NUL makes long.
-/

namespace Tsgit.ParseAcceptance

open List Tsgit.IndexFile Tsgit.Objects Tsgit.Path

/-! ### The rules -/

def HexLine (keyword : Bytes) (h : ℕ) (hex rest bytes : Bytes) : Prop :=
  hex.length = h ∧ isAllHex hex = true ∧ bytes = keyword ++ (hex ++ lineFeed :: rest)

/-- The parent lines in front of the bytes. A line that begins like one, and is long enough, is one.
-/
inductive ParentLines (h : ℕ) : List Bytes → Bytes → Prop
  | done {rest : Bytes} (hother : ¬ (startsWith rest parentPrefix = true ∧ h + 8 ≤ rest.length)) :
      ParentLines h [] rest
  | line {hex rest bytes : Bytes} {parents : List Bytes}
      (hline : HexLine parentPrefix h hex rest bytes) (hmore : rest ≠ [])
      (hparents : ParentLines h parents rest) : ParentLines h (hex :: parents) bytes

def CommitRule (h : ℕ) (parentLookups : ParentLookups) (body : Bytes) : Prop :=
  h + 6 < body.length ∧ ∃ tree rest parents, HexLine treePrefix h tree rest body ∧
    ParentLines h parents rest ∧
    (parentLookups = .checked → ∀ parent ∈ parents, decodeLowerHex parent ≠ decodeLowerHex tree)

def TypedTag (h : ℕ) (name rest body : Bytes) : Prop :=
  h + 24 ≤ body.length ∧ ∃ hex after, HexLine objectPrefix h hex after body ∧
    after = typePrefix ++ (name ++ lineFeed :: rest) ∧ lineFeed ∉ name ∧
    name.length < maxTypeNameBytes

def beforeNul (name : Bytes) : Bytes := name.takeWhile fun byte => byte ≠ 0

def IsKnownType (name : Bytes) : Prop := ∃ type ∈ knownTagTypes, beforeNul name = encode type

def TagLine (bytes : Bytes) : Prop := ∃ after, bytes = tagPrefix ++ after ∧ lineFeed ∈ after

def TagRule (h : ℕ) (body : Bytes) : Prop :=
  ∃ name rest, TypedTag h name rest body ∧ IsKnownType name ∧ TagLine rest

/-! ### Lines in windows -/

theorem startsWith_window {bytes literal : Bytes} {stop : ℕ} (h : literal.length ≤ stop) :
    startsWith (subarray bytes 0 stop) literal = startsWith bytes literal := by
  rw [startsWith, startsWith, subarray_zero, subarray_zero, subarray_zero, take_take,
    Nat.min_eq_left h]

theorem subarray_window {bytes : Bytes} {start stop limit : ℕ} (h : stop ≤ limit) :
    subarray (subarray bytes 0 limit) start stop = subarray bytes start stop := by
  rw [subarray_zero, subarray, subarray, drop_take, take_take,
    Nat.min_eq_left (Nat.sub_le_sub_right h start)]

theorem getElem?_window {bytes : Bytes} {i limit : ℕ} (h : i < limit) :
    (subarray bytes 0 limit)[i]? = bytes[i]? := by
  rw [subarray_zero, getElem?_take_of_lt h]

/-- **A line with an id**, by its place in the bytes. -/
theorem hexLine_iff {keyword bytes hex rest : Bytes} {h size : ℕ} (hsize : keyword.length = size) :
    HexLine keyword h hex rest bytes ↔
      (startsWith bytes keyword = true ∧ isAllHex (subarray bytes size (size + h)) = true ∧
        bytes[size + h]? = some lineFeed) ∧
      hex = subarray bytes size (size + h) ∧ rest = bytes.drop (size + h + 1) := by
  constructor
  · rintro ⟨hlength, hhex, rfl⟩
    have hpart : subarray (keyword ++ (hex ++ lineFeed :: rest)) size (size + h) = hex := by
      rw [← hsize, ← hlength]
      exact subarray_append_left keyword hex (lineFeed :: rest)
    refine ⟨⟨startsWith_iff.mpr ⟨_, rfl⟩, by rw [hpart]; exact hhex, ?_⟩, hpart.symm, ?_⟩
    · rw [getElem?_append_right (by omega), getElem?_append_right (by omega)]
      have hzero : size + h - keyword.length - hex.length = 0 := by omega
      rw [hzero, getElem?_cons_zero]
    have hall : keyword ++ (hex ++ lineFeed :: rest) = (keyword ++ hex ++ [lineFeed]) ++ rest := by
      rw [append_assoc, append_assoc]
      rfl
    have hfront : size + h + 1 = (keyword ++ hex ++ [lineFeed]).length := by
      rw [length_append, length_append, length_singleton]
      omega
    rw [hall, hfront, drop_left]
  · rintro ⟨⟨hkeyword, hhex, hend⟩, rfl, rfl⟩
    obtain ⟨after, rfl⟩ := startsWith_iff.mp hkeyword
    have hdrop : (keyword ++ after).drop size = after := by
      rw [← hsize]
      exact drop_left
    have hpart : subarray (keyword ++ after) size (size + h) = after.take h := by
      rw [subarray, hdrop, Nat.add_sub_cancel_left]
    have hafter : after[h]? = some lineFeed := by
      rw [getElem?_append_right (by omega)] at hend
      have hplace : size + h - keyword.length = h := by omega
      rwa [hplace] at hend
    have hinside := (List.getElem?_eq_some_iff.mp hafter).1
    have hrest : (keyword ++ after).drop (size + h + 1) = after.drop (h + 1) := by
      rw [Nat.add_assoc, ← drop_drop, hdrop]
    refine ⟨?_, hhex, ?_⟩
    · rw [hpart, length_take]
      omega
    · rw [hpart, hrest, ← drop_eq_cons hafter, take_append_drop]

/-! ### Commits -/

/-- The test of the loop over the parents. -/
def AcceptsParents (parentLookups : ParentLookups) (scan : CommitScan) : Prop :=
  scan.grammarRefusal = none ∧ scan.carry.length ≠ scan.hexLength + 8 ∧
    (parentLookups = .checked → scan.parentMatchingTree = none)

variable {scan : CommitScan}

theorem feedCommitParents_waits
    (hshort : scan.carry.length < 7 ∨ startsWith scan.carry parentPrefix = true ∧
      scan.carry.length < scan.hexLength + 9) : feedCommitParents scan = none := by
  rw [feedCommitParents]
  dsimp only
  by_cases hseven : scan.carry.length < 7
  · rw [if_pos hseven]
  · obtain ⟨hparent, hlong⟩ := hshort.resolve_left hseven
    rw [if_neg hseven, hparent, if_neg (by decide), if_pos hlong]

/-- Another keyword ends the parents. -/
theorem feedCommitParents_other (hseven : ¬ scan.carry.length < 7)
    (hother : ¬ startsWith scan.carry parentPrefix = true) :
    feedCommitParents scan = some { scan with phase := .tail, carry := [] } := by
  rw [feedCommitParents]
  dsimp only
  rw [if_neg hseven, Bool.eq_false_iff.mpr hother, if_pos (by decide)]

theorem feedCommitParents_line
    (hparent : startsWith scan.carry parentPrefix = true)
    (hlong : ¬ scan.carry.length < scan.hexLength + 9) :
    feedCommitParents scan =
      if isAllHex (subarray scan.carry 7 (7 + scan.hexLength)) = true ∧
          scan.carry[scan.hexLength + 7]? = some lineFeed then
        some { scan with
          carry := scan.carry.drop (scan.hexLength + 8)
          parentMatchingTree :=
            if some (decodeLowerHex (subarray scan.carry 7 (7 + scan.hexLength))) = scan.treeHex
            then some (decodeLowerHex (subarray scan.carry 7 (7 + scan.hexLength)))
            else scan.parentMatchingTree }
      else some { scan with phase := .tail, carry := [], grammarRefusal := some badParents } := by
  have hwindow : subarray (subarray scan.carry 0 (scan.hexLength + 8)) 7
      (7 + scan.hexLength) = subarray scan.carry 7 (7 + scan.hexLength) :=
    subarray_window (by omega)
  have hend : (subarray scan.carry 0 (scan.hexLength + 8))[scan.hexLength + 7]? =
      scan.carry[scan.hexLength + 7]? := getElem?_window (by omega)
  rw [feedCommitParents]
  dsimp only
  rw [if_neg (by omega), hparent, if_neg (by decide), if_neg hlong, hwindow, hend]
  by_cases hgood : isAllHex (subarray scan.carry 7 (7 + scan.hexLength)) = true ∧
      scan.carry[scan.hexLength + 7]? = some lineFeed
  · have hnot : ¬ (!isAllHex (subarray scan.carry 7 (7 + scan.hexLength)) ||
        decide (scan.carry[scan.hexLength + 7]? ≠ some lineFeed)) = true := by
      rw [hgood.1, Bool.not_true, Bool.false_or, decide_eq_true_iff]
      exact not_not_intro hgood.2
    rw [if_neg hnot, if_pos hgood]
  have hbad : (!isAllHex (subarray scan.carry 7 (7 + scan.hexLength)) ||
      decide (scan.carry[scan.hexLength + 7]? ≠ some lineFeed)) = true := by
    rw [Bool.or_eq_true, Bool.not_eq_true', decide_eq_true_iff]
    by_cases hhex : isAllHex (subarray scan.carry 7 (7 + scan.hexLength)) = true
    · exact .inr fun heq => hgood ⟨hhex, heq⟩
    · exact .inl (Bool.eq_false_iff.mpr hhex)
  rw [if_pos hbad, if_neg hgood]

/-- **The loop over the parents** takes the lines that the rule takes. -/
theorem acceptsParents_drain (parentLookups : ParentLookups) (scan : CommitScan)
    (hphase : scan.phase = .parents) (hgrammar : scan.grammarRefusal = none) :
    ((commitScanner.drain scan).hexLength = scan.hexLength ∧
      (commitScanner.drain scan).totalBytes = scan.totalBytes ∧
      (commitScanner.drain scan).treeLineRefusal = scan.treeLineRefusal ∧
      (commitScanner.drain scan).treePointerRefusal = scan.treePointerRefusal) ∧
    (AcceptsParents parentLookups (commitScanner.drain scan) ↔
      ∃ parents, ParentLines scan.hexLength parents scan.carry ∧
        (parentLookups = .checked → scan.parentMatchingTree = none ∧
          ∀ parent ∈ parents, some (decodeLowerHex parent) ≠ scan.treeHex)) := by
  induction hn : scan.carry.length using Nat.strongRecOn generalizing scan with
  | ind n ih =>
    have hstepped : commitScanner.step scan = feedCommitParents scan := by
      have hstep : stepCommit scan = feedCommitParents scan := by rw [stepCommit, hphase]
      exact hstep
    have hlengthPrefix : parentPrefix.length = 7 := rfl
    have hnone : ¬ (startsWith scan.carry parentPrefix = true ∧
        scan.hexLength + 8 ≤ scan.carry.length) →
        ((parentLookups = .checked → scan.parentMatchingTree = none) ↔
          ∃ parents, ParentLines scan.hexLength parents scan.carry ∧
            (parentLookups = .checked → scan.parentMatchingTree = none ∧
              ∀ parent ∈ parents, some (decodeLowerHex parent) ≠ scan.treeHex)) := by
      intro hother
      constructor
      · exact fun h => ⟨[], .done hother, fun hchecked =>
          ⟨h hchecked, forall_mem_nil _⟩⟩
      · rintro ⟨parents, -, h⟩ hchecked
        exact (h hchecked).1
    by_cases hseven : scan.carry.length < 7
    · have hstop := hstepped.trans (feedCommitParents_waits (.inl hseven))
      rw [Scanner.drain_of_none hstop]
      refine ⟨⟨rfl, rfl, rfl, rfl⟩, Iff.trans ?_ (hnone fun h => by omega)⟩
      exact ⟨fun h => h.2.2, fun h => ⟨hgrammar, by omega, h⟩⟩
    by_cases hparent : startsWith scan.carry parentPrefix = true
    · by_cases hlong : scan.carry.length < scan.hexLength + 9
      · have hstop := hstepped.trans (feedCommitParents_waits (.inr ⟨hparent, hlong⟩))
        rw [Scanner.drain_of_none hstop]
        refine ⟨⟨rfl, rfl, rfl, rfl⟩, ?_⟩
        by_cases hlast : scan.carry.length = scan.hexLength + 8
        · refine iff_of_false (fun h => h.2.1 hlast) ?_
          rintro ⟨parents, hlines, -⟩
          cases hlines with
          | done hother => exact hother ⟨hparent, by omega⟩
          | line hline hmore hparents =>
            have hsum := congrArg length hline.2.2
            rw [length_append, length_append, length_cons, hline.1] at hsum
            exact hmore (length_eq_zero_iff.mp (by omega))
        · refine Iff.trans ?_ (hnone fun h => by omega)
          exact ⟨fun h => h.2.2, fun h => ⟨hgrammar, hlast, h⟩⟩
      · have hline := hstepped.trans (feedCommitParents_line hparent hlong)
        by_cases hgood : isAllHex (subarray scan.carry 7 (7 + scan.hexLength)) = true ∧
            scan.carry[scan.hexLength + 7]? = some lineFeed
        · obtain ⟨next, hnext⟩ : ∃ next, next = { scan with
            carry := scan.carry.drop (scan.hexLength + 8)
            parentMatchingTree :=
              if some (decodeLowerHex (subarray scan.carry 7 (7 + scan.hexLength))) = scan.treeHex
              then some (decodeLowerHex (subarray scan.carry 7 (7 + scan.hexLength)))
              else scan.parentMatchingTree } := ⟨_, rfl⟩
          have hstep : commitScanner.step scan = some next := by
            rw [hline, if_pos hgood, hnext]
          have hcarry : next.carry = scan.carry.drop (scan.hexLength + 8) := by rw [hnext]
          have hshort : next.carry.length < n := by
            rw [hcarry, length_drop]
            omega
          obtain ⟨hsame, hrest⟩ := ih _ hshort next (by rw [hnext]; exact hphase)
            (by rw [hnext]; exact hgrammar) rfl
          have hkept : next.hexLength = scan.hexLength ∧ next.totalBytes = scan.totalBytes ∧
              next.treeLineRefusal = scan.treeLineRefusal ∧
              next.treePointerRefusal = scan.treePointerRefusal ∧ next.treeHex = scan.treeHex := by
            rw [hnext]
            exact ⟨rfl, rfl, rfl, rfl, rfl⟩
          have hmatching : next.parentMatchingTree = none ↔ scan.parentMatchingTree = none ∧
              some (decodeLowerHex (subarray scan.carry 7 (7 + scan.hexLength))) ≠
                scan.treeHex := by
            rw [hnext]
            dsimp only
            split
            · next hsameTree =>
              exact iff_of_false (fun h => by cases h) fun h => h.2 hsameTree
            · next hother => exact (and_iff_left hother).symm
          rw [Scanner.drain_of_some hstep]
          refine ⟨⟨hsame.1.trans hkept.1, hsame.2.1.trans hkept.2.1,
            hsame.2.2.1.trans hkept.2.2.1, hsame.2.2.2.trans hkept.2.2.2.1⟩, hrest.trans ?_⟩
          have hplace : scan.hexLength + 7 = 7 + scan.hexLength := Nat.add_comm _ _
          have htaken : HexLine parentPrefix scan.hexLength
              (subarray scan.carry 7 (7 + scan.hexLength))
              (scan.carry.drop (scan.hexLength + 8)) scan.carry := by
            refine (hexLine_iff hlengthPrefix).mpr ⟨⟨hparent, hgood.1, ?_⟩, rfl, ?_⟩
            · rw [← hplace]
              exact hgood.2
            · rw [← hplace]
          rw [hkept.1, hcarry, hkept.2.2.2.2]
          constructor
          · rintro ⟨parents, hlines, hlookups⟩
            refine ⟨_ :: parents, .line htaken ?_ hlines, fun hchecked => ?_⟩
            · refine ne_nil_of_length_pos ?_
              rw [length_drop]
              omega
            · obtain ⟨hnomatch, hothers⟩ := hlookups hchecked
              obtain ⟨hscan, hfirst⟩ := hmatching.mp hnomatch
              exact ⟨hscan, forall_mem_cons.mpr ⟨hfirst, hothers⟩⟩
          · rintro ⟨parents, hlines, hlookups⟩
            cases hlines with
            | done hother => exact absurd ⟨hparent, by omega⟩ hother
            | line hline' hmore hparents =>
              obtain ⟨-, rfl, rfl⟩ := (hexLine_iff hlengthPrefix).mp hline'
              have hdrop : 7 + scan.hexLength + 1 = scan.hexLength + 8 := by omega
              rw [hdrop] at hparents
              refine ⟨_, hparents, fun hchecked => ?_⟩
              obtain ⟨hscan, hall⟩ := hlookups hchecked
              obtain ⟨hfirst, hothers⟩ := forall_mem_cons.mp hall
              exact ⟨hmatching.mpr ⟨hscan, hfirst⟩, hothers⟩
        · have hstep := hline.trans (if_neg hgood)
          rw [Scanner.drain_of_some hstep, Scanner.drain_of_none rfl]
          refine ⟨⟨rfl, rfl, rfl, rfl⟩, iff_of_false (fun h => ?_) ?_⟩
          · cases h.1
          rintro ⟨parents, hlines, -⟩
          cases hlines with
          | done hother => exact hother ⟨hparent, by omega⟩
          | line hline hmore hparents =>
            obtain ⟨⟨-, hhex, hlast⟩, -, -⟩ := (hexLine_iff hlengthPrefix).mp hline
            rw [Nat.add_comm] at hlast
            exact hgood ⟨hhex, hlast⟩
    · have hstep := hstepped.trans (feedCommitParents_other hseven hparent)
      rw [Scanner.drain_of_some hstep, Scanner.drain_of_none rfl]
      refine ⟨⟨rfl, rfl, rfl, rfl⟩, Iff.trans ?_ (hnone fun h => hparent h.1)⟩
      exact ⟨fun h => h.2.2, fun h => ⟨hgrammar, (Nat.succ_ne_zero _).symm, h⟩⟩

theorem commitVerdict_eq_none_iff (scan : CommitScan) (parentLookups : ParentLookups) :
    commitVerdict scan parentLookups = none ↔ scan.hexLength + 6 < scan.totalBytes ∧
      scan.treeLineRefusal = none ∧ scan.treePointerRefusal = none ∧
      AcceptsParents parentLookups scan := by
  obtain ⟨h, totalBytes, phase, carry, treeLine, treePointer, treeHex, matching, grammar⟩ := scan
  unfold commitVerdict AcceptsParents
  dsimp only
  by_cases hlong : totalBytes ≤ h + 6
  · rw [if_pos hlong]
    exact iff_of_false (fun heq => by cases heq) fun hall => absurd hlong (Nat.not_le.mpr hall.1)
  rw [if_neg hlong]
  cases treeLine with
  | some reason => exact iff_of_false (fun heq => by cases heq) fun hall => by cases hall.2.1
  | none =>
    cases treePointer with
    | some reason => exact iff_of_false (fun heq => by cases heq) fun hall => by cases hall.2.2.1
    | none =>
      have hlate : ((grammar.or (if carry.length = h + 8 then some badParents else none)).map
          fun reason => (⟨.commit, reason⟩ : ParseAcceptanceRefusal)) = none ↔
            grammar = none ∧ carry.length ≠ h + 8 := by
        rw [Option.map_eq_none_iff, Option.or_eq_none_iff]
        refine and_congr_right fun _ => ?_
        split
        · next heq => exact iff_of_false (fun h => by cases h) fun hne => hne heq
        · next hne => exact iff_of_true rfl hne
      have hfirst : h + 6 < totalBytes := Nat.lt_of_not_le hlong
      cases matching with
      | none =>
        refine hlate.trans ⟨fun hboth => ⟨hfirst, rfl, rfl, hboth.1, hboth.2, fun _ => rfl⟩,
          fun hall => ⟨hall.2.2.2.1, hall.2.2.2.2.1⟩⟩
      | some parent =>
        cases parentLookups with
        | checked =>
          refine iff_of_false (fun heq => by cases heq) fun hall => ?_
          have hnone := hall.2.2.2.2.2 rfl
          cases hnone
        | skipped =>
          refine hlate.trans ⟨fun hboth => ⟨hfirst, rfl, rfl, hboth.1, hboth.2,
            fun hchecked => by cases hchecked⟩, fun hall => ⟨hall.2.2.2.1, hall.2.2.2.2.1⟩⟩

/-- **A commit is accepted by its rule.** -/
theorem commitVerdict_drain (h : ℕ) (body : Bytes) (parentLookups : ParentLookups) :
    commitVerdict (commitScanner.drain (wholeCommit h body)) parentLookups = none ↔
      CommitRule h parentLookups body := by
  have hlengthPrefix : treePrefix.length = 5 := rfl
  rw [commitVerdict_eq_none_iff]
  by_cases hshort : body.length < h + 6
  · have hstop : commitScanner.step (wholeCommit h body) = none := by
      have hstep : feedCommitTree (wholeCommit h body) = none := by
        unfold feedCommitTree
        exact if_pos hshort
      exact hstep
    rw [Scanner.drain_of_none hstop]
    have htotal : (wholeCommit h body).totalBytes = body.length := rfl
    have hlength : (wholeCommit h body).hexLength = h := rfl
    exact iff_of_false (fun hall => by omega) fun hrule => by have := hrule.1; omega
  · have hwindow : subarray (subarray body 0 (h + 6)) 5 (5 + h) = subarray body 5 (5 + h) :=
      subarray_window (by omega)
    have hend : (subarray body 0 (h + 6))[h + 5]? = body[h + 5]? := getElem?_window (by omega)
    have hfront : startsWith (subarray body 0 (h + 6)) treePrefix = startsWith body treePrefix :=
      startsWith_window (by omega)
    obtain ⟨badLine, hbadLine⟩ : ∃ badLine, badLine =
        (!startsWith body treePrefix || decide (body[h + 5]? ≠ some lineFeed)) := ⟨_, rfl⟩
    obtain ⟨next, hnext⟩ : ∃ next, next = { wholeCommit h body with
        phase := .parents
        carry := body.drop (h + 6)
        treeLineRefusal := if badLine then some bogusCommitObject else none
        treePointerRefusal :=
          if !badLine && !isAllHex (subarray body 5 (5 + h)) then some badTreePointer else none
        treeHex := if badLine then none else some (decodeLowerHex (subarray body 5 (5 + h))) } :=
      ⟨_, rfl⟩
    have hstep : commitScanner.step (wholeCommit h body) = some next := by
      have hfeed : feedCommitTree (wholeCommit h body) = some next := by
        unfold feedCommitTree wholeCommit
        dsimp only
        rw [if_neg hshort, hwindow, hend, hfront, ← hbadLine, hnext]
        rfl
      exact hfeed
    rw [Scanner.drain_of_some hstep]
    obtain ⟨⟨hhex, htotal, hline, hpointer⟩, haccepts⟩ :=
      acceptsParents_drain parentLookups next (by rw [hnext]) (by rw [hnext]; rfl)
    have hnextHex : next.hexLength = h := by rw [hnext]; rfl
    have hnextTotal : next.totalBytes = body.length := by rw [hnext]; rfl
    have hnextCarry : next.carry = body.drop (h + 6) := by rw [hnext]
    have hnextMatching : next.parentMatchingTree = none := by rw [hnext]; rfl
    rw [haccepts, hhex, htotal, hline, hpointer, hnextHex, hnextTotal, hnextCarry, hnextMatching]
    refine and_congr_right fun _ => ?_
    have hplace : 5 + h = h + 5 := Nat.add_comm _ _
    have hrest : 5 + h + 1 = h + 6 := by omega
    by_cases hgood : startsWith body treePrefix = true ∧
        isAllHex (subarray body 5 (5 + h)) = true ∧ body[h + 5]? = some lineFeed
    · have hfine : badLine = false := by
        rw [hbadLine, hgood.1, hgood.2.2]
        rfl
      have hnoLine : next.treeLineRefusal = none := by rw [hnext, hfine]; rfl
      have hnoPointer : next.treePointerRefusal = none := by rw [hnext, hfine, hgood.2.1]; rfl
      have htree : next.treeHex = some (decodeLowerHex (subarray body 5 (5 + h))) := by
        rw [hnext, hfine]
        rfl
      have hhexLine : HexLine treePrefix h (subarray body 5 (5 + h)) (body.drop (h + 6)) body := by
        refine (hexLine_iff hlengthPrefix).mpr ⟨⟨hgood.1, hgood.2.1, ?_⟩, rfl, ?_⟩
        · rw [hplace]
          exact hgood.2.2
        · rw [hrest]
      rw [hnoLine, hnoPointer, htree]
      constructor
      · rintro ⟨-, -, parents, hlines, hlookups⟩
        refine ⟨_, _, parents, hhexLine, hlines, fun hchecked parent hmem heq => ?_⟩
        exact (hlookups hchecked).2 parent hmem (congrArg some heq)
      · rintro ⟨tree, rest, parents, hfound, hlines, hlookups⟩
        obtain ⟨-, rfl, rfl⟩ := (hexLine_iff hlengthPrefix).mp hfound
        rw [hrest] at hlines
        exact ⟨rfl, rfl, parents, hlines, fun hchecked => ⟨rfl, fun parent hmem heq =>
          hlookups hchecked parent hmem (Option.some_inj.mp heq)⟩⟩
    · refine iff_of_false ?_ ?_
      · rintro ⟨hnoLine, hnoPointer, -⟩
        rw [hnext] at hnoLine hnoPointer
        dsimp only at hnoLine hnoPointer
        have hfine : badLine = false := by
          cases hbad : badLine with
          | false => rfl
          | true =>
            rw [hbad] at hnoLine
            cases hnoLine
        rw [hfine] at hnoPointer
        rw [hfine] at hbadLine
        have hneither := (Bool.or_eq_false_iff.mp hbadLine.symm)
        have hstarts : startsWith body treePrefix = true := by
          rw [← Bool.not_eq_false']
          exact hneither.1
        have hfeed : body[h + 5]? = some lineFeed := not_not.mp (of_decide_eq_false hneither.2)
        cases hallHex : isAllHex (subarray body 5 (5 + h)) with
        | true => exact hgood ⟨hstarts, hallHex, hfeed⟩
        | false =>
          rw [hallHex] at hnoPointer
          cases hnoPointer
      · rintro ⟨tree, rest, parents, hfound, -⟩
        obtain ⟨⟨hstarts, hallHex, hfeed⟩, -, -⟩ := (hexLine_iff hlengthPrefix).mp hfound
        rw [hplace] at hfeed
        rw [← hplace] at hgood
        exact hgood ⟨hstarts, hallHex, by rw [hplace]; exact hfeed⟩

/-! ### Tags -/

/-- The tests of the verdict that do not count. -/
def AcceptsTag (scan : TagScan) : Prop :=
  scan.objectLineRefusal = none ∧ scan.earlyRefusal = none ∧ scan.phase ≠ .type ∧
    scan.phase ≠ .tagLineScan

theorem tagVerdict_eq_none_iff (scan : TagScan) :
    tagVerdict scan = none ↔ scan.hexLength + 24 ≤ scan.totalBytes ∧ AcceptsTag scan := by
  obtain ⟨h, totalBytes, phase, carry, objectLine, early⟩ := scan
  unfold tagVerdict AcceptsTag
  dsimp only
  by_cases hshort : totalBytes < h + 24
  · rw [if_pos hshort]
    exact iff_of_false (fun heq => by cases heq) fun hall => absurd hshort (Nat.not_lt.mpr hall.1)
  rw [if_neg hshort]
  have hlong : h + 24 ≤ totalBytes := Nat.le_of_not_lt hshort
  cases objectLine with
  | some reason => exact iff_of_false (fun heq => by cases heq) fun hall => by cases hall.2.1
  | none =>
    cases early with
    | some reason => exact iff_of_false (fun heq => by cases heq) fun hall => by cases hall.2.2.1
    | none =>
      cases phase with
      | type =>
        exact iff_of_false (fun heq => by cases heq) fun hall => hall.2.2.2.1 rfl
      | tagLineScan =>
        exact iff_of_false (fun heq => by cases heq) fun hall => hall.2.2.2.2 rfl
      | object => exact iff_of_true rfl ⟨hlong, rfl, rfl, by decide, by decide⟩
      | tagLinePrefix => exact iff_of_true rfl ⟨hlong, rfl, rfl, by decide, by decide⟩
      | tail => exact iff_of_true rfl ⟨hlong, rfl, rfl, by decide, by decide⟩

theorem acceptsTag_lineScan {scan : TagScan} (hphase : scan.phase = .tagLineScan) :
    AcceptsTag (tagScanner.drain scan) ↔ scan.objectLineRefusal = none ∧
      scan.earlyRefusal = none ∧ lineFeed ∈ scan.carry := by
  have hstepped : tagScanner.step scan = feedTagLineScan scan := by
    have hstep : stepTag scan = feedTagLineScan scan := by rw [stepTag, hphase]
    exact hstep
  cases hfind : indexOf scan.carry lineFeed 0 with
  | some found =>
    have hmem : lineFeed ∈ scan.carry := mem_of_getElem? (indexOf_spec hfind).2.1
    have hstep : tagScanner.step scan = some { scan with phase := .tail, carry := [] } := by
      rw [hstepped, feedTagLineScan, hfind]
    have htype : TagPhase.tail ≠ .type := by decide
    have hscan : TagPhase.tail ≠ .tagLineScan := by decide
    rw [Scanner.drain_of_some hstep, Scanner.drain_of_none rfl]
    exact ⟨fun h => ⟨h.1, h.2.1, hmem⟩, fun h => ⟨h.1, h.2.1, htype, hscan⟩⟩
  | none =>
    refine iff_of_false ?_ fun h => indexOf_eq_none_iff.mp hfind h.2.2
    by_cases hempty : scan.carry.length = 0
    · have hstop : tagScanner.step scan = none := by
        rw [hstepped, feedTagLineScan, hfind]
        exact if_pos hempty
      rw [Scanner.drain_of_none hstop]
      exact fun h => h.2.2.2 hphase
    have hstep : tagScanner.step scan = some { scan with carry := [] } := by
      rw [hstepped, feedTagLineScan, hfind]
      exact if_neg hempty
    have hstop : tagScanner.step { scan with carry := [] } = none := by
      have hwaits : stepTag { scan with carry := [] } = none := by
        have hnone : indexOf ([] : Bytes) lineFeed 0 = none :=
          indexOf_eq_none_iff.mpr not_mem_nil
        rw [stepTag, hphase]
        dsimp only
        rw [feedTagLineScan, hnone]
        rfl
      exact hwaits
    rw [Scanner.drain_of_some hstep, Scanner.drain_of_none hstop]
    exact fun h => h.2.2.2 hphase

theorem acceptsTag_linePrefix {scan : TagScan} (hphase : scan.phase = .tagLinePrefix)
    (hearly : scan.earlyRefusal = none) :
    AcceptsTag (tagScanner.drain scan) ↔ scan.objectLineRefusal = none ∧
      (scan.carry.length < tagPrefix.length ∨ TagLine scan.carry) := by
  have hstepped : tagScanner.step scan = feedTagLinePrefix scan := by
    have hstep : stepTag scan = feedTagLinePrefix scan := by rw [stepTag, hphase]
    exact hstep
  by_cases hshort : scan.carry.length < tagPrefix.length
  · have hstop : tagScanner.step scan = none := by
      rw [hstepped, feedTagLinePrefix, if_pos hshort]
    rw [Scanner.drain_of_none hstop]
    refine ⟨fun h => ⟨h.1, .inl hshort⟩, fun h => ⟨h.1, hearly, ?_, ?_⟩⟩
    · rw [hphase]
      decide
    · rw [hphase]
      decide
  · by_cases htag : startsWith scan.carry tagPrefix = true
    · have hstep : tagScanner.step scan =
          some { scan with phase := .tagLineScan, carry := scan.carry.drop tagPrefix.length } := by
        rw [hstepped, feedTagLinePrefix, if_neg hshort, htag, if_neg (by decide)]
      obtain ⟨after, hafter⟩ := startsWith_iff.mp htag
      have hdrop : scan.carry.drop tagPrefix.length = after := by
        rw [hafter]
        exact drop_left
      rw [Scanner.drain_of_some hstep, acceptsTag_lineScan rfl]
      dsimp only
      rw [hdrop]
      constructor
      · exact fun h => ⟨h.1, .inr ⟨after, hafter, h.2.2⟩⟩
      · rintro ⟨hobject, hlt | ⟨after', hafter', hmem⟩⟩
        · exact absurd hlt hshort
        · rw [hafter] at hafter'
          exact ⟨hobject, hearly, append_cancel_left hafter' ▸ hmem⟩
    · have hstep : tagScanner.step scan =
          some { scan with phase := .tail, carry := [], earlyRefusal := some badTagLine } := by
        rw [hstepped, feedTagLinePrefix, if_neg hshort, Bool.eq_false_iff.mpr htag,
          if_pos (by decide)]
      rw [Scanner.drain_of_some hstep, Scanner.drain_of_none rfl]
      refine iff_of_false (fun h => by cases h.2.1) ?_
      rintro ⟨-, hlt | ⟨after, hafter, -⟩⟩
      · exact hshort hlt
      · exact htag (startsWith_iff.mpr ⟨after, hafter⟩)

/-- A line feed ends a name in one way. -/
theorem name_unique {name name' rest rest' : Bytes} (h : lineFeed ∉ name) (h' : lineFeed ∉ name')
    (heq : name ++ lineFeed :: rest = name' ++ lineFeed :: rest') : name = name' ∧ rest = rest' := by
  induction name generalizing name' with
  | nil =>
    cases name' with
    | nil => exact ⟨rfl, (cons_eq_cons.mp heq).2⟩
    | cons byte name' =>
      exact absurd ((cons_eq_cons.mp heq).1 ▸ mem_cons_self) h'
  | cons byte name ih =>
    cases name' with
    | nil => exact absurd ((cons_eq_cons.mp heq).1 ▸ mem_cons_self) h
    | cons byte' name' =>
      obtain ⟨rfl, hrest⟩ := cons_eq_cons.mp heq
      obtain ⟨rfl, rfl⟩ := ih (fun hmem => h (mem_cons_of_mem _ hmem))
        (fun hmem => h' (mem_cons_of_mem _ hmem)) hrest
      exact ⟨rfl, rfl⟩

theorem split_of_indexOf_take {after : Bytes} {bound lf : ℕ}
    (hfind : indexOf (after.take bound) lineFeed 0 = some lf) :
    lf < bound ∧ after = after.take lf ++ lineFeed :: after.drop (lf + 1) ∧
      (after.take lf).length = lf ∧ lineFeed ∉ after.take lf := by
  obtain ⟨-, hfound, hbefore⟩ := indexOf_spec hfind
  have hinside := indexOf_lt hfind
  have hbound : lf < bound := by
    rw [length_take] at hinside
    omega
  have hplace : after[lf]? = some lineFeed := by
    rw [getElem?_take_of_lt hbound] at hfound
    exact hfound
  have hlength : (after.take lf).length = lf := by
    rw [length_take]
    have hlt := (List.getElem?_eq_some_iff.mp hplace).1
    omega
  refine ⟨hbound, ?_, hlength, fun hmem => ?_⟩
  · rw [← drop_eq_cons hplace, take_append_drop]
  · obtain ⟨i, hi, heq⟩ := getElem_of_mem hmem
    rw [hlength] at hi
    refine hbefore i (Nat.zero_le i) hi ?_
    rw [getElem?_take_of_lt (by omega), ← getElem?_take_of_lt hi]
    exact List.getElem?_eq_some_iff.mpr ⟨by omega, heq⟩

theorem le_length_of_indexOf_take {name rest : Bytes} {bound : ℕ}
    (hfind : indexOf ((name ++ lineFeed :: rest).take bound) lineFeed 0 = none) :
    bound ≤ name.length := by
  by_contra hlt
  refine indexOf_eq_none_iff.mp hfind ?_
  rw [take_append]
  refine mem_append_right _ ?_
  obtain ⟨room, hroom⟩ : ∃ room, bound - name.length = room + 1 :=
    ⟨bound - name.length - 1, by omega⟩
  rw [hroom, take_succ_cons]
  exact mem_cons_self

/-- **The line of the type**: a name that ends within its bound and is known. -/
theorem acceptsTag_type {scan : TagScan} (hphase : scan.phase = .type)
    (hearly : scan.earlyRefusal = none) :
    AcceptsTag (tagScanner.drain scan) ↔ scan.objectLineRefusal = none ∧
      ∃ name rest, scan.carry = typePrefix ++ (name ++ lineFeed :: rest) ∧ lineFeed ∉ name ∧
        name.length < maxTypeNameBytes ∧ typeNameBeforeNul name ∈ knownTagTypes ∧
        (rest.length < tagPrefix.length ∨ TagLine rest) := by
  have hstepped : tagScanner.step scan = feedTagType scan := by
    have hstep : stepTag scan = feedTagType scan := by rw [stepTag, hphase]
    exact hstep
  have hstuck : tagScanner.step scan = none → ¬ AcceptsTag (tagScanner.drain scan) := by
    intro hstop h
    rw [Scanner.drain_of_none hstop] at h
    exact h.2.2.1 hphase
  have hrefused : ∀ reason : Text, tagScanner.step scan =
      some { scan with phase := .tail, carry := [], earlyRefusal := some reason } →
      ¬ AcceptsTag (tagScanner.drain scan) := by
    intro reason hstep h
    rw [Scanner.drain_of_some hstep, Scanner.drain_of_none rfl] at h
    cases h.2.1
  by_cases hshort : scan.carry.length < typePrefix.length
  · refine iff_of_false (hstuck (by rw [hstepped, feedTagType, if_pos hshort])) ?_
    rintro ⟨-, name, rest, hcarry, -⟩
    rw [hcarry, length_append] at hshort
    omega
  by_cases htyped : startsWith scan.carry typePrefix = true
  · obtain ⟨after, hafter⟩ := startsWith_iff.mp htyped
    have hdrop : scan.carry.drop typePrefix.length = after := by
      rw [hafter]
      exact drop_left
    cases hfind : indexOf (after.take maxTypeNameBytes) lineFeed 0 with
    | none =>
      have hfeed : feedTagType scan =
          if (after.take maxTypeNameBytes).length ≥ maxTypeNameBytes then
            some { scan with phase := .tail, carry := [], earlyRefusal := some badTypeLine }
          else none := by
        unfold feedTagType
        dsimp only
        rw [if_neg hshort, htyped, if_neg (by decide), nameZone_eq, hdrop, hfind]
      refine iff_of_false ?_ ?_
      · by_cases hfull : (after.take maxTypeNameBytes).length ≥ maxTypeNameBytes
        · exact hrefused badTypeLine (by rw [hstepped, hfeed, if_pos hfull])
        · exact hstuck (by rw [hstepped, hfeed, if_neg hfull])
      · rintro ⟨-, name, rest, hcarry, -, hbound, -⟩
        rw [hafter] at hcarry
        rw [append_cancel_left hcarry] at hfind
        exact absurd hbound (Nat.not_lt.mpr (le_length_of_indexOf_take hfind))
    | some lf =>
      have hfeed : feedTagType scan =
          if !knownTagTypes.contains
              (typeNameBeforeNul (subarray (after.take maxTypeNameBytes) 0 lf)) then
            some { scan with
              phase := .tail
              carry := []
              earlyRefusal := some (unknownTagTypeReason
                (typeNameBeforeNul (subarray (after.take maxTypeNameBytes) 0 lf))) }
          else
            some { scan with
              phase := .tagLinePrefix
              carry := scan.carry.drop (typePrefix.length + lf + 1) } := by
        unfold feedTagType
        dsimp only
        rw [if_neg hshort, htyped, if_neg (by decide), nameZone_eq, hdrop, hfind]
      obtain ⟨hbound, hsplit, hlength, hclean⟩ := split_of_indexOf_take hfind
      have hname : subarray (after.take maxTypeNameBytes) 0 lf = after.take lf := by
        rw [subarray_zero, take_take, Nat.min_eq_left hbound.le]
      have hrest : scan.carry.drop (typePrefix.length + lf + 1) = after.drop (lf + 1) := by
        rw [Nat.add_assoc, ← drop_drop, hdrop]
      rw [hname] at hfeed
      have hread : ∀ {name rest : Bytes}, scan.carry = typePrefix ++ (name ++ lineFeed :: rest) →
          lineFeed ∉ name → name = after.take lf ∧ rest = after.drop (lf + 1) := by
        intro name rest hcarry hfree
        rw [hafter] at hcarry
        have heq := append_cancel_left hcarry
        exact name_unique hfree hclean (heq.symm.trans hsplit)
      by_cases hknown : knownTagTypes.contains (typeNameBeforeNul (after.take lf)) = true
      · have hstep : tagScanner.step scan = some { scan with
            phase := .tagLinePrefix
            carry := after.drop (lf + 1) } := by
          rw [hstepped, hfeed, hknown, if_neg (by decide), hrest]
        have hline := @acceptsTag_linePrefix { scan with
          phase := .tagLinePrefix
          carry := after.drop (lf + 1) } rfl hearly
        rw [Scanner.drain_of_some hstep, hline]
        constructor
        · rintro ⟨hobject, htag⟩
          refine ⟨hobject, after.take lf, after.drop (lf + 1), ?_, hclean, by omega,
            contains_iff_mem.mp hknown, htag⟩
          rw [← hsplit]
          exact hafter
        · rintro ⟨hobject, name, rest, hcarry, hfree, -, -, htag⟩
          obtain ⟨rfl, rfl⟩ := hread hcarry hfree
          exact ⟨hobject, htag⟩
      · refine iff_of_false
          (hrefused (unknownTagTypeReason (typeNameBeforeNul (after.take lf))) ?_) ?_
        · rw [hstepped, hfeed, Bool.eq_false_iff.mpr hknown, if_pos (by decide)]
        · rintro ⟨-, name, rest, hcarry, hfree, -, hmem, -⟩
          obtain ⟨rfl, rfl⟩ := hread hcarry hfree
          exact hknown (contains_iff_mem.mpr hmem)
  · refine iff_of_false (hrefused badTypeLine ?_) ?_
    · rw [hstepped, feedTagType, if_neg hshort, Bool.eq_false_iff.mpr htyped, if_pos (by decide)]
    · rintro ⟨-, name, rest, hcarry, -⟩
      exact htyped (startsWith_iff.mpr ⟨_, hcarry⟩)

theorem stepTag_counts {scan next : TagScan} (hstep : stepTag scan = some next) :
    next.hexLength = scan.hexLength ∧ next.totalBytes = scan.totalBytes := by
  unfold stepTag at hstep
  split at hstep
  · unfold feedTagObject at hstep
    dsimp only at hstep
    split at hstep
    · cases hstep
    · cases hstep
      exact ⟨rfl, rfl⟩
  · unfold feedTagType at hstep
    dsimp only at hstep
    split at hstep
    · cases hstep
    split at hstep
    · cases hstep
      exact ⟨rfl, rfl⟩
    split at hstep
    · split at hstep
      · cases hstep
        exact ⟨rfl, rfl⟩
      · cases hstep
    · split at hstep
      · cases hstep
        exact ⟨rfl, rfl⟩
      · cases hstep
        exact ⟨rfl, rfl⟩
  · unfold feedTagLinePrefix at hstep
    split at hstep
    · cases hstep
    · split at hstep
      · cases hstep
        exact ⟨rfl, rfl⟩
      · cases hstep
        exact ⟨rfl, rfl⟩
  · unfold feedTagLineScan at hstep
    split at hstep
    · split at hstep
      · cases hstep
      · cases hstep
        exact ⟨rfl, rfl⟩
    · cases hstep
      exact ⟨rfl, rfl⟩
  · cases hstep

/-- The tags that the scan takes. -/
def TakenTag (h : ℕ) (body : Bytes) : Prop :=
  ∃ name rest, TypedTag h name rest body ∧ typeNameBeforeNul name ∈ knownTagTypes ∧
    (rest.length < tagPrefix.length ∨ TagLine rest)

theorem tagVerdict_drain (h : ℕ) (body : Bytes) :
    tagVerdict (tagScanner.drain (wholeTag h body)) = none ↔ TakenTag h body := by
  have hlengthPrefix : objectPrefix.length = 7 := rfl
  have hcounts := @Scanner.drain_invariant _ _ tagScanner
    (fun scan => scan.hexLength = h ∧ scan.totalBytes = body.length)
    (fun scan next hscan hstep => ⟨(stepTag_counts hstep).1.trans hscan.1,
      (stepTag_counts hstep).2.trans hscan.2⟩) (wholeTag h body) ⟨rfl, rfl⟩
  rw [tagVerdict_eq_none_iff, hcounts.1, hcounts.2]
  by_cases hlong : h + 24 ≤ body.length
  · have hwindow : subarray (subarray body 0 (h + 8)) 7 (7 + h) = subarray body 7 (7 + h) :=
      subarray_window (by omega)
    have hend : (subarray body 0 (h + 8))[h + 7]? = body[h + 7]? := getElem?_window (by omega)
    have hfront : startsWith (subarray body 0 (h + 8)) objectPrefix = startsWith body objectPrefix :=
      startsWith_window (by omega)
    obtain ⟨bad, hbad⟩ : ∃ bad, bad = (!startsWith body objectPrefix ||
        !isAllHex (subarray body 7 (7 + h)) || decide (body[h + 7]? ≠ some lineFeed)) := ⟨_, rfl⟩
    obtain ⟨next, hnext⟩ : ∃ next, next = { wholeTag h body with
        phase := .type
        carry := body.drop (h + 8)
        objectLineRefusal := if bad then some badObjectLine else none } := ⟨_, rfl⟩
    have hstep : tagScanner.step (wholeTag h body) = some next := by
      have hfeed : feedTagObject (wholeTag h body) = some next := by
        unfold feedTagObject wholeTag
        dsimp only
        rw [if_neg (by omega), hwindow, hend, hfront, ← hbad, hnext]
        rfl
      exact hfeed
    have htype := @acceptsTag_type next (by rw [hnext]) (by rw [hnext]; rfl)
    have hcarry : next.carry = body.drop (h + 8) := by rw [hnext]
    have hplace : 7 + h = h + 7 := Nat.add_comm _ _
    have hrest : 7 + h + 1 = h + 8 := by omega
    have hobject : next.objectLineRefusal = none ↔ startsWith body objectPrefix = true ∧
        isAllHex (subarray body 7 (7 + h)) = true ∧ body[h + 7]? = some lineFeed := by
      have hfine : bad = false ↔ startsWith body objectPrefix = true ∧
          isAllHex (subarray body 7 (7 + h)) = true ∧ body[h + 7]? = some lineFeed := by
        rw [hbad, Bool.or_eq_false_iff, Bool.or_eq_false_iff, Bool.not_eq_false', Bool.not_eq_false',
          decide_eq_false_iff_not, not_not, and_assoc]
      rw [← hfine, hnext]
      cases bad with
      | false => exact iff_of_true rfl rfl
      | true => exact iff_of_false (fun heq => by cases heq) fun heq => by cases heq
    rw [Scanner.drain_of_some hstep, htype, hobject, hcarry]
    constructor
    · rintro ⟨-, hgood, name, rest, hbytes, hfree, hbound, hknown, htag⟩
      refine ⟨name, rest, ⟨hlong, subarray body 7 (7 + h), body.drop (h + 8), ?_, hbytes, hfree,
        hbound⟩, hknown, htag⟩
      refine (hexLine_iff hlengthPrefix).mpr ⟨⟨hgood.1, hgood.2.1, ?_⟩, rfl, ?_⟩
      · rw [hplace]
        exact hgood.2.2
      · rw [hrest]
    · rintro ⟨name, rest, ⟨-, hex, after, hline, hbytes, hfree, hbound⟩, hknown, htag⟩
      obtain ⟨⟨hstarts, hallHex, hfeed⟩, -, rfl⟩ := (hexLine_iff hlengthPrefix).mp hline
      rw [hrest] at hbytes
      refine ⟨hlong, ⟨hstarts, hallHex, ?_⟩, name, rest, hbytes, hfree, hbound, hknown, htag⟩
      rw [← hplace]
      exact hfeed
  · refine iff_of_false (fun hall => hlong hall.1) ?_
    rintro ⟨name, rest, htyped, -⟩
    exact hlong htyped.1

/-! ### The name of the type -/

def byteOrderMark : Bytes := [0xef, 0xbb, 0xbf]

def IsMarkedType (name : Bytes) : Prop :=
  ∃ type ∈ knownTagTypes, beforeNul name = byteOrderMark ++ encode type

theorem takeWhile_decodePreservingBom (bytes : Bytes) :
    (decodePreservingBom bytes).takeWhile (fun c => c ≠ '\x00') =
      decodePreservingBom (beforeNul bytes) := by
  have hsplit := @splitOn_decodePreservingBom 0 '\x00' rfl (by decide) bytes
  have hclean : ∀ part : Bytes, 0 ∉ part → '\x00' ∉ decodePreservingBom part := by
    intro part hpart hmem
    obtain ⟨byte, hbyte, hzero⟩ := mem_of_mem_decodePreservingBom hmem (by decide)
    have heq : byte = 0 := UInt8.toNat_inj.mp hzero
    exact hpart (heq ▸ hbyte)
  have hkeep : ∀ text : Text, '\x00' ∉ text → text.takeWhile (fun c => c ≠ '\x00') = text := by
    intro text htext
    refine takeWhile_eq_self_iff.mpr fun c hmem => decide_eq_true fun heq => ?_
    exact htext (heq ▸ hmem)
  by_cases hmem : 0 ∈ bytes
  · obtain ⟨front, back, rfl, hfront⟩ := eq_append_cons_of_mem hmem
    have hkept : ∀ byte ∈ front, decide (byte ≠ 0) = true := fun byte hbyte =>
      decide_eq_true fun heq : byte = 0 => hfront (heq ▸ hbyte)
    have hbefore : beforeNul (front ++ 0 :: back) = front := by
      rw [beforeNul, takeWhile_append_of_pos hkept]
      have hstop : (0 :: back).takeWhile (fun byte : UInt8 => byte ≠ 0) = [] :=
        takeWhile_cons_of_neg (by decide)
      rw [hstop, append_nil]
    have hdecode : decodePreservingBom (front ++ 0 :: back) =
        decodePreservingBom front ++ '\x00' :: decodePreservingBom back :=
      decodeFrom_append_ascii (fun _ hnone => by cases hnone) (by decide)
    have hstop : ('\x00' :: decodePreservingBom back).takeWhile (fun c => c ≠ '\x00') = [] :=
      takeWhile_cons_of_neg (by decide)
    have hshown : ∀ c ∈ decodePreservingBom front, decide (c ≠ '\x00') = true := fun c hc =>
      decide_eq_true fun heq : c = '\x00' => hclean front hfront (heq ▸ hc)
    rw [hbefore, hdecode, takeWhile_append_of_pos hshown, hstop, append_nil]
  · have hbefore : beforeNul bytes = bytes :=
      takeWhile_eq_self_iff.mpr fun byte hbyte => decide_eq_true fun heq => hmem (heq ▸ hbyte)
    rw [hbefore, hkeep _ (hclean bytes hmem)]

theorem not_mem_knownTagTypes {type : Text} (htype : type ∈ knownTagTypes) :
    replacementCharacter ∉ type ∧ (encode type).head? ≠ some 0xef := by
  unfold knownTagTypes at htype
  simp only [mem_cons, not_mem_nil, or_false] at htype
  rcases htype with rfl | rfl | rfl | rfl
  · exact ⟨by decide, by decide⟩
  · exact ⟨by decide, by decide⟩
  · exact ⟨by decide, by decide⟩
  · exact ⟨by decide, by decide⟩

theorem decodePreservingBom_eq_iff {bytes : Bytes} {type : Text} (htype : type ∈ knownTagTypes) :
    decodePreservingBom bytes = type ↔ bytes = encode type := by
  constructor
  · intro h
    have hlossless : replacementCharacter ∉ decodePreservingBom bytes := by
      rw [h]
      exact (not_mem_knownTagTypes htype).1
    obtain ⟨text, rfl⟩ := exists_text_of_decode hlossless
    rw [decodePreservingBom_encode] at h
    rw [h]
  · rintro rfl
    exact decodePreservingBom_encode type

theorem beforeNul_marked (rest : Bytes) :
    beforeNul (0xef :: 0xbb :: 0xbf :: rest) = byteOrderMark ++ beforeNul rest := by
  unfold beforeNul
  have hone : ∀ (byte : UInt8) (bytes : Bytes), byte ≠ 0 →
      (byte :: bytes).takeWhile (fun byte => byte ≠ 0) =
        byte :: bytes.takeWhile fun byte => byte ≠ 0 := fun byte bytes hne =>
    takeWhile_cons_of_pos (decide_eq_true hne)
  rw [hone _ _ (by decide), hone _ _ (by decide), hone _ _ (by decide)]
  rfl

/-- **A name is taken if its bytes are those of a type**, up to a byte-order mark. -/
theorem typeNameBeforeNul_mem_iff (name : Bytes) :
    typeNameBeforeNul name ∈ knownTagTypes ↔ IsKnownType name ∨ IsMarkedType name := by
  have hplain : ∀ bytes : Bytes, (decodePreservingBom bytes).takeWhile (fun c => c ≠ '\x00') ∈
      knownTagTypes ↔ ∃ type ∈ knownTagTypes, beforeNul bytes = encode type := by
    intro bytes
    rw [takeWhile_decodePreservingBom]
    constructor
    · exact fun hmem => ⟨_, hmem, (decodePreservingBom_eq_iff hmem).mp rfl⟩
    · rintro ⟨type, htype, heq⟩
      rw [(decodePreservingBom_eq_iff htype).mpr heq]
      exact htype
  unfold typeNameBeforeNul decode
  split
  · next rest =>
    rw [hplain rest]
    constructor
    · rintro ⟨type, htype, heq⟩
      refine .inr ⟨type, htype, ?_⟩
      rw [beforeNul_marked, heq]
    · rintro (⟨type, htype, heq⟩ | ⟨type, htype, heq⟩)
      · rw [beforeNul_marked] at heq
        exact absurd (congrArg head? heq).symm (not_mem_knownTagTypes htype).2
      · rw [beforeNul_marked] at heq
        exact ⟨type, htype, append_cancel_left heq⟩
  · next hnot =>
    rw [hplain name]
    refine (or_iff_left ?_).symm
    rintro ⟨type, htype, heq⟩
    have hfront : name = byteOrderMark ++ (encode type ++ name.dropWhile fun byte => byte ≠ 0) := by
      rw [← append_assoc, ← heq, beforeNul, takeWhile_append_dropWhile]
    exact hnot _ hfront

/-! ### Verdicts and rules -/

def Misread (h : ℕ) (body : Bytes) : Prop :=
  ∃ name rest, TypedTag h name rest body ∧
    ((IsMarkedType name ∧ (rest.length < tagPrefix.length ∨ TagLine rest)) ∨
      (IsKnownType name ∧ rest.length < tagPrefix.length))

theorem TypedTag.unique {h : ℕ} {name name' rest rest' body : Bytes}
    (hfirst : TypedTag h name rest body) (hsecond : TypedTag h name' rest' body) :
    name = name' ∧ rest = rest' := by
  obtain ⟨-, hex, after, hline, hbytes, hfree, -⟩ := hfirst
  obtain ⟨-, hex', after', hline', hbytes', hfree', -⟩ := hsecond
  have hafter := ((hexLine_iff rfl).mp hline).2.2
  have hafter' := ((hexLine_iff rfl).mp hline').2.2
  have heq : after = after' := hafter.trans hafter'.symm
  rw [heq, hbytes'] at hbytes
  exact name_unique hfree hfree' (append_cancel_left hbytes.symm)

theorem IsKnownType.not_marked {name : Bytes} (h : IsKnownType name) : ¬ IsMarkedType name := by
  rintro ⟨marked, -, hmarked⟩
  obtain ⟨type, htype, heq⟩ := h
  rw [heq] at hmarked
  exact (not_mem_knownTagTypes htype).2 (congrArg head? hmarked)

theorem TagLine.length_le {rest : Bytes} (h : TagLine rest) : tagPrefix.length ≤ rest.length := by
  obtain ⟨after, rfl, -⟩ := h
  rw [length_append]
  omega

theorem takenTag_iff (h : ℕ) (body : Bytes) :
    (TakenTag h body ↔ TagRule h body) ↔ ¬ Misread h body := by
  constructor
  · rintro hiff ⟨name, rest, htyped, hmisread⟩
    have htaken : TakenTag h body := by
      refine ⟨name, rest, htyped, (typeNameBeforeNul_mem_iff name).mpr ?_, ?_⟩
      · exact hmisread.elim (fun hmarked => .inr hmarked.1) fun hknown => .inl hknown.1
      · exact hmisread.elim (fun hmarked => hmarked.2) fun hknown => .inl hknown.2
    obtain ⟨name', rest', htyped', hknown, htag⟩ := hiff.mp htaken
    obtain ⟨rfl, rfl⟩ := htyped.unique htyped'
    rcases hmisread with ⟨hmarked, -⟩ | ⟨-, hshort⟩
    · exact hknown.not_marked hmarked
    · exact absurd hshort (Nat.not_lt.mpr htag.length_le)
  · intro hread
    constructor
    · rintro ⟨name, rest, htyped, hknown, htag⟩
      rcases (typeNameBeforeNul_mem_iff name).mp hknown with hknown | hmarked
      · rcases htag with hshort | htag
        · exact absurd ⟨name, rest, htyped, .inr ⟨hknown, hshort⟩⟩ hread
        · exact ⟨name, rest, htyped, hknown, htag⟩
      · exact absurd ⟨name, rest, htyped, .inl ⟨hmarked, htag⟩⟩ hread
    · rintro ⟨name, rest, htyped, hknown, htag⟩
      exact ⟨name, rest, htyped, (typeNameBeforeNul_mem_iff name).mpr (.inl hknown), .inr htag⟩

/-- The rule of a kind of object. -/
def Rule (type : Kind) (h : ℕ) (parentLookups : ParentLookups) (body : Bytes) : Prop :=
  match type with
  | .commit => CommitRule h parentLookups body
  | .tag => TagRule h body

/-- **The verdict on a body that comes in chunks** is that on the whole body, and that of the rule
if it is none of the misread tags. -/
theorem parseAcceptance_exact (type : Kind) (h : ℕ) (chunks : List Bytes)
    (parentLookups : ParentLookups) :
    (parseAcceptanceVerdict (scanOf type h chunks) parentLookups =
        parseAcceptanceVerdict (scanOf type h [chunks.flatten]) parentLookups ∧
      (∀ fed, fed <+: chunks → (carryOf (scanOf type h fed)).length ≤ lineRoom h) ∧
      (parseAcceptanceVerdict (scanOf type h chunks) parentLookups = none ↔
        Rule type h parentLookups chunks.flatten)) ↔
    ¬ (type = .tag ∧ Misread h chunks.flatten) := by
  have hchunks : parseAcceptanceVerdict (scanOf type h chunks) parentLookups =
      parseAcceptanceVerdict (scanOf type h [chunks.flatten]) parentLookups := by
    rw [← scanOf_flatten]
  have hcarry : ∀ fed, fed <+: chunks → (carryOf (scanOf type h fed)).length ≤ lineRoom h :=
    fun fed _ => carry_le type h fed
  rw [and_iff_right hchunks, and_iff_right hcarry]
  cases type with
  | commit =>
    rw [scanOf_commit]
    exact iff_of_true (commitVerdict_drain h _ parentLookups) fun hmisread => by cases hmisread.1
  | tag =>
    rw [scanOf_tag]
    have hverdict := tagVerdict_drain h chunks.flatten
    have hexact := takenTag_iff h chunks.flatten
    rw [← hverdict] at hexact
    exact hexact.trans (not_congr (and_iff_right rfl).symm)

def markedTag : Bytes :=
  objectPrefix ++ (replicate 40 0x61 ++ lineFeed ::
    (typePrefix ++ ((byteOrderMark ++ encode (objectTypeText .commit)) ++ lineFeed ::
      (tagPrefix ++ [0x78, 0x0a]))))

def endlessTag : Bytes :=
  objectPrefix ++ (replicate 40 0x61 ++ lineFeed ::
    (typePrefix ++ ((encode (objectTypeText .commit) ++ 0 :: replicate 8 0x62) ++
      lineFeed :: [])))

theorem markedTag_misread : Misread 40 markedTag := by
  refine ⟨byteOrderMark ++ encode (objectTypeText .commit), tagPrefix ++ [0x78, 0x0a],
    ⟨by decide, replicate 40 0x61, _, ⟨rfl, by decide, rfl⟩, rfl, by decide, by decide⟩,
    .inl ⟨⟨objectTypeText .commit, by decide, by decide⟩, .inr ⟨_, rfl, by decide⟩⟩⟩

theorem endlessTag_misread : Misread 40 endlessTag := by
  refine ⟨encode (objectTypeText .commit) ++ 0 :: replicate 8 0x62, [],
    ⟨by decide, replicate 40 0x61, _, ⟨rfl, by decide, rfl⟩, rfl, by decide, by decide⟩,
    .inr ⟨⟨objectTypeText .commit, by decide, by decide⟩, by decide⟩⟩

/-- Both are accepted, and the rule takes neither. -/
theorem parseAcceptance_misreads :
    (parseAcceptanceVerdict (scanOf .tag 40 [markedTag]) .checked = none ∧ ¬ TagRule 40 markedTag) ∧
    parseAcceptanceVerdict (scanOf .tag 40 [endlessTag]) .checked = none ∧
      ¬ TagRule 40 endlessTag := by
  have hboth : ∀ body, Misread 40 body →
      parseAcceptanceVerdict (scanOf .tag 40 [body]) .checked = none ∧ ¬ TagRule 40 body := by
    intro body hmisread
    have hone : [body].flatten = body := append_nil _
    have htaken : TakenTag 40 body := by
      obtain ⟨name, rest, htyped, hcases⟩ := hmisread
      refine ⟨name, rest, htyped, (typeNameBeforeNul_mem_iff name).mpr ?_, ?_⟩
      · exact hcases.elim (fun hmarked => .inr hmarked.1) fun hknown => .inl hknown.1
      · exact hcases.elim (fun hmarked => hmarked.2) fun hknown => .inl hknown.2
    constructor
    · rw [scanOf_tag, hone]
      exact (tagVerdict_drain 40 body).mpr htaken
    · exact fun hrule => (takenTag_iff 40 body).mp (iff_of_true htaken hrule) hmisread
  exact ⟨hboth markedTag markedTag_misread, hboth endlessTag endlessTag_misread⟩

end Tsgit.ParseAcceptance
