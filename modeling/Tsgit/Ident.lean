import Tsgit.CrlfConversion

/-!
# Ident Keywords

`src/domain/eol/ident.ts`. Both directions look at each `$` in turn: behind a keyword they go on
after its closing `$`, which is thereby never the opening one of the next.
-/

namespace Tsgit.Eol

open List

def dollar : UInt8 := 0x24
def upperI : UInt8 := 0x49
def lowerD : UInt8 := 0x64
def colon : UInt8 := 0x3a
def space : UInt8 := 0x20

@[simp] theorem colon_ne_dollar : ¬ colon = dollar := by decide

/-- What is written behind the `$`, and how many bytes it stands for. -/
abbrev MatchAt := Bytes → Option (Bytes × ℕ)

def rewriteFrom (matchAt : MatchAt) : ℕ → Bytes → Bytes
  | _, [] => []
  | skip + 1, _ :: rest => rewriteFrom matchAt skip rest
  | 0, byte :: rest =>
    if byte = dollar then
      match matchAt rest with
      | none => byte :: rewriteFrom matchAt 0 rest
      | some (replacement, resumeAt) => byte :: (replacement ++ rewriteFrom matchAt resumeAt rest)
    else byte :: rewriteFrom matchAt 0 rest

def startsWithName (bytes : Bytes) : Bool := bytes[0]? = some upperI && bytes[1]? = some lowerD

def closingDollar (value : Bytes) : Option ℕ := do
  let closing ← value.idxOf? dollar
  if lf ∈ value.take closing then none else some closing

def collapsedName : Bytes := [upperI, lowerD, dollar]

def collapseAt : MatchAt := fun bytes => do
  if !startsWithName bytes || bytes[2]? ≠ some colon then none
  else
    let closing ← closingDollar (bytes.drop 3)
    some (collapsedName, 3 + closing + 1)

def identToGit (bytes : Bytes) : Bytes := rewriteFrom collapseAt 0 bytes

def expandedKeyword (oidHex : Bytes) : Bytes :=
  [upperI, lowerD, colon, space] ++ oidHex ++ [space, dollar]

def isForeign (bytes : Bytes) (closing : ℕ) : Bool := space ∈ (bytes.take (closing - 1)).drop 4

def expandAt (expansion : Bytes) : MatchAt := fun bytes => do
  if !startsWithName bytes then none
  else if bytes[2]? = some dollar then some (expansion, 3)
  else if bytes[2]? ≠ some colon then none
  else
    let closing ← closingDollar (bytes.drop 3)
    if isForeign bytes (3 + closing) then none else some (expansion, 3 + closing + 1)

def identToWorkingTree (bytes oidHex : Bytes) : Bytes :=
  rewriteFrom (expandAt (expandedKeyword oidHex)) 0 bytes

/-- Whether a keyword with a value is left, where each `$Id$` is passed with both its dollars. -/
def sharesDollar : ℕ → Bytes → Bool
  | _, [] => false
  | skip + 1, _ :: rest => sharesDollar skip rest
  | 0, byte :: rest =>
    if byte = dollar then
      if collapsedName <+: rest then sharesDollar 3 rest
      else (collapseAt rest).isSome || sharesDollar 0 rest
    else sharesDollar 0 rest

/-! ### The scans -/

theorem rewriteFrom_drop (matchAt : MatchAt) (skip : ℕ) (bytes : Bytes) :
    rewriteFrom matchAt skip bytes = rewriteFrom matchAt 0 (bytes.drop skip) := by
  induction bytes generalizing skip with
  | nil => simp [rewriteFrom]
  | cons byte rest ih => cases skip with
    | zero => rfl
    | succ skip => simp [rewriteFrom, ih skip]

theorem sharesDollar_drop (skip : ℕ) (bytes : Bytes) :
    sharesDollar skip bytes = sharesDollar 0 (bytes.drop skip) := by
  induction bytes generalizing skip with
  | nil => simp [sharesDollar]
  | cons byte rest ih => cases skip with
    | zero => rfl
    | succ skip => simp [sharesDollar, ih skip]

section

variable {front rest : Bytes} (hfront : dollar ∉ front)

include hfront

theorem rewriteFrom_append (matchAt : MatchAt) (rest : Bytes) :
    rewriteFrom matchAt 0 (front ++ rest) = front ++ rewriteFrom matchAt 0 rest := by
  induction front with
  | nil => rfl
  | cons byte front ih =>
    obtain ⟨hne, hfront⟩ := not_or.mp (mem_cons.not.mp hfront)
    simp [rewriteFrom, Ne.symm hne, ih hfront]

theorem sharesDollar_append (rest : Bytes) :
    sharesDollar 0 (front ++ rest) = sharesDollar 0 rest := by
  induction front with
  | nil => rfl
  | cons byte front ih =>
    obtain ⟨hne, hfront⟩ := not_or.mp (mem_cons.not.mp hfront)
    simp [sharesDollar, Ne.symm hne, ih hfront]

theorem closingDollar_append (rest : Bytes) : closingDollar (front ++ dollar :: rest) =
    if lf ∈ front then none else some front.length := by
  have hclosing : (front ++ dollar :: rest).idxOf? dollar = some front.length := by
    induction front with
    | nil => simp [idxOf?_cons]
    | cons byte front ih =>
      obtain ⟨hne, hfront⟩ := not_or.mp (mem_cons.not.mp hfront)
      simp [idxOf?_cons, Ne.symm hne, ih hfront]
  simp [closingDollar, hclosing]

/-- **The keyword of a `$`** is decided before the next one. -/
theorem collapseAt_eq (rest : Bytes) : collapseAt (front ++ dollar :: rest) =
    if [upperI, lowerD, colon] <+: front ∧ lf ∉ front.drop 3 then
      some (collapsedName, front.length + 1) else none := by
  match front with
  | [] => rfl
  | [a] =>
    simp only [collapseAt, startsWithName]
    simpa using fun _ h => absurd h (by decide)
  | [a, b] =>
    simp only [collapseAt, startsWithName]
    simpa using fun _ _ h => absurd h (by decide)
  | a :: b :: c :: value =>
    have hvalue : dollar ∉ value := fun h => hfront (by simp [h])
    simp only [collapseAt, startsWithName, cons_append, getElem?_cons_zero, getElem?_cons_succ,
      drop_succ_cons, drop_zero, closingDollar_append hvalue, cons_prefix_cons]
    split_ifs <;> simp_all
    omega

end

theorem expandAt_cases (expansion : Bytes) {bytes : Bytes} (h : ¬ collapsedName <+: bytes) :
    expandAt expansion bytes = none ∨ ∃ resumeAt,
      expandAt expansion bytes = some (expansion, resumeAt) ∧
        collapseAt bytes = some (collapsedName, resumeAt) := by
  have hterminator : startsWithName bytes = true → bytes[2]? ≠ some dollar := by
    intro hname hdollar
    refine h ?_
    match bytes with
    | a :: b :: c :: rest => simp_all [startsWithName, collapsedName]
  simp only [expandAt, collapseAt]
  cases hname : startsWithName bytes with
  | false => simp
  | true =>
    by_cases hcolon : bytes[2]? = some colon
    · cases hclosing : closingDollar (bytes.drop 3) with
      | none => simp [hcolon]
      | some closing =>
        by_cases hforeign : isForeign bytes (3 + closing) = true
        · simp [hcolon, hforeign]
        · simp [hcolon, hforeign]
    · simp [hcolon, hterminator hname]

theorem collapseAt_rewriteFrom (matchAt : MatchAt) (bytes : Bytes) :
    collapseAt (rewriteFrom matchAt 0 bytes) = collapseAt bytes := by
  by_cases hmem : dollar ∈ bytes
  · obtain ⟨front, rest, rfl, hfront⟩ := eq_append_cons_of_mem hmem
    have hdollar : ∃ rest', rewriteFrom matchAt 0 (dollar :: rest) = dollar :: rest' := by
      cases h : matchAt rest <;> simp [rewriteFrom, h]
    obtain ⟨rest', hrest⟩ := hdollar
    rw [rewriteFrom_append hfront, hrest, collapseAt_eq hfront, collapseAt_eq hfront]
  · have := rewriteFrom_append hmem matchAt []
    simp only [append_nil] at this
    rw [this, rewriteFrom, append_nil]

section

variable {oidHex : Bytes} (hdollar : dollar ∉ oidHex) (hlf : lf ∉ oidHex)

include hdollar hlf

theorem identToGit_expanded (rest : Bytes) :
    rewriteFrom collapseAt 0 (dollar :: (expandedKeyword oidHex ++ rest)) =
      dollar :: (collapsedName ++ rewriteFrom collapseAt 0 rest) := by
  have hkeyword : expandedKeyword oidHex ++ rest =
      ([upperI, lowerD, colon, space] ++ oidHex ++ [space]) ++ dollar :: rest := by
    simp [expandedKeyword]
  have hvalue : dollar ∉ [upperI, lowerD, colon, space] ++ oidHex ++ [space] := by
    simp only [mem_append, hdollar]
    decide
  have hline : lf ∉ ([upperI, lowerD, colon, space] ++ oidHex ++ [space]).drop 3 := by
    simp only [cons_append, nil_append, drop_succ_cons, drop_zero, mem_cons,
      mem_append, hlf]
    decide
  rw [hkeyword, rewriteFrom, if_pos rfl, collapseAt_eq hvalue, if_pos ⟨by simp, hline⟩]
  dsimp only
  rw [rewriteFrom_drop, drop_append, drop_of_length_le (by simp)]
  simp

/-- **Clean what was smudged**: it is what it was, if and only if passing each `$Id$` whole meets
no keyword with a value. -/
theorem identToGit_identToWorkingTree_iff (bytes : Bytes) :
    identToGit (identToWorkingTree bytes oidHex) = bytes ↔ sharesDollar 0 bytes = false := by
  induction hlength : bytes.length using Nat.strong_induction_on generalizing bytes with
  | h length ih =>
    by_cases hmem : dollar ∈ bytes
    · obtain ⟨front, rest, rfl, hfront⟩ := eq_append_cons_of_mem hmem
      simp only [length_append, length_cons] at hlength
      rw [identToGit, identToWorkingTree, rewriteFrom_append hfront, rewriteFrom_append hfront,
        sharesDollar_append hfront, append_cancel_left_eq]
      by_cases hid : collapsedName <+: rest
      · obtain ⟨rest, rfl⟩ := hid
        have hexpand : expandAt (expandedKeyword oidHex) (collapsedName ++ rest) =
            some (expandedKeyword oidHex, 3) := by
          simp [expandAt, startsWithName, collapsedName]
        have hrest := ih rest.length (by simp at hlength; omega) rest rfl
        rw [rewriteFrom, if_pos rfl, hexpand, sharesDollar, if_pos rfl, if_pos (prefix_append _ _),
          sharesDollar_drop]
        dsimp only
        rw [identToGit_expanded hdollar hlf, rewriteFrom_drop _ 3]
        simpa [collapsedName, identToGit, identToWorkingTree] using hrest
      · rw [sharesDollar, if_pos rfl, if_neg hid]
        have hkept : ∀ rest', dollar :: (collapsedName ++ rest') ≠ dollar :: rest :=
          fun rest' heq => hid ⟨rest', (cons.inj heq).2⟩
        rcases expandAt_cases (expandedKeyword oidHex) hid with
          hexpand | ⟨resumeAt, hexpand, hcollapse⟩
        · have hsame := collapseAt_rewriteFrom (expandAt (expandedKeyword oidHex)) rest
          rw [rewriteFrom, if_pos rfl, hexpand]
          dsimp only
          rw [rewriteFrom, if_pos rfl, hsame]
          cases hcollapse : collapseAt rest with
          | none => simpa [identToGit, identToWorkingTree] using ih rest.length (by omega) rest rfl
          | some found =>
            obtain ⟨name, resumeAt⟩ := found
            obtain rfl : collapsedName = name := by
              simp only [collapseAt] at hcollapse
              split at hcollapse
              · cases hcollapse
              · obtain ⟨closing, -, h⟩ := Option.bind_eq_some_iff.mp hcollapse
                exact congrArg Prod.fst (Option.some.inj h)
            exact iff_of_false (hkept _) (by simp)
        · rw [rewriteFrom, if_pos rfl, hexpand]
          dsimp only
          rw [identToGit_expanded hdollar hlf, hcollapse]
          exact iff_of_false (hkept _) (by simp)
    · have := sharesDollar_append hmem []
      have hsame := fun matchAt => rewriteFrom_append hmem matchAt []
      simp only [append_nil] at this hsame
      simp [identToGit, identToWorkingTree, hsame, this, rewriteFrom, sharesDollar]

end

/-- A keyword behind a dollar that opens none. -/
theorem identToGit_identToWorkingTree_iff_short :
    identToGit (identToWorkingTree (dollar :: colon :: dollar :: collapsedName) [0x61]) =
      dollar :: colon :: dollar :: collapsedName :=
  (identToGit_identToWorkingTree_iff (by decide) (by decide) _).mpr (by decide)

/-- The `$` that closes a keyword opens the next: `$Id$Id: x$Id: y$`. -/
theorem sharedDollar_lost : ∃ bytes : Bytes,
    identToGit (identToWorkingTree (identToGit bytes) [0x61]) ≠ identToGit bytes :=
  ⟨dollar :: collapsedName ++ [upperI, lowerD, colon, space, 0x78, dollar] ++
    [upperI, lowerD, colon, space, 0x79, dollar], by decide⟩

end Tsgit.Eol
