import Tsgit.GlobRows

/-!
# Path Globs

`src/src/domain/pathspec/compile-glob.ts`: the dialect of ignore rules, attributes and sparse
patterns. Patterns and paths are lists of UTF-16 units. A position in a pattern is the unit
before it and the units from it on.
-/

namespace Tsgit.CompileGlob

open List GlobRows

abbrev Units := List ℕ

def star : ℕ := 0x2a
def question : ℕ := 0x3f
def separator : ℕ := 0x2f

structure CompileGlobOptions where
  anchored : Bool
  withDirSuffix : Bool

inductive GlobToken
  | literal (char : ℕ)
  | single
  | star
  | starStar
  | starSlash

/-- A token, the last unit it was scanned from, and the units after it. -/
structure ScannedToken where
  token : GlobToken
  last : ℕ
  next : Units

/-! ### Scanning -/

def isWholeComponent (before : Option ℕ) (next : Units) : Bool :=
  (before = none ∨ before = some separator) ∧ (next = [] ∨ next.head? = some separator)

def scanPathnameStar (before : Option ℕ) (units : Units) : ScannedToken :=
  let count := (units.takeWhile (· == star)).length + 1
  let next := units.dropWhile (· == star)
  let spansDirectories := 1 < count ∧ isWholeComponent before next = true
  if ¬spansDirectories then ⟨.star, star, next⟩
  else if next.head? = some separator then ⟨.starSlash, separator, next.tail⟩
  else ⟨.starStar, star, next⟩

def scanToken (before : Option ℕ) (unit : ℕ) (next : Units) : ScannedToken :=
  if unit = star then scanPathnameStar before next
  else if unit = question then ⟨.single, question, next⟩
  else ⟨.literal unit, unit, next⟩

def tokenizeFrom : ℕ → Option ℕ → Units → List GlobToken
  | fuel + 1, before, unit :: next =>
    let scanned := scanToken before unit next
    scanned.token :: tokenizeFrom fuel (some scanned.last) scanned.next
  | _, _, _ => []

def tokenize (pattern : Units) : List GlobToken := tokenizeFrom pattern.length none pattern

/-! ### Layers -/

def stepLiteral (char : ℕ) (path : Units) (next : List Bool) : List Bool :=
  one (· == char) path next

def stepSingle (path : Units) (next : List Bool) : List Bool := one (· != separator) path next

def stepStar (path : Units) (next : List Bool) : List Bool := run (· != separator) path next

/-- Every suffix matches: such a token can only end the pattern. -/
def stepStarStar (path : Units) : List Bool := replicate (path.length + 1) true

/-- Where some run that ends on a separator comes in front of a set cell. -/
def separatorRuns : Units → List Bool → List Bool
  | unit :: path, _ :: next =>
    let rest := separatorRuns path next
    ((unit == separator && next.headD false) || rest.headD false) :: rest
  | _, _ => [false]

def stepStarSlash (path : Units) (next : List Bool) : List Bool :=
  zipWith (· || ·) next (separatorRuns path next)

def stepToken (token : GlobToken) (path : Units) (next : List Bool) : List Bool :=
  match token with
  | .literal char => stepLiteral char path next
  | .single => stepSingle path next
  | .star => stepStar path next
  | .starStar => stepStarStar path
  | .starSlash => stepStarSlash path next

def baseLayer (withDirSuffix : Bool) : Units → List Bool
  | [] => [true]
  | unit :: path => (withDirSuffix && unit == separator) :: baseLayer withDirSuffix path

def matchTokens (tokens : List GlobToken) (options : CompileGlobOptions) (path : Units) : Bool :=
  let base := baseLayer options.withDirSuffix path
  let body := tokens.reverse.foldl (fun dp token => stepToken token path dp) base
  (if options.anchored then body else stepToken .starSlash path body).headD false

def compileGlob (pattern : Units) (options : CompileGlobOptions) (path : Units) : Bool :=
  matchTokens (tokenize pattern) options path

/-! ### What a pattern denotes -/

/-- What a part of a pattern stands for; a literal is one unit. -/
def GlobToken.language : GlobToken → Language ℕ
  | literal char => letter {char}
  | single => letter {separator}ᶜ
  | star => runs {separator}ᶜ
  | starStar => runs Set.univ
  | starSlash => dirs separator

/-- Two or more stars that are a whole component. -/
def WholeComponent (before : Option ℕ) (count : ℕ) (rest : Units) : Prop :=
  1 < count ∧ (before = none ∨ before = some separator) ∧ (rest = [] ∨ ∃ r, rest = separator :: r)

/-- The units of a pattern after `before`, as parts; the stars of `**/` take the separator. -/
inductive Reads : Option ℕ → Units → List GlobToken → Prop
  | done (before : Option ℕ) : Reads before [] []
  | starRun {before : Option ℕ} {n : ℕ} {rest : Units} {tokens : List GlobToken}
      (hrest : rest.head? ≠ some star) (hwhole : ¬WholeComponent before (n + 1) rest)
      (h : Reads (some star) rest tokens) :
      Reads before (replicate (n + 1) star ++ rest) (.star :: tokens)
  | directories {before : Option ℕ} {n : ℕ} {rest : Units} {tokens : List GlobToken}
      (hwhole : WholeComponent before (n + 1) (separator :: rest))
      (h : Reads (some separator) rest tokens) :
      Reads before (replicate (n + 1) star ++ separator :: rest) (.starSlash :: tokens)
  | everything {before : Option ℕ} {n : ℕ} (hwhole : WholeComponent before (n + 1) []) :
      Reads before (replicate (n + 1) star) [.starStar]
  | single {before : Option ℕ} {rest : Units} {tokens : List GlobToken}
      (h : Reads (some question) rest tokens) :
      Reads before (question :: rest) (.single :: tokens)
  | literal {before : Option ℕ} {unit : ℕ} {rest : Units} {tokens : List GlobToken}
      (hplain : unit ≠ star ∧ unit ≠ question) (h : Reads (some unit) rest tokens) :
      Reads before (unit :: rest) (.literal unit :: tokens)

def language (tokens : List GlobToken) : Language ℕ :=
  tokens.foldr (fun token rest => token.language * rest) 1

/-- The pattern itself, or it and everything beneath it. -/
def suffix (withDirSuffix : Bool) : Language ℕ :=
  if withDirSuffix then 1 + letter {separator} * runs Set.univ else 1

/-- The start of the path, or below any directory. -/
def start (anchored : Bool) : Language ℕ := if anchored then 1 else dirs separator

/-- The path is one of the pattern's. -/
def Denotes (pattern : Units) (options : CompileGlobOptions) (path : Units) : Prop :=
  ∃ tokens, Reads none pattern tokens ∧
    path ∈ start options.anchored * (language tokens * suffix options.withDirSuffix)

/-! ### The scanner reads patterns -/

variable {before : Option ℕ}

theorem isWholeComponent_iff {count : ℕ} {rest : Units} :
    (1 < count ∧ isWholeComponent before rest = true) ↔ WholeComponent before count rest := by
  rw [isWholeComponent, WholeComponent, decide_eq_true_iff]
  refine and_congr_right fun _ => and_congr_right fun _ => or_congr_right ?_
  cases rest with
  | nil => simp
  | cons unit rest => simp

theorem scanToken_stars (before : Option ℕ) {rest : Units} (hrest : rest.head? ≠ some star)
    (n : ℕ) : scanToken before star (replicate n star ++ rest) =
      if ¬(1 < n + 1 ∧ isWholeComponent before rest = true) then ⟨.star, star, rest⟩
      else if rest.head? = some separator then ⟨.starSlash, separator, rest.tail⟩
      else ⟨.starStar, star, rest⟩ := by
  obtain ⟨hlen, hdrop⟩ := takeWhile_run hrest n
  rw [scanToken, if_pos rfl, scanPathnameStar, hlen, hdrop]

/-- The scanner reads any pattern. -/
theorem tokenizeFrom_reads {fuel : ℕ} {units : Units}
    (hfuel : units.length ≤ fuel) : Reads before units (tokenizeFrom fuel before units) := by
  induction fuel generalizing before units with
  | zero =>
    obtain rfl := length_eq_zero_iff.mp (Nat.le_zero.mp hfuel)
    exact .done before
  | succ fuel ih =>
    cases units with
    | nil => exact .done before
    | cons unit next =>
      have hnext := Nat.le_of_succ_le_succ hfuel
      rw [tokenizeFrom]
      by_cases hstar : unit = star
      · subst hstar
        obtain ⟨n, rest, rfl, hrest⟩ := exists_run star next
        have hle : rest.length ≤ fuel := by
          rw [length_append] at hnext
          omega
        have hunits : star :: (replicate n star ++ rest) =
            replicate (n + 1) star ++ rest := rfl
        rw [scanToken_stars before hrest, hunits]
        by_cases hwhole : WholeComponent before (n + 1) rest
        · rw [if_neg (not_not.mpr (isWholeComponent_iff.mpr hwhole))]
          rcases hwhole.2.2 with rfl | ⟨r, rfl⟩
          · rw [if_neg (by simp), append_nil]
            cases fuel <;> exact .everything hwhole
          · rw [if_pos (show (separator :: r).head? = some separator from rfl)]
            exact .directories hwhole (ih (Nat.le_of_succ_le hle))
        · rw [if_pos (mt isWholeComponent_iff.mp hwhole)]
          exact .starRun hrest hwhole (ih hle)
      · rw [scanToken, if_neg hstar]
        by_cases hquestion : unit = question
        · rw [if_pos hquestion, hquestion]
          exact .single (ih hnext)
        · rw [if_neg hquestion]
          exact .literal ⟨hstar, hquestion⟩ (ih hnext)

variable {tokens : List GlobToken}

theorem tokenizeFrom_cons {fuel : ℕ} {unit : ℕ} {next : Units}
    {scanned : ScannedToken}
    (hscan : scanToken before unit next = scanned) (hlen : scanned.next.length ≤ next.length)
    (hrest : ∀ {fuel : ℕ}, scanned.next.length ≤ fuel →
      tokenizeFrom fuel (some scanned.last) scanned.next = tokens)
    (hfuel : (unit :: next).length ≤ fuel) :
    tokenizeFrom fuel before (unit :: next) = scanned.token :: tokens := by
  cases fuel with
  | zero => exact absurd hfuel (Nat.not_succ_le_zero _)
  | succ fuel =>
    rw [tokenizeFrom, hscan]
    exact congrArg _ (hrest (hlen.trans (Nat.le_of_succ_le_succ hfuel)))

/-- A pattern is read in one way only. -/
theorem Reads.tokenizeFrom {units : Units}
    (h : Reads before units tokens) {fuel : ℕ} (hfuel : units.length ≤ fuel) :
    CompileGlob.tokenizeFrom fuel before units = tokens := by
  have hstars (n : ℕ) (rest : Units) : rest.length ≤ (replicate n star ++ rest).length := by
    rw [length_append]
    omega
  induction h generalizing fuel with
  | done before => cases fuel <;> rfl
  | starRun hrest hwhole h ih =>
    rename_i before n rest tokens
    have hscan := scanToken_stars before hrest n
    rw [if_pos (mt isWholeComponent_iff.mp hwhole)] at hscan
    exact tokenizeFrom_cons hscan (hstars n rest) ih hfuel
  | directories hwhole h ih =>
    rename_i before n rest tokens
    have hhead : (separator :: rest).head? ≠ some star := by simp [separator, star]
    have hscan := scanToken_stars before hhead n
    rw [if_neg (not_not.mpr (isWholeComponent_iff.mpr hwhole)),
      if_pos (show (separator :: rest).head? = some separator from rfl)] at hscan
    exact tokenizeFrom_cons hscan ((Nat.le_succ _).trans (hstars n (separator :: rest))) ih hfuel
  | everything hwhole =>
    rename_i before n
    have hhead : ([] : Units).head? ≠ some star := by simp
    have hscan := scanToken_stars before hhead n
    rw [if_neg (not_not.mpr (isWholeComponent_iff.mpr hwhole)), if_neg (by simp),
      append_nil] at hscan
    refine tokenizeFrom_cons hscan (Nat.zero_le _) (fun _ => ?_) hfuel
    rename_i fuel _
    cases fuel <;> rfl
  | single h ih => exact tokenizeFrom_cons rfl le_rfl ih hfuel
  | literal hplain h ih =>
    rename_i before unit rest tokens
    have hscan : scanToken before unit rest = ⟨.literal unit, unit, rest⟩ := by
      rw [scanToken, if_neg hplain.1, if_neg hplain.2]
    exact tokenizeFrom_cons hscan le_rfl ih hfuel

theorem tokenize_reads (pattern : Units) : Reads none pattern (tokenize pattern) :=
  tokenizeFrom_reads le_rfl

/-! ### Layers are rows -/

variable {L : Language ℕ} {path : Units} {row : List Bool}

theorem isRow_all (hall : ∀ w, w ∈ L) : IsRow L path (replicate (path.length + 1) true) := by
  induction path with
  | nil => exact ⟨true, rfl, by simp [hall]⟩
  | cons unit path ih => exact ⟨true, _, rfl, by simp [hall], ih⟩

theorem isRow_separatorRuns (h : IsRow L path row) :
    IsRow (runs Set.univ * (letter {separator} * L)) path (separatorRuns path row) := by
  induction path generalizing row with
  | nil => exact ⟨false, rfl, by simp [nil_mem_runs_mul, nil_not_mem_letter_mul]⟩
  | cons unit path ih =>
    obtain ⟨cell, rest, rfl, -, hrest⟩ := h
    have hrow := ih hrest
    refine ⟨_, _, rfl, ?_, hrow⟩
    rw [Bool.or_eq_true, Bool.and_eq_true, beq_iff_eq, hrest.head, hrow.head, cons_mem_runs_mul,
      cons_mem_letter_mul, Set.mem_singleton_iff]
    simp

theorem isRow_starSlash (h : IsRow L path row) :
    IsRow (dirs separator * L) path (stepStarSlash path row) := by
  refine (h.union (isRow_separatorRuns h)).congr fun w => ?_
  rw [Language.mem_add]
  exact mem_dirs_mul.symm

theorem isRow_baseLayer (withDirSuffix : Bool) (path : Units) :
    IsRow (suffix withDirSuffix) path (baseLayer withDirSuffix path) := by
  induction path with
  | nil =>
    refine ⟨true, rfl, fun _ => ?_, fun _ => rfl⟩
    cases withDirSuffix with
    | false => exact rfl
    | true => exact Or.inl rfl
  | cons unit path ih =>
    refine ⟨_, _, rfl, ?_, ih⟩
    cases withDirSuffix with
    | false => simp [suffix, Language.mem_one]
    | true =>
      have hall : path ∈ runs (Set.univ : Set ℕ) := fun _ _ => Set.mem_univ _
      simp [suffix, Language.mem_add, Language.mem_one, cons_mem_letter_mul, hall]

theorem nil_mem_suffix (withDirSuffix : Bool) : [] ∈ suffix withDirSuffix :=
  (isRow_baseLayer withDirSuffix []).head.mp rfl

/-- **The layers of a pattern** are the rows of its language, in front of the suffix. -/
theorem Reads.isRow {units : Units}
    (h : Reads before units tokens) (withDirSuffix : Bool) (path : Units) :
    IsRow (language tokens * suffix withDirSuffix) path
      (tokens.foldr (fun token dp => CompileGlob.stepToken token path dp)
        (baseLayer withDirSuffix path)) := by
  have hcons (token : GlobToken) (tokens : List GlobToken) (w : Units) :
      w ∈ token.language * (language tokens * suffix withDirSuffix) ↔
        w ∈ language (token :: tokens) * suffix withDirSuffix := by
    rw [← mul_assoc]
    rfl
  have hone : language [] * suffix withDirSuffix = suffix withDirSuffix :=
    one_mul (suffix withDirSuffix)
  induction h with
  | done before =>
    refine (isRow_baseLayer withDirSuffix path).congr fun w => ?_
    rw [hone]
  | starRun hrest hwhole h ih =>
    exact (isRow_run (S := {separator}ᶜ) (by simp) ih).congr (hcons .star _)
  | directories hwhole h ih => exact (isRow_starSlash ih).congr (hcons .starSlash _)
  | everything hwhole =>
    refine isRow_all fun w => (hcons _ _ w).mp ⟨w, fun _ _ => Set.mem_univ _, [], ?_, ?_⟩
    · rw [hone]
      exact nil_mem_suffix withDirSuffix
    · exact append_nil w
  | single h ih => exact (isRow_one (S := {separator}ᶜ) (by simp) ih).congr (hcons .single _)
  | literal hplain h ih =>
    rename_i before unit rest tokens
    exact (isRow_one (S := {unit}) (by simp) ih).congr (hcons (.literal unit) _)

theorem matchTokens_spec {pattern : Units}
    (h : Reads none pattern tokens) (options : CompileGlobOptions) (path : Units) :
    matchTokens tokens options path = true ↔
      path ∈ start options.anchored * (language tokens * suffix options.withDirSuffix) := by
  have hrow := h.isRow options.withDirSuffix path
  rw [matchTokens, foldl_reverse, start]
  cases options.anchored with
  | true =>
    rw [if_pos rfl, if_pos rfl, one_mul]
    exact hrow.head
  | false =>
    rw [if_neg Bool.false_ne_true, if_neg Bool.false_ne_true]
    exact (isRow_starSlash hrow).head

/-- **A path is accepted exactly when the pattern denotes it.** -/
theorem compileGlob_exact (pattern : Units) (options : CompileGlobOptions) (path : Units) :
    compileGlob pattern options path = true ↔ Denotes pattern options path := by
  rw [compileGlob]
  have hreads := tokenize_reads pattern
  refine (matchTokens_spec hreads options path).trans ⟨fun h => ⟨_, hreads, h⟩, ?_⟩
  rintro ⟨tokens, hreads', hmem⟩
  have htokens : tokenize pattern = tokens := hreads'.tokenizeFrom le_rfl
  rwa [htokens]

end Tsgit.CompileGlob
