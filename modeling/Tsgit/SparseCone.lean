import Mathlib.Data.List.DropRight
import Tsgit.HeaderBlock

/-!
# Sparse Cones

The cone mode of `src/domain/sparse/cone.ts`: the directories that are given, those above them, the
file both are written to, its reader and the matcher.
-/

namespace Tsgit.Sparse

open List

/-- The code units of a string. -/
abbrev Units := List ℕ

def slash : ℕ := 47
def backslash : ℕ := 92
def star : ℕ := 42
def question : ℕ := 63
def bang : ℕ := 33
def dot : ℕ := 46
def lf : ℕ := 10
def cr : ℕ := 13
def nul : ℕ := 0

inductive Refusal
  | invalidOption (option reason : String) (shown : Units)

/-- Two sets, in the order of their insertions. -/
structure ConeSpec where
  recursive : List Units
  parents : List Units

/-! ### Directories -/

/-- The prefixes of a directory that end in front of a separator, the longest first. -/
def properAncestors (dir : Units) : List Units :=
  let segments := dir.splitOn slash
  (range' 1 (segments.length - 1)).reverse.map fun count =>
    [slash].intercalate (segments.take count)

def rejectBadSegment (raw segment : Units) : Except Refusal Unit :=
  let shown := raw.take 128
  if segment = [] ∨ segment = [dot] ∨ segment = [dot, dot] then
    .error (.invalidOption "patterns" "cone directory has an invalid segment: " shown)
  else if star ∈ segment ∨ question ∈ segment then
    .error (.invalidOption "patterns" "cone directory must not contain glob metacharacters: " shown)
  else if lf ∈ segment ∨ cr ∈ segment ∨ nul ∈ segment then
    .error (.invalidOption "patterns" "cone directory must not contain control characters: " shown)
  else .ok ⟨⟩

/-- `posix` of `normalizeConeDir`. -/
def posixOf (raw : Units) : Units :=
  ((raw.map fun unit => if unit = backslash then slash else unit).dropWhile
    (· == slash)).rdropWhile (· == slash)

def normalizeConeDir (raw : Units) : Except Refusal Units := do
  ((posixOf raw).splitOn slash).forM (rejectBadSegment raw)
  return posixOf raw

def buildConeSpec (dirs : List Units) : Except Refusal ConeSpec := do
  let recursive := (← dirs.mapM normalizeConeDir).eraseDups
  return ⟨recursive, ((recursive.flatMap properAncestors).filter (· ∉ recursive)).eraseDups⟩

/-! ### The matcher -/

/-- What stands in front of the last separator. -/
def beforeLastSlash : Units → Option Units
  | [] => none
  | unit :: rest =>
    ((beforeLastSlash rest).map (unit :: ·)).or (if unit = slash then some [] else none)

def dirname (path : Units) : Units := (beforeLastSlash path).getD []

/-- The loop of `coneMatcher`, for as many turns as there can be. -/
def climb (recursive : List Units) : ℕ → Units → Bool
  | 0, _ => false
  | room + 1, ancestor =>
    decide (ancestor ∈ recursive) || (beforeLastSlash ancestor).any (climb recursive room)

def coneMatcher (spec : ConeSpec) (path : Units) : Bool :=
  let dir := dirname path
  decide (dir = []) || decide (dir ∈ spec.parents) || climb spec.recursive (dir.length + 1) dir

/-! ### The file -/

def coneDirLine (dir : Units) : Units := slash :: (dir ++ [slash])
def negatedLine (dir : Units) : Units := bang :: slash :: (dir ++ [slash, star, slash])

def dirLines (spec : ConeSpec) (dir : Units) : List Units :=
  coneDirLine dir :: if dir ∈ spec.parents then [negatedLine dir] else []

def coneHeader : List Units := [[slash, star], [bang, slash, star, slash]]

/-- `all` of `serializeCone`. -/
def ConeSpec.all (spec : ConeSpec) : List Units :=
  (spec.parents ++ spec.recursive).mergeSort fun a b => decide (a ≤ b)

def serializeCone (spec : ConeSpec) : Units :=
  coneHeader.flatMap (· ++ [lf]) ++
    spec.all.flatMap fun dir => (dirLines spec dir).flatMap (· ++ [lf])

/-- `line.replace(/\r$/, '')`. -/
def stripCr (line : Units) : Units := if line.getLast? = some cr then line.dropLast else line

def parseConeDirLine (line : Units) : Option Units :=
  if line.head? ≠ some slash ∨ line.getLast? ≠ some slash then none
  else
    let inner := (line.drop 1).dropLast
    if inner = [] ∨ inner.head? = some bang then none else some inner

def added (set : List Units) (dir : Units) : List Units := if dir ∈ set then set else set ++ [dir]

def ConeSpec.addRecursive (spec : ConeSpec) (dir : Units) : ConeSpec :=
  { spec with recursive := added spec.recursive dir }

def ConeSpec.addParent (spec : ConeSpec) (dir : Units) : ConeSpec :=
  { spec with parents := added spec.parents dir }

/-- The loop of `parseCone`. -/
def parseDirs (spec : ConeSpec) : List Units → Option ConeSpec
  | [] => some spec
  | [line] => if line = [] then some spec else (parseConeDirLine line).map spec.addRecursive
  | line :: next :: rest =>
    if line = [] then parseDirs spec (next :: rest)
    else
      (parseConeDirLine line).bind fun dir =>
        if next = negatedLine dir then parseDirs (spec.addParent dir) rest
        else parseDirs (spec.addRecursive dir) (next :: rest)

def parseCone (text : Units) : Option ConeSpec :=
  let lines := (text.splitOn lf).map stripCr
  if lines.take 2 ≠ coneHeader then none else parseDirs ⟨[], []⟩ (lines.drop 2)

/-! ### What lies above a directory, and beneath it -/

variable {dir path : Units} {dirs : List Units}

theorem mem_properAncestors {above : Units} :
    above ∈ properAncestors dir ↔ above ++ [slash] <+: dir := by
  have hsegments := splitOn_ne_nil slash dir
  simp only [properAncestors, mem_map, mem_reverse, mem_range'_1]
  constructor
  · rintro ⟨count, ⟨hpos, hlt⟩, rfl⟩
    have htake : (dir.splitOn slash).take count ≠ [] := by
      rw [Ne, take_eq_nil_iff, not_or]
      exact ⟨by omega, hsegments⟩
    have hdrop : (dir.splitOn slash).drop count ≠ [] := by
      rw [Ne, drop_eq_nil_iff]
      omega
    refine ⟨[slash].intercalate ((dir.splitOn slash).drop count), ?_⟩
    rw [append_assoc, singleton_append, ← intercalate_append htake hdrop, take_append_drop,
      intercalate_splitOn]
  · rintro ⟨rest, rfl⟩
    have hfront := length_pos_iff.mpr (splitOn_ne_nil slash above)
    have hback := length_pos_iff.mpr (splitOn_ne_nil slash rest)
    refine ⟨(above.splitOn slash).length, ?_, ?_⟩ <;>
      rw [append_assoc, singleton_append, splitOn_append_cons_self]
    · rw [length_append]
      omega
    · rw [take_left, intercalate_splitOn]

theorem beforeLastSlash_spec (path : Units) :
    (beforeLastSlash path = none ∧ slash ∉ path) ∨ ∃ dir name, slash ∉ name ∧
      beforeLastSlash path = some dir ∧ path = dir ++ slash :: name := by
  induction path with
  | nil => exact .inl ⟨rfl, not_mem_nil⟩
  | cons unit rest ih =>
    rw [beforeLastSlash]
    rcases ih with ⟨hnone, hrest⟩ | ⟨dir, name, hname, hsome, rfl⟩
    · rw [hnone]
      by_cases hunit : unit = slash
      · exact .inr ⟨[], rest, hrest, by rw [if_pos hunit]; rfl, by rw [hunit]; rfl⟩
      · refine .inl ⟨by rw [if_neg hunit]; rfl, ?_⟩
        rw [mem_cons, not_or]
        exact ⟨Ne.symm hunit, hrest⟩
    · exact .inr ⟨unit :: dir, name, hname, by rw [hsome]; rfl, rfl⟩

theorem beneath_iff {above name : Units} (hname : slash ∉ name) :
    above ++ [slash] <+: dir ++ slash :: name ↔ above = dir ∨ above ++ [slash] <+: dir := by
  have hdir : dir ++ slash :: name = dir ++ [slash] ++ name := by
    rw [append_assoc, singleton_append]
  rw [hdir]
  constructor
  · intro h
    rcases prefix_or_prefix_of_prefix h ( prefix_append (dir ++ [slash]) name) with hle | hle
    · rcases prefix_concat_iff.mp hle with heq | hlt
      · exact .inl (append_cancel_right heq)
      · exact .inr hlt
    · rcases prefix_concat_iff.mp hle with heq | ⟨between, rfl⟩
      · exact .inl (append_cancel_right heq.symm)
      · -- a separator in the name
        rw [append_assoc, prefix_append_right_inj] at h
        exact absurd (h.subset (mem_append_right _ (mem_singleton_self _))) hname
  · rintro (rfl | h)
    · exact prefix_append _ _
    · exact h.trans (append_assoc dir [slash] name ▸ prefix_append dir _)

theorem climb_iff {recursive : List Units} {room : ℕ} {ancestor : Units}
    (hroom : ancestor.length < room) : climb recursive room ancestor = true ↔
      ∃ dir ∈ recursive, dir = ancestor ∨ dir ++ [slash] <+: ancestor := by
  induction room generalizing ancestor with
  | zero => exact absurd hroom (Nat.not_lt_zero _)
  | succ room ih =>
    rw [climb, Bool.or_eq_true, decide_eq_true_iff]
    rcases beforeLastSlash_spec ancestor with ⟨hnone, hslash⟩ | ⟨front, name, hname, hsome, rfl⟩
    · rw [hnone]
      constructor
      · rintro (hmem | hfalse)
        · exact ⟨ancestor, hmem, .inl rfl⟩
        · cases hfalse
      · rintro ⟨dir, hmem, rfl | hbeneath⟩
        · exact .inl hmem
        · exact absurd (hbeneath.subset (mem_append_right _ (mem_singleton_self _))) hslash
    · have hlength : front.length < room := by
        rw [length_append, length_cons] at hroom
        omega
      rw [hsome, Option.any_some, ih hlength]
      simp only [beneath_iff hname]
      constructor
      · rintro (hmem | ⟨dir, hmem, hdir⟩)
        · exact ⟨_, hmem, .inl rfl⟩
        · exact ⟨dir, hmem, .inr hdir⟩
      · rintro ⟨dir, hmem, rfl | hdir⟩
        · exact .inl hmem
        · exact .inr ⟨dir, hmem, hdir⟩

/-- **The matcher**: a path at the root, one in a parent, and one beneath a recursive directory. -/
theorem coneMatcher_iff (spec : ConeSpec) (path : Units) : coneMatcher spec path = true ↔
    dirname path = [] ∨ dirname path ∈ spec.parents ∨
      ∃ dir ∈ spec.recursive, dir ++ [slash] <+: path := by
  rw [coneMatcher, Bool.or_eq_true, Bool.or_eq_true, decide_eq_true_iff, decide_eq_true_iff,
    climb_iff (Nat.lt_succ_self _), or_assoc]
  rcases beforeLastSlash_spec path with ⟨hnone, hslash⟩ | ⟨front, name, hname, hsome, rfl⟩
  · have hroot : dirname path = [] := by rw [dirname, hnone]; rfl
    exact iff_of_true (.inl hroot) (.inl hroot)
  · have hfront : dirname (front ++ slash :: name) = front := by rw [dirname, hsome]; rfl
    simp only [hfront, beneath_iff hname]

/-! ### What is given -/

/-- A path at the root, one in a directory above a given one, and one beneath a given one. -/
def Included (given : List Units) (path : Units) : Prop :=
  dirname path = [] ∨ (∃ dir ∈ given, dirname path ++ [slash] <+: dir) ∨
    ∃ dir ∈ given, dir ++ [slash] <+: path

/-- No end of a line is in it. -/
abbrev Single (line : Units) : Prop := ∀ unit ∈ line, unit ≠ lf ∧ unit ≠ cr

/-- No separator stands in front, and none of the ends of a line is in the name. -/
structure Plain (dir : Units) : Prop where
  front : dir.head? ≠ some slash
  ne_nil : dir ≠ []
  single : Single dir

theorem plain_of_segments
    (h : ∀ segment ∈ dir.splitOn slash, segment ≠ [] ∧ Single segment) :
    Plain dir := by
  refine ⟨fun hfront => ?_, ?_, fun unit hunit => ?_⟩
  · obtain ⟨rest, rfl⟩ := head?_eq_some_iff.mp hfront
    refine (h [] ?_).1 rfl
    rw [← nil_append (slash :: rest), splitOn_append_cons_self, splitOn_nil]
    exact mem_append_left _ (mem_singleton_self _)
  · rintro rfl
    exact (h [] (@splitOn_nil _ _ slash ▸ mem_singleton_self _)).1 rfl
  · have hdir := @intercalate_splitOn _ dir _ _ slash
    rw [← hdir] at hunit
    rcases mem_of_mem_intercalate hunit with rfl | ⟨segment, hsegment, hmem⟩
    · decide
    · exact (h segment hsegment).2 unit hmem

theorem rejectBadSegment_ok {raw segment : Units} (h : rejectBadSegment raw segment = .ok ⟨⟩) :
    segment ≠ [] ∧ Single segment := by
  rw [rejectBadSegment] at h
  split at h
  · cases h
  · next hshape =>
    split at h
    · cases h
    split at h
    · cases h
    · next hcontrol =>
      rw [not_or] at hshape hcontrol
      have hcr := (not_or.mp hcontrol.2).1
      exact ⟨hshape.1, fun unit hunit => ⟨fun heq => hcontrol.1 (heq ▸ hunit),
        fun heq => hcr (heq ▸ hunit)⟩⟩

theorem forM_ok {raw : Units} {segments : List Units}
    (h : segments.forM (rejectBadSegment raw) = .ok ⟨⟩) :
    ∀ segment ∈ segments, rejectBadSegment raw segment = .ok ⟨⟩ := by
  induction segments with
  | nil => exact forall_mem_nil _
  | cons segment segments ih =>
    obtain ⟨⟨⟩, hfirst, hrest⟩ := bind_eq_ok.mp h
    exact forall_mem_cons.mpr ⟨hfirst, ih hrest⟩

theorem normalizeConeDir_ok {raw : Units} (h : normalizeConeDir raw = .ok dir) :
    dir = posixOf raw ∧ Plain dir := by
  obtain ⟨⟨⟩, hsegments, h⟩ := bind_eq_ok.mp h
  cases h
  exact ⟨rfl, plain_of_segments fun segment hsegment =>
    rejectBadSegment_ok (forM_ok hsegments segment hsegment)⟩

theorem mapM_normalizeConeDir {given : List Units} (h : dirs.mapM normalizeConeDir = .ok given) :
    given = dirs.map posixOf ∧ ∀ dir ∈ given, Plain dir := by
  induction dirs generalizing given with
  | nil =>
    cases h
    exact ⟨rfl, forall_mem_nil _⟩
  | cons raw dirs ih =>
    rw [mapM_cons] at h
    obtain ⟨dir, hfirst, h⟩ := bind_eq_ok.mp h
    obtain ⟨others, hrest, h⟩ := bind_eq_ok.mp h
    cases h
    obtain ⟨rfl, hplain⟩ := normalizeConeDir_ok hfirst
    obtain ⟨rfl, hothers⟩ := ih hrest
    exact ⟨rfl, forall_mem_cons.mpr ⟨hplain, hothers⟩⟩

/-- What is built of given directories. -/
structure Built (given : List Units) (spec : ConeSpec) : Prop where
  plain : ∀ dir ∈ given, Plain dir
  recursive (dir : Units) : dir ∈ spec.recursive ↔ dir ∈ given
  parents (dir : Units) :
    dir ∈ spec.parents ↔ (∃ below ∈ given, dir ++ [slash] <+: below) ∧ dir ∉ given

theorem buildConeSpec_built {spec : ConeSpec} (h : buildConeSpec dirs = .ok spec) :
    Built (dirs.map posixOf) spec := by
  obtain ⟨given, hgiven, h⟩ := bind_eq_ok.mp h
  cases h
  obtain ⟨rfl, hplain⟩ := mapM_normalizeConeDir hgiven
  refine ⟨hplain, fun dir => mem_eraseDups, fun dir => ?_⟩
  simp only [mem_eraseDups, mem_filter, mem_flatMap, mem_properAncestors, decide_eq_true_iff]

variable {given : List Units} {spec : ConeSpec}

theorem Built.matches (h : Built given spec) (path : Units) :
    coneMatcher spec path = true ↔ Included given path := by
  rw [coneMatcher_iff, Included]
  simp only [h.recursive, h.parents]
  rcases beforeLastSlash_spec path with ⟨hnone, -⟩ | ⟨front, name, -, hsome, rfl⟩
  · have hroot : dirname path = [] := by rw [dirname, hnone]; rfl
    exact iff_of_true (.inl hroot) (.inl hroot)
  have hfront : dirname (front ++ slash :: name) = front := by rw [dirname, hsome]; rfl
  rw [hfront]
  refine or_congr_right ⟨?_, ?_⟩
  · rintro (⟨habove, -⟩ | hbeneath)
    · exact .inl habove
    · exact .inr hbeneath
  · rintro (habove | hbeneath)
    · by_cases hmem : front ∈ given
      · exact .inr ⟨front, hmem, name, by rw [append_assoc, singleton_append]⟩
      · exact .inl ⟨habove, hmem⟩
    · exact .inr hbeneath

theorem mem_all : dir ∈ spec.all ↔ dir ∈ spec.parents ∨ dir ∈ spec.recursive := by
  rw [ConeSpec.all, mem_mergeSort, mem_append]

theorem Built.exists_given (h : Built given spec) (hdir : dir ∈ spec.all) :
    ∃ below ∈ given, dir = below ∨ dir ++ [slash] <+: below := by
  rcases mem_all.mp hdir with hparent | hrecursive
  · obtain ⟨⟨below, hbelow, habove⟩, -⟩ := (h.parents dir).mp hparent
    exact ⟨below, hbelow, .inr habove⟩
  · exact ⟨dir, (h.recursive dir).mp hrecursive, .inl rfl⟩

theorem Plain.above {below : Units} (h : Plain below) (habove : dir ++ [slash] <+: below) :
    Plain dir ∧ dir.head? = below.head? := by
  obtain ⟨rest, rfl⟩ := habove
  have hne : dir ≠ [] := by
    rintro rfl
    exact h.front rfl
  have hhead : dir.head? = (dir ++ [slash] ++ rest).head? := by
    rw [append_assoc, head?_append_of_ne_nil _ hne]
  exact ⟨⟨hhead ▸ h.front, hne, fun unit hunit =>
    h.single unit (mem_append_left _ (mem_append_left _ hunit))⟩, hhead⟩

theorem Built.plain_all (h : Built given spec) (hdir : dir ∈ spec.all) : Plain dir := by
  obtain ⟨below, hbelow, rfl | habove⟩ := h.exists_given hdir
  · exact h.plain dir hbelow
  · exact ((h.plain below hbelow).above habove).1

theorem Built.exists_bang (h : Built given spec) :
    (∃ dir ∈ spec.all, dir.head? = some bang) ↔ ∃ dir ∈ given, dir.head? = some bang := by
  constructor
  · rintro ⟨dir, hdir, hbang⟩
    obtain ⟨below, hbelow, rfl | habove⟩ := h.exists_given hdir
    · exact ⟨dir, hbelow, hbang⟩
    · exact ⟨below, hbelow, ((h.plain below hbelow).above habove).2 ▸ hbang⟩
  · rintro ⟨dir, hdir, hbang⟩
    exact ⟨dir, mem_all.mpr (.inr ((h.recursive dir).mpr hdir)), hbang⟩

/-! ### The lines of the file -/

def withEnds (crlf : Bool) (text : Units) : Units :=
  text.flatMap fun unit => if unit = lf ∧ crlf = true then [cr, lf] else [unit]

theorem withEnds_line (crlf : Bool) {line : Units} (h : Single line) :
    withEnds crlf (line ++ [lf]) = line ++ (if crlf = true then [cr] else []) ++ [lf] := by
  induction line with
  | nil => cases crlf <;> rfl
  | cons unit line ih =>
    obtain ⟨hfirst, hline⟩ := forall_mem_cons.mp h
    have hunit : ¬ (unit = lf ∧ crlf = true) := fun heq => hfirst.1 heq.1
    have hrest := ih hline
    rw [withEnds] at hrest ⊢
    rw [cons_append, flatMap_cons, if_neg hunit, hrest]
    rfl

theorem stripCr_ended (crlf : Bool) {line : Units} (h : Single line) :
    stripCr (line ++ if crlf = true then [cr] else []) = line := by
  cases crlf with
  | false =>
    have hline : (line ++ if false = true then [cr] else []) = line := append_nil line
    rw [hline, stripCr, if_neg fun hlast => (h _ (mem_of_getLast? hlast)).2 rfl]
  | true =>
    have hline : (line ++ if true = true then [cr] else []) = line ++ [cr] := rfl
    rw [hline, stripCr, if_pos getLast?_concat, dropLast_concat]

theorem lines_withEnds (crlf : Bool) {lines : List Units}
    (h : ∀ line ∈ lines, Single line) :
    ((withEnds crlf (lines.flatMap (· ++ [lf]))).splitOn lf).map stripCr = lines ++ [[]] := by
  induction lines with
  | nil => rfl
  | cons line lines ih =>
    obtain ⟨hline, hlines⟩ := forall_mem_cons.mp h
    have hended : lf ∉ line ++ if crlf = true then [cr] else [] := by
      rw [mem_append, not_or]
      refine ⟨fun hlf => (hline lf hlf).1 rfl, ?_⟩
      cases crlf <;> decide
    have hsplit : withEnds crlf ((line :: lines).flatMap (· ++ [lf])) =
        (line ++ if crlf = true then [cr] else []) ++
          lf :: withEnds crlf (lines.flatMap (· ++ [lf])) := by
      rw [flatMap_cons, withEnds, flatMap_append, ← withEnds, ← withEnds, withEnds_line crlf hline,
        append_assoc, singleton_append]
    rw [hsplit, splitOn_append_cons_self_of_not_mem hended, map_cons, ih hlines,
      stripCr_ended crlf hline]
    rfl

theorem parseConeDirLine_coneDirLine (dir : Units) : parseConeDirLine (coneDirLine dir) =
    if dir = [] ∨ dir.head? = some bang then none else some dir := by
  have hlast : (coneDirLine dir).getLast? = some slash := by
    rw [coneDirLine, ← cons_append, getLast?_concat]
  have hinner : ((coneDirLine dir).drop 1).dropLast = dir := dropLast_concat
  have hshape :
      ¬ ((coneDirLine dir).head? ≠ some slash ∨ (coneDirLine dir).getLast? ≠ some slash) :=
    not_or.mpr ⟨not_not.mpr rfl, not_not.mpr hlast⟩
  rw [parseConeDirLine, if_neg hshape]
  dsimp only
  rw [hinner]

/-- What a written directory is read to. -/
def ConeSpec.taken (written parsed : ConeSpec) (dir : Units) : ConeSpec :=
  if dir ∈ written.parents then parsed.addParent dir else parsed.addRecursive dir

variable {parsed : ConeSpec}

theorem parseDirs_dir (hdir : dir ≠ []) (dirs : List Units) :
    parseDirs parsed (dirLines spec dir ++ (dirs.flatMap (dirLines spec) ++ [[]])) =
      if dir.head? = some bang then none
      else parseDirs (spec.taken parsed dir) (dirs.flatMap (dirLines spec) ++ [[]]) := by
  obtain ⟨next, rest, htail, hnext⟩ : ∃ next rest,
      dirs.flatMap (dirLines spec) ++ [[]] = next :: rest ∧ next ≠ negatedLine dir := by
    cases dirs with
    | nil => exact ⟨[], [], rfl, (cons_ne_nil _ _).symm⟩
    | cons other dirs =>
      exact ⟨coneDirLine other, _, rfl, fun heq => absurd (cons.inj heq).1 (by decide)⟩
  have hline : coneDirLine dir ≠ [] := cons_ne_nil _ _
  rw [htail]
  by_cases hbang : dir.head? = some bang
  · have hnone : parseConeDirLine (coneDirLine dir) = none := by
      rw [parseConeDirLine_coneDirLine, if_pos (.inr hbang)]
    rw [if_pos hbang, dirLines]
    split <;> simp only [cons_append, nil_append, parseDirs] <;> rw [if_neg hline, hnone] <;> rfl
  have hsome : parseConeDirLine (coneDirLine dir) = some dir := by
    rw [parseConeDirLine_coneDirLine, if_neg (not_or.mpr ⟨hdir, hbang⟩)]
  rw [if_neg hbang, dirLines, ConeSpec.taken]
  split <;> simp only [cons_append, nil_append] <;> rw [parseDirs, if_neg hline, hsome,
    Option.bind_some]
  · rw [if_pos rfl]
  · rw [if_neg hnext]

theorem parseDirs_dirs (h : ∀ dir ∈ dirs, dir ≠ []) :
    parseDirs parsed (dirs.flatMap (dirLines spec) ++ [[]]) =
      if ∃ dir ∈ dirs, dir.head? = some bang then none
      else some (dirs.foldl spec.taken parsed) := by
  induction dirs generalizing parsed with
  | nil => rfl
  | cons dir dirs ih =>
    obtain ⟨hdir, hdirs⟩ := forall_mem_cons.mp h
    rw [flatMap_cons, append_assoc, parseDirs_dir hdir, ih hdirs, foldl_cons]
    simp only [mem_cons, exists_eq_or_imp]
    by_cases hbang : dir.head? = some bang
    · rw [if_pos hbang, if_pos (.inl hbang)]
    · simp only [hbang, false_or, if_false]

theorem mem_added {set : List Units} {other : Units} :
    other ∈ added set dir ↔ other ∈ set ∨ other = dir := by
  rw [added]
  split
  · next hmem =>
    constructor
    · exact .inl
    · rintro (hother | rfl)
      · exact hother
      · exact hmem
  · rw [mem_append, mem_singleton]

theorem mem_foldl_taken (dirs : List Units) (parsed : ConeSpec) (dir : Units) :
    (dir ∈ (dirs.foldl spec.taken parsed).recursive ↔
        dir ∈ parsed.recursive ∨ (dir ∈ dirs ∧ dir ∉ spec.parents)) ∧
      (dir ∈ (dirs.foldl spec.taken parsed).parents ↔
        dir ∈ parsed.parents ∨ (dir ∈ dirs ∧ dir ∈ spec.parents)) := by
  induction dirs generalizing parsed with
  | nil => simp
  | cons first dirs ih =>
    rw [foldl_cons, (ih _).1, (ih _).2, ConeSpec.taken]
    split
    · next hparent =>
      rw [ConeSpec.addParent]
      simp only [mem_added, mem_cons]
      grind
    · next hrecursive =>
      rw [ConeSpec.addRecursive]
      simp only [mem_added, mem_cons]
      grind

/-- **The file of a cone**, read back. -/
theorem Built.parseCone_eq (h : Built given spec) (crlf : Bool) :
    parseCone (withEnds crlf (serializeCone spec)) =
      if ∃ dir ∈ given, dir.head? = some bang then none
      else some (spec.all.foldl spec.taken ⟨[], []⟩) := by
  have hlines : serializeCone spec =
      (coneHeader ++ spec.all.flatMap (dirLines spec)).flatMap (· ++ [lf]) := by
    rw [serializeCone, flatMap_append, flatMap_assoc]
  have hfree : ∀ line ∈ coneHeader ++ spec.all.flatMap (dirLines spec), Single line := by
    refine forall_mem_append.mpr ⟨by decide, fun line hline => ?_⟩
    obtain ⟨dir, hdir, hmem⟩ := mem_flatMap.mp hline
    have hends : Single [bang, slash, star] := by decide
    intro unit hunit
    have hparts : unit ∈ dir ∨ unit ∈ [bang, slash, star] := by
      rw [dirLines] at hmem
      split at hmem <;> grind [coneDirLine, negatedLine]
    exact hparts.elim ((h.plain_all hdir).single unit) (hends unit)
  rw [parseCone, hlines, lines_withEnds crlf hfree, append_assoc]
  have htake : (coneHeader ++ (spec.all.flatMap (dirLines spec) ++ [[]])).take 2 = coneHeader := rfl
  have hdrop : (coneHeader ++ (spec.all.flatMap (dirLines spec) ++ [[]])).drop 2 =
      spec.all.flatMap (dirLines spec) ++ [[]] := rfl
  rw [htake, hdrop, if_neg (not_not.mpr rfl),
    parseDirs_dirs fun dir hdir => (h.plain_all hdir).ne_nil]
  simp only [h.exists_bang]

/-- **The sets come back, with the matcher of what is given**, unless a given directory starts with
`!`. -/
theorem parseCone_serializeCone_iff (dirs : List Units) (crlf : Bool) {spec : ConeSpec}
    (h : buildConeSpec dirs = .ok spec) :
    ((∃ parsed, parseCone (withEnds crlf (serializeCone spec)) = some parsed ∧
        (∀ dir, (dir ∈ parsed.recursive ↔ dir ∈ spec.recursive) ∧
          (dir ∈ parsed.parents ↔ dir ∈ spec.parents)) ∧
        ∀ path, coneMatcher parsed path = true ↔ Included (dirs.map posixOf) path) ↔
      ∀ dir ∈ dirs.map posixOf, dir.head? ≠ some bang) ∧
    ((∃ dir ∈ dirs.map posixOf, dir.head? = some bang) →
      parseCone (withEnds crlf (serializeCone spec)) = none) ∧
    ∀ path, coneMatcher spec path = true ↔ Included (dirs.map posixOf) path := by
  have hbuilt := buildConeSpec_built h
  have hparse := hbuilt.parseCone_eq crlf
  refine ⟨⟨?_, fun hfree => ?_⟩, fun hbang => ?_, hbuilt.matches⟩
  · rintro ⟨parsed, hparsed, -⟩ dir hdir hbang
    rw [hparse, if_pos ⟨dir, hdir, hbang⟩] at hparsed
    cases hparsed
  · have hnone : ¬ ∃ dir ∈ dirs.map posixOf, dir.head? = some bang :=
      fun ⟨dir, hdir, hbang⟩ => hfree dir hdir hbang
    rw [if_neg hnone] at hparse
    have hsets := @mem_foldl_taken spec spec.all ⟨[], []⟩
    have hrecursive (dir : Units) :
        dir ∈ (spec.all.foldl spec.taken ⟨[], []⟩).recursive ↔ dir ∈ spec.recursive := by
      rw [(hsets dir).1, mem_all]
      simp only [not_mem_nil, false_or]
      constructor
      · rintro ⟨hparent | hrecursive, hnot⟩
        · exact absurd hparent hnot
        · exact hrecursive
      · exact fun hrecursive => ⟨.inr hrecursive, fun hparent =>
          ((hbuilt.parents dir).mp hparent).2 ((hbuilt.recursive dir).mp hrecursive)⟩
    have hparents (dir : Units) :
        dir ∈ (spec.all.foldl spec.taken ⟨[], []⟩).parents ↔ dir ∈ spec.parents := by
      rw [(hsets dir).2, mem_all]
      simp only [not_mem_nil]
      tauto
    refine ⟨_, hparse, fun dir => ⟨hrecursive dir, hparents dir⟩, fun path => ?_⟩
    rw [← hbuilt.matches, coneMatcher_iff, coneMatcher_iff]
    simp only [hrecursive, hparents]
  · rw [hparse, if_pos hbang]

def nested : Units := [97, slash, 98]

theorem parseCone_serializeCone_iff_nested :
    ∃ parsed, parseCone (withEnds true (serializeCone ⟨[nested], [[97]]⟩)) = some parsed ∧
      (∀ dir, (dir ∈ parsed.recursive ↔ dir ∈ [nested]) ∧ (dir ∈ parsed.parents ↔ dir ∈ [[97]])) ∧
      ∀ path, coneMatcher parsed path = true ↔ Included ([nested].map posixOf) path := by
  have hfree : ∀ dir ∈ [nested].map posixOf, dir.head? ≠ some bang := by decide
  exact (parseCone_serializeCone_iff [nested] true rfl).1.mpr hfree

/-- A directory whose name starts with `!` is written to no cone. -/
theorem bang_lost : ∃ spec, buildConeSpec [[bang, 97]] = .ok spec ∧
    parseCone (withEnds false (serializeCone spec)) = none := by
  have hbuilt : buildConeSpec [[bang, 97]] = .ok ⟨[[bang, 97]], []⟩ := rfl
  refine ⟨_, hbuilt, ?_⟩
  rw [(buildConeSpec_built hbuilt).parseCone_eq]
  rfl

end Tsgit.Sparse
