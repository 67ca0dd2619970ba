import Tsgit.EscapedBytes
import Tsgit.Scanner
import Tsgit.Tag

/-!
# Acceptance of Commits and Tags

`src/domain/objects/parse-acceptance.ts`: whether the parser of git would take the body of a
commit or of a tag.
-/

namespace Tsgit.ParseAcceptance

open List Tsgit.IndexFile Tsgit.Objects Tsgit.Path

def lineFeed : UInt8 := 0x0a

def maxTypeNameBytes : ℕ := 20

def knownTagTypes : List Text :=
  [objectTypeText .blob, objectTypeText .tree, objectTypeText .commit, objectTypeText .tag]

def treePrefix : Bytes := encode treeKeyword
def parentPrefix : Bytes := encode parentKeyword
def objectPrefix : Bytes := encode objectKeyword
def typePrefix : Bytes := encode typeKeyword
def tagPrefix : Bytes := encode tagKeyword

/-- What the scan of a commit expects next. -/
inductive CommitPhase
  | tree
  | parents
  | tail
  deriving DecidableEq

structure CommitScan where
  hexLength : ℕ
  totalBytes : ℕ
  phase : CommitPhase
  carry : Bytes
  treeLineRefusal : Option Text
  treePointerRefusal : Option Text
  treeHex : Option Text
  parentMatchingTree : Option Text
  grammarRefusal : Option Text
  deriving DecidableEq

/-- What the scan of a tag expects next. -/
inductive TagPhase
  | object
  | type
  | tagLinePrefix
  | tagLineScan
  | tail
  deriving DecidableEq

structure TagScan where
  hexLength : ℕ
  totalBytes : ℕ
  phase : TagPhase
  carry : Bytes
  objectLineRefusal : Option Text
  earlyRefusal : Option Text
  deriving DecidableEq

def bogusCommitObject : Text := "bogus commit object".toList
def badTreePointer : Text := "bad tree pointer".toList
def badParents : Text := "bad parents".toList
def badParent : Text := "bad parent ".toList
def tagObjectTooShort : Text := "tag object too short".toList
def badObjectLine : Text := "bad object line".toList
def badTypeLine : Text := "bad type line".toList
def badTagLine : Text := "bad tag line".toList

/-! ### The lines -/

def startsWith (bytes literal : Bytes) : Bool := subarray bytes 0 literal.length = literal

def isHexByte (byte : UInt8) : Bool :=
  (0x30 ≤ byte.toNat ∧ byte.toNat ≤ 0x39) ∨ (0x61 ≤ byte.toNat ∧ byte.toNat ≤ 0x66) ∨
    (0x41 ≤ byte.toNat ∧ byte.toNat ≤ 0x46)

def isAllHex (bytes : Bytes) : Bool := bytes.all isHexByte

def decodeLowerHex (bytes : Bytes) : Text := toLowerCase (decode bytes)

/-- The steps are `none` where the scan waits for more bytes. -/
def feedCommitTree (scan : CommitScan) : Option CommitScan :=
  let h := scan.hexLength
  if scan.carry.length < h + 6 then none
  else
    let window := subarray scan.carry 0 (h + 6)
    let badTreeLine := !startsWith window treePrefix || window[h + 5]? ≠ some lineFeed
    let badPointer := !badTreeLine && !isAllHex (subarray window 5 (5 + h))
    some { scan with
      phase := .parents
      carry := scan.carry.drop (h + 6)
      treeLineRefusal := if badTreeLine then some bogusCommitObject else none
      treePointerRefusal := if badPointer then some badTreePointer else none
      treeHex := if badTreeLine then none else some (decodeLowerHex (subarray window 5 (5 + h))) }

def feedCommitParents (scan : CommitScan) : Option CommitScan :=
  let h := scan.hexLength
  if scan.carry.length < 7 then none
  else if !startsWith scan.carry parentPrefix then some { scan with phase := .tail, carry := [] }
  else if scan.carry.length < h + 9 then none
  else
    let parentLine := subarray scan.carry 0 (h + 8)
    let hexPart := subarray parentLine 7 (7 + h)
    if !isAllHex hexPart || parentLine[h + 7]? ≠ some lineFeed then
      some { scan with phase := .tail, carry := [], grammarRefusal := some badParents }
    else
      let parentHex := decodeLowerHex hexPart
      some { scan with
        carry := scan.carry.drop (h + 8)
        parentMatchingTree :=
          if some parentHex = scan.treeHex then some parentHex else scan.parentMatchingTree }

/-- One turn of the scan of a commit. -/
def stepCommit (scan : CommitScan) : Option CommitScan :=
  match scan.phase with
  | .tree => feedCommitTree scan
  | .parents => feedCommitParents scan
  | .tail => none

def feedTagObject (scan : TagScan) : Option TagScan :=
  let h := scan.hexLength
  if scan.carry.length < h + 8 then none
  else
    let window := subarray scan.carry 0 (h + 8)
    let bad := !startsWith window objectPrefix || !isAllHex (subarray window 7 (7 + h)) ||
      window[h + 7]? ≠ some lineFeed
    some { scan with
      phase := .type
      carry := scan.carry.drop (h + 8)
      objectLineRefusal := if bad then some badObjectLine else none }

def typeNameBeforeNul (bytes : Bytes) : Text := (decode bytes).takeWhile fun c => c ≠ '\x00'

def unknownTagTypeReason (name : Text) : Text :=
  "unknown tag type '".toList ++ sanitizeForDisplay name ++ ['\'']

def feedTagType (scan : TagScan) : Option TagScan :=
  if scan.carry.length < typePrefix.length then none
  else if !startsWith scan.carry typePrefix then
    some { scan with phase := .tail, carry := [], earlyRefusal := some badTypeLine }
  else
    let zoneEnd := min scan.carry.length (typePrefix.length + maxTypeNameBytes)
    let nameZone := subarray scan.carry typePrefix.length zoneEnd
    match indexOf nameZone lineFeed 0 with
    | none =>
      if nameZone.length ≥ maxTypeNameBytes then
        some { scan with phase := .tail, carry := [], earlyRefusal := some badTypeLine }
      else none
    | some lf =>
      let name := typeNameBeforeNul (subarray nameZone 0 lf)
      if !knownTagTypes.contains name then
        some { scan with
          phase := .tail, carry := [], earlyRefusal := some (unknownTagTypeReason name) }
      else
        some { scan with
          phase := .tagLinePrefix, carry := scan.carry.drop (typePrefix.length + lf + 1) }

def feedTagLinePrefix (scan : TagScan) : Option TagScan :=
  if scan.carry.length < tagPrefix.length then none
  else if !startsWith scan.carry tagPrefix then
    some { scan with phase := .tail, carry := [], earlyRefusal := some badTagLine }
  else some { scan with phase := .tagLineScan, carry := scan.carry.drop tagPrefix.length }

def feedTagLineScan (scan : TagScan) : Option TagScan :=
  match indexOf scan.carry lineFeed 0 with
  | none => if scan.carry.length = 0 then none else some { scan with carry := [] }
  | some _ => some { scan with phase := .tail, carry := [] }

/-- One turn of the scan of a tag. -/
def stepTag (scan : TagScan) : Option TagScan :=
  match scan.phase with
  | .object => feedTagObject scan
  | .type => feedTagType scan
  | .tagLinePrefix => feedTagLinePrefix scan
  | .tagLineScan => feedTagLineScan scan
  | .tail => none

/-! ### Windows -/

theorem subarray_zero {bytes : Bytes} (stop : ℕ) : subarray bytes 0 stop = bytes.take stop := rfl

theorem subarray_append {bytes more : Bytes} {start stop : ℕ} (h : stop ≤ bytes.length) :
    subarray (bytes ++ more) start stop = subarray bytes start stop := by
  by_cases hstart : start ≤ stop
  · rw [subarray, subarray, drop_append_of_le_length (by omega),
      take_append_of_le_length (by rw [length_drop]; omega)]
  · have hzero : stop - start = 0 := by omega
    rw [subarray, subarray, hzero, take_zero, take_zero]

theorem startsWith_append {bytes literal : Bytes} (more : Bytes)
    (h : literal.length ≤ bytes.length) :
    startsWith (bytes ++ more) literal = startsWith bytes literal := by
  rw [startsWith, startsWith, subarray_append h]

theorem startsWith_iff {bytes literal : Bytes} :
    startsWith bytes literal = true ↔ ∃ rest, bytes = literal ++ rest := by
  rw [startsWith, decide_eq_true_iff, subarray_zero]
  refine ⟨fun h => ⟨bytes.drop literal.length, ?_⟩, ?_⟩
  · exact (take_append_drop literal.length bytes).symm.trans (congrArg (· ++ _) h)
  · rintro ⟨rest, rfl⟩
    exact take_left

/-! ### The scanner of commits -/

def CommitScan.extend (scan : CommitScan) (chunk : Bytes) : CommitScan :=
  if scan.phase = .tail then { scan with totalBytes := scan.totalBytes + chunk.length }
  else { scan with totalBytes := scan.totalBytes + chunk.length, carry := scan.carry ++ chunk }

theorem stepCommit_lt {scan next : CommitScan} (h : stepCommit scan = some next) :
    next.carry.length < scan.carry.length := by
  unfold stepCommit at h
  split at h
  · unfold feedCommitTree at h
    dsimp only at h
    split at h
    · cases h
    · cases h
      dsimp only
      rw [length_drop]
      omega
  · unfold feedCommitParents at h
    dsimp only at h
    split at h
    · cases h
    split at h
    · cases h
      dsimp only
      rw [length_nil]
      omega
    split at h
    · cases h
    split at h
    · cases h
      dsimp only
      rw [length_nil]
      omega
    · cases h
      dsimp only
      rw [length_drop]
      omega
  · cases h

theorem CommitScan.extend_extend (scan : CommitScan) (first second : Bytes) :
    (scan.extend first).extend second = scan.extend (first ++ second) := by
  unfold CommitScan.extend
  by_cases htail : scan.phase = .tail
  · rw [if_pos htail, if_pos htail]
    dsimp only
    rw [if_pos htail, length_append, Nat.add_assoc]
  · rw [if_neg htail, if_neg htail]
    dsimp only
    rw [if_neg htail, length_append, Nat.add_assoc, append_assoc]

/-- **A line is taken alike with more bytes behind it.** -/
theorem stepCommit_extend {scan next : CommitScan} (chunk : Bytes)
    (h : stepCommit scan = some next) :
    stepCommit (scan.extend chunk) = some (next.extend chunk) := by
  obtain ⟨hexLength, totalBytes, phase, carry, treeLineRefusal, treePointerRefusal, treeHex,
    parentMatchingTree, grammarRefusal⟩ := scan
  cases phase with
  | tree =>
    unfold stepCommit feedCommitTree at h
    unfold CommitScan.extend stepCommit feedCommitTree
    have htree : ¬ CommitPhase.tree = .tail := by decide
    have hparents : ¬ CommitPhase.parents = .tail := by decide
    dsimp only at h ⊢
    rw [if_neg htree]
    dsimp only
    split at h
    · cases h
    · next hlong =>
      have hlonger : ¬ (carry ++ chunk).length < hexLength + 6 := by
        rw [length_append]
        omega
      cases h
      dsimp only
      rw [if_neg hparents, if_neg hlonger, subarray_append (by omega),
        drop_append_of_le_length (by omega)]
  | parents =>
    unfold stepCommit feedCommitParents at h
    unfold CommitScan.extend stepCommit feedCommitParents
    have hparents : ¬ CommitPhase.parents = .tail := by decide
    have hlengthPrefix : parentPrefix.length = 7 := rfl
    dsimp only at h ⊢
    rw [if_neg hparents]
    dsimp only
    split at h
    · cases h
    · next hseven =>
      rw [if_neg (by rw [length_append]; omega), startsWith_append _ (by omega)]
      split at h
      · next hother =>
        cases h
        dsimp only
        rw [if_pos hother, if_pos rfl]
      · next hparent =>
        rw [if_neg hparent]
        split at h
        · cases h
        · next hlong =>
          rw [if_neg (by rw [length_append]; omega), subarray_append (by omega)]
          split at h
          · next hbad =>
            cases h
            dsimp only
            rw [if_pos hbad, if_pos rfl]
          · next hgood =>
            cases h
            dsimp only
            rw [if_neg hgood, if_neg hparents, drop_append_of_le_length (by omega)]
  | tail => cases h

def commitScanner : Scanner CommitScan UInt8 where
  step := stepCommit
  size scan := scan.carry.length
  extend := CommitScan.extend
  size_lt := stepCommit_lt
  extend_extend := CommitScan.extend_extend
  joins chunk h := ⟨_, stepCommit_extend chunk h, .inl rfl⟩

/-! ### The scanner of tags -/

def TagScan.extend (scan : TagScan) (chunk : Bytes) : TagScan :=
  if scan.phase = .tail then { scan with totalBytes := scan.totalBytes + chunk.length }
  else { scan with totalBytes := scan.totalBytes + chunk.length, carry := scan.carry ++ chunk }

theorem TagScan.extend_extend (scan : TagScan) (first second : Bytes) :
    (scan.extend first).extend second = scan.extend (first ++ second) := by
  unfold TagScan.extend
  by_cases htail : scan.phase = .tail
  · rw [if_pos htail, if_pos htail]
    dsimp only
    rw [if_pos htail, length_append, Nat.add_assoc]
  · rw [if_neg htail, if_neg htail]
    dsimp only
    rw [if_neg htail, length_append, Nat.add_assoc, append_assoc]

theorem indexOf_append {bytes : Bytes} (more : Bytes) {found : ℕ}
    (h : indexOf bytes lineFeed 0 = some found) :
    indexOf (bytes ++ more) lineFeed 0 = some found := by
  obtain ⟨-, hfound, hbefore⟩ := indexOf_spec h
  have hinside := indexOf_lt h
  refine indexOf_eq_some (Nat.zero_le _) ?_ fun i hi hlt => ?_
  · rw [getElem?_append_left hinside]
    exact hfound
  · rw [getElem?_append_left (by omega)]
    exact hbefore i hi hlt

theorem indexOf_eq_none_iff {bytes : Bytes} :
    indexOf bytes lineFeed 0 = none ↔ lineFeed ∉ bytes := by
  constructor
  · intro h hmem
    obtain ⟨front, back, rfl, hfront⟩ := eq_append_cons_of_mem hmem
    have hfound : indexOf (front ++ lineFeed :: back) lineFeed 0 = some front.length := by
      refine indexOf_eq_some (Nat.zero_le _) ?_ fun i _ hi => ?_
      · rw [getElem?_append_right le_rfl, Nat.sub_self, getElem?_cons_zero]
      · rw [getElem?_append_left hi]
        exact fun heq => hfront (mem_of_getElem? heq)
    rw [hfound] at h
    cases h
  · intro h
    exact indexOf_eq_none fun i _ heq => h (mem_of_getElem? heq)

theorem nameZone_eq (carry : Bytes) :
    subarray carry typePrefix.length (min carry.length (typePrefix.length + maxTypeNameBytes)) =
      (carry.drop typePrefix.length).take maxTypeNameBytes := by
  have hbound : (carry.drop typePrefix.length).length = carry.length - typePrefix.length :=
    length_drop
  rw [subarray]
  by_cases hshort : carry.length ≤ typePrefix.length + maxTypeNameBytes
  · rw [Nat.min_eq_left hshort, take_of_length_le hbound.le,
      take_of_length_le (by rw [hbound]; omega)]
  · rw [Nat.min_eq_right (by omega), Nat.add_sub_cancel_left]

variable {scan next : TagScan}

theorem stepTag_lt (h : stepTag scan = some next) :
    next.carry.length < scan.carry.length := by
  have hlengthType : typePrefix.length = 5 := rfl
  have hlengthTag : tagPrefix.length = 4 := rfl
  unfold stepTag at h
  split at h
  · unfold feedTagObject at h
    dsimp only at h
    split at h
    · cases h
    · cases h
      dsimp only
      rw [length_drop]
      omega
  · unfold feedTagType at h
    split at h
    · cases h
    split at h
    · cases h
      dsimp only
      rw [length_nil]
      omega
    dsimp only at h
    split at h
    · split at h
      · cases h
        dsimp only
        rw [length_nil]
        omega
      · cases h
    · split at h
      · cases h
        dsimp only
        rw [length_nil]
        omega
      · cases h
        dsimp only
        rw [length_drop]
        omega
  · unfold feedTagLinePrefix at h
    split at h
    · cases h
    split at h
    · cases h
      dsimp only
      rw [length_nil]
      omega
    · cases h
      dsimp only
      rw [length_drop]
      omega
  · unfold feedTagLineScan at h
    split at h
    · split at h
      · cases h
      · cases h
        dsimp only
        rw [length_nil]
        omega
    · next found hfound =>
      have hinside := indexOf_lt hfound
      cases h
      dsimp only
      rw [length_nil]
      omega
  · cases h

theorem TagScan.extend_phase (scan : TagScan) (chunk : Bytes) :
    (scan.extend chunk).phase = scan.phase := by
  rw [TagScan.extend]
  split <;> rfl

/-- **A line is taken alike with more bytes behind it.** -/
theorem feedTagObject_joins (chunk : Bytes) (hphase : scan.phase = .object)
    (h : feedTagObject scan = some next) :
    feedTagObject (scan.extend chunk) = some (next.extend chunk) := by
  obtain ⟨hexLength, totalBytes, _, carry, objectLineRefusal, earlyRefusal⟩ := scan
  subst hphase
  have hlonger : ∀ n, ¬ carry.length < n → ¬ (carry ++ chunk).length < n := by
    intro n hn
    rw [length_append]
    omega
  unfold feedTagObject at h
  unfold TagScan.extend feedTagObject
  have hobject : ¬ TagPhase.object = .tail := by decide
  have htype : ¬ TagPhase.type = .tail := by decide
  dsimp only at h ⊢
  rw [if_neg hobject]
  dsimp only
  split at h
  · cases h
  · next hlong =>
    cases h
    dsimp only
    rw [if_neg htype, if_neg (hlonger _ hlong), subarray_append (by omega),
      drop_append_of_le_length (by omega)]

theorem feedTagType_joins (chunk : Bytes) (hphase : scan.phase = .type)
    (h : feedTagType scan = some next) :
    feedTagType (scan.extend chunk) = some (next.extend chunk) := by
  have hlengthType : typePrefix.length = 5 := rfl
  obtain ⟨hexLength, totalBytes, _, carry, objectLineRefusal, earlyRefusal⟩ := scan
  subst hphase
  have hlonger : ∀ n, ¬ carry.length < n → ¬ (carry ++ chunk).length < n := by
    intro n hn
    rw [length_append]
    omega
  unfold feedTagType at h
  unfold TagScan.extend feedTagType
  have htype : ¬ TagPhase.type = .tail := by decide
  have hline : ¬ TagPhase.tagLinePrefix = .tail := by decide
  dsimp only at h ⊢
  rw [if_neg htype]
  dsimp only
  split at h
  · cases h
  · next hfive =>
    rw [if_neg (hlonger _ hfive), startsWith_append _ (by omega)]
    split at h
    · next hother =>
      cases h
      dsimp only
      rw [if_pos hother, if_pos rfl]
    · next htyped =>
      rw [if_neg htyped]
      rw [nameZone_eq] at h ⊢
      have hdrop : (carry ++ chunk).drop typePrefix.length =
          carry.drop typePrefix.length ++ chunk :=
        drop_append_of_le_length (by omega)
      rw [hdrop]
      obtain ⟨zone, hzone⟩ : ∃ zone, zone = (carry.drop typePrefix.length).take
        maxTypeNameBytes := ⟨_, rfl⟩
      obtain ⟨more, hmore⟩ : ∃ more, (carry.drop typePrefix.length ++ chunk).take
          maxTypeNameBytes = zone ++ more := by
        rw [take_append, ← hzone]
        exact ⟨_, rfl⟩
      rw [← hzone] at h
      rw [hmore]
      split at h
      · next hnone =>
        split at h
        · next hfull =>
          have hend : more = [] := by
            have hsum := congrArg List.length hmore
            rw [length_append, length_take] at hsum
            exact length_eq_zero_iff.mp (by omega)
          cases h
          dsimp only
          rw [hend, append_nil, hnone]
          dsimp only
          rw [if_pos hfull, if_pos rfl]
        · cases h
      · next lf hlf =>
        have hinside := indexOf_lt hlf
        have hfits : zone.length ≤ carry.length - typePrefix.length := by
          rw [hzone, length_take, length_drop]
          exact Nat.min_le_right _ _
        rw [indexOf_append more hlf]
        dsimp only
        rw [subarray_append hinside.le]
        split at h
        · next hunknown =>
          cases h
          dsimp only
          rw [if_pos hunknown, if_pos rfl]
        · next hknown =>
          cases h
          dsimp only
          rw [if_neg hknown, if_neg hline, drop_append_of_le_length (by omega)]

theorem feedTagLinePrefix_joins (chunk : Bytes) (hphase : scan.phase = .tagLinePrefix)
    (h : feedTagLinePrefix scan = some next) :
    feedTagLinePrefix (scan.extend chunk) = some (next.extend chunk) := by
  have hlengthTag : tagPrefix.length = 4 := rfl
  obtain ⟨hexLength, totalBytes, _, carry, objectLineRefusal, earlyRefusal⟩ := scan
  subst hphase
  have hlonger : ∀ n, ¬ carry.length < n → ¬ (carry ++ chunk).length < n := by
    intro n hn
    rw [length_append]
    omega
  unfold feedTagLinePrefix at h
  unfold TagScan.extend feedTagLinePrefix
  have hline : ¬ TagPhase.tagLinePrefix = .tail := by decide
  have hscan : ¬ TagPhase.tagLineScan = .tail := by decide
  dsimp only at h ⊢
  rw [if_neg hline]
  dsimp only
  split at h
  · cases h
  · next hfour =>
    rw [if_neg (hlonger _ hfour), startsWith_append _ (by omega)]
    split at h
    · next hother =>
      cases h
      dsimp only
      rw [if_pos hother, if_pos rfl]
    · next htag =>
      cases h
      dsimp only
      rw [if_neg htag, if_neg hscan, drop_append_of_le_length (by omega)]

theorem feedTagLineScan_joins (chunk : Bytes) (hphase : scan.phase = .tagLineScan)
    (h : feedTagLineScan scan = some next) :
    ∃ t, feedTagLineScan (scan.extend chunk) = some t ∧
      (next.extend chunk = t ∨ next.phase = .tagLineScan ∧
        feedTagLineScan (next.extend chunk) = some t) := by
  obtain ⟨hexLength, totalBytes, _, carry, objectLineRefusal, earlyRefusal⟩ := scan
  subst hphase
  have hscan : ¬ TagPhase.tagLineScan = .tail := by decide
  unfold feedTagLineScan at h
  dsimp only at h
  have hextend : ∀ bytes : Bytes, TagScan.extend ⟨hexLength, totalBytes, .tagLineScan, bytes,
      objectLineRefusal, earlyRefusal⟩ chunk = ⟨hexLength, totalBytes + chunk.length,
        .tagLineScan, bytes ++ chunk, objectLineRefusal, earlyRefusal⟩ := fun bytes =>
    if_neg hscan
  rw [hextend]
  unfold feedTagLineScan
  dsimp only
  split at h
  · next hnone =>
    split at h
    · cases h
    · next hsome =>
      cases h
      rw [hextend, nil_append]
      have hlf : lineFeed ∉ carry := indexOf_eq_none_iff.mp hnone
      cases hfind : indexOf chunk lineFeed 0 with
      | none =>
        have hboth : indexOf (carry ++ chunk) lineFeed 0 = none :=
          indexOf_eq_none_iff.mpr fun hmem => (mem_append.mp hmem).elim hlf
            (indexOf_eq_none_iff.mp hfind)
        rw [hboth]
        dsimp only
        rw [if_neg (by rw [length_append]; omega)]
        refine ⟨_, rfl, ?_⟩
        by_cases hempty : chunk.length = 0
        · rw [length_eq_zero_iff.mp hempty]
          exact .inl rfl
        · rw [if_neg hempty]
          exact .inr ⟨rfl, rfl⟩
      | some found =>
        have hboth : ∃ place, indexOf (carry ++ chunk) lineFeed 0 = some place := by
          refine Option.ne_none_iff_exists'.mp fun hnot => ?_
          have hmem := mt indexOf_eq_none_iff.mpr (fun h => by rw [h] at hfind; cases hfind)
          exact indexOf_eq_none_iff.mp hnot
            (mem_append_right _ (not_not.mp hmem))
        obtain ⟨place, hplace⟩ := hboth
        rw [hplace]
        exact ⟨_, rfl, .inr ⟨rfl, rfl⟩⟩
  · next found hfound =>
    cases h
    rw [indexOf_append chunk hfound]
    exact ⟨_, rfl, .inl rfl⟩

/-- **The scanner of a tag takes a line alike with more bytes behind it**, but behind the tag line.
-/
theorem stepTag_joins (chunk : Bytes) (h : stepTag scan = some next) :
    ∃ t, stepTag (scan.extend chunk) = some t ∧
      (next.extend chunk = t ∨ stepTag (next.extend chunk) = some t) := by
  have hextended := scan.extend_phase chunk
  cases hphase : scan.phase with
  | object =>
    rw [stepTag, hphase] at h
    rw [stepTag, hextended, hphase]
    exact ⟨_, feedTagObject_joins chunk hphase h, .inl rfl⟩
  | type =>
    rw [stepTag, hphase] at h
    rw [stepTag, hextended, hphase]
    exact ⟨_, feedTagType_joins chunk hphase h, .inl rfl⟩
  | tagLinePrefix =>
    rw [stepTag, hphase] at h
    rw [stepTag, hextended, hphase]
    exact ⟨_, feedTagLinePrefix_joins chunk hphase h, .inl rfl⟩
  | tagLineScan =>
    rw [stepTag, hphase] at h
    rw [stepTag, hextended, hphase]
    obtain ⟨t, hstep, hsame | ⟨hstill, hlater⟩⟩ := feedTagLineScan_joins chunk hphase h
    · exact ⟨t, hstep, .inl hsame⟩
    · refine ⟨t, hstep, .inr ?_⟩
      rw [stepTag, TagScan.extend_phase, hstill]
      exact hlater
  | tail =>
    rw [stepTag, hphase] at h
    cases h

def tagScanner : Scanner TagScan UInt8 where
  step := stepTag
  size scan := scan.carry.length
  extend := TagScan.extend
  size_lt := stepTag_lt
  extend_extend := TagScan.extend_extend
  joins := stepTag_joins

/-! ### Feeding -/

inductive Kind
  | commit
  | tag
  deriving DecidableEq

inductive ParseAcceptanceScan
  | commit (scan : CommitScan)
  | tag (scan : TagScan)

def startParseAcceptance (type : Kind) (hexLength : ℕ) : ParseAcceptanceScan :=
  match type with
  | .commit => .commit ⟨hexLength, 0, .tree, [], none, none, none, none, none⟩
  | .tag => .tag ⟨hexLength, 0, .object, [], none, none⟩

def feedCommit (scan : CommitScan) (chunk : Bytes) : CommitScan :=
  let counted := { scan with totalBytes := scan.totalBytes + chunk.length }
  if scan.phase = .tail then counted
  else commitScanner.drain { counted with carry := scan.carry ++ chunk }

def feedTag (scan : TagScan) (chunk : Bytes) : TagScan :=
  let counted := { scan with totalBytes := scan.totalBytes + chunk.length }
  if scan.phase = .tail then counted
  else tagScanner.drain { counted with carry := scan.carry ++ chunk }

def feedParseAcceptance (scan : ParseAcceptanceScan) (chunk : Bytes) : ParseAcceptanceScan :=
  match scan with
  | .commit scan => .commit (feedCommit scan chunk)
  | .tag scan => .tag (feedTag scan chunk)

/-! ### Verdicts -/

structure ParseAcceptanceRefusal where
  type : Kind
  reason : Text
  deriving DecidableEq

inductive ParentLookups
  | checked
  | skipped
  deriving DecidableEq

/-- The refusal of a commit whose bytes are over. -/
def commitVerdict (scan : CommitScan) (parentLookups : ParentLookups) :
    Option ParseAcceptanceRefusal :=
  let h := scan.hexLength
  if scan.totalBytes ≤ h + 6 then some ⟨.commit, bogusCommitObject⟩
  else
    match scan.treeLineRefusal with
    | some reason => some ⟨.commit, reason⟩
    | none =>
      match scan.treePointerRefusal with
      | some reason => some ⟨.commit, reason⟩
      | none =>
        let trailingRefusal := if scan.carry.length = h + 8 then some badParents else none
        match scan.parentMatchingTree, parentLookups with
        | some parent, .checked => some ⟨.commit, badParent ++ parent⟩
        | _, _ => (scan.grammarRefusal.or trailingRefusal).map fun reason => ⟨.commit, reason⟩

/-- The refusal of a tag whose bytes are over. -/
def tagVerdict (scan : TagScan) : Option ParseAcceptanceRefusal :=
  let h := scan.hexLength
  if scan.totalBytes < h + 24 then some ⟨.tag, tagObjectTooShort⟩
  else
    match scan.objectLineRefusal with
    | some reason => some ⟨.tag, reason⟩
    | none =>
      match scan.earlyRefusal with
      | some reason => some ⟨.tag, reason⟩
      | none =>
        match scan.phase with
        | .type => some ⟨.tag, badTypeLine⟩
        | .tagLineScan => some ⟨.tag, badTagLine⟩
        | _ => none

def parseAcceptanceVerdict (scan : ParseAcceptanceScan) (parentLookups : ParentLookups) :
    Option ParseAcceptanceRefusal :=
  match scan with
  | .commit scan => commitVerdict scan parentLookups
  | .tag scan => tagVerdict scan

/-! ### Chunks -/

theorem feedCommit_eq (scan : CommitScan) (chunk : Bytes) :
    feedCommit scan chunk = commitScanner.feed scan chunk := by
  have hextend : commitScanner.extend scan chunk = scan.extend chunk := rfl
  rw [feedCommit, Scanner.feed, hextend, CommitScan.extend]
  dsimp only
  split
  · next htail =>
    refine (Scanner.drain_of_none ?_).symm
    have hwaits : stepCommit { scan with totalBytes := scan.totalBytes + chunk.length } = none := by
      rw [stepCommit, htail]
    exact hwaits
  · rfl

theorem feedTag_eq (scan : TagScan) (chunk : Bytes) :
    feedTag scan chunk = tagScanner.feed scan chunk := by
  have hextend : tagScanner.extend scan chunk = scan.extend chunk := rfl
  rw [feedTag, Scanner.feed, hextend, TagScan.extend]
  dsimp only
  split
  · next htail =>
    refine (Scanner.drain_of_none ?_).symm
    have hwaits : stepTag { scan with totalBytes := scan.totalBytes + chunk.length } = none := by
      rw [stepTag, htail]
    exact hwaits
  · rfl

def scanOf (type : Kind) (hexLength : ℕ) (chunks : List Bytes) : ParseAcceptanceScan :=
  chunks.foldl feedParseAcceptance (startParseAcceptance type hexLength)

def wholeCommit (hexLength : ℕ) (body : Bytes) : CommitScan :=
  ⟨hexLength, body.length, .tree, body, none, none, none, none, none⟩

def wholeTag (hexLength : ℕ) (body : Bytes) : TagScan :=
  ⟨hexLength, body.length, .object, body, none, none⟩

theorem extend_start_commit (hexLength : ℕ) (body : Bytes) :
    commitScanner.extend ⟨hexLength, 0, .tree, [], none, none, none, none, none⟩ body =
      wholeCommit hexLength body := by
  have htree : ¬ CommitPhase.tree = .tail := by decide
  have hextend : CommitScan.extend ⟨hexLength, 0, .tree, [], none, none, none, none, none⟩ body =
      ⟨hexLength, 0 + body.length, .tree, [] ++ body, none, none, none, none, none⟩ := if_neg htree
  rw [Nat.zero_add, nil_append] at hextend
  exact hextend

theorem extend_start_tag (hexLength : ℕ) (body : Bytes) :
    tagScanner.extend ⟨hexLength, 0, .object, [], none, none⟩ body = wholeTag hexLength body := by
  have hobject : ¬ TagPhase.object = .tail := by decide
  have hextend : TagScan.extend ⟨hexLength, 0, .object, [], none, none⟩ body =
      ⟨hexLength, 0 + body.length, .object, [] ++ body, none, none⟩ := if_neg hobject
  rw [Nat.zero_add, nil_append] at hextend
  exact hextend

/-- **The chunks of a commit do not count.** -/
theorem scanOf_commit (hexLength : ℕ) (chunks : List Bytes) :
    scanOf .commit hexLength chunks =
      .commit (commitScanner.drain (wholeCommit hexLength chunks.flatten)) := by
  have hfold : ∀ (rest : List Bytes) (scan : CommitScan),
      rest.foldl feedParseAcceptance (.commit scan) =
        .commit (rest.foldl commitScanner.feed scan) := by
    intro rest
    induction rest with
    | nil => exact fun _ => rfl
    | cons chunk rest ih =>
      intro scan
      rw [foldl_cons, foldl_cons, feedParseAcceptance, feedCommit_eq, ih]
  have hwaits : commitScanner.feed ⟨hexLength, 0, .tree, [], none, none, none, none, none⟩ [] =
      ⟨hexLength, 0, .tree, [], none, none, none, none, none⟩ := by
    rw [Scanner.feed, extend_start_commit]
    refine Scanner.drain_of_none ?_
    have hlt : ([] : Bytes).length < hexLength + 6 := Nat.succ_pos _
    have hshort : feedCommitTree (wholeCommit hexLength []) = none := by
      unfold feedCommitTree
      exact if_pos hlt
    exact hshort
  rw [scanOf, startParseAcceptance, hfold, Scanner.foldl_feed hwaits, Scanner.feed,
    extend_start_commit]

/-- **The chunks of a tag do not count.** -/
theorem scanOf_tag (hexLength : ℕ) (chunks : List Bytes) :
    scanOf .tag hexLength chunks = .tag (tagScanner.drain (wholeTag hexLength chunks.flatten)) := by
  have hfold : ∀ (rest : List Bytes) (scan : TagScan),
      rest.foldl feedParseAcceptance (.tag scan) = .tag (rest.foldl tagScanner.feed scan) := by
    intro rest
    induction rest with
    | nil => exact fun _ => rfl
    | cons chunk rest ih =>
      intro scan
      rw [foldl_cons, foldl_cons, feedParseAcceptance, feedTag_eq, ih]
  have hwaits : tagScanner.feed ⟨hexLength, 0, .object, [], none, none⟩ [] =
      ⟨hexLength, 0, .object, [], none, none⟩ := by
    rw [Scanner.feed, extend_start_tag]
    refine Scanner.drain_of_none ?_
    have hlt : ([] : Bytes).length < hexLength + 8 := Nat.succ_pos _
    have hshort : feedTagObject (wholeTag hexLength []) = none := by
      unfold feedTagObject
      exact if_pos hlt
    exact hshort
  rw [scanOf, startParseAcceptance, hfold, Scanner.foldl_feed hwaits, Scanner.feed,
    extend_start_tag]

theorem scanOf_flatten (type : Kind) (hexLength : ℕ) (chunks : List Bytes) :
    scanOf type hexLength chunks = scanOf type hexLength [chunks.flatten] := by
  have hone : [chunks.flatten].flatten = chunks.flatten := append_nil _
  cases type with
  | commit => rw [scanOf_commit, scanOf_commit, hone]
  | tag => rw [scanOf_tag, scanOf_tag, hone]

/-! ### What is carried -/

def carryOf : ParseAcceptanceScan → Bytes
  | .commit scan => scan.carry
  | .tag scan => scan.carry

/-- The longest line: one with an id, or one with the name of a type. -/
def lineRoom (hexLength : ℕ) : ℕ := max (hexLength + 8) 24

/-- Nothing is carried in the tail. -/
structure CommitScan.Sound (hexLength : ℕ) (scan : CommitScan) : Prop where
  hexLength_eq : scan.hexLength = hexLength
  tail : scan.phase = .tail → scan.carry = []

structure TagScan.Sound (hexLength : ℕ) (scan : TagScan) : Prop where
  hexLength_eq : scan.hexLength = hexLength
  tail : scan.phase = .tail → scan.carry = []

theorem CommitScan.Sound.step {hexLength : ℕ} {scan next : CommitScan}
    (h : scan.Sound hexLength) (hstep : stepCommit scan = some next) : next.Sound hexLength := by
  unfold stepCommit at hstep
  split at hstep
  · unfold feedCommitTree at hstep
    dsimp only at hstep
    split at hstep
    · cases hstep
    · cases hstep
      exact ⟨h.hexLength_eq, fun htail => by cases htail⟩
  · next hphase =>
    unfold feedCommitParents at hstep
    dsimp only at hstep
    split at hstep
    · cases hstep
    split at hstep
    · cases hstep
      exact ⟨h.hexLength_eq, fun _ => rfl⟩
    split at hstep
    · cases hstep
    · split at hstep
      · cases hstep
        exact ⟨h.hexLength_eq, fun _ => rfl⟩
      · cases hstep
        exact ⟨h.hexLength_eq, fun htail => by cases hphase.symm.trans htail⟩
  · cases hstep

theorem TagScan.Sound.step {hexLength : ℕ} {scan next : TagScan}
    (h : scan.Sound hexLength) (hstep : stepTag scan = some next) : next.Sound hexLength := by
  unfold stepTag at hstep
  split at hstep
  · unfold feedTagObject at hstep
    dsimp only at hstep
    split at hstep
    · cases hstep
    · cases hstep
      exact ⟨h.hexLength_eq, fun htail => by cases htail⟩
  · unfold feedTagType at hstep
    split at hstep
    · cases hstep
    split at hstep
    · cases hstep
      exact ⟨h.hexLength_eq, fun _ => rfl⟩
    dsimp only at hstep
    split at hstep
    · split at hstep
      · cases hstep
        exact ⟨h.hexLength_eq, fun _ => rfl⟩
      · cases hstep
    · split at hstep
      · cases hstep
        exact ⟨h.hexLength_eq, fun _ => rfl⟩
      · cases hstep
        exact ⟨h.hexLength_eq, fun htail => by cases htail⟩
  · unfold feedTagLinePrefix at hstep
    split at hstep
    · cases hstep
    · split at hstep
      · cases hstep
        exact ⟨h.hexLength_eq, fun _ => rfl⟩
      · cases hstep
        exact ⟨h.hexLength_eq, fun htail => by cases htail⟩
  · unfold feedTagLineScan at hstep
    split at hstep
    · split at hstep
      · cases hstep
      · cases hstep
        exact ⟨h.hexLength_eq, fun _ => rfl⟩
    · cases hstep
      exact ⟨h.hexLength_eq, fun _ => rfl⟩
  · cases hstep

theorem CommitScan.Sound.carry_le {hexLength : ℕ} {scan : CommitScan} (h : scan.Sound hexLength)
    (hwaits : stepCommit scan = none) : scan.carry.length ≤ hexLength + 8 := by
  have hlength := h.hexLength_eq
  unfold stepCommit at hwaits
  split at hwaits
  · unfold feedCommitTree at hwaits
    dsimp only at hwaits
    split at hwaits
    · omega
    · cases hwaits
  · unfold feedCommitParents at hwaits
    dsimp only at hwaits
    split at hwaits
    · omega
    · split at hwaits
      · cases hwaits
      · split at hwaits
        · omega
        · split at hwaits <;> cases hwaits
  · next htail =>
    rw [h.tail htail]
    exact Nat.zero_le _

theorem TagScan.Sound.carry_le {hexLength : ℕ} (h : scan.Sound hexLength)
    (hwaits : stepTag scan = none) : scan.carry.length ≤ lineRoom hexLength := by
  have hlength := h.hexLength_eq
  have hlines : hexLength + 8 ≤ lineRoom hexLength := Nat.le_max_left _ _
  have hnames : 24 ≤ lineRoom hexLength := Nat.le_max_right _ _
  have hlengthType : typePrefix.length = 5 := rfl
  have hlengthTag : tagPrefix.length = 4 := rfl
  unfold stepTag at hwaits
  split at hwaits
  · unfold feedTagObject at hwaits
    dsimp only at hwaits
    split at hwaits
    · omega
    · cases hwaits
  · unfold feedTagType at hwaits
    split at hwaits
    · omega
    split at hwaits
    · cases hwaits
    dsimp only at hwaits
    rw [nameZone_eq] at hwaits
    split at hwaits
    · split at hwaits
      · cases hwaits
      · next hfew =>
        rw [length_take, length_drop] at hfew
        unfold maxTypeNameBytes at hfew
        omega
    · split at hwaits <;> cases hwaits
  · unfold feedTagLinePrefix at hwaits
    split at hwaits
    · omega
    · split at hwaits <;> cases hwaits
  · unfold feedTagLineScan at hwaits
    split at hwaits
    · split at hwaits
      · omega
      · cases hwaits
    · cases hwaits
  · next htail =>
    rw [h.tail htail]
    exact Nat.zero_le _

/-- **The scan never carries more than a line.** -/
theorem carry_le (type : Kind) (hexLength : ℕ) (chunks : List Bytes) :
    (carryOf (scanOf type hexLength chunks)).length ≤ lineRoom hexLength := by
  cases type with
  | commit =>
    rw [scanOf_commit]
    have hstart : (wholeCommit hexLength chunks.flatten).Sound hexLength :=
      ⟨rfl, fun htail => by cases htail⟩
    have hsound := @Scanner.drain_invariant _ _ commitScanner (CommitScan.Sound hexLength)
      (fun _ _ h hstep => h.step hstep) _ hstart
    have hwaits : stepCommit (commitScanner.drain (wholeCommit hexLength chunks.flatten)) = none :=
      @Scanner.step_drain _ _ commitScanner _
    exact (hsound.carry_le hwaits).trans (Nat.le_max_left _ _)
  | tag =>
    rw [scanOf_tag]
    have hstart : (wholeTag hexLength chunks.flatten).Sound hexLength :=
      ⟨rfl, fun htail => by cases htail⟩
    have hsound := @Scanner.drain_invariant _ _ tagScanner (TagScan.Sound hexLength)
      (fun _ _ h hstep => h.step hstep) _ hstart
    have hwaits : stepTag (tagScanner.drain (wholeTag hexLength chunks.flatten)) = none :=
      @Scanner.step_drain _ _ tagScanner _
    exact hsound.carry_le hwaits

end Tsgit.ParseAcceptance
