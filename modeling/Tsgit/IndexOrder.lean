import Tsgit.OrderedCode
import Tsgit.TextDecoder
import Tsgit.Utf16

/-!
# The Order of Index Entries

The paths of index entries (`src/domain/git-index/index-path-key.ts`) and the comparators of the
index writer (`src/domain/git-index/index-writer.ts`).
-/

namespace Tsgit.IndexFile

open List OrderedCode

/-- A path as text, with its raw bytes where it does not encode to them. -/
structure IndexPath where
  path : Text
  pathBytes : Option Bytes
  deriving DecidableEq

def pathBytesOf (entry : IndexPath) : Bytes := entry.pathBytes.getD (encode entry.path)

/-- Surrogates go behind U+E000 to U+FFFF, as their characters do in UTF-8. -/
def utf8Rank (codeUnit : ℕ) : ℕ :=
  if codeUnit < 0xd800 then codeUnit
  else if codeUnit ≥ 0xe000 then codeUnit - 0x800
  else codeUnit + 0x2000

/-- The comparison of two strings at their first difference. -/
def compareUnits : List ℕ → List ℕ → ℤ
  | l :: ls, r :: rs =>
    if l ≠ r then (utf8Rank l : ℤ) - utf8Rank r else compareUnits ls rs
  | ls, rs => (ls.length : ℤ) - rs.length

def comparePathStrings (left right : Text) : ℤ := compareUnits (codeUnits left) (codeUnits right)

def compareEntryPath (a b : IndexPath) : ℤ :=
  if a.pathBytes = none ∧ b.pathBytes = none then comparePathStrings a.path b.path
  else compareBytes (pathBytesOf a) (pathBytesOf b)

def compareUtf16Strings (left right : Text) : ℤ :=
  if stringLt left right then -1 else if stringLt right left then 1 else 0

def compareUtf16Path (a b : IndexPath) : ℤ := compareUtf16Strings a.path b.path

/-- The test of `SURROGATE_OR_ABOVE`. -/
def surrogateOrAbove (path : Text) : Bool := (codeUnits path).any fun codeUnit => 0xd800 ≤ codeUnit

def pathComparatorFor (entries : List IndexPath) : IndexPath → IndexPath → ℤ :=
  if entries.any fun entry => surrogateOrAbove entry.path then compareEntryPath
  else compareUtf16Path

/-! ### Encodings keep the order -/

theorem cons_lt_of_lt {a b : ℕ} (ha : a < 256) (hb : b < 256) (h : a < b)
    (s t : Bytes) : UInt8.ofNat a :: s < UInt8.ofNat b :: t := by
  refine cons_lt_cons_iff.mpr (.inl (UInt8.lt_iff_toNat_lt.mpr ?_))
  rwa [UInt8.toNat_ofNat_of_lt' ha, UInt8.toNat_ofNat_of_lt' hb]

/-- Two byte strings that begin with bytes in order, the first of them maybe equal. -/
theorem cons_lt_of_le {a b : ℕ} (ha : a < 256) (hb : b < 256) (h : a ≤ b) {s t : Bytes}
    (hrest : a = b → s < t) : UInt8.ofNat a :: s < UInt8.ofNat b :: t := by
  rcases Nat.lt_or_eq_of_le h with hlt | rfl
  · exact cons_lt_of_lt ha hb hlt s t
  · exact cons_lt_cons_iff.mpr (.inr ⟨rfl, hrest rfl⟩)

theorem ordered_utf8EncodeChar : Ordered String.utf8EncodeChar where
  ne_nil c := String.utf8EncodeChar_ne_nil
  lt a b hab s t := by
    have hvalid : a.toNat < 0x110000 ∧ b.toNat < 0x110000 := by
      have ha : a.toNat < 0xd800 ∨ 0xdfff < a.toNat ∧ a.toNat < 0x110000 := a.valid
      have hb : b.toNat < 0xd800 ∨ 0xdfff < b.toNat ∧ b.toNat < 0x110000 := b.valid
      omega
    have hlt : a.toNat < b.toNat := hab
    obtain ⟨v, hv⟩ : ∃ v, v = a.toNat := ⟨_, rfl⟩
    obtain ⟨w, hw⟩ : ∃ w, w = b.toNat := ⟨_, rfl⟩
    rw [utf8EncodeChar_eq a hv, utf8EncodeChar_eq b hw]
    rw [← hv, ← hw] at hlt hvalid
    split_ifs with ha1 hb1 hb2 hb3 ha2 hb1 hb2 hb3 ha3 hb1 hb2 hb3 hb1 hb2 hb3
    all_goals first
      | omega
      | exact cons_lt_of_lt (by omega) (by omega) (by omega) _ _
      | skip
    · refine cons_lt_of_le (by omega) (by omega) (by omega) fun hsame => ?_
      exact cons_lt_of_lt (by omega) (by omega) (by omega) _ _
    · refine cons_lt_of_le (by omega) (by omega) (by omega) fun hsame => ?_
      refine cons_lt_of_le (by omega) (by omega) (by omega) fun hsame' => ?_
      exact cons_lt_of_lt (by omega) (by omega) (by omega) _ _
    · refine cons_lt_of_le (by omega) (by omega) (by omega) fun hsame => ?_
      refine cons_lt_of_le (by omega) (by omega) (by omega) fun hsame' => ?_
      refine cons_lt_of_le (by omega) (by omega) (by omega) fun hsame'' => ?_
      exact cons_lt_of_lt (by omega) (by omega) (by omega) _ _

/-- **UTF-8 keeps the order** of code points. -/
theorem encode_lt_iff {s t : Text} : encode s < encode t ↔ s < t :=
  ordered_utf8EncodeChar.flatMap_lt_iff

/-! ### Code units -/

theorem utf16Units_lt (c : Char) : ∀ codeUnit ∈ utf16Units c, codeUnit < 0x10000 := by
  have hvalid : c.toNat < 0xd800 ∨ 0xdfff < c.toNat ∧ c.toNat < 0x110000 := c.valid
  unfold utf16Units
  intro codeUnit hmem
  split at hmem
  · rw [mem_singleton] at hmem
    omega
  · rw [mem_cons, mem_singleton] at hmem
    omega

theorem codeUnits_lt (text : Text) : ∀ codeUnit ∈ codeUnits text, codeUnit < 0x10000 := by
  intro codeUnit hmem
  obtain ⟨c, -, hc⟩ := mem_flatMap.mp hmem
  exact utf16Units_lt c codeUnit hc

theorem utf8Rank_inj {l r : ℕ} (hl : l < 0x10000) (hr : r < 0x10000)
    (h : utf8Rank l = utf8Rank r) : l = r := by
  unfold utf8Rank at h
  split_ifs at h
  all_goals omega

def rankUnits (c : Char) : List ℕ := (utf16Units c).map utf8Rank

theorem rankUnits_eq (c : Char) : rankUnits c =
    if c.toNat < 0xd800 then [c.toNat]
    else if c.toNat < 0x10000 then [c.toNat - 0x800]
    else [0xf800 + (c.toNat - 0x10000) / 0x400, 0xfc00 + (c.toNat - 0x10000) % 0x400] := by
  have hvalid : c.toNat < 0xd800 ∨ 0xdfff < c.toNat ∧ c.toNat < 0x110000 := c.valid
  unfold rankUnits utf16Units
  split_ifs with hbmp hlow hlow
  · rw [map_singleton, utf8Rank, if_pos hlow]
  · rw [map_singleton, utf8Rank, if_neg hlow, if_pos (by omega)]
  · omega
  · rw [map_cons, map_singleton, utf8Rank, utf8Rank, if_neg (by omega),
      if_neg (by omega), if_neg (by omega), if_neg (by omega)]
    exact congrArg₂ (fun x y => [x, y]) (by omega) (by omega)

theorem ordered_rankUnits : Ordered rankUnits where
  ne_nil c := by
    rw [rankUnits_eq]
    split_ifs
    all_goals exact cons_ne_nil _ _
  lt a b hab s t := by
    have ha : a.toNat < 0xd800 ∨ 0xdfff < a.toNat ∧ a.toNat < 0x110000 := a.valid
    have hb : b.toNat < 0xd800 ∨ 0xdfff < b.toNat ∧ b.toNat < 0x110000 := b.valid
    have hlt : a.toNat < b.toNat := hab
    rw [rankUnits_eq, rankUnits_eq]
    obtain ⟨v, hv⟩ : ∃ v, v = a.toNat := ⟨_, rfl⟩
    obtain ⟨w, hw⟩ : ∃ w, w = b.toNat := ⟨_, rfl⟩
    rw [← hv, ← hw] at hlt
    rw [← hv] at ha
    rw [← hw] at hb
    rw [← hv, ← hw]
    split_ifs with ha1 hb1 hb2 ha2 hb1 hb2 hb1 hb2
    · exact cons_lt_cons_iff.mpr (.inl (by omega))
    · exact cons_lt_cons_iff.mpr (.inl (by omega))
    · exact cons_lt_cons_iff.mpr (.inl (by omega))
    · omega
    · exact cons_lt_cons_iff.mpr (.inl (by omega))
    · exact cons_lt_cons_iff.mpr (.inl (by omega))
    · omega
    · omega
    · rcases Nat.lt_or_eq_of_le (Nat.div_le_div_right (c := 0x400)
        (show v - 0x10000 ≤ w - 0x10000 by omega)) with hhigh | hhigh
      · exact cons_lt_cons_iff.mpr (.inl (by omega))
      · refine cons_lt_cons_iff.mpr (.inr ⟨by omega, ?_⟩)
        exact cons_lt_cons_iff.mpr (.inl (by omega))

theorem rank_codeUnits (text : Text) : (codeUnits text).map utf8Rank = text.flatMap rankUnits :=
  map_flatMap

theorem compareUnits_neg_iff {ls rs : List ℕ} (hls : ∀ l ∈ ls, l < 0x10000)
    (hrs : ∀ r ∈ rs, r < 0x10000) :
    compareUnits ls rs < 0 ↔ ls.map utf8Rank < rs.map utf8Rank := by
  induction ls generalizing rs with
  | nil =>
    cases rs with
    | nil => exact iff_of_false (by decide) (lt_irrefl _)
    | cons r rs =>
      refine iff_of_true ?_ (nil_lt_cons _ _)
      simp only [compareUnits, length_nil, length_cons]
      omega
  | cons l ls ih =>
    cases rs with
    | nil =>
      refine iff_of_false (fun h => ?_) (not_lt_nil _)
      simp only [compareUnits, length_nil, length_cons] at h
      omega
    | cons r rs =>
      rw [map_cons, map_cons, cons_lt_cons_iff]
      by_cases hne : l ≠ r
      · have hrank : utf8Rank l ≠ utf8Rank r := fun h =>
          hne (utf8Rank_inj (hls l mem_cons_self) (hrs r mem_cons_self) h)
        rw [compareUnits, if_pos hne, or_iff_left (fun h => hrank h.1)]
        omega
      · obtain rfl := not_not.mp hne
        rw [compareUnits, if_neg hne, or_iff_right (lt_irrefl _), and_iff_right rfl]
        exact ih (forall_mem_cons.mp hls).2
          (forall_mem_cons.mp hrs).2

theorem compareUnits_swap (ls rs : List ℕ) : compareUnits rs ls = -compareUnits ls rs := by
  induction ls generalizing rs with
  | nil =>
    cases rs with
    | nil => rfl
    | cons r rs => simp [compareUnits]
  | cons l ls ih =>
    cases rs with
    | nil => simp [compareUnits]
    | cons r rs =>
      by_cases hne : l ≠ r
      · rw [compareUnits, compareUnits, if_pos hne, if_pos hne.symm]
        omega
      · obtain rfl := not_not.mp hne
        rw [compareUnits, compareUnits, if_neg hne, if_neg hne, ih]

/-! ### The comparators -/

theorem comparePathStrings_neg_iff {left right : Text} :
    comparePathStrings left right < 0 ↔ encode left < encode right := by
  rw [comparePathStrings, compareUnits_neg_iff (codeUnits_lt _) (codeUnits_lt _), rank_codeUnits,
    rank_codeUnits, ordered_rankUnits.flatMap_lt_iff, encode_lt_iff]

theorem comparePathStrings_nonpos_iff {left right : Text} :
    comparePathStrings left right ≤ 0 ↔ compareBytes (encode left) (encode right) ≤ 0 := by
  have hswap : comparePathStrings right left = -comparePathStrings left right :=
    compareUnits_swap _ _
  have hneg := @comparePathStrings_neg_iff right left
  have hbytes := compareBytes_swap (encode left) (encode right)
  rw [← compareBytes_neg_iff, hswap, hbytes] at hneg
  omega

/-- **The comparator of entries** is that of the bytes of their paths. -/
theorem compareEntryPath_nonpos_iff {a b : IndexPath} :
    compareEntryPath a b ≤ 0 ↔ compareBytes (pathBytesOf a) (pathBytesOf b) ≤ 0 := by
  unfold compareEntryPath
  split
  · next hnone =>
    rw [pathBytesOf, pathBytesOf, hnone.1, hnone.2]
    exact comparePathStrings_nonpos_iff
  · rfl

theorem codeUnits_of_low {path : Text} (h : surrogateOrAbove path = false) :
    codeUnits path = path.map Char.toNat := by
  induction path with
  | nil => rfl
  | cons c path ih =>
    rw [surrogateOrAbove, codeUnits, flatMap_cons, any_append, Bool.or_eq_false_iff] at h
    have hlow : c.toNat < 0xd800 := by
      have hvalid : c.toNat < 0xd800 ∨ 0xdfff < c.toNat ∧ c.toNat < 0x110000 := c.valid
      have hunits := any_eq_false.mp h.1
      unfold utf16Units at hunits
      by_contra hhigh
      split at hunits
      · exact hunits _ (mem_singleton_self _) (decide_eq_true (by omega))
      · exact hunits _ mem_cons_self (decide_eq_true (by omega))
    rw [codeUnits, flatMap_cons, utf16Units, if_pos (by omega), map_cons, singleton_append]
    exact congrArg _ (ih h.2)

theorem ordered_toNat : Ordered fun c : Char => [c.toNat] where
  ne_nil _ := cons_ne_nil _ _
  lt _ _ hab _ _ := cons_lt_cons_iff.mpr (.inl hab)

theorem stringLt_of_low {left right : Text} (hleft : surrogateOrAbove left = false)
    (hright : surrogateOrAbove right = false) :
    stringLt left right = true ↔ encode left < encode right := by
  rw [stringLt, decide_eq_true_iff, codeUnits_of_low hleft, codeUnits_of_low hright,
    encode_lt_iff, ← ordered_toNat.flatMap_lt_iff, map_eq_flatMap, map_eq_flatMap]

theorem compareUtf16Path_nonpos_iff {a b : IndexPath} (ha : surrogateOrAbove a.path = false)
    (hb : surrogateOrAbove b.path = false) (hnone : a.pathBytes = none ∧ b.pathBytes = none) :
    compareUtf16Path a b ≤ 0 ↔ compareBytes (pathBytesOf a) (pathBytesOf b) ≤ 0 := by
  have hleft := @stringLt_of_low a.path b.path ha hb
  have hright := @stringLt_of_low b.path a.path hb ha
  rw [← compareBytes_neg_iff] at hleft hright
  have hswap := compareBytes_swap (encode a.path) (encode b.path)
  rw [pathBytesOf, pathBytesOf, hnone.1, hnone.2, Option.getD_none, Option.getD_none]
  unfold compareUtf16Path compareUtf16Strings
  split_ifs with hlt hgt
  · exact iff_of_true (by decide) (hleft.mp hlt).le
  · exact iff_of_false (by decide) (by have := hright.mp hgt; omega)
  · refine iff_of_true le_rfl ?_
    have hnot : ¬ compareBytes (encode b.path) (encode a.path) < 0 := fun h => hgt (hright.mpr h)
    omega

def IndexPath.WellFormed (entry : IndexPath) : Prop :=
  ∀ raw, entry.pathBytes = some raw →
    entry.path = decodePreservingBom raw ∧ decodesLosslessly entry.path raw = false

theorem IndexPath.WellFormed.lossless {entry : IndexPath} (h : entry.WellFormed)
    (hlow : surrogateOrAbove entry.path = false) : entry.pathBytes = none := by
  cases hraw : entry.pathBytes with
  | none => rfl
  | some raw =>
    have hlossy := (h raw hraw).2
    have hmem : replacementCharacter ∈ entry.path := by
      by_contra hnot
      rw [decodesLosslessly, decide_eq_true (.inl hnot)] at hlossy
      cases hlossy
    have hunit : replacementCharacter.toNat ∈ codeUnits entry.path :=
      mem_flatMap.mpr ⟨_, hmem, mem_singleton_self _⟩
    exact absurd (decide_eq_true (show 0xd800 ≤ replacementCharacter.toNat by decide))
      (any_eq_false.mp hlow _ hunit)

/-- **The comparator chosen for a list** compares its members by the bytes of their paths. -/
theorem pathComparatorFor_nonpos_iff {entries : List IndexPath}
    (hvalid : ∀ entry ∈ entries, entry.WellFormed) {a b : IndexPath} (ha : a ∈ entries)
    (hb : b ∈ entries) : pathComparatorFor entries a b ≤ 0 ↔
      compareBytes (pathBytesOf a) (pathBytesOf b) ≤ 0 := by
  unfold pathComparatorFor
  split
  · exact compareEntryPath_nonpos_iff
  · next hnone =>
    have hlow : ∀ entry ∈ entries, surrogateOrAbove entry.path = false := fun entry hmem =>
      Bool.eq_false_iff.mpr fun htrue => hnone (any_eq_true.mpr ⟨entry, hmem, htrue⟩)
    exact compareUtf16Path_nonpos_iff (hlow a ha) (hlow b hb)
      ⟨(hvalid a ha).lossless (hlow a ha), (hvalid b hb).lossless (hlow b hb)⟩

/-! ### Sorting -/

theorem pathComparatorFor_preorder (entries : List IndexPath) :
    (∀ a b c, pathComparatorFor entries a b ≤ 0 → pathComparatorFor entries b c ≤ 0 →
      pathComparatorFor entries a c ≤ 0) ∧
    ∀ a b, pathComparatorFor entries a b ≤ 0 ∨ pathComparatorFor entries b a ≤ 0 := by
  unfold pathComparatorFor
  split
  · refine ⟨fun a b c hab hbc => ?_, fun a b => ?_⟩
    · rw [compareEntryPath_nonpos_iff] at *
      exact compareBytes_nonpos_trans hab hbc
    · rw [compareEntryPath_nonpos_iff, compareEntryPath_nonpos_iff,
        compareBytes_swap (pathBytesOf a) (pathBytesOf b)]
      omega
  · have hle : ∀ a b : IndexPath, compareUtf16Path a b ≤ 0 ↔
        ¬ codeUnits b.path < codeUnits a.path := by
      intro a b
      unfold compareUtf16Path compareUtf16Strings stringLt
      simp only [decide_eq_true_eq]
      split_ifs with hlt hgt
      · exact iff_of_true (by decide) (lt_asymm hlt)
      · exact iff_of_false (by decide) (not_not_intro hgt)
      · exact iff_of_true le_rfl hgt
    refine ⟨fun a b c hab hbc => ?_, fun a b => ?_⟩
    · rw [hle, not_lt] at *
      exact hab.trans hbc
    · rw [hle, hle, not_lt, not_lt]
      exact le_total _ _

end Tsgit.IndexFile
