import Tsgit.BinarySearch
import Tsgit.Bytes
import Tsgit.DataView

/-!
# Sorted Id Tables

The search that pack indexes and multi-pack indexes share: ids of one width in ascending order,
and a fan-out that counts, for each byte, the ids whose first byte is not above it.
-/

namespace Tsgit.OidTable

open List Run

/-- The first difference of two windows, or 0. A read behind the end of a buffer gives no
number (`none`), which is not zero, not below it and not above it. -/
def compareWindows (a : Bytes) (aStart : ℕ) (b : Bytes) (bStart : ℕ) : ℕ → Option ℤ
  | 0 => some 0
  | length + 1 =>
    match a[aStart]?, b[bStart]? with
    | some x, some y =>
      if x ≠ y then some ((x.toNat : ℤ) - y.toNat)
      else compareWindows a (aStart + 1) b (bStart + 1) length
    | _, _ => none

theorem compareWindows_eq {a b x y : Bytes} {aStart bStart length : ℕ} (ha : Holds a aStart x)
    (hb : Holds b bStart y) (hx : x.length = length) (hy : y.length = length) :
    compareWindows a aStart b bStart length = some (compareBytes x y) := by
  induction length generalizing aStart bStart x y with
  | zero =>
    rw [eq_nil_of_length_eq_zero hx, eq_nil_of_length_eq_zero hy]
    rfl
  | succ length ih =>
    cases x with
    | nil => cases hx
    | cons x xs =>
      cases y with
      | nil => cases hy
      | cons y ys =>
        have hhere := ha 0 (Nat.succ_pos _)
        have hhere' := hb 0 (Nat.succ_pos _)
        rw [Nat.add_zero, getElem?_cons_zero] at hhere hhere'
        have hrest := ih (ha.drop 1) (hb.drop 1) (Nat.succ.inj hx) (Nat.succ.inj hy)
        rw [compareWindows, hhere, hhere']
        dsimp only
        by_cases hne : x ≠ y
        · rw [if_pos hne, compareBytes, if_pos hne]
        · obtain rfl := not_not.mp hne
          rw [if_neg hne, compareBytes_cons_self]
          exact hrest

theorem compareWindows_congr {a b b' : Bytes} {aStart bStart length : ℕ}
    (h : ∀ i < bStart + length, b'[i]? = b[i]?) :
    compareWindows a aStart b' bStart length = compareWindows a aStart b bStart length := by
  induction length generalizing aStart bStart with
  | zero => rfl
  | succ length ih =>
    rw [compareWindows, compareWindows, h bStart (by omega),
      @ih (aStart + 1) (bStart + 1) fun i hi => h i (by omega)]

theorem compareWindows_blind {a b b' : Bytes} (h : ∀ i : ℕ, b'[i]? = b[i]? ∨ b'[i]? = none)
    (aStart bStart length : ℕ) :
    compareWindows a aStart b' bStart length = compareWindows a aStart b bStart length ∨
      compareWindows a aStart b' bStart length = none := by
  induction length generalizing aStart bStart with
  | zero => exact .inl rfl
  | succ length ih =>
    rw [compareWindows, compareWindows]
    rcases h bStart with hsame | hnone
    · rw [hsame]
      cases a[aStart]? with
      | none => exact .inl rfl
      | some x =>
        cases b[bStart]? with
        | none => exact .inl rfl
        | some y =>
          dsimp only
          split
          · exact .inl rfl
          · exact ih (aStart + 1) (bStart + 1)
    · rw [hnone]
      cases a[aStart]? with
      | none => exact .inr rfl
      | some x => exact .inr rfl

theorem compareWindows_first {a b : Bytes} {aStart bStart : ℕ} {x y : UInt8}
    (ha : a[aStart]? = some x) (hb : b[bStart]? = some y) (hne : x ≠ y) (length : ℕ) :
    compareWindows a aStart b bStart (length + 1) = some ((x.toNat : ℤ) - y.toNat) := by
  rw [compareWindows, ha, hb]
  exact if_pos hne

theorem compareWindows_hits {a b : Bytes} {aStart bStart : ℕ} (length : ℕ)
    (h : ∀ i < length, ∀ x, a[aStart + i]? = some x → b[bStart + i]? = some x) :
    BinarySearch.Hits (compareWindows a aStart b bStart length) := by
  induction length generalizing aStart bStart with
  | zero =>
    intro value hvalue
    cases hvalue
    rfl
  | succ length ih =>
    have hrest := @ih (aStart + 1) (bStart + 1) fun i hi x hx => by
      have := h (i + 1) (by omega) x (by rwa [Nat.add_comm i 1, ← Nat.add_assoc])
      rwa [Nat.add_comm i 1, ← Nat.add_assoc] at this
    rw [compareWindows]
    cases hx : a[aStart]? with
    | none =>
      intro value hvalue
      cases hvalue
    | some x =>
      have hy := h 0 (Nat.succ_pos _) x (by rwa [Nat.add_zero])
      rw [Nat.add_zero] at hy
      rw [hy]
      dsimp only
      rw [if_neg (not_not_intro rfl)]
      exact hrest

/-- The search for `targetBytes`, between the counts of the fan-out. A target of another width
is absent. -/
def searchPosition (readFanout : ℕ → Except Thrown ℕ) (compareAt : ℕ → Option ℤ)
    (digestLength fuel : ℕ) (targetBytes : Bytes) : Run Thrown (Option ℕ) :=
  if targetBytes.length ≠ digestLength then pure none
  else do
    let firstByte := byteAt targetBytes 0
    let lo ← Run.ofExcept (if firstByte = 0 then .ok 0 else readFanout (firstByte - 1))
    let hi ← Run.ofExcept (readFanout firstByte)
    BinarySearch.search compareAt fuel lo hi

theorem exists_start {readFanout : ℕ → Except Thrown ℕ} {bound byte : ℕ}
    (hfanout : ∀ byte < 256, ∃ count ≤ bound, readFanout byte = .ok count) (hbyte : byte < 256) :
    ∃ lo, (if byte = 0 then .ok 0 else readFanout (byte - 1)) = Except.ok lo := by
  by_cases hzero : byte = 0
  · exact ⟨0, if_pos hzero⟩
  · obtain ⟨lo, -, hlo⟩ := hfanout (byte - 1) (by omega)
    exact ⟨lo, (if_neg hzero).trans hlo⟩

theorem byteAt_lt (bytes : Bytes) (i : ℕ) : byteAt bytes i < 256 := UInt8.toNat_lt _

/-- A table of ids in ascending order, read through a fan-out and a comparison in place. -/
structure Table (readFanout : ℕ → Except Thrown ℕ) (compareAt : ℕ → Bytes → Option ℤ)
    (digestLength : ℕ) (ids : List Bytes) : Prop where
  sorted : ids.Pairwise fun a b => compareBytes a b ≤ 0
  fanout : ∀ byte < 256, readFanout byte = .ok (ids.countP fun id => byteAt id 0 ≤ byte)
  compare : ∀ {i id target}, ids[i]? = some id → target.length = digestLength →
    compareAt i target = some (compareBytes id target)
  length_le : ids.length ≤ 2 ^ 31

section

variable {readFanout : ℕ → Except Thrown ℕ} {compareAt : ℕ → Bytes → Option ℤ}
  {digestLength : ℕ} {ids : List Bytes}

theorem Table.ordered (h : Table readFanout compareAt digestLength ids) {i j : ℕ} {a b : Bytes}
    (hij : i ≤ j) (ha : ids[i]? = some a) (hb : ids[j]? = some b) : compareBytes a b ≤ 0 := by
  obtain ⟨hi, rfl⟩ := List.getElem?_eq_some_iff.mp ha
  obtain ⟨hj, rfl⟩ := List.getElem?_eq_some_iff.mp hb
  rcases Nat.eq_or_lt_of_le hij with rfl | hlt
  · exact (compareBytes_eq_zero_iff.mpr rfl).le
  · exact pairwise_iff_getElem.mp h.sorted i j hi hj hlt

theorem Table.lt_countP_iff (h : Table readFanout compareAt digestLength ids) {p : Bytes → Bool}
    (hdown : ∀ a b, compareBytes a b ≤ 0 → p b = true → p a = true) {i : ℕ} {id : Bytes}
    (hid : ids[i]? = some id) : i < ids.countP p ↔ p id = true := by
  obtain ⟨hi, rfl⟩ := List.getElem?_eq_some_iff.mp hid
  exact BinarySearch.lt_countP_iff h.sorted hdown hi

theorem Table.lt_count_iff (h : Table readFanout compareAt digestLength ids) {i : ℕ} {id : Bytes}
    (hid : ids[i]? = some id) (byte : ℕ) :
    i < ids.countP (fun id => byteAt id 0 ≤ byte) ↔ byteAt id 0 ≤ byte := by
  have hdown : ∀ a b : Bytes, compareBytes a b ≤ 0 → decide (byteAt b 0 ≤ byte) = true →
      decide (byteAt a 0 ≤ byte) = true := by
    intro a b hab hb
    exact decide_eq_true ((byteAt_zero_le hab).trans (of_decide_eq_true hb))
  exact (h.lt_countP_iff hdown hid).trans decide_eq_true_iff

theorem Table.lt_start_iff (h : Table readFanout compareAt digestLength ids) {i : ℕ} {id : Bytes}
    (hid : ids[i]? = some id) (byte : ℕ) :
    i < ids.countP (fun id => byteAt id 0 < byte) ↔ byteAt id 0 < byte := by
  cases byte with
  | zero =>
    rw [countP_eq_zero.mpr fun id _ => by simp]
    exact iff_of_false (Nat.not_lt_zero _) (Nat.not_lt_zero _)
  | succ byte => simpa only [Nat.lt_succ_iff] using h.lt_count_iff hid byte

theorem Table.range_start (h : Table readFanout compareAt digestLength ids) {byte : ℕ}
    (hbyte : byte < 256) : (if byte = 0 then .ok 0 else readFanout (byte - 1)) =
      Except.ok (ids.countP fun id => byteAt id 0 < byte) := by
  cases byte with
  | zero => rw [if_pos rfl, countP_eq_zero.mpr fun id _ => by simp]
  | succ byte =>
    rw [if_neg (Nat.succ_ne_zero byte), Nat.add_sub_cancel, h.fanout byte (Nat.lt_of_succ_lt hbyte)]
    simp only [Nat.lt_succ_iff]

def FindsWithin (ids : List Bytes) (target : Bytes) (low high : ℕ) : Option ℕ → Prop
  | some i => i < high ∧ ids[i]? = some target
  | none => ∀ i, low ≤ i → i < high → ids[i]? ≠ some target

theorem Table.search_spec (h : Table readFanout compareAt digestLength ids) {target : Bytes}
    (htarget : target.length = digestLength) {low high fuel : ℕ} (hhigh : high ≤ ids.length)
    (hfuel : high - low < fuel) :
    Returns (BinarySearch.search (compareAt · target) fuel low high : Run Thrown (Option ℕ))
      (FindsWithin ids target low high) := by
  let order (i : ℕ) : ℤ := compareBytes ((ids[i]?).getD []) target
  have hget : ∀ {i}, i < high → ∃ id, ids[i]? = some id ∧ order i = compareBytes id target := by
    intro i hi
    have hid := getElem?_eq_getElem (hi.trans_le hhigh)
    exact ⟨_, hid, by simp only [order, hid, Option.getD_some]⟩
  have hsearch : Returns (BinarySearch.search (compareAt · target) fuel low high :
      Run Thrown (Option ℕ)) (BinarySearch.Found order low high) := by
    refine BinarySearch.search_spec ?_ ?_ ?_ (hhigh.trans h.length_le) hfuel
    · intro i _ hi
      obtain ⟨id, hid, horder⟩ := hget hi
      rw [h.compare hid htarget, horder]
    · intro i j _ hij hj hneg
      obtain ⟨a, ha, hordera⟩ := hget (hij.trans_lt hj)
      obtain ⟨b, hb, horderb⟩ := hget hj
      rw [hordera]
      rw [horderb] at hneg
      exact compareBytes_neg_of_nonpos_of_neg (h.ordered hij ha hb) hneg
    · intro i j _ hij hj hpos
      obtain ⟨a, ha, hordera⟩ := hget (hij.trans_lt hj)
      obtain ⟨b, hb, horderb⟩ := hget hj
      rw [hordera] at hpos
      rw [horderb]
      by_contra hnot
      have := compareBytes_nonpos_trans (h.ordered hij ha hb) (not_lt.mp hnot)
      omega
  refine hsearch.mono fun found hfound => ?_
  cases found with
  | some i =>
    obtain ⟨-, hi, hzero⟩ := hfound
    obtain ⟨id, hid, horder⟩ := hget hi
    rw [horder, compareBytes_eq_zero_iff] at hzero
    exact ⟨hi, by rw [hid, hzero]⟩
  | none =>
    intro i hlow hi hid
    refine hfound i hlow hi ?_
    simp only [order, hid, Option.getD_some]
    exact compareBytes_eq_zero_iff.mpr rfl

/-- What a search for `target` comes to. -/
def Finds (ids : List Bytes) (target : Bytes) : Option ℕ → Prop
  | some i => ids[i]? = some target
  | none => target ∉ ids

/-- **The search of a table** finds exactly the ids it holds. -/
theorem searchPosition_spec (h : Table readFanout compareAt digestLength ids) {target : Bytes}
    {fuel : ℕ} (hwidth : ∀ id ∈ ids, id.length = digestLength) (hfuel : ids.length < fuel) :
    Returns (searchPosition readFanout (compareAt · target) digestLength fuel target)
      (Finds ids target) := by
  unfold searchPosition
  by_cases hother : target.length ≠ digestLength
  · rw [if_pos hother]
    exact .pure fun hmem => hother (hwidth target hmem)
  have htarget := not_not.mp hother
  rw [if_neg hother]
  have hlo := h.range_start (byteAt_lt target 0)
  have hhi := h.fanout _ (byteAt_lt target 0)
  refine (Returns.ofExcept hlo (Eq.refl (ids.countP _))).bind ?_
  rintro _ rfl
  refine (Returns.ofExcept hhi (Eq.refl (ids.countP _))).bind ?_
  rintro _ rfl
  have hcount : ids.countP (fun id => byteAt id 0 ≤ byteAt target 0) ≤ ids.length :=
    countP_le_length
  refine (h.search_spec htarget hcount (by omega)).mono fun found hfound => ?_
  cases found with
  | some i => exact hfound.2
  | none =>
    intro hmem
    obtain ⟨i, hi⟩ := mem_iff_getElem?.mp hmem
    refine hfound i ?_ ((h.lt_count_iff hi _).mpr le_rfl) hi
    exact Nat.not_lt.mp fun hlt => lt_irrefl _ ((h.lt_start_iff hi _).mp hlt)

/-- The ids of a table in a buffer. -/
def slots (bytes : Bytes) (start width count : ℕ) : List Bytes :=
  (List.range count).map fun i => subarray bytes (start + i * width) (start + i * width + width)

theorem slots_getElem? {bytes : Bytes} {start width count i : ℕ} (hi : i < count) :
    (slots bytes start width count)[i]? =
      some (subarray bytes (start + i * width) (start + i * width + width)) := by
  rw [slots, getElem?_map, getElem?_range hi]
  rfl

theorem length_slots (bytes : Bytes) (start width count : ℕ) :
    (slots bytes start width count).length = count := by
  rw [slots, length_map, length_range]

section

variable {compareAt compareAt' : ℕ → Option ℤ} {bound fuel : ℕ} {target : Bytes}

theorem searchPosition_found {result : Except Thrown (Option ℕ)}
    (hfanout : ∀ byte < 256, ∃ count ≤ bound, readFanout byte = .ok count)
    (h : searchPosition readFanout compareAt digestLength fuel target =
      (some result : Option (Except Thrown (Option ℕ)))) :
    ∃ answer, result = .ok answer ∧ ∀ found, answer = some found →
      found < bound ∧ found < 2 ^ 31 ∧ ∀ order, compareAt found = some order → order = 0 := by
  unfold searchPosition at h
  split at h
  · cases h
    exact ⟨none, rfl, fun found hfound => by cases hfound⟩
  obtain ⟨lo, hlo⟩ := exists_start hfanout (byteAt_lt target 0)
  obtain ⟨hi, hle, hhi⟩ := hfanout _ (byteAt_lt target 0)
  dsimp only at h
  rw [hlo, hhi, ofExcept_ok, pure_bind, ofExcept_ok, pure_bind] at h
  obtain ⟨answer, hok, hanswer⟩ := BinarySearch.search_found fuel h
  refine ⟨answer, hok, fun found hfound => ?_⟩
  obtain ⟨hlt, hrest⟩ := hanswer found hfound
  exact ⟨hlt.trans_le hle, hrest⟩

theorem searchPosition_mono {fuel' : ℕ} (hle : fuel ≤ fuel')
    (hfanout : ∀ byte < 256, ∃ count ≤ bound, readFanout byte = .ok count) {answer : Option ℕ}
    (h : searchPosition readFanout compareAt digestLength fuel target = pure answer) :
    searchPosition readFanout compareAt digestLength fuel' target = pure answer := by
  obtain ⟨lo, hlo⟩ := exists_start hfanout (byteAt_lt target 0)
  obtain ⟨hi, -, hhi⟩ := hfanout _ (byteAt_lt target 0)
  unfold searchPosition at h ⊢
  dsimp only at h ⊢
  rw [hlo, hhi, ofExcept_ok, pure_bind, ofExcept_ok, pure_bind] at h ⊢
  split at h
  · next hwidth => rw [if_pos hwidth, h]
  · next hwidth =>
    rw [if_neg hwidth]
    exact loop_mono hle h

theorem searchPosition_congr {readFanout' : ℕ → Except Thrown ℕ}
    (hfanout : ∀ byte < 256, ∃ count ≤ bound, readFanout byte = .ok count)
    (hread : ∀ byte < 256, readFanout byte = readFanout' byte)
    (h : ∀ i < bound, compareAt i = compareAt' i) :
    searchPosition readFanout compareAt digestLength fuel target =
      searchPosition readFanout' compareAt' digestLength fuel target := by
  have hstart : (if byteAt target 0 = 0 then .ok 0 else readFanout' (byteAt target 0 - 1)) =
      if byteAt target 0 = 0 then Except.ok 0 else readFanout (byteAt target 0 - 1) := by
    have hlt := byteAt_lt target 0
    rw [hread (byteAt target 0 - 1) (by omega)]
  obtain ⟨lo, hlo⟩ := exists_start hfanout (byteAt_lt target 0)
  obtain ⟨hi, hle, hhi⟩ := hfanout _ (byteAt_lt target 0)
  unfold searchPosition
  dsimp only
  rw [hstart, ← hread _ (byteAt_lt target 0), hlo, hhi, ofExcept_ok, pure_bind, ofExcept_ok,
    pure_bind, pure_bind, pure_bind,
    BinarySearch.search_congr fuel fun i hi => h i (hi.trans_le hle)]

theorem searchPosition_halts (hbound : bound ≤ 2 ^ 31)
    (hfanout : ∀ byte < 256, ∃ count ≤ bound, readFanout byte = .ok count) :
    Halts (searchPosition readFanout compareAt digestLength · target) := by
  obtain ⟨lo, hlo⟩ := exists_start hfanout (byteAt_lt target 0)
  obtain ⟨hi, hle, hhi⟩ := hfanout _ (byteAt_lt target 0)
  unfold searchPosition
  simp only [hlo, hhi, ofExcept_ok, pure_bind]
  split
  · exact Halts.ofExcept (.ok none)
  · exact BinarySearch.search_halts _ (hle.trans hbound)

end

/-- **A partition of a table** by a property that is downward closed, in a range outside of which it
is known, comes to the number of ids that have the property. -/
theorem Table.partitionPoint_eq (h : Table readFanout compareAt digestLength ids)
    {target : Bytes} (htarget : target.length = digestLength) {test : ℤ → Bool}
    (hdown : ∀ a b, compareBytes a b ≤ 0 → test (compareBytes b target) = true →
      test (compareBytes a target) = true)
    {lo hi fuel : ℕ} (hle : lo ≤ hi) (hhi : hi ≤ ids.length)
    (hleft : ∀ {i id}, ids[i]? = some id → i < lo → test (compareBytes id target) = true)
    (hright : ∀ {i id}, ids[i]? = some id → hi ≤ i → test (compareBytes id target) = false)
    (hfuel : ids.length < fuel) :
    BinarySearch.partitionPoint (fun mid => (compareAt mid target).any test) fuel lo hi =
      (pure (ids.countP fun id => test (compareBytes id target)) : Run Thrown ℕ) := by
  have hcompare : ∀ {i id}, ids[i]? = some id →
      (compareAt i target).any test = test (compareBytes id target) := by
    intro i id hid
    rw [h.compare hid htarget]
    rfl
  have hmono : ∀ i j, lo ≤ i → i ≤ j → j < hi → (compareAt j target).any test = true →
      (compareAt i target).any test = true := by
    intro i j _ hij hj hbefore
    have ha := getElem?_eq_getElem (l := ids) (i := i) (by omega)
    have hb := getElem?_eq_getElem (l := ids) (i := j) (by omega)
    rw [hcompare hb] at hbefore
    rw [hcompare ha]
    exact hdown _ _ (h.ordered hij ha hb) hbefore
  obtain ⟨point, hrun, hpoint⟩ :=
    BinarySearch.partitionPoint_spec (ε := Thrown) hmono hle (hhi.trans h.length_le)
      (by omega : hi - lo < fuel)
  have hsame : ∀ i < ids.length,
      (i < point ↔ i < ids.countP fun id => test (compareBytes id target)) := by
    intro i hi
    have hid := getElem?_eq_getElem hi
    rw [h.lt_countP_iff hdown hid, ← hcompare hid]
    refine hpoint.lt_iff (fun hlt => ?_) fun hge => ?_
    · rw [hcompare hid]
      exact hleft hid hlt
    · rw [hcompare hid]
      exact hright hid hge
  have hpointLe : point ≤ ids.length := hpoint.le_high.trans hhi
  have hcountLe : (ids.countP fun id => test (compareBytes id target)) ≤ ids.length :=
    countP_le_length
  have heq : point = ids.countP fun id => test (compareBytes id target) := by
    refine Nat.le_antisymm (Nat.not_lt.mp fun hlt => ?_) (Nat.not_lt.mp fun hlt => ?_)
    · exact lt_irrefl _ ((hsame _ (by omega)).mp hlt)
    · exact lt_irrefl _ ((hsame _ (by omega)).mpr hlt)
  rw [hrun, heq]

end

/-! ### Numbered ids

Ids in ascending order, as many as one likes: for the tables that are too large. -/

/-- The id with a number: zeros, and the number. -/
def numberedOid (i : ℕ) : Bytes := replicate 16 0 ++ uint32Bytes i

theorem length_numberedOid (i : ℕ) : (numberedOid i).length = 20 := rfl

theorem numberedOid_injective {i j : ℕ} (hi : i < 2 ^ 32) (hj : j < 2 ^ 32)
    (h : numberedOid i = numberedOid j) : i = j := by
  have hword := congrArg bigEndian (append_cancel_left h)
  rwa [bigEndian_uint32Bytes, bigEndian_uint32Bytes, Nat.mod_eq_of_lt hi,
    Nat.mod_eq_of_lt hj] at hword

end Tsgit.OidTable
