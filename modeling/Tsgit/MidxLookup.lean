import Mathlib.Data.List.Nodup
import Tsgit.MidxBounds

/-!
# Lookups in a Multi-Pack Index

What the lookups of an index that was accepted come to. The sum that the
search halves goes through a 32-bit shift.
-/

namespace Tsgit.Midx

open List OidTable Run

def EndsWith {α : Type} (run : ℕ → Run Thrown α) (post : α → Prop) : Prop :=
  ∀ fuel result, run fuel = (some result : Option (Except Thrown α)) → Outcome Refuses post result

/-- The reads of an index stay inside its file: no id is compared or read beyond the last one. -/
structure ReadsInside (midx : MultiPackIndex) : Prop where
  entry : ∀ index < midx.objectCount, Outcome Refuses
    (fun entry => entry.packIndex < midx.packNames.length) (midxEntryAt midx index)
  oid : ∀ index < midx.objectCount, midx.oidLookupOffset + index * midx.digestLength +
    midx.digestLength ≤ midx.bytes.length
  reverse : ∀ position, Outcome Refuses (fun _ => True) (midxReverseIndexAt midx position)
  reversePositions : ∃ read, midxReverseIndexPositions midx = .ok read ∧
    ∀ positions, read = some positions → ∀ p ∈ positions, p < midx.objectCount
  compared : ∀ fuel targetBytes compareAt,
    (∀ i < midx.objectCount, compareAt i = compareMidxOidAt midx i targetBytes) →
      searchPosition (readMidxFanout midx) compareAt midx.digestLength fuel targetBytes =
        searchMidxPosition fuel midx targetBytes
  position : ∀ id, IsObjectId id → EndsWith (lookupMidxPosition · midx id)
    fun answer => ∀ position, answer = some position → position < midx.objectCount
  lookup : ∀ id, IsObjectId id → EndsWith (lookupMultiPackIndex · midx id)
    fun answer => ∀ entry, answer = some entry → entry.packIndex < midx.packNames.length
  lookupBytes : ∀ targetBytes, EndsWith (lookupMultiPackIndexBytes · midx targetBytes)
    fun answer => ∀ entry, answer = some entry → entry.packIndex < midx.packNames.length

section

variable {midx : MultiPackIndex}

theorem searchMidxPosition_found (h : InBounds midx) {fuel : ℕ} {targetBytes : Bytes}
    {result : Except Thrown (Option ℕ)}
    (hrun : searchMidxPosition fuel midx targetBytes =
      (some result : Option (Except Thrown (Option ℕ)))) :
    ∃ answer, result = .ok answer ∧ ∀ found, answer = some found →
      found < midx.objectCount ∧ found < 2 ^ 31 ∧
        ∀ order, compareMidxOidAt midx found targetBytes = some order → order = 0 :=
  searchPosition_found h.fanout hrun

theorem lookupMultiPackIndexBytes_ends (h : InBounds midx) (targetBytes : Bytes) :
    EndsWith (lookupMultiPackIndexBytes · midx targetBytes)
      fun answer => ∀ entry, answer = some entry → entry.packIndex < midx.packNames.length := by
  intro fuel result hrun
  dsimp only at hrun
  unfold lookupMultiPackIndexBytes at hrun
  cases hsearch : (searchMidxPosition fuel midx targetBytes :
      Option (Except Thrown (Option ℕ))) with
  | none =>
    rw [hsearch] at hrun
    cases hrun
  | some ended =>
    obtain ⟨answer, rfl, hanswer⟩ := searchMidxPosition_found h hsearch
    have hpure : searchMidxPosition fuel midx targetBytes = pure answer := hsearch
    rw [hpure, pure_bind] at hrun
    cases answer with
    | none =>
      cases hrun
      exact Outcome.ok fun entry hentry => by cases hentry
    | some position =>
      have hentry := midxEntryAt_outcome h (hanswer position rfl).1
      rw [midxEntryAt] at hentry
      dsimp only at hrun
      cases hread : readMidxEntry midx position with
      | error thrown =>
        rw [hread] at hrun hentry
        cases hrun
        exact Outcome.error (Outcome.error_iff.mp hentry)
      | ok entry =>
        rw [hread] at hrun hentry
        cases hrun
        rw [Outcome.ok_iff] at hentry
        refine Outcome.ok fun entry' hentry' => ?_
        cases hentry'
        exact hentry

/-- **The reads of an index that is in bounds** stay inside its file. -/
theorem readsInside_of_inBounds (h : InBounds midx) : ReadsInside midx where
  entry _ hindex := midxEntryAt_outcome h hindex
  oid index hindex := by
    have hoids := h.oids
    have hslot : index * midx.digestLength + midx.digestLength ≤
        midx.objectCount * midx.digestLength := by
      rw [← Nat.succ_mul]
      exact Nat.mul_le_mul_right _ hindex
    omega
  reverse position := midxReverseIndexAt_outcome h position
  reversePositions := midxReverseIndexPositions_spec h
  compared _ _ _ hcompare := searchPosition_congr h.fanout (fun _ _ => rfl) hcompare
  position id hid fuel result hrun := by
    obtain ⟨targetBytes, hbytes, -⟩ := hid.toBytes
    dsimp only at hrun
    rw [lookupMidxPosition, hbytes, ofExcept_ok, pure_bind] at hrun
    obtain ⟨answer, rfl, hanswer⟩ := searchMidxPosition_found h hrun
    exact Outcome.ok fun position hposition => (hanswer position hposition).1
  lookup id hid fuel result hrun := by
    obtain ⟨targetBytes, hbytes, -⟩ := hid.toBytes
    dsimp only at hrun
    rw [lookupMultiPackIndex, hbytes, ofExcept_ok, pure_bind] at hrun
    exact lookupMultiPackIndexBytes_ends h targetBytes fuel result hrun
  lookupBytes targetBytes := lookupMultiPackIndexBytes_ends h targetBytes

end

/-! ### Exact lookups -/

/-- The id at a position, as it stands in the chunk. -/
def rawOidAt (midx : MultiPackIndex) (index : ℕ) : Bytes :=
  let offset := midx.oidLookupOffset + index * midx.digestLength
  subarray midx.bytes offset (offset + midx.digestLength)

/-- The ids of the chunk. -/
def rawOids (midx : MultiPackIndex) : List Bytes :=
  (List.range midx.objectCount).map (rawOidAt midx)

/-- The ids are in ascending order. -/
def SortedOids (midx : MultiPackIndex) : Prop :=
  (rawOids midx).Pairwise fun a b => compareBytes a b ≤ 0

/-- The fan-out counts the ids up to each first byte. -/
def FanoutConsistent (midx : MultiPackIndex) : Prop :=
  ∀ byte < 256, readMidxFanout midx byte = .ok ((rawOids midx).countP fun id => byteAt id 0 ≤ byte)

/-- Every lookup ends, with the position of the id, or with none if the chunk does not hold it. -/
def Exact (midx : MultiPackIndex) : Prop :=
  ∀ id, IsObjectId id → ∃ answer, Yields (lookupMidxPosition · midx id) answer ∧
    (∀ position, answer = some position →
      position < midx.objectCount ∧ midxOidAt midx position = id) ∧
    (answer = none → ∀ position < midx.objectCount, midxOidAt midx position ≠ id)

section

variable {midx : MultiPackIndex}

theorem rawOids_getElem? {index : ℕ} (hindex : index < midx.objectCount) :
    (rawOids midx)[index]? = some (rawOidAt midx index) := by
  rw [rawOids, getElem?_map, getElem?_range hindex]
  rfl

theorem length_rawOids (midx : MultiPackIndex) : (rawOids midx).length = midx.objectCount := by
  rw [rawOids, length_map, length_range]

theorem length_rawOidAt (h : InBounds midx) {index : ℕ} (hindex : index < midx.objectCount) :
    (rawOidAt midx index).length = midx.digestLength := by
  rw [rawOidAt, length_subarray _ ((readsInside_of_inBounds h).oid index hindex),
    Nat.add_sub_cancel_left]

theorem length_of_mem_rawOids (h : InBounds midx) :
    ∀ id ∈ rawOids midx, id.length = midx.digestLength := by
  intro id hid
  obtain ⟨index, hindex, rfl⟩ := mem_map.mp hid
  exact length_rawOidAt h (mem_range.mp hindex)

theorem compareMidxOidAt_eq (h : InBounds midx) {index : ℕ} (hindex : index < midx.objectCount)
    {targetBytes : Bytes} (htarget : targetBytes.length = midx.digestLength) :
    compareMidxOidAt midx index targetBytes =
      some (compareBytes (rawOidAt midx index) targetBytes) :=
  compareWindows_eq (holds_subarray _ _ _) (holds_self _) (length_rawOidAt h hindex) htarget

theorem table_of_sorted (h : InBounds midx) (hsorted : SortedOids midx)
    (hconsistent : FanoutConsistent midx) (hcount : midx.objectCount ≤ 2 ^ 31) :
    Table (readMidxFanout midx) (compareMidxOidAt midx) midx.digestLength (rawOids midx) where
  sorted := hsorted
  fanout := hconsistent
  compare := by
    intro index id targetBytes hid htarget
    have hindex : index < midx.objectCount := by
      rw [← length_rawOids midx]
      exact (List.getElem?_eq_some_iff.mp hid).1
    obtain rfl := Option.some.inj ((rawOids_getElem? hindex).symm.trans hid)
    exact compareMidxOidAt_eq h hindex htarget
  length_le := (length_rawOids midx).trans_le hcount

theorem exact_of_le (h : InBounds midx) (hsorted : SortedOids midx)
    (hconsistent : FanoutConsistent midx) (hcount : midx.objectCount ≤ 2 ^ 31) :
    Exact midx := by
  intro id hid
  obtain ⟨targetBytes, hbytes, rfl⟩ := hid.toBytes
  have hsearch : ∀ fuel, midx.objectCount + 1 ≤ fuel →
      ∃ found, searchMidxPosition fuel midx targetBytes = pure found ∧
        Finds (rawOids midx) targetBytes found := fun fuel hfuel =>
    searchPosition_spec (table_of_sorted h hsorted hconsistent hcount)
      (length_of_mem_rawOids h) (by rwa [length_rawOids])
  obtain ⟨answer, hrun, hfinds⟩ := hsearch _ le_rfl
  refine ⟨answer, ⟨midx.objectCount + 1, fun fuel hfuel => ?_⟩, ?_, ?_⟩
  · dsimp only
    rw [lookupMidxPosition, hbytes, ofExcept_ok, pure_bind]
    exact searchPosition_mono hfuel h.fanout hrun
  · rintro position rfl
    have hposition : position < midx.objectCount := by
      rw [← length_rawOids midx]
      exact (List.getElem?_eq_some_iff.mp hfinds).1
    have hraw := Option.some.inj ((rawOids_getElem? hposition).symm.trans hfinds)
    exact ⟨hposition, congrArg bytesToHex hraw⟩
  · rintro rfl position hposition hsame
    have hraw : rawOidAt midx position = targetBytes := bytesToHex_injective hsame
    exact hfinds (mem_map.mpr ⟨position, mem_range.mpr hposition, hraw⟩)

end

/-- **Of every buffer**: refused with the typed error, or an index whose reads stay inside. In an
index in order lookups are exact up to `2 ^ 31` ids, and so they are in every file that the loader
takes. -/
theorem parseMultiPackIndex_safe (bytes : Bytes) (digestLength : ℕ) :
    (∃ thrown, parseMultiPackIndex bytes digestLength = .error thrown ∧ Refuses thrown) ∨
      ∃ midx, parseMultiPackIndex bytes digestLength = .ok midx ∧ midx.bytes = bytes ∧
        ReadsInside midx ∧
        (SortedOids midx → FanoutConsistent midx → (midx.objectCount ≤ 2 ^ 31 → Exact midx) ∧
          ∀ statSize, readAndParseMidx statSize bytes digestLength = .ok midx → Exact midx) := by
  rcases (parseMultiPackIndex_outcome bytes digestLength).elim with hrefused | haccepted
  · exact .inl hrefused
  obtain ⟨midx, hok, haccepted⟩ := haccepted
  have hin := haccepted.inBounds
  refine .inr ⟨midx, hok, haccepted.bytes_eq, readsInside_of_inBounds hin,
    fun hsorted hconsistent => ?_⟩
  have hexact := exact_of_le hin hsorted hconsistent
  refine ⟨hexact, fun statSize hread => hexact ?_⟩
  -- eight bytes of each object stand in the chunk of the offsets
  have hfits := (length_le_of_readAndParseMidx hread).1
  have hoffsets := hin.offsets
  rw [haccepted.bytes_eq] at hoffsets
  omega

end Tsgit.Midx
