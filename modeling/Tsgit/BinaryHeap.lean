import Mathlib.Data.List.Perm.Basic
import Mathlib.Tactic.Linarith

/-!
# The Binary Heap

`src/domain/commit/binary-heap.ts`: an array-backed heap ordered "by should-pop-first",
`less a b` meaning that `a` pops before `b`. A `BinaryHeap` carries the heap order of its
array, so every heap that `push` and `pop` build is one.
-/

open List

namespace Tsgit

variable {T : Type*}

/-- A comparison to serve by is asymmetric, and "not before" is transitive. Ties are allowed. -/
class IsPriority (less : T → T → Bool) : Prop where
  asymm : ∀ {a b : T}, less a b = true → less b a = false
  trans : ∀ {a b c : T}, less a b = false → less b c = false → less a c = false

namespace BinaryHeap

def parentIndex (index : ℕ) : ℕ := (index - 1) / 2
def leftChildIndex (index : ℕ) : ℕ := 2 * index + 1
def rightChildIndex (index : ℕ) : ℕ := 2 * index + 2

def precedes (less : T → T → Bool) (values : List T) (i j : ℕ) : Bool :=
  match values[i]?, values[j]? with
  | some a, some b => less a b
  | _, _ => false

def swap (values : List T) (i j : ℕ) : List T :=
  match values[i]?, values[j]? with
  | some a, some b => (values.set i b).set j a
  | _, _ => values

def siftUpLoop (less : T → T → Bool) : ℕ → List T → ℕ → List T
  | 0, values, _ => values
  | rounds + 1, values, index =>
    if 0 < index ∧ precedes less values index (parentIndex index) = true then
      siftUpLoop less rounds (swap values index (parentIndex index)) (parentIndex index)
    else values

def siftUp (less : T → T → Bool) (values : List T) (start : ℕ) : List T :=
  siftUpLoop less start values start

def smallerChild (less : T → T → Bool) (values : List T) (left right : ℕ) : ℕ :=
  if right < values.length ∧ precedes less values right left = true then right else left

def siftDownLoop (less : T → T → Bool) : ℕ → List T → ℕ → List T
  | 0, values, _ => values
  | rounds + 1, values, index =>
    let left := leftChildIndex index
    if values.length ≤ left then values
    else
      let child := smallerChild less values left (rightChildIndex index)
      if precedes less values child index = true then
        siftDownLoop less rounds (swap values index child) child
      else values

def siftDown (less : T → T → Bool) (values : List T) (start : ℕ) : List T :=
  siftDownLoop less values.length values start

/-- No entry pops before its parent. -/
def Ordered (less : T → T → Bool) (values : List T) : Prop :=
  ∀ i, 0 < i → precedes less values i (parentIndex i) = false

section

variable {less : T → T → Bool} {values : List T} {i j : ℕ}

theorem precedes_of_le_left (h : values.length ≤ i) : precedes less values i j = false := by
  rw [precedes, getElem?_eq_none h]

theorem swap_of_lt (hi : i < values.length) (hj : j < values.length) :
    swap values i j = (values.set i values[j]).set j values[i] := by
  rw [swap, getElem?_eq_getElem hi, getElem?_eq_getElem hj]

theorem perm_swap (hi : i < values.length) (hj : j < values.length) :
    (swap values i j).Perm values := by
  rw [swap_of_lt hi hj]
  exact set_set_perm hi hj

@[simp] theorem length_swap : (swap values i j).length = values.length := by
  rw [swap]
  split <;> simp

theorem getElem?_swap (hi : i < values.length) (hj : j < values.length) (k : ℕ) :
    (swap values i j)[k]? = values[Equiv.swap i j k]? := by
  rw [swap_of_lt hi hj]
  by_cases hkj : k = j
  · subst hkj
    rw [getElem?_set_self (by simpa using hj), Equiv.swap_apply_right, getElem?_eq_getElem hi]
  · rw [getElem?_set_ne (Ne.symm hkj)]
    by_cases hki : k = i
    · subst hki
      rw [getElem?_set_self hi, Equiv.swap_apply_left, getElem?_eq_getElem hj]
    · rw [getElem?_set_ne (Ne.symm hki), Equiv.swap_apply_of_ne_of_ne hki hkj]

theorem precedes_swap (hi : i < values.length) (hj : j < values.length) (a b : ℕ) :
    precedes less (swap values i j) a b =
      precedes less values (Equiv.swap i j a) (Equiv.swap i j b) := by
  rw [precedes, precedes, getElem?_swap hi hj, getElem?_swap hi hj]

end

section

variable {less : T → T → Bool} [IsPriority less] {values : List T} {i j k : ℕ}

theorem precedes_asymm (h : precedes less values i j = true) :
    precedes less values j i = false := by
  unfold precedes at h ⊢
  cases hi : values[i]? with
  | none => cases values[j]? <;> rfl
  | some a =>
    cases hj : values[j]? with
    | none => rfl
    | some b =>
      rw [hi, hj] at h
      exact IsPriority.asymm h

theorem precedes_self (values : List T) (i : ℕ) : precedes less values i i = false := by
  by_contra h
  have htrue : precedes less values i i = true := Bool.eq_true_of_not_eq_false h
  rw [precedes_asymm htrue] at htrue
  cases htrue

theorem precedes_trans (hj : j < values.length) (hij : precedes less values i j = false)
    (hjk : precedes less values j k = false) : precedes less values i k = false := by
  unfold precedes at hij hjk ⊢
  rw [getElem?_eq_getElem hj] at hij hjk
  cases hi : values[i]? with
  | none => rfl
  | some a =>
    cases hk : values[k]? with
    | none => rfl
    | some c =>
      rw [hi] at hij
      rw [hk] at hjk
      exact IsPriority.trans hij hjk

end

/-! ### Sifting up -/

section

/-- The array is ordered but for the entry at `hole`, which may pop before its parent. -/
structure UpOrdered (less : T → T → Bool) (values : List T) (hole : ℕ) : Prop where
  elsewhere : ∀ i, 0 < i → i ≠ hole → precedes less values i (parentIndex i) = false
  around : 0 < hole → ∀ i, 0 < i → parentIndex i = hole →
    precedes less values i (parentIndex hole) = false

variable {less : T → T → Bool} {values : List T} {hole : ℕ}

theorem parentIndex_lt (h : 0 < hole) : parentIndex hole < hole := by
  unfold parentIndex
  omega

theorem UpOrdered.ordered (h : UpOrdered less values hole)
    (hstop : 0 < hole → precedes less values hole (parentIndex hole) = false) :
    Ordered less values := by
  intro i hi
  by_cases heq : i = hole
  · subst heq
    exact hstop hi
  · exact h.elsewhere i hi heq

theorem UpOrdered.swap [IsPriority less] (h : UpOrdered less values hole)
    (hlt : hole < values.length) (hpos : 0 < hole)
    (hbefore : precedes less values hole (parentIndex hole) = true) :
    UpOrdered less (swap values hole (parentIndex hole)) (parentIndex hole) := by
  have hparent := parentIndex_lt hpos
  have hparentLt : parentIndex hole < values.length := hparent.trans hlt
  refine ⟨fun i hi hne => ?_, fun hpos' i hi hchild => ?_⟩
  · rw [precedes_swap hlt hparentLt]
    by_cases hhole : i = hole
    · subst hhole
      rw [Equiv.swap_apply_left, Equiv.swap_apply_right]
      exact precedes_asymm hbefore
    rw [Equiv.swap_apply_of_ne_of_ne hhole hne]
    by_cases hunder : parentIndex i = hole
    · rw [hunder, Equiv.swap_apply_left]
      exact h.around hpos i hi hunder
    by_cases hsibling : parentIndex i = parentIndex hole
    · rw [hsibling, Equiv.swap_apply_right]
      have hold := h.elsewhere i hi hhole
      rw [hsibling] at hold
      exact precedes_trans hparentLt hold (precedes_asymm hbefore)
    · rw [Equiv.swap_apply_of_ne_of_ne hunder hsibling]
      exact h.elsewhere i hi hhole
  · rw [precedes_swap hlt hparentLt]
    have hgrand := parentIndex_lt hpos'
    have habove := h.elsewhere (parentIndex hole) hpos' (by omega)
    rw [Equiv.swap_apply_of_ne_of_ne (x := parentIndex (parentIndex hole)) (by omega) (by omega)]
    by_cases hhole : i = hole
    · rw [hhole, Equiv.swap_apply_left]
      exact habove
    · have hi' := parentIndex_lt hi
      rw [Equiv.swap_apply_of_ne_of_ne hhole (by omega)]
      have hold := h.elsewhere i hi hhole
      rw [hchild] at hold
      exact precedes_trans hparentLt hold habove

theorem siftUpLoop_spec [IsPriority less] (rounds : ℕ) (h : UpOrdered less values hole)
    (hlt : hole < values.length) (hrounds : hole ≤ rounds) :
    (siftUpLoop less rounds values hole).Perm values ∧
      Ordered less (siftUpLoop less rounds values hole) := by
  induction rounds generalizing values hole with
  | zero =>
    refine ⟨.refl _, h.ordered fun hpos => ?_⟩
    omega
  | succ rounds ih =>
    rw [siftUpLoop]
    split
    · next hmove =>
      obtain ⟨hpos, hbefore⟩ := hmove
      have hparent := parentIndex_lt hpos
      obtain ⟨hperm, hordered⟩ := ih (h.swap hlt hpos hbefore)
        (by rw [length_swap]; omega) (by omega)
      exact ⟨hperm.trans (perm_swap hlt (hparent.trans hlt)), hordered⟩
    · next hstop =>
      refine ⟨.refl _, h.ordered fun hpos => ?_⟩
      exact Bool.eq_false_of_not_eq_true fun hbefore => hstop ⟨hpos, hbefore⟩

end

/-! ### Sifting down -/

section

/-- The array is ordered but for the entry at `hole`, before which its children may pop. -/
structure DownOrdered (less : T → T → Bool) (values : List T) (hole : ℕ) : Prop where
  elsewhere : ∀ i, 0 < i → parentIndex i ≠ hole → precedes less values i (parentIndex i) = false
  around : 0 < hole → ∀ i, 0 < i → parentIndex i = hole →
    precedes less values i (parentIndex hole) = false

variable {less : T → T → Bool} {values : List T} {hole : ℕ}

theorem eq_child_of_parentIndex {i : ℕ} (hi : 0 < i) (h : parentIndex i = hole) :
    i = leftChildIndex hole ∨ i = rightChildIndex hole := by
  unfold parentIndex at h
  unfold leftChildIndex rightChildIndex
  omega

variable (less) in
theorem smallerChild_spec [IsPriority less] (h : leftChildIndex hole < values.length) :
    ∃ child, smallerChild less values (leftChildIndex hole) (rightChildIndex hole) = child ∧
      0 < child ∧ child < values.length ∧ parentIndex child = hole ∧
      ∀ i, 0 < i → parentIndex i = hole → precedes less values i child = false := by
  have hleft : parentIndex (leftChildIndex hole) = hole := by
    unfold parentIndex leftChildIndex
    omega
  have hright : parentIndex (rightChildIndex hole) = hole := by
    unfold parentIndex rightChildIndex
    omega
  rw [smallerChild]
  split
  · next hsmaller =>
    obtain ⟨hlt, hbefore⟩ := hsmaller
    refine ⟨_, rfl, Nat.succ_pos _, hlt, hright, fun i hi hchild => ?_⟩
    rcases eq_child_of_parentIndex hi hchild with rfl | rfl
    · exact precedes_asymm hbefore
    · exact precedes_self _ _
  · next hnot =>
    refine ⟨_, rfl, Nat.succ_pos _, h, hleft, fun i hi hchild => ?_⟩
    rcases eq_child_of_parentIndex hi hchild with rfl | rfl
    · exact precedes_self _ _
    · by_cases hlt : rightChildIndex hole < values.length
      · exact Bool.eq_false_of_not_eq_true fun hbefore => hnot ⟨hlt, hbefore⟩
      · exact precedes_of_le_left (Nat.le_of_not_lt hlt)

theorem DownOrdered.ordered (h : DownOrdered less values hole)
    (hstop : ∀ i, 0 < i → parentIndex i = hole → precedes less values i hole = false) :
    Ordered less values := by
  intro i hi
  by_cases hchild : parentIndex i = hole
  · rw [hchild]
    exact hstop i hi hchild
  · exact h.elsewhere i hi hchild

theorem DownOrdered.swap [IsPriority less] (h : DownOrdered less values hole) {child : ℕ}
    (hpos : 0 < child) (hlt : child < values.length) (hparent : parentIndex child = hole)
    (hfirst : ∀ i, 0 < i → parentIndex i = hole → precedes less values i child = false)
    (hbefore : precedes less values child hole = true) :
    DownOrdered less (swap values hole child) child := by
  have hbelow : hole < child := hparent ▸ parentIndex_lt hpos
  have hholeLt : hole < values.length := hbelow.trans hlt
  refine ⟨fun i hi hne => ?_, fun _ i hi hchild => ?_⟩
  · rw [precedes_swap hholeLt hlt]
    by_cases hic : i = child
    · subst hic
      rw [hparent, Equiv.swap_apply_left, Equiv.swap_apply_right]
      exact precedes_asymm hbefore
    by_cases hih : i = hole
    · subst hih
      have habove := parentIndex_lt hi
      rw [Equiv.swap_apply_left, Equiv.swap_apply_of_ne_of_ne (by omega) hne]
      exact h.around hi child hpos hparent
    rw [Equiv.swap_apply_of_ne_of_ne hih hic]
    by_cases hsibling : parentIndex i = hole
    · rw [hsibling, Equiv.swap_apply_left]
      exact hfirst i hi hsibling
    · rw [Equiv.swap_apply_of_ne_of_ne hsibling hne]
      exact h.elsewhere i hi hsibling
  · have hi' := parentIndex_lt hi
    rw [precedes_swap hholeLt hlt, hparent, Equiv.swap_apply_left,
      Equiv.swap_apply_of_ne_of_ne (by omega) (by omega), ← hchild]
    exact h.elsewhere i hi (by omega)

theorem siftDownLoop_spec [IsPriority less] (rounds : ℕ) (h : DownOrdered less values hole)
    (hrounds : values.length ≤ hole + rounds) :
    (siftDownLoop less rounds values hole).Perm values ∧
      Ordered less (siftDownLoop less rounds values hole) := by
  have hleaf (hleft : values.length ≤ leftChildIndex hole) : Ordered less values := by
    refine h.ordered fun i hi hchild => precedes_of_le_left ?_
    rcases eq_child_of_parentIndex hi hchild with rfl | rfl
    · exact hleft
    · exact Nat.le_succ_of_le hleft
  induction rounds generalizing values hole with
  | zero =>
    refine ⟨.refl _, hleaf ?_⟩
    unfold leftChildIndex
    omega
  | succ rounds ih =>
    rw [siftDownLoop]
    dsimp only
    split
    · next hleft => exact ⟨.refl _, hleaf hleft⟩
    · next hleft =>
      obtain ⟨child, heq, hpos, hlt, hparent, hfirst⟩ :=
        smallerChild_spec less (Nat.lt_of_not_le hleft)
      rw [heq]
      have hbelow : hole < child := hparent ▸ parentIndex_lt hpos
      split
      · next hbefore =>
        have hnext := h.swap hpos hlt hparent hfirst hbefore
        obtain ⟨hperm, hordered⟩ := ih hnext (by rw [length_swap]; omega) fun hleft => by
          refine hnext.ordered fun i hi hchild => precedes_of_le_left ?_
          rcases eq_child_of_parentIndex hi hchild with rfl | rfl
          · exact hleft
          · exact Nat.le_succ_of_le hleft
        exact ⟨hperm.trans (perm_swap (hbelow.trans hlt) hlt), hordered⟩
      · next hstop =>
        refine ⟨.refl _, h.ordered fun i hi hchild => ?_⟩
        exact precedes_trans hlt (hfirst i hi hchild) (Bool.eq_false_of_not_eq_true hstop)

end

theorem Ordered.root [IsPriority less] {values : List T} (h : Ordered less values) (i : ℕ)
    (hi : i < values.length) : precedes less values i 0 = false := by
  induction i using Nat.strongRecOn with
  | ind i ih =>
    by_cases hpos : 0 < i
    · have hparent := parentIndex_lt hpos
      exact precedes_trans (hparent.trans hi) (h i hpos) (ih _ hparent (hparent.trans hi))
    · obtain rfl : i = 0 := by omega
      exact precedes_self _ _

theorem precedes_append_of_lt {values : List T} {i j : ℕ} (rest : List T)
    (hi : i < values.length) (hj : j < values.length) :
    precedes less (values ++ rest) i j = precedes less values i j := by
  rw [precedes, precedes, getElem?_append_left hi, getElem?_append_left hj]

/-- Appending an entry leaves a hole at the end. -/
theorem Ordered.upOrdered {values : List T} (h : Ordered less values) (value : T) :
    UpOrdered less (values ++ [value]) values.length := by
  refine ⟨fun i hi hne => ?_, fun hpos i hi hchild => precedes_of_le_left ?_⟩
  · have hparent := parentIndex_lt hi
    by_cases hlt : i < values.length
    · rw [precedes_append_of_lt _ hlt (hparent.trans hlt)]
      exact h i hi
    · refine precedes_of_le_left ?_
      rw [length_append, length_singleton]
      omega
  · have hi' := parentIndex_lt hi
    rw [length_append, length_singleton]
    omega

theorem siftUp_spec [IsPriority less] {values : List T} (h : Ordered less values) (value : T) :
    (siftUp less (values ++ [value]) values.length).Perm (value :: values) ∧
      Ordered less (siftUp less (values ++ [value]) values.length) := by
  obtain ⟨hperm, hordered⟩ := siftUpLoop_spec values.length (h.upOrdered value)
    (by rw [length_append]; exact Nat.lt_succ_self _) (Nat.le_refl _)
  exact ⟨hperm.trans (perm_append_singleton _ _), hordered⟩

theorem Ordered.downOrdered {root : T} {rest : List T} (h : Ordered less (root :: rest))
    (value : T) : DownOrdered less (value :: rest.dropLast) 0 := by
  refine ⟨fun i hi hne => ?_, fun hpos => absurd hpos (Nat.lt_irrefl 0)⟩
  obtain ⟨parent, hparent⟩ := Nat.exists_eq_succ_of_ne_zero hne
  obtain ⟨i, rfl⟩ := Nat.exists_eq_succ_of_ne_zero (Nat.pos_iff_ne_zero.mp hi)
  have hlt := parentIndex_lt hi
  have hold := h _ hi
  rw [hparent] at hold hlt ⊢
  unfold precedes at hold ⊢
  simp only [Nat.succ_eq_add_one, getElem?_cons_succ] at hold ⊢
  by_cases hin : i < rest.length - 1
  · rw [getElem?_dropLast, getElem?_dropLast, if_pos hin, if_pos (by omega)]
    exact hold
  · rw [getElem?_dropLast, if_neg hin]

theorem siftDown_spec [IsPriority less] {root : T} {rest : List T}
    (h : Ordered less (root :: rest)) (value : T) :
    (siftDown less (value :: rest.dropLast) 0).Perm (value :: rest.dropLast) ∧
      Ordered less (siftDown less (value :: rest.dropLast) 0) :=
  siftDownLoop_spec _ (h.downOrdered value) (by rw [Nat.zero_add])

end BinaryHeap

/-- The heap: its array, which is in heap order. -/
structure BinaryHeap (less : T → T → Bool) where
  values : List T
  ordered : BinaryHeap.Ordered less values

namespace BinaryHeap

variable {less : T → T → Bool}

/-- The heap a constructor call makes. -/
def empty : BinaryHeap less := ⟨[], fun _ _ => rfl⟩

section

variable [IsPriority less]

def push (heap : BinaryHeap less) (value : T) : BinaryHeap less where
  values := siftUp less (heap.values ++ [value]) heap.values.length
  ordered := (siftUp_spec heap.ordered value).2

def pop (heap : BinaryHeap less) : Option (T × BinaryHeap less) :=
  match heap.values, heap.ordered with
  | [], _ => none
  | root :: rest, ordered =>
    match rest.getLast? with
    | none => some (root, empty)
    | some last =>
      some (root, ⟨siftDown less (last :: rest.dropLast) 0, (siftDown_spec ordered last).2⟩)

theorem perm_push (heap : BinaryHeap less) (value : T) :
    (heap.push value).values.Perm (value :: heap.values) :=
  (siftUp_spec heap.ordered value).1

theorem pop_eq_none {heap : BinaryHeap less} (h : heap.pop = none) : heap.values = [] := by
  obtain ⟨values, ordered⟩ := heap
  cases values with
  | nil => rfl
  | cons root rest =>
    unfold pop at h
    dsimp only at h
    split at h <;> cases h

/-- **Pop removes one entry, and none pops before it.** -/
theorem pop_spec {heap rest : BinaryHeap less} {value : T} (h : heap.pop = some (value, rest)) :
    heap.values.Perm (value :: rest.values) ∧
      ∀ other ∈ heap.values, less other value = false := by
  obtain ⟨values, ordered⟩ := heap
  cases values with
  | nil => cases h
  | cons root tail =>
    have hfirst (other : T) (hmem : other ∈ root :: tail) : less other root = false := by
      obtain ⟨i, hi, rfl⟩ := getElem_of_mem hmem
      have hroot := ordered.root i hi
      rw [precedes, getElem?_eq_getElem hi] at hroot
      exact hroot
    unfold pop at h
    dsimp only at h
    split at h
    · next hlast =>
      cases h
      rw [getLast?_eq_none_iff] at hlast
      subst hlast
      exact ⟨.refl _, hfirst⟩
    · next last hlast =>
      cases h
      refine ⟨.cons _ ?_, hfirst⟩
      have hsplit : tail.Perm (tail.dropLast ++ [last]) :=
        .of_eq (dropLast_append_getLast? last hlast).symm
      have hfront := hsplit.trans (perm_append_singleton last tail.dropLast)
      exact hfront.trans (siftDown_spec ordered last).1.symm

end

end BinaryHeap

end Tsgit
