import Mathlib.Data.List.Nodup
import Tsgit.BinaryHeap

/-!
# Queues by Date and Arrival

`precedesByArrival` of `src/domain/commit/priority-queue.ts`, and the heap that it orders: of the
values that came and are not shown, the heap answers the newest, and of several the first to come.
-/

namespace Tsgit.ArrivalQueue

open List

/-- A value with its date and the number of its arrival. -/
structure Dated (α : Type) where
  date : ℤ
  arrival : ℕ
  value : α

variable {α : Type}

def precedesByArrival (a b : Dated α) : Bool :=
  a.date > b.date ∨ a.date = b.date ∧ a.arrival < b.arrival

theorem precedesByArrival_iff {a b : Dated α} : precedesByArrival a b = true ↔
    b.date < a.date ∨ a.date = b.date ∧ a.arrival < b.arrival := decide_eq_true_iff

instance : IsPriority (@precedesByArrival α) where
  asymm {a b} h := by
    rw [precedesByArrival_iff] at h
    rw [← Bool.not_eq_true, precedesByArrival_iff]
    omega
  trans {a b c} hab hbc := by
    rw [← Bool.not_eq_true, precedesByArrival_iff] at *
    omega

abbrev DateQueue (α : Type) := BinaryHeap (@precedesByArrival α) × ℕ

variable [DecidableEq α]

/-- What was put into a queue and is not shown, in the order in which it came. -/
def waiting (history shown : List α) : List α :=
  history.filter fun value => value ∉ shown

theorem mem_waiting {history shown : List α} {value : α} :
    value ∈ waiting history shown ↔ value ∈ history ∧ value ∉ shown := by
  rw [waiting, mem_filter, decide_eq_true_iff]

theorem waiting_append {history shown : List α} {value : α} (h : value ∉ shown) :
    waiting (history ++ [value]) shown = waiting history shown ++ [value] := by
  rw [waiting, filter_append, filter_cons_of_pos (by simpa using h), filter_nil]
  rfl

/-- What is shown waits no longer. -/
theorem waiting_shown (history shown : List α) (value : α) :
    waiting history (shown ++ [value]) = (waiting history shown).filter (· ≠ value) := by
  rw [waiting, waiting, filter_filter]
  refine filter_congr fun other _ => ?_
  simp [and_comm]

/-- What waits, each value with its arrival. -/
def arrived (history shown : List α) : List (α × ℕ) :=
  history.zipIdx.filter fun pair => pair.1 ∉ shown

def toDated (dateOf : α → ℤ) (pair : α × ℕ) : Dated α :=
  ⟨dateOf pair.1, pair.2, pair.1⟩

def Holds (dateOf : α → ℤ) (history shown : List α) (state : DateQueue α) : Prop :=
  state.1.values.Perm ((arrived history shown).map (toDated dateOf)) ∧ state.2 = history.length

/-- The newest is served, and of several the first to come. -/
def Newest (dateOf : α → ℤ) (waiting : List α) (value : α) : Prop :=
  ∃ earlier later, waiting = earlier ++ value :: later ∧
    (∀ other ∈ earlier, dateOf other < dateOf value) ∧
    ∀ other ∈ later, dateOf other ≤ dateOf value

theorem map_arrived (history shown : List α) :
    (arrived history shown).map (·.1) = waiting history shown := by
  have hmap : history.zipIdx.map (·.1) = history := zipIdx_map_fst 0 history
  rw [arrived, waiting]
  conv_rhs => rw [← hmap]
  rw [filter_map]
  rfl

theorem pairwise_arrived (history shown : List α) :
    (arrived history shown).Pairwise fun a b => a.2 < b.2 := by
  have hrange : (history.zipIdx.map (·.2)).Pairwise (· < ·) := by
    rw [zipIdx_map_snd]
    exact pairwise_lt_range'
  exact (pairwise_map.mp hrange).filter _

variable {dateOf : α → ℤ} {history shown : List α} {state : DateQueue α}

/-- A value that comes to the queue. -/
theorem Holds.put (h : Holds dateOf history shown state) {value : α} (hshown : value ∉ shown) :
    Holds dateOf (history ++ [value]) shown
      (state.1.push ⟨dateOf value, state.2, value⟩, state.2 + 1) := by
  obtain ⟨hperm, hcount⟩ := h
  refine ⟨?_, by rw [length_append, length_singleton, ← hcount]⟩
  have harrived : arrived (history ++ [value]) shown =
      arrived history shown ++ [(value, history.length)] := by
    rw [arrived, zipIdx_append, filter_append, zipIdx_singleton,
      filter_cons_of_pos (by simpa using hshown), filter_nil, Nat.zero_add]
    rfl
  rw [harrived, map_append, map_singleton, ← hcount]
  exact (BinaryHeap.perm_push state.1 _).trans
    ((hperm.cons _).trans (perm_append_singleton _ _).symm)

/-- The heap has what waits. -/
theorem Holds.values_perm (h : Holds dateOf history shown state) :
    (state.1.values.map (·.value)).Perm (waiting history shown) := by
  have hmap := h.1.map (·.value)
  rw [map_map] at hmap
  rw [← map_arrived]
  exact hmap

/-- An empty heap has shown all that came. -/
theorem Holds.get_none (h : Holds dateOf history shown state) (hnone : state.1.pop = none) :
    waiting history shown = [] := by
  have hempty := BinaryHeap.pop_eq_none hnone
  have hperm := h.1
  rw [hempty, nil_perm, map_eq_nil_iff] at hperm
  rw [← map_arrived, hperm]
  rfl

/-- **What the heap answers**: the newest that waits, and of several the first to come. -/
theorem Holds.get_some (h : Holds dateOf history shown state) (hnodup : history.Nodup)
    {entry : Dated α} {heap : BinaryHeap (@precedesByArrival α)}
    (hpop : state.1.pop = some (entry, heap)) :
    Holds dateOf history (shown ++ [entry.value]) (heap, state.2) ∧
      entry.value ∈ waiting history shown ∧ Newest dateOf (waiting history shown) entry.value := by
  obtain ⟨hperm, hcount⟩ := h
  obtain ⟨hvalues, hfirst⟩ := BinaryHeap.pop_spec hpop
  have hmem : entry ∈ (arrived history shown).map (toDated dateOf) :=
    hperm.mem_iff.mp (hvalues.mem_iff.mpr mem_cons_self)
  obtain ⟨⟨value, arrival⟩, hin, rfl⟩ := mem_map.mp hmem
  obtain ⟨front, back, hsplit⟩ := append_of_mem hin
  have hwaiting : waiting history shown = front.map (·.1) ++ value :: back.map (·.1) := by
    rw [← map_arrived, hsplit, map_append, map_cons]
  have hnew : (waiting history shown).Nodup := hnodup.filter _
  have horder := pairwise_arrived history shown
  have hkeys : ∀ other ∈ arrived history shown, ¬ (dateOf value < dateOf other.1 ∨
      dateOf other.1 = dateOf value ∧ other.2 < arrival) := by
    intro other hother
    have hle := hfirst (toDated dateOf other)
      (hperm.mem_iff.mpr (mem_map_of_mem hother))
    rw [← Bool.not_eq_true, precedesByArrival_iff] at hle
    exact hle
  rw [hsplit, pairwise_append, pairwise_cons] at horder
  rw [hsplit] at hkeys
  refine ⟨⟨?_, hcount⟩, ?_, front.map (·.1), back.map (·.1), hwaiting, ?_, ?_⟩
  · have hremoved : arrived history (shown ++ [value]) = front ++ back := by
      have hfilter : arrived history (shown ++ [value]) =
          (arrived history shown).filter fun pair => pair.1 ≠ value := by
        rw [arrived, arrived, filter_filter]
        refine filter_congr fun other _ => ?_
        simp [and_comm]
      rw [hwaiting, nodup_append, nodup_cons] at hnew
      rw [hfilter, hsplit, filter_append, filter_cons_of_neg (by simp),
        filter_eq_self.mpr, filter_eq_self.mpr]
      · intro other hother
        refine decide_eq_true fun heq => hnew.2.1.1 ?_
        exact heq ▸ mem_map_of_mem hother
      · intro other hother
        exact decide_eq_true (hnew.2.2 other.1 (mem_map_of_mem hother) value
          mem_cons_self)
    rw [hsplit, map_append, map_cons] at hperm
    change heap.values.Perm ((arrived history (shown ++ [value])).map (toDated dateOf))
    rw [hremoved, map_append]
    exact (hvalues.symm.trans (hperm.trans perm_middle)).cons_inv
  · rw [hwaiting]
    exact mem_append_right _ mem_cons_self
  · intro other hother
    obtain ⟨pair, hpair, rfl⟩ := mem_map.mp hother
    have hle := hkeys pair (mem_append_left _ hpair)
    have hlt := horder.2.2 pair hpair _ mem_cons_self
    change dateOf pair.1 < dateOf value
    dsimp only at hlt
    omega
  · intro other hother
    obtain ⟨pair, hpair, rfl⟩ := mem_map.mp hother
    have hle := hkeys pair (mem_append_right _ (mem_cons_of_mem _ hpair))
    change dateOf pair.1 ≤ dateOf value
    omega

end Tsgit.ArrivalQueue
