import Mathlib.Tactic.Linarith

/-!
# Finite Dictionaries

A dictionary is a lookup together with a list of keys that covers it, so that it can be
read like a function and still be walked. Two dictionaries are compared by their lookups.
-/

/-- A finite dictionary. -/
structure Dict (κ α : Type*) where
  keys : List κ
  get : κ → Option α
  covered : ∀ k, get k ≠ none → k ∈ keys

namespace Dict

variable {κ α β : Type*}

/-- The dictionary without entries. -/
def empty : Dict κ α := ⟨[], fun _ => none, fun _ h => absurd rfl h⟩

/-- Whether no key has an entry. -/
def isEmpty (d : Dict κ α) : Bool := d.keys.all fun k => (d.get k).isNone

/-- Keeps and changes entries. -/
def filterMap (f : κ → α → Option β) (d : Dict κ α) : Dict κ β where
  keys := d.keys
  get k := (d.get k).bind (f k)
  covered k h := d.covered k fun hnone => h (by rw [hnone, Option.bind_none])

def orElse (d e : Dict κ α) : Dict κ α where
  keys := d.keys ++ e.keys
  get k := (d.get k).or (e.get k)
  covered k h := by
    rw [List.mem_append]
    by_cases hd : d.get k = none
    · exact .inr (e.covered k fun hnone => h (by rw [hd, hnone, Option.or_none]))
    · exact .inl (d.covered k hd)

section

variable [DecidableEq κ]

/-- One entry more, or another one at its key. -/
def insert (d : Dict κ α) (k : κ) (a : α) : Dict κ α where
  keys := k :: d.keys
  get := Function.update d.get k (some a)
  covered k' h := by
    by_cases heq : k' = k
    · exact heq ▸ List.mem_cons_self
    · rw [Function.update_of_ne heq] at h
      exact List.mem_cons_of_mem _ (d.covered k' h)

/-- No entry at the key. -/
def erase (d : Dict κ α) (k : κ) : Dict κ α where
  keys := d.keys
  get := Function.update d.get k none
  covered k' h := by
    by_cases heq : k' = k
    · rw [heq, Function.update_self] at h
      exact absurd rfl h
    · rw [Function.update_of_ne heq] at h
      exact d.covered k' h

@[simp] theorem get_insert_self (d : Dict κ α) (k : κ) (a : α) :
    (d.insert k a).get k = some a := Function.update_self ..

theorem get_insert_of_ne (d : Dict κ α) {k k' : κ} (a : α) (h : k' ≠ k) :
    (d.insert k a).get k' = d.get k' := Function.update_of_ne h ..

@[simp] theorem get_erase_self (d : Dict κ α) (k : κ) : (d.erase k).get k = none :=
  Function.update_self ..

theorem get_erase_of_ne (d : Dict κ α) {k k' : κ} (h : k' ≠ k) :
    (d.erase k).get k' = d.get k' := Function.update_of_ne h ..

end

@[simp] theorem get_empty (k : κ) : (empty : Dict κ α).get k = none := rfl

@[simp] theorem get_filterMap (f : κ → α → Option β) (d : Dict κ α) (k : κ) :
    (d.filterMap f).get k = (d.get k).bind (f k) := rfl

@[simp] theorem get_orElse (d e : Dict κ α) (k : κ) :
    (d.orElse e).get k = (d.get k).or (e.get k) := rfl

/-- Keys taken once each. -/
theorem nodup_eraseDups [DecidableEq κ] (ks : List κ) : ks.eraseDups.Nodup := by
  induction hn : ks.length using Nat.strongRecOn generalizing ks with
  | ind n ih =>
    cases ks with
    | nil => exact List.nodup_nil
    | cons k rest =>
      rw [List.eraseDups_cons, List.nodup_cons, List.mem_eraseDups, List.mem_filter]
      refine ⟨fun h => by simp at h, ih _ ?_ _ rfl⟩
      rw [← hn, List.length_cons]
      exact Nat.lt_succ_of_le (List.length_filter_le _ rest)

end Dict
