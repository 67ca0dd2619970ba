import Mathlib.Tactic.Linarith

/-!
# Ownership of a Lock Path

A lock path holds at most one file. A process that creates the file exclusively holds the
lock until it removes the file, and a process that crashes leaves its file behind.

`Owned creator lock holds gone` is the ownership discipline: the file of every holder is
the one at the path, and a file at the path belongs to a holder or to a process that is
gone.
-/

namespace LockPath

open Function

variable {File Pid : Type*}

/-- The ownership discipline of a lock path. -/
structure Owned (creator : File → Pid) (lock : Option File) (holds gone : Pid → Prop) : Prop where
  file_of_holder : ∀ p, holds p → ∃ file, lock = some file ∧ creator file = p
  holder_of_file : ∀ file, lock = some file → gone (creator file) ∨ holds (creator file)

section

variable {creator : File → Pid} {lock : Option File} {holds gone holds' gone' : Pid → Prop}

theorem Owned.creator_eq (h : Owned creator lock holds gone) {p : Pid} {file : File}
    (hp : holds p) (hlock : lock = some file) : creator file = p := by
  obtain ⟨file', hlock', hcreator⟩ := h.file_of_holder p hp
  rw [hlock] at hlock'
  cases hlock'
  exact hcreator

/-- At most one process holds the lock. -/
theorem Owned.unique (h : Owned creator lock holds gone) {p q : Pid} (hp : holds p)
    (hq : holds q) : p = q := by
  obtain ⟨file, hlock, hcreator⟩ := h.file_of_holder p hp
  exact hcreator.symm.trans (h.creator_eq hq hlock)

/-- Nobody holds a path without a file. -/
theorem Owned.free (h : Owned creator none holds gone) (p : Pid) : ¬holds p := by
  intro hp
  obtain ⟨file, hlock, -⟩ := h.file_of_holder p hp
  cases hlock

/-- A path without a file that nobody holds. -/
theorem Owned.empty (hfree : ∀ p, ¬holds p) : Owned creator none holds gone :=
  ⟨fun p hp => absurd hp (hfree p), fun _ hlock => nomatch hlock⟩

theorem Owned.create {file : File} (h : Owned creator none holds gone) (hnew : holds' (creator file))
    (holds_le : ∀ q, holds' q → q = creator file ∨ holds q) :
    Owned creator (some file) holds' gone' := by
  refine ⟨fun q hq => ?_, fun file' hfile' => ?_⟩
  · rcases holds_le q hq with rfl | hold
    · exact ⟨file, rfl, rfl⟩
    · exact absurd hold (h.free q)
  · cases hfile'
    exact .inr hnew

theorem Owned.keep {lock' : Option File} (h : Owned creator lock holds gone)
    (hlock : lock'.map creator = lock.map creator) (holds_le : ∀ q, holds' q → holds q)
    (le_holds : ∀ q, holds q → holds' q ∨ gone' q) (le_gone : ∀ q, gone q → gone' q) :
    Owned creator lock' holds' gone' := by
  refine ⟨fun q hq => ?_, fun file' hfile' => ?_⟩
  · obtain ⟨file, rfl, hcreator⟩ := h.file_of_holder q (holds_le q hq)
    obtain ⟨file', hfile', heq⟩ := Option.map_eq_some_iff.mp hlock
    exact ⟨file', hfile', heq.trans hcreator⟩
  · subst hfile'
    obtain ⟨file, hfile, heq⟩ := Option.map_eq_some_iff.mp hlock.symm
    rcases h.holder_of_file file hfile with hgone | hholds
    · exact .inl (heq ▸ le_gone _ hgone)
    · exact heq ▸ (le_holds _ hholds).symm

end

/-! ### Processes with a phase

The holders are the processes whose phase is a holding one, and one process at a time
changes its phase. -/

section

variable {Phase : Type*} {creator : File → Pid} {lock lock' : Option File}
  {phase : Pid → Phase} {holding gone : Phase → Prop} {p q : Pid} {next : Phase}

/-- The ownership discipline of a lock path that is held in the phases `holding`. -/
def OwnedBy (creator : File → Pid) (lock : Option File) (phase : Pid → Phase)
    (holding gone : Phase → Prop) : Prop :=
  Owned creator lock (fun p => holding (phase p)) fun p => gone (phase p)

theorem OwnedBy.exists_file (h : OwnedBy creator lock phase holding gone)
    (hp : holding (phase p)) : ∃ file, lock = some file ∧ creator file = p :=
  Owned.file_of_holder h p hp

theorem OwnedBy.unique (h : OwnedBy creator lock phase holding gone) (hp : holding (phase p))
    (hq : holding (phase q)) : p = q :=
  Owned.unique h hp hq

theorem OwnedBy.free (h : OwnedBy creator lock phase holding gone) (hlock : lock = none)
    (p : Pid) : ¬holding (phase p) := by
  subst hlock
  exact Owned.free h p

variable [DecidableEq Pid]

theorem OwnedBy.keep (h : OwnedBy creator lock phase holding gone)
    (hlock : lock'.map creator = lock.map creator) (hnew : holding next → holding (phase p))
    (hold : holding (phase p) → holding next ∨ gone next) (hgone : gone (phase p) → gone next) :
    OwnedBy creator lock' (update phase p next) holding gone := by
  refine Owned.keep h hlock (fun q hq => ?_) (fun q hq => ?_) fun q hq => ?_
  · by_cases heq : q = p
    · subst heq
      rw [update_self] at hq
      exact hnew hq
    · rwa [update_of_ne heq] at hq
  · by_cases heq : q = p
    · subst heq
      rw [update_self]
      exact hold hq
    · rw [update_of_ne heq]
      exact .inl hq
  · by_cases heq : q = p
    · subst heq
      rw [update_self]
      exact hgone hq
    · rwa [update_of_ne heq]

theorem OwnedBy.create {file : File} (h : OwnedBy creator lock phase holding gone)
    (hlock : lock = none) (hfile : creator file = p) (hnext : holding next) :
    OwnedBy creator (some file) (update phase p next) holding gone := by
  subst hlock
  refine Owned.create h ?_ fun q hq => ?_
  · rwa [hfile, update_self]
  · by_cases heq : q = p
    · exact .inl (heq.trans hfile.symm)
    · rw [update_of_ne heq] at hq
      exact .inr hq

theorem OwnedBy.remove (h : OwnedBy creator lock phase holding gone)
    (hholds : holding (phase p)) (hnext : ¬holding next) :
    OwnedBy creator none (update phase p next) holding gone := by
  refine Owned.empty fun q hq => ?_
  by_cases heq : q = p
  · rw [heq, update_self] at hq
    exact hnext hq
  · rw [update_of_ne heq] at hq
    exact heq (h.unique hq hholds)

end

end LockPath
