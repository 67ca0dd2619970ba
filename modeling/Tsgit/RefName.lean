import Tsgit.Outcome
import Tsgit.Utf16

/-!
# Ref Names

The check of ref names (`src/domain/refs/ref-validation.ts`).
-/

namespace Tsgit

def invalidRef {α : Type} (reason : String) : Except Thrown α :=
  .error (.refusal (.invalidRef reason))

def forbiddenSimple : List Char := ['~', '^', ':', '?', '*', '[', '\\', ' ']

def throwIfBadUnits : List ℕ → Except Thrown Unit
  | [] => .ok ()
  | code :: rest =>
    if code ≤ 0x1f ∨ code = 0x7f then invalidRef "ref name contains forbidden character"
    else if forbiddenSimple.any fun c => c.toNat = code then
      invalidRef "ref name contains forbidden character"
    else if (0x202a ≤ code ∧ code ≤ 0x202e) ∨ (0x2066 ≤ code ∧ code ≤ 0x2069) then
      invalidRef "ref name contains forbidden Unicode override"
    else throwIfBadUnits rest

def throwIfBadChars (name : Text) : Except Thrown Unit := throwIfBadUnits (codeUnits name)

def includes (text part : Text) : Bool := text.tails.any part.isPrefixOf

def throwIfBadComponents : List Text → Except Thrown Unit
  | [] => .ok ()
  | component :: rest =>
    if ['.'].isPrefixOf component then invalidRef "ref name component must not start with ."
    else if ['.', 'l', 'o', 'c', 'k'].isSuffixOf component then
      invalidRef "ref name component must not end with .lock"
    else throwIfBadComponents rest

def validateRefName (name : Text) : Except Thrown Text :=
  if name = [] then invalidRef "ref name must not be empty"
  else if ['/'].isPrefixOf name || ['/'].isSuffixOf name then
    invalidRef "ref name must not start or end with /"
  else if ['-'].isPrefixOf name then invalidRef "ref name must not start with -"
  else if name = ['@'] then invalidRef "ref name must not be single @"
  else if includes name ['.', '.'] then invalidRef "ref name must not contain .."
  else if includes name ['/', '/'] then invalidRef "ref name must not contain consecutive slashes"
  else if includes name ['@', '\x7b'] then invalidRef "ref name must not contain @\x7b"
  else if ['.'].isSuffixOf name then invalidRef "ref name must not end with ."
  else do
    throwIfBadChars name
    throwIfBadComponents (name.splitOn '/')
    pure name

def isSafeRefName (name : Text) : Except Thrown Bool :=
  match validateRefName name with
  | .ok _ => .ok true
  | .error (.refusal (.invalidRef _)) => .ok false
  | .error thrown => .error thrown

def refNameFrom (name : Text) : Except Thrown Text :=
  if name = [] then .error (.plain "RefName must not be empty") else .ok name

/-! ### Safe names -/

section

variable {name : Text}

theorem throwIfBadUnits_ok {codes : List ℕ} (h : throwIfBadUnits codes = .ok ()) :
    ∀ code ∈ codes, 0x1f < code := by
  induction codes with
  | nil => exact fun code hmem => absurd hmem List.not_mem_nil
  | cons first rest ih =>
    rw [throwIfBadUnits] at h
    split at h
    · cases h
    · next hcontrol =>
      split at h
      · cases h
      split at h
      · cases h
      · intro code hmem
        rcases List.mem_cons.mp hmem with rfl | hrest
        · omega
        · exact ih h code hrest

theorem validateRefName_ok {read : Text} (h : validateRefName name = .ok read) :
    name ≠ [] ∧ throwIfBadChars name = .ok () := by
  unfold validateRefName at h
  split at h
  · cases h
  · next hne =>
    refine ⟨hne, ?_⟩
    split_ifs at h
    all_goals first
      | cases h
      | exact (bind_eq_ok.mp h).elim fun _ hchars => hchars.1

theorem isSafeRefName_ok (h : isSafeRefName name = .ok true) :
    name ≠ [] ∧ throwIfBadChars name = .ok () := by
  unfold isSafeRefName at h
  split at h
  · next read hread => exact validateRefName_ok hread
  · cases h
  · cases h

theorem throwIfBadUnits_outcome (codes : List ℕ) :
    Outcome (fun thrown => ∃ reason, thrown = .refusal (.invalidRef reason)) (fun _ => True)
      (throwIfBadUnits codes) := by
  induction codes with
  | nil => exact .ok trivial
  | cons first rest ih =>
    refine .ite (fun _ => .error ⟨_, rfl⟩) fun _ => ?_
    refine .ite (fun _ => .error ⟨_, rfl⟩) fun _ => ?_
    exact .ite (fun _ => .error ⟨_, rfl⟩) fun _ => ih

theorem throwIfBadComponents_outcome (components : List Text) :
    Outcome (fun thrown => ∃ reason, thrown = .refusal (.invalidRef reason)) (fun _ => True)
      (throwIfBadComponents components) := by
  induction components with
  | nil => exact .ok trivial
  | cons first rest ih =>
    refine .ite (fun _ => .error ⟨_, rfl⟩) fun _ => ?_
    exact .ite (fun _ => .error ⟨_, rfl⟩) fun _ => ih

theorem validateRefName_outcome (name : Text) :
    Outcome (fun thrown => ∃ reason, thrown = .refusal (.invalidRef reason)) (fun _ => True)
      (validateRefName name) := by
  unfold validateRefName
  refine .ite (fun _ => .error ⟨_, rfl⟩) fun _ => ?_
  refine .ite (fun _ => .error ⟨_, rfl⟩) fun _ => ?_
  refine .ite (fun _ => .error ⟨_, rfl⟩) fun _ => ?_
  refine .ite (fun _ => .error ⟨_, rfl⟩) fun _ => ?_
  refine .ite (fun _ => .error ⟨_, rfl⟩) fun _ => ?_
  refine .ite (fun _ => .error ⟨_, rfl⟩) fun _ => ?_
  refine .ite (fun _ => .error ⟨_, rfl⟩) fun _ => ?_
  refine .ite (fun _ => .error ⟨_, rfl⟩) fun _ => ?_
  refine (throwIfBadUnits_outcome _).bind fun _ _ => ?_
  exact (throwIfBadComponents_outcome _).bind fun _ _ => .pure trivial

/-- The test of a name throws nothing. -/
theorem isSafeRefName_total (name : Text) : ∃ safe, isSafeRefName name = .ok safe := by
  unfold isSafeRefName
  rcases (validateRefName_outcome name).elim with ⟨_, hthrown, reason, rfl⟩ | ⟨_, hread, -⟩
  · exact ⟨false, by rw [hthrown]⟩
  · exact ⟨true, by rw [hread]⟩

/-- **A safe name** has no control character. -/
theorem not_mem_of_isSafeRefName (h : isSafeRefName name = .ok true) {c : Char}
    (hc : c.toNat ≤ 0x1f) : c ∉ name := by
  intro hmem
  have hunit : c.toNat ∈ codeUnits name := by
    refine List.mem_flatMap.mpr ⟨c, hmem, ?_⟩
    rw [utf16Units, if_pos (by omega)]
    exact List.mem_singleton_self _
  exact absurd (throwIfBadUnits_ok (isSafeRefName_ok h).2 _ hunit) (by omega)

end

end Tsgit
