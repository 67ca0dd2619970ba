import Tsgit.XdlCompact

/-!
# Slides of a Group

What the moves of the two walkers do to a map of changed lines. A group is a run
`List.replicate n true` in the map, so that a slide rewrites the list around it.
-/

open List

namespace Tsgit.XdlCompact

/-! ### Runs of changed lines -/

section

/-- The ids of the lines that a map leaves unchanged, in order. -/
def unchanged {ι : Type} : List Bool → List ι → List ι
  | false :: changed, id :: ids => id :: unchanged changed ids
  | true :: changed, _ :: ids => unchanged changed ids
  | _, _ => []

variable {ι : Type}

theorem unchanged_nil (changed : List Bool) : unchanged changed ([] : List ι) = [] := by
  cases changed with
  | nil => rfl
  | cons flag rest => cases flag <;> rfl

theorem unchanged_append (a b : List Bool) (ids : List ι) :
    unchanged (a ++ b) ids = unchanged a ids ++ unchanged b (ids.drop a.length) := by
  induction a generalizing ids with
  | nil => rfl
  | cons flag a ih =>
    cases ids with
    | nil => rw [unchanged_nil, unchanged_nil, drop_nil, unchanged_nil, nil_append]
    | cons id ids =>
      cases flag with
      | false => exact congrArg (id :: ·) (ih ids)
      | true => exact ih ids

theorem unchanged_replicate (n : ℕ) (b : List Bool) (ids : List ι) :
    unchanged (replicate n true ++ b) ids = unchanged b (ids.drop n) := by
  induction n generalizing ids with
  | zero => rfl
  | succ n ih =>
    cases ids with
    | nil => rw [unchanged_nil, drop_nil, unchanged_nil]
    | cons id ids => exact ih ids

theorem length_unchanged {changed : List Bool} {ids : List ι}
    (h : changed.length ≤ ids.length) : (unchanged changed ids).length = changed.count false := by
  induction changed generalizing ids with
  | nil => simp [unchanged]
  | cons flag rest ih =>
    cases ids with
    | nil => exact absurd h (Nat.not_succ_le_zero _)
    | cons id ids =>
      have hrest := ih (Nat.le_of_succ_le_succ h)
      cases flag <;> simp [unchanged, hrest]

theorem unchanged_swap {pre q : List Bool} {n : ℕ} {ids : List ι}
    (h : ids[pre.length]? = ids[pre.length + n]?) :
    unchanged (pre ++ (false :: (replicate n true ++ q))) ids =
      unchanged (pre ++ (replicate n true ++ (false :: q))) ids := by
  rw [unchanged_append, unchanged_append, unchanged_replicate]
  congr 1
  have hget : (ids.drop pre.length)[0]? = (ids.drop pre.length)[n]? := by
    rw [getElem?_drop, getElem?_drop, Nat.add_zero]
    exact h
  generalize ids.drop pre.length = rest at hget
  cases rest with
  | nil => rw [drop_nil, unchanged_nil, unchanged_nil]
  | cons id rest =>
    have hdrop : (id :: rest).drop n = id :: (id :: rest).drop (n + 1) := by
      have hsome : (id :: rest)[n]? = some id := hget.symm
      obtain ⟨hlt, heq⟩ := List.getElem?_eq_some_iff.mp hsome
      rw [drop_eq_getElem_cons hlt, heq]
    rw [hdrop, unchanged, unchanged, unchanged_replicate, drop_succ_cons]

theorem exists_down (q : List Bool) :
    ∃ m q', q = replicate m true ++ q' ∧ q'.head? ≠ some true := by
  induction q with
  | nil => exact ⟨0, [], rfl, by simp⟩
  | cons flag q ih =>
    cases flag with
    | false => exact ⟨0, false :: q, rfl, by simp⟩
    | true =>
      obtain ⟨m, q', rfl, hq'⟩ := ih
      exact ⟨m + 1, q', rfl, hq'⟩

theorem exists_up (p : List Bool) :
    ∃ p' m, p = p' ++ replicate m true ∧ p'.getLast? ≠ some true := by
  obtain ⟨m, q, hq, hhead⟩ := exists_down p.reverse
  refine ⟨q.reverse, m, ?_, by rwa [getLast?_reverse]⟩
  rw [← reverse_reverse p, hq, reverse_append, reverse_replicate]

theorem exists_eq_append_false {p : List Bool} (hlast : p.getLast? ≠ some true) (hne : p ≠ []) :
    ∃ p', p = p' ++ [false] := by
  refine ⟨p.dropLast, ?_⟩
  have hfalse : p.getLast hne = false := by
    rw [getLast?_eq_some_getLast hne] at hlast
    simpa using hlast
  rw [← hfalse, dropLast_append_getLast]

theorem scanDown_eq {pre post : List Bool} {n : ℕ} (hpost : post.head? ≠ some true) :
    scanDown (pre ++ (replicate n true ++ post)) pre.length = pre.length + n := by
  rw [scanDown, drop_left]
  congr 1
  induction n with
  | zero =>
    cases post with
    | nil => rfl
    | cons flag post =>
      cases flag with
      | false => rfl
      | true => exact absurd rfl hpost
  | succ n ih =>
    rw [replicate_succ, cons_append, takeWhile_cons_of_pos rfl, length_cons, ih]

theorem isChanged_append (pre : List Bool) (flag : Bool) (rest : List Bool) :
    isChanged (pre ++ flag :: rest) pre.length = flag := by
  simp [isChanged]

theorem scanUp_eq {p rest : List Bool} {m : ℕ} (hp : p.getLast? ≠ some true) :
    scanUp (p ++ (replicate m true ++ rest)) (p.length + m) = p.length := by
  induction m generalizing rest with
  | zero =>
    by_cases hne : p = []
    · subst hne
      rfl
    · obtain ⟨p', rfl⟩ := exists_eq_append_false hp hne
      rw [length_append, length_singleton, Nat.add_zero, scanUp, append_assoc,
        singleton_append, isChanged_append, if_neg Bool.false_ne_true]
  | succ m ih =>
    have hsplit : replicate (m + 1) true ++ rest = replicate m true ++ (true :: rest) := by
      rw [replicate_succ', append_assoc, singleton_append]
    have htrue : isChanged (p ++ (replicate m true ++ (true :: rest))) (p.length + m) =
        true := by
      have := isChanged_append (p ++ replicate m true) true rest
      rwa [length_append, length_replicate, append_assoc] at this
    rw [hsplit, ← Nat.add_assoc, scanUp, htrue, if_pos rfl, ih]

theorem cons_replicate (n : ℕ) (rest : List Bool) :
    true :: (replicate n true ++ rest) = replicate n true ++ (true :: rest) := by
  rw [← cons_append, ← replicate_succ, replicate_succ', append_assoc, singleton_append]

theorem set_length (pre rest : List Bool) (old new : Bool) :
    (pre ++ old :: rest).set pre.length new = pre ++ new :: rest := by
  simp

end

/-! ### Groups of a map -/

/-- `g` is a maximal run of changed lines below `k` unchanged ones. -/
def IsGroup (changed : List Bool) (g : Group) (k : ℕ) : Prop :=
  ∃ pre n post, changed = pre ++ (replicate n true ++ post) ∧
    g = ⟨pre.length, pre.length + n⟩ ∧ pre.count false = k ∧ pre.getLast? ≠ some true ∧
    post.head? ≠ some true

def EndsBelow (changed : List Bool) (g : Group) (k : ℕ) : Prop :=
  ∃ pre post, changed = pre ++ post ∧ g.stop = pre.length ∧ pre.count false = k ∧
    post.head? ≠ some true

/-- Both walkers are on groups below as many unchanged lines. -/
def Corresponding (s : Walkers) : Prop :=
  ∃ k, IsGroup s.changed s.g k ∧ IsGroup s.otherChanged s.go k

namespace Group

/-- The number of lines of a group. -/
def size (g : Group) : ℕ := g.stop - g.start

def below (changed : List Bool) (g : Group) : ℕ := (changed.drop g.stop).count true

end Group

section

variable {changed : List Bool} {g : Group} {k : ℕ}

theorem IsGroup.stop_le (h : IsGroup changed g k) : g.start ≤ g.stop ∧ g.stop ≤ changed.length := by
  obtain ⟨pre, n, post, rfl, rfl, -, -, -⟩ := h
  refine ⟨Nat.le_add_right _ _, ?_⟩
  rw [length_append, length_append, length_replicate]
  dsimp only
  omega

theorem IsGroup.endsBelow (h : IsGroup changed g k) : EndsBelow changed g k := by
  obtain ⟨pre, n, post, rfl, rfl, rfl, -, hpost⟩ := h
  refine ⟨pre ++ replicate n true, post, (append_assoc _ _ _).symm, ?_, ?_, hpost⟩
  · rw [length_append, length_replicate]
  · simp [count_replicate]

theorem groupInit_spec (changed : List Bool) : IsGroup changed (groupInit changed) 0 := by
  obtain ⟨n, post, rfl, hpost⟩ := exists_down changed
  refine ⟨[], n, post, rfl, ?_, rfl, by simp, hpost⟩
  have hscan := @scanDown_eq [] post n hpost
  rw [groupInit]
  exact congrArg (Group.mk 0) hscan

theorem EndsBelow.groupNext (h : EndsBelow changed g k) :
    (groupNext changed g = none ∧ changed.count false = k) ∨
      ∃ g', groupNext changed g = some g' ∧ IsGroup changed g' (k + 1) ∧
        g'.start = g.stop + 1 ∧ k < changed.count false := by
  obtain ⟨pre, post, rfl, hstop, rfl, hpost⟩ := h
  cases post with
  | nil =>
    left
    rw [append_nil, XdlCompact.groupNext, if_pos hstop]
    exact ⟨rfl, rfl⟩
  | cons flag q =>
    cases flag with
    | true => exact absurd rfl hpost
    | false =>
      right
      obtain ⟨m, q', rfl, hq'⟩ := exists_down q
      have hne : g.stop ≠ (pre ++ false :: (replicate m true ++ q')).length := by
        rw [hstop, length_append, length_cons]
        omega
      have hsplit : pre ++ false :: (replicate m true ++ q') =
          (pre ++ [false]) ++ (replicate m true ++ q') := by
        rw [append_assoc, singleton_append]
      have hlen : g.stop + 1 = (pre ++ [false]).length := by
        rw [hstop, length_append, length_singleton]
      refine ⟨⟨(pre ++ [false]).length, (pre ++ [false]).length + m⟩, ?_,
        ⟨pre ++ [false], m, q', hsplit, rfl, ?_, ?_, hq'⟩, ?_, ?_⟩
      · rw [XdlCompact.groupNext, if_neg hne, hsplit, hlen, scanDown_eq hq']
      · rw [count_append, count_singleton_self]
      · simp
      · exact hlen.symm
      · rw [count_append, count_cons_self]
        omega

theorem IsGroup.groupPrevious (h : IsGroup changed g (k + 1)) :
    ∃ g', groupPrevious changed g = pure g' ∧ IsGroup changed g' k := by
  obtain ⟨pre, n, post, rfl, rfl, hk, hpre, hpost⟩ := h
  have hne : pre ≠ [] := by
    rintro rfl
    cases hk
  obtain ⟨p, rfl⟩ := exists_eq_append_false hpre hne
  obtain ⟨p', m, rfl, hp'⟩ := exists_up p
  have hsplit : p' ++ replicate m true ++ [false] ++ (replicate n true ++ post) =
      p' ++ (replicate m true ++ (false :: (replicate n true ++ post))) := by
    simp only [append_assoc, singleton_append]
  refine ⟨⟨p'.length, p'.length + m⟩, ?_, p', m, _, hsplit, rfl, ?_, hp', by simp⟩
  · rw [XdlCompact.groupPrevious]
    simp only [length_append, length_replicate, length_singleton]
    rw [hsplit, scanUp_eq hp']
  · rw [count_append, count_append, count_singleton_self, count_replicate] at hk
    simpa using hk

/-- Moving on and back again. -/
theorem IsGroup.groupPrevious_next (h : IsGroup changed g k) {g' : Group}
    (hnext : groupNext changed g = some g') : XdlCompact.groupPrevious changed g' = pure g := by
  obtain ⟨pre, n, post, rfl, rfl, -, hpre, hpost⟩ := h
  rw [XdlCompact.groupNext] at hnext
  split at hnext
  · cases hnext
  · next hne =>
    obtain rfl := Option.some.inj hnext
    rw [XdlCompact.groupPrevious]
    dsimp only
    rw [scanUp_eq hpre]

end

/-! ### Slides -/

section

variable {ι : Type} [DecidableEq ι] {ids : List ι} {changed changed' : List Bool} {g g' : Group}
  {k : ℕ}

/-- What a slide keeps of a map: the lines left unchanged, and how many flags are set. -/
structure Keeps (ids : List ι) (changed changed' : List Bool) : Prop where
  same : unchanged changed' ids = unchanged changed ids
  count : changed'.count false = changed.count false
  length : changed'.length = changed.length

omit [DecidableEq ι] in
theorem Keeps.refl (changed : List Bool) : Keeps ids changed changed := ⟨rfl, rfl, rfl⟩

omit [DecidableEq ι] in
theorem Keeps.trans {a b c : List Bool} (hab : Keeps ids a b) (hbc : Keeps ids b c) :
    Keeps ids a c :=
  ⟨hbc.same.trans hab.same, hbc.count.trans hab.count, hbc.length.trans hab.length⟩

omit [DecidableEq ι] in
/-- A run of changed lines and the unchanged line above it, in either order. -/
theorem Keeps.swap {pre q : List Bool} {n : ℕ} (h : ids[pre.length]? = ids[pre.length + n]?) :
    Keeps ids (pre ++ (false :: (replicate n true ++ q)))
      (pre ++ (replicate n true ++ (false :: q))) where
  same := (unchanged_swap h).symm
  count := by simp [count_append, count_replicate]
  length := by simp; omega

omit [DecidableEq ι] in
theorem Keeps.symm (h : Keeps ids changed changed') : Keeps ids changed' changed :=
  ⟨h.same.symm, h.count.symm, h.length.symm⟩

theorem groupSlideUp_eq {p post : List Bool} {n : ℕ} :
    groupSlideUp ids (p ++ (false :: (replicate (n + 1) true ++ post)))
        ⟨p.length + 1, p.length + 1 + (n + 1)⟩ =
      if ids[p.length]? ≠ ids[p.length + (n + 1)]? then none
      else some (p ++ (replicate (n + 1) true ++ (false :: post)),
        ⟨scanUp (p ++ (replicate (n + 1) true ++ (false :: post))) p.length,
          p.length + (n + 1)⟩) := by
  have hset : ((p ++ (false :: (replicate (n + 1) true ++ post))).set p.length true).set
      (p.length + (n + 1)) false = p ++ (replicate (n + 1) true ++ (false :: post)) := by
    have h := set_length (p ++ replicate (n + 1) true) post true false
    rw [length_append, length_replicate, append_assoc, append_assoc] at h
    rw [set_length, cons_replicate, h]
  have hstop : p.length + 1 + (n + 1) - 1 = p.length + (n + 1) := by omega
  rw [groupSlideUp]
  dsimp only
  rw [Nat.add_sub_cancel, hstop, hset]
  simp

theorem groupSlideDown_eq {pre q : List Bool} {n : ℕ} :
    groupSlideDown ids (pre ++ (replicate (n + 1) true ++ (false :: q)))
        ⟨pre.length, pre.length + (n + 1)⟩ =
      if ids[pre.length]? ≠ ids[pre.length + (n + 1)]? then none
      else some (pre ++ (false :: (replicate (n + 1) true ++ q)), ⟨pre.length + 1,
          scanDown (pre ++ (false :: (replicate (n + 1) true ++ q)))
            (pre.length + (n + 1) + 1)⟩) := by
  have hset : ((pre ++ (replicate (n + 1) true ++ (false :: q))).set pre.length false).set
      (pre.length + (n + 1)) true = pre ++ (false :: (replicate (n + 1) true ++ q)) := by
    have h := set_length (pre ++ false :: replicate n true) q false true
    rw [length_append, length_cons, length_replicate, append_assoc,
      append_assoc, cons_append, cons_append] at h
    rw [replicate_succ, cons_append, set_length, h, ← cons_replicate, cons_append]
  have hlt : ¬(pre ++ (replicate (n + 1) true ++ (false :: q))).length ≤ pre.length + (n + 1) := by
    simp only [length_append, length_replicate, length_cons]
    omega
  rw [groupSlideDown]
  dsimp only
  rw [hset]
  simp only [hlt, false_or]

omit [DecidableEq ι] in
theorem drop_group (pre post : List Bool) (n : ℕ) :
    (pre ++ (replicate n true ++ post)).drop (pre.length + n) = post := by
  rw [← drop_drop, drop_left]
  have h := @drop_left _ (replicate n true) post
  rwa [length_replicate] at h

omit [DecidableEq ι] in
theorem IsGroup.below_le (h : IsGroup changed g k) :
    g.below changed ≤ (changed.drop g.start).count true := by
  obtain ⟨pre, n, post, rfl, rfl, -, -, -⟩ := h
  rw [Group.below, drop_group, drop_left, count_append]
  exact Nat.le_add_left _ _

omit [DecidableEq ι] in
theorem IsGroup.below_lt (h : IsGroup changed g k) (hsome : g.start < g.stop) :
    g.below changed < (changed.drop g.start).count true := by
  obtain ⟨pre, n, post, rfl, rfl, -, -, -⟩ := h
  dsimp only at hsome
  rw [Group.below, drop_group, drop_left, count_append, count_replicate_self]
  omega

/-- **A slide up**: the group keeps its lines, or merges with the one above. -/
theorem IsGroup.slideUp (h : IsGroup changed g k) (hsome : g.start < g.stop)
    (hslide : groupSlideUp ids changed g = some (changed', g')) :
    ∃ j, k = j + 1 ∧ IsGroup changed' g' j ∧ Keeps ids changed changed' ∧
      g'.start < g.start ∧ g'.stop + 1 = g.stop ∧ g.size ≤ g'.size ∧
      g'.below changed' ≤ g.below changed := by
  obtain ⟨pre, n, post, rfl, rfl, rfl, hpre, hpost⟩ := h
  dsimp only at hsome
  obtain ⟨n, rfl⟩ : ∃ n', n = n' + 1 := ⟨n - 1, by omega⟩
  have hne : pre ≠ [] := by
    rintro rfl
    simp [groupSlideUp] at hslide
  obtain ⟨p, rfl⟩ := exists_eq_append_false hpre hne
  rw [append_assoc, singleton_append, length_append, length_singleton, groupSlideUp_eq] at hslide
  split at hslide
  · cases hslide
  · next hids =>
    obtain ⟨rfl, rfl⟩ := Prod.mk.inj (Option.some.inj hslide)
    rw [append_assoc, singleton_append]
    have hkeeps := Keeps.swap (q := post) (not_not.mp hids)
    obtain ⟨p', m, rfl, hp'⟩ := exists_up p
    have hsplit : p' ++ replicate m true ++
        (replicate (n + 1) true ++ (false :: post)) =
        p' ++ (replicate m true ++ (replicate (n + 1) true ++ (false :: post))) :=
      append_assoc _ _ _
    have hscan : scanUp (p' ++ replicate m true ++
        (replicate (n + 1) true ++ (false :: post))) (p' ++ replicate m true).length =
        p'.length := by
      rw [hsplit, length_append, length_replicate, scanUp_eq hp']
    refine ⟨p'.count false, ?_, ⟨p', m + (n + 1), false :: post, ?_, ?_, rfl, hp', by simp⟩,
      hkeeps, ?_, ?_, ?_, ?_⟩
    · simp [count_append, count_replicate]
    · rw [hsplit, ← append_assoc (replicate m true), replicate_append_replicate]
    · rw [hscan, length_append, length_replicate, Nat.add_assoc]
    · rw [hscan]
      simp only [length_append, length_singleton]
      omega
    · simp only [length_append, length_singleton]
      omega
    · rw [Group.size, Group.size, hscan]
      simp only [length_append, length_replicate, length_singleton]
      omega
    · have hdrop := drop_group (p' ++ replicate m true ++ [false]) post (n + 1)
      rw [append_assoc _ [false], singleton_append] at hdrop
      rw [Group.below, Group.below, drop_group, hdrop, count_cons_of_ne (by simp)]

theorem IsGroup.slideDown (h : IsGroup changed g k) (hsome : g.start < g.stop)
    (hslide : groupSlideDown ids changed g = some (changed', g')) :
    IsGroup changed' g' (k + 1) ∧ Keeps ids changed changed' ∧ k < changed.count false ∧
      g.stop < g'.stop ∧ g.size ≤ g'.size ∧ g'.below changed' ≤ g.below changed ∧
      (g'.size = g.size → groupSlideUp ids changed' g' = some (changed, g)) := by
  obtain ⟨pre, n, post, rfl, rfl, rfl, hpre, hpost⟩ := h
  dsimp only at hsome
  obtain ⟨n, rfl⟩ : ∃ n', n = n' + 1 := ⟨n - 1, by omega⟩
  cases post with
  | nil => simp [groupSlideDown] at hslide
  | cons flag q =>
    cases flag with
    | true => exact absurd rfl hpost
    | false =>
      rw [groupSlideDown_eq] at hslide
      split at hslide
      · cases hslide
      · next hids =>
        obtain ⟨rfl, rfl⟩ := Prod.mk.inj (Option.some.inj hslide)
        obtain ⟨m, q', rfl, hq'⟩ := exists_down q
        have hsplit : pre ++ (false :: (replicate (n + 1) true ++
            (replicate m true ++ q'))) =
            (pre ++ [false]) ++ (replicate (n + 1 + m) true ++ q') := by
          rw [← append_assoc (replicate (n + 1) true),
            replicate_append_replicate, append_assoc pre, singleton_append]
        have hscan : scanDown (pre ++ (false :: (replicate (n + 1) true ++
            (replicate m true ++ q')))) (pre.length + (n + 1) + 1) =
            pre.length + 1 + (n + 1 + m) := by
          have hat := @scanDown_eq (pre ++ false :: replicate (n + 1) true) q' m hq'
          rw [length_append, length_cons, length_replicate,
            append_assoc, cons_append, ← Nat.add_assoc] at hat
          rw [hat]
          omega
        rw [hscan]
        have hkeeps := (Keeps.swap (q := replicate m true ++ q') (not_not.mp hids)).symm
        refine ⟨⟨pre ++ [false], n + 1 + m, q', hsplit, ?_, ?_, by simp, hq'⟩, hkeeps, ?_,
          ?_, ?_, ?_, fun hsize => ?_⟩
        · simp
        · simp [count_append]
        · simp only [count_append, count_cons_self]
          omega
        · dsimp only
          omega
        · simp only [Group.size]
          omega
        · have hdrop := drop_group (pre ++ [false]) q' (n + 1 + m)
          rw [← hsplit, length_append, length_singleton] at hdrop
          rw [Group.below, Group.below, drop_group, hdrop, count_cons_of_ne (by simp),
            count_append]
          exact Nat.le_add_left _ _
        simp only [Group.size] at hsize
        obtain rfl : m = 0 := by omega
        rw [replicate_zero, nil_append, Nat.add_zero, groupSlideUp_eq, if_neg hids]
        have hup : scanUp (pre ++ (replicate (n + 1) true ++ (false :: q')))
            pre.length = pre.length := scanUp_eq (m := 0) hpre
        rw [hup]

end

end Tsgit.XdlCompact
