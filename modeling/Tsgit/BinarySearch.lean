import Tsgit.Loop

/-!
# Binary Search

Two searches of a range, as loops that halve it: `search` for a place that compares equal, and
`partitionPoint` for the place where a property ends. A comparison that is `none` is one that
came to no number: it is neither below nor above.

The midpoint is taken with an unsigned 32-bit shift: no place beyond `2 ^ 31` is ever found.
-/

namespace BinarySearch

open Run

variable {ε : Type}

def midpoint (low high : ℕ) : ℕ := (low + high) % 2 ^ 32 / 2

variable {high low : ℕ}

theorem midpoint_bounds (hlt : low < high) (hhigh : high ≤ 2 ^ 31) :
    low ≤ midpoint low high ∧ midpoint low high < high := by
  unfold midpoint
  omega

/-- One turn of the search in `[low, high)`. -/
def searchTurn (cmp : ℕ → Option ℤ) (range : ℕ × ℕ) : Run ε (Turn (ℕ × ℕ) (Option ℕ)) :=
  if range.1 < range.2 then
    let mid := midpoint range.1 range.2
    match cmp mid with
    | none => pure (.stop (some mid))
    | some order =>
      if order < 0 then pure (.again (mid + 1, range.2))
      else if order > 0 then pure (.again (range.1, mid))
      else pure (.stop (some mid))
  else pure (.stop none)

/-- A place of `[low, high)` that compares equal. -/
def search (cmp : ℕ → Option ℤ) (fuel low high : ℕ) : Run ε (Option ℕ) :=
  loop (searchTurn cmp) fuel (low, high)

/-- One turn of the partition of `[low, high)`. -/
def partitionTurn (before : ℕ → Bool) (range : ℕ × ℕ) : Run ε (Turn (ℕ × ℕ) ℕ) :=
  if range.1 < range.2 then
    let mid := midpoint range.1 range.2
    if before mid then pure (.again (mid + 1, range.2)) else pure (.again (range.1, mid))
  else pure (.stop range.1)

/-- The first place of `[low, high)` that is not `before`, or its end. -/
def partitionPoint (before : ℕ → Bool) (fuel low high : ℕ) : Run ε ℕ :=
  loop (partitionTurn before) fuel (low, high)

/-- What a search of `[low, high)` finds. -/
def Found (order : ℕ → ℤ) (low high : ℕ) : Option ℕ → Prop
  | some i => low ≤ i ∧ i < high ∧ order i = 0
  | none => ∀ i, low ≤ i → i < high → order i ≠ 0

variable {cmp : ℕ → Option ℤ}

/-- **A search in an ordered range** finds a place that compares equal, if there is one. -/
theorem search_spec {order : ℕ → ℤ} {fuel : ℕ}
    (hcmp : ∀ i, low ≤ i → i < high → cmp i = some (order i))
    (hbelow : ∀ i j, low ≤ i → i ≤ j → j < high → order j < 0 → order i < 0)
    (habove : ∀ i j, low ≤ i → i ≤ j → j < high → 0 < order i → 0 < order j)
    (hhigh : high ≤ 2 ^ 31) (hfuel : high - low < fuel) :
    Returns (search cmp fuel low high : Run ε (Option ℕ)) (Found order low high) := by
  let inv (range : ℕ × ℕ) : Prop := low ≤ range.1 ∧ range.2 ≤ high ∧
    (∀ i, low ≤ i → i < range.1 → order i < 0) ∧ ∀ i, range.2 ≤ i → i < high → 0 < order i
  have hturn : ∀ range, inv range → Returns (searchTurn cmp range : Run ε _)
      (Turn.Meets (Found order low high) fun next =>
        inv next ∧ next.2 - next.1 < range.2 - range.1) := by
    rintro ⟨l, h⟩ ⟨hl, hh, hleft, hright⟩
    dsimp only at hl hh hleft hright
    unfold searchTurn
    dsimp only
    by_cases hlt : l < h
    · obtain ⟨hmid, hmid'⟩ := midpoint_bounds hlt (hh.trans hhigh)
      rw [if_pos hlt, hcmp _ (hl.trans hmid) (by omega)]
      dsimp only
      rcases lt_trichotomy (order (midpoint l h)) 0 with hneg | hzero | hpos
      · rw [if_pos hneg]
        refine .pure ⟨⟨by dsimp only; omega, hh, fun i hi hi' => ?_, hright⟩,
          by dsimp only; omega⟩
        exact hbelow i (midpoint l h) hi (Nat.le_of_lt_succ hi') (by omega) hneg
      · rw [if_neg (by omega), if_neg (by omega)]
        exact .pure ⟨hl.trans hmid, by omega, hzero⟩
      · rw [if_neg (by omega), if_pos hpos]
        refine .pure ⟨⟨hl, by dsimp only; omega, hleft, fun i hi hi' => ?_⟩, by dsimp only; omega⟩
        exact habove (midpoint l h) i (hl.trans hmid) hi hi' hpos
    · rw [if_neg hlt]
      refine .pure fun i hi hi' => ?_
      rcases Nat.lt_or_ge i l with hbefore | hbehind
      · exact (hleft i hi hbefore).ne
      · exact (hright i (by omega) hi').ne'
  have hstart : inv (low, high) :=
    ⟨le_rfl, le_rfl, fun i hi hi' => by dsimp only at hi'; omega,
      fun i hi hi' => by dsimp only at hi; omega⟩
  have hloop := loop_spec inv (fun range => range.2 - range.1) hturn fuel (low, high) hstart hfuel
  exact hloop

/-- Where a partition of `[low, high)` ends. -/
structure Point (before : ℕ → Bool) (low high point : ℕ) : Prop where
  low_le : low ≤ point
  le_high : point ≤ high
  before_left : ∀ i, low ≤ i → i < point → before i = true
  not_before_right : ∀ i, point ≤ i → i < high → before i = false

theorem partitionPoint_spec {before : ℕ → Bool} {fuel : ℕ}
    (hmono : ∀ i j, low ≤ i → i ≤ j → j < high → before j = true → before i = true)
    (hle : low ≤ high) (hhigh : high ≤ 2 ^ 31) (hfuel : high - low < fuel) :
    Returns (partitionPoint before fuel low high : Run ε ℕ) (Point before low high) := by
  let inv (range : ℕ × ℕ) : Prop := low ≤ range.1 ∧ range.1 ≤ range.2 ∧ range.2 ≤ high ∧
    (∀ i, low ≤ i → i < range.1 → before i = true) ∧
    ∀ i, range.2 ≤ i → i < high → before i = false
  have hturn : ∀ range, inv range → Returns (partitionTurn before range : Run ε _)
      (Turn.Meets (Point before low high) fun next =>
        inv next ∧ next.2 - next.1 < range.2 - range.1) := by
    rintro ⟨l, h⟩ ⟨hl, hlh, hh, hleft, hright⟩
    dsimp only at hl hlh hh hleft hright
    unfold partitionTurn
    dsimp only
    by_cases hlt : l < h
    · obtain ⟨hmid, hmid'⟩ := midpoint_bounds hlt (hh.trans hhigh)
      rw [if_pos hlt]
      by_cases hbefore : before (midpoint l h) = true
      · rw [if_pos hbefore]
        refine .pure ⟨⟨by dsimp only; omega, by dsimp only; omega, hh, fun i hi hi' => ?_, hright⟩,
          by dsimp only; omega⟩
        exact hmono i (midpoint l h) hi (Nat.le_of_lt_succ hi') (by omega) hbefore
      · rw [if_neg hbefore]
        refine .pure ⟨⟨hl, hmid, by dsimp only; omega, hleft, fun i hi hi' => ?_⟩,
          by dsimp only; omega⟩
        by_contra hi''
        exact hbefore (hmono (midpoint l h) i (hl.trans hmid) hi hi' (by simpa using hi''))
    · rw [if_neg hlt]
      exact .pure ⟨hl, hlh.trans hh, hleft, fun i hi hi' => hright i (by omega) hi'⟩
  have hstart : inv (low, high) :=
    ⟨le_rfl, hle, le_rfl, fun i hi hi' => by dsimp only at hi'; omega,
      fun i hi hi' => by dsimp only at hi; omega⟩
  have hloop := loop_spec inv (fun range => range.2 - range.1) hturn fuel (low, high) hstart hfuel
  exact hloop

theorem midpoint_lt (hlt : low < high) : midpoint low high < high := by
  unfold midpoint
  have := Nat.mod_le (low + high) (2 ^ 32)
  omega

theorem searchTurn_cases (cmp : ℕ → Option ℤ) (hlt : low < high) :
    ∃ next, (searchTurn cmp (low, high) : Run ε _) = pure next ∧
      (next = .stop (some (midpoint low high)) ∧
          (∀ order, cmp (midpoint low high) = some order → order = 0) ∨
        next = .again (midpoint low high + 1, high) ∨
        next = .again (low, midpoint low high)) := by
  unfold searchTurn
  dsimp only
  rw [if_pos hlt]
  cases hcmp : cmp (midpoint low high) with
  | none => exact ⟨_, rfl, .inl ⟨rfl, fun order horder => by cases horder⟩⟩
  | some order =>
    dsimp only
    rcases lt_trichotomy order 0 with hneg | rfl | hpos
    · rw [if_pos hneg]
      exact ⟨_, rfl, .inr (.inl rfl)⟩
    · rw [if_neg (lt_irrefl 0), if_neg (lt_irrefl 0)]
      exact ⟨_, rfl, .inl ⟨rfl, fun order horder => (Option.some.inj horder).symm⟩⟩
    · rw [if_neg (by omega), if_pos hpos]
      exact ⟨_, rfl, .inr (.inr rfl)⟩

theorem search_found (fuel : ℕ) {result : Except ε (Option ℕ)}
    (h : search cmp fuel low high = (some result : Option (Except ε (Option ℕ)))) :
    ∃ answer, result = .ok answer ∧ ∀ found, answer = some found →
      found < high ∧ found < 2 ^ 31 ∧ ∀ order, cmp found = some order → order = 0 := by
  induction fuel generalizing low high with
  | zero => cases h
  | succ fuel ih =>
    unfold search at h ih
    rw [loop] at h
    by_cases hlt : low < high
    · have hmid : midpoint low high < 2 ^ 31 := by
        unfold midpoint
        omega
      obtain ⟨next, hturn, hnext⟩ := searchTurn_cases (ε := ε) cmp hlt
      rw [hturn, pure_bind] at h
      rcases hnext with ⟨rfl, hzero⟩ | rfl | rfl
      · cases h
        refine ⟨_, rfl, fun found hfound => ?_⟩
        cases hfound
        exact ⟨midpoint_lt hlt, hmid, hzero⟩
      · exact ih h
      · obtain ⟨answer, hok, hanswer⟩ := ih h
        refine ⟨answer, hok, fun found hfound => ?_⟩
        obtain ⟨hbelow, hrest⟩ := hanswer found hfound
        exact ⟨hbelow.trans (midpoint_lt hlt), hrest⟩
    · have hturn : (searchTurn cmp (low, high) : Run ε _) = pure (.stop none) := if_neg hlt
      rw [hturn, pure_bind] at h
      cases h
      exact ⟨none, rfl, fun found hfound => by cases hfound⟩

variable {cmp' : ℕ → Option ℤ}

theorem search_congr (fuel : ℕ) (h : ∀ i < high, cmp i = cmp' i) :
    (search cmp fuel low high : Run ε (Option ℕ)) = search cmp' fuel low high := by
  induction fuel generalizing low high with
  | zero => rfl
  | succ fuel ih =>
    unfold search at ih ⊢
    rw [loop, loop]
    by_cases hlt : low < high
    · have hmid := midpoint_lt hlt
      have hsame : (searchTurn cmp (low, high) : Run ε _) = searchTurn cmp' (low, high) := by
        unfold searchTurn
        dsimp only
        rw [h _ hmid]
      obtain ⟨next, hturn, hnext⟩ := searchTurn_cases (ε := ε) cmp' hlt
      rw [hsame, hturn, pure_bind, pure_bind]
      rcases hnext with ⟨rfl, -⟩ | rfl | rfl
      · rfl
      · exact ih h
      · exact ih fun i hi => h i (hi.trans hmid)
    · have hturn : ∀ cmp, (searchTurn cmp (low, high) : Run ε _) = pure (.stop none) :=
        fun _ => if_neg hlt
      rw [hturn, hturn, pure_bind, pure_bind]

/-- A place where a search stops. -/
def Hits (order : Option ℤ) : Prop := ∀ value, order = some value → value = 0

theorem searchTurn_hit (hlt : low < high) (hhit : Hits (cmp (midpoint low high))) :
    (searchTurn cmp (low, high) : Run ε _) = pure (.stop (some (midpoint low high))) := by
  unfold searchTurn
  dsimp only
  rw [if_pos hlt]
  cases hcmp : cmp (midpoint low high) with
  | none => rfl
  | some order =>
    obtain rfl := hhit order hcmp
    rfl

theorem searchTurn_miss {value : ℤ} (hlt : low < high)
    (hcmp : cmp (midpoint low high) = some value) (hne : value ≠ 0) :
    (searchTurn cmp (low, high) : Run ε _) = pure (.again
      (if value < 0 then (midpoint low high + 1, high) else (low, midpoint low high))) := by
  unfold searchTurn
  dsimp only
  rw [if_pos hlt, hcmp]
  dsimp only
  rcases lt_or_gt_of_ne hne with hneg | hpos
  · rw [if_pos hneg, if_pos hneg]
  · rw [if_neg (by omega), if_pos hpos, if_neg (by omega)]

theorem search_empty (cmp : ℕ → Option ℤ) (hle : high ≤ low) (fuel : ℕ) :
    search cmp (fuel + 1) low high = (pure none : Run ε (Option ℕ)) := by
  have hturn : (searchTurn cmp (low, high) : Run ε _) = pure (.stop none) :=
    if_neg (Nat.not_lt.mpr hle)
  rw [search, loop, hturn, pure_bind]

theorem search_stop (hlt : low < high) (hhit : Hits (cmp (midpoint low high))) (fuel : ℕ) :
    search cmp (fuel + 1) low high = (pure (some (midpoint low high)) : Run ε (Option ℕ)) := by
  rw [search, loop, searchTurn_hit hlt hhit, pure_bind]

theorem search_again {value : ℤ} (hlt : low < high)
    (hcmp : cmp (midpoint low high) = some value) (hne : value ≠ 0) (fuel : ℕ) :
    search cmp (fuel + 1) low high = (if value < 0 then
      search cmp fuel (midpoint low high + 1) high else search cmp fuel low (midpoint low high) :
        Run ε (Option ℕ)) := by
  rw [search, loop, searchTurn_miss hlt hcmp hne, pure_bind]
  dsimp only
  by_cases hneg : value < 0
  · rw [if_pos hneg, if_pos hneg]
    rfl
  · rw [if_neg hneg, if_neg hneg]
    rfl

theorem search_follows
    (h : ∀ i value, value ≠ 0 → cmp i = some value → cmp' i = some value) (fuel : ℕ) :
    search cmp' fuel low high = (search cmp fuel low high : Run ε (Option ℕ)) ∨
      ∃ p, search cmp fuel low high = (pure (some p) : Run ε (Option ℕ)) ∧ Hits (cmp p) ∧
        ¬ Hits (cmp' p) := by
  induction fuel generalizing low high with
  | zero => exact .inl rfl
  | succ fuel ih =>
    rcases Nat.lt_or_ge low high with hlt | hle
    · by_cases hhit : Hits (cmp (midpoint low high))
      · by_cases hhit' : Hits (cmp' (midpoint low high))
        · exact .inl ((search_stop hlt hhit' fuel).trans (search_stop hlt hhit fuel).symm)
        · exact .inr ⟨_, search_stop hlt hhit fuel, hhit, hhit'⟩
      obtain ⟨value, hmiss⟩ := not_forall.mp hhit
      obtain ⟨hcmp, hne⟩ := Classical.not_imp.mp hmiss
      rw [search_again hlt hcmp hne, search_again hlt (h _ _ hne hcmp) hne]
      split
      · exact ih
      · exact ih
    · exact .inl ((search_empty cmp' hle fuel).trans (search_empty cmp hle fuel).symm)

theorem search_blind (h : ∀ i, cmp' i = cmp i ∨ cmp' i = none)
    (fuel : ℕ) {p : ℕ} (hfound : search cmp fuel low high = (pure (some p) : Run ε (Option ℕ))) :
    ∃ p', search cmp' fuel low high = (pure (some p') : Run ε (Option ℕ)) := by
  induction fuel generalizing low high with
  | zero => cases hfound
  | succ fuel ih =>
    rcases Nat.lt_or_ge low high with hlt | hle
    · by_cases hhit' : Hits (cmp' (midpoint low high))
      · exact ⟨_, search_stop hlt hhit' fuel⟩
      obtain ⟨value, hmiss⟩ := not_forall.mp hhit'
      obtain ⟨hcmp', hne⟩ := Classical.not_imp.mp hmiss
      have hcmp : cmp (midpoint low high) = some value := by
        rcases h (midpoint low high) with hsame | hnone
        · rw [← hsame, hcmp']
        · rw [hnone] at hcmp'
          cases hcmp'
      rw [search_again hlt hcmp hne] at hfound
      rw [search_again hlt hcmp' hne]
      split at hfound
      · next hneg =>
        rw [if_pos hneg]
        exact ih hfound
      · next hneg =>
        rw [if_neg hneg]
        exact ih hfound
    · rw [search_empty cmp hle] at hfound
      cases hfound

theorem search_halts (cmp : ℕ → Option ℤ) (hhigh : high ≤ 2 ^ 31) :
    Halts (fun fuel => (search cmp fuel low high : Run ε (Option ℕ))) := by
  have hturn : ∀ range : ℕ × ℕ, range.2 ≤ 2 ^ 31 → Returns (searchTurn cmp range : Run ε _)
      (Turn.Meets (fun _ => True) fun next =>
        next.2 ≤ 2 ^ 31 ∧ next.2 - next.1 < range.2 - range.1) := by
    rintro ⟨l, h⟩ hh
    dsimp only at hh
    by_cases hlt : l < h
    · obtain ⟨hmid, hmid'⟩ := midpoint_bounds hlt hh
      obtain ⟨next, hrun, hnext⟩ := searchTurn_cases (ε := ε) cmp hlt
      refine ⟨next, hrun, ?_⟩
      rcases hnext with ⟨rfl, -⟩ | rfl | rfl
      · trivial
      · exact ⟨hh, by dsimp only; omega⟩
      · exact ⟨by dsimp only; omega, by dsimp only; omega⟩
    · exact ⟨_, if_neg hlt, trivial⟩
  exact loop_halts (fun range : ℕ × ℕ => range.2 ≤ 2 ^ 31) (fun range => range.2 - range.1) hturn
    hhigh

theorem partitionTurn_cases (before : ℕ → Bool) (hlt : low < high) :
    ∃ next, (partitionTurn before (low, high) : Run ε _) = pure next ∧
      (next = .again (midpoint low high + 1, high) ∨ next = .again (low, midpoint low high)) := by
  unfold partitionTurn
  dsimp only
  rw [if_pos hlt]
  by_cases hbefore : before (midpoint low high) = true
  · rw [if_pos hbefore]
    exact ⟨_, rfl, .inl rfl⟩
  · rw [if_neg hbefore]
    exact ⟨_, rfl, .inr rfl⟩

theorem partitionPoint_halts (before : ℕ → Bool) (hhigh : high ≤ 2 ^ 31) :
    Halts (fun fuel => (partitionPoint before fuel low high : Run ε ℕ)) := by
  have hturn : ∀ range : ℕ × ℕ, range.2 ≤ 2 ^ 31 → Returns (partitionTurn before range : Run ε _)
      (Turn.Meets (fun _ => True) fun next =>
        next.2 ≤ 2 ^ 31 ∧ next.2 - next.1 < range.2 - range.1) := by
    rintro ⟨l, h⟩ hh
    dsimp only at hh
    by_cases hlt : l < h
    · obtain ⟨hmid, hmid'⟩ := midpoint_bounds hlt hh
      obtain ⟨next, hrun, hnext⟩ := partitionTurn_cases (ε := ε) before hlt
      refine ⟨next, hrun, ?_⟩
      rcases hnext with rfl | rfl
      · exact ⟨hh, by dsimp only; omega⟩
      · exact ⟨by dsimp only; omega, by dsimp only; omega⟩
    · exact ⟨_, if_neg hlt, trivial⟩
  exact loop_halts (fun range : ℕ × ℕ => range.2 ≤ 2 ^ 31) (fun range => range.2 - range.1) hturn
    hhigh

theorem partitionPoint_found {before : ℕ → Bool} {bound : ℕ} (fuel : ℕ)
    (hlow : low ≤ bound) (hhigh : high ≤ bound) {result : Except ε ℕ}
    (h : partitionPoint before fuel low high = (some result : Option (Except ε ℕ))) :
    ∃ point ≤ bound, result = .ok point := by
  induction fuel generalizing low high with
  | zero => cases h
  | succ fuel ih =>
    unfold partitionPoint at h ih
    rw [loop] at h
    by_cases hlt : low < high
    · have hmid := midpoint_lt hlt
      obtain ⟨next, hturn, hnext⟩ := partitionTurn_cases (ε := ε) before hlt
      rw [hturn, pure_bind] at h
      rcases hnext with rfl | rfl
      · exact ih (by omega) hhigh h
      · exact ih hlow (by omega) h
    · have hturn : (partitionTurn before (low, high) : Run ε _) = pure (.stop low) := if_neg hlt
      rw [hturn, pure_bind] at h
      cases h
      exact ⟨low, hlow, rfl⟩

theorem partitionPoint_congr {before before' : ℕ → Bool} (fuel : ℕ)
    (h : ∀ i < high, before i = before' i) :
    (partitionPoint before fuel low high : Run ε ℕ) = partitionPoint before' fuel low high := by
  induction fuel generalizing low high with
  | zero => rfl
  | succ fuel ih =>
    unfold partitionPoint at ih ⊢
    rw [loop, loop]
    by_cases hlt : low < high
    · have hmid := midpoint_lt hlt
      have hsame : (partitionTurn before (low, high) : Run ε _) =
          partitionTurn before' (low, high) := by
        unfold partitionTurn
        dsimp only
        rw [h _ hmid]
      obtain ⟨next, hturn, hnext⟩ := partitionTurn_cases (ε := ε) before' hlt
      rw [hsame, hturn, pure_bind, pure_bind]
      rcases hnext with rfl | rfl
      · exact ih h
      · exact ih fun i hi => h i (hi.trans hmid)
    · have hturn : ∀ before, (partitionTurn before (low, high) : Run ε _) = pure (.stop low) :=
        fun _ => if_neg hlt
      rw [hturn, hturn, pure_bind, pure_bind]

theorem Point.lt_iff {before : ℕ → Bool} {point i : ℕ} (h : Point before low high point)
    (hleft : i < low → before i = true) (hright : high ≤ i → before i = false) :
    i < point ↔ before i = true := by
  constructor
  · intro hi
    rcases Nat.lt_or_ge i low with hlow | hlow
    · exact hleft hlow
    · exact h.before_left i hlow hi
  · intro hbefore
    by_contra hnot
    have hfalse : before i = false := by
      rcases Nat.lt_or_ge i high with hhigh | hhigh
      · exact h.not_before_right i (Nat.not_lt.mp hnot) hhigh
      · exact hright hhigh
    rw [hbefore] at hfalse
    cases hfalse

theorem lt_countP_iff {α : Type*} {r : α → α → Prop} {p : α → Bool} {l : List α}
    (hsorted : l.Pairwise r) (hdown : ∀ a b, r a b → p b = true → p a = true) {i : ℕ}
    (hi : i < l.length) : i < l.countP p ↔ p l[i] = true := by
  induction l generalizing i with
  | nil => exact absurd hi (Nat.not_lt_zero _)
  | cons a l ih =>
    obtain ⟨hhead, htail⟩ := List.pairwise_cons.mp hsorted
    by_cases hp : p a = true
    · rw [List.countP_cons_of_pos hp]
      cases i with
      | zero => exact iff_of_true (Nat.succ_pos _) hp
      | succ i =>
        rw [Nat.add_lt_add_iff_right]
        exact ih htail (Nat.lt_of_succ_lt_succ hi)
    · have hnone : ∀ b ∈ l, ¬ p b = true := fun b hb hpb => hp (hdown a b (hhead b hb) hpb)
      rw [List.countP_cons_of_neg hp, List.countP_eq_zero.mpr hnone]
      refine iff_of_false (Nat.not_lt_zero _) ?_
      cases i with
      | zero => exact hp
      | succ i => exact hnone _ (List.getElem_mem _)

end BinarySearch
