import Mathlib.Data.List.Chain
import Mathlib.Data.List.Perm.Subperm
import Mathlib.Data.List.Nodup
import Tsgit.Generator

/-!
# The Merge of Snapshots by Path

`pathMerge` of `src/application/primitives/snapshot/path-merge.ts`: cursors over sources of entries,
each with the entry it stands at.
-/

namespace Tsgit.PathMerge

open List

variable {K E P : Type}

inductive JoinMode
  | outer
  | inner
  deriving DecidableEq

inductive Thrown (P : Type)
  | operationAborted
  | orderInvariantViolation (previousPath path : P)

/-- The current entry is the first, and those behind it are not pulled yet. -/
structure CursorState (K E : Type) where
  slot : K
  entries : List E

structure JoinRow (K E P : Type) where
  path : P
  slots : List (K × E)

section

variable [LinearOrder P] (pathOf : E → P)

/-- Pulls the entry behind `previous`. -/
def advanceCursor (slot : K) (previous : E) : List E → Except (Thrown P) (CursorState K E)
  | [] => .ok ⟨slot, []⟩
  | entry :: rest =>
    if pathOf entry < pathOf previous then
      .error (.orderInvariantViolation (pathOf previous) (pathOf entry))
    else .ok ⟨slot, entry :: rest⟩

/-- The first entries are pulled without a check. -/
def buildCursors (sources : K → Option (List E)) (keys : List K) : List (CursorState K E) :=
  keys.filterMap fun key => (sources key).map (CursorState.mk key)

/-- The lower of two paths, where there are two. -/
def lower (min path : Option P) : Option P :=
  match path, min with
  | none, _ => min
  | some path, none => some path
  | some path, some min => if path < min then some path else some min

def minPath (cursors : List (CursorState K E)) (min : Option P) : Option P :=
  cursors.foldl (fun min cursor => lower min (cursor.entries.head?.map pathOf)) min

def visit (next : P) (cursor : CursorState K E) :
    Except (Thrown P) (CursorState K E × List (K × E)) :=
  match cursor.entries with
  | [] => .ok (cursor, [])
  | entry :: rest =>
    if pathOf entry ≠ next then .ok (cursor, [])
    else do
      let advanced ← advanceCursor pathOf cursor.slot entry rest
      pure (advanced, [(cursor.slot, entry)])

def mergeFrom (aborted : ℕ → Bool) (mode : JoinMode) (keyCount : ℕ) :
    ℕ → ℕ → List (CursorState K E) → Generator (JoinRow K E P) (Thrown P) PUnit
  | 0, _, _ => .spent
  | fuel + 1, turn, cursors =>
    if aborted turn then .thrown .operationAborted
    else match minPath pathOf cursors none with
      | none => .returned ⟨⟩
      | some next => match cursors.mapM (visit pathOf next) with
        | .error e => .thrown e
        | .ok steps =>
          let slots := steps.flatMap Prod.snd
          let rest := mergeFrom aborted mode keyCount fuel (turn + 1) (steps.map Prod.fst)
          if mode = .inner ∧ slots.length ≠ keyCount then rest else .yielded ⟨next, slots⟩ rest

/-- The signal is asked before each row. -/
def pathMerge (sources : K → Option (List E)) (keys : List K) (aborted : ℕ → Bool)
    (mode : JoinMode) (fuel : ℕ) : Generator (JoinRow K E P) (Thrown P) PUnit :=
  mergeFrom pathOf aborted mode keys.length fuel 0 (buildCursors sources keys)

/-! ### A turn -/

variable {pathOf} {next : P} {cursor : CursorState K E} {cursors : List (CursorState K E)}

theorem minPath_le_iff (min : Option P) (bound : P) :
    (∃ path ∈ minPath pathOf cursors min, path ≤ bound) ↔ (∃ path ∈ min, path ≤ bound) ∨
      ∃ cursor ∈ cursors, ∃ entry ∈ cursor.entries.head?, pathOf entry ≤ bound := by
  induction cursors generalizing min with
  | nil => simp [minPath]
  | cons cursor cursors ih =>
    have hlower : (∃ path ∈ lower min (cursor.entries.head?.map pathOf), path ≤ bound) ↔
        (∃ path ∈ min, path ≤ bound) ∨ ∃ entry ∈ cursor.entries.head?, pathOf entry ≤ bound := by
      cases cursor.entries.head? <;> cases min <;> simp [lower]
      split <;> grind
    rw [minPath, foldl_cons, ← minPath, ih, hlower, exists_mem_cons_iff, or_assoc]

/-- An entry that is below the one before it, at which the cursor stands. -/
def Descends (pathOf : E → P) (front entries : List E) (error : Thrown P) : Prop :=
  ∃ previous entry rest, entries = front ++ previous :: entry :: rest ∧
    pathOf entry < pathOf previous ∧
    error = .orderInvariantViolation (pathOf previous) (pathOf entry)

theorem Descends.not_isChain {front entries : List E} {error : Thrown P}
    (h : Descends pathOf front entries error) : ¬ (entries.map pathOf).IsChain (· ≤ ·) := by
  obtain ⟨previous, entry, rest, rfl, hlt, -⟩ := h
  intro hchain
  rw [map_append, map_cons, map_cons] at hchain
  exact absurd (isChain_cons_cons.mp hchain.right_of_append).1 (not_le.mpr hlt)

/-- The entry that a turn takes from a cursor, and what it leaves. -/
def taken (pathOf : E → P) (next : P) (cursor : CursorState K E) : List E :=
  cursor.entries.head?.toList.filter fun entry => pathOf entry = next

def moved (pathOf : E → P) (next : P) (cursor : CursorState K E) : CursorState K E :=
  ⟨cursor.slot, cursor.entries.drop (taken pathOf next cursor).length⟩

def slotsOf (pathOf : E → P) (next : P) (cursor : CursorState K E) : List (K × E) :=
  (taken pathOf next cursor).map (Prod.mk cursor.slot)

/-- The row of a turn. -/
def rowOf (pathOf : E → P) (next : P) (cursors : List (CursorState K E)) : JoinRow K E P :=
  ⟨next, cursors.flatMap (slotsOf pathOf next)⟩

theorem taken_append (next : P) (cursor : CursorState K E) :
    taken pathOf next cursor ++ (moved pathOf next cursor).entries = cursor.entries := by
  obtain ⟨slot, entries⟩ := cursor
  cases entries with
  | nil => rfl
  | cons entry rest => by_cases h : pathOf entry = next <;> simp [moved, taken, h]

/-- A turn that is not refused has pulled no descent. -/
abbrev Passes (pathOf : E → P) (next : P) (cursor : CursorState K E) : Prop :=
  ∀ entry ∈ taken pathOf next cursor, ∀ following ∈ (moved pathOf next cursor).entries.head?,
    pathOf entry ≤ pathOf following

/-- What the rest of a run pulls in order is in order behind what a turn takes. -/
theorem Passes.isChain_take (h : Passes pathOf next cursor) {n : ℕ}
    (hrest : (((moved pathOf next cursor).entries.take (n + 1)).map pathOf).IsChain (· ≤ ·)) :
    ((cursor.entries.take ((taken pathOf next cursor).length + n + 1)).map pathOf).IsChain
      (· ≤ ·) := by
  rw [← @taken_append _ _ _ _ pathOf next cursor, add_assoc, take_length_add_append, map_append]
  cases htaken : taken pathOf next cursor with
  | nil => exact hrest
  | cons entry others =>
    obtain rfl : others = [] := by
      have hone : (taken pathOf next cursor).length ≤ 1 :=
        (length_filter_le _ _).trans (by cases cursor.entries.head? <;> simp)
      rw [htaken, length_cons] at hone
      exact length_eq_zero_iff.mp (by omega)
    rw [map_cons, map_nil, singleton_append, isChain_cons]
    refine ⟨fun path hpath => ?_, hrest⟩
    rw [head?_map, head?_take, if_neg (Nat.succ_ne_zero n)] at hpath
    obtain ⟨following, hfollowing, rfl⟩ := Option.map_eq_some_iff.mp hpath
    exact h entry (by rw [htaken]; exact mem_cons_self) following hfollowing

theorem visit_cases (next : P) (cursor : CursorState K E) :
    visit pathOf next cursor = .ok (moved pathOf next cursor, slotsOf pathOf next cursor) ∧
      Passes pathOf next cursor ∨
    ∃ e, visit pathOf next cursor = .error e ∧ Descends pathOf [] cursor.entries e := by
  obtain ⟨slot, _ | ⟨entry, _ | ⟨following, rest⟩⟩⟩ := cursor
  · exact .inl ⟨rfl, fun _ hentry => absurd hentry not_mem_nil⟩
  · by_cases h : pathOf entry = next <;>
      simp [visit, slotsOf, taken, moved, Passes, advanceCursor, h]
  by_cases h : pathOf entry = next
  · by_cases hlt : pathOf following < pathOf entry
    · exact .inr ⟨_, by simp [visit, h, advanceCursor, h ▸ hlt]; rfl, entry, following, rest, rfl,
        hlt, by rw [h]⟩
    · refine .inl ⟨by simp [visit, slotsOf, taken, moved, advanceCursor, h, h ▸ hlt], ?_⟩
      simpa [Passes, moved, taken, h] using h ▸ not_lt.mp hlt
  · exact .inl (by simp [visit, slotsOf, taken, moved, Passes, h])

theorem mapM_visit (next : P) (cursors : List (CursorState K E)) :
    cursors.mapM (visit pathOf next) =
        .ok (cursors.map fun c => (moved pathOf next c, slotsOf pathOf next c)) ∧
      (∀ cursor ∈ cursors, Passes pathOf next cursor) ∨
    ∃ e, cursors.mapM (visit pathOf next) = .error e ∧
      ∃ cursor ∈ cursors, Descends pathOf [] cursor.entries e := by
  induction cursors with
  | nil => exact .inl ⟨rfl, by simp⟩
  | cons cursor cursors ih =>
    rw [mapM_cons]
    rcases visit_cases next cursor with ⟨hvisit, hpasses⟩ | ⟨e, he, hdescends⟩
    · rw [hvisit]
      rcases ih with ⟨hall, hrest⟩ | ⟨e, he, other, hmem, hdescends⟩
      · exact .inl ⟨by rw [hall]; rfl, forall_mem_cons.mpr ⟨hpasses, hrest⟩⟩
      · exact .inr ⟨e, by rw [he]; rfl, other, mem_cons_of_mem _ hmem, hdescends⟩
    · exact .inr ⟨e, by rw [he]; rfl, cursor, mem_cons_self, hdescends⟩

/-! ### The rows -/

def pending (cursors : List (CursorState K E)) : ℕ :=
  (cursors.map fun cursor => cursor.entries.length).sum

theorem pending_eq (next : P) (cursors : List (CursorState K E)) : pending cursors =
    (rowOf pathOf next cursors).slots.length + pending (cursors.map (moved pathOf next)) := by
  induction cursors with
  | nil => rfl
  | cons cursor cursors ih =>
    have := congrArg length (@taken_append _ _ _ _ pathOf next cursor)
    simp only [pending, rowOf, map_cons, sum_cons, flatMap_cons, length_append, slotsOf, length_map]
      at ih this ⊢
    omega

theorem slots_sublist (next : P) (cursors : List (CursorState K E)) :
    (rowOf pathOf next cursors).slots.map Prod.fst <+ cursors.map CursorState.slot := by
  induction cursors with
  | nil => exact .slnil
  | cons cursor cursors ih =>
    have hone : (slotsOf pathOf next cursor).map Prod.fst <+ [cursor.slot] := by
      cases h : cursor.entries.head? with
      | none => simp [slotsOf, taken, h]
      | some entry => by_cases hpath : pathOf entry = next <;> simp [slotsOf, taken, h, hpath]
    simpa [rowOf] using hone.append ih

theorem lt_of_moved (hleast : ∀ entry ∈ cursor.entries.head?, next ≤ pathOf entry)
    (hsorted : (cursor.entries.map pathOf).Pairwise (· < ·)) :
    ((moved pathOf next cursor).entries.map pathOf).Pairwise (· < ·) ∧
      ∀ entry ∈ (moved pathOf next cursor).entries, next < pathOf entry := by
  obtain ⟨slot, entries⟩ := cursor
  cases entries with
  | nil => simp [moved, taken]
  | cons entry rest =>
    obtain ⟨hfirst, hrest⟩ := pairwise_cons.mp hsorted
    by_cases h : pathOf entry = next
    · simpa [moved, taken, h] using ⟨hrest, fun e he => h ▸ hfirst _ (mem_map_of_mem he)⟩
    · have hlt : next < pathOf entry := lt_of_le_of_ne (hleast entry rfl) (Ne.symm h)
      simpa [moved, taken, h, hlt] using ⟨by simpa using hsorted, fun e he =>
        hlt.trans (hfirst _ (mem_map_of_mem he))⟩

theorem exists_cursor {sources : K → Option (List E)} {keys : List K} :
    (∀ cursor ∈ buildCursors sources keys, cursor.slot ∈ keys ∧
      sources cursor.slot = some cursor.entries) ∧
    ∀ key ∈ keys, ∀ entries ∈ sources key, ⟨key, entries⟩ ∈ buildCursors sources keys := by
  simp only [buildCursors, mem_filterMap, Option.map_eq_some_iff]
  refine ⟨?_, fun key hkey entries hentries => ⟨key, hkey, entries, hentries, rfl⟩⟩
  rintro _ ⟨key, hkey, entries, hentries, rfl⟩
  exact ⟨hkey, hentries⟩

theorem slots_sublist_keys (sources : K → Option (List E)) (keys : List K) :
    (buildCursors sources keys).map CursorState.slot <+ keys := by
  induction keys with
  | nil => exact .slnil
  | cons key keys ih =>
    cases hsource : sources key with
    | none => simpa [buildCursors, hsource] using ih.cons key
    | some entries => simpa [buildCursors, hsource] using ih.cons_cons key

variable [DecidableEq K] {rows : List (JoinRow K E P)}

/-- What a row has of a source. -/
def JoinRow.of (slot : K) (row : JoinRow K E P) : List E :=
  (row.slots.filter fun s => s.1 = slot).map Prod.snd

/-- What the rows have of a source. -/
def entriesOf (slot : K) (rows : List (JoinRow K E P)) : List E := rows.flatMap (JoinRow.of slot)

theorem of_rowOf (hnodup : (cursors.map CursorState.slot).Nodup) (hmem : cursor ∈ cursors) :
    (rowOf pathOf next cursors).of cursor.slot = taken pathOf next cursor := by
  induction cursors with
  | nil => simp at hmem
  | cons first cursors ih =>
    obtain ⟨hfirst, hnodup⟩ := nodup_cons.mp hnodup
    have hof : (rowOf pathOf next (first :: cursors)).of cursor.slot =
        (if first.slot = cursor.slot then taken pathOf next first else []) ++
          (rowOf pathOf next cursors).of cursor.slot := by
      by_cases h : first.slot = cursor.slot <;>
        simp [JoinRow.of, rowOf, slotsOf, filter_map, Function.comp_def, h]
    rw [hof]
    rcases mem_cons.mp hmem with rfl | hlater
    · have hnone : (rowOf pathOf next cursors).of cursor.slot = [] := by
        simp only [JoinRow.of, map_eq_nil_iff, filter_eq_nil_iff, decide_eq_true_eq]
        exact fun s hs heq =>
          hfirst (heq ▸ (slots_sublist next cursors).subset (mem_map_of_mem hs))
      rw [if_pos rfl, hnone, append_nil]
    · have hne : first.slot ≠ cursor.slot := fun heq => hfirst (heq ▸ mem_map_of_mem hlater)
      rw [if_neg hne, nil_append, ih hnodup hlater]

/-- What a run from the cursors yields, up to its end. -/
structure Merged (pathOf : E → P) (cursors : List (CursorState K E)) (rows : List (JoinRow K E P))
    (ending : Option (Except (Thrown P) PUnit)) : Prop where
  slots_sublist : ∀ row ∈ rows, row.slots.map Prod.fst <+ cursors.map CursorState.slot
  at_path : ∀ row ∈ rows, row.slots ≠ [] ∧ ∀ s ∈ row.slots, pathOf s.2 = row.path
  prefixes : ∀ cursor ∈ cursors, entriesOf cursor.slot rows <+: cursor.entries
  ascending : (∀ cursor ∈ cursors, (cursor.entries.map pathOf).Pairwise (· < ·)) →
    (rows.map JoinRow.path).Pairwise (· < ·)
  rising : (rows.map JoinRow.path).Pairwise (· ≤ ·)
  above : ∀ bound, (∀ cursor ∈ cursors, ∀ entry ∈ cursor.entries.head?, bound ≤ pathOf entry) →
    ∀ row ∈ rows, bound ≤ row.path
  pulled : ∀ cursor ∈ cursors,
    ((cursor.entries.take ((entriesOf cursor.slot rows).length + 1)).map pathOf).IsChain (· ≤ ·)
  ends : (ending = some (.ok ⟨⟩) ∧
      ∀ cursor ∈ cursors, entriesOf cursor.slot rows = cursor.entries) ∨
    ∃ e, ending = some (.error e) ∧ ∃ cursor ∈ cursors,
      Descends pathOf (entriesOf cursor.slot rows) cursor.entries e

variable {ending : Option (Except (Thrown P) PUnit)}

theorem Merged.nil (hends : (ending = some (.ok ⟨⟩) ∧ ∀ cursor ∈ cursors, cursor.entries = []) ∨
    ∃ e, ending = some (.error e) ∧ ∃ cursor ∈ cursors, Descends pathOf [] cursor.entries e) :
    Merged pathOf cursors [] ending where
  slots_sublist := by simp
  at_path := by simp
  prefixes := by simp [entriesOf]
  ascending := by simp
  rising := by simp
  above := by simp
  pulled cursor _ := by
    cases cursor.entries with
    | nil => exact .nil
    | cons entry rest => exact .singleton _
  ends := hends.imp_left fun h => ⟨h.1, fun cursor hmem => by simp [h.2 cursor hmem, entriesOf]⟩

/-- **A turn** in front of what the run goes on with. -/
theorem Merged.step (hnodup : (cursors.map CursorState.slot).Nodup)
    (hleast : ∀ cursor ∈ cursors, ∀ entry ∈ cursor.entries.head?, next ≤ pathOf entry)
    (htaken : (rowOf pathOf next cursors).slots ≠ [])
    (hpasses : ∀ cursor ∈ cursors, Passes pathOf next cursor)
    (hrest : Merged pathOf (cursors.map (moved pathOf next)) rows ending) :
    Merged pathOf cursors (rowOf pathOf next cursors :: rows) ending := by
  have hslots : (cursors.map (moved pathOf next)).map CursorState.slot =
      cursors.map CursorState.slot := by simp [moved, Function.comp_def]
  have hentries : ∀ cursor ∈ cursors, entriesOf cursor.slot (rowOf pathOf next cursors :: rows) =
      taken pathOf next cursor ++ entriesOf (moved pathOf next cursor).slot rows :=
    fun cursor hmem => congrArg (· ++ _) (of_rowOf hnodup hmem)
  -- where the cursors stand after the turn is not below its path
  have habove : ∀ m ∈ cursors.map (moved pathOf next), ∀ entry ∈ m.entries.head?,
      next ≤ pathOf entry := by
    intro m hm entry hentry
    obtain ⟨cursor, hcursor, rfl⟩ := mem_map.mp hm
    cases htake : taken pathOf next cursor with
    | nil =>
      rw [moved, htake, length_nil, drop_zero] at hentry
      exact hleast cursor hcursor entry hentry
    | cons first others =>
      have hfirst : first ∈ taken pathOf next cursor := by
        rw [htake]
        exact mem_cons_self
      have hpath : pathOf first = next := of_decide_eq_true (mem_filter.mp hfirst).2
      exact hpath ▸ hpasses cursor hcursor first hfirst entry hentry
  refine ⟨forall_mem_cons.mpr ⟨PathMerge.slots_sublist next cursors, hslots ▸ hrest.slots_sublist⟩,
    forall_mem_cons.mpr ⟨⟨htaken, ?_⟩, hrest.at_path⟩, fun cursor hmem => ?_, fun hsorted => ?_,
    pairwise_cons.mpr ⟨?_, hrest.rising⟩, fun bound hbound => ?_, fun cursor hmem => ?_, ?_⟩
  · intro s hs
    obtain ⟨cursor, -, hs⟩ := mem_flatMap.mp hs
    obtain ⟨e, he, rfl⟩ := mem_map.mp hs
    simpa [rowOf] using (mem_filter.mp he).2
  · rw [hentries cursor hmem, ← @taken_append _ _ _ _ pathOf next cursor]
    exact (prefix_append_right_inj _).mpr (hrest.prefixes _ (mem_map_of_mem hmem))
  · refine pairwise_cons.mpr ⟨fun path hpath => ?_, hrest.ascending fun m hm => ?_⟩
    · obtain ⟨row, hrow, rfl⟩ := mem_map.mp hpath
      obtain ⟨hne, hat⟩ := hrest.at_path row hrow
      obtain ⟨s, hs⟩ := exists_mem_of_ne_nil _ hne
      obtain ⟨m, hm, hslot⟩ := mem_map.mp
        ((hrest.slots_sublist row hrow).subset (mem_map_of_mem hs))
      have hmem : s.2 ∈ m.entries := (hrest.prefixes m hm).subset (mem_flatMap.mpr
        ⟨row, hrow, mem_map.mpr ⟨s, mem_filter.mpr ⟨hs, by simp [hslot]⟩, rfl⟩⟩)
      obtain ⟨cursor, hcursor, rfl⟩ := mem_map.mp hm
      exact hat s hs ▸ (lt_of_moved (hleast cursor hcursor) (hsorted cursor hcursor)).2 _ hmem
    · obtain ⟨cursor, hcursor, rfl⟩ := mem_map.mp hm
      exact (lt_of_moved (hleast cursor hcursor) (hsorted cursor hcursor)).1
  · intro path hpath
    obtain ⟨row, hrow, rfl⟩ := mem_map.mp hpath
    exact hrest.above next habove row hrow
  · obtain ⟨s, hs⟩ := exists_mem_of_ne_nil _ htaken
    obtain ⟨cursor, hcursor, hs⟩ := mem_flatMap.mp hs
    obtain ⟨e, he, rfl⟩ := mem_map.mp hs
    obtain ⟨hhead, hpath⟩ := mem_filter.mp he
    have hnext : bound ≤ next :=
      of_decide_eq_true hpath ▸ hbound cursor hcursor e (Option.mem_toList.mp hhead)
    exact forall_mem_cons.mpr ⟨hnext, fun row hrow =>
      hnext.trans (hrest.above next habove row hrow)⟩
  · have hchain := (hpasses cursor hmem).isChain_take (hrest.pulled _ (mem_map_of_mem hmem))
    rwa [hentries cursor hmem, length_append]
  · rcases hrest.ends with ⟨hend, hall⟩ | ⟨e, hend, m, hm, previous, entry, rest, heq, hlt, he⟩
    · refine .inl ⟨hend, fun cursor hmem => ?_⟩
      rw [hentries cursor hmem, hall _ (mem_map_of_mem hmem), taken_append]
    · obtain ⟨cursor, hmem, rfl⟩ := mem_map.mp hm
      refine .inr ⟨e, hend, cursor, hmem, previous, entry, rest, ?_, hlt, he⟩
      rw [hentries cursor hmem, append_assoc, ← heq, taken_append]

theorem mergeFrom_spec (keyCount : ℕ) {fuel : ℕ} (turn : ℕ)
    (hnodup : (cursors.map CursorState.slot).Nodup) (hfuel : pending cursors < fuel) :
    let outer := mergeFrom pathOf (fun _ => false) .outer keyCount fuel turn cursors
    let inner := mergeFrom pathOf (fun _ => false) .inner keyCount fuel turn cursors
    Merged pathOf cursors outer.items outer.ending ∧ inner.ending = outer.ending ∧
      inner.items = outer.items.filter fun row => row.slots.length = keyCount := by
  induction fuel generalizing turn cursors with
  | zero => omega
  | succ fuel ih =>
    have hle := fun bound => @minPath_le_iff _ _ _ _ pathOf cursors none bound
    simp only [mergeFrom, Bool.false_eq_true, if_false]
    cases hmin : minPath pathOf cursors none with
    | none =>
      have hempty : ∀ cursor ∈ cursors, cursor.entries = [] := fun cursor hmem => by
        cases hentries : cursor.entries with
        | nil => rfl
        | cons entry rest =>
          have := (hle (pathOf entry)).mpr (.inr ⟨cursor, hmem, entry, by simp [hentries], le_rfl⟩)
          simp [hmin] at this
      exact ⟨.nil (.inl ⟨rfl, hempty⟩), rfl, rfl⟩
    | some next =>
      simp only [hmin, Option.mem_def, Option.some.injEq, exists_eq_left', reduceCtorEq, false_and,
        exists_false, false_or] at hle
      obtain ⟨first, hfirst, entry, hentry, hfirstLe⟩ := (hle next).mp le_rfl
      have hleast : ∀ cursor ∈ cursors, ∀ entry ∈ cursor.entries.head?, next ≤ pathOf entry :=
        fun cursor hmem entry hentry => (hle _).mpr ⟨cursor, hmem, entry, hentry, le_rfl⟩
      rcases mapM_visit next cursors with ⟨hsteps, hpasses⟩ | ⟨e, he, cursor, hmem, hdescends⟩
      · have htaken : (rowOf pathOf next cursors).slots ≠ [] := by
          have heq := le_antisymm hfirstLe (hleast first hfirst entry hentry)
          refine ne_nil_of_mem (a := (first.slot, entry)) (mem_flatMap.mpr ⟨first, hfirst, ?_⟩)
          simp [slotsOf, taken, Option.mem_def.mp hentry, heq]
        have hpos := length_pos_iff.mpr htaken
        have hpending := @pending_eq _ _ _ _ pathOf next cursors
        obtain ⟨hmerged, hending, hitems⟩ := @ih (cursors.map (moved pathOf next)) (turn + 1)
          (by simpa [moved, Function.comp_def] using hnodup) (by omega)
        have hrow := hmerged.step hnodup hleast htaken hpasses
        simp only [hsteps, flatMap_map, map_map, Function.comp_def, reduceCtorEq, false_and, if_false,
          true_and]
        refine ⟨hrow, ?_, ?_⟩
        · split <;> exact hending
        · split_ifs with hcount
          · exact hitems.trans (filter_cons_of_neg (by simpa using hcount)).symm
          · exact (congrArg (_ :: ·) hitems).trans
              (filter_cons_of_pos (by simpa using not_not.mp hcount)).symm
      · simp only [he]
        exact ⟨.nil (.inr ⟨e, rfl, cursor, hmem, hdescends⟩), trivial, rfl⟩

section

variable {sources : K → Option (List E)} {keys : List K}

theorem Merged.ends_iff (h : Merged pathOf (buildCursors sources keys) rows ending) :
    ending = some (.ok ⟨⟩) ↔
      ∀ key ∈ keys, ∀ entries ∈ sources key, (entries.map pathOf).IsChain (· ≤ ·) := by
  rcases h.ends with ⟨hend, hall⟩ | ⟨e, rfl, cursor, hmem, hdescends⟩
  · refine iff_of_true hend fun key hkey entries hentries => ?_
    have hmem := exists_cursor.2 key hkey entries hentries
    have hchain := h.pulled _ hmem
    rwa [hall _ hmem, take_of_length_le (Nat.le_succ _)] at hchain
  · obtain ⟨hkey, hentries⟩ := exists_cursor.1 cursor hmem
    exact iff_of_false (by simp) fun h => hdescends.not_isChain (h _ hkey _ hentries)

theorem Merged.exact (h : Merged pathOf (buildCursors sources keys) rows ending)
    (hkeys : keys.Nodup)
    (hsorted : ∀ key ∈ keys, ∀ entries ∈ sources key, (entries.map pathOf).Pairwise (· < ·)) :
    ending = some (.ok ⟨⟩) ∧ (rows.map JoinRow.path).Pairwise (· < ·) ∧
      (∀ path, path ∈ rows.map JoinRow.path ↔
        ∃ key ∈ keys, ∃ entries ∈ sources key, path ∈ entries.map pathOf) ∧
      (∀ key ∈ keys, ∀ entries ∈ sources key, entriesOf key rows = entries) ∧
      ∀ row ∈ rows, row.slots.length = keys.length ↔
        ∀ key ∈ keys, ∃ entries ∈ sources key, row.path ∈ entries.map pathOf := by
  have hend := h.ends_iff.mpr fun key hkey entries hentries =>
    ((hsorted key hkey entries hentries).imp le_of_lt).isChain
  have hof : ∀ key ∈ keys, ∀ entries ∈ sources key, entriesOf key rows = entries := by
    rcases h.ends with ⟨-, hall⟩ | ⟨e, rfl, -⟩
    · exact fun key hkey entries hentries => hall _ (exists_cursor.2 key hkey entries hentries)
    · cases hend
  have hrising := h.ascending fun cursor hmem =>
    hsorted _ (exists_cursor.1 cursor hmem).1 _ (exists_cursor.1 cursor hmem).2
  -- what a row has is an entry of the source of the slot, and the other way round
  have hslot : ∀ row ∈ rows, ∀ key, key ∈ row.slots.map Prod.fst ↔
      key ∈ keys ∧ ∃ entries ∈ sources key, row.path ∈ entries.map pathOf := by
    intro row hmem key
    constructor
    · intro hkey
      obtain ⟨s, hs, rfl⟩ := mem_map.mp hkey
      obtain ⟨cursor, hcursor, hslot⟩ := mem_map.mp ((h.slots_sublist row hmem).subset hkey)
      obtain ⟨hkey, hentries⟩ := exists_cursor.1 cursor hcursor
      refine ⟨hslot ▸ hkey, _, hslot ▸ hentries, mem_map.mpr ⟨s.2, ?_, (h.at_path row hmem).2 s hs⟩⟩
      exact (h.prefixes cursor hcursor).subset (mem_flatMap.mpr
        ⟨row, hmem, mem_map.mpr ⟨s, mem_filter.mpr ⟨hs, by simp [hslot]⟩, rfl⟩⟩)
    · rintro ⟨hkey, entries, hentries, hpath⟩
      obtain ⟨e, he, heq⟩ := mem_map.mp hpath
      rw [← hof key hkey entries hentries] at he
      obtain ⟨row', hmem', he⟩ := mem_flatMap.mp he
      obtain ⟨s, hs, rfl⟩ := mem_map.mp he
      obtain ⟨hs, hkey⟩ := mem_filter.mp hs
      have hsame : row' = row := inj_on_of_nodup_map hrising.nodup hmem' hmem
        (((h.at_path row' hmem').2 s hs).symm.trans heq)
      exact mem_map.mpr ⟨s, hsame ▸ hs, by simpa using hkey⟩
  refine ⟨hend, hrising, fun path => ⟨fun hpath => ?_, ?_⟩, hof, fun row hmem => ?_⟩
  · obtain ⟨row, hmem, rfl⟩ := mem_map.mp hpath
    obtain ⟨s, hs⟩ := exists_mem_of_ne_nil _ (h.at_path row hmem).1
    exact ⟨s.1, (hslot row hmem s.1).mp (mem_map_of_mem hs)⟩
  · rintro ⟨key, hkey, entries, hentries, hpath⟩
    obtain ⟨e, he, rfl⟩ := mem_map.mp hpath
    rw [← hof key hkey entries hentries] at he
    obtain ⟨row, hmem, he⟩ := mem_flatMap.mp he
    obtain ⟨s, hs, rfl⟩ := mem_map.mp he
    exact mem_map.mpr ⟨row, hmem, ((h.at_path row hmem).2 s (mem_of_mem_filter hs)).symm⟩
  · have hsub := (h.slots_sublist row hmem).trans (slots_sublist_keys sources keys)
    have hall : (∀ key ∈ keys, ∃ entries ∈ sources key, row.path ∈ entries.map pathOf) ↔
        keys ⊆ row.slots.map Prod.fst :=
      forall₂_congr fun key hkey => by rw [hslot row hmem, and_iff_right hkey]
    rw [hall, ← length_map Prod.fst]
    exact ⟨fun hlength => fun _ h => (hsub.eq_of_length hlength).symm ▸ h, fun hsubset =>
      le_antisymm hsub.length_le (hkeys.subperm hsubset).length_le⟩

end

/-- **The merge** of ascending sources yields each path once, in order, with what each source has
there. Of any sources, the rows do not descend and what was pulled of each source is in order. The
merge ends with all of their entries just when no source descends, and is else refused at the first
entry that does. -/
theorem pathMerge_exact (pathOf : E → P) (sources : K → Option (List E)) (keys : List K)
    (hkeys : keys.Nodup) (fuel : ℕ) (hfuel : pending (buildCursors sources keys) < fuel) :
    let outer := pathMerge pathOf sources keys (fun _ => false) .outer fuel
    let inner := pathMerge pathOf sources keys (fun _ => false) .inner fuel
    ((∀ key ∈ keys, ∀ entries ∈ sources key, (entries.map pathOf).Pairwise (· < ·)) →
      outer.ending = some (.ok ⟨⟩) ∧ (outer.items.map JoinRow.path).Pairwise (· < ·) ∧
      (∀ path, path ∈ outer.items.map JoinRow.path ↔
        ∃ key ∈ keys, ∃ entries ∈ sources key, path ∈ entries.map pathOf) ∧
      (∀ key ∈ keys, ∀ entries ∈ sources key, entriesOf key outer.items = entries) ∧
      ∀ row ∈ outer.items, row ∈ inner.items ↔
        ∀ key ∈ keys, ∃ entries ∈ sources key, row.path ∈ entries.map pathOf) ∧
    (∀ row ∈ outer.items, ∀ s ∈ row.slots, pathOf s.2 = row.path) ∧
    (outer.items.map JoinRow.path).Pairwise (· ≤ ·) ∧
    inner.items = outer.items.filter (fun row => row.slots.length = keys.length) ∧
    inner.ending = outer.ending ∧
    (∀ key ∈ keys, ∀ entries ∈ sources key,
      ((entries.take ((entriesOf key outer.items).length + 1)).map pathOf).IsChain (· ≤ ·)) ∧
    (outer.ending = some (.ok ⟨⟩) ↔
      ∀ key ∈ keys, ∀ entries ∈ sources key, (entries.map pathOf).IsChain (· ≤ ·)) ∧
    (outer.ending = some (.ok ⟨⟩) ∧
        (∀ key ∈ keys, ∀ entries ∈ sources key, entriesOf key outer.items = entries) ∨
      ∃ e, outer.ending = some (.error e) ∧ ∃ key ∈ keys,
        ∃ entries ∈ sources key, Descends pathOf (entriesOf key outer.items) entries e) := by
  intro outer inner
  obtain ⟨hmerged, hending, hitems⟩ : Merged pathOf _ outer.items outer.ending ∧
      inner.ending = outer.ending ∧ inner.items = outer.items.filter _ :=
    mergeFrom_spec keys.length 0 (hkeys.sublist (slots_sublist_keys sources keys)) hfuel
  refine ⟨fun hsorted => ?_, fun row hmem => (hmerged.at_path row hmem).2, hmerged.rising,
    hitems, hending, fun key hkey entries hentries => ?_, hmerged.ends_iff, ?_⟩
  · obtain ⟨hend, hrising, hpaths, hof, hcount⟩ := hmerged.exact hkeys hsorted
    refine ⟨hend, hrising, hpaths, hof, fun row hmem => ?_⟩
    rw [← hcount row hmem, hitems, mem_filter, and_iff_right hmem, decide_eq_true_eq]
  · exact hmerged.pulled _ (exists_cursor.2 key hkey entries hentries)
  · rcases hmerged.ends with ⟨hend, hall⟩ | ⟨e, hend, cursor, hmem, hdescends⟩
    · exact .inl ⟨hend, fun key hkey entries hentries =>
        hall _ (exists_cursor.2 key hkey entries hentries)⟩
    · obtain ⟨hkey, hentries⟩ := exists_cursor.1 cursor hmem
      exact .inr ⟨e, hend, _, hkey, _, hentries, hdescends⟩

/-- Two sources that share the path 0. -/
def sharedSources (second : Bool) : Option (List ℕ) := some (if second then [0, 1] else [0, 2])

theorem pathMerge_exact_two :
    let outer := pathMerge id sharedSources [false, true] (fun _ => false) .outer 5
    let inner := pathMerge id sharedSources [false, true] (fun _ => false) .inner 5
    outer.ending = some (.ok ⟨⟩) ∧ (outer.items.map JoinRow.path).Pairwise (· < ·) ∧
      entriesOf false outer.items = [0, 2] ∧ entriesOf true outer.items = [0, 1] ∧
      inner.items = outer.items.filter (fun row => row.slots.length = 2) := by
  intro outer inner
  have hsorted : ∀ key ∈ [false, true], ∀ entries ∈ sharedSources key,
      (entries.map id).Pairwise (· < ·) := by decide
  obtain ⟨hstrict, -, -, hinner, -⟩ :=
    pathMerge_exact id sharedSources [false, true] (by decide) 5 (by decide)
  obtain ⟨hend, hrising, -, hof, -⟩ := hstrict hsorted
  exact ⟨hend, hrising, hof false (by decide) _ rfl, hof true (by decide) _ rfl, hinner⟩

/-- A source that has the path 0 twice. -/
def twoSources (twice : Bool) : Option (List ℕ) := some (if twice then [0, 0] else [0, 1])

/-- A path that a source has twice is merged silently. -/
theorem repeatedPath_merged : ∃ entries ∈ twoSources true, ¬ entries.Pairwise (· < ·) ∧
    (pathMerge id twoSources [true, false] (fun _ => false) .outer 5).ending = some (.ok ⟨⟩) :=
  ⟨[0, 0], rfl, by decide, rfl⟩

end

end Tsgit.PathMerge
