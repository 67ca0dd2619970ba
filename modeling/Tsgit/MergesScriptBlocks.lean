import Tsgit.MergesScriptLabels

/-!
# Blocks of a Rebase Script

The third phase of the generator: the tips are walked down their first parents, one block for each
tip that no block has shown.
-/

namespace Tsgit.Rebase

open List

/-! ### What is walked -/

section

variable {input : MergesScriptInput}

/-- The tip comes to the commit by first parents in the range. -/
inductive FirstReaches (input : MergesScriptInput) (tip : Text) : Text → Prop
  | here (h : inRange input tip = true) : FirstReaches input tip tip
  | up {c : ScriptCommit} {parent : Text} (h : FirstReaches input tip c.id)
      (hc : c ∈ input.commits) (hfirst : c.parents.head? = some parent)
      (hrange : inRange input parent = true) : FirstReaches input tip parent

/-- A block shows the commit. -/
def Walked (input : MergesScriptInput) (oid : Text) : Prop :=
  ∃ tip ∈ tips input, FirstReaches input tip oid

def ShownBefore (input : MergesScriptInput) (parent oid : Text) : Prop :=
  ∃ before tip after, tips input = before ++ tip :: after ∧ FirstReaches input tip parent ∧
    ∀ earlier ∈ before ++ [tip], ¬ FirstReaches input earlier oid

/-- A block starts with the commit, and forks from `parent`. -/
structure ForkedFrom (input : MergesScriptInput) (c : ScriptCommit) (parent : Text) : Prop where
  mem : c ∈ input.commits
  head : c.parents.head? = some parent
  walked : Walked input c.id
  apart : inRange input parent = false ∨ ShownBefore input parent c.id

def NamesFork (input : MergesScriptInput) (oid : Text) : Prop :=
  ontoTaker input (namings input) ≠ some oid ∧ (input.rebaseCousins = true → Placed input oid)

def forkSubject (input : MergesScriptInput) (oid : Text) : Text :=
  match input.commits.find? (·.id == oid) with
  | some c => c.subject
  | none => (input.outsideSubjects.get oid).getD []

theorem FirstReaches.inRange {tip oid : Text} (h : FirstReaches input tip oid) :
    inRange input oid = true := by
  cases h with
  | here h => exact h
  | up h hc hfirst hrange => exact hrange

theorem inRange_of_mem {c : ScriptCommit} (h : c ∈ input.commits) : inRange input c.id = true :=
  inRange_iff.mpr (mem_map_of_mem h)

theorem MergesScriptInput.Listed.eq_of_id (h : input.Listed) {c d : ScriptCommit}
    (hc : c ∈ input.commits) (hd : d ∈ input.commits) (hid : c.id = d.id) : c = d :=
  inj_on_of_nodup_map h.nodup hc hd hid

theorem FirstReaches.from_parent (hlisted : input.Listed) {c : ScriptCommit} {oid : Text}
    (hc : c ∈ input.commits) (h : FirstReaches input c.id oid) :
    oid = c.id ∨ ∃ parent, c.parents.head? = some parent ∧ FirstReaches input parent oid := by
  induction h with
  | here h => exact Or.inl rfl
  | @up d parent h hd hfirst hrange ih =>
    rcases ih with heq | ⟨next, hnext, hreach⟩
    · rw [hlisted.eq_of_id hd hc heq] at hfirst
      exact Or.inr ⟨parent, hfirst, .here hrange⟩
    · exact Or.inr ⟨next, hnext, .up hreach hd hfirst hrange⟩

end

/-! ### A block -/

section

variable {input : MergesScriptInput} {walk : Walk} {shown : List Text}

/-- The chain of commits from a start on, the last one first, and what it forks from. -/
inductive Block (input : MergesScriptInput) (shown : List Text) :
    Option Text → List Text → Option Text → Prop
  | root : Block input shown none [] none
  | stop {oid : Text} (h : inRange input oid = false ∨ oid ∈ shown) :
      Block input shown (some oid) [] (some oid)
  | more {c : ScriptCommit} {added : List Text} {fork : Option Text} (hc : c ∈ input.commits)
      (hnot : c.id ∉ shown) (h : Block input shown c.parents.head? added fork) :
      Block input shown (some c.id) (added ++ [c.id]) fork

/-- The place of a commit in the range. -/
def position (input : MergesScriptInput) (oid : Text) : ℕ := (input.commits.map (·.id)).idxOf oid

theorem position_lt {oid : Text} (h : inRange input oid = true) :
    position input oid < input.commits.length := by
  have hlt := idxOf_lt_length_of_mem (inRange_iff.mp h)
  rwa [length_map] at hlt

theorem position_parent (hlisted : input.Listed) {c : ScriptCommit} {parent : Text}
    (hc : c ∈ input.commits) (hparent : parent ∈ c.parents) (hrange : inRange input parent = true) :
    position input parent < position input c.id := by
  obtain ⟨before, after, hcommits⟩ := append_of_mem hc
  have hbefore := hlisted.parents_first before c after hcommits parent hparent hrange
  have hnew : c.id ∉ before.map (·.id) := by
    have hnodup := hlisted.nodup
    rw [hcommits, map_append, map_cons, nodup_append] at hnodup
    exact fun hmem => hnodup.2.2 c.id hmem c.id mem_cons_self rfl
  rw [position, position, hcommits, map_append, map_cons,
    idxOf_append_of_mem hbefore, idxOf_append_of_notMem hnew, idxOf_cons_self]
  exact (idxOf_lt_length_of_mem hbefore).trans_le (Nat.le_add_right _ _)

/-- **A block** is walked to its end. -/
theorem blockOf_spec (hlisted : input.Listed)
    (hbyId : ∀ oid, walk.byId.get oid = input.commits.find? (·.id == oid)) {fuel : ℕ}
    {start : Option Text} {chain : List Text}
    (hfuel : ∀ oid, start = some oid → inRange input oid = true → position input oid + 1 < fuel)
    (hpos : 0 < fuel) :
    ∃ added fork, blockOf walk shown fuel start chain = (added ++ chain, fork) ∧
      Block input shown start added fork := by
  induction fuel generalizing start chain with
  | zero => omega
  | succ fuel ih =>
    cases start with
    | none => exact ⟨[], none, rfl, .root⟩
    | some oid =>
      rw [blockOf, hbyId]
      cases hfind : input.commits.find? (·.id == oid) with
      | none =>
        refine ⟨[], some oid, rfl, .stop (Or.inl ?_)⟩
        rw [Bool.eq_false_iff, Ne, inRange_iff, ← find?_isSome_iff, hfind]
        exact Bool.false_ne_true
      | some c =>
        have hc : c ∈ input.commits := mem_of_find?_eq_some hfind
        have hid : c.id = oid :=
          eq_of_beq (find?_some (p := fun d : ScriptCommit => d.id == oid) hfind)
        subst hid
        dsimp only
        by_cases hshown : shown.contains c.id = true
        · rw [if_pos hshown]
          exact ⟨[], some c.id, rfl, .stop (Or.inr (contains_iff_mem.mp hshown))⟩
        rw [if_neg hshown]
        have hlt := hfuel c.id rfl (inRange_of_mem hc)
        obtain ⟨added, fork, heq, hblock⟩ := @ih c.parents.head? (c.id :: chain)
          (fun parent hfirst hrange => by
            have hparent := position_parent hlisted hc (mem_of_head? hfirst) hrange
            omega) (by omega)
        refine ⟨added ++ [c.id], fork, ?_, .more hc (fun hmem =>
          hshown (contains_iff_mem.mpr hmem)) hblock⟩
        rw [heq, append_assoc, singleton_append]

variable {start : Option Text} {added : List Text} {fork : Option Text} {tip : Text}

theorem Block.reached (tip : Text) (h : Block input shown start added fork)
    (hstart : ∀ oid, start = some oid → inRange input oid = true → FirstReaches input tip oid) :
    ∀ oid ∈ added, oid ∉ shown ∧ FirstReaches input tip oid := by
  induction h with
  | root => exact forall_mem_nil _
  | stop h => exact forall_mem_nil _
  | @more c added fork hc hnot h ih =>
    have hself := hstart c.id rfl (inRange_of_mem hc)
    intro oid hmem
    rcases mem_append.mp hmem with hadded | hlast
    · exact ih (fun parent hfirst hrange => .up hself hc hfirst hrange) oid hadded
    · rw [mem_singleton.mp hlast]
      exact ⟨hnot, hself⟩

def Closed (input : MergesScriptInput) (shown : List Text) : Prop :=
  ∀ c ∈ input.commits, c.id ∈ shown → ∀ parent, c.parents.head? = some parent →
    inRange input parent = true → parent ∈ shown

theorem Closed.reached (hclosed : Closed input shown) {oid : Text} (htip : tip ∈ shown)
    (h : FirstReaches input tip oid) : oid ∈ shown := by
  induction h with
  | here h => exact htip
  | up h hc hfirst hrange ih => exact hclosed _ hc ih _ hfirst hrange

/-- A block shows all that its tip comes to. -/
theorem Block.complete (hlisted : input.Listed) (hclosed : Closed input shown)
    (h : Block input shown start added fork) {first oid : Text} (hstart : start = some first)
    (hreach : FirstReaches input first oid) : oid ∈ shown ∨ oid ∈ added := by
  induction h generalizing first with
  | root => cases hstart
  | stop h =>
    rw [Option.some.inj hstart] at h
    rcases h with hout | hshown
    · have hrange : inRange input first = true := by
        clear hstart
        induction hreach with
        | here h => exact h
        | up _ _ _ _ ih => exact ih
      rw [hout] at hrange
      cases hrange
    · exact Or.inl (hclosed.reached hshown hreach)
  | @more c added fork hc hnot h ih =>
    rw [← Option.some.inj hstart] at hreach
    rcases hreach.from_parent hlisted hc with rfl | ⟨parent, hfirst, hrest⟩
    · exact Or.inr (mem_append_right _ mem_cons_self)
    · exact (ih hfirst hrest).imp_right (mem_append_left _)

theorem Block.start_eq (h : Block input shown start added fork) (hadded : added = []) :
    start = fork := by
  cases h with
  | root => rfl
  | stop h => rfl
  | more hc hnot h =>
    exact absurd hadded (append_ne_nil_of_right_ne_nil _ (cons_ne_nil _ _))

theorem Block.bottom (h : Block input shown start added fork) (hne : added ≠ []) :
    ∃ c ∈ input.commits, c.id ∈ added ∧ c.parents.head? = fork := by
  induction h with
  | root => exact absurd rfl hne
  | stop h => exact absurd rfl hne
  | @more c added fork hc hnot h ih =>
    by_cases hadded : added = []
    · exact ⟨c, hc, mem_append_right _ mem_cons_self, h.start_eq hadded⟩
    · obtain ⟨d, hd, hmem, hhead⟩ := ih hadded
      exact ⟨d, hd, mem_append_left _ hmem, hhead⟩

theorem Block.fork_apart (h : Block input shown start added fork) {parent : Text}
    (hfork : fork = some parent) : inRange input parent = false ∨ parent ∈ shown := by
  induction h with
  | root => cases hfork
  | stop h => exact Option.some.inj hfork ▸ h
  | more hc hnot h ih => exact ih hfork

theorem Block.parent (hlisted : input.Listed) (h : Block input shown start added fork)
    {c : ScriptCommit} (hc : c ∈ input.commits) (hmem : c.id ∈ added) {parent : Text}
    (hfirst : c.parents.head? = some parent) : parent ∈ added ∨ fork = some parent := by
  induction h with
  | root => exact absurd hmem not_mem_nil
  | stop h => exact absurd hmem not_mem_nil
  | @more d added fork hd hnot h ih =>
    rcases mem_append.mp hmem with hadded | hlast
    · exact (ih hadded).imp_left (mem_append_left _)
    · rw [← hlisted.eq_of_id hc hd (mem_singleton.mp hlast), hfirst] at h
      cases h with
      | stop h => exact Or.inr rfl
      | more he hnot h =>
        exact Or.inl (mem_append_left _ (mem_append_right _ mem_cons_self))

end

/-! ### Steady states -/

section

variable {input : MergesScriptInput} {state : LabelState} {walk : Walk}

/-- What holds while the blocks are written. -/
structure Steady (input : MergesScriptInput) (state : LabelState) (walk : Walk) : Prop where
  labelled : Labelled input (namings input) state
  placed : input.rebaseCousins = true → ∀ oid, state.commitToLabel.get oid ≠ none ↔ Placed input oid
  byId : ∀ oid, walk.byId.get oid = input.commits.find? (·.id == oid)
  planned : ∀ c ∈ input.commits, c.skipped = false →
    ∃ line, walk.todo.get c.id = some line ∧ Planned state c line
  todo : ∀ oid line, walk.todo.get oid = some line →
    ∃ c ∈ input.commits, c.id = oid ∧ c.skipped = false ∧ Planned state c line

theorem Ready.steady (h : Ready input state walk) : Steady input state walk :=
  ⟨h.labelled, fun _ => h.placed, h.byId, h.planned, h.todo⟩

theorem subjectOf_eq (h : Steady input state walk) (oid : Text) :
    subjectOf input walk oid = forkSubject input oid := by
  rw [subjectOf, h.byId]
  rfl

theorem resetLine_spec (hlisted : input.Listed) (h : Steady input state walk) {fork : Text}
    (hfork : IsObjectId fork) (branch : Option Text) :
    Steady input (resetLine input state walk branch (some fork)).1 walk ∧
      (∀ oid label, state.commitToLabel.get oid = some label →
        (resetLine input state walk branch (some fork)).1.commitToLabel.get oid = some label) ∧
      (NamesFork input fork → ∃ place,
        (resetLine input state walk branch (some fork)).1.commitToLabel.get fork = some place ∧
        (resetLine input state walk branch (some fork)).2 =
          .reset place (some (forkSubject input fork)) branch) ∧
      (¬ NamesFork input fork →
        (resetLine input state walk branch (some fork)).2 = .reset onto none branch) := by
  cases hget : state.commitToLabel.get fork with
  | some place =>
    have hline : resetLine input state walk branch (some fork) =
        (state, resetTo input walk fork place branch) := by rw [resetLine, hget]
    rw [hline]
    refine ⟨h, fun _ _ hold => hold, fun hnames => ⟨place, hget, ?_⟩, fun hnot => ?_⟩
    · have hne : place ≠ onto := by
        rintro rfl
        exact hnames.1 ((h.labelled.onto_iff fork).mp hget)
      rw [resetTo, if_neg hne, subjectOf_eq h]
    have honto : place = onto := by
      by_contra hne
      refine hnot ⟨fun htaker => ?_, fun hcousins => ?_⟩
      · rw [← h.labelled.onto_iff, hget] at htaker
        exact hne (Option.some.inj htaker)
      · exact (h.placed hcousins fork).mp (by rw [hget]; exact Option.some_ne_none place)
    rw [resetTo, if_pos honto]
  | none =>
    have htaker : ontoTaker input (namings input) ≠ some fork := fun htaker => by
      rw [← h.labelled.onto_iff, hget] at htaker
      cases htaker
    by_cases hcousins : input.rebaseCousins = true
    · have hline : resetLine input state walk branch (some fork) =
          (state, .reset onto none branch) := by rw [resetLine, hget, if_pos hcousins]
      rw [hline]
      refine ⟨h, fun _ _ hold => hold, fun hnames => ?_, fun _ => rfl⟩
      exact absurd hget ((h.placed hcousins fork).mpr (hnames.2 hcousins))
    have hhex := @freshLabel_none input state fork (hlisted.abbreviation hfork)
      (isHexWord_of_isObjectId hfork)
    have hline : resetLine input state walk branch (some fork) =
        ((labelOid input state fork none).1,
          resetTo input walk fork (labelOid input state fork none).2 branch) := by
      rw [resetLine, hget, if_neg hcousins]
    have hplace : (labelOid input state fork none).2 ≠ onto := by
      rw [labelOid_fresh hget]
      exact hhex.ne_onto
    rw [hline]
    refine ⟨⟨h.labelled.add ⟨hhex.isLabel, hhex.isWord.solid, hhex.ne_onto⟩,
      fun hyes => absurd hyes hcousins, h.byId, fun c hc hkept => ?_,
      fun oid line hfound => ?_⟩,
      fun _ _ => get_labelOid_of_some, fun _ => ⟨_, get_labelOid_self, ?_⟩, fun hnot => ?_⟩
    · obtain ⟨line, hfound, hold⟩ := h.planned c hc hkept
      exact ⟨line, hfound, hold.mono fun _ _ => get_labelOid_of_some⟩
    · obtain ⟨c, hc, hid, hkept, hold⟩ := h.todo oid line hfound
      exact ⟨c, hc, hid, hkept, hold.mono fun _ _ => get_labelOid_of_some⟩
    · dsimp only
      rw [resetTo, if_neg hplace, subjectOf_eq h]
    · exact absurd ⟨htaker, fun hyes => absurd hyes hcousins⟩ hnot

end

/-! ### The lines of the blocks -/

section

variable {input : MergesScriptInput} {state : LabelState} {walk : Walk}
  {shown done rest : List Text}

/-- A line of the script, and where it comes from. -/
inductive Comes (input : MergesScriptInput) (state : LabelState) : RebaseTodoLine → Prop
  | label {oid name : Text} (h : state.commitToLabel.get oid = some name) :
      Comes input state (.label name)
  | todo {c : ScriptCommit} {line : RebaseTodoLine} (hc : c ∈ input.commits)
      (hkept : c.skipped = false) (hwalked : Walked input c.id) (h : Planned state c line) :
      Comes input state line
  | root (branch : Option Text) : Comes input state (.reset newRoot none branch)
  | onto (branch : Option Text) : Comes input state (.reset onto none branch)
  | fork {c : ScriptCommit} {parent place : Text} (branch : Option Text)
      (hfork : ForkedFrom input c parent) (hnames : NamesFork input parent)
      (h : state.commitToLabel.get parent = some place) :
      Comes input state (.reset place (some (forkSubject input parent)) branch)

def ShownBy (input : MergesScriptInput) (shown done : List Text) : Prop :=
  ∀ oid, oid ∈ shown ↔ ∃ tip ∈ done, FirstReaches input tip oid

theorem shownBy_nil : ShownBy input [] [] := fun _ =>
  ⟨fun hmem => absurd hmem not_mem_nil, fun ⟨_, hmem, _⟩ => absurd hmem not_mem_nil⟩

theorem ShownBy.closed (h : ShownBy input shown done) : Closed input shown := by
  intro c hc hmem parent hfirst hrange
  obtain ⟨tip, htip, hreach⟩ := (h c.id).mp hmem
  exact (h parent).mpr ⟨tip, htip, .up hreach hc hfirst hrange⟩

theorem ShownBy.skip (h : ShownBy input shown done) {tip : Text} (htip : tip ∈ shown) :
    ShownBy input shown (done ++ [tip]) := by
  intro oid
  refine (h oid).trans ⟨fun ⟨earlier, hearlier, hreach⟩ =>
    ⟨earlier, mem_append_left _ hearlier, hreach⟩, fun ⟨other, hother, hreach⟩ => ?_⟩
  rcases mem_append.mp hother with hdone | hlast
  · exact ⟨other, hdone, hreach⟩
  · rw [mem_singleton.mp hlast] at hreach
    exact (h oid).mp (h.closed.reached htip hreach)

theorem ShownBy.block (hlisted : input.Listed) (h : ShownBy input shown done) {tip : Text}
    {added : List Text} {fork : Option Text} (hblock : Block input shown (some tip) added fork)
    (hrange : inRange input tip = true) : ShownBy input (shown ++ added) (done ++ [tip]) := by
  have hadded := hblock.reached tip fun oid hoid _ => Option.some.inj hoid ▸ .here hrange
  intro oid
  rw [mem_append]
  constructor
  · rintro (hshown | hmem)
    · obtain ⟨earlier, hearlier, hreach⟩ := (h oid).mp hshown
      exact ⟨earlier, mem_append_left _ hearlier, hreach⟩
    · exact ⟨tip, mem_append_right _ mem_cons_self, (hadded oid hmem).2⟩
  · rintro ⟨other, hother, hreach⟩
    rcases mem_append.mp hother with hdone | hlast
    · exact Or.inl ((h oid).mpr ⟨other, hdone, hreach⟩)
    · rw [mem_singleton.mp hlast] at hreach
      exact hblock.complete hlisted h.closed rfl hreach

theorem inRange_tip {tip : Text} (h : tip ∈ tips input) : inRange input tip = true := by
  rcases mem_append.mp h with hmerged | hlast
  · exact (mem_filter.mp hmerged).2
  · obtain ⟨c, hc, rfl⟩ := Option.map_eq_some_iff.mp (Option.mem_toList.mp hlast)
    exact inRange_of_mem (mem_of_getLast? hc)

/-- A block that is written: its commits, its fork, and its reset. -/
structure Opens (input : MergesScriptInput) (walk : Walk) (state : LabelState) (shown : List Text)
    (tip : Text) (added : List Text) (fork : Option Text) (state' : LabelState)
    (reset : RebaseTodoLine) : Prop where
  block : Block input shown (some tip) added fork
  ne_nil : added ≠ []
  steady : Steady input state' walk
  keeps : ∀ oid label, state.commitToLabel.get oid = some label →
    state'.commitToLabel.get oid = some label
  root : fork = none → ∃ place branch, (place = onto ∨ place = newRoot) ∧
    reset = .reset place none branch
  named : ∀ parent, fork = some parent → NamesFork input parent → ∃ place branch,
    state'.commitToLabel.get parent = some place ∧
      reset = .reset place (some (forkSubject input parent)) branch
  unnamed : ∀ parent, fork = some parent → ¬ NamesFork input parent →
    ∃ branch, reset = .reset onto none branch

/-- **One tip**: it is passed over, or a block is written. -/
theorem emitBlocks_cons (rest : List Text) (hlisted : input.Listed)
    (h : Steady input state walk) {tip : Text}
    (hnot : tip ∉ shown) (hrange : inRange input tip = true) :
    ∃ added fork state' reset, Opens input walk state shown tip added fork state' reset ∧
      emitBlocks input walk state shown (tip :: rest) =
        reset :: (added.flatMap (commitLines state' walk) ++
          emitBlocks input walk state' (shown ++ added) rest) := by
  have hlt := position_lt hrange
  obtain ⟨added, fork, heq, hblock⟩ := @blockOf_spec input walk shown hlisted h.byId
    (input.commits.length + 1) (some tip) []
    (fun oid hoid _ => by rw [← Option.some.inj hoid]; omega) (by omega)
  rw [append_nil] at heq
  have hne : added ≠ [] := by
    intro hadded
    rcases hblock.fork_apart (hblock.start_eq hadded).symm with hout | hshown
    · rw [hout] at hrange
      cases hrange
    · exact hnot hshown
  have hemit : emitBlocks input walk state shown (tip :: rest) =
      (resetLine input state walk (state.commitToLabel.get tip) fork).2 ::
        (added.flatMap (commitLines
            (resetLine input state walk (state.commitToLabel.get tip) fork).1 walk) ++
          emitBlocks input walk (resetLine input state walk (state.commitToLabel.get tip) fork).1
            (shown ++ added) rest) := by
    rw [emitBlocks, if_neg fun hmem => hnot (contains_iff_mem.mp hmem), heq]
  refine ⟨added, fork, _, _, ?_, hemit⟩
  cases hfork : fork with
  | none =>
    rw [hfork] at hblock
    refine ⟨hblock, hne, h, fun _ _ hold => hold, fun _ => ?_, (fun _ hnone => by cases hnone),
      fun _ hnone => by cases hnone⟩
    by_cases hcousins : input.rebaseCousins = true
    · exact ⟨onto, _, Or.inl rfl, by rw [resetLine, if_pos hcousins]⟩
    · exact ⟨newRoot, _, Or.inr rfl, by rw [resetLine, if_neg hcousins]⟩
  | some parent =>
    rw [hfork] at hblock
    obtain ⟨c, hc, -, hfirst⟩ := hblock.bottom hne
    have hid := (hlisted.ids c hc).2 parent (mem_of_head? hfirst)
    obtain ⟨hsteady, hkeeps, hnamed, hunnamed⟩ :=
      resetLine_spec hlisted h hid (state.commitToLabel.get tip)
    refine ⟨hblock, hne, hsteady, hkeeps, (fun hnone => by cases hnone),
      fun other hother hnames => ?_, fun other hother hnot => ?_⟩
    · obtain rfl := Option.some.inj hother
      obtain ⟨place, hplace, hline⟩ := hnamed hnames
      exact ⟨place, _, hplace, hline⟩
    · obtain rfl := Option.some.inj hother
      exact ⟨_, hunnamed hnot⟩

theorem mem_commitLines {oid : Text} {line : RebaseTodoLine} :
    line ∈ commitLines state walk oid ↔ walk.todo.get oid = some line ∨
      ∃ label, state.commitToLabel.get oid = some label ∧ line = .label label := by
  rw [commitLines, mem_append, Option.mem_toList, Option.mem_toList]
  refine or_congr Iff.rfl ?_
  rw [Option.map_eq_some_iff]
  exact exists_congr fun label => and_congr_right fun _ => eq_comm

/-- **Where the lines come from.** -/
theorem emitBlocks_sound (hlisted : input.Listed) (h : Steady input state walk)
    (hshown : ShownBy input shown done) (htips : tips input = done ++ rest) :
    ∀ line ∈ emitBlocks input walk state shown rest,
      ∃ state', Labelled input (namings input) state' ∧ Comes input state' line := by
  induction rest generalizing state shown done with
  | nil => exact forall_mem_nil _
  | cons tip rest ih =>
    have htip : tip ∈ tips input := htips ▸ mem_append_right _ mem_cons_self
    have hrange := inRange_tip htip
    have htips' : tips input = (done ++ [tip]) ++ rest := by rw [htips, append_assoc]; rfl
    by_cases hmem : tip ∈ shown
    · rw [emitBlocks, if_pos (contains_iff_mem.mpr hmem)]
      exact ih h (hshown.skip hmem) htips'
    obtain ⟨added, fork, state', reset, hopens, heq⟩ :=
      emitBlocks_cons rest hlisted h hmem hrange
    have hreached := hopens.block.reached tip fun oid hoid _ =>
      Option.some.inj hoid ▸ .here hrange
    rw [heq]
    intro line hline
    rcases mem_cons.mp hline with rfl | hline
    · refine ⟨state', hopens.steady.labelled, ?_⟩
      cases fork with
      | none =>
        obtain ⟨place, branch, rfl | rfl, rfl⟩ := hopens.root rfl
        · exact .onto branch
        · exact .root branch
      | some parent =>
        by_cases hnames : NamesFork input parent
        · obtain ⟨place, branch, hplace, rfl⟩ := hopens.named parent rfl hnames
          obtain ⟨c, hc, hbottom, hfirst⟩ := hopens.block.bottom hopens.ne_nil
          obtain ⟨hnew, hreach⟩ := hreached c.id hbottom
          refine .fork branch ⟨hc, hfirst, ⟨tip, htip, hreach⟩, ?_⟩ hnames hplace
          refine (hopens.block.fork_apart rfl).imp_right fun hparent => ?_
          obtain ⟨earlier, hearlier, hreachParent⟩ := (hshown parent).mp hparent
          obtain ⟨front, back, rfl⟩ := append_of_mem hearlier
          refine ⟨front, earlier, back ++ tip :: rest, ?_, hreachParent,
            fun other hother hreachOther => hnew ((hshown c.id).mpr ⟨other, ?_, hreachOther⟩)⟩
          · rw [htips, append_assoc, cons_append]
          · rcases mem_append.mp hother with hfront | hlast
            · exact mem_append_left _ hfront
            · rw [mem_singleton.mp hlast]
              exact mem_append_right _ mem_cons_self
        · obtain ⟨branch, rfl⟩ := hopens.unnamed parent rfl hnames
          exact .onto branch
    · rcases mem_append.mp hline with hblock | hrest
      · obtain ⟨oid, hoid, hline⟩ := mem_flatMap.mp hblock
        refine ⟨state', hopens.steady.labelled, ?_⟩
        rcases mem_commitLines.mp hline with htodo | ⟨label, hlabel, rfl⟩
        · obtain ⟨c, hc, hid, hkept, hplanned⟩ := hopens.steady.todo oid line htodo
          exact .todo hc hkept ⟨tip, htip, hid ▸ (hreached oid hoid).2⟩ hplanned
        · exact .label hlabel
      · exact ih hopens.steady (hshown.block hlisted hopens.block hrange) htips' line hrest

/-- The block that shows a commit, where it is written. -/
structure ShownIn (input : MergesScriptInput) (walk : Walk) (state : LabelState) (oid : Text)
    (lines : List RebaseTodoLine) (done : List Text) (tip : Text) (rest shown added : List Text)
    (fork : Option Text) (state' : LabelState) (reset : RebaseTodoLine) : Prop where
  tips : tips input = done ++ tip :: rest
  shownBy : ShownBy input shown done
  opens : ∃ before, Opens input walk before shown tip added fork state' reset
  keeps : ∀ other label, state.commitToLabel.get other = some label →
    state'.commitToLabel.get other = some label
  mem : oid ∈ added
  reset_mem : reset ∈ lines
  lines_mem : ∀ line ∈ added.flatMap (commitLines state' walk), line ∈ lines

/-- **What is walked** is shown by a block. -/
theorem emitBlocks_shows (hlisted : input.Listed) (h : Steady input state walk)
    (hshown : ShownBy input shown done) (htips : tips input = done ++ rest) {oid : Text}
    (hnew : oid ∉ shown) (hwalked : ∃ tip ∈ rest, FirstReaches input tip oid) :
    ∃ done tip rest' shown' added fork state' reset, ShownIn input walk state oid
      (emitBlocks input walk state shown rest) done tip rest' shown' added fork state' reset := by
  induction rest generalizing state shown done with
  | nil => exact absurd hwalked fun ⟨_, hmem, _⟩ => not_mem_nil hmem
  | cons tip rest ih =>
    have hrange := inRange_tip (htips ▸ mem_append_right _ mem_cons_self)
    have htips' : tips input = (done ++ [tip]) ++ rest := by rw [htips, append_assoc]; rfl
    obtain ⟨other, hother, hreach⟩ := hwalked
    by_cases hmem : tip ∈ shown
    · rw [emitBlocks, if_pos (contains_iff_mem.mpr hmem)]
      refine ih h (hshown.skip hmem) htips' hnew ⟨other, ?_, hreach⟩
      rcases mem_cons.mp hother with rfl | hrest
      · exact absurd (hshown.closed.reached hmem hreach) hnew
      · exact hrest
    obtain ⟨added, fork, state', reset, hopens, heq⟩ :=
      emitBlocks_cons rest hlisted h hmem hrange
    rw [heq]
    by_cases hadded : oid ∈ added
    · exact ⟨done, tip, rest, shown, added, fork, state', reset, htips, hshown,
        ⟨state, hopens⟩, hopens.keeps, hadded, mem_cons_self,
        fun line hline => mem_cons_of_mem _ (mem_append_left _ hline)⟩
    have hnew' : oid ∉ shown ++ added := fun hboth =>
      (mem_append.mp hboth).elim hnew hadded
    have hother' : other ∈ rest := by
      rcases mem_cons.mp hother with rfl | hrest
      · exact absurd (hopens.block.complete hlisted hshown.closed rfl hreach)
          (not_or_intro hnew hadded)
      · exact hrest
    obtain ⟨done', tip', rest', shown', added', fork', last, reset', hin⟩ :=
      ih hopens.steady (hshown.block hlisted hopens.block hrange) htips' hnew'
        ⟨other, hother', hreach⟩
    exact ⟨done', tip', rest', shown', added', fork', last, reset', hin.tips, hin.shownBy,
      hin.opens, fun _ _ hold => hin.keeps _ _ (hopens.keeps _ _ hold), hin.mem,
      mem_cons_of_mem _ (mem_append_right _ hin.reset_mem),
      fun line hline => mem_cons_of_mem _ (mem_append_right _
        (hin.lines_mem line hline))⟩

section

variable (hlisted : input.Listed) (h : Steady input state walk)

include hlisted h

theorem emitBlocks_start {oid : Text} (hwalked : Walked input oid) :
    ∃ done tip rest shown added fork state' reset, ShownIn input walk state oid
      (emitBlocks input walk state [] (tips input)) done tip rest shown added fork state' reset :=
  emitBlocks_shows hlisted h shownBy_nil (nil_append _).symm not_mem_nil hwalked

theorem emitBlocks_walked {c : ScriptCommit} (hc : c ∈ input.commits) (hkept : c.skipped = false)
    (hwalked : Walked input c.id) :
    ∃ line ∈ emitBlocks input walk state [] (tips input), ∃ state', Planned state' c line := by
  obtain ⟨done, tip, rest, shown, added, fork, state', reset, hin⟩ :=
    emitBlocks_start hlisted h hwalked
  obtain ⟨before, hopens⟩ := hin.opens
  obtain ⟨line, hline, hplanned⟩ := hopens.steady.planned c hc hkept
  exact ⟨line, hin.lines_mem line (mem_flatMap.mpr
    ⟨c.id, hin.mem, mem_commitLines.mpr (Or.inl hline)⟩), state', hplanned⟩

theorem emitBlocks_labels {oid label : Text} (hget : state.commitToLabel.get oid = some label)
    (hwalked : Walked input oid) : .label label ∈ emitBlocks input walk state [] (tips input) := by
  obtain ⟨done, tip, rest, shown, added, fork, state', reset, hin⟩ :=
    emitBlocks_start hlisted h hwalked
  exact hin.lines_mem _ (mem_flatMap.mpr
    ⟨oid, hin.mem, mem_commitLines.mpr (Or.inr ⟨label, hin.keeps oid label hget, rfl⟩)⟩)

theorem emitBlocks_forks {c : ScriptCommit} {parent : Text} (hfork : ForkedFrom input c parent)
    (hnames : NamesFork input parent) : ∃ place branch,
      .reset place (some (forkSubject input parent)) branch ∈
        emitBlocks input walk state [] (tips input) := by
  obtain ⟨done, tip, rest, shown, added, fork, state', reset, hin⟩ :=
    emitBlocks_start hlisted h hfork.walked
  obtain ⟨before, hopens⟩ := hin.opens
  have hrange := inRange_tip (hin.tips ▸ mem_append_right _ mem_cons_self)
  have hreached := hopens.block.reached tip fun oid hoid _ =>
    Option.some.inj hoid ▸ .here hrange
  have hapart : parent ∉ added := by
    intro hparent
    obtain ⟨hnot, hreachParent⟩ := hreached parent hparent
    rcases hfork.apart with hout | ⟨front, earlier, back, hsplit, hearlier, hnone⟩
    · rw [hreachParent.inRange] at hout
      cases hout
    -- the tips up to the earlier one do not come to `c`, and this one does
    refine hnot ((hin.shownBy parent).mpr ⟨earlier, ?_, hearlier⟩)
    have hsplit' : (front ++ [earlier]) ++ back = done ++ tip :: rest := by
      rw [← hin.tips, hsplit, append_assoc]
      rfl
    rcases append_eq_append_iff.mp hsplit' with ⟨more, hdone, -⟩ | ⟨more, hfront, hback⟩
    · rw [hdone, append_assoc]
      exact mem_append_right _ mem_cons_self
    cases more with
    | nil =>
      rw [append_nil] at hfront
      rw [← hfront]
      exact mem_append_right _ mem_cons_self
    | cons next more =>
      obtain ⟨rfl, -⟩ := cons.inj hback
      exact absurd (hreached c.id hin.mem).2
        (hnone tip (hfront ▸ mem_append_right _ mem_cons_self))
  have hfork' := (hopens.block.parent hlisted hfork.mem hin.mem hfork.head).resolve_left hapart
  obtain ⟨place, branch, -, rfl⟩ := hopens.named parent hfork' hnames
  exact ⟨place, branch, hin.reset_mem⟩

end

end

/-! ### Round trips of scripts -/

section

variable {input : MergesScriptInput} {state : LabelState} {line : RebaseTodoLine}

/-- The patterns of the reader take what the script writes of its input. -/
structure MergesScriptInput.Readable (input : MergesScriptInput) : Prop where
  labels : ∀ naming, firstNaming (namings input) naming.2 = some naming →
    input.ontoBase ≠ some naming.2 → Clean input naming
  commits : ∀ c ∈ input.commits, c.skipped = false → Walked input c.id → OneLine c.subject
  forks : ∀ c parent, ForkedFrom input c parent → NamesFork input parent →
    OneLine (forkSubject input parent)

theorem Labelled.solid (h : Labelled input (namings input) state)
    (hclean : ∀ naming, firstNaming (namings input) naming.2 = some naming →
      input.ontoBase ≠ some naming.2 → Clean input naming) {oid label : Text}
    (hget : state.commitToLabel.get oid = some label) : Solid label := by
  by_cases hbase : input.ontoBase = some oid
  · exact h.others oid label hget (Or.inr hbase)
  · cases hfirst : firstNaming (namings input) oid with
    | none => exact h.others oid label hget (Or.inl (firstNaming_eq_none.mp hfirst))
    | some naming =>
      obtain ⟨-, rfl⟩ := mem_of_firstNaming hfirst
      exact (h.named naming label hfirst hbase hget).mpr (hclean naming hfirst hbase)

theorem IsLabel.isWord {label : Text} (h : IsLabel label) (hsolid : Solid label) : IsWord label :=
  ⟨h.ne_nil, hsolid⟩

theorem not_mem_forkSubject (hlisted : input.Listed) (oid : Text) :
    '\n' ∉ forkSubject input oid := by
  rw [forkSubject]
  split
  · next c hc => exact hlisted.subjects c (mem_of_find?_eq_some hc)
  · cases houtside : input.outsideSubjects.get oid with
    | none => exact not_mem_nil
    | some subject => exact hlisted.outside oid subject houtside

theorem Planned.labels_get {c : ScriptCommit} {labels : List Text}
    (hlabels : labels.map some = c.parents.tail.map state.commitToLabel.get) {label : Text}
    (h : label ∈ labels) : ∃ oid, state.commitToLabel.get oid = some label := by
  have hmem := mem_map_of_mem (f := some) h
  rw [hlabels] at hmem
  obtain ⟨oid, -, hoid⟩ := mem_map.mp hmem
  exact ⟨oid, hoid⟩

/-- A line of the script is one line. -/
theorem Comes.newline_not_mem (hlisted : input.Listed) (h : Labelled input (namings input) state)
    (hcomes : Comes input state line) : '\n' ∉ lineText line := by
  have hmark : ∀ text : Text, '\n' ∉ text → '\n' ∉ " # ".toList ++ text := fun text htext hmem =>
    (mem_append.mp hmem).elim (by decide) htext
  have hlabel : ∀ oid label, state.commitToLabel.get oid = some label → '\n' ∉ label :=
    fun oid label hget => (h.shape oid label hget).not_mem (by decide)
  cases hcomes with
  | @label oid name hget =>
    rw [lineText_label, mem_append]
    exact not_or_intro (by decide) (hlabel oid name hget)
  | @todo c line hc hkept hwalked hplanned =>
    have hid := (isHexWord_of_isObjectId (hlisted.ids c hc).1).isLabel.not_mem
      (show isLabelChar '\n' = false by decide)
    cases hplanned with
    | pick htail =>
      rw [lineText_entry, mem_append, mem_cons, mem_append]
      exact not_or_intro (by decide) (not_or_intro (by decide)
        (not_or_intro hid (hmark _ (hlisted.subjects c hc))))
    | merge htail labels hlabels =>
      have hoperands : '\n' ∉ [' '].intercalate labels := fun hmem => by
        rcases mem_of_mem_intercalate hmem with heq | ⟨label, hlabelMem, hchar⟩
        · cases heq
        · obtain ⟨oid, hoid⟩ := Planned.labels_get hlabels hlabelMem
          exact hlabel oid label hoid hchar
      rw [lineText_merge, mem_append, mem_append, mem_cons, mem_append]
      exact not_or_intro (not_or_intro (by decide) hid) (not_or_intro (by decide)
        (not_or_intro hoperands (hmark _ (hlisted.subjects c hc))))
  | root branch =>
    rw [lineText_reset]
    decide
  | onto branch =>
    rw [lineText_reset]
    decide
  | @fork c parent place branch hfork hnames hget =>
    rw [lineText_reset, resetText_eq, mem_append, mem_append]
    exact not_or_intro (by decide) (not_or_intro (hlabel parent place hget)
      (hmark _ (not_mem_forkSubject hlisted parent)))

theorem Comes.plain (hlisted : input.Listed) (h : Labelled input (namings input) state)
    (hclean : ∀ naming, firstNaming (namings input) naming.2 = some naming →
      input.ontoBase ≠ some naming.2 → Clean input naming) (hcomes : Comes input state line) :
    line.Plain := by
  cases hcomes with
  | label hget => trivial
  | @todo c line hc hkept hwalked hplanned =>
    have hid := (isHexWord_of_isObjectId (hlisted.ids c hc).1).isWord
    cases hplanned with
    | pick htail => exact hid
    | merge htail labels hlabels =>
      refine ⟨hid, ⟨?_, fun label hlabel => ?_, fun label hlabel => ?_⟩⟩
      · rintro rfl
        exact htail (map_eq_nil_iff.mp hlabels.symm)
      · obtain ⟨oid, hoid⟩ := Planned.labels_get hlabels hlabel
        exact (h.shape oid label hoid).isWord (h.solid hclean hoid)
      · obtain ⟨oid, hoid⟩ := Planned.labels_get hlabels hlabel
        exact (h.shape oid label hoid).not_mem (by decide)
  | root branch => exact Or.inr rfl
  | onto branch => exact Or.inl ⟨by decide, solid_onto⟩
  | @fork c parent place branch hfork hnames hget =>
    exact Or.inl ((h.shape parent place hget).isWord (h.solid hclean hget))

theorem Comes.legible (h : Labelled input (namings input) state) (hreadable : input.Readable)
    (hcomes : Comes input state line) : line.Legible := by
  cases hcomes with
  | @label oid name hget => exact (h.shape oid name hget).isWord (h.solid hreadable.labels hget)
  | @todo c line hc hkept hwalked hplanned =>
    have hsubject := hreadable.commits c hc hkept hwalked
    cases hplanned with
    | pick htail => exact hsubject
    | merge htail labels hlabels => exact hsubject
  | root branch => exact forall_mem_nil _
  | onto branch => exact forall_mem_nil _
  | fork branch hfork hnames hget => exact hreadable.forks _ _ hfork hnames

theorem makeScriptWithMerges_eq (input : MergesScriptInput) : makeScriptWithMerges input =
    .label onto :: emitBlocks input (labelBranchPoints input (planned input).1 (planned input).2).2
      (labelBranchPoints input (planned input).1 (planned input).2).1 []
        (labelBranchPoints input (planned input).1 (planned input).2).2.tips := rfl

theorem walked_of_firstNaming {naming : ScriptCommit × Text}
    (hfirst : firstNaming (namings input) naming.2 = some naming)
    (hrange : inRange input naming.2 = true) : Walked input naming.2 := by
  obtain ⟨hc, hparent⟩ := mem_namings.mp (mem_of_firstNaming hfirst).1
  refine ⟨naming.2, mem_append_left _ (mem_filter.mpr ⟨?_, hrange⟩), .here hrange⟩
  exact mem_flatMap.mpr ⟨naming.1, hc, hparent⟩

/-- **The script of a rebase** is read back with the same instructions exactly where the patterns
take its labels and subjects. -/
theorem rebaseTodo_exact (hlisted : input.Listed) :
    RoundTrips (makeScriptWithMerges input) ↔ input.Readable := by
  have hready := ready_labelBranchPoints hlisted
  have hscript := makeScriptWithMerges_eq input
  generalize (labelBranchPoints input (planned input).1 (planned input).2) = left at hready hscript
  obtain ⟨state, walk⟩ := left
  rw [hready.tips] at hscript
  have hsteady := hready.steady
  have hsound : ∀ line ∈ makeScriptWithMerges input,
      ∃ state', Labelled input (namings input) state' ∧
        (Comes input state' line ∨ line = .label onto) := by
    rw [hscript]
    intro line hline
    rcases mem_cons.mp hline with heq | hline
    · exact ⟨state, hready.labelled, Or.inr heq⟩
    · obtain ⟨state', hlabelled, hcomes⟩ := emitBlocks_sound hlisted hsteady
        shownBy_nil (nil_append _).symm line hline
      exact ⟨state', hlabelled, Or.inl hcomes⟩
  have hsingle : ∀ line ∈ makeScriptWithMerges input, '\n' ∉ lineText line := fun line hline => by
    obtain ⟨state', hlabelled, hcomes | rfl⟩ := hsound line hline
    · exact hcomes.newline_not_mem hlisted hlabelled
    · decide
  have hplain : (∀ naming, firstNaming (namings input) naming.2 = some naming →
      input.ontoBase ≠ some naming.2 → Clean input naming) →
        ∀ line ∈ makeScriptWithMerges input, line.Plain := fun hclean line hline => by
    obtain ⟨state', hlabelled, hcomes | rfl⟩ := hsound line hline
    · exact hcomes.plain hlisted hlabelled hclean
    · trivial
  constructor
  · intro hround
    have hclean : ∀ naming, firstNaming (namings input) naming.2 = some naming →
        input.ontoBase ≠ some naming.2 → Clean input naming := by
      intro naming hfirst hbase
      by_cases hrange : inRange input naming.2 = true
      · obtain ⟨label, hget⟩ := Option.ne_none_iff_exists'.mp (hready.labelled.covered naming.2
          (Or.inr (mem_map_of_mem (mem_of_firstNaming hfirst).1)))
        have hline : .label label ∈ makeScriptWithMerges input := by
          rw [hscript]
          exact mem_cons_of_mem _ (emitBlocks_labels hlisted hsteady hget
            (walked_of_firstNaming hfirst hrange))
        obtain ⟨parsed, hparsed⟩ := hround.parsed hsingle _ hline
        have hword : IsWord label :=
          @RebaseTodoLine.legible_of_parseLine (.label label) parsed trivial hparsed
        exact (hready.labelled.named naming label hfirst hbase hget).mp hword.solid
      · intro wanted hwanted
        rw [wantedFor, if_neg hrange] at hwanted
        cases hwanted
    have hlegible := (roundTrips_iff hsingle (hplain hclean)).mp hround
    refine ⟨hclean, fun c hc hkept hwalked => ?_, fun c parent hfork hnames => ?_⟩
    · obtain ⟨line, hline, state', hplanned⟩ := emitBlocks_walked hlisted hsteady hc hkept hwalked
      have hline' := hlegible line (by rw [hscript]; exact mem_cons_of_mem _ hline)
      cases hplanned with
      | pick htail => exact hline'
      | merge htail labels hlabels => exact hline'
    · obtain ⟨place, branch, hline⟩ := emitBlocks_forks hlisted hsteady hfork hnames
      exact hlegible _ (by rw [hscript]; exact mem_cons_of_mem _ hline)
  · intro hreadable
    refine (roundTrips_iff hsingle (hplain hreadable.labels)).mpr fun line hline => ?_
    obtain ⟨state', hlabelled, hcomes | rfl⟩ := hsound line hline
    · exact hcomes.legible hlabelled hreadable
    · exact ⟨by decide, solid_onto⟩

def sampleInput : MergesScriptInput where
  commits :=
    [⟨replicate 40 'a', [], "first".toList, false⟩,
      ⟨replicate 40 'b', [replicate 40 'a', replicate 40 'c'],
        "Merge branch 'topic'".toList, false⟩]
  ontoBase := none
  branchNames := Dict.empty
  abbreviations := Dict.empty
  outsideSubjects := Dict.empty
  rebaseCousins := false

theorem listed_sampleInput : sampleInput.Listed where
  ids c hc := by
    rcases mem_cons.mp hc with rfl | hc
    · exact ⟨isObjectId_replicate rfl, fun _ hparent => absurd hparent not_mem_nil⟩
    rw [mem_singleton.mp hc]
    refine ⟨isObjectId_replicate rfl, fun parent hparent => ?_⟩
    rcases mem_cons.mp hparent with rfl | hparent
    · exact isObjectId_replicate rfl
    · rw [mem_singleton.mp hparent]
      exact isObjectId_replicate rfl
  abbreviations _ _ h := by cases h
  subjects c hc := by
    rcases mem_cons.mp hc with rfl | hc
    · decide
    · rw [mem_singleton.mp hc]
      decide
  outside _ _ h := by cases h
  nodup := by decide
  parents_first before c after hcommits parent hparent hrange := by
    cases before with
    | nil =>
      obtain ⟨rfl, -⟩ := cons.inj hcommits
      exact absurd hparent not_mem_nil
    | cons first before =>
      obtain ⟨rfl, hrest⟩ := cons.inj hcommits
      cases before with
      | nil =>
        obtain ⟨rfl, -⟩ := cons.inj hrest
        rcases mem_cons.mp hparent with rfl | hother
        · exact mem_cons_self
        · rw [mem_singleton.mp hother] at hrange
          exact absurd hrange (by decide)
      | cons second before =>
        exact absurd (cons.inj hrest).2 (append_ne_nil_of_right_ne_nil _
          (cons_ne_nil _ _)).symm

theorem rebaseTodo_exact_sample :
    RoundTrips (makeScriptWithMerges sampleInput) ↔ sampleInput.Readable :=
  rebaseTodo_exact listed_sampleInput

def separatorInput : MergesScriptInput where
  commits := [⟨replicate 40 'a', [], ['a', Char.ofNat 0x2028, 'b'], false⟩]
  ontoBase := none
  branchNames := Dict.empty
  abbreviations := Dict.empty
  outsideSubjects := Dict.empty
  rebaseCousins := false

/-- The script of a commit with a line separator in its subject is refused. -/
theorem rebaseTodo_separator :
    separatorInput.Listed ∧ ¬ RoundTrips (makeScriptWithMerges separatorInput) := by
  refine ⟨⟨fun c hc => ?_, (fun _ _ h => by cases h), fun c hc => ?_, (fun _ _ h => by cases h),
    nodup_singleton _, fun before c after hcommits parent hparent _ => ?_⟩, fun h => ?_⟩
  · rw [mem_singleton.mp hc]
    exact ⟨isObjectId_replicate rfl, fun _ hparent => absurd hparent not_mem_nil⟩
  · rw [mem_singleton.mp hc]
    decide
  · have hc : c ∈ separatorInput.commits :=
      hcommits ▸ mem_append_right _ mem_cons_self
    rw [mem_singleton.mp hc] at hparent
    exact absurd hparent not_mem_nil
  have hscript : makeScriptWithMerges separatorInput = [.label onto, .reset newRoot none none,
        .entry .pick (replicate 40 'a') ['a', Char.ofNat 0x2028, 'b']] := by decide
  rw [hscript] at h
  have hsingle : ∀ line ∈ [.label onto, .reset newRoot none none,
      .entry .pick (replicate 40 'a') ['a', Char.ofNat 0x2028, 'b']],
        '\n' ∉ lineText line := by
    rw [forall_mem_cons, forall_mem_cons, forall_mem_singleton]
    decide
  obtain ⟨parsed, hparsed⟩ := h.parsed hsingle _
    (mem_cons_of_mem _ (mem_cons_of_mem _ mem_cons_self))
  have hword : IsWord (replicate 40 'a') :=
    (isHexWord_of_isObjectId (isObjectId_replicate rfl)).isWord
  rw [parseLine_entry .pick hword, if_neg (by decide)] at hparsed
  cases hparsed

end

end Tsgit.Rebase
