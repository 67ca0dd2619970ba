import Mathlib.Data.List.Find
import Tsgit.MergesScript

/-!
# Labels of a Rebase Script

The first two phases of the generator, as what they do to the labels. The first phase is a fold over
the namings of the range: the later parents of the commits that are kept, in the order of the
commits.
-/

namespace Tsgit.Rebase

open List

/-! ### Namings -/

def ScriptCommit.merged (c : ScriptCommit) : List Text := if c.skipped then [] else c.parents.tail

def namingsOf (c : ScriptCommit) : List (ScriptCommit × Text) :=
  c.merged.map fun parent => (c, parent)

/-- The merges and the parents that they name, in their order. -/
def namings (input : MergesScriptInput) : List (ScriptCommit × Text) :=
  input.commits.flatMap namingsOf

def inRange (input : MergesScriptInput) (oid : Text) : Bool :=
  (input.commits.map (·.id)).contains oid

def wantedFor (input : MergesScriptInput) (naming : ScriptCommit × Text) : Option Text :=
  if inRange input naming.2 then
    some ((input.branchNames.get naming.2).getD (labelFromMessage naming.1.subject))
  else none

def firstNaming (front : List (ScriptCommit × Text)) (oid : Text) : Option (ScriptCommit × Text) :=
  front.find? (·.2 == oid)

def saysOnto (input : MergesScriptInput) (naming : ScriptCommit × Text) : Bool :=
  (wantedFor input naming).any fun wanted => sanitizeLabel wanted == onto

/-- The commit that is called `onto`: the bottom of the walk, or the first commit whose first naming
comes to that. -/
def ontoTaker (input : MergesScriptInput) (front : List (ScriptCommit × Text)) : Option Text :=
  input.ontoBase.or
    ((front.find? fun naming =>
      saysOnto input naming && decide (firstNaming front naming.2 = some naming)).map (·.2))

/-- No white space is left in the text of the label. -/
def Clean (input : MergesScriptInput) (naming : ScriptCommit × Text) : Prop :=
  ∀ wanted, wantedFor input naming = some wanted → Solid (sanitizeLabel wanted)

/-- The input as the walk hands it over: each commit once and behind its parents. -/
structure MergesScriptInput.Listed (input : MergesScriptInput) : Prop where
  ids : ∀ c ∈ input.commits, IsObjectId c.id ∧ ∀ parent ∈ c.parents, IsObjectId parent
  abbreviations : ∀ oid short, input.abbreviations.get oid = some short → IsHexWord short
  subjects : ∀ c ∈ input.commits, '\n' ∉ c.subject
  outside : ∀ oid subject, input.outsideSubjects.get oid = some subject → '\n' ∉ subject
  nodup : (input.commits.map (·.id)).Nodup
  parents_first : ∀ before c after, input.commits = before ++ c :: after →
    ∀ parent ∈ c.parents, inRange input parent = true → parent ∈ before.map (·.id)

/-- One turn of the first phase on the labels. -/
def nameOid (input : MergesScriptInput) (state : LabelState) (naming : ScriptCommit × Text) :
    LabelState :=
  (labelOid input state naming.2 (wantedFor input naming)).1

section

variable {input : MergesScriptInput} {state : LabelState} {walk : Walk}

theorem get_foldl_nameOid {front : List (ScriptCommit × Text)} {oid label : Text}
    (h : state.commitToLabel.get oid = some label) :
    (front.foldl (nameOid input) state).commitToLabel.get oid = some label := by
  induction front generalizing state with
  | nil => exact h
  | cons naming front ih => exact ih (get_labelOid_of_some h)

theorem labelParents_spec {c : ScriptCommit} {parents : List Text}
    (h : ∀ parent ∈ parents, (walk.byId.get parent).isNone = ! inRange input parent) :
    (labelParents input walk (labelFromMessage c.subject) state parents).1 =
        (parents.map fun parent => (c, parent)).foldl (nameOid input) state ∧
      (labelParents input walk (labelFromMessage c.subject) state parents).2.map some =
        parents.map (labelParents input walk (labelFromMessage c.subject) state
          parents).1.commitToLabel.get := by
  induction parents generalizing state with
  | nil => exact ⟨rfl, rfl⟩
  | cons parent parents ih =>
    obtain ⟨hparent, hparents⟩ := forall_mem_cons.mp h
    have hwanted : (if (walk.byId.get parent).isNone then none
        else some ((input.branchNames.get parent).getD (labelFromMessage c.subject))) =
          wantedFor input (c, parent) := by
      rw [hparent, wantedFor]
      cases inRange input parent <;> rfl
    rw [labelParents, hwanted]
    obtain ⟨hstate, hlabels⟩ :=
      @ih (labelOid input state parent (wantedFor input (c, parent))).1 hparents
    refine ⟨hstate, ?_⟩
    dsimp only
    rw [map_cons, map_cons, hlabels]
    refine congrArg (· :: _) ?_
    rw [hstate]
    exact (get_foldl_nameOid get_labelOid_self).symm

/-- The instruction that a commit is planned as. -/
inductive Planned (state : LabelState) (c : ScriptCommit) : RebaseTodoLine → Prop
  | pick (h : c.parents.tail = []) : Planned state c (.entry .pick c.id c.subject)
  | merge (h : c.parents.tail ≠ []) (labels : List Text)
      (hlabels : labels.map some = c.parents.tail.map state.commitToLabel.get) :
      Planned state c (.merge c.id labels c.subject)

/-- What the first phase leaves behind the commits `before`. -/
structure PlannedTo (input : MergesScriptInput) (before : List ScriptCommit) (state : LabelState)
    (walk : Walk) : Prop where
  byId : ∀ oid, walk.byId.get oid = before.find? (·.id == oid)
  state_eq : state = (before.flatMap namingsOf).foldl (nameOid input) (initialState input)
  tips : walk.tips = (before.flatMap ScriptCommit.merged).filter (inRange input)
  planned : ∀ c ∈ before, c.skipped = false →
    ∃ line, walk.todo.get c.id = some line ∧ Planned state c line
  todo : ∀ oid line, walk.todo.get oid = some line →
    ∃ c ∈ before, c.id = oid ∧ c.skipped = false ∧ Planned state c line

theorem Planned.mono {state' : LabelState} {c : ScriptCommit} {line : RebaseTodoLine}
    (h : Planned state c line)
    (hmore : ∀ oid label, state.commitToLabel.get oid = some label →
      state'.commitToLabel.get oid = some label) : Planned state' c line := by
  cases h with
  | pick h => exact .pick h
  | merge h labels hlabels =>
    refine .merge h labels (hlabels.trans (map_congr_left fun parent hparent => ?_))
    have hmem : state.commitToLabel.get parent ∈ c.parents.tail.map state.commitToLabel.get :=
      mem_map_of_mem hparent
    rw [← hlabels] at hmem
    obtain ⟨label, -, hlabel⟩ := mem_map.mp hmem
    rw [← hlabel, hmore parent label hlabel.symm]

theorem find?_isSome_iff {commits : List ScriptCommit} {oid : Text} :
    (commits.find? (·.id == oid)).isSome = true ↔ oid ∈ commits.map (·.id) := by
  rw [find?_isSome, mem_map]
  exact exists_congr fun c => and_congr_right fun _ => beq_iff_eq

theorem inRange_iff {oid : Text} : inRange input oid = true ↔ oid ∈ input.commits.map (·.id) :=
  contains_iff_mem

variable {before after : List ScriptCommit} {c : ScriptCommit}

theorem isNone_find?_parent (h : input.Listed) (hcommits : input.commits = before ++ c :: after)
    {parent : Text} (hparent : parent ∈ c.parents) :
    ((before ++ [c]).find? (·.id == parent)).isNone = ! inRange input parent := by
  rw [← Option.not_isSome]
  refine congrArg (! ·) (Bool.eq_iff_iff.mpr ?_)
  rw [find?_isSome_iff, map_append, mem_append]
  constructor
  · rintro (hbefore | hself)
    · rw [inRange_iff, hcommits, map_append]
      exact mem_append_left _ hbefore
    · rw [inRange_iff, hcommits, map_append, map_cons, mem_append, mem_cons]
      exact Or.inr (Or.inl (mem_singleton.mp hself))
  · exact fun hrange => Or.inl (h.parents_first before c after hcommits parent hparent hrange)

theorem PlannedTo.insert (h : input.Listed) (hcommits : input.commits = before ++ c :: after)
    (hplanned : PlannedTo input before state walk) (oid : Text) :
    (walk.byId.insert c.id c).get oid = (before ++ [c]).find? (·.id == oid) := by
  have hnew : c.id ∉ before.map (·.id) := by
    have hnodup := h.nodup
    rw [hcommits, map_append, map_cons, nodup_append] at hnodup
    exact fun hmem => hnodup.2.2 c.id hmem c.id mem_cons_self rfl
  rw [find?_append]
  by_cases heq : oid = c.id
  · have hnone : before.find? (·.id == c.id) = none := by
      rw [← Option.not_isSome_iff_eq_none, find?_isSome_iff]
      exact hnew
    have hself : [c].find? (·.id == c.id) = some c :=
      find?_cons_of_pos (beq_self_eq_true c.id)
    rw [heq, Dict.get_insert_self, hnone, Option.none_or, hself]
  · have hother : [c].find? (·.id == oid) = none :=
      find?_cons_of_neg fun hid => heq (eq_of_beq hid).symm
    rw [Dict.get_insert_of_ne _ _ heq, hplanned.byId, hother, Option.or_none]

/-- One commit of the first phase. -/
theorem PlannedTo.step (h : input.Listed) (hcommits : input.commits = before ++ c :: after)
    (hplanned : PlannedTo input before state walk) :
    PlannedTo input (before ++ [c])
      (planCommit input state { walk with byId := walk.byId.insert c.id c } c).1
      (planCommit input state { walk with byId := walk.byId.insert c.id c } c).2 := by
  have hbyId := hplanned.insert h hcommits
  have hnew : c.id ∉ before.map (·.id) := by
    have hnodup := h.nodup
    rw [hcommits, map_append, map_cons, nodup_append] at hnodup
    exact fun hmem => hnodup.2.2 c.id hmem c.id mem_cons_self rfl
  have hne : ∀ d ∈ before, d.id ≠ c.id := fun d hd heq => hnew (heq ▸ mem_map_of_mem hd)
  rw [planCommit]
  split
  · next hskipped =>
    have hmerged : c.merged = [] := if_pos hskipped
    refine ⟨hbyId, ?_, ?_, fun d hd hkept => ?_, fun oid line hline => ?_⟩
    · rw [flatMap_append, flatMap_singleton, namingsOf, hmerged, map_nil, append_nil]
      exact hplanned.state_eq
    · rw [flatMap_append, flatMap_singleton, hmerged, append_nil]
      exact hplanned.tips
    · rcases mem_append.mp hd with hbefore | hself
      · exact hplanned.planned d hbefore hkept
      · rw [mem_singleton.mp hself, hskipped] at hkept
        cases hkept
    · obtain ⟨d, hd, hrest⟩ := hplanned.todo oid line hline
      exact ⟨d, mem_append_left _ hd, hrest⟩
  · next hkept =>
    have hkept := Bool.eq_false_iff.mpr hkept
    have hmerged : c.merged = c.parents.tail := if_neg (by rw [hkept]; exact Bool.false_ne_true)
    split
    · next htail =>
      refine ⟨hbyId, ?_, ?_, fun d hd hdkept => ?_, fun oid line hline => ?_⟩
      · rw [flatMap_append, flatMap_singleton, namingsOf, hmerged, htail, map_nil, append_nil]
        exact hplanned.state_eq
      · rw [flatMap_append, flatMap_singleton, hmerged, htail, append_nil]
        exact hplanned.tips
      · dsimp only
        rcases mem_append.mp hd with hbefore | hself
        · rw [Dict.get_insert_of_ne _ _ (hne d hbefore)]
          exact hplanned.planned d hbefore hdkept
        · rw [mem_singleton.mp hself, Dict.get_insert_self]
          exact ⟨_, rfl, .pick htail⟩
      · dsimp only at hline
        by_cases heq : oid = c.id
        · rw [heq, Dict.get_insert_self] at hline
          exact ⟨c, mem_append_right _ mem_cons_self, heq.symm, hkept,
            Option.some.inj hline ▸ .pick htail⟩
        · rw [Dict.get_insert_of_ne _ _ heq] at hline
          obtain ⟨d, hd, hrest⟩ := hplanned.todo oid line hline
          exact ⟨d, mem_append_left _ hd, hrest⟩
    · next htail =>
      have hparents : ∀ parent ∈ c.parents.tail,
          ((walk.byId.insert c.id c).get parent).isNone = ! inRange input parent :=
        fun parent hparent => by
          rw [hbyId]
          exact isNone_find?_parent h hcommits (mem_of_mem_tail hparent)
      obtain ⟨hstate, hlabels⟩ := @labelParents_spec input state
        { walk with byId := walk.byId.insert c.id c } c c.parents.tail hparents
      have hmore : ∀ oid label, state.commitToLabel.get oid = some label →
          (labelParents input { walk with byId := walk.byId.insert c.id c }
            (labelFromMessage c.subject) state c.parents.tail).1.commitToLabel.get oid =
            some label := fun oid label hget => by
        rw [hstate]
        exact get_foldl_nameOid hget
      have hmerge := Planned.merge htail _ hlabels
      refine ⟨hbyId, ?_, ?_, fun d hd hdkept => ?_, fun oid line hline => ?_⟩
      · rw [flatMap_append, flatMap_singleton, foldl_append,
          ← hplanned.state_eq, namingsOf, hmerged]
        exact hstate
      · dsimp only
        rw [flatMap_append, flatMap_singleton, filter_append, hmerged, hplanned.tips]
        refine congrArg (_ ++ ·) (filter_congr fun parent hparent => ?_)
        rw [← Option.not_isNone, hparents parent hparent, Bool.not_not]
      · dsimp only
        rcases mem_append.mp hd with hbefore | hself
        · rw [Dict.get_insert_of_ne _ _ (hne d hbefore)]
          obtain ⟨line, hline, hold⟩ := hplanned.planned d hbefore hdkept
          exact ⟨line, hline, hold.mono hmore⟩
        · rw [mem_singleton.mp hself, Dict.get_insert_self]
          exact ⟨_, rfl, hmerge⟩
      · dsimp only at hline
        by_cases heq : oid = c.id
        · rw [heq, Dict.get_insert_self] at hline
          exact ⟨c, mem_append_right _ mem_cons_self, heq.symm, hkept,
            Option.some.inj hline ▸ hmerge⟩
        · rw [Dict.get_insert_of_ne _ _ heq] at hline
          obtain ⟨d, hd, hid, hdkept, hold⟩ := hplanned.todo oid line hline
          exact ⟨d, mem_append_left _ hd, hid, hdkept, hold.mono hmore⟩

/-- **The first phase**: a todo line for each commit that is kept, and the labels of the namings. -/
theorem planCommits_spec (h : input.Listed) (hcommits : input.commits = before ++ after)
    (hplanned : PlannedTo input before state walk) :
    PlannedTo input input.commits (planCommits input state walk after).1
      (planCommits input state walk after).2 := by
  induction after generalizing before state walk with
  | nil =>
    rw [append_nil] at hcommits
    rw [hcommits]
    exact hplanned
  | cons c after ih =>
    rw [planCommits]
    exact ih (by rw [hcommits, append_assoc]; rfl) (hplanned.step h hcommits)

theorem plannedTo_nil :
    PlannedTo input [] (initialState input) ⟨Dict.empty, Dict.empty, []⟩ where
  byId _ := rfl
  state_eq := rfl
  tips := rfl
  planned _ hc := absurd hc not_mem_nil
  todo _ _ h := by cases h

end

/-! ### Who is called what -/

section

variable {input : MergesScriptInput} {front : List (ScriptCommit × Text)}
  {naming : ScriptCommit × Text} {state : LabelState}

theorem firstNaming_append (oid : Text) : firstNaming (front ++ [naming]) oid =
    (firstNaming front oid).or (if naming.2 = oid then some naming else none) := by
  rw [firstNaming, find?_append, firstNaming]
  refine congrArg (Option.or _) ?_
  by_cases h : naming.2 = oid
  · rw [if_pos h]
    exact find?_cons_of_pos (beq_iff_eq.mpr h)
  · rw [if_neg h]
    exact find?_cons_of_neg fun heq => h (eq_of_beq heq)

theorem firstNaming_eq_none {oid : Text} :
    firstNaming front oid = none ↔ oid ∉ front.map (·.2) := by
  rw [firstNaming, find?_eq_none, mem_map]
  exact ⟨fun h ⟨x, hx, heq⟩ => h x hx (beq_iff_eq.mpr heq),
    fun h x hx heq => h ⟨x, hx, eq_of_beq heq⟩⟩

theorem mem_of_firstNaming {oid : Text} (h : firstNaming front oid = some naming) :
    naming ∈ front ∧ naming.2 = oid :=
  have hbeq : (naming.2 == oid) = true :=
    find?_some (p := fun other : ScriptCommit × Text => other.2 == oid) h
  ⟨mem_of_find?_eq_some h, eq_of_beq hbeq⟩

theorem ontoTaker_append : ontoTaker input (front ++ [naming]) = (ontoTaker input front).or
      (if saysOnto input naming = true ∧ naming.2 ∉ front.map (·.2) then some naming.2
      else none) := by
  rw [ontoTaker, ontoTaker, Option.or_assoc]
  refine congrArg (Option.or _) ?_
  have hfront : (front.find? fun other => saysOnto input other &&
        decide (firstNaming (front ++ [naming]) other.2 = some other)) =
      front.find? fun other => saysOnto input other &&
        decide (firstNaming front other.2 = some other) := by
    refine find?_congr fun other hother => ?_
    have hsome : firstNaming front other.2 ≠ none := fun hnone =>
      firstNaming_eq_none.mp hnone (mem_map_of_mem hother)
    obtain ⟨first, hfirst⟩ := Option.ne_none_iff_exists'.mp hsome
    rw [firstNaming_append, hfirst, Option.some_or]
  rw [find?_append, hfront]
  cases htaker : (front.find? fun other => saysOnto input other &&
      decide (firstNaming front other.2 = some other)) with
  | some other => rfl
  | none =>
    rw [Option.none_or, Option.map_none, Option.none_or]
    by_cases hnew : saysOnto input naming = true ∧ naming.2 ∉ front.map (·.2)
    · have hself : firstNaming (front ++ [naming]) naming.2 = some naming := by
        rw [firstNaming_append, firstNaming_eq_none.mpr hnew.2, if_pos rfl, Option.none_or]
      rw [if_pos hnew, find?_cons_of_pos (by rw [hnew.1, decide_eq_true hself]; rfl)]
      rfl
    rw [if_neg hnew, find?_cons_of_neg]
    · rfl
    · intro hboth
      rw [Bool.and_eq_true, decide_eq_true_eq] at hboth
      obtain ⟨hspells, hfirst⟩ := hboth
      have hold : naming.2 ∈ front.map (·.2) := by
        by_contra hnot
        exact hnew ⟨hspells, hnot⟩
      obtain ⟨first, hsome⟩ := Option.ne_none_iff_exists'.mp
        (firstNaming_eq_none.not.mpr (not_not_intro hold))
      rw [firstNaming_append, hsome, Option.some_or] at hfirst
      have hmem := (mem_of_firstNaming hsome).1
      rw [Option.some.inj hfirst] at hmem hsome
      refine find?_eq_none.mp htaker naming hmem ?_
      rw [hspells, decide_eq_true hsome]
      rfl

/-- The labels behind the namings `front`, and perhaps others. -/
structure Labelled (input : MergesScriptInput) (front : List (ScriptCommit × Text))
    (state : LabelState) : Prop where
  indexed : state.Indexed
  covered : ∀ oid, input.ontoBase = some oid ∨ oid ∈ front.map (·.2) →
    state.commitToLabel.get oid ≠ none
  named : ∀ naming label, firstNaming front naming.2 = some naming →
    input.ontoBase ≠ some naming.2 → state.commitToLabel.get naming.2 = some label →
      (Solid label ↔ Clean input naming)
  others : ∀ oid label, state.commitToLabel.get oid = some label →
    oid ∉ front.map (·.2) ∨ input.ontoBase = some oid → Solid label
  shape : ∀ oid label, state.commitToLabel.get oid = some label → IsLabel label
  onto_iff : ∀ oid, state.commitToLabel.get oid = some onto ↔ ontoTaker input front = some oid

/-- Only the namings have given labels. -/
def OnlyNamed (input : MergesScriptInput) (front : List (ScriptCommit × Text))
    (state : LabelState) : Prop :=
  ∀ oid, state.commitToLabel.get oid ≠ none → input.ontoBase = some oid ∨ oid ∈ front.map (·.2)

theorem solid_onto : Solid onto := fun c hc =>
  (Bool.not_eq_true' _).mp
    (all_eq_true.mp (show onto.all (! isWhitespace ·) = true by decide) c hc)

theorem Labelled.contains_onto (h : Labelled input front state) :
    state.labels.contains onto = false ↔ ontoTaker input front = none := by
  rw [Bool.eq_false_iff, Ne, contains_iff_mem, h.indexed onto, Option.eq_none_iff_forall_ne_some]
  push Not
  exact forall_congr' fun oid => (h.onto_iff oid).not

theorem Labelled.add (h : Labelled input front state) {oid : Text} {wanted : Option Text}
    (hfresh : IsLabel (freshLabel input state oid wanted) ∧
      Solid (freshLabel input state oid wanted) ∧ freshLabel input state oid wanted ≠ onto) :
    Labelled input front (labelOid input state oid wanted).1 := by
  cases hget : state.commitToLabel.get oid with
  | some label => rwa [labelOid_existing hget]
  | none =>
    have hnew : ¬ (input.ontoBase = some oid ∨ oid ∈ front.map (·.2)) := fun hcovered =>
      h.covered oid hcovered hget
    have hindexed := h.indexed.labelOid input oid wanted
    rw [labelOid_fresh hget] at hindexed ⊢
    refine ⟨hindexed, fun other hother => ?_, fun other label hfirst hbase hlabel => ?_,
      fun other label hlabel hother => ?_, fun other label hlabel => ?_, fun other => ?_⟩
    · have hne : other ≠ oid := fun heq => hnew (heq ▸ hother)
      exact fun hnone => h.covered other hother
        (by rwa [Dict.get_insert_of_ne _ _ hne] at hnone)
    · have hne : other.2 ≠ oid := fun heq =>
        hnew (Or.inr (heq ▸ mem_map_of_mem (mem_of_firstNaming hfirst).1))
      rw [Dict.get_insert_of_ne _ _ hne] at hlabel
      exact h.named other label hfirst hbase hlabel
    · by_cases heq : other = oid
      · rw [heq, Dict.get_insert_self] at hlabel
        exact Option.some.inj hlabel ▸ hfresh.2.1
      · rw [Dict.get_insert_of_ne _ _ heq] at hlabel
        exact h.others other label hlabel hother
    · by_cases heq : other = oid
      · rw [heq, Dict.get_insert_self] at hlabel
        exact Option.some.inj hlabel ▸ hfresh.1
      · rw [Dict.get_insert_of_ne _ _ heq] at hlabel
        exact h.shape other label hlabel
    · by_cases heq : other = oid
      · rw [heq, Dict.get_insert_self, Option.some.injEq, ← h.onto_iff, hget]
        exact ⟨fun honto => absurd honto hfresh.2.2, fun hnone => by cases hnone⟩
      · rw [Dict.get_insert_of_ne _ _ heq]
        exact h.onto_iff other

theorem freshLabel_wantedFor (hoid : IsHexWord naming.2)
    (hshort : IsHexWord (abbreviationOf input naming.2)) :
    IsLabel (freshLabel input state naming.2 (wantedFor input naming)) ∧
      (Solid (freshLabel input state naming.2 (wantedFor input naming)) ↔ Clean input naming) ∧
      (freshLabel input state naming.2 (wantedFor input naming) = onto ↔
        saysOnto input naming = true ∧ state.labels.contains onto = false) := by
  cases hwanted : wantedFor input naming with
  | none =>
    have hhex := @freshLabel_none input state naming.2 hshort hoid
    have hspells : saysOnto input naming = false := by rw [saysOnto, hwanted]; rfl
    refine ⟨hhex.isLabel, ⟨fun _ wanted heq => ?_, fun _ => hhex.isWord.solid⟩,
      fun heq => absurd heq hhex.ne_onto, fun ⟨hboth, _⟩ => ?_⟩
    · rw [hwanted] at heq
      cases heq
    · rw [hspells] at hboth
      cases hboth
  | some wanted =>
    obtain ⟨hlabel, hsolid, honto⟩ := @freshLabel_spec input state naming.2 wanted hshort
    have hspells : saysOnto input naming = true ↔ sanitizeLabel wanted = onto := by
      rw [saysOnto, hwanted]
      exact beq_iff_eq
    refine ⟨hlabel, hsolid.trans ⟨fun h other heq => ?_, fun h => h wanted hwanted⟩, ?_⟩
    · rw [hwanted] at heq
      exact Option.some.inj heq ▸ h
    · rw [honto, hspells]

theorem Labelled.name_existing (h : Labelled input front state)
    (honly : OnlyNamed input front state) {label : Text}
    (hget : state.commitToLabel.get naming.2 = some label) :
    Labelled input (front ++ [naming]) state := by
  have hold : input.ontoBase = some naming.2 ∨ naming.2 ∈ front.map (·.2) :=
    honly naming.2 (by rw [hget]; exact Option.some_ne_none label)
  have hmem : ∀ oid, oid ∈ (front ++ [naming]).map (·.2) → oid ∈ front.map (·.2) ∨
      oid = naming.2 := fun oid hoid => by
    rw [map_append, mem_append] at hoid
    exact hoid.imp_right fun hself => mem_singleton.mp hself
  refine ⟨h.indexed, fun oid hoid => ?_, fun other found hfirst hbase hfound => ?_,
    fun oid found hfound hoid => ?_, h.shape, fun oid => ?_⟩
  · rcases hoid with hbase | hoid
    · exact h.covered oid (Or.inl hbase)
    · rcases hmem oid hoid with hfront | rfl
      · exact h.covered oid (Or.inr hfront)
      · exact h.covered _ hold
  · refine h.named other found ?_ hbase hfound
    rw [firstNaming_append] at hfirst
    cases hother : firstNaming front other.2 with
    | some first => rwa [hother, Option.some_or] at hfirst
    | none =>
      rw [hother, Option.none_or] at hfirst
      by_cases heq : naming.2 = other.2
      · exact absurd (heq ▸ hold.resolve_left (heq ▸ hbase)) (firstNaming_eq_none.mp hother)
      · rw [if_neg heq] at hfirst
        cases hfirst
  · refine h.others oid found hfound (hoid.imp_left fun hnot hfront => hnot ?_)
    rw [map_append]
    exact mem_append_left _ hfront
  · rw [h.onto_iff, ontoTaker_append]
    rcases hold with hbase | hfront
    · have htaker : ontoTaker input front = some naming.2 := by rw [ontoTaker, hbase]; rfl
      rw [htaker, Option.some_or]
    · rw [if_neg fun hnew => hnew.2 hfront, Option.or_none]

theorem Labelled.name_fresh (h : Labelled input front state) (hoid : IsHexWord naming.2)
    (hshort : IsHexWord (abbreviationOf input naming.2))
    (hget : state.commitToLabel.get naming.2 = none) :
    Labelled input (front ++ [naming]) (nameOid input state naming) := by
  obtain ⟨hlabel, hsolid, honto⟩ := @freshLabel_wantedFor input naming state hoid hshort
  have hnew : ¬ (input.ontoBase = some naming.2 ∨ naming.2 ∈ front.map (·.2)) := fun hcovered =>
    h.covered _ hcovered hget
  have hindexed := h.indexed.labelOid input naming.2 (wantedFor input naming)
  rw [nameOid]
  rw [labelOid_fresh hget] at hindexed ⊢
  refine ⟨hindexed, fun other hother => ?_, fun other label hfirst hbase hfound => ?_,
    fun other label hfound hother => ?_, fun other label hfound => ?_, fun other => ?_⟩
  · by_cases heq : other = naming.2
    · rw [heq, Dict.get_insert_self]
      exact Option.some_ne_none _
    · rw [Dict.get_insert_of_ne _ _ heq]
      refine h.covered other (hother.imp_right fun hmem => ?_)
      rw [map_append, mem_append] at hmem
      exact hmem.resolve_right fun hself => heq (mem_singleton.mp hself)
  · rw [firstNaming_append] at hfirst
    by_cases heq : other.2 = naming.2
    · rw [heq, firstNaming_eq_none.mpr fun hmem => hnew (Or.inr hmem), Option.none_or,
        if_pos rfl] at hfirst
      rw [heq, Dict.get_insert_self] at hfound
      rw [← Option.some.inj hfound, ← Option.some.inj hfirst]
      exact hsolid
    · rw [if_neg fun hself => heq hself.symm, Option.or_none] at hfirst
      rw [Dict.get_insert_of_ne _ _ heq] at hfound
      exact h.named other label hfirst hbase hfound
  · have hne : other ≠ naming.2 := by
      rintro rfl
      rcases hother with hnot | hbase
      · refine hnot ?_
        rw [map_append]
        exact mem_append_right _ mem_cons_self
      · exact hnew (Or.inl hbase)
    rw [Dict.get_insert_of_ne _ _ hne] at hfound
    refine h.others other label hfound (hother.imp_left fun hnot hmem => hnot ?_)
    rw [map_append]
    exact mem_append_left _ hmem
  · by_cases heq : other = naming.2
    · rw [heq, Dict.get_insert_self] at hfound
      exact Option.some.inj hfound ▸ hlabel
    · rw [Dict.get_insert_of_ne _ _ heq] at hfound
      exact h.shape other label hfound
  rw [ontoTaker_append]
  by_cases heq : other = naming.2
  · rw [heq, Dict.get_insert_self, Option.some.injEq, honto, h.contains_onto]
    cases htaker : ontoTaker input front with
    | some taker =>
      have hne : taker ≠ naming.2 := by
        rintro rfl
        rw [← h.onto_iff, hget] at htaker
        cases htaker
      rw [Option.some_or, Option.some.injEq]
      exact ⟨(fun hnone => by cases hnone.2), fun heq => absurd heq hne⟩
    | none =>
      rw [Option.none_or]
      by_cases hspells : saysOnto input naming = true
      · rw [if_pos ⟨hspells, fun hmem => hnew (Or.inr hmem)⟩]
        exact ⟨fun _ => rfl, fun _ => ⟨hspells, rfl⟩⟩
      · rw [if_neg fun hboth => hspells hboth.1]
        exact ⟨fun hboth => absurd hboth.1 hspells, fun hnone => by cases hnone⟩
  · rw [Dict.get_insert_of_ne _ _ heq, h.onto_iff]
    cases htaker : ontoTaker input front with
    | some taker => rw [Option.some_or]
    | none =>
      rw [Option.none_or]
      refine ⟨(fun hnone => by cases hnone), fun hsome => ?_⟩
      split at hsome
      · exact absurd (Option.some.inj hsome).symm heq
      · cases hsome

/-- **A run of namings**: the first naming of a commit decides its label. -/
theorem Labelled.foldl {run : List (ScriptCommit × Text)} (h : Labelled input front state)
    (honly : OnlyNamed input front state)
    (hrun : ∀ naming ∈ run, IsHexWord naming.2 ∧ IsHexWord (abbreviationOf input naming.2)) :
    Labelled input (front ++ run) (run.foldl (nameOid input) state) ∧
      OnlyNamed input (front ++ run) (run.foldl (nameOid input) state) := by
  induction run generalizing front state with
  | nil =>
    rw [append_nil]
    exact ⟨h, honly⟩
  | cons naming run ih =>
    obtain ⟨hnaming, hothers⟩ := forall_mem_cons.mp hrun
    have hstep : Labelled input (front ++ [naming]) (nameOid input state naming) := by
      cases hget : state.commitToLabel.get naming.2 with
      | some label =>
        rw [nameOid, labelOid_existing hget]
        exact h.name_existing honly hget
      | none => exact h.name_fresh hnaming.1 hnaming.2 hget
    have honly' : OnlyNamed input (front ++ [naming]) (nameOid input state naming) := by
      intro oid hoid
      rw [map_append, mem_append]
      by_cases heq : oid = naming.2
      · exact Or.inr (Or.inr (heq ▸ mem_cons_self))
      · rw [nameOid, get_labelOid_of_ne heq] at hoid
        exact (honly oid hoid).imp_right Or.inl
    have hrest := ih hstep honly' hothers
    rwa [append_assoc] at hrest

theorem labelled_initialState (input : MergesScriptInput) :
    Labelled input [] (initialState input) ∧ OnlyNamed input [] (initialState input) := by
  cases hbase : input.ontoBase with
  | none =>
    have hstate : initialState input = ⟨Dict.empty, []⟩ := by rw [initialState, hbase]
    have htaker : ontoTaker input [] = none := by rw [ontoTaker, hbase]; rfl
    rw [hstate]
    refine ⟨⟨fun label => ⟨fun h => absurd h not_mem_nil, fun ⟨_, h⟩ => by cases h⟩,
      fun oid h => ?_, (fun _ _ h => by cases h), (fun _ _ h => by cases h),
      (fun _ _ h => by cases h), fun oid => ?_⟩, fun _ h => absurd rfl h⟩
    · rcases h with h | h
      · rw [hbase] at h
        cases h
      · exact absurd h not_mem_nil
    · rw [htaker]
      exact ⟨(fun h => by cases h), (fun h => by cases h)⟩
  | some base =>
    have hstate : initialState input = ⟨Dict.empty.insert base onto, [onto]⟩ := by
      rw [initialState, hbase]
    have htaker : ontoTaker input [] = some base := by rw [ontoTaker, hbase]; rfl
    have hget : ∀ oid label, (Dict.empty.insert base onto).get oid = some label ↔
        oid = base ∧ label = onto := fun oid label => by
      by_cases heq : oid = base
      · rw [heq, Dict.get_insert_self, Option.some.injEq]
        exact ⟨fun h => ⟨rfl, h.symm⟩, fun h => h.2.symm⟩
      · rw [Dict.get_insert_of_ne _ _ heq]
        exact ⟨(fun h => by cases h), fun h => absurd h.1 heq⟩
    rw [hstate]
    refine ⟨⟨fun label => ?_, fun oid h => ?_, (fun _ _ h => by cases h),
      fun oid label h _ => ?_, fun oid label h => ?_, fun oid => ?_⟩, fun oid h => ?_⟩
    · rw [mem_singleton]
      exact ⟨fun h => ⟨base, (hget base label).mpr ⟨rfl, h⟩⟩,
        fun ⟨oid, h⟩ => ((hget oid label).mp h).2⟩
    · rcases h with h | h
      · rw [hbase] at h
        exact fun hnone => by
          rw [(hget oid onto).mpr ⟨(Option.some.inj h).symm, rfl⟩] at hnone
          cases hnone
      · exact absurd h not_mem_nil
    · rw [((hget oid label).mp h).2]
      exact solid_onto
    · rw [((hget oid label).mp h).2]
      exact ⟨cons_ne_nil _ _, all_eq_true.mp (by decide)⟩
    · rw [htaker, Option.some.injEq]
      exact (hget oid onto).trans ⟨fun h => h.1.symm, fun h => ⟨h.symm, rfl⟩⟩
    · obtain ⟨label, hlabel⟩ := Option.ne_none_iff_exists'.mp h
      exact Or.inl (hbase.trans (congrArg some ((hget oid label).mp hlabel).1.symm))

end

/-! ### Branch points -/

section

variable {input : MergesScriptInput} {state : LabelState} {walk : Walk}

theorem freshLabel_branchPoint {oid : Text} (hshort : IsHexWord (abbreviationOf input oid)) :
    IsLabel (freshLabel input state oid (some branchPoint)) ∧
      Solid (freshLabel input state oid (some branchPoint)) ∧
      freshLabel input state oid (some branchPoint) ≠ onto := by
  obtain ⟨hlabel, hsolid, honto⟩ := @freshLabel_spec input state oid branchPoint hshort
  have hsame : sanitizeLabel branchPoint = branchPoint := by decide
  have hclean : Solid branchPoint := fun c hc => (Bool.not_eq_true' _).mp
    (all_eq_true.mp (show branchPoint.all (! isWhitespace ·) = true by decide) c hc)
  rw [hsame] at hsolid honto
  exact ⟨hlabel, hsolid.mpr hclean, fun heq => absurd (honto.mp heq).1 (by decide)⟩

variable {parents childSeen : List Text}

theorem labelChildren_spec (hbyId : ∀ oid, (walk.byId.get oid).isNone = ! inRange input oid) (oid : Text) :
    (labelChildren input walk state childSeen parents).commitToLabel.get oid ≠ none ↔
      state.commitToLabel.get oid ≠ none ∨
        (inRange input oid = true ∧ (oid ∈ childSeen ∧ oid ∈ parents ∨ 2 ≤ parents.count oid)) := by
  induction parents generalizing childSeen state with
  | nil =>
    rw [labelChildren]
    refine ⟨Or.inl, fun h => h.resolve_right fun ⟨_, hmore⟩ => ?_⟩
    rcases hmore with ⟨-, hmem⟩ | hcount
    · exact absurd hmem not_mem_nil
    · rw [count_nil] at hcount
      omega
  | cons parent parents ih =>
    rw [labelChildren, hbyId]
    by_cases hrange : inRange input parent = true
    · rw [hrange, Bool.not_true, if_neg Bool.false_ne_true, ih]
      by_cases heq : oid = parent
      · subst heq
        rw [count_cons_self]
        have hmem : oid ∈ parents ↔ 1 ≤ parents.count oid := one_le_count_iff.symm
        by_cases hseen : childSeen.contains oid = true
        · rw [if_pos hseen]
          have hget : (labelOid input state oid (some branchPoint)).1.commitToLabel.get oid ≠
              none := by
            rw [get_labelOid_self]
            exact Option.some_ne_none _
          exact ⟨fun _ => Or.inr ⟨hrange, Or.inl ⟨contains_iff_mem.mp hseen,
            mem_cons_self⟩⟩, fun _ => Or.inl hget⟩
        · rw [if_neg hseen]
          have hnot : oid ∉ childSeen := fun h => hseen (contains_iff_mem.mpr h)
          refine or_congr_right (and_congr_right fun _ => ?_)
          constructor
          · rintro (⟨-, hrest⟩ | hcount)
            · exact Or.inr (Nat.succ_le_succ (hmem.mp hrest))
            · exact Or.inr (Nat.le_succ_of_le hcount)
          · rintro (⟨hseen', -⟩ | hcount)
            · exact absurd hseen' hnot
            · exact Or.inl ⟨mem_cons_self, hmem.mpr (Nat.le_of_succ_le_succ hcount)⟩
      · have hget : (if childSeen.contains parent = true then
            (labelOid input state parent (some branchPoint)).1 else state).commitToLabel.get oid =
              state.commitToLabel.get oid := by
          split
          · exact get_labelOid_of_ne heq
          · rfl
        rw [hget, mem_cons, mem_cons, count_cons_of_ne fun h => heq h.symm]
        simp only [heq, false_or]
    · rw [Bool.eq_false_iff.mpr hrange, Bool.not_false, if_pos rfl, ih]
      refine or_congr_right (and_congr_right fun hoid => ?_)
      have heq : oid ≠ parent := fun heq => hrange (heq ▸ hoid)
      rw [mem_cons, count_cons_of_ne fun h => heq h.symm]
      simp only [heq, false_or]

theorem get_labelChildren {oid label : Text}
    (h : state.commitToLabel.get oid = some label) :
    (labelChildren input walk state childSeen parents).commitToLabel.get oid = some label := by
  induction parents generalizing childSeen state with
  | nil => exact h
  | cons parent parents ih =>
    rw [labelChildren]
    split
    · exact ih h
    · refine ih ?_
      split
      · exact get_labelOid_of_some h
      · exact h

/-- The second phase changes nothing of what the namings gave. -/
theorem Labelled.labelChildren {front : List (ScriptCommit × Text)}
    (h : Labelled input front state)
    (hparents : ∀ parent ∈ parents, IsHexWord (abbreviationOf input parent)) :
    Labelled input front (labelChildren input walk state childSeen parents) := by
  induction parents generalizing childSeen state with
  | nil => exact h
  | cons parent parents ih =>
    obtain ⟨hparent, hothers⟩ := forall_mem_cons.mp hparents
    rw [Rebase.labelChildren]
    split
    · exact ih h hothers
    · refine ih ?_ hothers
      split
      · exact h.add (freshLabel_branchPoint hparent)
      · exact h

end

/-! ### Both phases -/

section

variable {input : MergesScriptInput}

/-- The tips of the blocks, in the order of the blocks. -/
def tips (input : MergesScriptInput) : List Text :=
  (input.commits.flatMap ScriptCommit.merged).filter (inRange input) ++
    (input.commits.getLast?.map (·.id)).toList

/-- The commit has a label when the blocks are written. -/
def Placed (input : MergesScriptInput) (oid : Text) : Prop :=
  input.ontoBase = some oid ∨ oid ∈ (namings input).map (·.2) ∨
    (inRange input oid = true ∧ 2 ≤ (input.commits.flatMap (·.parents)).count oid)

/-- What the first two phases leave. -/
structure Ready (input : MergesScriptInput) (state : LabelState) (walk : Walk) : Prop where
  labelled : Labelled input (namings input) state
  placed : ∀ oid, state.commitToLabel.get oid ≠ none ↔ Placed input oid
  byId : ∀ oid, walk.byId.get oid = input.commits.find? (·.id == oid)
  tips : walk.tips = tips input
  planned : ∀ c ∈ input.commits, c.skipped = false →
    ∃ line, walk.todo.get c.id = some line ∧ Planned state c line
  todo : ∀ oid line, walk.todo.get oid = some line →
    ∃ c ∈ input.commits, c.id = oid ∧ c.skipped = false ∧ Planned state c line

theorem MergesScriptInput.Listed.abbreviation (h : input.Listed) {oid : Text}
    (hoid : IsObjectId oid) : IsHexWord (abbreviationOf input oid) :=
  isHexWord_abbreviationOf (isHexWord_of_isObjectId hoid) (h.abbreviations oid)

theorem mem_merged {c : ScriptCommit} {parent : Text} (h : parent ∈ c.merged) :
    c.skipped = false ∧ parent ∈ c.parents.tail := by
  rw [ScriptCommit.merged] at h
  split at h
  · exact absurd h not_mem_nil
  · next hkept => exact ⟨Bool.eq_false_iff.mpr hkept, h⟩

theorem mem_namings {naming : ScriptCommit × Text} : naming ∈ namings input ↔
    naming.1 ∈ input.commits ∧ naming.2 ∈ naming.1.merged := by
  obtain ⟨c, parent⟩ := naming
  rw [namings, mem_flatMap]
  constructor
  · rintro ⟨d, hd, hnaming⟩
    obtain ⟨other, hother, heq⟩ := mem_map.mp hnaming
    obtain ⟨rfl, rfl⟩ := Prod.mk.inj heq
    exact ⟨hd, hother⟩
  · exact fun ⟨hc, hparent⟩ => ⟨c, hc, mem_map_of_mem hparent⟩

/-- What the first phase leaves of the whole range. -/
def planned (input : MergesScriptInput) : LabelState × Walk :=
  planCommits input (initialState input) ⟨Dict.empty, Dict.empty, []⟩ input.commits

/-- **The first two phases**: what the blocks are written from. -/
theorem ready_labelBranchPoints (h : input.Listed) :
    Ready input (labelBranchPoints input (planned input).1 (planned input).2).1
      (labelBranchPoints input (planned input).1 (planned input).2).2 := by
  have hfirst : PlannedTo input input.commits (planned input).1 (planned input).2 :=
    planCommits_spec h (nil_append _).symm plannedTo_nil
  generalize planned input = found at hfirst
  obtain ⟨state, walk⟩ := found
  obtain ⟨hbyId, hstate, htips, hplanned, htodo⟩ := hfirst
  dsimp only at hbyId hstate htips hplanned htodo
  have hhex : ∀ naming ∈ namings input,
      IsHexWord naming.2 ∧ IsHexWord (abbreviationOf input naming.2) := fun naming hnaming => by
    obtain ⟨hc, hparent⟩ := mem_namings.mp hnaming
    have hoid := (h.ids _ hc).2 _ (mem_of_mem_tail (mem_merged hparent).2)
    exact ⟨isHexWord_of_isObjectId hoid, h.abbreviation hoid⟩
  obtain ⟨hstart, hstartOnly⟩ := labelled_initialState input
  obtain ⟨hlabelled, honly⟩ := hstart.foldl hstartOnly hhex
  rw [nil_append, namings, ← hstate] at hlabelled honly
  have hrange : ∀ oid, (walk.byId.get oid).isNone = ! inRange input oid := fun oid => by
    rw [hbyId, ← Option.not_isSome]
    exact congrArg (! ·) (Bool.eq_iff_iff.mpr (find?_isSome_iff.trans inRange_iff.symm))
  have hparents : ∀ parent ∈ input.commits.flatMap (·.parents),
      IsHexWord (abbreviationOf input parent) := fun parent hparent => by
    obtain ⟨c, hc, hmem⟩ := mem_flatMap.mp hparent
    exact h.abbreviation ((h.ids c hc).2 parent hmem)
  have hready : Ready input
      (labelChildren input walk state [] (input.commits.flatMap (·.parents)))
      { walk with tips := tips input } := by
    refine ⟨hlabelled.labelChildren hparents, fun oid => ?_, hbyId, rfl, fun c hc hkept => ?_,
      fun oid line hline => ?_⟩
    · rw [labelChildren_spec hrange]
      refine ⟨fun hget => ?_, fun hplaced => ?_⟩
      · rcases hget with hget | ⟨hin, hmore⟩
        · exact (honly oid hget).imp_right Or.inl
        · exact Or.inr (Or.inr ⟨hin, hmore.resolve_left fun hseen =>
            absurd hseen.1 not_mem_nil⟩)
      · rcases hplaced with hbase | hnamed | ⟨hin, hcount⟩
        · exact Or.inl (hlabelled.covered oid (Or.inl hbase))
        · exact Or.inl (hlabelled.covered oid (Or.inr hnamed))
        · exact Or.inr ⟨hin, Or.inr hcount⟩
    · obtain ⟨line, hline, hold⟩ := hplanned c hc hkept
      exact ⟨line, hline, hold.mono fun _ _ => get_labelChildren⟩
    · obtain ⟨c, hc, hid, hkept, hold⟩ := htodo oid line hline
      exact ⟨c, hc, hid, hkept, hold.mono fun _ _ => get_labelChildren⟩
  rw [labelBranchPoints]
  cases hlast : input.commits.getLast? with
  | none =>
    have htipsEq : { walk with tips := tips input } = walk := by
      rw [tips, hlast, Option.map_none, Option.toList_none, append_nil, ← htips]
    rw [htipsEq] at hready
    exact hready
  | some head =>
    have htipsEq : walk.tips ++ [head.id] = tips input := by
      rw [tips, hlast, htips]
      rfl
    dsimp only
    rw [htipsEq]
    exact hready

end

end Tsgit.Rebase
