import Mathlib.Data.List.Nodup

/-!
# Doubly Linked Lists

Nodes that point to the one before them and the one behind, with a pointer to each end. Every
field of the nodes is a map of its own, so that an assignment is an update of one map.
-/

/-- The pointers of a doubly linked list. -/
structure Links (α : Type*) where
  head : Option α
  tail : Option α
  prev : α → Option α
  next : α → Option α

namespace Links

open List Function

variable {α : Type*}

/-- The list without nodes. -/
def empty : Links α := ⟨none, none, fun _ => none, fun _ => none⟩

section

variable [DecidableEq α]

/-- What comes behind a node, or first. -/
def setNext (links : Links α) (node after : Option α) : Links α :=
  match node with
  | some node => { links with next := update links.next node after }
  | none => { links with head := after }

/-- What comes before a node, or last. -/
def setPrev (links : Links α) (node before : Option α) : Links α :=
  match node with
  | some node => { links with prev := update links.prev node before }
  | none => { links with tail := before }

/-- Takes a node out. -/
def unlink (links : Links α) (node : α) : Links α :=
  let links := links.setNext (links.prev node) (links.next node)
  let links := links.setPrev (links.next node) (links.prev node)
  { links with
    prev := update links.prev node none
    next := update links.next node none }

/-- Puts a node in front. -/
def pushFront (links : Links α) (node : α) : Links α :=
  let links := { links with
    next := update links.next node links.head
    prev := update links.prev node none }
  let links := match links.head with
    | some head => { links with prev := update links.prev head (some node) }
    | none => links
  { links with head := some node, tail := links.tail.or (some node) }

end

/-- The pointers hold these nodes, in this order. -/
structure Lists (links : Links α) (nodes : List α) : Prop where
  nodup : nodes.Nodup
  head_eq : links.head = nodes.head?
  tail_eq : links.tail = nodes.getLast?
  prev_eq : ∀ {front node back}, nodes = front ++ node :: back → links.prev node = front.getLast?
  next_eq : ∀ {front node back}, nodes = front ++ node :: back → links.next node = back.head?

theorem lists_empty : (empty : Links α).Lists [] where
  nodup := nodup_nil
  head_eq := rfl
  tail_eq := rfl
  prev_eq h := absurd h.symm (append_ne_nil_of_right_ne_nil _ (cons_ne_nil _ _))
  next_eq h := absurd h.symm (append_ne_nil_of_right_ne_nil _ (cons_ne_nil _ _))

theorem getLast?_append_concat (front rest : List α) (last : α) :
    (front ++ (rest ++ [last])).getLast? = some last := by
  rw [← append_assoc, getLast?_concat]

variable [DecidableEq α] {links : Links α} {front back nodes : List α} {node : α}

theorem unlink_eq (hprev : links.prev node ≠ some node) :
    (links.unlink node).head = (if links.prev node = none then links.next node else links.head) ∧
      (links.unlink node).tail = (if links.next node = none then links.prev node else links.tail) ∧
      ∀ other, other ≠ node → (links.unlink node).prev other =
          (if links.next node = some other then links.prev node else links.prev other) ∧
        (links.unlink node).next other =
          (if links.prev node = some other then links.next node else links.next other) := by
  unfold unlink
  cases hbefore : links.prev node with
  | none =>
    cases hafter : links.next node with
    | none =>
      simp [setNext, setPrev, hbefore, hafter]
      intro other hother
      simp [update_of_ne hother]
    | some after =>
      simp [setNext, setPrev, hbefore, hafter]
      intro other hother
      simp [update_apply, hother, eq_comm]
  | some before =>
    have hne : node ≠ before := fun h => hprev (h ▸ hbefore)
    cases hafter : links.next node with
    | none =>
      simp [setNext, setPrev, hbefore, hafter, update_of_ne hne]
      intro other hother
      simp [update_apply, hother, eq_comm]
    | some after =>
      simp [setNext, setPrev, hbefore, hafter, update_of_ne hne]
      intro other hother
      simp [update_apply, hother, eq_comm]

/-- **A node that is taken out** leaves the others in their order. -/
theorem Lists.unlink (h : links.Lists (front ++ node :: back)) :
    (links.unlink node).Lists (front ++ back) := by
  have hprev := h.prev_eq rfl
  have hnext := h.next_eq rfl
  have hnodup := h.nodup
  rw [nodup_middle, nodup_cons, mem_append, not_or] at hnodup
  obtain ⟨⟨hfront, hback⟩, hrest⟩ := hnodup
  have hdisjoint := disjoint_of_nodup_append hrest
  obtain ⟨hhead, htail, hother⟩ := @unlink_eq α _ links node
    (fun hself => hfront (mem_of_getLast? (hprev ▸ hself)))
  have hsplit : ∀ {before other behind}, front ++ back = before ++ other :: behind →
      (links.unlink node).prev other = before.getLast? ∧
        (links.unlink node).next other = behind.head? := by
    intro before other behind heq
    have hmem : other ∈ front ++ back := heq ▸ mem_append_right _ mem_cons_self
    have hne : other ≠ node := fun hsame => by
      rw [hsame, mem_append] at hmem
      exact hmem.elim hfront hback
    rw [(hother other hne).1, (hother other hne).2, hprev, hnext]
    rcases append_eq_append_iff.mp heq with ⟨rest, rfl, rfl⟩ | ⟨rest, rfl, hrest'⟩
    · -- the other node is behind
      have hnot : front.getLast? ≠ some other := fun hlast =>
        hdisjoint (mem_of_getLast? hlast) (mem_append_right _ mem_cons_self)
      have hwhole : front ++ node :: (rest ++ other :: behind) =
          (front ++ node :: rest) ++ other :: behind := by
        simp
      rw [if_neg hnot, h.next_eq hwhole, h.prev_eq hwhole]
      refine ⟨?_, rfl⟩
      rcases eq_nil_or_concat rest with rfl | ⟨rest, last, rfl⟩
      · simp
      have hrepeated := (nodup_append.mp hrest).2.1
      have hnext' : (rest ++ [last] ++ other :: behind).head? ≠ some other := by
        intro hfirst
        cases rest with
        | nil =>
          have hsame : last = other := Option.some.inj hfirst
          simp [hsame] at hrepeated
        | cons first rest =>
          have hsame : first = other := Option.some.inj hfirst
          simp [hsame] at hrepeated
      rw [concat_eq_append, if_neg hnext']
      exact (getLast?_append_concat front (node :: rest) last).trans
        (getLast?_append_concat front rest last).symm
    · cases rest with
      | nil =>
        obtain rfl : other :: behind = back := hrest'
        have hwhole : (before ++ []) ++ node :: other :: behind =
            (before ++ [node]) ++ other :: behind := by
          simp
        have hnot : before.getLast? ≠ some other := fun hlast =>
          hdisjoint (mem_append_left _ (mem_of_getLast? hlast)) mem_cons_self
        rw [append_nil, if_neg hnot, h.next_eq hwhole]
        simp
      | cons first rest =>
        obtain ⟨rfl, rfl⟩ := cons.inj hrest'
        have hnot : back.head? ≠ some other := fun hfirst =>
          hdisjoint (mem_append_right _ mem_cons_self) (mem_of_mem_head? hfirst)
        have hwhole : (before ++ other :: rest) ++ node :: back =
            before ++ other :: (rest ++ node :: back) := by
          simp
        rw [if_neg hnot, h.prev_eq hwhole, h.next_eq hwhole]
        refine ⟨rfl, ?_⟩
        rcases eq_nil_or_concat rest with rfl | ⟨rest, last, rfl⟩
        · simp
        have hrepeated := (nodup_append.mp hrest).1
        have hlast : (before ++ other :: (rest ++ [last])).getLast? ≠ some other := by
          intro hfound
          have hsame : last = other := Option.some.inj
            ((getLast?_append_concat before (other :: rest) last).symm.trans hfound)
          simp [hsame, nodup_append] at hrepeated
        rw [concat_eq_append, if_neg hlast]
        simp [append_assoc]
  refine ⟨hrest, ?_, ?_, fun heq => (hsplit heq).1, fun heq => (hsplit heq).2⟩
  · rw [hhead, hprev, hnext, h.head_eq]
    cases front with
    | nil => rfl
    | cons first front => simp
  · rw [htail, hprev, hnext, h.tail_eq]
    cases back with
    | nil => simp
    | cons first back => simp

theorem pushFront_eq (hhead : links.head ≠ some node) :
    (links.pushFront node).head = some node ∧
      (links.pushFront node).tail = links.tail.or (some node) ∧
      (links.pushFront node).prev node = none ∧
      (links.pushFront node).next node = links.head ∧
      ∀ other, other ≠ node → (links.pushFront node).prev other =
          (if links.head = some other then some node else links.prev other) ∧
        (links.pushFront node).next other = links.next other := by
  unfold pushFront
  cases hfirst : links.head with
  | none =>
    refine ⟨rfl, rfl, by simp, by simp, fun other hother => ?_⟩
    simp [update_of_ne hother]
  | some first =>
    have hne : node ≠ first := fun h => hhead (h ▸ hfirst)
    refine ⟨rfl, rfl, by simp [update_of_ne hne], by simp, fun other hother => ?_⟩
    simp [update_apply, hother, eq_comm]

/-- **A node that is put in front** comes before the others. -/
theorem Lists.pushFront (h : links.Lists nodes) (hnew : node ∉ nodes) :
    (links.pushFront node).Lists (node :: nodes) := by
  obtain ⟨hhead, htail, hprev, hnext, hother⟩ := @pushFront_eq α _ links node
    (fun hself => hnew (mem_of_mem_head? (h.head_eq ▸ hself)))
  have hsplit : ∀ {front other back}, node :: nodes = front ++ other :: back →
      (links.pushFront node).prev other = front.getLast? ∧
        (links.pushFront node).next other = back.head? := by
    intro front other back heq
    cases front with
    | nil =>
      obtain ⟨rfl, rfl⟩ := cons.inj heq
      exact ⟨hprev, hnext.trans h.head_eq⟩
    | cons first front =>
      obtain ⟨rfl, rfl⟩ := cons.inj heq
      have hne : other ≠ node := fun hsame =>
        hnew (hsame ▸ mem_append_right _ mem_cons_self)
      rw [(hother other hne).1, (hother other hne).2, h.head_eq, h.prev_eq rfl]
      refine ⟨?_, h.next_eq rfl⟩
      cases front with
      | nil => simp
      | cons second front =>
        have hnot : (second :: front ++ other :: back).head? ≠ some other := by
          intro hfirst
          have hsame : second = other := Option.some.inj hfirst
          have hnodup := h.nodup
          simp [hsame] at hnodup
        refine (if_neg hnot).trans ?_
        simp
  refine ⟨nodup_cons.mpr ⟨hnew, h.nodup⟩, hhead, ?_, fun heq => (hsplit heq).1,
    fun heq => (hsplit heq).2⟩
  rw [htail, h.tail_eq]
  cases nodes with
  | nil => rfl
  | cons first nodes =>
    rw [getLast?_cons_cons, getLast?_eq_some_getLast (cons_ne_nil first nodes)]
    rfl

end Links
