import Mathlib.Data.List.Nodup
import Mathlib.Data.List.Perm.Basic
import Tsgit.Interleaving

/-!
# The Concurrency Limiter

`createConcurrencyLimiter` of `src/application/primitives/internal/concurrency-limiter.ts`, with
the calls of `run`, the starts of their tasks and the completions in any order.
-/

namespace Tsgit.Limiter

open Interleaving List

variable {τ : Type}

/-! ### The closure -/

/-- A waiter of the queue stands for its resolver. -/
structure ConcurrencyLimiter (τ : Type) where
  active : ℕ
  head : ℕ
  queue : List τ
  deriving DecidableEq

def queueCompactionMin : ℕ := 1024

def createConcurrencyLimiter : ConcurrencyLimiter τ := ⟨0, 0, []⟩

/-- Takes a slot, or puts the task into the queue. -/
def acquire (limit : ℕ) (limiter : ConcurrencyLimiter τ) (task : τ) :
    ConcurrencyLimiter τ × Bool :=
  if limiter.active < limit then ({ limiter with active := limiter.active + 1 }, true)
  else ({ limiter with queue := limiter.queue ++ [task] }, false)

def compactQueueIfNeeded (limiter : ConcurrencyLimiter τ) : ConcurrencyLimiter τ :=
  if limiter.head > queueCompactionMin ∧ limiter.queue.length < 2 * limiter.head then
    { limiter with queue := limiter.queue.drop limiter.head, head := 0 }
  else limiter

/-- The waiter that is handed the slot, if there is one. -/
def release (limiter : ConcurrencyLimiter τ) : ConcurrencyLimiter τ × Option τ :=
  match limiter.queue[limiter.head]? with
  | none => ({ limiter with active := limiter.active - 1 }, none)
  | some next => (compactQueueIfNeeded { limiter with head := limiter.head + 1 }, some next)

/-! ### The queue -/

/-- The waiters behind the cursor. -/
def ConcurrencyLimiter.waiting (limiter : ConcurrencyLimiter τ) : List τ :=
  limiter.queue.drop limiter.head

@[simp] theorem compactQueueIfNeeded_waiting (limiter : ConcurrencyLimiter τ) :
    (compactQueueIfNeeded limiter).waiting = limiter.waiting := by
  rw [compactQueueIfNeeded]
  split <;> simp [ConcurrencyLimiter.waiting]

@[simp] theorem compactQueueIfNeeded_active (limiter : ConcurrencyLimiter τ) :
    (compactQueueIfNeeded limiter).active = limiter.active := by
  rw [compactQueueIfNeeded]
  split <;> rfl

variable {limiter : ConcurrencyLimiter τ}

/-- The cursor stays within the queue. -/
theorem compactQueueIfNeeded_head
    (h : limiter.head ≤ limiter.queue.length) :
    (compactQueueIfNeeded limiter).head ≤ (compactQueueIfNeeded limiter).queue.length := by
  rw [compactQueueIfNeeded]
  split
  · exact Nat.zero_le _
  · exact h

variable {limit : ℕ}

theorem acquire_waiting (task : τ)
    (h : limiter.head ≤ limiter.queue.length) (hfull : ¬ limiter.active < limit) :
    (acquire limit limiter task).1.waiting = limiter.waiting ++ [task] := by
  rw [acquire, if_neg hfull]
  exact drop_append_of_le_length h

/-- **A slot that is freed** goes to the first waiter, and back where there is none. -/
theorem release_spec (h : limiter.head ≤ limiter.queue.length) :
    (release limiter).2.toList ++ (release limiter).1.waiting = limiter.waiting ∧
      (release limiter).1.head ≤ (release limiter).1.queue.length ∧
      (release limiter).1.active =
        (if limiter.waiting = [] then limiter.active - 1 else limiter.active) ∧
      ((release limiter).2 = none ↔ limiter.waiting = []) := by
  rw [release]
  cases hnext : limiter.queue[limiter.head]? with
  | none =>
    have hnone : limiter.waiting = [] := drop_eq_nil_of_le (List.getElem?_eq_none_iff.mp hnext)
    have hsame : ({ limiter with active := limiter.active - 1 } :
        ConcurrencyLimiter τ).waiting = limiter.waiting := rfl
    simp [hsame, hnone, h]
  | some next =>
    have hsplit : limiter.waiting = next :: limiter.queue.drop (limiter.head + 1) := by
      obtain ⟨hlt, hget⟩ := List.getElem?_eq_some_iff.mp hnext
      rw [ConcurrencyLimiter.waiting, drop_eq_getElem_cons hlt, hget]
    have hlt := (List.getElem?_eq_some_iff.mp hnext).1
    refine ⟨?_, compactQueueIfNeeded_head hlt, ?_, ?_⟩
    · rw [compactQueueIfNeeded_waiting, hsplit]
      rfl
    · rw [compactQueueIfNeeded_active, if_neg (hsplit ▸ cons_ne_nil _ _)]
    · rw [hsplit]
      simp

/-- What of a limiter its answers depend on. -/
def Alike (a b : ConcurrencyLimiter τ) : Prop :=
  a.active = b.active ∧ a.waiting = b.waiting ∧ a.head ≤ a.queue.length ∧ b.head ≤ b.queue.length

theorem Alike.acquire {a b : ConcurrencyLimiter τ} (h : Alike a b) (task : τ) :
    (acquire limit a task).2 = (acquire limit b task).2 ∧
      Alike (acquire limit a task).1 (acquire limit b task).1 := by
  obtain ⟨hactive, hwaiting, ha, hb⟩ := h
  by_cases hfree : a.active < limit
  · have hfree' : b.active < limit := hactive ▸ hfree
    simp only [Limiter.acquire, if_pos hfree, if_pos hfree', true_and]
    exact ⟨congrArg (· + 1) hactive, hwaiting, ha, hb⟩
  have hfree' : ¬ b.active < limit := hactive ▸ hfree
  refine ⟨by simp [Limiter.acquire, hfree, hfree'], ?_, ?_, ?_, ?_⟩
  · simp [Limiter.acquire, hfree', hactive]
  · rw [acquire_waiting task ha hfree, acquire_waiting task hb hfree', hwaiting]
  · simp [Limiter.acquire, hfree]
    omega
  · simp [Limiter.acquire, hfree']
    omega

theorem Alike.release {a b : ConcurrencyLimiter τ} (h : Alike a b) :
    (release a).2 = (release b).2 ∧ Alike (release a).1 (release b).1 := by
  obtain ⟨hactive, hwaiting, ha, hb⟩ := h
  obtain ⟨hleft, hcursor, hcount, hnone⟩ := release_spec ha
  obtain ⟨hright, hcursor', hcount', hnone'⟩ := release_spec hb
  rw [hwaiting] at hleft hcount hnone
  by_cases hempty : b.waiting = []
  · rw [hnone.mpr hempty] at hleft ⊢
    rw [hnone'.mpr hempty] at hright ⊢
    simp [hempty] at hcount hcount'
    exact ⟨rfl, by omega, (hleft.trans hright.symm), hcursor, hcursor'⟩
  obtain ⟨next, hnext⟩ := Option.ne_none_iff_exists'.mp (mt hnone.mp hempty)
  obtain ⟨next', hnext'⟩ := Option.ne_none_iff_exists'.mp (mt hnone'.mp hempty)
  rw [hnext] at hleft ⊢
  rw [hnext'] at hright ⊢
  obtain ⟨rfl, hrest⟩ := cons.inj (hleft.trans hright.symm)
  simp [hempty] at hcount hcount'
  exact ⟨rfl, by omega, hrest, hcursor, hcursor'⟩

/-! ### Runs -/

/-- The limiter with what became of the tasks. -/
structure System (τ : Type) where
  limiter : ConcurrencyLimiter τ
  /-- The calls of `run`, in their order. -/
  submitted : List τ
  /-- Those whose `acquire` is resolved and which have not started, in the order of their turns. -/
  resolved : List τ
  started : List τ
  running : List τ
  /-- What is over, with its success. -/
  completed : List (τ × Bool)
  deriving DecidableEq

def System.initial : System τ := ⟨createConcurrencyLimiter, [], [], [], [], []⟩

inductive Event (τ : Type)
  | run (task : τ)
  | start
  | complete (task : τ) (success : Bool)

/-! ### What holds in every run -/

/-- What holds between any two events. -/
structure Sound (limit : ℕ) (s : System τ) : Prop where
  cursor : s.limiter.head ≤ s.limiter.queue.length
  slots : s.resolved.length + s.running.length = s.limiter.active
  bounded : s.limiter.active ≤ limit
  full : s.limiter.waiting ≠ [] → s.limiter.active = limit
  order : s.started ++ s.resolved ++ s.limiter.waiting = s.submitted
  nodup : s.submitted.Nodup
  ended : (s.running ++ s.completed.map (·.1)).Perm s.started

theorem Sound.initial (limit : ℕ) : Sound limit (System.initial : System τ) := by
  constructor <;> simp [System.initial, createConcurrencyLimiter, ConcurrencyLimiter.waiting]

/-- Where all is done, no slot is taken and nothing waits. -/
theorem Sound.idle (hlimit : 0 < limit) {s : System τ} (h : Sound limit s)
    (hdone : ∀ task ∈ s.submitted, task ∈ s.completed.map (·.1)) :
    s.started = s.submitted ∧ Alike s.limiter createConcurrencyLimiter := by
  have hnodup : (s.started ++ s.resolved ++ s.limiter.waiting).Nodup := h.order ▸ h.nodup
  have hmem : ∀ task ∈ s.completed.map (·.1), task ∈ s.started := fun task hmem =>
    h.ended.subset (mem_append_right _ hmem)
  have hresolved : s.resolved = [] := by
    refine eq_nil_iff_forall_not_mem.mpr fun task htask => ?_
    have hover := hmem task (hdone task (h.order ▸ by simp [htask]))
    exact (nodup_append.mp (nodup_append.mp hnodup).1).2.2 _ hover _ htask rfl
  have hrunning : s.running = [] := by
    refine eq_nil_iff_forall_not_mem.mpr fun task htask => ?_
    have hstarted : task ∈ s.started := h.ended.subset (mem_append_left _ htask)
    have hover := hdone task (h.order ▸ by simp [hstarted])
    have hdistinct : (s.running ++ s.completed.map (·.1)).Nodup :=
      h.ended.nodup_iff.mpr (nodup_append.mp (nodup_append.mp hnodup).1).1
    exact (nodup_append.mp hdistinct).2.2 _ htask _ hover rfl
  have hactive : s.limiter.active = 0 := by
    have hslots := h.slots
    simp [hresolved, hrunning] at hslots
    exact hslots.symm
  have hwaiting : s.limiter.waiting = [] := by
    by_contra hsome
    have hfull := h.full hsome
    omega
  refine ⟨?_, hactive, hwaiting, h.cursor, le_rfl⟩
  simpa [hresolved, hwaiting] using h.order

variable [DecidableEq τ]

def step (limit : ℕ) (s : System τ) : Event τ → Option (System τ)
  | .run task =>
    if task ∈ s.submitted then none
    else
      let acquired := acquire limit s.limiter task
      some { s with
        limiter := acquired.1
        submitted := s.submitted ++ [task]
        resolved := if acquired.2 then s.resolved ++ [task] else s.resolved }
  | .start =>
    match s.resolved with
    | [] => none
    | task :: rest =>
      some { s with
        resolved := rest
        started := s.started ++ [task]
        running := s.running ++ [task] }
  | .complete task success =>
    if task ∈ s.running then
      let released := release s.limiter
      some { s with
        limiter := released.1
        resolved := s.resolved ++ released.2.toList
        running := s.running.erase task
        completed := s.completed ++ [(task, success)] }
    else none

/-- The states that runs reach, in whatever order the events come. -/
abbrev Reached (limit : ℕ) (s : System τ) : Prop :=
  Reachable (step limit) (fun _ _ => True) (· = System.initial) s

theorem Sound.run {s t : System τ} (h : Sound limit s) {task : τ}
    (hstep : step limit s (.run task) = some t) : Sound limit t := by
  rw [step] at hstep
  by_cases hnew : task ∈ s.submitted
  · simp [hnew] at hstep
  rw [if_neg hnew, Option.some.injEq] at hstep
  subst hstep
  have hnodup : (s.submitted ++ [task]).Nodup := by
    rw [← concat_eq_append]
    exact h.nodup.concat hnew
  by_cases hfree : s.limiter.active < limit
  · have hnone : s.limiter.waiting = [] := by
      by_contra hsome
      exact absurd (h.full hsome) (Nat.ne_of_lt hfree)
    have hslots := h.slots
    have horder := h.order
    have hwaiting : ({ s.limiter with active := s.limiter.active + 1 } :
        ConcurrencyLimiter τ).waiting = s.limiter.waiting := rfl
    constructor <;> simp only [acquire, if_pos hfree, if_true, hwaiting, hnone]
    · exact h.cursor
    · simp; omega
    · exact hfree
    · simp
    · simp [← horder, hnone]
    · exact hnodup
    · exact h.ended
  · have hwaiting := acquire_waiting task h.cursor hfree
    have hactive : (acquire limit s.limiter task).1.active = s.limiter.active := by
      rw [acquire, if_neg hfree]
    have hgiven : (acquire limit s.limiter task).2 = false := by rw [acquire, if_neg hfree]
    constructor <;> simp only [hwaiting, hactive, hgiven]
    · rw [acquire, if_neg hfree]
      simpa using Nat.le_succ_of_le h.cursor
    · exact h.slots
    · exact h.bounded
    · exact fun _ => Nat.le_antisymm h.bounded (Nat.not_lt.mp hfree)
    · simp [← h.order]
    · exact hnodup
    · exact h.ended

theorem Sound.start {s t : System τ} (h : Sound limit s)
    (hstep : step limit s .start = some t) : Sound limit t := by
  rw [step] at hstep
  cases hresolved : s.resolved with
  | nil => simp [hresolved] at hstep
  | cons task rest =>
    simp only [hresolved, Option.some.injEq] at hstep
    subst hstep
    have hslots := h.slots
    have horder := h.order
    rw [hresolved] at hslots horder
    refine ⟨h.cursor, ?_, h.bounded, h.full, ?_, h.nodup, ?_⟩
    · simp at hslots ⊢
      omega
    · simpa using horder
    · have hmove : (s.running ++ [task] ++ s.completed.map (·.1)).Perm
          (s.running ++ s.completed.map (·.1) ++ [task]) := by
        simpa using (@perm_append_comm _ [task] _).append_left s.running
      exact hmove.trans (h.ended.append_right [task])

theorem Sound.complete {s t : System τ} (h : Sound limit s) {task : τ}
    {success : Bool} (hstep : step limit s (.complete task success) = some t) :
    Sound limit t := by
  rw [step] at hstep
  by_cases hrunning : task ∈ s.running
  · rw [if_pos hrunning, Option.some.injEq] at hstep
    subst hstep
    obtain ⟨hwaiting, hcursor, hactive, hnone⟩ := release_spec h.cursor
    have hslots := h.slots
    have hlength := length_erase_of_mem hrunning
    have hpos := length_pos_of_mem hrunning
    have hbounded := h.bounded
    refine ⟨hcursor, ?_, ?_, ?_, ?_, h.nodup, ?_⟩
    · by_cases hempty : s.limiter.waiting = []
      · simp [hempty] at hactive
        simp [hnone.mpr hempty, hlength]
        omega
      · obtain ⟨next, hnext⟩ := Option.ne_none_iff_exists'.mp (mt hnone.mp hempty)
        simp [hempty] at hactive
        simp [hnext, hlength]
        omega
    · by_cases hempty : s.limiter.waiting = [] <;> simp [hempty] at hactive <;> dsimp only <;>
        omega
    · intro hsome
      have hwait : s.limiter.waiting ≠ [] := by
        rw [← hwaiting]
        exact fun hnil => hsome (append_eq_nil_iff.mp hnil).2
      simp [hwait] at hactive
      exact hactive.trans (h.full hwait)
    · rw [← h.order, ← hwaiting]
      simp
    have hmove : (s.running.erase task ++ (s.completed.map (·.1) ++ [task])).Perm
        (s.running ++ s.completed.map (·.1)) := by
      have hfront := (perm_cons_erase hrunning).symm
      calc s.running.erase task ++ (s.completed.map (·.1) ++ [task])
          ~ s.running.erase task ++ ([task] ++ s.completed.map (·.1)) :=
            perm_append_comm.append_left _
        _ ~ task :: s.running.erase task ++ s.completed.map (·.1) := by simp
        _ ~ s.running ++ s.completed.map (·.1) := hfront.append_right _
    simpa using hmove.trans h.ended
  · simp [hrunning] at hstep

theorem Sound.step {limit : ℕ} {s t : System τ} (h : Sound limit s) {event : Event τ}
    (hstep : step limit s event = some t) : Sound limit t := by
  cases event with
  | run task => exact h.run hstep
  | start => exact h.start hstep
  | complete task success => exact h.complete hstep

theorem Reached.sound {s : System τ} (h : Reached limit s) : Sound limit s :=
  @Reachable.invariant _ _ _ _ _ (Sound limit) (by rintro _ rfl; exact .initial limit)
    (fun _ _ _ hs _ ht => hs.step ht) _ h

/-- **The limiter**: in every run no more tasks run than the limit, and tasks start once each in
order. -/
theorem limiter_exact {limit : ℕ} (hlimit : 0 < limit) :
    (∀ s : System τ, Reached limit s → s.running.length ≤ limit ∧
      (s.limiter.waiting ≠ [] → s.resolved.length + s.running.length = limit) ∧
      s.started ++ s.resolved ++ s.limiter.waiting = s.submitted ∧ s.started.Nodup ∧
      (s.resolved = [] ∧ s.running = [] → s.started = s.submitted) ∧
      ((∀ task ∈ s.submitted, task ∈ s.completed.map (·.1)) →
        s.started = s.submitted ∧ Alike s.limiter createConcurrencyLimiter)) ∧
    (∀ limiter : ConcurrencyLimiter τ, (compactQueueIfNeeded limiter).waiting = limiter.waiting) ∧
    ∀ a b : ConcurrencyLimiter τ, Alike a b →
      (∀ task, (acquire limit a task).2 = (acquire limit b task).2 ∧
        Alike (acquire limit a task).1 (acquire limit b task).1) ∧
      (release a).2 = (release b).2 ∧ Alike (release a).1 (release b).1 := by
  refine ⟨fun s hs => ?_, compactQueueIfNeeded_waiting, fun a b h => ⟨h.acquire, h.release⟩⟩
  have h := hs.sound
  have hslots := h.slots
  have hbounded := h.bounded
  refine ⟨by omega, fun hsome => hslots.trans (h.full hsome), h.order, ?_, ?_, h.idle hlimit⟩
  · have hnodup := h.nodup
    rw [← h.order, append_assoc] at hnodup
    exact (nodup_append.mp hnodup).1
  rintro ⟨hresolved, hrunning⟩
  have hwaiting : s.limiter.waiting = [] := by
    by_contra hsome
    have hfull := h.full hsome
    simp [hresolved, hrunning] at hslots
    omega
  simpa [hresolved, hwaiting] using h.order

/-- The second of two tasks on one slot waits. -/
theorem limiter_exact_one : 0 < 1 ∧ ∃ s : System ℕ, Reached 1 s ∧ s.limiter.waiting = [1] ∧
    s.resolved.length + s.running.length = 1 ∧ s.started ++ s.resolved ++ [1] = s.submitted := by
  obtain ⟨s, hs, hwaits⟩ : ∃ s : System ℕ, Reached 1 s ∧ (s.limiter.waiting == [1]) = true :=
    exists_reachable_of_exec (step 1) (fun _ _ => True) [.run 0, .run 1] _ rfl (by decide)
  have hwaiting := eq_of_beq hwaits
  obtain ⟨-, hslots, horder, -⟩ := (limiter_exact Nat.one_pos).1 s hs
  rw [hwaiting] at hslots horder
  exact ⟨Nat.one_pos, s, hs, hwaiting, hslots (cons_ne_nil _ _), horder⟩

/-- Two tasks on one slot leave the cursor behind the one waiter. -/
theorem cursor_is_left : ∃ s : System ℕ, Reached 1 s ∧
    (∀ task ∈ s.submitted, task ∈ s.completed.map (·.1)) ∧
    s.limiter ≠ createConcurrencyLimiter := by
  have hrun : ∃ s : System ℕ, Reached 1 s ∧
      (s.submitted.all (fun task => (s.completed.map (·.1)).contains task) &&
        decide (s.limiter ≠ createConcurrencyLimiter)) = true :=
    exists_reachable_of_exec (step 1) (fun _ _ => True)
      [.run 0, .run 1, .start, .complete 0 true, .start, .complete 1 false] _ rfl (by decide)
  obtain ⟨s, hs, hbad⟩ := hrun
  simp only [Bool.and_eq_true, all_eq_true, decide_eq_true_eq] at hbad
  exact ⟨s, hs, fun task htask => contains_iff_mem.mp (hbad.1 task htask), hbad.2⟩

end Tsgit.Limiter
