-- SUMMARY: Queues of work: items leave in the order in which they came, and each is done once.
import Mathlib.Data.List.Nodup
import Mathlib.Logic.Function.Basic
import CppMiner.Lib.Transition

/-! # Work queues

Items are put into a queue, each with the number of those before it; a worker without an item
takes the first of the queue, and finishes it later. Whatever the order of these steps, the
queue is what is left of the items when those that were taken are cut off the front, and an
item that was taken is either finished or with the worker who took it (`Sound`). So once
nothing is left, each item was finished by one worker and once (`Sound.existsUnique`). -/

structure WorkQueue (ω α : Type*) where
  submitted : List (ℕ × α) := []
  queue : List (ℕ × α) := []
  taken : List (ω × ℕ × α) := []
  running : ω → Option (ℕ × α) := fun _ => none
  finished : List (ω × ℕ × α) := []

namespace WorkQueue

inductive Label (ω α : Type*) where
  | submit (x : α)
  | take (w : ω)
  | finish (w : ω)

variable {ω α : Type*}

/-- The items and the workers agree. -/
structure Sound (q : WorkQueue ω α) : Prop where
  order : q.submitted = q.taken.map (·.2) ++ q.queue
  numbers : q.submitted.map (·.1) = List.range q.submitted.length
  taken : ∀ w x, (w, x) ∈ q.taken ↔ (w, x) ∈ q.finished ∨ q.running w = some x
  once : q.finished.Nodup
  unfinished : ∀ w x, q.running w = some x → (w, x) ∉ q.finished

section Step

variable [DecidableEq ω]

def step (q : WorkQueue ω α) : Label ω α → Option (WorkQueue ω α)
  | .submit x =>
    some
      { q with
        submitted := q.submitted ++ [(q.submitted.length, x)]
        queue := q.queue ++ [(q.submitted.length, x)] }
  | .take w =>
    match q.running w, q.queue with
    | none, x :: rest =>
      some
        { q with
          queue := rest
          taken := q.taken ++ [(w, x)]
          running := Function.update q.running w (some x) }
    | _, _ => none
  | .finish w =>
    match q.running w with
    | some x =>
      some
        { q with
          running := Function.update q.running w none
          finished := q.finished ++ [(w, x)] }
    | none => none

def system : TransitionSystem (WorkQueue ω α) (Label ω α) := .ofStep {} step

end Step

namespace Sound

variable {q : WorkQueue ω α}

theorem nodup_submitted (h : q.Sound) : q.submitted.Nodup := by
  apply List.Nodup.of_map (·.1)
  rw [h.numbers]
  exact List.nodup_range

/-- No item is taken twice. -/
theorem nodup_taken (h : q.Sound) : (q.taken.map (·.2)).Nodup := by
  have hnodup := h.nodup_submitted
  rw [h.order] at hnodup
  exact hnodup.of_append_left

/-- An item was taken by one worker. -/
theorem worker_unique (h : q.Sound) {w w' : ω} {x : ℕ × α} (hw : (w, x) ∈ q.taken)
    (hw' : (w', x) ∈ q.taken) : w = w' := by
  have hpair := List.inj_on_of_nodup_map h.nodup_taken hw hw' rfl
  exact congrArg Prod.fst hpair

/-- Where nothing is queued and nothing is running, every item was finished by one worker. -/
theorem existsUnique (h : q.Sound) (hqueue : q.queue = []) (hidle : ∀ w, q.running w = none) :
    ∀ x ∈ q.submitted, ∃! w, (w, x) ∈ q.finished := by
  intro x hx
  rw [h.order, hqueue, List.append_nil] at hx
  obtain ⟨⟨w, x⟩, hw, rfl⟩ := List.mem_map.mp hx
  have hfinished : ∀ {w}, (w, x) ∈ q.taken → (w, x) ∈ q.finished := by
    intro w hw
    rcases (h.taken w x).mp hw with hfinished | hrunning
    · exact hfinished
    · rw [hidle w] at hrunning
      cases hrunning
  refine ⟨w, hfinished hw, fun w' hw' => ?_⟩
  exact h.worker_unique ((h.taken w' x).mpr (.inl hw')) hw

theorem submit (h : q.Sound) (x : α) :
    Sound
      { q with
        submitted := q.submitted ++ [(q.submitted.length, x)]
        queue := q.queue ++ [(q.submitted.length, x)] } where
  order := by
    rw [← List.append_assoc, ← h.order]
  numbers := by
    rw [List.map_append, h.numbers, List.length_append, List.length_singleton, List.range_succ]
    rfl
  taken := h.taken
  once := h.once
  unfinished := h.unfinished

section Step

variable [DecidableEq ω]

theorem take (h : q.Sound) {w : ω} {x : ℕ × α} {rest : List (ℕ × α)} (hidle : q.running w = none)
    (hqueue : q.queue = x :: rest) :
    Sound
      { q with
        queue := rest
        taken := q.taken ++ [(w, x)]
        running := Function.update q.running w (some x) } where
  order := by
    rw [h.order, hqueue]
    simp
  numbers := h.numbers
  taken := by
    intro w' x'
    have htaken := h.taken w' x'
    simp only [List.mem_append, List.mem_singleton, Prod.mk.injEq]
    by_cases hw : w' = w
    · subst hw
      rw [hidle] at htaken
      simp only [reduceCtorEq, or_false] at htaken
      rw [htaken, Function.update_self, Option.some.injEq]
      simp only [true_and, eq_comm]
    · rw [Function.update_of_ne hw, htaken]
      simp only [hw, false_and, or_false]
  once := h.once
  unfinished := by
    intro w' x' hrunning hfinished
    by_cases hw : w' = w
    · subst hw
      simp only [Function.update_self, Option.some.injEq] at hrunning
      subst hrunning
      -- what is in the queue was not taken before
      have hnodup := h.nodup_submitted
      rw [h.order, hqueue] at hnodup
      have hmem : x ∈ q.taken.map (·.2) :=
        List.mem_map.mpr ⟨(w', x), (h.taken w' x).mpr (.inl hfinished), rfl⟩
      exact List.disjoint_of_nodup_append hnodup hmem (by simp)
    · simp only [Function.update_of_ne hw] at hrunning
      exact h.unfinished w' x' hrunning hfinished

theorem finish (h : q.Sound) {w : ω} {x : ℕ × α} (hrunning : q.running w = some x) :
    Sound
      { q with
        running := Function.update q.running w none
        finished := q.finished ++ [(w, x)] } where
  order := h.order
  numbers := h.numbers
  taken := by
    intro w' x'
    simp only [h.taken w' x', List.mem_append, List.mem_singleton, Prod.mk.injEq]
    by_cases hw : w' = w
    · subst hw
      rw [hrunning, Function.update_self, Option.some.injEq]
      simp only [true_and, reduceCtorEq, or_false, eq_comm]
    · rw [Function.update_of_ne hw]
      simp only [hw, false_and, or_false]
  once := by
    rw [List.nodup_append]
    refine ⟨h.once, List.nodup_singleton _, ?_⟩
    rintro p hp _ hmem rfl
    rw [List.mem_singleton] at hmem
    exact h.unfinished w x hrunning (hmem ▸ hp)
  unfinished := by
    intro w' x' hrunning' hfinished
    by_cases hw : w' = w
    · subst hw
      simp only [Function.update_self] at hrunning'
      cases hrunning'
    · simp only [Function.update_of_ne hw] at hrunning'
      rcases List.mem_append.mp hfinished with hmem | hmem
      · exact h.unfinished w' x' hrunning' hmem
      · rw [List.mem_singleton, Prod.mk.injEq] at hmem
        exact hw hmem.1

theorem next {l : Label ω α} {q' : WorkQueue ω α} (h : q.Sound) (hstep : q.step l = some q') :
    q'.Sound := by
  cases l with
  | submit x =>
    cases hstep
    exact h.submit x
  | take w =>
    simp only [step] at hstep
    split at hstep
    · rename_i x rest hidle hqueue
      cases hstep
      exact h.take hidle hqueue
    · cases hstep
  | finish w =>
    simp only [step] at hstep
    split at hstep
    · rename_i x hrunning
      cases hstep
      exact h.finish hrunning
    · cases hstep

end Step

end Sound

/-- The items and the workers agree in every state that can be reached. -/
theorem sound_of_reach [DecidableEq ω] {q : WorkQueue ω α}
    (h : (system (ω := ω) (α := α)).Reachable q) : q.Sound := by
  have hinit : ({} : WorkQueue ω α).Sound := by
    refine ⟨rfl, rfl, fun w x => ?_, List.nodup_nil, fun w x _ => List.not_mem_nil⟩
    simp only [List.not_mem_nil, reduceCtorEq, or_false]
  exact h.invariant hinit fun q l hq he _ => hq.next (TransitionSystem.step_eq_some he)

end WorkQueue
