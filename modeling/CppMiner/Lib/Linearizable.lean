-- SUMMARY: Objects whose operations take effect at one instant between their call and their return.
import Mathlib.Logic.Function.Basic
import CppMiner.Lib.Simulation

/-!
# Linearizability

A sequential object is a state and, for each operation, its effect on the state and its
answer. The atomic object lets threads call its operations concurrently; each is
performed in one step, between the call and the return. Of such an object one sees the
calls and the returns. A system is linearizable to a sequential object when the atomic
object simulates it, so that everything one can see of it can be seen of the atomic object.

The state of the atomic object is the list of the operations performed, in their order;
its value is what they make of the initial value one after another.
-/

namespace Linearizable

open TransitionSystem

/-- A sequential object: its operations are `κ`, its values `α`, and its answers `β`. -/
structure Object (κ α β : Type*) where
  init : α
  effect : κ → α → α
  answer : κ → α → β

/-- What one sees of an object that threads share. -/
inductive Event (ι κ β : Type*) where
  | call (i : ι) (k : κ)
  | returned (i : ι) (b : β)

/-- Where a thread is. -/
inductive Thread (κ β : Type*) where
  | idle
  | called (k : κ)
  | answered (b : β)

structure State (ι κ β : Type*) where
  thread : ι → Thread κ β := fun _ => .idle
  performed : List (ι × κ) := []

inductive Label (ι κ β : Type*) where
  | call (i : ι) (k : κ)
  | perform (i : ι)
  | returned (i : ι) (b : β)

variable {ι κ α β : Type*}

def Label.shown : Label ι κ β → Option (Event ι κ β)
  | .call i k => some (.call i k)
  | .perform _ => none
  | .returned i b => some (.returned i b)

namespace Object

/-- The value after a list of operations. -/
def value (O : Object κ α β) (performed : List (ι × κ)) : α :=
  performed.foldl (fun a p => O.effect p.2 a) O.init

@[simp] theorem value_append_singleton (O : Object κ α β) (performed : List (ι × κ)) (p : ι × κ) :
    O.value (performed ++ [p]) = O.effect p.2 (O.value performed) := by
  rw [value, List.foldl_append]
  rfl

variable [DecidableEq ι]

/-- The steps of the atomic object. -/
inductive Step (O : Object κ α β) (s : State ι κ β) : Label ι κ β → State ι κ β → Prop where
  | call (i : ι) (k : κ) (h : s.thread i = .idle) :
    O.Step s (.call i k) { s with thread := Function.update s.thread i (.called k) }
  | perform (i : ι) (k : κ) (h : s.thread i = .called k) :
    O.Step s (.perform i)
      { thread := Function.update s.thread i (.answered (O.answer k (O.value s.performed)))
        performed := s.performed ++ [(i, k)] }
  | returned (i : ι) (b : β) (h : s.thread i = .answered b) :
    O.Step s (.returned i b) { s with thread := Function.update s.thread i .idle }

def next (O : Object κ α β) (s : State ι κ β) : Label ι κ β → State ι κ β
  | .call i k => { s with thread := Function.update s.thread i (.called k) }
  | .perform i =>
    match s.thread i with
    | .called k =>
      { thread := Function.update s.thread i (.answered (O.answer k (O.value s.performed)))
        performed := s.performed ++ [(i, k)] }
    | _ => s
  | .returned i _ => { s with thread := Function.update s.thread i .idle }

/-- The object whose operations are performed in one step each. -/
def atomic (O : Object κ α β) (ι : Type*) [DecidableEq ι] :
    TransitionSystem (State ι κ β) (Label ι κ β) where
  init := {}
  Enabled s l := ∃ s', O.Step s l s'
  next := O.next

variable {O : Object κ α β} {s s' : State ι κ β} {l : Label ι κ β}

theorem Step.next_eq (h : O.Step s l s') : O.next s l = s' := by
  cases h with
  | call i k h => rfl
  | perform i k h => simp only [Object.next, h]
  | returned i b h => rfl

theorem Step.enabled (h : O.Step s l s') : (O.atomic ι).Enabled s l ∧ (O.atomic ι).next s l = s' :=
  ⟨⟨s', h⟩, h.next_eq⟩

/-- One step is a run. -/
theorem Step.isRun (h : O.Step s l s') :
    (O.atomic ι).IsRun s [l] ∧ (O.atomic ι).exec s [l] = s' :=
  ⟨isRun_singleton h.enabled.1, h.next_eq⟩

end Object

/-! ## The calls of a thread and what was performed for it -/

/-- The operations that a thread called. -/
def Event.callsOf [DecidableEq ι] (i : ι) : Event ι κ β → Option κ
  | .call j k => if j = i then some k else none
  | .returned _ _ => none

/-- The operation that a thread has called and that is not performed yet. -/
def Thread.pending : Thread κ β → List κ
  | .called k => [k]
  | _ => []

/-- The operations that were performed for a thread. -/
def State.performedFor [DecidableEq ι] (s : State ι κ β) (i : ι) : List κ :=
  s.performed.filterMap fun p => if p.1 = i then some p.2 else none

variable [DecidableEq ι]

/-- Operations are performed in the order in which their thread called them, and all of
them but the last have been. -/
theorem Object.calls_eq (O : Object κ α β) (i : ι) {s : State ι κ β} {ms : List (Label ι κ β)}
    (hv : (O.atomic ι).IsRun s ms) :
    s.performedFor i ++ (s.thread i).pending ++
        (ms.filterMap Label.shown).filterMap (Event.callsOf i) =
      ((O.atomic ι).exec s ms).performedFor i ++ (((O.atomic ι).exec s ms).thread i).pending := by
  induction ms generalizing s with
  | nil => simp [exec]
  | cons l ms ih =>
    obtain ⟨⟨⟨s', hstep⟩, -⟩, hv⟩ := hv
    rw [show (O.atomic ι).exec s (l :: ms) = (O.atomic ι).exec ((O.atomic ι).next s l) ms from rfl,
      ← ih hv, show (O.atomic ι).next s l = s' from hstep.next_eq]
    -- what one step does to the operations of the thread
    cases hstep with
    | call j k h =>
      by_cases hj : j = i
      · subst hj
        simp [State.performedFor, Label.shown, Event.callsOf, Thread.pending, h]
      · simp [State.performedFor, Label.shown, Event.callsOf, hj,
          Function.update_of_ne (Ne.symm hj)]
    | perform j k h =>
      by_cases hj : j = i
      · subst hj
        simp [State.performedFor, Label.shown, List.filterMap_cons, Thread.pending, h]
      · simp [State.performedFor, Label.shown, List.filterMap_cons, hj,
          Function.update_of_ne (Ne.symm hj)]
    | returned j b h =>
      by_cases hj : j = i
      · subst hj
        simp [State.performedFor, Label.shown, List.filterMap_cons, Event.callsOf,
          Thread.pending, h]
      · simp [State.performedFor, Label.shown, List.filterMap_cons, Event.callsOf,
          Function.update_of_ne (Ne.symm hj)]

/-- What was performed had been called. -/
theorem Object.call_of_performed {O : Object κ α β} {ms : List (Label ι κ β)}
    (hv : (O.atomic ι).IsRun {} ms) {i : ι} {k : κ}
    (h : (i, k) ∈ ((O.atomic ι).exec {} ms).performed) :
    Event.call i k ∈ ms.filterMap Label.shown := by
  have hcalls := O.calls_eq i hv
  have hk : k ∈ ((O.atomic ι).exec {} ms).performedFor i :=
    List.mem_filterMap.mpr ⟨(i, k), h, if_pos rfl⟩
  have hmem : k ∈ (ms.filterMap Label.shown).filterMap (Event.callsOf i) := by
    rw [show ({} : State ι κ β).performedFor i = [] from rfl,
      show (({} : State ι κ β).thread i).pending = [] from rfl, List.nil_append,
      List.nil_append] at hcalls
    rw [hcalls]
    exact List.mem_append_left _ hk
  obtain ⟨e, he, hcall⟩ := List.mem_filterMap.mp hmem
  cases e with
  | returned j b => cases hcall
  | call j k' =>
    simp only [Event.callsOf] at hcall
    split at hcall
    · rename_i hj
      cases hcall
      rwa [← hj]
    · cases hcall

/-- Just before an answer is seen the thread has it. -/
theorem Object.answered_of_shown {O : Object κ α β} {ms : List (Label ι κ β)}
    (hv : (O.atomic ι).IsRun {} ms) {es : List (Event ι κ β)} {i : ι} {b : β}
    (h : ms.filterMap Label.shown = es ++ [.returned i b]) :
    ∃ ms', (O.atomic ι).IsRun {} ms' ∧ ms'.filterMap Label.shown = es ∧
      ((O.atomic ι).exec {} ms').thread i = .answered b := by
  obtain ⟨ms₁, ms₂, rfl, h₁, h₂⟩ := List.filterMap_eq_append_iff.mp h
  obtain ⟨silent, m, ms₃, rfl, hsilent, hm, -⟩ := List.filterMap_eq_cons_iff.mp h₂
  have hrun := hv.of_append
  obtain ⟨hrun₁, hrun₂⟩ := hrun
  obtain ⟨hrun₂, hrun₃⟩ := hrun₂.of_append
  refine ⟨ms₁ ++ silent, hrun₁.append hrun₂, ?_, ?_⟩
  · rw [List.filterMap_append, h₁, List.filterMap_eq_nil_iff.mpr hsilent, List.append_nil]
  · obtain ⟨⟨⟨s', hstep⟩, -⟩, -⟩ := hrun₃
    rw [exec_append]
    cases hstep with
    | call j k hj => cases hm
    | perform j k hj => cases hm
    | returned j b' hj =>
      cases hm
      exact hj

end Linearizable
