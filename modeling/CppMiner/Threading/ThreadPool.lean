-- SUMMARY: The thread pool as a transition system: workers, submits and the destructor, one step for each access.
import Mathlib.Data.Fintype.Pi
import CppMiner.Lib.Transition
import CppMiner.Lib.WorkQueue

/-!
# The thread pool

The workers of the pool take tasks from a queue that `mutex_` guards, and wait on
`condition_` while there are none. The destructor sets `stopping_` and wakes them all, without
the mutex. A worker that found nothing to do holds the mutex until it blocks; unlocking and
blocking are one step, and so is what a submit does under the mutex.

A task may do anything, among other things submit further tasks to its own pool. What it
throws stays in its future.
-/

namespace CppMiner.Threading

variable {n : ℕ} {τ : Type*}

/-! ## States -/

/-- Where a worker is. A task is recorded with the number of those submitted before it. -/
inductive Worker (τ : Type*) where
  /-- About to lock the mutex. -/
  | locking
  /-- Holds the mutex, at the predicate of the wait. -/
  | testing
  /-- Holds the mutex, found nothing to do, and is about to unlock it and to block. -/
  | blocking
  | asleep
  /-- Holds the mutex, after the wait. -/
  | waited
  | running (x : ℕ × τ)
  /-- In a submit of its task, about to notify. -/
  | notifying (x : ℕ × τ)
  /-- Took the front of an empty queue. -/
  | undefined
  | returned

/-- The task that a worker executes. -/
def Worker.task : Worker τ → Option (ℕ × τ)
  | running x | notifying x => some x
  | _ => none

/-- A worker after `notify_all`. -/
def Worker.notified : Worker τ → Worker τ
  | asleep => locking
  | w => w

/-- Where the destructor is. -/
inductive Destructor where
  | notCalled
  /-- About to notify. -/
  | stored
  /-- About to join a worker, or past the last. -/
  | joining (worker : ℕ)
  | returned
  deriving DecidableEq

/-- A pool of `n` workers. -/
structure ThreadPool (n : ℕ) (τ : Type*) where
  workers : Fin n → Worker τ := fun _ => .locking
  tasks : List (ℕ × τ) := []
  /-- The worker that holds the mutex. -/
  mutex : Option (Fin n) := none
  stopping : Bool := false
  destructor : Destructor := .notCalled
  /-- How many submits, not made by a task, are about to notify. -/
  notifying : ℕ := 0
  /-- Recorded: the tasks submitted, taken, and executed. -/
  submitted : List (ℕ × τ) := []
  taken : List (Fin n × ℕ × τ) := []
  executed : List (Fin n × ℕ × τ) := []

namespace ThreadPool

/-! ## Steps -/

/-- A submit is made by the task of a worker, or by some other thread. -/
inductive Label (n : ℕ) (τ : Type*) where
  | submit (caller : Option (Fin n)) (task : τ)
  /-- `notify_one` at the end of a submit, and the worker it wakes, if there is one. -/
  | notifyOne (caller wakes : Option (Fin n))
  | lock (i : Fin n)
  | test (i : Fin n)
  | block (i : Fin n)
  /-- Woken by nobody. -/
  | wake (i : Fin n)
  | take (i : Fin n)
  | finish (i : Fin n)
  | store
  | notifyAll
  | join

def setWorker (s : ThreadPool n τ) (i : Fin n) (w : Worker τ) : ThreadPool n τ :=
  { s with workers := Function.update s.workers i w }

theorem workers_setWorker (s : ThreadPool n τ) (i : Fin n) (w : Worker τ) :
    (s.setWorker i w).workers = Function.update s.workers i w := rfl

def push (s : ThreadPool n τ) (task : τ) : ThreadPool n τ :=
  { s with
    tasks := s.tasks ++ [(s.submitted.length, task)]
    submitted := s.submitted ++ [(s.submitted.length, task)] }

/-- Appending to the queue; the mutex is locked before and unlocked after. -/
def submit (s : ThreadPool n τ) (caller : Option (Fin n)) (task : τ) : Option (ThreadPool n τ) :=
  if s.mutex = none then
    match caller with
    | none => some { s.push task with notifying := s.notifying + 1 }
    | some i =>
      match s.workers i with
      | .running x => some ((s.push task).setWorker i (.notifying x))
      | _ => none
  else none

/-- The worker that is woken, if any sleeps. -/
def wakeOne (s : ThreadPool n τ) : Option (Fin n) → Option (ThreadPool n τ)
  | some j =>
    match s.workers j with
    | .asleep => some (s.setWorker j .locking)
    | _ => none
  | none => if ∀ j, ¬ s.workers j matches .asleep then some s else none

def notifyOne (s : ThreadPool n τ) (caller wakes : Option (Fin n)) : Option (ThreadPool n τ) :=
  match caller with
  | none =>
    match s.notifying with
    | 0 => none
    | k + 1 => { s with notifying := k }.wakeOne wakes
  | some i =>
    match s.workers i with
    | .notifying x => (s.setWorker i (.running x)).wakeOne wakes
    | _ => none

def lock (s : ThreadPool n τ) (i : Fin n) : Option (ThreadPool n τ) :=
  match s.workers i, s.mutex with
  | .locking, none => some { s.setWorker i .testing with mutex := some i }
  | _, _ => none

/-- The predicate of the wait. -/
def test (s : ThreadPool n τ) (i : Fin n) : Option (ThreadPool n τ) :=
  match s.workers i with
  | .testing =>
    some (s.setWorker i (if s.stopping ∨ ¬ s.tasks.isEmpty then .waited else .blocking))
  | _ => none

def block (s : ThreadPool n τ) (i : Fin n) : Option (ThreadPool n τ) :=
  match s.workers i with
  | .blocking => some { s.setWorker i .asleep with mutex := none }
  | _ => none

def wake (s : ThreadPool n τ) (i : Fin n) : Option (ThreadPool n τ) :=
  match s.workers i with
  | .asleep => some (s.setWorker i .locking)
  | _ => none

/-- After the wait: the worker returns, or takes the front of the queue. -/
def take (s : ThreadPool n τ) (i : Fin n) : Option (ThreadPool n τ) :=
  match s.workers i with
  | .waited =>
    match s.tasks with
    | [] =>
      some { s.setWorker i (if s.stopping then .returned else .undefined) with mutex := none }
    | x :: rest =>
      some
        { s.setWorker i (.running x) with
          mutex := none
          tasks := rest
          taken := s.taken ++ [(i, x)] }
  | _ => none

def finish (s : ThreadPool n τ) (i : Fin n) : Option (ThreadPool n τ) :=
  match s.workers i with
  | .running x => some { s.setWorker i .locking with executed := s.executed ++ [(i, x)] }
  | _ => none

def store (s : ThreadPool n τ) : Option (ThreadPool n τ) :=
  match s.destructor with
  | .notCalled => some { s with stopping := true, destructor := .stored }
  | _ => none

def notifyAll (s : ThreadPool n τ) : Option (ThreadPool n τ) :=
  match s.destructor with
  | .stored =>
    some { s with workers := fun i => (s.workers i).notified, destructor := .joining 0 }
  | _ => none

/-- The loop of the destructor. -/
def join (s : ThreadPool n τ) : Option (ThreadPool n τ) :=
  match s.destructor with
  | .joining k =>
    if h : k < n then
      match s.workers ⟨k, h⟩ with
      | .returned => some { s with destructor := .joining (k + 1) }
      | _ => none
    else some { s with destructor := .returned }
  | _ => none

def step (s : ThreadPool n τ) : Label n τ → Option (ThreadPool n τ)
  | .submit caller task => s.submit caller task
  | .notifyOne caller wakes => s.notifyOne caller wakes
  | .lock i => s.lock i
  | .test i => s.test i
  | .block i => s.block i
  | .wake i => s.wake i
  | .take i => s.take i
  | .finish i => s.finish i
  | .store => s.store
  | .notifyAll => s.notifyAll
  | .join => s.join

end ThreadPool

/-- The pool, from the return of its constructor on. -/
def pool (n : ℕ) (τ : Type*) : TransitionSystem (ThreadPool n τ) (ThreadPool.Label n τ) :=
  .ofStep {} ThreadPool.step

instance (s : ThreadPool n τ) (l : ThreadPool.Label n τ) : Decidable ((pool n τ).Enabled s l) :=
  inferInstanceAs (Decidable ((TransitionSystem.ofStep _ _).Enabled s l))

/-! ## What a step can do -/

namespace ThreadPool

variable {s s' : ThreadPool n τ} {l : Label n τ}

/-- What holds of all workers after one of them has moved. -/
theorem forall_workers {i : Fin n} {w : Worker τ} {p : Fin n → Worker τ → Prop}
    (hworkers : s'.workers = Function.update s.workers i w) (hself : p i w)
    (hother : ∀ j, j ≠ i → p j (s.workers j)) : ∀ j, p j (s'.workers j) := by
  rw [hworkers]
  exact (Function.forall_update_iff s.workers p).mpr ⟨hself, hother⟩

/-- The steps, each with what it finds and what it leaves. A notification is split by whether
it wakes a worker. -/
inductive Step (s : ThreadPool n τ) : Label n τ → ThreadPool n τ → Prop where
  | submit (task : τ) (hmutex : s.mutex = none) :
    Step s (.submit none task) { s.push task with notifying := s.notifying + 1 }
  | submitTask (i : Fin n) (x : ℕ × τ) (task : τ) (hmutex : s.mutex = none)
    (hi : s.workers i = .running x) :
    Step s (.submit (some i) task) ((s.push task).setWorker i (.notifying x))
  | notified (k : ℕ) (hk : s.notifying = k + 1) (wakes : Option (Fin n))
    (s' : ThreadPool n τ) (hwakes : { s with notifying := k }.wakeOne wakes = some s') :
    Step s (.notifyOne none wakes) s'
  | notifiedTask (i : Fin n) (x : ℕ × τ) (hi : s.workers i = .notifying x)
    (wakes : Option (Fin n)) (s' : ThreadPool n τ)
    (hwakes : (s.setWorker i (.running x)).wakeOne wakes = some s') :
    Step s (.notifyOne (some i) wakes) s'
  | lock (i : Fin n) (hi : s.workers i = .locking) (hmutex : s.mutex = none) :
    Step s (.lock i) { s.setWorker i .testing with mutex := some i }
  | found (i : Fin n) (hi : s.workers i = .testing) (h : s.stopping ∨ s.tasks ≠ []) :
    Step s (.test i) (s.setWorker i .waited)
  | nothing (i : Fin n) (hi : s.workers i = .testing) (hstopping : s.stopping = false)
    (htasks : s.tasks = []) : Step s (.test i) (s.setWorker i .blocking)
  | block (i : Fin n) (hi : s.workers i = .blocking) :
    Step s (.block i) { s.setWorker i .asleep with mutex := none }
  | wake (i : Fin n) (hi : s.workers i = .asleep) : Step s (.wake i) (s.setWorker i .locking)
  | returned (i : Fin n) (hi : s.workers i = .waited) (htasks : s.tasks = [])
    (hstopping : s.stopping = true) :
    Step s (.take i) { s.setWorker i .returned with mutex := none }
  | undefined (i : Fin n) (hi : s.workers i = .waited) (htasks : s.tasks = [])
    (hstopping : s.stopping = false) :
    Step s (.take i) { s.setWorker i .undefined with mutex := none }
  | take (i : Fin n) (hi : s.workers i = .waited) (x : ℕ × τ) (rest : List (ℕ × τ))
    (htasks : s.tasks = x :: rest) :
    Step s (.take i)
      { s.setWorker i (.running x) with
        mutex := none
        tasks := rest
        taken := s.taken ++ [(i, x)] }
  | finish (i : Fin n) (x : ℕ × τ) (hi : s.workers i = .running x) :
    Step s (.finish i) { s.setWorker i .locking with executed := s.executed ++ [(i, x)] }
  | store (h : s.destructor = .notCalled) :
    Step s .store { s with stopping := true, destructor := .stored }
  | notifyAll (h : s.destructor = .stored) :
    Step s .notifyAll
      { s with workers := fun i => (s.workers i).notified, destructor := .joining 0 }
  | join (k : ℕ) (h : s.destructor = .joining k) (hk : k < n)
    (hreturned : s.workers ⟨k, hk⟩ = .returned) :
    Step s .join { s with destructor := .joining (k + 1) }
  | joined (k : ℕ) (h : s.destructor = .joining k) (hk : n ≤ k) :
    Step s .join { s with destructor := .returned }

theorem step_submit {caller : Option (Fin n)} {task : τ} (h : s.submit caller task = some s') :
    Step s (.submit caller task) s' := by
  unfold submit at h
  split at h
  · rename_i hmutex
    split at h
    · cases h
      exact .submit task hmutex
    · rename_i i
      split at h
      · rename_i x hi
        cases h
        exact .submitTask i x task hmutex hi
      · cases h
  · cases h

theorem step_notifyOne {caller wakes : Option (Fin n)} (h : s.notifyOne caller wakes = some s') :
    Step s (.notifyOne caller wakes) s' := by
  unfold notifyOne at h
  split at h
  · split at h
    · cases h
    · rename_i k hk
      exact .notified k hk wakes s' h
  · rename_i i
    split at h
    · rename_i x hi
      exact .notifiedTask i x hi wakes s' h
    · cases h

theorem step_take {i : Fin n} (h : s.take i = some s') : Step s (.take i) s' := by
  unfold take at h
  split at h
  · rename_i hi
    split at h
    · rename_i htasks
      cases h
      cases hstopping : s.stopping with
      | true => exact .returned i hi htasks hstopping
      | false => exact .undefined i hi htasks hstopping
    · rename_i x rest htasks
      cases h
      exact .take i hi x rest htasks
  · cases h

theorem step_test {i : Fin n} (h : s.test i = some s') : Step s (.test i) s' := by
  unfold test at h
  split at h
  · rename_i hi
    cases h
    by_cases hfound : s.stopping ∨ ¬ s.tasks.isEmpty
    · rw [if_pos hfound]
      exact .found i hi (by simpa using hfound)
    · rw [if_neg hfound]
      rw [not_or, not_not, Bool.not_eq_true] at hfound
      exact .nothing i hi hfound.1 (List.isEmpty_iff.mp hfound.2)
  · cases h

theorem step_join (h : s.join = some s') : Step s .join s' := by
  unfold join at h
  split at h
  · rename_i k hk
    split at h
    · rename_i hlt
      split at h
      · rename_i hreturned
        cases h
        exact .join k hk hlt hreturned
      · cases h
    · rename_i hge
      cases h
      exact .joined k hk (by omega)
  · cases h

theorem step_cases (h : s.step l = some s') : Step s l s' := by
  cases l with
  | submit caller task => exact step_submit h
  | notifyOne caller wakes => exact step_notifyOne h
  | test i => exact step_test h
  | take i => exact step_take h
  | join => exact step_join h
  | lock i =>
    simp only [step, ThreadPool.lock] at h
    split at h
    · rename_i hi hmutex
      cases h
      exact .lock i hi hmutex
    · cases h
  | block i =>
    simp only [step, ThreadPool.block] at h
    split at h
    · rename_i hi
      cases h
      exact .block i hi
    · cases h
  | wake i =>
    simp only [step, ThreadPool.wake] at h
    split at h
    · rename_i hi
      cases h
      exact .wake i hi
    · cases h
  | finish i =>
    simp only [step, ThreadPool.finish] at h
    split at h
    · rename_i x hi
      cases h
      exact .finish i x hi
    · cases h
  | store =>
    simp only [step, ThreadPool.store] at h
    split at h
    · rename_i hcalled
      cases h
      exact .store hcalled
    · cases h
  | notifyAll =>
    simp only [step, ThreadPool.notifyAll] at h
    split at h
    · rename_i hstored
      cases h
      exact .notifyAll hstored
    · cases h

/-- A notification wakes a sleeping worker, or there is none. -/
theorem wakeOne_cases {wakes : Option (Fin n)} (h : s.wakeOne wakes = some s') :
    (∃ j, s.workers j = .asleep ∧ s' = s.setWorker j .locking) ∨
      s' = s ∧ ∀ j, s.workers j ≠ .asleep := by
  unfold wakeOne at h
  split at h
  · rename_i j
    split at h
    · rename_i hj
      cases h
      exact .inl ⟨j, hj, rfl⟩
    · cases h
  · split at h
    · rename_i hnone
      cases h
      exact .inr ⟨rfl, fun j hj => hnone j (by rw [hj])⟩
    · cases h

end ThreadPool

open ThreadPool in
/-- An invariant of the pool: it holds at first, and each of the steps that meet the condition
preserves it. It may use another one that is known to hold. -/
theorem pool_invariant {P : ThreadPool n τ → Label n τ → Prop} {J I : ThreadPool n τ → Prop}
    (hJ : ∀ s, (pool n τ).Reach P s → J s) (hinit : I {})
    (hstep : ∀ s l s', J s → I s → Step s l s' → P s l → I s') {s : ThreadPool n τ}
    (h : (pool n τ).Reach P s) : I s :=
  h.invariant_of hJ hinit fun s l hj hi he hP =>
    hstep s l _ hj hi (step_cases (TransitionSystem.step_eq_some he)) hP

end CppMiner.Threading
