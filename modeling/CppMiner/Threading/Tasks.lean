-- SUMMARY: What the thread pool does with its tasks: taken in order, executed once, all of them before it is gone.
import CppMiner.Threading.ThreadPool

/-!
# Tasks

As far as its tasks are concerned the pool is a work queue: its other steps do not touch them
(`queue_of_reach`). A worker returns when it has seen the queue empty after the flag was set,
and what a task submits later is there for the worker that executes it. So when all workers
have returned the queue is empty, if no other thread submits once the destructor is called.
-/

namespace CppMiner.Threading

namespace ThreadPool

variable {n : ℕ} {τ : Type*} {s s' : ThreadPool n τ} {l : Label n τ}

/-! ## The queue -/

/-- The pool as a work queue. -/
def toWorkQueue (s : ThreadPool n τ) : WorkQueue (Fin n) τ where
  submitted := s.submitted
  queue := s.tasks
  taken := s.taken
  running i := (s.workers i).task
  finished := s.executed

/-- A worker that has the same task afterwards does not show. -/
theorem task_setWorker {i : Fin n} {w : Worker τ} (h : w.task = (s.workers i).task) :
    (fun j => ((s.setWorker i w).workers j).task) = fun j => (s.workers j).task := by
  exact funext (forall_workers (p := fun j v => v.task = (s.workers j).task)
    (workers_setWorker s i w) h fun _ _ => rfl)

theorem task_update (i : Fin n) (w : Worker τ) :
    (fun j => ((s.setWorker i w).workers j).task) =
      Function.update (fun j => (s.workers j).task) i w.task :=
  Function.comp_update Worker.task s.workers i w

theorem toWorkQueue_setWorker {i : Fin n} {w : Worker τ} (h : w.task = (s.workers i).task) :
    (s.setWorker i w).toWorkQueue = s.toWorkQueue := by
  rw [toWorkQueue, task_setWorker h]
  rfl

theorem toWorkQueue_wakeOne {wakes : Option (Fin n)} (h : s.wakeOne wakes = some s') :
    s'.toWorkQueue = s.toWorkQueue := by
  rcases wakeOne_cases h with ⟨j, hj, rfl⟩ | ⟨rfl, -⟩
  · exact toWorkQueue_setWorker (by rw [hj]; rfl)
  · rfl

/-- A step leaves the tasks alone, or is a step of the work queue. -/
theorem Step.tasks (h : Step s l s') :
    s'.toWorkQueue = s.toWorkQueue ∨
      ∃ k, s.toWorkQueue.step k = some s'.toWorkQueue := by
  cases h with
  | submit task hmutex => exact .inr ⟨.submit task, rfl⟩
  | submitTask i x task hmutex hi =>
    refine .inr ⟨.submit task, ?_⟩
    have hsame := toWorkQueue_setWorker (s := s.push task) (i := i) (w := .notifying x)
      (by rw [show (s.push task).workers i = s.workers i from rfl, hi]; rfl)
    rw [hsame]
    rfl
  | notified k hk wakes s' hwakes =>
    left
    rw [toWorkQueue_wakeOne hwakes]
    rfl
  | notifiedTask i x hi wakes s' hwakes =>
    left
    rw [toWorkQueue_wakeOne hwakes, toWorkQueue_setWorker (by rw [hi]; rfl)]
  | lock i hi hmutex => exact .inl (toWorkQueue_setWorker (w := .testing) (by rw [hi]; rfl))
  | found i hi hfound => exact .inl (toWorkQueue_setWorker (by rw [hi]; rfl))
  | nothing i hi hstopping htasks => exact .inl (toWorkQueue_setWorker (by rw [hi]; rfl))
  | block i hi => exact .inl (toWorkQueue_setWorker (w := .asleep) (by rw [hi]; rfl))
  | wake i hi => exact .inl (toWorkQueue_setWorker (by rw [hi]; rfl))
  | returned i hi htasks hstopping =>
    exact .inl (toWorkQueue_setWorker (w := .returned) (by rw [hi]; rfl))
  | undefined i hi htasks hstopping =>
    exact .inl (toWorkQueue_setWorker (w := .undefined) (by rw [hi]; rfl))
  -- besides the two submits only this step and the next are steps of the work queue
  | take i hi x rest htasks =>
    refine .inr ⟨.take i, ?_⟩
    have hidle : s.toWorkQueue.running i = none := by
      show (s.workers i).task = none
      rw [hi]
      rfl
    have hqueue : s.toWorkQueue.queue = x :: rest := htasks
    have hrunning := task_update (s := s) i (.running x)
    simp only [WorkQueue.step, hidle, hqueue, Option.some.injEq]
    rw [toWorkQueue, WorkQueue.mk.injEq]
    exact ⟨rfl, rfl, rfl, hrunning.symm, rfl⟩
  | finish i x hi =>
    refine .inr ⟨.finish i, ?_⟩
    have htask : s.toWorkQueue.running i = some x := by
      show (s.workers i).task = some x
      rw [hi]
      rfl
    have hrunning := task_update (s := s) i .locking
    simp only [WorkQueue.step, htask, Option.some.injEq]
    rw [toWorkQueue, WorkQueue.mk.injEq]
    exact ⟨rfl, rfl, rfl, hrunning.symm, rfl⟩
  | store hcalled => exact .inl rfl
  | notifyAll hstored =>
    left
    have htask : (fun i => ((s.workers i).notified).task) = fun i => (s.workers i).task := by
      funext i
      cases s.workers i <;> rfl
    rw [toWorkQueue, htask]
    rfl
  | join k hjoining hk hreturned => exact .inl rfl
  | joined k hjoining hk => exact .inl rfl

/-- The pool runs as a work queue does. -/
theorem queue_of_reach {P : ThreadPool n τ → Label n τ → Prop} (h : (pool n τ).Reach P s) :
    WorkQueue.system.Reachable s.toWorkQueue := by
  refine h.map toWorkQueue rfl fun s l he _ => ?_
  rcases (step_cases (TransitionSystem.step_eq_some he)).tasks with hsame | ⟨k, hk⟩
  · exact .inl hsame
  · obtain ⟨henabled, hnext⟩ := TransitionSystem.enabled_of_step {} hk
    exact .inr ⟨k, henabled, hnext.symm⟩

/-! ## The mutex -/

/-- Whether a worker holds the mutex. -/
def Worker.holds : Worker τ → Bool
  | .testing | .blocking | .waited => true
  | _ => false

/-- One worker at most holds the mutex, and after the wait it finds what it waited for. -/
structure Guarded (s : ThreadPool n τ) : Prop where
  holds : ∀ i, Worker.holds (s.workers i) = true ↔ s.mutex = some i
  waited : ∀ i, s.workers i = .waited → s.stopping = true ∨ s.tasks ≠ []
  defined : ∀ i, s.workers i ≠ .undefined

/-- A worker without the mutex goes on without it. -/
theorem Guarded.of_worker (h : s.Guarded) {i : Fin n} {w : Worker τ}
    (hi : Worker.holds (s.workers i) = false) (hw : Worker.holds w = false) (hdef : w ≠ .undefined)
    (hworkers : s'.workers = Function.update s.workers i w) (hmutex : s'.mutex = s.mutex)
    (hwaited : ∀ j, s.workers j = .waited → s'.stopping = true ∨ s'.tasks ≠ []) : s'.Guarded := by
  have hnotWaited : w ≠ .waited := by
    rintro rfl
    cases hw
  refine ⟨?_, ?_, ?_⟩
  · refine forall_workers (p := fun j v => Worker.holds v = true ↔ s'.mutex = some j) hworkers
      ?_ fun j _ => ?_
    · rw [hmutex, ← h.holds i, hw, hi]
    · rw [hmutex, h.holds j]
  · exact forall_workers (p := fun _ v => v = .waited → s'.stopping = true ∨ s'.tasks ≠ [])
      hworkers (fun heq => absurd heq hnotWaited) fun j _ => hwaited j
  · exact forall_workers (p := fun _ v => v ≠ .undefined) hworkers hdef fun j _ => h.defined j

/-- The worker that holds the mutex goes on, with or without it. -/
theorem Guarded.of_holder (h : s.Guarded) {i : Fin n} {w : Worker τ}
    (hi : ∀ j, j ≠ i → s.mutex ≠ some j) (hdef : w ≠ .undefined)
    (hworkers : s'.workers = Function.update s.workers i w)
    (hmutex : s'.mutex = if Worker.holds w then some i else none)
    (hwaited : w = .waited → s'.stopping = true ∨ s'.tasks ≠ []) : s'.Guarded := by
  have hother : ∀ j, j ≠ i → Worker.holds (s.workers j) = false := by
    intro j hj
    have hholds := mt (h.holds j).mp (hi j hj)
    simpa using hholds
  refine ⟨?_, ?_, ?_⟩
  · refine forall_workers (p := fun j v => Worker.holds v = true ↔ s'.mutex = some j) hworkers
      ?_ fun j hj => ?_
    · rw [hmutex]
      cases Worker.holds w <;> simp
    · rw [hmutex, hother j hj]
      split <;> simp [Ne.symm hj]
  · refine forall_workers (p := fun _ v => v = .waited → s'.stopping = true ∨ s'.tasks ≠ [])
      hworkers hwaited fun j hj heq => ?_
    have hholds := hother j hj
    rw [heq] at hholds
    cases hholds
  · exact forall_workers (p := fun _ v => v ≠ .undefined) hworkers hdef fun j _ => h.defined j

theorem Guarded.wakeOne (h : s.Guarded) {wakes : Option (Fin n)}
    (hwakes : s.wakeOne wakes = some s') : s'.Guarded := by
  rcases wakeOne_cases hwakes with ⟨j, hj, rfl⟩ | ⟨rfl, -⟩
  · exact h.of_worker (by rw [hj]; rfl) rfl (by simp) rfl rfl h.waited
  · exact h

theorem Guarded.next (h : s.Guarded) (hstep : Step s l s') : s'.Guarded := by
  -- the one worker that holds the mutex, or the one that locks it
  have hholder : ∀ {i}, Worker.holds (s.workers i) = true → ∀ j, j ≠ i → s.mutex ≠ some j := by
    intro i hi j hj hmutex
    rw [(h.holds i).mp hi, Option.some.injEq] at hmutex
    exact hj hmutex.symm
  have hwaited : s.mutex = none → ∀ j, s.workers j ≠ .waited := by
    intro hmutex j hj
    have hholds := (h.holds j).mp (by rw [hj]; rfl)
    rw [hmutex] at hholds
    cases hholds
  cases hstep with
  -- a submit takes the mutex, which a worker between its check and its take would hold
  | submit task hmutex =>
    exact ⟨h.holds, fun i hi => absurd hi (hwaited hmutex i), h.defined⟩
  | submitTask i x task hmutex hi =>
    exact h.of_worker (by rw [hi]; rfl) rfl (by simp) rfl rfl fun j hj =>
      absurd hj (hwaited hmutex j)
  | notified k hk wakes s' hwakes =>
    have hpending : { s with notifying := k }.Guarded := ⟨h.holds, h.waited, h.defined⟩
    exact hpending.wakeOne hwakes
  | notifiedTask i x hi wakes s' hwakes =>
    have hrunning : (s.setWorker i (.running x)).Guarded :=
      h.of_worker (by rw [hi]; rfl) rfl (by simp) rfl rfl h.waited
    exact hrunning.wakeOne hwakes
  | lock i hi hmutex =>
    exact h.of_holder (by simp [hmutex]) (by simp) rfl rfl (by simp)
  | found i hi hfound =>
    have hmutex := (h.holds i).mp (by rw [hi]; rfl)
    exact h.of_holder (hholder (by rw [hi]; rfl)) (by simp) rfl hmutex fun _ => hfound
  | nothing i hi hstopping htasks =>
    have hmutex := (h.holds i).mp (by rw [hi]; rfl)
    exact h.of_holder (hholder (by rw [hi]; rfl)) (by simp) rfl hmutex (by simp)
  | block i hi => exact h.of_holder (hholder (by rw [hi]; rfl)) (by simp) rfl rfl (by simp)
  | wake i hi => exact h.of_worker (by rw [hi]; rfl) rfl (by simp) rfl rfl h.waited
  | returned i hi htasks hstopping =>
    exact h.of_holder (hholder (by rw [hi]; rfl)) (by simp) rfl rfl (by simp)
  | undefined i hi htasks hstopping =>
    -- the predicate held, and nobody took a task since
    rcases h.waited i hi with hset | hne
    · rw [hstopping] at hset
      cases hset
    · exact absurd htasks hne
  | take i hi x rest htasks =>
    exact h.of_holder (hholder (by rw [hi]; rfl)) (by simp) rfl rfl (by simp)
  | finish i x hi => exact h.of_worker (by rw [hi]; rfl) rfl (by simp) rfl rfl h.waited
  | store hcalled => exact ⟨h.holds, fun _ _ => .inl rfl, h.defined⟩
  | notifyAll hstored =>
    refine ⟨fun j => ?_, fun j hj => ?_, fun j hj => ?_⟩
    · rw [← h.holds j]
      cases hw : s.workers j <;> simp [Worker.notified, Worker.holds, hw]
    · cases hw : s.workers j with
      | waited => exact h.waited j hw
      | _ => simp [Worker.notified, hw] at hj
    · have hdefined := h.defined j
      cases hw : s.workers j <;> simp_all [Worker.notified]
  | join k hjoining hk hreturned => exact ⟨h.holds, h.waited, h.defined⟩
  | joined k hjoining hk => exact ⟨h.holds, h.waited, h.defined⟩

/-- No worker takes the front of an empty queue. -/
theorem guarded_of_reach {P : ThreadPool n τ → Label n τ → Prop} (h : (pool n τ).Reach P s) :
    s.Guarded := by
  have hinit : ({} : ThreadPool n τ).Guarded := ⟨by simp [Worker.holds], by simp, by simp⟩
  exact pool_invariant (J := fun _ => True) (fun _ _ => trivial) hinit
    (fun _ _ _ _ hi hstep _ => hi.next hstep) h

/-! ## The shutdown -/

/-- No thread but the workers' own tasks submits once the destructor is called. -/
def SubmitsBefore (s : ThreadPool n τ) : Label n τ → Prop
  | .submit none _ => s.destructor = .notCalled
  | _ => True

/-- Workers return in the shutdown only, and the last of them leaves the queue empty. -/
structure Draining (s : ThreadPool n τ) : Prop where
  stopping : s.stopping = true → s.destructor ≠ .notCalled
  returned : ∀ i, s.workers i = .returned → s.destructor ≠ .notCalled
  empty : (∀ i, s.workers i = .returned) → s.tasks = []
  joined : ∀ k, s.destructor = .joining k → ∀ i : Fin n, i.val < k → s.workers i = .returned
  gone : s.destructor = .returned → ∀ i, s.workers i = .returned

/-- A worker that goes on is neither before nor afterwards one of those that returned. -/
theorem Draining.of_worker (h : s.Draining) {i : Fin n} {w : Worker τ}
    (hi : s.workers i ≠ .returned) (hw : w ≠ .returned)
    (hworkers : s'.workers = Function.update s.workers i w)
    (hstopping : s'.stopping = s.stopping) (hdestructor : s'.destructor = s.destructor) :
    s'.Draining := by
  have hother : ∀ j, s'.workers j = .returned ↔ s.workers j = .returned :=
    forall_workers (p := fun j v => v = .returned ↔ s.workers j = .returned) hworkers
      (iff_of_false hw hi) fun _ _ => Iff.rfl
  refine ⟨?_, fun j hj => ?_, fun hall => ?_, fun k hk j hj => ?_, fun hgone j => ?_⟩
  · rw [hstopping, hdestructor]
    exact h.stopping
  · rw [hdestructor]
    exact h.returned j ((hother j).mp hj)
  · exact absurd ((hother i).mp (hall i)) hi
  · exact (hother j).mpr (h.joined k (hdestructor ▸ hk) j hj)
  · exact (hother j).mpr (h.gone (hdestructor ▸ hgone) j)

theorem Draining.wakeOne (h : s.Draining) {wakes : Option (Fin n)}
    (hwakes : s.wakeOne wakes = some s') : s'.Draining := by
  rcases wakeOne_cases hwakes with ⟨j, hj, rfl⟩ | ⟨rfl, -⟩
  · exact h.of_worker (by simp [hj]) (by simp) rfl rfl rfl
  · exact h

theorem notified_eq_returned (w : Worker τ) : w.notified = .returned ↔ w = .returned := by
  cases w <;> simp [Worker.notified]

theorem Draining.next (hn : 0 < n) (h : s.Draining) (hstep : Step s l s')
    (hP : s.SubmitsBefore l) : s'.Draining := by
  cases hstep with
  | submit task hmutex =>
    -- no worker has returned yet, and there is one
    refine ⟨h.stopping, h.returned, fun hall => ?_, h.joined, h.gone⟩
    exact absurd hP (h.returned ⟨0, hn⟩ (hall ⟨0, hn⟩))
  | submitTask i x task hmutex hi => exact h.of_worker (by simp [hi]) (by simp) rfl rfl rfl
  | notified k hk wakes s' hwakes =>
    have hpending : { s with notifying := k }.Draining :=
      ⟨h.stopping, h.returned, h.empty, h.joined, h.gone⟩
    exact hpending.wakeOne hwakes
  | notifiedTask i x hi wakes s' hwakes =>
    have hrunning : (s.setWorker i (.running x)).Draining :=
      h.of_worker (by simp [hi]) (by simp) rfl rfl rfl
    exact hrunning.wakeOne hwakes
  | lock i hi hmutex => exact h.of_worker (by simp [hi]) (by simp) rfl rfl rfl
  | found i hi hfound => exact h.of_worker (by simp [hi]) (by simp) rfl rfl rfl
  | nothing i hi hstopping htasks => exact h.of_worker (by simp [hi]) (by simp) rfl rfl rfl
  | block i hi => exact h.of_worker (by simp [hi]) (by simp) rfl rfl rfl
  | wake i hi => exact h.of_worker (by simp [hi]) (by simp) rfl rfl rfl
  -- a worker returns only with the queue empty, after which nothing is submitted
  | returned i hi htasks hstopping =>
    have hother : ∀ j, s.workers j = .returned →
        Function.update s.workers i .returned j = .returned := by
      intro j hj
      rw [Function.update_apply]
      split
      · rfl
      · exact hj
    exact ⟨h.stopping, fun _ _ => h.stopping hstopping, fun _ => htasks,
      fun k hk j hj => hother j (h.joined k hk j hj), fun hgone j => hother j (h.gone hgone j)⟩
  | undefined i hi htasks hstopping => exact h.of_worker (by simp [hi]) (by simp) rfl rfl rfl
  | take i hi x rest htasks => exact h.of_worker (by simp [hi]) (by simp) rfl rfl rfl
  | finish i x hi => exact h.of_worker (by simp [hi]) (by simp) rfl rfl rfl
  | store hcalled =>
    exact ⟨fun _ => by simp, fun _ _ => by simp, h.empty, by simp, by simp⟩
  | notifyAll hstored =>
    refine ⟨fun _ => by simp, fun _ _ => by simp, fun hall => ?_, fun k hk j hj => ?_, by simp⟩
    · exact h.empty fun i => (notified_eq_returned _).mp (hall i)
    · cases hk
      exact absurd hj (Nat.not_lt_zero _)
  | join k hjoining hk hreturned =>
    refine ⟨fun _ => by simp, fun _ _ => by simp, h.empty, fun k' hk' j hj => ?_, by simp⟩
    cases hk'
    rcases Nat.lt_succ_iff_lt_or_eq.mp hj with hlt | heq
    · exact h.joined k hjoining j hlt
    · obtain rfl : j = ⟨k, hk⟩ := Fin.ext heq
      exact hreturned
  | joined k hjoining hk =>
    refine ⟨fun _ => by simp, fun _ _ => by simp, h.empty, by simp, fun _ j => ?_⟩
    exact h.joined k hjoining j (Nat.lt_of_lt_of_le j.isLt hk)

theorem draining_of_reach (hn : 0 < n) (h : (pool n τ).Reach SubmitsBefore s) : s.Draining := by
  have hinit : ({} : ThreadPool n τ).Draining :=
    ⟨by simp, by simp, fun _ => rfl, by simp, by simp⟩
  exact pool_invariant (J := fun _ => True) (fun _ _ => trivial) hinit
    (fun _ _ _ _ hi hstep hP => hi.next hn hstep hP) h

instance (s : ThreadPool n τ) (l : Label n τ) : Decidable (s.SubmitsBefore l) :=
  match l with
  | .submit none _ => inferInstanceAs (Decidable (s.destructor = .notCalled))
  | .submit (some _) _ | .notifyOne _ _ | .lock _ | .test _ | .block _ | .wake _ | .take _
  | .finish _ | .store | .notifyAll | .join => .isTrue trivial

/-- Tasks leave the queue in the order in which they were submitted; one that has left it was
taken by one worker, who executes it or has executed it once; nobody takes from an empty queue;
and when the destructor has returned the queue is empty and every task was executed by one
worker. -/
theorem tasks_of_reach (hn : 0 < n) (h : (pool n τ).Reach SubmitsBefore s) :
    s.submitted = s.taken.map (·.2) ++ s.tasks ∧ s.submitted.Nodup ∧
      (∀ i j x, (i, x) ∈ s.taken → (j, x) ∈ s.taken → i = j) ∧
      (∀ i x, (i, x) ∈ s.taken ↔ (i, x) ∈ s.executed ∨ (s.workers i).task = some x) ∧
      (∀ i x, (s.workers i).task = some x → (i, x) ∉ s.executed) ∧ s.executed.Nodup ∧
      (∀ i, s.workers i ≠ .undefined) ∧
      (s.destructor = .returned →
        s.tasks = [] ∧ ∀ x ∈ s.submitted, ∃! i, (i, x) ∈ s.executed) := by
  have hsound : s.toWorkQueue.Sound := WorkQueue.sound_of_reach (queue_of_reach h)
  have hdraining := draining_of_reach hn h
  refine ⟨hsound.order, hsound.nodup_submitted, fun i j x => hsound.worker_unique, hsound.taken,
    hsound.unfinished, hsound.once, (guarded_of_reach h).defined, fun hgone => ?_⟩
  have hreturned := hdraining.gone hgone
  have hempty := hdraining.empty hreturned
  have hidle : ∀ i, s.toWorkQueue.running i = none := by
    intro i
    show (s.workers i).task = none
    rw [hreturned i]
    rfl
  exact ⟨hempty, hsound.existsUnique hempty hidle⟩

/-- A task submits another one while the destructor waits, and its worker executes both. -/
theorem tasks_of_reach_two :
    let run : List (Label 1 ℕ) :=
      [.submit none 7, .notifyOne none none, .lock 0, .test 0, .take 0, .store, .notifyAll,
        .submit (some 0) 8, .notifyOne (some 0) none, .finish 0, .lock 0, .test 0, .take 0,
        .finish 0, .lock 0, .test 0, .take 0, .join, .join]
    let s := (pool 1 ℕ).exec {} run
    s.submitted = [(0, 7), (1, 8)] ∧ s.tasks = [] ∧
      ∀ x ∈ s.submitted, ∃! i, (i, x) ∈ s.executed := by
  intro run s
  have hrun : (pool 1 ℕ).Valid SubmitsBefore {} run := by decide
  obtain ⟨-, -, -, -, -, -, -, hgone⟩ := tasks_of_reach (by decide) (.exec .init hrun)
  exact ⟨rfl, hgone rfl⟩

end ThreadPool

end CppMiner.Threading
