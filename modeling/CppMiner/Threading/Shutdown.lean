-- SUMMARY: When the shutdown of the thread pool can get stuck: a wake-up between a worker's check and its sleep.
import CppMiner.Threading.ThreadPool

/-!
# Shutdown

The destructor stores `stopping_` and notifies without the mutex. A worker that has seen
nothing to do, and does not sleep yet, misses the notification and sleeps for good. In a run in
which the notification never comes at such a moment no worker sleeps after it
(`not_stuck_of_reach`).
-/

namespace CppMiner.Threading

namespace ThreadPool

variable {n : ℕ} {τ : Type*} {s s' : ThreadPool n τ} {l : Label n τ}

/-- The destructor has notified. -/
def Destructor.notified : Destructor → Bool
  | .notCalled | .stored => false
  | .joining _ | .returned => true

/-- The destructor has notified, and a worker sleeps that nobody is about to notify. -/
structure Stuck (s : ThreadPool n τ) : Prop where
  notified : Destructor.notified s.destructor = true
  asleep : ∃ i, s.workers i = .asleep
  submits : s.notifying = 0
  tasks : ∀ i x, s.workers i ≠ .notifying x

/-- The destructor notifies when no worker is between its check and its sleep. -/
def NotifiesAsleep (s : ThreadPool n τ) : Label n τ → Prop
  | .notifyAll => ∀ i, s.workers i ≠ .blocking
  | _ => True

/-- Asleep, or about to be. -/
def Worker.sleepy : Worker τ → Bool
  | .blocking | .asleep => true
  | _ => false

/-- Once the destructor has begun the flag is set, and once it has notified no worker sleeps. -/
structure Awake (s : ThreadPool n τ) : Prop where
  stopping : s.destructor ≠ .notCalled → s.stopping = true
  awake : Destructor.notified s.destructor = true → ∀ i, Worker.sleepy (s.workers i) = false

theorem Awake.of_worker (h : s.Awake) {i : Fin n} {w : Worker τ}
    (hworkers : s'.workers = Function.update s.workers i w) (hw : Worker.sleepy w = false)
    (hstopping : s'.stopping = s.stopping) (hdestructor : s'.destructor = s.destructor) :
    s'.Awake where
  stopping hcalled := by
    rw [hstopping]
    exact h.stopping (hdestructor ▸ hcalled)
  awake hnotified :=
    forall_workers (p := fun _ v => Worker.sleepy v = false) hworkers hw fun j _ =>
      h.awake (hdestructor ▸ hnotified) j

theorem Awake.wakeOne (h : s.Awake) {wakes : Option (Fin n)}
    (hwakes : s.wakeOne wakes = some s') : s'.Awake := by
  rcases wakeOne_cases hwakes with ⟨j, -, rfl⟩ | ⟨rfl, -⟩
  · exact h.of_worker rfl rfl rfl rfl
  · exact h

theorem Awake.next (h : s.Awake) (hstep : Step s l s') (hP : s.NotifiesAsleep l) : s'.Awake := by
  cases hstep with
  | submit task hmutex => exact ⟨h.stopping, h.awake⟩
  | submitTask i x task hmutex hi => exact h.of_worker rfl rfl rfl rfl
  | notified k hk wakes s' hwakes =>
    have hpending : { s with notifying := k }.Awake := ⟨h.stopping, h.awake⟩
    exact hpending.wakeOne hwakes
  | notifiedTask i x hi wakes s' hwakes =>
    have hrunning : (s.setWorker i (.running x)).Awake := h.of_worker rfl rfl rfl rfl
    exact hrunning.wakeOne hwakes
  | lock i hi hmutex => exact h.of_worker rfl rfl rfl rfl
  | found i hi hfound => exact h.of_worker rfl rfl rfl rfl
  | nothing i hi hstopping htasks =>
    -- the flag is not set, so the destructor has not begun
    have hcalled : s.destructor = .notCalled := by
      by_contra hcalled
      rw [h.stopping hcalled] at hstopping
      cases hstopping
    refine ⟨h.stopping, fun hnotified => ?_⟩
    rw [show (s.setWorker i .blocking).destructor = .notCalled from hcalled] at hnotified
    cases hnotified
  | block i hi =>
    refine ⟨h.stopping, fun hnotified => ?_⟩
    have hsleepy := h.awake hnotified i
    rw [hi] at hsleepy
    cases hsleepy
  | wake i hi => exact h.of_worker rfl rfl rfl rfl
  | returned i hi htasks hstopping => exact h.of_worker rfl rfl rfl rfl
  | undefined i hi htasks hstopping => exact h.of_worker rfl rfl rfl rfl
  | take i hi x rest htasks => exact h.of_worker rfl rfl rfl rfl
  | finish i x hi => exact h.of_worker rfl rfl rfl rfl
  | store hcalled => exact ⟨fun _ => rfl, by rintro ⟨⟩⟩
  -- who sleeps is woken, and the condition says that nobody is about to sleep
  | notifyAll hstored =>
    refine ⟨fun _ => h.stopping (by simp [hstored]), fun _ i => ?_⟩
    have hblocking := hP i
    cases hw : s.workers i with
    | blocking => exact absurd hw hblocking
    | _ => simp [Worker.notified, Worker.sleepy, hw]
  | join k hjoining hk hreturned =>
    have hawake := h.awake (by rw [hjoining]; rfl)
    exact ⟨fun _ => h.stopping (by simp [hjoining]), fun _ => hawake⟩
  | joined k hjoining hk =>
    have hawake := h.awake (by rw [hjoining]; rfl)
    exact ⟨fun _ => h.stopping (by simp [hjoining]), fun _ => hawake⟩

theorem awake_of_reach (h : (pool n τ).Reach NotifiesAsleep s) : s.Awake := by
  have hinit : ({} : ThreadPool n τ).Awake := ⟨fun hcalled => absurd rfl hcalled, by rintro ⟨⟩⟩
  exact pool_invariant (J := fun _ => True) (fun _ _ => trivial) hinit
    (fun _ _ _ _ hi hstep hP => hi.next hstep hP) h

/-- The shutdown does not get stuck in a run in which the destructor never notifies while a
worker is between its check and its sleep. -/
theorem not_stuck_of_reach (h : (pool n τ).Reach NotifiesAsleep s) : ¬ s.Stuck := by
  rintro ⟨hnotified, ⟨i, hi⟩, -, -⟩
  have hsleepy := (awake_of_reach h).awake hnotified i
  rw [hi] at hsleepy
  cases hsleepy

/-- A worker finds nothing to do, sleeps, and is woken by the destructor. -/
theorem not_stuck_of_reach_one :
    let run : List (Label 1 ℕ) := [.lock 0, .test 0, .block 0, .store, .notifyAll]
    Destructor.notified ((pool 1 ℕ).exec {} run).destructor = true ∧
      ¬ ((pool 1 ℕ).exec {} run).Stuck := by
  intro run
  have hreach : (pool 1 ℕ).Reach NotifiesAsleep ((pool 1 ℕ).exec {} run) := by
    refine .exec .init ⟨⟨by decide, trivial⟩, ⟨by decide, trivial⟩, ⟨by decide, trivial⟩,
      ⟨by decide, trivial⟩, ⟨by decide, fun i hi => ?_⟩, trivial⟩
    obtain rfl : i = 0 := Subsingleton.elim _ _
    cases hi
  exact ⟨rfl, not_stuck_of_reach hreach⟩

/-- A worker that is about to sleep when the destructor notifies sleeps afterwards. -/
theorem stuck_of_blocking {i : Fin n} (hstored : s.destructor = .stored)
    (hi : s.workers i = .blocking) (hsubmits : s.notifying = 0)
    (htasks : ∀ i x, s.workers i ≠ .notifying x) :
    (pool n τ).Valid (fun _ _ => True) s [.notifyAll, .block i] ∧
      ((pool n τ).exec s [.notifyAll, .block i]).Stuck := by
  let s₁ : ThreadPool n τ :=
    { s with workers := fun j => (s.workers j).notified, destructor := .joining 0 }
  have hnotify : s.step .notifyAll = some s₁ := by
    simp only [step, notifyAll, hstored, s₁]
  have hblocking : s₁.workers i = .blocking := by
    simp only [s₁, hi, Worker.notified]
  have hblock : s₁.step (.block i) = some { s₁.setWorker i .asleep with mutex := none } := by
    simp only [step, block, hblocking]
  obtain ⟨henabled, hnext⟩ := TransitionSystem.enabled_of_step {} hnotify
  obtain ⟨henabled', hnext'⟩ := TransitionSystem.enabled_of_step {} hblock
  have hexec : (pool n τ).exec s [.notifyAll, .block i] =
      { s₁.setWorker i .asleep with mutex := none } := by
    rw [← hnext', ← hnext]
    rfl
  have hstuck : Stuck { s₁.setWorker i .asleep with mutex := none } := by
    refine ⟨rfl, ⟨i, Function.update_self i _ _⟩, hsubmits, fun j x => ?_⟩
    refine forall_workers (p := fun _ v => v ≠ .notifying x) (workers_setWorker s₁ i .asleep)
      (by simp) (fun k _ hk => ?_) j
    cases hw : s.workers k <;> simp_all [s₁, Worker.notified]
  rw [← hnext] at henabled'
  rw [hexec]
  exact ⟨⟨⟨henabled, trivial⟩, ⟨henabled', trivial⟩, trivial⟩, hstuck⟩

/-- The wake-up is lost between the check and the sleep. -/
theorem wakeup_lost :
    ¬ ∀ (n : ℕ) (τ : Type) (s : ThreadPool n τ), (pool n τ).Reachable s → ¬ s.Stuck := by
  intro h
  let run : List (Label 1 ℕ) := [.lock 0, .test 0, .store, .notifyAll, .block 0]
  have hreach : (pool 1 ℕ).Reachable ((pool 1 ℕ).exec {} run) := by
    exact .exec .init (by decide)
  refine h 1 ℕ _ hreach ⟨rfl, ⟨0, rfl⟩, rfl, fun i x hi => ?_⟩
  obtain rfl : i = 0 := Subsingleton.elim _ _
  cases hi

end ThreadPool

end CppMiner.Threading
