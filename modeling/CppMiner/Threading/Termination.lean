-- SUMMARY: Once the destructor of the thread pool has notified, its workers come to their end and it returns.
import Mathlib.Algebra.BigOperators.Fin
import Mathlib.Algebra.Order.BigOperators.Group.Finset
import CppMiner.Lib.Potential
import CppMiner.Threading.Shutdown
import CppMiner.Threading.Tasks

/-!
# Termination of the pool

When no worker missed the notification, each of them runs through its loop until it finds
the queue empty. What they can still do is bounded by the tasks that are queued, and by
those that are submitted meanwhile (`destructor_returns`).
-/

namespace CppMiner.Threading

variable {n : ℕ} {τ : Type*}

/-! ## What is left to do -/

/-- How many steps a worker can take before it returns or takes the next task, when it is
not to sleep again. -/
def Worker.stepsLeft : Worker τ → ℕ
  | .blocking | .asleep | .undefined | .returned => 0
  | .waited => 1
  | .testing => 2
  | .locking => 3
  | .running _ => 4
  | .notifying _ => 5

namespace ThreadPool

variable {s s' : ThreadPool n τ} {l : Label n τ}

/-- The steps of the workers and of the destructor that are counted. Others submit, and
notify after it; the submit that a worker's own task makes is not counted either, but
with the submits that the bound allows for. -/
def Label.own : Label n τ → Bool
  | .submit _ _ | .notifyOne none _ => false
  | _ => true

def Label.isSubmit : Label n τ → Bool
  | .submit _ _ => true
  | _ => false

/-- How many joins are left, and the return. -/
def joinsLeft (s : ThreadPool n τ) : ℕ :=
  match s.destructor with
  | .joining k => n - k + 1
  | _ => 0

/-- How many steps the workers and the destructor can take without a further submit. A task
in the queue sends a worker once more through its loop. -/
def stepsLeft (s : ThreadPool n τ) : ℕ :=
  ∑ i, (s.workers i).stepsLeft + 4 * s.tasks.length + s.joinsLeft

/-- What one worker has left counts among what all have. -/
theorem sum_stepsLeft_update {i : Fin n} {w : Worker τ}
    (hworkers : s'.workers = Function.update s.workers i w) :
    ∑ j, (s'.workers j).stepsLeft + (s.workers i).stepsLeft =
      ∑ j, (s.workers j).stepsLeft + w.stepsLeft := by
  have hupdate : (fun j => (s'.workers j).stepsLeft) =
      Function.update (fun j => (s.workers j).stepsLeft) i w.stepsLeft := by
    rw [hworkers]
    exact Function.comp_update Worker.stepsLeft s.workers i w
  have hnew := Finset.sum_update_of_mem (Finset.mem_univ i)
    (fun j => (s.workers j).stepsLeft) w.stepsLeft
  have hold := Finset.sum_eq_add_sum_sdiff_singleton_of_mem (Finset.mem_univ i)
    fun j => (s.workers j).stepsLeft
  rw [hupdate, hnew]
  omega

/-- The worker at work, and the queue, pay for a step. -/
theorem stepsLeft_of_worker {i : Fin n} {w : Worker τ} {cost gain : ℕ}
    (hworkers : s'.workers = Function.update s.workers i w)
    (hdestructor : s'.destructor = s.destructor)
    (hcost : cost + w.stepsLeft + 4 * s'.tasks.length ≤
      (s.workers i).stepsLeft + 4 * s.tasks.length + gain) :
    cost + s'.stepsLeft ≤ s.stepsLeft + gain := by
  have hsum := sum_stepsLeft_update hworkers
  simp only [stepsLeft, joinsLeft, hdestructor]
  omega

/-! ## After the notification -/

/-- The destructor has notified and no worker missed it. -/
def Ending (s : ThreadPool n τ) : Prop := s.Awake ∧ Destructor.notified s.destructor = true

theorem Ending.not_sleepy (h : s.Ending) (i : Fin n) : Worker.sleepy (s.workers i) = false :=
  h.1.awake h.2 i

theorem Ending.stopping (h : s.Ending) : s.stopping = true := by
  refine h.1.stopping fun hcalled => ?_
  have hnotified := h.2
  rw [hcalled] at hnotified
  cases hnotified

/-- Nobody is there to be woken. -/
theorem Ending.wakeOne (h : s.Ending) {wakes : Option (Fin n)}
    (hwakes : s.wakeOne wakes = some s') : s' = s := by
  rcases wakeOne_cases hwakes with ⟨j, hj, -⟩ | ⟨rfl, -⟩
  · have hsleepy := h.not_sleepy j
    rw [hj] at hsleepy
    cases hsleepy
  · rfl

theorem Ending.wakeOne_none (h : s.Ending) : s.wakeOne none = some s := by
  refine if_pos fun j hj => ?_
  have hsleepy := h.not_sleepy j
  split at hj
  · rename_i hw
    rw [hw] at hsleepy
    cases hsleepy
  · cases hj

theorem Ending.of_worker (h : s.Ending) {i : Fin n} {w : Worker τ}
    (hworkers : s'.workers = Function.update s.workers i w) (hw : Worker.sleepy w = false)
    (hstopping : s'.stopping = s.stopping) (hdestructor : s'.destructor = s.destructor) :
    s'.Ending :=
  ⟨h.1.of_worker hworkers hw hstopping hdestructor, by rw [hdestructor]; exact h.2⟩

/-- After the notification no step is the notification, so that the condition on it holds. -/
theorem Ending.next (h : s.Ending) (hstep : Step s l s') : s'.Ending := by
  have hP : s.NotifiesAsleep l := by
    cases hstep with
    | notifyAll hstored =>
      have hnotified := h.2
      rw [hstored] at hnotified
      cases hnotified
    | _ => trivial
  refine ⟨h.1.next hstep hP, ?_⟩
  have hnotified := h.2
  cases hstep with
  | store hcalled =>
    rw [hcalled] at hnotified
    cases hnotified
  | notified k hk wakes s' hwakes =>
    rcases wakeOne_cases hwakes with ⟨j, -, rfl⟩ | ⟨rfl, -⟩ <;> exact hnotified
  | notifiedTask i x hi wakes s' hwakes =>
    rcases wakeOne_cases hwakes with ⟨j, -, rfl⟩ | ⟨rfl, -⟩ <;> exact hnotified
  | notifyAll hstored | join k hjoining hk hreturned | joined k hjoining hk => rfl
  | _ => exact hnotified

/-- A step of the workers or of the destructor is paid for. -/
theorem Ending.stepsLeft_next (h : s.Ending) (hstep : Step s l s') :
    l.own.toNat + s'.stepsLeft ≤ s.stepsLeft + 5 * l.isSubmit.toNat := by
  cases hstep with
  -- a task in the queue costs four steps, and the bound allows five for each submit
  | submit task hmutex =>
    simp [stepsLeft, joinsLeft, push, Label.own, Label.isSubmit]
    omega
  | submitTask i x task hmutex hi =>
    refine stepsLeft_of_worker rfl rfl ?_
    simp [hi, Worker.stepsLeft, setWorker, push, Label.own, Label.isSubmit]
    omega
  | notified k hk wakes s' hwakes =>
    have hending : { s with notifying := k }.Ending := ⟨⟨h.1.stopping, h.1.awake⟩, h.2⟩
    rw [hending.wakeOne hwakes]
    simp [stepsLeft, joinsLeft, Label.own]
  | notifiedTask i x hi wakes s' hwakes =>
    have hending : (s.setWorker i (.running x)).Ending := h.of_worker rfl rfl rfl rfl
    rw [hending.wakeOne hwakes]
    refine stepsLeft_of_worker rfl rfl ?_
    simp [hi, Worker.stepsLeft, setWorker, Label.own, Label.isSubmit]
  | lock i hi hmutex =>
    refine stepsLeft_of_worker (w := .testing) rfl rfl ?_
    simp [hi, Worker.stepsLeft, setWorker, Label.own, Label.isSubmit]
  | found i hi hfound =>
    refine stepsLeft_of_worker rfl rfl ?_
    simp [hi, Worker.stepsLeft, setWorker, Label.own, Label.isSubmit]
  | nothing i hi hstopping htasks =>
    rw [h.stopping] at hstopping
    cases hstopping
  | block i hi | wake i hi =>
    have hsleepy := h.not_sleepy i
    rw [hi] at hsleepy
    cases hsleepy
  | returned i hi htasks hstopping =>
    refine stepsLeft_of_worker (w := .returned) rfl rfl ?_
    simp [hi, Worker.stepsLeft, setWorker, Label.own, Label.isSubmit]
  | undefined i hi htasks hstopping =>
    refine stepsLeft_of_worker (w := .undefined) rfl rfl ?_
    simp [hi, Worker.stepsLeft, setWorker, Label.own, Label.isSubmit]
  | take i hi x rest htasks =>
    refine stepsLeft_of_worker (w := .running x) rfl rfl ?_
    simp [hi, htasks, Worker.stepsLeft, Label.own, Label.isSubmit]
    omega
  | finish i x hi =>
    refine stepsLeft_of_worker (w := .locking) rfl rfl ?_
    simp [hi, Worker.stepsLeft, setWorker, Label.own, Label.isSubmit]
  | store hcalled =>
    have hnotified := h.2
    rw [hcalled] at hnotified
    cases hnotified
  | notifyAll hstored =>
    have hnotified := h.2
    rw [hstored] at hnotified
    cases hnotified
  | join k hjoining hk hreturned =>
    simp [stepsLeft, joinsLeft, hjoining, Label.own, Label.isSubmit]
    omega
  | joined k hjoining hk =>
    simp [stepsLeft, joinsLeft, hjoining, Label.own, Label.isSubmit]
    omega

/-! ## Nothing is stuck -/

/-- A worker that has not returned can go on, or the one that holds the mutex can. -/
theorem Ending.exists_own (h : s.Ending) (hg : s.Guarded) {i : Fin n}
    (hi : s.workers i ≠ .returned) : ∃ l, l.own = true ∧ (pool n τ).Enabled s l := by
  have hholder : ∀ j, Worker.holds (s.workers j) = true →
      ∃ l, l.own = true ∧ (pool n τ).Enabled s l := by
    intro j hj
    have hsleepy := h.not_sleepy j
    cases hw : s.workers j with
    | testing => exact ⟨.test j, rfl, by simp [pool, TransitionSystem.ofStep, step, test, hw]⟩
    | waited =>
      refine ⟨.take j, rfl, ?_⟩
      simp only [pool, TransitionSystem.ofStep, step, take, hw]
      split <;> rfl
    | blocking =>
      rw [hw] at hsleepy
      cases hsleepy
    | locking | asleep | running | notifying | undefined | returned =>
      rw [hw] at hj
      cases hj
  have hsleepy := h.not_sleepy i
  cases hw : s.workers i with
  | locking =>
    cases hmutex : s.mutex with
    | none => exact ⟨.lock i, rfl, by simp [pool, TransitionSystem.ofStep, step, lock, hw, hmutex]⟩
    | some j => exact hholder j ((hg.holds j).mpr hmutex)
  | testing | waited => exact hholder i (by rw [hw]; rfl)
  | running x => exact ⟨.finish i, rfl, by simp [pool, TransitionSystem.ofStep, step, finish, hw]⟩
  | notifying x =>
    -- nobody sleeps, so that nobody is woken
    refine ⟨.notifyOne (some i) none, rfl, ?_⟩
    have hrunning : (s.setWorker i (.running x)).Ending := h.of_worker rfl rfl rfl rfl
    simp [pool, TransitionSystem.ofStep, step, notifyOne, hw, hrunning.wakeOne_none]
  | blocking | asleep =>
    rw [hw] at hsleepy
    cases hsleepy
  | undefined => exact absurd hw (hg.defined i)
  | returned => exact absurd hw hi

theorem Ending.exists_step (h : s.Ending) (hg : s.Guarded) (hreturned : s.destructor ≠ .returned) :
    ∃ l, l.own = true ∧ (pool n τ).Enabled s l := by
  by_cases hall : ∀ i, s.workers i = .returned
  · refine ⟨.join, rfl, ?_⟩
    have hnotified := h.2
    cases hd : s.destructor with
    | joining k =>
      simp only [pool, TransitionSystem.ofStep, step, join, hd, hall]
      split <;> rfl
    | returned => exact absurd hd hreturned
    | notCalled | stored =>
      rw [hd] at hnotified
      cases hnotified
  · obtain ⟨i, hi⟩ := not_forall.mp hall
    exact h.exists_own hg hi

/-! ## The bound -/

theorem stepsLeft_le (s : ThreadPool n τ) : s.stepsLeft ≤ 6 * n + 4 * s.tasks.length + 1 := by
  have hworkers : ∑ i, (s.workers i).stepsLeft ≤ 5 * n := by
    have hsum := Finset.sum_le_card_nsmul Finset.univ (fun i => (s.workers i).stepsLeft) 5
      fun i _ => by cases s.workers i <;> simp [Worker.stepsLeft]
    rwa [Finset.card_univ, Fintype.card_fin, smul_eq_mul, Nat.mul_comm] at hsum
  have hjoins : s.joinsLeft ≤ n + 1 := by
    unfold joinsLeft
    split <;> omega
  unfold stepsLeft
  omega

/-- How many tasks are submitted in a run. -/
def submits (run : List (Label n τ)) : ℕ := run.countP Label.isSubmit

theorem total_submits (s : ThreadPool n τ) (run : List (Label n τ)) :
    (pool n τ).total (fun _ l => 5 * l.isSubmit.toNat) s run = 5 * submits run := by
  induction run generalizing s with
  | nil => rfl
  | cons l run ih =>
    rw [TransitionSystem.total, ih, submits, submits, List.countP_cons]
    cases l.isSubmit
    · simp
    · simp only [Bool.toNat_true, if_true]
      omega

end ThreadPool

open ThreadPool

variable {s : ThreadPool n τ}

/-- Once the destructor has notified, in a run in which no worker missed it, the workers and
the destructor take a bounded number of steps besides the submits (those of a worker's own
task are not counted), and while it has not returned one of them can take a step. -/
theorem destructor_returns (h : (pool n τ).Reach NotifiesAsleep s)
    (hnotified : Destructor.notified s.destructor = true) {run : List (Label n τ)}
    (hrun : (pool n τ).IsRun s run) :
    (pool n τ).count (fun _ l => l.own) s run ≤
        6 * n + 4 * s.tasks.length + 1 + 5 * submits run ∧
      (((pool n τ).exec s run).destructor ≠ .returned →
        ∃ l, l.own = true ∧ (pool n τ).Enabled ((pool n τ).exec s run) l) := by
  have hpotential : (pool n τ).Potential (fun s _ => s.Ending) (fun _ l => l.own)
      (fun _ l => 5 * l.isSubmit.toNat) stepsLeft :=
    fun s l _ he hending => hending.stepsLeft_next (step_cases (TransitionSystem.step_eq_some he))
  have hreach : (pool n τ).Reachable s := h.mono fun _ _ _ => trivial
  obtain ⟨hvalid, hending⟩ := TransitionSystem.Valid.of_kept (I := Ending)
    (fun s l _ he hending => hending.next (step_cases (TransitionSystem.step_eq_some he)))
    hreach ⟨awake_of_reach h, hnotified⟩ hrun
  have hcount := hpotential.count_le hreach hvalid
  rw [total_submits] at hcount
  have hbound := s.stepsLeft_le
  refine ⟨by omega, fun hreturned => ?_⟩
  exact hending.exists_step (guarded_of_reach (hreach.exec hrun)) hreturned

/-- A pool of two workers that is destroyed while a task is queued. -/
theorem destructor_returns_two :
    let start : List (Label 2 ℕ) :=
      [.lock 0, .test 0, .block 0, .submit none 7, .notifyOne none (some 0), .store, .notifyAll]
    let run : List (Label 2 ℕ) :=
      [.lock 1, .test 1, .take 1, .lock 0, .test 0, .take 0, .join, .finish 1, .lock 1, .test 1,
        .take 1, .join, .join]
    ((pool 2 ℕ).exec ((pool 2 ℕ).exec {} start) run).destructor = .returned ∧
      (pool 2 ℕ).count (fun _ l => l.own) ((pool 2 ℕ).exec {} start) run ≤ 17 := by
  intro start run
  have hreach : (pool 2 ℕ).Reach NotifiesAsleep ((pool 2 ℕ).exec {} start) := by
    have hvalid : (pool 2 ℕ).Valid (fun _ _ => True) {} start := by decide +kernel
    refine .exec .init ?_
    obtain ⟨h₁, h₂, h₃, h₄, h₅, h₆, h₇, -⟩ := hvalid
    refine ⟨⟨h₁.1, trivial⟩, ⟨h₂.1, trivial⟩, ⟨h₃.1, trivial⟩, ⟨h₄.1, trivial⟩, ⟨h₅.1, trivial⟩,
      ⟨h₆.1, trivial⟩, ⟨h₇.1, fun i hi => ?_⟩, trivial⟩
    obtain rfl | rfl : i = 0 ∨ i = 1 := by omega
    · cases hi
    · cases hi
  have hrun : (pool 2 ℕ).IsRun ((pool 2 ℕ).exec {} start) run := by decide +kernel
  exact ⟨by decide +kernel, (destructor_returns hreach rfl hrun).1⟩

end CppMiner.Threading
