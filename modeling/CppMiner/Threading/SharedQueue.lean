-- SUMMARY: The job queue under its lock, one step for each member of a job: it is linearizable.
import CppMiner.Lib.Monitor
import CppMiner.Miner.Types
import CppMiner.Threading.JobQueue

/-!
# The job queue, shared

The queue guards the current job with a shared mutex, and counts versions in an atomic that
is read without it. A job has many members, and neither moving it into the slot nor copying
it out is one step: each member is one, and other threads move in between. The version is
bumped last, still under the lock.

For those who call it the queue is nevertheless the one whose operations are one step each
(`history_is_atomic`), so that no copy has members of two jobs (`copy_is_whole`).
-/

namespace CppMiner.Threading

open Linearizable (Object Event)
open Monitor (Method)

variable {J : Type*}

/-- A record that is assigned and copied member by member. -/
structure Members (J : Type*) where
  /-- A slot whose members are yet to be filled. -/
  blank : J
  /-- The assignment of each member, from a source to a target. -/
  assign : List (J → J → J)
  assign_all : ∀ source target, assign.foldl (fun target m => m source target) target = source

/-! ## The operations -/

inductive Call (J : Type*) where
  | publish (job : J)
  | current
  | version

inductive Reply (J : Type*) where
  | published
  | job (copy : Option J)
  | version (version : UInt64)
  deriving DecidableEq

/-- The queue with one step for each operation. -/
def queue (J : Type*) : Object (Call J) (JobQueue J) (Reply J) where
  init := {}
  effect
    | .publish job => fun q => q.publish job
    | .current | .version => id
  answer
    | .publish _ => fun _ => .published
    | .current => fun q => .job q.current
    | .version => fun q => .version q.version

namespace Members

variable (M : Members J)

/-- `current_ = std::move(job)`. -/
def move (job : J) : List (JobQueue J → JobQueue J) :=
  (fun q => { q with current := some (q.current.getD M.blank) }) ::
    M.assign.map fun m q => { q with current := q.current.map (m job) }

/-- What reading one more member makes of a copy. -/
def readMember (m : J → J → J) (q : JobQueue J) : Reply J → Reply J
  | .job copy => .job (q.current.bind fun job => copy.map (m job))
  | reply => reply

/-- The copy of `current_` that is returned. -/
def copy : List (JobQueue J → Reply J → Reply J) :=
  (fun q _ => .job (q.current.map fun _ => M.blank)) :: M.assign.map readMember

def method : Call J → Method (JobQueue J) (Reply J)
  | .publish job => .unique (M.move job) (fun q => { q with version := q.version + 1 }) .published
  | .current => .shared (.job none) M.copy
  | .version => .peek fun q => .version q.version

/-! ## What the accesses make together -/

theorem assign_current (ms : List (J → J → J)) (job target : J) (version : UInt64) :
    Monitor.writeAll (ms.map fun m (q : JobQueue J) => { q with current := q.current.map (m job) })
        ⟨some target, version⟩ =
      ⟨some (ms.foldl (fun target m => m job target) target), version⟩ := by
  induction ms generalizing target with
  | nil => rfl
  | cons m ms ih => exact ih (m job target)

theorem writeAll_move (job : J) (q : JobQueue J) :
    Monitor.writeAll (M.move job) q = { q with current := some job } := by
  have h := assign_current M.assign job (q.current.getD M.blank) q.version
  rw [M.assign_all] at h
  exact h

theorem readAll_members (ms : List (J → J → J)) (q : JobQueue J) {job : J}
    (hq : q.current = some job) (target : J) :
    Monitor.readAll q (ms.map readMember) (.job (some target)) =
      .job (some (ms.foldl (fun target m => m job target) target)) := by
  induction ms generalizing target with
  | nil => rfl
  | cons m ms ih =>
    rw [List.map_cons, Monitor.readAll_cons, readMember, hq]
    exact ih (m job target)

theorem readAll_none (ms : List (J → J → J)) {q : JobQueue J} (hq : q.current = none) :
    Monitor.readAll q (ms.map readMember) (.job none) = .job none := by
  induction ms with
  | nil => rfl
  | cons m ms ih =>
    rw [List.map_cons, Monitor.readAll_cons, readMember, hq]
    exact ih

theorem readAll_copy (q : JobQueue J) (start : Reply J) :
    Monitor.readAll q M.copy start = .job q.current := by
  rw [copy, Monitor.readAll_cons]
  cases hq : q.current with
  | none => exact readAll_none M.assign hq
  | some job =>
    refine (readAll_members M.assign q hq M.blank).trans ?_
    rw [M.assign_all]

/-- The methods are those of the queue. -/
theorem object_method : Monitor.object {} M.method = queue J := by
  simp only [Monitor.object, queue, Object.mk.injEq, true_and]
  constructor
  · funext call q
    cases call with
    | publish job =>
      simp only [method, Method.effect, writeAll_move]
      rfl
    | current | version => rfl
  · funext call q
    cases call with
    | publish job | version => rfl
    | current => exact M.readAll_copy q (.job none)

/-- The version is not touched before it is bumped. -/
theorem hidden_method : Monitor.Hidden M.method := by
  intro call before commit reply hcall w hw call' read hread q
  cases call with
  | current | version => cases hcall
  | publish job =>
    cases hcall
    cases call' with
    | publish _ | current => cases hread
    | version =>
      cases hread
      rcases List.mem_cons.mp hw with rfl | hw
      · rfl
      · obtain ⟨m, -, rfl⟩ := List.mem_map.mp hw
        rfl

end Members

/-! ## What its callers see -/

variable {ι : Type*} [DecidableEq ι] [DecidableEq J]

/-- The queue with one step for each access, called by the threads `ι`. -/
def sharedQueue (ι : Type*) [DecidableEq ι] (M : Members J) :
    TransitionSystem (Monitor.State ι (Call J) (JobQueue J) (Reply J))
      (Monitor.Label ι (Call J) (Reply J)) :=
  Monitor.monitor ι {} M.method

instance (M : Members J) (s : Monitor.State ι (Call J) (JobQueue J) (Reply J))
    (l : Monitor.Label ι (Call J) (Reply J)) : Decidable ((sharedQueue ι M).Enabled s l) :=
  inferInstanceAs (Decidable ((Monitor.monitor ι {} M.method).Enabled s l))

/-- A run is answered by one of the queue with one step for each operation. -/
theorem sharedQueue_run (M : Members J)
    {run : List (Monitor.Label ι (Call J) (Reply J))}
    (h : (sharedQueue ι M).IsRun { value := {} } run) :
    ∃ run', ((queue J).atomic ι).IsRun {} run' ∧
      run'.filterMap Linearizable.Label.shown = run.filterMap Monitor.Label.shown ∧
      Monitor.Simulates {} M.method ((sharedQueue ι M).exec { value := {} } run)
        (((queue J).atomic ι).exec {} run') := by
  obtain ⟨run', hrun', hshown, hsim⟩ := Monitor.exists_run M.hidden_method h
  rw [M.object_method] at hrun' hsim
  exact ⟨run', hrun', hshown, hsim⟩

/-- The calls and the returns of a run of the shared queue are those of a run of the queue
with one step for each operation, and while nobody publishes the two hold the same. -/
theorem history_is_atomic (M : Members J) {run : List (Monitor.Label ι (Call J) (Reply J))}
    (h : (sharedQueue ι M).IsRun { value := {} } run) :
    ∃ run', ((queue J).atomic ι).IsRun {} run' ∧
      run'.filterMap Linearizable.Label.shown = run.filterMap Monitor.Label.shown ∧
      (((sharedQueue ι M).exec { value := {} } run).owner = none →
        ((sharedQueue ι M).exec { value := {} } run).value =
          (queue J).value (((queue J).atomic ι).exec {} run').performed) := by
  obtain ⟨run', hrun', hshown, hsim⟩ := sharedQueue_run M h
  refine ⟨run', hrun', hshown, fun howner => ?_⟩
  rw [hsim.value howner, M.object_method]

/-! ## Copies -/

omit [DecidableEq ι] [DecidableEq J] in
/-- The job in the slot was published. -/
theorem publish_of_current {performed : List (ι × Call J)} {job : J}
    (h : ((queue J).value performed).current = some job) :
    ∃ i, (i, .publish job) ∈ performed := by
  induction performed using List.reverseRecOn with
  | nil => cases h
  | append_singleton performed p ih =>
    rw [Object.value_append_singleton] at h
    obtain ⟨i, call⟩ := p
    cases call with
    | publish job' =>
      cases h
      exact ⟨i, by simp⟩
    | current | version =>
      obtain ⟨j, hj⟩ := ih h
      exact ⟨j, List.mem_append_left _ hj⟩

/-- A thread that has a copy has that of a job that was published. -/
def Copied (s : Linearizable.State ι (Call J) (Reply J)) : Prop :=
  ∀ i job, s.thread i = .answered (.job (some job)) → ∃ j, (j, .publish job) ∈ s.performed

omit [DecidableEq J] in
theorem Copied.next {s s' : Linearizable.State ι (Call J) (Reply J)}
    {l : Linearizable.Label ι (Call J) (Reply J)} (h : Copied s) (hstep : (queue J).Step s l s') :
    Copied s' := by
  cases hstep with
  | call i call hi | returned i reply hi =>
    refine (Function.forall_update_iff s.thread fun _ w => ∀ job, w = .answered (.job (some job)) →
      ∃ j, (j, .publish job) ∈ s.performed).mpr ⟨?_, fun j _ => h j⟩
    rintro job ⟨⟩
  | perform i call hi =>
    refine (Function.forall_update_iff s.thread fun _ w => ∀ job, w = .answered (.job (some job)) →
      ∃ j, (j, .publish job) ∈ s.performed ++ [(i, call)]).mpr ⟨fun job hreply => ?_, ?_⟩
    · rw [Linearizable.Thread.answered.injEq] at hreply
      cases call with
      | publish _ | version => cases hreply
      | current =>
        obtain ⟨j, hj⟩ := publish_of_current (Reply.job.inj hreply)
        exact ⟨j, List.mem_append_left _ hj⟩
    · intro i' _ job hi'
      obtain ⟨j, hj⟩ := h i' job hi'
      exact ⟨j, List.mem_append_left _ hj⟩

omit [DecidableEq J] in
theorem copied_of_reach {s : Linearizable.State ι (Call J) (Reply J)}
    (h : ((queue J).atomic ι).Reachable s) : Copied s := by
  have hinit : Copied (J := J) (ι := ι) {} := fun _ _ hi => by cases hi
  refine h.invariant hinit fun s l ih he _ => ?_
  obtain ⟨s', hstep⟩ := he
  rw [hstep.enabled.2]
  exact ih.next hstep

/-- A copy that is returned is that of one job, which some thread had called to publish. -/
theorem copy_is_whole (M : Members J) {run : List (Monitor.Label ι (Call J) (Reply J))} {i : ι}
    {job : J}
    (h : (sharedQueue ι M).IsRun { value := {} } (run ++ [.returned i (.job (some job))])) :
    ∃ j, .call j (.publish job) ∈ run := by
  obtain ⟨run', hrun', hshown, -⟩ := sharedQueue_run M h
  rw [List.filterMap_append] at hshown
  obtain ⟨run₁, hrun₁, hshown₁, hanswered⟩ := Object.answered_of_shown hrun' hshown
  have hreach : ((queue J).atomic ι).Reachable (((queue J).atomic ι).exec {} run₁) :=
    .exec .init hrun₁
  obtain ⟨j, hj⟩ := copied_of_reach hreach i job hanswered
  have hcall := Object.call_of_performed hrun₁ hj
  rw [hshown₁] at hcall
  exact ⟨j, Monitor.mem_of_shown hcall⟩

end CppMiner.Threading

/-! ## The members of a job -/

namespace CppMiner.Miner

deriving instance DecidableEq for MiningJob

/-- The members of a job, in the order of their declaration. -/
def MiningJob.members : Threading.Members MiningJob where
  blank := {}
  assign :=
    [fun source target => { target with jobId := source.jobId },
     fun source target => { target with prevHash := source.prevHash },
     fun source target => { target with coinbase1 := source.coinbase1 },
     fun source target => { target with coinbase2 := source.coinbase2 },
     fun source target => { target with merkleBranches := source.merkleBranches },
     fun source target => { target with version := source.version },
     fun source target => { target with bits := source.bits },
     fun source target => { target with time := source.time },
     fun source target => { target with cleanJobs := source.cleanJobs },
     fun source target => { target with extranonce1 := source.extranonce1 },
     fun source target => { target with extranonce2Size := source.extranonce2Size },
     fun source target => { target with difficulty := source.difficulty },
     fun source target => { target with seedHash := source.seedHash },
     fun source target => { target with blob := source.blob }]
  assign_all _ _ := rfl

end CppMiner.Miner

namespace CppMiner.Threading

open Miner (MiningJob)

/-- Thread 0 publishes a job. Thread 1 reads the version just before it is bumped, and is
about to return a copy of the job. -/
def publishRun (job : MiningJob) :
    List (Monitor.Label ℕ (Call MiningJob) (Reply MiningJob)) :=
  [.call 0 (.publish job), .lock 0] ++ List.replicate 15 (.access 0) ++
    [.call 1 .version, .access 1, .returned 1 (.version 0), .call 1 .current] ++
    [.access 0, .unlock 0, .lock 1] ++ List.replicate 15 (.access 1) ++ [.unlock 1]

def publishedJob : MiningJob := { jobId := bytes "7", merkleBranches := [bytes "ab"] }

theorem isRun_publishRun : (sharedQueue ℕ MiningJob.members).IsRun { value := {} }
    (publishRun publishedJob ++ [.returned 1 (.job (some publishedJob))]) := by
  decide +kernel

/-- The version was read before the job was published, and the copy taken after. -/
theorem history_is_atomic_publishRun :
    ∃ run', ((queue MiningJob).atomic ℕ).IsRun {} run' ∧
      run'.filterMap Linearizable.Label.shown =
        [.call 0 (.publish publishedJob), .call 1 .version, .returned 1 (.version 0),
          .call 1 .current, .returned 1 (.job (some publishedJob))] := by
  obtain ⟨run', hrun', hshown, -⟩ := history_is_atomic MiningJob.members isRun_publishRun
  exact ⟨run', hrun', hshown⟩

theorem copy_is_whole_publishRun :
    ∃ j, .call j (.publish publishedJob) ∈ publishRun publishedJob :=
  copy_is_whole MiningJob.members isRun_publishRun

end CppMiner.Threading
