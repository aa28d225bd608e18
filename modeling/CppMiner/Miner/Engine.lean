-- SUMMARY: The engine: what it shares with its workers, and the steps of `workerLoop` on it.
import CppMiner.Lib.Double
import CppMiner.Miner.Batches
import CppMiner.Threading.JobQueue

/-!
# The engine

The workers share with the rest of the program the job queue, the difficulty and the
flag `running_`. A worker reads each of them once for a batch, in this order: the flag,
the job, the difficulty (`check`, `take`, `load`). What a batch tries is then fixed, and
its attempts touch nothing shared but the client they submit to, so `load` computes
them all and a worker that is `mining` has the rest of them before it.

A job is published together with a record of where it came from, which the code does
not keep; the fields that only record are marked as such. Rate statistics are left out.
-/

namespace CppMiner.Miner

open Hash (HashAlgorithm)
open Hash.Cryptonight (Stack)
open Threading (JobQueue)

/-! ## The threshold -/

/-- The number `0xFFFFFFFFFFFFFFFF` as a double. -/
def kDiff1 : ℚ := 2 ^ 64

/-- What the leading 64 bits of a share must fall below. -/
def difficultyToThreshold (difficulty : ℚ) : UInt64 :=
  let difficulty := if difficulty ≤ 0 then 1 else difficulty
  let scaled := Double.div kDiff1 difficulty
  if kDiff1 ≤ scaled then 0xFFFFFFFFFFFFFFFF else Double.toUInt64 scaled

/-! ## States -/

/-- A job in the queue. All but the job is recorded. -/
structure Published where
  job : MiningJob
  /-- How many jobs had been published, this one included. -/
  ordinal : ℕ := 0
  /-- The version at which it was published. -/
  version : UInt64 := 0
  /-- The connection its notification came on, if it came from the pool. -/
  connection : Option ℕ := none
  /-- How many callbacks the client had invoked before it. -/
  callbacks : ℕ := 0
  /-- The difficulty its notification carried. -/
  carried : Option ℚ := none

/-- What a worker has read when it begins a batch. -/
structure Snapshot where
  worker : ℕ
  published : Published
  difficulty : ℚ
  /-- Recorded: how many callbacks the client had invoked when the difficulty was read. -/
  callbacks : ℕ

/-- A call of `submitShare` or `submitBlobShare`, with the batch it came from. -/
structure Submission where
  snapshot : Snapshot
  attempt : Attempt
  request : Network.Request
  /-- The ordinal of the last job published with `cleanJobs` before the call, or 0. -/
  cleanFrom : ℕ

/-- Where a worker thread is in `workerLoop`, and what it has there. -/
inductive WorkerThread where
  | exited
  /-- At the condition of the loop. -/
  | checking (worker : Worker)
  /-- About to copy the current job. -/
  | fetching (worker : Worker)
  /-- About to read the difficulty. -/
  | holding (worker : Worker) (published : Published)
  /-- In a batch, before the attempts that are left. -/
  | mining (worker : Worker) (snapshot : Snapshot) (left : List Attempt)
  /-- An exception or an access out of bounds ended the batch. -/
  | died

/-- What the engine is constructed with. -/
structure Setup where
  algorithm : HashAlgorithm
  threads : ℕ
  /-- The value of `CPP_MINER_DBG_DIFF`, if it is set. -/
  debugDifficulty : Option ℚ := none

/-- The state of the engine and of its threads. -/
structure Engine where
  running : Bool := false
  /-- `stop` is at its joins. -/
  joining : Bool := false
  jobQueue : JobQueue Published := {}
  difficulty : ℚ := 1
  workers : ℕ → WorkerThread := fun _ => .exited
  /-- Recorded: how many jobs were published. -/
  published : ℕ := 0
  /-- Recorded: the ordinal of the last job published with `cleanJobs`, or 0. -/
  cleanFrom : ℕ := 0
  /-- Recorded: the batches begun. -/
  batches : List Snapshot := []
  /-- Recorded: the calls of `submitShare` and `submitBlobShare`. -/
  submissions : List Submission := []

/-! ## Steps -/

/-- The difficulty that is stored for the one given. -/
def Setup.stored (setup : Setup) (difficulty : ℚ) : ℚ :=
  match setup.debugDifficulty with
  | some overrideDiff => if 0 < overrideDiff then overrideDiff else difficulty
  | none => difficulty

/-- What a worker does after it has read what it needs for a batch. -/
def WorkerThread.begin (worker : Worker) (snapshot : Snapshot) (stack : ℕ → Stack) :
    WorkerThread :=
  match batch worker snapshot.published.job (difficultyToThreshold snapshot.difficulty) stack with
  | .ok (left, worker) => .mining worker snapshot left
  | .error _ => .died

namespace Engine

def updateJob (e : Engine) (p : Published) : Engine :=
  let ordinal := e.published + 1
  { e with
    jobQueue := e.jobQueue.publish
      { p with ordinal := ordinal, version := e.jobQueue.version + 1 }
    published := ordinal
    cleanFrom := if p.job.cleanJobs then ordinal else e.cleanFrom }

def updateDifficulty (setup : Setup) (e : Engine) (difficulty : ℚ) : Engine :=
  { e with difficulty := setup.stored difficulty }

def start (setup : Setup) (e : Engine) : Engine :=
  if e.running then e
  else
    { e with
      running := true
      workers := fun i =>
        if i < setup.threads then .checking (Worker.start setup.algorithm i setup.threads)
        else e.workers i }

def stop (e : Engine) : Engine :=
  if e.running then { e with running := false, joining := true } else e

/-- Starting and stopping leave the queue, the difficulty and the records alone. -/
@[simp] theorem start_frame (setup : Setup) (e : Engine) :
    (e.start setup).jobQueue = e.jobQueue ∧ (e.start setup).difficulty = e.difficulty ∧
      (e.start setup).published = e.published ∧ (e.start setup).cleanFrom = e.cleanFrom ∧
      (e.start setup).batches = e.batches ∧ (e.start setup).submissions = e.submissions := by
  unfold start
  split <;> exact ⟨rfl, rfl, rfl, rfl, rfl, rfl⟩

@[simp] theorem stop_frame (e : Engine) :
    e.stop.jobQueue = e.jobQueue ∧ e.stop.difficulty = e.difficulty ∧
      e.stop.published = e.published ∧ e.stop.cleanFrom = e.cleanFrom ∧
      e.stop.batches = e.batches ∧ e.stop.submissions = e.submissions ∧
      e.stop.workers = e.workers := by
  unfold stop
  split <;> exact ⟨rfl, rfl, rfl, rfl, rfl, rfl, rfl⟩

def setWorker (e : Engine) (i : ℕ) (t : WorkerThread) : Engine :=
  { e with workers := Function.update e.workers i t }

/-- The condition of the loop. -/
def check (e : Engine) (i : ℕ) : Option Engine :=
  match e.workers i with
  | .checking worker => some (e.setWorker i (if e.running then .fetching worker else .exited))
  | _ => none

/-- Copying the current job. Without one the worker sleeps and starts over. -/
def take (e : Engine) (i : ℕ) : Option Engine :=
  match e.workers i with
  | .fetching worker =>
    match e.jobQueue.current with
    | some p => some (e.setWorker i (.holding worker p))
    | none => some (e.setWorker i (.checking worker))
  | _ => none

/-- Reading the difficulty, and with it what the batch will try. -/
def load (e : Engine) (i : ℕ) (stack : ℕ → Stack) (callbacks : ℕ) : Option Engine :=
  match e.workers i with
  | .holding worker p =>
    let snapshot : Snapshot := ⟨i, p, e.difficulty, callbacks⟩
    some { e.setWorker i (.begin worker snapshot stack) with batches := e.batches ++ [snapshot] }
  | _ => none

/-- The end of a batch. The flag is tested here too, and again by the loop. -/
def finish (e : Engine) (i : ℕ) : Option Engine :=
  match e.workers i with
  | .mining worker _ [] => some (e.setWorker i (.checking worker))
  | _ => none

end Engine

end CppMiner.Miner
