-- SUMMARY: The program as a transition system: the client, the engine and its workers, wired as `main` wires them.
import CppMiner.Miner.Engine
import CppMiner.Network.Sessions

/-!
# The program

`program login setup` puts the client and the engine together as `main` does: a
synthetic job and a high difficulty are stored first, the client's callbacks update the
engine, and the workers submit to the client. Its steps are those of the client, the
reads that a worker begins a batch with, and the attempts of the batch, in any order
that each thread's own program allows. `main` calls `start` and `stop` of both parts in
one fixed order; here they may be called in any.

Handling a line makes at most one access to the engine, and is one step with it.
-/

namespace CppMiner.Program

open Hash.Cryptonight (Stack)
open Miner (Engine MiningJob Setup WorkerThread Worker Published Snapshot Attempt)
open Network (Login Event ClientState handleLine nextLine notifyDifficulty)

/-! ## States -/

/-- The job that is mined until the pool sends one. -/
def createSyntheticJob : MiningJob where
  jobId := bytes "synthetic-standby"
  prevHash := List.replicate 64 '0'.toUInt8
  coinbase1 := bytes "synthetic-coinbase1"
  coinbase2 := bytes "synthetic-coinbase2"
  version := bytes "20000000"
  bits := bytes "1d00ffff"
  time := bytes "00000000"
  extranonce1 := bytes "aabbccdd"
  extranonce2Size := 4
  difficulty := 10 ^ 15

/-- The difficulty `main` stores with it. -/
def syntheticDifficulty : ℚ := 10 ^ 15

structure State where
  client : Network.State
  engine : Engine

/-- The steps of the threads. -/
inductive Label where
  | client (l : Network.Label)
  | engineStart
  | engineStop
  | engineJoin
  | check (i : ℕ)
  | take (i : ℕ)
  /-- `stack j` is what the stack holds in iteration `j` of the batch. -/
  | load (i : ℕ) (stack : ℕ → Stack)
  | attempt (i : ℕ)
  | finish (i : ℕ)

/-! ## Steps -/

/-- The job of a line, with the record of where it came from. -/
def received (client : Network.State) (line : Bytes) (job : MiningJob) : Published where
  job := job
  connection := some client.connection
  callbacks := client.callbacks.length
  carried := notifyDifficulty line

/-- The callbacks `main` registers for jobs and difficulties. The one for share results
is part of the client. -/
def callback (setup : Setup) (client : Network.State) (line : Bytes) (e : Engine) :
    Event → Engine
  | .onJob job => e.updateJob (received client line job)
  | .onDifficulty difficulty => e.updateDifficulty setup difficulty
  | .onSubmit _ => e

namespace State

/-- What handling a line does to the engine. -/
def deliver (setup : Setup) (s : State) (line : Bytes) : Engine :=
  (handleLine s.client.client line).2.foldl (callback setup s.client line) s.engine

/-- A step of the client. Its submits are made by `attempt`. -/
def stepClient (login : Login) (setup : Setup) (s : State) (l : Network.Label) : Option State :=
  if s.client.Enabled login l then
    match l with
    | .submit _ _ => none
    | .line =>
      match nextLine s.client.lineBuffer with
      | some (line, rest) =>
        some { client := s.client.handle line rest, engine := s.deliver setup line }
      | none => none
    | l => some { s with client := s.client.next login l }
  else none

/-- The next attempt of a batch, made when the submit of the one before has returned. -/
def attempt (login : Login) (s : State) (i : ℕ) : Option State :=
  match s.engine.workers i, s.client.workers i with
  | .mining worker snapshot (x :: left), none =>
    let engine := s.engine.setWorker i (.mining worker snapshot left)
    match x.submitted with
    | none => some { s with engine := engine }
    | some share =>
      let request := share.request login (Network.preIncrement s.client.nextRequestId)
      some
        { client := s.client.submit login i share
          engine := { engine with
            submissions := engine.submissions ++ [⟨snapshot, x, request, engine.cleanFrom⟩] } }
  | _, _ => none

def step (login : Login) (setup : Setup) (s : State) : Label → Option State
  | .client l => s.stepClient login setup l
  | .engineStart =>
    if s.engine.joining then none else some { s with engine := s.engine.start setup }
  | .engineStop =>
    if s.engine.joining then none else some { s with engine := s.engine.stop }
  | .engineJoin =>
    if s.engine.joining ∧ ∀ i < setup.threads, s.engine.workers i matches .exited then
      some { s with engine := { s.engine with joining := false } }
    else none
  | .check i => (s.engine.check i).map fun e => { s with engine := e }
  | .take i => (s.engine.take i).map fun e => { s with engine := e }
  | .load i stack =>
    (s.engine.load i stack s.client.callbacks.length).map fun e => { s with engine := e }
  | .attempt i => s.attempt login i
  | .finish i =>
    if s.client.workers i = none then (s.engine.finish i).map fun e => { s with engine := e }
    else none

end State

/-- What `main` has stored before it starts the threads. -/
def init (setup : Setup) : State where
  client := {}
  engine := (({} : Engine).updateJob { job := createSyntheticJob }).updateDifficulty setup
    syntheticDifficulty

/-- The program of a login and a setup. -/
def program (login : Login) (setup : Setup) : TransitionSystem State Label :=
  .ofStep (init setup) (State.step login setup)

instance (login : Login) (setup : Setup) (s : State) (l : Label) :
    Decidable ((program login setup).Enabled s l) :=
  inferInstanceAs (Decidable ((TransitionSystem.ofStep _ _).Enabled s l))

/-! ## What a step can do -/

namespace State

variable {login : Login} {setup : Setup} {s s' : State} {l : Label}

/-- The steps, each with what it finds and what it leaves. A line is split by the
callback it invokes. -/
inductive Step (login : Login) (setup : Setup) (s : State) : Label → State → Prop where
  | client (l : Network.Label) (he : s.client.Enabled login l) (hline : l ≠ .line)
    (hsubmit : ∀ i share, l ≠ .submit i share) :
    Step login setup s (.client l) { s with client := s.client.next login l }
  | reported (line rest : Bytes) (he : s.client.Enabled login .line)
    (hline : nextLine s.client.lineBuffer = some (line, rest))
    (hevents : ∀ e ∈ (handleLine s.client.client line).2, e.isSubmit = true) :
    Step login setup s (.client .line) { s with client := s.client.handle line rest }
  | job (line rest : Bytes) (job : MiningJob) (he : s.client.Enabled login .line)
    (hline : nextLine s.client.lineBuffer = some (line, rest))
    (hevents : (handleLine s.client.client line).2 = [.onJob job]) :
    Step login setup s (.client .line)
      { client := s.client.handle line rest
        engine := s.engine.updateJob (received s.client line job) }
  | difficulty (line rest : Bytes) (d : ℚ) (he : s.client.Enabled login .line)
    (hline : nextLine s.client.lineBuffer = some (line, rest))
    (hevents : (handleLine s.client.client line).2 = [.onDifficulty d]) :
    Step login setup s (.client .line)
      { client := s.client.handle line rest, engine := s.engine.updateDifficulty setup d }
  | engineStart (hjoin : s.engine.joining = false) :
    Step login setup s .engineStart { s with engine := s.engine.start setup }
  | engineStop (hjoin : s.engine.joining = false) :
    Step login setup s .engineStop { s with engine := s.engine.stop }
  | engineJoin (hjoin : s.engine.joining = true)
    (hexited : ∀ i < setup.threads, s.engine.workers i = .exited) :
    Step login setup s .engineJoin { s with engine := { s.engine with joining := false } }
  | check (i : ℕ) (worker : Worker) (hi : s.engine.workers i = .checking worker) :
    Step login setup s (.check i)
      { s with engine :=
          s.engine.setWorker i (if s.engine.running then .fetching worker else .exited) }
  | take (i : ℕ) (worker : Worker) (p : Published) (hi : s.engine.workers i = .fetching worker)
    (hp : s.engine.jobQueue.current = some p) :
    Step login setup s (.take i) { s with engine := s.engine.setWorker i (.holding worker p) }
  | idle (i : ℕ) (worker : Worker) (hi : s.engine.workers i = .fetching worker)
    (hp : s.engine.jobQueue.current = none) :
    Step login setup s (.take i) { s with engine := s.engine.setWorker i (.checking worker) }
  | load (i : ℕ) (stack : ℕ → Stack) (worker : Worker) (p : Published)
    (hi : s.engine.workers i = .holding worker p) (snapshot : Snapshot)
    (hsnapshot : snapshot = ⟨i, p, s.engine.difficulty, s.client.callbacks.length⟩) :
    Step login setup s (.load i stack)
      { s with engine :=
          { s.engine.setWorker i (.begin worker snapshot stack) with
            batches := s.engine.batches ++ [snapshot] } }
  | missed (i : ℕ) (worker : Worker) (snapshot : Snapshot) (x : Attempt) (left : List Attempt)
    (hi : s.engine.workers i = .mining worker snapshot (x :: left))
    (hfree : s.client.workers i = none) (hx : x.submitted = none) :
    Step login setup s (.attempt i)
      { s with engine := s.engine.setWorker i (.mining worker snapshot left) }
  | submitted (i : ℕ) (worker : Worker) (snapshot : Snapshot) (x : Attempt) (left : List Attempt)
    (hi : s.engine.workers i = .mining worker snapshot (x :: left))
    (hfree : s.client.workers i = none) (share : Network.Submit) (hx : x.submitted = some share)
    (request : Network.Request)
    (hrequest : request = share.request login (Network.preIncrement s.client.nextRequestId)) :
    Step login setup s (.attempt i)
      { client := s.client.submit login i share
        engine :=
          { s.engine.setWorker i (.mining worker snapshot left) with
            submissions := s.engine.submissions ++ [⟨snapshot, x, request, s.engine.cleanFrom⟩] } }
  | finish (i : ℕ) (worker : Worker) (snapshot : Snapshot)
    (hi : s.engine.workers i = .mining worker snapshot [])
    (hfree : s.client.workers i = none) :
    Step login setup s (.finish i) { s with engine := s.engine.setWorker i (.checking worker) }

/-- A line that is handled invokes no callback, or one. -/
theorem step_line {line rest : Bytes} (he : s.client.Enabled login .line)
    (hline : nextLine s.client.lineBuffer = some (line, rest)) :
    Step login setup s (.client .line)
      { client := s.client.handle line rest, engine := s.deliver setup line } := by
  have hlength := Network.length_handleLine_le s.client.client line
  unfold deliver
  match hevents : (handleLine s.client.client line).2 with
  | [] => exact .reported line rest he hline (by simp [hevents])
  | [.onJob job] => exact .job line rest job he hline hevents
  | [.onDifficulty d] => exact .difficulty line rest d he hline hevents
  | [.onSubmit result] => exact .reported line rest he hline (by simp [hevents, Event.isSubmit])
  | _ :: _ :: _ => simp [hevents] at hlength

theorem step_client {l : Network.Label} (h : s.stepClient login setup l = some s') :
    Step login setup s (.client l) s' := by
  unfold stepClient at h
  split at h
  · rename_i he
    split at h
    · cases h
    · split at h
      · rename_i line rest hline
        obtain rfl := Option.some.inj h
        exact step_line he hline
      · cases h
    · rename_i hsubmit hline
      obtain rfl := Option.some.inj h
      exact .client l he hline hsubmit
  · cases h

theorem step_attempt {i : ℕ} (h : s.attempt login i = some s') :
    Step login setup s (.attempt i) s' := by
  unfold attempt at h
  split at h
  · rename_i worker snapshot x left hi hfree
    simp only at h
    split at h
    · rename_i hx
      obtain rfl := Option.some.inj h
      exact .missed i worker snapshot x left hi hfree hx
    · rename_i share hx
      obtain rfl := Option.some.inj h
      exact .submitted i worker snapshot x left hi hfree share hx _ rfl
  · cases h

theorem step_cases (h : s.step login setup l = some s') : Step login setup s l s' := by
  cases l with
  | client l => exact step_client h
  | attempt i => exact step_attempt h
  | engineStart =>
    simp only [step] at h
    split at h
    · cases h
    · rename_i hjoin
      obtain rfl := Option.some.inj h
      exact .engineStart (by simpa using hjoin)
  | engineStop =>
    simp only [step] at h
    split at h
    · cases h
    · rename_i hjoin
      obtain rfl := Option.some.inj h
      exact .engineStop (by simpa using hjoin)
  | engineJoin =>
    simp only [step] at h
    split at h
    · rename_i hjoin
      obtain rfl := Option.some.inj h
      refine .engineJoin hjoin.1 fun i hi => ?_
      have hexited := hjoin.2 i hi
      cases hw : s.engine.workers i <;> simp_all
    · cases h
  | check i =>
    simp only [step, Engine.check] at h
    split at h
    · rename_i worker hi
      obtain rfl := Option.some.inj h
      exact .check i worker hi
    · cases h
  | take i =>
    simp only [step, Engine.take] at h
    split at h
    · rename_i worker hi
      split at h
      · rename_i p hp
        obtain rfl := Option.some.inj h
        exact .take i worker p hi hp
      · rename_i hp
        obtain rfl := Option.some.inj h
        exact .idle i worker hi hp
    · cases h
  | load i stack =>
    simp only [step, Engine.load] at h
    split at h
    · rename_i worker p hi
      obtain rfl := Option.some.inj h
      exact .load i stack worker p hi _ rfl
    · cases h
  | finish i =>
    simp only [step, Engine.finish] at h
    split at h
    · rename_i hfree
      split at h
      · rename_i worker snapshot hi
        obtain rfl := Option.some.inj h
        exact .finish i worker snapshot hi hfree
      · cases h
    · cases h

/-- The client moves as it does alone, or stands. -/
theorem Step.client_next (h : Step login setup s l s') :
    s'.client = s.client ∨
      ∃ k, (Network.client login).Enabled s.client k ∧
        s'.client = (Network.client login).next s.client k ∧
        (l = .client k ∨ ∃ i share, k = .submit i share) := by
  have hhandle : ∀ line rest, nextLine s.client.lineBuffer = some (line, rest) →
      s.client.handle line rest = (Network.client login).next s.client .line := by
    intro line rest hline
    simp only [Network.client, Network.State.next, hline]
  cases h with
  | client l he hline hsubmit => exact .inr ⟨l, he, rfl, .inl rfl⟩
  | reported line rest he hline hevents =>
    exact .inr ⟨.line, he, hhandle line rest hline, .inl rfl⟩
  | job line rest job he hline hevents => exact .inr ⟨.line, he, hhandle line rest hline, .inl rfl⟩
  | difficulty line rest d he hline hevents =>
    exact .inr ⟨.line, he, hhandle line rest hline, .inl rfl⟩
  | submitted i worker snapshot x left hi hfree share hx request hrequest =>
    exact .inr ⟨.submit i share, hfree, rfl, .inr ⟨i, share, rfl⟩⟩
  | _ => exact .inl rfl

end State

open State in
/-- An invariant of the program: it holds at first, and each of the steps that meet the
condition preserves it. It may use another one that is known to hold. -/
theorem invariant_of {login : Login} {setup : Setup} {P : State → Label → Prop}
    {J I : State → Prop} (hJ : ∀ s, (program login setup).Reach P s → J s)
    (hinit : I (init setup))
    (hstep : ∀ s l s', J s → I s → Step login setup s l s' → P s l → I s') {s : State}
    (h : (program login setup).Reach P s) : I s :=
  h.invariant_of hJ hinit fun s l hj hi he hP =>
    hstep s l _ hj hi (step_cases (TransitionSystem.step_eq_some he)) hP

/-- The client of the program runs as a client alone does. -/
theorem client_of_reach {login : Login} {setup : Setup} {P : State → Label → Prop} {s : State}
    (h : (program login setup).Reach P s) : (Network.client login).Reachable s.client :=
  h.map State.client rfl fun _ _ he _ => by
    rcases (State.step_cases (TransitionSystem.step_eq_some he)).client_next with
      heq | ⟨k, hk, heq, -⟩
    · exact .inl heq
    · exact .inr ⟨k, hk, heq⟩

/-! ## Runs -/

/-- The state that a list of steps leads to. -/
def after (login : Login) (setup : Setup) (run : List Label) : State :=
  (program login setup).exec (init setup) run

theorem reach_after {login : Login} {setup : Setup} {P : State → Label → Prop} {run : List Label}
    (h : (program login setup).Valid P (init setup) run) :
    (program login setup).Reach P (after login setup run) := .exec .init h

def difficultyLine (difficulty : String) : Bytes :=
  bytes "\x7b\"method\":\"mining.set_difficulty\",\"params\":[" ++ bytes difficulty ++ bytes "]\x7d"

/-- A notification with seven elements and an empty blob, mined on a header. -/
def jobLine (jobId difficulty cleanJobs : String) : Bytes :=
  bytes "\x7b\"method\":\"mining.notify\",\"params\":[\"" ++ bytes jobId ++
    bytes "\",\"\",\"\",\"\"," ++ bytes difficulty ++ bytes "," ++ bytes cleanJobs ++
    bytes ",0]\x7d"

/-- The client receives lines and handles the first `n` of them. -/
def recvRun (lines : List Bytes) (n : ℕ) : List Label :=
  .client (.recv (Lines.join newline lines)) :: List.replicate n (.client .line)

/-- The client connects, receives lines, and handles the first `n` of them. -/
def linesRun (login : Login) (lines : List Bytes) (n : ℕ) : List Label :=
  (Network.handshakeRun login).map .client ++ recvRun lines n

/-- The buffer is drained, the connection is lost, and the next one is opened. -/
def reconnectRun (login : Login) : List Label :=
  (Network.Label.drained :: .checkInner :: Network.reconnectRun ++
    Network.greetingRun login).map .client

/-- The engine starts, and its worker 0 begins a batch. -/
def beginRun : List Label :=
  [.engineStart, .check 0, .take 0, .load 0 fun _ _ => Vector.replicate 25 0]

/-- Worker `i` begins a batch, and makes its first attempt. -/
def attemptRun (i : ℕ) : List Label :=
  [.check i, .take i, .load i fun _ _ => Vector.replicate 25 0, .attempt i]

/-- Worker 0 makes an attempt, and the first byte of its share is written. -/
def submitRun : List Label := [.attempt 0, .client (.lock (.worker 0)), .client (.send 1)]

end CppMiner.Program
