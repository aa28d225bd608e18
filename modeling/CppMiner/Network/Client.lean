-- SUMMARY: The Stratum client as a transition system: the network thread, the workers' submits, partial writes, reconnects.
import Mathlib.Logic.Function.Basic
import CppMiner.Lib.Transition
import CppMiner.Network.Handlers
import CppMiner.Network.Receive
import CppMiner.Network.Request

/-!
# The client

`client login` is the transition system of one `StratumClient`: the network thread
that runs `runLoop`, any number of workers that call `submitShare` and
`submitBlobShare`, and the thread that calls `start` and `stop`. A step is one
access to what the threads share: taking `writeMutex_`, one `send`, one `disconnect`,
one received chunk, one handled line. The environment chooses the order of the
steps, what each `send` and `recv` returns, and what the pool sends.

Connections are numbered in the order they are opened. For each the state records
what was written to it, which the code does not; the fields that only record are
marked as such. Polling and the reconnect delay are steps without effect, and what is
logged is left out.
-/

namespace CppMiner.Network

/-! ## States -/

/-- The callers of `sendLine`. -/
inductive Thread where
  | network
  | worker (i : ℕ)
  deriving DecidableEq

/-- Where the network thread is in `runLoop`. -/
inductive NetPc where
  /-- No network thread runs. -/
  | exited
  /-- At the condition of the outer loop. -/
  | outer
  /-- In `connectOnce`, before a socket is open. -/
  | connecting
  /-- In the `sendLine` of `mining.subscribe`. -/
  | subscribing
  /-- In the `sendLine` of `mining.authorize`. -/
  | authorizing
  /-- `connectOnce` has returned false. -/
  | failed
  /-- At the condition of the inner loop. -/
  | inner
  /-- In `poll`, or in the `recv` after it. -/
  | polling
  /-- In the loop over the complete lines of the buffer. -/
  | draining
  /-- After the inner loop. -/
  | lost
  /-- About to disconnect after a lost connection. -/
  | dropping
  /-- In the reconnect delay. -/
  | waiting
  deriving DecidableEq

/-- Where the thread that calls `start` and `stop` is. -/
inductive UserPc where
  | idle
  /-- In `stop`, before `disconnect`. -/
  | stopping
  /-- In `stop`, at the `join`. -/
  | joining
  deriving DecidableEq

/-- A `sendLine` that holds `writeMutex_`. -/
structure Writer where
  thread : Thread
  request : Request
  sent : ℕ := 0
  /-- Recorded: the connection that took the first byte of the line. -/
  head : Option ℕ := none

/-- What was written to a connection. -/
structure Conn where
  bytes : Bytes := []
  /-- The requests whose first byte the connection took, in that order. -/
  requests : List Request := []
  /-- Whether a `sendLine` gave up with only part of its line written here. -/
  broken : Bool := false

/-- The state of the client and of its threads. -/
structure State where
  running : Bool := false
  user : UserPc := .idle
  net : NetPc := .exited
  client : ClientState := {}
  nextRequestId : ℤ := 1
  socketFd : Option ℕ := none
  lineBuffer : Bytes := []
  /-- The `sendLine` that holds the mutex. -/
  writeMutex : Option Writer := none
  /-- The request a worker has built and is in `sendLine` with. -/
  workers : ℕ → Option Request := fun _ => none
  counters : Miner.Counters := {}
  /-- Recorded: how many connections were opened. -/
  opened : ℕ := 0
  /-- Recorded: what was written to each connection. -/
  conns : ℕ → Conn := fun _ => {}
  /-- Recorded: how many submits have drawn an id. -/
  submits : ℕ := 0
  /-- Recorded: the submits whose line was sent to its end. -/
  sent : List Request := []
  /-- Recorded: the lines handled, each with its connection. -/
  handled : List (ℕ × Bytes) := []
  /-- Recorded: the callbacks invoked, each with the connection of the line. -/
  callbacks : List (ℕ × Event) := []

/-- The steps of the threads. -/
inductive Label where
  | start
  | stop
  | stopDisconnect
  | join
  | submit (i : ℕ) (share : Submit)
  | lock (t : Thread)
  | send (n : ℕ)
  | sendError
  | checkOuter
  | connectFails
  | connected
  | reconnect
  | checkInner
  | timeout
  | connectionLost
  | recv (chunk : Bytes)
  | line
  | drained
  | checkLost
  | drop
  | waited

/-! ## Steps -/

namespace State

/-- The connection the network thread is on. -/
def connection (s : State) : ℕ := s.opened - 1

/-- The request the network thread is sending. -/
def handshake (login : Login) : NetPc → Option Request
  | .subscribing => some subscribeRequest
  | .authorizing => some (authorizeRequest login)
  | _ => none

/-- The request a thread is in `sendLine` with. -/
def pending (login : Login) (s : State) : Thread → Option Request
  | .network => handshake login s.net
  | .worker i => s.workers i

def start (s : State) : State :=
  if s.running then s else { s with running := true, net := .outer }

def stop (s : State) : State :=
  if s.running then { s with running := false, user := .stopping } else s

def disconnect (s : State) : State :=
  { s with socketFd := none, client := { s.client with authorized := false } }

/-- Building a request, with an id drawn under `pendingMutex_`. -/
def submit (login : Login) (s : State) (i : ℕ) (share : Submit) : State :=
  let requestId := preIncrement s.nextRequestId
  { s with
    nextRequestId := requestId
    workers := Function.update s.workers i (some (share.request login requestId))
    submits := s.submits + 1 }

/-- `sendLine` returns to its caller. -/
def sendReturns (s : State) (t : Thread) (ok : Bool) : State :=
  match t with
  | .worker i => { s with workers := Function.update s.workers i none }
  | .network =>
    match s.net, ok with
    | .subscribing, true => { s with net := .authorizing }
    | .authorizing, true => { s with net := .inner, lineBuffer := [] }
    | _, _ => { s with net := .failed }

/-- Taking `writeMutex_`, and the check of the socket under it. -/
def lock (s : State) (t : Thread) (r : Request) : State :=
  match s.socketFd with
  | none => s.sendReturns t false
  | some _ => { s with writeMutex := some { thread := t, request := r } }

/-- A connection after a `send` of the writer has returned `n`. -/
def written (c : Conn) (w : Writer) (n : ℕ) : Conn :=
  { c with
    bytes := c.bytes ++ (w.request.line.drop w.sent).take n
    requests := if w.sent = 0 then c.requests ++ [w.request] else c.requests }

/-- The log of submits that were sent to the end. -/
def logSent (sent : List Request) (w : Writer) : List Request :=
  match w.thread with
  | .network => sent
  | .worker _ => sent ++ [w.request]

/-- A `send` on connection `k` that returns `n`. It may be the last of the line. -/
def send (s : State) (w : Writer) (k n : ℕ) : State :=
  let conns := Function.update s.conns k (written (s.conns k) w n)
  if w.sent + n < w.request.line.length then
    { s with
      conns := conns
      writeMutex := some { w with sent := w.sent + n, head := some (w.head.getD k) } }
  else
    { s with conns := conns, writeMutex := none, sent := logSent s.sent w }.sendReturns
      w.thread true

/-- A `send` that fails. A line of which part was written stays as it is. -/
def sendError (s : State) (w : Writer) : State :=
  let conns :=
    match w.head with
    | none => s.conns
    | some k => Function.update s.conns k { s.conns k with broken := true }
  { s with conns := conns, writeMutex := none }.sendReturns w.thread false

/-- A socket has been connected. -/
def connected (s : State) : State :=
  { s with socketFd := some s.opened, opened := s.opened + 1, net := .subscribing }

/-- The callback `main` registers for share results. -/
def submitCallback (counters : Miner.Counters) : Event → Miner.Counters
  | .onSubmit result => counters.recordShareResult result.accepted
  | _ => counters

/-- Taking a line from the buffer and handling it. -/
def handle (s : State) (line rest : Bytes) : State :=
  let handled := handleLine s.client line
  { s with
    lineBuffer := rest
    client := handled.1
    counters := handled.2.foldl submitCallback s.counters
    handled := s.handled ++ [(s.connection, line)]
    callbacks := s.callbacks ++ handled.2.map fun e => (s.connection, e) }

/-- The steps that can be taken. -/
def Enabled (login : Login) (s : State) : Label → Prop
  | .start | .stop => s.user = .idle
  | .stopDisconnect => s.user = .stopping
  | .join => s.user = .joining ∧ s.net = .exited
  | .submit i _ => s.workers i = none
  | .lock t => s.writeMutex.isNone ∧ (s.pending login t).isSome
  | .send n =>
    s.socketFd.isSome ∧ ∃ w ∈ s.writeMutex, 1 ≤ n ∧ n ≤ w.request.line.length - w.sent
  | .sendError => s.writeMutex.isSome
  | .checkOuter => s.net = .outer
  | .connectFails | .connected => s.net = .connecting
  | .reconnect => s.net = .failed
  | .checkInner => s.net = .inner
  | .timeout | .connectionLost => s.net = .polling
  | .recv chunk => s.net = .polling ∧ s.socketFd.isSome ∧ 1 ≤ chunk.length ∧ chunk.length ≤ 4096
  | .line => s.net = .draining ∧ (nextLine s.lineBuffer).isSome
  | .drained => s.net = .draining ∧ (nextLine s.lineBuffer).isNone
  | .checkLost => s.net = .lost
  | .drop => s.net = .dropping
  | .waited => s.net = .waiting

/-- The state after a step. -/
def next (login : Login) (s : State) : Label → State
  | .start => s.start
  | .stop => s.stop
  | .stopDisconnect => { s.disconnect with user := .joining }
  | .join => { s with user := .idle }
  | .submit i share => s.submit login i share
  | .lock t =>
    match s.pending login t with
    | some r => s.lock t r
    | none => s
  | .send n =>
    match s.writeMutex, s.socketFd with
    | some w, some k => s.send w k n
    | _, _ => s
  | .sendError =>
    match s.writeMutex with
    | some w => s.sendError w
    | none => s
  | .checkOuter => { s with net := if s.running then .connecting else .exited }
  | .connectFails => { s with net := .failed }
  | .connected => s.connected
  | .reconnect | .drop => { s.disconnect with net := .waiting }
  | .checkInner => { s with net := if s.running then .polling else .lost }
  | .timeout => { s with net := .inner }
  | .connectionLost => { s with net := .lost }
  | .recv chunk => { s with lineBuffer := s.lineBuffer ++ chunk, net := .draining }
  | .line =>
    match nextLine s.lineBuffer with
    | some (line, rest) => s.handle line rest
    | none => s
  | .drained => { s with net := .inner }
  | .checkLost => { s with net := if s.running then .dropping else .exited }
  | .waited => { s with net := .outer }

instance (login : Login) (s : State) (l : Label) : Decidable (s.Enabled login l) := by
  cases l <;> dsimp only [Enabled] <;> infer_instance

end State

/-- A client with the given login, before its first `start`. -/
def client (login : Login) : TransitionSystem State Label where
  init := {}
  Enabled := State.Enabled login
  next := State.next login

instance (login : Login) (s : State) (l : Label) : Decidable ((client login).Enabled s l) :=
  inferInstanceAs (Decidable (s.Enabled login l))

/-- A run up to the receive loop in which each handshake request takes one `send`. -/
def handshakeRun (login : Login) : List Label :=
  [.start, .checkOuter, .connected,
    .lock .network, .send subscribeRequest.line.length,
    .lock .network, .send (authorizeRequest login).line.length,
    .checkInner]

/-- The connection is lost in the receive loop, and the next one is opened. -/
def reconnectRun : List Label :=
  [.connectionLost, .checkLost, .drop, .waited, .checkOuter, .connected]

/-- The handshake of a connection that was opened, each line with one `send`. -/
def greetingRun (login : Login) : List Label :=
  [.lock .network, .send subscribeRequest.line.length,
    .lock .network, .send (authorizeRequest login).line.length, .checkInner]

/-- A submit of a worker that is written with one `send`. -/
def submitRun (login : Login) (i : ℕ) (share : Submit) (requestId : ℤ) : List Label :=
  [.submit i share, .lock (.worker i), .send (share.request login requestId).line.length]

end CppMiner.Network
