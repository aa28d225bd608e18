-- SUMMARY: Basic invariants of the client: who holds the write mutex and with which request; what the receiving steps leave alone.
import CppMiner.Network.Client

/-!
# The sending side

What the client sends is decided by five kinds of steps: drawing an id, taking the
mutex, `send` with its two outcomes, and opening a connection. `Frame` is what every
other step leaves alone, so that an invariant of the sending side is checked for the
five and carried over the rest.
-/

namespace CppMiner.Network

namespace Label

/-- The steps that write, or that start a request or a connection. -/
def sends : Label → Bool
  | .submit _ _ | .lock _ | .send _ | .sendError | .connected => true
  | _ => false

end Label

namespace NetPc

/-- Whether `connectOnce` has succeeded on the current connection and lines are read. -/
def receiving : NetPc → Bool
  | .inner | .polling | .draining => true
  | _ => false

/-- Whether `connectOnce` has not sent the handshake of the socket it opened, or has
failed to. -/
def handshaking : NetPc → Bool
  | .subscribing | .authorizing | .failed => true
  | _ => false

end NetPc

namespace State

variable {login : Login} {s s' : State} {l : Label}

/-- Facts about the threads that hold in every reachable state. -/
structure Basic (login : Login) (s : State) : Prop where
  /-- Between `stop` and `start` no network thread runs. -/
  idle : s.user = .idle → s.running = false → s.net = .exited
  /-- The open socket is the newest connection. -/
  current : ∀ k, s.socketFd = some k → k + 1 = s.opened
  /-- The holder of the mutex is in `sendLine` with the request it writes. -/
  holder : ∀ w, s.writeMutex = some w → s.pending login w.thread = some w.request
  /-- A line that was begun is not finished, and its head went somewhere. -/
  progress : ∀ w, s.writeMutex = some w →
    w.sent < w.request.line.length ∧ (w.sent = 0 ↔ w.head = none)

/-- What a step outside `Label.sends` leaves alone. -/
structure Frame (login : Login) (s s' : State) : Prop where
  nextRequestId : s'.nextRequestId = s.nextRequestId
  submits : s'.submits = s.submits
  workers : s'.workers = s.workers
  writeMutex : s'.writeMutex = s.writeMutex
  opened : s'.opened = s.opened
  conns : s'.conns = s.conns
  sent : s'.sent = s.sent
  handshake : handshake login s'.net = handshake login s.net
  receiving : s'.net.receiving = true → s.net.receiving = true
  socketFd : ∀ k, s'.socketFd = some k → s.socketFd = some k

theorem next_frame (h : Basic login s) (he : s.Enabled login l) (hl : l.sends = false) :
    Frame login s (s.next login l) := by
  cases l with
  | submit i share => cases hl
  | lock t => cases hl
  | send n => cases hl
  | sendError => cases hl
  | connected => cases hl
  | start =>
    simp only [next, start]
    split
    · constructor <;> simp
    · rename_i hrun
      have hnet := h.idle he (by simpa using hrun)
      constructor <;> simp [hnet, State.handshake, NetPc.receiving]
  | stop =>
    simp only [next, stop]
    split <;> constructor <;> simp
  | stopDisconnect => constructor <;> simp [next, disconnect]
  | join => constructor <;> simp [next]
  | line =>
    simp only [next]
    split <;> constructor <;> simp [handle]
  | checkOuter =>
    simp only [Enabled] at he
    constructor <;> simp [next, he] <;> split <;> simp [State.handshake, NetPc.receiving]
  | checkInner =>
    simp only [Enabled] at he
    constructor <;> simp [next, he] <;> split <;> simp [State.handshake, NetPc.receiving]
  | checkLost =>
    simp only [Enabled] at he
    constructor <;> simp [next, he] <;> split <;> simp [State.handshake, NetPc.receiving]
  | recv chunk => constructor <;> simp [next, he.1, State.handshake, NetPc.receiving]
  | drained => constructor <;> simp [next, he.1, State.handshake, NetPc.receiving]
  | connectFails =>
    simp only [Enabled] at he
    constructor <;> simp [next, he, State.handshake, NetPc.receiving]
  | reconnect =>
    simp only [Enabled] at he
    constructor <;> simp [next, he, disconnect, State.handshake, NetPc.receiving]
  | timeout =>
    simp only [Enabled] at he
    constructor <;> simp [next, he, State.handshake, NetPc.receiving]
  | connectionLost =>
    simp only [Enabled] at he
    constructor <;> simp [next, he, State.handshake, NetPc.receiving]
  | drop =>
    simp only [Enabled] at he
    constructor <;> simp [next, he, disconnect, State.handshake, NetPc.receiving]
  | waited =>
    simp only [Enabled] at he
    constructor <;> simp [next, he, State.handshake, NetPc.receiving]

/-! ## The steps that send -/

/-- Everything a step in `Label.sends` can do. A `send` is split into the one that
leaves a part of the line and the one that completes it. -/
inductive SendStep (login : Login) (s : State) : Label → State → Prop where
  | submit (i : ℕ) (share : Submit) (hi : s.workers i = none) :
    SendStep login s (.submit i share) (s.submit login i share)
  | refused (t : Thread) (r : Request) (hw : s.writeMutex = none)
    (hr : s.pending login t = some r) (hk : s.socketFd = none) :
    SendStep login s (.lock t) (s.sendReturns t false)
  | locked (t : Thread) (r : Request) (k : ℕ) (hw : s.writeMutex = none)
    (hr : s.pending login t = some r) (hk : s.socketFd = some k) :
    SendStep login s (.lock t) { s with writeMutex := some { thread := t, request := r } }
  | part (w : Writer) (k n : ℕ) (hw : s.writeMutex = some w) (hk : s.socketFd = some k)
    (hn : 1 ≤ n) (hlt : w.sent + n < w.request.line.length) :
    SendStep login s (.send n)
      { s with
        conns := Function.update s.conns k (written (s.conns k) w n)
        writeMutex := some { w with sent := w.sent + n, head := some (w.head.getD k) } }
  | done (w : Writer) (k n : ℕ) (hw : s.writeMutex = some w) (hk : s.socketFd = some k)
    (hn : 1 ≤ n) (hend : w.sent + n = w.request.line.length) :
    SendStep login s (.send n)
      ({ s with
        conns := Function.update s.conns k (written (s.conns k) w n)
        writeMutex := none
        sent := logSent s.sent w }.sendReturns w.thread true)
  | error (w : Writer) (hw : s.writeMutex = some w) :
    SendStep login s .sendError (s.sendError w)
  | connected (hnet : s.net = .connecting) : SendStep login s .connected s.connected

theorem next_sends (he : s.Enabled login l) (hl : l.sends = true) :
    SendStep login s l (s.next login l) := by
  cases l with
  | submit i share => exact .submit i share he
  | lock t =>
    obtain ⟨hw, hr⟩ := he
    obtain ⟨r, hr⟩ := Option.isSome_iff_exists.mp hr
    rw [Option.isNone_iff_eq_none] at hw
    simp only [next, hr, lock]
    split
    · exact .refused t r hw hr ‹_›
    · exact .locked t r _ hw hr ‹_›
  | send n =>
    obtain ⟨hk, w, hw, hn, hle⟩ := he
    obtain ⟨k, hk⟩ := Option.isSome_iff_exists.mp hk
    rw [Option.mem_def] at hw
    simp only [next, hw, hk]
    unfold State.send
    simp only
    split
    · exact .part w k n hw hk hn ‹_›
    · exact .done w k n hw hk hn (by omega)
  | sendError =>
    obtain ⟨w, hw⟩ := Option.isSome_iff_exists.mp he
    simp only [next, hw]
    exact .error w hw
  | connected => exact .connected he
  | _ => cases hl

/-! ## The basic invariants -/

theorem line_ne_nil (r : Request) : 0 < r.line.length := by
  simp [Request.line]

/-- A return of `sendLine` moves its thread on and nothing else. -/
@[simp] theorem sendReturns_frame (s : State) (t : Thread) (ok : Bool) :
    (s.sendReturns t ok).user = s.user ∧
    (s.sendReturns t ok).running = s.running ∧
    (s.sendReturns t ok).client = s.client ∧
    (s.sendReturns t ok).nextRequestId = s.nextRequestId ∧
    (s.sendReturns t ok).submits = s.submits ∧
    (s.sendReturns t ok).socketFd = s.socketFd ∧
    (s.sendReturns t ok).writeMutex = s.writeMutex ∧
    (s.sendReturns t ok).opened = s.opened ∧
    (s.sendReturns t ok).conns = s.conns ∧
    (s.sendReturns t ok).sent = s.sent ∧
    (s.sendReturns t ok).counters = s.counters ∧
    (s.sendReturns t ok).handled = s.handled ∧
    (s.sendReturns t ok).callbacks = s.callbacks := by
  cases t with
  | worker i => simp [sendReturns]
  | network => cases hnet : s.net <;> cases ok <;> simp [sendReturns, hnet]

/-- A network thread that has exited is not in `sendLine`. -/
theorem sendReturns_of_exited {t : Thread} {ok : Bool} {r : Request}
    (h : s.pending login t = some r) (hnet : s.net = .exited) :
    (s'.sendReturns t ok).net = s'.net := by
  cases t with
  | worker i => rfl
  | network => simp [pending, State.handshake, hnet] at h

/-- Only `start` makes a network thread. -/
theorem next_of_exited (h : Basic login s) (he : s.Enabled login l) (hl : l ≠ .start)
    (hnet : s.net = .exited) : (s.next login l).net = .exited := by
  cases l with
  | start => exact absurd rfl hl
  | stop =>
    simp only [next, stop]
    split <;> exact hnet
  | stopDisconnect => exact hnet
  | join => exact hnet
  | submit i share => exact hnet
  | lock t =>
    obtain ⟨r, hr⟩ := Option.isSome_iff_exists.mp he.2
    simp only [next, hr, lock]
    split
    · rw [sendReturns_of_exited hr hnet, hnet]
    · exact hnet
  | send n =>
    simp only [next]
    split
    · rename_i w k hw hk
      unfold send
      simp only
      split
      · exact hnet
      · rw [sendReturns_of_exited (h.holder w hw) hnet]
        exact hnet
    · exact hnet
  | sendError =>
    simp only [next]
    split
    · rename_i w hw
      rw [sendError, sendReturns_of_exited (h.holder w hw) hnet]
      exact hnet
    · exact hnet
  | _ => simp [Enabled, hnet] at he

theorem Frame.pending (h : Frame login s s') (t : Thread) :
    s'.pending login t = s.pending login t := by
  cases t with
  | network => exact h.handshake
  | worker i => exact congrFun h.workers i

theorem Basic.of_frame (h : Basic login s) (hf : Frame login s s')
    (hidle : s'.user = .idle → s'.running = false → s'.net = .exited) : Basic login s' where
  idle := hidle
  current k hk := by rw [hf.opened]; exact h.current k (hf.socketFd k hk)
  holder w hw := by rw [hf.pending]; exact h.holder w (hf.writeMutex ▸ hw)
  progress w hw := h.progress w (hf.writeMutex ▸ hw)

theorem Basic.idle_next (h : Basic login s) (he : s.Enabled login l)
    (huser : (s.next login l).user = .idle) (hrun : (s.next login l).running = false) :
    (s.next login l).net = .exited := by
  have keep : l ≠ .start → s.user = .idle → s.running = false →
      (s.next login l).net = .exited :=
    fun hl huser hrun => next_of_exited h he hl (h.idle huser hrun)
  cases l with
  | start =>
    simp only [next, start] at huser hrun ⊢
    split
    · simp_all
    · simp_all
  | stop =>
    simp only [next, stop] at huser hrun
    split at huser
    · cases huser
    · rename_i hrunning
      exact keep nofun huser (by simpa using hrunning)
  | stopDisconnect => cases huser
  | join => exact he.2
  | lock t =>
    refine keep nofun ?_ ?_
    all_goals
      simp only [next, lock] at huser hrun
      split at huser <;> try split at huser
      all_goals simp_all
  | send n =>
    refine keep nofun ?_ ?_
    all_goals
      simp only [next, send] at huser hrun
      split at huser <;> try split at huser
      all_goals simp_all
  | sendError =>
    refine keep nofun ?_ ?_
    all_goals
      simp only [next, sendError] at huser hrun
      split at huser
      all_goals simp_all
  | line =>
    refine keep nofun ?_ ?_
    all_goals
      simp only [next] at huser hrun
      split at huser
      all_goals simp_all [handle]
  | _ => exact keep nofun huser hrun

theorem Basic.next (h : Basic login s) (he : s.Enabled login l) :
    Basic login (s.next login l) := by
  have hidle := h.idle_next he
  cases hl : l.sends with
  | false => exact h.of_frame (next_frame h he hl) hidle
  | true =>
    have hstep := next_sends he hl
    generalize s.next login l = s' at hidle hstep
    cases hstep with
    -- a worker that holds the mutex is in `sendLine` already, so that it is another one
    | submit i share hi =>
      refine ⟨hidle, h.current, fun w hw => ?_, h.progress⟩
      have hr := h.holder w hw
      cases ht : w.thread with
      | network => rw [ht] at hr; exact hr
      | worker j =>
        rw [ht] at hr
        have hne : j ≠ i := by
          rintro rfl
          simp [pending, hi] at hr
        simpa [pending, State.submit, Function.update_of_ne hne] using hr
    | refused t r hw hr hk => exact ⟨hidle, by simp [hk], by simp [hw], by simp [hw]⟩
    | locked t r k hw hr hk =>
      refine ⟨hidle, h.current, ?_, ?_⟩
      · rintro w ⟨⟩
        exact hr
      · rintro w ⟨⟩
        exact ⟨line_ne_nil r, by simp⟩
    | part w k n hw hk hn hlt =>
      refine ⟨hidle, h.current, ?_, ?_⟩
      · rintro w' ⟨⟩
        exact h.holder w hw
      · rintro w' ⟨⟩
        exact ⟨hlt, by simp; omega⟩
    | done w k n hw hk hn hend => exact ⟨hidle, by simpa using h.current, by simp, by simp⟩
    | error w hw =>
      exact ⟨hidle, by simpa [sendError] using h.current, by simp [sendError],
        by simp [sendError]⟩
    -- the new place gives the network thread a request, but it does not hold the mutex
    | connected hnet =>
      refine ⟨hidle, by simp [connected], fun w hw => ?_, h.progress⟩
      have hr := h.holder w hw
      cases ht : w.thread with
      | network => simp [ht, pending, hnet, State.handshake] at hr
      | worker j => rw [ht] at hr; exact hr

end State

open State in
/-- The basic invariants hold in every run. -/
theorem basic_of_reach {login : Login} {P : State → Label → Prop} {s : State}
    (h : (client login).Reach P s) : s.Basic login := by
  refine h.invariant ?_ fun s l hs he _ => hs.next he
  constructor <;> simp [client]

end CppMiner.Network
