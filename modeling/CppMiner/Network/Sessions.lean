-- SUMMARY: What the steps of the client do to its session: the network thread, the socket, and the lines handled.
import CppMiner.Network.Ids

/-!
# Sessions

What the receiving side of the client does is decided by four kinds of steps: a line
that is handled, a connection that is opened, a `disconnect`, and everything else
(`next_session`). The steps of the sending side move the network thread along the
handshake and leave the session alone (`next_keeps`).
-/

namespace CppMiner.Network

/-- How `sendLine` moves the network thread when it returns to it. -/
inductive Advance : NetPc → NetPc → Prop where
  | stays (net : NetPc) : Advance net net
  | subscribed : Advance .subscribing .authorizing
  | authorized : Advance .authorizing .inner
  | subscribeFails : Advance .subscribing .failed
  | authorizeFails : Advance .authorizing .failed

namespace NetPc

/-- Whether `connectOnce` has opened a connection and not failed on it. -/
def online : NetPc → Bool
  | .subscribing | .authorizing | .inner | .polling | .draining => true
  | _ => false

end NetPc

theorem Advance.online {net net' : NetPc} (h : Advance net net') (hnet : net'.online = true) :
    net.online = true := by
  cases h <;> first | exact hnet | rfl

/-- Lines are handled where they were, or not at all. -/
theorem Advance.eq_of_receiving {net net' : NetPc} (h : Advance net net')
    (hnet : net' = .polling ∨ net' = .draining) : net = net' := by
  cases h <;> simp_all

theorem Advance.of_draining {net net' : NetPc} (h : Advance net net') (hnet : net = .draining) :
    net' = .draining := by
  cases h <;> first | exact hnet | cases hnet

namespace State

variable {login : Login} {s s' : State} {l : Label}

/-! ## What every run keeps -/

/-- Handling a line takes the first one from the buffer. -/
theorem next_line (he : s.Enabled login .line) :
    ∃ line rest, s.net = .draining ∧ nextLine s.lineBuffer = some (line, rest) ∧
      s.next login .line = s.handle line rest := by
  obtain ⟨hnet, hline⟩ := he
  obtain ⟨⟨line, rest⟩, hline⟩ := Option.isSome_iff_exists.mp hline
  exact ⟨line, rest, hnet, hline, by simp only [State.next, hline]⟩

/-- What a step of the sending side that opens no connection leaves alone. -/
structure Keeps (s s' : State) : Prop where
  user : s'.user = s.user
  running : s'.running = s.running
  client : s'.client = s.client
  socketFd : s'.socketFd = s.socketFd
  opened : s'.opened = s.opened
  handled : s'.handled = s.handled
  callbacks : s'.callbacks = s.callbacks
  lineBuffer : s.net = .draining → s'.lineBuffer = s.lineBuffer
  net : Advance s.net s'.net

theorem advance_sendReturns {t : Thread} {r : Request} (hr : s.pending login t = some r)
    (ok : Bool) :
    Advance s.net (s.sendReturns t ok).net ∧
      (s.net = .draining → (s.sendReturns t ok).lineBuffer = s.lineBuffer) := by
  cases t with
  | worker i => exact ⟨.stays _, fun _ => rfl⟩
  | network =>
    rcases handshake_eq_some hr with ⟨hnet, -⟩ | ⟨hnet, -⟩ <;> cases ok <;>
      simp only [sendReturns, hnet] <;> exact ⟨by constructor, by simp⟩

theorem keeps_sendReturns {t : Thread} {r : Request} (hr : s.pending login t = some r)
    (ok : Bool) : Keeps s (s.sendReturns t ok) := by
  obtain ⟨hnet, hbuf⟩ := advance_sendReturns hr ok
  constructor
  case net => exact hnet
  case lineBuffer => exact hbuf
  all_goals simp

/-- However a write ended, what it did to the connections and the log is not the session's. -/
theorem keeps_released {t : Thread} {r : Request} (hr : s.pending login t = some r) (ok : Bool)
    (conns : ℕ → Conn) (sent : List Request) :
    Keeps s ({ s with conns := conns, writeMutex := none, sent := sent }.sendReturns t ok) := by
  have hkeeps := keeps_sendReturns (s := { s with
    conns := conns, writeMutex := none, sent := sent }) hr ok
  exact { hkeeps with }

theorem SendStep.keeps (hb : s.Basic login) (h : SendStep login s l s')
    (hl : l ≠ .connected) : Keeps s s' := by
  cases h with
  | connected hnet => exact absurd rfl hl
  | submit i share hi => exact ⟨rfl, rfl, rfl, rfl, rfl, rfl, rfl, fun _ => rfl, .stays _⟩
  | locked t r k hw hr hk => exact ⟨rfl, rfl, rfl, rfl, rfl, rfl, rfl, fun _ => rfl, .stays _⟩
  | part w k n hw hk hn hlt =>
    exact ⟨rfl, rfl, rfl, rfl, rfl, rfl, rfl, fun _ => rfl, .stays _⟩
  | refused t r hw hr hk => exact keeps_sendReturns hr false
  | done w k n hw hk hn hend => exact keeps_released (hb.holder w hw) true _ _
  | error w hw => exact keeps_released (hb.holder w hw) false _ s.sent

/-- A step of the sending side opens a connection, or leaves the session alone. -/
theorem next_keeps (hb : s.Basic login) (he : s.Enabled login l) (hl : l.sends = true) :
    (l = .connected ∧ s.net = .connecting) ∨ (l ≠ .connected ∧ Keeps s (s.next login l)) := by
  by_cases hc : l = .connected
  · subst hc
    exact .inl ⟨rfl, he⟩
  · exact .inr ⟨hc, (next_sends he hl).keeps hb hc⟩

/-- Where the threads are in every run, and which connections were opened. -/
structure Orderly (s : State) : Prop where
  halted : s.user ≠ .idle → s.running = false
  /-- After the `disconnect` of `stop` nothing is received. -/
  closed : s.user = .joining → s.net = .polling ∨ s.net = .draining → s.socketFd = none
  opened : s.net.online = true → 0 < s.opened
  handled : ∀ h ∈ s.handled, h.1 < s.opened
  callbacks : ∀ c ∈ s.callbacks, c.1 < s.opened

theorem Orderly.of_keeps (h : s.Orderly) (hk : Keeps s s') : s'.Orderly where
  halted := by rw [hk.user, hk.running]; exact h.halted
  closed huser hnet := by
    rw [hk.socketFd]
    refine h.closed (hk.user ▸ huser) ?_
    rwa [hk.net.eq_of_receiving hnet]
  opened hnet := by rw [hk.opened]; exact h.opened (hk.net.online hnet)
  handled := by rw [hk.handled, hk.opened]; exact h.handled
  callbacks := by rw [hk.callbacks, hk.opened]; exact h.callbacks

theorem Orderly.connected (h : s.Orderly) : s.connected.Orderly where
  halted := h.halted
  closed _ hnet := by simp [State.connected] at hnet
  opened _ := Nat.succ_pos _
  handled p hp := Nat.lt_succ_of_lt (h.handled p hp)
  callbacks c hc := Nat.lt_succ_of_lt (h.callbacks c hc)

/-- A line is handled on the connection that was opened last. -/
theorem Orderly.handle (h : s.Orderly) (hnet : s.net = .draining) (line rest : Bytes) :
    (s.handle line rest).Orderly := by
  have hopened := h.opened (by rw [hnet]; rfl)
  have hconnection : s.connection < s.opened := by
    rw [connection]
    omega
  refine ⟨h.halted, h.closed, h.opened, ?_, ?_⟩
  · intro p hp
    rcases List.mem_append.mp hp with hp | hp
    · exact h.handled p hp
    · rw [List.mem_singleton.mp hp]
      exact hconnection
  · intro c hc
    rcases List.mem_append.mp hc with hc | hc
    · exact h.callbacks c hc
    · obtain ⟨e, -, rfl⟩ := List.mem_map.mp hc
      exact hconnection

/-- A step of the network thread that opens nothing and handles nothing. -/
theorem Orderly.of_net (h : s.Orderly)
    (hs : s'.user = s.user ∧ s'.running = s.running ∧ s'.opened = s.opened ∧
      s'.handled = s.handled ∧ s'.callbacks = s.callbacks)
    (hclosed : s.user = .joining → s'.net = .polling ∨ s'.net = .draining → s'.socketFd = none)
    (honline : s'.net.online = true → s.net.online = true) : s'.Orderly := by
  obtain ⟨huser, hrunning, hopened, hhandled, hcallbacks⟩ := hs
  refine ⟨?_, fun hjoin => hclosed (huser ▸ hjoin), ?_, ?_, ?_⟩
  · rw [huser, hrunning]
    exact h.halted
  · rw [hopened]
    exact fun hnet => h.opened (honline hnet)
  · rw [hhandled, hopened]
    exact h.handled
  · rw [hcallbacks, hopened]
    exact h.callbacks

theorem Orderly.next (hb : s.Basic login) (h : s.Orderly) (he : s.Enabled login l) :
    (s.next login l).Orderly := by
  cases hsends : l.sends with
  | true =>
    -- of the sending side only `connected` touches the connection
    rcases next_keeps hb he hsends with ⟨rfl, -⟩ | ⟨-, hk⟩
    · exact h.connected
    · exact h.of_keeps hk
  | false =>
    cases l with
    | submit i share => cases hsends
    | lock t => cases hsends
    | send n => cases hsends
    | sendError => cases hsends
    | connected => cases hsends
    | line =>
      obtain ⟨line, rest, hnet, -, hs⟩ := next_line he
      rw [hs]
      exact h.handle hnet line rest
    | start =>
      simp only [State.next, start]
      split
      · exact h
      · exact ⟨fun huser => absurd he huser, by simp, by simp [NetPc.online], h.handled,
          h.callbacks⟩
    | stop =>
      simp only [State.next, stop]
      split
      · exact ⟨fun _ => rfl, by simp, h.opened, h.handled, h.callbacks⟩
      · exact h
    -- from here to the return of `stop` the socket is closed where lines are received
    | stopDisconnect =>
      have huser : s.user = .stopping := he
      exact ⟨fun _ => h.halted (by simp [huser]), fun _ _ => rfl, h.opened, h.handled,
        h.callbacks⟩
    | join =>
      exact ⟨fun huser => absurd rfl huser, by simp [State.next], h.opened, h.handled,
        h.callbacks⟩
    -- the test of `running_` keeps a stopped thread from polling again
    | checkInner =>
      have hhalted := h.halted
      refine h.of_net ⟨rfl, rfl, rfl, rfl, rfl⟩ ?_ ?_
      · intro huser hnet
        simp [State.next, hhalted (by simp [huser])] at hnet
      · rw [show s.net = .inner from he]
        exact fun _ => rfl
    | recv chunk =>
      refine h.of_net ⟨rfl, rfl, rfl, rfl, rfl⟩ ?_ fun _ => by rw [he.1]; rfl
      exact fun huser _ => h.closed huser (.inl he.1)
    | timeout =>
      exact h.of_net ⟨rfl, rfl, rfl, rfl, rfl⟩ (by simp [State.next])
        fun _ => by rw [show s.net = .polling from he]; rfl
    | drained =>
      exact h.of_net ⟨rfl, rfl, rfl, rfl, rfl⟩ (by simp [State.next]) fun _ => by rw [he.1]; rfl
    | checkOuter =>
      refine h.of_net ⟨rfl, rfl, rfl, rfl, rfl⟩ ?_ ?_ <;> simp only [State.next] <;> split <;>
        simp [NetPc.online]
    | checkLost =>
      refine h.of_net ⟨rfl, rfl, rfl, rfl, rfl⟩ ?_ ?_ <;> simp only [State.next] <;> split <;>
        simp [NetPc.online]
    | _ =>
      exact h.of_net ⟨rfl, rfl, rfl, rfl, rfl⟩ (by simp [State.next])
        (by simp [State.next, NetPc.online])

/-- What a step does to the client, its socket and the lines and callbacks so far. -/
inductive SessionStep (s s' : State) : Label → Prop where
  | line (line rest : Bytes) (hnet : s.net = .draining)
    (hline : nextLine s.lineBuffer = some (line, rest)) (hs : s' = s.handle line rest) :
    SessionStep s s' .line
  | connected (hnet : s.net = .connecting) (hs : s' = s.connected) : SessionStep s s' .connected
  | disconnected (l : Label) (hclient : s'.client = { s.client with authorized := false })
    (hsocket : s'.socketFd = none) (hopened : s'.opened = s.opened)
    (hhandled : s'.handled = s.handled) (hcallbacks : s'.callbacks = s.callbacks) :
    SessionStep s s' l
  | stands (l : Label) (hclient : s'.client = s.client) (hsocket : s'.socketFd = s.socketFd)
    (hopened : s'.opened = s.opened) (hhandled : s'.handled = s.handled)
    (hcallbacks : s'.callbacks = s.callbacks) : SessionStep s s' l

theorem next_session (hb : s.Basic login) (he : s.Enabled login l) :
    SessionStep s (s.next login l) l := by
  cases hsends : l.sends with
  | true =>
    rcases next_keeps hb he hsends with ⟨rfl, hnet⟩ | ⟨-, hk⟩
    · exact .connected hnet rfl
    · exact .stands l hk.client hk.socketFd hk.opened hk.handled hk.callbacks
  | false =>
    cases l with
    | submit i share => cases hsends
    | lock t => cases hsends
    | send n => cases hsends
    | sendError => cases hsends
    | connected => cases hsends
    | line =>
      obtain ⟨line, rest, hnet, hline, hs⟩ := next_line he
      exact .line line rest hnet hline hs
    | start =>
      simp only [State.next, start]
      split <;> exact .stands _ rfl rfl rfl rfl rfl
    | stop =>
      simp only [State.next, stop]
      split <;> exact .stands _ rfl rfl rfl rfl rfl
    | stopDisconnect => exact .disconnected _ rfl rfl rfl rfl rfl
    | reconnect => exact .disconnected _ rfl rfl rfl rfl rfl
    | drop => exact .disconnected _ rfl rfl rfl rfl rfl
    | _ => exact .stands _ rfl rfl rfl rfl rfl

/-- A line with some property was handled on connection `k`. -/
def Answered (s : State) (k : ℕ) (p : Bytes → Bool) : Prop := ∃ h ∈ s.handled, h.1 = k ∧ p h.2

instance (s : State) (k : ℕ) (p : Bytes → Bool) : Decidable (s.Answered k p) :=
  inferInstanceAs (Decidable (∃ h ∈ s.handled, h.1 = k ∧ p h.2))

theorem Answered.mono {k : ℕ} {p : Bytes → Bool} (h : s.Answered k p)
    (hsub : ∀ x ∈ s.handled, x ∈ s'.handled) : s'.Answered k p := by
  obtain ⟨x, hx, hk, hp⟩ := h
  exact ⟨x, hsub x hx, hk, hp⟩

/-- A line that is handled is an answer on its connection. -/
theorem answered_of_handle {line : Bytes} (rest : Bytes) {p : Bytes → Bool} (hp : p line) :
    (s.handle line rest).Answered s.connection p :=
  ⟨(s.connection, line), List.mem_append_right _ (List.mem_singleton_self _), rfl, hp⟩

/-! ## Which requests are written -/

/-- Only a submit gives a worker a request. -/
theorem waiting_next (hb : s.Basic login) (he : s.Enabled login l)
    (hl : ∀ i share, l ≠ .submit i share) {i : ℕ} {r : Request}
    (h : Waiting login (s.next login l) (.worker i) r) : Waiting login s (.worker i) r := by
  cases hsends : l.sends with
  | false =>
    have hf := next_frame hb he hsends
    exact ⟨hf.pending (.worker i) ▸ h.1, fun w hw => h.2 w (hf.writeMutex ▸ hw)⟩
  | true =>
    have hstep := next_sends he hsends
    generalize s.next login l = s' at h hstep
    obtain ⟨hr, hmutex⟩ := h
    -- A thread whose `sendLine` returns is in none.
    have hreturns : ∀ (s₁ : State) (t : Thread) (ok : Bool),
        (s₁.sendReturns t ok).pending login (.worker i) = some r →
        .worker i ≠ t ∧ s₁.pending login (.worker i) = some r := by
      intro s₁ t ok hpending
      by_cases ht : .worker i = t
      · subst ht
        simp [sendReturns, pending] at hpending
      · rw [pending_sendReturns_of_ne ht] at hpending
        exact ⟨ht, hpending⟩
    cases hstep with
    | submit j share hj => exact absurd rfl (hl j share)
    | refused t r' hw hr' hk => exact ⟨(hreturns s t false hr).2, by simp [hw]⟩
    | locked t r' k hw hr' hk => exact ⟨hr, by simp [hw]⟩
    | part w k n hw hk hn hlt =>
      refine ⟨hr, fun w' hw' ht => ?_⟩
      obtain rfl : w = w' := Option.some.inj (hw.symm.trans hw')
      have hzero := hmutex _ rfl ht
      simp only at hzero
      omega
    | done w k n hw hk hn hend =>
      obtain ⟨hne, hr⟩ := hreturns _ _ _ hr
      exact waiting_of_ne_holder hw hne hr
    | error w hw =>
      obtain ⟨hne, hr⟩ := hreturns _ _ _ hr
      exact waiting_of_ne_holder hw hne hr
    | connected hnet => exact ⟨hr, hmutex⟩

theorem workers_next (hb : s.Basic login) (he : s.Enabled login l)
    (hl : ∀ i share, l ≠ .submit i share) {i : ℕ} {r : Request}
    (h : (s.next login l).workers i = some r) : s.workers i = some r := by
  cases hsends : l.sends with
  | false => exact (next_frame hb he hsends).workers ▸ h
  | true =>
    have hstep := next_sends he hsends
    generalize s.next login l = s' at h hstep
    cases hstep with
    | submit j share hj => exact absurd rfl (hl j share)
    | refused t r' hw hr' hk => exact workers_sendReturns h
    | done w k n hw hk hn hend =>
      have hworkers := workers_sendReturns h
      exact hworkers
    | error w hw =>
      rw [State.sendError] at h
      have hworkers := workers_sendReturns h
      exact hworkers
    | _ => exact h

/-- A request is begun on the open connection, by the thread that waits with it. -/
theorem requests_next (hb : s.Basic login) (he : s.Enabled login l) {k : ℕ} {r : Request}
    (h : r ∈ ((s.next login l).conns k).requests) :
    r ∈ (s.conns k).requests ∨ s.socketFd = some k ∧ ∃ t, Waiting login s t r := by
  cases hsends : l.sends with
  | false =>
    rw [(next_frame hb he hsends).conns] at h
    exact .inl h
  | true =>
    have hstep := next_sends he hsends
    generalize s.next login l = s' at h hstep
    have hwritten : ∀ (w : Writer) (k' n : ℕ), s.writeMutex = some w → s.socketFd = some k' →
        r ∈ (Function.update s.conns k' (written (s.conns k') w n) k).requests →
        r ∈ (s.conns k).requests ∨ s.socketFd = some k ∧ ∃ t, Waiting login s t r := by
      intro w k' n hw hk' hr
      rcases mem_requests_update.mp hr with hr | ⟨rfl, hsent, rfl⟩
      · exact .inl hr
      · exact .inr ⟨hk', w.thread, waiting_of_holder hb hw hsent⟩
    cases hstep with
    | refused t r' hw hr' hk => exact .inl (by simpa using h)
    | part w k' n hw hk' hn hlt => exact hwritten w k' n hw hk' h
    | done w k' n hw hk' hn hend => exact hwritten w k' n hw hk' (by simpa using h)
    | error w hw =>
      refine .inl ?_
      cases hhead : w.head with
      | none => simpa [State.sendError, hhead] using h
      | some k' =>
        simp only [State.sendError, hhead, sendReturns_frame] at h
        by_cases hk : k = k'
        · subst hk
          rwa [Function.update_self] at h
        · rwa [Function.update_of_ne hk] at h
    | _ => exact .inl h

/-- Only `connected` opens a socket. -/
theorem socketFd_next (hb : s.Basic login) (he : s.Enabled login l) (hl : l ≠ .connected) {k : ℕ}
    (h : (s.next login l).socketFd = some k) : s.socketFd = some k := by
  have hstep := next_session hb he
  generalize s.next login l = s' at h hstep
  cases hstep with
  | line line rest hnet hline hs => rwa [hs] at h
  | connected hnet hs => exact absurd rfl hl
  | disconnected l hclient hsocket hopened hhandled hcallbacks =>
    rw [hsocket] at h
    cases h
  | stands l hclient hsocket hopened hhandled hcallbacks => rwa [hsocket] at h

end State

theorem orderly_of_reach {login : Login} {P : State → Label → Prop} {s : State}
    (h : (client login).Reach P s) : s.Orderly := by
  refine h.invariant_of (fun _ => basic_of_reach) ?_ fun _ _ hb ho he _ => ho.next hb he
  constructor <;> simp [client, NetPc.online]

/-- An answer to `mining.subscribe`. -/
def subscribedLine : Bytes := bytes "\x7b\"id\":1,\"result\":[[],\"aabb\",4]\x7d"

/-- An answer to `mining.authorize`. -/
def authorizedLine : Bytes := bytes "\x7b\"id\":2,\"result\":true\x7d"

end CppMiner.Network
