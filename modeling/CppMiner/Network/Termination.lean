-- SUMMARY: After `stop` the network thread comes to its end in a bounded number of steps, and nothing it waits for is stuck.
import CppMiner.Lib.Potential
import CppMiner.Network.Sessions

/-!
# Termination of the client

`stop` clears `running_`, disconnects and joins the network thread, which may be anywhere
in `runLoop` then. The thread does not turn round any of its loops again, but for that
over the lines it has received: what it can still do is bounded by the two requests of
the handshake or by the newlines of one `recv` (`shutdownBound`). While `stop` has not
returned, a thread it waits for can take a step (`stop_returns`).
-/

namespace CppMiner.Network

namespace State

variable {login : Login} {s s' : State} {l : Label}

/-! ## Whose step it is -/

/-- The steps that are those of thread `t`. -/
def takes (s : State) (t : Thread) : Label → Bool
  | .submit i _ => t = .worker i
  | .lock u => u = t
  | .send _ | .sendError => s.writeMutex.any (·.thread = t)
  | .start | .stop | .stopDisconnect | .join => false
  | .checkOuter | .connectFails | .connected | .reconnect | .checkInner | .timeout
  | .connectionLost | .recv _ | .line | .drained | .checkLost | .drop | .waited => t = .network

/-- The steps that a call of `stop` waits for: its own, those of the network thread, and
those of the `sendLine` that keeps it from `writeMutex_`. -/
def Awaited (s : State) : Label → Prop
  | .stopDisconnect | .join | .send _ | .sendError => True
  | l => s.takes .network l = true

/-! ## What a thread has to send -/

/-- How many steps a thread that is in `sendLine` with `r` can take there: one for the
mutex, and at most one for each byte that is left. -/
def toSend (s : State) (t : Thread) (r : Request) : ℕ :=
  match s.writeMutex with
  | some w => if w.thread = t then r.line.length - w.sent else r.line.length + 1
  | none => r.line.length + 1

theorem toSend_of_eq (h : s'.writeMutex = s.writeMutex) (t : Thread) (r : Request) :
    s'.toSend t r = s.toSend t r := by
  rw [toSend, toSend, h]

theorem toSend_le_length (s : State) (t : Thread) (r : Request) :
    s.toSend t r ≤ r.line.length + 1 := by
  unfold toSend
  split
  · split <;> omega
  · rfl

/-- A thread that is in `sendLine` has a step left to take there. -/
theorem Basic.toSend_pos (hb : s.Basic login) {t : Thread} {r : Request}
    (hr : s.pending login t = some r) : 0 < s.toSend t r := by
  unfold toSend
  split
  · rename_i w hw
    split
    · rename_i ht
      subst ht
      rw [hb.holder w hw, Option.some.injEq] at hr
      subst hr
      have hlt := (hb.progress w hw).1
      omega
    · exact Nat.succ_pos _
  · exact Nat.succ_pos _

/-- A thread that is about to call `sendLine` does not hold the mutex. -/
theorem Basic.not_holder (hb : s.Basic login) {t : Thread} (h : s.pending login t = none) :
    ∀ w, s.writeMutex = some w → w.thread ≠ t := by
  rintro w hw rfl
  rw [hb.holder w hw] at h
  cases h

/-- What a step on the mutex leaves its thread to send, and the others. -/
theorem SendStep.toSend_le (hb : s.Basic login) (h : SendStep login s l s')
    (hl : l ≠ .connected) (t : Thread) {r : Request} (hr : s'.pending login t = some r)
    (hold : s.pending login t = some r) :
    (s.takes t l).toNat + s'.toSend t r ≤ s.toSend t r := by
  cases h with
  | connected hnet => exact absurd rfl hl
  | submit i share hi =>
    have ht : t ≠ .worker i := by
      rintro rfl
      rw [pending, hi] at hold
      cases hold
    simp [takes, ht, toSend, State.submit]
  | refused u q hw hq hk =>
    have ht : t ≠ u := by
      rintro rfl
      rw [pending_sendReturns_false] at hr
      cases hr
    simp [takes, ht.symm, toSend]
  | locked u q k hw hq hk =>
    by_cases ht : u = t
    · simp [takes, toSend, hw, ht, Nat.add_comm]
    · simp [takes, toSend, hw, ht]
  -- one byte at least is written of a line, and no thread writes but the one with the mutex
  | part w k n hw hk hn hlt =>
    by_cases ht : w.thread = t
    · subst ht
      rw [hb.holder w hw, Option.some.injEq] at hold
      subst hold
      simp only [takes, toSend, hw, Option.any_some, decide_true, Bool.toNat_true, if_true]
      omega
    · simp [takes, toSend, hw, ht]
  | done w k n hw hk hn hend =>
    by_cases ht : w.thread = t
    · subst ht
      obtain ⟨hthread, hnet, rfl⟩ := pending_sendReturns_true hr
      rw [hthread] at hold
      simp [pending, show s.net = .subscribing from hnet, handshake, subscribeRequest,
        authorizeRequest] at hold
    · simp [takes, toSend, hw, ht]
  | error w hw =>
    by_cases ht : w.thread = t
    · subst ht
      rw [State.sendError, pending_sendReturns_false] at hr
      cases hr
    · simp [takes, toSend, hw, ht, State.sendError]

/-! ## How far the network thread is from its end -/

/-- The most that the network thread can still do once `running_` is cleared. -/
def shutdownSteps (login : Login) (s : State) : ℕ :=
  match s.net with
  | .exited => 0
  | .outer | .lost => 1
  | .inner | .waiting => 2
  | .failed | .dropping => 3
  | .draining => s.lineBuffer.count newline + 3
  | .polling => 4096 + 4
  | .authorizing => s.toSend .network (authorizeRequest login) + 3
  | .subscribing =>
    s.toSend .network subscribeRequest + (authorizeRequest login).line.length + 5
  | .connecting => subscribeRequest.line.length + (authorizeRequest login).line.length + 7

/-- The lines in the buffer are those of the last chunk. -/
def LinesBounded (s : State) : Prop :=
  s.lineBuffer.count newline ≤ if s.net = .draining then 4096 else 0

theorem linesBounded_sendReturns (h : s.LinesBounded) {t : Thread} {r : Request}
    (hr : s.pending login t = some r) (ok : Bool) : (s.sendReturns t ok).LinesBounded := by
  cases t with
  | worker i => exact h
  | network =>
    rcases handshake_eq_some hr with ⟨hnet, -⟩ | ⟨hnet, -⟩ <;>
      simp only [LinesBounded, hnet] at h <;> cases ok <;>
      simp_all [LinesBounded, sendReturns]

theorem LinesBounded.of_sends (hb : s.Basic login) (h : s.LinesBounded)
    (hstep : SendStep login s l s') : s'.LinesBounded := by
  cases hstep with
  | submit i share hi => exact h
  | refused t r hw hr hk => exact linesBounded_sendReturns h hr false
  | locked t r k hw hr hk => exact h
  | part w k n hw hk hn hlt => exact h
  | done w k n hw hk hn hend =>
    exact linesBounded_sendReturns (s := { s with
      conns := _, writeMutex := none, sent := _ }) h (hb.holder w hw) true
  | error w hw =>
    exact linesBounded_sendReturns (s := { s with conns := _, writeMutex := none }) h
      (hb.holder w hw) false
  | connected hnet => simpa [LinesBounded, hnet, State.connected] using h

theorem LinesBounded.next (hb : s.Basic login) (h : s.LinesBounded) (he : s.Enabled login l) :
    (s.next login l).LinesBounded := by
  cases hsends : l.sends with
  | true => exact h.of_sends hb (next_sends he hsends)
  | false =>
    unfold LinesBounded at h ⊢
    cases l with
    | submit i share => cases hsends
    | lock t => cases hsends
    | send n => cases hsends
    | sendError => cases hsends
    | connected => cases hsends
    -- the buffer had no complete line, and a chunk has at most one for each of its bytes
    | recv chunk =>
      obtain ⟨hnet, -, -, hchunk⟩ := he
      have hcount := List.count_le_length (a := newline) (l := chunk)
      simp only [hnet, reduceCtorEq, if_false] at h
      simp only [State.next, if_true, List.count_append]
      omega
    | line =>
      obtain ⟨line, rest, hnet, hline, hs⟩ := next_line he
      obtain ⟨hbuf, -⟩ := nextLine_eq_some.mp hline
      have hnet' : (s.handle line rest).net = .draining := hnet
      simp only [hnet, if_true, hbuf, List.count_append, List.count_cons_self] at h
      simp only [hs, hnet', if_true]
      simp only [State.handle]
      omega
    | drained =>
      obtain ⟨hnet, hline⟩ := he
      have hnone := nextLine_eq_none.mp (Option.isNone_iff_eq_none.mp hline)
      simp [State.next, List.count_eq_zero_of_not_mem hnone]
    | start =>
      simp only [State.next, start]
      split
      · exact h
      · rename_i hrun
        have hnet := hb.idle he (by simpa using hrun)
        simpa [hnet] using h
    | stop =>
      simp only [State.next, stop]
      split <;> exact h
    | stopDisconnect => exact h
    | join => exact h
    | checkOuter =>
      simp only [Enabled] at he
      simp only [he, reduceCtorEq, if_false] at h
      simp only [State.next]
      split <;> simpa using h
    | checkInner =>
      simp only [Enabled] at he
      simp only [he, reduceCtorEq, if_false] at h
      simp only [State.next]
      split <;> simpa using h
    | checkLost =>
      simp only [Enabled] at he
      simp only [he, reduceCtorEq, if_false] at h
      simp only [State.next]
      split <;> simpa using h
    | _ =>
      simp only [Enabled] at he
      simpa [State.next, disconnect, he] using h

/-! ## The steps are paid for -/

/-- A thread that is in no `sendLine` takes no step there. -/
theorem SendStep.takes_eq_false (hb : s.Basic login) (h : SendStep login s l s')
    (hl : l ≠ .connected) {t : Thread} (hnone : s.pending login t = none)
    (hsubmit : ∀ i share, l = .submit i share → t ≠ .worker i) : s.takes t l = false := by
  have hother : ∀ {u : Thread} {r : Request}, s.pending login u = some r → u ≠ t := by
    rintro u r hr rfl
    rw [hr] at hnone
    cases hnone
  cases h with
  | connected hc => exact absurd rfl hl
  | submit i share hi => simp [takes, hsubmit i share rfl]
  | refused u r hw hr hk => simp [takes, hother hr]
  | locked u r k hw hr hk => simp [takes, hother hr]
  | part w k n hw hk hn hlt => simp [takes, hw, hb.not_holder hnone w hw]
  | done w k n hw hk hn hend => simp [takes, hw, hb.not_holder hnone w hw]
  | error w hw => simp [takes, hw, hb.not_holder hnone w hw]

theorem SendStep.shutdownSteps_le (hb : s.Basic login) (h : SendStep login s l s')
    (hl : l ≠ .connected) :
    (s.takes .network l).toNat + s'.shutdownSteps login ≤ s.shutdownSteps login := by
  have hk := h.keeps hb hl
  have htakes := Bool.toNat_le (s.takes .network l)
  have hbuf := hk.lineBuffer
  have hstay : ∀ r, handshake login s'.net = some r → handshake login s.net = some r →
      (s.takes .network l).toNat + s'.toSend .network r ≤ s.toSend .network r :=
    fun r hr hold => h.toSend_le hb hl .network hr hold
  have hpos : ∀ r, handshake login s.net = some r → 0 < s.toSend .network r :=
    fun r hr => hb.toSend_pos hr
  have hnone : handshake login s.net = none → (s.takes .network l).toNat = 0 := by
    intro hnet
    have hnone : s.pending login .network = none := hnet
    rw [h.takes_eq_false hb hl hnone (by simp), Bool.toNat_false]
  have hauthorize := s'.toSend_le_length .network (authorizeRequest login)
  have hnet := hk.net
  generalize hold : s.net = net at hnet hstay hpos hnone hbuf
  generalize hnew : s'.net = net' at hnet hstay
  -- where the handshake stays, the writing pays; where it moves on, the line that is done does
  cases hnet with
  | stays =>
    cases net with
    | subscribing =>
      have hstay := hstay _ rfl rfl
      simp only [shutdownSteps, hold, hnew]
      omega
    | authorizing =>
      have hstay := hstay _ rfl rfl
      simp only [shutdownSteps, hold, hnew]
      omega
    | draining => simp only [shutdownSteps, hold, hnew, hnone rfl, hbuf rfl, Nat.zero_add, le_refl]
    | _ => simp only [shutdownSteps, hold, hnew, hnone rfl, Nat.zero_add, le_refl]
  | subscribed =>
    have hpos := hpos _ rfl
    simp only [shutdownSteps, hold, hnew]
    omega
  | authorized =>
    have hpos := hpos _ rfl
    simp only [shutdownSteps, hold, hnew]
    omega
  | subscribeFails =>
    have hpos := hpos _ rfl
    simp only [shutdownSteps, hold, hnew]
    omega
  | authorizeFails =>
    have hpos := hpos _ rfl
    simp only [shutdownSteps, hold, hnew]
    omega

/-- Once `running_` is cleared, the network thread only gets nearer to its end. -/
theorem shutdownSteps_next (hb : s.Basic login) (hlines : s.LinesBounded)
    (hrun : s.running = false) (he : s.Enabled login l) (hl : l ≠ .start) :
    (s.takes .network l).toNat + (s.next login l).shutdownSteps login ≤
      s.shutdownSteps login := by
  -- a socket that opens late brings the handshake with it, which the count has allowed for
  by_cases hc : l = .connected
  · subst hc
    have hnet : s.net = .connecting := he
    have hsubscribe := s.connected.toSend_le_length .network subscribeRequest
    have hnet' : s.connected.net = .subscribing := rfl
    simp only [State.next, shutdownSteps, hnet, hnet', takes, decide_true, Bool.toNat_true]
    omega
  cases hsends : l.sends with
  | true => exact (next_sends he hsends).shutdownSteps_le hb hc
  | false =>
    cases l with
    | submit i share => cases hsends
    | lock t => cases hsends
    | send n => cases hsends
    | sendError => cases hsends
    | connected => cases hsends
    | start => exact absurd rfl hl
    | stop => simp [takes, State.next, stop, hrun]
    | stopDisconnect =>
      have htoSend : ∀ r, State.toSend { s.disconnect with user := .joining } .network r =
          s.toSend .network r := toSend_of_eq rfl _
      simp only [takes, State.next, shutdownSteps, htoSend, Bool.toNat_false, Nat.zero_add]
      exact le_refl _
    | join =>
      simp only [takes, State.next, Bool.toNat_false, Nat.zero_add]
      exact le_refl _
    | recv chunk =>
      obtain ⟨hnet, -, -, hchunk⟩ := he
      have hcount := List.count_le_length (a := newline) (l := chunk)
      simp only [LinesBounded, hnet, reduceCtorEq, if_false] at hlines
      simp only [State.next, shutdownSteps, hnet, takes, decide_true, Bool.toNat_true,
        List.count_append]
      omega
    | line =>
      obtain ⟨line, rest, hnet, hline, hs⟩ := next_line he
      obtain ⟨hbuf, -⟩ := nextLine_eq_some.mp hline
      have hnet' : (s.handle line rest).net = .draining := hnet
      have hbuf' : (s.handle line rest).lineBuffer = rest := rfl
      simp only [hs, shutdownSteps, hnet, hnet', hbuf, hbuf', takes, decide_true,
        Bool.toNat_true, List.count_append, List.count_cons_self]
      omega
    | drained =>
      simp only [State.next, shutdownSteps, he.1, takes, decide_true, Bool.toNat_true]
      omega
    -- with `running_` cleared every test leads on to the end
    | _ =>
      simp only [Enabled] at he
      simp [State.next, shutdownSteps, disconnect, he, hrun, takes]

/-! ## Nothing is stuck -/

/-- While `stop` has not returned, it or a thread it waits for can take a step. -/
theorem exists_awaited (huser : s.user ≠ .idle) :
    ∃ l, s.Enabled login l ∧ s.Awaited l := by
  cases hu : s.user with
  | idle => exact absurd hu huser
  | stopping => exact ⟨.stopDisconnect, hu, trivial⟩
  | joining =>
    -- the mutex is free, or its holder is in a `send`, which can fail
    have hsend : ∀ r, s.pending login .network = some r →
        ∃ l, s.Enabled login l ∧ s.Awaited l := by
      intro r hr
      cases hw : s.writeMutex with
      | none =>
        exact ⟨.lock .network, ⟨by rw [hw]; rfl, by rw [hr]; rfl⟩, by simp [Awaited, takes]⟩
      | some w => exact ⟨.sendError, by simp [Enabled, hw], trivial⟩
    cases hnet : s.net with
    | exited => exact ⟨.join, ⟨hu, hnet⟩, trivial⟩
    | outer => exact ⟨.checkOuter, hnet, by simp [Awaited, takes]⟩
    | connecting => exact ⟨.connectFails, hnet, by simp [Awaited, takes]⟩
    | subscribing => exact hsend subscribeRequest (by simp [pending, hnet, handshake])
    | authorizing => exact hsend (authorizeRequest login) (by simp [pending, hnet, handshake])
    | failed => exact ⟨.reconnect, hnet, by simp [Awaited, takes]⟩
    | inner => exact ⟨.checkInner, hnet, by simp [Awaited, takes]⟩
    | polling => exact ⟨.timeout, hnet, by simp [Awaited, takes]⟩
    | draining =>
      cases hline : nextLine s.lineBuffer with
      | none => exact ⟨.drained, ⟨hnet, by rw [hline]; rfl⟩, by simp [Awaited, takes]⟩
      | some p => exact ⟨.line, ⟨hnet, by rw [hline]; rfl⟩, by simp [Awaited, takes]⟩
    | lost => exact ⟨.checkLost, hnet, by simp [Awaited, takes]⟩
    | dropping => exact ⟨.drop, hnet, by simp [Awaited, takes]⟩
    | waiting => exact ⟨.waited, hnet, by simp [Awaited, takes]⟩

end State

theorem linesBounded_of_reach {login : Login} {P : State → Label → Prop} {s : State}
    (h : (client login).Reach P s) : s.LinesBounded :=
  h.invariant_of (fun _ => basic_of_reach) (by simp [State.LinesBounded, client])
    fun _ _ hb hl he _ => hl.next hb he

/-- The most steps of the network thread after a `stop`: from a `recv` that brings 4096
empty lines, or from a connection that is opened late. -/
def shutdownBound (login : Login) : ℕ :=
  max (4096 + 4) (subscribeRequest.line.length + (authorizeRequest login).line.length + 7)

theorem State.LinesBounded.shutdownSteps_le {login : Login} {s : State} (h : s.LinesBounded) :
    s.shutdownSteps login ≤ shutdownBound login := by
  have hsubscribe := s.toSend_le_length .network subscribeRequest
  have hauthorize := s.toSend_le_length .network (authorizeRequest login)
  unfold State.shutdownSteps shutdownBound
  unfold State.LinesBounded at h
  cases hnet : s.net <;> simp only [hnet, if_true] at h <;> simp only <;> omega

/-- `stop` returns: while it has not, the network thread takes no more than
`shutdownBound login` steps, and there is always a step that `stop` waits for and that
can be taken. -/
theorem stop_returns {login : Login} {s : State} (h : (client login).Reachable s)
    {run : List Label} (hrun : (client login).Valid (fun s _ => s.user ≠ .idle) s run) :
    (client login).count (State.takes · .network) s run ≤ shutdownBound login ∧
      (((client login).exec s run).user ≠ .idle →
        ∃ l, (client login).Enabled ((client login).exec s run) l ∧
          ((client login).exec s run).Awaited l) := by
  have hpotential : (client login).Potential (fun s _ => s.user ≠ .idle)
      (State.takes · .network) (fun _ _ => 0) (State.shutdownSteps login) := by
    intro s l hs he huser
    refine State.shutdownSteps_next (basic_of_reach hs) (linesBounded_of_reach hs)
      ((orderly_of_reach hs).halted huser) he ?_
    rintro rfl
    exact huser he
  have hcount := hpotential.count_le h hrun
  rw [TransitionSystem.total_zero] at hcount
  have hbound : s.shutdownSteps login ≤ shutdownBound login :=
    (linesBounded_of_reach h).shutdownSteps_le
  exact ⟨by omega, State.exists_awaited⟩

/-- A `stop` that comes while two lines are in the buffer. -/
theorem stop_returns_draining :
    let login : Login := ⟨bytes "wallet", bytes "rig", bytes "x"⟩
    let s := (client login).exec {} (handshakeRun login ++
      [.recv (Lines.join newline [subscribedLine, authorizedLine]), .stop])
    let run : List Label := [.stopDisconnect, .line, .line, .drained, .checkInner, .checkLost, .join]
    ((client login).exec s run).user = .idle ∧
      (client login).count (State.takes · .network) s run ≤ shutdownBound login := by
  intro login s run
  have hreach : (client login).Valid (fun _ _ => True) {} (handshakeRun login ++
      [.recv (Lines.join newline [subscribedLine, authorizedLine]), .stop]) := by decide +kernel
  have hrun : (client login).Valid (fun s _ => s.user ≠ .idle) s run := by decide +kernel
  exact ⟨by decide +kernel, (stop_returns (.exec .init hreach) hrun).1⟩

end CppMiner.Network
