-- SUMMARY: What `stop` leaves behind: when the socket is closed and the client unauthorized after it.
import CppMiner.Network.Sessions

/-!
# Stopping

`stop` disconnects before it joins the network thread. What that thread does in between
is not undone: it can finish opening a connection, and it handles the lines that are
still in its buffer. In a run in which it neither completes a handshake there nor finds
a granted authorization left in the buffer, the socket is closed and the client is not
authorized when `stop` has returned (`stopped_of_reach`).
-/

namespace CppMiner.Network

namespace State

variable {login : Login} {s s' : State} {l : Label}

/-- `stop` has returned, or `start` was never called. -/
def Returned (s : State) : Prop := s.user = .idle ∧ s.running = false

instance (s : State) : Decidable s.Returned :=
  inferInstanceAs (Decidable (s.user = .idle ∧ s.running = false))

/-- The socket is closed and the client is not authorized. -/
def Closed (s : State) : Prop := s.socketFd = none ∧ s.client.authorized = false

/-- What the complete lines of the buffer say about the authorization. -/
def answersLeft (s : State) : List Bool :=
  (Lines.segments newline s.lineBuffer).filterMap authorizeAnswer

/-- After the `disconnect` of `stop` no handshake is completed, and of the lines that are
left in the buffer then the last that answers `mining.authorize` does not grant it. -/
def StopsClean (s : State) : Label → Prop
  | .send n => ∀ w ∈ s.writeMutex, s.user = .joining → w.thread = .network →
      s.net = .authorizing → w.sent + n < w.request.line.length
  | .stopDisconnect => s.net = .draining → s.answersLeft.getLast? ≠ some true
  | _ => True

instance (s : State) : (l : Label) → Decidable (s.StopsClean l)
  | .send n => inferInstanceAs (Decidable (∀ w ∈ s.writeMutex, s.user = .joining →
      w.thread = .network → s.net = .authorizing → w.sent + n < w.request.line.length))
  | .stopDisconnect => inferInstanceAs
      (Decidable (s.net = .draining → s.answersLeft.getLast? ≠ some true))
  | .start | .stop | .join | .submit .. | .lock _ | .sendError | .checkOuter | .connectFails
  | .connected | .reconnect | .checkInner | .timeout | .connectionLost | .recv _ | .line
  | .drained | .checkLost | .drop | .waited => .isTrue trivial

/-- Whether the client will be authorized once the buffer is drained. -/
def authorizedDrained (s : State) : Bool :=
  if s.net = .draining then s.answersLeft.getLast?.getD s.client.authorized
  else s.client.authorized

/-- Handling a line takes it out of what is left. -/
theorem authorizedDrained_handle {line rest : Bytes} (hnet : s.net = .draining)
    (hline : nextLine s.lineBuffer = some (line, rest)) :
    (s.handle line rest).authorizedDrained = s.authorizedDrained := by
  obtain ⟨hbuf, hnl⟩ := nextLine_eq_some.mp hline
  have hleft : s.answersLeft =
      (authorizeAnswer line).toList ++ (s.handle line rest).answersLeft := by
    simp only [answersLeft, hbuf, Lines.segments, Lines.split_line hnl, State.handle]
    cases hanswer : authorizeAnswer line <;> simp [hanswer]
  have hauth : (s.handle line rest).client.authorized =
      (authorizeAnswer line).getD s.client.authorized := authorized_handleLine _ _
  have hnet' : (s.handle line rest).net = .draining := hnet
  simp only [authorizedDrained, hnet, hnet', if_true, hleft, hauth, List.getLast?_append]
  cases (s.handle line rest).answersLeft.getLast? <;> cases authorizeAnswer line <;> rfl

theorem authorizedDrained_drained (hnet : s.net = .draining)
    (hline : nextLine s.lineBuffer = none) : s.authorizedDrained = s.client.authorized := by
  have hnil : s.answersLeft = [] := by
    rw [answersLeft, Lines.segments, Lines.split_of_notMem (nextLine_eq_none.mp hline)]
    rfl
  simp [authorizedDrained, hnet, hnil]

theorem authorizedDrained_of_ne (hnet : s.net ≠ .draining) :
    s.authorizedDrained = s.client.authorized := if_neg hnet

theorem Keeps.authorizedDrained (hk : Keeps s s') :
    s'.authorizedDrained = s.authorizedDrained := by
  unfold State.authorizedDrained
  rw [hk.client]
  by_cases hnet : s'.net = .draining
  · have hold := hk.net.eq_of_receiving (.inr hnet)
    rw [hnet] at hold
    rw [if_pos hnet, if_pos hold, answersLeft, hk.lineBuffer hold, answersLeft]
  · have hold : s.net ≠ .draining := by
      intro hold
      exact hnet (hk.net.of_draining hold)
    rw [if_neg hnet, if_neg hold]

/-! ## The handshake and `stop` -/

/-- A handshake is completed by the `send` of the last byte of `mining.authorize`. -/
theorem SendStep.completes (h : SendStep login s l s') (hnet : s.net = .authorizing)
    (hnet' : s'.net = .inner) :
    ∃ w n, l = .send n ∧ s.writeMutex = some w ∧ w.thread = .network ∧
      w.sent + n = w.request.line.length := by
  -- a `send` that fails leaves the handshake for `failed`, never for the inner loop
  have hfails : ∀ (s₁ : State) (t : Thread), s₁.net = .authorizing →
      (s₁.sendReturns t false).net ≠ .inner := by
    intro s₁ t hauth hinner
    rcases net_sendReturns_false (s := s₁) t with ⟨heq, -⟩ | ⟨heq, -⟩ <;> rw [heq] at hinner
    · rw [hauth] at hinner
      cases hinner
    · cases hinner
  cases h with
  | submit i share hi =>
    simp only [State.submit] at hnet'
    rw [hnet] at hnet'
    cases hnet'
  | refused t r hw hr hk => exact absurd hnet' (hfails s t hnet)
  | locked t r k hw hr hk =>
    rw [hnet] at hnet'
    cases hnet'
  | part w k n hw hk hn hlt =>
    rw [hnet] at hnet'
    cases hnet'
  | done w k n hw hk hn hend =>
    refine ⟨w, n, rfl, hw, ?_, hend⟩
    cases ht : w.thread with
    | network => rfl
    | worker i =>
      rw [ht] at hnet'
      simp only [sendReturns] at hnet'
      rw [hnet] at hnet'
      cases hnet'
  | error w hw => exact absurd hnet' (hfails _ w.thread hnet)
  | connected hconnecting =>
    rw [hconnecting] at hnet
    cases hnet

/-- What holds of the socket and the authorization once `stop` has disconnected. -/
structure Stopped (s : State) : Prop where
  /-- Nothing in the buffer will authorize the client. -/
  drained : s.user = .joining → s.authorizedDrained = false
  /-- An open socket is one that the network thread is about to close. -/
  socket : s.user = .joining → s.socketFd = none ∨ s.net.handshaking = true
  returned : s.Returned → s.Closed

/-- A network thread that is not between `stop` and `start` is not affected by the last
part. -/
theorem Stopped.of_net (h : s.Stopped) (hb : s.Basic login) (hnet : s.net ≠ .exited)
    (huser : s'.user = s.user) (hrunning : s'.running = s.running)
    (hdrained : s.authorizedDrained = false → s'.authorizedDrained = false)
    (hsocket : s.user = .joining → s'.socketFd = none ∨ s'.net.handshaking = true) :
    s'.Stopped := by
  refine ⟨fun hjoin => hdrained (h.drained (huser ▸ hjoin)),
    fun hjoin => hsocket (huser ▸ hjoin), ?_⟩
  rintro ⟨hidle, hrun⟩
  exact absurd (hb.idle (huser ▸ hidle) (hrunning ▸ hrun)) hnet

/-- A step of the network thread outside the loop over the buffer. -/
theorem Stopped.of_loop (h : s.Stopped) (hb : s.Basic login) (hnet : s.net ≠ .exited)
    (hdraining : s.net ≠ .draining) (hdraining' : s'.net ≠ .draining)
    (huser : s'.user = s.user) (hrunning : s'.running = s.running)
    (hclient : s.client.authorized = false → s'.client.authorized = false)
    (hsocket : s'.socketFd = none ∨ s'.socketFd = s.socketFd ∧
      (s.net.handshaking = true → s'.net.handshaking = true)) : s'.Stopped := by
  refine h.of_net hb hnet huser hrunning ?_ fun hjoin => ?_
  · rw [authorizedDrained_of_ne hdraining, authorizedDrained_of_ne hdraining']
    exact hclient
  · rcases hsocket with hnone | ⟨heq, hhand⟩
    · exact .inl hnone
    · rw [heq]
      exact (h.socket hjoin).imp_right hhand

/-- The network thread moves on in its loops, and does nothing else. -/
theorem Stopped.move (h : s.Stopped) (hb : s.Basic login) {pc pc' : NetPc} (hnet : s.net = pc)
    (hpc : pc ≠ .exited ∧ pc ≠ .draining ∧ pc.handshaking = false) (hpc' : pc' ≠ .draining) :
    { s with net := pc' }.Stopped := by
  subst hnet
  refine h.of_loop hb hpc.1 hpc.2.1 hpc' rfl rfl id (.inr ⟨rfl, fun hhand => ?_⟩)
  rw [hpc.2.2] at hhand
  cases hhand

/-- The network thread disconnects, and waits. -/
theorem Stopped.disconnected (h : s.Stopped) (hb : s.Basic login) {pc : NetPc}
    (hnet : s.net = pc) (hpc : pc ≠ .exited ∧ pc ≠ .draining) :
    { s.disconnect with net := .waiting }.Stopped := by
  subst hnet
  exact h.of_loop hb hpc.1 hpc.2 (by simp) rfl rfl (fun _ => rfl) (.inl rfl)

/-- The sending side keeps an open socket where it is closed, or completes the handshake. -/
theorem Stopped.socket_keeps (h : s.Stopped) (he : s.Enabled login l) (hl : l.sends = true)
    (hk : Keeps s (s.next login l)) (hP : s.StopsClean l) (hjoin : s.user = .joining) :
    (s.next login l).socketFd = none ∨ (s.next login l).net.handshaking = true := by
  rw [hk.socketFd]
  refine (h.socket hjoin).imp_right fun hhand => ?_
  have hadvance := hk.net
  have hstep := next_sends he hl
  generalize s.next login l = s' at hadvance hstep
  -- the one way out of the handshake with the socket open is to complete it
  by_cases hinner : s.net = .authorizing ∧ s'.net = .inner
  · obtain ⟨w, n, rfl, hw, ht, hend⟩ := hstep.completes hinner.1 hinner.2
    have := hP w hw hjoin ht hinner.1
    omega
  · generalize s.net = net at hadvance hhand hinner
    generalize s'.net = net' at hadvance hinner
    cases hadvance with
    | stays => exact hhand
    | subscribed => rfl
    | authorized => exact absurd ⟨rfl, rfl⟩ hinner
    | subscribeFails => rfl
    | authorizeFails => rfl

theorem Stopped.next (hb : s.Basic login) (ho : s.Orderly) (h : s.Stopped)
    (he : s.Enabled login l) (hP : s.StopsClean l) : (s.next login l).Stopped := by
  cases hsends : l.sends with
  | true =>
    -- the socket that `connected` opens is in the handshake; the other steps keep what there was
    rcases next_keeps hb he hsends with ⟨rfl, hnet⟩ | ⟨-, hk⟩
    · refine h.of_net hb (by simp [hnet]) rfl rfl ?_ fun _ => .inr rfl
      rw [authorizedDrained_of_ne (by simp [hnet])]
      exact id
    · refine ⟨fun hjoin => ?_, fun hjoin => ?_, fun hreturned => ?_⟩
      · rw [hk.authorizedDrained]
        exact h.drained (hk.user ▸ hjoin)
      · exact h.socket_keeps he hsends hk hP (hk.user ▸ hjoin)
      · rw [Returned, hk.user, hk.running] at hreturned
        rw [Closed, hk.client, hk.socketFd]
        exact h.returned hreturned
  | false =>
    cases l with
    | submit i share => cases hsends
    | lock t => cases hsends
    | send n => cases hsends
    | sendError => cases hsends
    | connected => cases hsends
    -- the answers that are left decide, before the line is handled as after it
    | line =>
      obtain ⟨line, rest, hnet, hline, hs⟩ := next_line he
      rw [hs]
      refine h.of_net hb (by simp [hnet]) rfl rfl ?_ fun hjoin => ?_
      · rw [authorizedDrained_handle hnet hline]
        exact id
      · exact h.socket hjoin
    | start =>
      simp only [State.next, start]
      split
      · exact h
      · rename_i hrun
        have hnot : s.user ≠ .joining := by simp [show s.user = .idle from he]
        exact ⟨fun hjoin => absurd hjoin hnot, fun hjoin => absurd hjoin hnot, by simp [Returned]⟩
    | stop =>
      simp only [State.next, stop]
      split
      · exact ⟨by simp, by simp, by simp [Returned]⟩
      · exact h
    -- here the invariant begins: the socket is closed, and what is in the buffer stays there
    | stopDisconnect =>
      refine ⟨fun _ => ?_, fun _ => .inl rfl, by simp [Returned, State.next]⟩
      by_cases hnet : s.net = .draining
      · have hleft := hP hnet
        change (if s.net = .draining then s.answersLeft.getLast?.getD false else false) = false
        rw [if_pos hnet]
        generalize s.answersLeft.getLast? = last at hleft
        rcases last with _ | _ | _
        · rfl
        · rfl
        · exact absurd rfl hleft
      · exact authorizedDrained_of_ne hnet
    -- the thread has left its loops, so that neither excuse of the invariant holds any more
    | join =>
      obtain ⟨hjoin, hnet⟩ := he
      refine ⟨by simp [State.next], by simp [State.next], fun _ => ⟨?_, ?_⟩⟩
      · rcases h.socket hjoin with hnone | hhand
        · exact hnone
        · rw [hnet] at hhand
          cases hhand
      · have hdrained := h.drained hjoin
        rwa [authorizedDrained_of_ne (by simp [hnet])] at hdrained
    -- nothing is received between `stop` and its return: the socket is closed where it polls
    | recv chunk =>
      obtain ⟨hnet, hopen, -⟩ := he
      refine ⟨fun hjoin => ?_, fun hjoin => ?_, ?_⟩
      · rw [ho.closed hjoin (.inl hnet)] at hopen
        cases hopen
      · rw [ho.closed hjoin (.inl hnet)] at hopen
        cases hopen
      · rintro ⟨hidle, hrun⟩
        rw [hb.idle hidle hrun] at hnet
        cases hnet
    | drained =>
      obtain ⟨hnet, hline⟩ := he
      rw [Option.isNone_iff_eq_none] at hline
      refine h.of_net hb (by simp [hnet]) rfl rfl ?_ fun hjoin => ?_
      · rw [authorizedDrained_drained hnet hline]
        exact id
      · exact .inl (ho.closed hjoin (.inr hnet))
    -- what is left are moves between the loops, which read and close at most
    | checkOuter =>
      exact h.move hb (show s.net = .outer from he) (by decide) (by split <;> decide)
    | checkInner =>
      exact h.move hb (show s.net = .inner from he) (by decide) (by split <;> decide)
    | checkLost =>
      exact h.move hb (show s.net = .lost from he) (by decide) (by split <;> decide)
    | connectFails => exact h.move hb (show s.net = .connecting from he) (by decide) (by decide)
    | timeout => exact h.move hb (show s.net = .polling from he) (by decide) (by decide)
    | connectionLost => exact h.move hb (show s.net = .polling from he) (by decide) (by decide)
    | waited => exact h.move hb (show s.net = .waiting from he) (by decide) (by decide)
    | reconnect => exact h.disconnected hb (show s.net = .failed from he) (by decide)
    | drop => exact h.disconnected hb (show s.net = .dropping from he) (by decide)

end State

/-- In a run in which no handshake is completed after the `disconnect` of `stop` and no
granted authorization is left in the buffer then, the socket is closed and the client is
not authorized whenever `stop` has returned. -/
theorem stopped_of_reach {login : Login} {s : State}
    (h : (client login).Reach State.StopsClean s) (hs : s.Returned) : s.Closed := by
  have hstopped : s.Stopped := by
    refine h.invariant_of (J := fun s => s.Basic login ∧ s.Orderly)
      (fun _ hs => ⟨basic_of_reach hs, orderly_of_reach hs⟩) ?_
      fun _ _ hJ hs he hP => hs.next hJ.1 hJ.2 he hP
    exact ⟨nofun, nofun, fun _ => ⟨rfl, rfl⟩⟩
  exact hstopped.returned hs

/-- `stop` while the network thread handles lines, of which the last takes the
authorization back. -/
theorem stopped_of_reach_handshakeRun :
    let login : Login := ⟨bytes "wallet", bytes "rig", bytes "x"⟩
    let s := (client login).exec {} (handshakeRun login ++
      [.recv (Lines.join newline [authorizedLine, bytes "\x7b\"id\":2\x7d"]), .stop,
        .stopDisconnect, .line, .line, .drained, .checkInner, .checkLost, .join])
    s.Returned ∧ s.Closed := by
  intro login s
  have hvalid : (client login).Valid State.StopsClean {} (handshakeRun login ++
      [.recv (Lines.join newline [authorizedLine, bytes "\x7b\"id\":2\x7d"]), .stop,
        .stopDisconnect, .line, .line, .drained, .checkInner, .checkLost, .join]) := by
    decide +kernel
  have h : (client login).Reach State.StopsClean s := .exec .init hvalid
  have hreturned : s.Returned := by decide +kernel
  exact ⟨hreturned, stopped_of_reach h hreturned⟩

/-- `stop` while the network thread connects: the socket is opened afterwards. -/
theorem stopped_open :
    ¬ ∀ (login : Login) (s : State), (client login).Reachable s → s.Returned → s.Closed := by
  intro h
  let login : Login := ⟨bytes "wallet", bytes "rig", bytes "x"⟩
  let run := [.start, .checkOuter, .stop, .stopDisconnect, .connected] ++ greetingRun login ++
    [.checkLost, .join]
  let s := (client login).exec {} run
  have hvalid : (client login).Valid (fun _ _ => True) {} run := by decide +kernel
  have hreach : (client login).Reachable s := .exec .init hvalid
  have hclosed := h login s hreach (by decide +kernel)
  have hopen : s.socketFd = some 0 := by decide +kernel
  exact absurd (hopen.symm.trans hclosed.1) nofun

end CppMiner.Network
