-- SUMMARY: When the client is authorized: after which answers of the pool, and on which connection.
import CppMiner.Network.Sessions

/-!
# Authorization

Any response with the id 2 sets `authorized_`, whether or not the pool has answered
`mining.subscribe`, and whether or not the socket is still open. In a run in which no
authorization is granted before that answer, an authorized client is subscribed and
authorized on its open connection (`authorized_of_reach`).
-/

namespace CppMiner.Network

namespace State

variable {login : Login} {s s' : State} {l : Label}

/-- The pool answers `mining.subscribe` with a well-formed result. -/
def subscribes (line : Bytes) : Bool := responseId line = some 1 ∧ (subscription line).isSome

/-- The pool answers `mining.authorize` with true and no error. -/
def authorizes (line : Bytes) : Bool := responseId line = some 2 ∧ accepts line

/-- If the client is authorized, then the pool has answered both requests of the
handshake on the open connection, and has granted the second. -/
def Authorized (s : State) : Prop :=
  s.client.authorized = true →
    ∃ k, s.socketFd = some k ∧ s.Answered k subscribes ∧ s.Answered k authorizes

/-- A line that grants the authorization is read from an open connection on which
`mining.subscribe` was answered, and answers `mining.authorize`, or follows a line that
does. -/
def SubscribedFirst (s : State) : Label → Prop
  | .line => ∀ p ∈ nextLine s.lineBuffer, authorizeAnswer p.1 = some true →
      s.socketFd.isSome ∧ s.Answered s.connection subscribes ∧
        (responseId p.1 = some 2 ∨ s.Answered s.connection authorizes)
  | _ => True

instance (s : State) : (l : Label) → Decidable (s.SubscribedFirst l)
  | .line => inferInstanceAs (Decidable (∀ p ∈ nextLine s.lineBuffer,
      authorizeAnswer p.1 = some true → s.socketFd.isSome ∧ s.Answered s.connection subscribes ∧
        (responseId p.1 = some 2 ∨ s.Answered s.connection authorizes)))
  | .start | .stop | .stopDisconnect | .join | .submit .. | .lock _ | .send _ | .sendError
  | .checkOuter | .connectFails | .connected | .reconnect | .checkInner | .timeout
  | .connectionLost | .recv _ | .drained | .checkLost | .drop | .waited => .isTrue trivial

end State

namespace NetPc

/-- Whether the network thread is between two sessions. -/
def offline : NetPc → Bool
  | .outer | .connecting | .subscribing | .authorizing | .failed | .waiting => true
  | _ => false

end NetPc

theorem Advance.offline {net net' : NetPc} (h : Advance net net') (hnet : net'.offline = true) :
    net.offline = true := by
  cases h <;> first | exact hnet | rfl

namespace State

variable {login : Login} {s s' : State} {l : Label}

/-- Where the client is not authorized, in a run in which no authorization comes too early. -/
structure Unauthorized (s : State) : Prop where
  offline : s.net.offline = true → s.client.authorized = false
  joining : s.user = .joining → s.client.authorized = false
  idle : s.user = .idle → s.running = false → s.client.authorized = false

/-- Without a new grant it stays so. -/
theorem Unauthorized.of_eq (h : s.Unauthorized) (huser : s'.user = s.user)
    (hrunning : s'.running = s.running)
    (hclient : s.client.authorized = false → s'.client.authorized = false)
    (hnet : s'.net.offline = true → s.net.offline = true) : s'.Unauthorized where
  offline hoff := hclient (h.offline (hnet hoff))
  joining hjoin := hclient (h.joining (huser ▸ hjoin))
  idle hidle hrun := hclient (h.idle (huser ▸ hidle) (hrunning ▸ hrun))

theorem Unauthorized.of_false (h : s.client.authorized = false) : s.Unauthorized :=
  ⟨fun _ => h, fun _ => h, fun _ _ => h⟩

/-- After the `disconnect` of `stop` a line grants nothing. -/
theorem Unauthorized.handle (hb : s.Basic login) (ho : s.Orderly) (h : s.Unauthorized)
    (hnet : s.net = .draining) {line rest : Bytes}
    (hline : nextLine s.lineBuffer = some (line, rest)) (hP : s.SubscribedFirst .line) :
    (s.handle line rest).Unauthorized := by
  refine ⟨fun hoff => ?_, fun hjoin => ?_, fun hidle hrun => ?_⟩
  · simp only [State.handle, hnet] at hoff
    cases hoff
  · have hclosed := ho.closed hjoin (.inr hnet)
    have hold := h.joining hjoin
    change (handleLine s.client line).1.authorized = false
    rw [authorized_handleLine]
    cases hanswer : authorizeAnswer line with
    | none => exact hold
    | some b =>
      cases b with
      | false => rfl
      | true =>
        have hopen := (hP _ hline hanswer).1
        rw [hclosed] at hopen
        cases hopen
  · rw [hb.idle hidle hrun] at hnet
    cases hnet

theorem Unauthorized.next (hb : s.Basic login) (ho : s.Orderly) (h : s.Unauthorized)
    (he : s.Enabled login l) (hP : s.SubscribedFirst l) : (s.next login l).Unauthorized := by
  cases hsends : l.sends with
  | true =>
    rcases next_keeps hb he hsends with ⟨rfl, hnet⟩ | ⟨-, hk⟩
    · exact .of_false (h.offline (by rw [hnet]; rfl))
    · exact h.of_eq hk.user hk.running (by rw [hk.client]; exact id) hk.net.offline
  | false =>
    cases l with
    | submit i share => cases hsends
    | lock t => cases hsends
    | send n => cases hsends
    | sendError => cases hsends
    | connected => cases hsends
    | line =>
      obtain ⟨line, rest, hnet, hline, hs⟩ := next_line he
      rw [hs]
      exact h.handle hb ho hnet hline hP
    | start =>
      simp only [State.next, start]
      split
      · exact h
      · rename_i hrun
        exact .of_false (h.idle he (by simpa using hrun))
    | stop =>
      simp only [State.next, stop]
      split
      · exact ⟨h.offline, by simp, by simp⟩
      · exact h
    | stopDisconnect => exact .of_false rfl
    | join => exact .of_false (h.joining he.1)
    | reconnect => exact .of_false rfl
    | drop => exact .of_false rfl
    | waited =>
      exact h.of_eq rfl rfl id fun _ => by rw [show s.net = .waiting from he]; rfl
    | checkOuter =>
      exact h.of_eq rfl rfl id fun _ => by rw [show s.net = .outer from he]; rfl
    | connectFails =>
      exact h.of_eq rfl rfl id fun _ => by rw [show s.net = .connecting from he]; rfl
    | checkInner =>
      refine h.of_eq rfl rfl id ?_
      simp only [State.next]
      split <;> simp [NetPc.offline]
    | checkLost =>
      refine h.of_eq rfl rfl id ?_
      simp only [State.next]
      split <;> simp [NetPc.offline]
    | _ => exact h.of_eq rfl rfl id (by simp [State.next, NetPc.offline])

theorem Authorized.handle (hb : s.Basic login) (h : s.Authorized) {line rest : Bytes}
    (hline : nextLine s.lineBuffer = some (line, rest)) (hP : s.SubscribedFirst .line) :
    (s.handle line rest).Authorized := by
  intro hauth
  have hsub : ∀ x ∈ s.handled, x ∈ (s.handle line rest).handled :=
    fun x hx => List.mem_append_left _ hx
  change (handleLine s.client line).1.authorized = true at hauth
  rw [authorized_handleLine] at hauth
  cases hanswer : authorizeAnswer line with
  | none =>
    rw [hanswer] at hauth
    obtain ⟨k, hk, hsubscribed, hauthorized⟩ := h hauth
    exact ⟨k, hk, hsubscribed.mono hsub, hauthorized.mono hsub⟩
  -- the condition: this line answers `mining.authorize` itself, or one before it has
  | some b =>
    rw [hanswer, Option.getD_some] at hauth
    subst hauth
    obtain ⟨hopen, hsubscribed, hauthorized⟩ := hP _ hline hanswer
    obtain ⟨k, hk⟩ := Option.isSome_iff_exists.mp hopen
    rw [hb.connection_eq hk] at hsubscribed hauthorized
    refine ⟨k, hk, hsubscribed.mono hsub, ?_⟩
    rcases hauthorized with hid | hbefore
    · have haccepts : accepts line = true := by
        unfold authorizeAnswer at hanswer
        split at hanswer
        · exact Option.some.inj hanswer
        · cases hanswer
      rw [← hb.connection_eq hk]
      exact answered_of_handle rest (by simp [authorizes, hid, haccepts])
    · exact hbefore.mono hsub

theorem Authorized.next (hb : s.Basic login) (hu : s.Unauthorized) (h : s.Authorized)
    (he : s.Enabled login l) (hP : s.SubscribedFirst l) : (s.next login l).Authorized := by
  have hstep := next_session hb he
  generalize s.next login l = s' at hstep
  cases hstep with
  | line line rest hnet hline hs =>
    subst hs
    exact h.handle hb hline hP
  | connected hnet hs =>
    subst hs
    intro hauth
    have hold := hu.offline (by rw [hnet]; rfl)
    exact absurd hauth (by simp [connected, hold])
  | disconnected l hclient hsocket hopened hhandled hcallbacks =>
    intro hauth
    simp [hclient] at hauth
  | stands l hclient hsocket hopened hhandled hcallbacks =>
    intro hauth
    rw [hclient] at hauth
    obtain ⟨k, hk, hsubscribed, hauthorized⟩ := h hauth
    have hsub : ∀ x ∈ s.handled, x ∈ s'.handled := fun x hx => hhandled ▸ hx
    exact ⟨k, hsocket ▸ hk, hsubscribed.mono hsub, hauthorized.mono hsub⟩

end State

/-- In a run in which no authorization is granted before `mining.subscribe` is answered
on the open connection, the client is authorized only after both requests of the
handshake were answered on it. -/
theorem authorized_of_reach {login : Login} {s : State}
    (h : (client login).Reach State.SubscribedFirst s) : s.Authorized := by
  have hunauthorized : ∀ s, (client login).Reach State.SubscribedFirst s → s.Unauthorized := by
    intro s hs
    exact hs.invariant_of (J := fun s => s.Basic login ∧ s.Orderly)
      (fun _ hs => ⟨basic_of_reach hs, orderly_of_reach hs⟩) (.of_false rfl)
      fun _ _ hJ hu he hP => hu.next hJ.1 hJ.2 he hP
  exact h.invariant_of (J := fun s => s.Basic login ∧ s.Unauthorized)
    (fun _ hs => ⟨basic_of_reach hs, hunauthorized _ hs⟩) nofun
    fun _ _ hJ ha he hP => ha.next hJ.1 hJ.2 he hP

theorem authorized_of_reach_handshakeRun :
    let login : Login := ⟨bytes "wallet", bytes "rig", bytes "x"⟩
    let s := (client login).exec {} (handshakeRun login ++
      [.recv (Lines.join newline [subscribedLine, authorizedLine]), .line, .line])
    s.client.authorized = true ∧ s.Authorized := by
  intro login s
  have hvalid : (client login).Valid State.SubscribedFirst {} (handshakeRun login ++
      [.recv (Lines.join newline [subscribedLine, authorizedLine]), .line, .line]) := by
    decide +kernel
  have h : (client login).Reach State.SubscribedFirst s := .exec .init hvalid
  exact ⟨by decide +kernel, authorized_of_reach h⟩

/-- The pool answers `mining.authorize` only. -/
theorem authorized_unsubscribed :
    ¬ ∀ (login : Login) (s : State), (client login).Reachable s → s.Authorized := by
  intro h
  let login : Login := ⟨bytes "wallet", bytes "rig", bytes "x"⟩
  let run := handshakeRun login ++ [.recv (Lines.join newline [authorizedLine]), .line]
  let s := (client login).exec {} run
  have hvalid : (client login).Valid (fun _ _ => True) {} run := by decide +kernel
  have hreach : (client login).Reachable s := .exec .init hvalid
  have hauth : s.client.authorized = true := by decide +kernel
  obtain ⟨k, hk, hsubscribed, -⟩ := h login s hreach hauth
  have hopen : s.socketFd = some 0 := by decide +kernel
  obtain rfl : 0 = k := Option.some.inj (hopen.symm.trans hk)
  have hnone : ¬ s.Answered 0 State.subscribes := by decide +kernel
  exact hnone hsubscribed

end CppMiner.Network
