-- SUMMARY: The first two lines of a connection, when no worker writes to it before they are sent.
import CppMiner.Network.Ids
import CppMiner.Network.Streams

/-!
# The handshake

`connectOnce` stores the new socket in `socketFd_` and then sends `mining.subscribe`
and `mining.authorize` through `sendLine`, which a worker can enter first. In a run in
which no worker writes to a connection whose handshake is not sent, every connection
starts with the two lines (`greeted_of_reach`).
-/

namespace CppMiner.Network

/-- The requests a connection is to start with. -/
def greeting (login : Login) : List Request := [subscribeRequest, authorizeRequest login]

namespace Conn

/-- As far as anything was written, the first line is `mining.subscribe` and the second
`mining.authorize`. -/
def Greeted (login : Login) (c : Conn) : Prop :=
  c.requests.take 2 <+: greeting login ∧
    c.bytes.take (linesOf (greeting login)).length <+: linesOf (greeting login)

/-- Both lines were written, before anything else. -/
def Complete (login : Login) (c : Conn) : Prop :=
  greeting login <+: c.requests ∧ linesOf (greeting login) <+: c.bytes

instance (login : Login) (c : Conn) : Decidable (c.Complete login) :=
  inferInstanceAs (Decidable (_ ∧ _))

/-- The line of `r` was written up to its byte `n`, after those of `rs`. -/
def Begun (c : Conn) (rs : List Request) (r : Request) (n : ℕ) : Prop :=
  c.requests = rs ++ [r] ∧ c.bytes = linesOf rs ++ r.line.take n

theorem Complete.greeted {login : Login} {c : Conn} (h : c.Complete login) :
    c.Greeted login := by
  obtain ⟨⟨rs, hrequests⟩, ⟨bs, hbytes⟩⟩ := h
  constructor
  · rw [← hrequests]
    exact List.prefix_rfl
  · rw [← hbytes, List.take_left]

/-- What is written later comes after the two lines. -/
theorem Complete.written {login : Login} {c : Conn} (h : c.Complete login) (w : Writer) (n : ℕ) :
    (State.written c w n).Complete login := by
  obtain ⟨hrequests, hbytes⟩ := h
  constructor
  · unfold State.written
    split
    · exact hrequests.trans (List.prefix_append _ _)
    · exact hrequests
  · exact hbytes.trans (List.prefix_append _ _)

/-- A part of a line of the handshake, after those that come before it. -/
theorem Begun.greeted {login : Login} {c : Conn} {rs : List Request} {r : Request} {n : ℕ}
    (h : c.Begun rs r n) (hrs : rs ++ [r] <+: greeting login) : c.Greeted login := by
  obtain ⟨hrequests, hbytes⟩ := h
  constructor
  · rw [hrequests]
    exact (List.take_prefix _ _).trans hrs
  · have hline : linesOf rs ++ r.line.take n <+: linesOf (rs ++ [r]) := by
      rw [linesOf_append, linesOf_singleton, List.prefix_append_right_inj]
      exact List.take_prefix _ _
    obtain ⟨rest, hrest⟩ := hrs
    rw [hbytes]
    refine (List.take_prefix _ _).trans (hline.trans ?_)
    rw [← hrest, linesOf_append (rs ++ [r])]
    exact List.prefix_append _ _

/-- The first bytes of a line. -/
theorem Whole.begun {c : Conn} {w : Writer} (h : c.Whole) (hw : w.sent = 0) (n : ℕ) :
    (State.written c w n).Begun c.requests w.request (w.sent + n) := by
  constructor
  · simp [State.written, hw]
  · rw [← h]
    simp [State.written, hw]

/-- Further bytes of the line. -/
theorem Begun.written {c : Conn} {rs : List Request} {w : Writer}
    (h : c.Begun rs w.request w.sent) (hw : w.sent ≠ 0) (n : ℕ) :
    (State.written c w n).Begun rs w.request (w.sent + n) := by
  obtain ⟨hrequests, hbytes⟩ := h
  constructor
  · simp [State.written, hw, hrequests]
  · simp only [State.written, hbytes, List.append_assoc, List.take_add]

/-- The line was written to its end. -/
theorem Begun.whole {c : Conn} {rs : List Request} {r : Request}
    (h : c.Begun rs r r.line.length) : c.Whole ∧ c.requests = rs ++ [r] := by
  obtain ⟨hrequests, hbytes⟩ := h
  refine ⟨?_, hrequests⟩
  rw [Whole, hbytes, hrequests, linesOf_append, linesOf_singleton, List.take_length]

theorem Whole.complete {login : Login} {c : Conn} (h : c.Whole)
    (hrequests : c.requests = greeting login) : c.Complete login := by
  refine ⟨by rw [hrequests], ?_⟩
  rw [h, hrequests]

end Conn

namespace NetPc

/-- The requests sent on a connection before the one of the network thread. -/
def sentBefore : NetPc → List Request
  | .authorizing => [subscribeRequest]
  | _ => []

end NetPc

namespace State

variable {login : Login} {s s' : State} {l : Label}

/-- No worker writes to a connection between its opening and the end of its handshake:
not while the network thread sends the two lines, and not after it has failed to. -/
def HandshakeAlone (login : Login) (s : State) : Label → Prop
  | .send _ => ∀ w ∈ s.writeMutex, ∀ k ∈ s.socketFd, w.thread ≠ .network →
      s.net.handshaking = true → s.net = .failed ∧ (s.conns k).Complete login
  | _ => True

instance (login : Login) (s : State) : (l : Label) → Decidable (s.HandshakeAlone login l)
  | .send _ => inferInstanceAs (Decidable (∀ w ∈ s.writeMutex, ∀ k ∈ s.socketFd,
      w.thread ≠ .network → s.net.handshaking = true →
        s.net = .failed ∧ (s.conns k).Complete login))
  | .start | .stop | .stopDisconnect | .join | .submit .. | .lock _ | .sendError | .checkOuter
  | .connectFails | .connected | .reconnect | .checkInner | .timeout | .connectionLost | .recv _
  | .line | .drained | .checkLost | .drop | .waited => .isTrue trivial

/-- How far the handshake of each connection is. -/
structure Greeting (login : Login) (s : State) : Prop where
  greeted : ∀ k, (s.conns k).Greeted login
  unopened : ∀ k, s.opened ≤ k → (s.conns k).requests = [] ∧ (s.conns k).Whole
  /-- Before the next line of the handshake is begun. -/
  before : ∀ r, Waiting login s .network r →
    (s.conns s.connection).requests = s.net.sentBefore ∧ (s.conns s.connection).Whole
  /-- While a line of the handshake is written. -/
  begun : ∀ w, s.writeMutex = some w → w.thread = .network → w.sent ≠ 0 →
    (s.conns s.connection).Begun s.net.sentBefore w.request w.sent
  /-- After the handshake. -/
  complete : ∀ k, s.socketFd = some k → s.net.handshaking = false → (s.conns k).Complete login

/-! ## Steps that write nothing -/

/-- After a handshake that failed there is no way back to its socket. -/
theorem handshaking_of_frame (hb : s.Basic login) (he : s.Enabled login l)
    (hl : l.sends = false) {k : ℕ} (hk : (s.next login l).socketFd = some k)
    (hnet : s.net.handshaking = true) : (s.next login l).net.handshaking = true := by
  cases l with
  | submit i share => cases hl
  | lock t => cases hl
  | send n => cases hl
  | sendError => cases hl
  | connected => cases hl
  | start =>
    simp only [next, start]
    split
    · exact hnet
    · rename_i hrun
      rw [hb.idle he (by simpa using hrun)] at hnet
      cases hnet
  | stop =>
    simp only [next, stop]
    split <;> exact hnet
  | line =>
    simp only [next]
    split <;> exact hnet
  | stopDisconnect => exact hnet
  | join => exact hnet
  | connectFails => rfl
  | reconnect => cases hk
  | drop => cases hk
  | _ => simp_all [Enabled, NetPc.handshaking]

theorem eq_of_handshake {net net' : NetPc}
    (h : handshake login net' = handshake login net) {r : Request}
    (hr : handshake login net = some r) : net' = net := by
  rcases handshake_eq_some hr with ⟨rfl, rfl⟩ | ⟨rfl, rfl⟩ <;>
    rcases handshake_eq_some (h.trans hr) with ⟨rfl, heq⟩ | ⟨rfl, heq⟩
  · rfl
  · exact absurd (congrArg Request.id heq) (by simp [subscribeRequest, authorizeRequest])
  · exact absurd (congrArg Request.id heq) (by simp [subscribeRequest, authorizeRequest])
  · rfl

/-- Only what was written, the network thread and its `sendLine` matter. -/
theorem Greeting.of_eq (h : s.Greeting login)
    (hconns : ∀ k, ∃ b, s'.conns k = { s.conns k with broken := b })
    (hopened : s'.opened = s.opened)
    (hwait : ∀ r, Waiting login s' .network r → Waiting login s .network r ∧ s'.net = s.net)
    (hmutex : ∀ w, s'.writeMutex = some w → w.thread = .network → w.sent ≠ 0 →
      s.writeMutex = some w ∧ s'.net = s.net)
    (hsocket : ∀ k, s'.socketFd = some k → s'.net.handshaking = false →
      s.socketFd = some k ∧ s.net.handshaking = false) : s'.Greeting login := by
  have hconnection : s'.connection = s.connection := by rw [connection, hopened, connection]
  refine ⟨fun k => ?_, fun k hk => ?_, fun r hr => ?_, fun w hw ht hsent => ?_, fun k hk hnet => ?_⟩
  · obtain ⟨b, hb⟩ := hconns k
    rw [hb]
    exact h.greeted k
  · obtain ⟨b, hb⟩ := hconns k
    rw [hb]
    exact h.unopened k (hopened ▸ hk)
  · obtain ⟨b, hb⟩ := hconns s.connection
    obtain ⟨hr, hnet⟩ := hwait r hr
    rw [hconnection, hb, hnet]
    exact h.before r hr
  · obtain ⟨b, hb⟩ := hconns s.connection
    obtain ⟨hw, hnet⟩ := hmutex w hw ht hsent
    rw [hconnection, hb, hnet]
    exact h.begun w hw ht hsent
  · obtain ⟨b, hb⟩ := hconns k
    obtain ⟨hk, hnet⟩ := hsocket k hk hnet
    rw [hb]
    exact h.complete k hk hnet

theorem Greeting.of_frame (hb : s.Basic login) (h : s.Greeting login) (he : s.Enabled login l)
    (hl : l.sends = false) : (s.next login l).Greeting login := by
  have hf := next_frame hb he hl
  have hnet : ∀ r, handshake login s.net = some r → (s.next login l).net = s.net :=
    fun r hr => eq_of_handshake hf.handshake hr
  refine h.of_eq (fun k => ⟨(s.conns k).broken, by rw [hf.conns]⟩) hf.opened ?_ ?_ ?_
  · rintro r ⟨hr, hwaiting⟩
    have hr' : handshake login s.net = some r := hf.handshake ▸ hr
    exact ⟨⟨hr', fun w hw => hwaiting w (hf.writeMutex ▸ hw)⟩, hnet r hr'⟩
  · intro w hw ht hsent
    rw [hf.writeMutex] at hw
    have hr := hb.holder w hw
    rw [ht] at hr
    exact ⟨hw, hnet _ hr⟩
  · intro k hk hnot
    refine ⟨hf.socketFd k hk, ?_⟩
    by_contra hhand
    rw [handshaking_of_frame hb he hl hk (by simpa using hhand)] at hnot
    cases hnot

/-- A `sendLine` that gives up, with or without the mutex. -/
theorem Greeting.gives_up (h : s.Greeting login) {t : Thread} {conns : ℕ → Conn}
    (hconns : ∀ k, ∃ b, conns k = { s.conns k with broken := b })
    (hw : ∀ w, s.writeMutex = some w → w.thread = t) :
    ({ s with conns := conns, writeMutex := none }.sendReturns t false).Greeting login := by
  have hnet := net_sendReturns_false (s := { s with conns := conns, writeMutex := none }) t
  refine h.of_eq (by simpa using hconns) (by simp) ?_ (by simp) ?_
  · rintro r ⟨hr, -⟩
    rcases hnet with ⟨hnet, ht⟩ | ⟨-, rfl⟩
    · rw [pending_sendReturns_of_ne ht.symm] at hr
      refine ⟨⟨hr, fun w hw' ht' => absurd ((hw w hw').symm.trans ht') ht⟩, hnet⟩
    · rw [pending_sendReturns_false] at hr
      cases hr
  · intro k hk hnot
    rcases hnet with ⟨hnet, -⟩ | ⟨hnet, -⟩
    · rw [hnet] at hnot
      exact ⟨by simpa using hk, hnot⟩
    · rw [hnet] at hnot
      cases hnot

/-! ## Steps that write -/

/-- A line of the handshake follows those that were sent before it. -/
theorem sentBefore_append {r : Request} (hr : handshake login s.net = some r) :
    s.net.sentBefore ++ [r] <+: greeting login := by
  rcases handshake_eq_some hr with ⟨hnet, rfl⟩ | ⟨hnet, rfl⟩ <;> rw [hnet]
  · exact ⟨[authorizeRequest login], rfl⟩
  · exact List.prefix_rfl

/-- What a `send` leaves on its connection: a part of the handshake up to where it got,
or the whole handshake and what came after it. -/
theorem Greeting.written (hb : s.Basic login) (h : s.Greeting login) {w : Writer} {k n : ℕ}
    (hw : s.writeMutex = some w) (hk : s.socketFd = some k)
    (hP : s.HandshakeAlone login (.send n)) :
    (w.thread = .network ∧ handshake login s.net = some w.request ∧
        (State.written (s.conns k) w n).Begun s.net.sentBefore w.request (w.sent + n)) ∨
      (w.thread ≠ .network ∧ handshake login s.net = none ∧
        (State.written (s.conns k) w n).Complete login) := by
  have hconnection := hb.connection_eq hk
  -- the handshake is written by the network thread; the workers write when it is complete
  by_cases ht : w.thread = .network
  · have hr := hb.holder w hw
    rw [ht] at hr
    refine .inl ⟨ht, hr, ?_⟩
    by_cases hsent : w.sent = 0
    · have hwaiting := waiting_of_holder hb hw hsent
      rw [ht] at hwaiting
      obtain ⟨hrequests, hwhole⟩ := h.before _ hwaiting
      rw [hconnection] at hrequests hwhole
      rw [← hrequests]
      exact hwhole.begun hsent n
    · have hbegun := h.begun w hw ht hsent
      rw [hconnection] at hbegun
      exact hbegun.written hsent n
  · refine .inr ⟨ht, ?_, ?_⟩
    · cases hhand : handshake login s.net with
      | none => rfl
      | some r =>
        rcases handshake_eq_some hhand with ⟨hnet, -⟩ | ⟨hnet, -⟩ <;>
          simpa [hnet] using (hP w hw k hk ht (by rw [hnet]; rfl)).1
    · refine Conn.Complete.written ?_ w n
      by_cases hnet : s.net.handshaking = true
      · exact (hP w hw k hk ht hnet).2
      · exact h.complete k hk (by simpa using hnet)

theorem Greeting.greeted_written (hb : s.Basic login) (h : s.Greeting login) {w : Writer}
    {k n : ℕ} (hw : s.writeMutex = some w) (hk : s.socketFd = some k)
    (hP : s.HandshakeAlone login (.send n)) (k' : ℕ) :
    (Function.update s.conns k (State.written (s.conns k) w n) k').Greeted login := by
  by_cases hk' : k' = k
  · subst hk'
    rw [Function.update_self]
    rcases h.written hb hw hk hP with ⟨-, hr, hbegun⟩ | ⟨-, -, hcomplete⟩
    · exact hbegun.greeted (sentBefore_append hr)
    · exact hcomplete.greeted
  · rw [Function.update_of_ne hk']
    exact h.greeted k'

/-- A connection that is not opened yet is not written to. -/
theorem Greeting.unopened_written (hb : s.Basic login) (h : s.Greeting login) {w : Writer}
    {k n k' : ℕ} (hk : s.socketFd = some k) (hk' : s.opened ≤ k') :
    (Function.update s.conns k (State.written (s.conns k) w n) k').requests = [] ∧
      (Function.update s.conns k (State.written (s.conns k) w n) k').Whole := by
  have hne : k' ≠ k := by
    have := hb.current k hk
    omega
  rw [Function.update_of_ne hne]
  exact h.unopened k' hk'

theorem Greeting.part (hb : s.Basic login) (h : s.Greeting login) {w : Writer} {k n : ℕ}
    (hw : s.writeMutex = some w) (hk : s.socketFd = some k) (hn : 1 ≤ n)
    (hP : s.HandshakeAlone login (.send n)) :
    Greeting login
      { s with
        conns := Function.update s.conns k (State.written (s.conns k) w n)
        writeMutex := some { w with sent := w.sent + n, head := some (w.head.getD k) } } := by
  have hconnection := hb.connection_eq hk
  have hwritten := h.written hb hw hk hP
  refine ⟨h.greeted_written hb hw hk hP, fun k' hk' => h.unopened_written hb hk hk', ?_, ?_, ?_⟩
  · rintro r ⟨hr, hmutex⟩
    rcases hwritten with ⟨ht, -, -⟩ | ⟨-, hnone, -⟩
    · have := hmutex _ rfl ht
      simp only at this
      omega
    · exact absurd (hnone.symm.trans hr) (by simp)
  · rintro w' ⟨⟩ ht -
    rcases hwritten with ⟨-, -, hbegun⟩ | ⟨hne, -⟩
    · change (Function.update s.conns k _ s.connection).Begun _ _ _
      rw [hconnection, Function.update_self]
      exact hbegun
    · exact absurd ht hne
  · intro k' hk' hnot
    obtain rfl : k = k' := Option.some.inj (hk.symm.trans hk')
    change (Function.update s.conns k _ k).Complete login
    rw [Function.update_self]
    rcases hwritten with ⟨-, hr, -⟩ | ⟨-, -, hcomplete⟩
    · rcases handshake_eq_some hr with ⟨hnet, -⟩ | ⟨hnet, -⟩ <;>
        simp [hnet, NetPc.handshaking] at hnot
    · exact hcomplete

/-- A line sent to its end: the next one of the handshake follows, or the handshake is
over, or a worker returns. -/
theorem Greeting.done (hb : s.Basic login) (h : s.Greeting login) {w : Writer} {k n : ℕ}
    (hw : s.writeMutex = some w) (hk : s.socketFd = some k)
    (hP : s.HandshakeAlone login (.send n)) (hend : w.sent + n = w.request.line.length)
    {sent : List Request} :
    ({ s with
      conns := Function.update s.conns k (State.written (s.conns k) w n)
      writeMutex := none
      sent := sent }.sendReturns w.thread true).Greeting login := by
  have hconnection := hb.connection_eq hk
  have hself : Function.update s.conns k (State.written (s.conns k) w n) k =
      State.written (s.conns k) w n := Function.update_self ..
  refine ⟨?_, ?_, ?_, by simp, ?_⟩ <;> simp only [sendReturns_frame, connection]
  · exact h.greeted_written hb hw hk hP
  · exact fun k' hk' => h.unopened_written hb hk hk'
  · rintro r ⟨hr, -⟩
    rw [connection] at hconnection
    rw [hconnection, hself]
    rcases h.written hb hw hk hP with ⟨ht, hhand, hbegun⟩ | ⟨ht, hnone, -⟩
    · rw [ht] at hr ⊢
      -- `mining.subscribe` is written, and `mining.authorize` waits now
      obtain ⟨-, hnet, rfl⟩ := pending_sendReturns_true hr
      rw [hend] at hbegun
      obtain ⟨hwhole, hrequests⟩ := hbegun.whole
      simp only at hnet
      rw [hnet, handshake, Option.some.injEq] at hhand
      simp only [sendReturns, hnet]
      refine ⟨?_, hwhole⟩
      rw [hrequests, hnet, ← hhand]
      rfl
    · rw [pending_sendReturns_of_ne (Ne.symm ht)] at hr
      exact absurd (hnone.symm.trans hr) (by simp)
  · intro k' hk' hnot
    obtain rfl : k = k' := Option.some.inj (hk.symm.trans hk')
    rw [hself]
    rcases h.written hb hw hk hP with ⟨ht, hhand, hbegun⟩ | ⟨-, -, hcomplete⟩
    · rw [hend] at hbegun
      obtain ⟨hwhole, hrequests⟩ := hbegun.whole
      rcases handshake_eq_some hhand with ⟨hnet, -⟩ | ⟨hnet, hr⟩
      · simp [ht, sendReturns, hnet, NetPc.handshaking] at hnot
      -- `mining.authorize` is written: only now is the handshake over
      · refine hwhole.complete ?_
        rw [hrequests, hnet, hr]
        rfl
    · exact hcomplete

theorem Greeting.connected (hb : s.Basic login) (h : s.Greeting login)
    (hnet : s.net = .connecting) : s.connected.Greeting login := by
  obtain ⟨hrequests, hwhole⟩ := h.unopened s.opened le_rfl
  refine ⟨h.greeted, fun k hk => h.unopened k (Nat.le_of_succ_le hk), ?_, ?_, ?_⟩
  · exact fun r hr => ⟨hrequests, hwhole⟩
  · intro w hw ht
    have hr := hb.holder w hw
    simp [ht, pending, hnet, handshake] at hr
  · intro k hk hnot
    cases hnot

theorem Greeting.next (hb : s.Basic login) (h : s.Greeting login) (he : s.Enabled login l)
    (hP : s.HandshakeAlone login l) : (s.next login l).Greeting login := by
  cases hsends : l.sends with
  | false => exact h.of_frame hb he hsends
  | true =>
    have hstep := next_sends he hsends
    generalize s.next login l = s' at hstep
    cases hstep with
    | submit i share hi =>
      exact h.of_eq (fun k => ⟨_, rfl⟩) rfl (fun r hr => ⟨hr, rfl⟩)
        (fun w hw _ _ => ⟨hw, rfl⟩) fun k hk hnot => ⟨hk, hnot⟩
    | refused t r hw hr hk =>
      have hself : { s with conns := s.conns, writeMutex := none } = s := by rw [← hw]
      rw [← hself]
      exact h.gives_up (fun k => ⟨_, rfl⟩) (by simp [hw])
    | locked t r k hw hr hk =>
      refine h.of_eq (fun k => ⟨_, rfl⟩) rfl ?_ ?_ fun k hk hnot => ⟨hk, hnot⟩
      · rintro r' ⟨hr', -⟩
        exact ⟨⟨hr', by simp [hw]⟩, rfl⟩
      · rintro w ⟨⟩ - hsent
        exact absurd rfl hsent
    | part w k n hw hk hn hlt => exact h.part hb hw hk hn hP
    | done w k n hw hk hn hend => exact h.done hb hw hk hP hend
    | error w hw =>
      refine h.gives_up ?_ (by simp [hw])
      intro k
      cases hhead : w.head with
      | none => exact ⟨_, rfl⟩
      | some k' =>
        by_cases hk : k = k'
        · subst hk
          exact ⟨true, Function.update_self ..⟩
        · exact ⟨_, Function.update_of_ne hk ..⟩
    | connected hnet => exact h.connected hb hnet

end State

open State in
/-- In a run in which no worker writes before the handshake is sent, every connection
starts with the lines of `mining.subscribe` and `mining.authorize`. -/
theorem greeted_of_reach {login : Login} {s : State}
    (h : (client login).Reach (HandshakeAlone login) s) (k : ℕ) : (s.conns k).Greeted login := by
  have hgreeting : s.Greeting login := by
    refine h.invariant_of (fun _ => basic_of_reach) ?_ fun _ _ hb hg he hP => hg.next hb he hP
    have hempty : ({} : Conn).Greeted login := ⟨List.nil_prefix, List.nil_prefix⟩
    refine ⟨fun _ => hempty, fun _ _ => ⟨rfl, rfl⟩, ?_, ?_, ?_⟩ <;>
      simp [client, Waiting, pending, handshake]
  exact hgreeting.greeted k

/-- A worker that takes the mutex after the handshake of the second connection. -/
theorem greeted_of_reach_reconnectRun :
    let login : Login := ⟨bytes "wallet", bytes "rig", bytes "x"⟩
    let share := Submit.blobShare (bytes "job") (bytes "00")
    let s := (client login).exec {} (handshakeRun login ++ reconnectRun ++ greetingRun login ++
      submitRun login 0 share 2)
    (s.conns 1).requests.length = 3 ∧ (s.conns 1).Greeted login := by
  intro login share s
  have hvalid : (client login).Valid (State.HandshakeAlone login) {} (handshakeRun login ++
      reconnectRun ++ greetingRun login ++ submitRun login 0 share 2) := by
    decide +kernel
  have h : (client login).Reach (State.HandshakeAlone login) s := .exec .init hvalid
  exact ⟨by decide +kernel, greeted_of_reach h 1⟩

/-- A worker that waits for a connection writes to the next one first. -/
theorem submit_before_handshake :
    ¬ ∀ (login : Login) (s : State), (client login).Reachable s →
      ∀ k, (s.conns k).Greeted login := by
  intro h
  let login : Login := ⟨bytes "wallet", bytes "rig", bytes "x"⟩
  let share := Submit.blobShare (bytes "job") (bytes "00")
  let run := handshakeRun login ++ reconnectRun ++ submitRun login 0 share 2
  let s := (client login).exec {} run
  have hvalid : (client login).Valid (fun _ _ => True) {} run := by decide +kernel
  have hreach : (client login).Reachable s := .exec .init hvalid
  obtain ⟨⟨rs, hrequests⟩, -⟩ := h login s hreach 1
  have hids : ((s.conns 1).requests.take 2).map (·.id) = [2] := by decide +kernel
  have hgreeting : (greeting login).map (·.id) = [1, 2] := rfl
  rw [← hrequests, List.map_append, hids] at hgreeting
  exact absurd (List.cons.inj hgreeting).1 (by decide)

end CppMiner.Network
