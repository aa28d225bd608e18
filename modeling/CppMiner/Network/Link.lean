-- SUMMARY: The client with a pool at the other end of its connections: what the pool posts is handled in order, each line once.
import CppMiner.Network.Sessions

/-!
# The client and its pool

`link login` is the client together with a pool that posts lines on its connections, at any
time and as many as it likes. What the client receives on a connection is what was posted
there, cut into chunks anyhow. A connection that is lost takes with it what was posted and
not received, and what was received and not handled.

Whatever the client does meanwhile, the lines that it handles on a connection are the first
ones posted there, in that order and each once (`handled_in_order`).
-/

namespace CppMiner.Network

namespace State

/-- The lines handled on a connection, in order. -/
def handledOn (s : State) (k : ℕ) : List Bytes := (s.handled.filter (·.1 = k)).map (·.2)

theorem handledOn_of_eq {s s' : State} (h : s'.handled = s.handled) (k : ℕ) :
    s'.handledOn k = s.handledOn k := by
  rw [handledOn, h, handledOn]

theorem handledOn_handle (s : State) (line rest : Bytes) (k : ℕ) :
    (s.handle line rest).handledOn k =
      if k = s.connection then s.handledOn k ++ [line] else s.handledOn k := by
  by_cases hk : k = s.connection
  · simp [handledOn, handle, hk]
  · simp [handledOn, handle, hk, Ne.symm hk]

end State

/-- The client, what the pool has posted, and how much of it was received. -/
structure Link where
  client : State := {}
  posted : ℕ → List Bytes := fun _ => []
  received : ℕ → Bytes := fun _ => []

namespace Link

inductive Label where
  | client (l : Network.Label)
  | post (k : ℕ) (line : Bytes)

/-- A chunk is what comes next of the lines posted on the connection. -/
def Carries (s : Link) : Network.Label → Prop
  | .recv chunk =>
    s.received s.client.connection ++ chunk <+:
      Lines.join newline (s.posted s.client.connection)
  | _ => True

instance (s : Link) : (l : Network.Label) → Decidable (s.Carries l)
  | .recv chunk => inferInstanceAs (Decidable (s.received s.client.connection ++ chunk <+:
      Lines.join newline (s.posted s.client.connection)))
  | .start | .stop | .stopDisconnect | .join | .submit .. | .lock _ | .send _ | .sendError
  | .checkOuter | .connectFails | .connected | .reconnect | .checkInner | .timeout
  | .connectionLost | .line | .drained | .checkLost | .drop | .waited => .isTrue trivial

def Enabled (login : Login) (s : Link) : Label → Prop
  | .client l => s.client.Enabled login l ∧ s.Carries l
  | .post _ line => newline ∉ line

instance (login : Login) (s : Link) (l : Label) : Decidable (s.Enabled login l) := by
  cases l <;> dsimp only [Enabled] <;> infer_instance

/-- What a step of the client receives. -/
def chunkOf : Network.Label → Bytes
  | .recv chunk => chunk
  | _ => []

def next (login : Login) (s : Link) : Label → Link
  | .client l =>
    let k := s.client.connection
    { s with
      client := s.client.next login l
      received := Function.update s.received k (s.received k ++ chunkOf l) }
  | .post k line => { s with posted := Function.update s.posted k (s.posted k ++ [line]) }

end Link

def link (login : Login) : TransitionSystem Link Link.Label where
  init := {}
  Enabled := Link.Enabled login
  next := Link.next login

instance (login : Login) (s : Link) (l : Link.Label) : Decidable ((link login).Enabled s l) :=
  inferInstanceAs (Decidable (s.Enabled login l))

/-- The pool adds nothing to what the client can do. -/
theorem client_of_link {login : Login} {P : Link → Link.Label → Prop} {s : Link}
    (h : (link login).Reach P s) : (client login).Reachable s.client := by
  refine h.map (T := client login) Link.client rfl fun s l he _ => ?_
  cases l with
  | client l => exact .inr ⟨l, he.1, rfl⟩
  | post k line => exact .inl rfl

namespace State

variable {login : Login} {s s' : State} {l : Label}

/-- What a return of `sendLine` leaves in the buffer where lines are received. What the
write did to the connections does not matter. -/
theorem lineBuffer_sendReturns {t : Thread} {r : Request} {ok : Bool}
    (hr : s.pending login t = some r) (hnet : (s'.sendReturns t ok).net.receiving = true)
    (hs : s'.net = s.net ∧ s'.lineBuffer = s.lineBuffer) :
    s.net.receiving = true ∧ (s'.sendReturns t ok).lineBuffer = s.lineBuffer ∨
      s.net = .authorizing ∧ (s'.sendReturns t ok).lineBuffer = [] := by
  obtain ⟨hsame, hbuf⟩ := hs
  cases t with
  | worker i => exact .inl ⟨hsame ▸ hnet, hbuf⟩
  | network =>
    rcases handshake_eq_some hr with ⟨hpc, -⟩ | ⟨hpc, -⟩ <;> cases ok <;>
      simp [sendReturns, hsame, hpc, NetPc.receiving] at hnet ⊢

theorem SendStep.lineBuffer (hb : s.Basic login) (h : SendStep login s l s')
    (hnet : s'.net.receiving = true) :
    s.net.receiving = true ∧ s'.lineBuffer = s.lineBuffer ∨
      s.net = .authorizing ∧ s'.lineBuffer = [] := by
  cases h with
  | connected hconnecting => cases hnet
  | submit i share hi => exact .inl ⟨hnet, rfl⟩
  | locked t r k hw hr hk => exact .inl ⟨hnet, rfl⟩
  | part w k n hw hk hn hlt => exact .inl ⟨hnet, rfl⟩
  | refused t r hw hr hk => exact lineBuffer_sendReturns hr hnet ⟨rfl, rfl⟩
  | done w k n hw hk hn hend => exact lineBuffer_sendReturns (hb.holder w hw) hnet ⟨rfl, rfl⟩
  | error w hw => exact lineBuffer_sendReturns (hb.holder w hw) hnet ⟨rfl, rfl⟩

end State

namespace Link

variable {login : Login} {s s' : Link}

/-- Where the bytes of the connections are: what was received is the beginning of what was
posted, and was handled up to what the buffer holds. -/
structure Delivery (s : Link) : Prop where
  lines : ∀ k, ∀ line ∈ s.posted k, newline ∉ line
  handledLines : ∀ k, ∀ line ∈ s.client.handledOn k, newline ∉ line
  posted : ∀ k, s.received k <+: Lines.join newline (s.posted k)
  handled : ∀ k, Lines.join newline (s.client.handledOn k) <+: s.received k
  unopened : ∀ k, s.client.opened ≤ k → s.received k = []
  /-- Nothing is received before the handshake is sent. -/
  handshake : s.client.net = .subscribing ∨ s.client.net = .authorizing →
    s.received s.client.connection = []
  buffer : s.client.net.receiving = true →
    s.received s.client.connection =
      Lines.join newline (s.client.handledOn s.client.connection) ++ s.client.lineBuffer

/-- A step that neither receives nor handles anything, and after which lines are received
only where they were before. -/
theorem Delivery.of_net (h : s.Delivery) {c : State}
    (hopened : c.opened = s.client.opened) (hhandled : c.handled = s.client.handled)
    (hhandshake : c.net = .subscribing ∨ c.net = .authorizing →
      s.client.net = .subscribing ∨ s.client.net = .authorizing)
    (hbuffer : c.net.receiving = true →
      s.client.net.receiving = true ∧ c.lineBuffer = s.client.lineBuffer ∨
        s.client.net = .authorizing ∧ c.lineBuffer = []) :
    Delivery { s with client := c } := by
  have hconnection : c.connection = s.client.connection := by
    rw [State.connection, hopened, State.connection]
  have hon : ∀ k, c.handledOn k = s.client.handledOn k := State.handledOn_of_eq hhandled
  refine ⟨h.lines, ?_, h.posted, ?_, ?_, ?_, ?_⟩
  · simpa only [hon] using h.handledLines
  · simpa only [hon] using h.handled
  · simpa only [hopened] using h.unopened
  · intro hnet
    rw [hconnection]
    exact h.handshake (hhandshake hnet)
  · intro hnet
    simp only [hconnection, hon]
    rcases hbuffer hnet with ⟨hreceiving, hbuf⟩ | ⟨hauthorizing, hbuf⟩
    · rw [hbuf]
      exact h.buffer hreceiving
    · have hempty := h.handshake (.inr hauthorizing)
      have hhandled := h.handled s.client.connection
      rw [hempty, List.prefix_nil] at hhandled
      rw [hbuf, hempty, hhandled, List.append_nil]

/-- The network thread moves on, and lines are received only where they were before. -/
theorem Delivery.move (h : s.Delivery) {pc : NetPc}
    (hpc : pc ≠ .subscribing ∧ pc ≠ .authorizing)
    (hreceiving : pc.receiving = true → s.client.net.receiving = true) :
    Delivery { s with client := { s.client with net := pc } } := by
  refine h.of_net rfl rfl ?_ fun hnet => .inl ⟨hreceiving hnet, rfl⟩
  rintro (hnet | hnet)
  · exact absurd hnet hpc.1
  · exact absurd hnet hpc.2

theorem Delivery.connected (h : s.Delivery) :
    Delivery { s with client := s.client.connected } := by
  refine ⟨h.lines, h.handledLines, h.posted, h.handled, ?_, ?_, ?_⟩
  · intro k hk
    exact h.unopened k (Nat.le_of_succ_le hk)
  · intro _
    exact h.unopened s.client.opened (Nat.le_refl _)
  · simp [State.connected, NetPc.receiving]

/-- A chunk is received on the connection that was opened last. -/
theorem Delivery.recv (h : s.Delivery) (hopened : 0 < s.client.opened) {chunk : Bytes}
    (hnet : s.client.net = .polling)
    (hcarries : s.received s.client.connection ++ chunk <+:
      Lines.join newline (s.posted s.client.connection)) :
    ((link login).next s (.client (.recv chunk))).Delivery := by
  have hreceived : ∀ k, Function.update s.received s.client.connection
      (s.received s.client.connection ++ chunk) k =
        if k = s.client.connection then s.received k ++ chunk else s.received k := by
    intro k
    by_cases hk : k = s.client.connection
    · rw [hk, Function.update_self, if_pos rfl]
    · rw [Function.update_of_ne hk, if_neg hk]
  -- only the bytes received on this connection, and its buffer, grow; both by the chunk
  refine ⟨h.lines, h.handledLines, ?_, ?_, ?_, ?_, ?_⟩
  · intro k
    simp only [link, next, chunkOf, hreceived]
    split
    · rename_i hk
      rw [hk]
      exact hcarries
    · exact h.posted k
  · intro k
    simp only [link, next, chunkOf, hreceived]
    split
    · exact (h.handled k).trans (List.prefix_append _ _)
    · exact h.handled k
  · intro k hk
    have hne : k ≠ s.client.connection := by
      rintro rfl
      simp only [link, next, State.next, State.connection] at hk
      omega
    simp only [link, next, chunkOf, hreceived, if_neg hne]
    exact h.unopened k hk
  · simp [link, next, State.next]
  · intro _
    have hbuffer := h.buffer (by rw [hnet]; rfl)
    have hconnection : (s.client.next login (.recv chunk)).connection = s.client.connection := rfl
    simp only [link, next, chunkOf, hconnection, Function.update_self, hbuffer,
      List.append_assoc]
    rfl

/-- A line is handled with what was received of it. -/
theorem Delivery.handle (h : s.Delivery) (hnet : s.client.net = .draining) {line rest : Bytes}
    (hline : nextLine s.client.lineBuffer = some (line, rest)) :
    Delivery { s with client := s.client.handle line rest } := by
  obtain ⟨hbuf, hnl⟩ := nextLine_eq_some.mp hline
  have hbuffer := h.buffer (by rw [hnet]; rfl)
  have hconnection : (s.client.handle line rest).connection = s.client.connection := rfl
  have hreceived : s.received s.client.connection =
      Lines.join newline (s.client.handledOn s.client.connection ++ [line]) ++ rest := by
    rw [hbuffer, hbuf, Lines.join_append]
    simp
  refine ⟨h.lines, ?_, h.posted, ?_, h.unopened, ?_, ?_⟩
  · intro k
    rw [State.handledOn_handle]
    split
    · intro l hl
      rcases List.mem_append.mp hl with hl | hl
      · exact h.handledLines k l hl
      · rw [List.mem_singleton.mp hl]
        exact hnl
    · exact h.handledLines k
  · intro k
    rw [State.handledOn_handle]
    split
    · rename_i hk
      rw [hk, hreceived]
      exact List.prefix_append _ _
    · exact h.handled k
  · intro hhandshake
    exact h.handshake hhandshake
  · intro _
    rw [hconnection, State.handledOn_handle, if_pos rfl]
    exact hreceived

/-- A line is put after those that were posted before it. -/
theorem Delivery.post (h : s.Delivery) (k : ℕ) {line : Bytes} (hline : newline ∉ line) :
    ((link login).next s (.post k line)).Delivery := by
  refine ⟨?_, h.handledLines, ?_, h.handled, h.unopened, h.handshake, h.buffer⟩ <;> intro k' <;>
    simp only [link, next] <;> by_cases hk : k' = k
  · subst hk
    rw [Function.update_self]
    intro l hl
    rcases List.mem_append.mp hl with hl | hl
    · exact h.lines k' l hl
    · rw [List.mem_singleton.mp hl]
      exact hline
  · rw [Function.update_of_ne hk]
    exact h.lines k'
  · subst hk
    rw [Function.update_self, Lines.join_append]
    exact (h.posted k').trans (List.prefix_append _ _)
  · rw [Function.update_of_ne hk]
    exact h.posted k'

/-- A step that receives nothing leaves what was received alone. -/
theorem next_client (s : Link) {l : Network.Label} (hl : chunkOf l = []) :
    (link login).next s (.client l) = { s with client := s.client.next login l } := by
  simp only [link, next, hl, List.append_nil, Function.update_eq_self]

theorem Delivery.next_client (hb : s.client.Basic login) (ho : s.client.Orderly)
    (h : s.Delivery) {l : Network.Label} (he : s.client.Enabled login l) (hcarries : s.Carries l) :
    ((link login).next s (.client l)).Delivery := by
  cases hsends : l.sends with
  | true =>
    have hchunk : chunkOf l = [] := by
      cases l <;> first | rfl | cases hsends
    rw [Link.next_client s hchunk]
    -- a new connection starts with nothing received; any other step of the sending side
    -- receives and handles nothing, and empties the buffer where the handshake is complete
    rcases State.next_keeps hb he hsends with ⟨rfl, -⟩ | ⟨hl, hk⟩
    · exact h.connected
    · have hbuffer := (State.next_sends he hsends).lineBuffer hb
      have hadvance := hk.net
      refine h.of_net hk.opened hk.handled ?_ hbuffer
      generalize s.client.net = net at hadvance
      generalize (s.client.next login l).net = net' at hadvance
      cases hadvance <;> simp
  | false =>
    cases l with
    | submit i share => cases hsends
    | lock t => cases hsends
    | send n => cases hsends
    | sendError => cases hsends
    | connected => cases hsends
    | recv chunk => exact h.recv (ho.opened (by rw [he.1]; rfl)) he.1 hcarries
    -- a line leaves the buffer and is handled in one step
    | line =>
      obtain ⟨line, rest, hnet, hline, hs⟩ := State.next_line he
      rw [Link.next_client s rfl, hs]
      exact h.handle hnet hline
    | start =>
      rw [Link.next_client s rfl, State.next, State.start]
      split
      · exact h
      · exact h.of_net rfl rfl (by simp) (by simp [NetPc.receiving])
    | stop =>
      rw [Link.next_client s rfl, State.next, State.stop]
      split
      · exact h.of_net rfl rfl id fun hnet => .inl ⟨hnet, rfl⟩
      · exact h
    | stopDisconnect =>
      rw [Link.next_client s rfl]
      exact h.of_net rfl rfl id fun hnet => .inl ⟨hnet, rfl⟩
    | join =>
      rw [Link.next_client s rfl]
      exact h.of_net rfl rfl id fun hnet => .inl ⟨hnet, rfl⟩
    -- after a disconnect nothing is received until the next handshake is through
    | reconnect =>
      rw [Link.next_client s rfl]
      exact h.of_net rfl rfl (by simp [State.next]) (by simp [State.next, NetPc.receiving])
    | drop =>
      rw [Link.next_client s rfl]
      exact h.of_net rfl rfl (by simp [State.next]) (by simp [State.next, NetPc.receiving])
    -- the rest only moves in the loops, from where lines are received to where they are
    | checkOuter =>
      rw [Link.next_client s rfl]
      exact h.move (by split <;> simp) (by split <;> simp [NetPc.receiving])
    | checkInner =>
      have hnet : s.client.net = .inner := he
      rw [Link.next_client s rfl]
      exact h.move (by split <;> simp) fun _ => by rw [hnet]; rfl
    | checkLost =>
      rw [Link.next_client s rfl]
      exact h.move (by split <;> simp) (by split <;> simp [NetPc.receiving])
    | timeout =>
      have hnet : s.client.net = .polling := he
      rw [Link.next_client s rfl]
      exact h.move (by simp) fun _ => by rw [hnet]; rfl
    | drained =>
      rw [Link.next_client s rfl]
      exact h.move (by simp) fun _ => by rw [he.1]; rfl
    | connectFails =>
      rw [Link.next_client s rfl]
      exact h.move (by simp) (by simp [NetPc.receiving])
    | connectionLost =>
      rw [Link.next_client s rfl]
      exact h.move (by simp) (by simp [NetPc.receiving])
    | waited =>
      rw [Link.next_client s rfl]
      exact h.move (by simp) (by simp [NetPc.receiving])

theorem Delivery.next (hb : s.client.Basic login) (ho : s.client.Orderly) (h : s.Delivery)
    {l : Label} (he : s.Enabled login l) : ((link login).next s l).Delivery := by
  cases l with
  | client l => exact h.next_client hb ho he.1 he.2
  | post k line => exact h.post k he

/-- What was handled on a connection is the beginning of what was posted there. -/
theorem Delivery.handledOn_prefix_posted (h : s.Delivery) (k : ℕ) :
    s.client.handledOn k <+: s.posted k :=
  Lines.prefix_of_join (h.handledLines k) (h.lines k) ((h.handled k).trans (h.posted k))

end Link

theorem delivery_of_reach {login : Login} {P : Link → Link.Label → Prop} {s : Link}
    (h : (link login).Reach P s) : s.Delivery := by
  refine h.invariant_of (J := fun s => s.client.Basic login ∧ s.client.Orderly)
    (fun s hs => ?_) ?_ fun s l hJ hs he _ => hs.next hJ.1 hJ.2 he
  · have hclient := client_of_link hs
    exact ⟨basic_of_reach hclient, orderly_of_reach hclient⟩
  · have hnil : ([] : Bytes) <+: [] := List.prefix_refl []
    exact ⟨nofun, nofun, fun _ => hnil, fun _ => hnil, fun _ _ => rfl, fun _ => rfl, nofun⟩

/-- On every connection the client handles what the pool posts there, in order, each line
once and none of another connection, until it stops reading there. -/
theorem handled_in_order {login : Login} {s : Link} (h : (link login).Reachable s) (k : ℕ) :
    ∃ n, s.client.handledOn k = (s.posted k).take n :=
  ⟨_, List.prefix_iff_eq_take.mp ((delivery_of_reach h).handledOn_prefix_posted k)⟩

/-- A line that is received in two pieces, and one that is lost with the connection. -/
def lostRun (login : Login) : List Link.Label :=
  (handshakeRun login).map .client ++
    [.post 0 subscribedLine, .post 0 authorizedLine,
      .client (.recv (subscribedLine.take 5)), .client .drained, .client .checkInner,
      .client (.recv (subscribedLine.drop 5 ++ newline :: authorizedLine.take 5)),
      .client .line, .client .drained, .client .checkInner] ++
    (reconnectRun ++ greetingRun login).map .client ++
    [.post 1 authorizedLine, .client (.recv (authorizedLine ++ [newline])), .client .line]

theorem handled_in_order_lostRun :
    let login : Login := ⟨bytes "wallet", bytes "rig", bytes "x"⟩
    let s := (link login).exec {} (lostRun login)
    s.client.handledOn 0 = [subscribedLine] ∧ ∃ n, s.client.handledOn 0 = (s.posted 0).take n := by
  intro login s
  have hvalid : (link login).IsRun {} (lostRun login) := by decide +kernel
  have h : (link login).Reachable s := .exec .init hvalid
  exact ⟨by decide +kernel, handled_in_order h 0⟩

end CppMiner.Network
