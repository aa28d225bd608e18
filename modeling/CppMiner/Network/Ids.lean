-- SUMMARY: The ids of requests over whole runs, and which request a response is taken to answer.
import CppMiner.Network.Sending

/-!
# Request ids

Responses are told apart by their ids alone: 1 and 2 are the handshake's, and the
comment in `handleResponse` takes share submissions to start at 3. The counter starts
at 1 and is incremented before it is read, so that the first submit of a client draws
2, the id of `mining.authorize`. In a run in which that submit is never written, the
ids on a connection are distinct and responses are classified by the request they
answer (`responses_answer_requests`).
-/

namespace CppMiner.Network

/-- A `mining.submit` request. -/
def Request.IsSubmit (r : Request) : Prop := r.method = bytes "mining.submit"

theorem Submit.isSubmit_request (login : Login) (requestId : ℤ) (share : Submit) :
    (share.request login requestId).IsSubmit := by
  cases share <;> rfl

theorem Submit.id_request (login : Login) (requestId : ℤ) (share : Submit) :
    (share.request login requestId).id = requestId := by
  cases share <;> rfl

theorem not_isSubmit_subscribe : ¬ subscribeRequest.IsSubmit := by
  unfold Request.IsSubmit
  decide

theorem not_isSubmit_authorize (login : Login) : ¬ (authorizeRequest login).IsSubmit := by
  change ¬ bytes "mining.authorize" = bytes "mining.submit"
  decide

theorem preIncrement_of_lt {n : ℤ} (h : 0 ≤ n) (hn : n + 1 < 2 ^ 31) : preIncrement n = n + 1 :=
  Int.bmod_eq_of_le (by norm_num; omega) (by norm_num; omega)

namespace State

variable {login : Login} {s s' : State} {l : Label}

/-! ## The ids the counter gives out -/

/-- The requests of the workers carry ids that were drawn, no two the same. -/
structure Drawn (s : State) : Prop where
  counter : s.nextRequestId = 1 + s.submits
  submit : ∀ i r, s.workers i = some r → r.IsSubmit ∧ 2 ≤ r.id ∧ r.id ≤ s.nextRequestId
  apart : ∀ i j r q, s.workers i = some r → s.workers j = some q → r.id = q.id → i = j

/-- Only the counter and the workers matter, and a worker may return. -/
theorem Drawn.of_eq (h : s.Drawn) (hn : s'.nextRequestId = s.nextRequestId)
    (hs : s'.submits = s.submits)
    (hw : ∀ i r, s'.workers i = some r → s.workers i = some r) : s'.Drawn where
  counter := by rw [hn, hs, h.counter]
  submit i r hr := by rw [hn]; exact h.submit i r (hw i r hr)
  apart i j r q hr hq := h.apart i j r q (hw i r hr) (hw j q hq)

theorem workers_sendReturns {t : Thread} {ok : Bool} {i : ℕ} {r : Request}
    (h : (s.sendReturns t ok).workers i = some r) : s.workers i = some r := by
  cases t with
  | network => cases hnet : s.net <;> cases ok <;> simpa [sendReturns, hnet] using h
  | worker j =>
    simp only [sendReturns] at h
    by_cases hij : i = j
    · subst hij
      simp at h
    · rwa [Function.update_of_ne hij] at h

/-- The counter does not wrap in a run of so few submits. -/
theorem Drawn.preIncrement_eq (h : s.Drawn) (hsubmits : s.submits + 1 < 2 ^ 31 - 3) :
    preIncrement s.nextRequestId = s.nextRequestId + 1 := by
  have hcounter := h.counter
  exact preIncrement_of_lt (by omega) (by omega)

/-- After a submit its worker has the new request, the others what they had. -/
theorem workers_submit {i j : ℕ} {share : Submit} {r : Request}
    (h : (s.submit login i share).workers j = some r) :
    j = i ∧ r = share.request login (preIncrement s.nextRequestId) ∨
      j ≠ i ∧ s.workers j = some r := by
  simp only [State.submit] at h
  by_cases hj : j = i
  · subst hj
    rw [Function.update_self, Option.some.injEq] at h
    exact .inl ⟨rfl, h.symm⟩
  · rw [Function.update_of_ne hj] at h
    exact .inr ⟨hj, h⟩

/-- A submit draws an id above all that were drawn before. -/
theorem Drawn.submitted (h : s.Drawn) (hsubmits : s.submits + 1 < 2 ^ 31 - 3) (i : ℕ)
    (share : Submit) : (s.submit login i share).Drawn := by
  have hcounter := h.counter
  have hid := h.preIncrement_eq hsubmits
  have hnext : (s.submit login i share).nextRequestId = s.nextRequestId + 1 := hid
  have hnew : (share.request login (preIncrement s.nextRequestId)).id = s.nextRequestId + 1 := by
    rw [Submit.id_request, hid]
  have hold : ∀ j r, s.workers j = some r → r.id < s.nextRequestId + 1 := fun j r hr =>
    Int.lt_add_one_of_le (h.submit j r hr).2.2
  refine ⟨?_, ?_, ?_⟩
  · rw [hnext, hcounter, State.submit]
    push_cast
    ring
  · intro j r hr
    rw [hnext]
    rcases workers_submit hr with ⟨-, rfl⟩ | ⟨-, hr⟩
    · exact ⟨Submit.isSubmit_request _ _ _, by omega, le_of_eq hnew⟩
    · obtain ⟨hsub, hlo, hhi⟩ := h.submit j r hr
      exact ⟨hsub, hlo, by omega⟩
  · intro j j' r q hr hq heq
    rcases workers_submit hr with ⟨rfl, rfl⟩ | ⟨-, hr'⟩ <;>
      rcases workers_submit hq with ⟨rfl, rfl⟩ | ⟨-, hq'⟩
    · rfl
    · have := hold j' q hq'
      omega
    · have := hold j r hr'
      omega
    · exact h.apart j j' r q hr' hq' heq

theorem Drawn.next (hb : s.Basic login) (h : s.Drawn) (he : s.Enabled login l)
    (hsubmits : (s.next login l).submits < 2 ^ 31 - 3) : (s.next login l).Drawn := by
  cases hsends : l.sends with
  | false =>
    have hf := next_frame hb he hsends
    exact h.of_eq hf.nextRequestId hf.submits fun i r hr => by rwa [hf.workers] at hr
  | true =>
    have hstep := next_sends he hsends
    generalize s.next login l = s' at hstep hsubmits
    cases hstep with
    | submit i share hi => exact h.submitted hsubmits i share
    | refused t r hw hr hk => exact h.of_eq (by simp) (by simp) fun i r => workers_sendReturns
    | locked t r k hw hr hk => exact h.of_eq rfl rfl fun i r hr => hr
    | part w k n hw hk hn hlt => exact h.of_eq rfl rfl fun i r hr => hr
    | done w k n hw hk hn hend =>
      exact h.of_eq (by simp) (by simp) fun i r hr => (workers_sendReturns hr :)
    | error w hw =>
      unfold State.sendError
      exact h.of_eq (by simp) (by simp) fun i r hr => (workers_sendReturns hr :)
    | connected hnet => exact h.of_eq rfl rfl fun i r hr => hr

/-! ## The ids on a connection -/

/-- The first submit of the client, which draws the id 2, is not written, and no
response has an id that is cut to 2. -/
def FirstSubmitUnsent (s : State) : Label → Prop
  | .send _ => ∀ w ∈ s.writeMutex, w.thread ≠ .network → w.request.id ≠ 2
  | .line => ∀ p ∈ nextLine s.lineBuffer, ∀ n ∈ responseId p.1, ¬ (2 < n ∧ n < 3)
  | _ => True

instance (s : State) : (l : Label) → Decidable (s.FirstSubmitUnsent l)
  | .send _ => inferInstanceAs
      (Decidable (∀ w ∈ s.writeMutex, w.thread ≠ .network → w.request.id ≠ 2))
  | .line => inferInstanceAs
      (Decidable (∀ p ∈ nextLine s.lineBuffer, ∀ n ∈ responseId p.1, ¬ (2 < n ∧ n < 3)))
  | .start | .stop | .stopDisconnect | .join | .submit .. | .lock _ | .sendError | .checkOuter
  | .connectFails | .connected | .reconnect | .checkInner | .timeout | .connectionLost | .recv _
  | .drained | .checkLost | .drop | .waited => .isTrue trivial

/-- A thread is in `sendLine` with a request of which nothing was written yet. -/
def Waiting (login : Login) (s : State) (t : Thread) (r : Request) : Prop :=
  s.pending login t = some r ∧ ∀ w, s.writeMutex = some w → w.thread = t → w.sent = 0

theorem waiting_of_ne_holder {w : Writer} {t : Thread} {r : Request}
    (hw : s.writeMutex = some w) (ht : t ≠ w.thread) (hr : s.pending login t = some r) :
    Waiting login s t r := by
  refine ⟨hr, fun w' hw' ht' => ?_⟩
  rw [hw] at hw'
  cases hw'
  exact absurd ht'.symm ht

theorem waiting_of_holder (hb : s.Basic login) {w : Writer} (hw : s.writeMutex = some w)
    (hsent : w.sent = 0) : Waiting login s w.thread w.request := by
  refine ⟨hb.holder w hw, fun w' hw' _ => ?_⟩
  rw [hw] at hw'
  cases hw'
  exact hsent

/-- What is on the connections, and that it differs from what is still to come. -/
structure Logged (login : Login) (s : State) : Prop where
  unopened : ∀ k, s.opened ≤ k → (s.conns k).requests = []
  kinds : ∀ k, ∀ r ∈ (s.conns k).requests, r = subscribeRequest ∨ r = authorizeRequest login ∨
    r.IsSubmit ∧ 3 ≤ r.id ∧ r.id ≤ s.nextRequestId
  nodup : ∀ k, ((s.conns k).requests.map (·.id)).Nodup
  fresh : ∀ i r, Waiting login s (.worker i) r → 3 ≤ r.id →
    ∀ k, ∀ q ∈ (s.conns k).requests, q.id ≠ r.id
  greeting : ∀ r, Waiting login s .network r →
    ∀ q ∈ (s.conns s.connection).requests, q.id ≠ r.id
  order : s.net = .subscribing → ∀ q ∈ (s.conns s.connection).requests, q.id ≠ 2
  begun : ∀ w, s.writeMutex = some w → w.thread = .network → w.sent ≠ 0 →
    w.request ∈ (s.conns s.connection).requests
  greeted : s.net.receiving = true → authorizeRequest login ∈ (s.conns s.connection).requests

theorem handshake_eq_some {net : NetPc} {r : Request} (h : handshake login net = some r) :
    net = .subscribing ∧ r = subscribeRequest ∨
      net = .authorizing ∧ r = authorizeRequest login := by
  cases net <;> simp [handshake] at h ⊢ <;> exact h.symm

/-- A step that writes nothing. A worker may take up a request with a new id. -/
theorem Logged.of_eq (h : s.Logged login)
    (hrequests : ∀ k, (s'.conns k).requests = (s.conns k).requests)
    (hopened : s'.opened = s.opened) (hnext : s.nextRequestId ≤ s'.nextRequestId)
    (hwait : ∀ t r, Waiting login s' t r →
      Waiting login s t r ∨ t ≠ .network ∧ s.nextRequestId < r.id)
    (hnet : s'.net = .subscribing → s.net = .subscribing)
    (hmutex : ∀ w, s'.writeMutex = some w → w.sent ≠ 0 → s.writeMutex = some w)
    (hreceiving : s'.net.receiving = true → s.net.receiving = true) : s'.Logged login := by
  have hconnection : s'.connection = s.connection := by rw [connection, hopened, connection]
  refine ⟨?_, ?_, ?_, ?_, ?_, ?_, ?_, ?_⟩ <;> simp only [hrequests, hconnection, hopened]
  · exact h.unopened
  · intro k r hr
    rcases h.kinds k r hr with hsub | hauth | ⟨hsubmit, hlo, hhi⟩
    · exact .inl hsub
    · exact .inr (.inl hauth)
    · exact .inr (.inr ⟨hsubmit, hlo, le_trans hhi hnext⟩)
  · exact h.nodup
  · intro i r hr hid k q hq
    rcases hwait _ r hr with hold | ⟨-, hnew⟩
    · exact h.fresh i r hold hid k q hq
    · rcases h.kinds k q hq with rfl | rfl | ⟨-, -, hhi⟩
      · exact (by omega : (1 : ℤ) ≠ r.id)
      · exact (by omega : (2 : ℤ) ≠ r.id)
      · omega
  · intro r hr
    rcases hwait _ r hr with hold | ⟨hne, -⟩
    · exact h.greeting r hold
    · exact absurd rfl hne
  · exact fun hsub => h.order (hnet hsub)
  · exact fun w hw ht hsent => h.begun w (hmutex w hw hsent) ht hsent
  · exact fun hrec => h.greeted (hreceiving hrec)

theorem mem_requests_update {w : Writer} {k n k' : ℕ} {q : Request} :
    q ∈ (Function.update s.conns k (written (s.conns k) w n) k').requests ↔
      q ∈ (s.conns k').requests ∨ k' = k ∧ w.sent = 0 ∧ q = w.request := by
  by_cases hk : k' = k
  · subst hk
    rw [Function.update_self, written]
    by_cases hsent : w.sent = 0 <;> simp [hsent]
  · rw [Function.update_of_ne hk]
    simp [hk]

/-- A request of the network thread has the id 1 or 2, one of a worker that may be
written an id from 3 on. -/
theorem id_of_holder (hb : s.Basic login) (hd : s.Drawn) {w : Writer} {n : ℕ}
    (hw : s.writeMutex = some w) (hP : s.FirstSubmitUnsent (.send n)) :
    w.thread = .network ∧ handshake login s.net = some w.request ∨
    ∃ i, w.thread = .worker i ∧ s.workers i = some w.request ∧ w.request.IsSubmit ∧
      3 ≤ w.request.id ∧ w.request.id ≤ s.nextRequestId := by
  have hr := hb.holder w hw
  cases ht : w.thread with
  | network => exact .inl ⟨rfl, by rw [ht] at hr; exact hr⟩
  | worker i =>
    rw [ht] at hr
    obtain ⟨hsubmit, hlo, hhi⟩ := hd.submit i _ hr
    have hne := hP w hw (by simp [ht])
    exact .inr ⟨i, rfl, hr, hsubmit, by omega, hhi⟩

theorem Basic.connection_eq (hb : s.Basic login) {k : ℕ} (hk : s.socketFd = some k) :
    s.connection = k := by
  have := hb.current k hk
  rw [connection]
  omega

/-- A request that is begun has an id which is not on the connection yet. -/
theorem Logged.new_of_unsent (hb : s.Basic login) (hd : s.Drawn) (h : s.Logged login)
    {w : Writer} {k n : ℕ} (hw : s.writeMutex = some w) (hk : s.socketFd = some k)
    (hP : s.FirstSubmitUnsent (.send n)) (hsent : w.sent = 0) :
    ∀ q ∈ (s.conns k).requests, q.id ≠ w.request.id := by
  have hwaiting := waiting_of_holder hb hw hsent
  rcases id_of_holder hb hd hw hP with ⟨ht, -⟩ | ⟨i, ht, -, -, hlo, -⟩
  · rw [ht] at hwaiting
    rw [← hb.connection_eq hk]
    exact h.greeting _ hwaiting
  · rw [ht] at hwaiting
    exact h.fresh i _ hwaiting hlo k

theorem Logged.nodup_written (hb : s.Basic login) (hd : s.Drawn) (h : s.Logged login)
    {w : Writer} {k n : ℕ} (hw : s.writeMutex = some w) (hk : s.socketFd = some k)
    (hP : s.FirstSubmitUnsent (.send n)) (k' : ℕ) :
    ((Function.update s.conns k (written (s.conns k) w n) k').requests.map (·.id)).Nodup := by
  by_cases hk' : k' = k
  · subst hk'
    rw [Function.update_self, written]
    by_cases hsent : w.sent = 0
    · have hnew := h.new_of_unsent hb hd hw hk hP hsent
      rw [if_pos hsent, List.map_append, List.map_singleton, ← List.concat_eq_append]
      refine List.Nodup.concat (fun hmem => ?_) (h.nodup k')
      obtain ⟨q, hq, heq⟩ := List.mem_map.mp hmem
      exact hnew q hq heq
    · rw [if_neg hsent]
      exact h.nodup k'
  · rw [Function.update_of_ne hk']
    exact h.nodup k'

/-- A `send` that writes a part of the line, or the rest of it. -/
theorem Logged.part (head : Option ℕ) (hb : s.Basic login) (hd : s.Drawn) (h : s.Logged login)
    {w : Writer} {k n : ℕ} (hw : s.writeMutex = some w) (hk : s.socketFd = some k) (hn : 1 ≤ n)
    (hP : s.FirstSubmitUnsent (.send n)) :
    Logged login
      { s with
        conns := Function.update s.conns k (written (s.conns k) w n)
        writeMutex := some { w with sent := w.sent + n, head := head } } := by
  have hkind := id_of_holder hb hd hw hP
  have hconnection := hb.connection_eq hk
  -- A thread that still waits is not the one that wrote.
  have hwait : ∀ t r, Waiting login { s with
      conns := Function.update s.conns k (written (s.conns k) w n)
      writeMutex := some { w with sent := w.sent + n, head := head } } t r →
      t ≠ w.thread ∧ Waiting login s t r := by
    rintro t r ⟨hr, hmutex⟩
    have hne : t ≠ w.thread := by
      rintro rfl
      have := hmutex _ rfl rfl
      simp only at this
      omega
    exact ⟨hne, waiting_of_ne_holder hw hne hr⟩
  refine ⟨?_, ?_, h.nodup_written hb hd hw hk hP, ?_, ?_, ?_, ?_, ?_⟩
  · intro k' hk'
    have hne : k' ≠ k := by
      have := hb.current k hk
      simp only at hk'
      omega
    simp only [Function.update_of_ne hne]
    exact h.unopened k' hk'
  · intro k' r hr
    rcases mem_requests_update.mp hr with hr | ⟨-, -, rfl⟩
    · exact h.kinds k' r hr
    · rcases hkind with ⟨-, hhs⟩ | ⟨i, -, -, hsubmit⟩
      · rcases handshake_eq_some hhs with ⟨-, heq⟩ | ⟨-, heq⟩
        · exact .inl heq
        · exact .inr (.inl heq)
      · exact .inr (.inr hsubmit)
  · intro i r hr hid k' q hq
    obtain ⟨hne, hr⟩ := hwait _ r hr
    rcases mem_requests_update.mp hq with hq | ⟨-, -, rfl⟩
    · exact h.fresh i r hr hid k' q hq
    · rcases hkind with ⟨-, hhs⟩ | ⟨j, ht, hj, -⟩
      · rcases handshake_eq_some hhs with ⟨-, heq⟩ | ⟨-, heq⟩ <;>
          simp only [heq, subscribeRequest, authorizeRequest] <;> omega
      -- two submits with one id belong to one worker, but this one still waits with its own
      · rintro heq
        have := hd.apart i j r _ hr.1 hj heq.symm
        exact hne (by rw [ht, this])
  · intro r hr q hq
    obtain ⟨hne, hr⟩ := hwait _ r hr
    rcases mem_requests_update.mp hq with hq | ⟨-, -, rfl⟩
    · exact h.greeting r hr q hq
    · rcases hkind with ⟨ht, -⟩ | ⟨j, -, -, -, hlo, -⟩
      · exact absurd ht.symm hne
      · rcases handshake_eq_some hr.1 with ⟨-, rfl⟩ | ⟨-, rfl⟩ <;>
          simp only [subscribeRequest, authorizeRequest] <;> omega
  · intro hnet q hq
    rcases mem_requests_update.mp hq with hq | ⟨-, -, rfl⟩
    · exact h.order hnet q hq
    · rcases hkind with ⟨-, hhs⟩ | ⟨j, -, -, -, hlo, -⟩
      · simp only at hnet
        rw [hnet, handshake, Option.some.injEq] at hhs
        simp [← hhs, subscribeRequest]
      · omega
  · rintro w' ⟨⟩ ht hsent
    refine mem_requests_update.mpr ?_
    by_cases hold : w.sent = 0
    · exact .inr ⟨hconnection, hold, rfl⟩
    · exact .inl (h.begun w hw ht hold)
  · exact fun hrec => mem_requests_update.mpr (.inl (h.greeted hrec))

/-- A return of `sendLine` concerns its own thread. -/
theorem pending_sendReturns_of_ne {t t' : Thread} {ok : Bool} (h : t' ≠ t) :
    (s.sendReturns t ok).pending login t' = s.pending login t' := by
  cases t with
  | network =>
    cases t' with
    | network => exact absurd rfl h
    | worker i => cases hnet : s.net <;> cases ok <;> simp [sendReturns, hnet, pending]
  | worker j =>
    cases t' with
    | network => rfl
    | worker i =>
      have hij : i ≠ j := fun heq => h (by rw [heq])
      simp [sendReturns, pending, Function.update_of_ne hij]

/-- After a failed `sendLine` its thread is in none. -/
theorem pending_sendReturns_false {t : Thread} :
    (s.sendReturns t false).pending login t = none := by
  cases t with
  | network => cases hnet : s.net <;> simp [sendReturns, hnet, pending, handshake]
  | worker i => simp [sendReturns, pending]

/-- Only `mining.authorize` follows a successful `sendLine` at once. -/
theorem pending_sendReturns_true {t : Thread} {r : Request}
    (h : (s.sendReturns t true).pending login t = some r) :
    t = .network ∧ s.net = .subscribing ∧ r = authorizeRequest login := by
  cases t with
  | network =>
    cases hnet : s.net <;> simp [sendReturns, hnet, pending, handshake] at h
    exact ⟨rfl, rfl, h.symm⟩
  | worker i => simp [sendReturns, pending] at h

theorem net_sendReturns_subscribing {t : Thread} {ok : Bool}
    (h : (s.sendReturns t ok).net = .subscribing) : s.net = .subscribing ∧ t ≠ .network := by
  cases t with
  | network => cases hnet : s.net <;> cases ok <;> simp [sendReturns, hnet] at h
  | worker i => exact ⟨h, by simp⟩

/-- Where a failed `sendLine` leaves the network thread. -/
theorem net_sendReturns_false (t : Thread) :
    (s.sendReturns t false).net = s.net ∧ t ≠ .network ∨
      (s.sendReturns t false).net = .failed ∧ t = .network := by
  cases t with
  | network => cases hnet : s.net <;> simp [sendReturns, hnet]
  | worker i => exact .inl ⟨rfl, by simp⟩

theorem receiving_sendReturns {t : Thread} {ok : Bool}
    (h : (s.sendReturns t ok).net.receiving = true) :
    s.net.receiving = true ∨ ok = true ∧ t = .network ∧ s.net = .authorizing := by
  cases t with
  | network =>
    cases hnet : s.net <;> cases ok <;> simp [sendReturns, hnet, NetPc.receiving] at h ⊢
  | worker i => exact .inl h

/-- The `send` that writes the rest of a line also returns from `sendLine`. -/
theorem Logged.finish (h : s.Logged login) {w : Writer} {sent : List Request}
    (hw : s.writeMutex = some w) (hr : s.pending login w.thread = some w.request)
    (hsent : w.sent ≠ 0) :
    ({ s with writeMutex := none, sent := sent }.sendReturns w.thread true).Logged login := by
  have hwait : ∀ t r, Waiting login
      ({ s with writeMutex := none, sent := sent }.sendReturns w.thread true) t r →
      Waiting login s t r ∨
        t = .network ∧ w.thread = .network ∧ s.net = .subscribing ∧ r = authorizeRequest login := by
    rintro t r ⟨hr', -⟩
    by_cases ht : t = w.thread
    · subst ht
      obtain ⟨ht, hnet, rfl⟩ := pending_sendReturns_true hr'
      exact .inr ⟨ht, ht, hnet, rfl⟩
    · rw [pending_sendReturns_of_ne ht] at hr'
      exact .inl (waiting_of_ne_holder hw ht hr')
  -- nothing more is written; only what waits can be new, and that is `mining.authorize`
  refine ⟨?_, ?_, ?_, ?_, ?_, ?_, by simp, ?_⟩ <;>
    simp only [sendReturns_frame, connection]
  · exact h.unopened
  · exact h.kinds
  · exact h.nodup
  · intro i r hwaiting
    rcases hwait _ r hwaiting with hold | ⟨ht, -⟩
    · exact h.fresh i r hold
    · cases ht
  · intro r hwaiting
    rcases hwait _ r hwaiting with hold | ⟨-, -, hnet, rfl⟩
    · exact h.greeting r hold
    · exact h.order hnet
  · intro hnet
    exact h.order (net_sendReturns_subscribing hnet).1
  · intro hrec
    rcases receiving_sendReturns hrec with hold | ⟨-, ht, hnet⟩
    · exact h.greeted hold
    · have hreq : w.request = authorizeRequest login := by
        simp only at hnet
        rw [ht, pending, hnet, handshake, Option.some.injEq] at hr
        exact hr.symm
      rw [← hreq]
      exact h.begun w hw ht hsent

/-- A submit adds a request that waits with a new id. -/
theorem Logged.submitted (hd : s.Drawn) (h : s.Logged login)
    (hsubmits : s.submits + 1 < 2 ^ 31 - 3) (i : ℕ) (share : Submit) :
    (s.submit login i share).Logged login := by
  have hid := hd.preIncrement_eq hsubmits
  refine h.of_eq (fun k => rfl) rfl ?_ ?_ id (fun w hw _ => hw) id
  · simp only [State.submit, hid]
    omega
  · rintro t r ⟨hr, hmutex⟩
    cases t with
    | network => exact .inl ⟨hr, hmutex⟩
    | worker j =>
      rcases workers_submit hr with ⟨-, rfl⟩ | ⟨-, hr⟩
      · refine .inr ⟨by simp, ?_⟩
        rw [Submit.id_request, hid]
        omega
      · exact .inl ⟨hr, hmutex⟩

/-- A `sendLine` that fails without the mutex. -/
theorem Logged.refused (h : s.Logged login) (t : Thread) (hw : s.writeMutex = none) :
    (s.sendReturns t false).Logged login := by
  refine h.of_eq (by simp) (by simp) (by simp) ?_
    (fun hnet => (net_sendReturns_subscribing hnet).1) (by simp [hw]) ?_
  · rintro t' r' ⟨hr', -⟩
    by_cases ht : t' = t
    · subst ht
      rw [pending_sendReturns_false] at hr'
      cases hr'
    · rw [pending_sendReturns_of_ne ht] at hr'
      exact .inl ⟨hr', by simp [hw]⟩
  · intro hrec
    rcases receiving_sendReturns hrec with hold | ⟨hok, -⟩
    · exact hold
    · cases hok

/-- A `send` that fails marks its connection and returns. -/
theorem Logged.error (h : s.Logged login) {w : Writer} (hw : s.writeMutex = some w) :
    (s.sendError w).Logged login := by
  unfold State.sendError
  refine h.of_eq ?_ (by simp) (by simp) ?_ (fun hnet => (net_sendReturns_subscribing hnet).1)
    (by simp) ?_
  · intro k
    simp only [sendReturns_frame]
    cases hhead : w.head with
    | none => rfl
    | some k' =>
      by_cases hk : k = k'
      · subst hk
        simp
      · simp [Function.update_of_ne hk]
  · rintro t r ⟨hr, -⟩
    by_cases ht : t = w.thread
    · subst ht
      rw [pending_sendReturns_false] at hr
      cases hr
    · rw [pending_sendReturns_of_ne ht] at hr
      exact .inl (waiting_of_ne_holder hw ht hr)
  · intro hrec
    rcases receiving_sendReturns hrec with hold | ⟨hok, -⟩
    · exact hold
    · cases hok

/-- A new connection carries nothing. -/
theorem Logged.opened (hb : s.Basic login) (h : s.Logged login) (hnet : s.net = .connecting) :
    s.connected.Logged login := by
  have hconnection : s.connected.connection = s.opened := rfl
  have hnone : (s.conns s.opened).requests = [] := h.unopened _ (le_refl _)
  refine ⟨fun k hk => h.unopened k (by simp only [connected] at hk; omega), h.kinds,
    h.nodup, fun i r hr => h.fresh i r hr, ?_, ?_, ?_, by simp [connected, NetPc.receiving]⟩
  · rw [hconnection]
    simp [connected, hnone]
  · rw [hconnection]
    simp [connected, hnone]
  · intro w hw ht _
    have hr := hb.holder w hw
    simp [ht, pending, hnet, handshake] at hr

theorem Logged.of_frame (h : s.Logged login) (hf : Frame login s s') : s'.Logged login := by
  refine h.of_eq (fun k => by rw [hf.conns]) hf.opened (le_of_eq hf.nextRequestId.symm) ?_ ?_
    (fun w hw _ => hf.writeMutex ▸ hw) hf.receiving
  · rintro t r ⟨hr, hmutex⟩
    exact .inl ⟨by rw [← hf.pending]; exact hr, by rw [← hf.writeMutex]; exact hmutex⟩
  · intro hnet
    have hhs := hf.handshake
    rw [hnet] at hhs
    rcases handshake_eq_some hhs.symm with ⟨hsub, -⟩ | ⟨-, heq⟩
    · exact hsub
    · exact absurd (congrArg Request.id heq) (by simp [subscribeRequest, authorizeRequest])

theorem Logged.next (hb : s.Basic login) (hd : s.Drawn) (h : s.Logged login)
    (he : s.Enabled login l) (hP : s.FirstSubmitUnsent l)
    (hsubmits : (s.next login l).submits < 2 ^ 31 - 3) : (s.next login l).Logged login := by
  cases hsends : l.sends with
  | false => exact h.of_frame (next_frame hb he hsends)
  | true =>
    have hstep := next_sends he hsends
    generalize s.next login l = s' at hstep hsubmits
    cases hstep with
    | submit i share hi => exact h.submitted hd hsubmits i share
    | refused t r hw hr hk => exact h.refused t hw
    | locked t r k hw hr hk =>
      refine h.of_eq (fun k => rfl) rfl (le_refl _) ?_ id ?_ id
      · rintro t' r' ⟨hr', -⟩
        exact .inl ⟨hr', by simp [hw]⟩
      · rintro w ⟨⟩ hsent
        exact absurd rfl hsent
    | part w k n hw hk hn hlt => exact h.part _ hb hd hw hk hn hP
    | done w k n hw hk hn hend =>
      have hpart := h.part none hb hd hw hk hn hP
      have hsent : w.sent + n ≠ 0 := by omega
      exact hpart.finish (w := { w with sent := w.sent + n, head := none }) rfl (hb.holder w hw)
        hsent
    | error w hw => exact h.error hw
    | connected hnet => exact h.opened hb hnet

/-! ## Which request a response answers -/

/-- The ids on each connection are distinct, and those of submits start at 3. -/
structure DistinctIds (s : State) : Prop where
  distinct : ∀ k, ((s.conns k).requests.map (·.id)).Nodup
  submits : ∀ k, ∀ r ∈ (s.conns k).requests, r.IsSubmit → 3 ≤ r.id

/-- A line is handled as the answer to the request whose id it carries. -/
structure Classifies (login : Login) (s : State) (line : Bytes) : Prop where
  /-- The answer to a submit is reported and changes nothing. -/
  submit : ∀ k, ∀ r ∈ (s.conns k).requests, r.IsSubmit → responseId line = some (r.id : ℚ) →
    ∃ result, handleLine s.client line = (s.client, [.onSubmit result])
  /-- Only the answer to the authorize request of the connection changes `authorized_`. -/
  authorize : (handleLine s.client line).1.authorized ≠ s.client.authorized →
    responseId line = some ((authorizeRequest login).id : ℚ) ∧
      authorizeRequest login ∈ (s.conns s.connection).requests

theorem Logged.distinctIds (h : s.Logged login) : s.DistinctIds := by
  refine ⟨h.nodup, fun k r hr hsubmit => ?_⟩
  rcases h.kinds k r hr with rfl | rfl | ⟨-, hlo, -⟩
  · exact absurd hsubmit not_isSubmit_subscribe
  · exact absurd hsubmit (not_isSubmit_authorize login)
  · exact hlo

/-- Only a response whose id is cut to 2 changes `authorized_`. -/
theorem responseId_of_authorized {line : Bytes} {c : ClientState}
    (h : (handleLine c line).1.authorized ≠ c.authorized) :
    ∃ n, responseId line = some n ∧ Double.toInt32 n = 2 := by
  cases hid : responseId line with
  | none =>
    rw [(handleLine_of_none hid c).1] at h
    exact absurd rfl h
  | some n =>
    refine ⟨n, rfl, ?_⟩
    by_contra h2
    by_cases h1 : Double.toInt32 n = 1
    · exact h (handleLine_subscribe hid h1 c).1
    · obtain ⟨result, hline⟩ := handleLine_share hid h2 h1 c
      rw [hline] at h
      exact h rfl

theorem Logged.classifies (hd : s.Drawn) (h : s.Logged login) (hn : s.submits < 2 ^ 31 - 3)
    {line rest : Bytes} (hnet : s.net = .draining)
    (hline : nextLine s.lineBuffer = some (line, rest)) (hP : s.FirstSubmitUnsent .line) :
    s.Classifies login line := by
  constructor
  · intro k r hr hsubmit hid
    have hlo := h.distinctIds.submits k r hr hsubmit
    have hhi : r.id ≤ s.nextRequestId := by
      rcases h.kinds k r hr with rfl | rfl | ⟨-, -, hhi⟩
      · exact absurd hsubmit not_isSubmit_subscribe
      · exact absurd hsubmit (not_isSubmit_authorize login)
      · exact hhi
    have hcounter := hd.counter
    have hint : Double.toInt32 (r.id : ℚ) = r.id :=
      Double.toInt32_intCast ⟨by norm_num; omega, by norm_num; omega⟩
    exact handleLine_share hid (by omega) (by omega) s.client
  · intro hchange
    obtain ⟨n, hid, hn2⟩ := responseId_of_authorized hchange
    refine ⟨?_, h.greeted (by rw [hnet]; rfl)⟩
    have hbetween := hP _ hline n hid
    obtain ⟨hlo, hhi⟩ := Double.of_toInt32_eq_two hn2
    have : n = 2 := by
      by_contra hne
      exact hbetween ⟨lt_of_le_of_ne hlo (Ne.symm hne), hhi⟩
    rw [hid, this]
    rfl

theorem submits_le_next (hb : s.Basic login) (he : s.Enabled login l) :
    s.submits ≤ (s.next login l).submits := by
  cases hsends : l.sends with
  | false => exact le_of_eq (next_frame hb he hsends).submits.symm
  | true =>
    have hstep := next_sends he hsends
    generalize s.next login l = s' at hstep
    cases hstep with
    | submit i share hi => simp [State.submit]
    | refused t r hw hr hk => simp
    | done w k n hw hk hn hend => simp
    | error w hw => simp [State.sendError]
    | _ => exact le_refl _

end State

open State in
theorem logged_of_reach {login : Login} {s : State}
    (h : (client login).Reach FirstSubmitUnsent s) (hn : s.submits < 2 ^ 31 - 3) :
    s.Drawn ∧ s.Logged login := by
  have hrun := h.bounded (f := State.submits)
    (fun s l hs he => submits_le_next (basic_of_reach hs) he) hn
  have hdrawn : ∀ s, (client login).Reach (fun s l => FirstSubmitUnsent s l ∧
      ((client login).next s l).submits < 2 ^ 31 - 3) s → s.Drawn := by
    intro s hs
    refine hs.invariant_of (fun _ => basic_of_reach) ?_
      fun s l hb hd he hP => hd.next hb he hP.2
    constructor <;> simp [client]
  refine ⟨hdrawn s hrun, ?_⟩
  refine hrun.invariant_of (J := fun s => s.Basic login ∧ s.Drawn)
    (fun s hs => ⟨basic_of_reach hs, hdrawn s hs⟩) ?_
    fun s l hJ hl he hP => hl.next hJ.1 hJ.2 he hP.1 hP.2
  constructor <;> simp [client, NetPc.receiving]

/-- In a run of fewer than 2^31 - 3 submits in which the first submit is not written,
the ids on each connection are distinct, those of submits start at 3, and every
response is handled as the answer to the request whose id it carries. -/
theorem responses_answer_requests {login : Login} {s : State}
    (h : (client login).Reach State.FirstSubmitUnsent s) (hn : s.submits < 2 ^ 31 - 3) :
    s.DistinctIds ∧
      ∀ line rest, s.net = .draining → nextLine s.lineBuffer = some (line, rest) →
        s.FirstSubmitUnsent .line → s.Classifies login line := by
  obtain ⟨hdrawn, hlogged⟩ := logged_of_reach h hn
  exact ⟨hlogged.distinctIds, fun line rest hnet hline hP =>
    hlogged.classifies hdrawn hn hnet hline hP⟩

/-- The first submit finds no connection; the second one is answered. -/
def secondSubmitRun (login : Login) : List Label :=
  let share := Submit.blobShare (bytes "job") (bytes "00")
  [.submit 0 share, .lock (.worker 0)] ++ handshakeRun login ++ submitRun login 0 share 3 ++
    [.recv (bytes "\x7b\"id\":3,\"result\":true\x7d" ++ [newline])]

theorem responses_answer_requests_secondSubmitRun :
    let login : Login := ⟨bytes "wallet", bytes "rig", bytes "x"⟩
    let s := (client login).exec {} (secondSubmitRun login)
    s.DistinctIds ∧ s.Classifies login (bytes "\x7b\"id\":3,\"result\":true\x7d") := by
  intro login s
  have hvalid : (client login).Valid State.FirstSubmitUnsent {} (secondSubmitRun login) := by
    decide +kernel
  have h : (client login).Reach State.FirstSubmitUnsent s := .exec .init hvalid
  have hsubmits : s.submits < 2 ^ 31 - 3 := by decide +kernel
  have hnet : s.net = .draining := by decide +kernel
  have hline : nextLine s.lineBuffer = some (bytes "\x7b\"id\":3,\"result\":true\x7d", []) := by
    decide +kernel
  have hP : s.FirstSubmitUnsent .line := by decide +kernel
  obtain ⟨hdistinct, hclassifies⟩ := responses_answer_requests h hsubmits
  exact ⟨hdistinct, hclassifies _ _ hnet hline hP⟩

/-- The first submit of a client carries the id of `mining.authorize`. -/
theorem first_submit_id :
    ¬ ∀ (login : Login) (s : State), (client login).Reachable s → s.submits < 2 ^ 31 - 3 →
      s.DistinctIds ∧
        ∀ line rest, s.net = .draining → nextLine s.lineBuffer = some (line, rest) →
          s.Classifies login line := by
  intro h
  let login : Login := ⟨bytes "wallet", bytes "rig", bytes "x"⟩
  let run := handshakeRun login ++ submitRun login 0 (.blobShare (bytes "job") (bytes "00")) 2
  let s := (client login).exec {} run
  have hvalid : (client login).Valid (fun _ _ => True) {} run := by decide +kernel
  have hreach : (client login).Reachable s := .exec .init hvalid
  have hdistinct := (h login s hreach (by decide +kernel)).1.distinct 0
  have hids : ((s.conns 0).requests.map (·.id)) = [1, 2, 2] := by decide +kernel
  rw [hids] at hdistinct
  exact absurd hdistinct (by decide)

end CppMiner.Network
