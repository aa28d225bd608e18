-- SUMMARY: Whose extranonce values the jobs of a connection carry.
import CppMiner.Network.Sessions

/-!
# Extranonce values

`extranonce1_` and `extranonce2Size_` are copied into a job when its notification is
handled. They outlive the connection that assigned them, and nothing makes the pool
answer `mining.subscribe` before it notifies. In a run in which every job comes after
that answer, the jobs of a connection carry its values (`jobsOfSession_of_reach`).
-/

namespace CppMiner.Network

namespace State

variable {login : Login} {s s' : State} {l : Label}

/-- The extranonce values that the lines of the current connection assigned last. -/
def assigned (s : State) : Option (Bytes × UInt32) :=
  (s.handled.filterMap fun h => if h.1 = s.connection then subscribeAnswer h.2 else none).getLast?

/-- The pool answers `mining.subscribe` with these extranonce values. -/
def subscribesWith (p : Bytes × UInt32) (line : Bytes) : Bool :=
  responseId line = some 1 ∧ subscription line = some p

/-- Every job delivered on a connection carries the values of an answer to
`mining.subscribe` on that connection, and all of them the same. -/
def JobsOfSession (s : State) : Prop :=
  ∀ c ∈ s.callbacks, ∀ p ∈ c.2.extranonce,
    s.Answered c.1 (subscribesWith p) ∧
      ∀ c' ∈ s.callbacks, c'.1 = c.1 → ∀ p' ∈ c'.2.extranonce, p' = p

/-- A line that delivers a job finds that the values assigned last on its connection were
those of an answer to `mining.subscribe`, and are those of the jobs before it there. -/
def SubscribedOnce (s : State) : Label → Prop
  | .line => ∀ q ∈ nextLine s.lineBuffer, ∀ e ∈ (handleLine s.client q.1).2,
      e.extranonce.isSome → ∃ p ∈ s.assigned, s.Answered s.connection (subscribesWith p) ∧
        ∀ c ∈ s.callbacks, c.1 = s.connection → ∀ p' ∈ c.2.extranonce, p' = p
  | _ => True

instance (s : State) : (l : Label) → Decidable (s.SubscribedOnce l)
  | .line => inferInstanceAs (Decidable (∀ q ∈ nextLine s.lineBuffer,
      ∀ e ∈ (handleLine s.client q.1).2, e.extranonce.isSome →
        ∃ p ∈ s.assigned, s.Answered s.connection (subscribesWith p) ∧
          ∀ c ∈ s.callbacks, c.1 = s.connection → ∀ p' ∈ c.2.extranonce, p' = p))
  | .start | .stop | .stopDisconnect | .join | .submit .. | .lock _ | .send _ | .sendError
  | .checkOuter | .connectFails | .connected | .reconnect | .checkInner | .timeout
  | .connectionLost | .recv _ | .drained | .checkLost | .drop | .waited => .isTrue trivial

/-- The client has the extranonce values that were assigned last on its connection. -/
def Current (s : State) : Prop := ∀ p ∈ s.assigned, s.client.extranonce = p

theorem assigned_handle (line rest : Bytes) :
    (s.handle line rest).assigned = (subscribeAnswer line).or s.assigned := by
  simp only [assigned, State.handle, connection, List.filterMap_append, List.getLast?_append]
  cases hanswer : subscribeAnswer line with
  | none => simp only [List.filterMap_cons, List.filterMap_nil, if_true, hanswer]; rfl
  | some p => simp only [List.filterMap_cons, List.filterMap_nil, if_true, hanswer]; rfl

theorem Current.handle (h : s.Current) (line rest : Bytes) : (s.handle line rest).Current := by
  intro p hp
  rw [assigned_handle] at hp
  change (handleLine s.client line).1.extranonce = p
  rw [extranonce_handleLine]
  cases hanswer : subscribeAnswer line with
  | none =>
    rw [hanswer, Option.none_or] at hp
    exact h p hp
  | some q =>
    rw [hanswer] at hp
    exact Option.some.inj hp

/-- A connection that was just opened has assigned nothing. -/
theorem assigned_connected (ho : s.Orderly) : s.connected.assigned = none := by
  have hnil : (s.handled.filterMap fun h =>
      if h.1 = s.opened + 1 - 1 then subscribeAnswer h.2 else none) = [] := by
    rw [List.filterMap_eq_nil_iff]
    intro x hx
    have hlt := ho.handled x hx
    exact if_neg (by omega)
  rw [assigned]
  exact congrArg List.getLast? hnil

theorem Current.next (hb : s.Basic login) (ho : s.Orderly) (h : s.Current)
    (he : s.Enabled login l) : (s.next login l).Current := by
  have hstep := next_session hb he
  generalize s.next login l = s' at hstep
  cases hstep with
  | line line rest hnet hline hs =>
    subst hs
    exact h.handle line rest
  | connected hnet hs =>
    subst hs
    intro p hp
    rw [assigned_connected ho] at hp
    cases hp
  | disconnected l hclient hsocket hopened hhandled hcallbacks =>
    intro p hp
    rw [assigned, connection, hhandled, hopened] at hp
    rw [hclient]
    exact h p hp
  | stands l hclient hsocket hopened hhandled hcallbacks =>
    intro p hp
    rw [assigned, connection, hhandled, hopened] at hp
    rw [hclient]
    exact h p hp

theorem JobsOfSession.handle (hc : s.Current) (h : s.JobsOfSession) {line rest : Bytes}
    (hline : nextLine s.lineBuffer = some (line, rest)) (hP : s.SubscribedOnce .line) :
    (s.handle line rest).JobsOfSession := by
  have hsub : ∀ x ∈ s.handled, x ∈ (s.handle line rest).handled :=
    fun x hx => List.mem_append_left _ hx
  -- A job of this line carries the values that were assigned last.
  have hnew : ∀ e ∈ (handleLine s.client line).2, ∀ p, e.extranonce = some p →
      p = s.client.extranonce ∧ s.Answered s.connection (subscribesWith p) ∧
        ∀ c ∈ s.callbacks, c.1 = s.connection → ∀ p' ∈ c.2.extranonce, p' = p := by
    intro e he p hp
    obtain ⟨q, hq, hanswered, hjobs⟩ := hP _ hline e he (by simp [hp])
    have hpc := extranonce_of_mem he hp
    obtain rfl : p = q := hpc.trans (hc q hq)
    exact ⟨hpc, hanswered, hjobs⟩
  intro c hcall p hp
  rcases List.mem_append.mp hcall with hold | hmap
  · obtain ⟨hanswered, hjobs⟩ := h c hold p hp
    refine ⟨hanswered.mono hsub, fun c' hcall' hk p' hp' => ?_⟩
    rcases List.mem_append.mp hcall' with hold' | hmap'
    · exact hjobs c' hold' hk p' hp'
    · obtain ⟨e, he, rfl⟩ := List.mem_map.mp hmap'
      obtain ⟨-, -, hbefore⟩ := hnew e he p' hp'
      exact (hbefore c hold hk.symm p hp).symm
  · obtain ⟨e, he, rfl⟩ := List.mem_map.mp hmap
    obtain ⟨hpc, hanswered, hbefore⟩ := hnew e he p hp
    refine ⟨hanswered.mono hsub, fun c' hcall' hk p' hp' => ?_⟩
    rcases List.mem_append.mp hcall' with hold' | hmap'
    · exact hbefore c' hold' hk p' hp'
    · obtain ⟨e', he', rfl⟩ := List.mem_map.mp hmap'
      exact (hnew e' he' p' hp').1.trans hpc.symm

theorem JobsOfSession.next (hb : s.Basic login) (hc : s.Current) (h : s.JobsOfSession)
    (he : s.Enabled login l) (hP : s.SubscribedOnce l) : (s.next login l).JobsOfSession := by
  have hstep := next_session hb he
  generalize s.next login l = s' at hstep
  have hkeep : s'.handled = s.handled → s'.callbacks = s.callbacks → s'.JobsOfSession := by
    intro hhandled hcallbacks
    rw [JobsOfSession, hcallbacks]
    intro c hcall p hp
    obtain ⟨hanswered, hjobs⟩ := h c hcall p hp
    exact ⟨hanswered.mono fun x hx => hhandled ▸ hx, hjobs⟩
  cases hstep with
  | line line rest hnet hline hs =>
    subst hs
    exact h.handle hc hline hP
  | connected hnet hs =>
    subst hs
    exact hkeep rfl rfl
  | disconnected l hclient hsocket hopened hhandled hcallbacks => exact hkeep hhandled hcallbacks
  | stands l hclient hsocket hopened hhandled hcallbacks => exact hkeep hhandled hcallbacks

end State

theorem current_of_reach {login : Login} {P : State → Label → Prop} {s : State}
    (h : (client login).Reach P s) : s.Current :=
  h.invariant_of (J := fun s => s.Basic login ∧ s.Orderly)
    (fun _ hs => ⟨basic_of_reach hs, orderly_of_reach hs⟩) nofun
    fun _ _ hJ hc he _ => hc.next hJ.1 hJ.2 he

/-- In a run in which every job finds the values assigned last on its connection to be
those of an answer to `mining.subscribe` and of the jobs before it there, every job
carries the extranonce values of its own connection's answer. -/
theorem jobsOfSession_of_reach {login : Login} {s : State}
    (h : (client login).Reach State.SubscribedOnce s) : s.JobsOfSession :=
  h.invariant_of (J := fun s => s.Basic login ∧ s.Current)
    (fun _ hs => ⟨basic_of_reach hs, current_of_reach hs⟩) nofun
    fun _ _ hJ hj he hP => hj.next hJ.1 hJ.2 he hP

/-- A notification in the form that carries a blob. -/
def notifyLine : Bytes :=
  bytes "\x7b\"method\":\"mining.notify\",\"params\":[\"a\",\"00\",\"\",\"\",1,true,0]\x7d"

theorem jobsOfSession_of_reach_handshakeRun :
    let login : Login := ⟨bytes "wallet", bytes "rig", bytes "x"⟩
    let s := (client login).exec {} (handshakeRun login ++
      [.recv (Lines.join newline [subscribedLine, notifyLine, notifyLine]), .line, .line, .line])
    s.callbacks.map (·.2.extranonce) = [some (bytes "aabb", 4), some (bytes "aabb", 4)] ∧
      s.JobsOfSession := by
  intro login s
  have hvalid : (client login).Valid State.SubscribedOnce {} (handshakeRun login ++
      [.recv (Lines.join newline [subscribedLine, notifyLine, notifyLine]), .line, .line,
        .line]) := by
    decide +kernel
  have h : (client login).Reach State.SubscribedOnce s := .exec .init hvalid
  exact ⟨by decide +kernel, jobsOfSession_of_reach h⟩

/-- A job that comes before the answer to `mining.subscribe` on the second connection
carries the values of the first. -/
theorem job_of_previous_session :
    ¬ ∀ (login : Login) (s : State), (client login).Reachable s → s.JobsOfSession := by
  intro h
  let login : Login := ⟨bytes "wallet", bytes "rig", bytes "x"⟩
  let run := handshakeRun login ++
    [.recv (Lines.join newline [subscribedLine]), .line, .drained, .checkInner] ++
    reconnectRun ++ greetingRun login ++ [.recv (Lines.join newline [notifyLine]), .line]
  let s := (client login).exec {} run
  have hvalid : (client login).Valid (fun _ _ => True) {} run := by decide +kernel
  have hreach : (client login).Reachable s := .exec .init hvalid
  have hjob : ∃ c ∈ s.callbacks, c.1 = 1 ∧ c.2.extranonce = some (bytes "aabb", 4) := by
    decide +kernel
  obtain ⟨c, hc, hk, hp⟩ := hjob
  obtain ⟨hanswered, -⟩ := h login s hreach c hc _ hp
  rw [hk] at hanswered
  have hnone : ¬ s.Answered 1 (State.subscribesWith (bytes "aabb", 4)) := by decide +kernel
  exact hnone hanswered

end CppMiner.Network
