-- SUMMARY: Share results over whole runs: what they are counted by, and when they are no more than the submits sent.
import Mathlib.Data.List.Nodup
import CppMiner.Network.Sending

/-!
# Counting share results

`onSubmit_` should be called once per submitted share. The client keeps no record of
the ids it is waiting for: every response whose id is neither 1 nor 2 is reported.
Share results are therefore counted by the lines of the pool
(`counted_of_reach`), and stay below the submits sent when the pool answers only
submits and each at most once (`shares_le_sent`).
-/

namespace CppMiner.Network

/-- The id under which a line is reported as a share result; none if it is not. -/
def shareId (line : Bytes) : Option ℤ :=
  ((responseId line).map Double.toInt32).filter fun id => id ≠ 1 ∧ id ≠ 2

theorem handleLine_of_shareId_none {line : Bytes} (h : shareId line = none) (c : ClientState) :
    ∀ e ∈ (handleLine c line).2, e.isSubmit = false := by
  cases hid : responseId line with
  | none => exact (handleLine_of_none hid c).2
  | some n =>
    rw [shareId, hid, Option.map_some, Option.filter_some] at h
    by_cases h1 : Double.toInt32 n = 1
    · simp [(handleLine_subscribe hid h1 c).2]
    by_cases h2 : Double.toInt32 n = 2
    · obtain ⟨b, hb⟩ := handleLine_authorize hid h2 c
      simp [hb]
    · simp [h1, h2] at h

theorem handleLine_of_shareId {line : Bytes} {id : ℤ} (h : shareId line = some id)
    (c : ClientState) : ∃ result, handleLine c line = (c, [.onSubmit result]) := by
  rw [shareId, Option.filter_eq_some_iff, Option.map_eq_some_iff] at h
  obtain ⟨⟨n, hid, rfl⟩, hne⟩ := h
  have hne := of_decide_eq_true hne
  exact handleLine_share hid hne.2 hne.1 c

namespace State

variable {login : Login} {s : State} {l : Label}

/-- The ids of the share results reported so far. -/
def answered (s : State) : List ℤ := s.handled.filterMap fun h => shareId h.2

/-- The calls of `onSubmit_` so far. -/
def submitCallbacks (s : State) : List (ℕ × Event) := s.callbacks.filter fun c => c.2.isSubmit

/-- Every share result that is reported answers a submit that was sent, and is the
first to answer it. -/
def Solicited (s : State) : Label → Prop
  | .line => ∀ p ∈ nextLine s.lineBuffer, ∀ id ∈ shareId p.1,
      id ∉ s.answered ∧ ∃ r ∈ s.sent, r.id = id
  | _ => True

instance (s : State) : (l : Label) → Decidable (s.Solicited l)
  | .line => inferInstanceAs (Decidable (∀ p ∈ nextLine s.lineBuffer, ∀ id ∈ shareId p.1,
      id ∉ s.answered ∧ ∃ r ∈ s.sent, r.id = id))
  | .start | .stop | .stopDisconnect | .join | .submit .. | .lock _ | .send _ | .sendError
  | .checkOuter | .connectFails | .connected | .reconnect | .checkInner | .timeout
  | .connectionLost | .recv _ | .drained | .checkLost | .drop | .waited => .isTrue trivial

/-- Share results are counted line by line. -/
structure Counted (s : State) : Prop where
  shares : s.counters.shares = s.answered.length
  callbacks : s.submitCallbacks.length = s.answered.length

theorem foldl_submitCallback_of_none {events : List Event} (h : ∀ e ∈ events, e.isSubmit = false)
    (counters : Miner.Counters) : events.foldl submitCallback counters = counters := by
  induction events generalizing counters with
  | nil => rfl
  | cons e events ih =>
    have he := h e (by simp)
    rw [List.foldl_cons, ih fun e he => h e (by simp [he])]
    cases e with
    | onSubmit result => cases he
    | _ => rfl

theorem answered_handle (line rest : Bytes) :
    (s.handle line rest).answered = s.answered ++ (shareId line).toList := by
  cases hid : shareId line <;> simp [State.handle, answered, hid]

theorem Counted.handle (h : s.Counted) (line rest : Bytes) : (s.handle line rest).Counted := by
  cases hid : shareId line with
  | none =>
    have hev := handleLine_of_shareId_none hid s.client
    constructor
    · rw [answered_handle, hid]
      simpa [State.handle, foldl_submitCallback_of_none hev] using h.shares
    · have hnil : ((handleLine s.client line).2.map fun e => (s.connection, e)).filter
          (fun c => c.2.isSubmit) = [] := by
        rw [List.filter_eq_nil_iff]
        intro c hc
        obtain ⟨e, he, rfl⟩ := List.mem_map.mp hc
        simp [hev e he]
      rw [answered_handle, hid, submitCallbacks, State.handle, List.filter_append, hnil]
      simpa [submitCallbacks] using h.callbacks
  | some id =>
    obtain ⟨result, hline⟩ := handleLine_of_shareId hid s.client
    constructor
    · rw [answered_handle, hid]
      simp [State.handle, hline, submitCallback, Miner.Counters.shares_recordShareResult,
        h.shares]
    · rw [answered_handle, hid, submitCallbacks, State.handle, List.filter_append, hline]
      simp [← h.callbacks, submitCallbacks, Event.isSubmit]

/-- A step other than `line` reports nothing, and the submits that were sent stay so. -/
theorem next_reports (h : s.Basic login) (he : s.Enabled login l) :
    (∃ line rest, l = .line ∧ nextLine s.lineBuffer = some (line, rest) ∧
      s.next login l = s.handle line rest) ∨
    (l ≠ .line ∧ (s.next login l).counters = s.counters ∧
      (s.next login l).handled = s.handled ∧ (s.next login l).callbacks = s.callbacks ∧
      ∀ r ∈ s.sent, r ∈ (s.next login l).sent) := by
  by_cases hl : l = .line
  · subst hl
    obtain ⟨⟨line, rest⟩, hline⟩ := Option.isSome_iff_exists.mp he.2
    exact .inl ⟨line, rest, rfl, hline, by simp only [next, hline]⟩
  refine .inr ⟨hl, ?_⟩
  cases hsends : l.sends with
  | false =>
    have hsent := (next_frame h he hsends).sent
    rw [hsent]
    cases l with
    | start =>
      simp only [next, start]
      split <;> simp
    | stop =>
      simp only [next, stop]
      split <;> simp
    | line => exact absurd rfl hl
    | _ => first | exact ⟨rfl, rfl, rfl, fun _ hr => hr⟩ | cases hsends
  | true =>
    have hstep := next_sends he hsends
    generalize s.next login l = s' at hstep
    cases hstep with
    | done w k n hw hk hn hend =>
      simp only [sendReturns_frame, true_and]
      unfold logSent
      intro r hr
      split
      · exact hr
      · exact List.mem_append_left _ hr
    | refused t r hw hr hk => simp
    | error w hw => simp [sendError]
    | _ => exact ⟨rfl, rfl, rfl, fun _ hr => hr⟩

theorem Counted.next (hb : s.Basic login) (h : s.Counted) (he : s.Enabled login l) :
    (s.next login l).Counted := by
  rcases next_reports hb he with ⟨line, rest, -, -, hnext⟩ | ⟨-, hc, hh, hcb, -⟩
  · rw [hnext]
    exact h.handle line rest
  · obtain ⟨hshares, hcallbacks⟩ := h
    constructor
    · rw [hc, hshares, answered, answered, hh]
    · rw [submitCallbacks, hcb, ← submitCallbacks, hcallbacks, answered, answered, hh]

/-- The share results answer submits that were sent, no two the same. -/
structure Answers (s : State) : Prop where
  nodup : s.answered.Nodup
  sent : ∀ id ∈ s.answered, ∃ r ∈ s.sent, r.id = id

theorem Answers.next (hb : s.Basic login) (h : s.Answers) (he : s.Enabled login l)
    (hP : s.Solicited l) : (s.next login l).Answers := by
  rcases next_reports hb he with ⟨line, rest, rfl, hline, hnext⟩ | ⟨-, -, hh, -, hsent⟩
  · rw [hnext]
    cases hid : shareId line with
    | none =>
      constructor
      · simpa [answered_handle, hid] using h.nodup
      · rw [answered_handle, hid, Option.toList_none, List.append_nil]
        exact h.sent
    | some id =>
      obtain ⟨hnew, hr⟩ := hP _ hline id hid
      constructor
      · rw [answered_handle, hid, Option.toList_some, ← List.concat_eq_append]
        exact List.Nodup.concat hnew h.nodup
      · intro id' hid'
        rw [answered_handle, hid, Option.toList_some, List.mem_append, List.mem_singleton] at hid'
        rcases hid' with hid' | rfl
        · exact h.sent id' hid'
        · exact hr
  · constructor
    · rw [answered, hh]
      exact h.nodup
    · rw [answered, hh]
      intro id hid
      obtain ⟨r, hr, hrid⟩ := h.sent id hid
      exact ⟨r, hsent r hr, hrid⟩

/-- Distinct ids of requests in a list are no more than the requests. -/
theorem Answers.length_le (h : s.Answers) : s.answered.length ≤ s.sent.length := by
  have hsub : s.answered ⊆ s.sent.map (·.id) := fun id hid => List.mem_map.mpr (h.sent id hid)
  simpa using (h.nodup.subperm hsub).length_le

end State

theorem counted_of_reach {login : Login} {P : State → Label → Prop} {s : State}
    (h : (client login).Reach P s) : s.Counted :=
  h.invariant_of (fun _ => basic_of_reach) ⟨rfl, rfl⟩ fun _ _ hb hc he _ => hc.next hb he

/-- In a run in which the pool reports only submits that were sent, each once,
`onSubmit_` is called at most once for a submit that was sent, and the share counters
never exceed the submits sent. -/
theorem shares_le_sent {login : Login} {s : State} (h : (client login).Reach State.Solicited s) :
    s.counters.shares ≤ s.sent.length ∧ s.submitCallbacks.length = s.counters.shares ∧
      s.answered.length = s.counters.shares ∧ s.Answers := by
  have hanswers : s.Answers :=
    h.invariant_of (fun _ => basic_of_reach) ⟨.nil, by simp [client, State.answered]⟩
      fun _ _ hb ha he hP => ha.next hb he hP
  obtain ⟨hshares, hcallbacks⟩ := counted_of_reach h
  refine ⟨?_, by rw [hcallbacks, hshares], hshares.symm, hanswers⟩
  rw [hshares]
  exact hanswers.length_le

/-- Two submits, of which the pool answers the second. -/
def answeredRun (login : Login) : List Label :=
  let share := Submit.blobShare (bytes "job") (bytes "00")
  handshakeRun login ++ submitRun login 0 share 2 ++ submitRun login 0 share 3 ++
    [.recv (bytes "\x7b\"id\":3,\"result\":true\x7d" ++ [newline]), .line]

theorem shares_le_sent_answeredRun :
    let login : Login := ⟨bytes "wallet", bytes "rig", bytes "x"⟩
    let s := (client login).exec {} (answeredRun login)
    s.counters.sharesAccepted = 1 ∧ s.sent.length = 2 ∧ s.counters.shares ≤ s.sent.length := by
  intro login s
  have hvalid : (client login).Valid State.Solicited {} (answeredRun login) := by
    decide +kernel
  have h : (client login).Reach State.Solicited s := .exec .init hvalid
  exact ⟨by decide +kernel, by decide +kernel, (shares_le_sent h).1⟩

/-- A response that nobody asked for is counted as an accepted share. -/
theorem unsolicited_share :
    ¬ ∀ (login : Login) (s : State), (client login).Reachable s →
      s.counters.shares ≤ s.sent.length := by
  intro h
  let login : Login := ⟨bytes "wallet", bytes "rig", bytes "x"⟩
  let run := handshakeRun login ++
    [.recv (bytes "\x7b\"id\":7,\"result\":true\x7d" ++ [newline]), .line]
  have hvalid : (client login).Valid (fun _ _ => True) {} run := by decide +kernel
  have hle := h login ((client login).exec {} run) (.exec .init hvalid)
  have hshares : ((client login).exec {} run).counters.shares = 1 := by decide +kernel
  have hsent : ((client login).exec {} run).sent.length = 0 := by decide +kernel
  omega

end CppMiner.Network
