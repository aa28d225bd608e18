-- SUMMARY: What is written to each connection: whole request lines, when every line is finished where it was begun.
import CppMiner.Network.Sending

/-!
# The stream of a connection

`writeMutex_` keeps two lines from interleaving, but a line is not bound to the
connection it was begun on: `sendLine` reads `socketFd_` again for every `send`, and a
`send` that fails leaves the connection open behind a part of a line. In a run that
takes neither branch, each connection carries whole request lines and at most one
proper prefix of a line after them (`framed_of_reach`).
-/

namespace CppMiner.Network

/-- The lines of requests, one after the other. -/
def linesOf (rs : List Request) : Bytes := rs.flatMap Request.line

@[simp] theorem linesOf_append (rs rs' : List Request) :
    linesOf (rs ++ rs') = linesOf rs ++ linesOf rs' := List.flatMap_append

@[simp] theorem linesOf_singleton (r : Request) : linesOf [r] = r.line := by
  simp [linesOf]

theorem Request.head_line (r : Request) : r.line.head? = some '{'.toUInt8 := by
  simp [line, toValue_eq, Json.Value.dump, bytes]

namespace Conn

/-- The connection carries whole lines only. -/
def Whole (c : Conn) : Prop := c.bytes = linesOf c.requests

/-- The connection ends after `n` bytes of the line of `r`. -/
def Cut (c : Conn) (r : Request) (n : ℕ) : Prop :=
  ∃ rs, c.requests = rs ++ [r] ∧ c.bytes = linesOf rs ++ r.line.take n

/-- The bytes of the connection are whole request lines and then at most one proper
prefix of a line: those of the requests that were begun on it, in that order. -/
def Framed (c : Conn) : Prop :=
  ∃ rs p, c.bytes = linesOf rs ++ p ∧
    (p = [] ∧ c.requests = rs ∨ ∃ r, c.requests = rs ++ [r] ∧ p <+: r.line ∧ p ≠ r.line)

theorem Whole.framed {c : Conn} (h : c.Whole) : c.Framed :=
  ⟨c.requests, [], by rw [List.append_nil]; exact h, .inl ⟨rfl, rfl⟩⟩

theorem Cut.framed {c : Conn} {r : Request} {n : ℕ} (h : c.Cut r n) (hn : n < r.line.length) :
    c.Framed := by
  obtain ⟨rs, hrequests, hbytes⟩ := h
  refine ⟨rs, r.line.take n, hbytes, .inr ⟨r, hrequests, List.take_prefix _ _, fun heq => ?_⟩⟩
  have hlen := congrArg List.length heq
  rw [List.length_take] at hlen
  omega

/-- A framed connection that carries anything starts with the first byte of a request. -/
theorem Framed.head {c : Conn} (h : c.Framed) (hne : c.bytes ≠ []) :
    c.bytes.head? = some '{'.toUInt8 := by
  obtain ⟨rs, p, hbytes, hrest⟩ := h
  rw [hbytes] at hne ⊢
  cases rs with
  | cons r rs => simp [linesOf, r.head_line]
  | nil =>
    rw [linesOf, List.flatMap_nil, List.nil_append] at hne ⊢
    rcases hrest with ⟨hp, -⟩ | ⟨r, -, ⟨t, ht⟩, -⟩
    · exact absurd hp hne
    · have hhead := r.head_line
      rw [← ht, List.head?_append_of_ne_nil _ hne] at hhead
      exact hhead

/-- Writing the first part of a line. -/
theorem Whole.begin {c : Conn} {w : Writer} (h : c.Whole) (hw : w.sent = 0) (n : ℕ) :
    (State.written c w n).Cut w.request n := by
  refine ⟨c.requests, by simp [State.written, hw], ?_⟩
  simp only [State.written, hw, List.drop_zero]
  rw [h]

/-- Writing a further part of a line. -/
theorem Cut.continue {c : Conn} {w : Writer} (h : c.Cut w.request w.sent) (hw : w.sent ≠ 0)
    (n : ℕ) : (State.written c w n).Cut w.request (w.sent + n) := by
  obtain ⟨rs, hrequests, hbytes⟩ := h
  refine ⟨rs, by simp [State.written, hw, hrequests], ?_⟩
  simp only [State.written, hbytes, List.append_assoc, List.take_add]

/-- A line that was written to its end is whole. -/
theorem Cut.whole {c : Conn} {r : Request} (h : c.Cut r r.line.length) : c.Whole := by
  obtain ⟨rs, hrequests, hbytes⟩ := h
  rw [Whole, hbytes, hrequests, linesOf_append, linesOf_singleton, List.take_length]

end Conn

namespace State

variable {login : Login} {s s' : State} {l : Label}

/-- A `send` that begins a line finds no part of a line before it, and one that
continues a line writes to the connection that took its head. -/
def Careful (s : State) : Label → Prop
  | .send _ => ∀ w ∈ s.writeMutex, ∀ k ∈ s.socketFd,
      if w.sent = 0 then (s.conns k).broken = false else w.head = some k
  | _ => True

instance (s : State) : (l : Label) → Decidable (s.Careful l)
  | .send _ => inferInstanceAs (Decidable (∀ w ∈ s.writeMutex, ∀ k ∈ s.socketFd,
      if w.sent = 0 then (s.conns k).broken = false else w.head = some k))
  | .start | .stop | .stopDisconnect | .join | .submit .. | .lock _ | .sendError | .checkOuter
  | .connectFails | .connected | .reconnect | .checkInner | .timeout | .connectionLost | .recv _
  | .line | .drained | .checkLost | .drop | .waited => .isTrue trivial

/-- A connection carries whole lines, or ends with the part that the holder of the
mutex or a `sendLine` that gave up has written. -/
structure Framing (s : State) : Prop where
  whole : ∀ k, (s.conns k).broken = false →
    (∀ w, s.writeMutex = some w → w.head ≠ some k) → (s.conns k).Whole
  cut : ∀ k w, s.writeMutex = some w → w.head = some k →
    (s.conns k).broken = false ∧ (s.conns k).Cut w.request w.sent
  broken : ∀ k, (s.conns k).broken = true →
    ∃ r n, n < r.line.length ∧ (s.conns k).Cut r n

theorem Framing.framed (hb : s.Basic login) (h : s.Framing) (k : ℕ) : (s.conns k).Framed := by
  cases hbroken : (s.conns k).broken with
  | true =>
    obtain ⟨r, n, hn, hcut⟩ := h.broken k hbroken
    exact hcut.framed hn
  | false =>
    by_cases hw : ∃ w, s.writeMutex = some w ∧ w.head = some k
    · obtain ⟨w, hw, hhead⟩ := hw
      exact (h.cut k w hw hhead).2.framed (hb.progress w hw).1
    · exact (h.whole k hbroken fun w hmutex hhead => hw ⟨w, hmutex, hhead⟩).framed

/-- Only the connections and a writer that has begun its line matter. -/
theorem Framing.of_eq (h : s.Framing) (hc : s'.conns = s.conns)
    (hw : ∀ w, w.head ≠ none → (s'.writeMutex = some w ↔ s.writeMutex = some w)) :
    s'.Framing := by
  refine ⟨?_, ?_, ?_⟩ <;> rw [hc]
  · intro k hbroken hnone
    refine h.whole k hbroken fun w hmutex hhead => ?_
    exact hnone w ((hw w (by simp [hhead])).mpr hmutex) hhead
  · intro k w hmutex hhead
    exact h.cut k w ((hw w (by simp [hhead])).mp hmutex) hhead
  · exact h.broken

/-- What a careful `send` leaves on its connection: the line up to where it got. -/
theorem Framing.written (hb : s.Basic login) (h : s.Framing) {w : Writer} {k n : ℕ}
    (hw : s.writeMutex = some w) (hk : s.socketFd = some k) (hcareful : s.Careful (.send n)) :
    (s.conns k).broken = false ∧
      (State.written (s.conns k) w n).Cut w.request (w.sent + n) := by
  have hP := hcareful w hw k hk
  split at hP
  -- the first byte of the line: the condition says that the connection is not broken
  · rename_i hsent
    have hhead := (hb.progress w hw).2.mp hsent
    have hwhole := h.whole k hP fun w' hw' => by
      rw [hw] at hw'
      cases hw'
      simp [hhead]
    rw [hsent, Nat.zero_add]
    exact ⟨hP, hwhole.begin hsent n⟩
  · rename_i hsent
    obtain ⟨hbroken, hcut⟩ := h.cut k w hw hP
    exact ⟨hbroken, hcut.continue hsent n⟩

/-- The line is the holder's, so no other connection ends with a part of it. -/
theorem Framing.other (hb : s.Basic login) (h : s.Framing) {w : Writer} {k k' n : ℕ}
    (hw : s.writeMutex = some w) (hk : s.socketFd = some k) (hcareful : s.Careful (.send n))
    (hne : k' ≠ k) (hbroken : (s.conns k').broken = false) : (s.conns k').Whole := by
  refine h.whole k' hbroken fun w' hw' hhead => hne ?_
  rw [hw] at hw'
  cases hw'
  have hP := hcareful w hw k hk
  split at hP
  · rename_i hsent
    rw [(hb.progress w hw).2.mp hsent] at hhead
    cases hhead
  · exact Option.some.inj (hhead.symm.trans hP)

/-- A `sendLine` that gives up breaks the connection that has a part of its line. -/
theorem Framing.sendError (hb : s.Basic login) (h : s.Framing) {w : Writer}
    (hw : s.writeMutex = some w) : (s.sendError w).Framing := by
  have hmutex : (s.sendError w).writeMutex = none := by simp [State.sendError]
  cases hhead : w.head with
  | none =>
    refine h.of_eq (by simp [State.sendError, hhead]) fun w' hhead' => ?_
    rw [hmutex, hw]
    constructor
    · intro hnone
      cases hnone
    · rintro ⟨⟩
      exact absurd hhead hhead'
  -- the connection ends with a part of the line, after which no careful `send` begins one
  | some k =>
    have hconns : (s.sendError w).conns =
        Function.update s.conns k { s.conns k with broken := true } := by
      simp [State.sendError, hhead]
    obtain ⟨hbroken, hcut⟩ := h.cut k w hw hhead
    refine ⟨?_, by simp [hmutex], ?_⟩
    · intro k' hbroken' _
      have hne : k' ≠ k := by
        rintro rfl
        simp [hconns] at hbroken'
      rw [hconns, Function.update_of_ne hne] at hbroken' ⊢
      refine h.whole k' hbroken' fun w' hw' hhead' => hne ?_
      rw [hw] at hw'
      cases hw'
      exact Option.some.inj (hhead'.symm.trans hhead)
    · intro k' hbroken'
      by_cases hne : k' = k
      · subst hne
        rw [hconns, Function.update_self]
        exact ⟨w.request, w.sent, (hb.progress w hw).1, hcut⟩
      · rw [hconns, Function.update_of_ne hne] at hbroken' ⊢
        exact h.broken k' hbroken'

/-- A careful `send` leaves every connection but its own as it was. -/
theorem Framing.broken_written (h : s.Framing) {w : Writer} {k k' n : ℕ}
    (hwhole : (s.conns k).broken = false)
    (hbroken : (Function.update s.conns k (State.written (s.conns k) w n) k').broken = true) :
    ∃ r m, m < r.line.length ∧
      (Function.update s.conns k (State.written (s.conns k) w n) k').Cut r m := by
  by_cases hne : k' = k
  · subst hne
    rw [Function.update_self, State.written] at hbroken
    simp only [hwhole] at hbroken
    cases hbroken
  · rw [Function.update_of_ne hne] at hbroken ⊢
    exact h.broken k' hbroken

/-- A careful `send` that leaves a part of its line. -/
theorem Framing.part (hb : s.Basic login) (h : s.Framing) {w : Writer} {k n : ℕ}
    (hw : s.writeMutex = some w) (hk : s.socketFd = some k) (hcareful : s.Careful (.send n)) :
    Framing
      { s with
        conns := Function.update s.conns k (State.written (s.conns k) w n)
        writeMutex := some { w with sent := w.sent + n, head := some (w.head.getD k) } } := by
  obtain ⟨hbroken, hcut⟩ := h.written hb hw hk hcareful
  have hhead : w.head.getD k = k := by
    have hP := hcareful w hw k hk
    split at hP
    · rename_i hsent
      rw [(hb.progress w hw).2.mp hsent, Option.getD_none]
    · rw [hP, Option.getD_some]
  refine ⟨?_, ?_, fun k' hbroken' => h.broken_written hbroken hbroken'⟩
  · intro k' hbroken' hnone
    have hne : k' ≠ k := by
      rintro rfl
      exact hnone _ rfl (by rw [hhead])
    simp only [Function.update_of_ne hne] at hbroken' ⊢
    exact h.other hb hw hk hcareful hne hbroken'
  · rintro k' w' ⟨⟩ hhead'
    rw [hhead, Option.some.injEq] at hhead'
    subst hhead'
    simp only [Function.update_self]
    exact ⟨hbroken, hcut⟩

/-- A careful `send` that completes its line. -/
theorem Framing.done (hb : s.Basic login) (h : s.Framing) {w : Writer} {k n : ℕ}
    (hw : s.writeMutex = some w) (hk : s.socketFd = some k) (hcareful : s.Careful (.send n))
    (hend : w.sent + n = w.request.line.length) {sent : List Request} :
    Framing
      ({ s with
        conns := Function.update s.conns k (State.written (s.conns k) w n)
        writeMutex := none
        sent := sent }.sendReturns w.thread true) := by
  obtain ⟨hbroken, hcut⟩ := h.written hb hw hk hcareful
  rw [hend] at hcut
  refine ⟨?_, by simp, ?_⟩
  · intro k' hbroken' _
    simp only [sendReturns_frame] at hbroken' ⊢
    by_cases hne : k' = k
    · subst hne
      rw [Function.update_self]
      exact hcut.whole
    · rw [Function.update_of_ne hne] at hbroken' ⊢
      exact h.other hb hw hk hcareful hne hbroken'
  · intro k' hbroken'
    simp only [sendReturns_frame] at hbroken' ⊢
    exact h.broken_written hbroken hbroken'

theorem Framing.next (hb : s.Basic login) (h : s.Framing) (he : s.Enabled login l)
    (hP : s.Careful l) : (s.next login l).Framing := by
  cases hsends : l.sends with
  | false =>
    have hf := next_frame hb he hsends
    exact h.of_eq hf.conns fun w _ => by rw [hf.writeMutex]
  | true =>
    have hstep := next_sends he hsends
    generalize s.next login l = s' at hstep
    cases hstep with
    | submit i share hi => exact h.of_eq rfl fun w _ => Iff.rfl
    | refused t r hw hr hk => exact h.of_eq (by simp) (by simp)
    | locked t r k hw hr hk =>
      refine h.of_eq rfl fun w hhead => ?_
      constructor
      · rintro ⟨⟩
        exact absurd rfl hhead
      · intro hw'
        rw [hw] at hw'
        cases hw'
    | part w k n hw hk hn hlt => exact h.part hb hw hk hP
    | done w k n hw hk hn hend => exact h.done hb hw hk hP hend
    | error w hw => exact h.sendError hb hw
    | connected hnet => exact h.of_eq rfl fun w _ => Iff.rfl

end State

open State in
/-- In a careful run every connection carries whole request lines and then at most one
proper prefix of a line. -/
theorem framed_of_reach {login : Login} {s : State} (h : (client login).Reach Careful s)
    (k : ℕ) : (s.conns k).Framed := by
  have hframing : s.Framing := by
    refine h.invariant_of (fun _ => basic_of_reach) ?_ fun _ _ hb hf he hP => hf.next hb he hP
    refine ⟨fun _ _ _ => rfl, ?_, ?_⟩ <;> simp [client]
  exact hframing.framed (basic_of_reach h) k

/-- A submit of which one byte is written when the connection is lost. -/
def cutRun (login : Login) : List Label :=
  handshakeRun login ++
    [.submit 0 (.blobShare (bytes "job") (bytes "00")), .lock (.worker 0), .send 1,
      .connectionLost, .checkLost, .drop]

theorem framed_of_reach_cutRun :
    let login : Login := ⟨bytes "wallet", bytes "rig", bytes "x"⟩
    let s := (client login).exec {} (cutRun login ++ [.sendError])
    (s.conns 0).broken = true ∧ (s.conns 0).Framed := by
  intro login s
  have hvalid : (client login).Valid State.Careful {} (cutRun login ++ [.sendError]) := by
    decide +kernel
  have h : (client login).Reach State.Careful s := .exec .init hvalid
  exact ⟨by decide +kernel, framed_of_reach h 0⟩

/-- The rest of a line goes to the connection that was opened in the meantime. -/
theorem tail_on_next_connection :
    ¬ ∀ (login : Login) (s : State), (client login).Reachable s → ∀ k, (s.conns k).Framed := by
  intro h
  let login : Login := ⟨bytes "wallet", bytes "rig", bytes "x"⟩
  let run := cutRun login ++ [.waited, .checkOuter, .connected, .send 1]
  let s := (client login).exec {} run
  have hvalid : (client login).Valid (fun _ _ => True) {} run := by decide +kernel
  have hreach : (client login).Reachable s := .exec .init hvalid
  have hbytes : (s.conns 1).bytes = bytes "\"" := by decide +kernel
  have hhead := (h login s hreach 1).head (by rw [hbytes]; decide)
  rw [hbytes] at hhead
  exact absurd hhead (by decide)

end CppMiner.Network
