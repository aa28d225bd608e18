-- SUMMARY: With a pool that answers each request at most once the share counters are exactly the verdicts that reached the client.
import Mathlib.Algebra.BigOperators.Group.Finset.Piecewise
import Mathlib.Data.List.Perm.Subperm
import CppMiner.Network.Link
import CppMiner.Network.Shares

/-!
# Accounting

The pool of a `link` is honest if it answers on each connection only requests that were
begun there, and each of them at most once. What it writes beside the id of an answer, and
what other lines it posts, is up to it.

Then whatever the threads do and however often the connection is lost, the counters are the
numbers of the verdicts that were handled, and on every connection these are verdicts on
different submits (`shares_accounted`). A verdict under the id of `mining.authorize` is none:
the first submit of a client has it too.
-/

namespace CppMiner.Network

/-- A line that reports a share as accepted, or as rejected. -/
def verdict (accepted : Bool) (line : Bytes) : Bool :=
  (shareId line).isSome && accepts line == accepted

/-- A verdict is reported as what it says. -/
theorem handleLine_verdict {line : Bytes} {id : ℤ} (h : shareId line = some id)
    (c : ClientState) :
    ∃ result, handleLine c line = (c, [.onSubmit result]) ∧ result.accepted = accepts line := by
  rw [shareId, Option.filter_eq_some_iff, Option.map_eq_some_iff] at h
  obtain ⟨⟨n, hid, rfl⟩, hne⟩ := h
  obtain ⟨hone, htwo⟩ := of_decide_eq_true hne
  obtain ⟨msg, hmsg, hget, hline⟩ := handleLine_of_some hid
  simp only [hline, handleResponse, hget, if_neg hone, if_neg htwo, accepts, hmsg]
  exact ⟨_, rfl, rfl⟩

namespace State

variable {login : Login} {s s' : State} {l : Label}

/-! ## Counting lines -/

/-- The counters count the verdicts. -/
structure Tallied (s : State) : Prop where
  accepted : s.counters.sharesAccepted = s.handled.countP fun h => verdict true h.2
  rejected : s.counters.sharesRejected = s.handled.countP fun h => verdict false h.2

theorem Tallied.handle (h : s.Tallied) (line rest : Bytes) : (s.handle line rest).Tallied := by
  cases hid : shareId line with
  | none =>
    have hcounters := foldl_submitCallback_of_none (handleLine_of_shareId_none hid s.client)
    constructor
    · simp [State.handle, hcounters, h.accepted, verdict, hid]
    · simp [State.handle, hcounters, h.rejected, verdict, hid]
  | some id =>
    obtain ⟨result, hline, hresult⟩ := handleLine_verdict hid s.client
    constructor
    · cases haccepts : accepts line <;>
        simp [State.handle, hline, submitCallback, Miner.Counters.recordShareResult, hresult,
          haccepts, h.accepted, verdict, hid]
    · cases haccepts : accepts line <;>
        simp [State.handle, hline, submitCallback, Miner.Counters.recordShareResult, hresult,
          haccepts, h.rejected, verdict, hid]

theorem Tallied.next (hb : s.Basic login) (h : s.Tallied) (he : s.Enabled login l) :
    (s.next login l).Tallied := by
  rcases next_reports hb he with ⟨line, rest, -, -, hnext⟩ | ⟨-, hc, hh, -, -⟩
  · rw [hnext]
    exact h.handle line rest
  · exact ⟨by rw [hc, hh, h.accepted], by rw [hc, hh, h.rejected]⟩

/-- The lines that were handled are those of the connections together. -/
theorem countP_handled {N : ℕ} {handled : List (ℕ × Bytes)} (h : ∀ x ∈ handled, x.1 < N)
    (p : Bytes → Bool) :
    handled.countP (fun x => p x.2) =
      ∑ k ∈ Finset.range N, ((handled.filter (·.1 = k)).map (·.2)).countP p := by
  induction handled with
  | nil => simp
  | cons x xs ih =>
    rw [List.forall_mem_cons] at h
    have hone : ∀ k, (((x :: xs).filter (·.1 = k)).map (·.2)).countP p =
        ((xs.filter (·.1 = k)).map (·.2)).countP p +
          if x.1 = k then (if p x.2 then 1 else 0) else 0 := by
      intro k
      by_cases hk : x.1 = k <;> simp [hk, List.countP_cons]
    simp only [hone, Finset.sum_add_distrib, Finset.sum_ite_eq, Finset.mem_range, h.1, if_true]
    rw [List.countP_cons, ih h.2]

/-! ## The requests on the connections -/

/-- A request of the handshake, or a submit; and its id is an `int`. -/
structure Genuine (login : Login) (r : Request) : Prop where
  kind : r = subscribeRequest ∨ r = authorizeRequest login ∨ r.IsSubmit
  range : -2 ^ 31 ≤ r.id ∧ r.id < 2 ^ 31

theorem genuine_of_handshake {net : NetPc} {r : Request} (h : handshake login net = some r) :
    Genuine login r := by
  rcases handshake_eq_some h with ⟨-, rfl⟩ | ⟨-, rfl⟩
  · exact ⟨.inl rfl, by decide⟩
  · exact ⟨.inr (.inl rfl), by constructor <;> simp [authorizeRequest]⟩

theorem genuine_submit (login : Login) (share : Submit) (n : ℤ) :
    Genuine login (share.request login (preIncrement n)) := by
  refine ⟨.inr (.inr (share.isSubmit_request login _)), ?_⟩
  rw [share.id_request, preIncrement]
  have hlo := Int.le_bmod (x := n + 1) (m := 2 ^ 32) (by norm_num)
  have hhi := Int.bmod_lt (x := n + 1) (m := 2 ^ 32) (by norm_num)
  norm_num at hlo hhi ⊢
  omega

structure Numbered (login : Login) (s : State) : Prop where
  workers : ∀ i r, s.workers i = some r → Genuine login r
  conns : ∀ k, ∀ r ∈ (s.conns k).requests, Genuine login r

theorem Numbered.next (hb : s.Basic login) (h : s.Numbered login) (he : s.Enabled login l) :
    (s.next login l).Numbered login := by
  constructor
  · intro i r hr
    by_cases hl : ∃ j share, l = .submit j share
    · obtain ⟨j, share, rfl⟩ := hl
      rcases workers_submit hr with ⟨-, rfl⟩ | ⟨-, hr⟩
      · exact genuine_submit login share _
      · exact h.workers i r hr
    · push Not at hl
      exact h.workers i r (workers_next hb he hl hr)
  · intro k r hr
    rcases requests_next hb he hr with hr | ⟨-, t, ht, -⟩
    · exact h.conns k r hr
    · cases t with
      | network => exact genuine_of_handshake ht
      | worker i => exact h.workers i r ht

theorem prefix_written (c : Conn) (w : Writer) (n : ℕ) :
    c.requests <+: (written c w n).requests := by
  rw [written]
  split
  · exact List.prefix_append _ _
  · exact List.prefix_refl _

/-- What was begun on a connection stays so. -/
theorem requests_prefix (hb : s.Basic login) (he : s.Enabled login l) (k : ℕ) :
    (s.conns k).requests <+: ((s.next login l).conns k).requests := by
  have hupdate : ∀ (k' : ℕ) (c : Conn), (s.conns k').requests <+: c.requests →
      (s.conns k).requests <+: (Function.update s.conns k' c k).requests := by
    intro k' c hc
    by_cases hk : k = k'
    · subst hk
      rwa [Function.update_self]
    · rw [Function.update_of_ne hk]
  cases hsends : l.sends with
  | false => rw [(next_frame hb he hsends).conns]
  | true =>
    have hstep := next_sends he hsends
    generalize s.next login l = s' at hstep
    cases hstep with
    | part w k' n hw hk' hn hlt => exact hupdate k' _ (prefix_written _ w n)
    | done w k' n hw hk' hn hend =>
      rw [(sendReturns_frame _ _ _).2.2.2.2.2.2.2.2.1]
      exact hupdate k' _ (prefix_written _ w n)
    | error w hw =>
      rw [State.sendError, (sendReturns_frame _ _ _).2.2.2.2.2.2.2.2.1]
      cases w.head with
      | none => exact List.prefix_refl _
      | some k' => exact hupdate k' _ (List.prefix_refl _)
    | refused t r hw hr hk =>
      rw [(sendReturns_frame _ _ _).2.2.2.2.2.2.2.2.1]
    | _ => exact List.prefix_refl _

end State

theorem numbered_of_reach {login : Login} {P : State → Label → Prop} {s : State}
    (h : (client login).Reach P s) : s.Numbered login := by
  refine h.invariant_of (fun _ => basic_of_reach) ?_ fun _ _ hb hn he _ => hn.next hb he
  exact ⟨nofun, fun _ _ hr => absurd hr List.not_mem_nil⟩

theorem tallied_of_reach {login : Login} {P : State → Label → Prop} {s : State}
    (h : (client login).Reach P s) : s.Tallied :=
  h.invariant_of (fun _ => basic_of_reach) ⟨rfl, rfl⟩ fun _ _ hb ht he _ => ht.next hb he

namespace Link

variable {login : Login} {s : Link}

/-! ## The honest pool -/

/-- The ids that lines answer. -/
def answers (lines : List Bytes) : List ℚ := lines.filterMap responseId

/-- The ids of the requests that were begun on a connection. -/
def requestIds (s : Link) (k : ℕ) : List ℚ :=
  (s.client.conns k).requests.map fun r => (r.id : ℚ)

theorem count_answers_append (lines : List Bytes) (line : Bytes) (n : ℚ) :
    (answers (lines ++ [line])).count n =
      (answers lines).count n + if responseId line = some n then 1 else 0 := by
  rw [answers, List.filterMap_append, List.count_append, ← answers]
  cases hid : responseId line with
  | none => simp [hid]
  | some m => by_cases hm : m = n <;> simp [hid, hm]

/-- A line that is posted answers nothing, or a request that was begun on the connection
and that was not answered yet. -/
def Honest (s : Link) : Label → Prop
  | .client _ => True
  | .post k line => ∀ n ∈ responseId line,
      (answers (s.posted k)).count n < (s.requestIds k).count n

instance (s : Link) : (l : Label) → Decidable (s.Honest l)
  | .client _ => .isTrue trivial
  | .post k line => inferInstanceAs (Decidable (∀ n ∈ responseId line,
      (answers (s.posted k)).count n < (s.requestIds k).count n))

/-- No request has more answers than it was begun times. -/
def Answering (s : Link) : Prop :=
  ∀ k n, (answers (s.posted k)).count n ≤ (s.requestIds k).count n

theorem Answering.next (hb : s.client.Basic login) (h : s.Answering) {l : Label}
    (he : s.Enabled login l) (hP : s.Honest l) : ((link login).next s l).Answering := by
  intro k n
  cases l with
  | client l =>
    have hgrows := (State.requests_prefix hb he.1 k).sublist.map fun r => (r.id : ℚ)
    exact (h k n).trans (hgrows.count_le n)
  | post k' line =>
    change (answers (Function.update s.posted k' (s.posted k' ++ [line]) k)).count n ≤
      (s.requestIds k).count n
    by_cases hk : k = k'
    · subst hk
      rw [Function.update_self, count_answers_append]
      split
      · rename_i hid
        exact hP n hid
      · exact h k n
    · rw [Function.update_of_ne hk]
      exact h k n

/-- The ids of the submits that were begun on a connection. -/
def submitIds (s : Link) (k : ℕ) : List ℤ :=
  ((s.client.conns k).requests.filter fun r => r.method = bytes "mining.submit").map (·.id)

/-- The ids of the verdicts that were handled on a connection. -/
def verdictIds (s : Link) (k : ℕ) : List ℤ := (s.client.handledOn k).filterMap shareId

/-- An honest pool gives its verdicts under the ids of requests, which no conversion
changes. -/
theorem responseId_of_shareId (hn : s.client.Numbered login) (ha : s.Answering) {k : ℕ}
    {line : Bytes} (hline : line ∈ s.posted k) {id : ℤ} (h : shareId line = some id) :
    responseId line = some (id : ℚ) := by
  rw [shareId, Option.filter_eq_some_iff, Option.map_eq_some_iff] at h
  obtain ⟨⟨n, hn', rfl⟩, -⟩ := h
  have hanswer : n ∈ answers (s.posted k) := List.mem_filterMap.mpr ⟨line, hline, hn'⟩
  have hrequest : n ∈ s.requestIds k :=
    List.count_pos_iff.mp ((List.count_pos_iff.mpr hanswer).trans_le (ha k n))
  obtain ⟨r, hr, rfl⟩ := List.mem_map.mp hrequest
  rw [Double.toInt32_intCast (hn.conns k r hr).range]
  exact hn'

theorem count_submitIds (hn : s.client.Numbered login) (k : ℕ) {id : ℤ}
    (hid : id ≠ 1 ∧ id ≠ 2) : (s.requestIds k).count (id : ℚ) = (s.submitIds k).count id := by
  rw [requestIds, submitIds, List.count, List.countP_map, List.count, List.countP_map,
    List.countP_filter]
  refine List.countP_congr fun r hr => ?_
  simp only [Function.comp_apply, beq_iff_eq, Int.cast_inj, Bool.and_eq_true, decide_eq_true_eq]
  constructor
  · rintro rfl
    refine ⟨rfl, ?_⟩
    rcases (hn.conns k r hr).kind with rfl | rfl | hsubmit
    · exact absurd rfl hid.1
    · exact absurd rfl hid.2
    · exact hsubmit
  · exact And.left

/-- The verdicts on a connection are on submits that were begun there, on each at most
one. -/
theorem verdictIds_subperm (hn : s.client.Numbered login) (hd : s.Delivery) (ha : s.Answering)
    (k : ℕ) : (s.verdictIds k).Subperm (s.submitIds k) := by
  have hearlier := hd.handledOn_prefix_posted k
  refine List.subperm_ext_iff.mpr fun id hid => ?_
  obtain ⟨line, -, hline⟩ := List.mem_filterMap.mp hid
  have hne : id ≠ 1 ∧ id ≠ 2 := by
    rw [shareId, Option.filter_eq_some_iff] at hline
    exact of_decide_eq_true hline.2
  calc (s.verdictIds k).count id
      = (s.client.handledOn k).countP fun line => shareId line == some id := List.count_filterMap
    _ ≤ (s.client.handledOn k).countP fun line => responseId line == some (id : ℚ) := by
        refine List.countP_mono_left fun line hmem hshare => ?_
        rw [beq_iff_eq] at hshare ⊢
        exact responseId_of_shareId hn ha (hearlier.subset hmem) hshare
    _ ≤ (s.posted k).countP fun line => responseId line == some (id : ℚ) :=
        hearlier.sublist.countP_le
    _ = (answers (s.posted k)).count (id : ℚ) := List.count_filterMap.symm
    _ ≤ (s.requestIds k).count (id : ℚ) := ha k id
    _ = (s.submitIds k).count id := count_submitIds hn k hne

end Link

open Link in
theorem answering_of_reach {login : Login} {s : Link} (h : (link login).Reach Honest s) :
    s.Answering := by
  refine h.invariant_of (J := fun s => s.client.Basic login)
    (fun s hs => basic_of_reach (client_of_link hs)) (fun k n => Nat.le_refl 0) ?_
  exact fun s l hb ha he hP => ha.next hb he hP

/-- With an honest pool the share counters are the numbers of the accepting and of the
rejecting verdicts that were handled on all connections; on each connection these are
verdicts on submits that were begun there, on each at most one. -/
theorem shares_accounted {login : Login} {s : Link} (h : (link login).Reach Link.Honest s) :
    s.client.counters.sharesAccepted =
        ∑ k ∈ Finset.range s.client.opened, (s.client.handledOn k).countP (verdict true) ∧
      s.client.counters.sharesRejected =
        ∑ k ∈ Finset.range s.client.opened, (s.client.handledOn k).countP (verdict false) ∧
      ∀ k, (s.verdictIds k).Subperm (s.submitIds k) := by
  have hclient := client_of_link h
  have htallied := tallied_of_reach hclient
  have hopened := (orderly_of_reach hclient).handled
  refine ⟨?_, ?_, ?_⟩
  · rw [htallied.accepted]
    exact State.countP_handled hopened (verdict true)
  · rw [htallied.rejected]
    exact State.countP_handled hopened (verdict false)
  · exact Link.verdictIds_subperm (numbered_of_reach hclient) (delivery_of_reach h)
      (answering_of_reach h)

/-- Two submits, of which the first has the id of `mining.authorize`; the pool answers all
requests. -/
def verdictRun (login : Login) : List Link.Label :=
  let share := Submit.blobShare (bytes "job") (bytes "00")
  let accepted := bytes "\x7b\"id\":3,\"result\":true\x7d"
  (handshakeRun login ++ submitRun login 0 share 2 ++ submitRun login 0 share 3).map .client ++
    [.post 0 subscribedLine, .post 0 authorizedLine, .post 0 accepted, .post 0 authorizedLine,
      .client (.recv (Lines.join newline
        [subscribedLine, authorizedLine, accepted, authorizedLine])),
      .client .line, .client .line, .client .line, .client .line]

theorem shares_accounted_verdictRun :
    let login : Login := ⟨bytes "wallet", bytes "rig", bytes "x"⟩
    let s := (link login).exec {} (verdictRun login)
    s.client.counters.sharesAccepted = 1 ∧ s.submitIds 0 = [2, 3] ∧
      (s.verdictIds 0).Subperm (s.submitIds 0) := by
  intro login s
  have hvalid : (link login).Valid Link.Honest {} (verdictRun login) := by decide +kernel
  have h : (link login).Reach Link.Honest s := .exec .init hvalid
  exact ⟨by decide +kernel, by decide +kernel, (shares_accounted h).2.2 0⟩

end CppMiner.Network
