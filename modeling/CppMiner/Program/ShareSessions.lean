-- SUMMARY: Shares across reconnects: when every share is written on the connection its job came from.
import CppMiner.Program.Records

/-!
# Sessions of shares

The current job belongs to the engine and stays there when the client disconnects, and a
worker that is about to submit does not learn of it. In a run in which no worker has a
share to submit when a new connection opens, and begins none while a connection is open
that its job is not from, every `mining.submit` is written on the connection that
delivered its job (`ownJobs_of_reach`).
-/

namespace CppMiner.Program

open Hash.Cryptonight (Stack)
open Miner (Setup Worker Snapshot Attempt Submission difficultyToThreshold)
open Network (Login Event Request)

namespace State

variable {login : Login} {setup : Setup} {s s' : State} {l : Label}

/-- Every `mining.submit` on a connection is a submission for a job that a callback
delivered on this connection, and carries the id of this job. -/
def OwnJobs (login : Login) (s : State) : Prop :=
  ∀ k, ∀ r ∈ (s.client.conns k).requests, r.IsSubmit →
    ∃ sub ∈ s.engine.submissions, sub.request = r ∧
      s.client.callbacks[sub.snapshot.published.callbacks]? =
        some (k, .onJob sub.snapshot.published.job) ∧
      ∃ share requestId, r = Network.Submit.request login requestId share ∧
        share.jobId = sub.snapshot.published.job.jobId

/-- The worker is in `sendLine` with a line that it has begun to write. -/
def Begun (s : State) (i : ℕ) : Prop :=
  ∃ w ∈ s.client.writeMutex, w.thread = .worker i ∧ w.sent ≠ 0

instance (s : State) (i : ℕ) : Decidable (s.Begun i) :=
  inferInstanceAs (Decidable (∃ w ∈ s.client.writeMutex, w.thread = .worker i ∧ w.sent ≠ 0))

/-- When a connection opens, no worker waits to write a submit and no batch has a share to
find any more; and a batch that begins while another connection is open than the one of
its job finds none. -/
def ReconnectsQuiet (setup : Setup) (s : State) : Label → Prop
  | .client .connected => ∀ i < setup.threads,
      ((s.client.workers i).isSome → s.Begun i) ∧ Quiet (s.engine.workers i)
  | .load i stack => ∀ q ∈ s.beginning i stack, ∀ k ∈ s.client.socketFd,
      q.1.published.connection ≠ some k → Quiet q.2
  | _ => True

instance (setup : Setup) (s : State) : (l : Label) → Decidable (s.ReconnectsQuiet setup l)
  | .client .connected => inferInstanceAs (Decidable (∀ i < setup.threads,
      ((s.client.workers i).isSome → s.Begun i) ∧ Quiet (s.engine.workers i)))
  | .load i stack => inferInstanceAs (Decidable (∀ q ∈ s.beginning i stack,
      ∀ k ∈ s.client.socketFd, q.1.published.connection ≠ some k → Quiet q.2))
  | .client .start | .client .stop | .client .stopDisconnect | .client .join
  | .client (.submit ..) | .client (.lock _) | .client (.send _) | .client .sendError
  | .client .checkOuter | .client .connectFails | .client .line | .client .reconnect
  | .client .checkInner | .client .timeout | .client .connectionLost | .client (.recv _)
  | .client .drained | .client .checkLost | .client .drop | .client .waited
  | .engineStart | .engineStop | .engineJoin | .check _ | .take _ | .attempt _
  | .finish _ => .isTrue trivial

/-- The request is one for a job of connection `k`. -/
def SubmittedFor (s : State) (k : ℕ) (r : Request) : Prop :=
  ∃ sub ∈ s.engine.submissions, sub.request = r ∧ sub.snapshot.published.connection = some k

theorem SubmittedFor.mono (hg : Grows s s') {k : ℕ} {r : Request} (h : s.SubmittedFor k r) :
    s'.SubmittedFor k r := by
  obtain ⟨sub, hsub, hr, hk⟩ := h
  exact ⟨sub, hg.submissions.subset hsub, hr, hk⟩

/-- What the workers submit or may still submit is for the open connection, if there is
one. -/
structure OwnSession (login : Login) (setup : Setup) (s : State) : Prop where
  beyond : ∀ i, setup.threads ≤ i → s.client.workers i = none
  waiting : ∀ i r, Network.State.Waiting login s.client (.worker i) r →
    ∀ k, s.client.socketFd = some k → s.SubmittedFor k r
  mining : ∀ i worker b left, s.engine.workers i = .mining worker b left →
    (∀ k, s.client.socketFd = some k → b.published.connection = some k) ∨
      ∀ x ∈ left, x.submitted = none
  conns : ∀ k, ∀ r ∈ (s.client.conns k).requests, r.IsSubmit → s.SubmittedFor k r

/-- Only `connected` opens a socket. -/
theorem Step.socketFd (hb : s.client.Basic login) (h : Step login setup s l s')
    (hl : l ≠ .client .connected) {k : ℕ} (hk : s'.client.socketFd = some k) :
    s.client.socketFd = some k := by
  rcases h.client_next with heq | ⟨c, he, heq, hc⟩
  · rwa [heq] at hk
  · rw [heq] at hk
    refine Network.State.socketFd_next hb he ?_ hk
    rintro rfl
    rcases hc with hc | ⟨i, share, hc⟩
    · exact hl hc
    · cases hc

theorem Step.engine_connected (h : Step login setup s (.client .connected) s') :
    s'.engine = s.engine := by
  cases h with
  | client l he hline hsubmit => rfl

/-- A submission of a worker is for the open connection. -/
theorem OwnSession.submitted (h : s.OwnSession login setup) {i : ℕ} {worker : Worker}
    {b : Snapshot} {x : Attempt} {left : List Attempt}
    (hi : s.engine.workers i = .mining worker b (x :: left)) (hx : x.submitted ≠ none) {k : ℕ}
    (hk : s.client.socketFd = some k) : b.published.connection = some k := by
  rcases h.mining i worker b _ hi with hown | hquiet
  · exact hown k hk
  · exact absurd (hquiet x (List.mem_cons_self ..)) hx

theorem OwnSession.beyond_next (hb : s.client.Basic login) (hr : s.Recorded login setup)
    (h : s.OwnSession login setup) (hstep : Step login setup s l s') {i : ℕ}
    (hi : setup.threads ≤ i) : s'.client.workers i = none := by
  have hnone := h.beyond i hi
  cases hstep with
  | client l he hline hsubmit =>
    by_contra hsome
    obtain ⟨r, hr⟩ := Option.ne_none_iff_exists'.mp hsome
    rw [Network.State.workers_next hb he hsubmit hr] at hnone
    cases hnone
  | submitted j worker snapshot x left hj hfree share hx request hrequest =>
    have hlt := hr.lt_threads (i := j) (by rw [hj]; nofun)
    have hne : i ≠ j := by omega
    simpa [Network.State.submit, Function.update_of_ne hne] using hnone
  | _ => exact hnone

theorem OwnSession.waiting_next (hb : s.client.Basic login) (h : s.OwnSession login setup)
    (hstep : Step login setup s l s') (hP : s.ReconnectsQuiet setup l) {i : ℕ} {r : Request}
    (hw : Network.State.Waiting login s'.client (.worker i) r) {k : ℕ}
    (hk : s'.client.socketFd = some k) : s'.SubmittedFor k r := by
  have hg := hstep.grows hb
  cases hstep with
  | client l he hline hsubmit =>
    have hold := Network.State.waiting_next hb he hsubmit hw
    by_cases hl : l = .connected
    · subst hl
      have hlt : i < setup.threads := by
        by_contra hnot
        exact absurd ((h.beyond i (Nat.le_of_not_lt hnot)).symm.trans hold.1) nofun
      obtain ⟨w, hmutex, ht, hsent⟩ := (hP i hlt).1 (Option.isSome_of_eq_some hold.1)
      exact absurd (hold.2 w hmutex ht) hsent
    · exact (h.waiting i r hold k (Network.State.socketFd_next hb he hl hk)).mono hg
  | submitted j worker snapshot x left hj hfree share hx request hrequest =>
    rcases Network.State.workers_submit hw.1 with ⟨rfl, hr⟩ | ⟨-, hr⟩
    · have hown := h.submitted hj (by rw [hx]; nofun) hk
      refine ⟨_, List.mem_append_right _ (List.mem_singleton_self _), ?_, hown⟩
      rw [hr, hrequest]
    · exact (h.waiting i r ⟨hr, hw.2⟩ k hk).mono hg
  | _ => exact (h.waiting i r hw k hk).mono hg

theorem OwnSession.mining_next (hb : s.client.Basic login) (hr : s.Recorded login setup)
    (h : s.OwnSession login setup) (hstep : Step login setup s l s')
    (hP : s.ReconnectsQuiet setup l) {i : ℕ} {worker : Worker} {b : Snapshot}
    {left : List Attempt} (hi : s'.engine.workers i = .mining worker b left) :
    (∀ k, s'.client.socketFd = some k → b.published.connection = some k) ∨
      ∀ x ∈ left, x.submitted = none := by
  by_cases hl : l = .client .connected
  · subst hl
    rw [hstep.engine_connected] at hi
    have hquiet := (hP i (hr.lt_threads (by rw [hi]; nofun))).2
    rw [hi] at hquiet
    exact .inr hquiet
  · refine hstep.mining_quiet h.mining (fun b hown k hk => hown k (hstep.socketFd hb hl hk)) ?_ hi
    rintro i stack b t rfl hbegin hnot
    push Not at hnot
    obtain ⟨k, hk, hne⟩ := hnot
    exact hP _ hbegin k hk hne

theorem OwnSession.conns_next (hb : s.client.Basic login) (h : s.OwnSession login setup)
    (hstep : Step login setup s l s') {k : ℕ} {r : Request}
    (hr : r ∈ (s'.client.conns k).requests) (hsubmit : r.IsSubmit) : s'.SubmittedFor k r := by
  have hg := hstep.grows hb
  rcases hstep.client_next with heq | ⟨c, he, heq, -⟩ <;> rw [heq] at hr
  · exact (h.conns k r hr hsubmit).mono hg
  · rcases Network.State.requests_next hb he hr with hr | ⟨hk, t, hw⟩
    · exact (h.conns k r hr hsubmit).mono hg
    · cases t with
      | worker i => exact (h.waiting i r hw k hk).mono hg
      | network =>
        rcases Network.State.handshake_eq_some hw.1 with ⟨-, rfl⟩ | ⟨-, rfl⟩
        · exact absurd hsubmit Network.not_isSubmit_subscribe
        · exact absurd hsubmit (Network.not_isSubmit_authorize login)

end State

open State in
/-- In a run in which no worker has a share left to submit when a connection opens, and
begins none on a job of another connection than the open one, every `mining.submit` is
written on the connection that delivered its job. -/
theorem ownJobs_of_reach {login : Login} {setup : Setup} {s : State}
    (h : (program login setup).Reach (ReconnectsQuiet setup) s) : s.OwnJobs login := by
  have hr := recorded_of_reach h
  have hown : s.OwnSession login setup := by
    refine invariant_of (J := fun s => s.client.Basic login ∧ s.Recorded login setup)
      (fun _ hs => ⟨Network.basic_of_reach (client_of_reach hs), recorded_of_reach hs⟩) ?_
      (fun s l s' hJ ho hstep hP => ?_) h
    · exact ⟨fun _ _ => rfl, nofun, nofun, fun _ _ hr => absurd hr List.not_mem_nil⟩
    · exact
        { beyond := fun i hi => ho.beyond_next hJ.1 hJ.2 hstep hi
          waiting := fun i r hw k hk => ho.waiting_next hJ.1 hstep hP hw hk
          mining := fun i worker b left hi => ho.mining_next hJ.1 hJ.2 hstep hP hi
          conns := fun k r hr hsubmit => ho.conns_next hJ.1 hstep hr hsubmit }
  intro k r hmem hsubmit
  obtain ⟨sub, hsub, rfl, hk⟩ := hown.conns k r hmem hsubmit
  have hwas := hr.submissions sub hsub
  obtain ⟨share, requestId, -, hrequest, hjobId⟩ := hwas.share
  refine ⟨sub, hsub, rfl, ?_, share, requestId, hrequest, hjobId⟩
  exact (hr.batches _ hwas.snapshot).published.delivered k hk

open State in
/-- Worker 0 is in a batch for a job of the first connection when the second one opens, and
worker 1 submits a share for a job of the second. -/
theorem ownJobs_of_reach_reconnectRun :
    let login : Login := ⟨bytes "wallet", bytes "rig", bytes "x"⟩
    let setup : Setup := { algorithm := .sha256d {}, threads := 2 }
    let before := linesRun login [difficultyLine "1e30", jobLine "a" "1" "false"] 2 ++
      .engineStart :: attemptRun 0 ++
      (Network.Label.drained :: .checkInner :: Network.reconnectRun.dropLast).map .client
    let rest := (Network.greetingRun login).map .client ++
      recvRun [difficultyLine "1", jobLine "b" "1" "false"] 2 ++ attemptRun 1 ++
      [.client (.lock (.worker 1)), .client (.send 1)]
    let run := before ++ .client .connected :: rest
    (batchOf ((after login setup before).engine.workers 0)).map (·.published.job.jobId) =
        some (bytes "a") ∧
      ((after login setup run).client.conns 1).requests.map (·.id) = [1, 2, 2] ∧
      (after login setup run).OwnJobs login := by
  intro login setup before rest run
  have hbefore : (program login setup).Valid (ReconnectsQuiet setup) (init setup) before ∧
      (program login setup).Enabled (after login setup before) (.client .connected) ∧
      (batchOf ((after login setup before).engine.workers 0)).map (·.published.job.jobId) =
        some (bytes "a") ∧
      ∀ i < setup.threads,
        (((after login setup before).client.workers i).isSome →
          (after login setup before).Begun i) ∧
        (batchOf ((after login setup before).engine.workers i)).all
          fun b => difficultyToThreshold b.difficulty = 0 := by
    decide +kernel
  obtain ⟨hvalid, henabled, hbatch, hzero⟩ := hbefore
  have hafter : (program login setup).Valid (ReconnectsQuiet setup)
        ((program login setup).next (after login setup before) (.client .connected)) rest ∧
      ((after login setup run).client.conns 1).requests.map (·.id) = [1, 2, 2] := by
    decide +kernel
  -- nothing is evaluated any more: worker 0 is quiet by what its batch was begun with
  clear_value before rest
  have hreach : (program login setup).Reach (ReconnectsQuiet setup) (after login setup before) :=
    reach_after hvalid
  have hquiet : (after login setup before).ReconnectsQuiet setup (.client .connected) :=
    fun i hi => ⟨(hzero i hi).1, (recorded_of_reach hreach).quiet (hzero i hi).2⟩
  exact ⟨hbatch, hafter.2, ownJobs_of_reach (.through hreach henabled hquiet hafter.1)⟩

/-- A batch that was begun before the connection was lost submits to the next one. -/
theorem share_of_previous_session :
    ¬ ∀ (login : Login) (setup : Setup) (s : State), (program login setup).Reachable s →
      s.OwnJobs login := by
  intro h
  let login : Login := ⟨bytes "wallet", bytes "rig", bytes "x"⟩
  let setup : Setup := { algorithm := .sha256d {}, threads := 1 }
  let run := linesRun login [difficultyLine "1", jobLine "a" "1" "false"] 2 ++ beginRun ++
    reconnectRun login ++ submitRun
  have hrun : (program login setup).Valid (fun _ _ => True) (init setup) run ∧
      (∃ r ∈ ((after login setup run).client.conns 1).requests,
        r.method = bytes "mining.submit") ∧
      ∀ sub ∈ (after login setup run).engine.submissions,
        sub.snapshot.published.callbacks = 1 ∧
          ((after login setup run).client.callbacks[1]?).map (·.1) = some 0 := by
    decide +kernel
  obtain ⟨hvalid, ⟨r, hr, hsubmit⟩, hsubs⟩ := hrun
  obtain ⟨sub, hsub, -, hcallback, -⟩ := h login setup _ (reach_after hvalid) 1 r hr hsubmit
  obtain ⟨hplace, hconnection⟩ := hsubs sub hsub
  rw [hplace] at hcallback
  rw [hcallback] at hconnection
  cases hconnection

end CppMiner.Program
