-- SUMMARY: Every `mining.submit` the program writes is a share that its pool finds valid, for a job the pool sent.
import CppMiner.Miner.PoolCheck
import CppMiner.Program.Records

/-!
# Verification of shares

What a share rests on passes from the network thread to the engine, through a worker's
batch into the client, and out to the pool as a line of text. In every run of the
program with sha256d each `mining.submit` that is written is for a job that a callback
delivered, and its line passes the pool's check for that job and the difficulty that was
set last when the batch was read (`submits_verify`).
-/

namespace CppMiner.Program

open Hash (Kind)
open Hash.Cryptonight (Stack)
open Miner (Engine MiningJob Setup WorkerThread Worker Published Snapshot Attempt Submission
  difficultyToThreshold leadingBits)
open Network (Login Event Request)

namespace State

variable {login : Login} {setup : Setup} {s s' : State} {l : Label}

/-- What a worker thread keeps between batches. -/
def workerOf : WorkerThread → Option Worker
  | .checking worker | .fetching worker | .holding worker _ | .mining worker _ _ => some worker
  | .exited | .died => none

/-- The request is that of a submission. -/
def Submitted (s : State) (r : Request) : Prop := ∃ sub ∈ s.engine.submissions, sub.request = r

/-- Where the attempts of the batches and the requests of the client come from. -/
structure Traced (login : Login) (setup : Setup) (s : State) : Prop where
  worker : ∀ i worker, workerOf (s.engine.workers i) = some worker →
    worker.index = i ∧ worker.algorithm.kind = setup.algorithm.kind
  mining : ∀ i worker b left, s.engine.workers i = .mining worker b left →
    ∀ x ∈ left, x.Traced setup.algorithm.kind i b.published.job (difficultyToThreshold b.difficulty)
  submissions : ∀ sub ∈ s.engine.submissions,
    (∃ i, sub.attempt.Traced setup.algorithm.kind i sub.snapshot.published.job
      (difficultyToThreshold sub.snapshot.difficulty)) ∧
    ∃ share n, sub.attempt.submitted = some share ∧
      sub.request = share.request login (Network.preIncrement n)
  sending : ∀ i r, s.client.workers i = some r → s.Submitted r
  conns : ∀ k, ∀ r ∈ (s.client.conns k).requests, r.IsSubmit → s.Submitted r

theorem Submitted.mono (hg : Grows s s') {r : Request} (h : s.Submitted r) : s'.Submitted r := by
  obtain ⟨sub, hsub, hr⟩ := h
  exact ⟨sub, hg.submissions.subset hsub, hr⟩

/-- What a batch that begins leaves the worker with, and what it will try. -/
theorem traced_of_begin {worker worker' : Worker} {b b' : Snapshot} {stack : ℕ → Stack}
    {left : List Attempt} (h : WorkerThread.begin worker b stack = .mining worker' b' left) :
    b' = b ∧ worker'.index = worker.index ∧ worker'.algorithm.kind = worker.algorithm.kind ∧
      ∀ x ∈ left, x.Traced worker.algorithm.kind worker.index b.published.job
        (difficultyToThreshold b.difficulty) := by
  unfold WorkerThread.begin at h
  split at h
  · rename_i xs worker₁ hbatch
    cases h
    have hok := Miner.batch_ok hbatch
    exact ⟨rfl, hok.index, hok.kind, Miner.traced_of_batch hbatch⟩
  · cases h

theorem workerOf_begin {worker worker' : Worker} {b : Snapshot} {stack : ℕ → Stack}
    (h : workerOf (.begin worker b stack) = some worker') :
    worker'.index = worker.index ∧ worker'.algorithm.kind = worker.algorithm.kind := by
  cases hbegin : WorkerThread.begin worker b stack with
  | mining worker₁ b' left =>
    rw [hbegin] at h
    cases h
    obtain ⟨-, hindex, hkind, -⟩ := traced_of_begin hbegin
    exact ⟨hindex, hkind⟩
  | exited => rw [hbegin] at h; cases h
  | died => rw [hbegin] at h; cases h
  | checking _ => unfold WorkerThread.begin at hbegin; split at hbegin <;> cases hbegin
  | fetching _ => unfold WorkerThread.begin at hbegin; split at hbegin <;> cases hbegin
  | holding _ _ => exact absurd hbegin begin_ne_holding

/-- A step of worker `j` that keeps its index and its kind of algorithm, if it goes on. -/
theorem workerOf_setWorker {e : Engine} {i j : ℕ} {t : WorkerThread} {worker worker' : Worker}
    (hi : workerOf ((e.setWorker j t).workers i) = some worker')
    (hj : workerOf (e.workers j) = some worker)
    (ht : ∀ w, workerOf t = some w →
      w.index = worker.index ∧ w.algorithm.kind = worker.algorithm.kind) :
    ∃ w, workerOf (e.workers i) = some w ∧ worker'.index = w.index ∧
      worker'.algorithm.kind = w.algorithm.kind := by
  rcases workers_setWorker (e := e) (i := j) (j := i) (t := t) rfl with ⟨rfl, heq⟩ | ⟨-, heq⟩
  · rw [← heq] at hi
    exact ⟨worker, hj, ht worker' hi⟩
  · rw [← heq] at hi
    exact ⟨worker', hi, rfl, rfl⟩

/-- A worker is new, or has kept its index and its kind of algorithm. -/
theorem Step.workerOf (hstep : Step login setup s l s') {i : ℕ} {worker : Worker}
    (hi : workerOf (s'.engine.workers i) = some worker) :
    worker = Worker.start setup.algorithm i setup.threads ∨
    ∃ w, State.workerOf (s.engine.workers i) = some w ∧ worker.index = w.index ∧
      worker.algorithm.kind = w.algorithm.kind := by
  have hsame : ∀ w w' : Worker, some w = some w' →
      w'.index = w.index ∧ w'.algorithm.kind = w.algorithm.kind := by
    rintro w w' ⟨⟩
    exact ⟨rfl, rfl⟩
  cases hstep with
  | engineStart hjoin =>
    simp only [Engine.start] at hi
    split at hi
    · exact .inr ⟨worker, hi, rfl, rfl⟩
    · by_cases hlt : i < setup.threads
      · simp only [if_pos hlt, State.workerOf, Option.some.injEq] at hi
        exact .inl hi.symm
      · simp only [if_neg hlt] at hi
        exact .inr ⟨worker, hi, rfl, rfl⟩
  | engineStop hjoin => exact .inr ⟨worker, by simpa using hi, rfl, rfl⟩
  | check j w hj =>
    refine .inr (workerOf_setWorker hi (by rw [hj]; rfl) fun w' hw' => ?_)
    split at hw'
    · exact hsame w w' hw'
    · cases hw'
  | take j w p hj hp => exact .inr (workerOf_setWorker hi (by rw [hj]; rfl) (hsame w))
  | idle j w hj hp => exact .inr (workerOf_setWorker hi (by rw [hj]; rfl) (hsame w))
  | load j stack w p hj snapshot hsnapshot =>
    exact .inr (workerOf_setWorker hi (by rw [hj]; rfl) fun _ => workerOf_begin)
  | missed j w snapshot x left hj hfree hx =>
    exact .inr (workerOf_setWorker hi (by rw [hj]; rfl) (hsame w))
  | submitted j w snapshot x left hj hfree share hx request hrequest =>
    exact .inr (workerOf_setWorker hi (by rw [hj]; rfl) (hsame w))
  | finish j w snapshot hj hfree => exact .inr (workerOf_setWorker hi (by rw [hj]; rfl) (hsame w))
  | _ => exact .inr ⟨worker, hi, rfl, rfl⟩

theorem Traced.worker_next (h : s.Traced login setup) (hstep : Step login setup s l s') {i : ℕ}
    {worker : Worker} (hi : workerOf (s'.engine.workers i) = some worker) :
    worker.index = i ∧ worker.algorithm.kind = setup.algorithm.kind := by
  rcases hstep.workerOf hi with rfl | ⟨w, hw, hindex, hkind⟩
  · exact ⟨rfl, rfl⟩
  · obtain ⟨hindex', hkind'⟩ := h.worker i w hw
    exact ⟨hindex.trans hindex', hkind.trans hkind'⟩

theorem Traced.mining_next (h : s.Traced login setup) (hstep : Step login setup s l s') {i : ℕ}
    {worker : Worker} {b : Snapshot} {left : List Attempt}
    (hi : s'.engine.workers i = .mining worker b left) :
    ∀ x ∈ left, x.Traced setup.algorithm.kind i b.published.job
      (difficultyToThreshold b.difficulty) := by
  rcases hstep.mining hi with hi | ⟨x, hi⟩ | ⟨stack, -, hbegin⟩
  · exact h.mining i worker b left hi
  · exact fun y hy => h.mining i worker b (x :: left) hi y (List.mem_cons_of_mem _ hy)
  · obtain ⟨worker', p, hholding, -, ht⟩ := beginning_eq_some hbegin
    obtain ⟨hindex, hkind⟩ := h.worker i worker' (by rw [hholding]; rfl)
    obtain ⟨-, -, -, htraced⟩ := traced_of_begin ht.symm
    rwa [hindex, hkind] at htraced

theorem Traced.submissions_next (h : s.Traced login setup) (hstep : Step login setup s l s')
    {sub : Submission} (hsub : sub ∈ s'.engine.submissions) :
    (∃ i, sub.attempt.Traced setup.algorithm.kind i sub.snapshot.published.job
      (difficultyToThreshold sub.snapshot.difficulty)) ∧
    ∃ share n, sub.attempt.submitted = some share ∧
      sub.request = share.request login (Network.preIncrement n) := by
  rcases hstep.submissions hsub with hsub | ⟨i, worker, left, share, hi, hx, -, hrequest⟩
  · exact h.submissions sub hsub
  · exact ⟨⟨i, h.mining i worker _ _ hi _ (List.mem_cons_self ..)⟩, share, _, hx, hrequest⟩

/-- What a worker sends is what it has submitted. -/
theorem Traced.sending_next (hb : s.client.Basic login) (h : s.Traced login setup)
    (hstep : Step login setup s l s') {i : ℕ} {r : Request} (hi : s'.client.workers i = some r) :
    s'.Submitted r := by
  have hg := hstep.grows hb
  cases hstep with
  | client l he hline hsubmit =>
    exact (h.sending i r (Network.State.workers_next hb he hsubmit hi)).mono hg
  | submitted j worker snapshot x left hj hfree share hx request hrequest =>
    rcases Network.State.workers_submit hi with ⟨rfl, hr⟩ | ⟨-, hr⟩
    · exact ⟨_, List.mem_append_right _ (List.mem_singleton_self _), hrequest.trans hr.symm⟩
    · exact (h.sending i r hr).mono hg
  | _ => exact (h.sending i r hi).mono hg

theorem Traced.conns_next (hb : s.client.Basic login) (h : s.Traced login setup)
    (hstep : Step login setup s l s') {k : ℕ} {r : Request}
    (hr : r ∈ (s'.client.conns k).requests) (hsubmit : r.IsSubmit) : s'.Submitted r := by
  have hg := hstep.grows hb
  rcases hstep.client_next with heq | ⟨c, he, heq, -⟩ <;> rw [heq] at hr
  · exact (h.conns k r hr hsubmit).mono hg
  · rcases Network.State.requests_next hb he hr with hr | ⟨-, t, hw⟩
    · exact (h.conns k r hr hsubmit).mono hg
    · cases t with
      | worker i => exact (h.sending i r hw.1).mono hg
      | network =>
        rcases Network.State.handshake_eq_some hw.1 with ⟨-, rfl⟩ | ⟨-, rfl⟩
        · exact absurd hsubmit Network.not_isSubmit_subscribe
        · exact absurd hsubmit (Network.not_isSubmit_authorize login)

end State

open State

theorem traced_of_reach {login : Login} {setup : Setup} {P : State → Label → Prop} {s : State}
    (h : (program login setup).Reach P s) : s.Traced login setup := by
  refine invariant_of (fun _ hs => Network.basic_of_reach (client_of_reach hs)) ?_
    (fun _ _ _ hb ht hstep _ => ?_) h
  · exact ⟨nofun, nofun, fun _ hsub => absurd hsub List.not_mem_nil, nofun,
      fun _ _ hr => absurd hr List.not_mem_nil⟩
  · exact
      { worker := fun _ _ => ht.worker_next hstep
        mining := fun _ _ _ _ => ht.mining_next hstep
        submissions := fun _ => ht.submissions_next hstep
        sending := fun _ _ => ht.sending_next hb hstep
        conns := fun _ _ => ht.conns_next hb hstep }

/-- A share is submitted only for a job that a callback delivered. -/
theorem delivered_of_submitted {s : State} {sub : Submission} {index : ℕ}
    {kind : Kind} (hpublished : s.WasPublished sub.snapshot.published)
    (htraced : sub.attempt.Traced kind index sub.snapshot.published.job
      (difficultyToThreshold sub.snapshot.difficulty))
    {share : Network.Submit} (hsubmitted : sub.attempt.submitted = some share) :
    ∃ k, s.client.callbacks[sub.snapshot.published.callbacks]? =
      some (k, .onJob sub.snapshot.published.job) := by
  cases hconnection : sub.snapshot.published.connection with
  | some k => exact ⟨k, hpublished.delivered k hconnection⟩
  | none =>
    -- without a connection it is the synthetic job, for which nothing is submitted
    obtain ⟨-, hjob, -⟩ := htraced.tried.submitted_eq_some hsubmitted
    rw [(hpublished.standby hconnection).1] at hjob
    exact absurd rfl hjob

/-- Every `mining.submit` that is written is a submission: a share with the id of the job of
its batch, from an attempt on this job whose digest is below the threshold of the batch. The
job is one that a callback delivered, the difficulty of the batch the one set last when it
was read; and with sha256d the line passes the pool's check for this job and this
difficulty. -/
theorem submits_verify {login : Login} {setup : Setup} {s : State}
    (h : (program login setup).Reachable s) {k : ℕ} {r : Request}
    (hr : r ∈ (s.client.conns k).requests) (hsubmit : r.IsSubmit) :
    ∃ sub ∈ s.engine.submissions, sub.request = r ∧ sub.snapshot ∈ s.engine.batches ∧
      (∃ share requestId, sub.attempt.submitted = some share ∧
        r = share.request login requestId ∧ share.jobId = sub.snapshot.published.job.jobId) ∧
      (∃ i, sub.attempt.Traced setup.algorithm.kind i sub.snapshot.published.job
        (difficultyToThreshold sub.snapshot.difficulty)) ∧
      leadingBits sub.attempt.digest < difficultyToThreshold sub.snapshot.difficulty ∧
      (∃ k', s.client.callbacks[sub.snapshot.published.callbacks]? =
        some (k', .onJob sub.snapshot.published.job)) ∧
      sub.snapshot.difficulty =
        setup.stored (lastDifficulty (s.client.callbacks.take sub.snapshot.callbacks)) ∧
      (setup.algorithm.kind = .sha256d → Miner.Hashable sub.snapshot.published.job →
        Miner.verifies login sub.snapshot.published.job sub.snapshot.difficulty r.toValue.dump =
          true) := by
  have htraced := traced_of_reach h
  have hrecorded := recorded_of_reach h
  -- the request leads to its submission, and this to its batch and to its attempt
  obtain ⟨sub, hsub, rfl⟩ := htraced.conns k r hr hsubmit
  obtain ⟨⟨i, hattempt⟩, share, n, hsubmitted, hrequest⟩ := htraced.submissions sub hsub
  have hwas := hrecorded.submissions sub hsub
  have hread := hrecorded.batches _ hwas.snapshot
  obtain ⟨hbelow, -, -⟩ := hattempt.tried.submitted_eq_some hsubmitted
  refine ⟨sub, hsub, rfl, hwas.snapshot, hwas.share, ⟨i, hattempt⟩, hbelow,
    delivered_of_submitted hread.published hattempt hsubmitted, hread.difficulty,
    fun hkind hjob => ?_⟩
  rw [hkind] at hattempt
  rw [hrequest]
  exact hattempt.verifies hjob hsubmitted login n

/-- A share of which one byte is written. -/
theorem submits_verify_submitRun :
    let login : Login := ⟨bytes "wallet", bytes "rig", bytes "x"⟩
    let setup : Setup := { algorithm := .sha256d {}, threads := 1 }
    let s := after login setup (linesRun login [difficultyLine "1", jobLine "a" "1" "false"] 2 ++
      beginRun ++ submitRun)
    ∃ r ∈ (s.client.conns 0).requests, r.IsSubmit ∧
      ∃ sub ∈ s.engine.submissions, sub.request = r ∧
        Miner.verifies login sub.snapshot.published.job sub.snapshot.difficulty r.toValue.dump =
          true := by
  intro login setup s
  have hrun : (program login setup).Valid (fun _ _ => True) (init setup)
        (linesRun login [difficultyLine "1", jobLine "a" "1" "false"] 2 ++ beginRun ++
          submitRun) ∧
      (∃ r ∈ (s.client.conns 0).requests, r.method = bytes "mining.submit") ∧
      ∀ sub ∈ s.engine.submissions, sub.snapshot.published.job.blob = [] := by
    decide +kernel
  obtain ⟨hvalid, ⟨r, hr, hsubmit⟩, hblob⟩ := hrun
  have hreach : (program login setup).Reachable s := reach_after hvalid
  obtain ⟨sub, hsub, hrequest, -, -, -, -, -, -, hverifies⟩ := submits_verify hreach hr hsubmit
  exact ⟨r, hr, hsubmit, sub, hsub, hrequest, hverifies rfl (.inl (hblob sub hsub))⟩

end CppMiner.Program
