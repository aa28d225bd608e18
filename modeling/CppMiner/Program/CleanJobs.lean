-- SUMMARY: Shares for jobs that a clean job has replaced: when no worker submits one.
import CppMiner.Program.Records

/-!
# Clean jobs

A job with `cleanJobs` is to discard the shares in flight for the jobs before it. The
flag is not read: a worker tests for a new job between batches, and submits what it
finds in between. In a run in which no batch finds a share after a clean job has
replaced its own, no share is submitted for a job before the last clean one
(`discardsOldJobs_of_reach`).
-/

namespace CppMiner.Program

open Miner (MiningJob Setup Worker Snapshot Attempt difficultyToThreshold)
open Network (Login Event handleLine nextLine)

/-- Whether a callback delivers a job with `cleanJobs`. -/
def deliversClean : Event → Bool
  | .onJob job => job.cleanJobs
  | _ => false

namespace State

variable {login : Login} {setup : Setup} {s s' : State} {l : Label}

/-- Every share is submitted for a job that was not published before the last clean
job there was at the call. -/
def DiscardsOldJobs (s : State) : Prop :=
  ∀ sub ∈ s.engine.submissions, sub.cleanFrom ≤ sub.snapshot.published.ordinal

/-- A clean job is published when no batch has a share to find any more, and a batch that
begins on a job before the last clean one finds none. -/
def CleansQuiet (setup : Setup) (s : State) : Label → Prop
  | .client .line => (∃ q ∈ nextLine s.client.lineBuffer,
      ∃ e ∈ (handleLine s.client.client q.1).2, deliversClean e) →
        ∀ i < setup.threads, Quiet (s.engine.workers i)
  | .load i stack => ∀ q ∈ s.beginning i stack,
      q.1.published.ordinal < s.engine.cleanFrom → Quiet q.2
  | _ => True

instance (setup : Setup) (s : State) : (l : Label) → Decidable (s.CleansQuiet setup l)
  | .client .line => inferInstanceAs (Decidable ((∃ q ∈ nextLine s.client.lineBuffer,
      ∃ e ∈ (handleLine s.client.client q.1).2, deliversClean e) →
        ∀ i < setup.threads, Quiet (s.engine.workers i)))
  | .load i stack => inferInstanceAs (Decidable (∀ q ∈ s.beginning i stack,
      q.1.published.ordinal < s.engine.cleanFrom → Quiet q.2))
  | .client .start | .client .stop | .client .stopDisconnect | .client .join
  | .client (.submit ..) | .client (.lock _) | .client (.send _) | .client .sendError
  | .client .checkOuter | .client .connectFails | .client .connected | .client .reconnect
  | .client .checkInner | .client .timeout | .client .connectionLost | .client (.recv _)
  | .client .drained | .client .checkLost | .client .drop | .client .waited
  | .engineStart | .engineStop | .engineJoin | .check _ | .take _ | .attempt _
  | .finish _ => .isTrue trivial

/-- A batch on a job before the last clean one has no share to find. -/
structure Discarding (s : State) : Prop where
  mining : ∀ i worker b left, s.engine.workers i = .mining worker b left →
    s.engine.cleanFrom ≤ b.published.ordinal ∨ ∀ x ∈ left, x.submitted = none
  discards : s.DiscardsOldJobs

/-- A step that leaves the last clean job as it is. -/
theorem Discarding.mining_of_eq (h : s.Discarding) (hstep : Step login setup s l s')
    (hclean : s'.engine.cleanFrom = s.engine.cleanFrom) (hP : s.CleansQuiet setup l) {i : ℕ}
    {worker : Worker} {b : Snapshot} {left : List Attempt}
    (hi : s'.engine.workers i = .mining worker b left) :
    s'.engine.cleanFrom ≤ b.published.ordinal ∨ ∀ x ∈ left, x.submitted = none := by
  rw [hclean]
  refine hstep.mining_quiet h.mining (fun _ => id) ?_ hi
  rintro i stack b t rfl hbegin hnot
  exact hP _ hbegin (Nat.lt_of_not_le hnot)

/-- Publishing a job leaves the workers where they are. -/
theorem Discarding.mining_of_publishes (hr : s.Recorded login setup) (h : s.Discarding)
    {job : MiningJob} (hjob : Publishes s s' l job) (hP : s.CleansQuiet setup l) {i : ℕ}
    {worker : Worker} {b : Snapshot} {left : List Attempt}
    (hi : s'.engine.workers i = .mining worker b left) :
    s'.engine.cleanFrom ≤ b.published.ordinal ∨ ∀ x ∈ left, x.submitted = none := by
  obtain ⟨rfl, line, rest, hline, hevents, rfl⟩ := hjob
  change s.engine.workers i = .mining worker b left at hi
  change (if job.cleanJobs then s.engine.published + 1 else s.engine.cleanFrom) ≤ _ ∨ _
  cases hclean : job.cleanJobs with
  | false => exact h.mining i worker b left hi
  | true =>
    have hlt : i < setup.threads := hr.lt_threads (by rw [hi]; nofun)
    have hquiet := hP ⟨(line, rest), hline, .onJob job, by simp [hevents], hclean⟩ i hlt
    rw [hi] at hquiet
    exact .inr hquiet

theorem Discarding.next (hr : s.Recorded login setup) (h : s.Discarding)
    (hstep : Step login setup s l s') (hP : s.CleansQuiet setup l) : s'.Discarding where
  mining i worker b left hi := by
    rcases hstep.publishes with ⟨-, -, hclean⟩ | ⟨job, hjob⟩
    · exact h.mining_of_eq hstep hclean hP hi
    · exact h.mining_of_publishes hr hjob hP hi
  discards sub hsub := by
    rcases hstep.submissions hsub with hsub | ⟨i, worker, left, share, hi, hx, hclean, -⟩
    · exact h.discards sub hsub
    · rw [hclean]
      rcases h.mining i worker _ _ hi with hle | hquiet
      · exact hle
      · have hnone := hquiet sub.attempt (List.mem_cons_self ..)
        rw [hx] at hnone
        cases hnone

end State

open State in
/-- In a run in which clean jobs replace batches that have no share to find any more, no
share is submitted for a job that was published before a clean one. -/
theorem discardsOldJobs_of_reach {login : Login} {setup : Setup} {s : State}
    (h : (program login setup).Reach (CleansQuiet setup) s) : s.DiscardsOldJobs := by
  have hdiscarding : s.Discarding :=
    invariant_of (fun _ => recorded_of_reach) ⟨nofun, fun _ hsub => absurd hsub List.not_mem_nil⟩
      (fun _ _ _ hr hd hstep hP => hd.next hr hstep hP) h
  exact hdiscarding.discards

open State in
/-- A clean job arrives while worker 0 is in a batch at a difficulty that no digest meets,
and worker 1 submits a share for it. -/
theorem discardsOldJobs_of_reach_clean :
    let login : Login := ⟨bytes "wallet", bytes "rig", bytes "x"⟩
    let setup : Setup := { algorithm := .sha256d {}, threads := 2 }
    let before := linesRun login [difficultyLine "1e30", jobLine "a" "1" "false",
      difficultyLine "1", jobLine "b" "1" "true"] 2 ++ .engineStart :: attemptRun 0 ++
      [.client .line]
    let run := before ++ .client .line :: attemptRun 1
    (batchOf ((after login setup before).engine.workers 0)).map (·.published.job.jobId) =
        some (bytes "a") ∧
      (after login setup run).engine.submissions.map (·.cleanFrom) = [3] ∧
      (after login setup run).DiscardsOldJobs := by
  intro login setup before run
  have hbefore : (program login setup).Valid (CleansQuiet setup) (init setup) before ∧
      (program login setup).Enabled (after login setup before) (.client .line) ∧
      (batchOf ((after login setup before).engine.workers 0)).map (·.published.job.jobId) =
        some (bytes "a") ∧
      ∀ i < setup.threads, (batchOf ((after login setup before).engine.workers i)).all
        fun b => difficultyToThreshold b.difficulty = 0 := by
    decide +kernel
  obtain ⟨hvalid, henabled, hbatch, hzero⟩ := hbefore
  have hafter : (program login setup).Valid (CleansQuiet setup)
        ((program login setup).next (after login setup before) (.client .line)) (attemptRun 1) ∧
      (after login setup run).engine.submissions.map (·.cleanFrom) = [3] := by
    decide +kernel
  -- nothing is evaluated any more: worker 0 is quiet by what its batch was begun with
  clear_value before
  have hreach : (program login setup).Reach (CleansQuiet setup) (after login setup before) :=
    reach_after hvalid
  have hquiet : (after login setup before).CleansQuiet setup (.client .line) :=
    fun _ i hi => (recorded_of_reach hreach).quiet (hzero i hi)
  exact ⟨hbatch, hafter.2, discardsOldJobs_of_reach (.through hreach henabled hquiet hafter.1)⟩

/-- A clean job arrives between two attempts of a batch. -/
theorem share_after_clean :
    ¬ ∀ (login : Login) (setup : Setup) (s : State), (program login setup).Reachable s →
      s.DiscardsOldJobs := by
  intro h
  let login : Login := ⟨bytes "wallet", bytes "rig", bytes "x"⟩
  let setup : Setup := { algorithm := .sha256d {}, threads := 1 }
  let run := linesRun login
    [difficultyLine "1", jobLine "a" "1" "false", jobLine "b" "1" "true"] 2 ++ beginRun ++
    [.client .line, .attempt 0]
  have hrun : (program login setup).Valid (fun _ _ => True) (init setup) run ∧
      ∃ sub ∈ (after login setup run).engine.submissions,
        ¬ sub.cleanFrom ≤ sub.snapshot.published.ordinal := by
    decide +kernel
  obtain ⟨hvalid, sub, hsub, hnot⟩ := hrun
  exact hnot (h login setup _ (reach_after hvalid) sub hsub)

end CppMiner.Program
