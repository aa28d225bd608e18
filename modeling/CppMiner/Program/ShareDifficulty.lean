-- SUMMARY: Which difficulty the submitted shares meet: the engine's, and when also that of their job.
import CppMiner.Program.Records

/-!
# The difficulty of shares

A notification can carry a difficulty, which goes into its job, and
`mining.set_difficulty` sets one in the engine. Digests are compared with the threshold
of the engine's alone. In a run in which no batch is begun with a higher threshold than
that of its job's own difficulty, every share meets the difficulty of its job
(`meetsJobDifficulty_of_reach`).
-/

namespace CppMiner.Program

open Hash.Cryptonight (Stack)
open Miner (Setup Snapshot Attempt leadingBits difficultyToThreshold)
open Network (Login)

namespace State

variable {login : Login} {setup : Setup} {s s' : State} {l : Label}

/-- A share for a job whose notification carried a positive difficulty is below the
threshold of this difficulty. -/
def MeetsJobDifficulty (s : State) : Prop :=
  ∀ sub ∈ s.engine.submissions, ∀ d ∈ sub.snapshot.published.carried, 0 < d →
    leadingBits sub.attempt.digest < difficultyToThreshold d

/-- The batch is read with a threshold that is not above that of its job's difficulty. -/
def Strict (b : Snapshot) : Prop :=
  ∀ d ∈ b.published.carried, 0 < d → difficultyToThreshold b.difficulty ≤ difficultyToThreshold d

instance (b : Snapshot) : Decidable (Strict b) :=
  inferInstanceAs (Decidable (∀ d ∈ b.published.carried, 0 < d →
    difficultyToThreshold b.difficulty ≤ difficultyToThreshold d))

/-- Where a batch begins, the engine's difficulty gives no higher threshold than the one
the job's notification carried. -/
def BeginsStrict (s : State) : Label → Prop
  | .load i stack => ∀ q ∈ s.beginning i stack, Strict q.1
  | _ => True

instance (s : State) : (l : Label) → Decidable (s.BeginsStrict l)
  | .load i stack => inferInstanceAs (Decidable (∀ q ∈ s.beginning i stack, Strict q.1))
  | .client _ | .engineStart | .engineStop | .engineJoin | .check _ | .take _ | .attempt _
  | .finish _ => .isTrue trivial

/-- What is submitted was below the threshold of its batch. -/
theorem WasSubmitted.leadingBits_lt {sub : Miner.Submission} (h : s.WasSubmitted login sub) :
    leadingBits sub.attempt.digest < difficultyToThreshold sub.snapshot.difficulty := by
  obtain ⟨kind, htries⟩ := h.attempt
  obtain ⟨share, requestId, hsubmitted, -⟩ := h.request
  exact (htries.tried.submitted_eq_some hsubmitted).1

theorem strict_next (hb : ∀ b ∈ s.engine.batches, Strict b) (hstep : Step login setup s l s')
    (hP : s.BeginsStrict l) : ∀ b ∈ s'.engine.batches, Strict b := by
  intro b hmem
  rcases hstep.batches hmem with hmem | ⟨i, stack, t, rfl, hbegin⟩
  · exact hb b hmem
  · exact hP _ hbegin

end State

open State in
/-- In a run in which every batch begins with a threshold that is not above that of its
job's difficulty, every share meets the difficulty its job carried. -/
theorem meetsJobDifficulty_of_reach {login : Login} {setup : Setup} {s : State}
    (h : (program login setup).Reach BeginsStrict s) : s.MeetsJobDifficulty := by
  have hstrict : ∀ b ∈ s.engine.batches, Strict b :=
    invariant_of (J := fun _ => True) (fun _ _ => trivial)
      (fun _ hb => absurd hb List.not_mem_nil)
      (fun _ _ _ _ hb hstep hP => strict_next hb hstep hP) h
  intro sub hsub d hd hpos
  have hsubmitted := (recorded_of_reach h).submissions sub hsub
  exact UInt64.lt_of_lt_of_le hsubmitted.leadingBits_lt (hstrict _ hsubmitted.snapshot d hd hpos)

theorem meetsJobDifficulty_of_reach_one :
    let login : Login := ⟨bytes "wallet", bytes "rig", bytes "x"⟩
    let setup : Setup := { algorithm := .sha256d {}, threads := 1 }
    let run := linesRun login [difficultyLine "1", jobLine "a" "1" "false"] 2 ++ beginRun ++
      [.attempt 0]
    (after login setup run).engine.submissions.map (·.snapshot.published.carried) = [some 1] ∧
      (after login setup run).MeetsJobDifficulty := by
  intro login setup run
  have hrun : (program login setup).Valid State.BeginsStrict (init setup) run ∧
      (after login setup run).engine.submissions.map (·.snapshot.published.carried) =
        [some 1] := by
    decide +kernel
  exact ⟨hrun.2, meetsJobDifficulty_of_reach (reach_after hrun.1)⟩

/-- A share at the engine's difficulty 1 for a job that carries a high one. -/
theorem share_above_job_difficulty :
    ¬ ∀ (login : Login) (setup : Setup) (s : State), (program login setup).Reachable s →
      s.MeetsJobDifficulty := by
  intro h
  let login : Login := ⟨bytes "wallet", bytes "rig", bytes "x"⟩
  let setup : Setup := { algorithm := .sha256d {}, threads := 1 }
  let run := linesRun login [difficultyLine "1", jobLine "a" "1000000000000000000" "false"] 2 ++
    beginRun ++ [.attempt 0]
  have hrun : (program login setup).Valid (fun _ _ => True) (init setup) run ∧
      ∃ sub ∈ (after login setup run).engine.submissions,
        sub.snapshot.published.carried = some (10 ^ 18) ∧
          ¬ leadingBits sub.attempt.digest < difficultyToThreshold (10 ^ 18) := by
    decide +kernel
  obtain ⟨hvalid, sub, hsub, hd, hnot⟩ := hrun
  exact hnot (h login setup _ (reach_after hvalid) sub hsub _ hd (by norm_num))

end CppMiner.Program
