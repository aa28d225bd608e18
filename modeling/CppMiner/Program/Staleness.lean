-- SUMMARY: How many shares for old jobs can follow a new one: one batch of every worker at most.
import Mathlib.Algebra.BigOperators.Group.Finset.Piecewise
import Mathlib.Algebra.Order.BigOperators.Group.Finset
import CppMiner.Program.Termination

/-!
# Staleness

A worker copies the current job before each batch and looks at no other until the batch is
over, so that shares for an old job are submitted after a new one was published. They are
bounded: each worker finishes the batch it is in, or the one it has copied the job for,
and no more (`stale_bounded`).
-/

namespace CppMiner.Program

open Hash.Cryptonight (Stack)
open Miner (Engine Setup WorkerThread Worker Published Snapshot Attempt kBatchSize)
open Network (Login)

namespace State

variable {login : Login} {setup : Setup} {s s' : State} {l : Label} {k : ℕ}

/-- How many attempts a worker can still make for jobs published before the `k`-th. -/
def staleLeft (k : ℕ) : WorkerThread → ℕ
  | .mining _ b left => if b.published.ordinal < k then left.length else 0
  | .holding _ p => if p.ordinal < k then kBatchSize else 0
  | .exited | .checking _ | .fetching _ | .died => 0

/-- How many shares were submitted for jobs published before the `k`-th. -/
def staleSubmissions (k : ℕ) (s : State) : ℕ :=
  s.engine.submissions.countP fun sub => sub.snapshot.published.ordinal < k

theorem staleLeft_le (hc : s.Coherent) (i : ℕ) : staleLeft k (s.engine.workers i) ≤ kBatchSize := by
  cases hi : s.engine.workers i with
  | mining worker b left =>
    have hlen := hc.batch i worker b left hi
    simp only [staleLeft]
    split <;> omega
  | holding worker p =>
    simp only [staleLeft]
    split <;> omega
  | _ => exact Nat.zero_le _

/-- A batch that begins has the attempts that were reckoned with. -/
theorem staleLeft_begin (worker : Worker) (b : Snapshot) (stack : ℕ → Stack) :
    staleLeft k (.begin worker b stack) ≤ if b.published.ordinal < k then kBatchSize else 0 := by
  cases hbegin : WorkerThread.begin worker b stack with
  | mining worker' b' left =>
    obtain ⟨rfl, -⟩ := mining_of_begin hbegin
    have hlen := length_le_of_begin hbegin
    simp only [staleLeft]
    split <;> omega
  | holding _ _ => exact absurd hbegin begin_ne_holding
  | _ => exact Nat.zero_le _

/-- Once the `k`-th job is published no worker takes an older one. -/
theorem Moves.staleLeft_le (hr : s.Recorded login setup) (hk : k ≤ s.engine.published) {i : ℕ}
    {t : WorkerThread} (h : Moves setup s l i t) :
    staleLeft k t ≤ staleLeft k (s.engine.workers i) := by
  cases h with
  | stands => exact le_rfl
  | exits => exact Nat.zero_le _
  | checks worker hi => exact Nat.zero_le _
  | fetches worker hi => exact Nat.zero_le _
  | takes worker p hi hp =>
    obtain ⟨p', hp', -, hordinal⟩ := hr.current
    rw [hp, Option.some.injEq] at hp'
    subst hp'
    have hnot : ¬ p.ordinal < k := by omega
    simp [staleLeft, hnot]
  | begins stack snapshot t hl hbegin =>
    obtain ⟨worker, p, hi, rfl, rfl⟩ := beginning_eq_some hbegin
    rw [hi]
    exact staleLeft_begin worker _ stack
  | continues worker snapshot x left hi =>
    rw [hi]
    simp only [staleLeft, List.length_cons]
    split <;> omega

/-- A share that is submitted for an old job is one of those reckoned with. -/
theorem stale_next (hr : s.Recorded login setup) (hk : k ≤ s.engine.published)
    (hstep : Step login setup s l s') :
    s'.staleSubmissions k + ∑ i ∈ Finset.range setup.threads, staleLeft k (s'.engine.workers i) ≤
      s.staleSubmissions k + ∑ i ∈ Finset.range setup.threads, staleLeft k (s.engine.workers i) := by
  have hmoves := fun i => (hstep.moves i).staleLeft_le hr hk
  have hsum := Finset.sum_le_sum fun i (_ : i ∈ Finset.range setup.threads) => hmoves i
  cases hstep with
  | submitted j worker b x left hj hfree share hx request hrequest =>
    have hlt := hr.lt_threads (i := j) (by rw [hj]; nofun)
    let cost := if b.published.ordinal < k then 1 else 0
    have hpaid := Finset.sum_le_sum (s := Finset.range setup.threads)
      (f := fun i => staleLeft k ((s.engine.setWorker j (.mining worker b left)).workers i) +
        if i = j then cost else 0) (g := fun i => staleLeft k (s.engine.workers i)) fun i _ => by
      by_cases hi : i = j
      · subst hi
        simp only [Engine.setWorker, Function.update_self, hj, staleLeft, List.length_cons, cost,
          if_true]
        split <;> omega
      · simpa [hi] using hmoves i
    rw [Finset.sum_add_distrib, Finset.sum_ite_eq', if_pos (Finset.mem_range.mpr hlt)] at hpaid
    simp only [staleSubmissions, List.countP_append, List.countP_singleton, decide_eq_true_eq]
    omega
  | engineStart hjoin => simpa [staleSubmissions] using hsum
  | engineStop hjoin => simp [staleSubmissions]
  | _ => exact Nat.add_le_add_left hsum _

/-- What was published stays published. -/
theorem Step.published_le (hb : s.client.Basic login) (hstep : Step login setup s l s')
    (hk : k ≤ s.engine.published) : k ≤ s'.engine.published :=
  hk.trans (hstep.grows hb).published

end State

open State

/-- After the `k`-th job was published at most one batch of each worker is submitted for
the jobs before it, however long the program runs. -/
theorem stale_bounded {login : Login} {setup : Setup} {s : State}
    (h : (program login setup).Reachable s) {k : ℕ} (hk : k ≤ s.engine.published)
    {run : List Label} (hrun : (program login setup).IsRun s run) :
    ((program login setup).exec s run).staleSubmissions k ≤
      s.staleSubmissions k + setup.threads * kBatchSize := by
  obtain ⟨hvalid, -⟩ := TransitionSystem.Valid.of_kept (I := fun s => k ≤ s.engine.published)
    (fun s l hs he hk => (step_cases (TransitionSystem.step_eq_some he)).published_le
      (Network.basic_of_reach (client_of_reach hs)) hk) h hk hrun
  have hpotential : (program login setup).Potential (fun s _ => k ≤ s.engine.published)
      (fun _ _ => false) (fun _ _ => 0) fun s =>
        s.staleSubmissions k +
          ∑ i ∈ Finset.range setup.threads, staleLeft k (s.engine.workers i) := by
    intro s l hs he hk
    rw [Bool.toNat_false, Nat.zero_add]
    exact stale_next (recorded_of_reach hs) hk (step_cases (TransitionSystem.step_eq_some he))
  have hcount := hpotential.count_le h hvalid
  have hleft := Finset.sum_le_card_nsmul (Finset.range setup.threads)
    (fun i => staleLeft k (s.engine.workers i)) kBatchSize
    fun i _ => staleLeft_le (coherent_of_reach h) i
  rw [Finset.card_range, nsmul_eq_mul, Nat.cast_id] at hleft
  rw [TransitionSystem.total_zero] at hcount
  omega

/-- A third job arrives while worker 0 is in a batch for the second. -/
theorem stale_bounded_overtaken :
    let login : Login := ⟨bytes "wallet", bytes "rig", bytes "x"⟩
    let setup : Setup := { algorithm := .sha256d {}, threads := 1 }
    let s := after login setup (linesRun login
      [difficultyLine "1", jobLine "a" "1" "false", jobLine "b" "1" "false"] 2 ++ beginRun ++
      [.client .line])
    ((program login setup).exec s [.attempt 0]).staleSubmissions 3 = 1 ∧
      ((program login setup).exec s [.attempt 0]).staleSubmissions 3 ≤
        s.staleSubmissions 3 + 1 * kBatchSize := by
  intro login setup s
  have hrun : (program login setup).Valid (fun _ _ => True) (init setup) (linesRun login
        [difficultyLine "1", jobLine "a" "1" "false", jobLine "b" "1" "false"] 2 ++ beginRun ++
        [.client .line]) ∧
      3 ≤ s.engine.published ∧ (program login setup).IsRun s [.attempt 0] ∧
      ((program login setup).exec s [.attempt 0]).staleSubmissions 3 = 1 := by
    decide +kernel
  obtain ⟨hvalid, hpublished, hattempt, hstale⟩ := hrun
  have hreach : (program login setup).Reachable s := reach_after hvalid
  exact ⟨hstale, stale_bounded hreach hpublished hattempt⟩

end CppMiner.Program
