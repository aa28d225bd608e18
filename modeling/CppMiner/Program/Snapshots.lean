-- SUMMARY: The job and the difficulty a worker reads for a batch: never a new job with the difficulty it superseded.
import CppMiner.Program.Records

/-!
# Snapshots

The network thread stores a difficulty and publishes a job in two steps, and a worker
reads them in two steps. It reads the job first, so that the difficulty it reads was
stored no earlier than what was stored before the job was published; and since the
queue holds only the newest job, a worker never goes back to an older one
(`readsInOrder_of_reach`).
-/

namespace CppMiner.Program

open Miner (Setup Published Worker Snapshot)
open Network (Login)

namespace State

variable {login : Login} {setup : Setup} {s s' : State} {l : Label}

/-- The batches of a worker, in their order. -/
def batchesOf (s : State) (i : ℕ) : List Snapshot := s.engine.batches.filter fun b => b.worker = i

/-- The ordinals of the jobs a worker has taken. -/
def taken (s : State) (i : ℕ) : List ℕ := (s.batchesOf i).map fun b => b.published.ordinal

/-- What the workers have read for their batches. -/
structure ReadsInOrder (setup : Setup) (s : State) : Prop where
  /-- The job of a batch is the one that the callback at its place delivered, or the one
  that was there before any. -/
  job : ∀ b ∈ s.engine.batches,
    b.published.connection = none ∧ b.published.job = createSyntheticJob ∨
      ∃ k, s.client.callbacks[b.published.callbacks]? = some (k, .onJob b.published.job)
  /-- The difficulty of a batch is what the last `mining.set_difficulty` stored, of the
  callbacks up to some point that is not before the one of its job. -/
  difficulty : ∀ b ∈ s.engine.batches,
    b.published.callbacks ≤ b.callbacks ∧ b.callbacks ≤ s.client.callbacks.length ∧
      b.difficulty = setup.stored (lastDifficulty (s.client.callbacks.take b.callbacks))
  /-- No worker goes back to an older job. -/
  taken : ∀ i, (s.taken i).Pairwise (· ≤ ·)
  /-- Nor to an older version, up to the overflow of the counter. -/
  versions : s.engine.published < 2 ^ 64 →
    ∀ i, ((s.batchesOf i).map fun b => b.published.version).Pairwise (· ≤ ·)

/-- A worker's jobs so far are no newer than the one it holds. -/
structure Ascending (s : State) : Prop where
  taken : ∀ i, (s.taken i).Pairwise (· ≤ ·)
  holding : ∀ i worker p, s.engine.workers i = .holding worker p →
    ∀ n ∈ s.taken i, n ≤ p.ordinal

theorem taken_congr (h : s'.engine.batches = s.engine.batches) (i : ℕ) :
    s'.taken i = s.taken i := by
  rw [taken, batchesOf, h, taken, batchesOf]

theorem taken_append {b : Snapshot} (h : s'.engine.batches = s.engine.batches ++ [b]) (i : ℕ) :
    s'.taken i = s.taken i ++ if b.worker = i then [b.published.ordinal] else [] := by
  rw [taken, batchesOf, h, List.filter_append, List.map_append, taken, batchesOf]
  split <;> simp [*]

/-- Nothing newer than the current job was ever taken. -/
theorem Recorded.le_published (h : s.Recorded login setup) {i n : ℕ} (hn : n ∈ s.taken i) :
    n ≤ s.engine.published := by
  obtain ⟨b, hb, rfl⟩ := List.mem_map.mp hn
  exact (h.batches b (List.mem_of_mem_filter hb)).published.ordinal

theorem ofNat_le_ofNat {m n : ℕ} (h : m ≤ n) (hn : n < 2 ^ 64) :
    UInt64.ofNat m ≤ UInt64.ofNat n := by
  rw [UInt64.le_iff_toNat_le, UInt64.toNat_ofNat_of_lt' hn,
    UInt64.toNat_ofNat_of_lt' (h.trans_lt hn)]
  exact h

theorem Recorded.versions (h : s.Recorded login setup) (hlt : s.engine.published < 2 ^ 64) {i : ℕ}
    (htaken : (s.taken i).Pairwise (· ≤ ·)) :
    ((s.batchesOf i).map fun b => b.published.version).Pairwise (· ≤ ·) := by
  have hof : ∀ b ∈ s.batchesOf i, s.WasPublished b.published := fun b hb =>
    (h.batches b (List.mem_of_mem_filter hb)).published
  rw [taken, List.pairwise_map] at htaken
  rw [List.pairwise_map]
  refine htaken.imp_of_mem fun {b c} hb hc hle => ?_
  rw [(hof b hb).version, (hof c hc).version]
  exact ofNat_le_ofNat hle ((hof c hc).ordinal.trans_lt hlt)

/-- What a worker holds after a step is as new as what it has taken before. -/
theorem Ascending.holding_next (hr : s.Recorded login setup) (h : s.Ascending)
    (hstep : Step login setup s l s') {i : ℕ} {worker : Worker} {p : Published}
    (hi : s'.engine.workers i = .holding worker p) : ∀ n ∈ s.taken i, n ≤ p.ordinal := by
  rcases hstep.holding hi with hi | hp
  · exact h.holding i worker p hi
  · obtain ⟨q, hq, -, hordinal⟩ := hr.current
    rw [hp] at hq
    cases hq
    rw [hordinal]
    exact fun n hn => hr.le_published hn

theorem Ascending.next (hr : s.Recorded login setup) (h : s.Ascending)
    (hstep : Step login setup s l s') : s'.Ascending := by
  -- a job is taken when a batch begins; the job that was held is as new as all before it
  by_cases hl : ∃ i stack, l = .load i stack
  · obtain ⟨i, stack, rfl⟩ := hl
    obtain ⟨b, t, hbegin, hengine⟩ := hstep.loaded
    obtain ⟨worker, p, hi, rfl, rfl⟩ := beginning_eq_some hbegin
    have hbatches := congrArg Miner.Engine.batches hengine
    refine ⟨fun j => ?_, fun j worker' p' hj n hn => ?_⟩
    · rw [taken_append hbatches, List.pairwise_append]
      refine ⟨h.taken j, by split <;> simp, fun n hn m hm => ?_⟩
      split at hm
      · rename_i hij
        obtain rfl : i = j := hij
        rw [List.mem_singleton.mp hm]
        exact h.holding i worker p hi n hn
      · cases hm
    · rw [taken_append hbatches] at hn
      rcases List.mem_append.mp hn with hn | hn
      · exact h.holding_next hr hstep hj n hn
      · split at hn
        · rename_i hij
          obtain rfl : i = j := hij
          rw [hengine] at hj
          rcases workers_setWorker hj with ⟨-, hbegin⟩ | ⟨hne, -⟩
          · exact absurd hbegin begin_ne_holding
          · exact absurd rfl hne
        · cases hn
  · have hbatches := hstep.batches_eq fun i stack heq => hl ⟨i, stack, heq⟩
    refine ⟨fun j => ?_, fun j worker p hj => ?_⟩
    · rw [taken_congr hbatches]
      exact h.taken j
    · rw [taken_congr hbatches]
      exact h.holding_next hr hstep hj

end State

/-- In every run, a worker pairs no job with a difficulty that was superseded before the
job was published, and takes no job that is older than one it took before. -/
theorem readsInOrder_of_reach {login : Login} {setup : Setup} {s : State}
    (h : (program login setup).Reachable s) : s.ReadsInOrder setup := by
  have hr := recorded_of_reach h
  have hascending : s.Ascending := by
    refine invariant_of (fun _ => recorded_of_reach) ?_
      (fun _ _ _ hr ha hstep _ => ha.next hr hstep) h
    exact ⟨fun _ => .nil, nofun⟩
  refine ⟨fun b hb => ?_, fun b hb => ?_, hascending.taken,
    fun hlt i => hr.versions hlt (hascending.taken i)⟩
  · have hof := (hr.batches b hb).published
    cases hk : b.published.connection with
    | none => exact .inl ⟨rfl, (hof.standby hk).1⟩
    | some k => exact .inr ⟨k, hof.delivered k hk⟩
  · have hread := hr.batches b hb
    exact ⟨hread.callbacks.1, hread.callbacks.2, hread.difficulty⟩

/-- A difficulty that arrives after the job was taken is still the one that is read. -/
theorem readsInOrder_of_reach_lateDifficulty :
    let login : Login := ⟨bytes "wallet", bytes "rig", bytes "x"⟩
    let setup : Setup := { algorithm := .sha256d {}, threads := 1 }
    let run := linesRun login [difficultyLine "1", jobLine "a" "1" "false", difficultyLine "2"] 2 ++
      [.engineStart, .check 0, .take 0, .client .line, .load 0 fun _ _ => Vector.replicate 25 0]
    (after login setup run).engine.batches.map (fun b => (b.difficulty, b.published.ordinal)) =
        [(2, 2)] ∧
      (after login setup run).ReadsInOrder setup := by
  intro login setup run
  have hvalid : (program login setup).Valid (fun _ _ => True) (init setup) run := by
    decide +kernel
  exact ⟨by decide +kernel, readsInOrder_of_reach (reach_after hvalid)⟩

end CppMiner.Program
