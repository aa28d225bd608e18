-- SUMMARY: The nonces a worker tries on a blob that stays current: distinct in one batch, the same in the next.
import CppMiner.Lib.Progression
import CppMiner.Miner.Worker

/-!
# Nonces on a blob

The classic branch of `workerLoop` carries its nonce from batch to batch, the blob
branch computes the nonces of every batch from a base that it never advances
(`blobBatch_eq`). The nonces of several batches on one blob are therefore those of the
first, repeated (`batches_nonces`), and they are distinct for at most one batch.
-/

namespace CppMiner.Miner

open Hash.Cryptonight (Stack)
open Network (Submit)
open Progression (term)

variable {job : MiningJob}

/-- The nonces of one batch on a blob. -/
def batchNonces (worker : Worker) : List UInt32 :=
  (List.range kBatchSize).map (term worker.nonce worker.nonceStep)

theorem length_batchNonces (worker : Worker) : (batchNonces worker).length = kBatchSize := by
  rw [batchNonces, List.length_map, List.length_range]

theorem batchNonces_ne_nil (worker : Worker) : batchNonces worker ≠ [] := by
  intro hnil
  have hlen := length_batchNonces worker
  simp [hnil, kBatchSize] at hlen

/-- Every batch on a blob tries the same nonces. -/
theorem batches_nonces (h : HexBlob job.blob) (runs : List (UInt64 × (ℕ → Stack)))
    (worker : Worker) :
    ∃ xs worker', batches worker job runs = .ok (xs, worker') ∧
      xs.map (·.plan.nonce) = (List.replicate runs.length (batchNonces worker)).flatten := by
  induction runs generalizing worker with
  | nil => exact ⟨[], worker, rfl, rfl⟩
  | cons run runs ih =>
    obtain ⟨threshold, stack⟩ := run
    obtain ⟨xs, worker₁, hbatch, hnonce, hstep, -, hxs⟩ :=
      blobBatch_eq kBatchSize worker threshold stack h
    obtain ⟨ys, worker₂, hbatches, hys⟩ := ih worker₁
    have hsame : batchNonces worker₁ = batchNonces worker := by
      rw [batchNonces, hnonce, hstep, batchNonces]
    have hfirst : xs.map (·.plan.nonce) = batchNonces worker := by
      have := congrArg (List.map Plan.nonce) (map_plan_of_tried hxs)
      rw [List.map_map, List.map_map] at this
      exact this
    refine ⟨xs ++ ys, worker₂, ?_, ?_⟩
    · rw [batches, batch_of_hexBlob worker h, hbatch, Loops.ok_bind]
      simp only [hbatches, Loops.ok_bind, Loops.pure_eq_ok]
    · rw [List.map_append, hfirst, hys, hsame, List.length_cons, List.replicate_succ,
        List.flatten_cons]

/-- What an attempt on a blob may submit is the blob with its nonce. -/
theorem share_of_batches (h : HexBlob job.blob) {runs : List (UInt64 × (ℕ → Stack))}
    {worker worker' : Worker} {xs : List Attempt}
    (hbatches : batches worker job runs = .ok (xs, worker')) :
    ∀ x ∈ xs, x.plan.share = .blobShare job.jobId (workBlob job.blob x.plan.nonce) := by
  induction runs generalizing worker xs with
  | nil =>
    cases hbatches
    simp
  | cons run runs ih =>
    obtain ⟨threshold, stack⟩ := run
    obtain ⟨ys, worker₁, hbatch, -, -, -, hys⟩ := blobBatch_eq kBatchSize worker threshold stack h
    rw [batches, batch_of_hexBlob worker h, hbatch, Loops.ok_bind] at hbatches
    obtain ⟨⟨zs, worker₂⟩, hrest, hbatches⟩ := Loops.bind_eq_ok.mp hbatches
    cases hbatches
    intro x hx
    rcases List.mem_append.mp hx with hx | hx
    · have hplan : x.plan ∈ ys.map (·.plan) := List.mem_map_of_mem hx
      rw [map_plan_of_tried hys, List.mem_map] at hplan
      obtain ⟨i, -, hplan⟩ := hplan
      rw [← hplan]
      rfl
    · exact ih hrest x hx

theorem map_share_of_batches (h : HexBlob job.blob) {runs : List (UInt64 × (ℕ → Stack))}
    {worker worker' : Worker} {xs : List Attempt}
    (hbatches : batches worker job runs = .ok (xs, worker')) :
    xs.map (·.plan.share) =
      (xs.map (·.plan.nonce)).map fun n => .blobShare job.jobId (workBlob job.blob n) := by
  rw [List.map_map]
  exact List.map_congr_left (share_of_batches h hbatches)

theorem blobShare_injective (h : HexBlob job.blob) :
    Function.Injective fun n => Submit.blobShare job.jobId (workBlob job.blob n) :=
  fun _ _ heq => workBlob_injective h.long (Submit.blobShare.inj heq).2

/-- The blobs that are written are as distinct as their nonces. -/
theorem shares_nodup_iff (h : HexBlob job.blob) {runs : List (UInt64 × (ℕ → Stack))}
    {worker worker' : Worker} {xs : List Attempt}
    (hbatches : batches worker job runs = .ok (xs, worker')) :
    (xs.map (·.plan.share)).Nodup ↔ (xs.map (·.plan.nonce)).Nodup := by
  rw [map_share_of_batches h hbatches, List.nodup_map_iff (blobShare_injective h)]

/-- Two workers write a blob in common only if they try a nonce in common. -/
theorem shares_disjoint_iff (h : HexBlob job.blob) {runs runs' : List (UInt64 × (ℕ → Stack))}
    {worker worker' last last' : Worker} {xs xs' : List Attempt}
    (hruns : batches worker job runs = .ok (xs, last))
    (hruns' : batches worker' job runs' = .ok (xs', last')) :
    (xs.map (·.plan.share)).Disjoint (xs'.map (·.plan.share)) ↔
      (xs.map (·.plan.nonce)).Disjoint (xs'.map (·.plan.nonce)) := by
  rw [map_share_of_batches h hruns, map_share_of_batches h hruns']
  constructor
  · exact fun hdisjoint n hn hn' => hdisjoint (List.mem_map_of_mem hn) (List.mem_map_of_mem hn')
  · exact fun hdisjoint => List.disjoint_map (blobShare_injective h) hdisjoint

/-- A list that is not empty has no repetition only when it stands alone. -/
theorem nodup_flatten_replicate {α : Type*} {l : List α} (hne : l ≠ []) (hl : l.Nodup) (m : ℕ) :
    (List.replicate m l).flatten.Nodup ↔ m ≤ 1 := by
  match m with
  | 0 => simp
  | 1 => simpa using hl
  | m + 2 =>
    constructor
    · intro h
      obtain ⟨x, hx⟩ := List.exists_mem_of_ne_nil l hne
      rw [List.replicate_succ, List.replicate_succ, List.flatten_cons, List.flatten_cons,
        List.nodup_append] at h
      exact absurd rfl (h.2.2 x hx x (by simp [hx]))
    · omega

/-- While a blob job stays current and no more nonces are tried than the residue class
of the worker has, the nonces of `m` batches are distinct if and only if `m ≤ 1`. -/
theorem blob_nonces_nodup (worker : Worker) (N : ℕ)
    (hstep : worker.nonceStep = UInt32.ofNat N) (job : MiningJob) (h : HexBlob job.blob)
    (runs : List (UInt64 × (ℕ → Stack)))
    (hruns : runs.length * kBatchSize ≤ 2 ^ 32 / Nat.gcd N (2 ^ 32)) :
    ∃ xs worker', batches worker job runs = .ok (xs, worker') ∧
      xs.length = runs.length * kBatchSize ∧
      ((xs.map (·.plan.nonce)).Nodup ↔ runs.length ≤ 1) := by
  obtain ⟨xs, worker', hbatches, hnonces⟩ := batches_nonces h runs worker
  refine ⟨xs, worker', hbatches, ?_, ?_⟩
  · have := congrArg List.length hnonces
    rwa [List.length_map, List.length_flatten, List.map_replicate, length_batchNonces,
      List.sum_replicate_nat] at this
  · rw [hnonces]
    rcases Nat.eq_zero_or_pos runs.length with hzero | hpos
    · simp [hzero]
    · refine nodup_flatten_replicate (batchNonces_ne_nil worker) ?_ runs.length
      have hgcd : Nat.gcd worker.nonceStep.toNat (2 ^ 32) = Nat.gcd N (2 ^ 32) := by
        rw [hstep, UInt32.toNat_ofNat', ← Nat.gcd_rec, Nat.gcd_comm]
      refine Progression.nodup_map_term ?_
      rw [hgcd]
      exact le_trans (Nat.le_mul_of_pos_left kBatchSize hpos) hruns

/-- In one batch no nonce is tried twice, and no blob is written twice. -/
theorem blob_nonces_nodup_one_batch :
    let worker := Worker.start (.sha256d {}) 3 8
    ∃ xs worker', batches worker (zeroBlobJob 16) [(1, fun _ _ => Vector.replicate 25 0)] =
      .ok (xs, worker') ∧ (xs.map (·.plan.nonce)).Nodup ∧ (xs.map (·.plan.share)).Nodup := by
  intro worker
  have hblob := hexBlob_zeroBlobJob (le_refl 16)
  obtain ⟨xs, worker', hbatches, -, hnodup⟩ := blob_nonces_nodup worker 8 rfl (zeroBlobJob 16)
    hblob [(1, fun _ _ => Vector.replicate 25 0)] (by decide +kernel)
  have hnonces := hnodup.mpr (le_refl 1)
  exact ⟨xs, worker', hbatches, hnonces, (shares_nodup_iff hblob hbatches).mpr hnonces⟩

/-- The second batch on a blob tries the nonces of the first again. -/
theorem second_batch_repeats :
    ¬ ∀ (worker : Worker) (N : ℕ), 1 ≤ N → worker.nonceStep = UInt32.ofNat N →
      ∀ job : MiningJob, HexBlob job.blob → ∀ runs : List (UInt64 × (ℕ → Stack)),
        runs.length * kBatchSize ≤ 2 ^ 32 / Nat.gcd N (2 ^ 32) →
        ∀ xs worker', batches worker job runs = .ok (xs, worker') →
          (xs.map (·.plan.nonce)).Nodup := by
  intro h
  let worker := Worker.start (.sha256d {}) 0 1
  let run : UInt64 × (ℕ → Stack) := (1, fun _ _ => Vector.replicate 25 0)
  have hblob := hexBlob_zeroBlobJob (le_refl 16)
  obtain ⟨xs, worker', hbatches, hnonces⟩ := batches_nonces hblob [run, run] worker
  have hnodup := h worker 1 (le_refl 1) rfl (zeroBlobJob 16) hblob [run, run]
    (by decide +kernel) xs worker' hbatches
  have hfirst : (batchNonces worker).Nodup := Progression.nodup_map_term (by decide +kernel)
  rw [hnonces, nodup_flatten_replicate (batchNonces_ne_nil worker) hfirst] at hnodup
  exact absurd hnodup (by decide)

end CppMiner.Miner
