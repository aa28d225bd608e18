-- SUMMARY: On which digests a worker with sha256d submits shares: those the algorithm wrote, but for very long blobs.
import CppMiner.Miner.BlobNonces

/-!
# Shares and the digests behind them

`Sha256dAlgorithm::hash` returns without a digest when the message leaves no room for
the nonce in its buffer. The header of a classic job is cut before it can get so long;
a blob is not. The digest that is then compared is the zero the loop started from,
which is below every threshold but 0 (`shares_justified`).
-/

namespace CppMiner.Miner

open Hash (Digest256 Kind Sha256dAlgorithm nonceBytes)
open Hash.Cryptonight (Stack)

variable {job : MiningJob} {threshold : UInt64} {plan : Plan} {x : Attempt}

theorem Tried.written_sha256d (h : Tried .sha256d job threshold plan x) :
    x.written =
      (Sha256dAlgorithm.absorbed plan.message plan.nonceArg).map Sha256dAlgorithm.sha256d := by
  obtain ⟨stack, algorithm, hkind, hwritten⟩ := h.written_eq
  cases algorithm with
  | sha256d algorithm => exact hwritten
  | cryptonight algorithm => cases hkind

/-- A submitted share rests on a digest that the algorithm wrote, that of the message
and the nonce argument, and this digest is below the threshold. -/
def Attempt.Justified (threshold : UInt64) (x : Attempt) : Prop :=
  x.submitted ≠ none →
    x.written =
        some (Sha256dAlgorithm.sha256d (x.plan.message ++ nonceBytes x.plan.nonceArg)) ∧
      leadingBits x.digest < threshold

/-- A message that fits is hashed. -/
theorem Tried.justified_of_length_le (h : Tried .sha256d job threshold plan x)
    (hlen : plan.message.length ≤ 252) : x.Justified threshold := by
  intro hsubmitted
  have hwritten := h.written_sha256d
  rw [Sha256dAlgorithm.absorbed, if_neg (by omega), Option.map_some, ← h.plan_eq] at hwritten
  refine ⟨hwritten, ?_⟩
  obtain ⟨share, hshare⟩ := Option.ne_none_iff_exists'.mp hsubmitted
  exact (h.submitted_eq_some hshare).1

/-- A message that does not fit leaves the digest at zero. -/
theorem Tried.justified_of_length_gt (h : Tried .sha256d job threshold plan x)
    (hlen : 252 < plan.message.length) :
    x.Justified threshold ↔ threshold = 0 ∨ job.jobId = bytes "synthetic-standby" := by
  have hwritten : x.written = none := by
    rw [h.written_sha256d, Sha256dAlgorithm.absorbed, if_pos (by omega)]
    rfl
  have hzero : leadingBits x.digest = 0 := by
    rw [Attempt.digest, hwritten]
    decide +kernel
  have hsubmitted := h.submitted_eq
  rw [hzero] at hsubmitted
  have hpos : 0 < threshold ↔ threshold ≠ 0 := by
    rw [UInt64.lt_iff_toNat_lt, ne_eq, ← UInt64.toNat_inj]
    exact Nat.pos_iff_ne_zero
  simp only [Attempt.Justified, hwritten, hsubmitted, hpos]
  by_cases hthreshold : threshold = 0
  · simp [hthreshold]
  by_cases hjob : job.jobId = bytes "synthetic-standby"
  · simp [hjob]
  · simp [hthreshold, hjob]

/-- The message of an iteration: a header of at most 200 bytes, or the blob. -/
theorem length_message (worker : Worker) (h : Minable job) (i : ℕ) :
    (planOf worker job i).message.length ≤ 252 ↔ job.blob.length / 2 ≤ 252 := by
  rcases h with hnil | hblob
  · have hheader : (header job (extranonce2 worker job)).length ≤ 200 := by
      simp only [header, List.length_take]
      omega
    simp only [planOf, hnil, if_true, classicPlan, List.length_nil]
    omega
  · have hlong := hblob.long
    rw [planOf_of_hexBlob worker hblob, blobPlan, Hex.length_decode, length_workBlob hlong]

/-- A worker with sha256d submits shares only on digests that the algorithm wrote if and
only if the blob has at most 252 bytes, or no digest is below the threshold, or the job
is the one that is never submitted for. -/
theorem shares_justified (worker : Worker) (hkind : worker.algorithm.kind = .sha256d)
    (job : MiningJob) (hjob : Minable job) (threshold : UInt64) (stack : ℕ → Stack) :
    ∃ xs worker', batch worker job threshold stack = .ok (xs, worker') ∧
      ((∀ x ∈ xs, x.Justified threshold) ↔
        job.blob.length / 2 ≤ 252 ∨ threshold = 0 ∨ job.jobId = bytes "synthetic-standby") := by
  obtain ⟨xs, worker', hbatch, hplans, htried⟩ :=
    batch_eq worker hjob threshold stack
  rw [hkind] at htried
  refine ⟨xs, worker', hbatch, ?_⟩
  -- the messages of a batch have one length, and the guard at 252 bytes is passed by all or none
  by_cases hlen : job.blob.length / 2 ≤ 252
  · refine iff_of_true (fun x hx => ?_) (.inl hlen)
    obtain ⟨i, hi⟩ := exists_planOf hplans hx
    refine (htried x hx).justified_of_length_le ?_
    rw [hi]
    exact (length_message worker hjob i).mpr hlen
  · have hlong : ∀ x ∈ xs, (x.Justified threshold ↔
        threshold = 0 ∨ job.jobId = bytes "synthetic-standby") := by
      intro x hx
      obtain ⟨i, hi⟩ := exists_planOf hplans hx
      refine (htried x hx).justified_of_length_gt ?_
      rw [hi]
      exact Nat.lt_of_not_le (mt (length_message worker hjob i).mp hlen)
    obtain ⟨x, hx⟩ := List.exists_mem_of_ne_nil xs (ne_nil_of_plans hplans)
    constructor
    · exact fun h => .inr ((hlong x hx).mp (h x hx))
    · rintro (h | h) y hy
      · exact absurd h hlen
      · exact (hlong y hy).mpr h

theorem shares_justified_short_blob :
    let worker := Worker.start (.sha256d {}) 0 4
    ∃ xs worker', batch worker (zeroBlobJob 152) 0xFFFFFFFFFFFFFFFF
      (fun _ _ => Vector.replicate 25 0) = .ok (xs, worker') ∧
      ∀ x ∈ xs, x.Justified 0xFFFFFFFFFFFFFFFF := by
  intro worker
  obtain ⟨xs, worker', hbatch, hjustified⟩ := shares_justified worker rfl (zeroBlobJob 152)
    (.inr (hexBlob_zeroBlobJob (by decide))) 0xFFFFFFFFFFFFFFFF (fun _ _ => Vector.replicate 25 0)
  exact ⟨xs, worker', hbatch, hjustified.mpr (.inl (by decide +kernel))⟩

/-- A blob of 253 bytes is submitted unhashed. -/
theorem unwritten_digest_submitted :
    ¬ ∀ worker : Worker, worker.algorithm.kind = .sha256d → ∀ job : MiningJob, Minable job →
      2 ∣ job.blob.length → ∀ (threshold : UInt64) (stack : ℕ → Stack) (xs : List Attempt)
        (worker' : Worker), batch worker job threshold stack = .ok (xs, worker') →
        ∀ x ∈ xs, x.Justified threshold := by
  intro h
  let worker := Worker.start (.sha256d {}) 0 4
  have hjob : Minable (zeroBlobJob 506) := .inr (hexBlob_zeroBlobJob (by decide))
  obtain ⟨xs, worker', hbatch, hplans, htried⟩ :=
    batch_eq worker hjob 0xFFFFFFFFFFFFFFFF (fun _ _ => Vector.replicate 25 0)
  obtain ⟨x, hx⟩ := List.exists_mem_of_ne_nil xs (ne_nil_of_plans hplans)
  obtain ⟨i, hi⟩ := exists_planOf hplans hx
  have hjustified := h worker rfl (zeroBlobJob 506) hjob (by decide +kernel) _ _ xs worker' hbatch
    x hx
  have hlong : 252 < x.plan.message.length := by
    have hblob : ¬ (zeroBlobJob 506).blob.length / 2 ≤ 252 := by decide +kernel
    rw [hi]
    exact Nat.lt_of_not_le (mt (length_message worker hjob i).mp hblob)
  rw [(htried x hx).justified_of_length_gt hlong] at hjustified
  exact absurd hjustified (by decide +kernel)

end CppMiner.Miner
