-- SUMMARY: What the algorithms absorb of a blob: the blob itself only by coincidence, and not always the nonce in it.
import CppMiner.Hash.Scratchpad
import CppMiner.Miner.WrittenDigest

/-!
# Blobs and what is absorbed of them

The blob branch of `workerLoop` writes the nonce into the blob and hashes its bytes with
the nonce argument 0. `Sha256dAlgorithm::hash` appends this argument, and
`CryptonightAlgorithm::hash` puts it at byte 72 of a block of 76 bytes. So the pool, which
has only the blob, hashes other bytes than the worker did, but for one nonce of
cryptonight blobs of 76 bytes (`absorbs_blob_iff`). And where the window of the nonce
reaches byte 72, the bytes of the nonce from there on are lost (`blocks_ne_iff`).
-/

namespace CppMiner.Miner

open Hash (Kind Sha256dAlgorithm CryptonightAlgorithm nonceBytes)
open Hash.Cryptonight (Stack)
open Network (Submit)
open Progression (term)
open Window (overwrite window)

variable {job : MiningJob}

/-- The bytes that the digest an attempt compared was made from (`Tried.written_eq`). -/
def Attempt.absorbed (kind : Kind) (x : Attempt) : Option Bytes :=
  kind.absorbed x.plan.message x.plan.nonceArg

/-! ## The nonce in the bytes of a blob -/

/-- The bytes of a blob with a nonce: the most significant byte of the nonce comes first. -/
theorem decode_workBlob {blob : Bytes} (h : 16 ≤ blob.length) (nonce : UInt32) :
    Hex.decode (workBlob blob nonce) =
      overwrite (Hex.decode blob) (nonceOffset blob) (Hex.bigEndian 4 nonce.toNat) := by
  have hlen : (toHex nonce 8).length = 8 := length_toHex nonce
  have hoffset := nonceOffset_le h
  rw [workBlob, Nat.mul_comm, Hex.decode_overwrite (by omega) (by omega), toHex_eight,
    Hex.decode_fixed 4]

theorem length_decode_workBlob {blob : Bytes} (h : 16 ≤ blob.length) (nonce : UInt32) :
    (Hex.decode (workBlob blob nonce)).length = blob.length / 2 := by
  rw [Hex.length_decode, length_workBlob h]

/-- The last four bytes of a blob of 76 bytes are zero if they are the nonce, and it is. -/
theorem drop_decode_workBlob {blob : Bytes} (h : blob.length / 2 = 76) (nonce : UInt32) :
    (Hex.decode (workBlob blob nonce)).drop 72 = nonceBytes 0 ↔
      window blob 144 8 ≠ testNonce ∧ nonce = 0 := by
  have hlong : 16 ≤ blob.length := by omega
  have hlen : (Hex.decode blob).length = 76 := by rw [Hex.length_decode, h]
  have hoffset : nonceOffset blob = if window blob 144 8 = testNonce then 71 else 72 := by
    simp [nonceOffset, h]
  rw [decode_workBlob hlong, hoffset, Hash.nonceBytes_zero]
  -- the field is moved one byte to the front exactly if the test pattern stands there
  by_cases hwindow : window blob 144 8 = testNonce
  · -- The byte after the window is the last one of the pattern.
    have hpattern : blob.drop 150 = (bytes "67") ++ blob.drop 152 := by
      have hdrop := congrArg (List.drop 6) hwindow
      rw [window, List.drop_take, List.drop_drop] at hdrop
      have hsplit := (List.take_append_drop 2 (blob.drop 150)).symm
      rw [List.drop_drop] at hsplit
      rw [hsplit]
      congr 1
    have hlast : (overwrite (Hex.decode blob) 71 (Hex.bigEndian 4 nonce.toNat)).drop 75 =
        Hex.decode (blob.drop 150) := by
      have := Window.drop_overwrite (s := Hex.decode blob) (i := 71)
        (w := Hex.bigEndian 4 nonce.toNat) (by rw [Hex.length_bigEndian, hlen]; omega)
      rw [Hex.length_bigEndian, Hex.drop_decode] at this
      exact this
    rw [if_pos hwindow]
    constructor
    · intro hdrop
      have hzero := congrArg (List.drop 3) hdrop
      have hhead : (Hex.decode ((bytes "67") ++ blob.drop 152)).head? = some 0x67 := rfl
      rw [List.drop_drop, hlast, hpattern] at hzero
      rw [hzero] at hhead
      exact absurd hhead (by decide)
    · exact fun hand => absurd hwindow hand.1
  · have hdrop : (overwrite (Hex.decode blob) 72 (Hex.bigEndian 4 nonce.toNat)).drop 72 =
        Hex.bigEndian 4 nonce.toNat := by
      have hlast : (Hex.decode blob).drop 76 = [] := List.drop_of_length_le (by omega)
      rw [overwrite, Hex.length_bigEndian, hlast, List.append_nil]
      exact List.drop_left' (by rw [List.length_take, hlen]; rfl)
    rw [if_neg hwindow, hdrop]
    constructor
    · intro hzero
      refine ⟨hwindow, UInt32.toNat_inj.mp ?_⟩
      exact Hex.bigEndian_inj (w := 4) nonce.toNat_lt (by norm_num) hzero
    · rintro ⟨-, rfl⟩
      rfl

/-- Neither algorithm appends, drops or overwrites anything only if it is cryptonight, the
blob is a block of 76 bytes with the nonce at its end, and the nonce is the argument 0. -/
theorem absorbed_workBlob_eq_iff {blob : Bytes} (h : 16 ≤ blob.length) (kind : Kind)
    (nonce : UInt32) :
    kind.absorbed (Hex.decode (workBlob blob nonce)) 0 = some (Hex.decode (workBlob blob nonce)) ↔
      kind = .cryptonight ∧ blob.length / 2 = 76 ∧ window blob 144 8 ≠ testNonce ∧ nonce = 0 := by
  cases kind with
  | sha256d =>
    refine iff_of_false (fun habsorbed => ?_) (fun hand => Kind.noConfusion hand.1)
    simp only [Kind.absorbed, Sha256dAlgorithm.absorbed] at habsorbed
    split at habsorbed
    · cases habsorbed
    · -- The argument was appended.
      have hlen := congrArg (Option.map List.length) habsorbed
      simp at hlen
  | cryptonight =>
    rw [Kind.absorbed, Option.some_inj, CryptonightAlgorithm.inputWithNonce_eq_self_iff,
      length_decode_workBlob h]
    constructor
    · rintro ⟨hlen, hdrop⟩
      exact ⟨rfl, hlen, (drop_decode_workBlob hlen nonce).mp hdrop⟩
    · rintro ⟨-, hlen, hnonce⟩
      exact ⟨hlen, (drop_decode_workBlob hlen nonce).mpr hnonce⟩

/-- Two nonces give the same block if and only if they agree but for the bytes that stand
at byte 72 or after it. -/
theorem inputWithNonce_workBlob_eq_iff {blob : Bytes} (h : 16 ≤ blob.length) (m n : UInt32) :
    CryptonightAlgorithm.inputWithNonce (Hex.decode (workBlob blob m)) 0 =
        CryptonightAlgorithm.inputWithNonce (Hex.decode (workBlob blob n)) 0 ↔
      m.toNat / 256 ^ (4 - (72 - nonceOffset blob)) =
        n.toNat / 256 ^ (4 - (72 - nonceOffset blob)) := by
  have hoffset := nonceOffset_le h
  rw [CryptonightAlgorithm.inputWithNonce_inj_iff
      (by rw [length_decode_workBlob h, length_decode_workBlob h]),
    decode_workBlob h, decode_workBlob h,
    Window.take_overwrite_eq_iff _ (by rw [Hex.length_bigEndian, Hex.length_decode]; omega)
      (by rw [Hex.length_bigEndian, Hex.length_bigEndian])]
  exact Hex.take_bigEndian_eq_iff m.toNat_lt n.toNat_lt _

/-! ## What the pool can hash again -/

/-- What a worker tries on a blob in iteration `i`. -/
theorem plan_of_blob {worker : Worker} {xs : List Attempt} (h : HexBlob job.blob)
    (hplans : xs.map (·.plan) = (List.range kBatchSize).map (planOf worker job)) {i : ℕ}
    {x : Attempt} (hx : xs[i]? = some x) :
    x.plan = blobPlan job worker.nonce worker.nonceStep i := by
  rw [plan_of_getElem? hplans hx, planOf_of_hexBlob worker h]

/-- The digest behind a share on a blob is that of the submitted blob if and only if the
algorithm is cryptonight, the blob has 76 bytes and does not end in the test pattern, and
the nonce is 0. -/
theorem absorbs_blob_iff (worker : Worker) (job : MiningJob) (h : HexBlob job.blob)
    (threshold : UInt64) (stack : ℕ → Stack) :
    ∃ xs worker', batch worker job threshold stack = .ok (xs, worker') ∧
      ∀ (i : ℕ) (x : Attempt), xs[i]? = some x →
        ∀ jobId blob, x.submitted = some (.blobShare jobId blob) →
          (x.absorbed worker.algorithm.kind = some (Hex.decode blob) ↔
            worker.algorithm.kind = .cryptonight ∧ job.blob.length / 2 = 76 ∧
              window job.blob 144 8 ≠ testNonce ∧
              term worker.nonce worker.nonceStep i = 0) := by
  obtain ⟨xs, worker', hbatch, hplans, htried⟩ :=
    batch_eq worker (.inr h) threshold stack
  refine ⟨xs, worker', hbatch, fun i x hx jobId blob hsubmitted => ?_⟩
  have hplan := plan_of_blob h hplans hx
  have hshare : Submit.blobShare job.jobId (workBlob job.blob x.plan.nonce) =
      .blobShare jobId blob := by
    obtain ⟨-, -, hshare⟩ := (htried x (List.mem_of_getElem? hx)).submitted_eq_some hsubmitted
    rw [← hshare, hplan]
    rfl
  obtain ⟨rfl, rfl⟩ := Submit.blobShare.inj hshare
  rw [Attempt.absorbed, hplan]
  exact absorbed_workBlob_eq_iff h.long worker.algorithm.kind _

/-- The share of the first nonce on a blob of 76 bytes: the pool hashes what the worker did. -/
theorem absorbs_blob_iff_cryptonight :
    let worker := Worker.start (.cryptonight {}) 0 4
    ∃ xs worker' x blob, batch worker (zeroBlobJob 152) 0xFFFFFFFFFFFFFFFF
        (fun _ _ => Vector.replicate 25 0) = .ok (xs, worker') ∧
      xs[0]? = some x ∧ x.submitted = some (.blobShare (bytes "job") blob) ∧
      x.absorbed .cryptonight = some (Hex.decode blob) := by
  intro worker
  have hblob : HexBlob (zeroBlobJob 152).blob := hexBlob_zeroBlobJob (by decide)
  obtain ⟨xs, worker', hbatch, habsorbs⟩ := absorbs_blob_iff worker (zeroBlobJob 152) hblob
    0xFFFFFFFFFFFFFFFF (fun _ _ => Vector.replicate 25 0)
  have hfirst := hbatch
  rw [batch_of_hexBlob worker hblob] at hfirst
  have hx := blobBatch_head hblob hfirst
  set x := (attempt (zeroBlobJob 152) 0xFFFFFFFFFFFFFFFF (fun _ => Vector.replicate 25 0)
    worker.algorithm (blobPlan (zeroBlobJob 152) worker.nonce worker.nonceStep 0)).1 with hattempt
  -- the digest in its closed form, which does not need the scratchpad
  have hbelow : leadingBits x.digest < 0xFFFFFFFFFFFFFFFF := by
    rw [hattempt, Attempt.digest, attempt]
    simp only [worker, Worker.start, Hash.HashAlgorithm.hash, comparedDigest, Option.getD_some,
      CryptonightAlgorithm.hash_eq_ofFn]
    decide +kernel
  have htry : Tried .cryptonight (zeroBlobJob 152) 0xFFFFFFFFFFFFFFFF x.plan x :=
    ⟨_, _, rfl, hattempt⟩
  have hsubmitted : x.submitted =
      some (.blobShare (bytes "job") (workBlob (zeroBlobJob 152).blob 0)) := by
    rw [htry.submitted_eq, if_pos ⟨hbelow, by decide⟩]
    rfl
  refine ⟨xs, worker', x, _, hbatch, hx, hsubmitted, ?_⟩
  exact (habsorbs 0 x hx _ _ hsubmitted).mpr
    ⟨rfl, by decide +kernel, by decide +kernel, by decide +kernel⟩

/-- A share of sha256d on a blob of 8 bytes: the digest is one of 12 bytes. -/
theorem submitted_blob_not_absorbed :
    ¬ ∀ (worker : Worker) (job : MiningJob), HexBlob job.blob → 2 ∣ job.blob.length →
      ∀ (threshold : UInt64) (stack : ℕ → Stack) (xs : List Attempt) (worker' : Worker),
        batch worker job threshold stack = .ok (xs, worker') →
        ∀ x ∈ xs, ∀ jobId blob, x.submitted = some (.blobShare jobId blob) →
          x.absorbed worker.algorithm.kind = some (Hex.decode blob) := by
  intro h
  let worker := Worker.start (.sha256d {}) 0 4
  have hblob : HexBlob (zeroBlobJob 16).blob := hexBlob_zeroBlobJob (le_refl 16)
  obtain ⟨xs, worker', hbatch, hplans, htried⟩ := batch_eq worker (.inr hblob)
    0xFFFFFFFFFFFFFFFF (fun _ _ => Vector.replicate 25 0)
  obtain ⟨x, hx⟩ := exists_getElem? hplans (i := 0) (by decide)
  have hplan := plan_of_blob hblob hplans hx
  have htry : Tried .sha256d (zeroBlobJob 16) 0xFFFFFFFFFFFFFFFF x.plan x :=
    htried x (List.mem_of_getElem? hx)
  have hbelow : leadingBits x.digest < 0xFFFFFFFFFFFFFFFF := by
    rw [Attempt.digest, htry.written_sha256d, hplan]
    decide +kernel
  have hsubmitted : x.submitted =
      some (.blobShare (zeroBlobJob 16).jobId (workBlob (zeroBlobJob 16).blob 0)) := by
    rw [htry.submitted_eq, if_pos ⟨hbelow, by decide⟩, hplan]
    rfl
  have habsorbed := h worker (zeroBlobJob 16) hblob (by decide) _ _ xs worker' hbatch x
    (List.mem_of_getElem? hx) _ _ hsubmitted
  rw [Attempt.absorbed, hplan] at habsorbed
  have hkind := ((absorbed_workBlob_eq_iff hblob.long worker.algorithm.kind 0).mp habsorbed).1
  cases hkind

/-! ## Which nonces are hashed apart -/

theorem absorbed_eq_iff {worker : Worker} {xs : List Attempt} (h : HexBlob job.blob)
    (hplans : xs.map (·.plan) = (List.range kBatchSize).map (planOf worker job)) {i j : ℕ}
    {x y : Attempt} (hx : xs[i]? = some x) (hy : xs[j]? = some y) :
    x.absorbed .cryptonight = y.absorbed .cryptonight ↔
      (term worker.nonce worker.nonceStep i).toNat / 256 ^ (4 - (72 - nonceOffset job.blob)) =
        (term worker.nonce worker.nonceStep j).toNat /
          256 ^ (4 - (72 - nonceOffset job.blob)) := by
  rw [Attempt.absorbed, Attempt.absorbed, plan_of_blob h hplans hx, plan_of_blob h hplans hy,
    Kind.absorbed, Kind.absorbed, Option.some_inj]
  exact inputWithNonce_workBlob_eq_iff h.long _ _

/-- Two nonces that a cryptonight worker tries on a blob in one batch are hashed apart if
and only if they differ in a byte that stands before byte 72 of the blob. -/
theorem blocks_ne_iff (worker : Worker) (hkind : worker.algorithm.kind = .cryptonight)
    (job : MiningJob) (h : HexBlob job.blob) (threshold : UInt64) (stack : ℕ → Stack) :
    ∃ xs worker', batch worker job threshold stack = .ok (xs, worker') ∧
      ∀ (i j : ℕ) (x y : Attempt), xs[i]? = some x → xs[j]? = some y →
        (x.absorbed worker.algorithm.kind ≠ y.absorbed worker.algorithm.kind ↔
          (term worker.nonce worker.nonceStep i).toNat /
              256 ^ (4 - (72 - nonceOffset job.blob)) ≠
            (term worker.nonce worker.nonceStep j).toNat /
              256 ^ (4 - (72 - nonceOffset job.blob))) := by
  obtain ⟨xs, worker', hbatch, hplans, -⟩ :=
    batch_eq worker (.inr h) threshold stack
  refine ⟨xs, worker', hbatch, fun i j x y hx hy => not_congr ?_⟩
  rw [hkind]
  exact absorbed_eq_iff h hplans hx hy

theorem blocks_ne_iff_short_blob :
    let worker := Worker.start (.cryptonight {}) 0 4
    ∃ xs worker', batch worker (zeroBlobJob 144) 1000 (fun _ _ => Vector.replicate 25 0) =
      .ok (xs, worker') ∧
      ∀ x y, xs[0]? = some x → xs[1]? = some y →
        x.absorbed .cryptonight ≠ y.absorbed .cryptonight := by
  intro worker
  obtain ⟨xs, worker', hbatch, hblocks⟩ := blocks_ne_iff worker rfl (zeroBlobJob 144)
    (hexBlob_zeroBlobJob (by decide)) 1000 (fun _ _ => Vector.replicate 25 0)
  exact ⟨xs, worker', hbatch, fun x y hx hy => (hblocks 0 1 x y hx hy).mpr (by decide +kernel)⟩

/-- A blob of 76 bytes ends in the nonce, of which nothing is hashed. -/
theorem nonces_same_block :
    ¬ ∀ worker : Worker, worker.algorithm.kind = .cryptonight → ∀ job : MiningJob,
      HexBlob job.blob → 2 ∣ job.blob.length →
      ∀ (threshold : UInt64) (stack : ℕ → Stack) (xs : List Attempt) (worker' : Worker),
        batch worker job threshold stack = .ok (xs, worker') →
        ∀ x ∈ xs, ∀ y ∈ xs, x.plan.nonce ≠ y.plan.nonce →
          x.absorbed .cryptonight ≠ y.absorbed .cryptonight := by
  intro h
  let worker := Worker.start (.cryptonight {}) 0 4
  have hblob : HexBlob (zeroBlobJob 152).blob := hexBlob_zeroBlobJob (by decide)
  obtain ⟨xs, worker', hbatch, hplans, -⟩ := batch_eq worker (.inr hblob) 1000
    (fun _ _ => Vector.replicate 25 0)
  obtain ⟨x, hx⟩ := exists_getElem? hplans (i := 0) (by decide)
  obtain ⟨y, hy⟩ := exists_getElem? hplans (i := 1) (by decide)
  have hne : x.plan.nonce ≠ y.plan.nonce := by
    rw [plan_of_blob hblob hplans hx, plan_of_blob hblob hplans hy]
    decide
  refine h worker rfl (zeroBlobJob 152) hblob (by decide +kernel) _ _ xs worker' hbatch x
    (List.mem_of_getElem? hx) y (List.mem_of_getElem? hy) hne ?_
  rw [absorbed_eq_iff hblob hplans hx hy]
  decide +kernel

end CppMiner.Miner
