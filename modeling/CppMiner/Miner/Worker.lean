-- SUMMARY: The batches of `workerLoop`: what is hashed for each nonce, compared, and submitted.
import Mathlib.Data.List.Forall2
import CppMiner.Hash.HashAlgorithm
import CppMiner.Miner.NonceWindow
import CppMiner.Miner.Types
import CppMiner.Network.Request

/-!
# Workers

A worker takes the current job, and for a batch of nonces hashes a message, compares
the first 64 bits of the digest with a threshold, and submits a share if they are
below. A job with a blob is mined on the blob, any other on a header made of the job's
fields. `batch` gives every attempt of a batch, submitted or not; `Tried` says what an
attempt is, and `batch_eq` which attempts a batch makes.
-/

namespace CppMiner.Miner

open Hash (HashAlgorithm Digest256 Kind)
open Hash.Cryptonight (Stack)
open Network (Submit)
open Window (overwrite)

/-! ## One attempt -/

/-- The first 8 bytes of a digest as a big-endian integer. -/
def leadingBits (digest : Digest256) : UInt64 :=
  (digest.toList.take 8).foldl (fun value byte => (value <<< 8) ||| byte.toUInt64) 0

/-- What an iteration hashes, with which nonce argument, and what it would submit. -/
structure Plan where
  /-- The nonce tried: written into the blob, or given to the algorithm. -/
  nonce : UInt32
  message : Bytes
  nonceArg : UInt32
  share : Submit

/-- What came of an iteration. -/
structure Attempt where
  plan : Plan
  /-- What `hash` wrote to the digest; none if it returned before. -/
  written : Option Digest256
  submitted : Option Submit

/-- The digest that is compared: zero-initialised, then given to `hash`. -/
def comparedDigest (written : Option Digest256) : Digest256 :=
  written.getD (Vector.replicate 32 0)

/-- Hash, compare, submit: the end of the loop body in both branches. -/
def attempt (job : MiningJob) (threshold : UInt64) (stack : Stack) (algorithm : HashAlgorithm)
    (plan : Plan) : Attempt × HashAlgorithm :=
  let result := algorithm.hash stack plan.message plan.nonceArg
  ({ plan := plan
     written := result.1
     submitted :=
       if leadingBits (comparedDigest result.1) < threshold ∧
          job.jobId ≠ bytes "synthetic-standby" then some plan.share
       else none }, result.2)

/-- The digest an attempt compared. -/
def Attempt.digest (x : Attempt) : Digest256 := comparedDigest x.written

/-! ## Batches -/

def kBatchSize : ℕ := 2048

/-- The iterations of a blob batch from `i` on. `stack i` is what the stack holds
under the lanes of `keccak1600` in iteration `i`. -/
def blobLoop (job : MiningJob) (threshold : UInt64) (stack : ℕ → Stack) (offsetChars : ℕ)
    (baseNonce nonceStep : UInt32) :
    ℕ → ℕ → Bytes → HashAlgorithm → Except Fault (List Attempt × HashAlgorithm)
  | 0, _, _, algorithm => return ([], algorithm)
  | n + 1, i, workBlob, algorithm => do
    let nonce := baseNonce + UInt32.ofNat i * nonceStep
    let workBlob ← writeField workBlob offsetChars (toHex nonce 8)
    let raw ← rawBlob workBlob
    let (x, algorithm) := attempt job threshold (stack i) algorithm
      { nonce := nonce, message := raw, nonceArg := 0, share := .blobShare job.jobId workBlob }
    let (xs, algorithm) ←
      blobLoop job threshold stack offsetChars baseNonce nonceStep n (i + 1) workBlob algorithm
    return (x :: xs, algorithm)

/-- The header of a classic job, cut to 200 bytes. -/
def header (job : MiningJob) (extranonce2 : Bytes) : Bytes :=
  let headerStr := job.prevHash ++ job.coinbase1 ++ job.extranonce1 ++ extranonce2 ++
    job.coinbase2 ++ job.version ++ job.bits ++ job.time
  headerStr.take 200

/-- The iterations of a classic batch from `i` on, with the nonce they leave. -/
def classicLoop (job : MiningJob) (threshold : UInt64) (stack : ℕ → Stack) (extranonce2 : Bytes)
    (nonceStep : UInt32) :
    ℕ → ℕ → UInt32 → HashAlgorithm → List Attempt × UInt32 × HashAlgorithm
  | 0, _, nonce, algorithm => ([], nonce, algorithm)
  | n + 1, i, nonce, algorithm =>
    let (x, algorithm) := attempt job threshold (stack i) algorithm
      { nonce := nonce, message := header job extranonce2, nonceArg := nonce
        share := .share job.jobId extranonce2 job.time (toHex nonce 8) }
    let (xs, nonce, algorithm) :=
      classicLoop job threshold stack extranonce2 nonceStep n (i + 1) (nonce + nonceStep) algorithm
    (x :: xs, nonce, algorithm)

/-- What `workerLoop` keeps from one batch to the next. -/
structure Worker where
  index : ℕ
  nonce : UInt32
  nonceStep : UInt32
  algorithm : HashAlgorithm

/-- A worker before its first batch, with the capacity of the vector of threads. -/
def Worker.start (algorithm : HashAlgorithm) (index capacity : ℕ) : Worker where
  index := index
  nonce := UInt32.ofNat index * 0x1000000
  nonceStep := UInt32.ofNat (max 1 capacity)
  algorithm := algorithm

/-- `extranonce2Size * 2` as an `int`. -/
def extranonce2Width (job : MiningJob) : ℤ := Int.bmod (job.extranonce2Size * 2).toNat (2 ^ 32)

/-- The narrowing keeps a width that an `int` can hold. -/
theorem extranonce2Width_of_lt {job : MiningJob} (h : job.extranonce2Size.toNat * 2 < 2 ^ 31) :
    extranonce2Width job = (job.extranonce2Size.toNat * 2 : ℕ) := by
  have htwo : (2 : UInt32).toNat = 2 := rfl
  have hnat : (job.extranonce2Size * 2).toNat = job.extranonce2Size.toNat * 2 := by
    rw [UInt32.toNat_mul, htwo, Nat.mod_eq_of_lt (by omega)]
  unfold extranonce2Width
  rw [hnat]
  exact Int.bmod_eq_of_le (by omega) (by omega)

/-- A batch of `size` iterations on a blob. -/
def blobBatch (size : ℕ) (worker : Worker) (job : MiningJob) (threshold : UInt64)
    (stack : ℕ → Stack) : Except Fault (List Attempt × Worker) := do
  let nonceOffset ← nonceOffsetBytes job.blob
  let result ← blobLoop job threshold stack (nonceOffset * 2) worker.nonce worker.nonceStep
    size 0 job.blob worker.algorithm
  return (result.1, { worker with algorithm := result.2 })

/-- A batch of `size` iterations on a header. -/
def classicBatch (size : ℕ) (worker : Worker) (job : MiningJob) (threshold : UInt64)
    (stack : ℕ → Stack) (extranonce2 : Bytes) : List Attempt × Worker :=
  let result := classicLoop job threshold stack extranonce2 worker.nonceStep
    size 0 worker.nonce worker.algorithm
  (result.1, { worker with nonce := result.2.1, algorithm := result.2.2 })

/-- The extranonce2 of a worker for a job. -/
def extranonce2 (worker : Worker) (job : MiningJob) : Bytes :=
  toHex (UInt32.ofNat worker.index) (extranonce2Width job)

/-- One batch on a job. A blob of one to three characters is passed over. -/
def batch (worker : Worker) (job : MiningJob) (threshold : UInt64) (stack : ℕ → Stack) :
    Except Fault (List Attempt × Worker) :=
  if job.blob ≠ [] then
    if job.blob.length < 4 then .ok ([], worker)
    else blobBatch kBatchSize worker job threshold stack
  else .ok (classicBatch kBatchSize worker job threshold stack (extranonce2 worker job))

/-- Consecutive batches on a job that stays current, each with the threshold it loads. -/
def batches (worker : Worker) (job : MiningJob) :
    List (UInt64 × (ℕ → Stack)) → Except Fault (List Attempt × Worker)
  | [] => return ([], worker)
  | (threshold, stack) :: rest => do
    let (xs, worker) ← batch worker job threshold stack
    let (ys, worker) ← batches worker job rest
    return (xs ++ ys, worker)

/-! ## Which attempts a batch makes -/

/-- An attempt that followed the plan, with an algorithm of the given kind. -/
def Tried (kind : Kind) (job : MiningJob) (threshold : UInt64) (plan : Plan) (x : Attempt) : Prop :=
  ∃ stack algorithm, algorithm.kind = kind ∧ x = (attempt job threshold stack algorithm plan).1

/-- The blob with the nonce in its place. -/
def workBlob (blob : Bytes) (nonce : UInt32) : Bytes :=
  overwrite blob (nonceOffset blob * 2) (toHex nonce 8)

/-- What a blob batch tries in iteration `i`. -/
def blobPlan (job : MiningJob) (baseNonce nonceStep : UInt32) (i : ℕ) : Plan :=
  let nonce := baseNonce + UInt32.ofNat i * nonceStep
  { nonce := nonce, message := Hex.decode (workBlob job.blob nonce), nonceArg := 0
    share := .blobShare job.jobId (workBlob job.blob nonce) }

/-- What a classic batch tries in iteration `i`. -/
def classicPlan (job : MiningJob) (extranonce2 : Bytes) (nonce nonceStep : UInt32) (i : ℕ) : Plan :=
  let nonce := nonce + UInt32.ofNat i * nonceStep
  { nonce := nonce, message := header job extranonce2, nonceArg := nonce
    share := .share job.jobId extranonce2 job.time (toHex nonce 8) }

variable {job : MiningJob} {threshold : UInt64} {stack : ℕ → Stack}

@[simp] theorem kind_attempt (job : MiningJob) (threshold : UInt64) (stack : Stack)
    (algorithm : HashAlgorithm) (plan : Plan) :
    (attempt job threshold stack algorithm plan).2.kind = algorithm.kind := by
  simp [attempt]

variable {kind : Kind} {plan : Plan} {x : Attempt}

theorem Tried.plan_eq (h : Tried kind job threshold plan x) : x.plan = plan := by
  obtain ⟨stack, algorithm, -, rfl⟩ := h
  rfl

/-- What is written is a digest of the bytes the algorithm absorbs. -/
theorem Tried.written_eq (h : Tried kind job threshold plan x) :
    ∃ stack, ∃ algorithm : HashAlgorithm, algorithm.kind = kind ∧
      x.written = (kind.absorbed plan.message plan.nonceArg).map (algorithm.digest stack) := by
  obtain ⟨stack, algorithm, rfl, rfl⟩ := h
  exact ⟨stack, algorithm, rfl, algorithm.hash_eq stack plan.message plan.nonceArg⟩

/-- A share is submitted if the compared digest is below the threshold, and never for
the job that is mined while there is no pool. -/
theorem Tried.submitted_eq (h : Tried kind job threshold plan x) :
    x.submitted =
      if leadingBits x.digest < threshold ∧ job.jobId ≠ bytes "synthetic-standby" then
        some plan.share
      else none := by
  obtain ⟨stack, algorithm, -, rfl⟩ := h
  rfl

/-- What is known of an attempt whose share was submitted. -/
theorem Tried.submitted_eq_some (h : Tried kind job threshold plan x) {share : Submit}
    (hsubmitted : x.submitted = some share) :
    leadingBits x.digest < threshold ∧ job.jobId ≠ bytes "synthetic-standby" ∧
      plan.share = share := by
  rw [h.submitted_eq] at hsubmitted
  split at hsubmitted
  · rename_i hbelow
    exact ⟨hbelow.1, hbelow.2, Option.some.inj hsubmitted⟩
  · cases hsubmitted

/-- The attempts of a loop follow its plans, one by one. -/
theorem map_plan_of_tried {plans : List Plan} {xs : List Attempt}
    (h : List.Forall₂ (Tried kind job threshold) plans xs) : xs.map (·.plan) = plans := by
  induction h with
  | nil => rfl
  | cons hx _ ih => rw [List.map_cons, ih, hx.plan_eq]

theorem tried_of_mem {plans : List Plan} {xs : List Attempt}
    (h : List.Forall₂ (Tried kind job threshold) plans xs) :
    ∀ x ∈ xs, Tried kind job threshold x.plan x := by
  induction h with
  | nil => simp
  | cons hx _ ih =>
    intro x hmem
    rcases List.mem_cons.mp hmem with rfl | hmem
    · rw [hx.plan_eq]
      exact hx
    · exact ih x hmem

theorem length_toHex (nonce : UInt32) : (toHex nonce 8).length = 8 := by
  rw [toHex_eight, Radix.length_fixed]

/-- The nonce that the eight digits denote. -/
theorem decode_toHex (nonce : UInt32) : Radix.decode 16 (toHex nonce 8) = nonce.toNat := by
  rw [toHex_eight, Radix.decode_fixed (by norm_num) (by norm_num)]
  exact Nat.mod_eq_of_lt nonce.toNat_lt

theorem isHexDigit_toHex (nonce : UInt32) : ∀ c ∈ toHex nonce 8, Hex.isHexDigit c = true := by
  intro c hc
  rw [toHex_eight] at hc
  obtain ⟨d, hd, rfl⟩ := Radix.mem_fixed (by norm_num) 8 nonce.toNat hc
  have hdigits : ∀ d < 16, Hex.isHexDigit (Radix.digitChar d) = true := by decide
  exact hdigits d hd

theorem length_workBlob {blob : Bytes} (h : 16 ≤ blob.length) (nonce : UInt32) :
    (workBlob blob nonce).length = blob.length :=
  Window.length_overwrite (by rw [length_toHex]; exact nonceOffset_le h)

/-- The nonce can be read off the blob that it was written into. -/
theorem workBlob_injective {blob : Bytes} (h : 16 ≤ blob.length) :
    Function.Injective (workBlob blob) := by
  intro m n hmn
  have hwindow : ∀ nonce,
      Window.window (workBlob blob nonce) (nonceOffset blob * 2) 8 = toHex nonce 8 := by
    intro nonce
    have hfits : nonceOffset blob * 2 + (toHex nonce 8).length ≤ blob.length := by
      rw [length_toHex]
      exact nonceOffset_le h
    have hread := Window.window_overwrite hfits
    rwa [length_toHex] at hread
  have hdigits : toHex m 8 = toHex n 8 := by rw [← hwindow, hmn, hwindow]
  rw [← UInt32.toNat_inj, ← decode_toHex m, hdigits, decode_toHex]

theorem HexBlob.workBlob {blob : Bytes} (h : HexBlob blob) (nonce : UInt32) :
    HexBlob (workBlob blob nonce) where
  digits c hc := by
    rcases Window.mem_of_mem_overwrite hc with hc | hc
    · exact h.digits c hc
    · exact isHexDigit_toHex nonce c hc
  long := by
    rw [length_workBlob h.long]
    exact h.long

/-- Every iteration overwrites the nonce of the one before. -/
theorem blobLoop_eq (h : HexBlob job.blob) (threshold : UInt64) (stack : ℕ → Stack)
    (baseNonce nonceStep : UInt32) (n i : ℕ) {blob : Bytes} (algorithm : HashAlgorithm)
    (hlen : blob.length = job.blob.length)
    (hblob : ∀ w : Bytes, w.length = 8 →
      overwrite blob (nonceOffset job.blob * 2) w =
        overwrite job.blob (nonceOffset job.blob * 2) w) :
    ∃ xs algorithm', blobLoop job threshold stack (nonceOffset job.blob * 2) baseNonce nonceStep
        n i blob algorithm = .ok (xs, algorithm') ∧ algorithm'.kind = algorithm.kind ∧
      List.Forall₂ (Tried algorithm.kind job threshold)
        ((List.range' i n).map (blobPlan job baseNonce nonceStep)) xs := by
  have hoffset := nonceOffset_le h.long
  -- along the iterations; the blob differs from the job's only where the next nonce goes
  induction n generalizing i blob algorithm with
  | zero => exact ⟨[], algorithm, rfl, rfl, .nil⟩
  | succ n ih =>
    let plan := blobPlan job baseNonce nonceStep i
    let first := attempt job threshold (stack i) algorithm plan
    have hwrite : writeField blob (nonceOffset job.blob * 2) (toHex plan.nonce 8) =
        .ok (workBlob job.blob plan.nonce) := by
      rw [writeField_eq (by omega) (length_toHex _), hblob _ (length_toHex _)]
      rfl
    have hnext : ∀ w : Bytes, w.length = 8 →
        overwrite (workBlob job.blob plan.nonce) (nonceOffset job.blob * 2) w =
          overwrite job.blob (nonceOffset job.blob * 2) w := fun w hw =>
      Window.overwrite_overwrite (by rw [length_toHex]; exact hoffset) (by rw [hw, length_toHex])
    obtain ⟨xs, algorithm', hloop, hkind, hxs⟩ := ih (i + 1) first.2
      (length_workBlob h.long plan.nonce) hnext
    refine ⟨first.1 :: xs, algorithm', ?_, ?_, ?_⟩
    · have hplan : baseNonce + UInt32.ofNat i * nonceStep = plan.nonce := rfl
      rw [blobLoop, hplan]
      simp only [hwrite, Loops.ok_bind, rawBlob_eq (h.workBlob plan.nonce).digits]
      change (blobLoop _ _ _ _ _ _ n (i + 1) _ first.2 >>= _) = _
      rw [hloop]
      rfl
    · rw [hkind, kind_attempt]
    · rw [kind_attempt] at hxs
      exact .cons ⟨stack i, algorithm, rfl, rfl⟩ hxs

theorem classicLoop_eq (job : MiningJob) (threshold : UInt64) (stack : ℕ → Stack)
    (extranonce2 : Bytes) (nonce nonceStep : UInt32) (n i : ℕ) (algorithm : HashAlgorithm) :
    let result := classicLoop job threshold stack extranonce2 nonceStep n i
      (nonce + UInt32.ofNat i * nonceStep) algorithm
    List.Forall₂ (Tried algorithm.kind job threshold)
        ((List.range' i n).map (classicPlan job extranonce2 nonce nonceStep)) result.1 ∧
      result.2.1 = nonce + UInt32.ofNat (i + n) * nonceStep ∧
      result.2.2.kind = algorithm.kind := by
  induction n generalizing i algorithm with
  | zero => exact ⟨.nil, rfl, rfl⟩
  | succ n ih =>
    let plan := classicPlan job extranonce2 nonce nonceStep i
    let first := attempt job threshold (stack i) algorithm plan
    have hnext : nonce + UInt32.ofNat i * nonceStep + nonceStep =
        nonce + UInt32.ofNat (i + 1) * nonceStep := by
      rw [UInt32.ofNat_add, UInt32.add_mul, UInt32.ofNat_one, UInt32.one_mul, UInt32.add_assoc]
    obtain ⟨hxs, hnonce, hkind⟩ := ih (i + 1) first.2
    rw [← hnext] at hxs hnonce hkind
    refine ⟨?_, ?_, ?_⟩
    · rw [kind_attempt] at hxs
      exact .cons ⟨stack i, algorithm, rfl, rfl⟩ hxs
    · rw [Nat.add_assoc, Nat.add_comm 1] at hnonce
      exact hnonce
    · rw [kind_attempt] at hkind
      exact hkind

/-- A classic batch of `n` iterations. -/
theorem classicLoop_zero (job : MiningJob) (threshold : UInt64) (stack : ℕ → Stack)
    (extranonce2 : Bytes) (nonce nonceStep : UInt32) (n : ℕ) (algorithm : HashAlgorithm) :
    let result := classicLoop job threshold stack extranonce2 nonceStep n 0 nonce algorithm
    List.Forall₂ (Tried algorithm.kind job threshold)
        ((List.range n).map (classicPlan job extranonce2 nonce nonceStep)) result.1 ∧
      result.2.1 = nonce + UInt32.ofNat n * nonceStep ∧
      result.2.2.kind = algorithm.kind := by
  have hstart : nonce + UInt32.ofNat 0 * nonceStep = nonce := by
    rw [show UInt32.ofNat 0 = 0 from rfl, UInt32.zero_mul, UInt32.add_zero]
  have hloop := classicLoop_eq job threshold stack extranonce2 nonce nonceStep n 0 algorithm
  rwa [hstart, Nat.zero_add, ← List.range_eq_range'] at hloop

/-- A blob batch does not fault; it tries its nonces from the worker's on, and leaves
the worker's nonce as it was. -/
theorem blobBatch_eq (size : ℕ) (worker : Worker) (threshold : UInt64) (stack : ℕ → Stack)
    (h : HexBlob job.blob) :
    ∃ xs worker', blobBatch size worker job threshold stack = .ok (xs, worker') ∧
      worker'.nonce = worker.nonce ∧ worker'.nonceStep = worker.nonceStep ∧
      worker'.algorithm.kind = worker.algorithm.kind ∧
      List.Forall₂ (Tried worker.algorithm.kind job threshold)
        ((List.range size).map (blobPlan job worker.nonce worker.nonceStep)) xs := by
  obtain ⟨xs, algorithm', hloop, hkind, hxs⟩ := blobLoop_eq h threshold stack worker.nonce
    worker.nonceStep size 0 worker.algorithm rfl fun _ _ => rfl
  refine ⟨xs, { worker with algorithm := algorithm' }, ?_, rfl, rfl, hkind, ?_⟩
  · simp only [blobBatch, nonceOffset_eq h.long, Loops.ok_bind, hloop, Loops.pure_eq_ok]
  · rwa [List.range_eq_range']

/-- The first attempt of a blob batch is made with the worker's own instance. -/
theorem blobBatch_head {size : ℕ} {worker worker' : Worker} {xs : List Attempt}
    (hblob : HexBlob job.blob)
    (h : blobBatch (size + 1) worker job threshold stack = .ok (xs, worker')) :
    xs[0]? = some (attempt job threshold (stack 0) worker.algorithm
      (blobPlan job worker.nonce worker.nonceStep 0)).1 := by
  have hwrite : writeField job.blob (nonceOffset job.blob * 2)
        (toHex (blobPlan job worker.nonce worker.nonceStep 0).nonce 8) =
      .ok (workBlob job.blob (blobPlan job worker.nonce worker.nonceStep 0).nonce) :=
    writeField_eq (nonceOffset_le hblob.long) (length_toHex _)
  have hplan : worker.nonce + UInt32.ofNat 0 * worker.nonceStep =
      (blobPlan job worker.nonce worker.nonceStep 0).nonce := rfl
  rw [blobBatch, nonceOffset_eq hblob.long, Loops.ok_bind, blobLoop, hplan, hwrite, Loops.ok_bind,
    rawBlob_eq (hblob.workBlob _).digits, Loops.ok_bind] at h
  obtain ⟨result, hloop, h⟩ := Loops.bind_eq_ok.mp h
  obtain ⟨rest, -, hloop⟩ := Loops.bind_eq_ok.mp hloop
  cases hloop
  cases h
  rfl

/-- A classic batch advances the worker's nonce past those it tries. -/
theorem classicBatch_eq (size : ℕ) (worker : Worker) (job : MiningJob) (threshold : UInt64)
    (stack : ℕ → Stack) (extranonce2 : Bytes) :
    let result := classicBatch size worker job threshold stack extranonce2
    result.2.nonce = worker.nonce + UInt32.ofNat size * worker.nonceStep ∧
      result.2.nonceStep = worker.nonceStep ∧
      result.2.algorithm.kind = worker.algorithm.kind ∧
      List.Forall₂ (Tried worker.algorithm.kind job threshold)
        ((List.range size).map
          (classicPlan job extranonce2 worker.nonce worker.nonceStep)) result.1 := by
  obtain ⟨hxs, hnonce, hkind⟩ := classicLoop_zero job threshold stack extranonce2
    worker.nonce worker.nonceStep size worker.algorithm
  exact ⟨hnonce, rfl, hkind, hxs⟩

/-- What a worker can take: a classic job, or a blob of at least 16 hex digits. -/
def Minable (job : MiningJob) : Prop := job.blob = [] ∨ HexBlob job.blob

/-- What a batch tries in iteration `i`. -/
def planOf (worker : Worker) (job : MiningJob) (i : ℕ) : Plan :=
  if job.blob = [] then
    classicPlan job (extranonce2 worker job) worker.nonce worker.nonceStep i
  else blobPlan job worker.nonce worker.nonceStep i

theorem batch_of_hexBlob (worker : Worker) (h : HexBlob job.blob) :
    batch worker job threshold stack = blobBatch kBatchSize worker job threshold stack := by
  have hlong := h.long
  rw [batch, if_pos h.ne_nil, if_neg (by omega)]

theorem planOf_of_hexBlob (worker : Worker) (h : HexBlob job.blob) :
    planOf worker job = blobPlan job worker.nonce worker.nonceStep :=
  funext fun _ => if_neg h.ne_nil

/-- Every batch on a job a worker can take runs through, and makes its `kBatchSize`
attempts. -/
theorem batch_eq (worker : Worker) (h : Minable job) (threshold : UInt64) (stack : ℕ → Stack) :
    ∃ xs worker', batch worker job threshold stack = .ok (xs, worker') ∧
      xs.map (·.plan) = (List.range kBatchSize).map (planOf worker job) ∧
      ∀ x ∈ xs, Tried worker.algorithm.kind job threshold x.plan x := by
  rcases h with hnil | hblob
  · have hplan : planOf worker job =
        classicPlan job (extranonce2 worker job) worker.nonce worker.nonceStep :=
      funext fun i => if_pos hnil
    obtain ⟨-, -, -, hxs⟩ := classicBatch_eq kBatchSize worker job threshold stack
      (extranonce2 worker job)
    rw [← hplan] at hxs
    exact ⟨_, _, by rw [batch, if_neg (by simp [hnil])], map_plan_of_tried hxs, tried_of_mem hxs⟩
  · obtain ⟨xs, worker', hbatch, -, -, -, hxs⟩ := blobBatch_eq kBatchSize worker
      threshold stack hblob
    rw [← planOf_of_hexBlob worker hblob] at hxs
    exact ⟨xs, worker', by rw [batch_of_hexBlob worker hblob, hbatch], map_plan_of_tried hxs,
      tried_of_mem hxs⟩

/-- The attempts of a batch are its iterations in their order. -/
theorem plan_of_getElem? {worker : Worker} {xs : List Attempt}
    (h : xs.map (·.plan) = (List.range kBatchSize).map (planOf worker job)) {i : ℕ} {x : Attempt}
    (hx : xs[i]? = some x) : x.plan = planOf worker job i := by
  have hplan := congrArg (fun plans => plans[i]?) h
  simp only [List.getElem?_map, hx, Option.map_some] at hplan
  obtain ⟨k, hk, hki⟩ := Option.map_eq_some_iff.mp hplan.symm
  obtain ⟨hlen, hrange⟩ := List.getElem?_eq_some_iff.mp hk
  rw [List.getElem_range] at hrange
  rw [← hki, hrange]

theorem exists_planOf {worker : Worker} {xs : List Attempt}
    (h : xs.map (·.plan) = (List.range kBatchSize).map (planOf worker job)) {x : Attempt}
    (hx : x ∈ xs) : ∃ i, x.plan = planOf worker job i := by
  obtain ⟨i, hi⟩ := List.mem_iff_getElem?.mp hx
  exact ⟨i, plan_of_getElem? h hi⟩

theorem exists_getElem? {worker : Worker} {xs : List Attempt}
    (h : xs.map (·.plan) = (List.range kBatchSize).map (planOf worker job)) {i : ℕ}
    (hi : i < kBatchSize) : ∃ x, xs[i]? = some x := by
  have hlen := congrArg List.length h
  rw [List.length_map, List.length_map, List.length_range] at hlen
  exact ⟨xs.get ⟨i, hlen ▸ hi⟩, List.getElem?_eq_getElem _⟩

theorem ne_nil_of_plans {worker : Worker} {xs : List Attempt}
    (h : xs.map (·.plan) = (List.range kBatchSize).map (planOf worker job)) : xs ≠ [] := by
  rintro rfl
  have hlen := congrArg List.length h
  simp [kBatchSize] at hlen

/-- A job whose blob is `n` times the digit zero. -/
def zeroBlobJob (n : ℕ) : MiningJob :=
  { jobId := bytes "job", blob := List.replicate n '0'.toUInt8 }

theorem hexBlob_zeroBlobJob {n : ℕ} (h : 16 ≤ n) : HexBlob (zeroBlobJob n).blob where
  digits c hc := by
    rw [List.eq_of_mem_replicate hc]
    decide
  long := by
    rw [zeroBlobJob, List.length_replicate]
    exact h

end CppMiner.Miner
