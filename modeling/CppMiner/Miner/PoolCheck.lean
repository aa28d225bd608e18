-- SUMMARY: What a pool finds out about the line of a submitted share, from the job it sent and nothing else.
import CppMiner.Hash.Calls
import CppMiner.Miner.Batches
import CppMiner.Miner.Thresholds
import CppMiner.Miner.WrittenDigest

/-!
# The check of a share

A pool that receives a line parses it, and makes out of the parameters and its own copy
of the job the bytes whose digest the share stands for. This is stated here by itself:
the parser and SHA-256 of the standard are all it uses (`verifies`). The line of every
share that a worker submits passes it (`Attempt.Traced.verifies`), so that nothing is
lost between the header that was hashed and the text that was sent.
-/

namespace CppMiner.Miner

open Endian (ofBigEndian littleEndian)
open Hash (HashAlgorithm Kind Sha256dAlgorithm nonceBytes)
open Hash.Cryptonight (Stack)
open Network (Login Request Submit)

/-! ## The pool's side -/

/-- The message of a share for a job, made of the parameters after the job id: for a
classic job extranonce2, time and nonce, else the blob, whose algorithm appends a zero
nonce to it. -/
def shareMessage (job : MiningJob) : List Bytes → Option Bytes
  | [extranonce2, ntime, nonceHex] =>
    some ((job.prevHash ++ job.coinbase1 ++ job.extranonce1 ++ extranonce2 ++ job.coinbase2 ++
      job.version ++ job.bits ++ ntime).take 200 ++ littleEndian 4 (Radix.decode 16 nonceHex))
  | [workBlob] => some (Hex.decode workBlob ++ littleEndian 4 0)
  | _ => none

/-- The number that the digest of a share must be below. -/
def target (difficulty : ℚ) : ℕ := (difficultyToThreshold difficulty).toNat * 2 ^ 192

/-- Whether the message hashes to a number below the target. -/
def meetsTarget (difficulty : ℚ) (message : Bytes) : Bool :=
  ofBigEndian (Fips180.sha256 (Fips180.sha256 message)) < target difficulty

/-- Whether a request is a valid share of a user for a job at a difficulty. -/
def validShare (login : Login) (job : MiningJob) (difficulty : ℚ) (r : Request) : Bool :=
  match r.params with
  | user :: jobId :: share =>
    r.method = bytes "mining.submit" ∧ user = login.user ∧ jobId = job.jobId ∧
      (shareMessage job share).any (meetsTarget difficulty)
  | _ => false

/-- Whether a line is one. -/
def verifies (login : Login) (job : MiningJob) (difficulty : ℚ) (line : Bytes) : Bool :=
  ((Json.parse line).bind Request.ofValue).any (validShare login job difficulty)

/-! ## The worker's side -/

/-- A job whose messages fit into the buffer of `Sha256dAlgorithm`. -/
def Hashable (job : MiningJob) : Prop :=
  job.blob = [] ∨ HexBlob job.blob ∧ job.blob.length / 2 ≤ 252

theorem Hashable.minable {job : MiningJob} (h : Hashable job) : Minable job :=
  h.imp_right And.left

/-- An attempt of worker `index` for a job: it follows one of the plans of the loop. -/
structure Attempt.Traced (kind : Kind) (index : ℕ) (job : MiningJob) (threshold : UInt64)
    (x : Attempt) : Prop where
  tried : Tried kind job threshold x.plan x
  plan : Minable job → ∃ worker i, worker.index = index ∧ x.plan = planOf worker job i

/-- The attempts of a batch that runs through. -/
theorem traced_of_batch {worker worker' : Worker} {job : MiningJob} {threshold : UInt64}
    {stack : ℕ → Stack} {xs : List Attempt}
    (h : batch worker job threshold stack = .ok (xs, worker')) :
    ∀ x ∈ xs, x.Traced worker.algorithm.kind worker.index job threshold := by
  intro x hx
  refine ⟨(mem_of_tried (batch_ok h).attempts hx).tried, fun hjob => ?_⟩
  obtain ⟨ys, worker'', hbatch, hplans, -⟩ := batch_eq worker hjob threshold stack
  rw [h] at hbatch
  cases hbatch
  obtain ⟨i, hi⟩ := exists_planOf hplans hx
  exact ⟨worker, i, rfl, hi⟩

/-- What a plan submits is what the pool needs to make the message that was hashed. -/
theorem shareMessage_planOf {job : MiningJob} (h : Minable job) (worker : Worker) (i : ℕ) :
    ∃ share, (∀ login requestId, Submit.request login requestId (planOf worker job i).share =
        ⟨requestId, bytes "mining.submit", login.user :: job.jobId :: share⟩) ∧
      shareMessage job share =
        some ((planOf worker job i).message ++ nonceBytes (planOf worker job i).nonceArg) := by
  rcases h with hnil | hblob
  · let plan := classicPlan job (extranonce2 worker job) worker.nonce worker.nonceStep i
    have hplan : planOf worker job i = plan := if_pos hnil
    rw [hplan]
    refine ⟨[extranonce2 worker job, job.time, toHex plan.nonce 8], fun _ _ => rfl, ?_⟩
    rw [shareMessage, decode_toHex, Hash.nonceBytes_eq]
    rfl
  · let plan := blobPlan job worker.nonce worker.nonceStep i
    have hplan : planOf worker job i = plan := if_neg hblob.ne_nil
    rw [hplan]
    refine ⟨[workBlob job.blob plan.nonce], fun _ _ => rfl, ?_⟩
    rw [shareMessage, Hash.nonceBytes_eq]
    rfl

/-- The message of a job that fits is hashed whole. -/
theorem toList_sha256d {message : Bytes} (h : message.length ≤ 256) :
    (Sha256dAlgorithm.sha256d message).toList = Fips180.sha256 (Fips180.sha256 message) := by
  have hfirst : 8 * message.length < 2 ^ 64 := by omega
  have hsecond : 8 * (Hash.Sha256d.sha256 message).toList.length < 2 ^ 64 := by
    rw [Vector.length_toList]
    decide
  rw [Sha256dAlgorithm.sha256d, (Hash.Sha256d.sha256_eq_standard _ hsecond).2,
    (Hash.Sha256d.sha256_eq_standard _ hfirst).2]

/-- The digest that is compared is the one that the pool computes. -/
theorem Attempt.Traced.meetsTarget {index : ℕ} {job : MiningJob} {difficulty : ℚ} {x : Attempt}
    (h : x.Traced .sha256d index job (difficultyToThreshold difficulty))
    (hlen : x.plan.message.length ≤ 252) (hsubmitted : x.submitted ≠ none) :
    Miner.meetsTarget difficulty (x.plan.message ++ nonceBytes x.plan.nonceArg) = true := by
  obtain ⟨hwritten, hbelow⟩ := h.tried.justified_of_length_le hlen hsubmitted
  rw [leadingBits_lt_iff, Attempt.digest, hwritten, comparedDigest, Option.getD_some,
    toList_sha256d (by rw [List.length_append, Hash.length_nonceBytes]; omega)] at hbelow
  exact decide_eq_true hbelow

/-- The line of a share that is submitted for a job is a valid one for the pool. -/
theorem Attempt.Traced.verifies {index : ℕ} {job : MiningJob} {difficulty : ℚ} {x : Attempt}
    (h : x.Traced .sha256d index job (difficultyToThreshold difficulty)) (hjob : Hashable job)
    {share : Submit} (hsubmitted : x.submitted = some share) (login : Login) (n : ℤ) :
    Miner.verifies login job difficulty
      (share.request login (Network.preIncrement n)).toValue.dump = true := by
  obtain ⟨worker, i, -, hplan⟩ := h.plan hjob.minable
  obtain ⟨-, -, rfl⟩ := h.tried.submitted_eq_some hsubmitted
  have hlen : x.plan.message.length ≤ 252 := by
    rw [hplan, length_message worker hjob.minable]
    rcases hjob with hnil | ⟨-, hlen⟩
    · simp [hnil]
    · exact hlen
  have hmeets := h.meetsTarget hlen (by rw [hsubmitted]; nofun)
  obtain ⟨params, hrequest, hmessage⟩ := shareMessage_planOf hjob.minable worker i
  rw [← hplan] at hrequest hmessage
  have hvalid : validShare login job difficulty
      (Submit.request login (Network.preIncrement n) x.plan.share) = true := by
    rw [hrequest]
    exact decide_eq_true ⟨rfl, rfl, rfl, by rw [hmessage, Option.any_some, hmeets]⟩
  have hparse := Request.parse_dump_toValue
    (r := Submit.request login (Network.preIncrement n) x.plan.share)
    (by rw [hrequest]; exact Network.abs_preIncrement_le n)
  rw [Miner.verifies, hparse, Option.bind_some, Request.ofValue_toValue, Option.any_some, hvalid]

end CppMiner.Miner
