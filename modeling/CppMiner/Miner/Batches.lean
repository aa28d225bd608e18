-- SUMMARY: What a batch that runs through has tried, whatever the job, and the batches of a worker one after the other.
import CppMiner.Miner.BlobNonces

/-!
# Batches that run through

`batch_eq` says which jobs a worker can take. Here nothing is asked of the job: if a
batch runs through, then its attempts follow the loop and submit for the job
(`batch_ok`). A worker's life is a list of batches, each on the job that is current when
it begins (`mine`), and what they leave to the next one is a nonce (`mine_ok`).
-/

namespace CppMiner.Miner

open Hash (HashAlgorithm Kind)
open Hash.Cryptonight (Stack)
open Progression (term)

variable {job : MiningJob} {threshold : UInt64} {stack : ℕ → Stack} {worker worker' : Worker}
  {xs : List Attempt}

/-- An attempt for the job with nonce `n`. -/
structure TriedFor (kind : Kind) (job : MiningJob) (threshold : UInt64) (n : UInt32)
    (x : Attempt) : Prop where
  tried : Tried kind job threshold x.plan x
  nonce : x.plan.nonce = n
  jobId : x.plan.share.jobId = job.jobId

theorem nonces_of_tried {kind : Kind} {ns : List UInt32}
    (h : List.Forall₂ (TriedFor kind job threshold) ns xs) : xs.map (·.plan.nonce) = ns := by
  induction h with
  | nil => rfl
  | cons hx _ ih => rw [List.map_cons, ih, hx.nonce]

theorem mem_of_tried {kind : Kind} {ns : List UInt32}
    (h : List.Forall₂ (TriedFor kind job threshold) ns xs) {x : Attempt} (hx : x ∈ xs) :
    TriedFor kind job threshold x.plan.nonce x := by
  induction h with
  | nil => cases hx
  | cons hy _ ih =>
    rcases List.mem_cons.mp hx with rfl | hx
    · exact ⟨hy.tried, rfl, hy.jobId⟩
    · exact ih hx

theorem blobLoop_ok {offsetChars : ℕ} {baseNonce nonceStep : UInt32} {n i : ℕ} {blob : Bytes}
    {algorithm algorithm' : HashAlgorithm}
    (h : blobLoop job threshold stack offsetChars baseNonce nonceStep n i blob algorithm =
      .ok (xs, algorithm')) :
    algorithm'.kind = algorithm.kind ∧
      List.Forall₂ (TriedFor algorithm.kind job threshold)
        ((List.range' i n).map (term baseNonce nonceStep)) xs := by
  induction n generalizing i blob algorithm xs with
  | zero =>
    cases h
    exact ⟨rfl, .nil⟩
  | succ n ih =>
    rw [blobLoop] at h
    obtain ⟨workBlob, -, h⟩ := Loops.bind_eq_ok.mp h
    obtain ⟨raw, -, h⟩ := Loops.bind_eq_ok.mp h
    obtain ⟨⟨ys, algorithm₂⟩, hloop, h⟩ := Loops.bind_eq_ok.mp h
    cases h
    obtain ⟨hkind, hys⟩ := ih hloop
    rw [HashAlgorithm.kind_hash] at hkind hys
    exact ⟨hkind, .cons ⟨⟨stack i, algorithm, rfl, rfl⟩, rfl, rfl⟩ hys⟩

theorem blobBatch_ok {size : ℕ}
    (h : blobBatch size worker job threshold stack = .ok (xs, worker')) :
    (∃ algorithm, worker' = { worker with algorithm := algorithm } ∧
      algorithm.kind = worker.algorithm.kind) ∧
    List.Forall₂ (TriedFor worker.algorithm.kind job threshold)
      ((List.range size).map (term worker.nonce worker.nonceStep)) xs := by
  rw [blobBatch] at h
  obtain ⟨offset, -, h⟩ := Loops.bind_eq_ok.mp h
  obtain ⟨⟨ys, algorithm⟩, hloop, h⟩ := Loops.bind_eq_ok.mp h
  cases h
  obtain ⟨hkind, hys⟩ := blobLoop_ok hloop
  rw [← List.range_eq_range'] at hys
  exact ⟨⟨algorithm, rfl, hkind⟩, hys⟩

theorem classicBatch_tried (size : ℕ) (worker : Worker) (job : MiningJob) (threshold : UInt64)
    (stack : ℕ → Stack) (e : Bytes) :
    List.Forall₂ (TriedFor worker.algorithm.kind job threshold)
      ((List.range size).map (term worker.nonce worker.nonceStep))
      (classicBatch size worker job threshold stack e).1 := by
  obtain ⟨-, -, -, hxs⟩ := classicBatch_eq size worker job threshold stack e
  rw [List.forall₂_map_left_iff] at hxs ⊢
  refine hxs.imp fun k x hx => ?_
  have hplan := hx.plan_eq
  exact ⟨hplan ▸ hx, by rw [hplan]; rfl, by rw [hplan]; rfl⟩

theorem index_classicBatch (size : ℕ) (worker : Worker) (job : MiningJob) (threshold : UInt64)
    (stack : ℕ → Stack) (e : Bytes) :
    (classicBatch size worker job threshold stack e).2.index = worker.index := rfl

/-- The nonces of one batch: none on a blob that is passed over. -/
def triedNonces (worker : Worker) (job : MiningJob) : List UInt32 :=
  if job.blob ≠ [] ∧ job.blob.length < 4 then [] else batchNonces worker

/-- What a batch that runs through has done. -/
structure BatchOk (worker : Worker) (job : MiningJob) (threshold : UInt64) (xs : List Attempt)
    (worker' : Worker) : Prop where
  index : worker'.index = worker.index
  nonceStep : worker'.nonceStep = worker.nonceStep
  kind : worker'.algorithm.kind = worker.algorithm.kind
  /-- Only a classic job moves the nonce of the worker on. -/
  nonce : worker'.nonce =
    if job.blob = [] then term worker.nonce worker.nonceStep kBatchSize else worker.nonce
  attempts : List.Forall₂ (TriedFor worker.algorithm.kind job threshold) (triedNonces worker job) xs

theorem batch_ok (h : batch worker job threshold stack = .ok (xs, worker')) :
    BatchOk worker job threshold xs worker' := by
  unfold batch at h
  split at h
  · rename_i hblob
    split at h
    · rename_i hshort
      cases h
      refine ⟨rfl, rfl, rfl, (if_neg hblob).symm, ?_⟩
      rw [triedNonces, if_pos ⟨hblob, hshort⟩]
      exact .nil
    · rename_i hshort
      obtain ⟨⟨algorithm, rfl, hkind⟩, hxs⟩ := blobBatch_ok h
      refine ⟨rfl, rfl, hkind, (if_neg hblob).symm, ?_⟩
      rw [triedNonces, if_neg fun hand => hshort hand.2]
      exact hxs
  · rename_i hblob
    obtain ⟨hnonce, hstep, hkind, -⟩ := classicBatch_eq kBatchSize worker job threshold stack
      (extranonce2 worker job)
    have hxs := classicBatch_tried kBatchSize worker job threshold stack (extranonce2 worker job)
    have hindex := index_classicBatch kBatchSize worker job threshold stack
      (extranonce2 worker job)
    rw [Except.ok.injEq] at h
    rw [h] at hnonce hstep hkind hxs hindex
    refine ⟨hindex, hstep, hkind, ?_, ?_⟩
    · rw [if_pos (not_not.mp hblob)]
      exact hnonce
    · rw [triedNonces, if_neg fun hand => hblob hand.1]
      exact hxs

/-! ## The batches of a worker -/

/-- A batch: the job it takes, the threshold it loads, and what the stack holds. -/
structure Turn where
  job : MiningJob
  threshold : UInt64
  stack : ℕ → Stack

/-- The batches of a worker, one after the other. -/
def mine (worker : Worker) : List Turn → Except Fault (List Attempt × Worker)
  | [] => return ([], worker)
  | turn :: turns => do
    let (xs, worker) ← batch worker turn.job turn.threshold turn.stack
    let (ys, worker) ← mine worker turns
    return (xs ++ ys, worker)

/-- How many of the batches are on a classic job. -/
def classicTurns (turns : List Turn) : ℕ := turns.countP fun turn => turn.job.blob = []

theorem classicTurns_cons (turn : Turn) (turns : List Turn) :
    classicTurns (turn :: turns) = (if turn.job.blob = [] then 1 else 0) + classicTurns turns := by
  simp [classicTurns, List.countP_cons, Nat.add_comm]

/-- What the batches of a worker leave to the next one: the nonce has moved on by the
classic ones. -/
theorem mine_ok {turns : List Turn} (h : mine worker turns = .ok (xs, worker')) :
    worker'.index = worker.index ∧ worker'.nonceStep = worker.nonceStep ∧
      worker'.nonce = term worker.nonce worker.nonceStep (kBatchSize * classicTurns turns) := by
  induction turns generalizing worker xs with
  | nil =>
    cases h
    exact ⟨rfl, rfl, (Progression.term_zero _ _).symm⟩
  | cons turn turns ih =>
    rw [mine] at h
    obtain ⟨⟨ys, worker₁⟩, hbatch, h⟩ := Loops.bind_eq_ok.mp h
    obtain ⟨⟨zs, worker₂⟩, hmine, h⟩ := Loops.bind_eq_ok.mp h
    cases h
    have hok := batch_ok hbatch
    obtain ⟨hindex, hstep, hnonce⟩ := ih hmine
    refine ⟨hindex.trans hok.index, hstep.trans hok.nonceStep, ?_⟩
    rw [hnonce, hok.nonceStep, hok.nonce, classicTurns_cons]
    by_cases hblob : turn.job.blob = []
    · rw [if_pos hblob, if_pos hblob, Progression.term_term, Nat.mul_add, Nat.mul_one]
    · rw [if_neg hblob, if_neg hblob, Nat.zero_add]

end CppMiner.Miner
