-- SUMMARY: The nonces that a worker hashes on classic jobs over its whole run, and those it submits.
import CppMiner.Miner.Batches

/-!
# Nonces on classic jobs

The classic branch of `workerLoop` hashes a header with a nonce that it carries from batch
to batch, across changes of the job and batches on blobs in between. Over a run these
nonces are one progression (`mine_classic`), which meets every number of its residue class
before it repeats any (`classic_nonces`).
-/

namespace CppMiner.Miner

open Hash (HashAlgorithm Kind)
open Hash.Cryptonight (Stack)
open Network (Submit)
open Progression (term)

variable {job : MiningJob} {threshold : UInt64} {stack : ℕ → Stack} {worker worker' : Worker}
  {xs : List Attempt}

/-- Whether the attempt was made by the classic branch. -/
def Attempt.classic (x : Attempt) : Bool :=
  match x.plan.share with
  | .share .. => true
  | .blobShare .. => false

/-- The nonces that the classic branch gave to `hash`, in their order. -/
def classicNonces (xs : List Attempt) : List UInt32 :=
  (xs.filter Attempt.classic).map (·.plan.nonceArg)

@[simp] theorem classicNonces_append (xs ys : List Attempt) :
    classicNonces (xs ++ ys) = classicNonces xs ++ classicNonces ys := by
  rw [classicNonces, List.filter_append, List.map_append, classicNonces, classicNonces]

/-- What was hashed in an iteration, and what share it may have submitted: the last string
is the nonce in eight hexadecimal digits. -/
structure HashedAndSubmitted (x : Attempt) : Prop where
  hashed : ∃ stack : Stack, ∃ algorithm : HashAlgorithm,
    x.written = (algorithm.hash stack x.plan.message x.plan.nonceArg).1
  submitted : ∀ share, x.submitted = some share →
    ∃ jobId extranonce2 ntime,
      share = .share jobId extranonce2 ntime (Radix.fixed 16 8 x.plan.nonceArg.toNat)

/-! ## One batch -/

theorem blobLoop_classicNonces {offsetChars : ℕ} {baseNonce nonceStep : UInt32} {n i : ℕ}
    {blob : Bytes} {algorithm algorithm' : HashAlgorithm}
    (h : blobLoop job threshold stack offsetChars baseNonce nonceStep n i blob algorithm =
      .ok (xs, algorithm')) : ∀ x ∈ xs, x.classic = false := by
  induction n generalizing i blob algorithm xs with
  | zero =>
    cases h
    simp
  | succ n ih =>
    rw [blobLoop] at h
    obtain ⟨workBlob, -, h⟩ := Loops.bind_eq_ok.mp h
    obtain ⟨raw, -, h⟩ := Loops.bind_eq_ok.mp h
    obtain ⟨⟨ys, algorithm₂⟩, hloop, h⟩ := Loops.bind_eq_ok.mp h
    cases h
    intro x hx
    rcases List.mem_cons.mp hx with rfl | hx
    · rfl
    · exact ih hloop x hx

theorem classic_of_tried {kind : Kind} {e : Bytes} {nonce nonceStep : UInt32} {k : ℕ}
    {x : Attempt} (h : Tried kind job threshold (classicPlan job e nonce nonceStep k) x) :
    x.classic = true ∧ x.plan.nonceArg = term nonce nonceStep k ∧ HashedAndSubmitted x := by
  have hplan := h.plan_eq
  refine ⟨?_, ?_, ?_, fun share hshare => ?_⟩
  · rw [Attempt.classic, hplan]
    rfl
  · rw [hplan]
    rfl
  · obtain ⟨stack, algorithm, -, rfl⟩ := h
    exact ⟨stack, algorithm, rfl⟩
  · obtain ⟨-, -, rfl⟩ := h.submitted_eq_some hshare
    exact ⟨job.jobId, e, job.time, by rw [← toHex_eight, hplan]; rfl⟩

theorem classicNonces_of_tried {kind : Kind} {e : Bytes} {nonce nonceStep : UInt32} {ks : List ℕ}
    (h : List.Forall₂ (fun k x => Tried kind job threshold (classicPlan job e nonce nonceStep k) x)
      ks xs) :
    classicNonces xs = ks.map (term nonce nonceStep) ∧ ∀ x ∈ xs, HashedAndSubmitted x := by
  induction h with
  | nil => exact ⟨rfl, by simp⟩
  | @cons k x ks xs hx _ ih =>
    obtain ⟨hclassic, hnonce, hhashed⟩ := classic_of_tried hx
    refine ⟨?_, List.forall_mem_cons.mpr ⟨hhashed, ih.2⟩⟩
    rw [classicNonces, List.filter_cons_of_pos hclassic, List.map_cons, List.map_cons, hnonce]
    exact congrArg _ ih.1

/-- What a batch hashes on its job: on a header, its share of the progression. -/
theorem batch_classicNonces (h : batch worker job threshold stack = .ok (xs, worker')) :
    classicNonces xs =
        (List.range (if job.blob = [] then kBatchSize else 0)).map
          (term worker.nonce worker.nonceStep) ∧
      ∀ x ∈ xs, x.classic = true → HashedAndSubmitted x := by
  by_cases hblob : job.blob = []
  · rw [batch, if_neg (not_not.mpr hblob), Except.ok.injEq] at h
    obtain ⟨-, -, -, hxs⟩ := classicBatch_eq kBatchSize worker job threshold stack
      (extranonce2 worker job)
    rw [h, List.forall₂_map_left_iff] at hxs
    obtain ⟨hnonces, hhashed⟩ := classicNonces_of_tried hxs
    rw [if_pos hblob]
    exact ⟨hnonces, fun x hx _ => hhashed x hx⟩
  · have hnone : ∀ x ∈ xs, x.classic = false := by
      rw [batch, if_pos hblob] at h
      by_cases hshort : job.blob.length < 4
      · rw [if_pos hshort] at h
        cases h
        simp
      · rw [if_neg hshort, blobBatch] at h
        obtain ⟨offset, -, h⟩ := Loops.bind_eq_ok.mp h
        obtain ⟨⟨ys, algorithm⟩, hloop, h⟩ := Loops.bind_eq_ok.mp h
        cases h
        exact blobLoop_classicNonces hloop
    rw [if_neg hblob, classicNonces, List.filter_eq_nil_iff.mpr fun x hx => by simp [hnone x hx]]
    exact ⟨rfl, fun x hx hclassic => by simp [hnone x hx] at hclassic⟩

/-! ## Runs -/

/-- The nonces of the classic batches of a run are one progression. -/
theorem mine_classic {turns : List Turn} (h : mine worker turns = .ok (xs, worker')) :
    classicNonces xs =
        (List.range (kBatchSize * classicTurns turns)).map (term worker.nonce worker.nonceStep) ∧
      ∀ x ∈ xs, x.classic = true → HashedAndSubmitted x := by
  induction turns generalizing worker xs with
  | nil =>
    cases h
    exact ⟨rfl, by simp⟩
  | cons turn turns ih =>
    rw [mine] at h
    obtain ⟨⟨ys, worker₁⟩, hbatch, h⟩ := Loops.bind_eq_ok.mp h
    obtain ⟨⟨zs, worker₂⟩, hmine, h⟩ := Loops.bind_eq_ok.mp h
    cases h
    have hok := batch_ok hbatch
    obtain ⟨hys, hhashed⟩ := batch_classicNonces hbatch
    obtain ⟨hzs, hhashed'⟩ := ih hmine
    refine ⟨?_, fun x hx => (List.mem_append.mp hx).elim (hhashed x) (hhashed' x)⟩
    rw [classicNonces_append, hys, hzs, hok.nonceStep, hok.nonce, classicTurns_cons, Nat.mul_add]
    by_cases hblob : turn.job.blob = []
    · rw [if_pos hblob, if_pos hblob, if_pos hblob, Nat.mul_one, Progression.map_term_add]
    · rw [if_neg hblob, if_neg hblob, if_neg hblob, Nat.mul_zero, Nat.zero_add]
      rfl

/-- A run on jobs that a worker can take does not end before its last batch. -/
theorem exists_mine {turns : List Turn} (h : ∀ turn ∈ turns, Minable turn.job) (worker : Worker) :
    ∃ result, mine worker turns = .ok result := by
  induction turns generalizing worker with
  | nil => exact ⟨_, rfl⟩
  | cons turn turns ih =>
    obtain ⟨xs, worker₁, hbatch, -⟩ := batch_eq worker (h turn List.mem_cons_self) turn.threshold
      turn.stack
    obtain ⟨⟨ys, worker₂⟩, hmine⟩ := ih (fun t ht => h t (List.mem_cons_of_mem _ ht)) worker₁
    exact ⟨_, by rw [mine, hbatch, Loops.ok_bind]; simp only [hmine, Loops.ok_bind]; rfl⟩

/-- How many nonces a worker hashes before one comes again. -/
def period (N : ℕ) : ℕ := 2 ^ 32 / Nat.gcd N (2 ^ 32)

/-- Worker `i` of `N` hashes `i * 2 ^ 24 + k * N` as its nonce `k` on classic jobs, whatever
jobs come and go; in one period it hashes every number of its residue class once; and each
share carries the nonce that was hashed. -/
theorem classic_nonces (algorithm : HashAlgorithm) (i N : ℕ) (hN : 1 ≤ N) (turns : List Turn) :
    ((∀ turn ∈ turns, Minable turn.job) →
      ∃ result, mine (Worker.start algorithm i N) turns = .ok result) ∧
    ∀ xs worker', mine (Worker.start algorithm i N) turns = .ok (xs, worker') →
      (classicNonces xs).length = kBatchSize * classicTurns turns ∧
      (∀ k nonce, (classicNonces xs)[k]? = some nonce →
        nonce.toNat = (i * 2 ^ 24 + k * N) % 2 ^ 32) ∧
      ((classicNonces xs).take (period N)).Nodup ∧
      (period N ≤ (classicNonces xs).length → ∀ nonce : UInt32,
        nonce ∈ (classicNonces xs).take (period N) ↔
          nonce.toNat ≡ i * 2 ^ 24 [MOD Nat.gcd N (2 ^ 32)]) ∧
      ∀ x ∈ xs, x.classic = true → HashedAndSubmitted x := by
  refine ⟨fun h => exists_mine h _, fun xs worker' hmine => ?_⟩
  obtain ⟨hnonces, hhashed⟩ := mine_classic hmine
  -- the nonces are a progression in 32 bits: where it starts, how it goes on, and its gcd
  have hstep : (Worker.start algorithm i N).nonceStep.toNat = N % 2 ^ 32 := by
    rw [Worker.start, UInt32.toNat_ofNat', Nat.max_eq_right hN]
  have hstart : (Worker.start algorithm i N).nonce.toNat = i * 2 ^ 24 % 2 ^ 32 := by
    rw [Worker.start, UInt32.toNat_mul, UInt32.toNat_ofNat', Nat.mod_mul_mod]
    rfl
  have hgcd : Nat.gcd (Worker.start algorithm i N).nonceStep.toNat (2 ^ 32) =
      Nat.gcd N (2 ^ 32) := by
    rw [hstep, ← Nat.gcd_rec, Nat.gcd_comm]
  have hclass : ∀ n : ℕ, n ≡ (Worker.start algorithm i N).nonce.toNat [MOD Nat.gcd N (2 ^ 32)] ↔
      n ≡ i * 2 ^ 24 [MOD Nat.gcd N (2 ^ 32)] := by
    intro n
    have hmod := (Nat.mod_modEq (i * 2 ^ 24) (2 ^ 32)).of_dvd (Nat.gcd_dvd_right N (2 ^ 32))
    rw [hstart]
    exact ⟨fun h => h.trans hmod, fun h => h.trans hmod.symm⟩
  generalize (Worker.start algorithm i N).nonce = a at *
  generalize (Worker.start algorithm i N).nonceStep = s at *
  refine ⟨?_, fun k nonce hk => ?_, ?_, fun hlong nonce => ?_, hhashed⟩
  · rw [hnonces, List.length_map, List.length_range]
  · rw [hnonces, List.getElem?_map, Option.map_eq_some_iff] at hk
    obtain ⟨k', hk', rfl⟩ := hk
    obtain ⟨hlt, rfl⟩ := List.getElem?_eq_some_iff.mp hk'
    rw [List.getElem_range, Progression.toNat_term, hstart, hstep]
    simp [Nat.add_mod, Nat.mul_mod]
  · rw [hnonces, ← List.map_take, List.take_range]
    exact Progression.nodup_map_term (by rw [hgcd]; exact Nat.min_le_left _ _)
  · rw [hnonces, List.length_map, List.length_range] at hlong
    rw [hnonces, ← List.map_take, List.take_range, Nat.min_eq_left hlong, ← hclass, ← hgcd,
      ← Progression.exists_term_iff, List.mem_map, hgcd]
    simp only [List.mem_range, period]

theorem classic_nonces_two_jobs :
    let turn (jobId : Bytes) : Turn := ⟨{ jobId := jobId }, 1000, fun _ _ => Vector.replicate 25 0⟩
    ∃ xs worker', mine (Worker.start (.sha256d {}) 3 8) [turn (bytes "a"), turn (bytes "b")] =
        .ok (xs, worker') ∧
      (classicNonces xs).length = 4096 ∧ ((classicNonces xs).take (period 8)).Nodup := by
  intro turn
  obtain ⟨hruns, hnonces⟩ := classic_nonces (.sha256d {}) 3 8 (by decide)
    [turn (bytes "a"), turn (bytes "b")]
  obtain ⟨⟨xs, worker'⟩, hmine⟩ := hruns (by
    intro t ht
    simp only [List.mem_cons, List.not_mem_nil, or_false] at ht
    rcases ht with rfl | rfl <;> exact .inl rfl)
  obtain ⟨hlen, -, hnodup, -⟩ := hnonces xs worker' hmine
  exact ⟨xs, worker', hmine, hlen, hnodup⟩

end CppMiner.Miner
