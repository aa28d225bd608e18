-- SUMMARY: Which part of the 32-bit nonces the workers ever try, on classic jobs and on a blob.
import Mathlib.Algebra.Order.BigOperators.Group.Finset
import Mathlib.Data.Finset.Union
import CppMiner.Miner.BlobDivision
import CppMiner.Miner.ClassicNonces

/-!
# Coverage

The start of a worker, a multiple of `2 ^ 24`, is meant to give each a part of the nonces to
itself. On classic jobs it does not: the steps lead every worker through the multiples of
`gcd N (2 ^ 32)`, in the long run the same for all (`classic_coverage`). On a blob it
does for up to 256 workers, and since no batch goes further than the first, the nonces
that are ever tried are as many as in one batch of each (`blob_coverage`).
-/

namespace CppMiner.Miner

open Hash (HashAlgorithm)
open Hash.Cryptonight (Stack)
open Progression (term)

variable {job : MiningJob} {worker worker' : Worker} {xs : List Attempt}

/-! ## Classic jobs -/

/-- All nonces of a worker are multiples of what divides its start and its step. -/
theorem dvd_term_start (algorithm : HashAlgorithm) (i : ℕ) {N : ℕ} (hN : 1 ≤ N)
    (hstart : Nat.gcd N (2 ^ 32) ∣ 2 ^ 24) (k : ℕ) :
    Nat.gcd N (2 ^ 32) ∣
      (term (Worker.start algorithm i N).nonce (Worker.start algorithm i N).nonceStep k).toNat := by
  rw [toNat_term_start algorithm i hN, Nat.dvd_mod_iff (Nat.gcd_dvd_right N (2 ^ 32))]
  exact dvd_add (hstart.mul_left i) ((Nat.gcd_dvd_left N (2 ^ 32)).mul_left k)

theorem gcd_step (algorithm : HashAlgorithm) (i : ℕ) {N : ℕ} (hN : 1 ≤ N) :
    Nat.gcd (Worker.start algorithm i N).nonceStep.toNat (2 ^ 32) = Nat.gcd N (2 ^ 32) := by
  rw [toNat_step algorithm i hN, ← Nat.gcd_rec, Nat.gcd_comm]

/-- A worker that has hashed as many nonces on classic jobs as its progression has has
hashed the multiples of the gcd, whichever worker it is. -/
theorem classic_coverage (algorithm : HashAlgorithm) (i : ℕ) {N : ℕ} (hN : 1 ≤ N)
    (hstart : Nat.gcd N (2 ^ 32) ∣ 2 ^ 24) {turns : List Turn}
    (hmine : mine (Worker.start algorithm i N) turns = .ok (xs, worker'))
    (hlong : period N ≤ kBatchSize * classicTurns turns) (nonce : UInt32) :
    nonce ∈ classicNonces xs ↔ Nat.gcd N (2 ^ 32) ∣ nonce.toNat := by
  rw [(mine_classic hmine).1, List.mem_map]
  constructor
  · rintro ⟨k, -, rfl⟩
    exact dvd_term_start algorithm i hN hstart k
  · intro hdvd
    have hfirst := dvd_term_start algorithm i hN hstart 0
    rw [Progression.term_zero] at hfirst
    have hclass : nonce.toNat ≡ (Worker.start algorithm i N).nonce.toNat
        [MOD Nat.gcd (Worker.start algorithm i N).nonceStep.toNat (2 ^ 32)] := by
      rw [gcd_step algorithm i hN]
      exact hdvd.modEq_zero_nat.trans hfirst.modEq_zero_nat.symm
    obtain ⟨k, hk, hterm⟩ := (Progression.exists_term_iff _ _ nonce).mpr hclass
    rw [gcd_step algorithm i hN] at hk
    exact ⟨k, List.mem_range.mpr (hk.trans_le hlong), hterm⟩

/-- So many workers that one batch is a period. -/
theorem classic_coverage_one_batch :
    let turn : Turn := ⟨{ jobId := bytes "a" }, 1000, fun _ _ => Vector.replicate 25 0⟩
    ∃ xs worker', mine (Worker.start (.sha256d {}) 3 (2 ^ 21)) [turn] = .ok (xs, worker') ∧
      (0 : UInt32) ∈ classicNonces xs ∧ (1 : UInt32) ∉ classicNonces xs := by
  intro turn
  have hminable : ∀ t ∈ [turn], Minable t.job := fun t ht =>
    .inl (by rw [List.mem_singleton.mp ht])
  obtain ⟨⟨xs, worker'⟩, hmine⟩ :=
    exists_mine hminable (Worker.start (.sha256d {}) 3 (2 ^ 21))
  have hgcd : Nat.gcd (2 ^ 21) (2 ^ 32) = 2 ^ 21 := by decide
  have hcover := classic_coverage (.sha256d {}) 3 (N := 2 ^ 21) (by norm_num)
    (by rw [hgcd]; norm_num) hmine (by rw [period, hgcd]; simp [turn, classicTurns, kBatchSize])
  refine ⟨xs, worker', hmine, (hcover 0).mpr (by simp), fun hmem => ?_⟩
  have hone := (hcover 1).mp hmem
  rw [hgcd] at hone
  exact absurd hone (by decide)

/-! ## Blobs -/

/-- The nonces that the workers below `N` have tried. -/
def triedBy (N : ℕ) (attempts : ℕ → List Attempt) : Finset UInt32 :=
  (Finset.range N).biUnion fun i => ((attempts i).map (·.plan.nonce)).toFinset

/-- A worker that comes to a blob after `c` classic batches, and what it tries there. -/
def MinesBlob (N c : ℕ) (job : MiningJob) (i : ℕ) (xs : List Attempt) : Prop :=
  ∃ (algorithm : HashAlgorithm) (turns : List Turn) (before : List Attempt) (worker : Worker)
    (runs : List (UInt64 × (ℕ → Stack))) (last : Worker),
    mine (Worker.start algorithm i N) turns = .ok (before, worker) ∧ classicTurns turns = c ∧
      runs ≠ [] ∧ batches worker job runs = .ok (xs, last)

/-- The nonces of a worker on a blob, counted from its start. -/
theorem MinesBlob.mem_iff {N c i : ℕ} (h : MinesBlob N c job i xs) (hblob : 4 ≤ job.blob.length) :
    ∃ algorithm, ∀ n, n ∈ xs.map (·.plan.nonce) ↔ ∃ a < kBatchSize,
      term (Worker.start algorithm i N).nonce (Worker.start algorithm i N).nonceStep
        (kBatchSize * c + a) = n := by
  obtain ⟨algorithm, turns, before, worker, runs, last, hturns, rfl, hne, hruns⟩ := h
  obtain ⟨-, hstep, hnonce⟩ := mine_ok hturns
  have hnil : job.blob ≠ [] := by
    rintro hnil
    simp [hnil] at hblob
  refine ⟨algorithm, fun n => ?_⟩
  rw [mem_batches hnil hruns]
  simp only [hnonce, hstep, Progression.term_term, hne, hblob, ne_eq, not_false_eq_true, true_and]

/-- The nonces of a worker on a blob are those of one batch. -/
theorem MinesBlob.toFinset_eq {N c i : ℕ} (h : MinesBlob N c job i xs)
    (hblob : 4 ≤ job.blob.length) :
    ∃ algorithm, (xs.map (·.plan.nonce)).toFinset = (Finset.range kBatchSize).image
      (term (term (Worker.start algorithm i N).nonce (Worker.start algorithm i N).nonceStep
        (kBatchSize * c)) (Worker.start algorithm i N).nonceStep) := by
  obtain ⟨algorithm, hmem⟩ := h.mem_iff hblob
  refine ⟨algorithm, Finset.ext fun n => ?_⟩
  simp only [List.mem_toFinset, hmem, Finset.mem_image, Finset.mem_range, Progression.term_term]

theorem MinesBlob.card_le {N c i : ℕ} (h : MinesBlob N c job i xs) (hblob : 4 ≤ job.blob.length) :
    ((xs.map (·.plan.nonce)).toFinset).card ≤ kBatchSize := by
  obtain ⟨algorithm, himage⟩ := h.toFinset_eq hblob
  rw [himage]
  exact Finset.card_image_le.trans (Finset.card_range _).le

theorem MinesBlob.card_eq {N c i : ℕ} (h : MinesBlob N c job i xs) (hblob : 4 ≤ job.blob.length)
    (hN : 1 ≤ N) (hmany : N ≤ 256) : ((xs.map (·.plan.nonce)).toFinset).card = kBatchSize := by
  obtain ⟨algorithm, himage⟩ := h.toFinset_eq hblob
  have hgcd : Nat.gcd (Worker.start algorithm i N).nonceStep.toNat (2 ^ 32) ≤ 256 := by
    rw [gcd_step algorithm i hN]
    exact (Nat.le_of_dvd (by omega) (Nat.gcd_dvd_left N (2 ^ 32))).trans hmany
  have hpos : 0 < Nat.gcd (Worker.start algorithm i N).nonceStep.toNat (2 ^ 32) :=
    Nat.gcd_pos_of_pos_right _ (by norm_num)
  have hperiod : kBatchSize ≤
      2 ^ 32 / Nat.gcd (Worker.start algorithm i N).nonceStep.toNat (2 ^ 32) := by
    rw [Nat.le_div_iff_mul_le hpos]
    exact (Nat.mul_le_mul_left _ hgcd).trans (by decide)
  rw [himage, Finset.card_image_of_injOn, Finset.card_range]
  intro a ha b hb heq
  have ha := Finset.mem_range.mp (Finset.mem_coe.mp ha)
  have hb := Finset.mem_range.mp (Finset.mem_coe.mp hb)
  exact Progression.term_inj (ha.trans_le hperiod) (hb.trans_le hperiod) heq

/-- Two workers that come to a blob after equally many classic batches meet nowhere. -/
theorem disjoint_of_minesBlob {N c i j : ℕ} (hN : 1 ≤ N) (hmany : N ≤ 256) (hi : i < N)
    (hj : j < N) (hij : i ≠ j) {xs' : List Attempt} (h : MinesBlob N c job i xs)
    (h' : MinesBlob N c job j xs') (hblob : 4 ≤ job.blob.length) :
    Disjoint (xs.map (·.plan.nonce)).toFinset (xs'.map (·.plan.nonce)).toFinset := by
  obtain ⟨algorithm, hmem⟩ := h.mem_iff hblob
  obtain ⟨algorithm', hmem'⟩ := h'.mem_iff hblob
  have hapart := (apart_iff N i c j c).mp ((apart_all_iff N c).mpr hmany i hi j hj hij)
  rw [Finset.disjoint_left]
  intro n hn hn'
  rw [List.mem_toFinset] at hn hn'
  obtain ⟨a, ha, rfl⟩ := (hmem n).mp hn
  obtain ⟨b, hb, heq⟩ := (hmem' _).mp hn'
  exact hapart a ha b hb ((term_eq_iff algorithm algorithm' i j hN _ _).mp heq.symm)

/-- However many batches the workers make on a blob, they try no more than `kBatchSize`
nonces each; up to 256 workers that come to it after equally many classic batches try
exactly so many, none of them twice. -/
theorem blob_coverage {N : ℕ} (hN : 1 ≤ N) (hblob : 4 ≤ job.blob.length)
    {c : ℕ → ℕ} {attempts : ℕ → List Attempt}
    (h : ∀ i < N, MinesBlob N (c i) job i (attempts i)) :
    (triedBy N attempts).card ≤ N * kBatchSize ∧
      (N ≤ 256 → (∀ i < N, c i = c 0) → (triedBy N attempts).card = N * kBatchSize) := by
  constructor
  · have hcard := Finset.card_biUnion_le_card_mul (Finset.range N)
      (fun i => ((attempts i).map (·.plan.nonce)).toFinset) kBatchSize
      fun i hi => (h i (Finset.mem_range.mp hi)).card_le hblob
    rwa [Finset.card_range] at hcard
  · intro hmany hc
    have hsame : ∀ i < N, MinesBlob N (c 0) job i (attempts i) := fun i hi => hc i hi ▸ h i hi
    have hdisjoint : ∀ i ∈ Finset.range N, ∀ j ∈ Finset.range N, i ≠ j →
        Disjoint ((attempts i).map (·.plan.nonce)).toFinset
          ((attempts j).map (·.plan.nonce)).toFinset := fun i hi j hj hij =>
      disjoint_of_minesBlob hN hmany (Finset.mem_range.mp hi) (Finset.mem_range.mp hj) hij
        (hsame i (Finset.mem_range.mp hi)) (hsame j (Finset.mem_range.mp hj)) hblob
    rw [triedBy, Finset.card_biUnion hdisjoint]
    calc ∑ i ∈ Finset.range N, (((attempts i).map (·.plan.nonce)).toFinset).card
        = ∑ _i ∈ Finset.range N, kBatchSize := Finset.sum_congr rfl fun i hi =>
          (hsame i (Finset.mem_range.mp hi)).card_eq hblob hN hmany
      _ = N * kBatchSize := by simp

theorem blob_coverage_two_workers :
    let runs : List (UInt64 × (ℕ → Stack)) := List.replicate 3 (1, fun _ _ => Vector.replicate 25 0)
    ∃ attempts, (∀ i < 2, ∃ last,
        batches (Worker.start (.sha256d {}) i 2) (zeroBlobJob 16) runs = .ok (attempts i, last)) ∧
      (triedBy 2 attempts).card = 4096 := by
  intro runs
  have hruns := fun i => batches_nonces (hexBlob_zeroBlobJob (le_refl 16)) runs
    (Worker.start (.sha256d {}) i 2)
  choose attempts last hbatches using hruns
  refine ⟨attempts, fun i _ => ⟨last i, (hbatches i).1⟩, ?_⟩
  have hmines : ∀ i < 2, MinesBlob 2 0 (zeroBlobJob 16) i (attempts i) := fun i _ =>
    ⟨.sha256d {}, [], [], _, runs, last i, rfl, rfl, by simp [runs], (hbatches i).1⟩
  exact (blob_coverage (c := fun _ => 0) (by norm_num) (by decide) hmines).2 (by norm_num)
    fun _ _ => rfl

end CppMiner.Miner
