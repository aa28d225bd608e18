-- SUMMARY: How the nonces of a blob are divided between the workers, and when two workers try none in common.
import Mathlib.Algebra.Order.Group.Unbundled.Int
import CppMiner.Miner.Batches

/-!
# Division of the nonces of a blob

Worker `i` of `N` starts at `i * 2 ^ 24` and steps by `N`, both modulo `2 ^ 32`. A classic
batch moves its start on, a blob batch does not. Whether two workers have a nonce in
common on a blob is therefore decided by their indices, the number of workers and the
classic batches before (`disjoint_iff`): workers that have run equally many are all
apart if and only if there are at most 256 (`apart_all_iff`).
-/

namespace CppMiner.Miner

open Hash (HashAlgorithm)
open Hash.Cryptonight (Stack)
open Progression (term)

variable {job : MiningJob} {worker worker' : Worker} {xs : List Attempt}

/-- Every batch on a blob that runs through tries the same nonces. -/
theorem batches_ok (hblob : job.blob ≠ []) {runs : List (UInt64 × (ℕ → Stack))}
    (h : batches worker job runs = .ok (xs, worker')) :
    xs.map (·.plan.nonce) = (List.replicate runs.length (triedNonces worker job)).flatten := by
  induction runs generalizing worker xs with
  | nil =>
    cases h
    rfl
  | cons run runs ih =>
    obtain ⟨threshold, stack⟩ := run
    rw [batches] at h
    obtain ⟨⟨ys, worker₁⟩, hbatch, h⟩ := Loops.bind_eq_ok.mp h
    obtain ⟨⟨zs, worker₂⟩, hrest, h⟩ := Loops.bind_eq_ok.mp h
    cases h
    have hok := batch_ok hbatch
    have hsame : triedNonces worker₁ job = triedNonces worker job := by
      rw [triedNonces, triedNonces, batchNonces, batchNonces, hok.nonce, hok.nonceStep,
        if_neg hblob]
    rw [List.map_append, nonces_of_tried hok.attempts, ih hrest, hsame, List.length_cons,
      List.replicate_succ, List.flatten_cons]

theorem mem_batches (hblob : job.blob ≠ []) {runs : List (UInt64 × (ℕ → Stack))}
    (h : batches worker job runs = .ok (xs, worker')) (n : UInt32) :
    n ∈ xs.map (·.plan.nonce) ↔
      runs ≠ [] ∧ 4 ≤ job.blob.length ∧
        ∃ a < kBatchSize, term worker.nonce worker.nonceStep a = n := by
  rw [batches_ok hblob h, List.mem_flatten]
  have htried : n ∈ triedNonces worker job ↔
      4 ≤ job.blob.length ∧ ∃ a < kBatchSize, term worker.nonce worker.nonceStep a = n := by
    unfold triedNonces
    split
    · rename_i hand
      simp [hand.2]
    · rename_i hand
      have hlong : 4 ≤ job.blob.length := by
        by_contra hshort
        exact hand ⟨hblob, by omega⟩
      simp [batchNonces, hlong]
  rw [← htried]
  constructor
  · rintro ⟨l, hl, hn⟩
    obtain ⟨hlen, rfl⟩ := List.mem_replicate.mp hl
    exact ⟨by simpa using hlen, hn⟩
  · rintro ⟨hruns, hn⟩
    exact ⟨_, List.mem_replicate.mpr ⟨by simpa using hruns, rfl⟩, hn⟩

/-! ## When two workers meet -/

/-- Workers `i` and `j` of `N`, after `c` and `c'` classic batches, have no nonce in
common on a blob: no difference of two positions in a batch makes up for the distance
of their starts. -/
def Apart (N i c j c' : ℕ) : Prop :=
  ∀ d : ℤ, |d| < kBatchSize →
    ¬ (2 ^ 32 : ℤ) ∣ (i - j) * 2 ^ 24 + (kBatchSize * (c - c') + d) * N

theorem toNat_start (algorithm : HashAlgorithm) (i N : ℕ) :
    (Worker.start algorithm i N).nonce.toNat = i * 2 ^ 24 % 2 ^ 32 := by
  simp only [Worker.start, UInt32.toNat_mul, UInt32.toNat_ofNat']
  rw [Nat.mod_mul_mod]
  rfl

theorem toNat_step (algorithm : HashAlgorithm) (i : ℕ) {N : ℕ} (hN : 1 ≤ N) :
    (Worker.start algorithm i N).nonceStep.toNat = N % 2 ^ 32 := by
  simp only [Worker.start, UInt32.toNat_ofNat', Nat.max_eq_right hN]

/-- A nonce of a worker, counted from its start. -/
theorem toNat_term_start (algorithm : HashAlgorithm) (i : ℕ) {N : ℕ} (hN : 1 ≤ N) (k : ℕ) :
    (term (Worker.start algorithm i N).nonce (Worker.start algorithm i N).nonceStep k).toNat =
      (i * 2 ^ 24 + k * N) % 2 ^ 32 := by
  rw [Progression.toNat_term, toNat_start, toNat_step algorithm i hN, Nat.mod_add_mod,
    Nat.add_mod, Nat.mul_mod_mod, ← Nat.add_mod]

theorem term_eq_iff (algorithm algorithm' : HashAlgorithm) (i j : ℕ) {N : ℕ} (hN : 1 ≤ N)
    (k l : ℕ) :
    term (Worker.start algorithm i N).nonce (Worker.start algorithm i N).nonceStep k =
        term (Worker.start algorithm' j N).nonce (Worker.start algorithm' j N).nonceStep l ↔
      (2 ^ 32 : ℤ) ∣ (i - j) * 2 ^ 24 + (k - l) * N := by
  rw [← UInt32.toNat_inj, toNat_term_start algorithm i hN, toNat_term_start algorithm' j hN]
  change _ ≡ _ [MOD 2 ^ 32] ↔ _
  rw [Nat.modEq_iff_dvd, ← dvd_neg]
  push_cast
  ring_nf

/-- The positions in a batch that two workers can be at differ by less than a batch. -/
theorem apart_iff (N i c j c' : ℕ) :
    Apart N i c j c' ↔ ∀ a < kBatchSize, ∀ b < kBatchSize,
      ¬ (2 ^ 32 : ℤ) ∣ (i - j) * 2 ^ 24 +
        (((kBatchSize * c + a : ℕ) : ℤ) - ((kBatchSize * c' + b : ℕ) : ℤ)) * N := by
  have harith : ∀ a b : ℕ, (i - j : ℤ) * 2 ^ 24 + (kBatchSize * (c - c') + ((a : ℤ) - b)) * N =
      (i - j) * 2 ^ 24 +
        (((kBatchSize * c + a : ℕ) : ℤ) - ((kBatchSize * c' + b : ℕ) : ℤ)) * N := by
    intro a b
    push_cast
    ring
  constructor
  · intro h a ha b hb
    rw [← harith]
    exact h _ (by rw [abs_lt]; omega)
  · intro h d hd
    rw [abs_lt] at hd
    have hsplit : ∃ a b : ℕ, a < kBatchSize ∧ b < kBatchSize ∧ (a : ℤ) - b = d :=
      ⟨d.toNat, (-d).toNat, by omega, by omega, by omega⟩
    obtain ⟨a, b, ha, hb, rfl⟩ := hsplit
    rw [harith]
    exact h a ha b hb

/-- Two of `N` workers, whatever they have mined before, try no nonce in common on a blob
if and only if the blob is too short to be mined, or one of them does not come to it, or
they are apart. -/
theorem disjoint_iff {N : ℕ} (hN : 1 ≤ N) (i j : ℕ) {algorithm algorithm' : HashAlgorithm}
    {turns turns' : List Turn} {before before' xs xs' : List Attempt}
    {worker worker' last last' : Worker}
    (hturns : mine (Worker.start algorithm i N) turns = .ok (before, worker))
    (hturns' : mine (Worker.start algorithm' j N) turns' = .ok (before', worker'))
    (hblob : job.blob ≠ []) {runs runs' : List (UInt64 × (ℕ → Stack))}
    (hruns : batches worker job runs = .ok (xs, last))
    (hruns' : batches worker' job runs' = .ok (xs', last')) :
    (xs.map (·.plan.nonce)).Disjoint (xs'.map (·.plan.nonce)) ↔
      job.blob.length < 4 ∨ runs = [] ∨ runs' = [] ∨
        Apart N i (classicTurns turns) j (classicTurns turns') := by
  obtain ⟨-, hstep, hnonce⟩ := mine_ok hturns
  obtain ⟨-, hstep', hnonce'⟩ := mine_ok hturns'
  -- A nonce in common is a pair of positions.
  have hmeet : ∀ a b, term worker.nonce worker.nonceStep a =
      term worker'.nonce worker'.nonceStep b ↔
      (2 ^ 32 : ℤ) ∣ (i - j) * 2 ^ 24 +
        (((kBatchSize * classicTurns turns + a : ℕ) : ℤ) -
          ((kBatchSize * classicTurns turns' + b : ℕ) : ℤ)) * N := by
    intro a b
    rw [hnonce, hnonce', hstep, hstep', Progression.term_term, Progression.term_term,
      term_eq_iff algorithm algorithm' i j hN]
  constructor
  · intro hdisjoint
    by_contra hnot
    simp only [not_or] at hnot
    obtain ⟨hlong, hne, hne', hapart⟩ := hnot
    rw [apart_iff] at hapart
    push Not at hapart
    obtain ⟨a, ha, b, hb, hdvd⟩ := hapart
    refine hdisjoint ((mem_batches hblob hruns _).mpr ⟨hne, by omega, a, ha, rfl⟩) ?_
    exact (mem_batches hblob hruns' _).mpr ⟨hne', by omega, b, hb, ((hmeet a b).mpr hdvd).symm⟩
  · intro hapart n hn hn'
    obtain ⟨hne, hlong, a, ha, rfl⟩ := (mem_batches hblob hruns n).mp hn
    obtain ⟨hne', -, b, hb, hb'⟩ := (mem_batches hblob hruns' _).mp hn'
    rcases hapart with hshort | hnil | hnil' | hapart
    · omega
    · exact hne hnil
    · exact hne' hnil'
    · exact (apart_iff N i _ j _).mp hapart a ha b hb ((hmeet a b).mp hb'.symm)

/-- Workers that have run equally many classic batches are all apart if and only if there
are at most 256 of them. -/
theorem apart_all_iff (N c : ℕ) :
    (∀ i < N, ∀ j < N, i ≠ j → Apart N i c j c) ↔ N ≤ 256 := by
  constructor
  · intro h
    by_contra hmany
    refine h 0 (by omega) 256 (by omega) (by decide) 0 (by simp [kBatchSize]) ?_
    simp
  · intro hN i hi j hj hij d hd hdvd
    -- Within a batch the positions differ by less than the distance of two starts.
    have hprod : |d * N| < 2 ^ 24 := by
      have hd' : |d| ≤ 2047 := Int.le_of_lt_add_one hd
      calc |d * N| = |d| * N := by rw [abs_mul, Nat.abs_cast]
        _ ≤ 2047 * 256 := by gcongr; exact_mod_cast hN
        _ < 2 ^ 24 := by norm_num
    obtain ⟨q, hq⟩ := hdvd
    rw [sub_self, mul_zero, zero_add] at hq
    rw [abs_lt] at hprod
    generalize d * (N : ℤ) = p at hq hprod
    omega

/-- Two workers try no nonce in common, and write no blob in common. -/
theorem disjoint_iff_two_workers :
    let a : HashAlgorithm := .sha256d {}
    let run : UInt64 × (ℕ → Stack) := (1, fun _ _ => Vector.replicate 25 0)
    ∃ xs last xs' last',
      batches (Worker.start a 0 2) (zeroBlobJob 16) [run] = .ok (xs, last) ∧
      batches (Worker.start a 1 2) (zeroBlobJob 16) [run, run] = .ok (xs', last') ∧
      (xs.map (·.plan.nonce)).Disjoint (xs'.map (·.plan.nonce)) ∧
      (xs.map (·.plan.share)).Disjoint (xs'.map (·.plan.share)) := by
  intro a run
  have hblob := hexBlob_zeroBlobJob (le_refl 16)
  obtain ⟨xs, last, hruns, -⟩ := batches_nonces hblob [run] (Worker.start a 0 2)
  obtain ⟨xs', last', hruns', -⟩ := batches_nonces hblob [run, run] (Worker.start a 1 2)
  have hapart : Apart 2 0 0 1 0 := (apart_all_iff 2 0).mpr (by norm_num) 0 (by norm_num) 1
    (by norm_num) (by norm_num)
  have hstart : ∀ i, mine (Worker.start a i 2) [] = .ok ([], Worker.start a i 2) := fun _ => rfl
  have hnonces := (disjoint_iff (by norm_num) 0 1 (hstart 0) (hstart 1) hblob.ne_nil hruns
    hruns').mpr (.inr (.inr (.inr hapart)))
  exact ⟨xs, last, xs', last', hruns, hruns', hnonces,
    (shares_disjoint_iff hblob hruns hruns').mpr hnonces⟩

/-- Of 257 workers the last starts where the first does. -/
theorem worker_256_starts_at_zero :
    ¬ ∀ (N i j : ℕ), i < N → j < N → i ≠ j → ∀ (algorithm algorithm' : HashAlgorithm)
        (job : MiningJob), HexBlob job.blob → ∀ (runs runs' : List (UInt64 × (ℕ → Stack)))
        (xs xs' : List Attempt) (last last' : Worker),
      batches (Worker.start algorithm i N) job runs = .ok (xs, last) →
      batches (Worker.start algorithm' j N) job runs' = .ok (xs', last') →
      (xs.map (·.plan.nonce)).Disjoint (xs'.map (·.plan.nonce)) := by
  intro h
  let a : HashAlgorithm := .sha256d {}
  let run : UInt64 × (ℕ → Stack) := (1, fun _ _ => Vector.replicate 25 0)
  have hblob := hexBlob_zeroBlobJob (le_refl 16)
  obtain ⟨xs, last, hruns, hnonces⟩ := batches_nonces hblob [run] (Worker.start a 0 257)
  obtain ⟨xs', last', hruns', hnonces'⟩ := batches_nonces hblob [run] (Worker.start a 256 257)
  have hdisjoint := h 257 0 256 (by norm_num) (by norm_num) (by norm_num) a a (zeroBlobJob 16) hblob
    [run] [run] xs xs' last last' hruns hruns'
  have hsame : batchNonces (Worker.start a 256 257) = batchNonces (Worker.start a 0 257) := rfl
  rw [hnonces, hnonces', hsame] at hdisjoint
  obtain ⟨n, hn⟩ := List.exists_mem_of_ne_nil _ (batchNonces_ne_nil (Worker.start a 0 257))
  exact hdisjoint (a := n) (by simpa using hn) (by simpa using hn)

end CppMiner.Miner
