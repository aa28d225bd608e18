-- SUMMARY: Whether two workers can hash the same message of a classic job, and what decides it.
import Mathlib.Data.Set.Function
import CppMiner.Miner.Worker

/-!
# Division of classic jobs

The workers of a classic job start at different nonces but are not kept apart by them:
what divides the work is the index of the worker in extranonce2, in the middle of the
header. The header is cut to 200 characters, and the cut can take extranonce2 away. The
messages of all workers are distinct if and only if the first 200 characters tell any
two headers apart (`hashedMessage_injOn_iff`), which for numerals of one width is a
matter of lengths.
-/

namespace CppMiner.Miner

open Hash (Kind nonceBytes)

/-- The extranonce2 of worker `i`. -/
def workerExtranonce2 (job : MiningJob) (i : ℕ) : Bytes :=
  toHex (UInt32.ofNat i) (extranonce2Width job)

/-- What worker `i` gives to SHA-256 for a nonce. -/
def hashedMessage (job : MiningJob) (i : ℕ) (nonce : UInt32) : Option Bytes :=
  Kind.sha256d.absorbed (header job (workerExtranonce2 job i)) nonce

/-- What worker `i` submits for a nonce, besides the fields of the job. -/
def submittedPair (job : MiningJob) (i : ℕ) (nonce : UInt32) : Bytes × Bytes :=
  (workerExtranonce2 job i, toHex nonce 8)

variable {job : MiningJob}

/-- These are the message and the share of every iteration on a classic job. -/
theorem planOf_classic (worker : Worker) (hblob : job.blob = []) (k : ℕ) :
    let plan := planOf worker job k
    Kind.sha256d.absorbed plan.message plan.nonceArg =
        hashedMessage job worker.index plan.nonce ∧
      plan.share = .share job.jobId (submittedPair job worker.index plan.nonce).1 job.time
        (submittedPair job worker.index plan.nonce).2 := by
  simp only [planOf, if_pos hblob]
  exact ⟨rfl, rfl⟩

/-! ## The header -/

/-- The part of the header before extranonce2. -/
def beforeExtranonce2 (job : MiningJob) : Bytes := job.prevHash ++ job.coinbase1 ++ job.extranonce1

/-- The part of the header after extranonce2. -/
def afterExtranonce2 (job : MiningJob) : Bytes :=
  job.coinbase2 ++ job.version ++ job.bits ++ job.time

/-- How many characters from extranonce2 on are left of the header. -/
def room (job : MiningJob) : ℕ := 200 - (beforeExtranonce2 job).length

/-- The least width of an extranonce2. -/
def leastWidth (job : MiningJob) : ℕ := max 1 (extranonce2Width job).toNat

theorem header_eq (job : MiningJob) (e : Bytes) :
    header job e =
      (beforeExtranonce2 job).take 200 ++ (e ++ afterExtranonce2 job).take (room job) := by
  have hsplit : job.prevHash ++ job.coinbase1 ++ job.extranonce1 ++ e ++ job.coinbase2 ++
      job.version ++ job.bits ++ job.time =
        beforeExtranonce2 job ++ (e ++ afterExtranonce2 job) := by
    simp only [beforeExtranonce2, afterExtranonce2, List.append_assoc]
  simp only [header, hsplit, List.take_append, room]

theorem header_inj {e e' : Bytes} :
    header job e = header job e' ↔
      (e ++ afterExtranonce2 job).take (room job) =
        (e' ++ afterExtranonce2 job).take (room job) := by
  rw [header_eq, header_eq, List.append_cancel_left_eq]

theorem hashedMessage_eq (job : MiningJob) (i : ℕ) (nonce : UInt32) :
    hashedMessage job i nonce =
      some (header job (workerExtranonce2 job i) ++ nonceBytes nonce) := by
  have hlen : (header job (workerExtranonce2 job i)).length ≤ 200 := by
    rw [header, List.length_take]
    omega
  exact if_neg (by omega)

/-! ## Extranonce2 -/

theorem length_workerExtranonce2 (job : MiningJob) {i : ℕ} (hi : i < 2 ^ 32) :
    (workerExtranonce2 job i).length =
      max (extranonce2Width job).toNat (Radix.encode 16 i).length := by
  simp only [workerExtranonce2, toHex, Numerals.hexPadded, UInt32.toNat_ofNat_of_lt' hi,
    Radix.padLeft, List.length_append, List.length_replicate]
  omega

/-- The extranonce2 of a worker is its index, in the width that it has. -/
theorem workerExtranonce2_eq (job : MiningJob) {i : ℕ} (hi : i < 2 ^ 32) :
    workerExtranonce2 job i = Radix.fixed 16 (workerExtranonce2 job i).length i ∧
      i < 16 ^ (workerExtranonce2 job i).length := by
  rw [length_workerExtranonce2 job hi]
  constructor
  · have hfixed := Radix.padLeft_eq_fixed (b := 16) (by norm_num) (extranonce2Width job).toNat i
    rw [← hfixed]
    simp only [workerExtranonce2, toHex, Numerals.hexPadded, UInt32.toNat_ofNat_of_lt' hi]
    rfl
  · exact lt_of_lt_of_le (Radix.lt_pow_length_encode (by norm_num) i)
      (Nat.pow_le_pow_right (by norm_num) (le_max_right _ _))

/-- Small indices have numerals of the least width. -/
theorem length_workerExtranonce2_of_lt (job : MiningJob) {i : ℕ} (hi : i < 2 ^ 32)
    (hlt : i < 16 ^ leastWidth job) : (workerExtranonce2 job i).length = leastWidth job := by
  have hle := Radix.length_encode_le (b := 16) (by norm_num)
    (show 0 < leastWidth job by unfold leastWidth; omega) hlt
  have hpos : 0 < (Radix.encode 16 i).length :=
    List.length_pos_iff.mpr (Radix.encode_ne_nil (by norm_num) i)
  rw [length_workerExtranonce2 job hi]
  unfold leastWidth at hle ⊢
  omega

/-- What is left of two numerals of one width is the same if and only if the indices
agree in the digits that are left. -/
theorem take_workerExtranonce2 (job : MiningJob) {i j : ℕ} (hi : i < 2 ^ 32) (hj : j < 2 ^ 32)
    (hlen : (workerExtranonce2 job i).length = (workerExtranonce2 job j).length) (r : ℕ) :
    (workerExtranonce2 job i).take r = (workerExtranonce2 job j).take r ↔
      i / 16 ^ ((workerExtranonce2 job i).length - r) =
        j / 16 ^ ((workerExtranonce2 job i).length - r) := by
  obtain ⟨hi_eq, hi_lt⟩ := workerExtranonce2_eq job hi
  obtain ⟨hj_eq, hj_lt⟩ := workerExtranonce2_eq job hj
  rw [← hlen] at hj_eq hj_lt
  generalize (workerExtranonce2 job i).length = w at hi_eq hi_lt hj_eq hj_lt ⊢
  rw [hi_eq, hj_eq]
  have htake : ∀ n, (Radix.fixed 16 w n).take r =
      Radix.fixed 16 (min r w) (n / 16 ^ (w - r)) := by
    intro n
    have hmin : (Radix.fixed 16 w n).take r = (Radix.fixed 16 w n).take (min r w) := by
      rw [List.take_eq_take_min, Radix.length_fixed]
    rw [hmin, Radix.take_fixed 16 (min_le_right r w)]
    congr 3
    omega
  have hdiv : ∀ n < 16 ^ w, n / 16 ^ (w - r) < 16 ^ min r w := by
    intro n hn
    rw [Nat.div_lt_iff_lt_mul (by positivity), ← pow_add]
    rwa [show min r w + (w - r) = w by omega]
  rw [htake, htake]
  constructor
  · exact Radix.fixed_inj (by norm_num) (by norm_num) (hdiv i hi_lt) (hdiv j hj_lt)
  · intro heq
    rw [heq]

/-! ## When the messages are distinct -/

/-- The first 200 characters tell the headers of workers `i` and `j` apart: where the
indices have numerals of one width, they differ in a digit that is left; where they have
not, what follows extranonce2 takes part. -/
def ToldApart (job : MiningJob) (i j : ℕ) : Prop :=
  let e := workerExtranonce2 job i
  let e' := workerExtranonce2 job j
  if e.length = e'.length then
    i / 16 ^ (e.length - room job) ≠ j / 16 ^ (e.length - room job)
  else (e ++ afterExtranonce2 job).take (room job) ≠ (e' ++ afterExtranonce2 job).take (room job)

theorem toldApart_iff {i j : ℕ} (hi : i < 2 ^ 32) (hj : j < 2 ^ 32) :
    ToldApart job i j ↔
      header job (workerExtranonce2 job i) ≠ header job (workerExtranonce2 job j) := by
  rw [ne_eq, header_inj]
  simp only [ToldApart]
  split
  · rename_i hlen
    rw [ne_eq, ← take_workerExtranonce2 job hi hj hlen, List.take_append, List.take_append, hlen,
      List.append_cancel_right_eq]
  · rfl

theorem hashedMessage_inj {i j : ℕ} {n m : UInt32}
    (h : hashedMessage job i n = hashedMessage job j m) :
    header job (workerExtranonce2 job i) = header job (workerExtranonce2 job j) ∧ n = m := by
  rw [hashedMessage_eq, hashedMessage_eq, Option.some.injEq] at h
  obtain ⟨hheader, hnonce⟩ := List.append_inj' h rfl
  exact ⟨hheader, Hash.nonceBytes_inj hnonce⟩

/-- The share tells which message was hashed. -/
theorem hashedMessage_of_submittedPair {i j : ℕ} {n m : UInt32}
    (h : submittedPair job i n = submittedPair job j m) :
    hashedMessage job i n = hashedMessage job j m := by
  obtain ⟨he, hnonce⟩ := Prod.mk.inj h
  rw [toHex_eight, toHex_eight] at hnonce
  have hlt : ∀ n : UInt32, n.toNat < 16 ^ 8 := fun n => lt_of_lt_of_eq n.toNat_lt (by norm_num)
  have hnm := Radix.fixed_inj (by norm_num) (by norm_num) (hlt n) (hlt m) hnonce
  rw [hashedMessage, hashedMessage, he, UInt32.toNat_inj.mp hnm]

theorem toldApart_all_iff {N : ℕ} (hN : N ≤ 2 ^ 32) (hwidth : N ≤ 16 ^ leastWidth job) :
    (∀ i < N, ∀ j < i, ToldApart job i j) ↔
      N ≤ 1 ∨ (beforeExtranonce2 job).length + leastWidth job ≤ 200 := by
  have hpair : ∀ i < N, ∀ j < i, (ToldApart job i j ↔
      i / 16 ^ (leastWidth job - room job) ≠ j / 16 ^ (leastWidth job - room job)) := by
    intro i hi j hj
    have hlen := length_workerExtranonce2_of_lt job (by omega) (lt_of_lt_of_le hi hwidth)
    have hlen' := length_workerExtranonce2_of_lt job (by omega)
      (lt_of_lt_of_le (hj.trans hi) hwidth)
    simp only [ToldApart, hlen, hlen', if_true]
  have hpos : 1 ≤ leastWidth job := le_max_left _ _
  constructor
  · intro h
    by_contra hnot
    rw [not_or, not_le, not_le] at hnot
    obtain ⟨hN1, hlong⟩ := hnot
    have hdigits : ∀ i < N, ∀ j < i, i / 16 ^ (leastWidth job - room job) ≠
        j / 16 ^ (leastWidth job - room job) := fun i hi j hj => (hpair i hi j hj).mp (h i hi j hj)
    -- workers 0 and 1 differ in the last digit alone, and this one is cut
    have happart := hdigits 1 hN1 0 Nat.one_pos
    have hcut : leastWidth job - room job ≠ 0 := by
      unfold room
      omega
    rw [Nat.zero_div, Nat.div_eq_of_lt (Nat.one_lt_pow hcut (by norm_num))] at happart
    exact happart rfl
  · rintro (hN1 | hroom) i hi j hj
    · omega
    · rw [hpair i hi j hj, show leastWidth job - room job = 0 by unfold room; omega, pow_zero,
        Nat.div_one, Nat.div_one]
      omega

/-- The messages of the workers below a thread count are distinct if and only if the first
200 characters tell their headers apart. Where the indices have numerals of one width,
this is so if and only if extranonce2 is not cut. A share always tells the message. -/
theorem hashedMessage_injOn_iff (job : MiningJob) (threads : UInt32) :
    (Set.InjOn (fun p : ℕ × UInt32 => hashedMessage job p.1 p.2) {p | p.1 < threads.toNat} ↔
        ∀ i < threads.toNat, ∀ j < i, ToldApart job i j) ∧
      (threads.toNat ≤ 16 ^ leastWidth job →
        ((∀ i < threads.toNat, ∀ j < i, ToldApart job i j) ↔
          threads.toNat ≤ 1 ∨ (beforeExtranonce2 job).length + leastWidth job ≤ 200)) ∧
      ∀ i j n m, submittedPair job i n = submittedPair job j m →
        hashedMessage job i n = hashedMessage job j m := by
  have hthreads := threads.toNat_lt
  refine ⟨⟨?_, ?_⟩, toldApart_all_iff (by omega), fun i j n m => hashedMessage_of_submittedPair⟩
  · intro hinj i hi j hj
    rw [toldApart_iff (by omega) (by omega)]
    intro hheader
    have hsame : hashedMessage job i 0 = hashedMessage job j 0 := by
      rw [hashedMessage_eq, hashedMessage_eq, hheader]
    have heq := @hinj (i, 0) hi (j, 0) (hj.trans hi) hsame
    exact hj.ne (Prod.mk.inj heq).1.symm
  · rintro happart ⟨i, n⟩ hi ⟨j, m⟩ hj h
    change i < threads.toNat at hi
    change j < threads.toNat at hj
    -- the message ends with the nonce, so that equal ones have equal nonces and headers
    obtain ⟨hheader, rfl⟩ := hashedMessage_inj h
    rcases Nat.lt_trichotomy i j with hlt | rfl | hlt
    · have hij := (toldApart_iff (by omega) (by omega)).mp (happart j hj i hlt)
      exact absurd hheader.symm hij
    · rfl
    · have hij := (toldApart_iff (by omega) (by omega)).mp (happart i hi j hlt)
      exact absurd hheader hij

/-- A header in which the first 80 characters come before extranonce2. -/
theorem hashedMessage_injOn_iff_two_workers :
    let job : MiningJob :=
      { prevHash := List.replicate 64 '0'.toUInt8
        coinbase1 := bytes "cb"
        extranonce1 := bytes "aabbccddeeff00" }
    Set.InjOn (fun p : ℕ × UInt32 => hashedMessage job p.1 p.2) {p | p.1 < UInt32.toNat 2} := by
  intro job
  obtain ⟨hinj, hwidth, -⟩ := hashedMessage_injOn_iff job 2
  exact hinj.mpr ((hwidth (by decide +kernel)).mpr (.inr (by decide +kernel)))

/-- A previous hash of 200 characters leaves no room for extranonce2. -/
theorem hashedMessage_cut :
    ¬ ∀ (job : MiningJob) (threads : UInt32),
      Set.InjOn (fun p : ℕ × UInt32 => hashedMessage job p.1 p.2) {p | p.1 < threads.toNat} := by
  intro h
  let job : MiningJob := { prevHash := List.replicate 200 '0'.toUInt8 }
  have hsame : hashedMessage job 0 0 = hashedMessage job 1 0 := by decide +kernel
  have heq := @h job 2 (0, 0) (show 0 < 2 by decide) (1, 0) (show 1 < 2 by decide) hsame
  exact absurd (Prod.mk.inj heq).1 (by decide)

end CppMiner.Miner
