-- SUMMARY: When the extranonce2 of a worker has the length that the pool demands.
import CppMiner.Miner.HeaderDivision

/-!
# The length of extranonce2

A pool says how many bytes an extranonce2 has. A worker prints its index in hex, padded
to twice that many digits, where the width is doubled as an `unsigned int` and narrowed to
an `int`, and the printer pads but never cuts. So the length is the pool's if the size is
neither zero nor too large for the narrowing, and the index has no more digits
(`demanded_iff`).
-/

namespace CppMiner.Miner

open Hash.Cryptonight (Stack)

variable {job : MiningJob}

/-- A string of `2 * size` lower-case hex digits that denotes the index. -/
structure Demanded (e : Bytes) (size index : ℕ) : Prop where
  length : e.length = 2 * size
  digits : ∀ c ∈ e, c ∈ bytes "0123456789abcdef"
  decode : Radix.decode 16 e = index

theorem length_encode_index_le {i : ℕ} (hi : i < 2 ^ 32) : (Radix.encode 16 i).length ≤ 8 :=
  Radix.length_encode_le (by norm_num) (by norm_num) (by omega)

theorem length_encode_pos (i : ℕ) : 0 < (Radix.encode 16 i).length :=
  List.length_pos_iff.mpr (Radix.encode_ne_nil (by norm_num) i)

/-- A numeral fits into a width if the number is below the power. -/
theorem length_encode_le_iff {i w : ℕ} :
    (Radix.encode 16 i).length ≤ w ↔ 0 < w ∧ i < 16 ^ w := by
  have hpos := length_encode_pos i
  constructor
  · intro hle
    have hlt := Radix.lt_pow_length_encode (b := 16) (by norm_num) i
    exact ⟨by omega, lt_of_lt_of_le hlt (Nat.pow_le_pow_right (by norm_num) hle)⟩
  · exact fun h => Radix.length_encode_le (by norm_num) h.1 h.2

theorem length_workerExtranonce2_eq_iff {i : ℕ} (hi : i < 2 ^ 32) :
    (workerExtranonce2 job i).length = 2 * job.extranonce2Size.toNat ↔
      1 ≤ job.extranonce2Size.toNat ∧ job.extranonce2Size.toNat < 2 ^ 30 ∧
        i < 16 ^ (2 * job.extranonce2Size.toNat) := by
  have hlen := length_workerExtranonce2 job hi
  have hle := length_encode_index_le hi
  by_cases hsmall : job.extranonce2Size.toNat < 2 ^ 30
  · -- Here the narrowing keeps the width.
    have hfits := length_encode_le_iff (i := i) (w := 2 * job.extranonce2Size.toNat)
    rw [hlen, extranonce2Width_of_lt (by omega), Int.toNat_natCast, Nat.mul_comm _ 2,
      max_eq_left_iff, hfits]
    constructor
    · exact fun h => ⟨by omega, hsmall, h.2⟩
    · exact fun h => ⟨by omega, h.2.2⟩
  · -- No width that fits an `int` is as large, and no index has as many digits.
    have hwidth : extranonce2Width job < 2 ^ 31 := by
      have hlt : extranonce2Width job < ((2 ^ 32 : ℕ) + 1 : ℤ) / 2 := Int.bmod_lt (by norm_num)
      norm_num at hlt ⊢
      exact hlt
    constructor
    · intro heq
      omega
    · exact fun h => absurd h.2.1 hsmall

theorem mem_digits_of_mem_fixed {w n : ℕ} {c : UInt8} (hc : c ∈ Radix.fixed 16 w n) :
    c ∈ bytes "0123456789abcdef" := by
  obtain ⟨d, hd, rfl⟩ := Radix.mem_fixed (by norm_num) w n hc
  have hdigits : ∀ d < 16, Radix.digitChar d ∈ bytes "0123456789abcdef" := by decide
  exact hdigits d hd

/-- A worker's extranonce2 always denotes its index; what can fail is the length. -/
theorem demanded_workerExtranonce2_iff {i : ℕ} (hi : i < 2 ^ 32) :
    Demanded (workerExtranonce2 job i) job.extranonce2Size.toNat i ↔
      1 ≤ job.extranonce2Size.toNat ∧ job.extranonce2Size.toNat < 2 ^ 30 ∧
        i < 16 ^ (2 * job.extranonce2Size.toNat) := by
  rw [← length_workerExtranonce2_eq_iff hi]
  obtain ⟨hfixed, hlt⟩ := workerExtranonce2_eq job hi
  refine ⟨fun h => h.length, fun hlen => ⟨hlen, fun c hc => ?_, ?_⟩⟩
  · rw [hfixed] at hc
    exact mem_digits_of_mem_fixed hc
  · rw [hfixed, Radix.decode_fixed (by norm_num) (by norm_num), Nat.mod_eq_of_lt hlt]

/-- The extranonce2 in the header that a worker hashes and in the share that it submits is
what the pool demands if and only if the size is positive and below `2 ^ 30`, and the index
of the worker has no more digits. -/
theorem demanded_iff (worker : Worker) (threads : UInt32) (hindex : worker.index < threads.toNat)
    (job : MiningJob) (hblob : job.blob = []) (threshold : UInt64) (stack : ℕ → Stack) :
    ∃ xs worker', batch worker job threshold stack = .ok (xs, worker') ∧
      ∀ x ∈ xs,
        (∃ e nonceHex, x.plan.message = header job e ∧
          x.plan.share = .share job.jobId e job.time nonceHex ∧
          Demanded e job.extranonce2Size.toNat worker.index) ↔
        1 ≤ job.extranonce2Size.toNat ∧ job.extranonce2Size.toNat < 2 ^ 30 ∧
          worker.index < 16 ^ (2 * job.extranonce2Size.toNat) := by
  have hi : worker.index < 2 ^ 32 := hindex.trans threads.toNat_lt
  obtain ⟨xs, worker', hbatch, hplans, -⟩ := batch_eq worker (.inl hblob) threshold stack
  refine ⟨xs, worker', hbatch, fun x hx => ?_⟩
  obtain ⟨k, hk⟩ := exists_planOf hplans hx
  have hplan : x.plan =
      classicPlan job (workerExtranonce2 job worker.index) worker.nonce worker.nonceStep k := by
    rw [hk, planOf, if_pos hblob]
    rfl
  rw [← demanded_workerExtranonce2_iff hi, hplan]
  constructor
  · rintro ⟨e, nonceHex, -, hshare, hdemanded⟩
    obtain ⟨-, rfl, -, -⟩ := Network.Submit.share.inj hshare
    exact hdemanded
  · exact fun h => ⟨_, _, rfl, rfl, h⟩

theorem demanded_iff_default :
    ∃ xs worker', batch (Worker.start (.sha256d {}) 3 8) { jobId := bytes "job" } 1000
        (fun _ _ => Vector.replicate 25 0) = .ok (xs, worker') ∧
      ∀ x ∈ xs, ∃ e nonceHex, x.plan.share = .share (bytes "job") e [] nonceHex ∧
        Demanded e 4 3 := by
  obtain ⟨xs, worker', hbatch, hdemanded⟩ := demanded_iff (Worker.start (.sha256d {}) 3 8) 8
    (by decide) { jobId := bytes "job" } rfl 1000 (fun _ _ => Vector.replicate 25 0)
  refine ⟨xs, worker', hbatch, fun x hx => ?_⟩
  obtain ⟨e, nonceHex, -, hshare, h⟩ := (hdemanded x hx).mpr ⟨by decide, by decide, by decide⟩
  exact ⟨e, nonceHex, hshare, h⟩

/-- The last of 257 workers has three digits where the pool asks for two. -/
theorem extranonce2_too_long :
    ¬ ∀ (worker : Worker) (threads : UInt32), worker.index < threads.toNat →
      ∀ job : MiningJob, job.blob = [] →
      ∀ (threshold : UInt64) (stack : ℕ → Stack) (xs : List Attempt) (worker' : Worker),
        batch worker job threshold stack = .ok (xs, worker') →
        ∀ x ∈ xs, ∀ jobId e ntime nonceHex, x.plan.share = .share jobId e ntime nonceHex →
          e.length = 2 * job.extranonce2Size.toNat := by
  intro h
  let worker := Worker.start (.sha256d {}) 256 257
  let job : MiningJob := { jobId := bytes "job", extranonce2Size := 1 }
  obtain ⟨xs, worker', hbatch, hplans, -⟩ := batch_eq worker (.inl rfl : Minable job) 1000
    (fun _ _ => Vector.replicate 25 0)
  obtain ⟨x, hx⟩ := exists_getElem? hplans (i := 0) (by decide)
  have hplan := plan_of_getElem? hplans hx
  have hlen := h worker 257 (by decide) job rfl _ _ xs worker' hbatch x
    (List.mem_of_getElem? hx) job.jobId (workerExtranonce2 job 256) job.time (toHex 0 8)
    (by rw [hplan]; rfl)
  revert hlen
  decide

end CppMiner.Miner
