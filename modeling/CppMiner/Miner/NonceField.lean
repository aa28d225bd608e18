-- SUMMARY: The nonce in the submitted blobs: the last four bytes, most significant first, unless the probe moves it.
import CppMiner.Miner.AbsorbedBlob

/-!
# The nonce field

A worker writes the nonce of a blob into its last four bytes, as eight hex digits. It
writes a test pattern there first, and takes a blob that already ends in the pattern for
one that cannot be written: then the nonce goes one byte further to the front, over a
byte of the pool's work (`onlyField_iff`). The digits are those of the number, so the
bytes of the nonce come in the order opposite to that of the classic branch
(`encodedAlike_iff`).
-/

namespace CppMiner.Miner

open Endian (littleEndian)
open Hash (Sha256dAlgorithm nonceBytes)
open Hash.Cryptonight (Stack)
open Network (Submit)
open Window (overwrite window)

variable {job : MiningJob} {blob : Bytes}

/-! ## The place of the nonce -/

/-- The first of the eight characters of a blob's last four bytes. -/
def fieldChars (blob : Bytes) : ℕ := (blob.length / 2 - 4) * 2

/-- The second blob is the first but for the nonce's hex digits in the last four bytes. -/
structure OnlyField (blob workBlob : Bytes) (nonce : UInt32) : Prop where
  outside : ∀ k, k < fieldChars blob ∨ fieldChars blob + 8 ≤ k → workBlob[k]? = blob[k]?
  field : window workBlob (fieldChars blob) 8 = Radix.fixed 16 8 nonce.toNat

/-- The blob has at least 12 bytes, and its last four read as the test pattern. -/
def EndsInPattern (blob : Bytes) : Prop :=
  12 ≤ blob.length / 2 ∧ window blob (fieldChars blob) 8 = testNonce

instance : Decidable (EndsInPattern blob) := inferInstanceAs (Decidable (_ ∧ _))

theorem nonceOffset_eq_last_iff :
    nonceOffset blob = blob.length / 2 - 4 ↔ ¬ EndsInPattern blob := by
  simp only [nonceOffset]
  split
  · rename_i hpattern
    exact ⟨fun heq => by omega, fun hnot => absurd hpattern hnot⟩
  · rename_i hpattern
    exact ⟨fun _ => hpattern, fun _ => rfl⟩

theorem onlyField_iff_eq (h : 16 ≤ blob.length) {workBlob : Bytes} {nonce : UInt32} :
    OnlyField blob workBlob nonce ↔
      workBlob = overwrite blob (fieldChars blob) (toHex nonce 8) := by
  have hlen := length_toHex nonce
  rw [Window.eq_overwrite_iff (by rw [hlen, fieldChars]; omega), hlen, toHex_eight]
  exact ⟨fun hfield => ⟨hfield.outside, hfield.field⟩, fun hfield => ⟨hfield.1, hfield.2⟩⟩

theorem onlyField_workBlob (h : 16 ≤ blob.length) (hpattern : ¬ EndsInPattern blob)
    (nonce : UInt32) : OnlyField blob (workBlob blob nonce) nonce := by
  rw [onlyField_iff_eq h, workBlob, nonceOffset_eq_last_iff.mpr hpattern, fieldChars]

/-- The blob that a worker hashes and submits is the pool's but for the nonce in its last
four bytes, where the worker places it, if and only if the blob is shorter than 12 bytes or
does not end in the test pattern. -/
theorem onlyField_iff (worker : Worker) (job : MiningJob) (h : HexBlob job.blob)
    (threshold : UInt64) (stack : ℕ → Stack) :
    ∃ xs worker', batch worker job threshold stack = .ok (xs, worker') ∧
      ∀ x ∈ xs,
        (nonceOffsetBytes job.blob = .ok (job.blob.length / 2 - 4) ∧
          ∃ workBlob, x.plan.message = Hex.decode workBlob ∧
            x.plan.share = .blobShare job.jobId workBlob ∧
            OnlyField job.blob workBlob x.plan.nonce) ↔
          ¬ EndsInPattern job.blob := by
  obtain ⟨xs, worker', hbatch, hplans, -⟩ := batch_eq worker (.inr h) threshold stack
  refine ⟨xs, worker', hbatch, fun x hx => ⟨fun hfield => ?_, fun hpattern => ⟨?_, ?_⟩⟩⟩
  · rw [nonceOffset_eq h.long, Except.ok.injEq] at hfield
    exact nonceOffset_eq_last_iff.mp hfield.1
  · rw [nonceOffset_eq h.long, nonceOffset_eq_last_iff.mpr hpattern]
  · obtain ⟨i, hi⟩ := exists_planOf hplans hx
    rw [planOf_of_hexBlob worker h] at hi
    refine ⟨workBlob job.blob x.plan.nonce, ?_, ?_, onlyField_workBlob h.long hpattern _⟩
    · rw [hi]
      rfl
    · rw [hi]
      rfl

/-- A blob of sixteen zeros and the pattern. -/
def patternBlob : Bytes := List.replicate 16 '0'.toUInt8 ++ testNonce

theorem hexBlob_patternBlob : HexBlob patternBlob where
  digits := List.all_eq_true.mp (by decide)
  long := by decide

theorem onlyField_iff_zeroBlob :
    ∃ xs worker', batch (Worker.start (.sha256d {}) 0 4) (zeroBlobJob 24) 1000
        (fun _ _ => Vector.replicate 25 0) = .ok (xs, worker') ∧
      ∀ x ∈ xs, ∃ workBlob, x.plan.share = .blobShare (bytes "job") workBlob ∧
        OnlyField (zeroBlobJob 24).blob workBlob x.plan.nonce := by
  obtain ⟨xs, worker', hbatch, hfield⟩ := onlyField_iff (Worker.start (.sha256d {}) 0 4)
    (zeroBlobJob 24) (hexBlob_zeroBlobJob (by decide)) 1000 (fun _ _ => Vector.replicate 25 0)
  refine ⟨xs, worker', hbatch, fun x hx => ?_⟩
  obtain ⟨-, workBlob, -, hshare, honly⟩ := (hfield x hx).mpr (by decide)
  exact ⟨workBlob, hshare, honly⟩

/-- Nonce 0 on a blob that ends in the pattern: the last byte stays, one before the field
is overwritten. -/
theorem pattern_moves_nonce :
    ¬ ∀ (worker : Worker) (job : MiningJob), HexBlob job.blob → 2 ∣ job.blob.length →
      ∀ (threshold : UInt64) (stack : ℕ → Stack) (xs : List Attempt) (worker' : Worker),
        batch worker job threshold stack = .ok (xs, worker') →
        ∀ x ∈ xs, ∃ workBlob, x.plan.share = .blobShare job.jobId workBlob ∧
          OnlyField job.blob workBlob x.plan.nonce := by
  intro h
  let worker := Worker.start (.sha256d {}) 0 4
  let job : MiningJob := { jobId := bytes "job", blob := patternBlob }
  obtain ⟨xs, worker', hbatch, hplans, -⟩ := batch_eq worker
    (.inr hexBlob_patternBlob : Minable job) 1000 (fun _ _ => Vector.replicate 25 0)
  obtain ⟨x, hx⟩ := exists_getElem? hplans (i := 0) (by decide)
  obtain ⟨blob', hshare, honly⟩ := h worker job hexBlob_patternBlob (by decide) _ _ xs worker'
    hbatch x (List.mem_of_getElem? hx)
  rw [plan_of_blob hexBlob_patternBlob hplans hx] at hshare honly
  obtain ⟨-, rfl⟩ := Submit.blobShare.inj hshare
  have hfield := honly.field
  revert hfield
  decide

/-! ## The order of the bytes -/

/-- The four bytes from the nonce's place on are those of the nonce, the least significant
first, and the same that `Sha256dAlgorithm::hash` appends to any input that fits. -/
structure EncodedAlike (message : Bytes) (offset : ℕ) (nonce : UInt32) : Prop where
  littleEndian : window message offset 4 = littleEndian 4 nonce.toNat
  appended : ∀ (algorithm : Sha256dAlgorithm) (input : Bytes), input.length ≤ 252 →
    (Sha256dAlgorithm.fill algorithm.buffer input nonce).take (input.length + 4) =
      input ++ window message offset 4

/-- The window of the nonce decodes to its bytes, the most significant first. -/
theorem window_decode_workBlob (h : 16 ≤ blob.length) (nonce : UInt32) :
    window (Hex.decode (workBlob blob nonce)) (nonceOffset blob) 4 =
      Hex.bigEndian 4 nonce.toNat := by
  have hoffset := nonceOffset_le h
  have hwindow := Window.window_overwrite (s := Hex.decode blob) (i := nonceOffset blob)
    (w := Hex.bigEndian 4 nonce.toNat) (by rw [Hex.length_bigEndian, Hex.length_decode]; omega)
  rwa [Hex.length_bigEndian, ← decode_workBlob h] at hwindow

/-- The two orders of four bytes are the same for a palindrome only. -/
theorem bigEndian_eq_littleEndian_iff (n : ℕ) :
    Hex.bigEndian 4 n = littleEndian 4 n ↔
      n % 256 = n / 2 ^ 24 % 256 ∧ n / 2 ^ 8 % 256 = n / 2 ^ 16 % 256 := by
  simp only [Hex.bigEndian, littleEndian, List.nil_append, List.cons_append, List.cons.injEq,
    and_true, Nat.div_div_eq_div_mul, ← UInt8.toNat_inj, UInt8.toNat_ofNat']
  omega

theorem encodedAlike_workBlob_iff (h : 16 ≤ blob.length) (nonce : UInt32) :
    EncodedAlike (Hex.decode (workBlob blob nonce)) (nonceOffset blob) nonce ↔
      nonce.toNat % 256 = nonce.toNat / 2 ^ 24 ∧
        nonce.toNat / 2 ^ 8 % 256 = nonce.toNat / 2 ^ 16 % 256 := by
  have htop : nonce.toNat / 2 ^ 24 % 256 = nonce.toNat / 2 ^ 24 := by
    have := nonce.toNat_lt
    omega
  have horder := bigEndian_eq_littleEndian_iff nonce.toNat
  rw [htop] at horder
  rw [← horder]
  constructor
  · intro halike
    rw [← window_decode_workBlob h, halike.littleEndian]
  · intro heq
    have hwindow : window (Hex.decode (workBlob blob nonce)) (nonceOffset blob) 4 =
        littleEndian 4 nonce.toNat := by
      rw [window_decode_workBlob h, heq]
    refine ⟨hwindow, fun algorithm input hinput => ?_⟩
    have hsize := algorithm.size
    rw [Sha256dAlgorithm.take_fill (by omega), hwindow, Hash.nonceBytes_eq]

/-- In the message that a worker hashes for a blob, the nonce is encoded as in the classic
branch if and only if its four bytes are a palindrome. -/
theorem encodedAlike_iff (worker : Worker) (job : MiningJob) (h : HexBlob job.blob)
    (threshold : UInt64) (stack : ℕ → Stack) :
    ∃ xs worker', batch worker job threshold stack = .ok (xs, worker') ∧
      ∀ x ∈ xs,
        EncodedAlike x.plan.message (nonceOffset job.blob) x.plan.nonce ↔
          x.plan.nonce.toNat % 256 = x.plan.nonce.toNat / 2 ^ 24 ∧
            x.plan.nonce.toNat / 2 ^ 8 % 256 = x.plan.nonce.toNat / 2 ^ 16 % 256 := by
  obtain ⟨xs, worker', hbatch, hplans, -⟩ := batch_eq worker (.inr h) threshold stack
  refine ⟨xs, worker', hbatch, fun x hx => ?_⟩
  obtain ⟨i, hi⟩ := exists_planOf hplans hx
  rw [planOf_of_hexBlob worker h] at hi
  rw [hi]
  exact encodedAlike_workBlob_iff h.long _

theorem encodedAlike_iff_zero :
    ∃ xs worker', batch (Worker.start (.sha256d {}) 0 4) (zeroBlobJob 16) 1000
        (fun _ _ => Vector.replicate 25 0) = .ok (xs, worker') ∧
      ∀ x ∈ xs, x.plan.nonce = 0 →
        EncodedAlike x.plan.message (nonceOffset (zeroBlobJob 16).blob) 0 := by
  obtain ⟨xs, worker', hbatch, halike⟩ := encodedAlike_iff (Worker.start (.sha256d {}) 0 4)
    (zeroBlobJob 16) (hexBlob_zeroBlobJob (le_refl 16)) 1000 (fun _ _ => Vector.replicate 25 0)
  refine ⟨xs, worker', hbatch, fun x hx hzero => ?_⟩
  have := (halike x hx).mpr (by rw [hzero]; decide)
  rwa [hzero] at this

/-- The first nonce of worker 1 is 01000000, and its digits are written in this order. -/
theorem nonce_bytes_reversed :
    ¬ ∀ (worker : Worker) (job : MiningJob), HexBlob job.blob → 2 ∣ job.blob.length →
      ∀ (threshold : UInt64) (stack : ℕ → Stack) (xs : List Attempt) (worker' : Worker),
        batch worker job threshold stack = .ok (xs, worker') →
        ∀ x ∈ xs, window x.plan.message (nonceOffset job.blob) 4 =
          littleEndian 4 x.plan.nonce.toNat := by
  intro h
  let worker := Worker.start (.sha256d {}) 1 4
  have hblob : HexBlob (zeroBlobJob 16).blob := hexBlob_zeroBlobJob (le_refl 16)
  obtain ⟨xs, worker', hbatch, hplans, -⟩ := batch_eq worker (.inr hblob) 1000
    (fun _ _ => Vector.replicate 25 0)
  obtain ⟨x, hx⟩ := exists_getElem? hplans (i := 0) (by decide)
  have hwindow := h worker (zeroBlobJob 16) hblob (by decide) _ _ xs worker' hbatch x
    (List.mem_of_getElem? hx)
  rw [plan_of_blob hblob hplans hx] at hwindow
  revert hwindow
  decide

end CppMiner.Miner
