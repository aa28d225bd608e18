-- SUMMARY: Difficulties and thresholds in order: a greater difficulty never makes more digests shares.
import CppMiner.Lib.Endian
import CppMiner.Lib.Rounding
import CppMiner.Miner.Engine

/-!
# Thresholds

The threshold of a difficulty is compared with the leading 64 bits of a digest, and that is the
same as comparing 256-bit numbers (`leadingBits_lt_iff`). It decreases with the difficulty,
across the clamp below difficulty 1 and with the substitution of 1 for what is not positive, and
what is cast to 64 bits always fits (`thresholds_ordered`). All of this holds whether the
quotient is exact or rounded to a double.
-/

namespace CppMiner.Miner

open Endian (ofBigEndian)
open Hash (Digest256 HashAlgorithm)
open Hash.Cryptonight (Stack)

/-! ## Digests -/

/-- Folding bytes into 64 bits loses nothing as long as there are at most eight. -/
theorem toNat_foldl_bytes {s : Bytes} (h : s.length ≤ 8) :
    (s.foldl (fun (value : UInt64) byte => (value <<< 8) ||| byte.toUInt64) 0).toNat =
      ofBigEndian s := by
  induction s using List.reverseRecOn with
  | nil => rfl
  | append_singleton s b ih =>
    rw [List.length_append, List.length_singleton] at h
    have hlow := Endian.ofBigEndian_lt s
    have hpow : 256 ^ s.length ≤ 256 ^ 7 := Nat.pow_le_pow_right (by decide) (by omega)
    have hshift : ofBigEndian s <<< 8 < 2 ^ 64 := by
      rw [Nat.shiftLeft_eq]
      omega
    rw [List.foldl_append, List.foldl_cons, List.foldl_nil, UInt64.toNat_or,
      UInt64.toNat_shiftLeft, ih (by omega), Endian.ofBigEndian_snoc]
    rw [show (8 : UInt64).toNat % 64 = 8 from rfl, Nat.mod_eq_of_lt hshift,
      UInt8.toNat_toUInt64, ← Nat.shiftLeft_add_eq_or_of_lt b.toNat_lt, Nat.shiftLeft_eq]

/-- The leading bits are below a threshold if and only if the whole digest is below the number
that has the threshold for its leading bits and zeros after it. -/
theorem leadingBits_lt_iff (digest : Digest256) (t : UInt64) :
    leadingBits digest < t ↔ ofBigEndian digest.toList < t.toNat * 2 ^ 192 := by
  have hleading : (leadingBits digest).toNat = ofBigEndian (digest.toList.take 8) :=
    toNat_foldl_bytes (List.length_take_le 8 _)
  rw [UInt64.lt_iff_toNat_lt, hleading, Endian.ofBigEndian_take_lt_iff, Vector.length_toList]
  norm_num

/-! ## Quotients -/

/-- How the quotient is computed. -/
inductive Arithmetic where
  | exact
  | double

namespace Arithmetic

def round : Arithmetic → ℚ → ℚ
  | exact, q => q
  | double, q => Double.round q

/-- What is left of the ceiling after division by the difficulty. -/
def scaled (a : Arithmetic) (difficulty : ℚ) : ℚ :=
  a.round (kDiff1 / if difficulty ≤ 0 then 1 else difficulty)

/-- What is cast, where the threshold is not clamped. -/
def castValue (a : Arithmetic) (difficulty : ℚ) : Option ℚ :=
  if kDiff1 ≤ a.scaled difficulty then none else some (a.scaled difficulty)

/-- `difficultyToThreshold` in either arithmetic. -/
def threshold (a : Arithmetic) (difficulty : ℚ) : UInt64 :=
  if kDiff1 ≤ a.scaled difficulty then 0xFFFFFFFFFFFFFFFF
  else Double.toUInt64 (a.scaled difficulty)

theorem round_mono (a : Arithmetic) {p q : ℚ} (hp : 0 < p) (h : p ≤ q) :
    a.round p ≤ a.round q := by
  cases a with
  | exact => exact h
  | double => exact Double.round_mono hp h

theorem round_nonneg (a : Arithmetic) {q : ℚ} (h : 0 ≤ q) : 0 ≤ a.round q := by
  cases a with
  | exact => exact h
  | double => exact Double.round_nonneg h

theorem round_kDiff1 (a : Arithmetic) : a.round kDiff1 = kDiff1 := by
  cases a with
  | exact => rfl
  | double =>
    have hulp : Double.ulp kDiff1 = 2 ^ 12 := by
      have hint := Double.ulp_int (2 ^ 64)
      rw [show (2 ^ 64 : ℤ).natAbs = 2 ^ 64 from rfl, Nat.log_pow one_lt_two] at hint
      push_cast at hint
      exact hint
    refine Double.round_of_multiple (m := 2 ^ 52) ?_ ?_
    · rw [hulp, kDiff1]
      norm_num
    · rw [kDiff1, abs_of_pos (by positivity)]
      exact pow_lt_pow_right₀ one_lt_two (by norm_num)

theorem divisor_pos (d : ℚ) : 0 < if d ≤ 0 then 1 else d := by
  split
  · exact one_pos
  · rename_i hd
    exact not_le.mp hd

theorem scaled_nonneg (a : Arithmetic) (d : ℚ) : 0 ≤ a.scaled d := by
  have hceiling : (0 : ℚ) ≤ kDiff1 := by norm_num [kDiff1]
  exact a.round_nonneg (div_nonneg hceiling (divisor_pos d).le)

/-- A difficulty of at most 1 leaves all of the ceiling. -/
theorem kDiff1_le_scaled (a : Arithmetic) {d : ℚ} (h : d ≤ 1) : kDiff1 ≤ a.scaled d := by
  have hceiling : (0 : ℚ) < kDiff1 := by norm_num [kDiff1]
  have hdivisor : (if d ≤ 0 then 1 else d) ≤ 1 := by
    split
    · exact le_rfl
    · exact h
  have hquotient : kDiff1 ≤ kDiff1 / if d ≤ 0 then 1 else d :=
    le_div_self hceiling.le (divisor_pos d) hdivisor
  have hround := a.round_mono hceiling hquotient
  rwa [a.round_kDiff1] at hround

/-- Above 1 the quotient decreases. -/
theorem scaled_anti (a : Arithmetic) {d d' : ℚ} (h' : 1 < d') (h : d' ≤ d) :
    a.scaled d ≤ a.scaled d' := by
  have hceiling : (0 : ℚ) < kDiff1 := by norm_num [kDiff1]
  have hpos' : 0 < d' := one_pos.trans h'
  have hpos : 0 < d := hpos'.trans_le h
  rw [scaled, scaled, if_neg (not_le.mpr hpos), if_neg (not_le.mpr hpos')]
  exact a.round_mono (div_pos hceiling hpos) (div_le_div_of_nonneg_left hceiling.le hpos' h)

/-! ## Order -/

/-- A cast of a value that fits drops the fraction. -/
theorem toNat_toUInt64 {q : ℚ} (h : 0 ≤ q) (hlt : q < 2 ^ 64) :
    (Double.toUInt64 q).toNat = ⌊q⌋₊ := by
  have hfloor : 0 ≤ ⌊q⌋ := Int.floor_nonneg.mpr h
  have hbound : ⌊q⌋ < 2 ^ 64 := Int.floor_lt.mpr (by exact_mod_cast hlt)
  rw [Double.toUInt64, Double.trunc, if_pos h, UInt64.ofInt, Int.emod_eq_of_lt hfloor hbound,
    UInt64.toNat_ofNat', Nat.mod_eq_of_lt (by omega), Int.floor_toNat]

theorem threshold_anti (a : Arithmetic) {d d' : ℚ} (h : d' ≤ d) :
    a.threshold d ≤ a.threshold d' := by
  rw [UInt64.le_iff_toNat_le]
  by_cases hclamped : kDiff1 ≤ a.scaled d'
  · rw [threshold, threshold, if_pos hclamped]
    exact Nat.le_of_lt_succ (UInt64.toNat_lt _)
  · -- the difficulties are above 1, and the greater one is not clamped either
    have habove : 1 < d' := by
      by_contra hle
      exact hclamped (a.kDiff1_le_scaled (not_lt.mp hle))
    have hscaled := a.scaled_anti habove h
    have hbound : ∀ {q}, ¬ kDiff1 ≤ q → q < 2 ^ 64 := not_le.mp
    have hclamped' : ¬ kDiff1 ≤ a.scaled d := fun hle => hclamped (hle.trans hscaled)
    rw [threshold, threshold, if_neg hclamped, if_neg hclamped',
      toNat_toUInt64 (a.scaled_nonneg d) (hbound hclamped'),
      toNat_toUInt64 (a.scaled_nonneg d') (hbound hclamped)]
    exact Nat.floor_le_floor hscaled

end Arithmetic

/-- What is cast fits into 64 bits, thresholds decrease with the difficulty, a digest is
compared as a number of 256 bits, and what is submitted at a difficulty is submitted at every
lower one. -/
theorem thresholds_ordered :
    Arithmetic.double.threshold = difficultyToThreshold ∧
      ∀ a : Arithmetic,
        (∀ d, ∀ x ∈ a.castValue d, 0 ≤ x ∧ x < 2 ^ 64 ∧ a.threshold d = Double.toUInt64 x) ∧
        (Antitone fun d => (a.threshold d).toNat) ∧
        (∀ digest d, leadingBits digest < a.threshold d ↔
          ofBigEndian digest.toList < (a.threshold d).toNat * 2 ^ 192) ∧
        ∀ d d', d' ≤ d →
          (∀ digest, leadingBits digest < a.threshold d → leadingBits digest < a.threshold d') ∧
          ∀ (job : MiningJob) (stack : Stack) (algorithm : HashAlgorithm) (plan : Plan) share,
            (attempt job (a.threshold d) stack algorithm plan).1.submitted = some share →
              (attempt job (a.threshold d') stack algorithm plan).1.submitted = some share := by
  refine ⟨rfl, fun a => ⟨fun d x hx => ?_,
    fun d' d h => UInt64.le_iff_toNat_le.mp (a.threshold_anti h),
    fun digest d => leadingBits_lt_iff digest _, fun d d' h => ?_⟩⟩
  · simp only [Arithmetic.castValue, Option.mem_def, Option.ite_none_left_eq_some,
      Option.some.injEq] at hx
    obtain ⟨hclamped, rfl⟩ := hx
    exact ⟨a.scaled_nonneg d, not_le.mp hclamped, by rw [Arithmetic.threshold, if_neg hclamped]⟩
  · have hshare : ∀ digest, leadingBits digest < a.threshold d →
        leadingBits digest < a.threshold d' :=
      fun digest hlt => UInt64.lt_of_lt_of_le hlt (a.threshold_anti h)
    refine ⟨hshare, fun job stack algorithm plan share hsubmitted => ?_⟩
    simp only [attempt, Option.ite_none_right_eq_some] at hsubmitted ⊢
    obtain ⟨⟨hlt, hjob⟩, hsame⟩ := hsubmitted
    exact ⟨⟨hshare _ hlt, hjob⟩, hsame⟩

end CppMiner.Miner
