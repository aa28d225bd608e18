-- SUMMARY: Binary64 numbers as rationals: rounding to nearest and the casts to integer types.
import Mathlib.Data.Rat.Floor
import Mathlib.Data.Int.Log
import Mathlib.Tactic.NormNum
import Mathlib.Tactic.Positivity

/-! # Doubles

A finite `double` is represented by the rational it stands for; zero has one sign.
`nearest` rounds an exact value the way `strtod` does, and the casts truncate.
Integers of magnitude up to `2 ^ 53` are doubles (`nearest_int`). -/

namespace Double

/-! ## Rounding -/

/-- The nearest integer, ties to the even one. -/
def roundHalfEven (q : ℚ) : ℤ :=
  if q - ⌊q⌋ < 1 / 2 then ⌊q⌋
  else if 1 / 2 < q - ⌊q⌋ then ⌊q⌋ + 1
  else if ⌊q⌋ % 2 = 0 then ⌊q⌋ else ⌊q⌋ + 1

/-- The distance between neighbouring doubles of the magnitude of `q`. -/
def ulp (q : ℚ) : ℚ := 2 ^ (max (Int.log 2 |q|) (-1022) - 52)

/-- The double nearest to `q`; `none` where the conversion reports a range error:
the result overflows, or is subnormal and not exact. -/
def nearest (q : ℚ) : Option ℚ :=
  let r : ℚ := roundHalfEven (q / ulp q) * ulp q
  if 2 ^ 1024 ≤ |r| then none
  else if |r| < (2 ^ 1022)⁻¹ ∧ r ≠ q then none
  else some r

@[simp] theorem roundHalfEven_intCast (n : ℤ) : roundHalfEven n = n := by
  simp [roundHalfEven]

theorem ulp_pos (q : ℚ) : 0 < ulp q :=
  zpow_pos (by norm_num) _

/-- A multiple of its own unit in the last place is a double, if it does not overflow. -/
theorem nearest_of_multiple {q : ℚ} {m : ℤ} (hm : q = m * ulp q) (hq : |q| < 2 ^ 1024) :
    nearest q = some q := by
  have hdiv : q / ulp q = m := by
    rw [div_eq_iff (ulp_pos q).ne']
    exact hm
  simp only [nearest, hdiv, roundHalfEven_intCast, ← hm]
  simp [not_le.mpr hq]

theorem ulp_int (n : ℤ) : ulp n = 2 ^ ((Nat.log 2 n.natAbs : ℤ) - 52) := by
  have habs : |(n : ℚ)| = (n.natAbs : ℚ) := by
    rw [Nat.cast_natAbs, Int.cast_abs]
  have hlog : (-1022 : ℤ) ≤ Nat.log 2 n.natAbs := by omega
  rw [ulp, habs, Int.log_natCast, max_eq_left hlog]

/-- Integers of magnitude up to `2 ^ 53` are exact. -/
theorem nearest_int {n : ℤ} (h : |n| ≤ 2 ^ 53) : nearest n = some (n : ℚ) := by
  have hover : |(n : ℚ)| < 2 ^ 1024 := by
    have : |(n : ℚ)| ≤ 2 ^ 53 := by exact_mod_cast h
    exact this.trans_lt (pow_lt_pow_right₀ (by norm_num) (by norm_num))
  by_cases hn : n = 0
  · subst hn
    exact nearest_of_multiple (m := 0) (by simp) (by simp)
  · have habs : n.natAbs ≤ 2 ^ 53 := by
      have := Int.abs_eq_natAbs n
      omega
    have hpos : n.natAbs ≠ 0 := by omega
    rcases Nat.lt_or_ge n.natAbs (2 ^ 53) with hlt | hge
    · -- below `2 ^ 53` the unit divides one
      obtain ⟨k, hk⟩ : ∃ k : ℕ, 52 = Nat.log 2 n.natAbs + k :=
        Nat.exists_eq_add_of_le (by
          have := Nat.log_lt_of_lt_pow hpos hlt
          omega)
      apply nearest_of_multiple (m := n * 2 ^ k) _ hover
      rw [ulp_int, show (Nat.log 2 n.natAbs : ℤ) - 52 = -(k : ℤ) by omega]
      push_cast
      rw [mul_assoc, zpow_neg, zpow_natCast, mul_inv_cancel₀ (by positivity), mul_one]
    · have heq : n.natAbs = 2 ^ 53 := by omega
      apply nearest_of_multiple (m := n / 2) _ hover
      rw [ulp_int, heq, Nat.log_pow (by norm_num)]
      have hdvd : (n : ℤ) = (n / 2) * 2 := by omega
      have := congrArg (Int.cast (R := ℚ)) hdvd
      push_cast at this
      norm_num
      exact this

/-- The quotient, rounded. Where it is out of the range of `nearest` it stays exact. -/
def div (p q : ℚ) : ℚ := (nearest (p / q)).getD (p / q)

/-! ## Casts

`static_cast` truncates towards zero. A value outside the target's range makes the
cast undefined; the casts below give what the x86-64 conversion instructions
deliver there, the least number of the target of the instruction. -/

/-- Truncation towards zero. -/
def trunc (q : ℚ) : ℤ := if 0 ≤ q then ⌊q⌋ else ⌈q⌉

/-- `static_cast<int>`. -/
def toInt32 (q : ℚ) : ℤ :=
  if -2 ^ 31 ≤ trunc q ∧ trunc q < 2 ^ 31 then trunc q else -2 ^ 31

/-- `static_cast<long long>`. -/
def toInt64 (q : ℚ) : ℤ :=
  if -2 ^ 63 ≤ trunc q ∧ trunc q < 2 ^ 63 then trunc q else -2 ^ 63

/-- `static_cast<unsigned int>`: the low half of the 64-bit conversion. -/
def toUInt32 (q : ℚ) : UInt32 := UInt32.ofInt (toInt64 q)

/-- `static_cast<std::uint64_t>` of a value in its range. -/
def toUInt64 (q : ℚ) : UInt64 := UInt64.ofInt (trunc q)

@[simp] theorem trunc_intCast (n : ℤ) : trunc n = n := by
  simp [trunc]

theorem toInt32_intCast {n : ℤ} (h : -2 ^ 31 ≤ n ∧ n < 2 ^ 31) : toInt32 n = n := by
  simp only [toInt32, trunc_intCast, if_pos h]

theorem toInt64_intCast {n : ℤ} (h : -2 ^ 63 ≤ n ∧ n < 2 ^ 63) : toInt64 n = n := by
  simp only [toInt64, trunc_intCast, if_pos h]

/-! ## Casts that are defined -/

/-- A cast to an integer type with the values from `lo` up to `hi`; none where the cast is
undefined. -/
def castTo (lo hi : ℤ) (q : ℚ) : Option ℤ :=
  if lo ≤ trunc q ∧ trunc q < hi then some (trunc q) else none

def castInt32 (q : ℚ) : Option ℤ := castTo (-2 ^ 31) (2 ^ 31) q

def castInt64 (q : ℚ) : Option ℤ := castTo (-2 ^ 63) (2 ^ 63) q

def castUInt32 (q : ℚ) : Option UInt32 := (castTo 0 (2 ^ 32) q).map UInt32.ofInt

theorem trunc_lt_iff {q : ℚ} {n : ℤ} (h : 0 < n) : trunc q < n ↔ q < n := by
  unfold trunc
  split
  · exact Int.floor_lt
  · rename_i hq
    have hneg : q < 0 := not_le.mp hq
    have hceil : ⌈q⌉ ≤ 0 := Int.ceil_le.mpr (by exact_mod_cast hneg.le)
    have hpos : (0 : ℚ) < n := by exact_mod_cast h
    exact iff_of_true (hceil.trans_lt h) (hneg.trans hpos)

theorem le_trunc_iff {q : ℚ} {n : ℤ} (h : n ≤ 0) : n ≤ trunc q ↔ (n : ℚ) - 1 < q := by
  unfold trunc
  split
  · rename_i hq
    have hfloor : 0 ≤ ⌊q⌋ := Int.floor_nonneg.mpr hq
    have hneg : (n : ℚ) ≤ 0 := by exact_mod_cast h
    exact iff_of_true (h.trans hfloor) (by linarith)
  · exact Int.le_ceil_iff

theorem trunc_eq_iff {q : ℚ} {n : ℤ} (h : 0 < n) : trunc q = n ↔ (n : ℚ) ≤ q ∧ q < n + 1 := by
  have hlt := trunc_lt_iff (q := q) h
  have hlt' := trunc_lt_iff (q := q) (show 0 < n + 1 by omega)
  push_cast at hlt'
  rw [← hlt', ← not_lt, ← hlt]
  omega

/-- A cast is defined on what is cut to a value of the type. -/
theorem isSome_castTo {lo hi : ℤ} (hlo : lo ≤ 0) (hhi : 0 < hi) (q : ℚ) :
    (castTo lo hi q).isSome ↔ (lo : ℚ) - 1 < q ∧ q < hi := by
  rw [← le_trunc_iff hlo, ← trunc_lt_iff hhi, castTo, Option.isSome_ite]

theorem isSome_castInt32 (q : ℚ) : (castInt32 q).isSome ↔ -2 ^ 31 - 1 < q ∧ q < 2 ^ 31 := by
  rw [castInt32, isSome_castTo (by norm_num) (by norm_num)]
  push_cast
  exact Iff.rfl

theorem isSome_castUInt32 (q : ℚ) : (castUInt32 q).isSome ↔ -1 < q ∧ q < 2 ^ 32 := by
  rw [castUInt32, Option.isSome_map, isSome_castTo (by norm_num) (by norm_num)]
  norm_num

theorem castTo_eq_some {lo hi n : ℤ} {q : ℚ} (h : castTo lo hi q = some n) :
    lo ≤ trunc q ∧ trunc q < hi ∧ trunc q = n := by
  unfold castTo at h
  split at h
  · rename_i hrange
    exact ⟨hrange.1, hrange.2, Option.some.inj h⟩
  · cases h

/-- Where a cast is defined it delivers what the instruction delivers. -/
theorem toInt32_of_castInt32 {q : ℚ} {n : ℤ} (h : castInt32 q = some n) : toInt32 q = n := by
  obtain ⟨hlo, hhi, heq⟩ := castTo_eq_some h
  rw [toInt32, if_pos ⟨hlo, hhi⟩, heq]

theorem toInt64_of_castInt64 {q : ℚ} {n : ℤ} (h : castInt64 q = some n) : toInt64 q = n := by
  obtain ⟨hlo, hhi, heq⟩ := castTo_eq_some h
  rw [toInt64, if_pos ⟨hlo, hhi⟩, heq]

theorem toUInt32_of_castUInt32 {q : ℚ} {n : UInt32} (h : castUInt32 q = some n) :
    toUInt32 q = n := by
  obtain ⟨m, hm, rfl⟩ := Option.map_eq_some_iff.mp h
  obtain ⟨hlo, hhi, heq⟩ := castTo_eq_some hm
  rw [toUInt32, toInt64, if_pos (by omega), heq]

/-- The numbers that are cut to 2. -/
theorem of_toInt32_eq_two {q : ℚ} (h : toInt32 q = 2) : 2 ≤ q ∧ q < 3 := by
  have htrunc : trunc q = 2 := by
    unfold toInt32 at h
    split at h
    · exact h
    · norm_num at h
  have hrange := (trunc_eq_iff (by decide)).mp htrunc
  norm_num at hrange
  exact hrange

end Double
