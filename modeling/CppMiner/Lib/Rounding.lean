-- SUMMARY: Rounding to doubles is monotone: within one unit, and across a power of two.
import Mathlib.Tactic.Linarith
import CppMiner.Lib.Double

/-! # Rounding is monotone

Two positive numbers either have the same unit in the last place, and then it is the rounding
to integers that decides, or there is a power of two between them, which is a double. A number
that is out of range stays exact; the order survives that as well (`round_mono`). -/

namespace Double

/-! ## Integers -/

theorem roundHalfEven_cases (q : ℚ) :
    (roundHalfEven q = ⌊q⌋ ∧ q - ⌊q⌋ ≤ 1 / 2) ∨
      (roundHalfEven q = ⌊q⌋ + 1 ∧ 1 / 2 ≤ q - ⌊q⌋) := by
  unfold roundHalfEven
  split
  · rename_i hbelow
    exact .inl ⟨rfl, hbelow.le⟩
  · rename_i hbelow
    split
    · rename_i habove
      exact .inr ⟨rfl, habove.le⟩
    · rename_i habove
      split
      · exact .inl ⟨rfl, not_lt.mp habove⟩
      · exact .inr ⟨rfl, not_lt.mp hbelow⟩

/-- An integer is at most one half away from what is rounded to it. -/
theorem roundHalfEven_bounds (q : ℚ) :
    (roundHalfEven q : ℚ) - 1 / 2 ≤ q ∧ q ≤ roundHalfEven q + 1 / 2 := by
  have hle := Int.floor_le q
  have hlt := Int.lt_floor_add_one q
  rcases roundHalfEven_cases q with ⟨hround, hfrac⟩ | ⟨hround, hfrac⟩
  · rw [hround]
    constructor <;> linarith
  · rw [hround]
    push_cast
    constructor <;> linarith

theorem roundHalfEven_mono {p q : ℚ} (h : p ≤ q) : roundHalfEven p ≤ roundHalfEven q := by
  by_contra hgt
  have hstep : (roundHalfEven q : ℚ) + 1 ≤ roundHalfEven p := by
    exact_mod_cast Int.add_one_le_of_lt (not_le.mp hgt)
  -- both are then halfway between the two integers
  have heq : p = q := by
    have hp := (roundHalfEven_bounds p).1
    have hq := (roundHalfEven_bounds q).2
    linarith
  exact hgt (heq ▸ le_rfl)

/-! ## Units -/

/-- The nearest number with 53 significant bits, whatever its exponent. -/
def rounded (q : ℚ) : ℚ := roundHalfEven (q / ulp q) * ulp q

theorem nearest_eq (q : ℚ) :
    nearest q =
      if 2 ^ 1024 ≤ |rounded q| then none
      else if |rounded q| < (2 ^ 1022)⁻¹ ∧ rounded q ≠ q then none
      else some (rounded q) := rfl

theorem le_rounded {q : ℚ} {m : ℤ} (h : m * ulp q ≤ q) : m * ulp q ≤ rounded q := by
  have hdiv : (m : ℚ) ≤ q / ulp q := (le_div_iff₀ (ulp_pos q)).mpr h
  have hround := roundHalfEven_mono hdiv
  rw [roundHalfEven_intCast] at hround
  exact mul_le_mul_of_nonneg_right (by exact_mod_cast hround) (ulp_pos q).le

theorem rounded_le {q : ℚ} {m : ℤ} (h : q ≤ m * ulp q) : rounded q ≤ m * ulp q := by
  have hdiv : q / ulp q ≤ (m : ℚ) := (div_le_iff₀ (ulp_pos q)).mpr h
  have hround := roundHalfEven_mono hdiv
  rw [roundHalfEven_intCast] at hround
  exact mul_le_mul_of_nonneg_right (by exact_mod_cast hround) (ulp_pos q).le

/-- A power of two is a multiple of a smaller one. -/
theorem exists_mul_zpow {a c : ℤ} (h : a ≤ c) : ∃ m : ℤ, (m : ℚ) * 2 ^ a = 2 ^ c := by
  obtain ⟨k, hk⟩ := Int.le.dest h
  refine ⟨2 ^ k, ?_⟩
  push_cast
  rw [← zpow_natCast, ← zpow_add₀ (by norm_num), add_comm, hk]

/-- Numbers with different units have a power of two between them, a multiple of both. -/
theorem exists_between {p q : ℚ} (hp : 0 < p) (h : p ≤ q) (hne : ulp p ≠ ulp q) :
    ∃ m m' : ℤ, m * ulp p = m' * ulp q ∧ p ≤ m * ulp p ∧ m' * ulp q ≤ q := by
  have hq : 0 < q := hp.trans_le h
  have hlog : Int.log 2 p ≤ Int.log 2 q := Int.log_mono_right hp h
  simp only [ulp, abs_of_pos hp, abs_of_pos hq] at hne ⊢
  -- the exponents differ, so that of `q` is above the least
  have hlt : max (Int.log 2 p) (-1022) < Int.log 2 q := by
    by_contra hle
    exact hne (by congr 2; omega)
  obtain ⟨m, hm⟩ := exists_mul_zpow
    (show max (Int.log 2 p) (-1022) - 52 ≤ Int.log 2 q by omega)
  obtain ⟨m', hm'⟩ := exists_mul_zpow
    (show max (Int.log 2 q) (-1022) - 52 ≤ Int.log 2 q by omega)
  refine ⟨m, m', hm.trans hm'.symm, ?_, ?_⟩
  · have hnext : p < 2 ^ (Int.log 2 p + 1) := Int.lt_zpow_succ_log_self one_lt_two p
    have hpow : (2 : ℚ) ^ (Int.log 2 p + 1) ≤ 2 ^ Int.log 2 q :=
      zpow_le_zpow_right₀ one_le_two (by omega)
    rw [hm]
    exact hnext.le.trans hpow
  · rw [hm']
    exact Int.zpow_log_le_self one_lt_two hq

/-! ## Range -/

/-- What `div` makes of the exact quotient. -/
def round (q : ℚ) : ℚ := (nearest q).getD q

def InRange (r : ℚ) : Prop := |r| < 2 ^ 1024 ∧ (2 ^ 1022)⁻¹ ≤ |r|

/-- What is subnormal is rounded only where that changes nothing. -/
theorem round_cases (q : ℚ) :
    (InRange (rounded q) ∧ round q = rounded q) ∨ (¬ InRange (rounded q) ∧ round q = q) := by
  rw [round, nearest_eq]
  split
  · rename_i hover
    exact .inr ⟨fun hin => absurd hin.1 (not_lt.mpr hover), rfl⟩
  · rename_i hover
    split
    · rename_i hsub
      exact .inr ⟨fun hin => absurd hin.2 (not_le.mpr hsub.1), rfl⟩
    · rename_i hsub
      by_cases hnormal : (2 ^ 1022)⁻¹ ≤ |rounded q|
      · exact .inl ⟨⟨not_le.mp hover, hnormal⟩, rfl⟩
      · have hexact : rounded q = q := by
          by_contra hne
          exact hsub ⟨not_le.mp hnormal, hne⟩
        exact .inr ⟨fun hin => hnormal hin.2, hexact⟩

/-- A multiple of the unit below a number stays below it, and one above it above. -/
theorem le_round {q : ℚ} {m : ℤ} (h : m * ulp q ≤ q) : m * ulp q ≤ round q := by
  rcases round_cases q with ⟨-, hround⟩ | ⟨-, hround⟩ <;> rw [hround]
  · exact le_rounded h
  · exact h

theorem round_le {q : ℚ} {m : ℤ} (h : q ≤ m * ulp q) : round q ≤ m * ulp q := by
  rcases round_cases q with ⟨-, hround⟩ | ⟨-, hround⟩ <;> rw [hround]
  · exact rounded_le h
  · exact h

/-- A number with its unit is at most one half unit away from what it is rounded to. -/
theorem rounded_bounds (q : ℚ) : rounded q - ulp q / 2 ≤ q ∧ q ≤ rounded q + ulp q / 2 := by
  have hbounds := roundHalfEven_bounds (q / ulp q)
  have hpos := ulp_pos q
  have hq : q / ulp q * ulp q = q := div_mul_cancel₀ q hpos.ne'
  have hlow := mul_le_mul_of_nonneg_right hbounds.1 hpos.le
  have hhigh := mul_le_mul_of_nonneg_right hbounds.2 hpos.le
  rw [hq] at hlow hhigh
  constructor <;> · rw [rounded]; linarith

theorem round_mono {p q : ℚ} (hp : 0 < p) (h : p ≤ q) : round p ≤ round q := by
  by_cases hulp : ulp p = ulp q
  · have hpos := ulp_pos q
    have hdiv : p / ulp q ≤ q / ulp q := div_le_div_of_nonneg_right h hpos.le
    have hround := roundHalfEven_mono hdiv
    rcases hround.eq_or_lt with heq | hlt
    · -- both are rounded, or both stay exact
      have hsame : rounded p = rounded q := by
        rw [rounded, rounded, hulp, heq]
      rcases round_cases p with ⟨hin, hroundp⟩ | ⟨hout, hroundp⟩ <;>
        rcases round_cases q with ⟨hin', hroundq⟩ | ⟨hout', hroundq⟩ <;>
        rw [hroundp, hroundq]
      · exact hsame.le
      · exact absurd (hsame ▸ hin) hout'
      · exact absurd (hsame ▸ hin') hout
      · exact h
    · -- what they are rounded to is one unit apart
      have hstep : rounded p + ulp q ≤ rounded q := by
        have hcast : (roundHalfEven (p / ulp q) : ℚ) + 1 ≤ roundHalfEven (q / ulp q) := by
          exact_mod_cast Int.add_one_le_of_lt hlt
        have hmul := mul_le_mul_of_nonneg_right hcast hpos.le
        rw [rounded, rounded, hulp]
        linarith
      have hboundp := (rounded_bounds p).2
      have hboundp' := (rounded_bounds p).1
      have hboundq := (rounded_bounds q).1
      rw [hulp] at hboundp hboundp'
      rcases round_cases p with ⟨-, hroundp⟩ | ⟨-, hroundp⟩ <;>
        rcases round_cases q with ⟨-, hroundq⟩ | ⟨-, hroundq⟩ <;>
        rw [hroundp, hroundq] <;> linarith
  -- with different units a multiple of both lies between, which neither is rounded past
  · obtain ⟨m, m', hsame, hle, hge⟩ := exists_between hp h hulp
    calc round p ≤ m * ulp p := round_le hle
      _ = m' * ulp q := hsame
      _ ≤ round q := le_round hge

theorem round_nonneg {q : ℚ} (h : 0 ≤ q) : 0 ≤ round q := by
  have hzero := le_round (q := q) (m := 0) (by simpa using h)
  simpa using hzero

theorem round_of_multiple {q : ℚ} {m : ℤ} (hm : q = m * ulp q) (hq : |q| < 2 ^ 1024) :
    round q = q := by
  rw [round, nearest_of_multiple hm hq]
  rfl

end Double
