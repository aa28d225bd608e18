-- SUMMARY: Arithmetic progressions of 32-bit words, and how long they stay without repetition.
import Mathlib.Data.Int.GCD
import Mathlib.Data.List.Nodup
import Mathlib.Data.Nat.ModEq
import Mathlib.Tactic.NormNum
import Mathlib.Tactic.Ring

/-! # Progressions

`a + i * s` over words repeats with the period `2 ^ 32 / gcd s (2 ^ 32)` and not before. In
one period it meets every word of its residue class modulo the gcd (`exists_term_iff`). -/

namespace Progression

/-- Term `i` of the progression with first term `a` and step `s`. -/
def term (a s : UInt32) (i : ℕ) : UInt32 := a + UInt32.ofNat i * s

theorem toNat_term (a s : UInt32) (i : ℕ) :
    (term a s i).toNat = (a.toNat + i * s.toNat) % 2 ^ 32 := by
  simp [term, UInt32.toNat_add, UInt32.toNat_mul, Nat.add_mod, Nat.mul_mod]

theorem term_zero (a s : UInt32) : term a s 0 = a := by
  simp [← UInt32.toNat_inj, toNat_term, Nat.mod_eq_of_lt a.toNat_lt]

/-- A progression that starts at a term of another one with the same step. -/
theorem term_term (a s : UInt32) (i j : ℕ) : term (term a s i) s j = term a s (i + j) := by
  rw [← UInt32.toNat_inj, toNat_term, toNat_term, toNat_term, Nat.mod_add_mod]
  congr 1
  ring

/-- The terms before the period are distinct. -/
theorem term_inj {a s : UInt32} {i j : ℕ} (hi : i < 2 ^ 32 / Nat.gcd s.toNat (2 ^ 32))
    (hj : j < 2 ^ 32 / Nat.gcd s.toNat (2 ^ 32)) (h : term a s i = term a s j) : i = j := by
  have hmod : a.toNat + i * s.toNat ≡ a.toNat + j * s.toNat [MOD 2 ^ 32] := by
    have := congrArg UInt32.toNat h
    rwa [toNat_term, toNat_term] at this
  have hcancel := Nat.ModEq.cancel_right_div_gcd (by norm_num) (Nat.ModEq.add_left_cancel' _ hmod)
  rw [Nat.gcd_comm] at hcancel
  exact hcancel.eq_of_lt_of_lt hi hj

theorem nodup_map_term {a s : UInt32} {n : ℕ} (h : n ≤ 2 ^ 32 / Nat.gcd s.toNat (2 ^ 32)) :
    ((List.range n).map (term a s)).Nodup := by
  refine List.Nodup.map_on (fun i hi j hj heq => ?_) List.nodup_range
  rw [List.mem_range] at hi hj
  exact term_inj (by omega) (by omega) heq

theorem map_term_add (a s : UInt32) (m n : ℕ) :
    (List.range (m + n)).map (term a s) =
      (List.range m).map (term a s) ++ (List.range n).map (term (term a s m) s) := by
  rw [List.range_add, List.map_append, List.map_map]
  congr 1
  exact List.map_congr_left fun i _ => (term_term a s m i).symm

/-- The words of one period are those of a residue class. -/
theorem exists_term_iff (a s n : UInt32) :
    (∃ i < 2 ^ 32 / Nat.gcd s.toNat (2 ^ 32), term a s i = n) ↔
      n.toNat ≡ a.toNat [MOD Nat.gcd s.toNat (2 ^ 32)] := by
  have hpos : 0 < Nat.gcd s.toNat (2 ^ 32) := Nat.gcd_pos_of_pos_right _ (by norm_num)
  have hdvd : Nat.gcd s.toNat (2 ^ 32) ∣ 2 ^ 32 := Nat.gcd_dvd_right _ _
  have hsdvd : Nat.gcd s.toNat (2 ^ 32) ∣ s.toNat := Nat.gcd_dvd_left _ _
  constructor
  · rintro ⟨i, -, rfl⟩
    have hmod := (Nat.mod_modEq (a.toNat + i * s.toNat) (2 ^ 32)).of_dvd hdvd
    have hstep : i * s.toNat ≡ 0 [MOD Nat.gcd s.toNat (2 ^ 32)] :=
      (hsdvd.mul_left i).modEq_zero_nat
    rw [toNat_term]
    exact hmod.trans (hstep.add_left a.toNat)
  · intro hn
    -- The distance to be covered is a multiple of the gcd, and the steps are coprime to
    -- the period once both are divided by it.
    have hcoprime : Nat.Coprime (s.toNat / Nat.gcd s.toNat (2 ^ 32))
        (2 ^ 32 / Nat.gcd s.toNat (2 ^ 32)) := Nat.coprime_div_gcd_div_gcd hpos
    have ha := a.toNat_lt
    have hdist : Nat.gcd s.toNat (2 ^ 32) ∣ n.toNat + 2 ^ 32 - a.toNat := by
      have hle : a.toNat ≤ n.toNat + 2 ^ 32 := by omega
      refine (Nat.modEq_iff_dvd' hle).mp (hn.symm.trans ?_)
      exact (hdvd.modEq_zero_nat.add_left n.toNat).symm
    obtain ⟨r, hr⟩ := hdist
    generalize hg : Nat.gcd s.toNat (2 ^ 32) = g at *
    obtain ⟨p, hp⟩ := hdvd
    obtain ⟨t, ht⟩ := hsdvd
    rw [hp, ht, Nat.mul_div_cancel_left _ hpos, Nat.mul_div_cancel_left _ hpos] at hcoprime
    have hppos : p ≠ 0 := by
      rintro rfl
      simp at hp
    obtain ⟨i, hi, hmul⟩ := Nat.exists_mul_mod_eq_of_coprime r hcoprime hppos
    refine ⟨i, by rwa [hp, Nat.mul_div_cancel_left _ hpos], UInt32.toNat_inj.mp ?_⟩
    have hreach : i * s.toNat ≡ g * r [MOD 2 ^ 32] := by
      rw [ht, hp, Nat.mul_left_comm, Nat.mul_comm i t]
      exact Nat.ModEq.mul_left' g hmul
    have htotal : a.toNat + i * s.toNat ≡ n.toNat [MOD 2 ^ 32] := by
      have hsum : a.toNat + g * r = n.toNat + 2 ^ 32 := by omega
      refine (hreach.add_left a.toNat).trans ?_
      rw [hsum]
      exact Nat.add_modEq_right
    rw [toNat_term, htotal, Nat.mod_eq_of_lt n.toNat_lt]

end Progression
