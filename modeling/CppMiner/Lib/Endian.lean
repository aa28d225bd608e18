-- SUMMARY: Numbers as a fixed count of bytes, the least or the most significant first.
import CppMiner.Lib.Hex

/-! # Byte order -/

namespace Endian

open Hex (bigEndian)

/-- The `w` low bytes of `n`, the least significant first. -/
def littleEndian : ℕ → ℕ → Bytes
  | 0, _ => []
  | w + 1, n => UInt8.ofNat n :: littleEndian w (n / 256)

/-- The number whose bytes these are, the most significant first. -/
def ofBigEndian (s : Bytes) : ℕ := s.foldl (fun n b => n * 256 + b.toNat) 0

theorem reverse_littleEndian (w n : ℕ) : (littleEndian w n).reverse = bigEndian w n := by
  induction w generalizing n with
  | zero => rfl
  | succ w ih => rw [littleEndian, List.reverse_cons, ih, bigEndian]

theorem littleEndian_eq_map (w n : ℕ) :
    littleEndian w n = (List.range w).map fun i => UInt8.ofNat (n / 256 ^ i) := by
  induction w generalizing n with
  | zero => rfl
  | succ w ih =>
    rw [littleEndian, ih, List.range_succ_eq_map, List.map_cons, List.map_map, Nat.pow_zero,
      Nat.div_one]
    refine congrArg (_ :: ·) (List.map_congr_left fun i _ => ?_)
    rw [Function.comp_apply, Nat.succ_eq_add_one, Nat.pow_succ', Nat.div_div_eq_div_mul]

theorem bigEndian_eq_map (w n : ℕ) :
    bigEndian w n = (List.range w).map fun i => UInt8.ofNat (n / 256 ^ (w - 1 - i)) := by
  rw [← reverse_littleEndian, littleEndian_eq_map, ← List.map_reverse]
  refine List.ext_getElem (by simp) fun i hi hi' => ?_
  rw [List.getElem_map, List.getElem_map, List.getElem_reverse, List.getElem_range,
    List.getElem_range, List.length_range]

theorem ofBigEndian_snoc (s : Bytes) (b : UInt8) :
    ofBigEndian (s ++ [b]) = ofBigEndian s * 256 + b.toNat := by
  rw [ofBigEndian, List.foldl_append]
  rfl

theorem ofBigEndian_append (s t : Bytes) :
    ofBigEndian (s ++ t) = ofBigEndian s * 256 ^ t.length + ofBigEndian t := by
  induction t using List.reverseRecOn with
  | nil => simp [ofBigEndian]
  | append_singleton t b ih =>
    rw [← List.append_assoc, ofBigEndian_snoc, ih, ofBigEndian_snoc, List.length_append,
      List.length_singleton, Nat.pow_succ]
    ring

theorem ofBigEndian_lt (s : Bytes) : ofBigEndian s < 256 ^ s.length := by
  induction s using List.reverseRecOn with
  | nil => exact Nat.one_pos
  | append_singleton s b ih =>
    have hb := b.toNat_lt
    rw [ofBigEndian_snoc, List.length_append, List.length_singleton, Nat.pow_succ]
    omega

/-- The leading bytes of a number decide whether it is below a multiple of the weight of the
last of them. -/
theorem ofBigEndian_take_lt_iff (s : Bytes) (k n : ℕ) :
    ofBigEndian (s.take k) < n ↔ ofBigEndian s < n * 256 ^ (s.length - k) := by
  have hsplit := ofBigEndian_append (s.take k) (s.drop k)
  have hlow := ofBigEndian_lt (s.drop k)
  rw [List.take_append_drop, List.length_drop] at hsplit
  rw [List.length_drop] at hlow
  rw [hsplit]
  constructor
  · intro hlt
    have hmul := Nat.mul_le_mul_right (256 ^ (s.length - k)) (Nat.succ_le_of_lt hlt)
    rw [Nat.succ_mul] at hmul
    omega
  · intro hlt
    exact lt_of_mul_lt_mul_right (lt_of_le_of_lt (Nat.le_add_right _ _) hlt) (Nat.zero_le _)

end Endian
