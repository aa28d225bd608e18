-- SUMMARY: Hexadecimal text of byte strings, and the big-endian bytes of a number.
import CppMiner.Lib.Numerals
import CppMiner.Lib.Window

/-! # Hexadecimal

`decode` reads two digits a byte. It commutes with everything that respects pairs of
digits: appending, taking, dropping, and overwriting a window (`decode_overwrite`).
The text of a number of a fixed even width decodes to its big-endian bytes
(`decode_fixed`). -/

namespace Hex

open Window (overwrite)

/-- Whether a character is a hexadecimal digit of either case. -/
def isHexDigit (c : UInt8) : Bool := Numerals.isDigitOf 16 c

/-- The bytes of pairs of digits. A single digit at the end is left out. -/
def decode : Bytes → Bytes
  | hi :: lo :: s => UInt8.ofNat (Radix.decode 16 [hi, lo]) :: decode s
  | _ => []

theorem length_decode (s : Bytes) : (decode s).length = s.length / 2 := by
  induction s using decode.induct with
  | case1 hi lo s ih =>
    rw [decode, List.length_cons, ih, List.length_cons, List.length_cons]
    omega
  | case2 s h =>
    match s, h with
    | [], _ => rfl
    | [_], _ => simp [decode]
    | hi :: lo :: s, h => exact absurd rfl (h hi lo s)

theorem drop_decode (s : Bytes) (k : ℕ) : (decode s).drop k = decode (s.drop (2 * k)) := by
  induction k generalizing s with
  | zero => rfl
  | succ k ih =>
    match s with
    | [] => simp [decode]
    | [_] => simp [decode, Nat.mul_add]
    | hi :: lo :: s => exact ih s

theorem take_decode (s : Bytes) (k : ℕ) : (decode s).take k = decode (s.take (2 * k)) := by
  induction k generalizing s with
  | zero => simp [decode]
  | succ k ih =>
    match s with
    | [] => simp [decode]
    | [hi] => simp [decode, Nat.mul_add, List.take_succ_cons]
    | hi :: lo :: s =>
      simp only [decode, Nat.mul_add, List.take_succ_cons]
      rw [ih]

theorem decode_append {a : Bytes} (b : Bytes) (h : 2 ∣ a.length) :
    decode (a ++ b) = decode a ++ decode b := by
  induction a using decode.induct with
  | case1 hi lo a ih =>
    have ha : 2 ∣ a.length := by
      simp only [List.length_cons] at h
      omega
    simp only [List.cons_append, decode, ih ha]
  | case2 a hshort =>
    match a, h, hshort with
    | [], _, _ => rfl
    | [_], h, _ => simp at h
    | hi :: lo :: a, _, hshort => exact absurd rfl (hshort hi lo a)

theorem decode_overwrite {s w : Bytes} {i : ℕ} (h : 2 * i + w.length ≤ s.length)
    (hw : 2 ∣ w.length) : decode (overwrite s (2 * i) w) = overwrite (decode s) i (decode w) := by
  have htake : 2 ∣ (s.take (2 * i)).length := by
    rw [List.length_take]
    omega
  have hlen : i + (decode w).length = i + w.length / 2 := by rw [length_decode]
  have hdrop : 2 * i + w.length = 2 * (i + w.length / 2) := by omega
  rw [overwrite, overwrite, decode_append _ (by rw [List.length_append]; omega),
    decode_append _ htake, hlen, hdrop, drop_decode, take_decode]

/-! ## Numbers -/

/-- The `w` low bytes of `n`, the most significant first. -/
def bigEndian : ℕ → ℕ → Bytes
  | 0, _ => []
  | w + 1, n => bigEndian w (n / 256) ++ [UInt8.ofNat n]

@[simp] theorem length_bigEndian (w n : ℕ) : (bigEndian w n).length = w := by
  induction w generalizing n with
  | zero => rfl
  | succ w ih => simp [bigEndian, ih]

theorem decode_fixed (w n : ℕ) : decode (Radix.fixed 16 (2 * w) n) = bigEndian w n := by
  induction w generalizing n with
  | zero => rfl
  | succ w ih =>
    have hbyte : UInt8.ofNat (n / 16 % 16 * 16 + n % 16) = UInt8.ofNat n := by
      apply UInt8.toNat_inj.mp
      simp only [UInt8.toNat_ofNat']
      omega
    have hquot : n / 16 / 16 = n / 256 := by omega
    rw [Nat.mul_add, show 2 * w + 2 * 1 = 2 * w + 1 + 1 from rfl, Radix.fixed, Radix.fixed,
      List.append_assoc, decode_append _ (by simp), hquot, ih, bigEndian]
    have hhi : n / 16 % 16 < 36 := by omega
    have hlo : n % 16 < 36 := by omega
    simp [decode, Radix.decode, Radix.digitVal_digitChar hhi, Radix.digitVal_digitChar hlo, hbyte]

/-- The leading bytes are those of a quotient. -/
theorem take_bigEndian {w k : ℕ} (h : k ≤ w) (n : ℕ) :
    (bigEndian w n).take k = bigEndian k (n / 256 ^ (w - k)) := by
  induction w generalizing n with
  | zero =>
    obtain rfl : k = 0 := by omega
    rfl
  | succ w ih =>
    by_cases hk : k = w + 1
    · subst hk
      simp
    · rw [bigEndian, List.take_append_of_le_length (by rw [length_bigEndian]; omega),
        ih (by omega), Nat.div_div_eq_div_mul, Nat.succ_sub (by omega), pow_succ', Nat.mul_comm]

theorem bigEndian_inj {w n m : ℕ} (hn : n < 256 ^ w) (hm : m < 256 ^ w)
    (h : bigEndian w n = bigEndian w m) : n = m := by
  induction w generalizing n m with
  | zero => omega
  | succ w ih =>
    rw [bigEndian, bigEndian] at h
    obtain ⟨hfront, hlast⟩ := List.append_inj' h rfl
    have hquot := ih (n := n / 256) (m := m / 256)
      (by rw [Nat.div_lt_iff_lt_mul (by omega)]; omega)
      (by rw [Nat.div_lt_iff_lt_mul (by omega)]; omega) hfront
    have hbyte : n % 256 = m % 256 := by
      have := congrArg (fun l => (l.head?.map UInt8.toNat)) hlast
      simpa using this
    omega

/-- Numbers agree in their leading bytes if they do without the trailing ones. -/
theorem take_bigEndian_eq_iff {w n m : ℕ} (hn : n < 256 ^ w) (hm : m < 256 ^ w) (k : ℕ) :
    (bigEndian w n).take k = (bigEndian w m).take k ↔ n / 256 ^ (w - k) = m / 256 ^ (w - k) := by
  by_cases hk : k ≤ w
  · rw [take_bigEndian hk, take_bigEndian hk]
    have hpow : 256 ^ w = 256 ^ k * 256 ^ (w - k) := by rw [← pow_add, Nat.add_sub_cancel' hk]
    constructor
    · exact bigEndian_inj (Nat.div_lt_of_lt_mul (by rwa [Nat.mul_comm, ← hpow]))
        (Nat.div_lt_of_lt_mul (by rwa [Nat.mul_comm, ← hpow]))
    · exact fun h => by rw [h]
  · rw [List.take_of_length_le (by rw [length_bigEndian]; omega),
      List.take_of_length_le (by rw [length_bigEndian]; omega), Nat.sub_eq_zero_of_le (by omega)]
    simp only [pow_zero, Nat.div_one]
    exact ⟨bigEndian_inj hn hm, fun h => by rw [h]⟩

end Hex
